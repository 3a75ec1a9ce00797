import Espbewi.Lib.Monitor
import Mathlib.Data.UInt

/-! `espbewi-tls`: the MbedTLS and PSA calls behind `validate_cert_key_pair` and
`generate_self_signed_identity`. -/

namespace Espbewi.Tls

open Lib Prog

structure KeyAttributes where
  type : UInt16
  bits : UInt16
  lifetime : UInt32
  usage : UInt32
  alg : UInt32
  alg2 : UInt32
  id : UInt32
  deriving DecidableEq

/-- The calls out of the crate. A function has one context of each kind it uses, so that the calls need
not name it; PEM texts and names are passed with their NUL. -/
inductive FfiOp
  | psaCryptoInit
  | psaGenerateKey (attributes : KeyAttributes)
  | psaDestroyKey (key : UInt32)
  | pkInit
  | pkCopyFromPsa (key : UInt32)
  | pkParseKey (pem : List UInt8)
  | pkCheckPair
  | pkWriteKeyPem (size : Nat)
  | pkFree
  | crtInit
  | crtParse (pem : List UInt8)
  | crtFree
  | writeCrtInit
  | writeCrtSetSubjectName (name : List UInt8)
  | writeCrtSetIssuerName (name : List UInt8)
  | writeCrtSetSubjectKey
  | writeCrtSetIssuerKey
  | writeCrtSetSerialRaw (serial : Vector UInt8 16)
  | writeCrtSetValidity (notBefore notAfter : List UInt8)
  | writeCrtSetMdAlgSha256
  | writeCrtSetBasicConstraints (isCa maxPathlen : Int32)
  | writeCrtPem (size : Nat)
  | writeCrtFree
  | rngRead (size : Nat)

@[reducible] def FfiOp.Ans : FfiOp → Type
  | .psaCryptoInit | .pkCopyFromPsa _ | .pkParseKey _ | .pkCheckPair | .crtParse _
  | .writeCrtSetSubjectName _ | .writeCrtSetIssuerName _ | .writeCrtSetSerialRaw _
  | .writeCrtSetValidity .. | .writeCrtSetBasicConstraints .. | .psaDestroyKey _ => Int32
  | .psaGenerateKey _ => Int32 × UInt32
  | .pkWriteKeyPem size | .writeCrtPem size => Int32 × Vector UInt8 size
  | .rngRead size => Vector UInt8 size
  | .pkInit | .pkFree | .crtInit | .crtFree | .writeCrtInit | .writeCrtSetSubjectKey
  | .writeCrtSetIssuerKey | .writeCrtSetMdAlgSha256 | .writeCrtFree => Unit

abbrev FfiProg (α : Type) := Prog FfiOp FfiOp.Ans α

abbrev FfiM (ε α : Type) := ExceptT ε (Prog FfiOp FfiOp.Ans) α

def ffi (o : FfiOp) : FfiProg o.Ans := op o

/-- A call whose return code is checked. -/
def checkRc {ε : Type} (p : FfiProg Int32) (e : Int32 → ε) : FfiM ε Unit :=
  ExceptT.mk (p >>= fun rc => if rc = 0 then .ret (.ok ()) else .ret (.error (e rc)))

/-- `CString::new`, with the NUL. -/
def cString (bytes : List UInt8) : Option (List UInt8) :=
  if 0 ∈ bytes then none else some (bytes ++ [0])

/-! ### `validate_cert_key_pair` -/

inductive PairError
  | invalidCertificate
  | invalidPrivateKey
  | mismatch
  deriving DecidableEq

def parsePair (certC keyC : List UInt8) : FfiM PairError Unit := do
  ExceptT.lift (ffi .crtInit)
  ExceptT.lift (ffi .pkInit)
  checkRc (ffi (.crtParse certC)) fun _ => .invalidCertificate
  checkRc (ffi (.pkParseKey keyC)) fun _ => .invalidPrivateKey
  checkRc (ffi .pkCheckPair) fun _ => .mismatch

/-- `Drop for Contexts` of `validate_cert_key_pair`. -/
def dropPair : FfiProg Unit := do
  ffi .crtFree
  ffi .pkFree

def validateCertKeyPair (certPem keyPem : List UInt8) : FfiProg (Except PairError Unit) :=
  match cString certPem, cString keyPem with
  | none, _ => pure (.error .invalidCertificate)
  | some _, none => pure (.error .invalidPrivateKey)
  | some certC, some keyC => do
    let result ← ExceptT.run (parsePair certC keyC)
    dropPair
    return result

/-! ### `generate_self_signed_identity` -/

inductive IdentityGenerationError
  | invalidName
  | psaInit (rc : Int32)
  | keyGeneration (rc : Int32)
  | keySetup (rc : Int32)
  | keyEncoding (rc : Int32)
  | certificateSetup (rc : Int32)
  | certificateEncoding (rc : Int32)
  | invalidUtf8
  deriving DecidableEq

structure GeneratedIdentity where
  certPem : List UInt8
  keyPem : List UInt8
  deriving DecidableEq

def PSA_ECC_FAMILY_SECP_R1 : UInt16 := 0x12
def PSA_KEY_TYPE_ECC_KEY_PAIR_BASE : UInt16 := 0x7100
def PSA_KEY_USAGE_EXPORT : UInt32 := 0x00000001
def KEY_TYPE : UInt16 := PSA_KEY_TYPE_ECC_KEY_PAIR_BASE ||| PSA_ECC_FAMILY_SECP_R1

def attributes : KeyAttributes where
  type := KEY_TYPE
  bits := 256
  lifetime := 0
  usage := PSA_KEY_USAGE_EXPORT
  alg := 0
  alg2 := 0
  id := 0

/-- The bytes of an ASCII literal. -/
def ascii (text : String) : List UInt8 := text.toList.map fun c => UInt8.ofNat c.toNat

def NOT_BEFORE : List UInt8 := ascii "20260101000000"
def NOT_AFTER : List UInt8 := ascii "20991231235959"

/-- Positive, and not zero. -/
def serialOf (random : Vector UInt8 16) : Vector UInt8 16 :=
  random.set 0 ((random[0] &&& 0x7f) ||| 0x01)

def utf8 (bytes : List UInt8) : Bool := ByteArray.validateUTF8 ⟨bytes.toArray⟩

/-- The text before the first NUL of a buffer, or all of it. -/
def pemString (buf : List UInt8) : Except IdentityGenerationError (List UInt8) :=
  let text := buf.takeWhile (· ≠ 0)
  if utf8 text then .ok text else .error .invalidUtf8

def setup (p : FfiProg Int32) : FfiM IdentityGenerationError Unit := checkRc p .certificateSetup

/-- From the certificate context to the two PEM texts. -/
def certify (keyId : UInt32) (subject : List UInt8) : FfiM IdentityGenerationError GeneratedIdentity := do
  ExceptT.lift (ffi .pkInit)
  checkRc (ffi (.pkCopyFromPsa keyId)) .keySetup
  ExceptT.lift (ffi .writeCrtInit)
  setup (ffi (.writeCrtSetSubjectName subject))
  setup (ffi (.writeCrtSetIssuerName subject))
  ExceptT.lift (ffi .writeCrtSetSubjectKey)
  ExceptT.lift (ffi .writeCrtSetIssuerKey)
  let random ← ExceptT.lift (ffi (.rngRead 16))
  setup (ffi (.writeCrtSetSerialRaw (serialOf random)))
  setup (ffi (.writeCrtSetValidity (NOT_BEFORE ++ [0]) (NOT_AFTER ++ [0])))
  ExceptT.lift (ffi .writeCrtSetMdAlgSha256)
  setup (ffi (.writeCrtSetBasicConstraints 0 (-1)))
  let (rc, keyBuf) ← ExceptT.lift (ffi (.pkWriteKeyPem 1024))
  if rc ≠ 0 then throw (.keyEncoding rc)
  let (rc, certBuf) ← ExceptT.lift (ffi (.writeCrtPem 2048))
  if rc ≠ 0 then throw (.certificateEncoding rc)
  let certPem ← Prog.ofExcept (pemString certBuf.toList)
  let keyPem ← Prog.ofExcept (pemString keyBuf.toList)
  return ⟨certPem, keyPem⟩

/-- The body of the function, and the key id that its contexts hold at the end. -/
def buildIdentity (subject : List UInt8) :
    FfiProg (Except IdentityGenerationError GeneratedIdentity × UInt32) := do
  let rc ← ffi .psaCryptoInit
  if rc ≠ 0 then return (.error (.psaInit rc), 0)
  let (rc, keyId) ← ffi (.psaGenerateKey attributes)
  if rc ≠ 0 ∨ keyId = 0 then return (.error (.keyGeneration rc), keyId)
  let result ← ExceptT.run (certify keyId subject)
  return (result, keyId)

/-- `Drop for Contexts` of `generate_self_signed_identity`. -/
def dropIdentity (keyId : UInt32) : FfiProg Unit := do
  ffi .writeCrtFree
  ffi .pkFree
  if keyId ≠ 0 then
    let _ ← ffi (.psaDestroyKey keyId)
    pure ()

def generateSelfSignedIdentity (commonName : List UInt8) :
    FfiProg (Except IdentityGenerationError GeneratedIdentity) :=
  match cString (ascii "CN=" ++ commonName) with
  | none => pure (.error .invalidName)
  | some subject => do
    let (result, keyId) ← buildIdentity subject
    dropIdentity keyId
    return result

end Espbewi.Tls
