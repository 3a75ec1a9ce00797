import Espbewi.Lib.Prog
import Espbewi.Lib.Nor
import Espbewi.Lib.Trace
import Espbewi.Lib.Stream
import Espbewi.Hardware.FlashRead
import Espbewi.Ota.OtadataLaws
import Espbewi.System.PowerRuns
import Espbewi.System.Activation
import Espbewi.System.Running
import Espbewi.System.Jump
import Espbewi.System.Upload
import Espbewi.System.Protocol
import Espbewi.System.Confined
import Espbewi.System.Loading
import Espbewi.Ota.StorageCalls
import Espbewi.Ota.Driving
import Espbewi.Sample
import Espbewi.Hardware.PartitionTable
import Espbewi.System.LayoutAgreement
import Espbewi.Services.TlsClock
import Espbewi.Services.TlsSocket
import Espbewi.ConfigSpace.Reservations
import Espbewi.ConfigSpace.Capacity
import Espbewi.Services.Wifi
import Espbewi.Hardware.FlashProgram
import Espbewi.ConfigSpace.Records
import Espbewi.ConfigSpace.Health
import Espbewi.System.Readers
import Espbewi.System.Counters
import Espbewi.Ota.Preloaded
import Espbewi.System.UploadBoot
import Espbewi.System.Phases
import Espbewi.Services.WifiSession
import Espbewi.Services.TlsContexts
import Espbewi.Services.TlsOutcome
