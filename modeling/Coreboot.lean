import Coreboot.CmosToolStrings
import Coreboot.MrcCacheRun
import Coreboot.ImdRecovery
import Coreboot.TimerRun
import Coreboot.ApWork
import Coreboot.AcpiNamestring
import Coreboot.AcpiProgramGrammar
import Coreboot.PciScan
import Coreboot.ArmPageTable
import Coreboot.Arm64PageTable
import Coreboot.Tpm2Command
import Coreboot.RmoduleStage
import Coreboot.SmmLoader
import Coreboot.PayloadExport
import Coreboot.CmosAgreement
import Coreboot.ElfAgreement
import Coreboot.FlightPlan
import Coreboot.TpmFactory
import Coreboot.RegionFileTermination
import Coreboot.SelfloadReport
import Coreboot.Timestamp
import Coreboot.CorebootTableAgreement
import Coreboot.VbootFaithful
import Coreboot.SandybridgeLayout
import Coreboot.CoopThreadsSound
import Coreboot.VbnvFailure
import Coreboot.BootmemBuffers
import Coreboot.MtrrFixed
import Coreboot.MemrangeFill
import Coreboot.CbfsLoad
import Coreboot.CbfsVerification
import Coreboot.CbfsAgreement
import Coreboot.ImdIds
import Coreboot.MemPool
import Coreboot.MemrangePool
import Coreboot.ImdOverflow
import Coreboot.ResourceAllocation
import Coreboot.CbfsCopied
import Coreboot.Base64
import Coreboot.ConsoleHandover
import Coreboot.FitTable
import Coreboot.FlashmapEmission
import Coreboot.Memalign
import Coreboot.FspRelocate
import Coreboot.RmoduleExtract
import Coreboot.XipStage
import Coreboot.WinbondFlash
import Coreboot.ElfStageImage
import Coreboot.IpChecksum
import Coreboot.AcpiDevicePath
import Coreboot.AcpiTables
import Coreboot.XmpFields
import Coreboot.DimmSlots
import Coreboot.SpdChecksum
