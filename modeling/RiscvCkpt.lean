import RiscvCkpt.Base.ByteCodec
import RiscvCkpt.Base.ByteMemory
import RiscvCkpt.Base.ByteParser
import RiscvCkpt.Base.FirstAccess
import RiscvCkpt.Base.MachineInt
import RiscvCkpt.Base.HeadQueue
import RiscvCkpt.Base.CText
import RiscvCkpt.Base.Lz77
import RiscvCkpt.Base.Dialogue
import RiscvCkpt.Base.Clocked
import RiscvCkpt.Create.CkptInfo
import RiscvCkpt.Create.Bookkeeping
import RiscvCkpt.Create.FirstLoads
import RiscvCkpt.Create.SaveSysInfo
import RiscvCkpt.Restore.UserJmp
import RiscvCkpt.Restore.TakeoverSyscall
import RiscvCkpt.Restore.RewriteSysInfo
import RiscvCkpt.Create.SaveFirstLoads
import RiscvCkpt.Restore.ReadFirstLoads
import RiscvCkpt.Restore.Blocks
import RiscvCkpt.Restore.RecoverFirstLoads
import RiscvCkpt.Restore.Compckpt
import RiscvCkpt.Restore.ReadFloads
import RiscvCkpt.Create.Ranges
import RiscvCkpt.Create.DetectOver
import RiscvCkpt.Restore.CkptFile
import RiscvCkpt.Create.Interval
import RiscvCkpt.Create.RecordedBytes
import RiscvCkpt.Create.Replay
import RiscvCkpt.Restore.Coverage
import RiscvCkpt.Restore.LoaderSpace
import RiscvCkpt.Restore.RestoredCode
import RiscvCkpt.Restore.RestoredData
import RiscvCkpt.Restore.ElfSegments
import RiscvCkpt.Base.Rv64
import RiscvCkpt.Restore.Encoders
import RiscvCkpt.Restore.MidPoints
import RiscvCkpt.Restore.Trampoline
import RiscvCkpt.Restore.MidPointData
import RiscvCkpt.Restore.Readckpt
import RiscvCkpt.Cpu.MemState
import RiscvCkpt.Restore.MappingReplay
import RiscvCkpt.Cpu.Tick
import RiscvCkpt.Cpu.TextMap
import RiscvCkpt.Cpu.Run
import RiscvCkpt.Cpu.Scheduler
import RiscvCkpt.Cpu.ExitInstruction
import RiscvCkpt.Cpu.Created
import RiscvCkpt.Cpu.Settings
import RiscvCkpt.Cpu.SettingsFile
import RiscvCkpt.Cpu.ParsedSettings
import RiscvCkpt.Cpu.Hooks
import RiscvCkpt.Cpu.StartState
import RiscvCkpt.Cpu.Windows
import RiscvCkpt.Cpu.ExecutedText
import RiscvCkpt.Cpu.ClosedWindows
import RiscvCkpt.Cpu.StrictLength
import RiscvCkpt.Cpu.Recreate
import RiscvCkpt.Cpu.RecreatedCalls
import RiscvCkpt.Cpu.DecodeCache
import RiscvCkpt.Cpu.SyscallEmul
import RiscvCkpt.Cpu.TraceCollect
import RiscvCkpt.Cpu.TraceRun
import RiscvCkpt.Cpu.ExitWidth
import RiscvCkpt.Fastlz.Format
import RiscvCkpt.Fastlz.Compress
import RiscvCkpt.Fastlz.Parse
import RiscvCkpt.Fastlz.Compressed
import RiscvCkpt.Fastlz.Decompress
import RiscvCkpt.Fastlz.RoundTrip
import RiscvCkpt.Fastlz.Safety
import RiscvCkpt.Fastlz.Contract
import RiscvCkpt.Fastlz.Incompressible
import RiscvCkpt.Restore.CkptTools
import RiscvCkpt.Restore.ReplayedRun
import RiscvCkpt.Restore.JumpedReplay
import RiscvCkpt.Restore.WholeReplay
import RiscvCkpt.Fpga.Sampling
import RiscvCkpt.Fpga.SamplePeriod
import RiscvCkpt.Fpga.SampleFunc
