import UcoreMips.Emulator.Multiply
import UcoreMips.Emulator.DeviceReads
import UcoreMips.Emulator.Operands
import UcoreMips.Emulator.ControlTransfer
import UcoreMips.Emulator.TlbWrite
import UcoreMips.Emulator.ClockTicks
import UcoreMips.Kernel.Mm.KmallocSizes
import UcoreMips.Kernel.Mm.DupMmap
import UcoreMips.Kernel.Mm.FaultMapping
import UcoreMips.Kernel.Mm.AllocPages
import UcoreMips.Kernel.Process.Reaping
import UcoreMips.Kernel.Process.Directories
import UcoreMips.Kernel.Sync.Monitor
import UcoreMips.Kernel.Fs.Stdin
import UcoreMips.Kernel.Fs.Descriptors
import UcoreMips.Kernel.Fs.Volume
import UcoreMips.Kernel.Fs.ZeroFill
import UcoreMips.Kernel.Fs.Sysfile
import UcoreMips.Kernel.Fs.ReadOnly
import UcoreMips.Kernel.Fs.Listing
import UcoreMips.User.Intrinsic
import UcoreMips.Kernel.Driver.Console
import UcoreMips.Kernel.Debug.Kmonitor
import UcoreMips.Tools.BlockCache
