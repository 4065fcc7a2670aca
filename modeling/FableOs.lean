import FableOs.Agenda.Reload
import FableOs.Apps.Sound
import FableOs.Apps.Sqrt
import FableOs.Apps.Ticks
import FableOs.Capability.Invoke
import FableOs.Capability.RoundTrip
import FableOs.Cc.Convert
import FableOs.Cc.Correct
import FableOs.Chat.Decode
import FableOs.Dvm.Asm.Correct
import FableOs.Dvm.Block
import FableOs.Dvm.Safety.Arrays
import FableOs.Dvm.Safety.Paths
import FableOs.Fat.Sector
import FableOs.Gui.Launch
import FableOs.Heap.Contract
import FableOs.Json.Cut
import FableOs.Screen.Paint
import FableOs.Sse.Chunks
import FableOs.Sse.Lossless
import FableOs.Trace.Emit
import FableOs.Vfs.Mount
