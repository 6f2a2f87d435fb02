import MosaOS.AllocatorRuns
import MosaOS.BootMemory
import MosaOS.Lib.PageWalk
import MosaOS.Paging
import MosaOS.Reachable
import MosaOS.Heap
import MosaOS.Firmware
import MosaOS.Lib.ByteMem
import MosaOS.LoadKernel
import MosaOS.LoadedImage
import MosaOS.LoadedPages
import MosaOS.Sbrk
import MosaOS.Orientation
import MosaOS.OwnedRange
import MosaOS.RetryLoop
import MosaOS.BootBounds
import MosaOS.Lib.Layer
import MosaOS.Lib.Loop
import MosaOS.Bmp
import MosaOS.MakeFont
import MosaOS.Screen
import MosaOS.Canvas
import MosaOS.ScreenManager
import MosaOS.KernelDrawing
import MosaOS.Console
import MosaOS.PrintFrame
import MosaOS.MakeFontLoop
import MosaOS.Lib.NextList
import MosaOS.ScreenList
import MosaOS.UefiMain
import MosaOS.Lib.BitFields
import MosaOS.Lib.Descriptor
import MosaOS.Segment
import MosaOS.Interrupt
import MosaOS.Lib.Machine
import MosaOS.AsmFunc
import MosaOS.EntryPoint
import MosaOS.Setup
import MosaOS.Grants
import MosaOS.Clients
import MosaOS.KernelMain
import MosaOS.KernelBoot
import MosaOS.KernelHalt
import MosaOS.BootPicture
import MosaOS.KernelDisplay
import MosaOS.BootFiles
import MosaOS.WholeBoot
