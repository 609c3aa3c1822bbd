import ListaOS.Lib.Mem
import ListaOS.Lib.Run
import ListaOS.Lib.Bitmap
import ListaOS.Lib.Pool
import ListaOS.Lib.Fifo
import ListaOS.Lib.PageWalk
import ListaOS.Lib.Fuel
import ListaOS.Lib.Numeral
import ListaOS.Mm.Basic
import ListaOS.Mm.Init
import ListaOS.Mm.Alloc
import ListaOS.Mm.Order
import ListaOS.Mm.MemoryMap
import ListaOS.Mm.Exact
import ListaOS.Mm.Heap
import ListaOS.Mm.HeapPool
import ListaOS.Mm.Fault
import ListaOS.Keyboard.Basic
import ListaOS.Keyboard.Queue
import ListaOS.Keyboard.Preempt
import ListaOS.Keyboard.Translate
import ListaOS.Keyboard.Modifiers
import ListaOS.Keyboard.Bounds
import ListaOS.Paging.Basic
import ListaOS.Paging.Boot
import ListaOS.Paging.Window
import ListaOS.Console.VideoMode
import ListaOS.Console.ModeSize
import ListaOS.Console.ModeList
import ListaOS.Console.Display
import ListaOS.Console.Basic
import ListaOS.Console.Window
import ListaOS.Console.Text
import ListaOS.Console.Cursor
import ListaOS.Console.Motion
import ListaOS.Console.Stores
import ListaOS.Console.Pitch
import ListaOS.Kernel.MainLoop
import ListaOS.Strings.Copy
import ListaOS.Strings.Memcpy
import ListaOS.Stdio.Numbers
import ListaOS.Stdio.Decimal
import ListaOS.Stdio.Float
import ListaOS.Stdio.Basic
import ListaOS.Stdio.Format
import ListaOS.Stdio.Buffers
import ListaOS.Stdio.Numerals
import ListaOS.Stdio.Sprintf
import ListaOS.Stdio.Agree
import ListaOS.Stdio.Reads
import ListaOS.Stdio.Fetch
import ListaOS.Stdio.Nested
import ListaOS.Console.Glyph
import ListaOS.Pci.Basic
import ListaOS.Pci.Enumerate
import ListaOS.Pci.Region
import ListaOS.Driver.Sata
import ListaOS.Driver.Dma
import ListaOS.Lib.Disk
import ListaOS.Lib.Fat16
import ListaOS.Boot.Init
import ListaOS.Boot.Geometry
import ListaOS.Boot.FindFile
import ListaOS.Boot.Directory
import ListaOS.Boot.LoadCluster
import ListaOS.Boot.LoadFile
import ListaOS.Boot.Mbr
import ListaOS.Boot.Chain
import ListaOS.Boot.Bss
import ListaOS.Boot.Probe
import ListaOS.Boot.Uefi
import ListaOS.Lib.Window
import ListaOS.Lib.Flat
import ListaOS.Paging.Layout
import ListaOS.Lib.Cpu
import ListaOS.Interrupt.Idt
import ListaOS.Interrupt.Gdt
import ListaOS.Interrupt.Pic
import ListaOS.Interrupt.Stubs
import ListaOS.Interrupt.Atomic
import ListaOS.Machine.Basic
import ListaOS.Machine.Refines
import ListaOS.Machine.MemoryMap
import ListaOS.Machine.Boot
import ListaOS.Machine.Demand
import ListaOS.Machine.Bytes
import ListaOS.Machine.Monitor
import ListaOS.Lib.Page
import ListaOS.Console.Font
import ListaOS.Console.Pixels
import ListaOS.Console.Page
import ListaOS.Console.Screen
import ListaOS.Kernel.Echo
import ListaOS.Machine.Mode
import ListaOS.Machine.Enter
import ListaOS.Machine.Memory
import ListaOS.Machine.Calls
import ListaOS.Machine.Image
import ListaOS.Machine.Gates
import ListaOS.Machine.PciList
import ListaOS.Machine.Kernel
import ListaOS.Machine.Main
