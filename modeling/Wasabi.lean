import Wasabi.Rust
import Wasabi.Support.ObjectMemory
import Wasabi.Support.Tiling
import Wasabi.Support.LinkedList
import Wasabi.Uefi.Exit
import Wasabi.Allocator.SizeRounding
import Wasabi.Allocator.BlockList
import Wasabi.Allocator.Registration
import Wasabi.Allocator.Runs
import Wasabi.Allocator.Reuse
import Wasabi.Allocator.HiddenHeader
import Wasabi.Allocator.UsableMemory
import Wasabi.Paging.InitPaging
import Wasabi.Paging.Calls
import Wasabi.Paging.Failure
import Wasabi.Paging.Format
import Wasabi.Paging.TableCount
import Wasabi.Paging.NextLevel
import Wasabi.X86.Transparency
import Wasabi.Graphics.Pixels
import Wasabi.Graphics.Painting
import Wasabi.Graphics.FillRect
import Wasabi.Graphics.DrawLine
import Wasabi.Graphics.Polyline
import Wasabi.Graphics.Oversized
import Wasabi.Graphics.Font
import Wasabi.Graphics.FontFormat
import Wasabi.Graphics.Text
import Wasabi.Print.Hexdump
import Wasabi.Print.HexdumpText
import Wasabi.Print.HexdumpLines
import Wasabi.Serial.Port
import Wasabi.Uefi.Iterator
import Wasabi.Uefi.Termination
import Wasabi.Support.RawBytes
import Wasabi.Allocator.Outside
import Wasabi.Allocator.Boxes
import Wasabi.Allocator.PageSupply
import Wasabi.Support.Simulation
import Wasabi.Paging.TableProgram
import Wasabi.Paging.HeapTables
import Wasabi.Paging.HeapMapping
import Wasabi.Paging.HeapBoot
import Wasabi.Support.PackedRecord
import Wasabi.X86.Descriptors
import Wasabi.X86.Segmentation
import Wasabi.X86.Exceptions
import Wasabi.X86.Nesting
import Wasabi.X86.BootOrder
import Wasabi.Graphics.Pictures
import Wasabi.Graphics.TestPattern
import Wasabi.Graphics.BootScreen
import Wasabi.Support.Templates
import Wasabi.Support.DecimalText
import Wasabi.Serial.Console
import Wasabi.Print.LogLines
import Wasabi.Qemu.Launch
import Wasabi.Qemu.TestRunner
import Wasabi.X86.Handler
import Wasabi.X86.CrashReport
import Wasabi.Paging.Dump
import Wasabi.Uefi.MemoryReport
import Wasabi.Serial.Setup
import Wasabi.X86.Breakpoint
import Wasabi.X86.ExceptionLog
import Wasabi.Boot.Main
import Wasabi.Boot.EfiMain
