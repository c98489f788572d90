import CheviotBoot.Lib.Bytes
import CheviotBoot.Lib.Align
import CheviotBoot.Lib.BitField
import CheviotBoot.Lib.File
import CheviotBoot.Lib.CString
import CheviotBoot.Lib.Buffer
import CheviotBoot.Lib.Lockstep
import CheviotBoot.Lib.Logged
import CheviotBoot.Lib.Steps
import CheviotBoot.Lib.Outcome
import CheviotBoot.Lib.Loop
import CheviotBoot.Lib.Memory
import CheviotBoot.Lib.Reading
import CheviotBoot.Lib.WordTable
import CheviotBoot.Lib.Numeral
import CheviotBoot.Lib.Chain
import CheviotBoot.Lib.Conforms
import CheviotBoot.Lib.Ring
import CheviotBoot.Lib.Channel
import CheviotBoot.Lib.LastSaid
import CheviotBoot.Mkifs.Tool
import CheviotBoot.Mkifs.Source
import CheviotBoot.Mkifs.Walk
import CheviotBoot.Mkifs.NewNodes
import CheviotBoot.Mkifs.Paths
import CheviotBoot.Mkifs.Layout
import CheviotBoot.Mkifs.Extents
import CheviotBoot.Mkifs.Image
import CheviotBoot.Mkifs.Numbering
import CheviotBoot.Mkifs.NodeTable
import CheviotBoot.Mkifs.Determinism
import CheviotBoot.Mkifs.Indexing
import CheviotBoot.Mkifs.Combined
import CheviotBoot.Mkifs.Length
import CheviotBoot.Mkifs.Seen
import CheviotBoot.Mkifs.Packed
import CheviotBoot.Mkifs.Changed
import CheviotBoot.Mkifs.Relocated
import CheviotBoot.KernelImage.Combine
import CheviotBoot.KernelImage.Alike
import CheviotBoot.Loader.Elf
import CheviotBoot.Loader.Lookup
import CheviotBoot.Loader.RoundTrip
import CheviotBoot.Loader.Order
import CheviotBoot.Loader.Headers
import CheviotBoot.Loader.BootInfo
import CheviotBoot.Loader.Segments
import CheviotBoot.Loader.Refusal
import CheviotBoot.Loader.Reader
import CheviotBoot.Loader.Inside
import CheviotBoot.Loader.Agreement
import CheviotBoot.Loader.Placement
import CheviotBoot.Board.Gpio
import CheviotBoot.Board.Levels
import CheviotBoot.Board.Pins
import CheviotBoot.Board.Init
import CheviotBoot.Board.Property
import CheviotBoot.Board.PageTables
import CheviotBoot.Board.Filled
import CheviotBoot.Board.Bootstrap
import CheviotBoot.Board.Walk
import CheviotBoot.Board.Mapping
import CheviotBoot.Board.IoMap
import CheviotBoot.Board.RaspberryPi1
import CheviotBoot.Boot.Main
import CheviotBoot.Boot.BoardInit
import CheviotBoot.Boot.Handoff
import CheviotBoot.Boot.Regions
import CheviotBoot.Boot.Ceiling
import CheviotBoot.Boot.KernelFile
import CheviotBoot.Boot.Booted
import CheviotBoot.Boot.FromTree
import CheviotBoot.Boot.Panic
import CheviotBoot.Console.Printf
import CheviotBoot.Console.Format
import CheviotBoot.Console.Scanning
import CheviotBoot.Console.Integers
import CheviotBoot.Console.Rendering
import CheviotBoot.Console.Bounded
import CheviotBoot.Console.Grammar
import CheviotBoot.Console.Scanner
import CheviotBoot.Console.Terminator
import CheviotBoot.Console.Recovery
import CheviotBoot.Console.Uart
import CheviotBoot.Console.Lines
import CheviotBoot.Lists.Linked
import CheviotBoot.Lists.Sequences
import CheviotBoot.Lists.Queue
import CheviotBoot.Lists.Circleq
import CheviotBoot.Lists.Heap
import CheviotBoot.Lists.InsertAfter
import CheviotBoot.Lists.Turns
import CheviotBoot.Mkifs.NodeList
