import CompOrg.Lib.TransitionSystem
import CompOrg.Lib.ByteMemory
import CompOrg.Lib.Segments
import CompOrg.Lib.Words
import CompOrg.Lib.CStdlib
import CompOrg.Lib.Numerals
import CompOrg.Lib.QuotedWords
import CompOrg.Lib.Positional
import CompOrg.Lib.Fscanf
import CompOrg.Lib.Figures
import CompOrg.Lib.Decimals
import CompOrg.Lib.FloatFormat
import CompOrg.Lib.AddressSpace
import CompOrg.Lib.X86
import CompOrg.Lib.Bubble
import CompOrg.Lib.Ranges
import CompOrg.Assembly.Power
import CompOrg.Assembly.Extremum
import CompOrg.Malloc.Memlib
import CompOrg.Malloc.Allocator
import CompOrg.Malloc.NextFitInvariant
import CompOrg.Malloc.Layout
import CompOrg.Malloc.Coalesce
import CompOrg.Malloc.Refinement
import CompOrg.Malloc.Interface
import CompOrg.Malloc.Client
import CompOrg.Malloc.Safety
import CompOrg.Malloc.Entries
import CompOrg.Malloc.Placement
import CompOrg.Malloc.FreeOrder
import CompOrg.Malloc.AnySize
import CompOrg.Malloc.Realloc
import CompOrg.Malloc.Determinism
import CompOrg.Malloc.Driver
import CompOrg.Malloc.Evaluation
import CompOrg.Malloc.Replay
import CompOrg.Malloc.Checking
import CompOrg.Malloc.Utilization
import CompOrg.Malloc.Grading
import CompOrg.Malloc.TraceFile
import CompOrg.Malloc.Timing
import CompOrg.Shell.JobTable
import CompOrg.Shell.JobIds
import CompOrg.Shell.Model
import CompOrg.Shell.Invariant
import CompOrg.Shell.Foreground
import CompOrg.Shell.EmptySlots
import CompOrg.Shell.Mirror
import CompOrg.Shell.Listing
import CompOrg.Shell.Reaping
import CompOrg.Shell.Nested
import CompOrg.Shell.Keyboard
import CompOrg.Shell.BgFg
import CompOrg.Shell.FullTable
import CompOrg.Shell.Parseline
import CompOrg.Shell.CommandLine
import CompOrg.Shell.MainLoop
import CompOrg.Bank.Model
import CompOrg.Bank.Service
import CompOrg.Bank.Accesses
import CompOrg.Bank.Handshake
import CompOrg.Bank.Growth
import CompOrg.FileIO.Reader
import CompOrg.FileIO.Scanning
import CompOrg.FileIO.Delivery
import CompOrg.FileIO.Writer
import CompOrg.FileIO.Regrowth
import CompOrg.FileIO.Bounds
import CompOrg.SortFile.Input
import CompOrg.SortFile.Main
import CompOrg.SortFile.BubbleSort
import CompOrg.SortFile.RoundTrip
import CompOrg.FileIO.RoundTrip
import CompOrg.FileIO.Program
import CompOrg.Lib.TwosComplement
import CompOrg.Lib.Smallest
import CompOrg.Bits.FloatTwice
import CompOrg.Bits.Puzzles
import CompOrg.Bits.FloatPuzzles
import CompOrg.Bits.TestSet
import CompOrg.Bits.Harness
import CompOrg.Bits.Show
import CompOrg.Bits.ShowFloat
import CompOrg.Bits.Options
import CompOrg.Bits.BinPrint
