import Snfos.Library.ByteMemory
import Snfos.Library.BlockChain
import Snfos.Word
import Snfos.DynamicAllocation
import Snfos.HeapChain
import Snfos.HeapSteps
import Snfos.HeapContract
import Snfos.HeapClient
import Snfos.HeapLimits
import Snfos.HeapSafety
import Snfos.HeapRequests
import Snfos.Calloc
import Snfos.Realloc
import Snfos.HeapCoalescing
import Snfos.Allocator
import Snfos.SettledHeap
import Snfos.PageFrames
import Snfos.BootMap
import Snfos.Library.Command
import Snfos.Library.LinkedRing
import Snfos.Kernel
import Snfos.Budget
import Snfos.Paging
import Snfos.PageTables
import Snfos.FrameSupply
import Snfos.PageDirectory
import Snfos.PageAdditions
import Snfos.FreePage
import Snfos.PageMapping
import Snfos.Process
import Snfos.Estates
import Snfos.EstateChanges
import Snfos.EstateAccess
import Snfos.AddressSpace
import Snfos.SpaceSteps
import Snfos.ModuleLoading
import Snfos.LoadingFaults
import Snfos.ProcessRing
import Snfos.AddProcess
import Snfos.Fork
import Snfos.Exit
import Snfos.System
import Snfos.SystemSteps
import Snfos.Scheduling
import Snfos.Isolation
import Snfos.ForkCopies
import Snfos.Identity
import Snfos.Returns
import Snfos.HeapRoom
import Snfos.SmallMachine
import Snfos.KernelHeap
import Snfos.Reclaiming
import Snfos.Library.TextPage
import Snfos.Terminal
import Snfos.Library.Numeral
import Snfos.Library.Emit
import Snfos.Printf
import Snfos.PrintfFields
import Snfos.PrintfAccounting
import Snfos.PrintfNumbers
import Snfos.UserPrint
import Snfos.Directives
import Snfos.FormatScan
import Snfos.StarArguments
import Snfos.SystemCalls
import Snfos.Reservation
import Snfos.Memmove
import Snfos.Library.Assembly
import Snfos.Interrupts
import Snfos.BootPaging
import Snfos.ProgramArguments
import Snfos.LoadedImage
import Snfos.Library.Simulation
import Snfos.Bookkeeping
import Snfos.Ledger
import Snfos.HeapGrowth
import Snfos.UserMemory
import Snfos.Undisturbed
import Snfos.SpaceContents
import Snfos.Tasks
import Snfos.Refinement
import Snfos.KernelStacks
import Snfos.FrameTally
import Snfos.FrameBalance
import Snfos.BootMemory
import Snfos.StartUp
import Snfos.KernelMain
