import Ucore.Data.Bounded
import Ucore.Data.Lockstep
import Ucore.Data.Run
import Ucore.Data.Ring
import Ucore.Data.Extent
import Ucore.Data.Dyadic
import Ucore.Data.Coalescing
import Ucore.Data.Confluence
import Ucore.Data.Bytes
import Ucore.Data.Chain
import Ucore.Data.Image
import Ucore.Libs.List
import Ucore.Libs.List.Sequence
import Ucore.Libs.List.Placed
import Ucore.Mm.Memlayout
import Ucore.Mm.Pmm
import Ucore.Mm.Script
import Ucore.Mm.FitPmm
import Ucore.Mm.DefaultPmm
import Ucore.Mm.BestFitPmm
import Ucore.Mm.Fit.Blocks
import Ucore.Mm.Fit.Refinement
import Ucore.Mm.Fit.Operations
import Ucore.Mm.Fit.Search
import Ucore.Mm.Fit.Invariant
import Ucore.Mm.Fit.Steady
import Ucore.Mm.Fit.Ownership
import Ucore.Mm.Fit.Structure
import Ucore.Mm.Fit.Availability
import Ucore.Mm.Fit.Progress
import Ucore.Mm.Fit.Confined
import Ucore.Mm.Fit.FirstFit
import Ucore.Mm.Fit.BestFit
import Ucore.Mm.Fit.Canonical
import Ucore.Mm.Fit.Mirrors
import Ucore.Mm.Fit.Relocation
import Ucore.Mm.BuddyPmm
import Ucore.Mm.Buddy.Refinement
import Ucore.Mm.Buddy.Operations
import Ucore.Mm.Buddy.Boot
import Ucore.Mm.Buddy.Invariant
import Ucore.Mm.Buddy.FreeLists
import Ucore.Mm.Buddy.Steady
import Ucore.Mm.Buddy.Overlap
import Ucore.Mm.Buddy.Merging
import Ucore.Mm.Buddy.Conservation
import Ucore.Mm.Buddy.Alignment
import Ucore.Mm.Buddy.Recovery
import Ucore.Mm.Buddy.Canonical
import Ucore.Mm.Buddy.Representation
import Ucore.Mm.Buddy.Allocation
import Ucore.Mm.Buddy.RegionCut
import Ucore.Mm.Buddy.Descriptor
import Ucore.Mm.FreshPages
import Ucore.Mm.Mmu
import Ucore.Mm.Slub
import Ucore.Mm.Slub.Layout
import Ucore.Mm.Slub.Invariant
import Ucore.Mm.Slub.Placement
import Ucore.Mm.Slub.Pages
import Ucore.Mm.Slub.Operations
import Ucore.Mm.Slub.Kmalloc
import Ucore.Mm.Slub.Bookkeeping
import Ucore.Mm.Slub.Isolation
import Ucore.Mm.Slub.Service
import Ucore.Mm.Slub.Growth
import Ucore.Mm.Slub.Backing
import Ucore.Mm.BuddyCheck
import Ucore.Mm.BuddyCheck.Calls
import Ucore.Mm.Buddy.Vacancy
import Ucore.Mm.BuddyCheck.Outcome
import Ucore.Mm.FitCheck
import Ucore.Mm.FitCheck.Emptied
import Ucore.Mm.FitCheck.Outcome
import Ucore.Mm.PmmInit
import Ucore.Mm.PmmInit.Initialised
import Ucore.Mm.PmmInit.Progress
import Ucore.Mm.PmmInit.Protection
import Ucore.Mm.KernelHeap
import Ucore.Mm.KernelHeap.Calls
import Ucore.Mm.KernelHeap.Script
import Ucore.Mm.KernelHeap.Sharing
import Ucore.Mm.KernelHeap.Managers
import Ucore.Libs.Memmove
import Ucore.Libs.String
import Ucore.Libs.StringOps
import Ucore.Libs.StringOps.Copying
import Ucore.Libs.StringOps.Comparison
import Ucore.Libs.Strtol
import Ucore.Libs.Strtol.Grammar
import Ucore.Libs.Strtol.Scan
import Ucore.Libs.Printfmt
import Ucore.Data.Numeral
import Ucore.Libs.Printfmt.Output
import Ucore.Libs.Printfmt.Scan
import Ucore.Libs.Printfmt.Fields
import Ucore.Libs.Printfmt.Numbers
import Ucore.Libs.Printfmt.Printnum
import Ucore.Libs.Printfmt.Strings
import Ucore.Libs.Printfmt.Rounds
import Ucore.Libs.Printfmt.Truncation
import Ucore.Libs.Printfmt.Conversions
import Ucore.Libs.Printfmt.Scanning
import Ucore.Libs.Printfmt.Precision
import Ucore.Libs.Printfmt.Bounds
import Ucore.Libs.Printfmt.Rendering
import Ucore.Libs.Printfmt.Composition
import Ucore.Libs.RoundTrip
import Ucore.Libs.Readline
import Ucore.Libs.Stdio
import Ucore.Libs.Readline.Editing
import Ucore.Driver.Dtb
import Ucore.Driver.Dtb.Words
import Ucore.Driver.Dtb.Rounds
import Ucore.Driver.Dtb.Walk
import Ucore.Driver.Dtb.Bounds
import Ucore.Driver.Dtb.Tree
import Ucore.Driver.Dtb.Decode
import Ucore.Driver.Dtb.Discovery
import Ucore.Mm.PageInit
import Ucore.Mm.PageInit.Handover
import Ucore.Mm.PageArray
