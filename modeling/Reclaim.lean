import Reclaim.Word
import Reclaim.Value
import Reclaim.Strategy
import Reclaim.Fault
import Reclaim.Region
import Reclaim.Arena
import Reclaim.Text.Bytes
import Reclaim.Text.Lossy
import Reclaim.Text.Digest
import Reclaim.Object
import Reclaim.FreeList
import Reclaim.Roots
import Reclaim.Tables
import Reclaim.Stats
import Reclaim.Config
import Reclaim.Machine
import Reclaim.Trace
import Reclaim.Marking
import Reclaim.ObjectInfo
import Reclaim.Semispace
import Reclaim.MarkSweep
import Reclaim.Sliding
import Reclaim.Generational
import Reclaim.Counting
import Reclaim.Collector
import Reclaim.Mutator
import Reclaim.Mutator.Access
import Reclaim.Mutator.Construct
import Reclaim.Mutator.Globals
import Reclaim.Mutator.Inspect
import Reclaim.Workload
import Reclaim.Decimal.Fixed
import Reclaim.Report
import Reclaim.Setting
import Reclaim.Settings
import Reclaim.Settings.Toml.Layout
import Reclaim.Settings.Toml.Quoted
import Reclaim.Settings.Toml.Number
import Reclaim.Settings.Toml.Moment
import Reclaim.Settings.Toml.Tree
import Reclaim.Settings.Toml
import Reclaim.CommandLine
import Reclaim.Program
import Reclaim.Main
import Reclaim.Proofs.Runs
import Reclaim.Proofs.Words
import Reclaim.Proofs.Graph
import Reclaim.Proofs.Blocks
import Reclaim.Proofs.Visiting
import Reclaim.Proofs.Evacuation
import Reclaim.Proofs.Renaming
import Reclaim.Proofs.Demand
import Reclaim.Proofs.Generational.Flags
import Reclaim.Proofs.Generational.State
import Reclaim.Proofs.Generational.Minor
import Reclaim.Proofs.Generational.Remembering
import Reclaim.Proofs.Generational.Scanning
import Reclaim.Proofs.Generational.MinorCollection
import Reclaim.Proofs.Marking
import Reclaim.Proofs.Compaction
import Reclaim.Proofs.Stores
import Reclaim.Proofs.Laws
import Reclaim.Proofs.Plain
import Reclaim.Proofs.Mutator
import Reclaim.Proofs.Access
import Reclaim.Proofs.Construction
import Reclaim.Proofs.Globals
import Reclaim.Proofs.Session
import Reclaim.Proofs.Shortage
import Reclaim.Proofs.Sliding.Collection
import Reclaim.Proofs.Generational.Major
import Reclaim.Proofs.Generational.MajorCollection
import Reclaim.Proofs.Generational.Compacted
import Reclaim.Proofs.Generational.Operations
import Reclaim.Proofs.Generational.Allocation
import Reclaim.Proofs.Generational.Reserve
import Reclaim.Proofs.Generational.Remembered
import Reclaim.Proofs.Semispace.Collection
import Reclaim.Proofs.FreeList
import Reclaim.Proofs.MarkSweep.Collection
import Reclaim.Proofs.Blank
import Reclaim.Proofs.Semispace.Operations
import Reclaim.Proofs.Sliding.Operations
import Reclaim.Proofs.Chunks
import Reclaim.Proofs.Carving
import Reclaim.Proofs.TiledObjects
import Reclaim.Proofs.MarkSweep.Operations
import Reclaim.Proofs.Counting.Counts
import Reclaim.Proofs.Counting.Release
import Reclaim.Proofs.Counting.Scan
import Reclaim.Proofs.Counting.Balance
import Reclaim.Proofs.Counting.Writes
import Reclaim.Proofs.Counting.Operations
import Reclaim.Proofs.Conservation
import Reclaim.Proofs.Counting.Making
import Reclaim.Proofs.Counting.Commands
import Reclaim.Proofs.Counting.Steps
import Reclaim.Proofs.Counting.Barren
import Reclaim.Proofs.Counting.Courses
import Reclaim.Proofs.Counting.Crowding
import Reclaim.Proofs.Shape
import Reclaim.Proofs.Bindings
import Reclaim.Proofs.Counting.Letting
import Reclaim.Proofs.Definitions
import Reclaim.Proofs.Footing
import Reclaim.Proofs.Generational.Barrier
import Reclaim.Proofs.Generational.FullCollection
import Reclaim.Proofs.Generational.Exhaustion
import Reclaim.Proofs.GlobalMap
import Reclaim.Proofs.Survival
import Reclaim.Proofs.Frame
import Reclaim.Proofs.Reading
import Reclaim.Proofs.Wreckage
import Reclaim.Proofs.Generational.Wreckage
import Reclaim.Proofs.Counting.Wreckage
import Reclaim.Proofs.Spoils
import Reclaim.Proofs.Aftermath
import Reclaim.Proofs.Traps
import Reclaim.Proofs.Counting.Reclamation
import Reclaim.Proofs.MovingAccounts
import Reclaim.Proofs.FreeListAccounts
import Reclaim.Proofs.Data
import Reclaim.Proofs.Pinned
import Reclaim.Proofs.Presented
import Reclaim.Proofs.Trees
import Reclaim.Proofs.Workloads
import Reclaim.Proofs.Fits
import Reclaim.Proofs.Searching
import Reclaim.Proofs.Semispace.Layout
import Reclaim.Proofs.Unmoved
import Reclaim.Proofs.GrayStack
import Reclaim.Proofs.Contract
import Reclaim.Proofs.Walk
import Reclaim.Proofs.Lawful
import Reclaim.Proofs.Paths
import Reclaim.Proofs.Lists
import Reclaim.Proofs.Refusals
import Reclaim.Proofs.Places
import Reclaim.Proofs.Texts
import Reclaim.Proofs.Scripts
import Reclaim.Proofs.Portraits
import Reclaim.Proofs.Mirrors
import Reclaim.Proofs.MarkSweep.Void
import Reclaim.Proofs.Transparency
