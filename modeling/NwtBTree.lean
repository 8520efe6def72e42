import NwtBTree.Memory.Store
import NwtBTree.Source.Node
import NwtBTree.Source.Find
import NwtBTree.Source.Insert
import NwtBTree.Source.Erase
import NwtBTree.Source.Iterator
import NwtBTree.Multiway.Context
import NwtBTree.Memory.Links
import NwtBTree.Refine.View
import NwtBTree.Refine.Rep
import NwtBTree.Refine.Inner
import NwtBTree.Refine.SplitInner
import NwtBTree.Multiway.Growth
import NwtBTree.Refine.InsertParent
import NwtBTree.Refine.Leaf
import NwtBTree.Multiway.Search
import NwtBTree.Refine.Find
import NwtBTree.Refine.Insert
import NwtBTree.Multiway.Order
import NwtBTree.Multiway.Shape
import NwtBTree.Machine.Run
import NwtBTree.Multiway.Lead
import NwtBTree.Refine.Load
import NwtBTree.Runs.Append
import NwtBTree.Runs.Iterate
import NwtBTree.Refine.Walk
import NwtBTree.Multiway.Walk
import NwtBTree.Refine.Content
import NwtBTree.Refine.Scan
import NwtBTree.Refine.Scatter
import NwtBTree.Runs.Descend
import NwtBTree.Runs.Scattered
import NwtBTree.Multiway.Ordered
import NwtBTree.Calls.Lookup
import NwtBTree.Calls.InsertRoom
import NwtBTree.Calls.LeafSplit
import NwtBTree.Calls.ReplaceChild
import NwtBTree.Source.Key
import NwtBTree.Source.Registry
import NwtBTree.Machine.History
import NwtBTree.Refine.Registry
import NwtBTree.Runs.Locking
import NwtBTree.Runs.Registry
import NwtBTree.Calls.KeyData
import NwtBTree.Runs.Handles
import NwtBTree.Calls.Record
import NwtBTree.Runs.Unique
import NwtBTree.Multiway.Shrink
import NwtBTree.Multiway.Tell
import NwtBTree.Refine.Locate
import NwtBTree.Refine.RemoveChild
import NwtBTree.Refine.MergeInner
import NwtBTree.Refine.DeleteInner
import NwtBTree.Refine.Repair
import NwtBTree.Refine.EraseLeaf
import NwtBTree.Refine.Balance
import NwtBTree.Multiway.Even
import NwtBTree.Refine.Rebalance
import NwtBTree.Refine.Unlink
import NwtBTree.Refine.Stocked
import NwtBTree.Refine.Kept
import NwtBTree.Refine.Erase
import NwtBTree.Refine.Push
import NwtBTree.Refine.Spare
import NwtBTree.Refine.Front
import NwtBTree.Runs.Counting
import NwtBTree.Runs.Drain
import NwtBTree.Multiway.Ascend
import NwtBTree.Refine.Laden
import NwtBTree.Refine.Guide
import NwtBTree.Refine.Drainable
import NwtBTree.Runs.Repeats
import NwtBTree.Refine.Seam
import NwtBTree.Runs.Chaining
import NwtBTree.Runs.Absent
import NwtBTree.Calls.InsertPair
import NwtBTree.Runs.Payloads
import NwtBTree.Refine.Shortfall
import NwtBTree.Runs.Borrowing
import NwtBTree.Calls.SplitFull
import NwtBTree.Runs.Cascade
import NwtBTree.Runs.Redistribute
import NwtBTree.Runs.Capacities
import NwtBTree.Refine.Untouched
import NwtBTree.Runs.Merging
import NwtBTree.Refine.Pop
import NwtBTree.Runs.Deleting
import NwtBTree.Runs.Stack
import NwtBTree.Machine.Repeat
import NwtBTree.Calls.Traverse
import NwtBTree.Memory.BigEndian
import NwtBTree.Calls.KeyOrder
import NwtBTree.Calls.InnerNode
import NwtBTree.Calls.LocateChild
import NwtBTree.Machine.Threads
import NwtBTree.Source.Sections
import NwtBTree.Refine.Sections
import NwtBTree.Runs.Threads
import NwtBTree.Runs.Exclusive
import NwtBTree.Source.Interface
import NwtBTree.Runs.Interface
import NwtBTree.Source.Program
import NwtBTree.Runs.Printing
import NwtBTree.Runs.Program
import NwtBTree.Multiway.Height
import NwtBTree.Runs.Height
import NwtBTree.Machine.Ensures
import NwtBTree.Refine.Frame
import NwtBTree.Refine.Tidy
import NwtBTree.Runs.Leaves
import NwtBTree.Machine.Tracks
import NwtBTree.Runs.KeySet
import NwtBTree.Runs.Queue
import NwtBTree.Refine.Census
import NwtBTree.Runs.Ownership
