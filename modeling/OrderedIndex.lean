import OrderedIndex.SortedPairs
import OrderedIndex.Tree
import OrderedIndex.Value.Demand
import OrderedIndex.Value.Rule
import OrderedIndex.Proofs.Tree.Effect
import OrderedIndex.Proofs.Tree.Lockstep
import OrderedIndex.Proofs.Tree.Validity
import OrderedIndex.Proofs.Node.Checked
import OrderedIndex.Proofs.Value.Order
import OrderedIndex.Proofs.Node.Failure
import OrderedIndex.Proofs.Tree.Failure
import OrderedIndex.Proofs.Tree.Unordered
import OrderedIndex.Proofs.Tree.Content
import OrderedIndex.Proofs.Node.Bounds
import OrderedIndex.Proofs.Tree.Audit
import OrderedIndex.Proofs.Tree.Separators
import OrderedIndex.Proofs.Node.Cascade
import OrderedIndex.Proofs.Tree.Cascade
import OrderedIndex.Proofs.Tree.Height
import OrderedIndex.Proofs.Node.Keys
import OrderedIndex.Proofs.Tree.Session
import OrderedIndex.Proofs.Node.Edge
import OrderedIndex.Proofs.Tree.Monotone
import OrderedIndex.Proofs.Node.Occupancy
import OrderedIndex.Proofs.SortedPairs.Run
import OrderedIndex.Proofs.Node.Depth
import OrderedIndex.Proofs.Node.Listing
import OrderedIndex.Proofs.Tree.Levels
import OrderedIndex.Proofs.Node.Index
import OrderedIndex.Proofs.Node.Split
import OrderedIndex.Proofs.Node.Range
