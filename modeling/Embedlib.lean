import Embedlib.Library.Program
import Embedlib.ArrayUtils.SearchOverflow
import Embedlib.ArrayUtils.QueueCursor
import Embedlib.ArrayUtils.LifeCycle
import Embedlib.Library.LinkedTree
import Embedlib.RbtreeCompact.Capacity
import Embedlib.RbtreeCompact.TaggedRuns
import Embedlib.Rbtree.Symmetry
import Embedlib.Rb.Agreement
import Embedlib.Rb.Safety
import Embedlib.Rb.Reverse
import Embedlib.Rbtree.Iteration
import Embedlib.Rb.ForestRuns
import Embedlib.Rbtree.TaggedRuns
import Embedlib.Rb.Rounds
import Embedlib.ArrayUtils.QueueFifo
import Embedlib.ArrayUtils.MachineRuns
import Embedlib.Rb.Turnover
import Embedlib.Rbtree.Roaming
import Embedlib.RbtreeCompact.TaggedTours
import Embedlib.Rb.Unordered
import Embedlib.Rb.Traversal
