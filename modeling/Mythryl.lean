import Mythryl.Binary.MapBalance
import Mythryl.Binary.Set
import Mythryl.BinaryRandomAccessList
import Mythryl.Dates
import Mythryl.EqTypes.Traversal
import Mythryl.ExpandingRwVector
import Mythryl.FeedbackVertexSet.Search
import Mythryl.Graph.DigraphByAdjacencyList
import Mythryl.Graph.FlowOfEdges
import Mythryl.Graph.Johnson
import Mythryl.Graph.Kruskal
import Mythryl.Graph.MaximumMatching
import Mythryl.Graph.QueueRuns
import Mythryl.GraphByEdgeHashtable.Graph
import Mythryl.Hashtable.DoubleKeyedRuns
import Mythryl.Hashtable.Typelocked
import Mythryl.IntegerPackages
import Mythryl.IntervalSet.Builds
import Mythryl.KnuthMorrisPratt.Search
import Mythryl.ListMergesort.Duplicates
import Mythryl.LiteralToNum
import Mythryl.LiteralsBytecode.Meaning
import Mythryl.MapInterchange
import Mythryl.MultiwordIntGuts.Bitwise
import Mythryl.MultiwordIntGuts.Shifts
import Mythryl.OperatorPrecedence.Correctness
import Mythryl.Pickle.Thunk
import Mythryl.ProcessCommandline
import Mythryl.RedBlack.IntMap
import Mythryl.RedBlack.LinearTime
import Mythryl.RedBlack.NumberedListKeyed
import Mythryl.Regex.PerlBackrefs
import Mythryl.Regex.PerlGroups
import Mythryl.Regex.PerlPositions
import Mythryl.Regex.PerlTermination
import Mythryl.Regex.Simplification
import Mythryl.RwBoolVector.Maps
import Mythryl.RwQueue
import Mythryl.RwVectorQuicksort
import Mythryl.SparseRwVector
import Mythryl.Threadkit.Ended
import Mythryl.Threadkit.SleepQueue
import Mythryl.TimeGuts
import Mythryl.Unify.AcyclicRuns
import Mythryl.WinixPath.Parts
import Mythryl.WinixPath.Relative
