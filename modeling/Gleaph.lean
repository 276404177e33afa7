import Gleaph.IndexKey.Range
import Gleaph.IndexKey.TextPrefix
import Gleaph.Postings.TopK.Sound
import Gleaph.Postings.Codecs
import Gleaph.Derived.Delivery
import Gleaph.Derived.Convergence
import Gleaph.Derived.Barrier
import Gleaph.Unique.Safety
import Gleaph.Build.Convergence
import Gleaph.Search.Admission
import Gleaph.Search.Leading
import Gleaph.Bulk.Ending
import Gleaph.Bulk.UpdateReceipts
import Gleaph.Join.Wire
import Gleaph.Unique.Slots
import Gleaph.LabelStats.Runs
import Gleaph.Federation.HavingVerdict
import Gleaph.Postings.Merge
import Gleaph.Gql.Like
import Gleaph.EdgeIndex
import Gleaph.Plan.Specialize
import Gleaph.Plan.Streaming
import Gleaph.VectorPartition.Nearest
import Gleaph.VectorPartition.Rebuild
import Gleaph.VectorPartition.Copies
import Gleaph.Temporal
