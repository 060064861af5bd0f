import Archon.Bridge.Unforgeable
import Archon.Core.BTreeBalance
import Archon.Core.Corruption
import Archon.Core.FileDevice
import Archon.Core.LogPrefix
import Archon.Core.MmapMut
import Archon.Core.OutOfRange
import Archon.Core.PinnedReads
import Archon.Core.Recovery
import Archon.Core.Transparent
import Archon.Kernel.Driver
import Archon.Kernel.Fairness
import Archon.Pgwire.DataRows
import Archon.Pgwire.FailedTxn
import Archon.Pgwire.Reader
import Archon.Pgwire.Startup
import Archon.Relational.AlterData
import Archon.Relational.CacheAgree
import Archon.Relational.DateTime
import Archon.Relational.Estimate
import Archon.Relational.InsertFinds
import Archon.Relational.IvfFlat
import Archon.Relational.LikeLaw
import Archon.Relational.Numbering
import Archon.Relational.QualifiedNames
import Archon.Relational.RecursiveCte
import Archon.Relational.Referential
import Archon.Relational.RowIds
import Archon.Relational.RowsFrame
import Archon.Relational.Serializable
import Archon.Relational.SetOperations
import Archon.Relational.Transparency
import Archon.Relational.WhereLaws
import Archon.Relational.WindowSafe
