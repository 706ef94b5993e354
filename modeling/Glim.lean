import Glim.GString.World
import Glim.GString.Ownership
import Glim.GString.Appending
import Glim.GString.Contents
import Glim.GString.Netstring
import Glim.GString.StdString
import Glim.GString.Time
import Glim.GString.Provenance
import Glim.GString.Refinement
import Glim.Pool.Basic
import Glim.Pool.Fields
import Glim.Pool.Stored
import Glim.Pool.Reads
import Glim.Pool.Report
import Glim.Pool.Typed
import Glim.Pool.Delta
import Glim.Ldb.Basic
import Glim.Ldb.Batch
import Glim.Ldb.Refinement
import Glim.Ldb.Iterator
import Glim.Ldb.Range
import Glim.Ldb.StartsWith
import Glim.Ldb.SeekLast
import Glim.Ldb.NumberKeys
import Glim.Mdb.Index
import Glim.Mdb.Iteration
import Glim.Channel.Delivery
import Glim.Runner.Jobs
import Glim.Runner.Removal
import Glim.Runner.Writes
import Glim.Runner.Finished
import Glim.Runner.Locks
import Glim.RunnerV2.Lifetime
import Glim.RunnerV2.Serving
import Glim.Pool.Variants
import Glim.CBCoro.Protocol
import Glim.CBCoro.Stacks
import Glim.GString.Compare
import Glim.GString.Numbers
import Glim.GString.Atomic
import Glim.GString.Decoding
import Glim.GString.OwnView
import Glim.GString.OutOfMemory
import Glim.GString.Capacity
import Glim.GString.Double
import Glim.GString.IntAt
import Glim.Mdb.Finished
import Glim.Sqlite.Busy
import Glim.Sqlite.Reexecution
import Glim.Sqlite.Statements
import Glim.Sqlite.Objects
import Glim.Channel.Throwing
import Glim.Hget.Until
import Glim.Curl.Upload
import Glim.Curl.Transfers
import Glim.Curl.Debug
import Glim.Runner.Destruction
import Glim.Runner.Waiting
import Glim.Pool.Sharing
import Glim.Ldb.Walking
import Glim.Mdb.Walking
import Glim.Mdb.Multimap
import Glim.Exception.Scoping
import Glim.RunnerV2.Informed
import Glim.Hget.Freed
import Glim.Hget.Turns
