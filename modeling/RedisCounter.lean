import RedisCounter.Memory
import RedisCounter.Sds.Basic
import RedisCounter.Sds.SplitArgs
import RedisCounter.Dict.Basic
import RedisCounter.Dict.Table
import RedisCounter.Dict.Rehash
import RedisCounter.Dict.Operations
import RedisCounter.Lib.Decimal
import RedisCounter.Lib.Run
import RedisCounter.Sds.Number
import RedisCounter.Sds.Format
import RedisCounter.Db.Basic
import RedisCounter.Db.Keyspace
import RedisCounter.Db.Runs
import RedisCounter.Command.Basic
import RedisCounter.Command.Request
import RedisCounter.Command.Effects
import RedisCounter.Command.Refinement
import RedisCounter.Command.Binary
import RedisCounter.Command.Replies
import RedisCounter.Command.Agreement
import RedisCounter.Command.Decrement
import RedisCounter.Command.Malformed
import RedisCounter.Server.Loop
import RedisCounter.Server.Routing
import RedisCounter.Server.Stream
import RedisCounter.Command.History
import RedisCounter.Command.Outbuf
import RedisCounter.Server.Session
import RedisCounter.Command.Decoder
import RedisCounter.Command.Grammar
import RedisCounter.Command.Increment
import RedisCounter.Memory.Zmalloc
import RedisCounter.Server.Bounds
import RedisCounter.Server.Epoll
import RedisCounter.Command.Quoting
import RedisCounter.Lib.Literal
import RedisCounter.Sqlite.Basic
import RedisCounter.Sqlite.Statements
import RedisCounter.Sqlite.Store
import RedisCounter.Dict.Calls
import RedisCounter.Dict.Iterator
import RedisCounter.Dict.IteratorRuns
import RedisCounter.Dict.Progress
import RedisCounter.Dict.Random
import RedisCounter.Sds.Runs
import RedisCounter.Sds.Split
import RedisCounter.Adlist.Runs
import RedisCounter.Adlist.Iteration
import RedisCounter.Db.Hash
import RedisCounter.Dict.Ownership
