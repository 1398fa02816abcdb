import Oxyn.Lib.Text
import Oxyn.Lib.Cursor
import Oxyn.Lib.Reading
import Oxyn.Lib.Loop
import Oxyn.Lib.Aggregate
import Oxyn.Lib.Runs
import Oxyn.Lib.Needle
import Oxyn.ClickHouse.Exception
import Oxyn.ClickHouse.Reread
import Oxyn.Lib.Ring
import Oxyn.Lib.Offsets
import Oxyn.Core.Query
import Oxyn.Core.Connection
import Oxyn.Catalog.Quote
import Oxyn.Catalog.Literal
import Oxyn.Catalog.Words
import Oxyn.Core.Command
import Oxyn.Core.Policy
import Oxyn.Query.Scan
import Oxyn.Query.Split
import Oxyn.Query.Mysql
import Oxyn.Query.Boundary
import Oxyn.Query.Coverage
import Oxyn.Query.Locality
import Oxyn.Query.Compose
import Oxyn.Query.Quoting
import Oxyn.Query.Executable
import Oxyn.Query.View
import Oxyn.Query.Ast
import Oxyn.Query.Classify
import Oxyn.Query.Severity
import Oxyn.Query.ReadOnly
import Oxyn.Query.Batch
import Oxyn.Query.Current
import Oxyn.Query.Trigger
import Oxyn.Query.Isolate
import Oxyn.Query.Program
import Oxyn.Redis.Credential
import Oxyn.Redis.Trim
import Oxyn.Redis.Answers
import Oxyn.Redis.Render
import Oxyn.Redis.Verdict
import Oxyn.Redis.Reuse
import Oxyn.Redis.Silent
import Oxyn.Redis.Commands
import Oxyn.Redis.Bounded
import Oxyn.Exec.Approval
import Oxyn.Exec.Reclassify
import Oxyn.Exec.Executor
import Oxyn.Exec.Gate
import Oxyn.Exec.CatalogEviction
import Oxyn.Exec.Retained
import Oxyn.Exec.CatalogPlaces
import Oxyn.Exec.CatalogRace
import Oxyn.Exec.CatalogRelist
import Oxyn.Json.Prefilter
import Oxyn.Mongo.Command
import Oxyn.Mongo.Request
import Oxyn.Data.Calls
import Oxyn.Data.Export
import Oxyn.Data.Quota
import Oxyn.Core.Descend
import Oxyn.Core.Finish
import Oxyn.Core.Waiting
import Oxyn.Store.Delivery
import Oxyn.Store.Transcript
import Oxyn.Store.Sessions
import Oxyn.Store.History
import Oxyn.Llm.Ended
import Oxyn.Llm.Frames
import Oxyn.Llm.Cards
import Oxyn.Ai.Untrusted
import Oxyn.Ai.Accounting
import Oxyn.Ai.Loading
import Oxyn.Store.Retention
import Oxyn.Data.ValuePage
import Oxyn.Data.Find
import Oxyn.Desktop.Openings
import Oxyn.Driver.Pasted
import Oxyn.ClickHouse.Bound
import Oxyn.ClickHouse.Refuse
import Oxyn.ClickHouse.Decode
import Oxyn.Postgres.Interval
import Oxyn.Postgres.Network
import Oxyn.Postgres.Numeric
import Oxyn.Desktop.Markdown
import Oxyn.Desktop.Confirm
import Oxyn.Mysql.Pinned
import Oxyn.Postgres.Pinned
import Oxyn.Search.Unbounded
import Oxyn.Search.Endpoint
