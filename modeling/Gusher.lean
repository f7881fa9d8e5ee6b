import Gusher.Library.CString
import Gusher.Library.Conversion
import Gusher.Library.Formula
import Gusher.Library.Http
import Gusher.Library.Json
import Gusher.Library.JsonText
import Gusher.Library.Proc
import Gusher.Library.Run
import Gusher.Library.Linearizable
import Gusher.Library.Effects
import Gusher.Library.LinkedList
import Gusher.Library.Splice
import Gusher.Library.Loop
import Gusher.Library.Mark
import Gusher.Library.Memory
import Gusher.Library.OnePass
import Gusher.Library.Parallel
import Gusher.Library.Search
import Gusher.Library.Socket
import Gusher.Library.Termination
import Gusher.Library.Sorting
import Gusher.Library.SqlLexer
import Gusher.Library.SqlBlanks
import Gusher.Library.Urlencoded
import Gusher.Scheme.Object
import Gusher.Scheme.Utf8
import Gusher.Scheme.Number
import Gusher.Scheme.Time
import Gusher.Scheme.Calendar
import Gusher.Scheme.Json
import Gusher.Scheme.JsonRoundTrip
import Gusher.Scheme.JsonLookup
import Gusher.Scheme.Locale
import Gusher.Scheme.StringCat
import Gusher.Scheme.Timestamp
import Gusher.Scheme.TimeArithmetic
import Gusher.Scheme.ZonedTime
import Gusher.Server.Frame
import Gusher.Server.System
import Gusher.Server.Queue
import Gusher.Server.Threads
import Gusher.Server.Busy
import Gusher.Server.Ownership
import Gusher.Server.Cleanup
import Gusher.Server.Wakeup
import Gusher.Request.Query
import Gusher.Request.Body
import Gusher.Request.BodyReading
import Gusher.Request.Multipart
import Gusher.Request.MultipartText
import Gusher.Request.MultipartForm
import Gusher.Request.FormFields
import Gusher.Request.Post
import Gusher.Request.QueryText
import Gusher.Request.FormEncodings
import Gusher.Request.Line
import Gusher.Request.Headers
import Gusher.Request.Buffers
import Gusher.Request.Decoding
import Gusher.Request.Handlers
import Gusher.Request.LineBuffer
import Gusher.Request.MultipartSafety
import Gusher.Request.Redefinition
import Gusher.Request.Registration
import Gusher.Request.Safety
import Gusher.Request.Strcasestr
import Gusher.Client.Headers
import Gusher.Reply.Send
import Gusher.Reply.Cookie
import Gusher.Reply.Response
import Gusher.Template.Segments
import Gusher.Template.Fill
import Gusher.Template.Faithful
import Gusher.Template.Stages
import Gusher.Cache.Node
import Gusher.Cache.Steps
import Gusher.Cache.Changes
import Gusher.Cache.Coherence
import Gusher.Cache.Locks
import Gusher.Cache.Graph
import Gusher.Cache.Collection
import Gusher.Cache.Dag
import Gusher.Cache.Threads
import Gusher.Cache.Exclusion
import Gusher.Cache.Regeneration
import Gusher.Cache.Freshness
import Gusher.Cache.Concurrent
import Gusher.Cache.Progress
import Gusher.Cache.Watch
import Gusher.Store.Chunks
import Gusher.Client.Transfer
import Gusher.Client.Xml
import Gusher.Client.RemoteCall
import Gusher.Store.Postgres
import Gusher.Store.Column
import Gusher.Store.Cursor
import Gusher.Store.DateStyle
import Gusher.Store.Kv
import Gusher.Store.KvMap
import Gusher.Store.Refinement
import Gusher.Store.KvSql
import Gusher.Store.Messaging
import Gusher.Store.Publish
import Gusher.Store.ReadWrite
import Gusher.Store.Registry
import Gusher.Store.Delivery
import Gusher.Store.Interleaving
import Gusher.Store.Session
import Gusher.Store.Overlap
import Gusher.Store.SessionCalls
import Gusher.Store.Parameters
import Gusher.Store.Deflate
import Gusher.Store.PostedPairs
import Gusher.Store.PostBuffer
import Gusher.Store.TrimCat
import Gusher.Cron.Jobs
import Gusher.Cron.Loop
import Gusher.Cron.Minutes
