import LibSeal.Auditing.Event
import LibSeal.Auditing.Http
import LibSeal.Auditing.HttpBody
import LibSeal.Auditing.HttpChunks
import LibSeal.Auditing.HttpForgery
import LibSeal.Auditing.HttpFraming
import LibSeal.Auditing.HttpHead
import LibSeal.Auditing.HttpMessage
import LibSeal.Auditing.HttpSpelling
import LibSeal.Auditing.Jsmn
import LibSeal.Auditing.JsmnTokens
import LibSeal.Auditing.JsonHelper
import LibSeal.Auditing.Tuple
import LibSeal.Connection.Blocks
import LibSeal.Connection.Exchange
import LibSeal.Connection.Faithful
import LibSeal.Connection.InitGuard
import LibSeal.Connection.Log
import LibSeal.Data.Bytes
import LibSeal.Data.ClosedCode
import LibSeal.Data.CxxString
import LibSeal.Data.HashChain
import LibSeal.Data.Interleaving
import LibSeal.Data.Json
import LibSeal.Data.JsonBrackets
import LibSeal.Data.KeyedMachine
import LibSeal.Data.Loop
import LibSeal.Data.Memory
import LibSeal.Data.Numerals
import LibSeal.Data.OrderedMap
import LibSeal.Data.Simulation
import LibSeal.Data.SqlConnection
import LibSeal.Data.SqlLike
import LibSeal.Data.SqlQuery
import LibSeal.Data.SqlSchema
import LibSeal.Data.SqlText
import LibSeal.Dropbox.Brackets
import LibSeal.Dropbox.Completeness
import LibSeal.Dropbox.Content
import LibSeal.Dropbox.EmptyList
import LibSeal.Dropbox.Entries
import LibSeal.Dropbox.EventTime
import LibSeal.Dropbox.Main
import LibSeal.Dropbox.Relations
import LibSeal.Dropbox.UrlEncoding
import LibSeal.Git.Advertisement
import LibSeal.Git.AuditedTrimming
import LibSeal.Git.Completeness
import LibSeal.Git.History
import LibSeal.Git.LogicalTime
import LibSeal.Git.Main
import LibSeal.Git.Pack
import LibSeal.Git.PacketSafety
import LibSeal.Git.PktLine
import LibSeal.Git.Push
import LibSeal.Git.Relations
import LibSeal.Git.Report
import LibSeal.Git.Repository
import LibSeal.Git.SideBand
import LibSeal.Git.Soundness
import LibSeal.Git.TrimmedLog
import LibSeal.Git.Trimming
import LibSeal.Logpoint.ChainHead
import LibSeal.Logpoint.CommitOrder
import LibSeal.Logpoint.CounterService
import LibSeal.Logpoint.Insert
import LibSeal.Logpoint.PeriodicCheck
import LibSeal.Logpoint.Restart
import LibSeal.Logpoint.SignatureText
import LibSeal.Logpoint.SignedInsert
import LibSeal.Logpoint.SqlSafety
import LibSeal.Logpoint.StatementSizes
import LibSeal.Logpoint.TamperEvidence
import LibSeal.Logpoint.Threads
import LibSeal.Logpoint.Transaction
import LibSeal.OwnCloud.Docs
import LibSeal.OwnCloud.Operations
import LibSeal.OwnCloud.Soundness
import LibSeal.OwnCloud.TokenRange
import LibSeal.OwnCloud.UpdateText
import LibSeal.Connection.AllocationFailure
import LibSeal.OwnCloud.Main
import LibSeal.Auditing.RowTimes
import LibSeal.Counter.Agreement
import LibSeal.Counter.Progress
import LibSeal.Git.Exchanges
import LibSeal.Git.EndToEnd
import LibSeal.Git.Verdict
import LibSeal.Auditing.JsmnAccepts
import LibSeal.Auditing.JsmnRanges
import LibSeal.Logpoint.Conservation
import LibSeal.Connection.Traffic
import LibSeal.Dropbox.Base64
import LibSeal.Logpoint.AuditedTraffic
import LibSeal.Dropbox.EndToEnd
import LibSeal.Dropbox.Verdict
import LibSeal.OwnCloud.Polls
import LibSeal.OwnCloud.Exchanges
import LibSeal.OwnCloud.EndToEnd
import LibSeal.Data.SqlLikeUtf8
import LibSeal.OwnCloud.Verdict
import LibSeal.Counter.Configuration
