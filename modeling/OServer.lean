import OServer.Lib.Avl
import OServer.Lib.Run
import OServer.Lib.CString
import OServer.Lib.Decimal
import OServer.Lib.Resume
import OServer.Lib.Messages
import OServer.Lib.Pieces
import OServer.Lib.Buf
import OServer.Lib.Linked
import OServer.Btree
import OServer.BtreeInsert
import OServer.BtreeThread
import OServer.BtreeRuns
import OServer.HttpMethod
import OServer.HttpVersion
import OServer.HttpUrl
import OServer.HttpHeader
import OServer.HttpHeaderParse
import OServer.HttpHeaderLine
import OServer.HttpHeaderSound
import OServer.HttpHeaderNodes
import OServer.HttpHeaderChunks
import OServer.HttpRequest
import OServer.HttpRequestCuts
import OServer.HttpRequestLog
import OServer.HttpRequestEnd
import OServer.HttpRequestHeld
import OServer.HttpHeaderStr
import OServer.HttpHeaderSearch
import OServer.HttpHeaderMap
import OServer.HttpHeaderBlock
import OServer.HttpHeaderRound
import OServer.HttpHeaderResume
import OServer.HttpResponse
import OServer.HttpResponseSent
import OServer.ServerProcess
import OServer.Server
import OServer.ServerFraming
import OServer.ServerEntry
import OServer.ServerRuns
import OServer.ServerHeld
import OServer.ServerPipeline
import OServer.HttpUrlPath
import OServer.Lib.Segments
import OServer.HttpUrlTarget
import OServer.HttpUrlQuery
import OServer.ServerRoot
import OServer.Heap
import OServer.ObjectPool
import OServer.ServerLoop
import OServer.ServerExclusive
import OServer.ServerMemory
import OServer.SyncQueue
import OServer.SyncQueueLock
import OServer.Lib.Tokens
import OServer.HttpTokens
import OServer.Lib.Percent
import OServer.HttpUrlEscape
import OServer.HttpUrlSlices
import OServer.HttpHeaderFits
import OServer.ServerPath
import OServer.ServerType
import OServer.Logger
import OServer.HttpLog
import OServer.Lib.Handles
import OServer.ServerContent
import OServer.CircularList
import OServer.ServerSessions
import OServer.ServerWatch
import OServer.ThreadPool
import OServer.Lib.AvlMap
import OServer.BtreeMap
import OServer.ObjectPoolLife
import OServer.HttpUrlNodes
import OServer.ServerTranscript
import OServer.ServerStream
import OServer.HttpUrlText
import OServer.HttpRequestText
import OServer.ServerSite
import OServer.ServerAnswers
import OServer.ServerLife
import OServer.ServerConfig
