import DmfServer.CMemory
import DmfServer.Block
import DmfServer.ChainTable
import DmfServer.LinkedList
import DmfServer.StepSystem
import DmfServer.BinaryHeap
import DmfServer.Timer
import DmfServer.Traced
import DmfServer.TimerHeap
import DmfServer.Queue
import DmfServer.Stack
import DmfServer.ThreadPool
import DmfServer.ThreadPoolCreate
import DmfServer.Master
import DmfServer.ConnPool
import DmfServer.Mpool
import DmfServer.EpollSsl
import DmfServer.Model
import DmfServer.Hashmap
import DmfServer.HashmapMemory
import DmfServer.IpLimit
import DmfServer.Mdb
import DmfServer.MdbServer
import DmfServer.MdbMemory
import DmfServer.HashSlots
import DmfServer.RequestRecord
import DmfServer.MultiPart
import DmfServer.MultiPartRoundTrip
import DmfServer.Request
import DmfServer.RequestGrammar
import DmfServer.RequestScan
import DmfServer.RequestRoundTrip
import DmfServer.RequestBounds
import DmfServer.RequestEffect
import DmfServer.RequestLines
import DmfServer.RequestRounds
import DmfServer.RequestQuery
import DmfServer.MultiPartScan
import DmfServer.MultiPartTable
import DmfServer.MultiPartBoundary
import DmfServer.RequestFields
import DmfServer.SessionCookie
import DmfServer.Router
import DmfServer.StaticSearch
import DmfServer.Directory
import DmfServer.RouterInit
import DmfServer.Epoll
import DmfServer.Session
import DmfServer.Log
import DmfServer.LogFormat
import DmfServer.Utility
import DmfServer.ItoaDigits
import DmfServer.Response
import DmfServer.ResponseHeader
import DmfServer.Release
import DmfServer.HttpMessage
import DmfServer.MessageFraming
import DmfServer.StaticFile
import DmfServer.SessionIds
import DmfServer.WebSocket
import DmfServer.WebSocketLoop
import DmfServer.WebSocketFrames
import DmfServer.Base64
import DmfServer.WebSocketHandshake
import DmfServer.Template
import DmfServer.TemplatePieces
import DmfServer.TemplateWalk
import DmfServer.TemplateAnswer
import DmfServer.TemplatePage
import DmfServer.TemplateVariables
import DmfServer.TemplateTotal
import DmfServer.DmString
import DmfServer.DmStringReplace
import DmfServer.DmStringNumber
import DmfServer.Conf
import DmfServer.WebSite
import DmfServer.SessionViews
import DmfServer.SessionWeb
import DmfServer.WebSocketView
import DmfServer.CacheServer
import DmfServer.MasterWorkers
import DmfServer.MdbViews
import DmfServer.DmList
import DmfServer.HashmapLife
import DmfServer.Upload
import DmfServer.ConnPoolDestroy
import DmfServer.HeapBlocks
import DmfServer.EpollLoop
import DmfServer.MdbHandles
