import Frnetlib.Base.Search
import Frnetlib.Base.Feed
import Frnetlib.Base.Numeral
import Frnetlib.Base.BigEndian
import Frnetlib.Base.Cursor
import Frnetlib.Base.Dialogue
import Frnetlib.Net.Socket
import Frnetlib.Net.Stream
import Frnetlib.Net.Takes
import Frnetlib.Net.TcpSocket
import Frnetlib.Net.Wait
import Frnetlib.Http.Http
import Frnetlib.Http.HttpRequest
import Frnetlib.Http.HttpResponse
import Frnetlib.Http.HttpProofs
import Frnetlib.Http.HeaderBlock
import Frnetlib.Http.Arguments
import Frnetlib.Http.PostBody
import Frnetlib.Http.Incremental
import Frnetlib.Http.Segmentation
import Frnetlib.Http.Message
import Frnetlib.Http.RequestRoundTrip
import Frnetlib.Http.RequestLine
import Frnetlib.Http.Variables
import Frnetlib.Http.Stored
import Frnetlib.Http.PostVariables
import Frnetlib.Http.PostPieces
import Frnetlib.Http.ReadRequest
import Frnetlib.Http.RewriteRequest
import Frnetlib.Http.URL
import Frnetlib.Http.ResponseRoundTrip
import Frnetlib.Http.Conversation
import Frnetlib.Http.Pipelining
import Frnetlib.Http.Reuse
import Frnetlib.Http.RewriteResponse
import Frnetlib.Http.Chunked
import Frnetlib.Http.Receive
import Frnetlib.Packet.Packet
import Frnetlib.Packet.Wire
import Frnetlib.Packet.Fifo
import Frnetlib.Packet.Untrusted
import Frnetlib.Packet.Framing
import Frnetlib.Packet.Calls
import Frnetlib.WebSocket.WebFrame
import Frnetlib.WebSocket.FrameStream
import Frnetlib.WebSocket.Untrusted
import Frnetlib.WebSocket.Base64
import Frnetlib.WebSocket.WebSocket
import Frnetlib.WebSocket.Upgrade
import Frnetlib.WebSocket.Handshake
import Frnetlib.WebSocket.FirstFrames
import Frnetlib.Net.Retry
import Frnetlib.WebSocket.Closing
import Frnetlib.Net.SslSocket
import Frnetlib.Net.SslReceive
import Frnetlib.Base.Run
import Frnetlib.Net.Descriptor
import Frnetlib.Net.Blocking
import Frnetlib.Net.SocketSelector
import Frnetlib.WebSocket.Served
import Frnetlib.WebSocket.Connecting
import Frnetlib.Base.Ledger
import Frnetlib.Base.Owners
import Frnetlib.Net.TcpListener
import Frnetlib.Packet.Reuse
import Frnetlib.Http.Segments
import Frnetlib.Http.ChunkLoop
import Frnetlib.Http.Buffering
import Frnetlib.Http.ChunkSize
import Frnetlib.Http.Exceptions
import Frnetlib.Http.BodyEnd
import Frnetlib.Base.Trace
import Frnetlib.Http.Accesses
import Frnetlib.Http.FirstLine
import Frnetlib.Http.CutList
import Frnetlib.Http.Target
import Frnetlib.Http.Accepted
import Frnetlib.Base.Sextets
import Frnetlib.WebSocket.Base64Text
import Frnetlib.WebSocket.Base64Reads
import Frnetlib.Http.Methods
import Frnetlib.WebSocket.FrameHeader
import Frnetlib.Base.Percent
import Frnetlib.Http.UrlCodec
import Frnetlib.WebSocket.Resend
import Frnetlib.Http.URLPieces
import Frnetlib.Http.URLAccesses
import Frnetlib.Http.URLPrint
import Frnetlib.Net.ReceiveAll
import Frnetlib.Packet.CursorArith
import Frnetlib.Base.Merge
import Frnetlib.Packet.Overwrite
import Frnetlib.Http.HeaderFields
import Frnetlib.Http.HeaderOrder
import Frnetlib.Base.Blocks
import Frnetlib.Base.SecureHash
import Frnetlib.WebSocket.Sha1
import Frnetlib.WebSocket.Sha1Digest
import Frnetlib.WebSocket.AcceptKey
import Frnetlib.Net.Handles
import Frnetlib.Net.Ownership
import Frnetlib.Net.Options
import Frnetlib.Net.Prompt
import Frnetlib.WebSocket.Grammar
import Frnetlib.Packet.Schedules
import Frnetlib.Packet.Packetable
import Frnetlib.Base.Series
import Frnetlib.Http.Server
import Frnetlib.Http.Sessions
