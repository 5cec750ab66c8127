import Newth.Library.Call
import Newth.Library.PathComponents
import Newth.Common.Hex
import Newth.Platform.WebPath
import Newth.Server.SharedFolder
import Newth.Server.Sendbufr
import Newth.Library.Numeral
import Newth.Server.HttpHeader
import Newth.Server.HttpBody
import Newth.Server.Routines
import Newth.Server.Handlers
import Newth.Server.PartialContent
import Newth.Library.Runs
import Newth.Server.DirectoryListing
import Newth.Server.Multiplex
import Newth.Server.Ticks
import Newth.Server.FileTransfer
import Newth.Server.BackPressure
import Newth.Server.WholeRequest
import Newth.Server.UriDecoder
import Newth.Client.Io
import Newth.Exchange.RequestLine
import Newth.Server.LinkTarget
import Newth.Client.Recvbufr
import Newth.Client.SiteHttp
import Newth.Client.Uri
import Newth.Client.SiteFile
import Newth.Client.Queue
import Newth.Client.FileCopy
import Newth.Client.Xml
import Newth.Client.Listing
import Newth.Client.Search
import Newth.Client.Links
import Newth.Server.PageLinks
import Newth.Exchange.ListingPage
import Newth.Library.Calendar
import Newth.Library.Scan
import Newth.Platform.HttpTime
import Newth.Server.ModifiedSince
import Newth.Client.Headers
import Newth.Client.ResponseHead
import Newth.Exchange.FileName
import Newth.Client.Mounts
import Newth.Client.QueueUri
import Newth.Client.QueueRuns
import Newth.Server.DirectoryHandle
import Newth.Client.SearchEnds
import Newth.Server.RoutineMemory
import Newth.Library.Blocks
import Newth.Server.BackEnds
import Newth.Client.ChunkedBody
import Newth.Client.PreBuffered
import Newth.Client.ChunkGrammar
import Newth.Client.ExistingEnds
import Newth.Client.QueueUpdate
import Newth.Client.UriRoundTrip
import Newth.Server.ByteRanges
import Newth.Client.Send
import Newth.Exchange.FileKind
import Newth.Client.PathAppend
import Newth.Client.CutShort
import Newth.Client.HttpCopy
import Newth.Client.HttpDownload
import Newth.Client.BufferFind
import Newth.Client.HeaderFind
import Newth.Client.ContentLength
import Newth.Client.ElementFind
import Newth.Server.ErrorResponse
import Newth.Server.FormattedLines
import Newth.Client.DirectSub
import Newth.Server.NamedHeader
import Newth.Client.FindDitch
import Newth.Client.AttributeValue
import Newth.Server.TimeFields
import Newth.Library.QuotedWords
import Newth.Platform.Argv
import Newth.Platform.BindPort
import Newth.Client.PathCombine
import Newth.Platform.TrailingSlash
import Newth.Client.QueueMemory
import Newth.Exchange.OutOfMemory
import Newth.Client.QueueSearch
import Newth.Client.SiteDirectory
import Newth.Library.FixedArray
import Newth.Server.PathBuffers
import Newth.Server.Breadcrumbs
import Newth.Client.Ipv4
import Newth.Platform.FindNeedle
import Newth.Platform.FindWord
import Newth.Client.ChunkSize
import Newth.Client.StripBang
import Newth.Client.ChunkStrip
import Newth.Client.ChunkResume
import Newth.Server.SocketArrays
import Newth.Server.Completion
import Newth.Server.SelectLoop
import Newth.Exchange.Download
import Newth.Client.QueueStart
import Newth.Client.BufferRuns
import Newth.Exchange.ChangeDirectory
import Newth.Server.Isolation
import Newth.Client.TimelyChunks
