import Newth.Library.Chunked

namespace Newth.Client.Io

open Newth.Library.ByteString
open Newth.Library.Chunked

/-- `HTTP_RES`. -/
def httpRes : Bytes := text "HTTP/1.1"

def ioHttpRequestGenerateSend (type path : Bytes) (extra : Option Bytes) : Bytes :=
  type ++ text " " ++ path ++ text " " ++ (httpRes ++ crlf) ++ extra.getD [] ++ crlf

def ioHttpRequestGenerateGet (path : Bytes) (extra : Option Bytes) : Bytes :=
  ioHttpRequestGenerateSend (text "GET") path extra

def ioHttpRequestGenerateHead (path : Bytes) (extra : Option Bytes) : Bytes :=
  ioHttpRequestGenerateSend (text "HEAD") path extra

end Newth.Client.Io
