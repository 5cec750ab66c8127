import Newth.Exchange.Download
import Newth.Server.ErrorResponse

namespace Newth.Exchange.ChangeDirectory

open Newth.Client.Headers (ioHttpResponseHeaderFind)
open Newth.Client.HttpOpen
open Newth.Client.Io
open Newth.Client.Recvbufr
open Newth.Client.ResponseHead
open Newth.Client.Search
open Newth.Client.Send
open Newth.Client.Uri
open Newth.Exchange.Download
open Newth.Exchange.FileKind
open Newth.Exchange.FileName
open Newth.Library.ByteString
open Newth.Library.Call
open Newth.Library.Chunked
open Newth.Library.Numeral
open Newth.Library.Scan (isDecimal_numeral)
open Newth.Platform.FindString
open Newth.Platform.HttpTime
open Newth.Platform.WebPath
open Newth.Server.ErrorResponse (errorHead errorWrites)
open Newth.Server.Handlers
open Newth.Server.HeadRequest
open Newth.Server.HttpBody (filenameMax httpBodyWriteText)
open Newth.Server.HttpHeader
open Newth.Server.Routines (Entry)
open Newth.Server.UriDecoder (HasEscape two_lt_length_of_hasEscape)
open Newth.Server.Sendbufr (Link SendResult pending_eq_nil_iff sendBufferFlush sendBufferNew)

section Model

/-- What `HttpResponseToSystemError` and `httpSiteSchemeWorkingDirectorySet` put in `errno`;
`noMatch` is -1. -/
inductive SystemError where
  | success
  | badAddress
  | notPermitted
  | noEntry
  | notDirectory
  | noMatch
  deriving DecidableEq, Repr

/-- `HttpResponseOk`. -/
def httpResponseOk (response : Bytes) : Bool := response.head? = some (ascii '2')

/-- `HttpResponseToSystemError`. -/
def httpResponseToSystemError (response : Bytes) : SystemError :=
  if response.head? = some (ascii '1') ∨ response.head? = some (ascii '2') then .success
  else if response.take 3 = text "400" then .badAddress
  else if response.take 3 ∈ [text "401", text "402", text "403"] then .notPermitted
  else if response.take 3 = text "404" then .noEntry
  else .noMatch

/-- The site, the value returned and `errno` where it is set. -/
def httpSiteSchemeWorkingDirectorySet (self : HttpConnection) (path : Bytes) :
    Except Stop (HttpConnection × Int × Option SystemError) := do
  let details := uriDetailsNewFrom self.fullUri
  match ← uriPathAbsoluteAppend (details.path.getD (text "/")) path with
  | none => .ok (self, -1, some .badAddress)
  | some newPath => do
      let (sending, e) ← recvBufferSend self.sending (ioHttpRequestGenerateHead newPath none)
      let self := { self with sending := sending }
      if e.isSome then .ok (self, -1, none)
      else do
        let (socket, header) ← ioHttpResponseHeaderRead self.socket
        let self := self.setSocket socket
        match header with
        | .error _ => .ok (self, -1, none)
        | .ok header =>
            match ioHttpResponseHeaderEssential header with
            | none => .ok (self, -1, none)
            | some (_, response) =>
                if ¬ httpResponseOk response then
                  .ok (self, 1, some (httpResponseToSystemError response))
                -- unsure is as good as a directory
                else if httpResponseIsDir header = 0 then .ok (self, 1, some .notDirectory)
                else
                  match uriDetailsCreateString { details with path := some newPath } with
                  | none => .ok (self, -1, none)
                  | some newUri => .ok ({ self with fullUri := newUri }, 0, none)

end Model

section Answers

variable {f : Bytes} {now : Tm}

/-- What a path of the server leads to. -/
inductive Found where
  | nothing
  | directory (modified : Tm)
  | file (size : Nat) (modified : Tm)

def Found.response : Found → Bytes
  | .nothing => text "404 Not Found"
  | .directory _ => text "200 OK"
  | .file _ _ => text "200 OK"

/-- The lines of the answer behind its first. -/
def Found.fields (f : Bytes) (now : Tm) : Found → List Bytes
  | .nothing => [text "Date" ++ (text ": " ++ httpDate now),
      text "Content-Length" ++ (text ": " ++ text "13")]
  | .directory modified => [text "Date" ++ (text ": " ++ httpDate now),
      text "Last-Modified" ++ (text ": " ++ httpDate modified),
      text "Content-Type" ++ (text ": " ++ text "text/html; "), text "Transfer-Encoding: chunked"]
  | .file size modified => (answerLines f now modified size).drop 1

def Found.lines (f : Bytes) (now : Tm) (found : Found) : List Bytes :=
  (text "HTTP/1.1" ++ ascii ' ' :: found.response) :: found.fields f now

/-- The head as the client keeps it, without the empty line. -/
def Found.head (f : Bytes) (now : Tm) (found : Found) : Bytes :=
  ((found.lines f now).map (· ++ crlf)).flatten

/-- An error comes with a text, also in answer to `HEAD`. -/
def Found.body : Found → List Bytes
  | .nothing => [text "404 Not Found"]
  | .directory _ => []
  | .file _ _ => []

/-- What the server writes to the socket, piece by piece. -/
def Found.writes (f : Bytes) (now : Tm) (found : Found) : List Bytes :=
  (found.lines f now).map (· ++ crlf) ++ crlf :: found.body

/-- The time in the head can be read. -/
def Found.Dated : Found → Prop
  | .nothing => True
  | .directory modified => FourDigit modified
  | .file size modified => FourDigit modified ∧ size < 2 ^ 63

/-- What the client makes of it. A file is entered like a directory. -/
def Found.outcome (f : Bytes) : Found → Int × Option SystemError
  | .nothing => (1, some .noEntry)
  | .directory _ => (0, none)
  | .file _ _ => if text "ATTACHMENT" <:+: f.map toupper then (1, some .notDirectory) else (0, none)

theorem Found.writes_flatten (found : Found) :
    (found.writes f now).flatten = found.head f now ++ crlf ++ found.body.flatten := by
  rw [writes, List.flatten_append, List.flatten_cons, ← List.append_assoc]
  rfl

theorem Found.head_file (size : Nat) (modified : Tm) :
    Found.head f now (.file size modified) = answerHead f now modified size := rfl

theorem Found.essential (found : Found) :
    ioHttpResponseHeaderEssential (found.head f now) = some (text "HTTP/1.1", found.response) := by
  have hresponse : ascii '\r' ∉ found.response := by
    cases found with
    | nothing => exact (by decide : ascii '\r' ∉ text "404 Not Found")
    | directory modified => exact (by decide : ascii '\r' ∉ text "200 OK")
    | file size modified => exact (by decide : ascii '\r' ∉ text "200 OK")
  exact essential_lines hresponse _

theorem Found.readable {found : Found} (hf : PlainName f) (hnow : FourDigit now)
    (hfound : found.Dated) (hfits : (found.head f now).length + 2 ≤ sbDataSize) :
    Readable (found.head f now) := by
  cases found with
  | nothing =>
      refine @readable_lines ((Found.nothing.lines f now).take 2) _ ?_ hfits
      simp only [lines, fields, response, List.take_succ_cons, List.take_zero, List.cons_append,
        List.nil_append, List.forall_mem_cons]
      exact ⟨by decide, cleanLine_field (by decide) (clean_httpDate hnow), by decide, by simp⟩
  | directory modified =>
      refine @readable_lines (((Found.directory modified).lines f now).take 4) _ ?_ hfits
      simp only [lines, fields, response, List.take_succ_cons, List.take_zero, List.cons_append,
        List.nil_append, List.forall_mem_cons]
      exact ⟨by decide, cleanLine_field (by decide) (clean_httpDate hnow),
        cleanLine_field (by decide) (clean_httpDate hfound), by decide, by decide, by simp⟩
  | file size modified => exact answerHead_readable hf hnow hfound.1 hfits

theorem isDir_directory {modified : Tm} (hnow : FourDigit now) (hmodified : FourDigit modified) :
    httpResponseIsDir (Found.head f now (.directory modified)) ≠ 0 := by
  have hlabels : ¬ Mentions (text "HTTP/1.1" ++ ascii ' ' :: text "200 OK")
        (text "Content-Disposition") ∧
      ¬ Mentions (text "Date") (text "Content-Disposition") ∧
      ¬ Mentions (text "Last-Modified") (text "Content-Disposition") ∧
      ¬ Mentions (text "Content-Type" ++ (text ": " ++ text "text/html; "))
        (text "Content-Disposition") ∧
      ¬ Mentions (text "Transfer-Encoding: chunked") (text "Content-Disposition") := by
    unfold Mentions
    decide
  obtain ⟨hstatus, hdate, hlast, htype, hencoding⟩ := hlabels
  have hnone : ioHttpResponseHeaderFind (Found.head f now (.directory modified))
      (text "Content-Disposition") = none := by
    apply find_of_not_mentions (by decide)
    refine not_mentions_lines (by decide) (by decide) ?_
    simp only [Found.lines, Found.fields, Found.response, List.forall_mem_cons]
    exact ⟨hstatus, not_mentions_date hnow (by decide) (by decide) hdate,
      not_mentions_date hmodified (by decide) (by decide) hlast, htype, hencoding, by simp⟩
  intro hzero
  obtain ⟨v, hfind, -⟩ := (httpResponseIsDir_eq_zero_iff _).mp hzero
  rw [hnone] at hfind
  simp at hfind

theorem isDir_file {modified : Tm} {size : Nat} (hf : PlainName f) (hnow : FourDigit now)
    (hmodified : FourDigit modified) :
    httpResponseIsDir (answerHead f now modified size) = 0 ↔
      text "ATTACHMENT" <:+: f.map toupper := by
  obtain ⟨-, -, -, hdisposition⟩ := @answerHead_found f now modified size hf hnow hmodified
  rw [httpResponseIsDir_eq_zero_iff]
  simp only [hdisposition, Option.some.injEq, exists_eq_left']
  rw [← not_iff_not, ← attachment_disposition_iff]
  simp

end Answers

section Client

variable {self : HttpConnection} {asked path newUri f : Bytes} {now : Tm} {sending : Sending}
  {found : Found}

theorem workingDirectorySet_answer
    (hasked : uriPathAbsoluteAppend ((uriDetailsNewFrom self.fullUri).path.getD (text "/")) asked =
      .ok (some path))
    (hsend : recvBufferSend self.sending (ioHttpRequestGenerateHead path none) =
      .ok (sending, none)) (hempty : sending.self.data = [])
    (hnew : uriDetailsCreateString { uriDetailsNewFrom self.fullUri with path := some path } =
      some newUri)
    (hf : PlainName f) (hnow : FourDigit now) (hfound : found.Dated)
    (hfits : (found.head f now).length + 2 ≤ sbDataSize)
    (hanswer : sending.self.serverSocket.rest = (found.writes f now).flatten) :
    ∃ after, httpSiteSchemeWorkingDirectorySet self asked = .ok (after, found.outcome f) ∧
      after.fullUri = (if (found.outcome f).1 = 0 then newUri else self.fullUri) ∧
      after.socket.data ++ after.socket.serverSocket.rest = found.body.flatten := by
  rw [Found.writes_flatten] at hanswer
  obtain ⟨socket, hread, hrest⟩ := ioHttpResponseHeaderRead_readable
    (Found.readable hf hnow hfound hfits) hempty hanswer
  have hread : ioHttpResponseHeaderRead
      (HttpConnection.socket { self with sending := sending }) =
        .ok (socket, .ok (found.head f now)) := hread
  obtain ⟨sent, hsent⟩ : ∃ sent : HttpConnection,
      HttpConnection.setSocket { self with sending := sending } socket = sent := ⟨_, rfl⟩
  have huri : sent.fullUri = self.fullUri := by rw [← hsent]; rfl
  have hleft : sent.socket.data ++ sent.socket.serverSocket.rest = found.body.flatten := by
    rw [← hsent]
    exact hrest
  have hset : httpSiteSchemeWorkingDirectorySet self asked =
      if ¬ httpResponseOk found.response then
        .ok (sent, 1, some (httpResponseToSystemError found.response))
      else if httpResponseIsDir (found.head f now) = 0 then .ok (sent, 1, some .notDirectory)
      else .ok ({ sent with fullUri := newUri }, 0, none) := by
    simp only [httpSiteSchemeWorkingDirectorySet, hasked, ok_bind, hsend, Option.isSome_none,
      Bool.false_eq_true, if_false, hread, hsent, Found.essential, hnew]
  have hfine : httpResponseOk (text "200 OK") = true := by decide
  rw [hset]
  cases found with
  | nothing => exact ⟨sent, if_pos (by decide), huri, hleft⟩
  | directory modified =>
      rw [Found.response, if_neg (not_not.mpr hfine), if_neg (isDir_directory hnow hfound)]
      exact ⟨_, rfl, rfl, hleft⟩
  | file size modified =>
      have hdir := @isDir_file f now modified size hf hnow hfound.1
      rw [Found.response, if_neg (not_not.mpr hfine), Found.head_file, Found.outcome]
      by_cases hword : text "ATTACHMENT" <:+: f.map toupper
      · rw [if_pos (hdir.mpr hword), if_pos hword]
        exact ⟨sent, rfl, huri, hleft⟩
      · rw [if_neg fun hzero => hword (hdir.mp hzero), if_neg hword]
        exact ⟨_, rfl, rfl, hleft⟩

end Client

section Server

variable {world : World} {clientSocket : Nat} {sends : List SendResult} {f dir header path : Bytes}
  {now : Tm} {found : Found}

/-- What the server finds under a path; a folder that it cannot open is missing. -/
inductive Finds (world : World) (header path : Bytes) : Found → Prop where
  | outside {e : Nat}
      (hpath : Posix01.platformPathWebToSystem filenameMax world.rootPath path = .ok (.error e)) :
      Finds world header path .nothing
  | missing {absolutePath : Bytes}
      (hpath : Posix01.platformPathWebToSystem filenameMax world.rootPath path =
        .ok (.ok absolutePath)) (hstat : world.stat absolutePath = none) :
      Finds world header path .nothing
  | closed {absolutePath : Bytes} {st : FileStat}
      (hpath : Posix01.platformPathWebToSystem filenameMax world.rootPath path =
        .ok (.ok absolutePath)) (hstat : world.stat absolutePath = some st)
      (hkind : st.kind = .directory) (hopen : world.dirOpen absolutePath = none)
      (hchanged : world.notModified header st = false) : Finds world header path .nothing
  | directory {absolutePath : Bytes} {st : FileStat} {entries : List Entry} {modified : Tm}
      (hpath : Posix01.platformPathWebToSystem filenameMax world.rootPath path =
        .ok (.ok absolutePath)) (hstat : world.stat absolutePath = some st)
      (hkind : st.kind = .directory) (hopen : world.dirOpen absolutePath = some entries)
      (htime : world.clock.time st.mtime = httpDate modified)
      (hchanged : world.notModified header st = false) :
      Finds world header path (.directory modified)
  | file {absolutePath content : Bytes} {st : FileStat} {size : Nat} {modified : Tm}
      (hpath : Posix01.platformPathWebToSystem filenameMax world.rootPath path =
        .ok (.ok absolutePath)) (hstat : world.stat absolutePath = some st)
      (hkind : st.kind = .file) (hopen : world.fileOpen absolutePath = some content)
      (hsize : st.size = size) (hwhole : httpHeaderReadRange header 0 0 st.size = none)
      (htime : world.clock.time st.mtime = httpDate modified)
      (hchanged : world.notModified header st = false) :
      Finds world header path (.file size modified)

theorem dateLine_eq (hnow : FourDigit now) (hclock : world.clock.currentTime = httpDate now) :
    dateLine world.clock = text "Date" ++ (text ": " ++ httpDate now) ++ crlf := by
  rw [dateLine, hclock, cString_eq_self (clean_httpDate hnow).2,
    show text "Date: " = text "Date" ++ text ": " from text_append "Date" ": ", List.append_assoc,
    List.append_assoc, List.append_assoc]
  rfl

theorem lastModifiedLine_eq {st : FileStat} {modified : Tm} (hmodified : FourDigit modified)
    (htime : world.clock.time st.mtime = httpDate modified) :
    lastModifiedLine world.clock st =
      text "Last-Modified" ++ (text ": " ++ httpDate modified) ++ crlf := by
  rw [lastModifiedLine, htime, cString_eq_self (clean_httpDate hmodified).2,
    show text "Last-Modified: " = text "Last-Modified" ++ text ": " from
      text_append "Last-Modified" ": ", List.append_assoc, List.append_assoc, List.append_assoc]
  rfl

theorem errorWrites_eq (hnow : FourDigit now) (hclock : world.clock.currentTime = httpDate now) :
    errorWrites world 404 = Found.nothing.writes f now := by
  rw [errorWrites, errorHead, dateLine_eq hnow hclock]
  rfl

theorem dirLines_eq {st : FileStat} {modified : Tm} (hnow : FourDigit now)
    (hclock : world.clock.currentTime = httpDate now) (hmodified : FourDigit modified)
    (htime : world.clock.time st.mtime = httpDate modified) :
    dirLines world st = (Found.directory modified).writes f now := by
  rw [dirLines, dateLine_eq hnow hclock, lastModifiedLine_eq hmodified htime]
  rfl

theorem fileLines_eq {st : FileStat} {size : Nat} {modified : Tm} (hnow : FourDigit now)
    (hclock : world.clock.currentTime = httpDate now) (hmodified : FourDigit modified)
    (htime : world.clock.time st.mtime = httpDate modified) (hsize : st.size = size)
    (hsmall : size < 2 ^ 63) (hwhole : httpHeaderReadRange header 0 0 st.size = none)
    (hdir : (0 : UInt8) ∉ dir)
    (hf : ∀ c ∈ f, c ≠ ascii '/' ∧ c ≠ ascii '\r' ∧ c ≠ ascii '\n' ∧ c ≠ 0) :
    fileLines world header (dir ++ ascii '/' :: f) st =
      (Found.file size modified).writes f now := by
  have hname : fileName (dir ++ ascii '/' :: f) = f :=
    fileName_append hdir (fun h => (hf 0 h).2.2.2 rfl) (fun h => (hf _ h).1 rfl)
  have hcount : pfOffset st.size = numeral 10 size := by
    have hvalue : (st.size % 2 ^ 64).toNat = size := by omega
    rw [pfOffset, hvalue]
  have hdisposition : fileNameLine (dir ++ ascii '/' :: f) =
      text "Content-Disposition" ++ (text ": " ++ disposition f) ++ crlf := by
    have hlabel : text "Content-Disposition: filename=\"" =
        text "Content-Disposition" ++ (text ": " ++ text "filename=\"") := by
      rw [← text_append, ← text_append]
      rfl
    rw [fileNameLine, hname, hlabel, disposition]
    simp only [List.append_assoc]
    rfl
  have hlength : contentLengthLine st.size =
      text "Content-Length" ++ (text ": " ++ numeral 10 size) ++ crlf := by
    rw [contentLengthLine, hcount, show text "Content-Length: " =
      text "Content-Length" ++ text ": " from text_append "Content-Length" ": "]
    simp only [List.append_assoc]
    rfl
  simp only [fileLines, hwhole, dateLine_eq hnow hclock, lastModifiedLine_eq hmodified htime,
    hdisposition, hlength]
  rfl

theorem accepted_whole {lines : List Bytes} {link : Link}
    (h : WritesLines lines ⟨sendBufferNew clientSocket 0, ⟨[], sends⟩⟩ link)
    (htakes : TakesWhole sends lines) :
    link.self.buffer = none ∧ link.channel.accepted = lines.flatten := by
  have hnone : link.pending = [] := h.pending_iff.mpr htakes
  refine ⟨(pending_eq_nil_iff h.writes.sound.coherent).mp hnone, ?_⟩
  rw [← h.carried, Link.carried, hnone, List.append_nil]

theorem handleError_whole (hsends : SendResult.fails ∉ sends)
    (htakes : TakesWhole sends (errorWrites world 404)) :
    ∃ code link, httpHeaderHandleError world ⟨sendBufferNew clientSocket 0, ⟨[], sends⟩⟩ 404 =
      ⟨code, none, link⟩ ∧ link.channel.accepted = (errorWrites world 404).flatten := by
  have hstatus : WritesLines _ _ (httpHeaderWriteResponseStr
      ⟨sendBufferNew clientSocket 0, ⟨[], sends⟩⟩ (httpHeaderGetResponse 404)) :=
    (WritesLines.nil (new_sound hsends clientSocket [])).printf (zero_notMem_statusLine 404)
  have hdate := hstatus.printf (m := ⟨40, dateLine world.clock⟩) (zero_notMem_dateLine _)
  have hlength := hdate.printf
    (m := ⟨80, contentLengthLine (httpHeaderGetResponse 404).length⟩)
    (zero_notMem_contentLengthLine _)
  have hend := hlength.text (by decide : (0 : UInt8) ∉ httpEol)
  have hbody := hend.text (by decide : (0 : UInt8) ∉ httpHeaderGetResponse 404)
  obtain ⟨hempty, haccepted⟩ := accepted_whole hbody htakes
  obtain ⟨last, hlast⟩ : ∃ last, last = httpBodyWriteText (httpHeaderWriteEnd
      (httpHeaderWriteContentLength (httpHeaderWriteDate (httpHeaderWriteResponseStr
        ⟨sendBufferNew clientSocket 0, ⟨[], sends⟩⟩ (httpHeaderGetResponse 404)) world.clock)
          (httpHeaderGetResponse 404).length)) (httpHeaderGetResponse 404) := ⟨_, rfl⟩
  have hflush : sendBufferFlush last.1 = (last.1, 0) := by
    have hnone : last.1.self.buffer = none := by rw [hlast]; exact hempty
    rw [sendBufferFlush, hnone]
  have hhandled : httpHeaderHandleError world ⟨sendBufferNew clientSocket 0, ⟨[], sends⟩⟩ 404 =
      if last.2 = 0 then ⟨1, none, last.1⟩
      else ⟨if (sendBufferFlush last.1).2 = 0 then 1 else 0, none, (sendBufferFlush last.1).1⟩ := by
    rw [hlast]
    rfl
  refine ⟨1, last.1, ?_, by rw [hlast]; exact haccepted⟩
  rw [hhandled, hflush]
  split <;> rfl

theorem handleConnection_finds {received : List Received}
    (harrives : Arrives (ioHttpRequestGenerateHead path none) received) (hpath : PlainPath path)
    (hlast : ∃ dir, (0 : UInt8) ∉ dir ∧ path = dir ++ ascii '/' :: f) (hf : PlainName f)
    (hnow : FourDigit now) (hclock : world.clock.currentTime = httpDate now) (hfound : found.Dated)
    (hfinds : Finds world (ioHttpRequestGenerateHead path none).dropLast path found)
    (hsends : SendResult.fails ∉ sends) (htakes : TakesWhole sends (found.writes f now)) :
    ∃ code link, handleConnection world clientSocket ⟨[], sends⟩ received = .ok ⟨code, none, link⟩ ∧
      link.channel.accepted = (found.writes f now).flatten := by
  obtain ⟨dir, hdir, rfl⟩ := hlast
  obtain ⟨header, hheader⟩ : ∃ header,
      (ioHttpRequestGenerateHead (dir ++ ascii '/' :: f) none).dropLast = header := ⟨_, rfl⟩
  have hhead : httpClientReadType header = .httpHead := by
    rw [← hheader, ioHttpRequestGenerateHead, generateSend_dropLast]
    rfl
  rw [handleConnection_request (by decide) harrives hpath, ← ioHttpRequestGenerateHead, hheader]
  rw [hheader] at hfinds
  have hnothing : TakesWhole sends (Found.nothing.writes f now) →
      ∃ code link, httpHeaderHandleError world ⟨sendBufferNew clientSocket 0, ⟨[], sends⟩⟩ 404 =
        ⟨code, none, link⟩ ∧ link.channel.accepted = (Found.nothing.writes f now).flatten := by
    intro htakes
    rw [← errorWrites_eq hnow hclock] at htakes ⊢
    exact handleError_whole hsends htakes
  have hnew := new_sound hsends clientSocket []
  cases hfinds with
  | outside hweb =>
      obtain ⟨code, link, herror, haccepted⟩ := hnothing htakes
      refine ⟨code, link, ?_, haccepted⟩
      rw [handlePath, hweb, ok_bind]
      exact congrArg Except.ok herror
  | missing hweb hstat =>
      obtain ⟨code, link, herror, haccepted⟩ := hnothing htakes
      refine ⟨code, link, ?_, haccepted⟩
      rw [handlePath, hweb, ok_bind]
      simp only [hstat]
      exact congrArg Except.ok herror
  | closed hweb hstat hkind hopen hchanged =>
      obtain ⟨code, link, herror, haccepted⟩ := hnothing htakes
      refine ⟨code, link, ?_, haccepted⟩
      rw [handlePath, hweb, ok_bind]
      simp only [hstat, hchanged, hkind, Bool.false_eq_true, if_false, handleDir, hopen]
      exact congrArg Except.ok herror
  | @directory absolutePath st entries modified hweb hstat hkind hopen htime hchanged =>
      have hlines := dirHead_writesLines world hnew st
      rw [dirLines_eq (f := f) hnow hclock hfound htime] at hlines
      obtain ⟨hempty, haccepted⟩ := accepted_whole hlines htakes
      refine ⟨1, _, ?_, haccepted⟩
      rw [handlePath, hweb, ok_bind]
      simp only [hstat, hchanged, hkind, Bool.false_eq_true, if_false, handleDir, hopen, hhead,
        if_true, sendBufferFlush, hempty]
  | @file absolutePath content st size modified hweb hstat hkind hopen hsize hwhole htime
      hchanged =>
      have hlines := fileHead_writesLines world hnew header (dir ++ ascii '/' :: f) st
      rw [fileLines_eq hnow hclock hfound.1 htime hsize hfound.2 hwhole hdir hf.line] at hlines
      obtain ⟨-, haccepted⟩ := accepted_whole hlines htakes
      refine ⟨0, _, ?_, haccepted⟩
      rw [handlePath, hweb, ok_bind]
      simp only [hstat, hchanged, hkind, Bool.false_eq_true, if_false, handleFile, hopen, hhead,
        if_true]

end Server

section Entering

variable {world : World} {self : HttpConnection} {asked path newUri f : Bytes} {now : Tm}
  {found : Found}

/-- A client that changes the directory goes where the server has something: into a folder, into
a file whose name does not hold the word for an attachment as well, and nowhere else. The text of
an error is left in front of the next answer. -/
theorem workingDirectorySet_follows {received : List Received} {sends : List SendResult}
    {clientSocket : Nat} {sending : Sending}
    (hasked : uriPathAbsoluteAppend ((uriDetailsNewFrom self.fullUri).path.getD (text "/")) asked =
      .ok (some path))
    (hsend : recvBufferSend self.sending (ioHttpRequestGenerateHead path none) =
      .ok (sending, none)) (hempty : sending.self.data = [])
    (hnew : uriDetailsCreateString { uriDetailsNewFrom self.fullUri with path := some path } =
      some newUri)
    (harrives : Arrives (ioHttpRequestGenerateHead path none) received) (hpath : PlainPath path)
    (hlast : ∃ dir, (0 : UInt8) ∉ dir ∧ path = dir ++ ascii '/' :: f) (hf : PlainName f)
    (hnow : FourDigit now) (hclock : world.clock.currentTime = httpDate now) (hfound : found.Dated)
    (hfinds : Finds world (ioHttpRequestGenerateHead path none).dropLast path found)
    (hfits : (found.head f now).length + 2 ≤ sbDataSize)
    (hsends : SendResult.fails ∉ sends) (htakes : TakesWhole sends (found.writes f now)) :
    ∃ handled, handleConnection world clientSocket ⟨[], sends⟩ received = .ok handled ∧
      handled.added = none ∧
      (sending.self.serverSocket.rest = handled.link.channel.accepted →
        ∃ after, httpSiteSchemeWorkingDirectorySet self asked = .ok (after, found.outcome f) ∧
          after.fullUri = (if (found.outcome f).1 = 0 then newUri else self.fullUri) ∧
          after.socket.data ++ after.socket.serverSocket.rest = found.body.flatten) := by
  obtain ⟨code, link, hhandled, haccepted⟩ := @handleConnection_finds world clientSocket sends f
    path now found received harrives hpath hlast hf hnow hclock hfound hfinds hsends htakes
  refine ⟨_, hhandled, rfl, fun hrest => ?_⟩
  exact workingDirectorySet_answer hasked hsend hempty hnew hf hnow hfound hfits
    (hrest.trans haccepted)

def epoch : Tm := ⟨⟨70, 0, 1, 0, 0, 0⟩, 4⟩

/-- A site whose server answers that there is a folder. -/
def folderClient : HttpConnection :=
  awaiting ((Found.directory epoch).writes (text "a") epoch).flatten [] .closed

def folderRequest : List Received :=
  [.bytes ((ioHttpRequestGenerateHead (text "/a") none).take 9), .wouldBlock,
    .bytes ((ioHttpRequestGenerateHead (text "/a") none).drop 9)]

theorem folderRequest_arrives :
    Arrives (ioHttpRequestGenerateHead (text "/a") none) folderRequest := by
  refine ⟨⟨by decide +kernel, by decide +kernel, ?_⟩, by decide +kernel, ?_, by decide +kernel, ?_⟩
  · intro before after hsplit
    have hlast : ∀ i < 20, httpEol ++ httpEol <+:
        (ioHttpRequestGenerateHead (text "/a") none).drop i → i = 16 := by
      decide +kernel
    have hlength := congrArg List.length hsplit
    rw [show (ioHttpRequestGenerateHead (text "/a") none).length = 20 from rfl, List.length_append,
      List.length_append, show (httpEol ++ httpEol).length = 4 from rfl] at hlength
    have hat := hlast before.length (by omega) ⟨after, by rw [hsplit]; simp⟩
    exact List.eq_nil_of_length_eq_zero (by omega)
  · simp only [folderRequest, List.forall_mem_cons]
    exact ⟨.inr ⟨_, by decide +kernel, rfl⟩, .inl rfl, .inr ⟨_, by decide +kernel, rfl⟩, by simp⟩
  · intro before after hsplit
    have hlength := congrArg List.length hsplit
    simp only [folderRequest, List.length_append, List.length_replicate, List.length_cons,
      List.length_nil] at hlength
    omega

theorem folder_sent : ((recvBufferSend folderClient.sending
    (ioHttpRequestGenerateHead (text "/a") none)).toOption.any fun result =>
      result.2 = none ∧ result.1.self.data = [] ∧ result.1.self.serverSocket.rest =
        ((Found.directory epoch).writes (text "a") epoch).flatten) = true := by
  decide +kernel

theorem workingDirectorySet_follows_folder :
    ∃ after, httpSiteSchemeWorkingDirectorySet folderClient (text "a") = .ok (after, 0, none) ∧
      after.fullUri = text "http://h/a" := by
  obtain ⟨⟨sending, e⟩, hsend, hsent⟩ := (Option.any_eq_true _ _).mp folder_sent
  obtain ⟨rfl, hempty, hrest⟩ := of_decide_eq_true hsent
  rw [toOption_eq_some_iff] at hsend
  have hfour : FourDigit epoch := by
    constructor <;> decide
  have hliteral : ¬ HasEscape (text "/a") := fun h =>
    absurd (two_lt_length_of_hasEscape h) (by decide)
  have hpath : PlainPath (text "/a") := ⟨rfl, by decide, hliteral, by decide⟩
  have hlast : ∃ dir, (0 : UInt8) ∉ dir ∧ text "/a" = dir ++ ascii '/' :: text "a" :=
    ⟨[], by decide, rfl⟩
  have hname : PlainName (text "a") := ⟨by decide +kernel, by unfold Mentions; decide⟩
  have hclock : (digitsFolder .directory).clock.currentTime = httpDate epoch := by decide +kernel
  have hweb : Posix01.platformPathWebToSystem filenameMax (digitsFolder .directory).rootPath
      (text "/a") = .ok (.ok (text "/srv/a")) := by
    decide +kernel
  have hfinds : Finds (digitsFolder .directory)
      (ioHttpRequestGenerateHead (text "/a") none).dropLast (text "/a") (.directory epoch) :=
    .directory hweb rfl rfl rfl (by decide +kernel) rfl
  obtain ⟨handled, hhandled, -, hfollows⟩ := @workingDirectorySet_follows (digitsFolder .directory)
    folderClient (text "a") (text "/a") (text "http://h/a") (text "a") epoch (.directory epoch)
    folderRequest [] 3 sending rfl hsend hempty rfl folderRequest_arrives hpath hlast hname hfour
    hclock hfour hfinds (by decide +kernel) (by decide) trivial
  obtain ⟨code, link, hsame, haccepted⟩ := @handleConnection_finds (digitsFolder .directory) 3 []
    (text "a") (text "/a") epoch (.directory epoch) folderRequest folderRequest_arrives hpath hlast
    hname hfour hclock hfour hfinds (by decide) trivial
  obtain rfl := Except.ok.inj (hhandled.symm.trans hsame)
  have hwhole := hrest.trans haccepted.symm
  obtain ⟨after, hset, huri, -⟩ := hfollows hwhole
  exact ⟨after, hset, huri⟩

end Entering

end Newth.Exchange.ChangeDirectory
