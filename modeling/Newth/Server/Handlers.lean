import Newth.Platform.WebPath
import Newth.Server.Routines

namespace Newth.Server.Handlers

open Newth.Library.ByteString
open Newth.Library.Call
open Newth.Platform.WebPath
open Newth.Server.HttpBody
open Newth.Server.HttpHeader
open Newth.Server.Routines
open Newth.Server.Sendbufr

/-- What the handlers ask the machine they run on. `notModified` is the test
`handlePath` makes of the `If-Modified-Since` header. -/
structure World where
  rootPath : Bytes
  clock : Clock
  stat : Bytes → Option FileStat
  fileOpen : Bytes → Option Bytes
  dirOpen : Bytes → Option (List Entry)
  notModified : Bytes → FileStat → Bool

/-- A server whose files all hold ten digits. -/
def tenDigits : World where
  rootPath := text "/srv"
  clock := ⟨text "Thu, 01 Jan 1970 00:00:00 GMT", fun _ => text "Thu, 01 Jan 1970 00:00:00 GMT"⟩
  stat := fun _ => some ⟨10, 0, .file⟩
  fileOpen := fun _ => some (text "0123456789")
  dirOpen := fun _ => none
  notModified := fun _ _ => false

/-- What a handler leaves behind: its return value, the routine it adds to
`globalRoutineArray`, and the socket with the send buffer it has written to, which
only a routine keeps. -/
structure Handled where
  code : Nat
  added : Option Routine
  link : Link

def httpHeaderHandleError (world : World) (link : Link) (error : Nat) : Handled :=
  let errMsg := httpHeaderGetResponse error
  let link := httpHeaderWriteResponseStr link errMsg
  let link := httpHeaderWriteDate link world.clock
  let link := httpHeaderWriteContentLength link errMsg.length
  let link := httpHeaderWriteEnd link
  let (link, written) := httpBodyWriteText link errMsg
  if written = 0 then ⟨1, none, link⟩
  else
    let (link, flushed) := sendBufferFlush link
    ⟨if flushed = 0 then 1 else 0, none, link⟩

/-- The head `handleDir` writes. -/
def dirHead (world : World) (link : Link) (st : FileStat) : Link :=
  let link := httpHeaderWriteResponse link 200
  let link := httpHeaderWriteDate link world.clock
  let link := httpHeaderWriteLastModified link world.clock st
  let link := httpHeaderWriteContentType link (text "text/html") []
  let link := httpHeaderWriteChunkedEncoding link
  httpHeaderWriteEnd link

def handleDir (world : World) (clientSocket : Nat) (channel : Channel) (webPath : Bytes)
    (absolutePath : Bytes) (type : HttpType) (st : FileStat) : Except Stop Handled :=
  let link : Link := ⟨sendBufferNew clientSocket 0, channel⟩
  match world.dirOpen absolutePath with
  | none => .ok (httpHeaderHandleError world link 404)
  | some entries =>
      let link := dirHead world link st
      let (link, flushed) := if type = .httpHead then sendBufferFlush link else (link, 1)
      if flushed = 0 then .ok ⟨1, none, link⟩
      else
        let title := if webPath = [] then text "/" else webPath
        let (link, written) := httpBodyWriteChunk link (htmlHeaderWrite [] title)
        if written = 0 then .ok ⟨1, none, link⟩
        else do
          let (link, _) := sendBufferFlush link
          let buf ← htmlBreadCrumbWrite [] title
          let (link, written) := httpBodyWriteChunk link (htmlListStart buf)
          if written = 0 then .ok ⟨1, none, link⟩
          else
            let (link, _) := sendBufferFlush link
            .ok ⟨0, some (directoryRoutineNew link.self ⟨entries, true⟩ webPath), link⟩

/-- The end of a byte range that is out of range or unspecified is the end of the file. -/
def rangeEnd (finish size : Int) : Int := if finish ≥ size ∨ finish = 0 then size else finish

/-- The head `handleFile` writes, and the part of the file it goes on to send. -/
def fileHead (world : World) (link : Link) (header webPath : Bytes) (st : FileStat) :
    Link × Int × Int :=
  let range := httpHeaderReadRange header 0 0 st.size
  let link := httpHeaderWriteResponse link (if range.isNone then 200 else 206)
  let link := httpHeaderWriteDate link world.clock
  let link := httpHeaderWriteFileName link webPath
  let link := httpHeaderWriteLastModified link world.clock st
  let link := httpHeaderWriteAcceptRanges link
  match range with
  | none =>
      let link := httpHeaderWriteContentLength link st.size
      (httpHeaderWriteEnd link, 0, st.size)
  | some (start, finish) =>
      let finish := rangeEnd finish st.size
      let link := httpHeaderWriteContentLength link (finish - start)
      let link := httpHeaderWriteRange link start finish st.size
      (httpHeaderWriteEnd link, start, finish)

def handleFile (world : World) (clientSocket : Nat) (channel : Channel) (header webPath : Bytes)
    (absolutePath : Bytes) (httpType : HttpType) (st : FileStat) : Handled :=
  let link : Link := ⟨sendBufferNew clientSocket 0, channel⟩
  match world.fileOpen absolutePath with
  | none => ⟨1, none, link⟩
  | some content =>
      let (link, start, finish) := fileHead world link header webPath st
      if httpType = .httpHead then ⟨0, none, link⟩
      else ⟨0, some (fileRoutineNew link.self ⟨content, 0⟩ start finish webPath), link⟩

/-- The numbers behind `httpType`, which `handlePath` returns for what is neither a
file nor a directory. -/
def typeCode : HttpType → Nat
  | .httpGet => 0
  | .httpHead => 1
  | .httpPost => 2
  | .httpUnknown => 3

def handlePath (world : World) (clientSocket : Nat) (channel : Channel)
    (header webPath : Bytes) : Except Stop Handled := do
  let link : Link := ⟨sendBufferNew clientSocket 0, channel⟩
  match ← Posix01.platformPathWebToSystem filenameMax world.rootPath webPath with
  | .error _ => .ok (httpHeaderHandleError world link 404)
  | .ok absolutePath =>
      match world.stat absolutePath with
      | none => .ok (httpHeaderHandleError world link 404)
      | some st =>
          let type := httpClientReadType header
          if world.notModified header st then
            let link := httpHeaderWriteResponse link 304
            let link := httpHeaderWriteDate link world.clock
            let link := httpHeaderWriteEnd link
            .ok ⟨0, some (routineNew link.self webPath), link⟩
          else
            match st.kind with
            | .directory => handleDir world clientSocket channel webPath absolutePath type st
            | .file =>
                .ok (handleFile world clientSocket channel header webPath absolutePath type st)
            | .other => .ok ⟨typeCode type, none, link⟩

/-- What one `recv` in `handleConnection` comes back with. -/
inductive Received where
  | bytes (data : Bytes)
  | closed
  | wouldBlock
  | error

def Received.isBytes : Received → Bool
  | .bytes _ => true
  | _ => false

/-- The loop variables of `handleConnection`; `message` is the filled part of
`buffer`, and `received` what the coming `recv` calls find. -/
structure Receiving where
  message : Bytes
  r : Nat
  received : List Received

def endsHead (message : Bytes) : Bool :=
  (httpEol ++ httpEol).isSuffixOf message

/-- One turn of the receiving loop; it leaves with an early return value or with the
message to handle. -/
def receiveTurn (world : World) (link : Link) (s : Receiving) :
    Except Stop (Turn Receiving (Handled ⊕ Bytes)) :=
  let failed : Except Stop (Turn Receiving (Handled ⊕ Bytes)) :=
    .ok (.leave (.inl ⟨1, none, link⟩))
  let again (s : Receiving) : Except Stop (Turn Receiving (Handled ⊕ Bytes)) :=
    if s.r < 50 then .ok (.again s) else .ok (.leave (.inr s.message))
  match s.received with
  | [] => again { s with r := s.r + 1 }
  | .wouldBlock :: received => again { s with r := s.r + 1, received := received }
  | .error :: _ => failed
  | .closed :: received =>
      if s.message = [] then failed
      else if endsHead s.message then .ok (.leave (.inr s.message))
      else again { s with r := s.r + 1, received := received }
  | .bytes data :: received =>
      -- `recv` takes at most what the buffer has left
      let message := s.message ++ data.take (bufsiz - s.message.length - 1)
      if bufsiz - 1 ≤ message.length then
        let link := httpHeaderWriteResponse link 431
        let link := httpHeaderWriteDate link world.clock
        let link := httpHeaderWriteContentLength link 0
        let link := httpHeaderWriteEnd link
        let (link, _) := sendBufferFlush link
        .ok (.leave (.inl ⟨1, none, link⟩))
      else if endsHead message then .ok (.leave (.inr message))
      else again ⟨message, 0, received⟩

/-- Every turn takes a `recv` result or counts `r` up, so the fuel lasts. -/
def handleConnection (world : World) (clientSocket : Nat) (channel : Channel)
    (received : List Received) : Except Stop Handled := do
  let link : Link := ⟨sendBufferNew clientSocket 0, channel⟩
  match ← run (receiveTurn world link) (51 * received.length + 51) ⟨[], 0, received⟩ with
  | .inl handled => .ok handled
  | .inr [] => .ok ⟨1, none, link⟩
  | .inr message =>
      let header := cString message.dropLast
      match ← httpClientReadUri header with
      | none => .ok ⟨50, none, link⟩
      | some uriPath =>
          if uriPath.head? ≠ some (ascii '/') then .ok ⟨1, none, link⟩
          else handlePath world clientSocket channel header uriPath

theorem new_sound {sends : List SendResult} (hsends : SendResult.fails ∉ sends)
    (clientSocket : Nat) (accepted : Bytes) :
    Link.Sound ⟨sendBufferNew clientSocket 0, ⟨accepted, sends⟩⟩ :=
  ⟨rfl, hsends⟩

section Ownership

theorem dirHead_clientSocket (world : World) (link : Link) (st : FileStat) :
    (dirHead world link st).self.clientSocket = link.self.clientSocket := by
  simp only [dirHead, httpHeaderWriteResponse, httpHeaderWriteResponseStr, httpHeaderWriteDate,
    httpHeaderWriteLastModified, httpHeaderWriteContentType, httpHeaderWriteChunkedEncoding,
    httpHeaderWriteEnd]
  split
  · simp
  · simp

theorem fileHead_clientSocket (world : World) (link : Link) (header webPath : Bytes)
    (st : FileStat) :
    (fileHead world link header webPath st).1.self.clientSocket = link.self.clientSocket := by
  simp only [fileHead, httpHeaderWriteResponse, httpHeaderWriteResponseStr, httpHeaderWriteDate,
    httpHeaderWriteFileName, httpHeaderWriteLastModified, httpHeaderWriteAcceptRanges,
    httpHeaderWriteContentLength, httpHeaderWriteRange, httpHeaderWriteEnd]
  split
  · simp
  · simp

/-- The routine a handler adds writes to the handler's socket, which stays open. -/
def Owned (clientSocket : Nat) (handled : Handled) : Prop :=
  ∀ routine, handled.added = some routine →
    routine.socketBuffer.clientSocket = clientSocket ∧ handled.code = 0

theorem owned_of_none {clientSocket : Nat} {handled : Handled} (h : handled.added = none) :
    Owned clientSocket handled := by
  intro routine hadded
  simp [h] at hadded

theorem httpHeaderHandleError_added (world : World) (link : Link) (error : Nat) :
    (httpHeaderHandleError world link error).added = none := by
  simp only [httpHeaderHandleError]
  split <;> rfl

theorem handleDir_added {world : World} {clientSocket : Nat} {channel : Channel}
    {webPath absolutePath : Bytes} {type : HttpType} {st : FileStat} {handled : Handled}
    (h : handleDir world clientSocket channel webPath absolutePath type st = .ok handled)
    {routine : Routine} (hadded : handled.added = some routine) :
    let title := if webPath = [] then text "/" else webPath
    let written := dirHead world ⟨sendBufferNew clientSocket 0, channel⟩ st
    ∃ entries crumbs head,
      world.dirOpen absolutePath = some entries ∧
      htmlBreadCrumbWrite [] title = .ok crumbs ∧
      (head = written ∨ head = (sendBufferFlush written).1) ∧
      handled.code = 0 ∧
      handled.link = (sendBufferFlush (httpBodyWriteChunk (sendBufferFlush
        (httpBodyWriteChunk head (htmlHeaderWrite [] title)).1).1 (htmlListStart crumbs)).1).1 ∧
      routine = directoryRoutineNew handled.link.self ⟨entries, true⟩ webPath := by
  intro title written
  obtain ⟨head, flushed, hhead⟩ : ∃ head flushed,
      (if type = .httpHead then sendBufferFlush written else (written, 1)) = (head, flushed) :=
    ⟨_, _, rfl⟩
  have hkind : head = written ∨ head = (sendBufferFlush written).1 := by
    split at hhead
    · exact .inr (by rw [hhead])
    · exact .inl (Prod.mk.inj hhead).1.symm
  have hnone : ∀ {code : Nat} {link : Link}, Except.ok (ε := Stop) ⟨code, none, link⟩
      ≠ .ok handled := by
    rintro code link heq
    obtain rfl := Except.ok.inj heq
    simp at hadded
  rw [handleDir] at h
  split at h
  · obtain rfl := Except.ok.inj h
    rw [httpHeaderHandleError_added] at hadded
    simp at hadded
  · rename_i entries hopen
    simp only at h
    rw [hhead] at h
    simp only at h
    generalize htitle : (if webPath = [] then text "/" else webPath) = page at h
    split at h
    · exact (hnone h).elim
    · split at h
      · exact (hnone h).elim
      · obtain ⟨crumbs, hcrumbs, h⟩ := bind_eq_ok_iff.mp h
        split at h
        · exact (hnone h).elim
        · obtain rfl := Except.ok.inj h
          obtain rfl := Option.some.inj hadded
          subst htitle
          exact ⟨entries, crumbs, head, hopen, hcrumbs, hkind, rfl, rfl, rfl⟩

theorem handleDir_owned {world : World} {clientSocket : Nat} {channel : Channel}
    {webPath absolutePath : Bytes} {type : HttpType} {st : FileStat} {handled : Handled}
    (h : handleDir world clientSocket channel webPath absolutePath type st = .ok handled) :
    Owned clientSocket handled := by
  intro routine hadded
  obtain ⟨entries, crumbs, head, -, -, hhead, hcode, hlink, rfl⟩ := handleDir_added h hadded
  refine ⟨?_, hcode⟩
  rw [directoryRoutineNew, hlink]
  rcases hhead with rfl | rfl
  · simp [dirHead_clientSocket, sendBufferNew]
  · simp [dirHead_clientSocket, sendBufferNew]

theorem handleFile_owned (world : World) (clientSocket : Nat) (channel : Channel)
    (header webPath absolutePath : Bytes) (httpType : HttpType) (st : FileStat) :
    Owned clientSocket
      (handleFile world clientSocket channel header webPath absolutePath httpType st) := by
  intro routine hadded
  rw [handleFile] at hadded ⊢
  split at hadded
  · simp at hadded
  · rename_i content hopen
    simp only at hadded ⊢
    split at hadded
    · simp at hadded
    · rename_i hget
      obtain rfl := Option.some.inj hadded
      simp [if_neg hget, fileRoutineNew, fileHead_clientSocket, sendBufferNew]

theorem handlePath_owned {world : World} {clientSocket : Nat} {channel : Channel}
    {header webPath : Bytes} {handled : Handled}
    (h : handlePath world clientSocket channel header webPath = .ok handled) :
    Owned clientSocket handled := by
  rw [handlePath] at h
  obtain ⟨path, -, h⟩ := bind_eq_ok_iff.mp h
  split at h
  · obtain rfl := Except.ok.inj h
    exact owned_of_none (httpHeaderHandleError_added _ _ _)
  · split at h
    · obtain rfl := Except.ok.inj h
      exact owned_of_none (httpHeaderHandleError_added _ _ _)
    · simp only at h
      split at h
      · obtain rfl := Except.ok.inj h
        intro routine hadded
        obtain rfl := Option.some.inj hadded
        simp [routineNew, httpHeaderWriteResponse, httpHeaderWriteResponseStr,
          httpHeaderWriteDate, httpHeaderWriteEnd, sendBufferNew]
      · split at h
        · exact handleDir_owned h
        · obtain rfl := Except.ok.inj h
          exact handleFile_owned _ _ _ _ _ _ _ _
        · obtain rfl := Except.ok.inj h
          exact owned_of_none rfl

theorem receiveTurn_early {world : World} {link : Link} {s : Receiving} {handled : Handled}
    (h : receiveTurn world link s = .ok (.leave (.inl handled))) :
    ∃ link', handled = ⟨1, none, link'⟩ := by
  simp only [receiveTurn] at h
  split at h
  · split at h <;> simp at h
  · split at h <;> simp at h
  · obtain rfl : Handled.mk 1 none link = handled := by simpa using h
    exact ⟨link, rfl⟩
  · split at h
    · obtain rfl : Handled.mk 1 none link = handled := by simpa using h
      exact ⟨link, rfl⟩
    · split at h
      · simp at h
      · split at h <;> simp at h
  · split at h
    · simp only [Except.ok.injEq, Turn.leave.injEq, Sum.inl.injEq] at h
      exact ⟨_, h.symm⟩
    · split at h
      · simp at h
      · split at h <;> simp at h

theorem handleConnection_early {world : World} {link : Link} {s : Receiving} {fuel : Nat}
    {handled : Handled} (h : run (receiveTurn world link) fuel s = .ok (.inl handled)) :
    ∃ link', handled = ⟨1, none, link'⟩ := by
  refine run_partial (fun _ => True)
    (fun r => ∀ early, r = .inl early → ∃ link', early = ⟨1, none, link'⟩) ?_ ?_ trivial h
    handled rfl
  · intro _ _ _ _
    trivial
  · rintro s r - hturn early rfl
    exact receiveTurn_early hturn

theorem handleConnection_owned {world : World} {clientSocket : Nat} {channel : Channel}
    {received : List Received} {handled : Handled}
    (h : handleConnection world clientSocket channel received = .ok handled) :
    Owned clientSocket handled := by
  rw [handleConnection] at h
  obtain ⟨result, hresult, h⟩ := bind_eq_ok_iff.mp h
  cases result with
  | inl early =>
      obtain rfl := Except.ok.inj h
      obtain ⟨link', rfl⟩ := handleConnection_early hresult
      exact owned_of_none rfl
  | inr message =>
      cases message with
      | nil =>
          obtain rfl := Except.ok.inj h
          exact owned_of_none rfl
      | cons c message =>
          simp only at h
          obtain ⟨uri, -, h⟩ := bind_eq_ok_iff.mp h
          split at h
          · obtain rfl := Except.ok.inj h
            exact owned_of_none rfl
          · split at h
            · obtain rfl := Except.ok.inj h
              exact owned_of_none rfl
            · exact handlePath_owned h

end Ownership

section Silence

/-- No byte has arrived and none will. -/
def Silent (s : Receiving) : Prop :=
  s.message = [] ∧ s.r < 50 ∧ ∀ result ∈ s.received, result.isBytes = false

theorem receiveTurn_silent (world : World) {link : Link} {s : Receiving} (hs : Silent s) :
    ∃ turn, receiveTurn world link s = .ok turn ∧
      Advances Silent (fun s => 50 - s.r)
        (fun r => r = .inl ⟨1, none, link⟩ ∨ r = .inr []) s turn := by
  obtain ⟨message, r, received⟩ := s
  obtain ⟨rfl, hr, hsilent⟩ := hs
  simp only at hr hsilent
  rcases received with _ | ⟨result, received⟩
  · rcases Nat.lt_or_ge (r + 1) 50 with hmore | hlast
    · refine ⟨.again ⟨[], r + 1, []⟩, by simp [receiveTurn, hmore], ⟨rfl, hmore, hsilent⟩, ?_⟩
      simp only
      omega
    · exact ⟨.leave (.inr []), by simp [receiveTurn, Nat.not_lt.mpr hlast], .inr rfl⟩
  · have hrest : ∀ result ∈ received, result.isBytes = false := by
      intro result hmem
      exact hsilent result (List.mem_cons_of_mem _ hmem)
    cases result with
    | bytes data => simp [Received.isBytes] at hsilent
    | closed => exact ⟨.leave (.inl ⟨1, none, link⟩), by simp [receiveTurn], .inl rfl⟩
    | error => exact ⟨.leave (.inl ⟨1, none, link⟩), by simp [receiveTurn], .inl rfl⟩
    | wouldBlock =>
        rcases Nat.lt_or_ge (r + 1) 50 with hmore | hlast
        · refine ⟨.again ⟨[], r + 1, received⟩, by simp [receiveTurn, hmore],
            ⟨rfl, hmore, hrest⟩, ?_⟩
          simp only
          omega
        · exact ⟨.leave (.inr []), by simp [receiveTurn, Nat.not_lt.mpr hlast], .inr rfl⟩

theorem handleConnection_silent (world : World) (clientSocket : Nat) (channel : Channel)
    {received : List Received} (h : ∀ result ∈ received, result.isBytes = false) :
    handleConnection world clientSocket channel received
      = .ok ⟨1, none, ⟨sendBufferNew clientSocket 0, channel⟩⟩ := by
  have hstart : Silent ⟨[], 0, received⟩ := ⟨rfl, Nat.zero_lt_succ _, h⟩
  have hfuel : 50 - (⟨[], 0, received⟩ : Receiving).r < 51 * received.length + 51 := by
    simp only
    omega
  obtain ⟨result, hrun, hresult⟩ := run_total _ _
    (fun s hs => receiveTurn_silent world hs) hstart hfuel
  rw [handleConnection, hrun]
  rcases hresult with rfl | rfl
  · rfl
  · rfl

end Silence

theorem fileHead_range_writes (world : World) {link : Link} {header : Bytes} (webPath : Bytes)
    {st : FileStat} {start finish : Int} (h : link.Sound)
    (hrange : httpHeaderReadRange header 0 0 st.size = some (start, finish)) :
    let stop := rangeEnd finish st.size
    let last := if stop = st.size then stop - 1 else stop
    ∃ before link', fileHead world link header webPath st = (link', start, stop) ∧
      Writes (before ++ contentLengthLine (stop - start) ++ contentRangeLine start last st.size ++
        httpEol) link link' := by
  intro stop last
  have hstatus : Writes _ link (httpHeaderWriteResponse link 206) :=
    sendBufferPrintf_writes h _ (zero_notMem_statusLine 206)
  have hdate := sendBufferPrintf_writes hstatus.sound
    ⟨40, dateLine world.clock⟩ (zero_notMem_dateLine _)
  have hname := sendBufferPrintf_writes hdate.sound
    ⟨(fileName webPath).length + 40, fileNameLine webPath⟩
    (zero_notMem_fileNameLine _)
  have hmodified := sendBufferPrintf_writes hname.sound
    ⟨50, lastModifiedLine world.clock st⟩ (zero_notMem_lastModifiedLine _ _)
  have haccept := (sendBufferWriteText_writes hmodified.sound acceptRangesLine).1
  have hlength := sendBufferPrintf_writes haccept.sound
    ⟨80, contentLengthLine (stop - start)⟩ (zero_notMem_contentLengthLine _)
  have hcontent := sendBufferPrintf_writes hlength.sound
    ⟨sbDataSize, contentRangeLine start last st.size⟩
    (zero_notMem_contentRangeLine _ _ _)
  have hend := (sendBufferWriteText_writes hcontent.sound httpEol).1
  have hbefore := (((hstatus.trans hdate).trans hname).trans hmodified).trans haccept
  have hall := ((hbefore.trans hlength).trans hcontent).trans hend
  rw [cString_eq_self (by decide : (0 : UInt8) ∉ httpEol)] at hall
  refine ⟨_, _, ?_, hall⟩
  simp only [fileHead, hrange]
  rfl

end Newth.Server.Handlers
