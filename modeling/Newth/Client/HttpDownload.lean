import Newth.Client.ChunkCopy

namespace Newth.Client.HttpDownload

open Newth.Library.ByteString
open Newth.Library.Call
open Newth.Library.Chunked
open Newth.Client.BareChunks
open Newth.Client.ChunkCopy
open Newth.Client.ChunkedBody (Fits lineLength)
open Newth.Client.ChunkTurns
open Newth.Client.CutShort
open Newth.Client.FileCopy (Download at_set fileAt)
open Newth.Client.Headers
open Newth.Client.HttpCopy
open Newth.Client.HttpOpen
open Newth.Client.Queue (QueueEntry copyEntry copyTurn sbDataSize given)
open Newth.Client.QueueUpdate (copyEntry_eq copyFromOpen copyUntilOpen)
open Newth.Client.Recvbufr (RecvBuffer Socket Ending Reading recv noChunk recvBufferAppend
  recvBufferAppendChunk appendChunkTurn recvBufferSetLengthChunk)
open Newth.Client.ResponseHead
open Newth.Client.ShortWrites
open Newth.Client.Site (World SitePointer)
open Newth.Client.SiteFile
open Newth.Client.SiteHttp (HttpResponseHeader HttpSite headersCompute)
open Newth.Client.TimelyChunks
open Newth.Client.Uri (uriPathLast)

section Statement

/-- The body of a response, in either of the two ways a head can announce one. -/
inductive Body where
  | known (content : Bytes)
  | chunked (chunks : List Bytes) (whole : ∀ d ∈ chunks, d ≠ [])

def Body.wire : Body → Bytes
  | .known content => content
  | .chunked chunks _ => Library.Chunked.wire chunks

def Body.content : Body → Bytes
  | .known content => content
  | .chunked chunks _ => chunks.flatten

def Body.Announced (header : HttpResponseHeader) : Body → Prop
  | .known content => header.chunked = false ∧ header.length = content.length
  | .chunked _ _ => header.chunked = true

/-- The head of a response that gives a file with such a body. -/
structure Announces (header : Bytes) (body : Body) : Prop where
  readable : Readable header
  essential : (ioHttpResponseHeaderEssential header).isSome
  populated : ∃ r, headersPopulate header noHeader = .ok r ∧ r.attachment = true ∧
    body.Announced r.toHttpResponseHeader

/-- The download comes to its copy, with such results of the writes to come, and the answer to its
request is this head with what the connection holds behind it. -/
def Answers (header : Bytes) (behind : RecvBuffer → Prop) (writes : List Write)
    (download : Download) (w : World HttpConnection) (entry : QueueEntry) : Prop :=
  ∃ w₁ conn path conn' resolvedPath, start httpScheme download w entry = .ok (.copies w₁) ∧
    w₁.disk.writes = writes ∧ entry.sourcePath = some path ∧
    w₁.sites.at entry.sourceSite = .ok (.http conn) ∧
    requestHead conn path = .ok (conn', .ok (resolvedPath, header)) ∧ behind conn'.socket

/-- Up to where the connection ends these bytes come, in part perhaps with the head. -/
def Sent (sent : Bytes) (ending : Ending) (buffer : RecvBuffer) : Prop :=
  buffer.data ++ buffer.serverSocket.rest = sent ∧ buffer.serverSocket.ending = ending

/-- None of the chunks came with the head, and they arrive by one of these courses. -/
def Waiting (chunks : List Bytes) (pauses closes : List Nat) (buffer : RecvBuffer) : Prop :=
  buffer.data = [] ∧ Course chunks pauses closes buffer.serverSocket

/-- Whatever download it is and however the answer arrives, an entry that is marked finished has
the whole body in its destination. -/
def FinishesWhole (header : Bytes) (body : Body) (behind : RecvBuffer → Prop)
    (writes : List Write) : Prop :=
  ∀ (download : Download) (fuel : Nat) (w w' : World HttpConnection) (entry entry' : QueueEntry),
    Answers header behind writes download w entry →
    download.run httpScheme fuel w entry = .ok (w', entry', none) →
    entry'.state.finished = true →
    fileAt w' entry.destinationSite entry.destinationPath = some body.content

/-- When it does, in whatever pieces the bytes arrive: a body of known length has to arrive whole
and nothing of a block may be missing in the file, or the connection has to fail; a chunked body has
to be empty, or not to come at all. -/
def Safe (body : Body) (arrived : Nat) (ending : Ending) (writes : List Write) : Prop :=
  match body with
  | .known content =>
      if content.length ≤ arrived then StoresAll sbDataSize writes content.length
      else ending ≠ .closed
  | .chunked chunks _ => chunks = [] ∨ (arrived = 0 ∧ ending ≠ .closed)

instance (body : Body) (arrived : Nat) (ending : Ending) (writes : List Write) :
    Decidable (Safe body arrived ending writes) :=
  match body with
  | .known content =>
      inferInstanceAs (Decidable (if content.length ≤ arrived then
        StoresAll sbDataSize writes content.length else ending ≠ .closed))
  | .chunked chunks _ =>
      inferInstanceAs (Decidable (chunks = [] ∨ (arrived = 0 ∧ ending ≠ .closed)))

end Statement

section Sound

variable {header : Bytes} {body : Body} {writes : List Write}

theorem copyUntilOpen_returns {η : Type} {http : Site.HttpScheme η} {w w' : World η}
    {entry entry' : QueueEntry} {e : Option SiteError}
    (h : copyUntilOpen http w entry = .ok (.returns w' entry' e)) : e.isSome := by
  rw [copyUntilOpen] at h
  obtain ⟨fromPath, -, h⟩ := bind_eq_ok_iff.mp h
  obtain ⟨toPath, -, h⟩ := bind_eq_ok_iff.mp h
  obtain ⟨⟨w₁, opened⟩, -, h⟩ := bind_eq_ok_iff.mp h
  cases opened with
  | some message =>
      obtain ⟨-, -, rfl⟩ := QueueUpdate.Progress.returns.inj (Except.ok.inj h)
      rfl
  | none =>
      simp only [Option.isSome_none, Bool.false_eq_true, if_false] at h
      obtain ⟨found, -, h⟩ := bind_eq_ok_iff.mp h
      split at h
      · simp at h
      · obtain ⟨w₂, -, h⟩ := bind_eq_ok_iff.mp h
        obtain ⟨-, -, rfl⟩ := QueueUpdate.Progress.returns.inj (Except.ok.inj h)
        rfl
      · obtain ⟨w₂, -, h⟩ := bind_eq_ok_iff.mp h
        obtain ⟨-, -, rfl⟩ := QueueUpdate.Progress.returns.inj (Except.ok.inj h)
        rfl
      · obtain ⟨w₂, -, h⟩ := bind_eq_ok_iff.mp h
        obtain ⟨-, -, rfl⟩ := QueueUpdate.Progress.returns.inj (Except.ok.inj h)
        rfl

/-- An entry is finished by a loop over the connection as the head leaves it, and has what the loop
has copied. -/
theorem finished_copies {behind : RecvBuffer → Prop} (hannounces : Announces header body)
    {download : Download} {fuel : Nat} {w w' : World HttpConnection} {entry entry' : QueueEntry}
    (hanswers : Answers header behind writes download w entry)
    (hdone : download.run httpScheme fuel w entry = .ok (w', entry', none)) :
    ∃ r self site source destination uri inode paths conn w₁ w₂, body.Announced r ∧
      behind self.socket ∧ headersCompute self r (text "GET") = .ok site ∧
      conn.socket = site.socket ∧ Copying source destination uri inode paths conn [] w₁ ∧
      w₁.disk.writes = writes ∧
      run (copyTurn httpScheme source destination) fuel w₁ = .ok (w₂, true) ∧
      ∀ conn' content, Copying source destination uri inode paths conn' content w₂ →
        fileAt w' entry.destinationSite entry.destinationPath = some content := by
  obtain ⟨w₁, conn, path, conn', resolvedPath, hstart, hwrites, hpath, hsource, hrequest, hbehind⟩ :=
    hanswers
  obtain ⟨r, hpopulate, -, hannounced⟩ := hannounces.populated
  rw [run_eq, hstart, ok_bind] at hdone
  simp only [copyEntry_eq] at hdone
  obtain ⟨progress, huntil, hcopy⟩ := bind_eq_ok_iff.mp hdone
  cases progress with
  | returns w₂ entry₂ e =>
      have he := copyUntilOpen_returns huntil
      obtain rfl : e = none := (Prod.mk.inj (Prod.mk.inj (Except.ok.inj hcopy)).2).2
      contradiction
  | opensWrite w₂ toPath =>
      obtain ⟨fromPath, date, name, metaPath, hfrom, hto, hread, -⟩ :=
        copyUntilOpen_opens_iff.mp huntil
      obtain rfl : path = fromPath := Option.some.inj (hpath.symm.trans hfrom)
      obtain ⟨conn₂, hopened, rfl⟩ := (siteFileOpenRead_http_iff hsource).mp hread
      rw [fileOpenRead_eq hrequest hannounces.essential hpopulate] at hopened
      obtain ⟨site, hcompute, hopened⟩ := bind_eq_ok_iff.mp hopened
      obtain ⟨hconn₂, -⟩ := Prod.mk.inj (Except.ok.inj hopened)
      have hsocket : conn₂.socket = site.socket := by rw [← hconn₂]; rfl
      obtain ⟨w₃, w₄, w₅, hwrite, hrun, hclose, hclose', -⟩ := copyFromOpen_done_iff.mp hcopy
      obtain ⟨uri, inode, hcopying, hwrites', hcloses⟩ := opened_closes (at_set hsource _) hwrite
      refine ⟨r.toHttpResponseHeader, conn'.site, site, _, _, uri, inode, _, conn₂, w₃, w₄, hannounced,
        hbehind, hcompute, hsocket, hcopying, hwrites'.trans hwrites, hrun, ?_⟩
      intro conn₄ content hcopied
      obtain ⟨w₅', w'', hclosed, hclosed', hcontent⟩ := hcloses w₄ conn₄ content hcopied
      obtain rfl := Except.ok.inj (hclose.symm.trans hclosed)
      obtain rfl := Except.ok.inj (hclose'.symm.trans hclosed')
      rw [hto]
      exact hcontent

theorem copy_safe {source destination : Option SitePointer} {uri : Bytes} {inode : Nat}
    {paths : Bytes → Nat} {conn : HttpConnection} {self site : HttpSite} {r : HttpResponseHeader}
    {w w' : World HttpConnection} {fuel arrived : Nat} {ending : Ending}
    (hannounced : body.Announced r) (hsafe : Safe body arrived ending w.disk.writes)
    (hsent : Sent (body.wire.take arrived) ending self.socket)
    (hcompute : headersCompute self r (text "GET") = .ok site) (hsocket : conn.socket = site.socket)
    (h : Copying source destination uri inode paths conn [] w)
    (hrun : run (copyTurn httpScheme source destination) fuel w = .ok (w', true)) :
    ∃ conn', Copying source destination uri inode paths conn' body.content w' := by
  obtain ⟨hsent, hending⟩ := hsent
  cases body with
  | known content =>
      obtain ⟨hchunked, hlength⟩ := hannounced
      obtain ⟨computed, hcomputed, hsame, hleaves⟩ :=
        @headersCompute_sent _ _ content _ hsent hchunked hlength
      obtain rfl : site = computed := Except.ok.inj (hcompute.symm.trans hcomputed)
      rw [← hsocket] at hsame hleaves
      rw [Safe] at hsafe
      split at hsafe
      · rename_i hwhole
        rw [if_pos hwhole] at hleaves
        obtain ⟨w₁, conn₁, hrun₁, hcopied⟩ := copy_delivers h (Or.inl hleaves) (Nat.lt_succ_self _)
        rw [List.nil_append, (stored_eq_self_iff (by decide) _ _).mpr hsafe] at hcopied
        have hmore := run_mono (le_max_left fuel (content.length + 1)) hrun
        have hmore₁ := run_mono (le_max_right fuel (content.length + 1)) hrun₁
        obtain ⟨rfl, -⟩ := Prod.mk.inj (Except.ok.inj (hmore.symm.trans hmore₁))
        exact ⟨conn₁, hcopied⟩
      · rename_i hpart
        rw [if_neg hpart] at hleaves
        have hopen : conn.socket.serverSocket.ending ≠ .closed := by
          rw [hsame, hending]
          exact hsafe
        have hfalse := copy_cut h hleaves hopen hrun
        contradiction
  | chunked chunks whole =>
      rw [headersCompute_chunk hannounced] at hcompute
      obtain ⟨socket, hstart, hcompute⟩ := bind_eq_ok_iff.mp hcompute
      obtain rfl := Except.ok.inj hcompute
      rcases hsafe with rfl | ⟨rfl, hopen⟩
      · have hempty : Emptied conn.socket := by
          rw [hsocket]
          exact recvBufferSetLengthChunk_bare (bare_of_sent hsent) hstart
        exact copy_emptied h hempty hrun
      · rw [List.take_zero] at hsent
        obtain ⟨hdata, hrest⟩ := List.append_eq_nil_iff.mp hsent
        rw [recvBufferSetLengthChunk, if_neg (not_not.mpr hdata)] at hstart
        obtain rfl := Except.ok.inj hstart
        have hbuffer : conn.socket.data = [] := by rw [hsocket]; exact hdata
        have hmode : conn.socket.length = .chunk noChunk 0 := by rw [hsocket]
        have hnothing : conn.socket.serverSocket.rest = [] := by rw [hsocket]; exact hrest
        have hopen' : conn.socket.serverSocket.ending ≠ .closed := by
          rw [hsocket]
          show self.socket.serverSocket.ending ≠ .closed
          rwa [hending]
        have hfalse := copy_unanswered h hbuffer hmode hnothing hopen' hrun
        contradiction

theorem finishesWhole_of_safe {arrived : Nat} {ending : Ending}
    (hannounces : Announces header body) (hsafe : Safe body arrived ending writes) :
    FinishesWhole header body (Sent (body.wire.take arrived) ending) writes := by
  intro download fuel w w' entry entry' hanswers hdone _
  obtain ⟨r, self, site, source, destination, uri, inode, paths, conn, w₁, w₂, hannounced, hsent,
    hcompute, hsocket, hcopying, rfl, hrun, hends⟩ := finished_copies hannounces hanswers hdone
  obtain ⟨conn', hcopied⟩ := copy_safe hannounced hsafe hsent hcompute hsocket hcopying hrun
  exact hends conn' body.content hcopied

theorem copying_chunks {stops : Prop} {chunks : List Bytes} {r : HttpResponseHeader}
    {self site : HttpSite} {source destination : Option SitePointer} {uri : Bytes} {inode : Nat}
    {paths : Bytes → Nat} {conn : HttpConnection} {w : World HttpConnection}
    (hchunked : r.chunked = true) (hempty : self.socket.data = [])
    (hstanding : Standing stops chunks.flatten ⟨none, .chunk noChunk 0, self.socket.serverSocket⟩)
    (hcompute : headersCompute self r (text "GET") = .ok site) (hsocket : conn.socket = site.socket)
    (hstored : ∀ write ∈ w.disk.writes, write = .whole)
    (h : Copying source destination uri inode paths conn [] w) :
    CopyingChunks source destination uri inode paths stops [] chunks.flatten conn w := by
  rw [headersCompute_chunk hchunked, recvBufferSetLengthChunk, if_neg (not_not.mpr hempty)]
    at hcompute
  obtain rfl := Except.ok.inj hcompute
  have hdata : conn.socket.data = [] := by
    rw [hsocket]
    exact hempty
  refine ⟨h, ?_, hdata, hstored⟩
  rw [hsocket]
  exact hstanding.same rfl rfl hempty.symm

theorem finishesWhole_of_course {chunks : List Bytes} {whole : ∀ d ∈ chunks, d ≠ []}
    (hannounces : Announces header (.chunked chunks whole)) (hfits : Fits chunks)
    (hstored : ∀ write ∈ writes, write = .whole) {pauses closes : List Nat}
    (hgoes : ∀ p ∈ pauses, ¬ Stops (p ∈ closes) noChunk chunks p) :
    FinishesWhole header (.chunked chunks whole) (Waiting chunks pauses closes) writes := by
  intro download fuel w w' entry entry' hanswers hdone _
  obtain ⟨r, self, site, source, destination, uri, inode, paths, conn, w₁, w₂, hannounced,
    ⟨hempty, hcourse⟩, hcompute, hsocket, hcopying, rfl, hrun, hends⟩ :=
    finished_copies hannounces hanswers hdone
  have hchunks := copying_chunks hannounced hempty (hcourse.standing hfits hgoes 0) hcompute hsocket
    hstored hcopying
  obtain ⟨conn', hcopied⟩ := copy_whole hchunks hrun
  exact hends conn' _ hcopied

end Sound

section Exhibit

variable {header : Bytes} {body : Body} {writes : List Write}

/-- The HTTP site of the connection and a file site beside it, on a disk without files. -/
def besideFiles (conn : HttpConnection) (writes : List Write) : World HttpConnection where
  disk := {
    inode := fun _ => 0
    node := fun _ => none
    realPath := some
    now := ⟨125, 0, 1, 0, 0, 0⟩
    writes }
  sites := ⟨0, [.http conn, .file ⟨text "file:///", none, noMeta⟩], 0, 1⟩

def aToB : QueueEntry :=
  ⟨some ⟨0, 0⟩, some ⟨0, 1⟩, some (text "a"), some (text "b"), ⟨true, false, false⟩⟩

theorem start_aToB (conn : HttpConnection) :
    start httpScheme .mirror (besideFiles conn writes) aToB =
      .ok (.copies (besideFiles conn writes)) := rfl

/-- A head that announces a file is answered somewhere: the bytes behind it may arrive in any
way, and how the loop comes to its end decides what the destination holds. -/
theorem answered_somewhere (hannounces : Announces header body) (arrivals : List Bytes)
    (ending : Ending) :
    ∃ r, body.Announced r ∧
      ∀ site, headersCompute (answered arrivals ending) r (text "GET") = .ok site →
        ∃ w entry source destination uri inode paths w₁ conn,
          (∀ behind : RecvBuffer → Prop, behind (answered arrivals ending).socket →
            Answers header behind writes .mirror w entry) ∧ conn.socket = site.socket ∧
          Copying source destination uri inode paths conn [] w₁ ∧ w₁.disk.writes = writes ∧
          ∀ fuel w₂ conn' content,
            run (copyTurn httpScheme source destination) fuel w₁ = .ok (w₂, true) →
            Copying source destination uri inode paths conn' content w₂ →
            ∃ w' entry', Download.mirror.run httpScheme fuel w entry = .ok (w', entry', none) ∧
              entry'.state.finished = true ∧
              fileAt w' entry.destinationSite entry.destinationPath = some content := by
  obtain ⟨r, hpopulate, hattachment, hannounced⟩ := hannounces.populated
  obtain ⟨conn', hrequest, hsite⟩ := requestHead_awaiting hannounces.readable arrivals ending
  refine ⟨r.toHttpResponseHeader, hannounced, fun site hcompute => ?_⟩
  let w := besideFiles (awaiting (header ++ crlf) arrivals ending) writes
  have hsource : w.sites.at aToB.sourceSite =
      .ok (.http (awaiting (header ++ crlf) arrivals ending)) := rfl
  have hopened := fileOpenRead_eq hrequest hannounces.essential hpopulate
  rw [hsite, hcompute, ok_bind] at hopened
  obtain ⟨name, hname⟩ : ∃ name, openedName (text "/a") r.fileName = some name := by
    have hlast : uriPathLast (text "/a") = some (text "a") := rfl
    cases r.fileName with
    | none => exact ⟨_, hlast⟩
    | some fileName =>
        simp only [openedName, hlast]
        split
        · exact ⟨_, rfl⟩
        · exact ⟨_, rfl⟩
  rw [hname, if_pos hattachment] at hopened
  let opened : SiteFileMeta :=
    ⟨r.modifiedDate.map (·.toPlatformTimeStruct), some name, some (text "/a"), .file⟩
  let conn₂ : HttpConnection := { conn'.setSocket site.socket with file := some opened }
  let w₂ : World HttpConnection := { w with sites := w.sites.set aToB.sourceSite (.http conn₂) }
  have hread := (siteFileOpenRead_http_iff hsource).mpr ⟨_, hopened, rfl⟩
  have huntil := copyUntilOpen_opens_iff.mpr ⟨text "a", _, name, _, rfl, rfl, hread, by
    rw [Site.siteFileOpenMeta, at_set hsource]
    rfl⟩
  obtain ⟨w₁, hwrite⟩ : ∃ w₁, Site.siteFileOpenWrite w₂ aToB.destinationSite (text "b") =
      .ok (w₁, none) := ⟨_, rfl⟩
  have hsource₂ : w₂.sites.at aToB.sourceSite = .ok (.http conn₂) := at_set hsource _
  obtain ⟨uri, inode, hcopying, hwrites, hcloses⟩ := opened_closes hsource₂ hwrite
  refine ⟨w, aToB, aToB.sourceSite, aToB.destinationSite, uri, inode, _, w₁, conn₂, ?_, rfl,
    hcopying, hwrites, ?_⟩
  · intro behind hbehind
    refine ⟨w, _, text "a", conn', text "/a", start_aToB _, rfl, rfl, hsource, hrequest, ?_⟩
    show behind conn'.site.socket
    rw [hsite]
    exact hbehind
  · intro fuel w₃ conn₃ content hrun hcopied
    obtain ⟨w₄, w', hclose, hclose', hcontent⟩ := hcloses w₃ conn₃ content hcopied
    refine ⟨w', { aToB with state := ⟨false, true, aToB.state.failed⟩ }, ?_, rfl, hcontent⟩
    rw [run_eq, start_aToB, ok_bind]
    simp only [copyEntry_eq]
    show copyUntilOpen httpScheme w aToB >>= copyFromOpen httpScheme fuel aToB = _
    rw [huntil]
    exact copyFromOpen_done_iff.mpr ⟨w₁, w₃, w₄, hwrite, hrun, hclose, hclose', rfl⟩

theorem content_of_finishesWhole {behind : RecvBuffer → Prop}
    (hannounces : Announces header body) (hfinishes : FinishesWhole header body behind writes)
    (arrivals : List Bytes) (ending : Ending) (hbehind : behind (answered arrivals ending).socket) :
    ∃ r, body.Announced r ∧
      ∀ site, headersCompute (answered arrivals ending) r (text "GET") = .ok site →
        ∃ source destination uri inode paths w₁ conn, conn.socket = site.socket ∧
          Copying source destination uri inode paths conn [] w₁ ∧ w₁.disk.writes = writes ∧
          ∀ fuel w₂ conn' content,
            run (copyTurn httpScheme source destination) fuel w₁ = .ok (w₂, true) →
            Copying source destination uri inode paths conn' content w₂ → content = body.content := by
  obtain ⟨r, hannounced, hsites⟩ := @answered_somewhere _ _ writes hannounces arrivals ending
  refine ⟨r, hannounced, fun site hcompute => ?_⟩
  obtain ⟨w, entry, source, destination, uri, inode, paths, w₁, conn, hanswers, hsocket, hcopying,
    hwrites, hends⟩ := hsites site hcompute
  refine ⟨source, destination, uri, inode, paths, w₁, conn, hsocket, hcopying, hwrites, ?_⟩
  intro fuel w₂ conn' content hrun hcopied
  obtain ⟨w', entry', hdone, hfinished, hcontent⟩ := hends fuel w₂ conn' content hrun hcopied
  have hwhole :=
    hfinishes .mirror fuel w w' entry entry' (hanswers behind hbehind) hdone hfinished
  exact Option.some.inj (hcontent.symm.trans hwhole)

theorem read_firstByte {site : HttpSite} {sent : Bytes} {ending : Ending} {size : Nat}
    (hsize : 0 < size) (hsent : sent = [] → ending = .closed)
    (hsocket : site.socket =
      ⟨none, .chunk noChunk 0, ⟨[], [sent.take 1, sent.drop 1], ending⟩⟩) :
    ∃ site', SiteHttp.httpSiteSchemeFileRead site size = .ok (site', some []) := by
  have hlen : site.socket.len = 0 := by rw [hsocket]; rfl
  obtain ⟨socket, peeked, hshort, hrecv⟩ : ∃ (socket : Socket) (peeked : Bytes), peeked.length < 3 ∧
      recv ⟨[], [sent.take 1, sent.drop 1], ending⟩ 19 true = .ok (socket, some peeked) := by
    cases sent with
    | nil =>
        obtain rfl := hsent rfl
        exact ⟨_, [], by decide, rfl⟩
    | cons c sent => exact ⟨_, [c], by simp, rfl⟩
  let now : RecvBuffer := ⟨some [], .chunk noChunk 0, socket⟩
  have happend : recvBufferAppend site.socket (size - site.socket.len) = .ok (now, none) := by
    rw [hsocket, recvBufferAppend_chunk rfl, recvBufferAppendChunk, if_pos rfl]
    apply run_succ_leave
    simp only [appendChunkTurn, hrecv, ok_bind, if_true, hshort]
    rfl
  refine ⟨{ site with socket := now }, ?_⟩
  rw [SiteHttp.httpSiteSchemeFileRead, if_pos (by omega), happend]
  rfl

theorem answered_sent {arrivals : List Bytes} {sent : Bytes} (h : arrivals.flatten = sent)
    (ending : Ending) : Sent sent ending (answered arrivals ending).socket :=
  ⟨h, rfl⟩

theorem safe_of_finishesWhole {arrived : Nat} {ending : Ending}
    (hannounces : Announces header body)
    (hfinishes : FinishesWhole header body (Sent (body.wire.take arrived) ending) writes) :
    Safe body arrived ending writes := by
  cases body with
  | known content =>
      have hone : [content.take arrived].flatten = content.take arrived := List.flatten_singleton
      obtain ⟨r, ⟨hchunked, hlength⟩, hsites⟩ :=
        content_of_finishesWhole hannounces hfinishes _ ending (answered_sent hone ending)
      obtain ⟨site, hcompute, hsame, hleaves⟩ :=
        @headersCompute_sent (answered [content.take arrived] ending) r content arrived hone hchunked
          hlength
      obtain ⟨source, destination, uri, inode, paths, w₁, conn, hsocket, hcopying, hwrites, hends⟩ :=
        hsites site hcompute
      rw [← hsocket] at hleaves hsame
      have hcopied : Delivers (content.take arrived) conn.socket →
          stored sbDataSize writes (content.take arrived) = content := by
        intro hdelivers
        obtain ⟨w₂, conn', hrun, hcopied⟩ := copy_delivers hcopying hdelivers (Nat.lt_succ_self _)
        rw [hwrites] at hcopied
        exact hends _ w₂ conn' _ hrun hcopied
      rw [Safe]
      by_cases hwhole : content.length ≤ arrived
      · rw [if_pos hwhole] at hleaves ⊢
        rw [List.take_of_length_le hwhole] at hcopied
        exact (stored_eq_self_iff (by decide) _ _).mp (hcopied (Or.inl hleaves))
      · rw [if_neg hwhole] at hleaves ⊢
        rintro rfl
        have hclosed : conn.socket.serverSocket.ending = .closed := by
          rw [hsame]
          rfl
        have hlost := congrArg List.length (hcopied (Or.inr ⟨hleaves, hclosed⟩))
        have hbound := @length_stored_le sbDataSize writes (content.take arrived)
        rw [List.length_take] at hbound
        omega
  | chunked chunks whole =>
      rw [Safe]
      by_contra hunsafe
      obtain ⟨hchunks, hcomes⟩ := not_or.mp hunsafe
      let sent := (wire chunks).take arrived
      have hsent : sent = [] → ending = .closed := by
        intro hnothing
        by_contra hopen
        apply hcomes
        refine ⟨?_, hopen⟩
        rcases List.take_eq_nil_iff.mp hnothing with hzero | hwire
        · exact hzero
        · have hlines : wire chunks ≠ [] := List.append_ne_nil_of_right_ne_nil _ (by decide)
          exact absurd hwire hlines
      have htwo : [sent.take 1, sent.drop 1].flatten = sent := by
        rw [List.flatten_cons, List.flatten_singleton, List.take_append_drop]
      obtain ⟨r, hchunked, hsites⟩ :=
        content_of_finishesWhole hannounces hfinishes _ ending (answered_sent htwo ending)
      obtain ⟨source, destination, uri, inode, paths, w₁, conn, hsocket, hcopying, -, hends⟩ :=
        hsites _ (headersCompute_chunk hchunked)
      obtain ⟨site', hread⟩ :=
        @read_firstByte conn.site sent ending sbDataSize (by decide) hsent hsocket
      have hread' : HttpOpen.httpSiteSchemeFileRead conn sbDataSize =
          .ok (conn.setSocket site'.socket, some []) := by
        simp only [HttpOpen.httpSiteSchemeFileRead, hread, ok_bind]
      obtain ⟨w₂, hturn, hcopied⟩ := copyTurn_leave hcopying hread'
      have hnothing := hends 1 w₂ _ [] (run_succ_leave 0 hturn) hcopied
      cases chunks with
      | nil => exact hchunks rfl
      | cons d ds =>
          have hd := whole d List.mem_cons_self
          rw [Body.content, List.flatten_cons] at hnothing
          exact hd (List.append_eq_nil_iff.mp hnothing.symm).1

theorem course_of_finishesWhole {chunks : List Bytes} {whole : ∀ d ∈ chunks, d ≠ []}
    (hannounces : Announces header (.chunked chunks whole)) (hfits : Fits chunks)
    (hstored : ∀ write ∈ writes, write = .whole) {pauses closes : List Nat}
    (hfinishes : FinishesWhole header (.chunked chunks whole) (Waiting chunks pauses closes) writes) :
    ∀ p ∈ pauses, ¬ Stops (p ∈ closes) noChunk chunks p := by
  intro p hp hstops
  let socket := broken chunks p (decide (p ∈ closes))
  have hwaiting : Waiting chunks pauses closes (answered socket.arrivals socket.ending).socket :=
    ⟨rfl, broken_course hp hstops⟩
  obtain ⟨r, hchunked, hsites⟩ :=
    content_of_finishesWhole hannounces hfinishes socket.arrivals socket.ending hwaiting
  obtain ⟨source, destination, uri, inode, paths, w₁, conn, hsocket, hcopying, rfl, hends⟩ :=
    hsites ⟨_, { (answered socket.arrivals socket.ending).socket with length := .chunk noChunk 0 }⟩
      (headersCompute_chunk hchunked)
  have hchunks := @copying_chunks _ chunks r (answered socket.arrivals socket.ending) _ _ _ _ _ _ _ _
    hchunked rfl (broken_standing hfits hstops 0) (headersCompute_chunk hchunked) hsocket hstored
    hcopying
  obtain ⟨w₂, conn', short, hrun, hcopied, hshort⟩ := copy_stops hchunks (Nat.lt_succ_self _)
  exact hshort (hends _ w₂ conn' short hrun hcopied)

def helloHead : Bytes :=
  text "HTTP/1.1 200 OK\r\nContent-Length: 5\r\nContent-Disposition: attachment; filename=\"a\"\r\n"

theorem helloHead_announces : Announces helloHead (.known (text "hello")) where
  readable := by
    refine ⟨⟨helloHead.take (helloHead.length - 2), by decide +kernel, by decide +kernel, ?_⟩,
      by decide +kernel, by decide +kernel⟩
    decide +kernel
  essential := by decide +kernel
  populated := ⟨⟨⟨5, false⟩, none, some (text "a"), true⟩, by decide +kernel, rfl, rfl, rfl⟩

def chunkedHead : Bytes :=
  text "HTTP/1.1 200 OK\r\nTransfer-Encoding: chunked\r\nContent-Disposition: attachment\r\n"

theorem chunkedHead_announces : Announces chunkedHead (.chunked [text "hello"] (by decide)) where
  readable := by
    refine ⟨⟨chunkedHead.take (chunkedHead.length - 2), by decide +kernel, by decide +kernel, ?_⟩,
      by decide +kernel, by decide +kernel⟩
    decide +kernel
  essential := by decide +kernel
  populated := ⟨⟨⟨0, true⟩, none, none, true⟩, by decide +kernel, rfl, rfl⟩

end Exhibit

end Newth.Client.HttpDownload
