import Newth.Client.HttpCopy
import Newth.Client.TimelyChunks

namespace Newth.Client.ChunkCopy

open Newth.Library.ByteString
open Newth.Library.Call
open Newth.Library.Chunked
open Newth.Client.BareChunks
open Newth.Client.ChunkTurns
open Newth.Client.CutShort
open Newth.Client.HttpCopy
open Newth.Client.HttpOpen
open Newth.Client.Queue (copyTurn sbDataSize)
open Newth.Client.Recvbufr (RecvBuffer Reading noChunk recvBufferAppend recvBufferAppendChunk
  appendChunkTurn recvBufferSetLengthChunk)
open Newth.Client.ShortWrites
open Newth.Client.Site (SitePointer World siteFileAtEnd)
open Newth.Client.SiteFile
open Newth.Client.SiteHttp (HttpResponseHeader HttpSite headersCompute)
open Newth.Client.TimelyChunks

section Waits

variable {source destination : Option SitePointer} {uri : Bytes} {inode : Nat}
  {paths : Bytes → Nat}

theorem headersCompute_chunk {self : HttpSite} {header : HttpResponseHeader}
    (hchunked : header.chunked = true) :
    headersCompute self header (text "GET") =
      recvBufferSetLengthChunk self.socket >>= fun socket => .ok { self with socket } := by
  have hget : SiteHttp.isGet (text "GET") = true := by decide
  simp only [headersCompute, hget, if_true, hchunked]

theorem bare_of_sent {buffer : RecvBuffer} {arrived : Nat}
    (hsent : buffer.data ++ buffer.serverSocket.rest = (wire []).take arrived) : Bare buffer := by
  have hall : ∀ c ∈ wire [], c ∈ bareBytes := forall_mem_of_all (by decide)
  have hmem : ∀ c ∈ buffer.data ++ buffer.serverSocket.rest, c ∈ bareBytes := by
    intro c hc
    rw [hsent] at hc
    exact hall c (List.mem_of_mem_take hc)
  exact ⟨fun c hc => hmem c (List.mem_append_left _ hc),
    fun c hc => hmem c (List.mem_append_right _ hc)⟩

theorem read_unanswered {self : HttpSite} {total : Nat} (hbuffer : self.socket.data = [])
    (hmode : self.socket.length = .chunk noChunk total)
    (hrest : self.socket.serverSocket.rest = []) {size : Nat} (hsize : 0 < size) :
    ∃ socket : RecvBuffer, socket.length = .chunk noChunk total ∧ socket.data = [] ∧
      SiteHttp.httpSiteSchemeFileRead self size =
        match self.socket.serverSocket.ending with
        | .idle => .error .endless
        | .closed => .ok ({ self with socket }, some [])
        | .failed => .ok ({ self with socket }, none) := by
  have hlen : self.socket.len = 0 := by rw [RecvBuffer.len, hbuffer, List.length_nil]
  obtain ⟨serverSocket, -, -, hrecv⟩ := recv_of_end 19 true hrest
  let socket : RecvBuffer := ⟨some [], .chunk noChunk total, serverSocket⟩
  have happend : recvBufferAppend self.socket (size - self.socket.len) =
      match self.socket.serverSocket.ending with
      | .idle => .error .endless
      | .closed => .ok (socket, none)
      | .failed => .ok (socket, some .socketError) := by
    rw [recvBufferAppend_chunk hmode, recvBufferAppendChunk, if_pos rfl, hbuffer, run]
    simp only [appendChunkTurn, hrecv, hmode]
    cases self.socket.serverSocket.ending with
    | idle => rfl
    | closed => rfl
    | failed => rfl
  refine ⟨socket, rfl, rfl, ?_⟩
  rw [SiteHttp.httpSiteSchemeFileRead, if_pos (by omega), happend]
  cases self.socket.serverSocket.ending with
  | idle => rfl
  | closed => rfl
  | failed => rfl

theorem copy_unanswered {fuel total : Nat} {conn : HttpConnection} {content : Bytes}
    {w : World HttpConnection}
    (h : Copying source destination uri inode paths conn content w)
    (hbuffer : conn.socket.data = []) (hmode : conn.socket.length = .chunk noChunk total)
    (hrest : conn.socket.serverSocket.rest = []) (hopen : conn.socket.serverSocket.ending ≠ .closed)
    {w' : World HttpConnection} {ended : Bool}
    (hrun : run (copyTurn httpScheme source destination) fuel w = .ok (w', ended)) :
    ended = false := by
  cases fuel with
  | zero => simp [run] at hrun
  | succ fuel =>
      obtain ⟨socket, hlength, -, hread⟩ :=
        @read_unanswered conn.site total hbuffer hmode hrest sbDataSize (by decide)
      cases hending : conn.socket.serverSocket.ending with
      | closed => exact absurd hending hopen
      | idle =>
          have hidle : conn.site.socket.serverSocket.ending = .idle := hending
          rw [hidle] at hread
          have hturn : copyTurn httpScheme source destination w = .error .endless := by
            have hstop : httpScheme.fileRead conn sbDataSize = .error .endless := by
              simp only [httpScheme, HttpOpen.httpSiteSchemeFileRead, hread, error_bind]
            simp only [copyTurn, Site.siteFileRead, h.source, ok_bind, hstop, error_bind]
          rw [run_succ_error fuel hturn] at hrun
          contradiction
      | failed =>
          have hfailed : conn.site.socket.serverSocket.ending = .failed := hending
          rw [hfailed] at hread
          have hread' : HttpOpen.httpSiteSchemeFileRead conn sbDataSize =
              .ok (conn.setSocket socket, none) := by
            simp only [HttpOpen.httpSiteSchemeFileRead, hread, ok_bind]
          have hnext := h.setSource (conn.setSocket socket)
          have hatEnd : httpScheme.fileAtEnd (conn.setSocket socket) = false := by
            have hsocket : (conn.setSocket socket).socket = socket := rfl
            simp [httpScheme, httpSiteSchemeFileAtEnd, hsocket, hlength]
          have hturn : copyTurn httpScheme source destination w = .ok (.leave
              (⟨w.disk, w.sites.set source (.http (conn.setSocket socket))⟩, false)) := by
            simp only [copyTurn, h.read hread', ok_bind, Site.siteFileAtEnd, hnext.source, hatEnd]
          rw [run_succ_leave fuel hturn] at hrun
          exact (Prod.mk.inj (Except.ok.inj hrun)).2.symm

end Waits

section Copies

variable {source destination : Option SitePointer} {uri : Bytes} {inode : Nat}
  {paths : Bytes → Nat}

theorem headD_whole {writes : List Write} (h : ∀ write ∈ writes, write = .whole) :
    writes.headD .whole = .whole := by
  cases writes with
  | nil => rfl
  | cons write writes => exact h write List.mem_cons_self

/-- The copy loop over a chunked body, of which `left` is still to come. -/
structure CopyingChunks (source destination : Option SitePointer) (uri : Bytes) (inode : Nat)
    (paths : Bytes → Nat) (stops : Prop) (content left : Bytes) (conn : HttpConnection)
    (w : World HttpConnection) : Prop where
  copying : Copying source destination uri inode paths conn content w
  standing : Standing stops left conn.socket
  empty : conn.socket.data = []
  stored : ∀ write ∈ w.disk.writes, write = .whole

variable {stops : Prop} {content left : Bytes} {conn : HttpConnection} {w : World HttpConnection}

theorem CopyingChunks.write
    (h : CopyingChunks source destination uri inode paths stops content left conn w)
    {site : HttpSite} {block : Bytes} (hblock : block ≠ [])
    (hread : SiteHttp.httpSiteSchemeFileRead conn.site sbDataSize = .ok (site, some block))
    (hhands : Hands stops left site block) :
    ∃ w' left', copyTurn httpScheme source destination w = .ok (.again w') ∧
      block ++ left' = left ∧ CopyingChunks source destination uri inode paths stops
        (content ++ block) left' (conn.setSocket site.socket) w' := by
  obtain ⟨left', hleft, -, hstanding, hempty⟩ := hhands
  have hread' : HttpOpen.httpSiteSchemeFileRead conn sbDataSize =
      .ok (conn.setSocket site.socket, some block) := by
    simp only [HttpOpen.httpSiteSchemeFileRead, hread, ok_bind]
  obtain ⟨w', hturn, hwrites, hcopying⟩ := copyTurn_write h.copying hblock hread'
  rw [headD_whole h.stored, keeps_whole] at hcopying
  refine ⟨w', left', hturn, hleft, hcopying, hstanding, hempty, fun write hwrite => ?_⟩
  rw [hwrites] at hwrite
  exact h.stored write (List.mem_of_mem_tail hwrite)

/-- A turn copies what it reads, and comes to a good end with nothing left. -/
theorem CopyingChunks.turn
    (h : CopyingChunks source destination uri inode paths False content left conn w)
    {turn : Turn (World HttpConnection) (World HttpConnection × Bool)}
    (hturn : copyTurn httpScheme source destination w = .ok turn) :
    (∃ w', turn = .leave (w', false)) ∨
      (∃ w' conn', turn = .leave (w', true) ∧
        Copying source destination uri inode paths conn' (content ++ left) w') ∨
      ∃ w' conn' content' left', turn = .again w' ∧ content' ++ left' = content ++ left ∧
        CopyingChunks source destination uri inode paths False content' left' conn' w' := by
  have hturn' := hturn
  rw [copyTurn] at hturn
  obtain ⟨⟨w₁, data⟩, hread, hturn⟩ := bind_eq_ok_iff.mp hturn
  obtain ⟨site, hsite, hcopying⟩ := h.copying.read_ok hread
  have hpositive : 0 < sbDataSize := by decide
  rcases @Standing.read False left conn.site site sbDataSize data h.standing h.empty hpositive
    hsite with ⟨rfl, next, total, hmode⟩ | ⟨block, rfl, hhands⟩
  · have hatEnd : siteFileAtEnd httpScheme w₁ source = .ok false := by
      have hsocket : (conn.setSocket site.socket).socket.length = .chunk next total := hmode
      have hfalse : httpScheme.fileAtEnd (conn.setSocket site.socket) = false := by
        simp [httpScheme, httpSiteSchemeFileAtEnd, hsocket]
      simp only [siteFileAtEnd, hcopying.source, ok_bind, hfalse]
    simp only [hatEnd, ok_bind] at hturn
    exact Or.inl ⟨w₁, (Except.ok.inj hturn).symm⟩
  · by_cases hblock : block = []
    · subst hblock
      obtain ⟨left', -, hnothing, -⟩ := hhands
      obtain rfl := (hnothing rfl).resolve_left id
      refine Or.inr (Or.inl ⟨w₁, conn.setSocket site.socket, (Except.ok.inj hturn).symm, ?_⟩)
      rw [List.append_nil]
      exact hcopying
    · obtain ⟨w', left', hagain, hleft, hnext⟩ := h.write hblock hsite hhands
      obtain rfl := Except.ok.inj (hturn'.symm.trans hagain)
      refine Or.inr (Or.inr ⟨w', _, content ++ block, left', rfl, ?_, hnext⟩)
      rw [List.append_assoc, hleft]

theorem copy_whole {fuel : Nat}
    (h : CopyingChunks source destination uri inode paths False content left conn w)
    {w' : World HttpConnection}
    (hrun : run (copyTurn httpScheme source destination) fuel w = .ok (w', true)) :
    ∃ conn', Copying source destination uri inode paths conn' (content ++ left) w' := by
  refine run_partial (fun w => ∃ conn content' left', content' ++ left' = content ++ left ∧
      CopyingChunks source destination uri inode paths False content' left' conn w)
    (fun r => r.2 = true → ∃ conn',
      Copying source destination uri inode paths conn' (content ++ left) r.1) ?_ ?_
    ⟨conn, content, left, rfl, h⟩ hrun rfl
  · rintro s s' ⟨conn, content', left', hbody, hcopying⟩ hturn
    rcases hcopying.turn hturn with ⟨w₁, hleave⟩ | ⟨w₁, conn₁, hleave, -⟩ |
      ⟨w₁, conn₁, content₁, left₁, hagain, hbody₁, hnext⟩
    · contradiction
    · contradiction
    · obtain rfl := Turn.again.inj hagain
      exact ⟨conn₁, content₁, left₁, hbody₁.trans hbody, hnext⟩
  · rintro s r ⟨conn, content', left', hbody, hcopying⟩ hturn hended
    rcases hcopying.turn hturn with ⟨w₁, hleave⟩ | ⟨w₁, conn₁, hleave, hcopied⟩ |
      ⟨w₁, conn₁, content₁, left₁, hagain, -⟩
    · rw [Turn.leave.inj hleave] at hended
      contradiction
    · rw [Turn.leave.inj hleave, ← hbody]
      exact ⟨conn₁, hcopied⟩
    · contradiction

/-- A stream that stops is copied as far as it comes, and the loop takes that for the end. -/
theorem copy_stops {fuel : Nat}
    (h : CopyingChunks source destination uri inode paths True content left conn w)
    (hfuel : left.length < fuel) :
    ∃ w' conn' short, run (copyTurn httpScheme source destination) fuel w = .ok (w', true) ∧
      Copying source destination uri inode paths conn' short w' ∧ short ≠ content ++ left := by
  induction fuel generalizing conn content left w with
  | zero => exact absurd hfuel (Nat.not_lt_zero _)
  | succ fuel ih =>
      obtain ⟨site, block, hread, hhands⟩ :=
        @Standing.read_stops True left conn.site sbDataSize trivial h.standing h.empty (by decide)
      by_cases hblock : block = []
      · subst hblock
        obtain ⟨left', rfl, -, hstanding, hempty⟩ := hhands
        have hread' : HttpOpen.httpSiteSchemeFileRead conn sbDataSize =
            .ok (conn.setSocket site.socket, some []) := by
          simp only [HttpOpen.httpSiteSchemeFileRead, hread, ok_bind]
        obtain ⟨w', hturn, hcopying⟩ := copyTurn_leave h.copying hread'
        refine ⟨w', _, content, run_succ_leave fuel hturn, hcopying, fun hall => ?_⟩
        have hnothing := List.append_right_eq_self.mp hall.symm
        exact hstanding.missing trivial (hempty.trans hnothing.symm)
      · obtain ⟨w₁, left₁, hturn, hleft, hnext⟩ := h.write hblock hread hhands
        have hlength := congrArg List.length hleft
        have hpos := List.length_pos_iff.mpr hblock
        rw [List.length_append] at hlength
        obtain ⟨w', conn', short, hrun, hcopying, hshort⟩ := ih hnext (by omega)
        refine ⟨w', conn', short, (run_succ_again fuel hturn).trans hrun, hcopying, ?_⟩
        rwa [List.append_assoc, hleft] at hshort

end Copies

end Newth.Client.ChunkCopy
