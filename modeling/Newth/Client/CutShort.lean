import Newth.Client.SiteHttp

namespace Newth.Client.CutShort

open Newth.Library.ByteString
open Newth.Library.Call
open Newth.Client.Recvbufr
open Newth.Client.SiteHttp

section Append

theorem recv_of_end {self : Socket} (n : Nat) (peek : Bool) (hrest : self.rest = []) :
    ∃ socket : Socket, socket.rest = [] ∧ socket.ending = self.ending ∧ recv self n peek =
      match self.ending with
      | .idle => .error .endless
      | .closed => .ok (socket, some [])
      | .failed => .ok (socket, none) := by
  obtain ⟨hflat, -⟩ := awaitByte_spec self.ready self.arrivals
  rw [← Socket.rest, hrest] at hflat
  obtain ⟨hready, hlater⟩ := List.append_eq_nil_iff.mp hflat
  cases hawait : awaitByte self.ready self.arrivals with
  | mk ready later =>
      rw [hawait] at hready hlater
      obtain rfl : ready = [] := hready
      refine ⟨⟨[], later, self.ending⟩, by simpa [Socket.rest] using hlater, rfl, ?_⟩
      cases hending : self.ending with
      | idle => simp only [recv, hawait, hending]
      | closed => simp only [recv, hawait, hending]
      | failed => simp only [recv, hawait, hending]

/-- More of a body of known length is counted on than will come; `left` is what is buffered or
will come of it. -/
structure Cut (left : Bytes) (buffer : RecvBuffer) : Prop where
  mode : ∃ escape total, buffer.length = .known escape total ∧
    escape + buffer.serverSocket.rest.length < total
  whole : buffer.data ++ buffer.serverSocket.rest = left

theorem Cut.data_eq {left : Bytes} {self : RecvBuffer} (h : Cut left self) :
    self.data = left.take self.len := by
  rw [← h.whole, RecvBuffer.len, List.take_left]

theorem Cut.len_le {left : Bytes} {self : RecvBuffer} (h : Cut left self) :
    self.len ≤ left.length := by
  rw [RecvBuffer.len, ← h.whole, List.length_append]
  exact Nat.le_add_right _ _

theorem Cut.ditch {left : Bytes} {self : RecvBuffer} (h : Cut left self) {n : Nat}
    (hn : n ≤ self.len) : Cut (left.drop n) (recvBufferDitch self n) := by
  refine ⟨?_, ?_⟩
  · rw [recvBufferDitch_length, recvBufferDitch_serverSocket]
    exact h.mode
  · rw [recvBufferDitch_data, recvBufferDitch_serverSocket, ← h.whole,
      List.drop_append_of_le_length hn]

variable {left : Bytes} {self : RecvBuffer} {len : Nat}

/-- The state of the loop of `recvBufferAppend` over a body that is cut short. -/
structure Appending (left : Bytes) (start : RecvBuffer) (len : Nat) (s : RecvBuffer × Nat) :
    Prop where
  cut : Cut left s.1
  count : s.1.len = start.len + s.2
  within : s.2 ≤ len
  ending : s.1.serverSocket.ending = start.serverSocket.ending

theorem Cut.appending (h : Cut left self) :
    Appending left self len ({ self with buffer := some self.data }, 0) :=
  ⟨⟨h.mode, h.whole⟩, rfl, Nat.zero_le _, rfl⟩

theorem Cut.append_eq (h : Cut left self) :
    recvBufferAppend self len =
      run (appendTurn len) (len + 1) ({ self with buffer := some self.data }, 0) := by
  obtain ⟨escape, total, hmode, -⟩ := h.mode
  rw [recvBufferAppend, hmode]

theorem Appending.again {s : RecvBuffer × Nat} (h : Appending left self len s) (hi : s.2 < len)
    (hrest : s.1.serverSocket.rest ≠ []) :
    ∃ s', appendTurn len s = .ok (.again s') ∧ Appending left self len s' ∧ s.2 < s'.2 := by
  obtain ⟨⟨⟨escape, total, hmode, hless⟩, hwhole⟩, hcount, -, hending⟩ := h
  obtain ⟨now, i⟩ := s
  simp only at hi hrest hmode hless hwhole hcount hending
  have hpos : 0 < min (len - i) sbDataSize := by
    rw [sbDataSize]
    omega
  obtain ⟨data, socket, hdata, hlength, hflat, hsame, hrecv⟩ := recv_takes hpos hrest
  have hsplit : data.length + socket.rest.length = now.serverSocket.rest.length := by
    rw [← List.length_append, hflat]
  cases data with
  | nil => exact absurd rfl hdata
  | cons c data =>
      have hmore : ¬ total ≤ escape + (c :: data).length := by omega
      refine ⟨(⟨some (now.data ++ c :: data), .known (escape + (c :: data).length) total, socket⟩,
        i + (c :: data).length), ?_, ⟨⟨⟨_, _, rfl, ?_⟩, ?_⟩, ?_, ?_, ?_⟩, ?_⟩
      · simp only [appendTurn, hi, if_true, hrecv, ok_bind, dataIncrement, bufferAppend, hmode,
          hmore, if_false]
        rfl
      · show escape + (c :: data).length + socket.rest.length < total
        omega
      · show now.data ++ c :: data ++ socket.rest = left
        rw [List.append_assoc, hflat, hwhole]
      · show (now.data ++ c :: data).length = self.len + (i + (c :: data).length)
        rw [List.length_append, ← RecvBuffer.len, hcount, Nat.add_assoc]
      · show i + (c :: data).length ≤ len
        have hbound := hlength.trans (Nat.min_le_left _ _)
        omega
      · show socket.ending = self.serverSocket.ending
        rw [hsame, hending]
      · show i < i + (c :: data).length
        simp

/-- With nothing more to come the turn depends on how the connection ends. -/
theorem Appending.last {s : RecvBuffer × Nat} (h : Appending left self len s) (hi : s.2 < len)
    (hrest : s.1.serverSocket.rest = []) :
    ∃ now, Appending left self len (now, s.2) ∧ now.len = left.length ∧ appendTurn len s =
      match self.serverSocket.ending with
      | .idle => .error .endless
      | .closed => .ok (.leave (now, if s.2 = 0 then some .noDataToBeRetrieved else none))
      | .failed => .ok (.leave (now, some .socketError)) := by
  obtain ⟨⟨⟨escape, total, hmode, hless⟩, hwhole⟩, hcount, hwithin, hending⟩ := h
  obtain ⟨before, i⟩ := s
  simp only at hi hrest hmode hless hwhole hcount hwithin hending
  obtain ⟨socket, hnothing, hsame, hrecv⟩ :=
    recv_of_end (min (len - i) sbDataSize) false hrest
  rw [hrest] at hwhole hless
  refine ⟨{ before with serverSocket := socket }, ⟨⟨⟨escape, total, hmode, ?_⟩, ?_⟩, hcount,
    hwithin, ?_⟩, ?_, ?_⟩
  · show escape + socket.rest.length < total
    rw [hnothing]
    exact hless
  · show before.data ++ socket.rest = left
    rw [hnothing, hwhole]
  · show socket.ending = self.serverSocket.ending
    rw [hsame, hending]
  · show before.data.length = left.length
    rw [← hwhole, List.append_nil]
  · simp only [appendTurn, hi, if_true, hrecv, hending]
    cases self.serverSocket.ending with
    | idle => rfl
    | closed => rfl
    | failed => rfl

theorem Appending.full {s : RecvBuffer × Nat} (hi : ¬ s.2 < len) :
    appendTurn len s = .ok (.leave (s.1, none)) := by
  obtain ⟨now, i⟩ := s
  simp only at hi
  rw [appendTurn, if_neg hi]

theorem Cut.append_closed (h : Cut left self) (hclosed : self.serverSocket.ending = .closed)
    (len : Nat) :
    ∃ self' e, recvBufferAppend self len = .ok (self', e) ∧
      (e = none ∨ e = some .noDataToBeRetrieved) ∧ Cut left self' ∧
      self'.serverSocket.ending = .closed ∧ self'.len = min (self.len + len) left.length := by
  let post : RecvBuffer × Option ErrorMessage → Prop := fun r =>
    (r.2 = none ∨ r.2 = some .noDataToBeRetrieved) ∧ Cut left r.1 ∧
      r.1.serverSocket.ending = .closed ∧ r.1.len = min (self.len + len) left.length
  obtain ⟨⟨self', e⟩, hrun, he, hcut, hending, hlen⟩ : ∃ r, run (appendTurn len) (len + 1)
      ({ self with buffer := some self.data }, 0) = .ok r ∧ post r := by
    apply run_total (Appending left self len) (fun s => len - s.2)
    · intro s hs
      by_cases hi : s.2 < len
      · by_cases hrest : s.1.serverSocket.rest = []
        · obtain ⟨now, hnow, hlen, hturn⟩ := hs.last hi hrest
          rw [hclosed] at hturn
          refine ⟨_, hturn, ?_, hnow.cut, hnow.ending.trans hclosed, ?_⟩
          · show (if s.2 = 0 then some ErrorMessage.noDataToBeRetrieved else none) = none ∨ _
            split
            · exact Or.inr rfl
            · exact Or.inl rfl
          · show now.len = _
            have hcount : now.len = self.len + s.2 := hnow.count
            omega
        · obtain ⟨s', hturn, hs', hmore⟩ := hs.again hi hrest
          have hwithin := hs'.within
          refine ⟨_, hturn, hs', ?_⟩
          show len - s'.2 < len - s.2
          omega
      · refine ⟨_, Appending.full hi, Or.inl rfl, hs.cut, hs.ending.trans hclosed, ?_⟩
        show s.1.len = _
        have hcount := hs.count
        have hwithin := hs.within
        have hbound := hs.cut.len_le
        omega
    · exact h.appending
    · show len - 0 < len + 1
      omega
  exact ⟨self', e, h.append_eq.trans hrun, he, hcut, hending, hlen⟩

theorem Cut.append_open (h : Cut left self) (hopen : self.serverSocket.ending ≠ .closed)
    {self' : RecvBuffer} {e : Option ErrorMessage}
    (happend : recvBufferAppend self len = .ok (self', e)) :
    Cut left self' ∧ (e = some .socketError ∨
      e = none ∧ self'.serverSocket.ending ≠ .closed ∧ self'.len = self.len + len) := by
  rw [h.append_eq] at happend
  apply run_partial (Appending left self len)
    (fun r => Cut left r.1 ∧ (r.2 = some .socketError ∨
      r.2 = none ∧ r.1.serverSocket.ending ≠ .closed ∧ r.1.len = self.len + len))
    _ _ h.appending happend
  · intro s s' hs hturn
    by_cases hi : s.2 < len
    · by_cases hrest : s.1.serverSocket.rest = []
      · obtain ⟨now, -, -, hlast⟩ := hs.last hi hrest
        rw [hturn] at hlast
        split at hlast <;> simp at hlast
      · obtain ⟨s'', hagain, hs'', -⟩ := hs.again hi hrest
        obtain rfl : s' = s'' := Turn.again.inj (Except.ok.inj (hturn.symm.trans hagain))
        exact hs''
    · rw [Appending.full hi] at hturn
      simp at hturn
  · intro s r hs hturn
    by_cases hi : s.2 < len
    · by_cases hrest : s.1.serverSocket.rest = []
      · obtain ⟨now, hnow, -, hlast⟩ := hs.last hi hrest
        rw [hturn] at hlast
        split at hlast
        · simp at hlast
        · rename_i hclosed
          exact absurd hclosed hopen
        · obtain rfl := Turn.leave.inj (Except.ok.inj hlast)
          exact ⟨hnow.cut, Or.inl rfl⟩
      · obtain ⟨s', hagain, -, -⟩ := hs.again hi hrest
        rw [hturn] at hagain
        simp at hagain
    · rw [Appending.full hi] at hturn
      obtain rfl := Turn.leave.inj (Except.ok.inj hturn)
      have hfull : s.2 = len := le_antisymm hs.within (Nat.not_lt.mp hi)
      refine ⟨hs.cut, Or.inr ⟨rfl, ?_, ?_⟩⟩
      · show s.1.serverSocket.ending ≠ .closed
        rw [hs.ending]
        exact hopen
      · show s.1.len = _
        rw [hs.count, hfull]

end Append

section Read

variable {left : Bytes} {self : HttpSite}

/-- What the reads of a body of known length will hand out: all of the body, or what comes of it
before the connection is closed. -/
def Delivers (left : Bytes) (buffer : RecvBuffer) : Prop :=
  Reading left buffer ∨ (Cut left buffer ∧ buffer.serverSocket.ending = .closed)

theorem Cut.read_closed (h : Cut left self.socket)
    (hclosed : self.socket.serverSocket.ending = .closed) (size : Nat) :
    ∃ self', httpSiteSchemeFileRead self size = .ok (self', some (left.take size)) ∧
      Cut (left.drop size) self'.socket ∧ self'.socket.serverSocket.ending = .closed := by
  rw [httpSiteSchemeFileRead]
  split
  · rename_i hshort
    obtain ⟨socket, e, hrun, he, hcut, hending, hlen⟩ :=
      h.append_closed hclosed (size - self.socket.len)
    have hall : min socket.len size = socket.len := by
      omega
    have htake : socket.data = left.take size := by
      rw [hcut.data_eq, hlen]
      rcases Nat.le_total size left.length with hlong | hfew
      · rw [show min (self.socket.len + (size - self.socket.len)) left.length = size by omega]
      · rw [List.take_of_length_le hfew, List.take_of_length_le (by omega)]
    have hdrop : left.drop socket.len = left.drop size := by
      rw [hlen]
      rcases Nat.le_total size left.length with hlong | hfew
      · rw [show min (self.socket.len + (size - self.socket.len)) left.length = size by omega]
      · rw [List.drop_eq_nil_of_le hfew, List.drop_eq_nil_of_le (by omega)]
    have hcopy : copyAndDitch { self with socket } (min socket.len size) =
        ({ self with socket := recvBufferDitch socket socket.len }, some (left.take size)) := by
      rw [copyAndDitch, hall]
      show (_, some (socket.data.take socket.data.length)) = _
      rw [List.take_length, htake]
    refine ⟨{ self with socket := recvBufferDitch socket socket.len }, ?_,
      hdrop ▸ hcut.ditch le_rfl, ?_⟩
    · rcases he with rfl | rfl
      · simp only [hrun, ok_bind, hcopy]
      · simp only [hrun, ok_bind, hcopy]
    · rw [recvBufferDitch_serverSocket, hending]
  · rename_i hlong
    have hle := Nat.not_lt.mp hlong
    refine ⟨{ self with socket := recvBufferDitch self.socket size }, ?_, h.ditch hle, ?_⟩
    · rw [copyAndDitch, h.data_eq, List.take_take, Nat.min_eq_left hle]
    · rw [recvBufferDitch_serverSocket, hclosed]

theorem Delivers.read (h : Delivers left self.socket) (size : Nat) :
    ∃ self', httpSiteSchemeFileRead self size = .ok (self', some (left.take size)) ∧
      Delivers (left.drop size) self'.socket := by
  rcases h with hreading | ⟨hcut, hclosed⟩
  · obtain ⟨self', hread, hreading'⟩ := httpSiteSchemeFileRead_reading hreading size
    exact ⟨self', hread, Or.inl hreading'⟩
  · obtain ⟨self', hread, hcut', hclosed'⟩ := hcut.read_closed hclosed size
    exact ⟨self', hread, Or.inr ⟨hcut', hclosed'⟩⟩

theorem Cut.read_open (h : Cut left self.socket)
    (hopen : self.socket.serverSocket.ending ≠ .closed) {size : Nat} {self' : HttpSite}
    {data : Option Bytes} (hread : httpSiteSchemeFileRead self size = .ok (self', data)) :
    ∃ left', Cut left' self'.socket ∧ (data = none ∨ self'.socket.serverSocket.ending ≠ .closed ∧
      ∃ bytes, data = some bytes ∧ bytes.length = size) := by
  rw [httpSiteSchemeFileRead] at hread
  split at hread
  · rename_i hshort
    obtain ⟨⟨socket, e⟩, happend, hread⟩ := bind_eq_ok_iff.mp hread
    obtain ⟨hcut, he⟩ := h.append_open hopen happend
    rcases he with rfl | ⟨rfl, hopen', hlen⟩
    · obtain ⟨rfl, rfl⟩ := Prod.mk.inj (Except.ok.inj hread)
      exact ⟨left, hcut, Or.inl rfl⟩
    · obtain ⟨rfl, rfl⟩ := Prod.mk.inj (Except.ok.inj hread)
      refine ⟨_, hcut.ditch (Nat.min_le_left _ _), Or.inr ⟨?_, _, rfl, ?_⟩⟩
      · rw [recvBufferDitch_serverSocket]
        exact hopen'
      · rw [List.length_take]
        show min (min socket.len size) socket.len = size
        omega
  · rename_i hlong
    have hle := Nat.not_lt.mp hlong
    obtain ⟨rfl, rfl⟩ := Prod.mk.inj (Except.ok.inj hread)
    refine ⟨_, h.ditch hle, Or.inr ⟨?_, _, rfl, ?_⟩⟩
    · rw [recvBufferDitch_serverSocket]
      exact hopen
    · rw [List.length_take]
      exact Nat.min_eq_left hle

theorem headersCompute_sent {header : HttpResponseHeader} {body : Bytes} {arrived : Nat}
    (hsent : self.socket.data ++ self.socket.serverSocket.rest = body.take arrived)
    (hchunked : header.chunked = false) (hlength : header.length = body.length) :
    ∃ computed, headersCompute self header (text "GET") = .ok computed ∧
      computed.socket.serverSocket = self.socket.serverSocket ∧
      (if body.length ≤ arrived then Reading body computed.socket
        else Cut (body.take arrived) computed.socket) := by
  have hget : isGet (text "GET") = true := by decide
  by_cases hwhole : body.length ≤ arrived
  · rw [List.take_of_length_le hwhole] at hsent
    obtain ⟨computed, hcompute, hreading⟩ := headersCompute_reading hsent hchunked hlength
    refine ⟨computed, hcompute, ?_, ?_⟩
    · simp only [headersCompute, hget, if_true, hchunked, Bool.false_eq_true, if_false] at hcompute
      split at hcompute
      · rw [← Except.ok.inj hcompute]
        rfl
      · rw [← Except.ok.inj hcompute]
    · rw [if_pos hwhole]
      exact hreading
  · have hfew := congrArg List.length hsent
    rw [List.length_append, List.length_take, ← RecvBuffer.len] at hfew
    have hpart : ¬ header.length = self.socket.len := by omega
    refine ⟨{ self with socket :=
        { self.socket with length := .known self.socket.len header.length } }, ?_, rfl, ?_⟩
    · simp only [headersCompute, hget, if_true, hchunked, Bool.false_eq_true, if_false, hpart]
    · rw [if_neg hwhole]
      refine ⟨⟨_, _, rfl, ?_⟩, hsent⟩
      show self.socket.len + self.socket.serverSocket.rest.length < header.length
      omega

end Read

end Newth.Client.CutShort
