import Newth.Client.ChunkedBody
import Newth.Client.CutShort

namespace Newth.Client.TimelyChunks

open Newth.Library.ByteString
open Newth.Library.Call
open Newth.Library.Chunked
open Newth.Client.ChunkTurns
open Newth.Client.ChunkedBody
open Newth.Client.CutShort
open Newth.Client.Recvbufr
open Newth.Client.SiteHttp

section Positions

/-- The first bytes of a stream up to `p` end in front of a chunk with too little of its size line
to be looked at; or, when no more follows them, with none of the line, or within the data. -/
def Stops (closed : Prop) : Nat → List Bytes → Nat → Prop
  | _, [], _ => False
  | next, d :: ds, p =>
      p < shortest next ∧ (0 < p ∨ closed) ∨
        ∃ q, p = lineLength next d + q ∧
          (q < d.length ∧ closed ∨ ∃ r, q = d.length + r ∧ Stops closed 0 ds r)

/-- The same from the last `n` bytes of a chunk on. -/
def StopsWithin (closed : Prop) (n : Nat) (ds : List Bytes) (q : Nat) : Prop :=
  q < n ∧ closed ∨ ∃ r, q = n + r ∧ Stops closed 0 ds r

theorem stops_behind_line_iff {closed : Prop} {next q : Nat} {d : Bytes} {ds : List Bytes} :
    Stops closed next (d :: ds) (lineLength next d + q) ↔ StopsWithin closed d.length ds q := by
  have hline := shortest_le_lineLength next d
  constructor
  · rintro (⟨hshort, -⟩ | ⟨r, hr, hwithin⟩)
    · omega
    · obtain rfl := Nat.add_left_cancel hr
      exact hwithin
  · intro hwithin
    exact Or.inr ⟨q, rfl, hwithin⟩

theorem stopsWithin_zero_iff {closed : Prop} {ds : List Bytes} {p : Nat} :
    StopsWithin closed 0 ds p ↔ Stops closed 0 ds p := by
  simp [StopsWithin]

theorem stopsWithin_add_iff {closed : Prop} {n k : Nat} (hk : k ≤ n) {ds : List Bytes} {p : Nat} :
    StopsWithin closed n ds (k + p) ↔ StopsWithin closed (n - k) ds p := by
  have hcut : k + p < n ↔ p < n - k := by omega
  have hpast : ∀ r, k + p = n + r ↔ p = n - k + r := by
    intro r
    omega
  simp only [StopsWithin, hcut, hpast]

theorem Stops.mono {closed closed' : Prop} (hclosed : closed → closed') {next : Nat}
    {ds : List Bytes} {p : Nat} (h : Stops closed next ds p) : Stops closed' next ds p := by
  induction ds generalizing next p with
  | nil => exact h
  | cons d ds ih =>
      rcases h with ⟨hshort, hmore⟩ | ⟨q, hq, ⟨hcut, hc⟩ | ⟨r, hr, h⟩⟩
      · exact Or.inl ⟨hshort, hmore.imp_right hclosed⟩
      · exact Or.inr ⟨q, hq, Or.inl ⟨hcut, hclosed hc⟩⟩
      · exact Or.inr ⟨q, hq, Or.inr ⟨r, hr, ih h⟩⟩

theorem Stops.pos {closed : Prop} {next : Nat} {ds : List Bytes} {p : Nat}
    (h : Stops closed next ds p) : closed ∨ 0 < p := by
  cases ds with
  | nil => exact h.elim
  | cons d ds =>
      rcases h with ⟨-, hmore⟩ | ⟨q, rfl, -⟩
      · exact hmore.symm
      · have hline := shortest_le_lineLength next d
        have hpos : 0 < shortest next := by
          rw [shortest]
          split
          · decide
          · decide
        exact Or.inr (by omega)

theorem length_wire_cons (next : Nat) (d : Bytes) (ds : List Bytes) :
    (lead next ++ wire (d :: ds)).length =
      lineLength next d + (d.length + (lead 0 ++ wire ds).length) := by
  rw [wire_front, ← List.append_assoc, List.length_append, List.length_append, lineLength,
    behindLine, List.length_append]
  rfl

theorem Stops.lt {closed : Prop} {next : Nat} {ds : List Bytes} {p : Nat}
    (h : Stops closed next ds p) : p < (lead next ++ wire ds).length := by
  induction ds generalizing next p with
  | nil => exact h.elim
  | cons d ds ih =>
      rw [length_wire_cons]
      rcases h with ⟨hshort, -⟩ | ⟨q, rfl, ⟨hcut, -⟩ | ⟨r, rfl, h⟩⟩
      · have hline := shortest_le_lineLength next d
        omega
      · omega
      · have hless := ih h
        omega

/-- After the first `p` bytes a connection is closed. -/
def Shut (socket : Socket) (p : Nat) : Prop := socket.ending = .closed ∧ p = socket.rest.length

theorem shut_readOff {before after : Socket} {n : Nat} (h : ReadOff before after n)
    (hn : n ≤ before.rest.length) (p : Nat) : Shut after p ↔ Shut before (n + p) := by
  have hlength : p = before.rest.length - n ↔ n + p = before.rest.length := by omega
  rw [Shut, Shut, h.ending, h.rest, List.length_drop, hlength]

theorem mark_rest (socket : Socket) : Mark socket socket.rest.length := by
  refine ⟨socket.arrivals.length + 1, Or.inl (Nat.succ_pos _), ?_⟩
  rw [List.take_of_length_le (Nat.le_succ _), Socket.rest, List.length_append]

theorem mark_le {socket : Socket} {p : Nat} (h : Mark socket p) : p ≤ socket.rest.length := by
  obtain ⟨m, -, rfl⟩ := h
  have hsplit := congrArg (fun s => s.flatten.length) (List.take_append_drop m socket.arrivals)
  simp only [List.flatten_append, List.length_append] at hsplit
  rw [Socket.rest, List.length_append]
  omega

end Positions

section States

/-- The buffer holds the front of what is left of the body, and the connection goes on with what
comes behind: the decoder stands at a size line, or at the last `next` bytes of a chunk. Wherever a
poll finds the stream it stops there, or does not. -/
inductive Coming (stops : Prop) (left : Bytes) (now : RecvBuffer) : ChunkLabel → Nat → Prop where
  | line {next : Nat} {ds : List Bytes} (hds : Fits ds) (hnext : next = 0 ∨ next = noChunk)
      (hrest : now.serverSocket.rest <+: lead next ++ wire ds)
      (hleft : now.data ++ ds.flatten = left)
      (hstops : ∀ p, Mark now.serverSocket p →
        (Stops (Shut now.serverSocket p) next ds p ↔ stops)) :
      Coming stops left now .parse next
  | data {next : Nat} {x : Bytes} {ds : List Bytes} (hds : Fits ds) (hlen : x.length = next)
      (hnext : next < 2 ^ 60) (hrest : now.serverSocket.rest <+: x ++ (lead 0 ++ wire ds))
      (hleft : now.data ++ (x ++ ds.flatten) = left)
      (hstops : ∀ p, Mark now.serverSocket p →
        (StopsWithin (Shut now.serverSocket p) next ds p ↔ stops)) :
      Coming stops left now .iterate next

/-- Between two appends the body is complete, or the rest of it is still to come. -/
def Standing (stops : Prop) (left : Bytes) (now : RecvBuffer) : Prop :=
  now.length = .complete ∧ now.data = left ∧ ¬ stops ∨
    ∃ next total, now.length = .chunk next total ∧ Coming stops left now (labelOf next) next

variable {stops : Prop} {left : Bytes} {start now now' : RecvBuffer} {next total len asked : Nat}
  {label : ChunkLabel}

theorem coming_zero_iff : Coming stops left now .iterate 0 ↔ Coming stops left now .parse 0 := by
  constructor
  · intro h
    cases h with
    | data hds hlen hnext hrest hleft hstops =>
        obtain rfl := List.eq_nil_of_length_eq_zero hlen
        refine .line hds (Or.inl rfl) hrest hleft fun p hp => ?_
        rw [← stopsWithin_zero_iff]
        exact hstops p hp
  · intro h
    cases h with
    | line hds hnext hrest hleft hstops =>
        refine .data (x := []) hds rfl (by decide) hrest hleft fun p hp => ?_
        rw [stopsWithin_zero_iff]
        exact hstops p hp

theorem Coming.behind {t : Bytes} (h : Coming stops left now label next)
    (hsocket : now'.serverSocket = now.serverSocket) (hdata : now.data = t ++ now'.data) :
    Coming stops (left.drop t.length) now' label next := by
  cases h with
  | line hds hnext hrest hleft hstops =>
      rw [← hsocket] at hrest hstops
      refine .line hds hnext hrest ?_ hstops
      rw [← hleft, hdata, List.append_assoc, List.drop_left]
  | data hds hlen hnext hrest hleft hstops =>
      rw [← hsocket] at hrest hstops
      refine .data hds hlen hnext hrest ?_ hstops
      rw [← hleft, hdata, List.append_assoc, List.drop_left]

theorem Coming.isPrefix (h : Coming stops left now label next) : now.data <+: left := by
  cases h with
  | line _ _ _ hleft => exact ⟨_, hleft⟩
  | data _ _ _ _ hleft => exact ⟨_, hleft⟩

theorem Coming.comes (h : Coming stops left now label next) (hstop : stops) :
    Comes now.serverSocket := by
  have hshut : ∀ {p : Nat}, Shut now.serverSocket p → now.serverSocket.ending = .closed :=
    fun h => h.1
  have hcomes : ∀ {closed : Prop}, (closed → now.serverSocket.ending = .closed) →
      closed ∨ 0 < now.serverSocket.rest.length → Comes now.serverSocket := by
    intro closed hclosed h
    exact h.imp hclosed List.length_pos_iff.mp
  cases h with
  | line _ _ _ _ hstops =>
      exact hcomes hshut ((hstops _ (mark_rest _)).mpr hstop).pos
  | data _ _ _ _ _ hstops =>
      rcases (hstops _ (mark_rest _)).mpr hstop with ⟨-, hclosed⟩ | ⟨r, hr, hbehind⟩
      · exact Or.inl (hshut hclosed)
      · exact hcomes hshut (hbehind.pos.imp_right fun hpos => by omega)

theorem Coming.missing (h : Coming stops left now label next) (hstop : stops) :
    now.data ≠ left := by
  intro hall
  have hds : ∀ {closed : Prop} {k p : Nat} {ds : List Bytes}, Fits ds → Stops closed k ds p →
      ds.flatten ≠ [] := by
    intro closed k p ds hds hstops
    cases ds with
    | nil => exact hstops.elim
    | cons d ds =>
        rw [List.flatten_cons]
        exact List.append_ne_nil_of_left_ne_nil (hds d List.mem_cons_self).1 _
  cases h with
  | line hfits _ _ hleft hstops =>
      rw [← hall] at hleft
      exact hds hfits ((hstops _ (mark_rest _)).mpr hstop) (List.append_right_eq_self.mp hleft)
  | @data _ x _ hfits hlen _ _ hleft hstops =>
      rw [← hall] at hleft
      obtain ⟨rfl, hnone⟩ := List.append_eq_nil_iff.mp (List.append_right_eq_self.mp hleft)
      rcases (hstops _ (mark_rest _)).mpr hstop with ⟨hcut, -⟩ | ⟨r, -, hbehind⟩
      · rw [← hlen] at hcut
        exact absurd hcut (Nat.not_lt_zero _)
      · exact hds hfits hbehind hnone

theorem Coming.standing (h : Coming stops left now label next)
    (hmode : now.length = .chunk next total) : Standing stops left now := by
  refine Or.inr ⟨next, total, hmode, ?_⟩
  cases label with
  | parse =>
      cases id h with
      | line hds hnext =>
          rcases hnext with rfl | rfl
          · exact coming_zero_iff.mpr h
          · exact h
  | iterate =>
      have hother : next ≠ noChunk := by
        cases h with
        | data hds hlen hnext =>
            rw [noChunk]
            omega
      rw [labelOf, if_neg hother]
      exact h

theorem Standing.same (h : Standing stops left now) (hmode : now'.length = now.length)
    (hsocket : now'.serverSocket = now.serverSocket) (hdata : now.data = now'.data) :
    Standing stops left now' := by
  rcases h with ⟨hcomplete, hleft, hgoes⟩ | ⟨next, total, hchunk, hcoming⟩
  · exact Or.inl ⟨hmode.trans hcomplete, hdata.symm.trans hleft, hgoes⟩
  · exact Or.inr ⟨next, total, hmode.trans hchunk, hcoming.behind (t := []) hsocket hdata⟩

theorem Standing.isPrefix (h : Standing stops left now) : now.data <+: left := by
  rcases h with ⟨-, rfl, -⟩ | ⟨next, total, -, hcoming⟩
  · exact List.prefix_rfl
  · exact hcoming.isPrefix

theorem Standing.missing (h : Standing stops left now) (hstop : stops) : now.data ≠ left := by
  rcases h with ⟨-, -, hgoes⟩ | ⟨next, total, -, hcoming⟩
  · exact absurd hstop hgoes
  · exact hcoming.missing hstop

theorem Standing.ditch (h : Standing stops left now) :
    Standing stops (left.drop now.len) (recvBufferDitch now now.len) := by
  have hdata : (recvBufferDitch now now.len).data = [] := by
    rw [recvBufferDitch_data]
    exact List.drop_length
  rcases h with ⟨hcomplete, rfl, hgoes⟩ | ⟨next, total, hmode, hcoming⟩
  · exact Or.inl ⟨by rw [recvBufferDitch_length, hcomplete], by rw [recvBufferDitch_data], hgoes⟩
  · refine Or.inr ⟨next, total, by rw [recvBufferDitch_length, hmode], ?_⟩
    exact hcoming.behind (recvBufferDitch_serverSocket now now.len) (by rw [hdata, List.append_nil])

end States

section Turns

variable {stops : Prop} {left : Bytes} {start now now' : RecvBuffer} {next total len asked : Nat}
  {label : ChunkLabel}
  {turn : Turn (RecvBuffer × Nat × Nat × Nat × ChunkLabel) (RecvBuffer × Option ErrorMessage)}

/-- Where `recvBufferAppendChunk` stands between two turns. -/
def Taking (stops : Prop) (left : Bytes) (start : RecvBuffer) (asked : Nat) :
    RecvBuffer × Nat × Nat × Nat × ChunkLabel → Prop
  | (now, next, total, len, label) => now.length = .chunk next total ∧
      Coming stops left now label next ∧ start.len ≤ now.len ∧ now.len + len = start.len + asked

/-- An append comes back with an error, or has brought something unless the stream stops or there
was nothing left to bring. -/
def Gains (stops : Prop) (left : Bytes) (start : RecvBuffer) (asked : Nat) :
    RecvBuffer × Option ErrorMessage → Prop
  | (now, none) => Standing stops left now ∧ now.len ≤ start.len + asked ∧
      (stops ∨ now.data = left ∨ start.len < now.len)
  | (now, some e) => ¬ stops ∧ e ≠ .noDataToBeRetrieved ∧ e ≠ .requestCompleted ∧
      ∃ next total, now.length = .chunk next total

/-- What a turn comes to, if it comes back. -/
def Leads (stops : Prop) (left : Bytes) (start : RecvBuffer) (asked : Nat) :
    Turn (RecvBuffer × Nat × Nat × Nat × ChunkLabel) (RecvBuffer × Option ErrorMessage) → Prop
  | .again s => Taking stops left start asked s
  | .leave r => Gains stops left start asked r

theorem recv_nothing {socket : Socket} (h : ¬ Comes socket) (n : Nat) (peek : Bool) :
    recv socket n peek = .error .endless ∨ ∃ socket', recv socket n peek = .ok (socket', none) := by
  obtain ⟨hopen, hrest⟩ := not_or.mp h
  obtain ⟨socket', -, -, hrecv⟩ := recv_of_end n peek (not_not.mp hrest)
  cases hending : socket.ending with
  | closed => exact absurd hending hopen
  | idle =>
      rw [hending] at hrecv
      exact Or.inl hrecv
  | failed =>
      rw [hending] at hrecv
      exact Or.inr ⟨socket', hrecv⟩

theorem leads_error {e : ErrorMessage} (hmode : now.length = .chunk next total) (hgoes : ¬ stops)
    (he : e ≠ .noDataToBeRetrieved ∧ e ≠ .requestCompleted) :
    Leads stops left start asked (.leave (now, some e)) :=
  ⟨hgoes, he.1, he.2, next, total, hmode⟩

theorem Coming.copied {n : Nat} (h : Coming stops left now .iterate next) (hn : n ≤ next)
    (hnrest : n ≤ now.serverSocket.rest.length)
    (hread : ReadOff now.serverSocket now'.serverSocket n)
    (hdata : now'.data = now.data ++ now.serverSocket.rest.take n) :
    Coming stops left now' .iterate (next - n) := by
  cases h with
  | @data _ x ds hds hx hless hrest hleft hstops =>
      have hnx : n ≤ x.length := hn.trans_eq hx.symm
      have htake : now.serverSocket.rest.take n = x.take n := by
        obtain ⟨later, hlater⟩ := hrest
        rw [← List.take_append_of_le_length hnrest, hlater, List.take_append_of_le_length hnx]
      refine .data (x := x.drop n) hds (by rw [List.length_drop, hx]) (by omega) ?_ ?_ ?_
      · rw [hread.rest, ← List.drop_append_of_le_length hnx]
        exact hrest.drop n
      · rw [hdata, htake, List.append_assoc, ← List.append_assoc (x.take n), List.take_append_drop,
          hleft]
      · intro p hp
        rw [shut_readOff hread hnrest, ← stopsWithin_add_iff hn]
        exact hstops _ (hread.marks p hp)

theorem Coming.copies {n : Nat} (h : Coming stops left now .iterate next)
    (hcomes : Comes now.serverSocket) (hnext : 0 < next)
    (hnone : n = 0 → now.serverSocket.rest = []) : stops ∨ 0 < n := by
  rcases Nat.eq_zero_or_pos n with hzero | hpos
  · have hnil := hnone hzero
    have hclosed := hcomes.resolve_right (not_not.mpr hnil)
    cases h with
    | data _ _ _ _ _ hstops =>
        apply Or.inl
        apply (hstops _ (mark_rest _)).mp
        rw [hnil]
        exact Or.inl ⟨hnext, hclosed, by rw [hnil]⟩
  · exact Or.inr hpos

theorem Coming.copy (h : Coming stops left now .iterate next) (hlen : 0 < len) (hnext : 0 < next)
    (hmode : now.length = .chunk next total) (hstart : start.len ≤ now.len)
    (hsum : now.len + len = start.len + asked)
    (hturn : appendChunkTurn (now, next, total, len, .iterate) = .ok turn) :
    Leads stops left start asked turn := by
  by_cases hcomes : Comes now.serverSocket
  · obtain ⟨now', n, hn, hnlen, hnrest, hnone, -, hread, hdata, hmode', hturn'⟩ :=
      iterate_turn total hcomes hlen hnext
    rw [hturn'] at hturn
    obtain rfl := Except.ok.inj hturn
    have hbrings := h.copies hcomes hnext hnone
    have hnext' := h.copied hn hnrest hread hdata
    have hgrown : now'.len = now.len + n := by
      rw [RecvBuffer.len, hdata, List.length_append, List.length_take_of_le hnrest, RecvBuffer.len]
    split
    · exact ⟨hnext'.standing hmode', by omega, hbrings.imp_right fun hpos => Or.inr (by omega)⟩
    · exact ⟨hmode', hnext', by omega, by omega⟩
  · have hgoes : ¬ stops := fun hstop => hcomes (h.comes hstop)
    rcases recv_nothing hcomes (min (min next len) Recvbufr.sbDataSize) true with
      hidle | ⟨socket, hfailed⟩
    · simp only [appendChunkTurn, hlen, hnext, and_self, if_true, hidle, error_bind] at hturn
      contradiction
    · simp only [appendChunkTurn, hlen, hnext, and_self, if_true, hfailed, ok_bind] at hturn
      obtain rfl := Except.ok.inj hturn
      exact leads_error hmode hgoes (by decide)

theorem readSize_error {window : Bytes} {e : ErrorMessage}
    (h : readSize next window = some (.error e)) :
    e = .malformedChunkEncoding ∨ e = .illegalHexCharacter := by
  rw [readSize] at h
  split at h
  · simp at h
  · split at h
    · exact Or.inl (Except.error.inj (Option.some.inj h)).symm
    · rename_i hex j hline
      rw [ioHttpBodyChunkHexToSize] at h
      split at h
      · simp [Except.map] at h
      · exact Or.inr (Except.error.inj (Option.some.inj h)).symm

theorem readSize_none_iff {window : Bytes} :
    readSize next window = none ↔ window.length < shortest next := by
  rw [readSize]
  split
  · exact iff_of_true rfl ‹_›
  · refine iff_of_false ?_ ‹_›
    split
    · exact Option.some_ne_none _
    · exact Option.some_ne_none _

theorem head_small {ds : List Bytes} (hds : Fits ds) : (ds.headD []).length < 2 ^ 60 := by
  cases ds with
  | nil => decide
  | cons d ds => exact (hds d List.mem_cons_self).2

theorem readSize_line {ds : List Bytes} (hds : Fits ds) {window : Bytes}
    (hwindow : window <+: lead next ++ wire ds) {l j : Nat}
    (h : readSize next window = some (.ok (l, j))) :
    l = (ds.headD []).length ∧ j = lineLength next (ds.headD []) ∧ j ≤ window.length := by
  obtain ⟨hstream, -, hj, -⟩ := readSize_extend hwindow h
  rw [readSize_sizeLine ((head_small hds).trans (by decide)) (line_front next ds)] at hstream
  obtain ⟨rfl, rfl⟩ := Prod.mk.inj (Except.ok.inj (Option.some.inj hstream))
  exact ⟨rfl, rfl, hj⟩

theorem window_mark {socket peeked : Socket} {window : Bytes} (h : Peeked socket 19 peeked window) :
    ∃ p, Mark socket p ∧ window = socket.rest.take (min 19 p) ∧ window.length = min 19 p := by
  obtain ⟨p, hp, hwindow⟩ := h.front
  refine ⟨p, hp, hwindow, ?_⟩
  have hle := mark_le hp
  rw [hwindow, List.length_take]
  omega

theorem shortest_bounds (next : Nat) : 0 < shortest next ∧ shortest next ≤ 5 := by
  rw [shortest]
  split
  · decide
  · decide

theorem short_window {ds : List Bytes} {peeked : Socket} {window : Bytes}
    (hpeeked : Peeked now.serverSocket 19 peeked window) (hcomes : Comes now.serverSocket)
    (hstops : ∀ p, Mark now.serverSocket p →
      (Stops (Shut now.serverSocket p) next ds p ↔ stops))
    (hshort : window.length < shortest next) : stops ∨ ds = [] := by
  cases ds with
  | nil => exact Or.inr rfl
  | cons d ds =>
      obtain ⟨p, hp, hwindow, hlength⟩ := window_mark hpeeked
      obtain ⟨-, hsmall⟩ := shortest_bounds next
      refine Or.inl ((hstops p hp).mp (Or.inl ⟨by omega, ?_⟩))
      rcases Nat.eq_zero_or_pos p with rfl | hpos
      · rw [Nat.min_zero, List.take_zero] at hwindow
        have hnothing := hpeeked.nothing (by decide) hwindow
        have hclosed := hcomes.resolve_right (not_not.mpr hnothing)
        exact Or.inr ⟨hclosed, by rw [hnothing, List.length_nil]⟩
      · exact Or.inl hpos

/-- Where the stream stops no size line is taken for a malformed one. -/
theorem stops_readable {ds : List Bytes} {peeked : Socket} {window : Bytes} {e : ErrorMessage}
    (hds : Fits ds) (hpeeked : Peeked now.serverSocket 19 peeked window)
    (hrest : now.serverSocket.rest <+: lead next ++ wire ds)
    (hstops : ∀ p, Mark now.serverSocket p →
      (Stops (Shut now.serverSocket p) next ds p ↔ stops))
    (he : readSize next window = some (.error e)) : ¬ stops := by
  intro hstop
  obtain ⟨p, hp, hwindow, hlength⟩ := window_mark hpeeked
  have hlong : ¬ window.length < shortest next := by
    rw [← readSize_none_iff, he]
    exact Option.some_ne_none _
  obtain ⟨-, hsmall⟩ := shortest_bounds next
  have hat := (hstops p hp).mpr hstop
  cases ds with
  | nil => exact hat
  | cons d ds =>
      rcases hat with ⟨hshort, -⟩ | ⟨q, rfl, -⟩
      · omega
      · have hsize := (hds d List.mem_cons_self).2
        have hfit : lineLength next d ≤ 19 := lineLength_le hsize
        have hline : lead next ++ sizeLine d <+: window := by
          have hfront := line_front next (d :: ds)
          rw [List.headD_cons] at hfront
          have hcontained := List.prefix_of_prefix_length_le hfront
            ((hpeeked.isPrefix.trans (List.take_prefix _ _)).trans hrest)
          apply hcontained
          rw [hlength, List.length_append, ← lineLength]
          omega
        rw [readSize_sizeLine (hsize.trans (by decide)) hline] at he
        simp at he

theorem Coming.peeked {peeked : Socket} (h : Coming stops left now .parse next)
    (hread : ReadOff now.serverSocket peeked 0) :
    Coming stops left { now with serverSocket := peeked } .parse next := by
  cases h with
  | line hds hnext hrest hleft hstops =>
      refine .line hds hnext ?_ hleft fun p hp => ?_
      · rw [hread.rest]
        exact hrest
      · rw [shut_readOff hread (Nat.zero_le _), Nat.zero_add]
        apply hstops
        have hmark := hread.marks p hp
        rwa [Nat.zero_add] at hmark

theorem Coming.parse (h : Coming stops left now .parse next) (hmode : now.length = .chunk next total)
    (hstart : start.len ≤ now.len) (hsum : now.len + len = start.len + asked)
    (hturn : appendChunkTurn (now, next, total, len, .parse) = .ok turn) :
    Leads stops left start asked turn := by
  by_cases hcomes : Comes now.serverSocket
  · obtain ⟨peeked, window, hpeeked, hturn'⟩ := parse_turn next total len hcomes
    have hwaits := h.peeked hpeeked.after
    cases h with
    | @line _ ds hds hnext hrest hleft hstops =>
        have hwindow : window <+: lead next ++ wire ds :=
          (hpeeked.isPrefix.trans (List.take_prefix _ _)).trans hrest
        cases hsize : readSize next window with
        | none =>
            rw [hsize] at hturn'
            obtain rfl := Except.ok.inj (hturn'.symm.trans hturn)
            have hnothing := short_window hpeeked hcomes hstops (readSize_none_iff.mp hsize)
            refine ⟨hwaits.standing hmode, Nat.le.intro hsum, hnothing.imp_right ?_⟩
            rintro rfl
            rw [List.flatten_nil, List.append_nil] at hleft
            exact Or.inl hleft
        | some size =>
            cases size with
            | error e =>
                rw [hsize] at hturn'
                obtain rfl := Except.ok.inj (hturn'.symm.trans hturn)
                have hgoes := stops_readable hds hpeeked hrest hstops hsize
                rcases readSize_error hsize with rfl | rfl
                · exact leads_error hmode hgoes (by decide)
                · exact leads_error hmode hgoes (by decide)
            | ok size =>
                obtain ⟨l, j⟩ := size
                rw [hsize] at hturn'
                obtain ⟨socket, hread, hturn'⟩ := hturn'
                obtain rfl := Except.ok.inj (hturn'.symm.trans hturn)
                obtain ⟨rfl, rfl, hj⟩ := readSize_line hds hwindow hsize
                cases ds with
                | nil =>
                    have hgoes : ¬ stops := (hstops _ (mark_rest _)).mpr
                    rw [List.flatten_nil, List.append_nil] at hleft
                    exact ⟨Or.inl ⟨rfl, hleft, hgoes⟩, Nat.le.intro hsum, Or.inr (Or.inl hleft)⟩
                | cons d ds =>
                    obtain ⟨hd, hless⟩ := hds d List.mem_cons_self
                    rw [List.headD_cons] at hread hj
                    rw [List.headD_cons, if_pos (List.length_pos_iff.mpr hd)]
                    have hline : lineLength next d ≤ now.serverSocket.rest.length :=
                      (hj.trans (hpeeked.isPrefix.trans (List.take_prefix _ _)).length_le)
                    refine ⟨rfl, .data (x := d) (fun e he => hds e (List.mem_cons_of_mem d he)) rfl
                      hless ?_ ?_ ?_, hstart, hsum⟩
                    · show socket.rest <+: d ++ (crlf ++ wire ds)
                      rw [hread.rest]
                      have hdrop := drop_line next (d :: ds)
                      rw [List.headD_cons, behindLine] at hdrop
                      rw [← hdrop]
                      exact hrest.drop _
                    · rw [← hleft, List.flatten_cons]
                      rfl
                    · intro p hp
                      show StopsWithin (Shut socket p) d.length ds p ↔ stops
                      rw [shut_readOff hread hline, ← hstops _ (hread.marks p hp),
                        stops_behind_line_iff]
  · have hgoes : ¬ stops := fun hstop => hcomes (h.comes hstop)
    rcases recv_nothing hcomes 19 true with hidle | ⟨socket, hfailed⟩
    · simp only [appendChunkTurn, hidle, error_bind] at hturn
      contradiction
    · simp only [appendChunkTurn, hfailed, ok_bind] at hturn
      obtain rfl := Except.ok.inj hturn
      exact leads_error hmode hgoes (by decide)

theorem Taking.leads {s : RecvBuffer × Nat × Nat × Nat × ChunkLabel} (hasked : 0 < asked)
    (h : Taking stops left start asked s) (hturn : appendChunkTurn s = .ok turn) :
    Leads stops left start asked turn := by
  obtain ⟨now, next, total, len, label⟩ := s
  obtain ⟨hmode, hcoming, hstart, hsum⟩ := h
  cases label with
  | parse => exact hcoming.parse hmode hstart hsum hturn
  | iterate =>
      by_cases hcopy : 0 < len ∧ 0 < next
      · exact hcoming.copy hcopy.1 hcopy.2 hmode hstart hsum hturn
      · by_cases hdone : len = 0
        · subst hdone
          simp only [appendChunkTurn, Nat.lt_irrefl, false_and, if_false, if_true] at hturn
          obtain rfl := Except.ok.inj hturn
          exact ⟨hcoming.standing hmode, by omega, Or.inr (Or.inr (by omega))⟩
        · obtain rfl : next = 0 := by omega
          simp only [appendChunkTurn, Nat.lt_irrefl, and_false, if_false, hdone] at hturn
          obtain rfl := Except.ok.inj hturn
          exact ⟨hmode, coming_zero_iff.mp hcoming, hstart, hsum⟩

theorem Taking.returns {s : RecvBuffer × Nat × Nat × Nat × ChunkLabel} (hstop : stops)
    (h : Taking stops left start asked s) :
    ∃ turn, appendChunkTurn s = .ok turn ∧ ∀ s', turn = .again s' → turnsLeft s' < turnsLeft s := by
  obtain ⟨now, next, total, len, label⟩ := s
  obtain ⟨-, hcoming, -, -⟩ := h
  have hcomes := hcoming.comes hstop
  cases label with
  | parse =>
      obtain ⟨peeked, window, -, hturn⟩ := parse_turn next total len hcomes
      cases hsize : readSize next window with
      | none =>
          rw [hsize] at hturn
          exact ⟨_, hturn, fun s' hagain => by contradiction⟩
      | some size =>
          cases size with
          | error e =>
              rw [hsize] at hturn
              exact ⟨_, hturn, fun s' hagain => by contradiction⟩
          | ok size =>
              obtain ⟨l, j⟩ := size
              rw [hsize] at hturn
              obtain ⟨socket, -, hturn⟩ := hturn
              refine ⟨_, hturn, fun s' hagain => ?_⟩
              split at hagain
              · obtain rfl := Turn.again.inj hagain
                exact turnsLeft_line ‹_›
              · contradiction
  | iterate =>
      by_cases hcopy : 0 < len ∧ 0 < next
      · obtain ⟨hlen, hnext⟩ := hcopy
        obtain ⟨now', n, -, hnlen, -, -, -, -, -, -, hturn⟩ := iterate_turn total hcomes hlen hnext
        refine ⟨_, hturn, fun s' hagain => ?_⟩
        split at hagain
        · contradiction
        · obtain rfl := Turn.again.inj hagain
          rename_i hfull
          have hpos : 0 < min (min next len) Recvbufr.sbDataSize := by
            rw [Recvbufr.sbDataSize]
            omega
          exact turnsLeft_copy hnext (by omega) hnlen
      · by_cases hdone : len = 0
        · subst hdone
          exact ⟨.leave (now, none), by simp [appendChunkTurn], fun s' hagain => by contradiction⟩
        · obtain rfl : next = 0 := by omega
          refine ⟨.again (now, 0, total, len, .parse), by simp [appendChunkTurn, hdone], ?_⟩
          intro s' hagain
          obtain rfl := Turn.again.inj hagain
          exact turnsLeft_parse

theorem Coming.taking (h : Coming stops left start (labelOf next) next)
    (hmode : start.length = .chunk next total) :
    Taking stops left start asked
      ({ start with buffer := some start.data }, next, total, asked, labelOf next) :=
  ⟨hmode, h.behind (t := []) rfl rfl, le_rfl, rfl⟩

theorem append_gains (h : Coming stops left start (labelOf next) next)
    (hmode : start.length = .chunk next total) (hasked : 0 < asked)
    {r : RecvBuffer × Option ErrorMessage} (hrun : recvBufferAppend start asked = .ok r) :
    Gains stops left start asked r := by
  rw [recvBufferAppend_chunk hmode] at hrun
  refine run_partial (Taking stops left start asked) (Gains stops left start asked) ?_ ?_
    (h.taking hmode) hrun
  · intro s s' hs hturn
    exact hs.leads hasked hturn
  · intro s r hs hturn
    exact hs.leads hasked hturn

theorem append_returns (hstop : stops) (h : Coming stops left start (labelOf next) next)
    (hmode : start.length = .chunk next total) (hasked : 0 < asked) :
    ∃ r, recvBufferAppend start asked = .ok r ∧ Gains stops left start asked r := by
  rw [recvBufferAppend_chunk hmode]
  apply run_total (Taking stops left start asked) turnsLeft
  · intro s hs
    obtain ⟨turn, hturn, hless⟩ := hs.returns hstop
    have hleads := hs.leads hasked hturn
    refine ⟨turn, hturn, ?_⟩
    cases turn with
    | again s' => exact ⟨hleads, hless s' rfl⟩
    | leave r => exact hleads
  · exact h.taking hmode
  · exact turnsLeft_lt ..

end Turns

section Reads

variable {stops : Prop} {left : Bytes} {self self' : HttpSite} {size : Nat} {data : Option Bytes}

/-- What a read hands out is the front of what was left, and something of it unless the stream
stops or nothing was left. -/
def Hands (stops : Prop) (left : Bytes) (self : HttpSite) (block : Bytes) : Prop :=
  ∃ left', block ++ left' = left ∧ (block = [] → stops ∨ left = []) ∧
    Standing stops left' self.socket ∧ self.socket.data = []

theorem Gains.hands {now : RecvBuffer} (hempty : self.socket.data = [])
    (h : Gains stops left self.socket size (now, none)) :
    Hands stops left { self with socket := recvBufferDitch now now.len } now.data := by
  obtain ⟨hstanding, -, hgained⟩ := h
  refine ⟨left.drop now.len, ?_, ?_, hstanding.ditch, ?_⟩
  · obtain ⟨later, rfl⟩ := hstanding.isPrefix
    rw [RecvBuffer.len, List.drop_left]
  · intro hnothing
    refine hgained.imp_right fun hgained => ?_
    rcases hgained with hall | hmore
    · exact hall.symm.trans hnothing
    · rw [RecvBuffer.len, RecvBuffer.len, hempty, hnothing] at hmore
      exact absurd hmore (Nat.lt_irrefl 0)
  · show (recvBufferDitch now now.len).data = []
    rw [recvBufferDitch_data]
    exact List.drop_length

theorem fileRead_of_append {now : RecvBuffer} (hempty : self.socket.data = []) (hsize : 0 < size)
    (happend : recvBufferAppend self.socket size = .ok (now, none)) (hbound : now.len ≤ size) :
    httpSiteSchemeFileRead self size =
      .ok ({ self with socket := recvBufferDitch now now.len }, some now.data) := by
  have hlen : self.socket.len = 0 := by rw [RecvBuffer.len, hempty, List.length_nil]
  rw [httpSiteSchemeFileRead, if_pos (by omega), hlen, Nat.sub_zero, happend, ok_bind]
  simp only [Nat.min_eq_left hbound, copyAndDitch]
  rw [RecvBuffer.len, List.take_length]

theorem Standing.read (h : Standing stops left self.socket) (hempty : self.socket.data = [])
    (hsize : 0 < size) (hread : httpSiteSchemeFileRead self size = .ok (self', data)) :
    (data = none ∧ ∃ next total, self'.socket.length = .chunk next total) ∨
      ∃ block, data = some block ∧ Hands stops left self' block := by
  have hlen : self.socket.len = 0 := by rw [RecvBuffer.len, hempty, List.length_nil]
  rcases h with ⟨hcomplete, hleft, hgoes⟩ | ⟨next, total, hmode, hcoming⟩
  · obtain rfl := hempty.symm.trans hleft
    rw [httpSiteSchemeFileRead, if_pos (by omega), hlen, Nat.sub_zero,
      recvBufferAppend_complete hcomplete, ok_bind] at hread
    obtain ⟨rfl, rfl⟩ := Prod.mk.inj (Except.ok.inj hread)
    refine Or.inr ⟨[], by rw [hempty, List.take_nil], [], rfl, fun _ => Or.inr rfl, ?_, ?_⟩
    · refine Or.inl ⟨by rw [recvBufferDitch_length, hcomplete], ?_, hgoes⟩
      rw [recvBufferDitch_data, hempty, List.drop_nil]
    · rw [recvBufferDitch_data, hempty, List.drop_nil]
  · cases happend : recvBufferAppend self.socket size with
    | error stop =>
        rw [httpSiteSchemeFileRead, if_pos (by omega), hlen, Nat.sub_zero, happend] at hread
        simp at hread
    | ok appended =>
        obtain ⟨now, e⟩ := appended
        have hgains := append_gains hcoming hmode hsize happend
        cases e with
        | some e =>
            rw [httpSiteSchemeFileRead, if_pos (by omega), hlen, Nat.sub_zero, happend,
              ok_bind] at hread
            obtain ⟨-, hno, hdone, hmode'⟩ := hgains
            refine Or.inl ?_
            cases e with
            | noDataToBeRetrieved => exact absurd rfl hno
            | requestCompleted => exact absurd rfl hdone
            | _ =>
                obtain ⟨rfl, rfl⟩ := Prod.mk.inj (Except.ok.inj hread)
                exact ⟨rfl, hmode'⟩
        | none =>
            have hbound : now.len ≤ size := by
              have hbound := hgains.2.1
              rwa [hlen, Nat.zero_add] at hbound
            rw [fileRead_of_append hempty hsize happend hbound] at hread
            obtain ⟨rfl, rfl⟩ := Prod.mk.inj (Except.ok.inj hread)
            exact Or.inr ⟨now.data, rfl, hgains.hands hempty⟩

/-- Where the stream stops a read hands out what is there, down to nothing. -/
theorem Standing.read_stops (hstop : stops) (h : Standing stops left self.socket)
    (hempty : self.socket.data = []) (hsize : 0 < size) :
    ∃ self' block, httpSiteSchemeFileRead self size = .ok (self', some block) ∧
      Hands stops left self' block := by
  rcases h with ⟨-, -, hgoes⟩ | ⟨next, total, hmode, hcoming⟩
  · exact absurd hstop hgoes
  · obtain ⟨⟨now, e⟩, happend, hgains⟩ := append_returns hstop hcoming hmode hsize
    cases e with
    | some e => exact absurd hstop hgains.1
    | none =>
        have hlen : self.socket.len = 0 := by rw [RecvBuffer.len, hempty, List.length_nil]
        have hbound : now.len ≤ size := by
          have hbound := hgains.2.1
          rwa [hlen, Nat.zero_add] at hbound
        exact ⟨_, _, fileRead_of_append hempty hsize happend hbound, hgains.hands hempty⟩

end Reads

section Courses

/-- The rest of a chunked body is found by the polls at some of these places, and the connection
is closed at none but those. -/
structure Course (ds : List Bytes) (pauses closes : List Nat) (socket : Socket) : Prop where
  part : socket.rest <+: wire ds
  polled : ∀ p, Mark socket p → p ∈ pauses
  shut : socket.ending = .closed → socket.rest.length ∈ closes

variable {ds : List Bytes} {pauses closes : List Nat}

theorem Course.standing {socket : Socket} (hds : Fits ds) (h : Course ds pauses closes socket)
    (hgoes : ∀ p ∈ pauses, ¬ Stops (p ∈ closes) noChunk ds p) (total : Nat) :
    Standing False ds.flatten ⟨none, .chunk noChunk total, socket⟩ := by
  refine Or.inr ⟨noChunk, total, rfl, ?_⟩
  rw [labelOf, if_pos rfl]
  refine .line hds (Or.inr rfl) h.part rfl fun p hp => iff_false_intro fun hstops => ?_
  apply hgoes p (h.polled p hp)
  refine hstops.mono ?_
  rintro ⟨hclosed, rfl⟩
  exact h.shut hclosed

/-- The connection that brings the first `p` bytes, and is closed there or goes no further. -/
def broken (ds : List Bytes) (p : Nat) (closed : Bool) : Socket :=
  ⟨[], [(wire ds).take p], if closed then .closed else .idle⟩

theorem broken_rest (ds : List Bytes) (p : Nat) (closed : Bool) :
    (broken ds p closed).rest = (wire ds).take p := by
  rw [Socket.rest, broken, List.flatten_singleton, List.nil_append]

theorem mark_broken {p q : Nat} {closed : Bool} (hp : p ≤ (wire ds).length)
    (h : Mark (broken ds p closed) q) : q = p := by
  obtain ⟨m, hm, rfl⟩ := h
  obtain ⟨m, rfl⟩ := Nat.exists_eq_add_one_of_ne_zero (hm.resolve_right (List.cons_ne_nil _ _)).ne'
  rw [broken, List.take_succ_cons, List.take_nil, List.flatten_singleton, List.length_nil,
    List.length_take_of_le hp, Nat.zero_add]

theorem stops_le {closed : Prop} {p : Nat} (h : Stops closed noChunk ds p) :
    p ≤ (wire ds).length :=
  h.lt.le

theorem broken_course {p : Nat} (hp : p ∈ pauses) (h : Stops (p ∈ closes) noChunk ds p) :
    Course ds pauses closes (broken ds p (decide (p ∈ closes))) where
  part := by
    rw [broken_rest]
    exact List.take_prefix _ _
  polled q hq := mark_broken (stops_le h) hq ▸ hp
  shut hclosed := by
    rw [broken_rest, List.length_take_of_le (stops_le h)]
    by_contra hopen
    simp [broken, hopen] at hclosed

theorem broken_standing {p : Nat} (hds : Fits ds) (h : Stops (p ∈ closes) noChunk ds p)
    (total : Nat) :
    Standing True ds.flatten ⟨none, .chunk noChunk total, broken ds p (decide (p ∈ closes))⟩ := by
  refine Or.inr ⟨noChunk, total, rfl, ?_⟩
  rw [labelOf, if_pos rfl]
  refine .line hds (Or.inr rfl) ?_ rfl fun q hq => iff_true_intro ?_
  · show (broken ds p _).rest <+: wire ds
    rw [broken_rest]
    exact List.take_prefix _ _
  · obtain rfl := mark_broken (stops_le h) hq
    refine h.mono fun hclosed => ⟨?_, ?_⟩
    · simp [broken, hclosed]
    · rw [broken_rest, List.length_take_of_le (stops_le h)]

end Courses

end Newth.Client.TimelyChunks
