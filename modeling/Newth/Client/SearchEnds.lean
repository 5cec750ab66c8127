import Newth.Client.ChunkTurns

namespace Newth.Client.SearchEnds

open Newth.Library.ByteString
open Newth.Library.Call
open Newth.Library.Chunked
open Newth.Client.Recvbufr
open Newth.Client.ChunkTurns

section Dries

/-- A chunked body that breaks off: its bytes end within the data of a chunk, or
before the next size line is there. -/
inductive Dries : ChunkLabel → Nat → Bytes → Prop where
  | short {next : Nat} {stream : Bytes} (hshort : stream.length < shortest next) :
      Dries .parse next stream
  | line {next l j : Nat} {stream : Bytes}
      (hline : readSize next (stream.take 19) = some (.ok (l, j))) (hpos : 0 < l)
      (hrest : Dries .iterate l (stream.drop j)) : Dries .parse next stream
  | within {next : Nat} {stream : Bytes} (hless : stream.length < next) :
      Dries .iterate next stream
  | behind {next : Nat} {stream : Bytes} (hle : next ≤ stream.length)
      (hrest : Dries .parse 0 (stream.drop next)) : Dries .iterate next stream

theorem readSize_eq_none_iff {next : Nat} {stream : Bytes} :
    readSize next (stream.take 19) = none ↔ stream.length < shortest next := by
  have hshortest : shortest next ≤ 19 := by
    rw [shortest]
    split <;> omega
  rw [readSize, List.length_take]
  split
  · simp only [true_iff]
    omega
  · simp only [reduceCtorEq, false_iff]
    omega

theorem dries_parse_iff {next : Nat} {stream : Bytes} :
    Dries .parse next stream ↔ readSize next (stream.take 19) = none ∨
      ∃ l j, readSize next (stream.take 19) = some (.ok (l, j)) ∧ 0 < l ∧
        Dries .iterate l (stream.drop j) := by
  rw [readSize_eq_none_iff]
  constructor
  · intro h
    cases h with
    | short hshort => exact Or.inl hshort
    | line hline hpos hrest => exact Or.inr ⟨_, _, hline, hpos, hrest⟩
  · rintro (hshort | ⟨l, j, hline, hpos, hrest⟩)
    · exact .short hshort
    · exact .line hline hpos hrest

theorem dries_iterate_iff {next : Nat} {stream : Bytes} :
    Dries .iterate next stream ↔
      next ≤ stream.length → Dries .parse 0 (stream.drop next) := by
  constructor
  · intro h hle
    cases h with
    | within hless => exact absurd hle (Nat.not_le.mpr hless)
    | behind _ hrest => exact hrest
  · intro h
    rcases Nat.lt_or_ge stream.length next with hless | hle
    · exact .within hless
    · exact .behind hle (h hle)

theorem dries_iterate_drop {next k : Nat} {stream : Bytes} (hk : k ≤ next)
    (hstream : k ≤ stream.length) :
    Dries .iterate (next - k) (stream.drop k) ↔ Dries .iterate next stream := by
  rw [dries_iterate_iff, dries_iterate_iff, List.length_drop, List.drop_drop,
    Nat.add_sub_of_le hk]
  have hle : next - k ≤ stream.length - k ↔ next ≤ stream.length := by omega
  rw [hle]

theorem dries_parse_line {next l j : Nat} {stream : Bytes}
    (hline : readSize next (stream.take 19) = some (.ok (l, j))) :
    Dries .parse next stream ↔ 0 < l ∧ Dries .iterate l (stream.drop j) := by
  rw [dries_parse_iff, hline]
  simp

theorem dries_labelOf_of_parse {next : Nat} (hnext : next = 0 ∨ next = noChunk) {stream : Bytes} :
    Dries (labelOf next) next stream ↔ Dries .parse next stream := by
  rcases hnext with rfl | rfl
  · show Dries .iterate 0 stream ↔ _
    rw [dries_iterate_iff, List.drop_zero]
    simp
  · rw [labelOf, if_pos rfl]

theorem dries_nil (label : ChunkLabel) (next : Nat) : Dries label next [] := by
  have hparse : ∀ next, Dries .parse next [] := by
    intro next
    apply Dries.short
    rw [shortest]
    split <;> exact Nat.succ_pos _
  cases label with
  | parse => exact hparse next
  | iterate =>
      rw [dries_iterate_iff]
      intro _
      rw [List.drop_nil]
      exact hparse 0

/-- A chunked body whose bytes end before its last chunk does. -/
def BreaksOff (length : RecvBufferLength) (stream : Bytes) : Prop :=
  ∃ next total, length = .chunk next total ∧ Dries (labelOf next) next stream

end Dries

section Appends

/-- A buffer some bytes later: what it got came off its connection. -/
structure Follows (before after : RecvBuffer) : Prop where
  closed : after.serverSocket.ending = .closed
  arrivals : after.serverSocket.arrivals.length ≤ before.serverSocket.arrivals.length
  grows : before.len ≤ after.len
  size : after.len + after.serverSocket.rest.length ≤
    before.len + before.serverSocket.rest.length

theorem Follows.refl {self : RecvBuffer} (hclosed : self.serverSocket.ending = .closed) :
    Follows self self :=
  ⟨hclosed, le_rfl, le_rfl, le_rfl⟩

theorem Follows.trans {a b c : RecvBuffer} (hab : Follows a b) (hbc : Follows b c) :
    Follows a c :=
  ⟨hbc.closed, hbc.arrivals.trans hab.arrivals, hab.grows.trans hbc.grows,
    hbc.size.trans hab.size⟩

theorem Follows.of_readOff {before after : RecvBuffer} {n : Nat}
    (hclosed : before.serverSocket.ending = .closed)
    (hread : ReadOff before.serverSocket after.serverSocket n)
    (hn : n ≤ before.serverSocket.rest.length) (hgrows : before.len ≤ after.len)
    (hsize : after.len ≤ before.len + n) : Follows before after := by
  refine ⟨hread.ending.trans hclosed, hread.arrivals_le, hgrows, ?_⟩
  rw [hread.rest, List.length_drop]
  omega

/-- What the remote has still to hand over, in bytes and in arrivals. -/
def weight (self : RecvBuffer) : Nat :=
  self.serverSocket.rest.length + self.serverSocket.arrivals.length

theorem Follows.weight_le {before after : RecvBuffer} (h : Follows before after) :
    weight after ≤ weight before := by
  have hgrows := h.grows
  have hsize := h.size
  have harrivals := h.arrivals
  rw [weight, weight]
  omega

theorem weight_lt_of_readOff {before after : RecvBuffer} {n : Nat}
    (hread : ReadOff before.serverSocket after.serverSocket n)
    (hsome : before.serverSocket.arrivals ≠ [] ∨ 0 < n ∧ before.serverSocket.rest ≠ []) :
    weight after < weight before := by
  have hle := hread.arrivals_le
  rw [weight, weight, hread.rest, List.length_drop]
  rcases hsome with harrivals | ⟨hn, hrest⟩
  · rcases hread.arrivals with hless | ⟨hnil, -⟩
    · omega
    · exact absurd hnil harrivals
  · have hpos := List.length_pos_iff.mpr hrest
    omega

/-- The buffer is in the middle of a chunked body that breaks off. -/
def Dry (self : RecvBuffer) : Prop := BreaksOff self.length self.serverSocket.rest

def Counted (self : RecvBuffer) : Prop :=
  ∀ next total, self.length = .chunk next total → next < 2 ^ 64

theorem dry_iff {self : RecvBuffer} {next total : Nat} (hmode : self.length = .chunk next total) :
    Dry self ↔ Dries (labelOf next) next self.serverSocket.rest := by
  constructor
  · rintro ⟨next', total', hmode', hdries⟩
    rw [hmode] at hmode'
    obtain ⟨rfl, rfl⟩ : next = next' ∧ total = total' := by simpa using hmode'
    exact hdries
  · intro hdries
    exact ⟨next, total, hmode, hdries⟩

theorem counted_of_chunk {self : RecvBuffer} {next total : Nat}
    (hmode : self.length = .chunk next total) (hnext : next < 2 ^ 64) : Counted self := by
  intro next' total' hmode'
  rw [hmode] at hmode'
  obtain ⟨rfl, -⟩ : next = next' ∧ total = total' := by simpa using hmode'
  exact hnext

/-- What an append has to leave: success keeps a buffer dry or not, and takes
something off the connection unless it is; an error comes only if it is not dry, once
everything the remote sent is there. -/
def Appended (self : RecvBuffer) (r : RecvBuffer × Option ErrorMessage) : Prop :=
  Follows self r.1 ∧ Counted r.1 ∧
  (r.2 = none → (Dry r.1 ↔ Dry self) ∧ (Dry self ∨ weight r.1 < weight self)) ∧
  (r.2 ≠ none → self.serverSocket.arrivals = [] → ¬ Dry self)

/-- Where an append of `asked` bytes to `start` stands inside of a chunked body. -/
structure Underway (start : RecvBuffer) (asked : Nat) (now : RecvBuffer) (next total len : Nat)
    (label : ChunkLabel) : Prop where
  follows : Follows start now
  mode : now.length = .chunk next total
  counted : next < 2 ^ 64
  parsing : label = .parse → 0 < len ∧ (next = 0 ∨ next = noChunk)
  copied : len = 0 → next ≠ noChunk
  dry : Dries label next now.serverSocket.rest ↔ Dry start
  progress : len = asked ∨ weight now < weight start

def Outcome (start : RecvBuffer) (asked : Nat) (s : RecvBuffer × Nat × Nat × Nat × ChunkLabel) :
    Prop :=
  ∃ turn, appendChunkTurn s = .ok turn ∧
    Advances (fun (now, next, total, len, label) => Underway start asked now next total len label)
      turnsLeft (Appended start) s turn

theorem Underway.copy {start now : RecvBuffer} {asked next total len : Nat}
    (h : Underway start asked now next total len .iterate) (hlen : 0 < len) (hnext : 0 < next) :
    Outcome start asked (now, next, total, len, .iterate) := by
  obtain ⟨now', n, hn, hnlen, hnrest, hnone, -, hread, hdata, hmode, hturn⟩ :=
    iterate_turn total (Or.inl h.follows.closed) hlen hnext
  have hgrown : now'.len = now.len + n := by
    rw [RecvBuffer.len, hdata, List.length_append, List.length_take_of_le hnrest, RecvBuffer.len]
  have hstep : Follows now now' := .of_readOff h.follows.closed hread hnrest (by omega) hgrown.le
  have hcounted := h.counted
  have hdries : Dries .iterate (next - n) now'.serverSocket.rest ↔ Dry start := by
    rw [hread.rest, dries_iterate_drop hn hnrest]
    exact h.dry
  have hless : 0 < n → weight now' < weight start := by
    intro hpos
    have hrest : now.serverSocket.rest ≠ [] := List.ne_nil_of_length_pos (hpos.trans_le hnrest)
    exact (weight_lt_of_readOff hread (Or.inr ⟨hpos, hrest⟩)).trans_le h.follows.weight_le
  refine ⟨_, hturn, ?_⟩
  by_cases hshort : n < min (min next len) sbDataSize
  · rw [if_pos hshort]
    refine ⟨h.follows.trans hstep, counted_of_chunk hmode (by omega), fun _ => ⟨?_, ?_⟩,
      fun he => absurd rfl he⟩
    · rw [dry_iff hmode]
      by_cases hlast : next - n = noChunk
      · -- nothing has been read, and nothing is left
        have hzero : n = 0 := by
          rw [noChunk] at hlast
          omega
        have hnil : now'.serverSocket.rest = [] := by
          rw [hread.rest, hnone hzero, List.drop_nil]
        rw [hnil] at hdries ⊢
        exact iff_of_true (dries_nil _ _) (hdries.mp (dries_nil _ _))
      · rw [labelOf, if_neg hlast]
        exact hdries
    · rcases Nat.eq_zero_or_pos n with hzero | hpos
      · apply Or.inl
        rw [← h.dry, hnone hzero]
        exact dries_nil _ _
      · exact Or.inr (hless hpos)
  · rw [if_neg hshort]
    have hpos : 0 < n := by
      rw [sbDataSize] at hshort
      omega
    refine ⟨⟨h.follows.trans hstep, hmode, by omega, by simp, ?_, hdries, Or.inr (hless hpos)⟩, ?_⟩
    · intro _
      rw [noChunk]
      omega
    · exact turnsLeft_copy hnext hpos hnlen

theorem Underway.parse {start now : RecvBuffer} {asked next total len : Nat}
    (h : Underway start asked now next total len .parse) :
    Outcome start asked (now, next, total, len, .parse) := by
  obtain ⟨hlen, hfirst⟩ := h.parsing rfl
  obtain ⟨peeked, window, hpeeked, hturn⟩ := parse_turn next total len (Or.inl h.follows.closed)
  have hpeek : Follows now { now with serverSocket := peeked } :=
    .of_readOff h.follows.closed hpeeked.after (Nat.zero_le _) le_rfl le_rfl
  have hwhole : now.serverSocket.arrivals = [] →
      readSize next (now.serverSocket.rest.take 19) = readSize next window :=
    fun harrivals => by rw [hpeeked.whole harrivals]
  cases hsize : readSize next window with
  | none =>
      rw [hsize] at hturn hwhole
      refine ⟨_, hturn, h.follows.trans hpeek, counted_of_chunk h.mode h.counted,
        fun _ => ⟨?_, ?_⟩, fun he => absurd rfl he⟩
      · have hmode : RecvBuffer.length { now with serverSocket := peeked } = .chunk next total :=
          h.mode
        show Dry { now with serverSocket := peeked } ↔ Dry start
        rw [dry_iff hmode, dries_labelOf_of_parse hfirst, hpeeked.after.rest]
        exact h.dry
      · by_cases harrivals : now.serverSocket.arrivals = []
        · exact Or.inl (h.dry.mp (dries_parse_iff.mpr (Or.inl (hwhole harrivals))))
        · apply Or.inr
          exact (weight_lt_of_readOff hpeeked.after (Or.inl harrivals)).trans_le
            h.follows.weight_le
  | some outcome =>
      rw [hsize] at hturn hwhole
      cases outcome with
      | error e =>
          refine ⟨_, hturn, h.follows.trans hpeek, counted_of_chunk h.mode h.counted,
            fun he => absurd he (by simp), fun _ harrivals => ?_⟩
          have hnone : now.serverSocket.arrivals = [] := by
            have hle := h.follows.arrivals
            rw [harrivals] at hle
            exact List.eq_nil_of_length_eq_zero (Nat.le_zero.mp hle)
          rw [← h.dry, dries_parse_iff, hwhole hnone]
          simp
      | ok found =>
          obtain ⟨l, j⟩ := found
          obtain ⟨socket, hread, hturn⟩ := hturn
          obtain ⟨hline, hj, hjle, hl⟩ := readSize_extend hpeeked.isPrefix hsize
          have hjrest : j ≤ now.serverSocket.rest.length :=
            (hjle.trans hpeeked.isPrefix.length_le).trans (List.length_take_le' _ _)
          have hrest : now.serverSocket.rest ≠ [] :=
            List.ne_nil_of_length_pos (hj.trans_le hjrest)
          have hdries := h.dry
          rw [dries_parse_line hline] at hdries
          have hstep (mode : RecvBufferLength) : Follows now ⟨now.buffer, mode, socket⟩ :=
            .of_readOff h.follows.closed hread hjrest le_rfl (Nat.le_add_right _ _)
          have hless (mode : RecvBufferLength) : weight ⟨now.buffer, mode, socket⟩ < weight start :=
            (weight_lt_of_readOff hread (Or.inr ⟨hj, hrest⟩)).trans_le h.follows.weight_le
          refine ⟨_, hturn, ?_⟩
          by_cases hpos : 0 < l
          · rw [if_pos hpos]
            rw [← hread.rest, and_iff_right hpos] at hdries
            refine ⟨⟨h.follows.trans (hstep _), rfl, hl, by simp, fun hzero => by omega,
              hdries, Or.inr (hless _)⟩, ?_⟩
            exact turnsLeft_line hpos
          · rw [if_neg hpos]
            have hfinished : ¬ Dry start := fun hdry => hpos (hdries.mpr hdry).1
            refine ⟨h.follows.trans (hstep _), fun next total hmode => by simp at hmode,
              fun _ => ⟨iff_of_false ?_ hfinished, Or.inr (hless _)⟩, fun he => absurd rfl he⟩
            rintro ⟨next, total, hmode, -⟩
            simp at hmode

theorem Underway.turn {start now : RecvBuffer} {asked next total len : Nat} {label : ChunkLabel}
    (hasked : 0 < asked) (h : Underway start asked now next total len label) :
    Outcome start asked (now, next, total, len, label) := by
  cases label with
  | parse => exact h.parse
  | iterate =>
      by_cases hcopy : 0 < len ∧ 0 < next
      · exact h.copy hcopy.1 hcopy.2
      · by_cases hlen : len = 0
        · refine ⟨.leave (now, none), by simp [appendChunkTurn, hlen], h.follows,
            counted_of_chunk h.mode h.counted, fun _ => ⟨?_, ?_⟩, fun he => absurd rfl he⟩
          · rw [dry_iff h.mode, labelOf, if_neg (h.copied hlen)]
            exact h.dry
          · rcases h.progress with hall | hless
            · omega
            · exact Or.inr hless
        · obtain rfl : next = 0 := by omega
          refine ⟨.again (now, 0, total, len, .parse), by simp [appendChunkTurn, hlen],
            ⟨h.follows, h.mode, h.counted, fun _ => ⟨by omega, Or.inl rfl⟩,
              fun hzero => absurd hzero hlen, ?_, h.progress⟩, turnsLeft_parse⟩
          rw [← h.dry, dries_iterate_iff, List.drop_zero]
          simp

theorem appended_chunk {self : RecvBuffer} {next total len : Nat} (hlen : 0 < len)
    (hclosed : self.serverSocket.ending = .closed) (hmode : self.length = .chunk next total)
    (hnext : next < 2 ^ 64) :
    ∃ r, recvBufferAppendChunk self next total len = .ok r ∧ Appended self r := by
  rw [recvBufferAppendChunk]
  apply run_total
    (fun (now, next, total, l, label) => Underway self len now next total l label) turnsLeft
  · rintro ⟨now, next, total, l, label⟩ h
    exact Underway.turn hlen h
  · refine ⟨.refl hclosed, hmode, hnext, ?_, by omega, ?_, Or.inl rfl⟩
    · intro hlabel
      refine ⟨hlen, Or.inr ?_⟩
      by_contra hother
      rw [if_neg hother] at hlabel
      contradiction
    · rw [dry_iff hmode, labelOf]
  · exact turnsLeft_lt ..

/-- The body is not chunked. -/
def Plain (self : RecvBuffer) : Prop := ∀ next total, self.length ≠ .chunk next total

theorem Plain.not_dry {self : RecvBuffer} (h : Plain self) : ¬ Dry self := by
  rintro ⟨next, total, hmode, -⟩
  exact h next total hmode

theorem Plain.counted {self : RecvBuffer} (h : Plain self) : Counted self :=
  fun next total hmode => absurd hmode (h next total)

theorem Plain.appended {self : RecvBuffer} (h : Plain self) {r : RecvBuffer × Option ErrorMessage}
    (hfollows : Follows self r.1) (hplain : Plain r.1)
    (hless : r.2 = none → weight r.1 < weight self) : Appended self r :=
  ⟨hfollows, hplain.counted, fun he => ⟨iff_of_false hplain.not_dry h.not_dry, Or.inr (hless he)⟩,
    fun _ _ => h.not_dry⟩

theorem Plain.dataIncrement {self : RecvBuffer} (h : Plain self) (added : Nat) :
    ∃ mode, (∀ next total, mode ≠ .chunk next total) ∧
      (dataIncrement self added).1 = { self with length := mode } := by
  cases hmode : self.length with
  | known escape total =>
      simp only [Recvbufr.dataIncrement, hmode]
      split
      · exact ⟨.complete, by simp, rfl⟩
      · exact ⟨.known (escape + added) total, by simp, rfl⟩
  | token token length =>
      simp only [Recvbufr.dataIncrement, hmode]
      split
      · exact ⟨.complete, by simp, rfl⟩
      · exact ⟨.token token (length + added), by simp, rfl⟩
  | unknown escape limit =>
      simp only [Recvbufr.dataIncrement, hmode]
      exact ⟨.unknown (escape + added) limit, by simp, rfl⟩
  | chunk next total => exact absurd hmode (h next total)
  | complete =>
      refine ⟨.complete, by simp, ?_⟩
      simp only [Recvbufr.dataIncrement, hmode]
      rw [← hmode]

theorem Plain.read {self : RecvBuffer} (h : Plain self)
    (hclosed : self.serverSocket.ending = .closed) {socket : Socket} {data : Bytes}
    (hread : ReadOff self.serverSocket socket data.length)
    (hrest : data.length ≤ self.serverSocket.rest.length) (hdata : data ≠ []) :
    let after := (Recvbufr.dataIncrement
      (bufferAppend { self with serverSocket := socket } data) data.length).1
    Follows self after ∧ Plain after ∧ weight after < weight self := by
  have hplain : Plain (bufferAppend { self with serverSocket := socket } data) := h
  obtain ⟨mode, hmode, hafter⟩ := hplain.dataIncrement data.length
  have hpos := List.length_pos_iff.mpr hdata
  have hlen : (self.data ++ data).length = self.len + data.length := List.length_append
  intro after
  rw [show after = _ from hafter]
  refine ⟨.of_readOff hclosed hread hrest ?_ hlen.le, hmode, ?_⟩
  · exact (Nat.le_add_right _ _).trans_eq hlen.symm
  · apply weight_lt_of_readOff hread
    exact Or.inr ⟨hpos, List.ne_nil_of_length_pos (hpos.trans_le hrest)⟩

theorem Plain.append {self : RecvBuffer} (h : Plain self) {len : Nat} (hlen : 0 < len)
    (hclosed : self.serverSocket.ending = .closed) :
    ∃ r, run (appendTurn len) (len + 1) (self, 0) = .ok r ∧ Appended self r := by
  apply run_total
    (fun s => Follows self s.1 ∧ Plain s.1 ∧ (s.2 = 0 ∨ weight s.1 < weight self))
    (fun s => len - s.2)
  · rintro ⟨now, i⟩
      ⟨(hfollows : Follows self now), (hnow : Plain now), (hprogress : i = 0 ∨ weight now < weight self)⟩
    by_cases hi : i < len
    · have hpos : 0 < min (len - i) sbDataSize := by
        rw [sbDataSize]
        omega
      obtain ⟨socket, data, hrecv, hread, hrest, hbound, hnothing, -⟩ :=
        recv_takes_front (Or.inl hfollows.closed) (min (len - i) sbDataSize)
      simp only [appendTurn, hi, if_true, hrecv, ok_bind]
      cases data with
      | nil =>
          have hstep : Follows now { now with serverSocket := socket } :=
            .of_readOff hfollows.closed hread hrest le_rfl le_rfl
          refine ⟨_, rfl, h.appended (hfollows.trans hstep) hnow fun he => ?_⟩
          rcases hprogress with hzero | hless
          · simp [hzero] at he
          · exact hstep.weight_le.trans_lt hless
      | cons c data =>
          obtain ⟨hstep, hplain, hless⟩ := hnow.read hfollows.closed hread hrest (List.cons_ne_nil c data)
          have hpast := hless.trans_le hfollows.weight_le
          cases hincrement : Recvbufr.dataIncrement
              (bufferAppend { now with serverSocket := socket } (c :: data)) (c :: data).length with
          | mk after stop =>
              rw [hincrement] at hstep hplain hpast
              simp only [hincrement]
              cases stop with
              | true =>
                  exact ⟨.leave (after, none), rfl,
                    h.appended (hfollows.trans hstep) hplain fun _ => hpast⟩
              | false =>
                  refine ⟨.again (after, i + (c :: data).length), rfl,
                    ⟨hfollows.trans hstep, hplain, Or.inr hpast⟩, ?_⟩
                  show len - (i + (c :: data).length) < len - i
                  rw [List.length_cons]
                  omega
    · refine ⟨.leave (now, none), by simp [appendTurn, hi], h.appended hfollows hnow fun _ => ?_⟩
      rcases hprogress with hzero | hless
      · omega
      · exact hless
  · exact ⟨.refl hclosed, h, Or.inl rfl⟩
  · exact Nat.lt_succ_self _

theorem Appended.of_stored {self : RecvBuffer} {r : RecvBuffer × Option ErrorMessage}
    (h : Appended { self with buffer := some self.data } r) : Appended self r := by
  obtain ⟨hfollows, hcounted, hsuccess, herror⟩ := h
  exact ⟨⟨hfollows.closed, hfollows.arrivals, hfollows.grows, hfollows.size⟩, hcounted, hsuccess,
    herror⟩

theorem recvBufferAppend_plain {self : RecvBuffer} (h : Plain self)
    (hmode : self.length ≠ .complete) (len : Nat) :
    recvBufferAppend self len =
      run (appendTurn len) (len + 1) ({ self with buffer := some self.data }, 0) := by
  rw [recvBufferAppend]
  split
  · rename_i hcomplete
    exact absurd hcomplete hmode
  · split
    · rename_i next total hchunk
      exact absurd hchunk (h next total)
    · rfl

theorem recvBufferAppend_appended {self : RecvBuffer} {len : Nat} (hlen : 0 < len)
    (hclosed : self.serverSocket.ending = .closed) (hcounted : Counted self) :
    ∃ r, recvBufferAppend self len = .ok r ∧ Appended self r := by
  by_cases hplain : Plain self
  · by_cases hmode : self.length = .complete
    · exact ⟨_, recvBufferAppend_complete hmode len,
        hplain.appended (.refl hclosed) hplain (by simp)⟩
    · rw [recvBufferAppend_plain hplain hmode]
      have hplain' : Plain { self with buffer := some self.data } := hplain
      obtain ⟨r, hrun, happended⟩ := hplain'.append hlen hclosed
      exact ⟨r, hrun, happended.of_stored⟩
  · obtain ⟨next, total, hmode⟩ : ∃ next total, self.length = .chunk next total := by
      simpa [Plain] using hplain
    rw [recvBufferAppend_chunk hmode]
    obtain ⟨r, hrun, happended⟩ := @appended_chunk { self with buffer := some self.data } next total
      len hlen hclosed hmode (hcounted next total hmode)
    exact ⟨r, hrun, happended.of_stored⟩

end Appends

section Searches

/-- `recvBufferFindAndDitch`, its loops cut off after `fuel` turns. -/
def ditchWithin (fuel : RecvBuffer → Nat) (self : RecvBuffer) (token : Bytes) :
    Except Stop (RecvBuffer × Except ErrorMessage Nat) := do
  let (self, e) ← run (fillTurn token.length) (fuel self) self
  match e with
  | some e => .ok (self, .error e)
  | none => do
      let (self, found) ← run (ditchTurn token) (fuel self) (self, 0)
      match found with
      | .error e => .ok (self, .error e)
      | .ok (o, d) =>
          if 1 < o then .ok (recvBufferDitch self o, .ok (d + o)) else .ok (self, .ok d)

/-- `recvBufferFindAndFetch`, its loops cut off after `fuel` turns. -/
def fetchWithin (fuel : RecvBuffer → Nat) (self : RecvBuffer) (token : Bytes) (max : Nat) :
    Except Stop (RecvBuffer × Option ErrorMessage) :=
  if max < token.length then .ok (self, some .tokenBiggerThenBufferLimits)
  else do
    let (self, e) ← run (fillTurn token.length) (fuel self) self
    if e.isSome then .ok (self, e)
    else do
      let (self, e) ← if self.len ≤ token.length then recvBufferAppend self sbDataSize
        else .ok (self, none)
      if e.isSome then .ok (self, e)
      else run (fetchTurn token max) (fuel self) self

theorem ditchWithin_patience (self : RecvBuffer) (token : Bytes) :
    ditchWithin patience self token = recvBufferFindAndDitch self token := rfl

theorem fetchWithin_patience (self : RecvBuffer) (token : Bytes) (max : Nat) :
    fetchWithin patience self token max = recvBufferFindAndFetch self token max := rfl

/-- The search comes back after some number of turns. -/
def DitchReturns (self : RecvBuffer) (token : Bytes) : Prop :=
  ∃ fuel r, ditchWithin fuel self token = .ok r

def FetchReturns (self : RecvBuffer) (token : Bytes) (max : Nat) : Prop :=
  ∃ fuel r, fetchWithin fuel self token max = .ok r

end Searches

section Returning

/-- A buffer whose connection is closed and whose body does not break off. -/
structure Live (now : RecvBuffer) : Prop where
  closed : now.serverSocket.ending = .closed
  counted : Counted now
  moist : ¬ Dry now

theorem Live.append {self : RecvBuffer} (h : Live self) :
    ∃ self' e, recvBufferAppend self sbDataSize = .ok (self', e) ∧
      (e = none → Live self' ∧ weight self' < weight self ∧ self.len ≤ self'.len) := by
  obtain ⟨⟨self', e⟩, happend, hfollows, hcounted, hsuccess, -⟩ :=
    recvBufferAppend_appended (by decide : 0 < sbDataSize) h.closed h.counted
  refine ⟨self', e, happend, fun he => ?_⟩
  obtain ⟨hdry, hless⟩ := hsuccess he
  refine ⟨⟨hfollows.closed, hcounted, ?_⟩, hless.resolve_left h.moist, hfollows.grows⟩
  rw [hdry]
  exact h.moist

theorem Live.ditch {self : RecvBuffer} (h : Live self) (n : Nat) :
    Live (recvBufferDitch self n) := by
  constructor
  · rw [recvBufferDitch_serverSocket]
    exact h.closed
  · rw [Counted, recvBufferDitch_length]
    exact h.counted
  · rw [Dry, recvBufferDitch_length, recvBufferDitch_serverSocket]
    exact h.moist

theorem findFrom_ok {len : Nat} (token : Bytes) (i : Nat) (s : Bytes) (hlen : i + s.length = len) :
    ∃ found, findFrom len token i s = .ok found := by
  fun_induction findFrom len token i s with
  | case1 i c d rest hfirst hshort => exact ⟨_, rfl⟩
  | case2 i c d rest hfirst hfits hhere => exact ⟨_, rfl⟩
  | case3 i c d rest hfirst hfits hhere hbehind =>
      have hlong : token.length ≤ (c :: d :: rest).length := by omega
      exact absurd hbehind (Search.not_behind hlong hhere)
  | case4 i c d rest hfirst hfits hhere hbehind ih =>
      apply ih
      simp only [List.length_cons] at hlen ⊢
      omega
  | case5 i c d rest hfirst ih =>
      apply ih
      simp only [List.length_cons] at hlen ⊢
      omega
  | case6 s i hend => exact ⟨_, rfl⟩

theorem recvBufferFind_ok {self : RecvBuffer} (token : Bytes) (hlen : 0 < self.len) :
    ∃ found, recvBufferFind self 0 token = .ok found := by
  rw [recvBufferFind]
  split
  · exact ⟨none, rfl⟩
  · rw [if_neg hlen.ne', List.drop_zero]
    obtain ⟨found, hfind⟩ := findFrom_ok token 0 self.data (Nat.zero_add self.len)
    rw [hfind, ok_bind]
    exact ⟨_, rfl⟩

theorem weight_lt_patience (self : RecvBuffer) : weight self < patience self := by
  rw [weight, patience]
  omega

theorem Live.fill {self : RecvBuffer} (h : Live self) (len : Nat) :
    ∃ self' e, run (fillTurn len) (patience self) self = .ok (self', e) ∧
      (e = none → Live self' ∧ len ≤ self'.len) := by
  obtain ⟨⟨self', e⟩, hrun, hpost⟩ : ∃ r, run (fillTurn len) (patience self) self = .ok r ∧
      (r.2 = none → Live r.1 ∧ len ≤ r.1.len) := by
    apply run_total Live weight
    · intro now hlive
      by_cases hmore : now.buffer.isNone ∨ now.len < len
      · obtain ⟨now', e, happend, hsuccess⟩ := hlive.append
        simp only [fillTurn, hmore, if_true, happend, ok_bind]
        cases e with
        | some e => exact ⟨_, rfl, fun he => absurd he (by simp)⟩
        | none =>
            obtain ⟨hlive', hless, -⟩ := hsuccess rfl
            exact ⟨_, rfl, hlive', hless⟩
      · refine ⟨.leave (now, none), by simp only [fillTurn, hmore, if_false], fun _ => ⟨hlive, ?_⟩⟩
        exact Nat.not_lt.mp fun hless => hmore (Or.inr hless)
    · exact h
    · exact weight_lt_patience self
  exact ⟨self', e, hrun, hpost⟩

theorem Live.ditchLoop {self : RecvBuffer} (h : Live self) {token : Bytes} (htoken : token ≠ [])
    (hlen : token.length ≤ self.len) :
    ∃ r, run (ditchTurn token) (patience self) (self, 0) = .ok r := by
  have hpos := List.length_pos_iff.mpr htoken
  obtain ⟨r, hrun, -⟩ : ∃ r, run (ditchTurn token) (patience self) (self, 0) = .ok r ∧ True := by
    apply run_total (fun s => Live s.1 ∧ token.length ≤ s.1.len) (fun s => weight s.1)
    · rintro ⟨now, d⟩ ⟨hlive, hhere⟩
      obtain ⟨found, hfind⟩ := recvBufferFind_ok token (hpos.trans_le hhere)
      simp only [ditchTurn, hfind, ok_bind]
      cases found with
      | some o => exact ⟨_, rfl, trivial⟩
      | none =>
          obtain ⟨now', e, happend, hsuccess⟩ := hlive.append
          simp only [happend, ok_bind]
          cases e with
          | some e => exact ⟨_, rfl, trivial⟩
          | none =>
              obtain ⟨hlive', hless, hgrown⟩ := hsuccess rfl
              have hhere' := hhere.trans hgrown
              obtain ⟨found', hfind'⟩ := recvBufferFind_ok token (hpos.trans_le hhere')
              simp only [hfind', ok_bind]
              cases found' with
              | some o => exact ⟨_, rfl, trivial⟩
              | none =>
                  refine ⟨_, rfl, ⟨hlive'.ditch _, ?_⟩, ?_⟩
                  · rw [recvBufferDitch_len]
                    omega
                  · simpa only [weight, recvBufferDitch_serverSocket] using hless
    · exact ⟨h, hlen⟩
    · exact weight_lt_patience self
  exact ⟨r, hrun⟩

theorem Live.fetchLoop {self : RecvBuffer} (h : Live self) {token : Bytes} (hlen : 0 < self.len)
    (max : Nat) : ∃ r, run (fetchTurn token max) (patience self) self = .ok r := by
  obtain ⟨r, hrun, -⟩ : ∃ r, run (fetchTurn token max) (patience self) self = .ok r ∧ True := by
    apply run_total (fun now => Live now ∧ 0 < now.len) weight
    · rintro now ⟨hlive, hpos⟩
      obtain ⟨found, hfind⟩ := recvBufferFind_ok token hpos
      simp only [fetchTurn, hfind, ok_bind]
      cases found with
      | some o => exact ⟨_, rfl, trivial⟩
      | none =>
          obtain ⟨now', e, happend, hsuccess⟩ := hlive.append
          simp only [happend, ok_bind]
          cases e with
          | some e => exact ⟨_, rfl, trivial⟩
          | none =>
              obtain ⟨hlive', hless, hgrown⟩ := hsuccess rfl
              by_cases hbig : max < now'.len
              · exact ⟨.leave (now', some .exceededMaximumAllowedBufferSize),
                  by simp [hbig], trivial⟩
              · exact ⟨.again now', by simp [hbig], ⟨hlive', hpos.trans_le hgrown⟩, hless⟩
    · exact ⟨h, hlen⟩
    · exact weight_lt_patience self
  exact ⟨r, hrun⟩

/-- A search of a body that does not break off ends with the turns `patience` gives it. -/
theorem Live.findAndDitch {self : RecvBuffer} (h : Live self) {token : Bytes}
    (htoken : token ≠ []) : ∃ r, recvBufferFindAndDitch self token = .ok r := by
  obtain ⟨filled, e, hfill, hfilled⟩ := h.fill token.length
  rw [recvBufferFindAndDitch, hfill, ok_bind]
  cases e with
  | some e => exact ⟨_, rfl⟩
  | none =>
      obtain ⟨hlive, hlen⟩ := hfilled rfl
      obtain ⟨⟨found, result⟩, hrun⟩ := hlive.ditchLoop htoken hlen
      simp only [hrun, ok_bind]
      cases result with
      | error e => exact ⟨_, rfl⟩
      | ok found =>
          obtain ⟨o, d⟩ := found
          simp only
          split
          · exact ⟨_, rfl⟩
          · exact ⟨_, rfl⟩

theorem Live.findAndFetch {self : RecvBuffer} (h : Live self) {token : Bytes} (htoken : token ≠ [])
    (max : Nat) : ∃ r, recvBufferFindAndFetch self token max = .ok r := by
  have hpos := List.length_pos_iff.mpr htoken
  rw [recvBufferFindAndFetch]
  split
  · exact ⟨_, rfl⟩
  · obtain ⟨filled, e, hfill, hfilled⟩ := h.fill token.length
    rw [hfill, ok_bind]
    cases e with
    | some e => exact ⟨_, rfl⟩
    | none =>
        obtain ⟨hlive, hlen⟩ := hfilled rfl
        by_cases hexact : filled.len ≤ token.length
        · obtain ⟨more, e, happend, hsuccess⟩ := hlive.append
          simp only [hexact, if_true, happend, ok_bind]
          cases e with
          | some e => exact ⟨_, rfl⟩
          | none =>
              obtain ⟨hlive', -, hgrown⟩ := hsuccess rfl
              exact hlive'.fetchLoop (hpos.trans_le (hlen.trans hgrown)) max
        · simp only [hexact, if_false, ok_bind]
          exact hlive.fetchLoop (hpos.trans_le hlen) max

end Returning

section Hanging

/-- A buffer in a body that breaks off, everything the remote sent being there, with
fewer bytes than a token of length `n` has. -/
structure Stuck (n : Nat) (now : RecvBuffer) : Prop where
  closed : now.serverSocket.ending = .closed
  arrivals : now.serverSocket.arrivals = []
  counted : Counted now
  dry : Dry now
  few : now.len + now.serverSocket.rest.length < n

theorem Stuck.append {n : Nat} {self : RecvBuffer} (h : Stuck n self) :
    ∃ self', recvBufferAppend self sbDataSize = .ok (self', none) ∧ Stuck n self' := by
  obtain ⟨⟨self', e⟩, happend, hfollows, hcounted, hsuccess, herror⟩ :=
    recvBufferAppend_appended (by decide : 0 < sbDataSize) h.closed h.counted
  cases e with
  | some e => exact absurd h.dry (herror (by simp) h.arrivals)
  | none =>
      refine ⟨self', happend, hfollows.closed, ?_, hcounted, (hsuccess rfl).1.mpr h.dry,
        hfollows.size.trans_lt h.few⟩
      have hle := hfollows.arrivals
      rw [h.arrivals] at hle
      exact List.eq_nil_of_length_eq_zero (Nat.le_zero.mp hle)

theorem Stuck.fill {n : Nat} {self : RecvBuffer} (h : Stuck n self) (fuel : Nat) :
    run (fillTurn n) fuel self = .error .endless := by
  apply run_endless (Stuck n)
  · intro now hnow
    obtain ⟨now', happend, hnow'⟩ := hnow.append
    refine ⟨now', ?_, hnow'⟩
    have hfew : now.len < n := (Nat.le_add_right _ _).trans_lt hnow.few
    rw [fillTurn, if_pos (Or.inr hfew), happend]
    rfl
  · exact h

theorem Stuck.not_ditchReturns {self : RecvBuffer} {token : Bytes} (h : Stuck token.length self) :
    ¬ DitchReturns self token := by
  rintro ⟨fuel, r, hreturn⟩
  rw [ditchWithin, h.fill] at hreturn
  contradiction

theorem Stuck.not_fetchReturns {self : RecvBuffer} {token : Bytes} (h : Stuck token.length self)
    {max : Nat} (hmax : token.length ≤ max) : ¬ FetchReturns self token max := by
  rintro ⟨fuel, r, hreturn⟩
  rw [fetchWithin, if_neg (Nat.not_lt.mpr hmax), h.fill] at hreturn
  contradiction

end Hanging

section Ends

/-- Whatever way the bytes of a stream arrive that the remote then closes, a search
for any token comes back. -/
def Ends (returns : RecvBuffer → Bytes → Prop) (buffer : Option Bytes) (length : RecvBufferLength)
    (stream : Bytes) : Prop :=
  ∀ socket : Socket, socket.ending = .closed → socket.rest = stream →
    ∀ token ≠ [], returns ⟨buffer, length, socket⟩ token

theorem live_of_not_breaksOff (buffer : Option Bytes) {length : RecvBufferLength} {socket : Socket}
    (hcounted : ∀ next total, length = .chunk next total → next < 2 ^ 64)
    (hclosed : socket.ending = .closed) (hstream : ¬ BreaksOff length socket.rest) :
    Live ⟨buffer, length, socket⟩ :=
  ⟨hclosed, hcounted, hstream⟩

theorem stuck_of_breaksOff {length : RecvBufferLength} {stream : Bytes} (buffer : Option Bytes)
    (hcounted : ∀ next total, length = .chunk next total → next < 2 ^ 64)
    (hstream : BreaksOff length stream) :
    ∃ token : Bytes, token ≠ [] ∧
      Stuck token.length ⟨buffer, length, ⟨stream, [], .closed⟩⟩ := by
  refine ⟨List.replicate ((buffer.getD []).length + stream.length + 1) 0, ?_, rfl, rfl, hcounted,
    ?_, ?_⟩
  · simp
  · show Dry ⟨buffer, length, ⟨stream, [], .closed⟩⟩
    obtain ⟨next, total, hmode, hdries⟩ := hstream
    refine ⟨next, total, hmode, ?_⟩
    show Dries _ _ (stream ++ [])
    rwa [List.append_nil]
  · rw [List.length_replicate]
    show (buffer.getD []).length + (stream ++ []).length < _
    rw [List.append_nil]
    exact Nat.lt_succ_self _

/-- Every search of a response ends unless the response is a chunked body that breaks
off. -/
theorem searches_end_iff {buffer : Option Bytes} {length : RecvBufferLength} {stream : Bytes}
    (hcounted : ∀ next total, length = .chunk next total → next < 2 ^ 64) :
    (Ends DitchReturns buffer length stream ↔ ¬ BreaksOff length stream) ∧
    (Ends (fun self token => ∀ max, FetchReturns self token max) buffer length stream ↔
      ¬ BreaksOff length stream) := by
  constructor
  · constructor
    · intro hends hstream
      obtain ⟨token, htoken, hstuck⟩ := stuck_of_breaksOff buffer hcounted hstream
      exact hstuck.not_ditchReturns (hends _ rfl (List.append_nil _) token htoken)
    · rintro hstream socket hclosed rfl token htoken
      have hlive := live_of_not_breaksOff buffer hcounted hclosed hstream
      obtain ⟨r, hreturn⟩ := hlive.findAndDitch htoken
      exact ⟨patience, r, hreturn⟩
  · constructor
    · intro hends hstream
      obtain ⟨token, htoken, hstuck⟩ := stuck_of_breaksOff buffer hcounted hstream
      exact hstuck.not_fetchReturns le_rfl (hends _ rfl (List.append_nil _) token htoken _)
    · rintro hstream socket hclosed rfl token htoken max
      have hlive := live_of_not_breaksOff buffer hcounted hclosed hstream
      obtain ⟨r, hreturn⟩ := hlive.findAndFetch htoken max
      exact ⟨patience, r, hreturn⟩

theorem lastChunk_ends : Ends DitchReturns none (.chunk noChunk 0) lastChunk ∧
    Ends (fun self token => ∀ max, FetchReturns self token max) none (.chunk noChunk 0)
      lastChunk := by
  have hstream : ¬ BreaksOff (.chunk noChunk 0) lastChunk := by
    rintro ⟨next, total, hmode, hdries⟩
    obtain ⟨rfl, rfl⟩ : noChunk = next ∧ 0 = total := by simpa using hmode
    have hline : readSize noChunk (lastChunk.take 19) = some (.ok (0, 3)) := by decide +kernel
    exact Nat.lt_irrefl 0 ((dries_parse_line hline).mp hdries).1
  have hcounted : ∀ next total, RecvBufferLength.chunk noChunk 0 = .chunk next total →
      next < 2 ^ 64 := by
    intro next total hmode
    obtain ⟨rfl, -⟩ : noChunk = next ∧ 0 = total := by simpa using hmode
    decide
  exact ⟨(searches_end_iff hcounted).1.mpr hstream, (searches_end_iff hcounted).2.mpr hstream⟩

/-- A chunk of five bytes of which the remote sent two before it closed. -/
def truncated : RecvBuffer :=
  ⟨none, .chunk noChunk 0, ⟨text "5" ++ crlf ++ text "ab", [], .closed⟩⟩

theorem truncated_hangs :
    ¬ DitchReturns truncated (text "</table>") ∧
    ¬ FetchReturns truncated (text "</table>") 8192 := by
  have hstuck : Stuck (text "</table>").length truncated := by
    refine ⟨rfl, rfl, counted_of_chunk rfl (by decide), ⟨noChunk, 0, rfl, ?_⟩, by decide⟩
    have hline : readSize noChunk (truncated.serverSocket.rest.take 19) = some (.ok (5, 3)) := by
      decide +kernel
    exact .line hline (by decide) (.within (by decide))
  exact ⟨hstuck.not_ditchReturns, hstuck.not_fetchReturns (by decide)⟩

end Ends

end Newth.Client.SearchEnds
