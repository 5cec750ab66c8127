import Newth.Client.Search

namespace Newth.Client.ChunkTurns

open Newth.Library.ByteString
open Newth.Library.Call
open Newth.Library.Chunked
open Newth.Client.Recvbufr

section Sockets

/-- The remote has closed the connection, or there are bytes to come: a `recv` comes back. -/
def Comes (socket : Socket) : Prop := socket.ending = .closed ∨ socket.rest ≠ []

/-- A place in the bytes still to be read up to which they have arrived after some poll,
of which each `recv` makes one at least. -/
def Mark (socket : Socket) (p : Nat) : Prop :=
  ∃ m, (0 < m ∨ socket.arrivals = []) ∧
    p = socket.ready.length + (socket.arrivals.take m).flatten.length

/-- A connection after `n` bytes have been read off it: a poll is behind us unless none
was to come. -/
structure ReadOff (before after : Socket) (n : Nat) : Prop where
  ending : after.ending = before.ending
  rest : after.rest = before.rest.drop n
  arrivals : after.arrivals.length < before.arrivals.length ∨
    before.arrivals = [] ∧ after.arrivals = []
  marks : ∀ p, Mark after p → Mark before (n + p)

theorem ReadOff.arrivals_le {before after : Socket} {n : Nat} (h : ReadOff before after n) :
    after.arrivals.length ≤ before.arrivals.length := by
  rcases h.arrivals with hless | ⟨-, hnil⟩
  · exact hless.le
  · rw [hnil]
    exact Nat.zero_le _

theorem ReadOff.arrivals_nil {before after : Socket} {n : Nat} (h : ReadOff before after n)
    (hnil : before.arrivals = []) : after.arrivals = [] := by
  rcases h.arrivals with hless | ⟨-, hafter⟩
  · rw [hnil] at hless
    exact absurd hless (Nat.not_lt_zero _)
  · exact hafter

theorem ReadOff.trans {a b c : Socket} {m n : Nat} (hab : ReadOff a b m) (hbc : ReadOff b c n) :
    ReadOff a c (m + n) := by
  constructor
  · exact hbc.ending.trans hab.ending
  · rw [hbc.rest, hab.rest, List.drop_drop]
  · rcases hab.arrivals with hless | ⟨ha, hb⟩
    · exact Or.inl (hbc.arrivals_le.trans_lt hless)
    · have hle := hbc.arrivals_le
      rw [hb] at hle
      exact Or.inr ⟨ha, List.eq_nil_of_length_eq_zero (Nat.le_zero.mp hle)⟩
  · intro p hp
    rw [Nat.add_assoc]
    exact hab.marks _ (hbc.marks p hp)

theorem awaitByte_arrived (ready : Bytes) (arrivals : List Bytes) :
    ready <+: (awaitByte ready arrivals).1 ∧
    ((awaitByte ready arrivals).2.length < arrivals.length ∨
      arrivals = [] ∧ (awaitByte ready arrivals).2 = []) ∧
    ∀ m, ∃ k, (0 < k ∨ arrivals = []) ∧
      (awaitByte ready arrivals).1.length + ((awaitByte ready arrivals).2.take m).flatten.length =
        ready.length + (arrivals.take k).flatten.length := by
  induction arrivals generalizing ready with
  | nil => exact ⟨List.prefix_rfl, Or.inr ⟨rfl, rfl⟩, fun m => ⟨m, Or.inr rfl, rfl⟩⟩
  | cons arrival later ih =>
      rw [awaitByte]
      split
      · rename_i hnothing
        obtain ⟨rfl, rfl⟩ := List.append_eq_nil_iff.mp hnothing
        obtain ⟨-, hlater, hmarks⟩ := ih []
        refine ⟨List.nil_prefix, Or.inl ?_, fun m => ?_⟩
        · rcases hlater with hless | ⟨-, hnil⟩
          · exact hless.trans (Nat.lt_succ_self _)
          · rw [hnil]
            exact Nat.succ_pos _
        · obtain ⟨k, -, hk⟩ := hmarks m
          exact ⟨k + 1, Or.inl (Nat.succ_pos k), hk⟩
      · refine ⟨List.prefix_append _ _, Or.inl (Nat.lt_succ_self _), fun m => ?_⟩
        refine ⟨m + 1, Or.inl (Nat.succ_pos m), ?_⟩
        simp only [List.length_append, List.take_succ_cons, List.flatten_cons]
        omega

theorem recv_comes {self : Socket} (hcomes : Comes self) (n : Nat) (peek : Bool) :
    ∃ ready later, self.ready <+: ready ∧ ready ++ later.flatten = self.rest ∧
      (ready = [] → self.rest = []) ∧
      (later.length < self.arrivals.length ∨ self.arrivals = [] ∧ later = []) ∧
      (∀ m, Mark self (ready.length + (later.take m).flatten.length)) ∧
      recv self n peek =
        .ok (⟨if peek then ready else ready.drop n, later, self.ending⟩, some (ready.take n)) := by
  obtain ⟨hflat, hnil⟩ := awaitByte_spec self.ready self.arrivals
  obtain ⟨hfront, hlater, hmarks⟩ := awaitByte_arrived self.ready self.arrivals
  cases hawait : awaitByte self.ready self.arrivals with
  | mk ready later =>
      rw [hawait] at hflat hnil hfront hlater hmarks
      refine ⟨ready, later, hfront, hflat, hnil, hlater, hmarks, ?_⟩
      cases ready with
      | nil =>
          have hclosed : self.ending = .closed := hcomes.resolve_right (not_not.mpr (hnil rfl))
          simp only [recv, hawait, hclosed, List.drop_nil, List.take_nil, ite_self]
      | cons c ready => simp only [recv, hawait]

theorem recv_takes_front {self : Socket} (hcomes : Comes self) (n : Nat) :
    ∃ socket data, recv self n false = .ok (socket, some data) ∧
      ReadOff self socket data.length ∧ data.length ≤ self.rest.length ∧ data.length ≤ n ∧
      (0 < n → data = [] → self.rest = []) ∧
      (n ≤ self.ready.length → data.length = n) := by
  obtain ⟨ready, later, hfront, hflat, hnil, hlater, hmarks, hrecv⟩ := recv_comes hcomes n false
  have hle := hfront.length_le
  have hdrop : ready.drop n = ready.drop (ready.take n).length := by
    rw [List.length_take]
    rcases Nat.le_total n ready.length with h | h
    · rw [Nat.min_eq_left h]
    · rw [Nat.min_eq_right h, List.drop_eq_nil_of_le h, List.drop_length]
  refine ⟨⟨ready.drop n, later, self.ending⟩, ready.take n, hrecv,
    ⟨rfl, ?_, hlater, fun p hp => ?_⟩, ?_, ?_, ?_, ?_⟩
  · show ready.drop n ++ later.flatten = self.rest.drop (ready.take n).length
    rw [← hflat, List.drop_append_of_le_length (List.length_take_le' _ _), hdrop]
  · obtain ⟨m, -, rfl⟩ := hp
    have hmark := hmarks m
    have hready : (ready.take n).length + (ready.drop n).length = ready.length := by
      rw [← List.length_append, List.take_append_drop]
    rwa [← hready, Nat.add_assoc] at hmark
  · rw [← hflat, List.length_take, List.length_append]
    omega
  · rw [List.length_take]
    exact Nat.min_le_left _ _
  · intro hn hempty
    exact hnil ((List.take_eq_nil_iff.mp hempty).resolve_left hn.ne')
  · intro hready
    rw [List.length_take]
    omega

/-- What peeking at `n` bytes shows, and that it can be read afterwards. -/
structure Peeked (before : Socket) (n : Nat) (peeked : Socket) (window : Bytes) : Prop where
  front : ∃ p, Mark before p ∧ window = before.rest.take (min n p)
  nothing : 0 < n → window = [] → before.rest = []
  whole : before.arrivals = [] → window = before.rest.take n
  after : ReadOff before peeked 0
  take : ∀ k ≤ window.length,
    ∃ socket data, recv peeked k false = .ok (socket, some data) ∧ ReadOff before socket k

theorem Peeked.isPrefix {before peeked : Socket} {n : Nat} {window : Bytes}
    (h : Peeked before n peeked window) : window <+: before.rest.take n := by
  obtain ⟨p, -, rfl⟩ := h.front
  exact List.take_prefix_take_left (Nat.min_le_left n p)

theorem recv_peeks {self : Socket} (hcomes : Comes self) (n : Nat) :
    ∃ peeked window, recv self n true = .ok (peeked, some window) ∧
      Peeked self n peeked window := by
  obtain ⟨ready, later, -, hflat, hnil, hlater, hmarks, hrecv⟩ := recv_comes hcomes n true
  refine ⟨⟨ready, later, self.ending⟩, ready.take n, hrecv, ?_⟩
  have hafter : ReadOff self ⟨ready, later, self.ending⟩ 0 :=
    ⟨rfl, hflat, hlater, by
      rintro p ⟨m, -, rfl⟩
      rw [Nat.zero_add]
      exact hmarks m⟩
  constructor
  · refine ⟨ready.length, by simpa using hmarks 0, ?_⟩
    rw [← hflat, List.take_append_of_le_length (Nat.min_le_right _ _)]
    rcases Nat.le_total n ready.length with h | h
    · rw [Nat.min_eq_left h]
    · rw [Nat.min_eq_right h, List.take_length, List.take_of_length_le h]
  · intro hn hempty
    exact hnil ((List.take_eq_nil_iff.mp hempty).resolve_left hn.ne')
  · intro harrivals
    rcases hlater with hless | ⟨-, hnone⟩
    · rw [harrivals] at hless
      exact absurd hless (Nat.not_lt_zero _)
    · rw [← hflat, hnone, List.flatten_nil, List.append_nil]
  · exact hafter
  · intro k hk
    have hready : k ≤ ready.length := hk.trans (List.length_take_le' _ _)
    have hcomes' : Comes ⟨ready, later, self.ending⟩ := by
      rw [Comes, hafter.rest]
      exact hcomes
    obtain ⟨socket, data, htake, hread, -, -, -, hfull⟩ := recv_takes_front hcomes' k
    rw [hfull hready] at hread
    exact ⟨socket, data, htake, by simpa using hafter.trans hread⟩

end Sockets

section SizeLines

/-- The bytes that have to be there before a size line is looked for. -/
def shortest (next : Nat) : Nat := if next = noChunk then 3 else 5

/-- What the size line in the window says: nothing as long as it is too short, an
error, or the size of the chunk and where its data begins. -/
def readSize (next : Nat) (window : Bytes) : Option (Except ErrorMessage (Nat × Nat)) :=
  if window.length < shortest next then none
  else some (match chunkSizeLine (next = noChunk) (cString window) with
    | none => .error .malformedChunkEncoding
    | some (hex, j) => (ioHttpBodyChunkHexToSize hex).map fun l => (l, j))

theorem cString_mono {s t : Bytes} (h : s <+: t) : cString s <+: cString t := by
  obtain ⟨rest, rfl⟩ := h
  rw [cString, cString, List.takeWhile_append]
  split
  · rename_i hall
    rw [(List.takeWhile_prefix _).eq_of_length hall]
    exact List.prefix_append _ _
  · exact List.prefix_rfl

theorem line_extend {s t : Bytes} (hpre : s <+: t) {i : Nat} (h : strstr s crlf = some i) :
    strstr t crlf = some i ∧ t.take i = s.take i ∧ i + 2 ≤ s.length := by
  obtain ⟨pre, post, hs, hi⟩ := eq_append_of_strstr h
  have hend : i + 2 ≤ s.length := by
    rw [hs, ← hi, List.length_append, List.length_append]
    exact Nat.le_add_right _ _
  obtain ⟨rest, rfl⟩ := hpre
  refine ⟨strstr_extend (List.prefix_append _ _) h, ?_, hend⟩
  exact List.take_append_of_le_length (by omega)

theorem chunkSizeLine_extend {first : Bool} {s t : Bytes} (hpre : s <+: t) {hex : Bytes}
    {j : Nat} (h : chunkSizeLine first s = some (hex, j)) :
    chunkSizeLine first t = some (hex, j) ∧ 2 ≤ j ∧ j ≤ s.length := by
  cases first with
  | true =>
      simp only [chunkSizeLine, if_true, Option.map_eq_some_iff, Prod.mk.injEq] at h ⊢
      obtain ⟨finish, hfinish, rfl, rfl⟩ := h
      obtain ⟨hfinish', htake, hend⟩ := line_extend hpre hfinish
      exact ⟨⟨finish, hfinish', htake, rfl⟩, Nat.le_add_left _ _, hend⟩
  | false =>
      simp only [chunkSizeLine, Bool.false_eq_true, if_false, Option.bind_eq_bind,
        Option.bind_eq_some_iff, Option.some.injEq, Prod.mk.injEq] at h ⊢
      obtain ⟨start, hstart, finish, hfinish, rfl, rfl⟩ := h
      obtain ⟨hstart', -, -⟩ := line_extend hpre hstart
      obtain ⟨hfinish', htake, hend⟩ := line_extend (hpre.drop (start + 2)) hfinish
      rw [List.length_drop] at hend
      refine ⟨⟨start, hstart', finish, hfinish', htake, rfl⟩, ?_, ?_⟩
      · omega
      · omega

theorem foldl_mod_lt (f : Nat → UInt8 → Nat) (m : Nat) (hf : ∀ v c, f v c < m) (s : Bytes)
    {v : Nat} (hv : v < m) : s.foldl f v < m := by
  induction s generalizing v with
  | nil => exact hv
  | cons c s ih => exact ih (hf v c)

theorem ioHttpBodyChunkHexToSize_lt {hex : Bytes} {l : Nat}
    (h : ioHttpBodyChunkHexToSize hex = .ok l) : l < 2 ^ 64 := by
  rw [ioHttpBodyChunkHexToSize] at h
  split at h
  · obtain rfl := Except.ok.inj h
    exact foldl_mod_lt _ _ (fun _ _ => Nat.mod_lt _ (by decide)) hex (by decide)
  · contradiction

theorem readSize_eq_ok_iff {next : Nat} {window : Bytes} {l j : Nat} :
    readSize next window = some (.ok (l, j)) ↔ shortest next ≤ window.length ∧
      ∃ hex, chunkSizeLine (next = noChunk) (cString window) = some (hex, j) ∧
        ioHttpBodyChunkHexToSize hex = .ok l := by
  rw [readSize]
  by_cases hshort : window.length < shortest next
  · rw [if_pos hshort]
    constructor
    · intro h
      contradiction
    · rintro ⟨henough, -⟩
      exact absurd hshort (Nat.not_lt.mpr henough)
  · rw [if_neg hshort, Option.some.injEq]
    cases hline : chunkSizeLine (next = noChunk) (cString window) with
    | none => simp
    | some line =>
        obtain ⟨hex, j'⟩ := line
        simp only [map_eq_ok_iff, Prod.mk.injEq, Option.some.injEq]
        constructor
        · rintro ⟨l', hsize, rfl, rfl⟩
          exact ⟨Nat.not_lt.mp hshort, hex, ⟨rfl, rfl⟩, hsize⟩
        · rintro ⟨-, hex', ⟨rfl, rfl⟩, hsize⟩
          exact ⟨l, hsize, rfl, rfl⟩

theorem readSize_extend {next : Nat} {window window' : Bytes} (hpre : window <+: window')
    {l j : Nat} (h : readSize next window = some (.ok (l, j))) :
    readSize next window' = some (.ok (l, j)) ∧ 0 < j ∧ j ≤ window.length ∧ l < 2 ^ 64 := by
  obtain ⟨henough, hex, hline, hsize⟩ := readSize_eq_ok_iff.mp h
  obtain ⟨hline', hj, hend⟩ := chunkSizeLine_extend (cString_mono hpre) hline
  have hwithin : (cString window).length ≤ window.length := (List.takeWhile_prefix _).length_le
  refine ⟨?_, by omega, hend.trans hwithin, ioHttpBodyChunkHexToSize_lt hsize⟩
  exact readSize_eq_ok_iff.mpr ⟨henough.trans hpre.length_le, hex, hline', hsize⟩

end SizeLines

section Turns

theorem recvBufferAppend_chunk {self : RecvBuffer} {next total : Nat}
    (hmode : self.length = .chunk next total) (len : Nat) :
    recvBufferAppend self len =
      recvBufferAppendChunk { self with buffer := some self.data } next total len := by
  rw [recvBufferAppend, hmode]

/-- Where `recvBufferAppendChunk` goes on when it is called again. -/
def labelOf (next : Nat) : ChunkLabel := if next = noChunk then .parse else .iterate

/-- Copying a piece of a chunk takes bytes off the request, and so does a size line
with the piece behind it. -/
def turnsLeft : RecvBuffer × Nat × Nat × Nat × ChunkLabel → Nat
  | (_, 0, _, len, .iterate) => 3 * len + 2
  | (_, _ + 1, _, len, .iterate) => 3 * len
  | (_, _, _, len, .parse) => 3 * len + 1

theorem turnsLeft_lt (self : RecvBuffer) (next total len : Nat) (label : ChunkLabel) :
    turnsLeft (self, next, total, len, label) < 3 * len + 3 := by
  cases label with
  | parse =>
      rw [turnsLeft]
      omega
  | iterate =>
      cases next with
      | zero =>
          rw [turnsLeft]
          omega
      | succ next =>
          rw [turnsLeft]
          omega

theorem turnsLeft_copy {self self' : RecvBuffer} {next next' total total' len n : Nat}
    (hnext : 0 < next) (hn : 0 < n) (hlen : n ≤ len) :
    turnsLeft (self', next', total', len - n, .iterate) <
      turnsLeft (self, next, total, len, .iterate) := by
  obtain ⟨next, rfl⟩ := Nat.exists_eq_succ_of_ne_zero hnext.ne'
  have hless := turnsLeft_lt self' next' total' (len - n) .iterate
  have hsame : turnsLeft (self, next + 1, total, len, .iterate) = 3 * len := rfl
  rw [hsame]
  omega

theorem turnsLeft_line {self self' : RecvBuffer} {next next' total total' len : Nat}
    (hnext : 0 < next') :
    turnsLeft (self', next', total', len, .iterate) <
      turnsLeft (self, next, total, len, .parse) := by
  obtain ⟨next', rfl⟩ := Nat.exists_eq_succ_of_ne_zero hnext.ne'
  rw [turnsLeft, turnsLeft]
  exact Nat.lt_succ_self _

theorem turnsLeft_parse {self self' : RecvBuffer} {next' total total' len : Nat} :
    turnsLeft (self', next', total', len, .parse) <
      turnsLeft (self, 0, total, len, .iterate) := by
  rw [turnsLeft, turnsLeft]
  exact Nat.lt_succ_self _

theorem iterate_turn {self : RecvBuffer} {next len : Nat} (total : Nat)
    (hcomes : Comes self.serverSocket) (hlen : 0 < len) (hnext : 0 < next) :
    ∃ self' n, n ≤ next ∧ n ≤ len ∧ n ≤ self.serverSocket.rest.length ∧
      (n = 0 → self.serverSocket.rest = []) ∧
      (self.serverSocket.arrivals = [] →
        n = min (min (min next len) sbDataSize) self.serverSocket.rest.length) ∧
      ReadOff self.serverSocket self'.serverSocket n ∧
      self'.data = self.data ++ self.serverSocket.rest.take n ∧
      self'.length = .chunk (next - n) total ∧
      appendChunkTurn (self, next, total, len, .iterate) =
        .ok (if n < min (min next len) sbDataSize then .leave (self', none)
          else .again (self', next - n, total, len - n, .iterate)) := by
  obtain ⟨peeked, window, hpeek, hpeeked⟩ := recv_peeks hcomes (min (min next len) sbDataSize)
  obtain ⟨socket, data, htake, hread⟩ := hpeeked.take window.length le_rfl
  have hfront := hpeeked.isPrefix.length_le
  rw [List.length_take] at hfront
  have hwindow : window = self.serverSocket.rest.take window.length := by
    obtain ⟨p, -, hwindow⟩ := hpeeked.front
    rw [hwindow, List.length_take, List.take_eq_take_min]
  have hpos : 0 < min (min next len) sbDataSize := by
    rw [sbDataSize]
    omega
  refine ⟨⟨some (self.data ++ window), .chunk (next - window.length) total, socket⟩,
    window.length, by omega, by omega, by omega, ?_, ?_, hread, ?_, rfl, ?_⟩
  · intro hnone
    exact hpeeked.nothing hpos (List.eq_nil_of_length_eq_zero hnone)
  · intro harrivals
    rw [hpeeked.whole harrivals, List.length_take]
  · rw [← hwindow]
    rfl
  · simp only [appendChunkTurn, hlen, hnext, and_self, if_true, hpeek, ok_bind, htake,
      Option.isNone_some, Bool.false_eq_true, if_false]
    split
    · rfl
    · rfl

theorem parse_turn {self : RecvBuffer} (next total len : Nat)
    (hcomes : Comes self.serverSocket) :
    ∃ peeked window, Peeked self.serverSocket 19 peeked window ∧
      match readSize next window with
      | none => appendChunkTurn (self, next, total, len, .parse) =
          .ok (.leave ({ self with serverSocket := peeked }, none))
      | some (.error e) => appendChunkTurn (self, next, total, len, .parse) =
          .ok (.leave ({ self with serverSocket := peeked }, some e))
      | some (.ok (l, j)) => ∃ socket, ReadOff self.serverSocket socket j ∧
          appendChunkTurn (self, next, total, len, .parse) =
            .ok (if 0 < l then
                .again (⟨self.buffer, .chunk l total, socket⟩, l, total, len, .iterate)
              else .leave (⟨self.buffer, .complete, socket⟩, none)) := by
  obtain ⟨peeked, window, hpeek, hpeeked⟩ := recv_peeks hcomes 19
  refine ⟨peeked, window, hpeeked, ?_⟩
  by_cases hshort : window.length < shortest next
  · simp only [readSize, hshort, if_true]
    rw [shortest] at hshort
    simp only [appendChunkTurn, hpeek, ok_bind, hshort, if_true]
  · cases hline : chunkSizeLine (next = noChunk) (cString window) with
    | none =>
        simp only [readSize, hshort, if_false, hline]
        rw [shortest] at hshort
        simp only [appendChunkTurn, hpeek, ok_bind, hshort, if_false, hline]
    | some line =>
        obtain ⟨hex, j⟩ := line
        cases hsize : ioHttpBodyChunkHexToSize hex with
        | error e =>
            simp only [readSize, hshort, if_false, hline, hsize, Except.map]
            rw [shortest] at hshort
            simp only [appendChunkTurn, hpeek, ok_bind, hshort, if_false, hline, hsize]
        | ok l =>
            have hread : readSize next window = some (.ok (l, j)) :=
              readSize_eq_ok_iff.mpr ⟨Nat.not_lt.mp hshort, hex, hline, hsize⟩
            obtain ⟨-, -, hj, -⟩ := readSize_extend List.prefix_rfl hread
            obtain ⟨socket, data, htake, hoff⟩ := hpeeked.take j hj
            rw [hread]
            refine ⟨socket, hoff, ?_⟩
            rw [shortest] at hshort
            simp only [appendChunkTurn, hpeek, ok_bind, hshort, if_false, hline, hsize, htake,
              Option.isNone_some, Bool.false_eq_true]
            split
            · rfl
            · rfl

end Turns

end Newth.Client.ChunkTurns
