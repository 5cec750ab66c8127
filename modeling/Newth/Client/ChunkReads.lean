import Newth.Client.ChunkedBody

namespace Newth.Client.ChunkReads

open Newth.Library.ByteString
open Newth.Library.Call
open Newth.Library.Chunked
open Newth.Library.Runs
open Newth.Client.Recvbufr
open Newth.Client.ChunkTurns
open Newth.Client.ChunkedBody

section Sockets

theorem recv_gone {socket : Socket} (hgone : ¬ Comes socket) (n : Nat) (peek : Bool)
    {socket' : Socket} {data : Option Bytes} (hrecv : recv socket n peek = .ok (socket', data)) :
    data = none ∧ socket'.rest = socket.rest := by
  rw [Comes, not_or, not_not] at hgone
  obtain ⟨hending, hrest⟩ := hgone
  obtain ⟨hflat, -⟩ := awaitByte_spec socket.ready socket.arrivals
  rw [← Socket.rest, hrest] at hflat
  obtain ⟨hready, hlater⟩ := List.append_eq_nil_iff.mp hflat
  cases hawait : awaitByte socket.ready socket.arrivals with
  | mk ready later =>
      rw [hawait] at hready hlater
      obtain rfl : ready = [] := hready
      simp only [recv, hawait] at hrecv
      cases hend : socket.ending with
      | idle => simp [hend] at hrecv
      | closed => exact absurd hend hending
      | failed =>
          simp only [hend, Except.ok.injEq, Prod.mk.injEq] at hrecv
          obtain ⟨rfl, rfl⟩ := hrecv
          exact ⟨rfl, hlater.trans hrest.symm⟩

end Sockets

section Places

/-- Where the decoder can stand in a stream: the bytes of the chunk that are left, how far it has
read, and the data it has handed out. -/
inductive Reads (stream : Bytes) : Nat → Nat → Bytes → Prop where
  | start : Reads stream noChunk 0 []
  | line {next place l j : Nat} {data : Bytes} (h : Reads stream next place data)
      (hplace : next = 0 ∨ place = 0)
      (hline : readSize next ((stream.drop place).take 19) = some (.ok (l, j))) (hpos : 0 < l) :
      Reads stream l (place + j) data
  | copy {next place n : Nat} {data : Bytes} (h : Reads stream next place data)
      (hplace : 0 < place) (hn : n ≤ next) :
      Reads stream (next - n) (place + n) (data ++ (stream.drop place).take n)

/-- The decoder has read the last line. -/
def ReadsLast (stream : Bytes) (place : Nat) (data : Bytes) : Prop :=
  ∃ next before j, Reads stream next before data ∧ (next = 0 ∨ before = 0) ∧
    readSize next ((stream.drop before).take 19) = some (.ok (0, j)) ∧ place = before + j

/-- No size line that is read says the number which stands for no chunk at all. -/
def Counted (stream : Bytes) : Prop :=
  ∀ next place data l j, Reads stream next place data → (next = 0 ∨ place = 0) →
    readSize next ((stream.drop place).take 19) = some (.ok (l, j)) → l < noChunk

variable {stream : Bytes}

theorem Reads.of_place {next place : Nat} {data : Bytes} (hcounted : Counted stream)
    (h : Reads stream next place data) :
    (place = 0 → next = noChunk ∧ data = []) ∧ (0 < place → next < noChunk) := by
  induction h with
  | start => exact ⟨fun _ => ⟨rfl, rfl⟩, fun h => absurd h (lt_irrefl 0)⟩
  | @line next place l j data h hplace hline hpos ih =>
      obtain ⟨-, hj, -, -⟩ := readSize_extend List.prefix_rfl hline
      exact ⟨fun hnone => by omega, fun _ => hcounted _ _ _ _ _ h hplace hline⟩
  | @copy next place n data h hplace hn ih =>
      exact ⟨fun hnone => by omega, fun _ => (Nat.sub_le _ _).trans_lt (ih.2 hplace)⟩

/-- The decoder has read up to a place it can stand at, or the whole of a body. -/
def Stands (stream : Bytes) (now : RecvBuffer) : Prop :=
  ∃ place ≤ stream.length, now.serverSocket.rest = stream.drop place ∧
    ((∃ next total, now.length = .chunk next total ∧ Reads stream next place now.data) ∨
      now.length = .complete ∧ ReadsLast stream place now.data)

/-- Where `recvBufferAppendChunk` stands between two turns. -/
def StandsAt (stream : Bytes) : RecvBuffer × Nat × Nat × Nat × ChunkLabel → Prop
  | (now, next, total, _, label) => now.length = .chunk next total ∧
      ∃ place ≤ stream.length, now.serverSocket.rest = stream.drop place ∧
        Reads stream next place now.data ∧
        (label = .parse → next = 0 ∨ place = 0) ∧ (label = .iterate → 0 < place)

/-- What a turn that comes back leaves. -/
def Keeps (stream : Bytes) :
    Turn (RecvBuffer × Nat × Nat × Nat × ChunkLabel) (RecvBuffer × Option ErrorMessage) → Prop
  | .again s => StandsAt stream s
  | .leave r => Stands stream r.1

theorem iterate_keeps {now : RecvBuffer} {next total len : Nat}
    (h : StandsAt stream (now, next, total, len, .iterate)) {turn}
    (hturn : appendChunkTurn (now, next, total, len, .iterate) = .ok turn) : Keeps stream turn := by
  obtain ⟨hmode, place, hbound, hrest, hreads, -, hplace⟩ := h
  have hpos : 0 < place := hplace rfl
  by_cases hcopy : 0 < len ∧ 0 < next
  · by_cases hcomes : Comes now.serverSocket
    · obtain ⟨now', n, hn, -, hnrest, -, -, hread, hdata, hmode', hcopied⟩ :=
        iterate_turn total hcomes hcopy.1 hcopy.2
      rw [hcopied] at hturn
      rw [hrest, List.length_drop] at hnrest
      have hrest' : now'.serverSocket.rest = stream.drop (place + n) := by
        rw [hread.rest, hrest, List.drop_drop]
      have hreads' : Reads stream (next - n) (place + n) now'.data := by
        rw [hdata, hrest]
        exact hreads.copy hpos hn
      obtain rfl := Except.ok.inj hturn
      split
      · exact ⟨place + n, by omega, hrest', Or.inl ⟨_, _, hmode', hreads'⟩⟩
      · exact ⟨hmode', place + n, by omega, hrest', hreads', by simp, fun _ => by omega⟩
    · simp only [appendChunkTurn, hcopy, and_self, if_true, bind_eq_ok_iff] at hturn
      obtain ⟨⟨socket, data⟩, hrecv, hturn⟩ := hturn
      obtain ⟨rfl, hsame⟩ := recv_gone hcomes _ _ hrecv
      obtain rfl := Except.ok.inj hturn
      exact ⟨place, hbound, hsame.trans hrest, Or.inl ⟨_, _, hmode, hreads⟩⟩
  · rw [appendChunkTurn, if_neg hcopy] at hturn
    split at hturn
    · obtain rfl := Except.ok.inj hturn
      exact ⟨place, hbound, hrest, Or.inl ⟨_, _, hmode, hreads⟩⟩
    · obtain rfl := Except.ok.inj hturn
      exact ⟨hmode, place, hbound, hrest, hreads, fun _ => Or.inl (by omega), by simp⟩

theorem parse_keeps {now : RecvBuffer} {next total len : Nat}
    (h : StandsAt stream (now, next, total, len, .parse)) {turn}
    (hturn : appendChunkTurn (now, next, total, len, .parse) = .ok turn) : Keeps stream turn := by
  obtain ⟨hmode, place, hbound, hrest, hreads, hplace, -⟩ := h
  have hplace : next = 0 ∨ place = 0 := hplace rfl
  by_cases hcomes : Comes now.serverSocket
  · obtain ⟨peeked, window, hpeeked, hparsed⟩ := parse_turn next total len hcomes
    have hwaits : Stands stream { now with serverSocket := peeked } :=
      ⟨place, hbound, hpeeked.after.rest.trans hrest, Or.inl ⟨_, _, hmode, hreads⟩⟩
    cases hsize : readSize next window with
    | none =>
        rw [hsize] at hparsed
        obtain rfl := Except.ok.inj (hparsed.symm.trans hturn)
        exact hwaits
    | some size =>
        cases size with
        | error e =>
            rw [hsize] at hparsed
            obtain rfl := Except.ok.inj (hparsed.symm.trans hturn)
            exact hwaits
        | ok line =>
            obtain ⟨l, j⟩ := line
            rw [hsize] at hparsed
            obtain ⟨socket, hread, hparsed⟩ := hparsed
            obtain ⟨hline, hj, hend, -⟩ := readSize_extend hpeeked.isPrefix hsize
            have hwithin := hpeeked.isPrefix.length_le
            rw [hrest] at hline hwithin
            rw [List.length_take, List.length_drop] at hwithin
            have hrest' : socket.rest = stream.drop (place + j) := by
              rw [hread.rest, hrest, List.drop_drop]
            obtain rfl := Except.ok.inj (hparsed.symm.trans hturn)
            split
            · rename_i hpos
              exact ⟨rfl, place + j, by omega, hrest', hreads.line hplace hline hpos, by simp,
                fun _ => by omega⟩
            · rename_i hzero
              obtain rfl : l = 0 := by omega
              exact ⟨place + j, by omega, hrest',
                Or.inr ⟨rfl, next, place, j, hreads, hplace, hline, rfl⟩⟩
  · simp only [appendChunkTurn, bind_eq_ok_iff] at hturn
    obtain ⟨⟨socket, data⟩, hrecv, hturn⟩ := hturn
    obtain ⟨rfl, hsame⟩ := recv_gone hcomes _ _ hrecv
    obtain rfl := Except.ok.inj hturn
    exact ⟨place, hbound, hsame.trans hrest, Or.inl ⟨_, _, hmode, hreads⟩⟩

theorem StandsAt.keeps {s : RecvBuffer × Nat × Nat × Nat × ChunkLabel} (h : StandsAt stream s) {turn}
    (hturn : appendChunkTurn s = .ok turn) : Keeps stream turn := by
  obtain ⟨now, next, total, len, label⟩ := s
  cases label with
  | iterate => exact iterate_keeps h hturn
  | parse => exact parse_keeps h hturn

theorem Stands.append (hcounted : Counted stream) {now now' : RecvBuffer} {len : Nat}
    (h : Stands stream now) (happend : append now len = .ok now') : Stands stream now' := by
  rw [ChunkedBody.append, map_eq_ok_iff] at happend
  obtain ⟨r, hcall, rfl⟩ := happend
  rcases id h with ⟨place, hbound, hrest, ⟨next, total, hmode, hreads⟩ | ⟨hcomplete, -⟩⟩
  · rw [recvBufferAppend_chunk hmode] at hcall
    refine run_partial (StandsAt stream) (fun r => Stands stream r.1) ?_ ?_ ?_ hcall
    · intro s s' hs hagain
      exact hs.keeps hagain
    · intro s r hs hleave
      exact hs.keeps hleave
    · obtain ⟨hfirst, hlater⟩ := hreads.of_place hcounted
      refine ⟨hmode, place, hbound, hrest, hreads, fun hparse => ?_, fun hiterate => ?_⟩
      · right
        by_contra hpos
        rw [if_neg (hlater (Nat.pos_of_ne_zero hpos)).ne] at hparse
        contradiction
      · by_contra hzero
        rw [if_pos (hfirst (by omega)).1] at hiterate
        contradiction
  · rw [recvBufferAppend_complete hcomplete] at hcall
    obtain rfl := Except.ok.inj hcall
    exact h

/-- Whatever is asked for and however it arrives, the decoder stands at a place of its stream. -/
theorem run_stands {self start now : RecvBuffer} (hempty : self.data = [])
    (hcounted : Counted self.serverSocket.rest) (hstart : recvBufferSetLengthChunk self = .ok start)
    (hrun : Run append (fun _ _ => True) start now) : Stands self.serverSocket.rest now := by
  apply run_invariant (Stands self.serverSocket.rest) _ hrun
  · rw [recvBufferSetLengthChunk, if_neg (not_not.mpr hempty)] at hstart
    rw [← Except.ok.inj hstart]
    refine ⟨0, Nat.zero_le _, rfl, Or.inl ⟨noChunk, 0, rfl, ?_⟩⟩
    show Reads _ _ _ self.data
    rw [hempty]
    exact .start
  · intro s len t hs _ hstep
    exact hs.append hcounted hstep

end Places

end Newth.Client.ChunkReads
