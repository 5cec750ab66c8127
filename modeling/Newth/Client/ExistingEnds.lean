import Newth.Client.ExistingChunks

namespace Newth.Client.ExistingEnds

open Newth.Library.ByteString
open Newth.Library.Call
open Newth.Library.Chunked
open Newth.Client.Recvbufr
open Newth.Client.ChunkTurns
open Newth.Client.ChunkedBody
open Newth.Client.ExistingChunks

section Lines

/-- Where the next size line is looked for behind `total` bytes of data. -/
def linePlace (total : Nat) : Nat := if total = 0 then 0 else total + 2

/-- The array a size line is looked for in. -/
def lineArray (data : Bytes) (total : Nat) : Bytes :=
  hexArray ((data.drop (linePlace total)).take 19)

/-- The buffer without the size line that ends at `finish`. -/
def withoutLine (data : Bytes) (total finish : Nat) : Bytes :=
  data.take total ++ data.drop (total + finish + if total = 0 then 2 else 4)

/-- Along its size lines, and along what is pulled in from the connection to complete them, the
buffer leads to a line with a character that is no hexadecimal digit, or to a last byte right behind
the data of a chunk. -/
inductive Stalls : Bytes → Nat → Socket → Prop where
  | behind {data : Bytes} {total : Nat} {socket : Socket} (htotal : total ≠ 0)
      (hlen : data.length = total + 1) : Stalls data total socket
  | digits {data : Bytes} {total finish : Nat} {socket : Socket} (hplace : linePlace total ≤ data.length)
      (hmore : total < data.length)
      (hline : strstr (cString (lineArray data total)) crlf = some finish)
      (hhex : ((lineArray data total).take finish).all isValidHexCharacter = false) :
      Stalls data total socket
  | line {data : Bytes} {total finish size : Nat} {socket : Socket}
      (hplace : linePlace total ≤ data.length) (hmore : total < data.length)
      (hline : strstr (cString (lineArray data total)) crlf = some finish)
      (hsize : ioHttpBodyChunkHexToSize ((lineArray data total).take finish) = .ok size)
      (h : Stalls (withoutLine data total finish) ((total + size) % 2 ^ 64) socket) :
      Stalls data total socket
  | refill {data peeked : Bytes} {total p : Nat} {socket socket' socket'' : Socket}
      {read : Option Bytes} (hplace : linePlace total ≤ data.length) (hmore : total < data.length)
      (hline : strstr (cString (lineArray data total)) crlf = none)
      (hpeek : recv socket 19 true = .ok (socket', some peeked))
      (hfind : strstr (cString (overwrite (lineArray data total) peeked)) crlf = some p)
      (hread : recv socket' (p + 2) false = .ok (socket'', read))
      (h : Stalls (data ++ (overwrite (lineArray data total) peeked).take (p + 2)) total socket'') :
      Stalls data total socket

end Lines

section Turns

variable {data : Bytes} {mode : RecvBufferLength} {socket : Socket} {total : Nat}

theorem line_fetch (hmore : total < data.length) :
    recvBufferFetch ⟨some data, mode, socket⟩ (if total = 0 then 0 else total + 2) 20 =
      if data.length < linePlace total then .error .outOfBounds
      else .ok (.ok ((data.drop (linePlace total)).take 19)) := by
  have hdata : (⟨some data, mode, socket⟩ : RecvBuffer).data ≠ [] := by
    rintro hnil
    obtain rfl : data = [] := hnil
    exact absurd hmore (Nat.not_lt_zero _)
  rw [fetch_window hdata]
  rfl

theorem turn_behind (hmore : total < data.length) (hplace : data.length < linePlace total) :
    parseExistingTurn (⟨some data, mode, socket⟩, total) = .error .outOfBounds := by
  have hmore' : total < (⟨some data, mode, socket⟩ : RecvBuffer).len := hmore
  simp only [parseExistingTurn, hmore', if_true, line_fetch hmore, hplace, error_bind]

theorem turn_found (hmore : total < data.length) (hplace : linePlace total ≤ data.length)
    {finish : Nat} (hline : strstr (cString (lineArray data total)) crlf = some finish) :
    parseExistingTurn (⟨some data, mode, socket⟩, total) =
      (match ioHttpBodyChunkHexToSize ((lineArray data total).take finish) with
      | .ok size => .ok (.again (⟨some (withoutLine data total finish), mode, socket⟩,
          (total + size) % 2 ^ 64))
      | .error _ => .ok (.again (⟨some data, mode, socket⟩, total))) := by
  have hmore' : total < (⟨some data, mode, socket⟩ : RecvBuffer).len := hmore
  rw [lineArray, hexArray] at hline
  simp only [parseExistingTurn, hmore', if_true, line_fetch hmore, Nat.not_lt.mpr hplace, if_false,
    ok_bind, Except.toOption, Option.getD_some, hline]
  rfl

theorem turn_pulls (hmore : total < data.length) (hplace : linePlace total ≤ data.length)
    (hline : strstr (cString (lineArray data total)) crlf = none) {socket' : Socket} {peeked : Bytes}
    (hpeek : recv socket 19 true = .ok (socket', some peeked)) :
    parseExistingTurn (⟨some data, mode, socket⟩, total) =
      (match strstr (cString (overwrite (lineArray data total) peeked)) crlf with
      | none => .ok (.leave none)
      | some p => do
          let (socket'', _) ← recv socket' (p + 2) false
          .ok (.again (⟨some (data ++ (overwrite (lineArray data total) peeked).take (p + 2)), mode,
            socket''⟩, total))) := by
  have hmore' : total < (⟨some data, mode, socket⟩ : RecvBuffer).len := hmore
  rw [lineArray, hexArray] at hline
  simp only [parseExistingTurn, hmore', if_true, line_fetch hmore, Nat.not_lt.mpr hplace, if_false,
    ok_bind, Except.toOption, Option.getD_some, hline, hpeek]
  rfl

theorem turn_done (hdone : data.length ≤ total) :
    parseExistingTurn (⟨some data, mode, socket⟩, total) =
      .ok (.leave (some (⟨some data, mode, socket⟩, total))) := by
  have hdone' : ¬ total < (⟨some data, mode, socket⟩ : RecvBuffer).len := Nat.not_lt.mpr hdone
  simp only [parseExistingTurn, hdone', if_false]

theorem stalls_never_ends (h : Stalls data total socket) (fuel : Nat)
    (r : Option (RecvBuffer × Nat)) :
    run parseExistingTurn fuel (⟨some data, mode, socket⟩, total) ≠ .ok r := by
  induction h generalizing fuel with
  | @behind data total socket htotal hlen =>
      cases fuel with
      | zero => simp [run]
      | succ fuel =>
          have hplace : data.length < linePlace total := by
            rw [linePlace, if_neg htotal]
            omega
          rw [run_succ_error fuel (turn_behind (by omega) hplace)]
          simp
  | @digits data total finish socket hplace hmore hline hhex =>
      have hsame : parseExistingTurn (⟨some data, mode, socket⟩, total) =
          .ok (.again (⟨some data, mode, socket⟩, total)) := by
        rw [turn_found hmore hplace hline, ioHttpBodyChunkHexToSize, hhex]
        rfl
      rw [run_endless (· = (⟨some data, mode, socket⟩, total)) (by rintro s rfl; exact ⟨_, hsame, rfl⟩)
        rfl fuel]
      simp
  | @line data total finish size socket hplace hmore hline hsize h ih =>
      cases fuel with
      | zero => simp [run]
      | succ fuel =>
          have hturn := @turn_found data mode socket total hmore hplace finish hline
          rw [hsize] at hturn
          rw [run_succ_again fuel hturn]
          exact ih fuel
  | @refill data peeked total p socket socket' socket'' read hplace hmore hline hpeek hfind hread h ih =>
      cases fuel with
      | zero => simp [run]
      | succ fuel =>
          have hturn := @turn_pulls data mode socket total hmore hplace hline socket' peeked hpeek
          rw [hfind] at hturn
          simp only [hread, ok_bind] at hturn
          rw [run_succ_again fuel hturn]
          exact ih fuel

/-- A turn of a buffer that does not stall takes a line out of the buffer, pulls bytes in from the
connection, or comes out. -/
def Going (s : RecvBuffer × Nat) : Prop :=
  ∃ data, s.1.buffer = some data ∧ s.1.serverSocket.ending = .closed ∧
    ¬ Stalls data s.2 s.1.serverSocket

theorem cost_state (data : Bytes) (mode : RecvBufferLength) (socket : Socket) (total : Nat) :
    cost (⟨some data, mode, socket⟩, total) = 21 * socket.rest.length + data.length := rfl

theorem line_advances (hclosed : socket.ending = .closed) (hgood : ¬ Stalls data total socket)
    (hmore : total < data.length) (hplace : linePlace total ≤ data.length) {finish : Nat}
    (hline : strstr (cString (lineArray data total)) crlf = some finish) :
    ∃ turn, parseExistingTurn (⟨some data, mode, socket⟩, total) = .ok turn ∧
      Advances Going cost (fun _ => True) (⟨some data, mode, socket⟩, total) turn := by
  have hturn := @turn_found data mode socket total hmore hplace finish hline
  cases hsize : ioHttpBodyChunkHexToSize ((lineArray data total).take finish) with
  | error e =>
      refine absurd (Stalls.digits hplace hmore hline ?_) hgood
      rw [ioHttpBodyChunkHexToSize] at hsize
      split at hsize
      · contradiction
      · rename_i hhex
        exact (Bool.not_eq_true _).mp hhex
  | ok size =>
      rw [hsize] at hturn
      refine ⟨_, hturn, ⟨_, rfl, hclosed, fun h => hgood (.line hplace hmore hline hsize h)⟩, ?_⟩
      have hend : finish + 2 ≤ ((data.drop (linePlace total)).take 19).length := by
        rw [lineArray, cString_hexArray] at hline
        exact find_within hline
      rw [List.length_take, List.length_drop] at hend
      have hcut : (withoutLine data total finish).length < data.length := by
        rw [withoutLine, List.length_append, List.length_take, List.length_drop]
        rw [linePlace] at hend
        split at hend
        · rename_i hzero
          rw [if_pos hzero]
          omega
        · rename_i hsome
          rw [if_neg hsome]
          omega
      rw [cost_state, cost_state]
      omega

theorem pull_advances (hclosed : socket.ending = .closed) (hgood : ¬ Stalls data total socket)
    (hmore : total < data.length) (hplace : linePlace total ≤ data.length)
    (hline : strstr (cString (lineArray data total)) crlf = none) :
    ∃ turn, parseExistingTurn (⟨some data, mode, socket⟩, total) = .ok turn ∧
      Advances Going cost (fun _ => True) (⟨some data, mode, socket⟩, total) turn := by
  obtain ⟨socket', peeked, hpeek, hpeeked⟩ := recv_peeks (Or.inl hclosed) 19
  have hturn := @turn_pulls data mode socket total hmore hplace hline socket' peeked hpeek
  cases hfind : strstr (cString (overwrite (lineArray data total) peeked)) crlf with
  | none =>
      rw [hfind] at hturn
      exact ⟨_, hturn, trivial⟩
  | some p =>
      have hclosed' : socket'.ending = .closed := hpeeked.after.ending.trans hclosed
      obtain ⟨socket'', read, hread, hoff, hwithin, -, hnone, -⟩ :=
        recv_takes_front (Or.inl hclosed') (p + 2)
      rw [hfind] at hturn
      simp only [hread, ok_bind] at hturn
      refine ⟨_, hturn, ⟨_, rfl, hoff.ending.trans hclosed',
        fun h => hgood (.refill hplace hmore hline hpeek hfind hread h)⟩, ?_⟩
      -- without a byte peeked at there is no more of a line end than before
      have hpeeked_ne : peeked ≠ [] := by
        rintro rfl
        rw [overwrite, List.nil_append, List.length_nil, List.drop_zero, hline] at hfind
        contradiction
      have hrest : socket'.rest = socket.rest := hpeeked.after.rest
      have hpos : 0 < read.length := by
        rw [List.length_pos_iff]
        intro hnil
        have hgone := hpeeked.isPrefix
        rw [← hrest, hnone (by omega) hnil, List.take_nil, List.prefix_nil] at hgone
        exact hpeeked_ne hgone
      have harray : ((overwrite (lineArray data total) peeked).take (p + 2)).length ≤ 20 := by
        have hshort := hpeeked.isPrefix.length_le
        have hwhole : (lineArray data total).length = 20 := by
          rw [lineArray, hexArray_eq, List.length_append, List.length_replicate, List.length_take]
          omega
        rw [List.length_take] at hshort ⊢
        rw [overwrite, List.length_append, List.length_drop]
        omega
      rw [cost_state, cost_state, hoff.rest, List.length_drop, List.length_append, ← hrest]
      omega

theorem Going.advances {s : RecvBuffer × Nat} (h : Going s) :
    ∃ turn, parseExistingTurn s = .ok turn ∧ Advances Going cost (fun _ => True) s turn := by
  obtain ⟨⟨buffer, mode, socket⟩, total⟩ := s
  obtain ⟨data, hbuffer, hclosed, hgood⟩ := h
  obtain rfl : buffer = some data := hbuffer
  by_cases hmore : total < data.length
  · have hplace : linePlace total ≤ data.length := by
      by_contra hbehind
      rw [linePlace] at hbehind
      split at hbehind
      · exact hbehind (Nat.zero_le _)
      · rename_i htotal
        exact hgood (.behind htotal (by omega))
    cases hline : strstr (cString (lineArray data total)) crlf with
    | some finish => exact line_advances hclosed hgood hmore hplace hline
    | none => exact pull_advances hclosed hgood hmore hplace hline
  · exact ⟨_, turn_done (Nat.not_lt.mp hmore), trivial⟩

end Turns

section Ends

/-- The buffer is cleared and the connection closed. -/
def Aborted (self : RecvBuffer) : Prop :=
  self.buffer = none ∧ self.length = .unknown 0 0 ∧ self.serverSocket = ⟨[], [], .failed⟩

theorem not_stalls_nil (socket : Socket) : ¬ Stalls [] 0 socket := by
  intro h
  cases h with
  | behind htotal hlen => exact htotal rfl
  | digits hplace hmore hline hhex => exact lt_irrefl 0 hmore
  | line hplace hmore hline hsize h => exact lt_irrefl 0 hmore
  | refill hplace hmore hline hpeek hfind hread h => exact lt_irrefl 0 hmore

/-- Computing the chunks that are buffered already comes to an end, in chunk mode or with the
connection dropped, unless the buffer leads to a line it cannot get past. -/
theorem setLengthChunk_ends_iff {self : RecvBuffer} (hclosed : self.serverSocket.ending = .closed) :
    (∃ start, recvBufferSetLengthChunk self = .ok start ∧
      ((∃ next total, start.length = .chunk next total) ∨ Aborted start)) ↔
      ¬ Stalls self.data 0 self.serverSocket := by
  obtain ⟨buffer, mode, socket⟩ := self
  by_cases hdata : (⟨buffer, mode, socket⟩ : RecvBuffer).data = []
  · rw [hdata]
    refine iff_of_true ⟨_, if_neg (not_not.mpr hdata), Or.inl ⟨_, _, rfl⟩⟩ (not_stalls_nil _)
  · obtain ⟨data, rfl⟩ : ∃ data, buffer = some data := by
      cases buffer with
      | none => exact absurd rfl hdata
      | some data => exact ⟨data, rfl⟩
    rw [recvBufferSetLengthChunk, if_pos hdata, httpChunkParseExistingBuffer]
    constructor
    · rintro ⟨start, hstart, -⟩ hstalls
      obtain ⟨r, hrun, -⟩ := bind_eq_ok_iff.mp hstart
      exact stalls_never_ends hstalls _ r hrun
    · intro hgood
      obtain ⟨r, hrun, -⟩ := run_total Going cost (fun s hs => hs.advances)
        (s := (⟨some data, mode, socket⟩, 0)) ⟨data, rfl, hclosed, hgood⟩ (Nat.lt_succ_self _)
      have hcost : cost (⟨some data, mode, socket⟩, 0) + 1 = 21 * socket.rest.length +
          (⟨some data, mode, socket⟩ : RecvBuffer).len + 1 := rfl
      rw [← hcost, hrun, ok_bind]
      cases r with
      | none => exact ⟨_, rfl, Or.inr ⟨rfl, rfl, rfl⟩⟩
      | some s => exact ⟨_, rfl, Or.inl ⟨_, _, rfl⟩⟩

theorem oneChunk_not_stalls : ¬ Stalls (text "3\r\na") 0 ⟨text "bc\r\n0\r\n\r\n", [], .closed⟩ :=
  (@setLengthChunk_ends_iff
    ⟨some (text "3\r\na"), .unknown 0 0, ⟨text "bc\r\n0\r\n\r\n", [], .closed⟩⟩ rfl).mp
    ⟨_, rfl, Or.inl ⟨_, _, rfl⟩⟩

/-- A size line that is no number is looked at for ever, however long the loop runs. -/
theorem illegal_line_endless :
    recvBufferSetLengthChunk ⟨some (text "g\r\n"), .unknown 0 0, ⟨[], [], .closed⟩⟩ =
      .error .endless ∧
    ∀ fuel r, run parseExistingTurn fuel
      (⟨some (text "g\r\n"), .unknown 0 0, ⟨[], [], .closed⟩⟩, 0) ≠ .ok r := by
  refine ⟨rfl, fun fuel r => ?_⟩
  have hstalls : Stalls (text "g\r\n") 0 ⟨[], [], .closed⟩ :=
    @Stalls.digits _ _ 1 _ (by decide) (by decide) (by decide) (by decide)
  exact stalls_never_ends hstalls fuel r

end Ends

end Newth.Client.ExistingEnds
