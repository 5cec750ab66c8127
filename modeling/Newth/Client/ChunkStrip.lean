import Newth.Client.ChunkGrammar
import Newth.Library.FixedArray

namespace Newth.Client.ChunkStrip

open Newth.Library.ByteString
open Newth.Library.Call
open Newth.Library.Chunked
open Newth.Library.FixedArray
open Newth.Client.Recvbufr

section Functions

inductive StripError where
  | malformedOrImpracticallyLargeReply
  | chunkMetadataOverflowsBuffer
  | unexpectedEndToChunk
  deriving DecidableEq, Repr

/-- What a call returns and leaves behind. -/
structure Stripped where
  error : Option StripError
  data : Bytes
  max : Nat
  len : Nat
  deriving DecidableEq, Repr

/-- A call returns, unless more is to be taken from `*max` than there is; it is not followed
past that. -/
inductive Ended where
  | belowZero
  | returned (out : Stripped)
  deriving DecidableEq, Repr

/-- The variables of the loop, with the string in `chunk`. -/
structure Strip where
  data : Bytes
  i : Nat
  max : Nat
  len : Nat
  chunk : Bytes
  deriving DecidableEq, Repr

/-- `data[i] == '\r' && data[i + 1] == '\n'` -/
def endsLine (data : Bytes) (i : Nat) : Except Stop Bool := do
  let c ← load data i
  if c = 13 then do
    let d ← load data (i + 1)
    .ok (decide (d = 10))
  else .ok false

/-- The loop that copies a size line to `chunk`, from `j` for at most as many turns as given, and
where it stops. -/
def readLine (data : Bytes) (start : Nat) (chunk : Bytes) : Nat → Nat → Except Stop (Nat × Bytes)
  | 0, j => .ok (j, chunk)
  | n + 1, j => do
      let found ← endsLine data j
      if found then do
        let line ← copyFrom data start (j - start)
        .ok (j, cString line)
      else readLine data start chunk n (j + 1)

/-- `memmove(&data[i], &data[len], max - len)` -/
def takeOut (data : Bytes) (i len max : Nat) : Except Stop Bytes := do
  let moved ← copyFrom data len (max - len)
  copyTo data i moved

/-- What the loop does with the size line in `chunk`. `--i` in front of `++i` leaves `i` as it is. -/
def stripLine (st : Strip) (chunk : Bytes) : Except Stop (Turn Strip Ended) :=
  if chunk = [] then
    .ok (.leave (.returned
      ⟨some .malformedOrImpracticallyLargeReply, st.data, st.max, st.len⟩))
  else
    match ioHttpBodyChunkHexToSize chunk with
    | .ok (n + 1) =>
        let len := st.i + chunk.length + 4
        if st.max < len then .ok (.leave .belowZero)
        else do
          let data ← takeOut st.data st.i len st.max
          .ok (.again ⟨data, st.i, st.max - (len - st.i), n + 1, chunk⟩)
    | _ =>
        if st.max < 5 then .ok (.leave .belowZero)
        else .ok (.leave (.returned ⟨none, st.data, st.max - 5, noChunk⟩))

/-- One turn of the loop. -/
def stripTurn (st : Strip) : Except Stop (Turn Strip Ended) :=
  if st.i < st.max then
    if 0 < st.len then .ok (.again ⟨st.data, st.i + 1, st.max, st.len - 1, st.chunk⟩)
    else do
      let found ← endsLine st.data st.i
      if found then do
        let j := st.i + 2
        let l := if st.max < j + 19 then st.max else j + 19
        let (j, chunk) ← readLine st.data j st.chunk (l - j) j
        if j = l then
          .ok (.leave (.returned ⟨some .chunkMetadataOverflowsBuffer, st.data, st.i, st.len⟩))
        else stripLine st chunk
      else .ok (.leave (.returned ⟨some .unexpectedEndToChunk, st.data, st.max, st.len⟩))
  else .ok (.leave (.returned ⟨none, st.data, st.max, st.len⟩))

/-- The size line a body begins with. -/
def firstLine (data : Bytes) : Bytes :=
  let l := if 19 < data.length then 19 else data.length
  match strchr (data.take l) 13 with
  | none => []
  | some j => cString (data.take j)

/-- `ioHttpBodyChunkStrip` of a buffer of `*max` bytes. -/
def ioHttpBodyChunkStrip (fuel : Nat) (data : Bytes) (len : Nat) : Except Stop Ended :=
  let max := data.length
  if len = noChunk then
    let chunk := firstLine data
    if chunk = [] then
      .ok (.returned ⟨some .malformedOrImpracticallyLargeReply, data, max, 0⟩)
    else
      match ioHttpBodyChunkHexToSize chunk with
      | .ok (n + 1) =>
          let len := chunk.length + 2
          if max < len then .ok .belowZero
          else do
            let data ← takeOut data 0 len max
            run stripTurn fuel ⟨data, 0, max - len, n + 1, chunk⟩
      | _ =>
          if max < 3 then .ok .belowZero
          else .ok (.returned ⟨none, data, max - 3, noChunk⟩)
  else run stripTurn fuel ⟨data, 0, max, len, []⟩

end Functions

section Lines

variable {front seen rest line after chunk : Bytes} {n j : Nat}

/-- Text in front of a line end in which no line ends earlier. -/
def Unended (line : Bytes) : Prop := ¬ crlf <:+: line ++ [13]

theorem unended_nil : Unended [] := fun h => absurd h.length_le (by decide)

theorem unended_cons {c : UInt8} (h : Unended (c :: line)) :
    Unended line ∧ ¬ (c = 13 ∧ (line ++ [13]).head? = some 10) := by
  rw [Unended, List.cons_append, List.infix_cons_iff, not_or] at h
  refine ⟨h.2, fun ⟨hc, hhead⟩ => h.1 ?_⟩
  obtain ⟨t, ht⟩ := List.head?_eq_some_iff.mp hhead
  rw [hc, ht]
  exact ⟨t, rfl⟩

theorem unended_of_cons {c : UInt8} (h : Unended line)
    (hfirst : ¬ (c = 13 ∧ (line ++ [13]).head? = some 10)) : Unended (c :: line) := by
  rw [Unended, List.cons_append, List.infix_cons_iff, not_or]
  refine ⟨fun ⟨t, ht⟩ => hfirst ?_, h⟩
  obtain ⟨rfl, htail⟩ := List.cons.inj ht
  exact ⟨rfl, by rw [← htail]; rfl⟩

theorem unended_of_notMem (h : 13 ∉ line) : Unended line := by
  induction line with
  | nil => exact unended_nil
  | cons c line ih =>
      obtain ⟨hne, hrest⟩ := not_or.mp (mt List.mem_cons.mpr h)
      exact unended_of_cons (ih hrest) fun hfirst => hne hfirst.1.symm

theorem endsLine_cons (front : Bytes) (c : UInt8) (rest : Bytes) :
    endsLine (front ++ c :: rest) front.length =
      if c = 13 then
        match rest.head? with
        | some d => .ok (decide (d = 10))
        | none => .error .outOfBounds
      else .ok false := by
  rw [endsLine, load_behind, ok_bind]
  split
  · cases rest with
    | nil => simp [load]
    | cons d rest => simp [load]
  · rfl

theorem endsLine_crlf (front after : Bytes) :
    endsLine (front ++ (crlf ++ after)) front.length = .ok true :=
  endsLine_cons front 13 (10 :: after)

theorem endsLine_unended {c : UInt8} (front after : Bytes) (h : Unended (c :: line)) :
    endsLine (front ++ (c :: line ++ (crlf ++ after))) front.length = .ok false := by
  have hhead : (line ++ (crlf ++ after)).head? = (line ++ [13]).head? := by
    cases line with
    | nil => rfl
    | cons d line => rfl
  have hfirst := (unended_cons h).2
  rw [List.cons_append, endsLine_cons, hhead]
  split
  · rename_i hcr
    split
    · rename_i d hd
      have hlf : d ≠ 10 := by
        rintro rfl
        exact hfirst ⟨hcr, hd⟩
      rw [decide_eq_false hlf]
    · rename_i hnone
      simp at hnone
  · rfl

theorem endsLine_ok {found : Bool} (h : endsLine (front ++ rest) front.length = .ok found) :
    if found then ∃ after, rest = crlf ++ after
    else ∃ c rest', rest = c :: rest' ∧ ¬ (c = 13 ∧ rest'.head? = some 10) := by
  cases rest with
  | nil =>
      rw [endsLine] at h
      simp [load] at h
  | cons c rest =>
      rw [endsLine_cons] at h
      split at h
      · rename_i hcr
        split at h
        · rename_i d hd
          obtain rfl := Except.ok.inj h
          obtain ⟨after, rfl⟩ := List.head?_eq_some_iff.mp hd
          by_cases hlf : d = 10
          · subst hcr hlf
            exact ⟨after, rfl⟩
          · rw [decide_eq_false hlf]
            exact ⟨c, d :: after, rfl, fun h => hlf (Option.some.inj h.2)⟩
        · simp at h
      · rename_i hcr
        obtain rfl := Except.ok.inj h
        exact ⟨c, rest, rfl, fun h => hcr h.1⟩

theorem readLine_found (hline : Unended line) (hn : line.length < n) :
    readLine (front ++ (seen ++ (line ++ (crlf ++ after)))) front.length chunk n
        (front ++ seen).length =
      .ok ((front ++ (seen ++ line)).length, cString (seen ++ line)) := by
  induction line generalizing seen n with
  | nil =>
      obtain ⟨n, rfl⟩ := Nat.exists_eq_succ_of_ne_zero (by simp at hn; omega : n ≠ 0)
      have hfound := endsLine_crlf (front ++ seen) after
      have hcopy : copyFrom (front ++ (seen ++ (crlf ++ after))) front.length
          ((front ++ seen).length - front.length) = .ok seen := by
        rw [List.length_append, Nat.add_sub_cancel_left, ← List.append_assoc]
        exact copyFrom_behind seen
      rw [List.append_assoc] at hfound
      simp only [List.nil_append, readLine, hfound, ok_bind, if_true, hcopy, List.append_nil]
  | cons c line ih =>
      obtain ⟨n, rfl⟩ := Nat.exists_eq_succ_of_ne_zero (by omega : n ≠ 0)
      have hfound := endsLine_unended (front ++ seen) after hline
      have hnext := @ih (seen ++ [c]) n (unended_cons hline).1
        (by rw [List.length_cons] at hn; omega)
      have hplace : (front ++ (seen ++ [c])).length = (front ++ seen).length + 1 := by
        simp [Nat.add_assoc]
      rw [List.append_assoc] at hfound
      rw [hplace] at hnext
      simp only [List.append_assoc, List.singleton_append] at hnext
      rw [readLine, hfound, ok_bind, if_neg Bool.false_ne_true]
      exact hnext

theorem readLine_ok {chunk' : Bytes}
    (h : readLine (front ++ (seen ++ rest)) front.length chunk n (front ++ seen).length =
      .ok (j, chunk')) :
    j = (front ++ seen).length + n ∨
      ∃ line after, rest = line ++ (crlf ++ after) ∧ Unended line ∧ line.length < n := by
  induction n generalizing seen rest with
  | zero => exact .inl (Prod.mk.inj (Except.ok.inj h)).1.symm
  | succ n ih =>
      rw [readLine] at h
      obtain ⟨found, hfound, h⟩ := bind_eq_ok_iff.mp h
      rw [← List.append_assoc] at hfound
      have hstands := endsLine_ok hfound
      split at h
      · rename_i hyes
        rw [if_pos hyes] at hstands
        obtain ⟨after, rfl⟩ := hstands
        exact .inr ⟨[], after, rfl, unended_nil, Nat.succ_pos n⟩
      · rename_i hno
        rw [if_neg hno] at hstands
        obtain ⟨c, rest', rfl, hfirst⟩ := hstands
        have hsplit : front ++ (seen ++ c :: rest') = front ++ (seen ++ [c] ++ rest') := by simp
        have hplace : (front ++ (seen ++ [c])).length = (front ++ seen).length + 1 := by
          simp [Nat.add_assoc]
        rw [hsplit, ← hplace] at h
        rcases ih h with hj | ⟨line, after, rfl, hunended, hshort⟩
        · exact .inl (by rw [hj, hplace]; omega)
        · refine .inr ⟨c :: line, after, rfl, unended_of_cons hunended ?_, ?_⟩
          · rintro ⟨hcr, hhead⟩
            apply hfirst
            refine ⟨hcr, ?_⟩
            cases line with
            | nil => exact absurd hhead (by decide)
            | cons d line => exact hhead
          · rw [List.length_cons]
            omega

end Lines

section Turns

variable {kept rest stale line old chunk : Bytes} {k n : Nat}

/-- The loop in front of `rest`, with `stale` behind the end of the data. -/
def state (kept rest stale : Bytes) (len : Nat) (chunk : Bytes) : Strip :=
  ⟨kept ++ (rest ++ stale), kept.length, kept.length + rest.length, len, chunk⟩

theorem state_inside (hrest : 0 < rest.length) :
    (state kept rest stale n old).i < (state kept rest stale n old).max :=
  Nat.lt_add_of_pos_right hrest

theorem takeOut_state (kept stale : Bytes) (hk : k ≤ rest.length) :
    takeOut (kept ++ (rest ++ stale)) kept.length (kept.length + k) (kept.length + rest.length) =
      .ok (kept ++ (rest.drop k ++ (rest.drop (rest.length - k) ++ stale))) := by
  have hfront : (kept ++ rest.take k).length = kept.length + k := by
    rw [List.length_append, List.length_take, Nat.min_eq_left hk]
  have hmoved : (rest.drop k).length = kept.length + rest.length - (kept.length + k) := by
    rw [List.length_drop]
    omega
  have hsplit : kept ++ (rest ++ stale) = kept ++ rest.take k ++ rest.drop k ++ stale := by
    rw [List.append_assoc kept, List.take_append_drop, List.append_assoc]
  have hcopy : copyFrom (kept ++ (rest ++ stale)) (kept.length + k)
      (kept.length + rest.length - (kept.length + k)) = .ok (rest.drop k) := by
    rw [hsplit, ← hfront, hfront, ← hmoved, ← hfront]
    exact copyFrom_behind (rest.drop k)
  have hfit : (rest.drop k).length ≤ (rest ++ stale).length := by
    rw [List.length_drop, List.length_append]
    omega
  rw [takeOut, hcopy, ok_bind, copyTo_behind hfit, List.length_drop,
    List.drop_append_of_le_length (Nat.sub_le _ _), List.append_assoc]

theorem turn_byte (kept : Bytes) (c : UInt8) (rest stale : Bytes) (n : Nat) (old : Bytes) :
    stripTurn (state kept (c :: rest) stale (n + 1) old) =
      .ok (.again (state (kept ++ [c]) rest stale n old)) := by
  simp [stripTurn, state, Nat.add_assoc, Nat.add_comm 1]

theorem turn_end (kept stale : Bytes) (n : Nat) (old : Bytes) :
    stripTurn (state kept [] stale n old) =
      .ok (.leave (.returned ⟨none, kept ++ stale, kept.length, n⟩)) := by
  simp [stripTurn, state]

/-- A size line behind the end of a chunk, with its end in reach. -/
structure LineIn (ahead line : Bytes) : Prop where
  found : crlf ++ (line ++ crlf) <+: ahead
  unended : Unended line
  short : line.length ≤ 18

theorem stripTurn_line {st : Strip} {l j : Nat} (hi : st.i < st.max) (hlen : st.len = 0)
    (hfound : endsLine st.data st.i = .ok true)
    (hl : (if st.max < st.i + 2 + 19 then st.max else st.i + 2 + 19) = l)
    (hread : readLine st.data (st.i + 2) st.chunk (l - (st.i + 2)) (st.i + 2) = .ok (j, chunk))
    (hj : j ≠ l) : stripTurn st = stripLine st chunk := by
  rw [stripTurn, if_pos hi, hlen, if_neg (lt_irrefl 0), hfound]
  simp only [ok_bind, if_true, hl, hread, if_neg hj]

theorem stripTurn_ok {st : Strip} {turn : Turn Strip Ended} (hi : st.i < st.max) (hlen : st.len = 0)
    (h : stripTurn st = .ok turn) :
    (∃ out, turn = .leave (.returned out) ∧ out.error ≠ none) ∨
      endsLine st.data st.i = .ok true ∧
        ∃ l j chunk, (if st.max < st.i + 2 + 19 then st.max else st.i + 2 + 19) = l ∧
          readLine st.data (st.i + 2) st.chunk (l - (st.i + 2)) (st.i + 2) = .ok (j, chunk) ∧
          j ≠ l := by
  rw [stripTurn, if_pos hi, hlen, if_neg (lt_irrefl 0)] at h
  obtain ⟨found, hfound, h⟩ := bind_eq_ok_iff.mp h
  cases found with
  | false =>
      obtain rfl := Except.ok.inj h
      exact .inl ⟨_, rfl, by simp⟩
  | true =>
      obtain ⟨⟨j, chunk⟩, hread, h⟩ := bind_eq_ok_iff.mp h
      dsimp only at h
      by_cases hj : j = if st.max < st.i + 2 + 19 then st.max else st.i + 2 + 19
      · rw [if_pos hj] at h
        obtain rfl := Except.ok.inj h
        exact .inl ⟨_, rfl, by simp⟩
      · exact .inr ⟨hfound, _, j, chunk, rfl, hread, hj⟩

theorem turn_line (kept old : Bytes) (h : LineIn (rest ++ stale) line)
    (hroom : line.length + 2 < rest.length) :
    stripTurn (state kept rest stale 0 old) =
      stripLine (state kept rest stale 0 old) (cString line) := by
  obtain ⟨after, hafter⟩ := h.found
  have hdata : kept ++ (rest ++ stale) = kept ++ (crlf ++ (line ++ (crlf ++ after))) := by
    rw [← hafter]
    simp
  have hlater : kept ++ (rest ++ stale) = kept ++ crlf ++ ([] ++ (line ++ (crlf ++ after))) := by
    rw [hdata]
    simp
  have hplace : (kept ++ crlf ++ []).length = kept.length + 2 := by simp [crlf]
  have hstart : (kept ++ crlf).length = kept.length + 2 := by simp [crlf]
  have hread : ∀ n, line.length < n → readLine (kept ++ (rest ++ stale)) (kept.length + 2) old n
      (kept.length + 2) = .ok (kept.length + 2 + line.length, cString line) := by
    intro n hn
    have hfound := @readLine_found (kept ++ crlf) [] line after old n h.unended hn
    rw [← hlater, hplace, hstart, List.nil_append, List.length_append, hstart] at hfound
    exact hfound
  have hfound : endsLine (kept ++ (rest ++ stale)) kept.length = .ok true := by
    rw [hdata]
    exact endsLine_crlf kept _
  obtain ⟨l, hl⟩ : ∃ l, (if kept.length + rest.length < kept.length + 2 + 19
      then kept.length + rest.length else kept.length + 2 + 19) = l := ⟨_, rfl⟩
  have hless : kept.length + 2 + line.length < l := by
    have hshort := h.short
    split at hl
    · omega
    · omega
  have hturns : line.length < l - (kept.length + 2) := by omega
  exact stripTurn_line (state_inside (by omega)) rfl hfound hl (hread _ hturns) hless.ne

theorem turn_old (kept stale old : Bytes) :
    stripTurn (state kept [13] (10 :: stale) 0 old) =
      stripLine (state kept [13] (10 :: stale) 0 old) old := by
  have hend : kept.length + 1 < kept.length + 2 + 19 := by omega
  have hnone : kept.length + 1 - (kept.length + 2) = 0 := Nat.sub_eq_zero_of_le (by omega)
  have hread : readLine (kept ++ ([13] ++ 10 :: stale)) (kept.length + 2) old
      (kept.length + 1 - (kept.length + 2)) (kept.length + 2) = .ok (kept.length + 2, old) := by
    rw [hnone, readLine]
  have hpast : kept.length + 2 ≠ kept.length + 1 := by omega
  exact stripTurn_line (state_inside Nat.one_pos) rfl (endsLine_crlf kept stale) (if_pos hend) hread
    hpast

theorem turn_cases {turn : Turn Strip Ended} (hrest : rest ≠ [])
    (h : stripTurn (state kept rest stale 0 old) = .ok turn) :
    (∃ out, turn = .leave (.returned out) ∧ out.error ≠ none) ∨
      (rest = [13] ∧ stale.head? = some 10) ∨
      ∃ line, LineIn (rest ++ stale) line ∧ line.length + 2 < rest.length := by
  refine (stripTurn_ok (state_inside (List.length_pos_iff.mpr hrest)) rfl h).imp_right ?_
  rintro ⟨hfound, l, j, chunk, hl, hread, hj⟩
  obtain ⟨after, hafter⟩ := endsLine_ok hfound
  cases rest with
  | nil => exact absurd rfl hrest
  | cons c rest =>
      obtain ⟨rfl, htail⟩ := List.cons.inj hafter
      cases rest with
      | nil => exact .inl ⟨rfl, List.head?_eq_some_iff.mpr ⟨after, htail⟩⟩
      | cons d rest =>
          obtain ⟨rfl, -⟩ := List.cons.inj htail
          have hsplit : kept ++ (13 :: 10 :: rest ++ stale) =
              kept ++ crlf ++ ([] ++ (rest ++ stale)) := by simp [crlf]
          have hstart : (kept ++ crlf).length = kept.length + 2 := by simp [crlf]
          have hplace : (kept ++ crlf ++ []).length = kept.length + 2 := by simp [crlf]
          have hreach : kept.length + 2 ≤ l ∧ l ≤ kept.length + 2 + rest.length ∧
              l ≤ kept.length + 2 + 19 := by
            change (if kept.length + (rest.length + 1 + 1) < kept.length + 2 + 19 then
              kept.length + (rest.length + 1 + 1) else kept.length + 2 + 19) = l at hl
            split at hl
            · omega
            · omega
          have hline := @readLine_ok (kept ++ crlf) [] (rest ++ stale) old (l - (kept.length + 2)) j
            chunk
          rw [← hsplit, hplace, hstart] at hline
          rcases hline hread with hend | ⟨line, after, hline, hunended, hshort⟩
          · exact absurd (by omega) hj
          · refine .inr ⟨line, ⟨⟨after, ?_⟩, hunended, by omega⟩, ?_⟩
            · rw [List.cons_append, List.cons_append, hline]
              simp [crlf]
            · rw [List.length_cons, List.length_cons]
              omega

/-- A line that says a size other than zero. -/
def SaysSize (chunk : Bytes) (n : Nat) : Prop := ioHttpBodyChunkHexToSize chunk = .ok n ∧ 0 < n

theorem SaysSize.ne_nil (h : SaysSize chunk n) : chunk ≠ [] := by
  rintro rfl
  have hzero : n = 0 := (Except.ok.inj h.1).symm
  exact absurd h.2 (by omega)

theorem stripLine_sized (kept rest stale old : Bytes) (h : SaysSize chunk n) :
    stripLine (state kept rest stale 0 old) chunk =
      if kept.length + rest.length < kept.length + chunk.length + 4 then .ok (.leave .belowZero)
      else takeOut (kept ++ (rest ++ stale)) kept.length (kept.length + chunk.length + 4)
          (kept.length + rest.length) >>= fun data =>
        .ok (.again ⟨data, kept.length,
          kept.length + rest.length - (kept.length + chunk.length + 4 - kept.length), n, chunk⟩) := by
  obtain ⟨hsize, hpos⟩ := h
  obtain ⟨m, rfl⟩ := Nat.exists_eq_succ_of_ne_zero hpos.ne'
  rw [stripLine, if_neg (SaysSize.ne_nil ⟨hsize, hpos⟩), hsize]
  rfl

theorem stripLine_unsized {st : Strip} (hne : chunk ≠ []) (h : ∀ n, ¬ SaysSize chunk n) :
    stripLine st chunk =
      if st.max < 5 then .ok (.leave .belowZero)
      else .ok (.leave (.returned ⟨none, st.data, st.max - 5, noChunk⟩)) := by
  rw [stripLine, if_neg hne]
  split
  · rename_i n hsize
    exact absurd ⟨hsize, Nat.succ_pos n⟩ (h (n + 1))
  · rfl

theorem stripLine_fits (kept stale old : Bytes) (h : SaysSize chunk n)
    (hroom : chunk.length + 4 ≤ rest.length) :
    stripLine (state kept rest stale 0 old) chunk =
      .ok (.again (state kept (rest.drop (chunk.length + 4))
        (rest.drop (rest.length - (chunk.length + 4)) ++ stale) n chunk)) := by
  have hmax : ¬ kept.length + rest.length < kept.length + chunk.length + 4 := by omega
  have hleft : kept.length + rest.length - (kept.length + chunk.length + 4 - kept.length) =
      kept.length + (rest.drop (chunk.length + 4)).length := by
    rw [List.length_drop]
    omega
  rw [stripLine_sized kept rest stale old h, if_neg hmax, hleft, Nat.add_assoc kept.length,
    takeOut_state kept stale hroom, ok_bind]
  rfl

theorem stripLine_over (kept stale old : Bytes) (h : SaysSize chunk n)
    (hroom : rest.length < chunk.length + 4) :
    stripLine (state kept rest stale 0 old) chunk = .ok (.leave .belowZero) := by
  rw [stripLine_sized kept rest stale old h, if_pos (by omega)]

end Turns

section Places

variable {data line : Bytes} {len place k n : Nat} {st st' : Strip}

/-- The byte behind the end once a size line of `k` bytes has been taken out, as it was before. -/
def oldByte (data : Bytes) (k : Nat) : Bytes := (data.drop (data.length - k)).take 1

/-- The text in front of the first `\r`, close enough to be taken for a size line. -/
structure FirstLine (data line : Bytes) : Prop where
  found : line ++ [13] <+: data
  unended : 13 ∉ line
  short : line.length ≤ 18

/-- The places of the data a call comes to behind size lines, the last of them `k` bytes long, with
`n` bytes of a chunk to go. A terminator ends a size line early. -/
inductive Reaches (data : Bytes) (len : Nat) : Nat → Nat → Nat → Prop where
  | resumed (h : len ≠ noChunk) : Reaches data len 0 0 len
  | first {line : Bytes} {n : Nat} (h : len = noChunk) (hline : FirstLine data line)
      (hsize : SaysSize (cString line) n) (hroom : (cString line).length + 2 ≤ data.length) :
      Reaches data len ((cString line).length + 2) ((cString line).length + 2) n
  | byte {place k n : Nat} (h : Reaches data len place k (n + 1)) (hplace : place < data.length) :
      Reaches data len (place + 1) k n
  | next {place k n : Nat} {line : Bytes} (h : Reaches data len place k 0)
      (hline : LineIn (data.drop place ++ oldByte data k) line) (hsize : SaysSize (cString line) n)
      (hroom : place + ((cString line).length + 4) ≤ data.length) :
      Reaches data len (place + ((cString line).length + 4)) ((cString line).length + 4) n

/-- The size lines a call comes to. -/
inductive Meets (data : Bytes) (len : Nat) (line : Bytes) : Prop where
  | first (h : len = noChunk) (hline : FirstLine data line)
  | next {place k : Nat} (h : Reaches data len place k 0)
      (hline : LineIn (data.drop place ++ oldByte data k) line)

/-- The loop stands at a place of the data. -/
def Stands (data : Bytes) (place k n : Nat) (st : Strip) : Prop :=
  ∃ kept stale chunk, st = state kept (data.drop place) stale n chunk ∧
    stale.take 1 = oldByte data k ∧ (stale ≠ [] → (∃ m, SaysSize chunk m) ∧ 0 < kept.length + n)

theorem lineIn_take {rest stale : Bytes} : LineIn (rest ++ stale.take 1) line ↔
    LineIn (rest ++ stale) line ∧ line.length + 2 < rest.length := by
  have htake : rest ++ stale.take 1 = (rest ++ stale).take (rest.length + 1) :=
    (List.take_length_add_append 1).symm
  have hlength : (crlf ++ (line ++ crlf)).length = line.length + 4 := by
    simp only [List.length_append]
    change 2 + (line.length + 2) = _
    omega
  rw [htake]
  constructor
  · rintro ⟨hfound, hunended, hshort⟩
    obtain ⟨hfound, hless⟩ := List.prefix_take_iff.mp hfound
    exact ⟨⟨hfound, hunended, hshort⟩, by omega⟩
  · rintro ⟨⟨hfound, hunended, hshort⟩, hless⟩
    exact ⟨List.prefix_take_iff.mpr ⟨hfound, by omega⟩, hunended, hshort⟩

theorem stands_byte (h : Stands data place k (n + 1) st) (hplace : place < data.length) :
    ∃ st', stripTurn st = .ok (.again st') ∧ Stands data (place + 1) k n st' := by
  obtain ⟨kept, stale, chunk, rfl, hstale, hchunk⟩ := h
  rw [List.drop_eq_getElem_cons hplace]
  refine ⟨_, turn_byte kept _ _ stale n chunk, _, stale, chunk, rfl, hstale, fun hne => ?_⟩
  refine ⟨(hchunk hne).1, ?_⟩
  rw [List.length_append, List.length_singleton]
  omega

theorem stands_next (h : Stands data place k 0 st)
    (hline : LineIn (data.drop place ++ oldByte data k) line) (hsize : SaysSize (cString line) n)
    (hroom : place + ((cString line).length + 4) ≤ data.length) :
    ∃ st', stripTurn st = .ok (.again st') ∧
      Stands data (place + ((cString line).length + 4)) ((cString line).length + 4) n st' := by
  obtain ⟨kept, stale, chunk, rfl, hstale, hchunk⟩ := h
  rw [← hstale] at hline
  obtain ⟨hline, hless⟩ := lineIn_take.mp hline
  have hfits : (cString line).length + 4 ≤ (data.drop place).length := by
    rw [List.length_drop]
    omega
  refine ⟨_, (turn_line kept chunk hline hless).trans (stripLine_fits kept stale chunk hsize hfits),
    kept, _, _, by rw [List.drop_drop], ?_, fun _ => ⟨⟨n, hsize⟩, ?_⟩⟩
  · rw [oldByte, List.drop_drop, List.take_append_of_le_length]
    · congr 2
      rw [List.length_drop]
      omega
    · rw [List.length_drop, List.length_drop]
      omega
  · exact Nat.add_pos_right _ hsize.2

theorem stands_last (h : Stands data place k 0 st)
    (hline : LineIn (data.drop place ++ oldByte data k) line) (hne : cString line ≠ [])
    (hsize : ∀ n, ¬ SaysSize (cString line) n) :
    ∃ out, stripTurn st = .ok (.leave (.returned out)) ∧ out.error = none := by
  obtain ⟨kept, stale, chunk, rfl, hstale, hchunk⟩ := h
  rw [← hstale] at hline
  obtain ⟨hin, hless⟩ := lineIn_take.mp hline
  have hline_pos : 0 < line.length := List.length_pos_iff.mpr fun hnil => hne (by rw [hnil]; rfl)
  have hmax : 5 ≤ kept.length + (data.drop place).length := by
    cases stale with
    | nil =>
        have hlength := hline.found.length_le
        simp only [List.length_append, List.take_nil, List.length_nil] at hlength
        change 2 + (line.length + 2) ≤ _ at hlength
        omega
    | cons c stale =>
        have hkept := (hchunk (List.cons_ne_nil c stale)).2
        omega
  refine ⟨_, (turn_line kept chunk hin hless).trans ((stripLine_unsized hne hsize).trans
    (if_neg ?_)), rfl⟩
  change ¬ kept.length + (data.drop place).length < 5
  omega

theorem stands_over (h : Stands data place k 0 st)
    (hline : LineIn (data.drop place ++ oldByte data k) line) (hsize : SaysSize (cString line) n)
    (hroom : data.length < place + ((cString line).length + 4)) :
    stripTurn st = .ok (.leave .belowZero) := by
  obtain ⟨kept, stale, chunk, rfl, hstale, hchunk⟩ := h
  rw [← hstale] at hline
  obtain ⟨hin, hless⟩ := lineIn_take.mp hline
  refine (turn_line kept chunk hin hless).trans (stripLine_over kept stale chunk hsize ?_)
  rw [List.length_drop]
  omega

theorem stands_lone (h : Stands data place k 0 st) (hrest : data.drop place = [13])
    (hold : oldByte data k = [10]) : stripTurn st = .ok (.leave .belowZero) := by
  obtain ⟨kept, stale, chunk, rfl, hstale, hchunk⟩ := h
  rw [hold] at hstale
  cases stale with
  | nil => simp at hstale
  | cons c stale =>
      obtain rfl : c = 10 := (List.cons.inj hstale).1
      obtain ⟨⟨m, hsize⟩, -⟩ := hchunk (List.cons_ne_nil _ stale)
      rw [hrest]
      refine (turn_old kept stale chunk).trans (stripLine_over kept _ chunk hsize ?_)
      rw [List.length_singleton]
      omega

theorem stands_turn {turn : Turn Strip Ended} (h : Stands data place k n st)
    (hturn : stripTurn st = .ok turn) :
    (∃ out, turn = .leave (.returned out)) ∨
      (∃ m st', n = m + 1 ∧ place < data.length ∧ turn = .again st' ∧
        Stands data (place + 1) k m st') ∨
      (n = 0 ∧ data.drop place = [13] ∧ oldByte data k = [10] ∧ turn = .leave .belowZero) ∨
      (n = 0 ∧ ∃ line m, LineIn (data.drop place ++ oldByte data k) line ∧
        SaysSize (cString line) m ∧
        (data.length < place + ((cString line).length + 4) ∧ turn = .leave .belowZero ∨
          ∃ st', place + ((cString line).length + 4) ≤ data.length ∧ turn = .again st' ∧
            Stands data (place + ((cString line).length + 4)) ((cString line).length + 4) m
              st')) := by
  by_cases hplace : place < data.length
  · cases n with
    | succ m =>
        obtain ⟨st', hagain, hst'⟩ := stands_byte h hplace
        rw [hagain] at hturn
        exact .inr (.inl ⟨m, st', rfl, hplace, (Except.ok.inj hturn).symm, hst'⟩)
    | zero =>
        have hcases := h
        obtain ⟨kept, stale, chunk, rfl, hstale, -⟩ := hcases
        have hrest : data.drop place ≠ [] := by
          rw [ne_eq, List.drop_eq_nil_iff]
          omega
        rcases turn_cases hrest hturn with ⟨out, rfl, -⟩ | ⟨hlone, hhead⟩ | ⟨line, hin, hless⟩
        · exact .inl ⟨out, rfl⟩
        · have hold : oldByte data k = [10] := by
            obtain ⟨t, rfl⟩ := List.head?_eq_some_iff.mp hhead
            exact hstale.symm
          rw [stands_lone h hlone hold] at hturn
          exact .inr (.inr (.inl ⟨rfl, hlone, hold, (Except.ok.inj hturn).symm⟩))
        · have hline : LineIn (data.drop place ++ oldByte data k) line := by
            rw [← hstale]
            exact lineIn_take.mpr ⟨hin, hless⟩
          by_cases hsize : ∃ m, SaysSize (cString line) m
          · obtain ⟨m, hsize⟩ := hsize
            refine .inr (.inr (.inr ⟨rfl, line, m, hline, hsize, ?_⟩))
            rcases Nat.lt_or_ge data.length (place + ((cString line).length + 4)) with hover | hroom
            · rw [stands_over h hline hsize hover] at hturn
              exact .inl ⟨hover, (Except.ok.inj hturn).symm⟩
            · obtain ⟨st', hagain, hst'⟩ := stands_next h hline hsize hroom
              rw [hagain] at hturn
              exact .inr ⟨st', hroom, (Except.ok.inj hturn).symm, hst'⟩
          · by_cases hne : cString line = []
            · rw [turn_line kept chunk hin hless, stripLine, if_pos hne] at hturn
              exact .inl ⟨_, (Except.ok.inj hturn).symm⟩
            · obtain ⟨out, hleave, -⟩ := stands_last h hline hne (not_exists.mp hsize)
              rw [hleave] at hturn
              exact .inl ⟨out, (Except.ok.inj hturn).symm⟩
  · obtain ⟨kept, stale, chunk, rfl, -, -⟩ := h
    rw [List.drop_eq_nil_of_le (by omega), turn_end] at hturn
    exact .inl ⟨_, (Except.ok.inj hturn).symm⟩

end Places

section Calls

variable {data line : Bytes} {len place k n : Nat}

theorem firstLine_eq (h : FirstLine data line) : firstLine data = cString line := by
  obtain ⟨⟨after, rfl⟩, hclean, hshort⟩ := h
  have hwithin : line.length < if 19 < (line ++ [13] ++ after).length then 19
      else (line ++ [13] ++ after).length := by
    rw [List.length_append, List.length_append, List.length_singleton]
    split
    · omega
    · omega
  obtain ⟨l, hl⟩ := Nat.exists_eq_add_of_lt hwithin
  have htake : (line ++ [13] ++ after).take (line.length + l + 1) = line ++ 13 :: after.take l := by
    rw [List.append_assoc, Nat.add_assoc, List.take_length_add_append]
    rfl
  have hline : (line ++ [13] ++ after).take line.length = line := by
    rw [List.append_assoc, List.take_left]
  rw [firstLine]
  simp only [hl, htake, strchr_append hclean, hline]

theorem exists_firstLine (h : firstLine data ≠ []) : ∃ line, FirstLine data line := by
  rw [firstLine] at h
  obtain ⟨l, hl⟩ : ∃ l, (if 19 < data.length then 19 else data.length) = l := ⟨_, rfl⟩
  simp only [hl] at h
  have hless : l ≤ 19 := by
    rw [← hl]
    split
    · exact le_rfl
    · omega
  cases hfound : strchr (data.take l) 13 with
  | none =>
      rw [hfound] at h
      exact absurd rfl h
  | some j =>
      have hsplit := eq_append_of_strchr hfound
      have hclean := notMem_take_of_strchr hfound
      refine ⟨(data.take l).take j, ?_, hclean, ?_⟩
      · refine List.IsPrefix.trans ⟨(data.take l).drop (j + 1), ?_⟩ (List.take_prefix l data)
        rw [List.append_assoc]
        exact hsplit.symm
      · have hlength := congrArg List.length hsplit
        rw [List.length_append, List.length_cons] at hlength
        have htake := List.length_take_le l data
        omega

theorem call_resumed (fuel : Nat) (h : len ≠ noChunk) :
    ioHttpBodyChunkStrip fuel data len = run stripTurn fuel (state [] data [] len []) := by
  rw [ioHttpBodyChunkStrip, if_neg h]
  simp [state]

theorem call_first (fuel : Nat) (hline : FirstLine data line) (hne : cString line ≠ []) :
    ioHttpBodyChunkStrip fuel data noChunk =
      match ioHttpBodyChunkHexToSize (cString line) with
      | .ok (n + 1) =>
          if data.length < (cString line).length + 2 then .ok .belowZero
          else takeOut data 0 ((cString line).length + 2) data.length >>= fun moved =>
            run stripTurn fuel
              ⟨moved, 0, data.length - ((cString line).length + 2), n + 1, cString line⟩
      | _ =>
          if data.length < 3 then .ok .belowZero
          else .ok (.returned ⟨none, data, data.length - 3, noChunk⟩) := by
  rw [ioHttpBodyChunkStrip, if_pos rfl]
  simp only [firstLine_eq hline, if_neg hne]

theorem call_unsized (fuel : Nat) (hline : FirstLine data line) (hne : cString line ≠ [])
    (hsize : ∀ n, ¬ SaysSize (cString line) n) :
    ioHttpBodyChunkStrip fuel data noChunk =
      if data.length < 3 then .ok .belowZero
      else .ok (.returned ⟨none, data, data.length - 3, noChunk⟩) := by
  rw [call_first fuel hline hne]
  split
  · rename_i n hn
    exact absurd ⟨hn, Nat.succ_pos n⟩ (hsize (n + 1))
  · rfl

theorem call_over (fuel : Nat) (hline : FirstLine data line) (hsize : SaysSize (cString line) n)
    (hroom : data.length < (cString line).length + 2) :
    ioHttpBodyChunkStrip fuel data noChunk = .ok .belowZero := by
  obtain ⟨m, rfl⟩ := Nat.exists_eq_succ_of_ne_zero hsize.2.ne'
  rw [call_first fuel hline hsize.ne_nil, hsize.1]
  exact if_pos hroom

theorem call_sized (fuel : Nat) (hline : FirstLine data line) (hsize : SaysSize (cString line) n)
    (hroom : (cString line).length + 2 ≤ data.length) :
    ioHttpBodyChunkStrip fuel data noChunk =
      run stripTurn fuel (state [] (data.drop ((cString line).length + 2))
        (data.drop (data.length - ((cString line).length + 2))) n (cString line)) := by
  obtain ⟨m, rfl⟩ := Nat.exists_eq_succ_of_ne_zero hsize.2.ne'
  have hmoved := takeOut_state [] [] hroom
  rw [List.length_nil, Nat.zero_add, Nat.zero_add, List.append_nil, List.append_nil,
    List.nil_append, List.nil_append] at hmoved
  rw [call_first fuel hline hsize.ne_nil, hsize.1]
  refine (if_neg (by omega)).trans ?_
  rw [hmoved, ok_bind, state, List.length_drop, List.length_nil, Nat.zero_add, List.nil_append]

theorem stands_first (hsize : SaysSize (cString line) n) :
    Stands data ((cString line).length + 2) ((cString line).length + 2) n
      (state [] (data.drop ((cString line).length + 2))
        (data.drop (data.length - ((cString line).length + 2))) n (cString line)) :=
  ⟨[], _, _, rfl, rfl, fun _ => ⟨⟨n, hsize⟩, Nat.add_pos_right _ hsize.2⟩⟩

theorem stands_resumed : Stands data 0 0 len (state [] data [] len []) := by
  refine ⟨[], [], [], rfl, ?_, fun h => absurd rfl h⟩
  rw [oldByte, Nat.sub_zero, List.drop_length]

theorem reaches_passes (h : Reaches data len place k n) :
    ∃ st st', (∀ fuel, ioHttpBodyChunkStrip fuel data len = run stripTurn fuel st) ∧
      Passes stripTurn st st' ∧ Stands data place k n st' := by
  induction h with
  | resumed h => exact ⟨_, _, fun fuel => call_resumed fuel h, .refl, stands_resumed⟩
  | first h hline hsize hroom =>
      subst h
      exact ⟨_, _, fun fuel => call_sized fuel hline hsize hroom, .refl, stands_first hsize⟩
  | byte h hplace ih =>
      obtain ⟨st, st', hcall, hpasses, hstands⟩ := ih
      obtain ⟨st'', hturn, hnext⟩ := stands_byte hstands hplace
      exact ⟨st, st'', hcall, hpasses.tail hturn, hnext⟩
  | next h hline hsize hroom ih =>
      obtain ⟨st, st', hcall, hpasses, hstands⟩ := ih
      obtain ⟨st'', hturn, hnext⟩ := stands_next hstands hline hsize hroom
      exact ⟨st, st'', hcall, hpasses.tail hturn, hnext⟩

theorem passes_reaches {st st' : Strip} (h : Reaches data len place k n)
    (hstands : Stands data place k n st) (hpasses : Passes stripTurn st st') :
    ∃ place k n, Reaches data len place k n ∧ Stands data place k n st' := by
  induction hpasses with
  | refl => exact ⟨place, k, n, h, hstands⟩
  | tail _ hturn ih =>
      obtain ⟨place, k, n, h, hstands⟩ := ih
      rcases stands_turn hstands hturn with ⟨out, hout⟩ | ⟨m, st', rfl, hplace, heq, hst'⟩ |
        ⟨-, -, -, hout⟩ | ⟨rfl, line, m, hline, hsize, ⟨-, hout⟩ | ⟨st', hroom, heq, hst'⟩⟩
      · simp at hout
      · obtain rfl := Turn.again.inj heq
        exact ⟨_, _, _, .byte h hplace, hst'⟩
      · simp at hout
      · simp at hout
      · obtain rfl := Turn.again.inj heq
        exact ⟨_, _, _, .next h hline hsize hroom, hst'⟩

end Calls

end Newth.Client.ChunkStrip
