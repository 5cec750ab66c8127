import Newth.Library.FixedArray
import Newth.Platform.Argv

namespace Newth.Client.StripBang

open Newth.Library.ByteString
open Newth.Library.Call
open Newth.Library.FixedArray
open Newth.Library.QuotedWords
open Newth.Platform.Argv

/-- A block of strings and an array of pointers into it; `none` is a null pointer. -/
structure Args where
  block : Bytes
  args : List (Option Nat)
  deriving DecidableEq

section Functions

/-- The loop that moves the pointers. A pointer to the start of the block cannot go back. -/
def backTurn :
    List (Option Nat) × Nat →
      Except Stop (Turn (List (Option Nat) × Nat) (List (Option Nat) × Nat))
  | (args, i) =>
      match args[i]? with
      | none => .error .outOfBounds
      | some none => .ok (.leave (args, i))
      | some (some 0) => .error .outOfBounds
      | some (some (p + 1)) => .ok (.again (args.set i (some p), i + 1))

/-- `args[i]`, to be followed. -/
def pointerAt (args : List (Option Nat)) (i : Nat) : Except Stop Nat :=
  match args[i]? with
  | some (some p) => .ok p
  | _ => .error .outOfBounds

def stripBang (argv : Args) : Except Stop Args := do
  let (args, i) ← run backTurn argv.args.length (argv.args, 1)
  let i := i - 1
  let p ← pointerAt args i
  let last ← stringIn (argv.block.drop (p + 1))
  let e := p + (last.length + 1)
  let first ← pointerAt args 0
  let moved ← copyFrom argv.block (first + 1) (e - first)
  let block ← copyTo argv.block first moved
  .ok ⟨block, args⟩

end Functions

section Layout

/-- Strings one after the other, each with its terminator. -/
def inBlock (list : List Bytes) : Bytes := list.flatMap (· ++ [0])

/-- Where the strings start if the first one starts at `start`. -/
def places (start : Nat) : List Bytes → List Nat
  | [] => []
  | s :: list => start :: places (start + s.length + 1) list

/-- The strings as they are laid out, with whatever else the block and the array have room for. -/
def laidOut (list : List Bytes) (junk : Bytes) (spare : List (Option Nat)) : Args where
  block := inBlock list ++ junk
  args := (places 0 list).map some ++ none :: spare

variable {list : List Bytes} {junk : Bytes} {spare : List (Option Nat)}

example : laidOut [text "!ls", text "-l"] [] [] =
    ⟨[33, 108, 115, 0, 45, 108, 0], [some 0, some 4, none]⟩ := by decide

theorem length_places (start : Nat) (list : List Bytes) : (places start list).length = list.length := by
  induction list generalizing start with
  | nil => rfl
  | cons s list ih => rw [places, List.length_cons, List.length_cons, ih]

theorem places_concat (start : Nat) (list : List Bytes) (s : Bytes) :
    places start (list ++ [s]) = places start list ++ [start + (inBlock list).length] := by
  induction list generalizing start with
  | nil => rfl
  | cons t list ih =>
      rw [List.cons_append, places, ih, places, List.cons_append]
      simp only [inBlock, List.flatMap_cons, List.length_append, List.length_singleton]
      congr 3
      omega

theorem strings_laidOut (htext : ∀ s ∈ list, (0 : UInt8) ∉ s) (front : Bytes) :
    strings (front ++ (inBlock list ++ junk))
      ((places front.length list).map some ++ none :: spare) = list := by
  induction list generalizing front with
  | nil => rfl
  | cons s list ih =>
      obtain ⟨hs, hlist⟩ := List.forall_mem_cons.mp htext
      have hnext := ih hlist (front ++ (s ++ [0]))
      rw [List.length_append, List.length_append, List.length_singleton, ← Nat.add_assoc] at hnext
      rw [places, List.map_cons, List.cons_append, strings]
      congr 1
      · rw [List.drop_left, inBlock, List.flatMap_cons, List.append_assoc, List.append_assoc,
          cString_append hs]
        simp [cString]
      · simpa [inBlock] using hnext

end Layout

section Stripping

variable {list : List Bytes} {spare : List (Option Nat)}

theorem back_run (list : List Bytes) {start : Nat} (front : List (Option Nat)) {fuel : Nat}
    (hfuel : list.length < fuel) :
    run backTurn fuel (front ++ ((places (start + 1) list).map some ++ none :: spare), front.length) =
      .ok (front ++ ((places start list).map some ++ none :: spare), front.length + list.length) := by
  induction list generalizing start front fuel with
  | nil =>
      obtain ⟨fuel, rfl⟩ := Nat.exists_eq_succ_of_ne_zero (by omega : fuel ≠ 0)
      apply run_succ_leave
      simp [backTurn, places]
  | cons s list ih =>
      obtain ⟨fuel, rfl⟩ := Nat.exists_eq_succ_of_ne_zero (by omega : fuel ≠ 0)
      rw [List.length_cons, Nat.add_lt_add_iff_right] at hfuel
      have hturn : backTurn (front ++ ((places (start + 1) (s :: list)).map some ++ none :: spare),
          front.length) = .ok (.again (front ++ [some start] ++
            ((places (start + s.length + 1 + 1) list).map some ++ none :: spare),
              (front ++ [some start]).length)) := by
        have hplace : start + 1 + s.length + 1 = start + s.length + 1 + 1 := by omega
        simp [backTurn, places, hplace]
      have hlength : (front ++ [some start]).length + list.length =
          front.length + (s :: list).length := by
        rw [List.length_append, List.length_singleton, List.length_cons]
        omega
      rw [run_succ_again fuel hturn, ih (front ++ [some start]) hfuel, hlength, places]
      simp

theorem pointerAt_last (list : List Bytes) (s : Bytes) (start : Nat) (front : List (Option Nat)) :
    pointerAt (front ++ ((places start (list ++ [s])).map some ++ none :: spare))
      (front.length + list.length) = .ok (start + (inBlock list).length) := by
  have hget : (front ++ ((places start (list ++ [s])).map some ++ none :: spare))[front.length +
      list.length]? = some (some (start + (inBlock list).length)) := by
    rw [places_concat, ← length_places start list]
    simp
  rw [pointerAt, hget]

/-- The end that is computed from the shifted pointer is the last terminator, so that the move is
of the whole block but its first byte. -/
theorem stripBang_laidOut {word : Bytes} {c : UInt8} {more : List Bytes} (hmore : more ≠ [])
    (htext : ∀ s ∈ more, (0 : UInt8) ∉ s) (junk : Bytes) (spare : List (Option Nat)) :
    stripBang (laidOut ((c :: word) :: more) junk spare) =
      .ok (laidOut (word :: more) (0 :: junk) spare) := by
  obtain ⟨middle, last, hconcat⟩ := (List.eq_nil_or_concat more).resolve_left hmore
  rw [List.concat_eq_append] at hconcat
  have hlast : (0 : UInt8) ∉ last := htext last (by simp [hconcat])
  have hback : run backTurn (laidOut ((c :: word) :: more) junk spare).args.length
      ((laidOut ((c :: word) :: more) junk spare).args, 1) =
        .ok ([some 0] ++ ((places (word.length + 1) more).map some ++ none :: spare),
          1 + more.length) := by
    have hargs : (laidOut ((c :: word) :: more) junk spare).args =
        [some 0] ++ ((places (word.length + 1 + 1) more).map some ++ none :: spare) := by
      simp [laidOut, places]
    rw [hargs]
    refine back_run more [some 0] ?_
    simp only [List.length_append, List.length_map, length_places, List.length_cons]
    omega
  have hpointer : pointerAt ([some 0] ++ ((places (word.length + 1) more).map some ++ none :: spare))
      (1 + more.length - 1) = .ok (word.length + 1 + (inBlock middle).length) := by
    have hindex : 1 + more.length - 1 = [some 0].length + middle.length := by
      rw [hconcat, List.length_append, List.length_singleton, List.length_singleton]
      omega
    rw [hindex, hconcat]
    exact pointerAt_last middle last (word.length + 1) [some 0]
  -- all the bytes of the strings but the first one and the last terminator
  obtain ⟨body, hbody⟩ : ∃ body, body = word ++ 0 :: inBlock middle ++ last := ⟨_, rfl⟩
  have hblock : (laidOut ((c :: word) :: more) junk spare).block = c :: body ++ 0 :: junk := by
    rw [laidOut, hbody, hconcat]
    simp [inBlock]
  have hstripped : laidOut (word :: more) (0 :: junk) spare =
      ⟨body ++ [0] ++ 0 :: junk,
        [some 0] ++ ((places (word.length + 1) more).map some ++ none :: spare)⟩ := by
    rw [laidOut, hbody, hconcat]
    simp [inBlock, places]
  have hend : word.length + 1 + (inBlock middle).length + (last.length + 1) - 0 =
      (body ++ [0]).length := by
    rw [hbody]
    simp only [List.length_append, List.length_cons, List.length_nil]
    omega
  have hstring : stringIn ((c :: body ++ 0 :: junk).drop
      (word.length + 1 + (inBlock middle).length + 1)) = .ok last := by
    have hdrop : (c :: body ++ 0 :: junk).drop (word.length + 1 + (inBlock middle).length + 1) =
        last ++ 0 :: junk := by
      have hfront : word.length + 1 + (inBlock middle).length + 1 =
          (c :: (word ++ 0 :: inBlock middle)).length := by
        simp only [List.length_append, List.length_cons]
        omega
      have hsplit : c :: body ++ 0 :: junk = c :: (word ++ 0 :: inBlock middle) ++ (last ++ 0 :: junk) := by
        simp [hbody]
      rw [hfront, hsplit, List.drop_left]
    rw [hdrop, stringIn_eq hlast]
  have hmoved : copyFrom (c :: body ++ 0 :: junk) (0 + 1) (body ++ [0]).length = .ok (body ++ [0]) := by
    have hsplit : c :: body ++ 0 :: junk = [c] ++ (body ++ [0]) ++ junk := by simp
    rw [hsplit]
    exact copyFrom_behind _
  have hcopy : copyTo (c :: body ++ 0 :: junk) 0 (body ++ [0]) = .ok (body ++ [0] ++ 0 :: junk) := by
    have hlength : (body ++ [0]).length = (c :: body).length := by simp
    rw [copyTo_start (by simp), hlength, List.drop_left]
  have hfirst : pointerAt ([some 0] ++ ((places (word.length + 1) more).map some ++ none :: spare)) 0 =
      .ok 0 := rfl
  rw [stripBang, hback, ok_bind, hstripped]
  simp only [hpointer, ok_bind, hblock, hstring, hfirst, hend, hmoved, hcopy]

end Stripping

section Converted

theorem setPointer_eq_ok {max : Nat} {r r' : List (Option Nat)} {pointer : Option Nat}
    (h : setPointer max r pointer = .ok r') : r' = r ++ [pointer] := by
  rw [setPointer] at h
  split at h
  · exact (Except.ok.inj h).symm
  · contradiction

theorem split_laidOut {max : Nat} (rest : Bytes) {done word : Bytes} {r : List (Option Nat)}
    {esc : Option UInt8} {fuel : Nat} {result : Converted} (hrest : (0 : UInt8) ∉ rest)
    (hword : (0 : UInt8) ∉ word)
    (hrun : run (splitTurn max) fuel ⟨done ++ word, rest, r, esc⟩ = .ok result) :
    ∃ first more junk spare, (∀ s ∈ first :: more, (0 : UInt8) ∉ s) ∧
      result.mem ++ [0] = done ++ (inBlock (first :: more) ++ junk) ∧
      result.r = r ++ ((places (done.length + first.length + 1) more).map some ++ none :: spare) := by
  induction rest generalizing done word r esc fuel with
  | nil =>
      have hleave : ∀ turn, splitTurn max ⟨done ++ word, [], r, esc⟩ = .ok turn →
          turn = .leave ⟨done ++ word, r ++ [none]⟩ := by
        intro turn hturn
        obtain ⟨r', hr', hturn⟩ := bind_eq_ok_iff.mp hturn
        rw [setPointer_eq_ok hr'] at hturn
        exact (Except.ok.inj hturn).symm
      rcases run_eq_ok hrun with hturn | ⟨s', less, hturn, -⟩
      · obtain rfl := Turn.leave.inj (hleave _ hturn)
        exact ⟨word, [], [], [], by simpa using hword, by simp [inBlock], rfl⟩
      · exact absurd (hleave _ hturn) (by simp)
  | cons c rest ih =>
      obtain ⟨hc, hafter⟩ : (0 : UInt8) ≠ c ∧ (0 : UInt8) ∉ rest := by simpa using hrest
      have hsplit := @splitTurn_cons (done ++ word) rest max r esc c
      by_cases hturns : turns esc c = true
      · rw [if_pos hturns] at hsplit
        exact ih hafter hword (run_of_passes (.single hsplit) hrun)
      · rw [if_neg hturns] at hsplit
        by_cases hparts : Parts esc c
        · rw [if_pos hparts] at hsplit
          rcases run_eq_ok hrun with hturn | ⟨s', less, hturn, hagain⟩
          · rw [hsplit] at hturn
            obtain ⟨r', -, hturn⟩ := bind_eq_ok_iff.mp hturn
            simp at hturn
          · rw [hsplit] at hturn
            obtain ⟨r', hr', hturn⟩ := bind_eq_ok_iff.mp hturn
            obtain rfl := Turn.again.inj (Except.ok.inj hturn)
            obtain rfl := setPointer_eq_ok hr'
            obtain ⟨first, more, junk, spare, htext, hmem, hr⟩ :=
              @ih (done ++ word ++ [0]) [] _ esc less hafter (by simp) (by rwa [List.append_nil])
            by_cases hlast : rest = []
            · refine ⟨word, [], inBlock (first :: more) ++ junk,
                (places ((done ++ word ++ [0]).length + first.length + 1) more).map some ++ none :: spare,
                by simpa using hword, ?_, ?_⟩
              · rw [hmem]
                simp [inBlock]
              · rw [hr, if_pos hlast, List.append_assoc]
                rfl
            · refine ⟨word, first :: more, junk, spare,
                List.forall_mem_cons.mpr ⟨hword, htext⟩, ?_, ?_⟩
              · rw [hmem]
                simp [inBlock]
              · rw [hr, if_neg hlast]
                simp [places, Nat.add_assoc]
        · rw [if_neg hparts] at hsplit
          have hagain := run_of_passes (.single hsplit) hrun
          rw [List.append_assoc] at hagain
          exact ih hafter (by simp [hword, hc]) hagain

theorem countTurn_mem {st : Counting} {turn : Turn Counting (Bytes × Nat)}
    (h : countTurn st = .ok turn) :
    match turn with
    | .again st' => ∀ c ∈ st'.front ++ st'.rest, c ∈ st.front ++ st.rest
    | .leave result => ∀ c ∈ result.1, c ∈ st.front ++ st.rest := by
  obtain ⟨front, rest, s, esc⟩ := st
  cases rest with
  | nil =>
      obtain rfl := Except.ok.inj h
      exact fun c hc => List.mem_append_left _ hc
  | cons c rest =>
      rw [countTurn_cons] at h
      split at h
      · obtain rfl := Except.ok.inj h
        simp
      · split at h
        · split at h
          · obtain rfl := Except.ok.inj h
            exact fun c hc => List.mem_append_left _ hc
          · rename_i d after hdrop
            have hsub : ∀ x ∈ d :: after, x ∈ c :: rest := fun x hx =>
              (List.dropWhile_suffix (· == ascii ' ')).subset (hdrop ▸ hx)
            split at h
            · obtain rfl := Except.ok.inj h
              exact fun x hx => List.mem_append_right _ (hsub x hx)
            · obtain rfl := Except.ok.inj h
              intro x hx
              rcases List.mem_append.mp hx with hx | hx
              · rcases List.mem_append.mp hx with hx | hx
                · exact List.mem_append_left _ hx
                · simp [List.mem_singleton.mp hx]
              · exact List.mem_append_right _ (hsub x hx)
        · obtain rfl := Except.ok.inj h
          simp

theorem count_textual {str a : Bytes} {s fuel : Nat} (hstr : (0 : UInt8) ∉ str)
    (hcount : run countTurn fuel ⟨[], str, 0, none⟩ = .ok (a, s)) : (0 : UInt8) ∉ a := by
  refine run_partial (fun st => (0 : UInt8) ∉ st.front ++ st.rest)
    (fun result => (0 : UInt8) ∉ result.1) ?_ ?_ (by simpa using hstr) hcount
  · exact fun st st' hst hturn hmem => hst (countTurn_mem hturn 0 hmem)
  · exact fun st result hst hturn hmem => hst (countTurn_mem hturn 0 hmem)

theorem platformArgvConvertString_laidOut {str : Bytes} (hstr : (0 : UInt8) ∉ str) {result : Converted}
    (h : platformArgvConvertString str = .ok (some result)) :
    ∃ list junk spare, list ≠ [] ∧ (∀ s ∈ list, (0 : UInt8) ∉ s) ∧
      (⟨result.mem ++ [0], result.r⟩ : Args) = laidOut list junk spare := by
  rw [platformArgvConvertString] at h
  split at h
  · simp at h
  · obtain ⟨⟨a, s⟩, hcount, h⟩ := bind_eq_ok_iff.mp h
    obtain ⟨r, hrun, h⟩ := bind_eq_ok_iff.mp h
    obtain rfl := Option.some.inj (Except.ok.inj h)
    have ha := count_textual hstr hcount
    obtain ⟨first, more, junk, spare, htext, hmem, hr⟩ :=
      @split_laidOut (s + 2) a [] [] [some 0] none _ _ ha (by simp) hrun
    refine ⟨first :: more, junk, spare, by simp, htext, ?_⟩
    rw [hmem, hr]
    simp [laidOut, places]

end Converted

section Results

/-- The first argument loses its first byte and the others stay, within the block. -/
theorem stripBang_keeps_arguments {list : List Bytes} (hlong : 2 ≤ list.length)
    (hbang : 2 ≤ (list.headD []).length) (htext : ∀ s ∈ list, (0 : UInt8) ∉ s) (junk : Bytes)
    (spare : List (Option Nat)) :
    ∃ argv, stripBang (laidOut list junk spare) = .ok argv ∧
      argv.block.length = (laidOut list junk spare).block.length ∧
      argv.args.length = (laidOut list junk spare).args.length ∧
      strings argv.block argv.args = (list.headD []).tail :: list.tail := by
  cases list with
  | nil => exact absurd hlong (by simp)
  | cons first more =>
      rw [List.headD_cons] at hbang ⊢
      obtain ⟨hfirst, hrest⟩ := List.forall_mem_cons.mp htext
      have hmore : more ≠ [] := by
        rintro rfl
        simp at hlong
      obtain ⟨c, word, rfl⟩ :=
        List.exists_cons_of_ne_nil (List.ne_nil_of_length_pos (by omega : 0 < first.length))
      have hword : (0 : UInt8) ∉ word := fun h => hfirst (List.mem_cons_of_mem c h)
      refine ⟨_, stripBang_laidOut hmore hrest junk spare, ?_, ?_, ?_⟩
      · simp [laidOut, inBlock]
        omega
      · simp [laidOut, length_places]
      · exact strings_laidOut (List.forall_mem_cons.mpr ⟨hword, hrest⟩) []

theorem stripBang_keeps_arguments_at :
    ∃ argv, stripBang (laidOut [text "!cp", [], text "a b"] [] []) = .ok argv ∧
      argv.block.length = (laidOut [text "!cp", [], text "a b"] [] []).block.length ∧
      argv.args.length = (laidOut [text "!cp", [], text "a b"] [] []).args.length ∧
      strings argv.block argv.args = [text "cp", [], text "a b"] :=
  stripBang_keeps_arguments (by decide) (by decide) (by decide) [] []

end Results

end Newth.Client.StripBang
