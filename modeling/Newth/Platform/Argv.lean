import Newth.Library.Call
import Newth.Library.QuotedWords

namespace Newth.Platform.Argv

open Newth.Library.ByteString
open Newth.Library.Call
open Newth.Library.QuotedWords

/-- The array behind `a`, cut at `p`, in the pass that counts and moves the text together. -/
structure Counting where
  front : Bytes
  rest : Bytes
  s : Nat
  esc : Option UInt8

def countTurn (st : Counting) : Except Stop (Turn Counting (Bytes × Nat)) :=
  match st.rest with
  | [] => .ok (.leave (st.front, st.s))
  | c :: rest =>
      if isQuote c ∧ st.esc = none then .ok (.again ⟨st.front ++ [c], rest, st.s, some c⟩)
      else if isQuote c ∧ st.esc = some c then .ok (.again ⟨st.front ++ [c], rest, st.s, none⟩)
      else if c = ascii ' ' ∧ st.esc = none then
        match st.rest.dropWhile (· == ascii ' ') with
        | [] => .ok (.leave (st.front, st.s + 1))
        | d :: after =>
            -- `++p` goes past the first byte that is moved to the start of the array
            if st.front = [] then .ok (.again ⟨[d], after, st.s + 1, st.esc⟩)
            else .ok (.again ⟨st.front ++ [c], d :: after, st.s + 1, st.esc⟩)
      else .ok (.again ⟨st.front ++ [c], rest, st.s, st.esc⟩)

/-- What `r` points to: an array with the strings, and the places they start at. -/
structure Converted where
  mem : Bytes
  r : List (Option Nat)
  deriving DecidableEq

/-- The array in the pass that sets the pointers. -/
structure Splitting where
  front : Bytes
  rest : Bytes
  r : List (Option Nat)
  esc : Option UInt8

/-- `r` has room for `max` pointers. -/
def setPointer (max : Nat) (r : List (Option Nat)) (pointer : Option Nat) :
    Except Stop (List (Option Nat)) :=
  if r.length < max then .ok (r ++ [pointer]) else .error .outOfBounds

def splitTurn (max : Nat) (st : Splitting) : Except Stop (Turn Splitting Converted) :=
  match st.rest with
  | [] => do
      let r ← setPointer max st.r none
      .ok (.leave ⟨st.front, r⟩)
  | c :: rest =>
      if isQuote c ∧ st.esc = none then .ok (.again ⟨st.front, rest, st.r, some c⟩)
      else if isQuote c ∧ st.esc = some c then .ok (.again ⟨st.front, rest, st.r, none⟩)
      else if c = ascii ' ' ∧ st.esc = none then do
        let r ← setPointer max st.r (if rest = [] then none else some (st.front.length + 1))
        .ok (.again ⟨st.front ++ [0], rest, r, st.esc⟩)
      else .ok (.again ⟨st.front ++ [c], rest, st.r, st.esc⟩)

/-- `platformArgvConvertString` of a string; `none` is a null pointer. -/
def platformArgvConvertString (str : Bytes) : Except Stop (Option Converted) :=
  if str = [] then .ok none
  else do
    let (a, s) ← run countTurn (str.length + 1) ⟨[], str, 0, none⟩
    let r ← run (splitTurn (s + 2)) (a.length + 1) ⟨[], a, [some 0], none⟩
    .ok (some r)

/-- The strings that pointers lead to, up to the first null pointer. -/
def strings (mem : Bytes) : List (Option Nat) → List Bytes
  | some p :: r => cString (mem.drop p) :: strings mem r
  | _ => []

def argvStrings : Option Converted → List Bytes
  | none => []
  | some argv => strings argv.mem argv.r

example : (platformArgvConvertString (text "\"This is\" \"a\"\" test\"")).map argvStrings =
    .ok [text "This is", text "a test"] := by
  decide

section Turns

variable {front rest : Bytes} {s max : Nat} {r : List (Option Nat)} {esc : Option UInt8} {c : UInt8}

theorem quote_cases {α : Type} (a : Option UInt8 → α) (b : α) :
    (if isQuote c ∧ esc = none then a (some c)
      else if isQuote c ∧ esc = some c then a none else b) =
      if turns esc c then a (quoteBehind esc c) else b := by
  cases hquote : isQuote c with
  | false => simp [turns, hquote]
  | true =>
      by_cases hopen : esc = none
      · simp [turns, quoteBehind, hquote, hopen]
      · by_cases hclose : esc = some c
        · simp [turns, quoteBehind, hquote, hclose]
        · simp [turns, hquote, hopen, hclose]

theorem countTurn_cons :
    countTurn ⟨front, c :: rest, s, esc⟩ =
      if turns esc c then .ok (.again ⟨front ++ [c], rest, s, quoteBehind esc c⟩)
      else if Parts esc c then
        match (c :: rest).dropWhile (· == ascii ' ') with
        | [] => .ok (.leave (front, s + 1))
        | d :: after =>
            if front = [] then .ok (.again ⟨[d], after, s + 1, esc⟩)
            else .ok (.again ⟨front ++ [c], d :: after, s + 1, esc⟩)
      else .ok (.again ⟨front ++ [c], rest, s, esc⟩) := by
  exact @quote_cases esc c (Except Stop (Turn Counting (Bytes × Nat)))
    (fun esc => .ok (.again ⟨front ++ [c], rest, s, esc⟩)) _

theorem splitTurn_cons :
    splitTurn max ⟨front, c :: rest, r, esc⟩ =
      if turns esc c then .ok (.again ⟨front, rest, r, quoteBehind esc c⟩)
      else if Parts esc c then do
        let r ← setPointer max r (if rest = [] then none else some (front.length + 1))
        .ok (.again ⟨front ++ [0], rest, r, esc⟩)
      else .ok (.again ⟨front ++ [c], rest, r, esc⟩) := by
  exact @quote_cases esc c (Except Stop (Turn Splitting Converted))
    (fun esc => .ok (.again ⟨front, rest, r, esc⟩)) _

end Turns

section Passes

variable {esc : Option UInt8} {c : UInt8}

/-- What the first pass leaves of a text. -/
def squeeze : Option UInt8 → Bytes → Bytes
  | _, [] => []
  | esc, c :: rest =>
      if Parts esc c ∧ (rest = [] ∨ rest.head? = some (ascii ' ')) then squeeze none rest
      else c :: squeeze (quoteBehind esc c) rest

/-- The runs of spaces it counts. -/
def gaps : Option UInt8 → Bytes → Nat
  | _, [] => 0
  | esc, c :: rest =>
      if Parts esc c ∧ rest.head? ≠ some (ascii ' ') then gaps none rest + 1
      else gaps (quoteBehind esc c) rest

theorem squeeze_gap (rest : Bytes) :
    squeeze none (ascii ' ' :: rest) =
        match rest.dropWhile (· == ascii ' ') with
        | [] => []
        | d :: after => ascii ' ' :: squeeze none (d :: after) := by
  induction rest with
  | nil => rfl
  | cons d rest ih =>
      by_cases hd : d = ascii ' '
      · subst hd
        rw [squeeze, if_pos ⟨⟨rfl, rfl⟩, .inr rfl⟩, ih, List.dropWhile_cons_of_pos (by decide)]
      · rw [squeeze, if_neg (by simp [hd]), List.dropWhile_cons_of_neg (by simpa using hd)]
        rfl

theorem gaps_gap (rest : Bytes) :
    gaps none (ascii ' ' :: rest) = gaps none (rest.dropWhile (· == ascii ' ')) + 1 := by
  induction rest with
  | nil => rfl
  | cons d rest ih =>
      by_cases hd : d = ascii ' '
      · subst hd
        rw [gaps, if_neg (by simp), quoteBehind_space, ih, List.dropWhile_cons_of_pos (by decide)]
      · rw [gaps, if_pos ⟨⟨rfl, rfl⟩, by simpa using hd⟩,
          List.dropWhile_cons_of_neg (by simpa using hd)]

theorem squeeze_cons (h : ¬ Parts esc c) (rest : Bytes) :
    squeeze esc (c :: rest) = c :: squeeze (quoteBehind esc c) rest := by
  rw [squeeze, if_neg fun hparts => h hparts.1]

theorem gaps_cons (h : ¬ Parts esc c) (rest : Bytes) :
    gaps esc (c :: rest) = gaps (quoteBehind esc c) rest := by
  rw [gaps, if_neg fun hparts => h hparts.1]

theorem count_run (rest : Bytes) {front : Bytes} (hfront : front ≠ []) (s : Nat)
    (esc : Option UInt8) {fuel : Nat} (hfuel : rest.length < fuel) :
    run countTurn fuel ⟨front, rest, s, esc⟩ =
      .ok (front ++ squeeze esc rest, s + gaps esc rest) := by
  induction hlength : rest.length using Nat.strongRecOn generalizing rest front s esc fuel with
  | ind n ih =>
      obtain ⟨fuel, rfl⟩ : ∃ less, fuel = less + 1 := ⟨fuel - 1, by omega⟩
      cases rest with
      | nil =>
          rw [run_succ_leave fuel rfl, squeeze, List.append_nil]
          rfl
      | cons c rest =>
          rw [List.length_cons] at hlength hfuel
          by_cases hparts : Parts esc c
          · obtain ⟨rfl, rfl⟩ := hparts
            have hturn := @countTurn_cons front rest s none (ascii ' ')
            rw [if_neg (by decide), if_pos ⟨rfl, rfl⟩, List.dropWhile_cons_of_pos (by decide)] at hturn
            have hless := (List.dropWhile_suffix (l := rest) (· == ascii ' ')).length_le
            rw [squeeze_gap, gaps_gap]
            cases hgap : rest.dropWhile (· == ascii ' ') with
            | nil =>
                rw [hgap] at hturn
                rw [run_succ_leave fuel hturn, List.append_nil]
                rfl
            | cons d after =>
                rw [hgap] at hturn hless
                simp only [if_neg hfront] at hturn
                rw [run_succ_again fuel hturn, ih (d :: after).length (by omega) (d :: after) (by simp) _ _
                  (by omega) rfl, List.append_assoc, Nat.add_right_comm, Nat.add_assoc]
                rfl
          · have hnext : run countTurn (fuel + 1) ⟨front, c :: rest, s, esc⟩ =
                run countTurn fuel ⟨front ++ [c], rest, s, quoteBehind esc c⟩ := by
              apply run_succ_again
              rw [countTurn_cons, if_neg hparts]
              cases hturns : turns esc c with
              | true => rfl
              | false => rw [quoteBehind_of_not_turns hturns]; rfl
            rw [hnext, ih rest.length (by omega) rest (by simp) s _ (by omega) rfl,
              squeeze_cons hparts, gaps_cons hparts, List.append_assoc]
            rfl

/-- What the second pass makes of a text: every space outside of quotes ends a word,
but no word follows the last byte. -/
def pieces : Option UInt8 → Bytes → Bytes → List Bytes
  | _, word, [] => [word]
  | esc, word, c :: rest =>
      if turns esc c then pieces (quoteBehind esc c) word rest
      else if Parts esc c then if rest = [] then [word] else word :: pieces none [] rest
      else pieces esc (word ++ [c]) rest

theorem cString_word {word : Bytes} (h : (0 : UInt8) ∉ word) (done rest : Bytes) :
    cString ((done ++ (word ++ 0 :: rest)).drop done.length) = word := by
  rw [List.drop_left, cString_append h]
  simp [cString]

/-- The second pass: with enough room for the pointers, those behind the one to the
word that has begun lead to the words that follow. -/
theorem split_run {max : Nat} (rest : Bytes) (hrest : (0 : UInt8) ∉ rest) {done word : Bytes}
    (hword : (0 : UInt8) ∉ word) {r : List (Option Nat)} {esc : Option UInt8}
    (hroom : r.length + parting esc rest < max) {fuel : Nat} (hfuel : rest.length < fuel) :
    ∃ mem more, run (splitTurn max) fuel ⟨done ++ word, rest, r, esc⟩ =
        .ok ⟨done ++ word ++ mem, r ++ more⟩ ∧
      strings (done ++ word ++ mem) (some done.length :: more) = pieces esc word rest := by
  induction rest generalizing done word r esc fuel with
  | nil =>
      obtain ⟨fuel, rfl⟩ : ∃ less, fuel = less + 1 := ⟨fuel - 1, by omega⟩
      refine ⟨[], [none], ?_, ?_⟩
      · rw [List.append_nil]
        apply run_succ_leave
        have hmax : r.length < max := by omega
        simp [splitTurn, setPointer, hmax]
      · rw [List.append_nil, strings, List.drop_left, cString_eq_self hword]
        rfl
  | cons c rest ih =>
      obtain ⟨fuel, rfl⟩ : ∃ less, fuel = less + 1 := ⟨fuel - 1, by omega⟩
      obtain ⟨hc, hafter⟩ : (0 : UInt8) ≠ c ∧ (0 : UInt8) ∉ rest := by simpa using hrest
      rw [List.length_cons] at hfuel
      rw [parting] at hroom
      have hturn := @splitTurn_cons (done ++ word) rest max r esc c
      rw [pieces]
      by_cases hturns : turns esc c = true
      · rw [if_pos hturns] at hturn ⊢
        rw [run_succ_again fuel hturn]
        exact ih hafter hword (by omega) (by omega)
      · rw [if_neg hturns] at hturn ⊢
        by_cases hparts : Parts esc c
        · rw [if_pos hparts] at hturn hroom ⊢
          obtain ⟨rfl, rfl⟩ := hparts
          rw [setPointer, if_pos (by omega), ok_bind] at hturn
          rw [run_succ_again fuel hturn]
          cases hcase : rest with
          | nil =>
              subst hcase
              obtain ⟨fuel, rfl⟩ : ∃ less, fuel = less + 1 := ⟨fuel - 1, by omega⟩
              refine ⟨[0], [none, none], ?_, ?_⟩
              · apply run_succ_leave
                have hmax : r.length + 1 < max := by omega
                simp [splitTurn, setPointer, hmax]
              · rw [strings, List.append_assoc, cString_word hword, if_pos rfl]
                rfl
          | cons d after =>
              rw [← hcase, if_neg (by simp [hcase]), if_neg (by simp [hcase])]
              obtain ⟨mem, more, hrun, hstrings⟩ := @ih hafter (done ++ word ++ [0]) [] (by simp)
                (r ++ [some ((done ++ word).length + 1)]) none
                (by rw [quoteBehind_space] at hroom; simp; omega) fuel (by omega)
              refine ⟨0 :: mem, some ((done ++ word).length + 1) :: more, ?_, ?_⟩
              · simpa using hrun
              · rw [strings, List.append_assoc, cString_word hword]
                congr 1
                simpa [Nat.add_assoc] using hstrings
        · rw [if_neg hparts] at hturn ⊢
          rw [run_succ_again fuel hturn]
          rw [quoteBehind_of_not_turns (by simpa using hturns)] at hroom
          obtain ⟨mem, more, hrun, hstrings⟩ := @ih hafter done (word ++ [c])
            (by simp [hword, hc]) r esc (by omega) fuel (by omega)
          refine ⟨c :: mem, more, ?_, ?_⟩
          · simpa using hrun
          · simpa using hstrings

theorem split_overruns {max : Nat} (rest : Bytes) {front : Bytes} {r : List (Option Nat)}
    {esc : Option UInt8} (hfull : max ≤ r.length + parting esc rest) (hr : r.length ≤ max) {fuel : Nat}
    (hfuel : rest.length < fuel) :
    run (splitTurn max) fuel ⟨front, rest, r, esc⟩ = .error .outOfBounds := by
  induction rest generalizing front r esc fuel with
  | nil =>
      obtain ⟨fuel, rfl⟩ : ∃ less, fuel = less + 1 := ⟨fuel - 1, by omega⟩
      apply run_succ_error
      have hmax : ¬ r.length < max := by
        rw [parting] at hfull
        omega
      simp [splitTurn, setPointer, hmax]
  | cons c rest ih =>
      obtain ⟨fuel, rfl⟩ : ∃ less, fuel = less + 1 := ⟨fuel - 1, by omega⟩
      rw [List.length_cons] at hfuel
      rw [parting] at hfull
      have hturn := @splitTurn_cons front rest max r esc c
      by_cases hturns : turns esc c = true
      · have hparts : ¬ Parts esc c := fun h => by simp [not_turns_of_parts h] at hturns
        rw [if_neg hparts] at hfull
        rw [if_pos hturns] at hturn
        rw [run_succ_again fuel hturn]
        exact ih (by omega) hr (by omega)
      · rw [if_neg hturns] at hturn
        rw [quoteBehind_of_not_turns (by simpa using hturns)] at hfull
        by_cases hparts : Parts esc c
        · rw [if_pos hparts] at hturn hfull
          obtain ⟨rfl, rfl⟩ := hparts
          rw [setPointer] at hturn
          by_cases hmax : r.length < max
          · rw [if_pos hmax, ok_bind] at hturn
            rw [run_succ_again fuel hturn]
            exact ih (by simp; omega) (by simp; omega) (by omega)
          · rw [if_neg hmax] at hturn
            exact run_succ_error fuel hturn
        · rw [if_neg hparts] at hturn hfull
          rw [run_succ_again fuel hturn]
          exact ih (by omega) hr (by omega)

end Passes

section Agreement

variable {esc : Option UInt8}

theorem pieces_squeeze (t : Bytes) (esc : Option UInt8) (word : Bytes) :
    pieces esc word (squeeze esc t) = words esc (some word) t := by
  induction t generalizing esc word with
  | nil => rfl
  | cons c rest ih =>
      by_cases hparts : Parts esc c
      · obtain ⟨rfl, rfl⟩ := hparts
        rw [words_parting]
        cases rest with
        | nil => rfl
        | cons d rest =>
            by_cases hd : d = ascii ' '
            · subst hd
              rw [squeeze, if_pos ⟨⟨rfl, rfl⟩, .inr rfl⟩, ih, words_parting, words_space]
            · have hhead : (d :: rest).head? ≠ some (ascii ' ') := by simpa using hd
              have hnext : squeeze none (d :: rest) ≠ [] := by
                rw [squeeze_cons fun h => hd h.1]
                exact List.cons_ne_nil _ _
              rw [squeeze, if_neg (by simp [hd]), pieces, if_neg (by decide), if_pos ⟨rfl, rfl⟩,
                quoteBehind_space, if_neg hnext, ih, words_begin (List.cons_ne_nil _ _) hhead]
      · rw [squeeze_cons hparts, pieces, words, if_neg hparts, if_neg hparts]
        by_cases hturns : turns esc c = true
        · rw [if_pos hturns, if_pos hturns]
          exact ih _ _
        · rw [if_neg hturns, if_neg hturns, quoteBehind_of_not_turns (by simpa using hturns)]
          exact ih _ _

theorem parting_squeeze_le (t : Bytes) (esc : Option UInt8) :
    parting esc (squeeze esc t) ≤ gaps esc t := by
  induction t generalizing esc with
  | nil => exact Nat.le_refl _
  | cons c rest ih =>
      by_cases hparts : Parts esc c
      · obtain ⟨rfl, rfl⟩ := hparts
        cases rest with
        | nil => exact Nat.zero_le _
        | cons d rest =>
            have hrest := ih none
            by_cases hd : d = ascii ' '
            · subst hd
              rw [squeeze, if_pos ⟨⟨rfl, rfl⟩, .inr rfl⟩, gaps, if_neg (by simp)]
              exact hrest
            · rw [squeeze, if_neg (by simp [hd]), gaps, if_pos ⟨⟨rfl, rfl⟩, by simpa using hd⟩,
                parting, if_pos ⟨rfl, rfl⟩, quoteBehind_space]
              omega
      · rw [squeeze_cons hparts, gaps_cons hparts, parting, if_neg hparts, Nat.zero_add]
        exact ih _

theorem squeeze_sublist (t : Bytes) (esc : Option UInt8) : (squeeze esc t).Sublist t := by
  induction t generalizing esc with
  | nil => exact List.Sublist.slnil
  | cons c rest ih =>
      rw [squeeze]
      split
      · exact (ih none).cons c
      · exact (ih _).cons_cons c

theorem squeeze_eq_self_iff (t : Bytes) (esc : Option UInt8) :
    squeeze esc t = t ↔ SingleSpaces esc t ∧ EndsInWord esc t := by
  induction t generalizing esc with
  | nil =>
      refine iff_of_true rfl ⟨?_, ?_⟩
      · intro front rest hsplit
        simp at hsplit
      · intro front hsplit
        simp at hsplit
  | cons c rest ih =>
      rw [singleSpaces_cons, squeeze]
      split
      · rename_i hdrop
        obtain ⟨hparts, hnext⟩ := hdrop
        refine iff_of_false ?_ ?_
        · intro hsame
          have hshort := (squeeze_sublist rest none).length_le
          have hlength := congrArg List.length hsame
          rw [List.length_cons] at hlength
          omega
        · rintro ⟨⟨hsingle, -⟩, hends⟩
          rcases hnext with rfl | hhead
          · exact endsInWord_singleton.mp hends hparts
          · exact hsingle hparts hhead
      · rename_i hkeep
        rw [List.cons_inj_right, ih]
        have hsingle : Parts esc c → rest.head? ≠ some (ascii ' ') :=
          fun hparts hhead => hkeep ⟨hparts, .inr hhead⟩
        cases rest with
        | nil =>
            have hends : EndsInWord esc [c] :=
              endsInWord_singleton.mpr fun hparts => hkeep ⟨hparts, .inl rfl⟩
            have hnil : EndsInWord (quoteBehind esc c) [] := by
              intro front hsplit
              simp at hsplit
            rw [and_assoc, and_iff_right hsingle]
            exact ⟨fun h => ⟨h.1, hends⟩, fun h => ⟨h.1, hnil⟩⟩
        | cons d rest =>
            rw [endsInWord_cons (List.cons_ne_nil _ _), and_assoc, and_iff_right hsingle]

theorem gaps_of_singleSpaces (t : Bytes) {esc : Option UInt8} (h : SingleSpaces esc t) :
    gaps esc t = parting esc t := by
  induction t generalizing esc with
  | nil => rfl
  | cons c rest ih =>
      obtain ⟨hsingle, hrest⟩ := singleSpaces_cons.mp h
      rw [gaps, parting]
      by_cases hparts : Parts esc c
      · rw [if_pos ⟨hparts, hsingle hparts⟩, if_pos hparts]
        obtain ⟨rfl, rfl⟩ := hparts
        rw [quoteBehind_space] at hrest ⊢
        rw [ih hrest, Nat.add_comm]
      · rw [if_neg fun h => hparts h.1, if_neg hparts, ih hrest, Nat.zero_add]

theorem length_words_none (s : Bytes) :
    (words none none s).length ≤ (words none (some []) s).length ∧
      (s.head? = some (ascii ' ') →
        (words none none s).length < (words none (some []) s).length) := by
  cases s with
  | nil => exact ⟨Nat.zero_le _, by simp⟩
  | cons d rest =>
      by_cases hd : d = ascii ' '
      · subst hd
        rw [words_space, words_parting, List.length_cons]
        exact ⟨Nat.le_succ _, fun _ => Nat.lt_succ_self _⟩
      · rw [words_begin (List.cons_ne_nil _ _) (by simpa using hd)]
        exact ⟨Nat.le_refl _, fun h => absurd (Option.some.inj h) hd⟩

theorem length_words_le (t : Bytes) (esc : Option UInt8) (word : Bytes) :
    (words esc (some word) t).length ≤ (pieces esc word t).length := by
  induction t generalizing esc word with
  | nil => exact Nat.le_refl _
  | cons c rest ih =>
      rw [words, pieces]
      by_cases hturns : turns esc c = true
      · rw [if_pos hturns, if_pos hturns]
        exact ih _ _
      · rw [if_neg hturns, if_neg hturns]
        by_cases hparts : Parts esc c
        · rw [if_pos hparts, if_pos hparts]
          cases rest with
          | nil => exact Nat.le_refl _
          | cons d rest =>
              rw [if_neg (List.cons_ne_nil _ _)]
              exact Nat.succ_le_succ ((length_words_none _).1.trans (ih none []))
        · rw [if_neg hparts, if_neg hparts]
          exact ih _ _

theorem pieces_eq_words_iff (t : Bytes) (esc : Option UInt8) (word : Bytes) :
    pieces esc word t = words esc (some word) t ↔ SingleSpaces esc t := by
  induction t generalizing esc word with
  | nil =>
      refine iff_of_true rfl ?_
      intro front rest hsplit
      simp at hsplit
  | cons c rest ih =>
      rw [words, pieces, singleSpaces_cons]
      by_cases hturns : turns esc c = true
      · have hparts : ¬ Parts esc c := fun h => by simp [not_turns_of_parts h] at hturns
        rw [if_pos hturns, if_pos hturns, Option.getD_some, ih]
        exact (and_iff_right fun h => absurd h hparts).symm
      · rw [if_neg hturns, if_neg hturns, quoteBehind_of_not_turns (by simpa using hturns)]
        by_cases hparts : Parts esc c
        · rw [if_pos hparts, if_pos hparts]
          obtain ⟨rfl, rfl⟩ := hparts
          cases rest with
          | nil =>
              refine iff_of_true rfl ⟨by simp, ?_⟩
              intro front rest hsplit
              simp at hsplit
          | cons d rest =>
              rw [if_neg (List.cons_ne_nil _ _)]
              show word :: pieces none [] (d :: rest) = word :: words none none (d :: rest) ↔ _
              rw [List.cons_inj_right]
              by_cases hhead : (d :: rest).head? = some (ascii ' ')
              · refine iff_of_false ?_ ?_
                · intro hsame
                  have hless := (length_words_none (d :: rest)).2 hhead
                  have hle := length_words_le (d :: rest) none []
                  rw [hsame] at hle
                  omega
                · exact fun h => h.1 ⟨rfl, rfl⟩ hhead
              · rw [words_begin (List.cons_ne_nil _ _) hhead, ih]
                exact (and_iff_right fun _ => hhead).symm
        · rw [if_neg hparts, if_neg hparts, Option.getD_some, ih]
          exact (and_iff_right fun h => absurd h hparts).symm

/-- The bytes that come into the words. -/
def kept : Option UInt8 → Bytes → Nat
  | _, [] => 0
  | esc, c :: rest =>
      (if turns esc c = true ∨ Parts esc c then 0 else 1) + kept (quoteBehind esc c) rest

theorem sum_words (t : Bytes) (esc : Option UInt8) (word : Option Bytes) :
    ((words esc word t).map List.length).sum = (word.getD []).length + kept esc t := by
  induction t generalizing esc word with
  | nil => cases word <;> rfl
  | cons c rest ih =>
      rw [words, kept]
      by_cases hturns : turns esc c = true
      · rw [if_pos hturns, if_pos (.inl hturns), ih, Nat.zero_add]
        rfl
      · rw [if_neg hturns, quoteBehind_of_not_turns (by simpa using hturns)]
        by_cases hparts : Parts esc c
        · rw [if_pos hparts, if_pos (.inr hparts), List.map_append, List.sum_append, ih]
          obtain ⟨rfl, rfl⟩ := hparts
          cases word <;> simp
        · rw [if_neg hparts, if_neg (by simp [hturns, hparts]), ih]
          simp [Nat.add_assoc]

theorem sum_pieces (t : Bytes) (esc : Option UInt8) (word : Bytes) :
    ((pieces esc word t).map List.length).sum = word.length + kept esc t := by
  induction t generalizing esc word with
  | nil => rfl
  | cons c rest ih =>
      rw [pieces, kept]
      by_cases hturns : turns esc c = true
      · rw [if_pos hturns, if_pos (.inl hturns), ih, Nat.zero_add]
      · rw [if_neg hturns, quoteBehind_of_not_turns (by simpa using hturns)]
        by_cases hparts : Parts esc c
        · have hnone : turns esc c = true ∨ Parts esc c := .inr hparts
          rw [if_pos hparts, if_pos hnone]
          obtain ⟨rfl, rfl⟩ := hparts
          cases rest with
          | nil => rfl
          | cons d rest =>
              rw [if_neg (List.cons_ne_nil _ _), List.map_cons, List.sum_cons, ih]
              simp
        · rw [if_neg hparts, if_neg (by simp [hturns, hparts]), ih]
          simp [Nat.add_assoc]

/-- Where the passes disagree on what is quoted, every space that is taken away is missing
from a word. -/
theorem squeeze_of_kept (t : Bytes) {seen esc : Option UInt8} (hdiffer : seen ≠ esc) :
    kept esc (squeeze seen t) ≤ kept esc t ∧
      (kept esc (squeeze seen t) = kept esc t → squeeze seen t = t) := by
  induction t generalizing seen esc with
  | nil => exact ⟨Nat.le_refl _, fun _ => rfl⟩
  | cons c rest ih =>
      rw [squeeze]
      split
      · rename_i hdrop
        obtain ⟨⟨rfl, rfl⟩, -⟩ := hdrop
        have hquoted : ¬ (turns esc (ascii ' ') = true ∨ Parts esc (ascii ' ')) := by
          rintro (hturns | hparts)
          · simp [turns, isQuote, ascii] at hturns
          · exact hdiffer hparts.2.symm
        have hle := (ih hdiffer).1
        rw [kept, if_neg hquoted, quoteBehind_space]
        exact ⟨by omega, fun hsame => absurd hsame (by omega)⟩
      · have hnext : quoteBehind seen c ≠ quoteBehind esc c := fun h => hdiffer (quoteBehind_inj h)
        obtain ⟨hle, hsame⟩ := ih hnext
        rw [kept, kept]
        refine ⟨by omega, fun hequal => ?_⟩
        rw [hsame (by omega)]

end Agreement

section Results

variable {str : Bytes}

/-- The strings that come out are the words of the command, and no pointer is written
behind the array. -/
def Splits (str : Bytes) : Prop :=
  ∃ r, platformArgvConvertString str = .ok r ∧ argvStrings r = commandWords str

/-- What a quote behind leading spaces opens is read twice, by passes that disagree on
what is quoted. -/
def Unharmed (quote : UInt8) (t : Bytes) : Prop :=
  SingleSpaces none t ∧ EndsInWord none t ∧ SingleSpaces (some quote) t ∧
    parting (some quote) t ≤ parting none t + 1

/-- The strings that are split right: the empty one, and those with a word that do not
begin with spaces and a quote, or begin so and come to no harm. -/
def SplitsRight (str : Bytes) : Prop :=
  str = [] ∨ ∃ c t, str.dropWhile (· == ascii ' ') = c :: t ∧
    (str.head? = some (ascii ' ') → isQuote c = true → Unharmed c t)

theorem commandWords_dropWhile (str : Bytes) :
    commandWords str = commandWords (str.dropWhile (· == ascii ' ')) := by
  induction str with
  | nil => rfl
  | cons c rest ih =>
      by_cases hc : c = ascii ' '
      · subst hc
        rw [List.dropWhile_cons_of_pos (by decide), ← ih]
        exact words_space rest
      · rw [List.dropWhile_cons_of_neg (by simpa using hc)]

theorem count_str {c : UInt8} {t : Bytes} (hstr : str.dropWhile (· == ascii ' ') = c :: t) :
    run countTurn (str.length + 1) ⟨[], str, 0, none⟩ =
      .ok (if str.head? = some (ascii ' ') then (c :: squeeze none t, gaps none t + 1)
        else (squeeze none (c :: t), gaps none (c :: t))) := by
  cases str with
  | nil => simp at hstr
  | cons d rest =>
      by_cases hd : d = ascii ' '
      · subst hd
        have hless := (List.dropWhile_suffix (l := rest) (· == ascii ' ')).length_le
        have hturn := @countTurn_cons [] rest 0 none (ascii ' ')
        rw [if_neg (by decide), if_pos ⟨rfl, rfl⟩, hstr] at hturn
        rw [List.dropWhile_cons_of_pos (by decide)] at hstr
        rw [hstr, List.length_cons] at hless
        rw [run_succ_again _ hturn, count_run t (List.cons_ne_nil _ _) _ _ (by simp; omega)]
        simp [Nat.add_comm]
      · have hparts : ¬ Parts none d := fun h => hd h.1
        rw [List.dropWhile_cons_of_neg (by simpa using hd)] at hstr
        obtain ⟨rfl, rfl⟩ := List.cons.inj hstr
        have hturn : countTurn ⟨[], d :: rest, 0, none⟩ =
            .ok (.again ⟨[d], rest, 0, quoteBehind none d⟩) := by
          rw [countTurn_cons, if_neg hparts]
          cases hturns : turns none d with
          | true => rfl
          | false => rw [quoteBehind_of_not_turns hturns]; rfl
        rw [run_succ_again _ hturn, count_run rest (List.cons_ne_nil _ _) _ _ (by simp),
          squeeze_cons hparts, gaps_cons hparts]
        simp [hd]

theorem split_str (hne : str ≠ []) {a : Bytes} {s : Nat}
    (hcount : run countTurn (str.length + 1) ⟨[], str, 0, none⟩ = .ok (a, s))
    (ha : (0 : UInt8) ∉ a) :
    Splits str ↔ parting none a ≤ s ∧ pieces none [] a = commandWords str := by
  have hconvert : platformArgvConvertString str =
      (run (splitTurn (s + 2)) (a.length + 1) ⟨[], a, [some 0], none⟩).map some := by
    rw [platformArgvConvertString, if_neg hne, hcount, ok_bind]
    simp only
    cases run (splitTurn (s + 2)) (a.length + 1) ⟨[], a, [some 0], none⟩ <;> rfl
  by_cases hroom : parting none a ≤ s
  · obtain ⟨mem, more, hrun, hstrings⟩ := @split_run (s + 2) a ha [] [] (by simp) [some 0] none
      (by simp; omega) (a.length + 1) (by omega)
    rw [List.append_nil, List.nil_append] at hrun hstrings
    rw [Splits, hconvert, hrun, and_iff_right hroom, ← hstrings]
    constructor
    · rintro ⟨r, hr, hwords⟩
      obtain rfl := Except.ok.inj hr
      exact hwords
    · exact fun hwords => ⟨_, rfl, hwords⟩
  · have hrun := @split_overruns (s + 2) a [] [some 0] none (by simp; omega) (by simp)
      (a.length + 1) (by omega)
    rw [Splits, hconvert, hrun]
    refine iff_of_false ?_ fun h => hroom h.1
    rintro ⟨r, hr, -⟩
    exact absurd hr (by simp [Except.map])

theorem splits_of_head {c : UInt8} {t : Bytes} (hne : str ≠ []) (hzero : (0 : UInt8) ∉ c :: t)
    (hstr : str.dropWhile (· == ascii ' ') = c :: t)
    (h : str.head? = some (ascii ' ') → isQuote c = false) : Splits str := by
  have hc : c ≠ ascii ' ' := by
    have hfirst := List.head?_dropWhile_not (· == ascii ' ') str
    simpa [hstr] using hfirst
  have hparts : ¬ Parts none c := fun hparts => hc hparts.1
  obtain ⟨s, hcount, hs⟩ : ∃ s, run countTurn (str.length + 1) ⟨[], str, 0, none⟩ =
      .ok (squeeze none (c :: t), s) ∧ gaps none (c :: t) ≤ s := by
    rw [count_str hstr]
    by_cases hhead : str.head? = some (ascii ' ')
    · have hsame : quoteBehind none c = none :=
        quoteBehind_of_not_turns (by simp [turns, h hhead])
      refine ⟨gaps none t + 1, ?_, ?_⟩
      · rw [if_pos hhead, squeeze_cons hparts, hsame]
      · rw [gaps_cons hparts, hsame]
        exact Nat.le_succ _
    · refine ⟨gaps none (c :: t), ?_, Nat.le_refl _⟩
      rw [if_neg hhead]
  rw [split_str hne hcount fun hmem => hzero ((squeeze_sublist _ none).subset hmem)]
  refine ⟨(parting_squeeze_le _ none).trans hs, ?_⟩
  rw [pieces_squeeze, commandWords_dropWhile, hstr]
  exact (words_begin (List.cons_ne_nil _ _) (by simpa using hc)).symm

theorem splits_of_quote {quote : UInt8} {t : Bytes} (hzero : (0 : UInt8) ∉ quote :: t)
    (hstr : str.dropWhile (· == ascii ' ') = quote :: t) (hhead : str.head? = some (ascii ' '))
    (hquote : isQuote quote = true) : Splits str ↔ Unharmed quote t := by
  have hturns : turns none quote = true := by simp [turns, hquote]
  have hopen : quoteBehind none quote = some quote := by simp [quoteBehind, hturns]
  have hparts : ¬ Parts none quote := fun h => by simp [not_turns_of_parts h] at hturns
  have hne : str ≠ [] := by
    rintro rfl
    simp at hstr
  have hcount := count_str hstr
  rw [if_pos hhead] at hcount
  have ha : (0 : UInt8) ∉ quote :: squeeze none t :=
    fun hmem => hzero (((squeeze_sublist t none).cons_cons quote).subset hmem)
  rw [split_str hne hcount ha, commandWords_dropWhile, hstr, commandWords, parting, pieces, words,
    if_neg hparts, if_pos hturns, if_pos hturns, hopen, Nat.zero_add, Option.getD_none]
  constructor
  · rintro ⟨hroom, hwords⟩
    have hsums := congrArg (fun l => (l.map List.length).sum) hwords
    simp only [sum_pieces, sum_words, Option.getD_some, List.length_nil, Nat.zero_add] at hsums
    have hsame := (squeeze_of_kept t (Option.some_ne_none quote).symm).2 hsums
    obtain ⟨hsingle, hends⟩ := (squeeze_eq_self_iff t none).mp hsame
    rw [hsame, gaps_of_singleSpaces t hsingle] at hroom
    rw [hsame] at hwords
    exact ⟨hsingle, hends, (pieces_eq_words_iff t _ []).mp hwords, hroom⟩
  · rintro ⟨hsingle, hends, hquoted, hroom⟩
    rw [(squeeze_eq_self_iff t none).mpr ⟨hsingle, hends⟩, gaps_of_singleSpaces t hsingle]
    exact ⟨hroom, (pieces_eq_words_iff t _ []).mpr hquoted⟩

theorem not_splits_of_blank (hne : str ≠ []) (hblank : str.dropWhile (· == ascii ' ') = []) :
    ¬ Splits str := by
  cases str with
  | nil => exact absurd rfl hne
  | cons c rest =>
      have hc : c = ascii ' ' := by
        by_contra hc
        rw [List.dropWhile_cons_of_neg (by simpa using hc)] at hblank
        exact List.cons_ne_nil _ _ hblank
      subst hc
      have hturn := @countTurn_cons [] rest 0 none (ascii ' ')
      rw [if_neg (by decide), if_pos ⟨rfl, rfl⟩, hblank] at hturn
      rw [split_str hne (run_succ_leave _ hturn) (by simp), commandWords_dropWhile, hblank]
      rintro ⟨-, hwords⟩
      exact List.cons_ne_nil _ _ hwords

theorem splits_iff (hzero : (0 : UInt8) ∉ str) : Splits str ↔ SplitsRight str := by
  by_cases hne : str = []
  · subst hne
    exact iff_of_true ⟨none, rfl, rfl⟩ (.inl rfl)
  · rw [SplitsRight, or_iff_right hne]
    cases hstr : str.dropWhile (· == ascii ' ') with
    | nil => exact iff_of_false (not_splits_of_blank hne hstr) (by rintro ⟨c, t, hnil, -⟩; simp at hnil)
    | cons c t =>
        have hrest : (0 : UInt8) ∉ c :: t := fun hmem =>
          hzero ((List.dropWhile_suffix (· == ascii ' ')).subset (hstr ▸ hmem))
        constructor
        · intro hsplits
          exact ⟨c, t, rfl, fun hhead hquote => (splits_of_quote hrest hstr hhead hquote).mp hsplits⟩
        · rintro ⟨c', t', hsame, hright⟩
          obtain ⟨rfl, rfl⟩ := List.cons.inj hsame
          cases hquote : isQuote c with
          | false => exact splits_of_head hne hrest hstr fun _ => hquote
          | true =>
              by_cases hhead : str.head? = some (ascii ' ')
              · exact (splits_of_quote hrest hstr hhead hquote).mpr (hright hhead hquote)
              · exact splits_of_head hne hrest hstr fun h => absurd h hhead

theorem splits_iff_at : Splits (text " 'a b'") ↔ SplitsRight (text " 'a b'") :=
  splits_iff (by decide)

theorem quote_behind_space_overruns : ¬ Splits (text " 'a' b c d") := by
  rintro ⟨r, hr, -⟩
  have hrun : platformArgvConvertString (text " 'a' b c d") = .error .outOfBounds := by decide
  rw [hrun] at hr
  exact absurd hr (by simp)

end Results

end Newth.Platform.Argv
