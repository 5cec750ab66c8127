import Newth.Library.ByteString

namespace Newth.Library.QuotedWords

open Newth.Library.ByteString

def isQuote (c : UInt8) : Bool := c == ascii '"' || c == ascii '\''

/-- A quote that opens a part, or closes the one that `esc` opened. -/
def turns (esc : Option UInt8) (c : UInt8) : Bool := isQuote c && (esc == none || esc == some c)

/-- The quote that is open behind a character. -/
def quoteBehind (esc : Option UInt8) (c : UInt8) : Option UInt8 :=
  if turns esc c then
    if esc = none then some c else none
  else esc

def quoteAfter (esc : Option UInt8) (s : Bytes) : Option UInt8 := s.foldl quoteBehind esc

/-- A space that is not quoted. -/
def Parts (esc : Option UInt8) (c : UInt8) : Prop := c = ascii ' ' ∧ esc = none

instance (esc : Option UInt8) (c : UInt8) : Decidable (Parts esc c) :=
  inferInstanceAs (Decidable (_ ∧ _))

/-- The words of a text behind a word that has begun, if one has. Runs of spaces outside
of quotes part them. -/
def words : Option UInt8 → Option Bytes → Bytes → List Bytes
  | _, word, [] => word.toList
  | esc, word, c :: rest =>
      if turns esc c then words (quoteBehind esc c) (some (word.getD [])) rest
      else if Parts esc c then word.toList ++ words none none rest
      else words esc (some (word.getD [] ++ [c])) rest

/-- The words of a command. -/
def commandWords (str : Bytes) : List Bytes := words none none str

example : commandWords (text "  a \"b  'c\"' d'  ") = [text "a", text "b  'c d"] := by decide

/-- The spaces outside of quotes. -/
def parting : Option UInt8 → Bytes → Nat
  | _, [] => 0
  | esc, c :: rest => (if Parts esc c then 1 else 0) + parting (quoteBehind esc c) rest

/-- No two spaces outside of quotes are neighbours. -/
def SingleSpaces (esc : Option UInt8) (s : Bytes) : Prop :=
  ∀ front rest, s = front ++ ascii ' ' :: ascii ' ' :: rest → quoteAfter esc front ≠ none

/-- The text does not end in a space outside of quotes. -/
def EndsInWord (esc : Option UInt8) (s : Bytes) : Prop :=
  ∀ front, s = front ++ [ascii ' '] → quoteAfter esc front ≠ none

variable {esc esc' : Option UInt8} {c : UInt8} {s : Bytes}

theorem not_turns_of_parts (h : Parts esc c) : turns esc c = false := by
  obtain ⟨rfl, rfl⟩ := h
  rfl

theorem quoteBehind_space (esc : Option UInt8) : quoteBehind esc (ascii ' ') = esc := rfl

theorem quoteBehind_of_not_turns (h : turns esc c = false) : quoteBehind esc c = esc := by
  simp [quoteBehind, h]

theorem quoteBehind_quoteBehind : quoteBehind (quoteBehind esc c) c = esc := by
  cases hturns : turns esc c with
  | false => rw [quoteBehind_of_not_turns hturns, quoteBehind_of_not_turns hturns]
  | true =>
      simp only [turns, Bool.and_eq_true, Bool.or_eq_true, beq_iff_eq] at hturns
      obtain ⟨hquote, rfl | rfl⟩ := hturns
      · simp [quoteBehind, turns, hquote]
      · simp [quoteBehind, turns, hquote]

theorem quoteBehind_inj (h : quoteBehind esc c = quoteBehind esc' c) : esc = esc' := by
  rw [← @quoteBehind_quoteBehind esc c, h, quoteBehind_quoteBehind]

theorem words_begin (hne : s ≠ []) (hhead : s.head? ≠ some (ascii ' ')) :
    words none none s = words none (some []) s := by
  cases s with
  | nil => exact absurd rfl hne
  | cons c rest =>
      have hparts : ¬ Parts none c := fun h => hhead (congrArg some h.1)
      rw [words, words, if_neg hparts, if_neg hparts]
      rfl

theorem words_space (rest : Bytes) :
    words none none (ascii ' ' :: rest) = words none none rest := by
  rw [words, if_neg (by decide), if_pos ⟨rfl, rfl⟩]
  rfl

theorem words_parting {word : Bytes} (rest : Bytes) :
    words none (some word) (ascii ' ' :: rest) = word :: words none none rest := by
  rw [words, if_neg (by decide), if_pos ⟨rfl, rfl⟩]
  rfl

theorem singleSpaces_cons :
    SingleSpaces esc (c :: s) ↔
      (Parts esc c → s.head? ≠ some (ascii ' ')) ∧ SingleSpaces (quoteBehind esc c) s := by
  constructor
  · intro h
    constructor
    · rintro ⟨rfl, rfl⟩ hhead
      obtain ⟨rest, rfl⟩ := List.head?_eq_some_iff.mp hhead
      exact h [] rest rfl rfl
    · rintro front rest rfl
      exact h (c :: front) rest rfl
  · rintro ⟨hfirst, hrest⟩ front rest hsplit hopen
    cases front with
    | nil =>
        obtain ⟨rfl, rfl⟩ := List.cons.inj hsplit
        exact hfirst ⟨rfl, hopen⟩ rfl
    | cons d front =>
        obtain ⟨rfl, rfl⟩ := List.cons.inj hsplit
        exact hrest front rest rfl hopen

theorem endsInWord_cons (hne : s ≠ []) :
    EndsInWord esc (c :: s) ↔ EndsInWord (quoteBehind esc c) s := by
  constructor
  · rintro h front rfl
    exact h (c :: front) rfl
  · intro h front hsplit
    cases front with
    | nil => exact absurd (List.cons.inj hsplit).2 hne
    | cons d front =>
        obtain ⟨rfl, rfl⟩ := List.cons.inj hsplit
        exact h front rfl

theorem endsInWord_singleton : EndsInWord esc [c] ↔ ¬ Parts esc c := by
  constructor
  · rintro h ⟨rfl, rfl⟩
    exact h [] rfl rfl
  · rintro h front hsplit hopen
    cases front with
    | nil => exact h ⟨(List.cons.inj hsplit).1, hopen⟩
    | cons d front => simp at hsplit

end Newth.Library.QuotedWords
