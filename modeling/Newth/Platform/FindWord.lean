import Newth.Platform.FindNeedle

namespace Newth.Platform.FindWord

open Newth.Library.ByteString
open Newth.Platform.FindNeedle hiding platformStringFindNeedleRaw
open Newth.Platform.FindString

variable {haystack needle : Bytes} {r : Nat}

/-- The byte in front of an index, NUL for the start of the text. -/
def before (haystack : Bytes) (i : Nat) : UInt8 := if i = 0 then 0 else haystack.getD (i - 1) 0

/-- The needle stands at an index between two delimiters. -/
def WordAt (haystack needle : Bytes) (i : Nat) : Prop :=
  OccursAt haystack needle i ∧ isDelimiter (before haystack i) ∧
    isDelimiter (haystack.getD (i + needle.length) 0)

instance (haystack needle : Bytes) (i : Nat) : Decidable (WordAt haystack needle i) :=
  inferInstanceAs (Decidable (_ ∧ _ ∧ _))

theorem platformStringFindWord_of_found (h : platformStringFindNeedleRaw haystack needle = some r)
    (hoccurs : OccursAt haystack needle r) :
    platformStringFindWord haystack needle = if WordAt haystack needle r then some r else none := by
  simp only [platformStringFindWord, h, Option.bind_eq_bind, Option.bind_some, WordAt, before, hoccurs,
    true_and]

theorem platformStringFindWord_of_missing (h : platformStringFindNeedleRaw haystack needle = none) :
    platformStringFindWord haystack needle = none := by
  rw [platformStringFindWord, h]
  rfl

theorem findsWord_iff (hne : needle ≠ []) (haystack : Bytes) :
    IsFirst (WordAt haystack needle) (platformStringFindWord haystack needle) ↔
      ((∃ i, WordAt haystack needle i) →
        ∃ i, WordAt haystack needle i ∧ ∀ j < i, ¬ OccursAt haystack needle j) := by
  have hfirst : IsFirst (OccursAt haystack needle) _ := isFirst_needleRaw hne
  cases hfound : platformStringFindNeedleRaw haystack needle with
  | none =>
      rw [hfound] at hfirst
      have hnone : ∀ i, ¬ WordAt haystack needle i := fun i hword => hfirst i hword.1
      rw [platformStringFindWord_of_missing hfound]
      exact iff_of_true hnone fun ⟨i, hword⟩ => absurd hword (hnone i)
  | some r =>
      rw [hfound] at hfirst
      obtain ⟨hoccurs, hfirst⟩ := hfirst
      rw [platformStringFindWord_of_found hfound hoccurs]
      by_cases hword : WordAt haystack needle r
      · rw [if_pos hword]
        exact iff_of_true ⟨hword, fun j hj hearlier => hfirst j hj hearlier.1⟩
          fun _ => ⟨r, hword, hfirst⟩
      · rw [if_neg hword]
        constructor
        · exact fun hnone ⟨i, hi⟩ => absurd hi (hnone i)
        · intro hsome i hi
          obtain ⟨k, hk, hkfirst⟩ := hsome ⟨i, hi⟩
          -- both are the first place of the needle
          rcases Nat.lt_trichotomy k r with hlt | rfl | hgt
          · exact hfirst k hlt hk.1
          · exact hword hk
          · exact hkfirst r hgt hoccurs

theorem findsWord_iff_at :
    IsFirst (WordAt (text "a href=\"b\"") (text "HREF"))
        (platformStringFindWord (text "a href=\"b\"") (text "HREF")) ↔
      ((∃ i, WordAt (text "a href=\"b\"") (text "HREF") i) →
        ∃ i, WordAt (text "a href=\"b\"") (text "HREF") i ∧
          ∀ j < i, ¬ OccursAt (text "a href=\"b\"") (text "HREF") j) :=
  findsWord_iff (by decide) _

theorem longer_word_in_front :
    ¬ IsFirst (WordAt (text "a xhref=\"1\" href=\"2\"") (text "href"))
      (platformStringFindWord (text "a xhref=\"1\" href=\"2\"") (text "href")) := by
  have hnone : platformStringFindWord (text "a xhref=\"1\" href=\"2\"") (text "href") = none := by
    decide
  rw [hnone]
  exact fun h => h 12 (by decide)

end Newth.Platform.FindWord
