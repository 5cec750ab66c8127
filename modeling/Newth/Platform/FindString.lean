import Newth.Library.ByteString

namespace Newth.Platform.FindString

open Newth.Library.ByteString

def platformStringFindNeedleRaw (haystack needle : Bytes) : Option Nat :=
  if needle = [] then none else strstr (haystack.map toupper) (needle.map toupper)

/-- The characters a word may stand between, with NUL for either end of the text. -/
def isDelimiter (c : UInt8) : Bool :=
  (0 :: 9 :: 10 :: text "\\'\" /!?.=+-<>").contains c

/-- `platformStringFindWord`, which looks at the first occurrence only. -/
def platformStringFindWord (haystack needle : Bytes) : Option Nat := do
  let r ← platformStringFindNeedleRaw haystack needle
  let before := if r = 0 then 0 else haystack.getD (r - 1) 0
  if isDelimiter before ∧ isDelimiter (haystack.getD (r + needle.length) 0) then some r else none

section Find

variable {token : Bytes}

theorem needleRaw_eq_some_iff {s : Bytes} {o : Nat} (htoken : token ≠ []) :
    platformStringFindNeedleRaw s token = some o ↔
      token.map toupper <+: (s.drop o).map toupper ∧ o ≤ s.length ∧
        ∀ j < o, ¬ token.map toupper <+: (s.drop j).map toupper := by
  rw [platformStringFindNeedleRaw, if_neg htoken, strstr_eq_some_iff]
  simp only [List.map_drop, List.length_map]

theorem needleRaw_eq_none_iff {s : Bytes} (htoken : token ≠ []) :
    platformStringFindNeedleRaw s token = none ↔
      ¬ token.map toupper <:+: s.map toupper := by
  rw [platformStringFindNeedleRaw, if_neg htoken, strstr_eq_none_iff]

theorem needleRaw_bound {s : Bytes} {o : Nat} (htoken : token ≠ [])
    (h : platformStringFindNeedleRaw s token = some o) : o + token.length ≤ s.length := by
  obtain ⟨hpre, hle, -⟩ := (needleRaw_eq_some_iff htoken).mp h
  have hlength := hpre.length_le
  rw [List.length_map, List.length_map, List.length_drop] at hlength
  omega

theorem needleRaw_of_short {s : Bytes} (hshort : s.length < token.length) :
    platformStringFindNeedleRaw s token = none := by
  rw [platformStringFindNeedleRaw]
  split
  · rfl
  · rw [strstr_eq_none_iff]
    intro hwithin
    have hle := hwithin.length_le
    rw [List.length_map, List.length_map] at hle
    omega

theorem needleRaw_cons (htoken : token ≠ []) (c : UInt8) (rest : Bytes) :
    platformStringFindNeedleRaw (c :: rest) token =
      if token.map toupper <+: (c :: rest).map toupper then some 0
      else (platformStringFindNeedleRaw rest token).map (· + 1) := by
  simp only [platformStringFindNeedleRaw, htoken, if_false, List.map_cons, strstr,
    List.isPrefixOf_iff_prefix]

end Find

end Newth.Platform.FindString
