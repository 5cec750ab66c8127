import Newth.Client.Uri

namespace Newth.Client.UriRoundTrip

open Newth.Library.ByteString
open Newth.Client.Uri

theorem scheme_first {scheme : Bytes} (h : ¬ text "://" <:+: scheme) {j : Nat}
    (hj : j < scheme.length) : ¬ text "://" <+: (scheme ++ text "://").drop j := by
  rw [List.drop_append_of_le_length hj.le]
  intro hpre
  have hrest : (scheme.drop j).length = scheme.length - j := List.length_drop
  cases hdrop : scheme.drop j with
  | nil =>
      rw [hdrop, List.length_nil] at hrest
      omega
  | cons a rest =>
      rw [hdrop] at hpre
      cases rest with
      | nil =>
          have hsecond := (List.cons_prefix_cons.mp (List.cons_prefix_cons.mp hpre).2).1
          exact absurd hsecond (by decide)
      | cons b rest =>
          cases rest with
          | nil =>
              have htail := (List.cons_prefix_cons.mp (List.cons_prefix_cons.mp hpre).2).2
              exact absurd (List.cons_prefix_cons.mp htail).1 (by decide)
          | cons c rest =>
              apply h
              have hwithin : text "://" <+: scheme.drop j := by
                rw [hdrop]
                apply List.prefix_of_prefix_length_le hpre (List.prefix_append _ _)
                simp [text]
              exact hwithin.isInfix.trans (List.drop_suffix j scheme).isInfix

theorem newFrom_parts {before after : Bytes} (hslash : ascii '/' ∈ after) :
    ∃ scheme path, (uriDetailsNewFrom (before ++ text "://" ++ after)).scheme = some scheme ∧
      (uriDetailsNewFrom (before ++ text "://" ++ after)).path = some path := by
  have hinfix : text "://" <:+: before ++ text "://" ++ after := ⟨before, after, rfl⟩
  cases hfound : strstr (before ++ text "://" ++ after) (text "://") with
  | none => exact absurd hinfix (strstr_eq_none_iff.mp hfound)
  | some len =>
      obtain ⟨-, -, hfirst⟩ := strstr_eq_some_iff.mp hfound
      have hthere : text "://" <+: (before ++ text "://" ++ after).drop before.length := by
        rw [List.append_assoc, List.drop_left]
        exact List.prefix_append _ _
      have hlen : len ≤ before.length := Nat.not_lt.mp fun hlate => hfirst _ hlate hthere
      have hbehind : ascii '/' ∈ (before ++ text "://" ++ after).drop (len + 3) := by
        have hplace : (before ++ text "://" ++ after).drop (before.length + 3) = after := by
          rw [← List.drop_drop, List.append_assoc, List.drop_left]
          rfl
        have hsuffix := List.drop_suffix_drop_left (before ++ text "://" ++ after)
          (Nat.add_le_add_right hlen 3)
        rw [hplace] at hsuffix
        exact hsuffix.subset hslash
      obtain ⟨p, hp⟩ : ∃ p, strchr ((before ++ text "://" ++ after).drop (len + 3)) (ascii '/') =
          some p := by
        cases hnone : strchr ((before ++ text "://" ++ after).drop (len + 3)) (ascii '/') with
        | none => exact absurd hbehind (notMem_of_strchr hnone)
        | some p => exact ⟨p, rfl⟩
      simp only [uriDetailsNewFrom, splitScheme, hfound, hp]
      split
      · exact ⟨_, _, rfl, rfl⟩
      · exact ⟨_, _, rfl, rfl⟩

/-- Printing undoes parsing where there is a path, and parsing undoes printing of the parts a URI
can have. -/
theorem parse_print_inverse :
    (∀ before after, ascii '/' ∈ after →
      uriDetailsCreateString (uriDetailsNewFrom (before ++ text "://" ++ after)) =
        some (before ++ text "://" ++ after)) ∧
    ∀ scheme host path (port query : Option Bytes), ¬ text "://" <:+: scheme →
      ascii '/' ∉ host ∧ ascii ':' ∉ host → (∀ p ∈ port, ascii '/' ∉ p) →
      path.head? = some (ascii '/') → ascii '?' ∉ path →
      ∃ uri, uriDetailsCreateString ⟨some scheme, some host, port, some path, query⟩ = some uri ∧
        uriDetailsNewFrom uri = ⟨some scheme, some host, port, some path, query⟩ := by
  constructor
  · intro before after hslash
    obtain ⟨scheme, path, hscheme, hpath⟩ := @newFrom_parts before after hslash
    exact uriDetailsCreateString_newFrom hscheme hpath
  · intro scheme host path port query hscheme hhost hport hhead hmark
    refine ⟨_, rfl, newFrom_createString ⟨?_, ?_, ?_, ?_⟩ rfl⟩
    · intro s hs j hj
      obtain rfl := Option.some.inj hs
      exact scheme_first hscheme hj
    · intro s hs
      obtain rfl := Option.some.inj hs
      exact hhost
    · exact hport
    · intro s hs
      obtain rfl := Option.some.inj hs
      exact ⟨hhead, hmark⟩

theorem parse_print_inverse_port :
    uriDetailsCreateString (uriDetailsNewFrom (text "http" ++ text "://" ++ text ":?/")) =
      some (text "http" ++ text "://" ++ text ":?/") ∧
    ∃ uri, uriDetailsCreateString ⟨some (text "http"), some [], some [], some (text "/a:b"), some []⟩ =
        some uri ∧
      uriDetailsNewFrom uri =
        ⟨some (text "http"), some [], some [], some (text "/a:b"), some []⟩ :=
  ⟨parse_print_inverse.1 (text "http") (text ":?/") (by decide),
    parse_print_inverse.2 (text "http") [] (text "/a:b") (some []) (some []) (by decide) (by decide)
      (by simp) (by decide) (by decide)⟩

end Newth.Client.UriRoundTrip
