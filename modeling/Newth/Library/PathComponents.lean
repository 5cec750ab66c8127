import Newth.Library.ByteString

namespace Newth.Library.PathComponents

open Newth.Library.ByteString

/-- The non-empty pieces of a path between its dividers. -/
def components (isDivider : UInt8 → Bool) (path : Bytes) : List Bytes :=
  (path.splitOnP isDivider).filter (· ≠ [])

section

variable {isDivider : UInt8 → Bool}

theorem components_append_divider {d : UInt8} (hd : isDivider d) (a b : Bytes) :
    components isDivider (a ++ d :: b) = components isDivider a ++ components isDivider b := by
  rw [components, List.splitOnP_append_cons _ _ hd, List.filter_append]
  rfl

theorem components_cons_divider {d : UInt8} (hd : isDivider d) (b : Bytes) :
    components isDivider (d :: b) = components isDivider b := by
  simpa [components] using components_append_divider hd [] b

theorem components_dropWhile (path : Bytes) :
    components isDivider (path.dropWhile isDivider) = components isDivider path := by
  induction path with
  | nil => rfl
  | cons c rest ih =>
      by_cases hc : isDivider c
      · rw [List.dropWhile_cons_of_pos hc, ih, components_cons_divider hc]
      · rw [List.dropWhile_cons_of_neg hc]

theorem components_append_dividers (path : Bytes) {ds : Bytes} (hds : ∀ d ∈ ds, isDivider d) :
    components isDivider (path ++ ds) = components isDivider path := by
  induction ds generalizing path with
  | nil => simp
  | cons d ds ih =>
      have hd : isDivider d := hds d (by simp)
      have hrest := ih [] fun d' hd' => hds d' (by simp [hd'])
      rw [components_append_divider hd]
      simpa [components] using hrest

theorem components_map {f : UInt8 → UInt8} (hdivider : ∀ c, isDivider (f c) = isDivider c)
    (hother : ∀ c, isDivider c = false → f c = c) (path : Bytes) :
    components isDivider (path.map f) = components isDivider path := by
  have hsplit : (path.map f).splitOnP isDivider = path.splitOnP isDivider := by
    induction path with
    | nil => rfl
    | cons c rest ih =>
        rw [List.map_cons, List.splitOnP_cons_eq_if_modifyHead,
          List.splitOnP_cons_eq_if_modifyHead, ih, hdivider]
        cases hc : isDivider c with
        | true => rfl
        | false => simp [hother c hc]
  rw [components, hsplit, components]

theorem dividerFree_or_split (isDivider : UInt8 → Bool) (path : Bytes) :
    (∀ x ∈ path, isDivider x = false) ∨
      ∃ a d b, path = a ++ d :: b ∧ isDivider d ∧ ∀ x ∈ a, isDivider x = false := by
  induction path with
  | nil => simp
  | cons x rest ih =>
      by_cases hx : isDivider x
      · exact .inr ⟨[], x, rest, rfl, hx, by simp⟩
      · rcases ih with hfree | ⟨a, d, b, rfl, hd, ha⟩
        · exact .inl (by simpa [hx] using hfree)
        · exact .inr ⟨x :: a, d, b, rfl, hd, by simpa [hx] using ha⟩

theorem mem_splitOnP_iff {path c : Bytes} :
    c ∈ path.splitOnP isDivider ↔
      (∀ x ∈ c, isDivider x = false) ∧
        ∃ pre post, path = pre ++ c ++ post ∧
          (∀ d ∈ pre.getLast?, isDivider d) ∧ (∀ d ∈ post.head?, isDivider d) := by
  constructor
  · intro hmem
    induction hlen : path.length using Nat.strong_induction_on generalizing path with
    | _ n ih =>
        rcases dividerFree_or_split isDivider path with hfree | ⟨a, d, b, rfl, hd, ha⟩
        · rw [List.splitOnP_eq_singleton hfree] at hmem
          obtain rfl : c = path := by simpa using hmem
          exact ⟨hfree, [], [], by simp, by simp, by simp⟩
        · rw [List.splitOnP_append_cons_of_forall_mem ha d hd] at hmem
          rcases List.mem_cons.mp hmem with rfl | hmem
          · exact ⟨ha, [], d :: b, by simp, by simp, by simpa using hd⟩
          · have hshort : b.length < n := by
              simp only [List.length_append, List.length_cons] at hlen
              omega
            obtain ⟨hc, pre, post, rfl, hpre, hpost⟩ := ih b.length hshort hmem rfl
            refine ⟨hc, a ++ d :: pre, post, by simp, ?_, hpost⟩
            intro e he
            rcases List.eq_nil_or_concat pre with rfl | ⟨p, e', rfl⟩
            · obtain rfl : d = e := by simpa using he
              exact hd
            · have hassoc : a ++ d :: p.concat e' = (a ++ d :: p) ++ [e'] := by simp
              rw [hassoc, List.getLast?_concat] at he
              exact hpre e (by simpa using he)
  · rintro ⟨hc, pre, post, rfl, hpre, hpost⟩
    have hhead : c ∈ (c ++ post).splitOnP isDivider := by
      cases post with
      | nil => simp [List.splitOnP_eq_singleton hc]
      | cons d b =>
          rw [List.splitOnP_append_cons_of_forall_mem hc d (hpost d rfl)]
          exact List.mem_cons_self
    rcases List.eq_nil_or_concat pre with rfl | ⟨p, d, rfl⟩
    · simpa using hhead
    · have hd : isDivider d := hpre d (by simp)
      have happend : p.concat d ++ c ++ post = p ++ d :: (c ++ post) := by simp
      rw [happend, List.splitOnP_append_cons _ _ hd]
      exact List.mem_append_right _ hhead

theorem mem_components_iff {path c : Bytes} :
    c ∈ components isDivider path ↔
      c ≠ [] ∧ (∀ x ∈ c, isDivider x = false) ∧
        ∃ pre post, path = pre ++ c ++ post ∧
          (∀ d ∈ pre.getLast?, isDivider d) ∧ (∀ d ∈ post.head?, isDivider d) := by
  rw [components, List.mem_filter, mem_splitOnP_iff, and_comm]
  simp

end

end Newth.Library.PathComponents
