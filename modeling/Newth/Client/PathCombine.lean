import Newth.Client.Uri

namespace Newth.Client.PathCombine

open Newth.Library.ByteString
open Newth.Library.Call
open Newth.Library.PathComponents
open Newth.Platform.WebPath
open Newth.Client.Uri

section Joining

variable {path1 path2 front s : Bytes} {c : UInt8}

/-- The output is the two paths joined. -/
structure Joins (path1 path2 output : Bytes) : Prop where
  names : components isDivider output = components isDivider path1 ++ components isDivider path2
  starts : output.head? = some (ascii '/') ↔ path1.head? = some (ascii '/')
  ends : path2.getLast? = some (ascii '/') → components isDivider path2 ≠ [] →
    output.getLast? = some (ascii '/')

/-- The call returns and joins the paths. -/
def Combines (combine : Bytes → Bytes → Except Stop Bytes) (path1 path2 : Bytes) : Prop :=
  ∃ output, combine path1 path2 = .ok output ∧ Joins path1 path2 output

theorem components_of_dividerFree (hne : s ≠ []) (hs : ∀ c ∈ s, isDivider c = false) :
    components isDivider s = [s] := by
  rw [components, List.splitOnP_eq_singleton hs]
  simp [hne]

theorem exists_first_component {e : UInt8} (he : isDivider e = false) (s : Bytes) :
    ∃ more, ∃ rest, components isDivider (e :: s) = (e :: more) :: rest ∧
      (isDivider c = false → components isDivider (c :: e :: s) = (c :: e :: more) :: rest) := by
  rcases dividerFree_or_split isDivider s with hfree | ⟨a, d, b, rfl, hd, ha⟩
  · have hall : ∀ c ∈ e :: s, isDivider c = false := List.forall_mem_cons.mpr ⟨he, hfree⟩
    refine ⟨s, [], components_of_dividerFree (List.cons_ne_nil _ _) hall, fun hc => ?_⟩
    exact components_of_dividerFree (List.cons_ne_nil _ _) (List.forall_mem_cons.mpr ⟨hc, hall⟩)
  · have hall : ∀ c ∈ e :: a, isDivider c = false := List.forall_mem_cons.mpr ⟨he, ha⟩
    refine ⟨a, components isDivider b, ?_, fun hc => ?_⟩
    · rw [← List.cons_append, components_append_divider hd,
        components_of_dividerFree (List.cons_ne_nil _ _) hall]
      rfl
    · rw [← List.cons_append, ← List.cons_append, components_append_divider hd,
        components_of_dividerFree (List.cons_ne_nil _ _) (List.forall_mem_cons.mpr ⟨hc, hall⟩)]
      rfl

theorem dropWhile_eq_nil_or (path2 : Bytes) :
    path2.dropWhile isDivider = [] ∧ components isDivider path2 = [] ∨
      ∃ e s, path2.dropWhile isDivider = e :: s ∧ isDivider e = false ∧
        components isDivider path2 = components isDivider (e :: s) := by
  have hfirst := List.head?_dropWhile_not isDivider path2
  rw [← components_dropWhile path2]
  cases hs : path2.dropWhile isDivider with
  | nil => exact .inl ⟨rfl, rfl⟩
  | cons e s =>
      rw [hs] at hfirst
      exact .inr ⟨e, s, rfl, by simpa using hfirst, rfl⟩

/-- Behind `front` a path goes on as it would behind `path1` and a divider. -/
def Carries (path1 front : Bytes) : Prop :=
  front.head? = path1.head? ∧
    ∀ s, components isDivider (front ++ s) = components isDivider path1 ++ components isDivider s

theorem Carries.joins (h : Carries path1 front) (hne : path1 ≠ []) (path2 : Bytes) :
    Joins path1 path2 (front ++ path2.dropWhile isDivider) := by
  obtain ⟨hhead, hnames⟩ := h
  refine ⟨?_, ?_, ?_⟩
  · rw [hnames, components_dropWhile]
  · cases front with
    | nil => exact absurd (List.head?_eq_none_iff.mp hhead.symm) hne
    | cons c front => rw [← hhead, List.cons_append, List.head?_cons, List.head?_cons]
  · intro hlast hsome
    rcases dropWhile_eq_nil_or path2 with ⟨-, hnil⟩ | ⟨e, s, hdrop, -, -⟩
    · exact absurd hnil hsome
    · obtain ⟨passed, hpassed⟩ := List.dropWhile_suffix (l := path2) isDivider
      rw [hdrop] at hpassed ⊢
      rw [← hpassed] at hlast
      simpa [List.getLast?_append] using hlast

end Joining

section FirstParts

variable {path1 path2 : Bytes} {c : UInt8}

theorem uriPathCombine_eq (hne : path1 ≠ []) (path2 : Bytes) :
    uriPathCombine path1 path2 =
      .ok (firstPart isDivider (ascii '/') false path1 ++ path2.dropWhile isDivider) := by
  rw [uriPathCombine, if_neg hne]
  simp only [firstPart, Bool.false_eq_true, or_false]
  rfl

theorem platformPathCombine_eq (hne : path1 ≠ []) (path2 : Bytes) :
    Posix01.platformPathCombine path1 path2 =
      .ok (firstPart isDivider (ascii '/') (path1 == text ".") path1 ++ path2.dropWhile isDivider) :=
  pathCombine_eq hne path2

theorem carries_dividers {kept ds ds' : Bytes} (hds : ∀ d ∈ ds, isDivider d)
    (hds' : ∀ d ∈ ds', isDivider d) (hne : ds' ≠ []) (hhead : (kept ++ ds').head? = (kept ++ ds).head?) :
    Carries (kept ++ ds) (kept ++ ds') := by
  refine ⟨hhead, fun s => ?_⟩
  rcases List.eq_nil_or_concat ds' with rfl | ⟨ds', d, rfl⟩
  · exact absurd rfl hne
  · rw [List.concat_eq_append] at hds' ⊢
    have hd : isDivider d := hds' d (by simp)
    have hinit : ∀ d ∈ ds', isDivider d := fun d hd => hds' d (by simp [hd])
    have hassoc : kept ++ (ds' ++ [d]) ++ s = kept ++ ds' ++ d :: s := by simp
    rw [hassoc, components_append_divider hd, components_append_dividers _ hinit,
      components_append_dividers _ hds]

theorem carries_firstPart {closes : Bool} (hne : path1 ≠ [])
    (hone : ∀ c, path1 = [c] → isDivider c = false → closes = true) :
    Carries path1 (firstPart isDivider (ascii '/') closes path1) := by
  have hlength : path1.length - 1 < path1.length := by
    have := List.length_pos_of_ne_nil hne
    omega
  obtain ⟨ds, htake, hds⟩ := @take_lastKept isDivider path1 _ hlength
  rw [Nat.sub_add_cancel (by omega), List.take_length] at htake
  obtain ⟨c, rest, rfl⟩ := List.exists_cons_of_ne_nil hne
  have hslash : ∀ d ∈ [ascii '/'], isDivider d := List.forall_mem_singleton.mpr rfl
  rw [firstPart]
  split
  · have hkept := @carries_dividers ((c :: rest).take
      (lastKept isDivider (c :: rest) ((c :: rest).length - 1) + 1)) _ _ hds hslash (by decide) rfl
    rw [← htake] at hkept
    exact hkept
  · rename_i hstay
    obtain ⟨hzero, hopen⟩ : lastKept isDivider (c :: rest) ((c :: rest).length - 1) = 0 ∧ ¬ closes := by
      simpa using hstay
    rw [hzero] at htake
    have hrest : rest = ds := by simpa using htake
    subst hrest
    split
    · rename_i hdividers
      have hall : ∀ d ∈ c :: rest, isDivider d := List.forall_mem_cons.mpr ⟨hdividers.1, hds⟩
      exact @carries_dividers [] _ [c] hall (List.forall_mem_singleton.mpr hdividers.1)
        (List.cons_ne_nil _ _) rfl
    · cases rest with
      | nil =>
          cases hc : isDivider c with
          | true =>
              exact @carries_dividers [] _ _ (List.forall_mem_singleton.mpr hc)
                (List.forall_mem_singleton.mpr hc) (List.cons_ne_nil _ _) rfl
          | false => exact absurd (hone c rfl hc) hopen
      | cons d rest =>
          exact @carries_dividers [c] _ _ hds hds (List.cons_ne_nil _ _) rfl

theorem combines_iff {combine : Bytes → Bytes → Except Stop Bytes} {closes : Bool}
    (hne : path1 ≠ [])
    (hcombine : combine path1 path2 = .ok (firstPart isDivider (ascii '/') closes path1 ++
      path2.dropWhile isDivider)) :
    Combines combine path1 path2 ↔
      ((∃ c, path1 = [c] ∧ isDivider c = false ∧ closes = false) → components isDivider path2 = []) := by
  by_cases hone : ∃ c, path1 = [c] ∧ isDivider c = false ∧ closes = false
  · obtain ⟨c, rfl, hc, rfl⟩ := id hone
    have hkept : firstPart isDivider (ascii '/') false [c] = [c] := by simp [firstPart, lastKept, hc]
    rw [hkept] at hcombine
    rw [forall_prop_of_true hone]
    constructor
    · rintro ⟨output, houtput, hjoins⟩
      rw [hcombine] at houtput
      obtain rfl := Except.ok.inj houtput
      have hnames := hjoins.names
      rcases dropWhile_eq_nil_or path2 with ⟨-, hnil⟩ | ⟨e, s, hdrop, he, -⟩
      · exact hnil
      · obtain ⟨more, rest, -, hfirst⟩ := @exists_first_component c e he s
        rw [hdrop, List.singleton_append, hfirst hc,
          components_of_dividerFree (List.cons_ne_nil _ _) (List.forall_mem_singleton.mpr hc)] at hnames
        simp at hnames
    · intro hnil
      refine ⟨_, hcombine, ?_⟩
      rcases dropWhile_eq_nil_or path2 with ⟨hdrop, -⟩ | ⟨e, s, -, he, hsame⟩
      · rw [hdrop, List.append_nil]
        exact ⟨by rw [hnil, List.append_nil], Iff.rfl, fun _ hsome => absurd hnil hsome⟩
      · obtain ⟨more, rest, hfirst, -⟩ := @exists_first_component c e he s
        rw [hnil, hfirst] at hsame
        exact absurd hsame (by simp)
  · rw [forall_prop_of_false hone, iff_true]
    refine ⟨_, hcombine, (carries_firstPart hne ?_).joins hne path2⟩
    intro c hsingle hc
    by_contra hopen
    exact hone ⟨c, hsingle, hc, by simpa using hopen⟩

/-- The two functions join the paths unless the first one is a single byte that is not
closed with a divider. -/
theorem both_combine_iff (hne : path1 ≠ []) (path2 : Bytes) :
    (Combines uriPathCombine path1 path2 ↔
      ((∃ c, path1 = [c] ∧ c ≠ ascii '/') → components isDivider path2 = [])) ∧
    (Combines Posix01.platformPathCombine path1 path2 ↔
      ((∃ c, path1 = [c] ∧ c ≠ ascii '/' ∧ c ≠ ascii '.') → components isDivider path2 = [])) := by
  rw [combines_iff hne (uriPathCombine_eq hne path2),
    combines_iff hne (platformPathCombine_eq hne path2)]
  constructor
  · simp [isDivider]
  · refine imp_congr (exists_congr fun c => and_congr_right fun hc => ?_) Iff.rfl
    subst hc
    simp [isDivider, text]

theorem both_combine_iff_at :
    (Combines uriPathCombine (text ".") (text "a") ↔
      ((∃ c, text "." = [c] ∧ c ≠ ascii '/') → components isDivider (text "a") = [])) ∧
    (Combines Posix01.platformPathCombine (text ".") (text "a") ↔
      ((∃ c, text "." = [c] ∧ c ≠ ascii '/' ∧ c ≠ ascii '.') →
        components isDivider (text "a") = [])) :=
  both_combine_iff (by decide) (text "a")

theorem short_name_runs_on :
    ¬ Combines uriPathCombine (text "a") (text "b") ∧
      ¬ Combines Posix01.platformPathCombine (text "a") (text "b") := by
  have hnames : components isDivider (text "ab") ≠ [text "a", text "b"] := by decide
  constructor
  · rintro ⟨output, houtput, hjoins⟩
    obtain rfl : text "ab" = output := Except.ok.inj houtput
    exact hnames hjoins.names
  · rintro ⟨output, houtput, hjoins⟩
    obtain rfl : text "ab" = output := Except.ok.inj houtput
    exact hnames hjoins.names

end FirstParts

end Newth.Client.PathCombine
