import Newth.Client.PathWalk

namespace Newth.Client.PathAppend

open Newth.Library.ByteString
open Newth.Library.Call
open Newth.Library.PathComponents
open Newth.Platform.WebPath
open Newth.Client.PathWalk
open Newth.Client.Uri

section Resolving

/-- The names of a current path: not empty, and neither `.` nor `..`. -/
structure Name (s : Bytes) : Prop where
  segment : Segment s
  nonempty : s ≠ []
  dot : s ≠ text "."
  up : s ≠ text ".."

/-- `/`, or `/c1/../cn`. -/
def pathOf (names : List Bytes) : Bytes := if names = [] then text "/" else joined names

/-- What one component of a relative path does to the names before it. -/
def resolveStep (names : List Bytes) (s : Bytes) : List Bytes :=
  if s = [] ∨ s = text "." then names
  else if s = text ".." then names.dropLast
  else names ++ [s]

def resolve (names segs : List Bytes) : List Bytes := segs.foldl resolveStep names

/-- An output that starts with a slash and has these names for its components. -/
def Outputs (out : Option Bytes) (names : List Bytes) : Prop :=
  ∃ r, out = some r ∧ r.head? = some (ascii '/') ∧ components isDivider r = names

/-- The call returns a path to the names the relative path leads to. -/
def Resolves (names : List Bytes) (append : Bytes) : Prop :=
  ∃ r, uriPathAbsoluteAppend (pathOf names) append = .ok (some r) ∧
    r.head? = some (ascii '/') ∧ components isDivider r = resolve names (segments append)

/-- `/`, with the names `../` or `..x/` appended: the call returns without resolving. -/
def AtTrunk (names : List Bytes) (append : Bytes) : Prop :=
  append.take 2 = text ".." ∧ (append.length = 3 ∨ append[3]? = some (ascii '/')) ∧ names = []

instance (names : List Bytes) (append : Bytes) : Decidable (AtTrunk names append) :=
  inferInstanceAs (Decidable (_ ∧ _))

theorem components_slash : components isDivider (text "/") = [] := rfl

theorem resolve_cons (names : List Bytes) (s : Bytes) (segs : List Bytes) :
    resolve names (s :: segs) = resolve (resolveStep names s) segs := rfl

theorem components_pathOf {names : List Bytes} (hnames : ∀ s ∈ names, Name s) :
    components isDivider (pathOf names) = names := by
  rw [pathOf]
  split
  · rename_i hempty
    rw [hempty, components_slash]
  · rw [components_joined fun s hs => (hnames s hs).segment.1, List.filter_eq_self]
    intro s hs
    simpa using (hnames s hs).nonempty

theorem head_pathOf (names : List Bytes) : (pathOf names).head? = some (ascii '/') := by
  rw [pathOf]
  split
  · rfl
  · rename_i hne
    obtain ⟨s, rest, rfl⟩ := List.exists_cons_of_ne_nil hne
    rfl

end Resolving

section Combined

variable {names : List Bytes} {append : Bytes}

theorem pathOf_eq_slash_iff (hnames : ∀ s ∈ names, Name s) : pathOf names = text "/" ↔ names = [] := by
  constructor
  · intro h
    have hsame := components_pathOf hnames
    rw [h, components_slash] at hsame
    exact hsame.symm
  · rintro rfl
    rfl

theorem uriPathCombine_pathOf (hnames : ∀ s ∈ names, Name s)
    (hslash : append.head? ≠ some (ascii '/')) :
    uriPathCombine (pathOf names) append = .ok (joined (names ++ segments append)) := by
  have hkeep : append.dropWhile isDivider = append := by
    cases append with
    | nil => rfl
    | cons c append =>
        rw [List.dropWhile_cons_of_neg]
        intro hc
        rw [isDivider_iff.mp hc] at hslash
        exact hslash rfl
  rw [joined_append, joined_segments]
  rcases List.eq_nil_or_concat names with rfl | ⟨front, last, rfl⟩
  · have hroot : uriPathCombine (text "/") append = .ok (text "/" ++ append.dropWhile isDivider) := rfl
    rw [pathOf, if_pos rfl, hroot, hkeep]
    rfl
  · obtain ⟨⟨hfree, -⟩, hne, -, -⟩ := hnames last (by simp)
    obtain ⟨body, c, rfl⟩ : ∃ body c, last = body ++ [c] := by
      rcases List.eq_nil_or_concat last with rfl | ⟨body, c, rfl⟩
      · exact absurd rfl hne
      · exact ⟨body, c, by simp⟩
    obtain ⟨path, hpath⟩ : ∃ path, path = joined front ++ ascii '/' :: body := ⟨_, rfl⟩
    have hshape : joined (front.concat (body ++ [c])) = path ++ [c] := by
      rw [List.concat_eq_append, joined_append, joined_cons, joined_nil, List.append_nil, hpath,
        List.append_assoc, List.cons_append]
    have hc : isDivider c = false := by
      rw [Bool.eq_false_iff, ne_eq, isDivider_iff]
      rintro rfl
      exact hfree (by simp)
    have hget : (path ++ [c]).getD path.length 0 = c := by simp
    have hlast : lastKept isDivider (path ++ [c]) path.length = path.length :=
      lastKept_of_not_divider (by rw [hget]; exact hc)
    have hpos : path.length ≠ 0 := by
      rw [hpath, List.length_append, List.length_cons]
      omega
    have hlength : (path ++ [c]).length - 1 = path.length := by simp
    have htake : (path ++ [c]).take (path.length + 1) = path ++ [c] :=
      List.take_of_length_le (by simp)
    rw [pathOf, if_neg (by simp), uriPathCombine, hshape, if_neg (by simp)]
    simp only [hlength, hlast, ne_eq, hpos, not_false_eq_true, if_true, htake, hkeep]
    rw [List.append_assoc]
    rfl

theorem walk_names (hnames : ∀ s ∈ names, Name s) (o : Bytes) (segs : List Bytes) :
    walk false false o (names ++ segs) = walk false false (o ++ joined names) segs := by
  induction names generalizing o with
  | nil => simp
  | cons s names ih =>
      obtain ⟨-, hne, hdot, hup⟩ := hnames s (by simp)
      have hlead : lead false false s = text "/" := by
        rw [lead]
        split <;> rfl
      rw [List.cons_append, walk_name hdot (by simp) (fun h => absurd h hup), hlead,
        ih fun t ht => hnames t (by simp [ht]), joined_cons, List.append_assoc, List.append_assoc]
      rfl

theorem uriPathAbsoluteAppend_walk (hnames : ∀ s ∈ names, Name s) (htext : (0 : UInt8) ∉ append)
    (hslash : append.head? ≠ some (ascii '/')) (hdot : append ≠ text ".")
    (hup : append ≠ text "..") (htrunk : ¬ AtTrunk names append) :
    uriPathAbsoluteAppend (pathOf names) append =
      match walk false false (joined names) (segments append) with
      | some r => .ok (some r)
      | none => .error .outOfBounds := by
  have hsegs : ∀ t ∈ names ++ segments append, Segment t := by
    intro t ht
    rcases List.mem_append.mp ht with ht | ht
    · exact (hnames t ht).segment
    · exact segment_of_mem htext ht
  obtain ⟨⟨j, r⟩, hrun, hcomes⟩ := absoluteTurn_walk _ hsegs
  rw [walk_names hnames, List.nil_append] at hcomes
  have htrunk' : ¬ (append.take 2 = text ".." ∧
      (append.length = 3 ∨ append[3]? = some (ascii '/')) ∧ pathOf names = text "/") := by
    rw [pathOf_eq_slash_iff hnames]
    exact htrunk
  rw [uriPathAbsoluteAppend, if_neg hslash, if_neg hdot, if_neg hup, if_neg htrunk',
    if_neg (not_not_intro (head_pathOf names)), uriPathCombine_pathOf hnames hslash]
  simp only [ok_bind, hrun]
  cases hwalk : walk false false (joined names) (segments append) with
  | none =>
      rw [hwalk] at hcomes
      exact if_pos hcomes
  | some out =>
      rw [hwalk] at hcomes
      obtain ⟨hj, htake⟩ := hcomes
      rw [if_neg (Nat.not_lt.mpr hj), htake]

end Combined

section Growth

variable {o s : Bytes} {names segs : List Bytes}

/-- The bytes of a path that are no slashes. -/
def letters (path : Bytes) : Nat := path.countP (!isDivider ·)

theorem letters_append (a b : Bytes) : letters (a ++ b) = letters a + letters b := List.countP_append

theorem letters_segment (hs : ascii '/' ∉ s) : letters s = s.length := by
  rw [letters, List.countP_eq_length]
  intro c hc
  rw [Bool.not_eq_true', Bool.eq_false_iff, ne_eq, isDivider_iff]
  rintro rfl
  exact hs hc

theorem letters_components (path : Bytes) :
    letters path = (components isDivider path).flatten.length := by
  have hflatten : ∀ S : List Bytes, (S.filter (· ≠ [])).flatten = S.flatten := by
    intro S
    induction S with
    | nil => rfl
    | cons s S ih =>
        by_cases hs : s = []
        · simpa [hs] using ih
        · simpa [hs] using ih
  rw [components, hflatten]
  induction path with
  | nil => rfl
  | cons c path ih =>
      rw [List.splitOnP_cons_eq_if_modifyHead]
      by_cases hc : isDivider c = true
      · rw [if_pos hc, List.flatten_cons, List.nil_append, ← ih, letters, letters,
          List.countP_cons_of_neg (by simpa using hc)]
      · obtain ⟨t, S, hsplit⟩ := List.exists_cons_of_ne_nil (List.splitOnP_ne_nil isDivider path)
        rw [hsplit] at ih
        rw [if_neg hc, hsplit, List.modifyHead_cons, List.flatten_cons, List.cons_append,
          List.length_cons, ← List.flatten_cons, ← ih, letters, letters,
          List.countP_cons_of_pos (by simpa using hc)]

/-- The components a relative path without `..` adds. -/
def kept (segs : List Bytes) : List Bytes := segs.filter fun s => s ≠ [] ∧ s ≠ text "."

theorem resolve_of_no_up (hup : text ".." ∉ segs) : resolve names segs = names ++ kept segs := by
  induction segs generalizing names with
  | nil => simp [resolve, kept]
  | cons s segs ih =>
      simp only [List.mem_cons, not_or] at hup
      rw [resolve_cons, ih hup.2, resolveStep]
      by_cases hs : s = [] ∨ s = text "."
      · have hnot : ¬ (s ≠ [] ∧ s ≠ text ".") := by tauto
        rw [if_pos hs, kept, kept, List.filter_cons_of_neg (by simpa using hnot)]
      · have hboth : s ≠ [] ∧ s ≠ text "." := by tauto
        rw [if_neg hs, if_neg (Ne.symm hup.1), kept, kept,
          List.filter_cons_of_pos (by simpa using hboth), List.append_assoc]
        rfl

theorem components_length_append (hs : ascii '/' ∉ s) :
    (components isDivider (o ++ s)).length ≤ (components isDivider o).length + 1 := by
  have hone : ∀ d : Bytes, ascii '/' ∉ d → (components isDivider d).length ≤ 1 := by
    intro d hd
    rw [components_of_segment hd]
    exact List.length_filter_le _ _
  by_cases hslash : ascii '/' ∈ o
  · obtain ⟨a, d, rfl, hd⟩ := exists_last_split hslash
    have hlast : ascii '/' ∉ d ++ s := by
      simp only [List.mem_append, not_or]
      exact ⟨hd, hs⟩
    rw [List.append_assoc, List.cons_append, components_append_divider isDivider_slash,
      components_append_divider isDivider_slash, List.length_append, List.length_append]
    have hle := hone _ hlast
    omega
  · have hnone : ascii '/' ∉ o ++ s := by
      simp only [List.mem_append, not_or]
      exact ⟨hslash, hs⟩
    exact (hone _ hnone).trans (Nat.le_add_left 1 _)

/-- The output has more letters than the names, or as many in fewer components. -/
def Ahead (o : Bytes) (names : List Bytes) : Prop :=
  names.flatten.length < letters o ∨
    names.flatten.length = letters o ∧ (components isDivider o).length < names.length

theorem Ahead.grow {o' : Bytes} {added : List Bytes} (h : Ahead o names)
    (hgrow : letters o + added.flatten.length < letters o' ∨
      letters o + added.flatten.length = letters o' ∧
        (components isDivider o').length ≤ (components isDivider o).length + added.length) :
    Ahead o' (names ++ added) := by
  rw [Ahead, List.flatten_append, List.length_append, List.length_append]
  rw [Ahead] at h
  omega

theorem letters_lead (up dots : Bool) (s : Bytes) :
    lead up dots s = text "/" ∨ lead up dots s = [] ∨ lead up dots s = text "./" := by
  rw [lead]
  split
  · exact .inl rfl
  · split
    · split
      · exact .inr (.inr rfl)
      · exact .inr (.inl rfl)
    · split
      · exact .inr (.inr rfl)
      · exact .inl rfl

theorem components_append_slash (o s : Bytes) :
    components isDivider (o ++ text "/" ++ s) = components isDivider o ++ components isDivider s := by
  rw [List.append_assoc]
  exact components_append_divider isDivider_slash o s

theorem walk_ahead {up dots : Bool} (hsegs : ∀ t ∈ segs, Segment t) (hup : text ".." ∉ segs)
    (h : Ahead o names) :
    ∃ out, walk up dots o segs = some out ∧ Ahead out (names ++ kept segs) := by
  have hslash : ∀ o, components isDivider (o ++ text "/") = components isDivider o := by
    intro o
    have hnone := components_append_slash o []
    rw [List.append_nil] at hnone
    rw [hnone]
    exact List.append_nil _
  induction segs generalizing up dots o names with
  | nil =>
      refine ⟨_, rfl, h.grow ?_⟩
      split
      · refine .inl ?_
        rw [letters_append]
        show letters o + 0 < letters o + 1
        omega
      · exact .inr ⟨rfl, Nat.le_refl _⟩
  | cons s segs ih =>
      simp only [List.mem_cons, not_or] at hup
      have hs : Segment s := hsegs s (by simp)
      have hrest : ∀ t ∈ segs, Segment t := fun t ht => hsegs t (by simp [ht])
      by_cases hdot : s = text "."
      · have hkept : kept (s :: segs) = kept segs := by
          rw [kept, kept, List.filter_cons_of_neg (by simp [hdot])]
        rw [walk, if_pos hdot, hkept]
        exact ih hrest hup.2 h
      · by_cases hend : dots ∧ s = [] ∧ segs = []
        · obtain ⟨hdots, rfl, rfl⟩ := hend
          rw [walk, if_neg hdot, if_pos ⟨hdots, rfl, rfl⟩]
          refine ⟨_, rfl, h.grow (.inr ?_)⟩
          split
          · rw [letters_append, hslash]
            exact ⟨rfl, Nat.le_refl _⟩
          · exact ⟨rfl, Nat.le_refl _⟩
        · rw [walk_name hdot hend (fun hs => absurd hs.symm hup.1)]
          by_cases hempty : s = []
          · have hkept : kept (s :: segs) = kept segs := by
              rw [kept, kept, List.filter_cons_of_neg (by simp [hempty])]
            have hlead : lead up dots s = text "/" := by
              rw [hempty]
              exact if_pos (by simp)
            rw [hkept, hlead, hempty, List.append_nil]
            apply ih hrest hup.2
            have hstep : Ahead (o ++ text "/") (names ++ []) := by
              refine h.grow (.inr ?_)
              rw [letters_append, hslash]
              exact ⟨rfl, Nat.le_refl _⟩
            rwa [List.append_nil] at hstep
          · have hkept : kept (s :: segs) = [s] ++ kept segs := by
              rw [kept, kept, List.filter_cons_of_pos (by simp [hempty, hdot])]
              rfl
            have hlength : [s].flatten.length = s.length := by simp
            have hlast := letters_segment hs.1
            rw [hkept, ← List.append_assoc]
            apply ih hrest hup.2
            apply h.grow
            rw [hlength, letters_append, letters_append, hlast]
            rcases letters_lead up dots s with hlead | hlead | hlead
            · rw [hlead, components_append_slash, components_of_segment hs.1, List.length_append]
              exact .inr ⟨rfl, Nat.add_le_add_left (List.length_filter_le _ _) _⟩
            · rw [hlead, List.append_nil]
              exact .inr ⟨rfl, components_length_append hs.1⟩
            · rw [hlead]
              refine .inl ?_
              show letters o + s.length < letters o + 1 + s.length
              omega

theorem not_outputs_of_ahead {up dots : Bool} (hsegs : ∀ t ∈ segs, Segment t) (h : Ahead o names)
    (hout : Outputs (walk up dots o segs) (resolve names segs)) : text ".." ∈ segs := by
  by_contra hup
  obtain ⟨out, hwalk, hahead⟩ := @walk_ahead o names segs up dots hsegs hup h
  obtain ⟨out', hsame, -, hcomponents⟩ := hout
  rw [hwalk] at hsame
  obtain rfl := Option.some.inj hsame
  rw [Ahead, letters_components, hcomponents, resolve_of_no_up hup] at hahead
  omega

theorem walk_head {up dots : Bool} {c : UInt8} {out : Bytes} (ho : o.head? = some c)
    (h : walk up dots o segs = some out) : out.head? = some c := by
  have happend : ∀ (o a : Bytes), o.head? = some c → (o ++ a).head? = some c := by
    intro o a ho
    rw [List.head?_append, ho]
    rfl
  have htake : ∀ (o : Bytes) (j : Nat), j ≠ 0 → o.head? = some c → (o.take j).head? = some c := by
    intro o j hj ho
    rw [List.head?_take, if_neg hj, ho]
  induction segs generalizing up dots o with
  | nil =>
      obtain rfl := Option.some.inj h
      split
      · exact happend _ _ ho
      · exact ho
  | cons s segs ih =>
      rw [walk] at h
      split at h
      · exact ih ho h
      · split at h
        · obtain rfl := Option.some.inj h
          split
          · exact happend _ _ ho
          · exact ho
        · split at h
          · have ho' : (if up ∨ dots then o ++ text "." else o).head? = some c := by
              split
              · exact happend _ _ ho
              · exact ho
            simp only at h
            generalize (if up = true ∨ dots = true then o ++ text "." else o) = o' at h ho'
            split at h
            · split at h
              · contradiction
              · obtain rfl := Option.some.inj h
                exact htake _ 1 (by decide) ho'
            · rename_i hj
              exact ih (htake _ _ hj ho') h
          · exact ih (happend _ _ (happend _ _ ho)) h

end Growth

section Settling

variable {S segs : List Bytes} {up dots : Bool}

theorem backOver_last (a : Bytes) {d : Bytes} (hd : ascii '/' ∉ d) :
    backOver (a ++ ascii '/' :: d) (a ++ ascii '/' :: d).length = a.length := by
  have hall : ∀ k, a.length < k → k ≤ (a ++ ascii '/' :: d).length →
      backOver (a ++ ascii '/' :: d) k = a.length := by
    intro k hlow hhigh
    induction k with
    | zero => contradiction
    | succ k ih =>
        rw [List.length_append, List.length_cons] at hhigh ih
        rw [backOver]
        by_cases hk : k = a.length
        · have hslash : (a ++ ascii '/' :: d).getD k 0 = ascii '/' := by simp [hk]
          rw [if_pos (.inr hslash), hk]
        · obtain ⟨n, rfl⟩ : ∃ n, k = a.length + (n + 1) := ⟨k - a.length - 1, by omega⟩
          have hother : (a ++ ascii '/' :: d).getD (a.length + (n + 1)) 0 ≠ ascii '/' := by
            have hn : n < d.length := by omega
            have hget : (a ++ ascii '/' :: d).getD (a.length + (n + 1)) 0 = d[n] := by
              simp [List.getD_eq_getElem?_getD, hn]
            rw [hget]
            rintro hslash
            exact hd (hslash ▸ List.getElem_mem hn)
          rw [if_neg]
          · exact ih (by omega) (by omega)
          · rintro (hzero | hslash)
            · omega
            · exact hother hslash
  exact hall _ (by rw [List.length_append, List.length_cons]; omega) (Nat.le_refl _)

/-- The relative path is resolved from the segments `S` on, behind `..` when `up` holds
and behind a run of `.` when `dots` does, unless it comes to a place where the loop loses or
adds something: there the segments behind it must `repair` the path. -/
def Settles (repair : List Bytes → Prop) (up dots : Bool) (S : List Bytes) : List Bytes → Prop
  | [] => S ≠ [] ∧ ¬ (up ∧ dots)
  | s :: rest =>
      if s = text "." then Settles repair up true S rest
      else if dots ∧ s = [] ∧ rest = [] then S ≠ []
      else if s = text ".." then
        if S = [] then False
        else if up ∧ dots then repair rest
        -- the call returns at the root and does not look at the rest
        else if S.length = 1 then resolve [] rest = []
        -- only a slash is taken back
        else if S.getLast? = some [] ∧ S.filter (· ≠ []) ≠ [] then repair rest
        else Settles repair true false S.dropLast rest
      else if lead up dots s = text "/" then Settles repair false false (S ++ [s]) rest
      else if S = [] then False
      -- the slash in front of the name is lost, which does no harm behind another one
      else if lead up dots s = [] ∧ S.getLast? = some [] then
        Settles repair false false (S.dropLast ++ [s]) rest
      else repair rest

instance decidableSettles {repair : List Bytes → Prop} [DecidablePred repair] (up dots : Bool)
    (S : List Bytes) : (segs : List Bytes) → Decidable (Settles repair up dots S segs)
  | [] => inferInstanceAs (Decidable (S ≠ [] ∧ ¬ (up ∧ dots)))
  | s :: rest =>
      have : ∀ up dots S, Decidable (Settles repair up dots S rest) :=
        fun up dots S => decidableSettles up dots S rest
      inferInstanceAs (Decidable (if s = text "." then Settles repair up true S rest
        else if dots ∧ s = [] ∧ rest = [] then S ≠ []
        else if s = text ".." then
          if S = [] then False
          else if up ∧ dots then repair rest
          else if S.length = 1 then resolve [] rest = []
          else if S.getLast? = some [] ∧ S.filter (· ≠ []) ≠ [] then repair rest
          else Settles repair true false S.dropLast rest
        else if lead up dots s = text "/" then Settles repair false false (S ++ [s]) rest
        else if S = [] then False
        else if lead up dots s = [] ∧ S.getLast? = some [] then
          Settles repair false false (S.dropLast ++ [s]) rest
        else repair rest))

/-- The two bounds of an output: it is right when no repair is needed, and needs a `..` behind
every place that must be repaired to be right. -/
def Bounded (up dots : Bool) (S segs : List Bytes) (holds : Prop) : Prop :=
  (Settles (fun _ => False) up dots S segs → holds) ∧
    (holds → Settles (fun rest => text ".." ∈ rest) up dots S segs)

theorem letters_joined (hS : ∀ t ∈ S, ascii '/' ∉ t) :
    letters (joined S) = (S.filter (· ≠ [])).flatten.length := by
  rw [letters_components, components_joined hS]

theorem flatten_dropLast_le (names : List Bytes) :
    names.dropLast.flatten.length ≤ names.flatten.length := by
  rcases List.eq_nil_or_concat names with rfl | ⟨front, last, rfl⟩
  · exact Nat.le_refl _
  · rw [List.concat_eq_append, List.dropLast_concat, List.flatten_append, List.length_append]
    exact Nat.le_add_right _ _

theorem outputs_joined_iff (hS : ∀ t ∈ S, ascii '/' ∉ t) :
    Outputs (some (joined S)) (S.filter (· ≠ [])) ↔ S ≠ [] := by
  constructor
  · rintro ⟨r, hr, hhead, -⟩ rfl
    obtain rfl := Option.some.inj hr
    simp at hhead
  · intro hne
    obtain ⟨s, rest, rfl⟩ := List.exists_cons_of_ne_nil hne
    exact ⟨_, rfl, rfl, components_joined hS⟩

/-- Where the output has come to be ahead of the names, only a `..` can repair it. -/
theorem repaired_of_ahead {o : Bytes} {names : List Bytes} (hsegs : ∀ t ∈ segs, Segment t)
    (h : Ahead o names) :
    (False → Outputs (walk up dots o segs) (resolve names segs)) ∧
      (Outputs (walk up dots o segs) (resolve names segs) → text ".." ∈ segs) :=
  ⟨False.elim, not_outputs_of_ahead hsegs h⟩

theorem bounded_nil (hS : ∀ t ∈ S, ascii '/' ∉ t) :
    Bounded up dots S [] (Outputs (walk up dots (joined S) []) (S.filter (· ≠ []))) := by
  by_cases hboth : up = true ∧ dots = true
  · have hahead : Ahead (joined S ++ text ".") (S.filter (· ≠ [])) := by
      refine .inl ?_
      rw [letters_append, letters_joined hS]
      exact Nat.lt_succ_self _
    have hwrong : Outputs (walk false false (joined S ++ text ".") [])
        (resolve (S.filter (· ≠ [])) []) → text ".." ∈ ([] : List Bytes) :=
      (repaired_of_ahead (by simp) hahead).2
    rw [Bounded, walk, if_pos hboth]
    refine ⟨fun h => absurd hboth h.2, fun h => ?_⟩
    exact absurd (hwrong h) (by simp)
  · rw [Bounded, walk, if_neg hboth, outputs_joined_iff hS]
    exact ⟨fun h => h.1, fun h => ⟨h, hboth⟩⟩

theorem bounded_up {rest : List Bytes} (hS : ∀ t ∈ S, ascii '/' ∉ t)
    (hrest : ∀ t ∈ rest, Segment t) (hup : up = true → S ≠ [])
    (ih : ∀ S' : List Bytes, (∀ t ∈ S', ascii '/' ∉ t) → S' ≠ [] → Bounded true false S' rest
      (Outputs (walk true false (joined S') rest) (resolve (S'.filter (· ≠ [])) rest))) :
    Bounded up dots S (text ".." :: rest) (Outputs (walk up dots (joined S) (text ".." :: rest))
      (resolve (S.filter (· ≠ [])).dropLast rest)) := by
  have hsettles : ∀ repair, Settles repair up dots S (text ".." :: rest) ↔
      S ≠ [] ∧ if up ∧ dots then repair rest
        else if S.length = 1 then resolve [] rest = []
        else if S.getLast? = some [] ∧ S.filter (· ≠ []) ≠ [] then repair rest
        else Settles repair true false S.dropLast rest := by
    intro repair
    rw [Settles, if_neg (by decide), if_neg (fun h => absurd h.2.1 (by decide)), if_pos rfl]
    split <;> simp [*]
  rw [Bounded, hsettles, hsettles]
  rcases List.eq_nil_or_concat S with rfl | ⟨front, last, rfl⟩
  · have hup : up = false := by simpa using hup
    subst hup
    simp only [ne_eq, not_true_eq_false, false_and, false_implies, true_and, imp_false]
    rintro ⟨r, hr, hhead, -⟩
    rw [walk_up (by simp)] at hr
    cases dots with
    | false => simp [backOver] at hr
    | true =>
        obtain rfl : text "." = r := Option.some.inj hr
        exact absurd hhead (by decide)
  rw [List.concat_eq_append] at hS ⊢
  have hne : front ++ [last] ≠ [] := by simp
  simp only [ne_eq, hne, not_false_eq_true, true_and]
  have hfront : ∀ t ∈ front, ascii '/' ∉ t := fun t ht => hS t (by simp [ht])
  by_cases hboth : up = true ∧ dots = true
  · simp only [if_pos hboth]
    have hlead : lead up dots (text "..") = [] := by
      rw [hboth.1, hboth.2]
      rfl
    rw [walk_name (by decide) (fun h => absurd h.2.1 (by decide)) (fun _ => hboth), hlead,
      List.append_nil]
    apply repaired_of_ahead hrest
    refine .inl ?_
    rw [letters_append, letters_joined hS]
    exact Nat.lt_of_le_of_lt (flatten_dropLast_le _) (Nat.lt_add_of_pos_right (by decide))
  · simp only [if_neg hboth]
    obtain ⟨d, hd, ho⟩ : ∃ d, ascii '/' ∉ d ∧
        (if up = true ∨ dots = true then joined (front ++ [last]) ++ text "."
          else joined (front ++ [last])) = joined front ++ ascii '/' :: d := by
      have hlast : ascii '/' ∉ last := hS last (by simp)
      rw [joined_append, joined_cons, joined_nil, List.append_nil]
      split
      · refine ⟨last ++ text ".", ?_, by rw [List.append_assoc, List.cons_append]⟩
        simp only [List.mem_append, not_or]
        exact ⟨hlast, by decide⟩
      · exact ⟨last, hlast, rfl⟩
    rw [walk_up hboth, ho]
    simp only [backOver_last _ hd, List.take_left]
    by_cases hroot : front = []
    · subst hroot
      have hnone : ([last].filter (· ≠ [])).dropLast = [] := by
        by_cases hempty : last = [] <;> simp [hempty]
      simp only [joined_nil, List.length_nil, List.nil_append, List.length_singleton, if_true,
        reduceCtorEq, if_false, hnone]
      constructor
      · intro hresolve
        exact ⟨_, rfl, rfl, by rw [hresolve]; rfl⟩
      · rintro ⟨r, hr, -, hcomponents⟩
        obtain rfl : text "/" = r := Option.some.inj hr
        rw [← hcomponents, components_slash]
    · have hj : (joined front).length ≠ 0 := by
        obtain ⟨s, front, rfl⟩ := List.exists_cons_of_ne_nil hroot
        simp
      have hlength : (front ++ [last]).length ≠ 1 := by
        have hpos := List.length_pos_of_ne_nil hroot
        rw [List.length_append, List.length_singleton]
        omega
      have hlast : (front ++ [last]).getLast? = some last := by simp
      simp only [if_neg hj, if_neg hlength, hlast, Option.some.injEq, List.dropLast_concat]
      by_cases hslash : last = [] ∧ (front ++ [last]).filter (· ≠ []) ≠ []
      · simp only [if_pos hslash]
        apply repaired_of_ahead hrest
        obtain ⟨rfl, hnames⟩ := hslash
        have hnone : (front ++ [[]]).filter (· ≠ []) = front.filter (· ≠ []) := by simp
        rw [hnone] at hnames ⊢
        refine .inl ?_
        rw [letters_joined hfront]
        obtain ⟨names, name, hlast⟩ : ∃ names name, front.filter (· ≠ []) = names ++ [name] := by
          rcases List.eq_nil_or_concat (front.filter (· ≠ [])) with hnil | ⟨names, name, hlast⟩
          · exact absurd hnil hnames
          · exact ⟨names, name, by rw [hlast, List.concat_eq_append]⟩
        have hmem : name ∈ front.filter (· ≠ []) := by
          rw [hlast]
          exact List.mem_append_right _ (List.mem_singleton_self name)
        have hpos : 0 < name.length := by
          rw [List.length_pos_iff]
          simpa using (List.mem_filter.mp hmem).2
        rw [hlast, List.dropLast_concat, List.flatten_append, List.length_append]
        simpa using hpos
      · simp only [if_neg hslash]
        have hsame : ((front ++ [last]).filter (· ≠ [])).dropLast = front.filter (· ≠ []) := by
          rw [List.filter_append] at hslash ⊢
          by_cases hempty : last = []
          · have hnone : front.filter (· ≠ []) = [] := by
              by_contra hsome
              exact hslash ⟨hempty, by simpa [hempty] using hsome⟩
            rw [hnone, hempty]
            rfl
          · simp [hempty]
        rw [hsame]
        exact ih front hfront hroot

theorem bounded_name {s : Bytes} {rest : List Bytes} (hS : ∀ t ∈ S, ascii '/' ∉ t)
    (hs : Segment s) (hrest : ∀ t ∈ rest, Segment t) (hdot : s ≠ text ".") (hup : s ≠ text "..")
    (hend : ¬ (dots ∧ s = [] ∧ rest = []))
    (ih : ∀ S' : List Bytes, (∀ t ∈ S', ascii '/' ∉ t) → Bounded false false S' rest
      (Outputs (walk false false (joined S') rest) (resolve (S'.filter (· ≠ [])) rest))) :
    Bounded up dots S (s :: rest) (Outputs (walk up dots (joined S) (s :: rest))
      (resolve ((S ++ [s]).filter (· ≠ [])) rest)) := by
  have hsettles : ∀ repair, Settles repair up dots S (s :: rest) =
      if lead up dots s = text "/" then Settles repair false false (S ++ [s]) rest
      else if S = [] then False
      else if lead up dots s = [] ∧ S.getLast? = some [] then
        Settles repair false false (S.dropLast ++ [s]) rest
      else repair rest := fun repair => by
    rw [Settles, if_neg hdot, if_neg hend, if_neg hup]
  have hsnoc : ∀ T : List Bytes, (∀ t ∈ T, ascii '/' ∉ t) → ∀ t ∈ T ++ [s], ascii '/' ∉ t := by
    intro T hT t ht
    rcases List.mem_append.mp ht with ht | ht
    · exact hT t ht
    · rw [List.mem_singleton.mp ht]
      exact hs.1
  rw [Bounded, hsettles, hsettles, walk_name hdot hend (fun h => absurd h hup)]
  by_cases hlead : lead up dots s = text "/"
  · have hjoined : joined S ++ text "/" ++ s = joined (S ++ [s]) := by
      rw [joined_append, joined_cons, joined_nil, List.append_nil, List.append_assoc]
      rfl
    rw [if_pos hlead, if_pos hlead, hlead, hjoined]
    exact ih _ (hsnoc S hS)
  have hhidden : s.head? = some (ascii '.') := by
    by_contra hother
    exact hlead (if_pos hother)
  have hne : s ≠ [] := by
    rintro rfl
    simp at hhidden
  have hlast := letters_segment hs.1
  rw [if_neg hlead, if_neg hlead]
  by_cases hempty : S = []
  · subst hempty
    simp only [if_true, false_implies, true_and]
    rintro ⟨r, hr, hhead, -⟩
    have hfirst : (joined [] ++ lead up dots s ++ s).head? = some (ascii '.') := by
      rcases letters_lead up dots s with h | h | h
      · exact absurd h hlead
      · rw [h]
        exact hhidden
      · rw [h]
        rfl
    rw [walk_head hfirst hr] at hhead
    exact absurd hhead (by decide)
  rw [if_neg hempty, if_neg hempty]
  obtain ⟨front, last, rfl⟩ : ∃ front last, S = front ++ [last] := by
    rcases List.eq_nil_or_concat S with hnil | ⟨front, last, hsplit⟩
    · exact absurd hnil hempty
    · exact ⟨front, last, by rw [hsplit, List.concat_eq_append]⟩
  have hfront : ∀ t ∈ front, ascii '/' ∉ t := fun t ht => hS t (by simp [ht])
  rcases letters_lead up dots s with h | h | h
  · exact absurd h hlead
  · simp only [h, List.append_nil, List.getLast?_concat, Option.some.injEq, true_and,
      List.dropLast_concat]
    by_cases hslash : last = []
    · subst hslash
      have hjoined : joined (front ++ [[]]) ++ s = joined (front ++ [s]) := by
        simp [joined_append]
      have hnames : (front ++ [[]] ++ [s]).filter (· ≠ []) = (front ++ [s]).filter (· ≠ []) := by
        simp
      rw [if_pos rfl, if_pos rfl, hjoined, hnames]
      exact ih _ (hsnoc front hfront)
    · rw [if_neg hslash, if_neg hslash]
      apply repaired_of_ahead hrest
      have hmerged : ascii '/' ∉ last ++ s := by
        simp only [List.mem_append, not_or]
        exact ⟨hS last (by simp), hs.1⟩
      have hoccupied : last ++ s ≠ [] := by simp [hne]
      have hjoined : joined (front ++ [last]) ++ s = joined (front ++ [last ++ s]) := by
        simp [joined_append]
      have hnames : (front ++ [last] ++ [s]).filter (· ≠ []) =
          front.filter (· ≠ []) ++ [last, s] := by
        simp [hslash, hne]
      have hmergedNames : (front ++ [last ++ s]).filter (· ≠ []) =
          front.filter (· ≠ []) ++ [last ++ s] := by
        simp [hne]
      have hfree : ∀ t ∈ front ++ [last ++ s], ascii '/' ∉ t := by
        intro t ht
        rcases List.mem_append.mp ht with ht | ht
        · exact hfront t ht
        · rw [List.mem_singleton.mp ht]
          exact hmerged
      refine .inr ⟨?_, ?_⟩
      · rw [hjoined, letters_joined hfree, hnames, hmergedNames]
        simp
      · rw [hjoined, components_joined hfree, hnames, hmergedNames]
        simp
  · have hother : ¬ (lead up dots s = [] ∧ (front ++ [last]).getLast? = some []) := by
      rw [h]
      exact fun hnone => absurd hnone.1 (by decide)
    rw [if_neg hother, if_neg hother, h]
    apply repaired_of_ahead hrest
    have hnames : (front ++ [last] ++ [s]).filter (· ≠ []) =
        (front ++ [last]).filter (· ≠ []) ++ [s] := by
      rw [List.filter_append]
      simp [hne]
    refine .inl ?_
    rw [hnames, letters_append, letters_append, letters_joined hS, hlast, List.flatten_append,
      List.length_append, List.flatten_singleton]
    show _ < _ + 1 + s.length
    omega

theorem walk_bounded (hS : ∀ t ∈ S, ascii '/' ∉ t) (hsegs : ∀ t ∈ segs, Segment t)
    (hup : up = true → S ≠ []) :
    Bounded up dots S segs
      (Outputs (walk up dots (joined S) segs) (resolve (S.filter (· ≠ [])) segs)) := by
  induction segs generalizing up dots S with
  | nil => exact bounded_nil hS
  | cons s rest ih =>
      have hs : Segment s := hsegs s (by simp)
      have hrest : ∀ t ∈ rest, Segment t := fun t ht => hsegs t (by simp [ht])
      by_cases hdot : s = text "."
      · have hsettles : ∀ repair, Settles repair up dots S (s :: rest) =
            Settles repair up true S rest := fun repair => by rw [Settles, if_pos hdot]
        rw [Bounded, hsettles, hsettles, walk, if_pos hdot, resolve_cons, resolveStep,
          if_pos (.inr hdot)]
        exact ih hS hrest hup
      · by_cases hend : dots ∧ s = [] ∧ rest = []
        · have hsettles : ∀ repair, Settles repair up dots S (s :: rest) = (S ≠ []) :=
            fun repair => by rw [Settles, if_neg hdot, if_pos hend]
          have hsame : resolve (S.filter (· ≠ [])) (s :: rest) = S.filter (· ≠ []) := by
            rw [hend.2.2, resolve_cons, resolveStep, if_pos (.inl hend.2.1)]
            rfl
          rw [Bounded, hsettles, hsettles, walk, if_neg hdot, if_pos hend, hsame]
          by_cases hafter : up = true
          · have hne := hup hafter
            rw [if_pos hafter]
            refine ⟨fun _ => ⟨_, rfl, ?_, ?_⟩, fun _ => hne⟩
            · obtain ⟨t, S, rfl⟩ := List.exists_cons_of_ne_nil hne
              rfl
            · have hslash := components_append_slash (joined S) []
              rw [List.append_nil] at hslash
              rw [hslash, components_joined hS]
              exact List.append_nil _
          · rw [if_neg hafter, outputs_joined_iff hS]
            exact ⟨id, id⟩
        · by_cases hparent : s = text ".."
          · subst hparent
            exact bounded_up hS hrest hup fun S' hS' hne => ih hS' hrest fun _ => hne
          · have hresolve : resolve (S.filter (· ≠ [])) (s :: rest) =
                resolve ((S ++ [s]).filter (· ≠ [])) rest := by
              rw [resolve_cons, resolveStep, List.filter_append]
              by_cases hempty : s = []
              · simp [hempty]
              · simp [hempty, hdot, hparent]
            rw [hresolve]
            exact bounded_name hS hs hrest hdot hparent hend
              fun S' hS' => ih hS' hrest (by simp)

end Settling

/-- The relative path is resolved from the names on, with `repair` for what goes wrong. -/
def Settled (repair : List Bytes → Prop) (names : List Bytes) (append : Bytes) : Prop :=
  if append = text "." then True
  -- the byte behind the terminator is read
  else if append = text ".." then False
  else if AtTrunk names append then resolve [] (segments append) = []
  else Settles repair false false names (segments append)

instance {repair : List Bytes → Prop} [DecidablePred repair] (names : List Bytes)
    (append : Bytes) : Decidable (Settled repair names append) :=
  inferInstanceAs (Decidable (if append = text "." then True
    else if append = text ".." then False
    else if AtTrunk names append then resolve [] (segments append) = []
    else Settles repair false false names (segments append)))

/-- A relative path is resolved when it is settled, and where it is resolved although it is not,
a `..` follows the place that goes wrong. -/
theorem append_resolves {names : List Bytes} {append : Bytes} (hnames : ∀ s ∈ names, Name s)
    (htext : (0 : UInt8) ∉ append) (hslash : append.head? ≠ some (ascii '/')) :
    (Settled (fun _ => False) names append → Resolves names append) ∧
      (Resolves names append → Settled (fun rest => text ".." ∈ rest) names append) := by
  have hfree : ∀ s ∈ names, ascii '/' ∉ s := fun s hs => (hnames s hs).segment.1
  have hself : names.filter (· ≠ []) = names := by
    rw [List.filter_eq_self]
    intro s hs
    simpa using (hnames s hs).nonempty
  rw [Settled, Settled]
  by_cases hdot : append = text "."
  · have hcall : uriPathAbsoluteAppend (pathOf names) append = .ok (some (pathOf names)) := by
      rw [uriPathAbsoluteAppend, if_neg hslash, if_pos hdot]
    have hresolve : resolve names (segments append) = names := by
      rw [hdot]
      rfl
    rw [if_pos hdot, if_pos hdot]
    refine ⟨fun _ => ⟨_, hcall, head_pathOf names, ?_⟩, fun _ => trivial⟩
    rw [components_pathOf hnames, hresolve]
  by_cases hup : append = text ".."
  · have hcall : uriPathAbsoluteAppend (pathOf names) append = .error .outOfBounds := by
      rw [uriPathAbsoluteAppend, if_neg hslash, if_neg hdot, if_pos hup]
    rw [if_neg hdot, if_neg hdot, if_pos hup, if_pos hup]
    refine ⟨False.elim, ?_⟩
    rintro ⟨r, hr, -⟩
    rw [hcall] at hr
    contradiction
  rw [if_neg hdot, if_neg hdot, if_neg hup, if_neg hup]
  by_cases htrunk : AtTrunk names append
  · have hcall : uriPathAbsoluteAppend (pathOf names) append = .ok (some (text "/")) := by
      obtain ⟨hdots, hthird, hroot⟩ := htrunk
      have hpath : pathOf names = text "/" := if_pos hroot
      rw [uriPathAbsoluteAppend, if_neg hslash, if_neg hdot, if_neg hup, if_pos ⟨hdots, hthird, hpath⟩]
    rw [if_pos htrunk, if_pos htrunk]
    rw [Resolves, hcall, htrunk.2.2]
    constructor
    · intro hresolve
      exact ⟨_, rfl, rfl, by rw [hresolve]; rfl⟩
    · rintro ⟨r, hr, -, hcomponents⟩
      obtain rfl : text "/" = r := Option.some.inj (Except.ok.inj hr)
      rw [← hcomponents, components_slash]
  · have hbounded : Bounded false false names (segments append) _ :=
      walk_bounded hfree (fun t ht => segment_of_mem htext ht) (by simp)
    have hcall := uriPathAbsoluteAppend_walk hnames htext hslash hdot hup htrunk
    have hsame : Resolves names append ↔
        Outputs (walk false false (joined names) (segments append))
          (resolve names (segments append)) := by
      rw [Resolves, Outputs, hcall]
      cases walk false false (joined names) (segments append) <;> simp
    rw [if_neg htrunk, if_neg htrunk, hsame]
    rw [hself] at hbounded
    exact hbounded

theorem append_resolves_sibling :
    Resolves [text "animal", text "dog"] (text "./../cat/../fish") := by
  have hnames : ∀ s ∈ [text "animal", text "dog"], Name s := by
    intro s hs
    rcases List.mem_pair.mp hs with rfl | rfl
    · exact ⟨⟨by decide, by decide⟩, by decide, by decide, by decide⟩
    · exact ⟨⟨by decide, by decide⟩, by decide, by decide, by decide⟩
  exact (append_resolves hnames (by decide) (by decide)).1 (by decide +kernel)

/-- A hidden name behind `.` is glued to the name before it. -/
theorem append_glues_name : ¬ Resolves [text "animal", text "dog"] (text "./.collar") := by
  rintro ⟨r, hr, -, hcomponents⟩
  have hcall : uriPathAbsoluteAppend (pathOf [text "animal", text "dog"]) (text "./.collar") =
      .ok (some (text "/animal/dog.collar")) := by decide +kernel
  rw [hcall] at hr
  obtain rfl : text "/animal/dog.collar" = r := Option.some.inj (Except.ok.inj hr)
  exact absurd hcomponents (by decide +kernel)

end Newth.Client.PathAppend
