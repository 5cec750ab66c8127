import Newth.Client.Uri
import Newth.Library.PathComponents

namespace Newth.Client.PathWalk

open Newth.Library.ByteString
open Newth.Library.Call
open Newth.Library.PathComponents
open Newth.Client.Uri

section Segments

/-- What stands between the slashes of a path. -/
def segments (path : Bytes) : List Bytes := path.splitOnP isDivider

/-- A path of segments with a slash in front of each. -/
def joined (S : List Bytes) : Bytes := S.flatMap (ascii '/' :: ·)

/-- A text that may stand between two slashes of a C string. -/
def Segment (s : Bytes) : Prop := ascii '/' ∉ s ∧ (0 : UInt8) ∉ s

@[simp]
theorem joined_nil : joined [] = [] := rfl

@[simp]
theorem joined_cons (s : Bytes) (S : List Bytes) : joined (s :: S) = ascii '/' :: (s ++ joined S) :=
  rfl

theorem joined_append (S T : List Bytes) : joined (S ++ T) = joined S ++ joined T :=
  List.flatMap_append

theorem isDivider_iff {c : UInt8} : isDivider c = true ↔ c = ascii '/' := by
  simp [isDivider]

theorem isDivider_slash : isDivider (ascii '/') = true := rfl

theorem joined_segments (path : Bytes) : joined (segments path) = ascii '/' :: path := by
  induction path with
  | nil => rfl
  | cons c path ih =>
      rw [segments, List.splitOnP_cons_eq_if_modifyHead]
      rw [segments] at ih
      by_cases hc : isDivider c = true
      · rw [if_pos hc, joined_cons, ih, isDivider_iff.mp hc]
        rfl
      · rw [if_neg hc]
        obtain ⟨s, S, hsplit⟩ := List.exists_cons_of_ne_nil (List.splitOnP_ne_nil isDivider path)
        rw [hsplit, joined_cons, List.cons.injEq] at ih
        rw [hsplit, List.modifyHead_cons, joined_cons, List.cons_append, ih.2]

theorem segment_of_mem {path s : Bytes} (htext : (0 : UInt8) ∉ path) (hs : s ∈ segments path) :
    Segment s := by
  obtain ⟨hfree, pre, post, rfl, -, -⟩ := mem_splitOnP_iff.mp hs
  refine ⟨fun hmem => ?_, fun hmem => htext ?_⟩
  · have hdivider := hfree _ hmem
    rw [isDivider_slash] at hdivider
    contradiction
  · simp [hmem]

theorem components_of_segment {s : Bytes} (hs : ascii '/' ∉ s) :
    components isDivider s = [s].filter (· ≠ []) := by
  rw [components, List.splitOnP_eq_singleton]
  intro x hx
  rw [Bool.eq_false_iff, ne_eq, isDivider_iff]
  rintro rfl
  exact hs hx

theorem components_joined {S : List Bytes} (hS : ∀ s ∈ S, ascii '/' ∉ s) :
    components isDivider (joined S) = S.filter (· ≠ []) := by
  induction S using List.reverseRecOn with
  | nil => rfl
  | append_singleton S s ih =>
      have hs := hS s (by simp)
      rw [joined_append, joined_cons, joined_nil, List.append_nil,
        components_append_divider isDivider_slash, ih fun t ht => hS t (by simp [ht]),
        components_of_segment hs, List.filter_append]

end Segments

section Walk

/-- What is written in front of a segment that is kept: behind `..`, and behind a run of `.`. -/
def lead (up dots : Bool) (s : Bytes) : Bytes :=
  if s.head? ≠ some (ascii '.') then text "/"
  else if dots then (if up = false ∧ s.take 2 = text ".." then text "./" else [])
  else if up then text "./" else text "/"

/-- The loop of `uriPathAbsoluteAppend` from one segment to the next: `o` is the output
so far, `up` tells that the last name was removed from it by `..`, and `dots` that a run
of `.` was skipped. `none` is an output that was not written. -/
def walk (up dots : Bool) (o : Bytes) : List Bytes → Option Bytes
  | [] => some (if up ∧ dots then o ++ text "." else o)
  | s :: rest =>
      if s = text "." then walk up true o rest
      else if dots ∧ s = [] ∧ rest = [] then some (if up then o ++ text "/" else o)
      else if s = text ".." ∧ ¬ (up ∧ dots) then
        let o := if up ∨ dots then o ++ text "." else o
        let j := backOver o o.length
        if j = 0 then (if o = [] then none else some (o.take 1))
        else walk true false (o.take j) rest
      else walk false false (o ++ lead up dots s ++ s) rest

theorem walk_dots (up dots : Bool) (o : Bytes) (m : Nat) (tail : List Bytes) :
    walk up dots o (List.replicate (m + 1) (text ".") ++ tail) = walk up true o tail := by
  induction m generalizing dots with
  | zero => rw [List.replicate_one, List.singleton_append, walk, if_pos rfl]
  | succ m ih => rw [List.replicate_succ, List.cons_append, walk, if_pos rfl, ih]

theorem walk_name {up dots : Bool} {o s : Bytes} {rest : List Bytes} (hdot : s ≠ text ".")
    (hend : ¬ (dots ∧ s = [] ∧ rest = [])) (hup : s = text ".." → up ∧ dots) :
    walk up dots o (s :: rest) = walk false false (o ++ lead up dots s ++ s) rest := by
  rw [walk, if_neg hdot, if_neg hend, if_neg]
  rintro ⟨hs, hnot⟩
  exact hnot (hup hs)

theorem walk_up {up dots : Bool} {o : Bytes} {rest : List Bytes} (hnot : ¬ (up ∧ dots)) :
    walk up dots o (text ".." :: rest) =
      let o := if up ∨ dots then o ++ text "." else o
      let j := backOver o o.length
      if j = 0 then (if o = [] then none else some (o.take 1))
      else walk true false (o.take j) rest := by
  rw [walk, if_neg (by decide), if_neg (fun h => absurd h.2.1 (by decide)), if_pos ⟨rfl, hnot⟩]

theorem walk_stray {up dots : Bool} {o t : Bytes} {rest : List Bytes} (hmode : up ≠ dots)
    (hdot : t ≠ text ".") (hempty : t ≠ []) (hlead : lead up dots t = text "./") :
    walk up dots o (t :: rest) = walk false false (o ++ text ".") (t :: rest) := by
  have hhidden : t.head? = some (ascii '.') := by
    by_contra hother
    rw [lead, if_pos hother] at hlead
    exact absurd hlead (by decide)
  have hplain : lead false false t = text "/" := by
    rw [lead, if_neg (by simpa using hhidden)]
    rfl
  have hone : (up = true ∨ dots = true) ∧ ¬ (up = true ∧ dots = true) := by
    revert hmode
    cases up <;> cases dots <;> decide
  by_cases hup : t = text ".."
  · rw [hup, walk_up hone.2, walk_up (by decide)]
    simp only [hone.1, if_true, Bool.false_eq_true, or_self, if_false]
  · have hsame : o ++ text "./" ++ t = o ++ text "." ++ text "/" ++ t := by
      rw [List.append_assoc o (text ".")]
      rfl
    rw [walk_name hdot (fun h => hempty h.2.1) (fun h => absurd h hup),
      walk_name hdot (fun h => hempty h.2.1) (fun h => absurd h hup), hlead, hplain, hsame]

end Walk

section Loop

variable {c r w : Bytes} {i j : Nat} {segs rest : List Bytes} {W : Option Bytes}

theorem getD_of_drop {l : Bytes} (h : c.drop i = l) (n : Nat) :
    c.getD (i + n) 0 = l.getD n 0 := by
  rw [← h, List.getD_eq_getElem?_getD, List.getD_eq_getElem?_getD, List.getElem?_drop]

theorem drop_of_drop {a b : Bytes} (h : c.drop i = a ++ b) : c.drop (i + a.length) = b := by
  rw [← List.drop_drop, h, List.drop_left]

theorem lt_length_of_drop {x : UInt8} {l : Bytes} (h : c.drop i = x :: l) : i < c.length := by
  by_contra hend
  rw [List.drop_eq_nil_of_le (Nat.not_lt.mp hend)] at h
  contradiction

theorem put_take (hj : j ≤ r.length) (x : UInt8) : (put r j x).take (j + 1) = r.take j ++ [x] := by
  rw [put, List.append_cons, List.take_left' (by simp [hj])]

theorem put_take_before (hj : j ≤ r.length) (x : UInt8) : (put r j x).take j = r.take j := by
  rw [put, List.take_left' (by simp [hj])]

theorem put_length (hj : j ≤ r.length) (x : UInt8) : j + 1 ≤ (put r j x).length := by
  simp only [put, List.length_append, List.length_cons, List.length_take]
  omega

theorem backOver_take (r : Bytes) (j : Nat) : backOver (r.take j) j = backOver r j := by
  have hall : ∀ k ≤ j, backOver (r.take j) k = backOver r k := by
    intro k hk
    induction k with
    | zero => rfl
    | succ k ih =>
        have hsame : (r.take j).getD k 0 = r.getD k 0 := by
          simp only [List.getD_eq_getElem?_getD]
          rw [List.getElem?_take_of_lt (by omega)]
        rw [backOver, backOver, hsame, ih (by omega)]
  exact hall j (Nat.le_refl j)

theorem backOver_lt (r : Bytes) (hj : 0 < j) : backOver r j < j := by
  induction j with
  | zero => contradiction
  | succ j ih =>
      rw [backOver]
      split
      · exact Nat.lt_succ_self j
      · rename_i hgo
        have hless := ih (by omega)
        omega

theorem jump_dots (m : Nat) (x : Bytes) :
    jumpOverDotPaths (joined (List.replicate m (text ".")) ++ x) = 2 * m + jumpOverDotPaths x := by
  induction m with
  | zero => simp
  | succ m ih =>
      have hstep : ∀ y, jumpOverDotPaths (ascii '/' :: ascii '.' :: y) = jumpOverDotPaths y + 2 := by
        intro y
        simp [jumpOverDotPaths, jumpOverDots, ascii]
      rw [List.replicate_succ, joined_cons]
      have hshape : ascii '/' :: (text "." ++ joined (List.replicate m (text "."))) ++ x =
          ascii '/' :: ascii '.' :: (joined (List.replicate m (text ".")) ++ x) := rfl
      rw [hshape, hstep, ih]
      omega

theorem jump_name {t : Bytes} (ht : Segment t) (hdot : t ≠ text ".") (rest : List Bytes) :
    jumpOverDotPaths (joined (t :: rest)) = if t.head? = some (ascii '.') then 2 else 1 := by
  have hfirst : jumpOverDotPaths (joined (t :: rest)) =
      jumpOverDots (ascii '.') (t ++ joined rest) + 1 := by
    rw [jumpOverDotPaths, joined_cons, jumpOverDots, if_pos rfl, if_neg (by decide)]
  rw [hfirst]
  rcases t with _ | ⟨d, _ | ⟨e, t⟩⟩
  · cases rest with
    | nil => rfl
    | cons s rest => simp [jumpOverDots, ascii]
  · by_cases hd : d = ascii '.'
    · exact absurd (by rw [hd]; rfl) hdot
    · simp [jumpOverDots, hd]
  · have he : e ≠ ascii '/' := by
      rintro rfl
      exact ht.1 (by simp)
    by_cases hd : d = ascii '.'
    · simp [jumpOverDots, hd, he]
    · simp [jumpOverDots, hd]

/-- The loop stands in front of `w`, what is left of a segment, and of more segments, and
what it has written so far leads to the output `W`. -/
structure Walking (c : Bytes) (W : Option Bytes) (s : Nat × Nat × Bytes) : Prop where
  ahead : ∃ w segs, c.drop s.1 = w ++ joined segs ∧ Segment w ∧ (∀ t ∈ segs, Segment t) ∧
    walk false false (s.2.2.take s.2.1 ++ w) segs = W
  written : s.2.1 ≤ s.2.2.length
  start : s.2.1 = 0 → s.2.2 = []

/-- What the loop leaves with, `none` when the last byte was not written. -/
def Comes : Option Bytes → Nat × Bytes → Prop
  | some out, (j, r) => j ≤ r.length ∧ r.take j = out
  | none, (j, r) => r.length < j

theorem advances_again (w : Bytes) (segs : List Bytes) {k j' : Nat} {r' : Bytes} {x : UInt8}
    (hik : i < k) (hi : i < c.length)
    (hj : j ≤ r.length) (hdrop : c.drop k = w ++ joined segs) (hw : Segment w)
    (hsegs : ∀ t ∈ segs, Segment t) (hwalk : walk false false (r.take j ++ x :: w) segs = W) :
    Advances (Walking c W) (fun s => c.length - s.1) (Comes W) (i, j', r')
      (.again (k, j + 1, put r j x)) := by
  refine ⟨⟨⟨w, segs, hdrop, hw, hsegs, ?_⟩, put_length hj x, by simp⟩, ?_⟩
  · rw [put_take hj, List.append_assoc]
    exact hwalk
  · show c.length - k < c.length - i
    omega

theorem turn_copy (j : Nat) (r : Bytes) (hch : c.getD i 0 ≠ 0)
    (hnot : ¬ (c.getD i 0 = ascii '/' ∧ c.getD (i + 1) 0 = ascii '.')) :
    absoluteTurn c (i, j, r) = .ok (.again (i + 1, j + 1, put r j (c.getD i 0))) := by
  simp only [absoluteTurn, if_neg hch, if_neg hnot]

theorem dots_split (L : List Bytes) : ∃ m tail, L = List.replicate m (text ".") ++ tail ∧
    tail.head? ≠ some (text ".") := by
  induction L with
  | nil => exact ⟨0, [], rfl, by simp⟩
  | cons s L ih =>
      by_cases hs : s = text "."
      · obtain ⟨m, tail, rfl, hhead⟩ := ih
        exact ⟨m + 1, tail, by rw [hs, List.replicate_succ, List.cons_append], hhead⟩
      · exact ⟨0, s :: L, rfl, by simpa using hs⟩

theorem drop_last_dot {m : Nat} {x : Bytes}
    (hdrop : c.drop i = joined (List.replicate (m + 1) (text ".")) ++ x) :
    c.drop (i + 2 * m) = ascii '/' :: ascii '.' :: x := by
  have hlength : ∀ m, (joined (List.replicate m (text "."))).length = 2 * m := by
    intro m
    induction m with
    | zero => rfl
    | succ m ih =>
        rw [List.replicate_succ, joined_cons, List.length_cons, List.length_append, ih]
        show 1 + 2 * m + 1 = 2 * (m + 1)
        omega
  rw [List.replicate_succ', joined_append, List.append_assoc] at hdrop
  have hlast := drop_of_drop hdrop
  rw [hlength] at hlast
  exact hlast

theorem slash_ne_zero : ascii '/' ≠ 0 := by decide

theorem dot_ne_zero : ascii '.' ≠ 0 := by decide

theorem dot_ne_slash : ascii '.' ≠ ascii '/' := by decide

theorem turn_last_dot (j : Nat) (r : Bytes) (hslash : c.getD i 0 = ascii '/')
    (hdot : c.getD (i + 1) 0 = ascii '.') (hend : c.getD (i + 2) 0 = 0) :
    absoluteTurn c (i, j, r) = .ok (.leave (j, r)) := by
  simp only [absoluteTurn, hslash, hdot, hend, slash_ne_zero, slash_ne_zero.symm, and_self, if_true,
    if_false]

theorem turn_jump {k : Nat} (j : Nat) (r : Bytes) (hslash : c.getD i 0 = ascii '/')
    (hdot : c.getD (i + 1) 0 = ascii '.') (hthird : c.getD (i + 2) 0 = ascii '/')
    (hk : i + jumpOverDotPaths (c.drop i) = k) :
    absoluteTurn c (i, j, r) =
      if c.getD k 0 = 0 then .ok (.leave (j, put r j (ascii '/')))
      else if c.getD k 0 = ascii '.' ∧ 3 < k ∧ c.getD (k - 1) 0 = ascii '.' ∧
          c.getD (k - 2) 0 = ascii '/' then
        .ok (.again (k - 3 + 1, j + 1, put (put r j (ascii '/')) j (c.getD (k - 3) 0)))
      else .ok (.again (k - 1 + 1, j + 1, put (put r j (ascii '/')) j (c.getD (k - 1) 0))) := by
  simp only [absoluteTurn, hslash, hdot, hthird, hk, slash_ne_zero, and_self, if_true, if_false]

theorem comes_of {r' out : Bytes} (hW : some out = W) (hj : j ≤ r'.length)
    (htake : r'.take j = out) : Comes W (j, r') := by
  subst hW
  exact ⟨hj, htake⟩

theorem front_of_name {t : Bytes} (ht : Segment t) (hhidden : t.head? ≠ some (ascii '.'))
    (hend : ¬ (t = [] ∧ rest = [])) :
    (t ++ joined rest).getD 0 0 ≠ 0 ∧ (t ++ joined rest).getD 0 0 ≠ ascii '.' := by
  rcases t with _ | ⟨d, t⟩
  · obtain ⟨s, rest, rfl⟩ := List.exists_cons_of_ne_nil (fun h => hend ⟨rfl, h⟩)
    exact ⟨slash_ne_zero, dot_ne_slash.symm⟩
  · refine ⟨fun h => ht.2 ?_, fun h => hhidden ?_⟩
    · obtain rfl : d = 0 := h
      exact List.mem_cons_self
    · obtain rfl : d = ascii '.' := h
      rfl

theorem front_ne_dot {t : Bytes} (ht : Segment t) (hhidden : t.head? ≠ some (ascii '.'))
    (rest : List Bytes) : (t ++ joined rest).getD 0 0 ≠ ascii '.' := by
  by_cases hlast : t = [] ∧ rest = []
  · obtain ⟨rfl, rfl⟩ := hlast
    exact dot_ne_zero.symm
  · exact (front_of_name ht hhidden hlast).2

theorem hidden_cases {t : Bytes} (hdot : t ≠ text ".") (hhidden : t.head? = some (ascii '.')) :
    ∃ e t', t = ascii '.' :: e :: t' := by
  rcases t with _ | ⟨d, _ | ⟨e, t⟩⟩
  · simp at hhidden
  · obtain rfl : d = ascii '.' := by simpa using hhidden
    exact absurd rfl hdot
  · obtain rfl : d = ascii '.' := by simpa using hhidden
    exact ⟨e, t, rfl⟩

theorem dots_ahead {m : Nat} {tail : List Bytes}
    (hdrop : c.drop i = joined (List.replicate (m + 1) (text ".")) ++ joined tail) :
    ∃ k, i + 2 ≤ k ∧ c.drop k = joined tail ∧ c.getD (k - 1) 0 = ascii '.' ∧
      i + jumpOverDotPaths (c.drop i) = k + jumpOverDotPaths (joined tail) := by
  have hlast := drop_last_dot hdrop
  refine ⟨i + 2 * m + 2, by omega, ?_, getD_of_drop hlast 1, ?_⟩
  · rw [← List.drop_drop, hlast]
    rfl
  · rw [hdrop, jump_dots]
    omega

theorem turn_dots {m : Nat} {tail : List Bytes}
    (hdrop : c.drop i = joined (List.replicate (m + 1) (text ".")) ++ joined tail)
    (hhead : tail.head? ≠ some (text ".")) (htail : ∀ t ∈ tail, Segment t) (hj : j ≤ r.length)
    (hwalk : walk false true (r.take j) tail = W) :
    ∃ turn, absoluteTurn c (i, j, r) = .ok turn ∧
      Advances (Walking c W) (fun s => c.length - s.1) (Comes W) (i, j, r) turn := by
  obtain ⟨k, hk, hbehind, hbefore, hjump⟩ := dots_ahead hdrop
  rw [List.replicate_succ] at hdrop
  have hi : i < c.length := lt_length_of_drop hdrop
  have hslash : c.getD i 0 = ascii '/' := getD_of_drop hdrop 0
  have hdot : c.getD (i + 1) 0 = ascii '.' := getD_of_drop hdrop 1
  have htake := put_take_before hj (ascii '/')
  have hlong : j ≤ (put r j (ascii '/')).length := Nat.le_of_succ_le (put_length hj _)
  by_cases hend : m = 0 ∧ tail = []
  · obtain ⟨rfl, rfl⟩ := hend
    have hthird : c.getD (i + 2) 0 = 0 := getD_of_drop hdrop 2
    exact ⟨_, turn_last_dot j r hslash hdot hthird, comes_of hwalk hj rfl⟩
  · have hthird : c.getD (i + 2) 0 = ascii '/' := by
      rcases m with _ | m
      · obtain ⟨t, rest, rfl⟩ := List.exists_cons_of_ne_nil (fun h => hend ⟨rfl, h⟩)
        exact getD_of_drop hdrop 2
      · rw [List.replicate_succ] at hdrop
        exact getD_of_drop hdrop 2
    rcases tail with _ | ⟨t, rest⟩
    · have hjump : i + jumpOverDotPaths (c.drop i) = k := hjump
      have hstop : c.getD k 0 = 0 := getD_of_drop hbehind 0
      rw [turn_jump j r hslash hdot hthird hjump, if_pos hstop]
      exact ⟨_, rfl, comes_of hwalk hlong htake⟩
    · have ht : Segment t := htail t (by simp)
      have hname : t ≠ text "." := by simpa using hhead
      have hrest : ∀ s ∈ rest, Segment s := fun s hs => htail s (by simp [hs])
      rw [jump_name ht hname] at hjump
      have hslash' : c.getD k 0 = ascii '/' := getD_of_drop hbehind 0
      by_cases hhidden : t.head? = some (ascii '.')
      · rw [if_pos hhidden] at hjump
        obtain ⟨e, t, rfl⟩ := hidden_cases hname hhidden
        have hnext : c.drop (k + 2) = e :: t ++ joined rest := by
          rw [← List.drop_drop, hbehind]
          rfl
        have hdot' : c.getD (k + 1) 0 = ascii '.' := getD_of_drop hbehind 1
        have hsecond : c.getD (k + 2) 0 = e := getD_of_drop hnext 0
        have he : e ≠ 0 := fun h => ht.2 (by simp [h])
        rw [turn_jump j r hslash hdot hthird hjump, if_neg (by rw [hsecond]; exact he)]
        by_cases hdots : e = ascii '.'
        · -- the first dot is written once, and the slash is read again
          have hk' : 3 < k + 2 := by omega
          rw [if_pos ⟨by rw [hsecond, hdots], hk', hdot', hslash'⟩]
          have hback : k + 2 - 3 + 1 = k ∧ k + 2 - 3 = k - 1 := by omega
          refine ⟨_, rfl, ?_⟩
          rw [hback.1, hback.2, hbefore]
          apply advances_again [] ((ascii '.' :: e :: t) :: rest) (by omega) hi hlong
            hbehind ⟨by simp, by simp⟩ htail
          rw [htake, ← hwalk]
          have hlead : lead false true (ascii '.' :: e :: t) = text "./" := by
            rw [hdots, lead, if_neg (by simp), if_pos rfl, if_pos ⟨rfl, rfl⟩]
          exact (walk_stray (by decide) hname (by simp) hlead).symm
        · rw [if_neg (by rw [hsecond]; exact fun h => hdots h.1)]
          have hback : k + 2 - 1 = k + 1 := by omega
          refine ⟨_, rfl, ?_⟩
          rw [hback, hdot']
          apply advances_again (e :: t) rest (by omega) hi hlong hnext
            ⟨fun h => ht.1 (List.mem_cons_of_mem _ h), fun h => ht.2 (List.mem_cons_of_mem _ h)⟩ hrest
          have hup : ascii '.' :: e :: t = text ".." → (false = true ∧ true = true) := by
            intro h
            have htwo : ascii '.' :: e :: t = [ascii '.', ascii '.'] := h
            simp only [List.cons.injEq] at htwo
            exact absurd htwo.2.1 hdots
          rw [htake, ← hwalk, walk_name hname (by simp) hup, lead, if_neg (by simp), if_pos rfl,
            if_neg, List.append_nil]
          rintro ⟨-, htwo⟩
          have htwo : [ascii '.', e] = [ascii '.', ascii '.'] := htwo
          simp only [List.cons.injEq, and_true, true_and] at htwo
          exact hdots htwo
      · rw [if_neg hhidden] at hjump
        have hnext : c.drop (k + 1) = t ++ joined rest := by
          rw [← List.drop_drop, hbehind]
          rfl
        by_cases hlastEmpty : t = [] ∧ rest = []
        · obtain ⟨rfl, rfl⟩ := hlastEmpty
          have hstop : c.getD (k + 1) 0 = 0 := getD_of_drop hnext 0
          rw [turn_jump j r hslash hdot hthird hjump, if_pos hstop]
          exact ⟨_, rfl, comes_of hwalk hlong htake⟩
        · have hgo : c.getD (k + 1) 0 ≠ 0 ∧ c.getD (k + 1) 0 ≠ ascii '.' := by
            have hget := getD_of_drop hnext 0
            rw [Nat.add_zero] at hget
            rw [hget]
            exact front_of_name ht hhidden hlastEmpty
          rw [turn_jump j r hslash hdot hthird hjump, if_neg hgo.1, if_neg (fun h => hgo.2 h.1)]
          refine ⟨_, rfl, ?_⟩
          rw [Nat.add_sub_cancel, hslash']
          apply advances_again t rest (by omega) hi hlong hnext ht hrest
          have hup : t = text ".." → (false = true ∧ true = true) := by
            rintro rfl
            exact absurd rfl hhidden
          rw [htake, ← hwalk, walk_name hname (by simpa using hlastEmpty) hup, lead, if_pos hhidden,
            List.append_assoc]
          rfl

theorem turn_back {j' : Nat} (r : Bytes) (hslash : c.getD i 0 = ascii '/')
    (hdot : c.getD (i + 1) 0 = ascii '.') (hthird : c.getD (i + 2) 0 = ascii '.')
    (hfourth : c.getD (i + 3) 0 = ascii '/' ∨ c.getD (i + 3) 0 = 0) (hj' : backOver r j = j') :
    absoluteTurn c (i, j, r) =
      if j' = 0 then .ok (.leave (1, r))
      else if c.getD (i + 3) 0 = ascii '/' ∧ c.getD (i + 3 + 1) 0 = ascii '.' then
        let k := if c.getD (i + 3 + 2) 0 = ascii '/' then i + 3 + jumpOverDotPaths (c.drop (i + 3))
          else i + 3
        .ok (.again (k - 1 + 1, j' + 1, put r j' (c.getD (k - 1) 0)))
      else if c.getD (i + 3) 0 = 0 then .ok (.leave (j', r))
      else .ok (.again (i + 3 + 1, j' + 1, put r j' (c.getD (i + 3) 0))) := by
  simp only [absoluteTurn, hslash, hdot, hthird, hfourth, hj', slash_ne_zero, dot_ne_slash,
    dot_ne_zero, and_self, if_true, if_false]

theorem turn_back_dots {m j' : Nat} {tail : List Bytes}
    (hdrop : c.drop i = joined (List.replicate (m + 1) (text ".")) ++ joined tail)
    (hhead : tail.head? ≠ some (text ".")) (htail : ∀ t ∈ tail, Segment t) (hj' : j' ≤ r.length)
    (hwalk : walk true true (r.take j') tail = W) {i' : Nat} (hi' : i' ≤ i) (r' : Bytes) (j : Nat) :
    let k := i + jumpOverDotPaths (c.drop i)
    Advances (Walking c W) (fun s => c.length - s.1) (Comes W) (i', j, r')
      (.again (k - 1 + 1, j' + 1, put r j' (c.getD (k - 1) 0))) := by
  obtain ⟨k, hk, hbehind, hbefore, hjump⟩ := dots_ahead hdrop
  rw [List.replicate_succ] at hdrop
  have hi : i < c.length := lt_length_of_drop hdrop
  rcases tail with _ | ⟨t, rest⟩
  · have hjump : i + jumpOverDotPaths (c.drop i) = k := hjump
    have hback : k - 1 + 1 = k := by omega
    simp only [hjump, hback, hbefore]
    exact advances_again [] [] (by omega) (by omega) hj' hbehind
      ⟨by simp, by simp⟩ (by simp) hwalk
  · have ht : Segment t := htail t (by simp)
    have hname : t ≠ text "." := by simpa using hhead
    have hrest : ∀ s ∈ rest, Segment s := fun s hs => htail s (by simp [hs])
    rw [jump_name ht hname] at hjump
    by_cases hhidden : t.head? = some (ascii '.')
    · rw [if_pos hhidden] at hjump
      obtain ⟨e, t, rfl⟩ := hidden_cases hname hhidden
      have hnext : c.drop (k + 2) = e :: t ++ joined rest := by
        rw [← List.drop_drop, hbehind]
        rfl
      have hdot : c.getD (k + 1) 0 = ascii '.' := getD_of_drop hbehind 1
      have hback : k + 2 - 1 = k + 1 := by omega
      simp only [hjump, hback, hdot]
      refine advances_again (e :: t) rest (by omega) (by omega) hj' hnext
        ⟨fun h => ht.1 (List.mem_cons_of_mem _ h), fun h => ht.2 (List.mem_cons_of_mem _ h)⟩ hrest ?_
      rw [← hwalk, walk_name hname (by simp) (fun _ => ⟨rfl, rfl⟩), lead, if_neg (by simp),
        if_pos rfl, if_neg (by simp), List.append_nil]
    · rw [if_neg hhidden] at hjump
      have hnext : c.drop (k + 1) = t ++ joined rest := by
        rw [← List.drop_drop, hbehind]
        rfl
      have hslash : c.getD k 0 = ascii '/' := getD_of_drop hbehind 0
      simp only [hjump, Nat.add_sub_cancel, hslash]
      refine advances_again t rest (by omega) (by omega) hj' hnext ht hrest ?_
      by_cases hlast : t = [] ∧ rest = []
      · obtain ⟨rfl, rfl⟩ := hlast
        exact hwalk
      · rw [← hwalk, walk_name hname (by simpa using hlast) (fun _ => ⟨rfl, rfl⟩), lead,
          if_pos hhidden, List.append_assoc]
        rfl

theorem turn_up_hidden {j' : Nat} {s : Bytes} (hbehind : c.drop (i + 3) = joined (s :: rest))
    (hthird : c.getD (i + 2) 0 = ascii '.') (hrest : ∀ t ∈ s :: rest, Segment t)
    (hhidden : s.head? = some (ascii '.')) (hshort : j' ≤ r.length)
    (hwalk : walk true false (r.take j') (s :: rest) = W) (r' : Bytes) (j : Nat) :
    let k := if c.getD (i + 3 + 2) 0 = ascii '/' then i + 3 + jumpOverDotPaths (c.drop (i + 3))
      else i + 3
    Advances (Walking c W) (fun s => c.length - s.1) (Comes W) (i, j, r')
      (.again (k - 1 + 1, j' + 1, put r j' (c.getD (k - 1) 0))) := by
  have hs : Segment s := hrest s (by simp)
  have hi : i < c.length := by
    have hlast := lt_length_of_drop hbehind
    omega
  -- the dot that stands in front of the slash is written when nothing is jumped over
  have hstray : walk false false (r.take j' ++ text ".") (s :: rest) = W →
      Advances (Walking c W) (fun s => c.length - s.1) (Comes W) (i, j, r')
        (.again (i + 3 - 1 + 1, j' + 1, put r j' (c.getD (i + 3 - 1) 0))) := by
    intro hsame
    have hback : i + 3 - 1 = i + 2 := by omega
    rw [hback, hthird]
    exact advances_again [] (s :: rest) (by omega) hi hshort hbehind ⟨by simp, by simp⟩ hrest hsame
  by_cases hname : s = text "."
  · subst hname
    by_cases hlast : rest = []
    · subst hlast
      have hend : c.getD (i + 3 + 2) 0 = 0 := getD_of_drop hbehind 2
      simp only [hend, slash_ne_zero.symm, if_false]
      apply hstray
      rw [← hwalk]
      rfl
    · obtain ⟨m, tail, rfl, hhead⟩ := dots_split rest
      have hfifth : c.getD (i + 3 + 2) 0 = ascii '/' := by
        obtain ⟨t, rest', hsplit⟩ := List.exists_cons_of_ne_nil hlast
        rw [hsplit] at hbehind
        exact getD_of_drop hbehind 2
      have hsplit : text "." :: (List.replicate m (text ".") ++ tail) =
          List.replicate (m + 1) (text ".") ++ tail := by
        rw [List.replicate_succ, List.cons_append]
      rw [hsplit, joined_append] at hbehind
      rw [hsplit, walk_dots] at hwalk
      simp only [if_pos hfifth]
      exact turn_back_dots hbehind hhead (fun t ht => hrest t (by simp [ht])) hshort hwalk
        (by omega) r' j
  · obtain ⟨e, t, rfl⟩ := hidden_cases hname hhidden
    have hfifth : c.getD (i + 3 + 2) 0 = e := getD_of_drop hbehind 2
    have hother : e ≠ ascii '/' := by
      rintro rfl
      exact hs.1 (by simp)
    have hlead : lead true false (ascii '.' :: e :: t) = text "./" := by
      rw [lead, if_neg (by simp)]
      rfl
    simp only [hfifth, hother, if_false]
    apply hstray
    rw [← hwalk]
    exact (walk_stray (by decide) hname (by simp) hlead).symm

theorem turn_up (hdrop : c.drop i = joined (text ".." :: rest)) (hrest : ∀ t ∈ rest, Segment t)
    (hj : j ≤ r.length) (hstart : j = 0 → r = [])
    (hwalk : walk false false (r.take j) (text ".." :: rest) = W) :
    ∃ turn, absoluteTurn c (i, j, r) = .ok turn ∧
      Advances (Walking c W) (fun s => c.length - s.1) (Comes W) (i, j, r) turn := by
  have hi : i < c.length := lt_length_of_drop hdrop
  have hslash : c.getD i 0 = ascii '/' := getD_of_drop hdrop 0
  have hdot : c.getD (i + 1) 0 = ascii '.' := getD_of_drop hdrop 1
  have hthird : c.getD (i + 2) 0 = ascii '.' := getD_of_drop hdrop 2
  have hbehind : c.drop (i + 3) = joined rest := by
    rw [← List.drop_drop, hdrop]
    rfl
  have hfourth : c.getD (i + 3) 0 = ascii '/' ∨ c.getD (i + 3) 0 = 0 := by
    cases rest with
    | nil => exact .inr (getD_of_drop hbehind 0)
    | cons s rest => exact .inl (getD_of_drop hbehind 0)
  obtain ⟨j', hj'⟩ : ∃ j', backOver r j = j' := ⟨_, rfl⟩
  rw [turn_back r hslash hdot hthird hfourth hj']
  have hlength : (r.take j).length = j := List.length_take_of_le hj
  rw [walk_up (by decide)] at hwalk
  simp only [Bool.false_eq_true, or_self, if_false, hlength, backOver_take, hj'] at hwalk
  by_cases hroot : j' = 0
  · rw [if_pos hroot] at hwalk ⊢
    refine ⟨_, rfl, ?_⟩
    by_cases hempty : r.take j = []
    · have hzero : j = 0 := by
        rw [hempty] at hlength
        exact hlength.symm
      rw [if_pos hempty] at hwalk
      rw [← hwalk, hstart hzero]
      exact Nat.one_pos
    · have hpos : 1 ≤ j := by
        by_contra hzero
        obtain rfl : j = 0 := by omega
        exact hempty List.take_zero
      rw [if_neg hempty] at hwalk
      refine comes_of hwalk (by omega) ?_
      rw [List.take_take, Nat.min_eq_left hpos]
  · rw [if_neg hroot] at hwalk ⊢
    have hless : j' < j := by
      rw [← hj']
      apply backOver_lt
      by_contra hzero
      obtain rfl : j = 0 := by omega
      exact hroot hj'.symm
    have hshort : j' ≤ r.length := by omega
    rw [List.take_take, Nat.min_eq_left (Nat.le_of_lt hless)] at hwalk
    rcases rest with _ | ⟨s, rest⟩
    · have hend : c.getD (i + 3) 0 = 0 := getD_of_drop hbehind 0
      rw [if_neg (fun h => slash_ne_zero (h.1.symm.trans hend)), if_pos hend]
      exact ⟨_, rfl, comes_of hwalk hshort rfl⟩
    · have hs : Segment s := hrest s (by simp)
      have hslash' : c.getD (i + 3) 0 = ascii '/' := getD_of_drop hbehind 0
      have hnext : c.drop (i + 3 + 1) = s ++ joined rest := by
        rw [← List.drop_drop, hbehind]
        rfl
      have hfront : c.getD (i + 3 + 1) 0 = (s ++ joined rest).getD 0 0 := getD_of_drop hnext 0
      by_cases hhidden : s.head? = some (ascii '.')
      · have hdot' : c.getD (i + 3 + 1) 0 = ascii '.' := by
          obtain ⟨t, rfl⟩ := List.head?_eq_some_iff.mp hhidden
          exact hfront
        rw [if_pos ⟨hslash', hdot'⟩]
        exact ⟨_, rfl, turn_up_hidden hbehind hthird hrest hhidden hshort hwalk r j⟩
      · have hplain : c.getD (i + 3 + 1) 0 ≠ ascii '.' := by
          rw [hfront]
          exact front_ne_dot hs hhidden rest
        rw [if_neg (fun h => hplain h.2), if_neg (by rw [hslash']; exact slash_ne_zero), hslash']
        refine ⟨_, rfl, ?_⟩
        refine advances_again s rest (by omega) hi hshort hnext hs
          (fun t ht => hrest t (by simp [ht])) ?_
        have hname : s ≠ text "." := by
          rintro rfl
          exact hhidden rfl
        have hup : s = text ".." → (true = true ∧ false = true) := by
          rintro rfl
          exact absurd rfl hhidden
        rw [← hwalk, walk_name hname (by simp) hup, lead, if_pos hhidden, List.append_assoc]
        rfl

theorem turn_hidden {e : UInt8} {t : Bytes} (j : Nat) (r : Bytes)
    (hdrop : c.drop i = joined ((ascii '.' :: e :: t) :: rest))
    (hs : Segment (ascii '.' :: e :: t)) (hup : ascii '.' :: e :: t ≠ text "..") :
    absoluteTurn c (i, j, r) = .ok (.again (i + 1, j + 1, put r j (ascii '/'))) := by
  have hslash : c.getD i 0 = ascii '/' := getD_of_drop hdrop 0
  have hdot : c.getD (i + 1) 0 = ascii '.' := getD_of_drop hdrop 1
  have hthird : c.getD (i + 2) 0 = e := getD_of_drop hdrop 2
  have he : e ≠ ascii '/' ∧ e ≠ 0 :=
    ⟨fun h => hs.1 (by simp [h]), fun h => hs.2 (by simp [h])⟩
  have hnot : ¬ (e = ascii '.' ∧ (c.getD (i + 3) 0 = ascii '/' ∨ c.getD (i + 3) 0 = 0)) := by
    rintro ⟨rfl, hend⟩
    rcases t with _ | ⟨f, t⟩
    · exact hup rfl
    · have hfourth : c.getD (i + 3) 0 = f := getD_of_drop hdrop 3
      rw [hfourth] at hend
      rcases hend with rfl | rfl
      · exact hs.1 (by simp)
      · exact hs.2 (by simp)
  simp only [absoluteTurn, hslash, hdot, hthird, he.1, he.2, hnot, slash_ne_zero, and_self,
    if_true, if_false]

theorem Walking.turn {s : Nat × Nat × Bytes} (h : Walking c W s) :
    ∃ turn, absoluteTurn c s = .ok turn ∧
      Advances (Walking c W) (fun s => c.length - s.1) (Comes W) s turn := by
  obtain ⟨i, j, r⟩ := s
  obtain ⟨⟨w, segs, hdrop, hw, hsegs, hwalk⟩, hj, hstart⟩ := h
  simp only at hdrop hwalk hj hstart
  rcases w with _ | ⟨d, w⟩
  · rw [List.nil_append] at hdrop
    rw [List.append_nil] at hwalk
    rcases segs with _ | ⟨s, rest⟩
    · have hend : c.getD i 0 = 0 := getD_of_drop hdrop 0
      refine ⟨.leave (j, r), ?_, comes_of hwalk hj rfl⟩
      simp only [absoluteTurn, hend, if_true]
    · have hs : Segment s := hsegs s (by simp)
      have hrest : ∀ t ∈ rest, Segment t := fun t ht => hsegs t (by simp [ht])
      have hi : i < c.length := lt_length_of_drop hdrop
      have hslash : c.getD i 0 = ascii '/' := getD_of_drop hdrop 0
      have hnext : c.drop (i + 1) = s ++ joined rest := by
        rw [← List.drop_drop, hdrop]
        rfl
      -- the slash of a name is copied like the name
      have hkept : s ≠ text "." → s ≠ text ".." → lead false false s = text "/" →
          Advances (Walking c W) (fun s => c.length - s.1) (Comes W) (i, j, r)
            (.again (i + 1, j + 1, put r j (ascii '/'))) := by
        intro hdot hup hlead
        refine advances_again s rest (Nat.lt_succ_self i) hi hj hnext hs hrest ?_
        rw [← hwalk, walk_name hdot (by simp) (fun h => absurd h hup), hlead, List.append_assoc]
        rfl
      by_cases hhidden : s.head? = some (ascii '.')
      · have hlead : lead false false s = text "/" := by
          rw [lead, if_neg (by simpa using hhidden)]
          rfl
        by_cases hdot : s = text "."
        · obtain ⟨m, tail, rfl, hhead⟩ := dots_split rest
          have hsplit : s :: (List.replicate m (text ".") ++ tail) =
              List.replicate (m + 1) (text ".") ++ tail := by
            rw [hdot, List.replicate_succ, List.cons_append]
          rw [hsplit] at hdrop hwalk
          rw [joined_append] at hdrop
          rw [walk_dots] at hwalk
          exact turn_dots hdrop hhead (fun t ht => hrest t (by simp [ht])) hj hwalk
        · by_cases hup : s = text ".."
          · subst hup
            exact turn_up hdrop hrest hj hstart hwalk
          · obtain ⟨e, t, rfl⟩ := hidden_cases hdot hhidden
            exact ⟨_, turn_hidden j r hdrop hs hup, hkept hdot hup hlead⟩
      · have hplain : c.getD (i + 1) 0 ≠ ascii '.' := by
          have hfront : c.getD (i + 1) 0 = (s ++ joined rest).getD 0 0 := getD_of_drop hnext 0
          rw [hfront]
          exact front_ne_dot hs hhidden rest
        have hcopy := turn_copy j r (by rw [hslash]; exact slash_ne_zero) (fun h => hplain h.2)
        rw [hslash] at hcopy
        refine ⟨_, hcopy, hkept ?_ ?_ ?_⟩
        · rintro rfl
          exact hhidden rfl
        · rintro rfl
          exact hhidden rfl
        · rw [lead, if_pos hhidden]
  · have hd : d ≠ ascii '/' ∧ d ≠ 0 := ⟨fun h => hw.1 (by simp [h]), fun h => hw.2 (by simp [h])⟩
    have hfirst : c.getD i 0 = d := getD_of_drop hdrop 0
    have hnext : c.drop (i + 1) = w ++ joined segs := by
      rw [← List.drop_drop, hdrop]
      rfl
    have hcopy := turn_copy j r (by rw [hfirst]; exact hd.2) (fun h => hd.1 (hfirst ▸ h.1))
    rw [hfirst] at hcopy
    exact ⟨_, hcopy, advances_again w segs (Nat.lt_succ_self i) (lt_length_of_drop hdrop) hj hnext
      ⟨fun h => hw.1 (List.mem_cons_of_mem d h), fun h => hw.2 (List.mem_cons_of_mem d h)⟩ hsegs
      hwalk⟩

/-- The loop comes out with what the walk over the segments gives. -/
theorem absoluteTurn_walk (segs : List Bytes) (hsegs : ∀ t ∈ segs, Segment t) :
    ∃ result, run (absoluteTurn (joined segs)) ((joined segs).length + 1) (0, 0, []) = .ok result ∧
      Comes (walk false false [] segs) result := by
  apply run_total (Walking (joined segs) (walk false false [] segs))
    (fun s => (joined segs).length - s.1) (fun s h => h.turn)
  · exact ⟨⟨[], segs, rfl, ⟨by simp, by simp⟩, hsegs, rfl⟩, Nat.le_refl 0, fun _ => rfl⟩
  · omega

end Loop

end Newth.Client.PathWalk
