import Mathlib.Data.List.TakeWhile
import Newth.Platform.WebPath

namespace Newth.Platform.TrailingSlash

open Newth.Library.ByteString
open Newth.Library.Call
open Newth.Platform.WebPath

section BackEnds

inductive BackEnd where
  | posix01
  | mscrtdl
  | doswatb
  deriving DecidableEq

def BackEnd.isDivider : BackEnd → UInt8 → Bool
  | .posix01 => Posix01.isDivider
  | .mscrtdl => Mscrtdl.isDivider
  | .doswatb => Doswatb.isDivider

def BackEnd.divider : BackEnd → UInt8
  | .posix01 => ascii '/'
  | .mscrtdl | .doswatb => ascii '\\'

/-- What the loop over `internal`, which two of them have, makes of a byte. -/
def BackEnd.translate : BackEnd → UInt8 → UInt8
  | .posix01 => id
  | .mscrtdl | .doswatb => Mscrtdl.toBackslash

def BackEnd.platformPathWebToSystem :
    BackEnd → Nat → Bytes → Bytes → Except Stop (Except Nat Bytes)
  | .posix01 => Posix01.platformPathWebToSystem
  | .mscrtdl => Mscrtdl.platformPathWebToSystem
  | .doswatb => Doswatb.platformPathWebToSystem

/-- Which byte of `internal` is compared with the divider and made the terminator. -/
def BackEnd.examined : BackEnd → Bytes → Bytes → Bytes → Nat
  | .posix01, rootPath, webPath, _ | .mscrtdl, rootPath, webPath, _ =>
      let absolutePathLen := rootPath.length + webPath.length + 1
      absolutePathLen - 1
  | .doswatb, _, _, internal => internal.length - 1

variable {b : BackEnd} {filenameMax : Nat} {rootPath webPath : Bytes}

/-- What is in `internal` when its last byte is looked at. -/
def BackEnd.internal (b : BackEnd) (rootPath webPath : Bytes) : Bytes :=
  (firstPart b.isDivider b.divider (rootPath == text ".") rootPath ++
    webPath.dropWhile b.isDivider).map b.translate

theorem webToSystem_eq (hroot : rootPath ≠ []) (webPath : Bytes) :
    b.platformPathWebToSystem filenameMax rootPath webPath =
      if filenameMax ≤ rootPath.length + webPath.length + 1 then .ok (.error 500)
      else .ok (.ok (cutAt (b.internal rootPath webPath)
        (b.examined rootPath webPath (b.internal rootPath webPath)) b.divider)) := by
  cases b with
  | posix01 =>
      have hpos : 1 < rootPath.length + webPath.length + 1 := by
        have := List.length_pos_of_ne_nil hroot
        omega
      simp only [BackEnd.platformPathWebToSystem, Posix01.platformPathWebToSystem,
        Posix01.platformPathCombine, pathCombine_eq hroot, ok_bind, if_pos hpos,
        BackEnd.internal, BackEnd.translate, List.map_id]
      rfl
  | mscrtdl =>
      simp only [BackEnd.platformPathWebToSystem, Mscrtdl.platformPathWebToSystem,
        Mscrtdl.platformPathCombine, pathCombine_eq hroot, ok_bind]
      rfl
  | doswatb =>
      simp only [BackEnd.platformPathWebToSystem, Doswatb.platformPathWebToSystem,
        Doswatb.platformPathCombine, pathCombine_eq hroot, ok_bind, BackEnd.examined,
        BackEnd.internal, BackEnd.translate, List.length_map]
      rfl

theorem webToSystem_nil (webPath : Bytes) :
    ∀ path, b.platformPathWebToSystem filenameMax [] webPath ≠ .ok (.ok path) := by
  intro path hpath
  cases b with
  | posix01 =>
      rw [BackEnd.platformPathWebToSystem, Posix01.platformPathWebToSystem] at hpath
      split at hpath <;> simp [Posix01.platformPathCombine, pathCombine] at hpath
  | mscrtdl =>
      rw [BackEnd.platformPathWebToSystem, Mscrtdl.platformPathWebToSystem] at hpath
      split at hpath <;> simp [Mscrtdl.platformPathCombine, pathCombine] at hpath
  | doswatb =>
      rw [BackEnd.platformPathWebToSystem, Doswatb.platformPathWebToSystem] at hpath
      split at hpath <;> simp [Doswatb.platformPathCombine, pathCombine] at hpath

end BackEnds

section Ends

variable {b : BackEnd} {rootPath s : Bytes} {c : UInt8}

theorem isDivider_slash (b : BackEnd) : b.isDivider (ascii '/') = true := by
  cases b <;> rfl

theorem isDivider_divider (b : BackEnd) : b.isDivider b.divider = true := by
  cases b <;> rfl

theorem translate_eq_divider_iff : b.translate c = b.divider ↔ b.isDivider c = true := by
  cases b with
  | posix01 => exact beq_iff_eq.symm
  | mscrtdl | doswatb =>
      simp only [BackEnd.translate, BackEnd.divider, BackEnd.isDivider, Doswatb.isDivider,
        Mscrtdl.isDivider, Mscrtdl.toBackslash, Bool.or_eq_true, beq_iff_eq]
      by_cases hc : c = ascii '/'
      · simp [hc]
      · simp [hc]

theorem isDivider_translate (b : BackEnd) (c : UInt8) : b.isDivider (b.translate c) = b.isDivider c := by
  cases hc : b.isDivider c with
  | true => rw [translate_eq_divider_iff.mpr hc, isDivider_divider]
  | false =>
      have hstays : b.translate c = c := by
        cases b with
        | posix01 => rfl
        | mscrtdl | doswatb =>
            refine if_neg ?_
            rintro rfl
            exact absurd hc (by decide)
      rw [hstays, hc]

/-- The path does not end in a divider. -/
def Bare (b : BackEnd) (path : Bytes) : Prop := ∀ d ∈ path.getLast?, b.isDivider d = false

theorem bare_map : Bare b (s.map b.translate) ↔ Bare b s := by
  rcases List.eq_nil_or_concat s with rfl | ⟨front, c, rfl⟩
  · exact Iff.rfl
  · simp [Bare, isDivider_translate]

theorem bare_concat (front : Bytes) : Bare b (front ++ [c]) ↔ b.isDivider c = false := by
  simp [Bare]

theorem cut_last (front : Bytes) :
    cutAt ((front ++ [c]).map b.translate) (((front ++ [c]).map b.translate).length - 1) b.divider =
      if b.isDivider c then front.map b.translate else (front ++ [c]).map b.translate := by
  rw [List.map_append, List.map_singleton, cutAt_last]
  simp only [translate_eq_divider_iff]

/-- One byte that is no divider, and two dividers or more behind it. -/
def Doubled (b : BackEnd) (rootPath : Bytes) : Prop :=
  ∃ c d d' rest, rootPath = c :: d :: d' :: rest ∧ b.isDivider c = false ∧
    ∀ e ∈ d :: d' :: rest, b.isDivider e = true

theorem lastKept_le (isDivider : UInt8 → Bool) (output : Bytes) (idx : Nat) :
    lastKept isDivider output idx ≤ idx := by
  induction idx with
  | zero => exact Nat.le_refl _
  | succ idx ih =>
      rw [lastKept]
      split
      · exact Nat.le_succ_of_le ih
      · exact Nat.le_refl _

theorem Doubled.lastKept_eq_zero (h : Doubled b rootPath) :
    lastKept b.isDivider rootPath (rootPath.length - 1) = 0 := by
  obtain ⟨c, d, d', rest, rfl, -, hdividers⟩ := h
  by_contra hk
  have hfalse := lastKept_not_divider hk
  have hle := lastKept_le b.isDivider (c :: d :: d' :: rest) ((c :: d :: d' :: rest).length - 1)
  obtain ⟨k, hsucc⟩ := Nat.exists_eq_succ_of_ne_zero hk
  rw [hsucc] at hfalse hle
  have hlt : k < (d :: d' :: rest).length := by
    simp only [List.length_cons] at hle ⊢
    omega
  have hmem := hdividers _ (List.getElem_mem hlt)
  have hget : (c :: d :: d' :: rest).getD (k + 1) 0 = (d :: d' :: rest)[k] := by
    rw [List.getD_cons_succ, List.getD_eq_getElem?_getD, List.getElem?_eq_getElem hlt]
    rfl
  rw [hget, hmem] at hfalse
  exact absurd hfalse (by simp)

theorem bare_whole_iff {rest : Bytes} (hrest : ∀ d ∈ rest, b.isDivider d = true)
    (hfirst : b.isDivider c = true → rest = []) :
    Bare b (cutAt ((c :: rest).map b.translate) (((c :: rest).map b.translate).length - 1) b.divider) ↔
      ¬ Doubled b (c :: rest) := by
  cases rest with
  | nil =>
      refine iff_of_true ?_ ?_
      · have hcut := @cut_last b c []
        rw [List.nil_append] at hcut
        rw [hcut]
        cases hc : b.isDivider c with
        | true => exact fun d hd => absurd hd (by simp)
        | false => exact bare_map.mpr ((bare_concat []).mpr hc)
      · rintro ⟨c', d, d', rest', hsame, -⟩
        simp at hsame
  | cons d tail =>
      have hd : b.isDivider d = true := hrest d List.mem_cons_self
      have hc : b.isDivider c = false := by
        by_contra hc
        exact List.cons_ne_nil _ _ (hfirst (by simpa using hc))
      cases tail with
      | nil =>
          have hcut := @cut_last b d [c]
          rw [if_pos hd] at hcut
          refine iff_of_true ?_ ?_
          · exact hcut ▸ bare_map.mpr ((bare_concat []).mpr hc)
          · rintro ⟨c', e, e', rest', hsame, -⟩
            simp at hsame
      | cons d' rest =>
          refine iff_of_false ?_ (not_not_intro ⟨c, d, d', rest, rfl, hc, hrest⟩)
          obtain ⟨init, e, hinit⟩ : ∃ init e, d' :: rest = init ++ [e] :=
            ⟨_, _, (List.dropLast_append_getLast (List.cons_ne_nil _ _)).symm⟩
          obtain ⟨init', e', hinit'⟩ : ∃ init' e', d :: init = init' ++ [e'] :=
            ⟨_, _, (List.dropLast_append_getLast (List.cons_ne_nil _ _)).symm⟩
          have hshape : c :: d :: d' :: rest = c :: init' ++ [e'] ++ [e] := by
            rw [hinit, List.cons_append, List.cons_append, ← hinit']
            rfl
          have htail : d :: d' :: rest = init' ++ [e'] ++ [e] := (List.cons.inj hshape).2
          rw [htail] at hrest
          rw [hshape, cut_last, if_pos (hrest e (by simp)), bare_map, bare_concat,
            hrest e' (by simp)]
          exact Bool.true_eq_false.mp

theorem bare_firstPart_iff (hroot : rootPath ≠ []) {closes : Bool}
    (hcloses : closes = true → rootPath = text ".") {path : Bytes}
    (hpath : path = (firstPart b.isDivider b.divider closes rootPath).map b.translate) :
    Bare b (cutAt path (path.length - 1) b.divider) ↔ ¬ Doubled b rootPath := by
  have hlength : rootPath.length - 1 < rootPath.length := by
    have := List.length_pos_of_ne_nil hroot
    omega
  obtain ⟨ds, htake, hds⟩ := @take_lastKept b.isDivider rootPath _ hlength
  rw [Nat.sub_add_cancel (by omega), List.take_length] at htake
  subst hpath
  rw [firstPart]
  split
  · rename_i hclosed
    rw [cut_last, if_pos (isDivider_divider b), bare_map]
    refine iff_of_true ?_ ?_
    · rcases hclosed with hk | hdot
      · have hlast := lastKept_not_divider hk
        have hlt := (lastKept_le b.isDivider rootPath (rootPath.length - 1)).trans_lt hlength
        have hget : rootPath.getD (lastKept b.isDivider rootPath (rootPath.length - 1)) 0 =
            rootPath[lastKept b.isDivider rootPath (rootPath.length - 1)] := by simp [hlt]
        rw [hget] at hlast
        rw [← List.take_append_getElem hlt, bare_concat]
        exact hlast
      · rw [hcloses hdot]
        refine (bare_concat []).mpr ?_
        cases b <;> rfl
    · intro hdoubled
      rcases hclosed with hk | hdot
      · exact hk hdoubled.lastKept_eq_zero
      · obtain ⟨c, d, d', rest, rfl, -⟩ := hdoubled
        exact absurd (congrArg List.length (hcloses hdot)) (by simp [text])
  · rename_i hopen
    rw [not_or, not_not] at hopen
    obtain ⟨c, rest, rfl⟩ := List.exists_cons_of_ne_nil hroot
    rw [hopen.1] at htake
    obtain rfl : rest = ds := by simpa using htake
    split
    · rename_i hdividers
      have hc : b.isDivider c = true := hdividers.1
      refine iff_of_true ?_ ?_
      · have hcut := @cut_last b c []
        rw [if_pos hc] at hcut
        exact hcut ▸ fun d hd => absurd hd (by simp)
      · rintro ⟨c', d, d', rest', hsame, hc', -⟩
        rw [(List.cons.inj hsame).1, hc'] at hc
        exact absurd hc Bool.false_ne_true
    · rename_i hkeep
      refine bare_whole_iff hds fun hc => ?_
      cases rest with
      | nil => rfl
      | cons d rest => exact absurd ⟨hc, hds d List.mem_cons_self⟩ hkeep

end Ends

section Results

variable {b : BackEnd} {filenameMax : Nat} {rootPath p : Bytes}

/-- If the call succeeds for the path with a slash behind it, it gives the path it gives
without it, ends in no divider, and looks at no byte behind the terminator. -/
def SlashIgnored (filenameMax : Nat) (b : BackEnd) (rootPath p : Bytes) : Prop :=
  ∀ path, b.platformPathWebToSystem filenameMax rootPath (p ++ [ascii '/']) = .ok (.ok path) →
    b.platformPathWebToSystem filenameMax rootPath p = .ok (.ok path) ∧ Bare b path ∧
      b.examined rootPath (p ++ [ascii '/']) (b.internal rootPath (p ++ [ascii '/'])) ≤
        (b.internal rootPath (p ++ [ascii '/'])).length

/-- There is a root, and the path with the slash is short enough. -/
def Fits (filenameMax : Nat) (rootPath p : Bytes) : Prop :=
  rootPath ≠ [] ∧ rootPath.length + p.length + 2 < filenameMax

/-- The back end that looks at the end of the joined path drops the slash, if no divider
of its own stands before it. -/
def SlashDropped (b : BackEnd) (rootPath p : Bytes) : Prop :=
  b = .doswatb ∧ (p.getLast? ≠ some (ascii '\\') ∨
    (∀ c ∈ p, b.isDivider c = true) ∧ ¬ Doubled b rootPath)

theorem webToSystem_of_fits (hfits : Fits filenameMax rootPath p) {webPath : Bytes}
    (hlength : webPath.length ≤ p.length + 1) :
    b.platformPathWebToSystem filenameMax rootPath webPath =
      .ok (.ok (cutAt (b.internal rootPath webPath)
        (b.examined rootPath webPath (b.internal rootPath webPath)) b.divider)) := by
  obtain ⟨hroot, hless⟩ := hfits
  rw [webToSystem_eq hroot, if_neg (by omega)]

theorem fits_of_success {path : Bytes}
    (h : b.platformPathWebToSystem filenameMax rootPath (p ++ [ascii '/']) = .ok (.ok path)) :
    Fits filenameMax rootPath p := by
  have hroot : rootPath ≠ [] := by
    rintro rfl
    exact webToSystem_nil _ path h
  refine ⟨hroot, ?_⟩
  rw [webToSystem_eq hroot] at h
  split at h
  · simp at h
  · rename_i hless
    rw [List.length_append, List.length_singleton] at hless
    omega

theorem dropWhile_slash (b : BackEnd) (p : Bytes) :
    p.dropWhile b.isDivider = [] ∧ (p ++ [ascii '/']).dropWhile b.isDivider = [] ∨
      p.dropWhile b.isDivider ≠ [] ∧
        (p ++ [ascii '/']).dropWhile b.isDivider = p.dropWhile b.isDivider ++ [ascii '/'] := by
  have hslash : ([ascii '/']).dropWhile b.isDivider = [] := by cases b <;> rfl
  rw [List.dropWhile_append]
  cases hdrop : p.dropWhile b.isDivider with
  | nil => exact .inl ⟨rfl, hslash⟩
  | cons c rest => exact .inr ⟨List.cons_ne_nil _ _, rfl⟩

/-- Where the end of the path is reckoned from the lengths, it is never found. -/
theorem not_slashIgnored (hb : b ≠ .doswatb) (hstart : p.head? = some (ascii '/'))
    (hfits : Fits filenameMax rootPath p) : ¬ SlashIgnored filenameMax b rootPath p := by
  intro hignored
  have hfirst := @length_firstPart_le b.isDivider b.divider (rootPath == text ".") rootPath
  obtain ⟨rest, rfl⟩ := List.head?_eq_some_iff.mp hstart
  have hpassed : (ascii '/' :: rest ++ [ascii '/']).dropWhile b.isDivider =
      (rest ++ [ascii '/']).dropWhile b.isDivider :=
    List.dropWhile_cons_of_pos (isDivider_slash b)
  have hdrop := (List.dropWhile_suffix (l := rest ++ [ascii '/']) b.isDivider).length_le
  have hexamined : b.examined rootPath (ascii '/' :: rest ++ [ascii '/'])
      (b.internal rootPath (ascii '/' :: rest ++ [ascii '/'])) = rootPath.length + rest.length + 2 := by
    cases b with
    | doswatb => exact absurd rfl hb
    | posix01 | mscrtdl =>
        simp only [BackEnd.examined, List.length_append, List.length_cons, List.length_nil]
        omega
  have hlength : (b.internal rootPath (ascii '/' :: rest ++ [ascii '/'])).length ≤
      rootPath.length + rest.length + 2 := by
    rw [BackEnd.internal, List.length_map, List.length_append, hpassed]
    rw [List.length_append, List.length_singleton] at hdrop
    omega
  obtain ⟨-, hbare, hread⟩ := hignored _ (webToSystem_of_fits hfits (by simp))
  rw [hexamined] at hbare hread
  rw [cutAt_of_length_le hlength, BackEnd.internal, bare_map] at hbare
  rcases dropWhile_slash b (ascii '/' :: rest) with ⟨-, hnone⟩ | ⟨-, hsome⟩
  · rw [BackEnd.internal, List.length_map, List.length_append, hnone, List.length_nil] at hread
    omega
  · rw [hsome, ← List.append_assoc] at hbare
    have hlast := (bare_concat _).mp hbare
    rw [isDivider_slash] at hlast
    exact absurd hlast (by simp)

theorem slashIgnored_doswatb (hne : p ≠ []) (hend : p.getLast? ≠ some (ascii '/'))
    (hfits : Fits filenameMax rootPath p) :
    SlashIgnored filenameMax .doswatb rootPath p ↔ SlashDropped .doswatb rootPath p := by
  have hwith := @webToSystem_of_fits .doswatb _ _ _ hfits (p ++ [ascii '/']) (by simp)
  have hwithout := @webToSystem_of_fits .doswatb _ _ _ hfits p (Nat.le_succ _)
  simp only [BackEnd.examined] at hwith hwithout
  obtain ⟨front, last, rfl⟩ : ∃ front last, p = front ++ [last] :=
    ⟨_, _, (List.dropLast_append_getLast hne).symm⟩
  have hplain : last ≠ ascii '/' := by simpa using hend
  have hbackslash : BackEnd.isDivider .doswatb last = true ↔ last = ascii '\\' := by
    simp [BackEnd.isDivider, Doswatb.isDivider, Mscrtdl.isDivider, hplain]
  have hignored : ∀ path, BackEnd.platformPathWebToSystem .doswatb filenameMax rootPath
        (front ++ [last] ++ [ascii '/']) = .ok (.ok path) →
      (SlashIgnored filenameMax .doswatb rootPath (front ++ [last]) ↔
        BackEnd.platformPathWebToSystem .doswatb filenameMax rootPath (front ++ [last]) =
          .ok (.ok path) ∧ Bare .doswatb path) := by
    intro path hpath
    constructor
    · intro h
      exact ⟨(h path hpath).1, (h path hpath).2.1⟩
    · rintro ⟨hsame, hbare⟩ path' hpath'
      rw [hpath] at hpath'
      obtain rfl := Except.ok.inj (Except.ok.inj hpath')
      exact ⟨hsame, hbare, Nat.sub_le _ _⟩
  rw [hignored _ hwith, hwithout]
  rcases dropWhile_slash .doswatb (front ++ [last]) with ⟨hnone, hnone'⟩ | ⟨hsome, hsome'⟩
  · have hsame : BackEnd.internal .doswatb rootPath (front ++ [last] ++ [ascii '/']) =
        BackEnd.internal .doswatb rootPath (front ++ [last]) := by
      rw [BackEnd.internal, BackEnd.internal, hnone, hnone']
    have hall : ∀ c ∈ front ++ [last], BackEnd.isDivider .doswatb c = true :=
      List.dropWhile_eq_nil_iff.mp hnone
    have hlast : (front ++ [last]).getLast? = some (ascii '\\') := by
      rw [List.getLast?_concat, hbackslash.mp (hall last (by simp))]
    have hbare := @bare_firstPart_iff .doswatb rootPath hfits.1 (rootPath == text ".") (by simp)
      (BackEnd.internal .doswatb rootPath (front ++ [last]))
      (by rw [BackEnd.internal, hnone, List.append_nil])
    rw [hsame, and_iff_right rfl, hbare, SlashDropped, and_iff_right rfl,
      or_iff_right (not_not_intro hlast), and_iff_right hall]
  · obtain ⟨init, hinit⟩ : ∃ init, (front ++ [last]).dropWhile (BackEnd.isDivider .doswatb) =
        init ++ [last] := by
      obtain ⟨passed, hpassed⟩ := List.dropWhile_suffix (l := front ++ [last]) (BackEnd.isDivider .doswatb)
      obtain ⟨init, e, he⟩ : ∃ init e, (front ++ [last]).dropWhile (BackEnd.isDivider .doswatb) =
          init ++ [e] := ⟨_, _, (List.dropLast_append_getLast hsome).symm⟩
      rw [he, ← List.append_assoc] at hpassed
      refine ⟨init, ?_⟩
      rw [he, (List.append_inj' hpassed rfl).2]
    have hnot : ¬ ∀ c ∈ front ++ [last], BackEnd.isDivider .doswatb c = true :=
      fun hall => hsome (List.dropWhile_eq_nil_iff.mpr hall)
    obtain ⟨joined, hjoined⟩ : ∃ joined, joined =
        firstPart (BackEnd.isDivider .doswatb) (BackEnd.divider .doswatb) (rootPath == text ".") rootPath ++
          init := ⟨_, rfl⟩
    have hwithout' : BackEnd.internal .doswatb rootPath (front ++ [last]) =
        (joined ++ [last]).map (BackEnd.translate .doswatb) := by
      rw [BackEnd.internal, hinit, hjoined, List.append_assoc]
    have hwith' : BackEnd.internal .doswatb rootPath (front ++ [last] ++ [ascii '/']) =
        (joined ++ [last] ++ [ascii '/']).map (BackEnd.translate .doswatb) := by
      rw [BackEnd.internal, hsome', hinit, hjoined]
      simp only [List.append_assoc]
    rw [hwith', hwithout', cut_last, cut_last, if_pos (isDivider_slash _), bare_map, bare_concat,
      SlashDropped, and_iff_right rfl, or_iff_left fun h => hnot h.1, List.getLast?_concat]
    by_cases hlast : BackEnd.isDivider .doswatb last = true
    · rw [hlast, hbackslash.mp hlast]
      exact iff_of_false (by simp) fun h => h rfl
    · rw [if_neg hlast]
      refine iff_of_true ⟨rfl, by simpa using hlast⟩ ?_
      intro hsame
      exact hlast (hbackslash.mpr (Option.some.inj hsame))

theorem slashIgnored_iff (hstart : p.head? = some (ascii '/')) (hend : p.getLast? ≠ some (ascii '/')) :
    SlashIgnored filenameMax b rootPath p ↔
      (Fits filenameMax rootPath p → SlashDropped b rootPath p) := by
  by_cases hfits : Fits filenameMax rootPath p
  · rw [forall_prop_of_true hfits]
    by_cases hb : b = .doswatb
    · subst hb
      exact slashIgnored_doswatb (by rintro rfl; simp at hstart) hend hfits
    · exact iff_of_false (not_slashIgnored hb hstart hfits) fun h => hb h.1
  · rw [forall_prop_of_false hfits, iff_true]
    intro path hpath
    exact absurd (fits_of_success hpath) hfits

theorem slashIgnored_iff_at :
    SlashIgnored 4096 .doswatb (text "C:\\srv") (text "/a") ↔
      (Fits 4096 (text "C:\\srv") (text "/a") → SlashDropped .doswatb (text "C:\\srv") (text "/a")) :=
  slashIgnored_iff (by decide) (by decide)

theorem slash_kept :
    ¬ SlashIgnored 4096 .posix01 (text "/srv") (text "/a") ∧
      ¬ SlashIgnored 4096 .mscrtdl (text "C:\\srv") (text "/a") := by
  constructor
  · intro h
    have hpath : BackEnd.platformPathWebToSystem .posix01 4096 (text "/srv") (text "/a" ++ [ascii '/']) =
        .ok (.ok (text "/srv/a/")) := by decide
    exact absurd ((h _ hpath).2.1 _ rfl) (by decide)
  · intro h
    have hpath : BackEnd.platformPathWebToSystem .mscrtdl 4096 (text "C:\\srv") (text "/a" ++ [ascii '/']) =
        .ok (.ok (text "C:\\srv\\a\\")) := by decide
    exact absurd ((h _ hpath).2.1 _ rfl) (by decide)

end Results

end Newth.Platform.TrailingSlash
