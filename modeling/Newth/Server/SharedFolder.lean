import Newth.Platform.WebPath
import Newth.Server.HttpHeader

namespace Newth.Server.SharedFolder

open Newth.Library.ByteString
open Newth.Library.Call
open Newth.Library.PathComponents
open Newth.Common.Hex
open Newth.Platform.WebPath
open Newth.Server.HttpHeader

/-- The text a request target stands for, every escape read once. -/
def unescape : Bytes → Bytes
  | [] => []
  | c :: h :: l :: rest =>
      if c = ascii '%' then hexToAscii h l :: unescape rest
      else c :: unescape (h :: l :: rest)
  | c :: rest => c :: unescape rest

/-- A step up that only a backslash announces. -/
def BackslashClimb (path : Bytes) : Prop :=
  ∃ pre post, path = pre ++ text "\\.." ++ post ∧
    ∀ d ∈ post.head?, Mscrtdl.isDivider d

/-- The request names a target with such a step. -/
def RequestsBackslashClimb (request : Bytes) : Prop :=
  ∃ target, requestTarget request = some target ∧ BackslashClimb (unescape target)

/-- `C:\share`, `\share` and the like. -/
def IsAbsolute (path : Bytes) : Prop :=
  (∃ d rest, path = d :: rest ∧ Mscrtdl.isDivider d) ∨
    ∃ drive d rest, path = drive :: ascii ':' :: d :: rest ∧ Mscrtdl.isDivider d

theorem percentDecode_eq_unescape {url decoded : Bytes} (h : percentDecode url = .ok decoded) :
    decoded = unescape url := by
  induction url using percentDecode.induct generalizing decoded with
  | case1 =>
      simpa [percentDecode, unescape] using h.symm
  | case2 h' l rest hzero =>
      simp [percentDecode, hzero] at h
  | case3 h' l rest hzero ih =>
      simp only [percentDecode, if_true, if_neg hzero, map_eq_ok_iff] at h
      obtain ⟨decoded, hrest, rfl⟩ := h
      rw [unescape, if_pos rfl, ih hrest]
  | case4 c h' l rest hother ih =>
      simp only [percentDecode, if_neg hother, map_eq_ok_iff] at h
      obtain ⟨decoded, hrest, rfl⟩ := h
      rw [unescape, if_neg hother, ih hrest]
  | case5 c rest hshort ih =>
      rw [percentDecode, map_eq_ok_iff] at h
      · obtain ⟨decoded, hrest, rfl⟩ := h
        rw [unescape, ih hrest]
        exact hshort
      · exact hshort

theorem backslashClimb_append_slash_iff (a b : Bytes) :
    BackslashClimb (a ++ ascii '/' :: b) ↔ BackslashClimb a ∨ BackslashClimb b := by
  constructor
  · rintro ⟨pre, post, hsplit, hpost⟩
    rw [List.append_assoc] at hsplit
    rcases List.append_eq_append_iff.mp hsplit with ⟨c, rfl, htail⟩ | ⟨c, rfl, htail⟩
    · right
      cases c with
      | nil => exact absurd htail (by simp [text, ascii])
      | cons d c =>
          obtain ⟨rfl, rfl⟩ : ascii '/' = d ∧ b = c ++ (text "\\.." ++ post) := by
            simpa using htail
          exact ⟨c, post, by simp, hpost⟩
    · left
      rcases List.append_eq_append_iff.mp htail with ⟨c', rfl, rfl⟩ | ⟨c', hneedle, htail'⟩
      · refine ⟨pre, c', by simp, ?_⟩
        cases c' with
        | nil => simp
        | cons d c' => simpa using hpost
      · cases c' with
        | nil =>
            refine ⟨pre, [], ?_, by simp⟩
            simpa using hneedle.symm
        | cons d c' =>
            obtain ⟨rfl, -⟩ : ascii '/' = d ∧ b = c' ++ post := by simpa using htail'
            have hmem : ascii '/' ∈ text "\\.." := by simp [hneedle]
            exact absurd hmem (by decide)
  · rintro (⟨pre, post, rfl, hpost⟩ | ⟨pre, post, rfl, hpost⟩)
    · refine ⟨pre, post ++ ascii '/' :: b, by simp, ?_⟩
      cases post with
      | nil =>
          intro d hd
          obtain rfl : ascii '/' = d := by simpa using hd
          decide
      | cons d post => simpa using hpost
    · exact ⟨a ++ ascii '/' :: pre, post, by simp, hpost⟩

theorem backslashClimb_dot_cons_iff (path : Bytes) :
    BackslashClimb (ascii '.' :: path) ↔ BackslashClimb path := by
  constructor
  · rintro ⟨pre, post, hsplit, hpost⟩
    cases pre with
    | nil => exact absurd hsplit (by simp [text, ascii])
    | cons c pre =>
        obtain ⟨-, rfl⟩ : ascii '.' = c ∧ path = pre ++ (text "\\.." ++ post) := by
          simpa using hsplit
        exact ⟨pre, post, by simp, hpost⟩
  · rintro ⟨pre, post, rfl, hpost⟩
    exact ⟨ascii '.' :: pre, post, by simp, hpost⟩

/-- Taking out a `/..` neither makes nor unmakes a step up behind a backslash. -/
theorem backslashClimb_removeParent_iff (pre post : Bytes) :
    BackslashClimb (pre ++ text "/.." ++ post) ↔ BackslashClimb (pre ++ text "/" ++ post) := by
  have hparent : pre ++ text "/.." ++ post
      = pre ++ ascii '/' :: ascii '.' :: ascii '.' :: post := by
    rw [List.append_assoc]
    rfl
  have hslash : pre ++ text "/" ++ post = pre ++ ascii '/' :: post := by
    rw [List.append_assoc]
    rfl
  rw [hparent, hslash, backslashClimb_append_slash_iff, backslashClimb_append_slash_iff,
    backslashClimb_dot_cons_iff, backslashClimb_dot_cons_iff]

theorem httpClientReadUri_spec {request path : Bytes}
    (h : httpClientReadUri request = .ok (some path)) :
    ¬ text "/.." <:+: path ∧ (BackslashClimb path ↔ RequestsBackslashClimb request) := by
  obtain ⟨target, htarget, hpath⟩ := httpClientReadUri_ok_iff.mp h
  obtain ⟨decoded, hdecoded⟩ := (hexConvertStringToAscii_returns_iff target).mp ⟨path, hpath⟩
  have hclimb : RequestsBackslashClimb request ↔ BackslashClimb decoded := by
    simp [RequestsBackslashClimb, htarget, percentDecode_eq_unescape hdecoded]
  have hkeeps := hexConvertStringToAscii_invariant
    (fun s => BackslashClimb s ↔ BackslashClimb decoded)
    (fun pre post hs => (backslashClimb_removeParent_iff pre post).symm.trans hs)
    hdecoded Iff.rfl hpath
  exact ⟨hkeeps.2, hkeeps.1.trans hclimb.symm⟩

theorem dotDot_mem_components {isDivider : UInt8 → Bool} {c : UInt8} {path : Bytes}
    (hc : c ≠ ascii '.') (hmem : text ".." ∈ components isDivider (c :: path)) :
    ∃ pre d post, c :: path = pre ++ d :: text ".." ++ post ∧ isDivider d ∧
      ∀ d ∈ post.head?, isDivider d := by
  obtain ⟨-, -, pre, post, hsplit, hpre, hpost⟩ := mem_components_iff.mp hmem
  rcases List.eq_nil_or_concat pre with rfl | ⟨p, d, rfl⟩
  · simp [text, hc] at hsplit
  · exact ⟨p, d, post, by simpa using hsplit, hpre d (by simp), hpost⟩

theorem dotDot_notMem_components_posix {path : Bytes} (hpath : path.head? = some (ascii '/'))
    (hclean : ¬ text "/.." <:+: path) :
    text ".." ∉ components Posix01.isDivider path := by
  obtain ⟨rest, rfl⟩ := List.head?_eq_some_iff.mp hpath
  intro hmem
  obtain ⟨pre, d, post, hsplit, hd, -⟩ := dotDot_mem_components (by decide) hmem
  obtain rfl : d = ascii '/' := by simpa [Posix01.isDivider] using hd
  exact hclean ⟨pre, post, hsplit.symm⟩

theorem dotDot_mem_components_backslash_iff {path : Bytes}
    (hpath : path.head? = some (ascii '/')) (hclean : ¬ text "/.." <:+: path) :
    text ".." ∈ components Mscrtdl.isDivider path ↔ BackslashClimb path := by
  constructor
  · obtain ⟨rest, rfl⟩ := List.head?_eq_some_iff.mp hpath
    intro hmem
    obtain ⟨pre, d, post, hsplit, hd, hpost⟩ := dotDot_mem_components (by decide) hmem
    have hcases : d = ascii '/' ∨ d = ascii '\\' := by simpa [Mscrtdl.isDivider] using hd
    rcases hcases with rfl | rfl
    · exact absurd ⟨pre, post, hsplit.symm⟩ hclean
    · exact ⟨pre, post, hsplit, hpost⟩
  · rintro ⟨pre, post, rfl, hpost⟩
    refine mem_components_iff.mpr ⟨by decide, forall_mem_of_all (by decide), pre ++ [ascii '\\'],
      post, ?_, ?_, hpost⟩
    · simp [text]
    · intro d hd
      obtain rfl : ascii '\\' = d := by simpa using hd
      decide

theorem posix_webToSystem_eq {filenameMax : Nat} {root path system : Bytes}
    (hroot : root.head? = some (ascii '/')) (hend : root.getLast? ≠ some (ascii '/'))
    (hpath : path.head? = some (ascii '/'))
    (hsystem : Posix01.platformPathWebToSystem filenameMax root path = .ok (.ok system)) :
    system = root ++ ascii '/' :: path.dropWhile Posix01.isDivider := by
  obtain ⟨rest, rfl⟩ := List.head?_eq_some_iff.mp hpath
  obtain ⟨body, c, rfl⟩ : ∃ body c, root = body ++ [c] := by
    rcases List.eq_nil_or_concat root with rfl | ⟨body, c, hbody⟩
    · simp at hroot
    · exact ⟨body, c, by simpa using hbody⟩
  have hc : c ≠ ascii '/' := by simpa using hend
  have hbody : body ≠ [] := by
    rintro rfl
    exact hc (by simpa using hroot)
  have hcombine : pathCombine Posix01.isDivider (ascii '/') (body ++ [c]) (ascii '/' :: rest)
      = .ok (body ++ [c] ++ ascii '/' :: (ascii '/' :: rest).dropWhile Posix01.isDivider) :=
    pathCombine_concat hbody (by simpa [Posix01.isDivider] using hc)
  -- at least one slash of the second path goes, so the checked index is past the end
  have hshort : ((ascii '/' :: rest).dropWhile Posix01.isDivider).length ≤ rest.length := by
    rw [List.dropWhile_cons_of_pos (by decide)]
    exact (List.dropWhile_sublist _).length_le
  rw [Posix01.platformPathWebToSystem] at hsystem
  split at hsystem
  · simp at hsystem
  · rw [Posix01.platformPathCombine, hcombine, ok_bind, cutAt_of_length_le, ite_self] at hsystem
    · simpa using hsystem.symm
    · simp only [List.length_append, List.length_cons, List.length_nil]
      omega

/-- The POSIX server stays inside its shared folder. -/
theorem posix_webToSystem_inside {filenameMax : Nat} {root request path system : Bytes}
    (hroot : root.head? = some (ascii '/')) (hend : root.getLast? ≠ some (ascii '/'))
    (hrequest : httpClientReadUri request = .ok (some path))
    (hpath : path.head? = some (ascii '/'))
    (hsystem : Posix01.platformPathWebToSystem filenameMax root path = .ok (.ok system)) :
    ∃ rest, system = root ++ ascii '/' :: rest ∧
      text ".." ∉ components Posix01.isDivider rest := by
  refine ⟨path.dropWhile Posix01.isDivider, posix_webToSystem_eq hroot hend hpath hsystem, ?_⟩
  rw [components_dropWhile]
  exact dotDot_notMem_components_posix hpath (httpClientReadUri_spec hrequest).1

theorem posix_webToSystem_inside_escaped :
    ∃ rest, text "/srv/a//b" = text "/srv" ++ ascii '/' :: rest ∧
      text ".." ∉ components Posix01.isDivider rest :=
  @posix_webToSystem_inside 4096 (text "/srv") (text "GET /a%2f%2e./b HTTP/1.1") (text "/a//b")
    (text "/srv/a//b") (by decide) (by decide) (by decide) (by decide) (by decide)

theorem components_map_toBackslash (path : Bytes) :
    components Mscrtdl.isDivider (path.map Mscrtdl.toBackslash)
      = components Mscrtdl.isDivider path := by
  refine components_map ?_ ?_ path
  · intro c
    rw [Mscrtdl.toBackslash]
    split
    · rename_i hc
      rw [hc]
      rfl
    · rfl
  · intro c hc
    rw [Mscrtdl.toBackslash, if_neg]
    rintro rfl
    simp [Mscrtdl.isDivider] at hc

theorem components_pathCombine_absolute {root path output : Bytes} (hroot : IsAbsolute root)
    (houtput : pathCombine Mscrtdl.isDivider (ascii '\\') root path = .ok output) :
    components Mscrtdl.isDivider output
      = components Mscrtdl.isDivider root ++ components Mscrtdl.isDivider path := by
  refine components_pathCombine (by decide) ?_ houtput
  rcases hroot with ⟨d, rest, rfl, hd⟩ | ⟨drive, d, rest, rfl, -⟩
  · right
    exact hd
  · left
    exact lastKept_ne_zero (i := 1) (by decide) (by simp) rfl

theorem components_cutAt_toBackslash {internal : Bytes} {i : Nat}
    (hi : internal.length ≤ i + 1) :
    components Mscrtdl.isDivider (cutAt (internal.map Mscrtdl.toBackslash) i (ascii '\\'))
      = components Mscrtdl.isDivider internal := by
  have hlen : (internal.map Mscrtdl.toBackslash).length ≤ i + 1 := by simpa using hi
  obtain ⟨cut, hsplit, hcut⟩ := exists_eq_append_cutAt (c := ascii '\\') hlen
  have hdividers : ∀ d ∈ cut, Mscrtdl.isDivider d := by
    intro d hd
    rw [hcut d hd]
    decide
  rw [← components_append_dividers _ hdividers, ← hsplit, components_map_toBackslash]

theorem mscrtdl_components {filenameMax : Nat} {root path system : Bytes}
    (hroot : IsAbsolute root)
    (hsystem : Mscrtdl.platformPathWebToSystem filenameMax root path = .ok (.ok system)) :
    components Mscrtdl.isDivider system
      = components Mscrtdl.isDivider root ++ components Mscrtdl.isDivider path := by
  rw [Mscrtdl.platformPathWebToSystem] at hsystem
  split at hsystem
  · simp at hsystem
  · obtain ⟨internal, hinternal, hcut⟩ := bind_eq_ok_iff.mp hsystem
    simp only [Except.ok.injEq] at hcut
    have hlen : internal.length ≤ root.length + path.length + 1 :=
      length_pathCombine_le hinternal
    rw [← hcut, components_cutAt_toBackslash (by omega)]
    exact components_pathCombine_absolute hroot hinternal

theorem doswatb_components {filenameMax : Nat} {root path system : Bytes}
    (hroot : IsAbsolute root)
    (hsystem : Doswatb.platformPathWebToSystem filenameMax root path = .ok (.ok system)) :
    components Mscrtdl.isDivider system
      = components Mscrtdl.isDivider root ++ components Mscrtdl.isDivider path := by
  rw [Doswatb.platformPathWebToSystem] at hsystem
  split at hsystem
  · simp at hsystem
  · obtain ⟨internal, hinternal, hcut⟩ := bind_eq_ok_iff.mp hsystem
    simp only [Except.ok.injEq] at hcut
    rw [← hcut, components_cutAt_toBackslash (by omega)]
    exact components_pathCombine_absolute hroot hinternal

/-- The Windows and DOS servers stay inside their shared folder exactly for the
requests without a step up behind a backslash. -/
theorem backslash_webToSystem_inside_iff {filenameMax : Nat} {root request path system : Bytes}
    (hroot : IsAbsolute root)
    (hrequest : httpClientReadUri request = .ok (some path))
    (hpath : path.head? = some (ascii '/'))
    (hsystem : Mscrtdl.platformPathWebToSystem filenameMax root path = .ok (.ok system) ∨
      Doswatb.platformPathWebToSystem filenameMax root path = .ok (.ok system)) :
    (∃ rest, components Mscrtdl.isDivider system = components Mscrtdl.isDivider root ++ rest ∧
        text ".." ∉ rest) ↔
      ¬ RequestsBackslashClimb request := by
  have hcomponents : components Mscrtdl.isDivider system
      = components Mscrtdl.isDivider root ++ components Mscrtdl.isDivider path := by
    rcases hsystem with hsystem | hsystem
    · exact mscrtdl_components hroot hsystem
    · exact doswatb_components hroot hsystem
  obtain ⟨hclean, hclimb⟩ := httpClientReadUri_spec hrequest
  rw [← hclimb, ← dotDot_mem_components_backslash_iff hpath hclean, hcomponents]
  constructor
  · rintro ⟨rest, hrest, hnot⟩
    rwa [List.append_cancel_left hrest]
  · intro hnot
    exact ⟨_, rfl, hnot⟩

theorem backslash_webToSystem_inside_plain :
    (∃ rest, components Mscrtdl.isDivider (text "C:\\share\\a\\b")
        = components Mscrtdl.isDivider (text "C:\\share") ++ rest ∧ text ".." ∉ rest) ↔
      ¬ RequestsBackslashClimb (text "GET /a%5cb/ HTTP/1.1") :=
  @backslash_webToSystem_inside_iff 260 (text "C:\\share") (text "GET /a%5cb/ HTTP/1.1")
    (text "/a\\b/") (text "C:\\share\\a\\b") (.inr ⟨ascii 'C', ascii '\\', text "share", by decide, by decide⟩)
    (by decide) (by decide) (.inr (by decide))

/-- `GET /\../x` reaches a sibling of the shared folder. -/
theorem backslash_webToSystem_climbs :
    IsAbsolute (text "C:\\share") ∧
      httpClientReadUri (text "GET /\\../x HTTP/1.1") = .ok (some (text "/\\../x")) ∧
      Mscrtdl.platformPathWebToSystem 260 (text "C:\\share") (text "/\\../x")
        = .ok (.ok (text "C:\\share\\..\\x")) ∧
      Doswatb.platformPathWebToSystem 144 (text "C:\\share") (text "/\\../x")
        = .ok (.ok (text "C:\\share\\..\\x")) ∧
      ¬ ∃ rest, components Mscrtdl.isDivider (text "C:\\share\\..\\x")
          = components Mscrtdl.isDivider (text "C:\\share") ++ rest ∧ text ".." ∉ rest := by
  refine ⟨.inr ⟨ascii 'C', ascii '\\', text "share", by decide, by decide⟩,
    by decide, by decide, by decide, ?_⟩
  rintro ⟨rest, hrest, hnot⟩
  have hparts : components Mscrtdl.isDivider (text "C:\\share\\..\\x")
      = components Mscrtdl.isDivider (text "C:\\share") ++ [text "..", text "x"] := by decide
  rw [← List.append_cancel_left (hparts.symm.trans hrest)] at hnot
  exact hnot (by decide)

end Newth.Server.SharedFolder
