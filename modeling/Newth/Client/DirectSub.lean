import Newth.Client.Listing

namespace Newth.Client.DirectSub

open Newth.Library.ByteString
open Newth.Library.Call
open Newth.Client.Uri
open Newth.Client.Listing

variable {site : UriDetails} {sitePath link path s : Bytes} {x : UInt8}

/-- One component, which a slash may follow. -/
def OneLevel (s : Bytes) : Prop := ascii '/' ∉ s.dropLast

/-- A path without its trailing slash. -/
def withoutSlash (path : Bytes) : Bytes :=
  if path.getLast? = some (ascii '/') then path.dropLast else path

/-- The path of an entry of the directory. -/
def EntryPath (sitePath path : Bytes) : Prop :=
  ∃ c, c ≠ [] ∧ ascii '/' ∉ c ∧
    (path = withoutSlash sitePath ++ ascii '/' :: c ∨
      path = withoutSlash sitePath ++ ascii '/' :: (c ++ text "/"))

/-- The details of a site with a path on some host. -/
structure IsSite (site : UriDetails) (sitePath : Bytes) : Prop where
  scheme : ∃ scheme, site.scheme = some scheme ∧ ascii '/' ∉ scheme
  host : site.host.isSome = true
  path : site.path = some sitePath
  absolute : sitePath.head? = some (ascii '/')

/-- A URI of the same scheme, host and port. -/
structure SameSite (site : UriDetails) (link path : Bytes) : Prop where
  scheme : (uriDetailsNewFrom link).scheme = site.scheme
  host : (uriDetailsNewFrom link).host = site.host
  port : uriDetailsGetPort (uriDetailsNewFrom link) = uriDetailsGetPort site
  path : (uriDetailsNewFrom link).path = some path

/-- The link is judged by its path, and nothing behind the end of a string is read. -/
def Judged (site : UriDetails) (sitePath link path : Bytes) : Prop :=
  ∃ b, linkPathIsDirectSub site link = .ok b ∧ (b = true ↔ EntryPath sitePath path)

section Levels

theorem oneLevel_iff :
    OneLevel s ↔ ascii '/' ∉ s ∨ ∃ c, ascii '/' ∉ c ∧ s = c ++ text "/" := by
  rw [OneLevel]
  constructor
  · intro h
    rcases List.eq_nil_or_concat s with rfl | ⟨c, d, rfl⟩
    · simp
    · rw [List.concat_eq_append, List.dropLast_concat] at h
      by_cases hd : d = ascii '/'
      · exact .inr ⟨c, h, by rw [List.concat_eq_append, hd]; rfl⟩
      · left
        simp only [List.concat_eq_append, List.mem_append, List.mem_singleton, not_or]
        exact ⟨h, Ne.symm hd⟩
  · rintro (h | ⟨c, hc, rfl⟩)
    · exact fun hmem => h (List.dropLast_subset s hmem)
    · rwa [show text "/" = [ascii '/'] from rfl, List.dropLast_concat]

theorem lastSlash_iff (s : Bytes) :
    (∀ last, strchr s (ascii '/') = some last → last + 1 = s.length) ↔ OneLevel s := by
  cases hslash : strchr s (ascii '/') with
  | none => exact iff_of_true (by simp) (oneLevel_iff.mpr (.inl (notMem_of_strchr hslash)))
  | some last =>
      obtain ⟨hlt, hget, -⟩ := List.findIdx?_eq_some_iff_getElem.mp hslash
      have hbefore := notMem_take_of_strchr hslash
      rw [OneLevel, List.dropLast_eq_take]
      simp only [Option.some.injEq, forall_eq']
      constructor
      · intro hend
        rwa [← hend, Nat.add_sub_cancel]
      · intro hno
        by_contra hearly
        apply hno
        rw [List.mem_take_iff_getElem]
        exact ⟨last, by omega, by simpa using hget⟩

theorem component_iff :
    (∃ c, c ≠ [] ∧ ascii '/' ∉ c ∧ (s = c ∨ s = c ++ text "/")) ↔
      OneLevel s ∧ s ≠ [] ∧ s ≠ text "/" := by
  rw [oneLevel_iff]
  constructor
  · rintro ⟨c, hne, hc, rfl | rfl⟩
    · refine ⟨.inl hc, hne, ?_⟩
      rintro rfl
      exact hc (by decide)
    · refine ⟨.inr ⟨c, hc, rfl⟩, by simp [text], ?_⟩
      intro hslash
      exact hne (List.append_left_eq_self.mp hslash)
  · rintro ⟨hc | ⟨c, hc, rfl⟩, hne, hslash⟩
    · exact ⟨s, hne, hc, .inl rfl⟩
    · refine ⟨c, ?_, hc, .inr rfl⟩
      rintro rfl
      exact hslash rfl

theorem oneLevel_cons : OneLevel (x :: s) ∧ x :: s ≠ text "/" ↔ x ≠ ascii '/' ∧ OneLevel s := by
  have htext : text "/" = [ascii '/'] := rfl
  rw [htext]
  cases s with
  | nil => simp [OneLevel]
  | cons c s =>
      rw [OneLevel, OneLevel, List.dropLast_cons_cons, List.mem_cons, not_or]
      simp [eq_comm]

theorem entryPath_iff :
    EntryPath sitePath path ↔ ∃ t, path = withoutSlash sitePath ++ ascii '/' :: t ∧
      OneLevel t ∧ t ≠ [] ∧ t ≠ text "/" := by
  constructor
  · rintro ⟨c, hne, hc, rfl | rfl⟩
    · exact ⟨c, rfl, component_iff.mp ⟨c, hne, hc, .inl rfl⟩⟩
    · exact ⟨c ++ text "/", rfl, component_iff.mp ⟨c, hne, hc, .inr rfl⟩⟩
  · rintro ⟨t, rfl, ht⟩
    obtain ⟨c, hne, hc, rfl | rfl⟩ := component_iff.mpr ht
    · exact ⟨t, hne, hc, .inl rfl⟩
    · exact ⟨c, hne, hc, .inr rfl⟩

theorem withoutSlash_append (h : sitePath.getLast? = some (ascii '/')) :
    withoutSlash sitePath ++ [ascii '/'] = sitePath := by
  rw [withoutSlash, if_pos h]
  obtain ⟨front, rfl⟩ := List.getLast?_eq_some_iff.mp h
  rw [List.dropLast_concat]

theorem entryPath_append_iff :
    EntryPath sitePath (sitePath ++ x :: s) ↔
      if sitePath.getLast? = some (ascii '/') then x ≠ ascii '/' ∧ OneLevel s
      else x = ascii '/' ∧ OneLevel s ∧ s ≠ [] ∧ s ≠ text "/" := by
  rw [entryPath_iff]
  split
  · rename_i hslash
    have hsite := withoutSlash_append hslash
    have hsplit : ∀ t, withoutSlash sitePath ++ ascii '/' :: t = sitePath ++ t := by
      intro t
      rw [List.append_cons, hsite]
    simp only [hsplit, List.append_cancel_left_eq]
    rw [← oneLevel_cons]
    constructor
    · rintro ⟨t, rfl, hlevel, -, hother⟩
      exact ⟨hlevel, hother⟩
    · rintro ⟨hlevel, hother⟩
      exact ⟨x :: s, rfl, hlevel, by simp, hother⟩
  · rename_i hslash
    rw [withoutSlash, if_neg hslash]
    simp only [List.append_cancel_left_eq, List.cons.injEq]
    constructor
    · rintro ⟨t, ⟨rfl, rfl⟩, ht⟩
      exact ⟨rfl, ht⟩
    · rintro ⟨rfl, ht⟩
      exact ⟨s, ⟨rfl, rfl⟩, ht⟩

theorem EntryPath.goes_on (h : EntryPath sitePath path) : ∃ x s, path = sitePath ++ x :: s := by
  obtain ⟨t, rfl, -, hne, -⟩ := entryPath_iff.mp h
  by_cases hslash : sitePath.getLast? = some (ascii '/')
  · obtain ⟨x, s, rfl⟩ := List.exists_cons_of_ne_nil hne
    exact ⟨x, s, by rw [List.append_cons, withoutSlash_append hslash]⟩
  · exact ⟨ascii '/', t, by rw [withoutSlash, if_neg hslash]⟩

end Levels

section Links

/-- The absolute paths the code judges right. One with `://` in it is taken for a URI. -/
def PathRight (sitePath path : Bytes) : Prop :=
  if (strstr path (text "://")).isSome then ¬ EntryPath sitePath path
  else ∀ x s, path = sitePath ++ x :: s → OneLevel s →
    if sitePath.getLast? = some (ascii '/') then x = ascii '/' → s = []
    else x = ascii '/' ∧ s ≠ text "/"

/-- The paths of URIs the code judges right. -/
def UriRight (sitePath path : Bytes) : Prop :=
  path ≠ sitePath ∧ ∀ x s, path = sitePath ++ x :: s →
    if ascii '/' ∈ s then ¬ EntryPath sitePath path
    else if sitePath.getLast? = some (ascii '/') then x ≠ ascii '/'
    else x = ascii '/' ∧ s ≠ []

theorem not_goes_on_of_not_prefix (h : ¬ sitePath <+: path) : ¬ EntryPath sitePath path := by
  intro hentry
  obtain ⟨x, s, rfl⟩ := hentry.goes_on
  exact h (List.prefix_append _ _)

theorem goes_on_exists_iff {P : UInt8 → Bytes → Prop} :
    (∃ x' s', sitePath ++ x :: s = sitePath ++ x' :: s' ∧ P x' s') ↔ P x s := by
  simp only [List.append_cancel_left_eq, List.cons.injEq]
  constructor
  · rintro ⟨x', s', ⟨rfl, rfl⟩, h⟩
    exact h
  · exact fun h => ⟨x, s, ⟨rfl, rfl⟩, h⟩

theorem goes_on_forall_iff {P : UInt8 → Bytes → Prop} :
    (∀ x' s', sitePath ++ x :: s = sitePath ++ x' :: s' → P x' s') ↔ P x s := by
  simp only [List.append_cancel_left_eq, List.cons.injEq]
  constructor
  · exact fun h => h x s ⟨rfl, rfl⟩
  · rintro h x' s' ⟨rfl, rfl⟩
    exact h

theorem prefix_cases (path sitePath : Bytes) :
    ¬ sitePath <+: path ∨ path = sitePath ∨ ∃ x s, path = sitePath ++ x :: s := by
  by_cases hpre : sitePath <+: path
  · obtain ⟨rest, rfl⟩ := hpre
    cases rest with
    | nil => exact .inr (.inl (List.append_nil _))
    | cons x s => exact .inr (.inr ⟨x, s, rfl⟩)
  · exact .inl hpre

theorem linkPathIsDirectSub_path (hsite : IsSite site sitePath)
    (hscheme : (strstr path (text "://")).isSome = false)
    (habsolute : path.head? = some (ascii '/')) :
    ∃ b, linkPathIsDirectSub site path = .ok b ∧
      (b = true ↔ ∃ x s, path = sitePath ++ x :: s ∧ OneLevel s ∧ ¬ (x = ascii '/' ∧ s = [])) := by
  rw [linkPathIsDirectSub, if_neg (by simp [hscheme]), if_neg (by rw [habsolute]; decide),
    if_pos habsolute, hsite.path]
  simp only
  rcases prefix_cases path sitePath with hpre | rfl | ⟨x, s, rfl⟩
  · refine ⟨false, if_pos hpre, iff_of_false (by simp) ?_⟩
    rintro ⟨x, s, rfl, -⟩
    exact hpre (List.prefix_append _ _)
  · refine ⟨false, ?_, iff_of_false (by simp) ?_⟩
    · rw [if_neg (by simp), if_pos (.inl le_rfl)]
    · rintro ⟨x, s, hsplit, -⟩
      exact absurd (congrArg List.length hsplit) (by simp)
  · have hdrop : (sitePath ++ x :: s).drop (sitePath.length + 1) = s := by
      rw [List.drop_length_add_append]
      rfl
    have hlength : (sitePath ++ x :: s).length = sitePath.length + 1 + s.length := by
      rw [List.length_append, List.length_cons]
      omega
    have hget : (sitePath ++ x :: s).getD sitePath.length 0 = x := by simp
    rw [if_neg (by simp), hdrop, hget]
    rw [goes_on_exists_iff (P := fun x s => OneLevel s ∧ ¬ (x = ascii '/' ∧ s = []))]
    by_cases hsame : x = ascii '/' ∧ s = []
    · obtain ⟨rfl, rfl⟩ := hsame
      refine ⟨false, if_pos (.inr ⟨by simp, rfl⟩), by simp⟩
    · rw [if_neg]
      · rw [← lastSlash_iff]
        cases strchr s (ascii '/') with
        | none => exact ⟨true, rfl, by simp [hsame]⟩
        | some last =>
            refine ⟨_, rfl, ?_⟩
            simp only [decide_eq_true_eq, Option.some.injEq, forall_eq', hsame, not_false_eq_true,
              and_true, hlength]
            omega
      · rintro (hshort | ⟨hlong, hx⟩)
        · omega
        · have hnil : s = [] := List.eq_nil_of_length_eq_zero (by omega)
          exact hsame ⟨hx, hnil⟩

theorem linkPathIsDirectSub_uri (hsite : IsSite site sitePath) (hsame : SameSite site link path) :
    linkPathIsDirectSub site link =
      if sitePath <+: path then
        if path.length ≤ sitePath.length then .error .outOfBounds
        else .ok (!(path.drop (sitePath.length + 1)).contains (ascii '/'))
      else .ok false := by
  obtain ⟨scheme, hscheme, -⟩ := hsite.scheme
  have hparsed : (uriDetailsNewFrom link).scheme = some scheme := hsame.scheme.trans hscheme
  obtain ⟨len, hfound, -⟩ := uriDetailsNewFrom_scheme hparsed
  have hhost : (uriDetailsNewFrom link).host.isSome = true := by
    rw [hsame.host]
    exact hsite.host
  rw [linkPathIsDirectSub, if_pos (by simp [hfound]), linkUriIsDirectSub]
  rw [if_pos ⟨by simp [hparsed], hsame.scheme, hhost, hsame.host, hsame.port⟩, hsame.path,
    hsite.path]

theorem judged_path_iff (hsite : IsSite site sitePath) (habsolute : path.head? = some (ascii '/')) :
    Judged site sitePath path path ↔ PathRight sitePath path := by
  rw [PathRight]
  by_cases hscheme : (strstr path (text "://")).isSome = true
  · rw [if_pos hscheme]
    have hfalse : linkPathIsDirectSub site path = .ok false := by
      obtain ⟨scheme, hsome, hplain⟩ := hsite.scheme
      rw [linkPathIsDirectSub, if_pos hscheme, linkUriIsDirectSub, if_neg]
      rintro ⟨hparsed, hequal, -⟩
      rw [hsome] at hequal
      obtain ⟨len, hfound, rfl⟩ := uriDetailsNewFrom_scheme hequal
      -- what stands before `://` begins with the slash of the path
      obtain ⟨rest, rfl⟩ := List.head?_eq_some_iff.mp habsolute
      cases len with
      | zero =>
          have hpre := (strstr_eq_some_iff.mp hfound).1
          rw [List.drop_zero] at hpre
          exact absurd (List.cons_prefix_cons.mp hpre).1 (by decide)
      | succ len => simp at hplain
    constructor
    · rintro ⟨b, hok, hb⟩
      rw [hfalse] at hok
      obtain rfl := Except.ok.inj hok
      simpa using hb
    · exact fun hother => ⟨false, hfalse, by simpa using hother⟩
  · rw [if_neg hscheme]
    obtain ⟨b, hok, hb⟩ := linkPathIsDirectSub_path hsite (by simpa using hscheme) habsolute
    have hjudged : Judged site sitePath path path ↔ (b = true ↔ EntryPath sitePath path) := by
      constructor
      · rintro ⟨b', hok', hb'⟩
        rw [hok] at hok'
        rwa [Except.ok.inj hok']
      · exact fun h => ⟨b, hok, h⟩
    rw [hjudged, hb]
    by_cases hgoes : ∃ x s, path = sitePath ++ x :: s
    · obtain ⟨x, s, rfl⟩ := hgoes
      have hnil : text "/" ≠ [] := by decide
      rw [entryPath_append_iff, goes_on_exists_iff (P := fun x s => OneLevel s ∧
        ¬ (x = ascii '/' ∧ s = [])), goes_on_forall_iff]
      by_cases hone : OneLevel s
      · by_cases hslash : x = ascii '/'
        · split
          · simp [hone, hslash]
          · by_cases hs : s = []
            · simp [hslash, hs, hnil]
            · simp [hone, hslash, hs]
        · split
          · simp [hone, hslash]
          · simp [hone, hslash]
      · split
        · simp [hone]
        · simp [hone]
    · refine iff_of_true (iff_of_false ?_ ?_) ?_
      · exact fun ⟨x, s, hsplit, _⟩ => hgoes ⟨x, s, hsplit⟩
      · exact fun hentry => hgoes hentry.goes_on
      · exact fun x s hsplit => absurd ⟨x, s, hsplit⟩ hgoes

theorem judged_uri_iff (hsite : IsSite site sitePath) (hsame : SameSite site link path) :
    Judged site sitePath link path ↔ UriRight sitePath path := by
  rw [Judged, linkPathIsDirectSub_uri hsite hsame, UriRight]
  rcases prefix_cases path sitePath with hpre | rfl | ⟨x, s, rfl⟩
  · rw [if_neg hpre]
    refine iff_of_true ⟨false, rfl, by simpa using not_goes_on_of_not_prefix hpre⟩ ⟨?_, ?_⟩
    · rintro rfl
      exact hpre List.prefix_rfl
    · rintro x s rfl
      exact absurd (List.prefix_append _ _) hpre
  · rw [if_pos List.prefix_rfl, if_pos le_rfl]
    exact iff_of_false (by simp) (by simp)
  · have hdrop : (sitePath ++ x :: s).drop (sitePath.length + 1) = s := by
      rw [List.drop_length_add_append]
      rfl
    rw [if_pos (List.prefix_append _ _), if_neg (by simp), hdrop, goes_on_forall_iff,
      and_iff_right (by simp)]
    simp only [Except.ok.injEq, exists_eq_left', Bool.not_eq_true', List.contains_eq_mem,
      decide_eq_false_iff_not]
    by_cases hmore : ascii '/' ∈ s
    · simp [hmore]
    · have hlevel : OneLevel s := oneLevel_iff.mpr (.inl hmore)
      have hslash : s ≠ text "/" := by
        rintro rfl
        exact hmore (by decide)
      rw [if_neg hmore, entryPath_append_iff]
      simp [hmore, hlevel, hslash]

/-- Either form of a link is judged right exactly for the paths above. -/
theorem linkPathIsDirectSub_exact_iff (site : UriDetails) (sitePath path : Bytes)
    (hsite : IsSite site sitePath) (habsolute : path.head? = some (ascii '/')) :
    (Judged site sitePath path path ↔ PathRight sitePath path) ∧
      ∀ link, SameSite site link path → (Judged site sitePath link path ↔ UriRight sitePath path) :=
  ⟨judged_path_iff hsite habsolute, fun _ hsame => judged_uri_iff hsite hsame⟩

/-- `http://h/d` -/
def folderSite : UriDetails := ⟨some (text "http"), some (text "h"), none, some (text "/d"), none⟩

theorem isSite_folderSite : IsSite folderSite (text "/d") where
  scheme := ⟨text "http", rfl, by decide⟩
  host := rfl
  path := rfl
  absolute := rfl

theorem linkPathIsDirectSub_exact_entry :
    (Judged folderSite (text "/d") (text "/d/x") (text "/d/x") ↔
        PathRight (text "/d") (text "/d/x")) ∧
      (Judged folderSite (text "/d") (text "http://h/d/x") (text "/d/x") ↔
        UriRight (text "/d") (text "/d/x")) := by
  obtain ⟨hpath, huri⟩ := linkPathIsDirectSub_exact_iff folderSite (text "/d") (text "/d/x")
    isSite_folderSite rfl
  exact ⟨hpath, huri (text "http://h/d/x") ⟨rfl, rfl, rfl, rfl⟩⟩

/-- A sibling whose name goes on behind the folder's is taken for an entry. -/
theorem linkPathIsDirectSub_sibling :
    ¬ Judged folderSite (text "/d") (text "/data") (text "/data") := by
  rintro ⟨b, hok, hb⟩
  have htrue : linkPathIsDirectSub folderSite (text "/data") = .ok true := by decide
  rw [htrue] at hok
  obtain rfl := Except.ok.inj hok
  have hentry : EntryPath (text "/d") (text "/d" ++ ascii 'a' :: text "ta") := hb.mp rfl
  rw [entryPath_append_iff, if_neg (by decide)] at hentry
  exact absurd hentry.1 (by decide)

end Links

end Newth.Client.DirectSub
