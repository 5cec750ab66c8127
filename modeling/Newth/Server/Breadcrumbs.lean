import Newth.Server.PathBuffers

namespace Newth.Server.Breadcrumbs

open Newth.Library.ByteString
open Newth.Library.Call
open Newth.Server.HttpBody
open Newth.Server.PageLinks
open Newth.Server.PathBuffers

section Crumbs

variable {components : List Bytes} {webPath : Bytes}

theorem convertFrom_plain {max : Nat} {done rest : Bytes}
    (h : ∀ c ∈ rest, isalnum c = true ∨ c = ascii '/') : convertFrom max done rest = done ++ rest := by
  induction rest generalizing done with
  | nil => exact (List.append_nil done).symm
  | cons c rest ih =>
      obtain ⟨hc, hrest⟩ := List.forall_mem_cons.mp h
      rw [convertFrom, if_neg fun hescape => hc.elim hescape.1 hescape.2, ih hrest]
      simp

theorem isComponent_of_alnum (h : ∀ name ∈ components, name ≠ [] ∧ ∀ c ∈ name, isalnum c = true) :
    ∀ name ∈ components, IsComponent name := by
  intro name hname
  refine ⟨(h name hname).1, fun hslash => ?_⟩
  exact absurd ((h name hname).2 _ hslash) (by decide)

/-- The path of a folder, with or without a slash at the end. -/
def IsPathTo (components : List Bytes) (webPath : Bytes) : Prop :=
  webPath = folderPath components ∨ webPath = joined components ++ text "/"

theorem IsPathTo.cases (h : IsPathTo components webPath) :
    (components ≠ [] ∧ webPath = joined components) ∨ webPath = joined components ++ text "/" := by
  rcases h with h | h
  · rw [folderPath] at h
    split at h
    · rename_i hroot
      exact .inr (by rw [h, hroot]; rfl)
    · rename_i hsome
      exact .inl ⟨hsome, h⟩
  · exact .inr h

theorem IsPathTo.plain (h : IsPathTo components webPath)
    (hplain : ∀ name ∈ components, ∀ c ∈ name, isalnum c = true) :
    ∀ c ∈ webPath, isalnum c = true ∨ c = ascii '/' := by
  intro c hc
  rcases h.cases with ⟨-, rfl⟩ | rfl
  · exact alnum_of_mem_joined hplain hc
  · rcases List.mem_append.mp hc with hc | hc
    · exact alnum_of_mem_joined hplain hc
    · exact .inr (List.mem_singleton.mp hc)

theorem IsPathTo.slash_mem (h : IsPathTo components webPath) : ascii '/' ∈ webPath := by
  rcases h.cases with ⟨hsome, rfl⟩ | rfl
  · obtain ⟨name, rest, rfl⟩ := List.exists_cons_of_ne_nil hsome
    exact List.mem_cons_self
  · exact List.mem_append_right _ (List.mem_singleton.mpr rfl)

theorem IsPathTo.count (h : IsPathTo components webPath)
    (hnames : ∀ name ∈ components, IsComponent name) : getPathCount webPath = components.length := by
  rcases h.cases with ⟨-, rfl⟩ | rfl
  · exact getPathCount_joined hnames
  · exact getPathCount_joined_append hnames (text "/")

theorem IsPathTo.name (h : IsPathTo components webPath)
    (hnames : ∀ name ∈ components, IsComponent name) {i : Nat} (hi : i ≤ components.length)
    {linkPath displayPath : Bytes}
    (hname : HttpBody.getPathName webPath i = .ok (linkPath, displayPath)) :
    linkPath = crumbPath components i ∧ displayPath = crumbName components i := by
  rcases h with rfl | rfl
  · exact getPathName_folder hnames hi hname
  · rw [getPathName_slashed hnames hi] at hname
    have hsame := Except.ok.inj hname
    exact ⟨(Prod.mk.inj hsame).1.symm, (Prod.mk.inj hsame).2.symm⟩

/-- A link on a page, to where it leads and with what it shows. -/
def crumbLink (link : Bytes × Bytes) : Bytes :=
  text "\t\t\t<A HREF=\"" ++ link.1 ++ text "\">" ++ link.2 ++ text "</A>\n"

theorem IsPathTo.breadCrumb_eq (h : IsPathTo components webPath)
    (hnames : ∀ name ∈ components, IsComponent name)
    (hplain : ∀ name ∈ components, ∀ c ∈ name, isalnum c = true) {i : Nat}
    (hi : i ≤ components.length) {crumb : Bytes} (hcrumb : breadCrumb webPath i = .ok crumb) :
    crumb = crumbLink (crumbPath components i, crumbName components i) := by
  obtain ⟨⟨linkPath, displayPath⟩, hname, hcrumb⟩ := bind_eq_ok_iff.mp hcrumb
  obtain ⟨rfl, rfl⟩ := h.name hnames hi hname
  have hconverted : HttpBody.convertPathToUrl (crumbPath components i) filenameMax =
      crumbPath components i := convertFrom_plain (alnum_of_mem_crumbPath hplain)
  rw [← Except.ok.inj hcrumb, hconverted, crumbLink]

end Crumbs

section Results

/-- The root and every folder on the way, each with its path and what the link to it shows. -/
def ancestors (components : List Bytes) : List (Bytes × Bytes) :=
  (text "/", text "/") :: components.mapIdx fun k name =>
    (joined (components.take (k + 1)) ++ text "/", name ++ text "/")

example : ancestors [text "music", text "live"] = [(text "/", text "/"),
    (text "/music/", text "music/"), (text "/music/live/", text "live/")] := by decide

theorem ancestors_eq (components : List Bytes) : ancestors components =
    (List.range (components.length + 1)).map fun i =>
      (crumbPath components i, crumbName components i) := by
  apply List.ext_getElem
  · simp [ancestors]
  · intro i hi hi'
    cases i with
    | zero => simp [ancestors, crumbPath, crumbName, joined]
    | succ i =>
        rw [ancestors, List.length_cons, List.length_mapIdx, Nat.add_lt_add_iff_right] at hi
        simp [ancestors, crumbPath, crumbName, List.getElem?_eq_getElem hi]

/-- A byte behind the terminator is read, so the path has to be one byte shorter than the arrays
could hold. -/
theorem htmlBreadCrumbWrite_lists_ancestors {components : List Bytes} {webPath : Bytes}
    (hnames : ∀ name ∈ components, name ≠ [] ∧ ∀ c ∈ name, isalnum c = true)
    (hpath : IsPathTo components webPath) (hfits : webPath.length + 2 ≤ filenameMax)
    (buffer : Bytes) (arrays : Nat → CrumbArrays) :
    PathBuffers.htmlBreadCrumbWrite buffer webPath arrays =
      .ok (buffer ++ text "\t\t<DIV>\n" ++ (ancestors components).flatMap crumbLink ++
        text "\t\t</DIV>\n\t\t<HR>\n") := by
  have hcomponents := isComponent_of_alnum hnames
  have hplain : ∀ name ∈ components, ∀ c ∈ name, isalnum c = true :=
    fun name hname => (hnames name hname).2
  have htext : (0 : UInt8) ∉ webPath := fun hzero =>
    (hpath.plain hplain 0 hzero).elim (by decide) (by decide)
  obtain ⟨shown, hshown, harrays⟩ := crumbs_eq htext hpath.slash_mem hfits buffer arrays
  rw [HttpBody.htmlBreadCrumbWrite, if_neg (by omega), hpath.count hcomponents] at hshown
  obtain ⟨crumbs, hcrumbs, hshown⟩ := bind_eq_ok_iff.mp hshown
  have hall : crumbs = (List.range (components.length + 1)).map fun i =>
      crumbLink (crumbPath components i, crumbName components i) := by
    apply eq_map_of_mapM_eq_ok hcrumbs
    intro i hi crumb hcrumb
    exact hpath.breadCrumb_eq hcomponents hplain (Nat.le_of_lt_succ (List.mem_range.mp hi)) hcrumb
  rw [harrays, ← Except.ok.inj hshown, hall, ancestors_eq, List.flatMap_map, List.flatMap_def]

theorem htmlBreadCrumbWrite_lists_ancestors_at :
    PathBuffers.htmlBreadCrumbWrite [] (text "/music/live") (fun _ => strayArrays) =
      .ok ([] ++ text "\t\t<DIV>\n" ++
        (ancestors [text "music", text "live"]).flatMap crumbLink ++
          text "\t\t</DIV>\n\t\t<HR>\n") :=
  htmlBreadCrumbWrite_lists_ancestors (by decide +kernel) (.inl (by decide)) (by decide) [] _

end Results

end Newth.Server.Breadcrumbs
