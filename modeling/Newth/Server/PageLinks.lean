import Newth.Server.LinkTarget
import Newth.Server.Routines

namespace Newth.Server.PageLinks

open Newth.Library.ByteString
open Newth.Library.Call
open Newth.Server.HttpBody
open Newth.Server.LinkTarget
open Newth.Server.Routines

/-- The names of a folder path put together again, without the slash at the end. -/
def joined (components : List Bytes) : Bytes := components.flatMap (ascii '/' :: ·)

/-- The path of the folder with these names on the way to it. -/
def folderPath (components : List Bytes) : Bytes :=
  if components = [] then text "/" else joined components

def IsComponent (name : Bytes) : Prop := name ≠ [] ∧ ascii '/' ∉ name

section Crumbs

variable {components : List Bytes}

theorem getPathCount_append {name : Bytes} (hname : ascii '/' ∉ name) (rest : Bytes) :
    getPathCount (name ++ rest) = getPathCount rest := by
  induction name with
  | nil => rfl
  | cons c name ih =>
      have hc : c ≠ ascii '/' := fun heq => hname (by simp [heq])
      rw [List.cons_append, getPathCount, if_neg (fun h => hc h.1), Nat.zero_add,
        ih (fun hmem => hname (List.mem_cons_of_mem c hmem))]

theorem getPathCount_joined_append (h : ∀ name ∈ components, IsComponent name) (rest : Bytes) :
    getPathCount (joined components ++ rest) = components.length + getPathCount rest := by
  induction components with
  | nil => exact (Nat.zero_add _).symm
  | cons name components ih =>
      obtain ⟨⟨hne, hslash⟩, hrest⟩ := List.forall_mem_cons.mp h
      have hmore : name ++ joined components ++ rest ≠ [] := fun hnil =>
        hne (List.append_eq_nil_iff.mp (List.append_eq_nil_iff.mp hnil).1).1
      show getPathCount (ascii '/' :: (name ++ joined components ++ rest)) = _
      rw [getPathCount, if_pos ⟨rfl, hmore⟩, List.append_assoc, getPathCount_append hslash, ih hrest,
        List.length_cons]
      omega

theorem getPathCount_joined (h : ∀ name ∈ components, IsComponent name) :
    getPathCount (joined components) = components.length := by
  have hcount := getPathCount_joined_append h []
  rwa [List.append_nil] at hcount

theorem getPathCount_folder (h : ∀ name ∈ components, IsComponent name) :
    getPathCount (folderPath components) = components.length := by
  rw [folderPath]
  split
  · rename_i hroot
    rw [hroot]
    rfl
  · exact getPathCount_joined h

theorem pathScan_append {name : Bytes} (hname : ascii '/' ∉ name) (rest : Bytes)
    (maxPaths i currentPath : Nat) :
    pathScan maxPaths (name ++ rest) i currentPath =
      pathScan maxPaths rest (i + name.length) currentPath := by
  induction name generalizing i with
  | nil => rfl
  | cons c name ih =>
      have hc : c ≠ ascii '/' := fun heq => hname (by simp [heq])
      rw [List.cons_append, pathScan, if_pos hc, ih (fun hmem => hname (List.mem_cons_of_mem c hmem)),
        List.length_cons]
      congr 1
      omega

theorem pathScan_joined_append (h : ∀ name ∈ components, IsComponent name)
    {maxPaths currentPath : Nat} (hcurrent : currentPath ≤ maxPaths) (rest : Bytes) (i : Nat) :
    pathScan maxPaths (joined components ++ rest) i currentPath =
      if maxPaths - currentPath < components.length then
        (i + (joined (components.take (maxPaths - currentPath))).length, maxPaths, true)
      else pathScan maxPaths rest (i + (joined components).length)
        (currentPath + components.length) := by
  induction components generalizing i currentPath with
  | nil => rfl
  | cons name components ih =>
      obtain ⟨⟨hne, hslash⟩, hrest⟩ := List.forall_mem_cons.mp h
      show pathScan maxPaths (ascii '/' :: (name ++ joined components ++ rest)) i currentPath = _
      rw [pathScan, if_neg (by simp)]
      by_cases hhere : currentPath = maxPaths
      · rw [if_neg (by simpa using hhere), hhere, Nat.sub_self, List.length_cons,
          if_pos (Nat.succ_pos components.length)]
        rfl
      · rw [if_pos hhere, List.append_assoc, pathScan_append hslash, ih hrest (by omega)]
        obtain ⟨d, hd⟩ : ∃ d, maxPaths - currentPath = d + 1 := ⟨maxPaths - currentPath - 1, by omega⟩
        rw [show maxPaths - (currentPath + 1) = d by omega, hd, List.length_cons,
          List.take_succ_cons]
        simp only [Nat.add_lt_add_iff_right]
        split
        · simp only [joined, List.flatMap_cons, List.length_append, List.length_cons]
          congr 1
          omega
        · simp only [joined, List.flatMap_cons, List.length_append, List.length_cons]
          congr 1
          · omega
          · omega

theorem pathScan_joined (h : ∀ name ∈ components, IsComponent name) {maxPaths currentPath : Nat}
    (hcurrent : currentPath ≤ maxPaths) (i : Nat) :
    pathScan maxPaths (joined components) i currentPath =
      if maxPaths - currentPath < components.length then
        (i + (joined (components.take (maxPaths - currentPath))).length, maxPaths, true)
      else (i + (joined components).length + 1, currentPath + components.length, false) := by
  have hscan := pathScan_joined_append h hcurrent [] i
  rwa [List.append_nil] at hscan

theorem getD_name (a : Bytes) {name : Bytes} (rest : Bytes) {m : Nat} (hm : m < name.length) :
    (a ++ ascii '/' :: (name ++ rest)).getD (a.length + 1 + m) 0 = name.getD m 0 := by
  rw [List.getD_eq_getElem?_getD, List.getD_eq_getElem?_getD, List.getElem?_append_right (by omega),
    show a.length + 1 + m - a.length = m + 1 by omega, List.getElem?_cons_succ,
    List.getElem?_append_left hm]

theorem getD_ne_slash {name : Bytes} (hname : ascii '/' ∉ name) {m : Nat} (hm : m < name.length) :
    name.getD m 0 ≠ ascii '/' := by
  rw [List.getD_eq_getElem _ _ hm]
  intro heq
  exact hname (heq ▸ List.getElem_mem hm)

theorem slashBefore_append (a : Bytes) {name : Bytes} (hname : ascii '/' ∉ name) (rest : Bytes)
    {m : Nat} (hm : m ≤ name.length) :
    slashBefore (a ++ ascii '/' :: (name ++ rest)) (a.length + 1 + m) = .ok a.length := by
  induction m with
  | zero =>
      rw [Nat.add_zero, slashBefore, if_pos]
      simp
  | succ m ih =>
      rw [← Nat.add_assoc, slashBefore, if_neg, ih (by omega)]
      rw [getD_name a rest hm]
      exact getD_ne_slash hname hm

theorem joined_take_succ {i : Nat} (hi : i < components.length) :
    joined (components.take (i + 1)) =
      joined (components.take i) ++ ascii '/' :: components.getD i [] := by
  rw [List.take_add_one, List.getElem?_eq_getElem hi, List.getD_eq_getElem _ _ hi, joined,
    List.flatMap_append]
  simp [joined]

/-- Where a crumb leads, after `i` names of the path. -/
def crumbPath (components : List Bytes) (i : Nat) : Bytes := joined (components.take i) ++ text "/"

def crumbName (components : List Bytes) : Nat → Bytes
  | 0 => text "/"
  | i + 1 => components.getD i [] ++ text "/"

theorem crumb_name (h : ∀ name ∈ components, IsComponent name) {i : Nat}
    (hi : i < components.length) :
    slashBefore (crumbPath components (i + 1)) (joined (components.take (i + 1))).length =
        .ok (joined (components.take i)).length ∧
      (crumbPath components (i + 1)).drop ((joined (components.take i)).length + 1) =
        crumbName components (i + 1) := by
  have hmem : components.getD i [] ∈ components := by
    rw [List.getD_eq_getElem _ _ hi]
    exact List.getElem_mem hi
  have hsplit : crumbPath components (i + 1) =
      joined (components.take i) ++ ascii '/' :: (components.getD i [] ++ text "/") := by
    rw [crumbPath, joined_take_succ hi]
    simp
  constructor
  · rw [hsplit, joined_take_succ hi, List.length_append, List.length_cons,
      Nat.add_comm _ 1, ← Nat.add_assoc]
    exact slashBefore_append _ (h _ hmem).2 _ le_rfl
  · rw [hsplit, List.drop_length_add_append]
    rfl

theorem joined_split (components : List Bytes) (i : Nat) :
    joined components = joined (components.take i) ++ joined (components.drop i) := by
  rw [joined, joined, joined, ← List.flatMap_append, List.take_append_drop]

theorem alnum_of_mem_joined (h : ∀ name ∈ components, ∀ c ∈ name, isalnum c = true) {c : UInt8}
    (hc : c ∈ joined components) : isalnum c = true ∨ c = ascii '/' := by
  obtain ⟨name, hname, hc⟩ := List.mem_flatMap.mp hc
  rcases List.mem_cons.mp hc with rfl | hc
  · exact .inr rfl
  · exact .inl (h name hname c hc)

theorem alnum_of_mem_crumbPath (h : ∀ name ∈ components, ∀ c ∈ name, isalnum c = true) {i : Nat} :
    ∀ c ∈ crumbPath components i, isalnum c = true ∨ c = ascii '/' := by
  intro c hc
  rcases List.mem_append.mp hc with hc | hc
  · exact alnum_of_mem_joined (fun name hname => h name (List.mem_of_mem_take hname)) hc
  · exact .inr (List.mem_singleton.mp hc)

theorem getPathName_stopped (h : ∀ name ∈ components, IsComponent name) {path : Bytes} {i : Nat}
    (hi : i ≤ components.length)
    (hscan : pathScan i path 0 0 = ((joined (components.take i)).length, i, true))
    (hpart : path.take ((joined (components.take i)).length + 1) = crumbPath components i) :
    getPathName path i = .ok (crumbPath components i, crumbName components i) := by
  rw [getPathName, hscan]
  simp only
  cases i with
  | zero => rfl
  | succ i =>
      have hlong : (joined (components.take (i + 1))).length ≠ 0 := by
        rw [joined_take_succ (by omega), List.length_append, List.length_cons]
        omega
      obtain ⟨hslash, hdrop⟩ := crumb_name h (show i < components.length by omega)
      rw [if_neg hlong, hpart, if_pos (Nat.succ_ne_zero i), hslash, ok_bind, hdrop]

theorem getPathName_folder (h : ∀ name ∈ components, IsComponent name) {i : Nat}
    (hi : i ≤ components.length) {linkPath displayPath : Bytes}
    (hname : getPathName (folderPath components) i = .ok (linkPath, displayPath)) :
    linkPath = crumbPath components i ∧ displayPath = crumbName components i := by
  rw [folderPath] at hname
  split at hname
  · rename_i hroot
    subst hroot
    obtain rfl : i = 0 := by simpa using hi
    have hsame := Except.ok.inj hname
    exact ⟨(Prod.mk.inj hsame).1.symm, (Prod.mk.inj hsame).2.symm⟩
  · rename_i hsome
    have hscan := pathScan_joined h (Nat.zero_le i) 0
    rw [Nat.sub_zero, Nat.zero_add, Nat.zero_add, Nat.zero_add] at hscan
    by_cases hlast : i < components.length
    · rw [if_pos hlast] at hscan
      have hnext : (joined (components.drop i)).take 1 = text "/" := by
        rw [List.drop_eq_getElem_cons hlast]
        rfl
      have hpart : (joined components).take ((joined (components.take i)).length + 1) =
          crumbPath components i := by
        rw [joined_split components i, List.take_length_add_append, hnext, crumbPath]
      rw [getPathName_stopped h hi hscan hpart] at hname
      have hsame := Except.ok.inj hname
      exact ⟨(Prod.mk.inj hsame).1.symm, (Prod.mk.inj hsame).2.symm⟩
    · obtain rfl : i = components.length := by omega
      rw [if_neg hlast] at hscan
      rw [getPathName, hscan] at hname
      simp only at hname
      split at hname
      · contradiction
      · obtain ⟨k, hk⟩ := Nat.exists_eq_succ_of_ne_zero
          (fun hzero => hsome (List.eq_nil_of_length_eq_zero hzero))
        have hwhole : joined components ++ text "/" = crumbPath components (k + 1) := by
          rw [crumbPath, List.take_of_length_le (by omega)]
        obtain ⟨hslash, hdrop⟩ := crumb_name h (show k < components.length by omega)
        rw [List.take_of_length_le (by omega)] at hslash
        rw [hk, if_pos (Nat.succ_ne_zero k), hwhole, Nat.add_sub_cancel, hslash, ok_bind,
          hdrop] at hname
        have hsame := Except.ok.inj hname
        rw [hk]
        exact ⟨(Prod.mk.inj hsame).1.symm, (Prod.mk.inj hsame).2.symm⟩

theorem getPathName_slashed (h : ∀ name ∈ components, IsComponent name) {i : Nat}
    (hi : i ≤ components.length) :
    getPathName (joined components ++ text "/") i =
      .ok (crumbPath components i, crumbName components i) := by
  have hscan := pathScan_joined_append h (Nat.zero_le i) (text "/") 0
  rw [Nat.sub_zero, Nat.zero_add, Nat.zero_add, Nat.zero_add] at hscan
  by_cases hlast : i < components.length
  · rw [if_pos hlast] at hscan
    have hnext : (joined (components.drop i) ++ text "/").take 1 = text "/" := by
      rw [List.drop_eq_getElem_cons hlast]
      rfl
    have hpart : (joined components ++ text "/").take ((joined (components.take i)).length + 1) =
        crumbPath components i := by
      rw [joined_split components i, List.append_assoc, List.take_length_add_append, hnext, crumbPath]
    exact getPathName_stopped h hi hscan hpart
  · obtain rfl : i = components.length := by omega
    have hstop : pathScan components.length (text "/") (joined components).length
        components.length = ((joined components).length, components.length, true) := by
      simp [text, pathScan, ascii]
    rw [if_neg hlast, hstop] at hscan
    have hpart : (joined components ++ text "/").take
        ((joined (components.take components.length)).length + 1) =
          crumbPath components components.length := by
      rw [crumbPath, List.take_length]
      exact List.take_length_add_append _
    exact getPathName_stopped h hi (by rw [List.take_length]; exact hscan) hpart

theorem breadCrumb_folder (h : ∀ name ∈ components, IsComponent name) {i : Nat}
    (hi : i ≤ components.length) {crumb : Bytes}
    (hcrumb : breadCrumb (folderPath components) i = .ok crumb)
    (hreturn : convertPathToUrlReturn (crumbPath components i) filenameMax = 0) :
    crumb = text "\t\t\t<A HREF=\"" ++ (crumbPath components i).flatMap linkByte ++ text "\">" ++
      crumbName components i ++ text "</A>\n" := by
  obtain ⟨⟨linkPath, displayPath⟩, hname, hcrumb⟩ := bind_eq_ok_iff.mp hcrumb
  obtain ⟨rfl, rfl⟩ := getPathName_folder h hi hname
  have hconverted : convertPathToUrl (crumbPath components i) filenameMax =
      (crumbPath components i).flatMap linkByte := by
    rw [convertPathToUrl, convertFrom_of_return hreturn, List.nil_append]
  rw [← Except.ok.inj hcrumb, hconverted]

end Crumbs

section Entries

/-- What a link to an entry shows. -/
def entryLabel (name : Bytes) (directory : Bool) : Bytes :=
  if directory then name ++ text "/" else name

theorem entryPath_folder {components : List Bytes} (h : ∀ name ∈ components, IsComponent name)
    (name : Bytes) (directory : Bool) :
    entryPath (folderPath components) name directory =
      joined components ++ ascii '/' :: entryLabel name directory := by
  have hpath : (if (folderPath components).getLast? = some (ascii '/') then
      folderPath components ++ name else folderPath components ++ ascii '/' :: name) =
        joined components ++ ascii '/' :: name := by
    rw [folderPath]
    split
    · rename_i hroot
      have hslash : (text "/").getLast? = some (ascii '/') := rfl
      rw [hroot, if_pos hslash]
      rfl
    · rename_i hsome
      rw [if_neg]
      intro hlast
      obtain ⟨front, last, rfl⟩ := List.eq_nil_or_concat components |>.resolve_left hsome
      have hmem : last ∈ front.concat last := by simp
      obtain ⟨hne, hslash⟩ := h last hmem
      apply hslash
      have hjoined : joined (front.concat last) = (joined front ++ [ascii '/']) ++ last := by
        simp [joined]
      rw [hjoined, List.getLast?_append_of_ne_nil _ hne] at hlast
      exact List.mem_of_getLast? hlast
  rw [entryPath]
  simp only [hpath, entryLabel]
  cases directory with
  | false => rfl
  | true =>
      rw [if_pos rfl, if_pos rfl, List.append_assoc]
      rfl

theorem linkSlash_append (a : Bytes) {name : Bytes} (hname : ascii '/' ∉ name) (rest : Bytes)
    {m : Nat} (hm : m ≤ name.length) :
    (linkSlash (a ++ ascii '/' :: (name ++ rest)) (a.length + m)).getD 0 = a.length := by
  induction m with
  | zero =>
      rw [Nat.add_zero]
      cases a with
      | nil => rfl
      | cons c a =>
          rw [List.length_cons, linkSlash, if_pos]
          · rfl
          · simp
  | succ m ih =>
      rw [← Nat.add_assoc, linkSlash, if_neg, ih (by omega)]
      rw [Nat.add_right_comm, getD_name a rest hm]
      exact getD_ne_slash hname hm

theorem linkText_entry {a name : Bytes} (hname : IsComponent name) (directory : Bool)
    (hreturn : convertPathToUrlReturn (a ++ ascii '/' :: entryLabel name directory) filenameMax = 0) :
    linkText (a ++ ascii '/' :: entryLabel name directory) =
      text "\t\t\t<LI><A HREF=\"" ++
        (a ++ ascii '/' :: entryLabel name directory).flatMap linkByte ++ text "\">" ++
        entryLabel name directory ++ text "</A></LI>\n" := by
  have hconverted : convertPathToUrl (a ++ ascii '/' :: entryLabel name directory) filenameMax =
      (a ++ ascii '/' :: entryLabel name directory).flatMap linkByte := by
    rw [convertPathToUrl, convertFrom_of_return hreturn, List.nil_append]
  have hpos := List.length_pos_of_ne_nil hname.1
  have hslash : (linkSlash (a ++ ascii '/' :: entryLabel name directory)
      ((a ++ ascii '/' :: entryLabel name directory).length - 2)).getD 0 = a.length := by
    rw [List.length_append, List.length_cons]
    cases directory with
    | false =>
        have hrest := linkSlash_append a hname.2 [] (show name.length - 1 ≤ name.length by omega)
        rw [List.append_nil] at hrest
        have hindex : a.length + (name.length + 1) - 2 = a.length + (name.length - 1) := by omega
        rw [entryLabel, if_neg (by decide), hindex, hrest]
    | true =>
        have hrest := linkSlash_append a hname.2 (text "/") (Nat.le_refl name.length)
        have hindex : a.length + ((name ++ text "/").length + 1) - 2 = a.length + name.length := by
          rw [List.length_append]
          show a.length + (name.length + 1 + 1) - 2 = _
          omega
        rw [entryLabel, if_pos rfl, hindex, hrest]
  have hdrop : ((a ++ ascii '/' :: entryLabel name directory).drop a.length).drop 1 =
      entryLabel name directory := by
    rw [List.drop_left]
    rfl
  simp only [linkText, hslash, hdrop, hconverted]

end Entries

end Newth.Server.PageLinks
