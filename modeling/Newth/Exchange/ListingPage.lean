import Newth.Client.Links
import Newth.Server.PageLinks

namespace Newth.Exchange.ListingPage

open Newth.Library.ByteString
open Newth.Library.Call
open Newth.Library.Chunked (wire)
open Newth.Client.ChunkedBody (Fits lead not_splitsSizeLine)
open Newth.Client.Links
open Newth.Client.Listing
open Newth.Client.PageSearch (Feeding)
open Newth.Client.Recvbufr
open Newth.Client.SiteHttp
open Newth.Client.Uri
open Newth.Server.HttpBody
open Newth.Server.LinkTarget
open Newth.Server.PageLinks
open Newth.Server.Routines
open Newth.Server.UriDecoder

/-- The listing page of a folder; an entry is its name and whether it is a directory. -/
def listingPage (webPath : Bytes) (entries : List (Bytes × Bool)) : Except Stop Bytes := do
  let buffer ← htmlBreadCrumbWrite (htmlHeaderWrite [] webPath) webPath
  let buffer ← entries.foldlM
    (fun buffer entry => htmlListWritePathLink buffer (entryPath webPath entry.1 entry.2))
    (htmlListStart buffer)
  .ok (htmlFooterWrite (htmlListEnd buffer))

section Page

variable {components : List Bytes} {entries : List (Bytes × Bool)}

/-- The path and the label of every link of a page, first the crumbs. -/
def crumbLinks (components : List Bytes) : List (Bytes × Bytes) :=
  (List.range (components.length + 1)).map fun i => (crumbPath components i, crumbName components i)

def entryLinks (components : List Bytes) (entries : List (Bytes × Bool)) : List (Bytes × Bytes) :=
  entries.map fun entry => (joined components ++ ascii '/' :: entryLabel entry.1 entry.2,
    entryLabel entry.1 entry.2)

/-- A link as it is written. -/
def anchor (link : Bytes × Bytes) : Bytes :=
  tag (link.1.flatMap linkByte) ++ link.2 ++ text "</A>"

theorem entries_written (h : ∀ name ∈ components, IsComponent name)
    (hentries : ∀ entry ∈ entries, IsComponent entry.1)
    (hreturn : ∀ link ∈ entryLinks components entries,
      convertPathToUrlReturn link.1 filenameMax = 0) {buffer result : Bytes}
    (hresult : entries.foldlM (fun buffer entry =>
      htmlListWritePathLink buffer (entryPath (folderPath components) entry.1 entry.2)) buffer =
        .ok result) :
    result = buffer ++ (entryLinks components entries).flatMap (fun link =>
      text "\t\t\t<LI>" ++ anchor link ++ text "</LI>\n") ∧
      ∀ link ∈ entryLinks components entries, link.1.length < filenameMax := by
  induction entries generalizing buffer with
  | nil =>
      obtain rfl : buffer = result := Except.ok.inj hresult
      exact ⟨by simp [entryLinks], by simp [entryLinks]⟩
  | cons entry entries ih =>
      obtain ⟨hname, hentries⟩ := List.forall_mem_cons.mp hentries
      rw [entryLinks, List.map_cons, ← entryLinks] at hreturn
      obtain ⟨hfirst, hreturn⟩ := List.forall_mem_cons.mp hreturn
      rw [List.foldlM_cons, bind_eq_ok_iff] at hresult
      obtain ⟨written, hwritten, hresult⟩ := hresult
      obtain ⟨hrest, hshort⟩ := ih hentries hreturn hresult
      rw [entryPath_folder h, htmlListWritePathLink] at hwritten
      split at hwritten
      · contradiction
      · rename_i hfits
        rw [linkText_entry hname entry.2 hfirst] at hwritten
        rw [entryLinks, List.map_cons, ← entryLinks]
        constructor
        · rw [hrest, ← Except.ok.inj hwritten, List.flatMap_cons, anchor, tag]
          simp [text, List.append_assoc]
        · rw [List.forall_mem_cons]
          exact ⟨by simp only; omega, hshort⟩

theorem crumbs_written (h : ∀ name ∈ components, IsComponent name)
    (hreturn : ∀ link ∈ crumbLinks components, convertPathToUrlReturn link.1 filenameMax = 0)
    {buffer result : Bytes}
    (hresult : htmlBreadCrumbWrite buffer (folderPath components) = .ok result) :
    result = buffer ++ text "\t\t<DIV>\n" ++ (crumbLinks components).flatMap (fun link =>
      text "\t\t\t" ++ anchor link ++ text "\n") ++ text "\t\t</DIV>\n\t\t<HR>\n" ∧
      (folderPath components).length < filenameMax := by
  rw [htmlBreadCrumbWrite] at hresult
  split at hresult
  · contradiction
  · rename_i hfits
    obtain ⟨crumbs, hcrumbs, hresult⟩ := bind_eq_ok_iff.mp hresult
    rw [getPathCount_folder h] at hcrumbs
    have hall : crumbs = (List.range (components.length + 1)).map fun i =>
        text "\t\t\t" ++ anchor (crumbPath components i, crumbName components i) ++ text "\n" := by
      apply eq_map_of_mapM_eq_ok hcrumbs
      intro i hi crumb hcrumb
      have hle : i ≤ components.length := Nat.le_of_lt_succ (List.mem_range.mp hi)
      have hfirst := hreturn (crumbPath components i, crumbName components i)
        (List.mem_map.mpr ⟨i, hi, rfl⟩)
      rw [breadCrumb_folder h hle hcrumb hfirst, anchor, tag]
      simp [text, List.append_assoc]
    refine ⟨?_, by omega⟩
    rw [← Except.ok.inj hresult, hall, crumbLinks, List.flatMap_map, List.flatMap_def]

/-- The top of a page up to the title, and from behind it to the body. -/
def pageTop : Bytes :=
  text "<!DOCTYPE HTML PUBLIC \"-//W3C//DTD HTML 4.01//EN\"\n" ++
    text "\t\"http://www.w3.org/TR/html4/strict.dtd\">\n<HTML>\n\t<HEAD>\n\t\t<TITLE>"

def pageStyle : Bytes :=
  text "</TITLE>\n\t\t<STYLE TYPE=\"text/css\">\n\t\t*\x7b\n\t\t\tfont-family: monospace;\n" ++
    text "\t\t\x7d\n\t\t\n\t\ta:hover,tr:hover\x7b\n\t\t\tfont-weight: bold;\n\t\t\x7d\n" ++
    text "\t\t</STYLE>\n\t</HEAD>\n\n\t"

theorem htmlHeaderWrite_eq (title : Bytes) :
    htmlHeaderWrite [] title = pageTop ++ title ++ pageStyle ++ text "<BODY>\n" := by
  have hlast : text "\t\t</STYLE>\n\t</HEAD>\n\n\t<BODY>\n" =
      text "\t\t</STYLE>\n\t</HEAD>\n\n\t" ++ text "<BODY>\n" := rfl
  rw [htmlHeaderWrite, hlast, pageTop, pageStyle]
  simp only [List.nil_append, List.append_assoc]

end Page

section Chains

/-- The links of a list in front of the rest of a page, each between the same texts:
the gap in front of them and the links themselves. -/
def chain (lead trail : Bytes) (links : List (Bytes × Bytes)) (next : Bytes × List PageLink) :
    Bytes × List PageLink :=
  links.foldr (fun link next =>
    (lead, ⟨link.1.flatMap linkByte, link.2, trail ++ next.1⟩ :: next.2)) next

def spread (part : Bytes × List PageLink) : Bytes := part.1 ++ part.2.flatMap PageLink.written

variable {lead trail : Bytes} {links : List (Bytes × Bytes)} {next : Bytes × List PageLink}

theorem spread_chain : spread (chain lead trail links next) =
    links.flatMap (fun link => lead ++ anchor link ++ trail) ++ spread next := by
  induction links with
  | nil => rfl
  | cons link links ih =>
      rw [List.flatMap_cons, List.append_assoc, ← ih]
      show lead ++ (_ :: _).flatMap PageLink.written = _
      rw [List.flatMap_cons, PageLink.written, anchor, ← chain, spread]
      simp only [List.append_assoc]

theorem chain_flatMap (names : Bytes → List Bytes) :
    (chain lead trail links next).2.flatMap (fun link => names link.href) =
      links.flatMap (fun link => names (link.1.flatMap linkByte)) ++
        next.2.flatMap (fun link => names link.href) := by
  induction links with
  | nil => rfl
  | cons link links ih =>
      rw [List.flatMap_cons, List.append_assoc, ← ih]
      rfl

theorem mem_chain {link : PageLink} (h : link ∈ (chain lead trail links next).2) :
    (∃ original ∈ links, link.href = original.1.flatMap linkByte) ∨ link ∈ next.2 := by
  induction links with
  | nil => exact .inr h
  | cons original links ih =>
      rcases List.mem_cons.mp h with rfl | h
      · exact .inl ⟨original, List.mem_cons_self, rfl⟩
      · rcases ih h with ⟨other, hother, heq⟩ | hnext
        · exact .inl ⟨other, List.mem_cons_of_mem _ hother, heq⟩
        · exact .inr hnext

theorem isHref_link (path : Bytes) : IsHref (path.flatMap linkByte) := by
  intro d hd hforbidden
  obtain ⟨c, -, hc⟩ := List.mem_flatMap.mp hd
  have hall : ∀ d ∈ 0 :: text "<>\"?:", (∀ n < 16, d ≠ Newth.Library.Numeral.digit n) ∧
      d ≠ ascii '%' ∧ isalnum d = false ∧ d ≠ ascii '/' :=
    forall_mem_of_all (by decide)
  obtain ⟨hdigit, hpercent, hplain⟩ := hall d hforbidden
  exact notMem_linkByte hdigit hpercent hplain hc

theorem flatMap_linkByte_ne_nil {path : Bytes} (h : path ≠ []) : path.flatMap linkByte ≠ [] := by
  cases path with
  | nil => exact absurd rfl h
  | cons c path =>
      rw [List.flatMap_cons]
      rcases linkByte_cases c with ⟨hc, -⟩ | hc <;> rw [hc] <;> simp

/-- A link whose label is taken for nothing else. -/
structure Clear (link : Bytes × Bytes) : Prop where
  path : link.1 ≠ []
  label : IsLabel link.2
  linkless : Linkless link.2
  zero_notMem : (0 : UInt8) ∉ link.2
  short : link.2.length ≤ filenameMax

/-- The texts around the links of a chain. -/
structure Spacing (lead trail : Bytes) : Prop where
  linkless_before : Linkless lead
  tab_first : lead.head? = some (ascii '\t')
  two_le : 2 ≤ lead.length
  linkless_behind : Linkless (text "</A>" ++ trail)
  before_le : lead.length ≤ 64
  behind_le : trail.length ≤ 64

theorem scannable_chain (hspacing : Spacing lead trail) (hlinks : ∀ link ∈ links, Clear link)
    (hnext : Scannable next.1 next.2) (hhead : next.1.head? = some (ascii '\t'))
    (hshort : next.1.length ≤ 64)
    (hlast : next.2 = [] → quiet (text "</A>" ++ trail ++ next.1) = true ∧
      ∀ link ∈ links.getLast?, quiet link.2 = true) :
    Scannable (chain lead trail links next).1 (chain lead trail links next).2 ∧
      (chain lead trail links next).1.head? = some (ascii '\t') ∧
      (chain lead trail links next).1.length ≤ 64 := by
  induction links with
  | nil => exact ⟨hnext, hhead, hshort⟩
  | cons link links ih =>
      obtain ⟨hlink, hlinks⟩ := List.forall_mem_cons.mp hlinks
      obtain ⟨hrest, hrestHead, hrestShort⟩ := ih hlinks (by
        intro hnil
        obtain ⟨hquiet, hlabel⟩ := hlast hnil
        refine ⟨hquiet, fun other hother => hlabel other ?_⟩
        cases links with
        | nil => simp at hother
        | cons first links => rwa [List.getLast?_cons_cons])
      have hfront : Linkless (link.2 ++ (text "</A>" ++ trail)) :=
        hlink.linkless.append hspacing.linkless_behind
          (show some (toupper (ascii '<')) ≠ some (ascii 'A') by decide)
      have hremainder : Scannable (link.2 ++ (text "</A>" ++ trail) ++ (chain lead trail links next).1)
          (chain lead trail links next).2 := by
        have hlabel := hlink.short
        have hbehind := hspacing.behind_le
        apply hrest.front hfront
        · rw [hrestHead]
          decide
        · simp only [List.length_append]
          have hclose : (text "</A>").length = 4 := rfl
          omega
        · simp only [List.length_append]
          have hclose : (text "</A>").length = 4 := rfl
          rw [filenameMax] at hlabel
          rw [sbDataSize]
          omega
        · intro hnil
          cases links with
          | nil =>
              obtain ⟨hquiet, hlabel⟩ := hlast hnil
              rw [List.append_assoc]
              exact quiet_label (hlabel link rfl) hquiet
          | cons first links => exact absurd hnil (by simp [chain])
      refine ⟨⟨hspacing.linkless_before, ?_, ?_, ?_, ?_⟩, hspacing.tab_first, hspacing.before_le⟩
      · have hlong := hspacing.two_le
        show lead.length ≠ 1
        omega
      · have hbefore := hspacing.before_le
        show lead.length + 2 ≤ 8192
        omega
      · exact ⟨isHref_link _, flatMap_linkByte_ne_nil hlink.path, hlink.label, hlink.zero_notMem⟩
      · have hsame : PageLink.remainder ⟨link.1.flatMap linkByte, link.2,
            trail ++ (chain lead trail links next).1⟩ =
              link.2 ++ (text "</A>" ++ trail) ++ (chain lead trail links next).1 := by
          simp only [PageLink.remainder, List.append_assoc]
        rw [← chain, hsame]
        exact hremainder

end Chains

section Targets

variable {tail n : Bytes}

theorem relativeFrom_flat (hn : ascii '/' ∉ n) (htail : tail = [] ∨ tail = text "/") (p : Bytes) :
    relativeFrom p (n ++ tail) = p := by
  induction n with
  | nil =>
      rcases htail with rfl | rfl
      · rfl
      · rfl
  | cons c n ih =>
      have hc : c ≠ ascii '/' := fun heq => hn (by simp [heq])
      rw [List.cons_append, relativeFrom, if_neg (fun h => hc h.1)]
      exact ih (fun hmem => hn (List.mem_cons_of_mem c hmem))

theorem relativeFrom_last (hne : n ≠ []) (hn : ascii '/' ∉ n)
    (htail : tail = [] ∨ tail = text "/") (a p : Bytes) :
    relativeFrom p (a ++ ascii '/' :: (n ++ tail)) = n ++ tail := by
  induction a generalizing p with
  | nil =>
      obtain ⟨c, n, rfl⟩ := List.exists_cons_of_ne_nil hne
      have hc : c ≠ ascii '/' := fun heq => hn (by simp [heq])
      rw [List.nil_append, relativeFrom, if_pos]
      · exact relativeFrom_flat hn htail _
      · refine ⟨rfl, by simp, ?_⟩
        simpa using hc
  | cons c a ih =>
      rw [List.cons_append, relativeFrom]
      split
      · exact ih _
      · exact ih _

theorem slash_notMem_link {name : Bytes} (hname : ascii '/' ∉ name) :
    ascii '/' ∉ name.flatMap linkByte := by
  intro hmem
  obtain ⟨c, hc, hmem⟩ := List.mem_flatMap.mp hmem
  rcases linkByte_cases c with ⟨hsame, -⟩ | hescape
  · rw [hsame] at hmem
    exact hname (List.mem_singleton.mp hmem ▸ hc)
  · rw [hescape] at hmem
    rcases List.mem_cons.mp hmem with hpercent | hdigits
    · exact absurd hpercent (by decide)
    · exact Newth.Library.Numeral.notMem_numeral (by decide) (by decide) (by decide) hdigits

theorem entryName_link {name : Bytes} (hname : IsComponent name) (hbytes : ∀ c ∈ name, 16 ≤ c)
    (htail : tail = [] ∨ tail = text "/") (a : Bytes) :
    entryName (a ++ ascii '/' :: (name.flatMap linkByte ++ tail)) = .ok name := by
  have hslash := slash_notMem_link hname.2
  have hcut : (name.flatMap linkByte ++ tail).takeWhile (· != ascii '/') =
      name.flatMap linkByte := by
    rw [takeWhile_ne_append hslash]
    rcases htail with rfl | rfl
    · simp
    · rw [show (text "/").takeWhile (· != ascii '/') = [] from rfl, List.append_nil]
  rw [entryName, linkPathConvertToRelativeSubdirectory,
    relativeFrom_last (flatMap_linkByte_ne_nil hname.1) hslash htail, hcut]
  apply hexConvert_of_clean (percentDecode_link hbytes)
  intro hwithin
  exact hname.2 (hwithin.subset List.mem_cons_self)

variable {details : UriDetails} {sitePath link : Bytes}

theorem no_scheme (hlink : IsHref link) : (strstr link (text "://")).isSome = false := by
  have hnone : strstr link (text "://") = none := by
    rw [strstr_eq_none_iff]
    intro hwithin
    exact hlink.notMem (show ascii ':' ∈ 0 :: text "<>\"?:" by decide)
      (hwithin.subset List.mem_cons_self)
  rw [hnone]
  rfl

theorem linkPathIsDirectSub_outside (hlink : IsHref link) (hhead : link.head? = some (ascii '/'))
    (hpath : details.path = some sitePath) (houtside : ¬ sitePath <+: link) :
    linkPathIsDirectSub details link = .ok false := by
  rw [linkPathIsDirectSub, if_neg (by rw [no_scheme hlink]; decide), hhead,
    if_neg (by decide), if_pos rfl, hpath]
  simp only [houtside, not_false_eq_true, if_true]

theorem linkPathIsDirectSub_itself (hlink : IsHref link) (hhead : link.head? = some (ascii '/'))
    (hpath : details.path = some sitePath) (hself : link = sitePath ∨ link = sitePath ++ text "/") :
    linkPathIsDirectSub details link = .ok false := by
  have hstarts : sitePath <+: link := by
    rcases hself with rfl | rfl
    · exact List.prefix_rfl
    · exact List.prefix_append _ _
  rw [linkPathIsDirectSub, if_neg (by rw [no_scheme hlink]; decide), hhead,
    if_neg (by decide), if_pos rfl, hpath]
  simp only [hstarts, not_true_eq_false, if_false]
  rw [if_pos]
  rcases hself with rfl | rfl
  · exact .inl le_rfl
  · right
    simp [text]

theorem linkPathIsDirectSub_inside {x : UInt8} (hlink : IsHref link)
    (hhead : link.head? = some (ascii '/')) (hpath : details.path = some sitePath)
    (hsplit : link = sitePath ++ x :: (n ++ tail)) (hn : ascii '/' ∉ n)
    (htail : tail = [] ∨ tail = text "/") (hsome : x = ascii '/' → n ++ tail ≠ []) :
    linkPathIsDirectSub details link = .ok true := by
  have hstarts : sitePath <+: link := hsplit ▸ List.prefix_append _ _
  have hlength : link.length = sitePath.length + 1 + (n ++ tail).length := by
    rw [hsplit, List.length_append, List.length_cons]
    omega
  have hdrop : link.drop (sitePath.length + 1) = n ++ tail := by
    rw [hsplit, List.drop_length_add_append]
    rfl
  have hget : link.getD sitePath.length 0 = x := by
    rw [hsplit]
    simp
  rw [linkPathIsDirectSub, if_neg (by rw [no_scheme hlink]; decide), hhead,
    if_neg (by decide), if_pos rfl, hpath]
  simp only [hstarts, not_true_eq_false, if_false]
  rw [if_neg, hdrop]
  · rcases htail with rfl | rfl
    · rw [List.append_nil, strchr_eq_none hn]
    · have hfound : strchr (n ++ text "/") (ascii '/') = some n.length := strchr_append hn []
      rw [List.length_append] at hlength
      have hend : sitePath.length + 1 + n.length + 1 = link.length := by
        rw [hlength]
        rfl
      rw [hfound]
      simp only [hend, decide_true]
  · rintro (hshort | ⟨hexact, hslash⟩)
    · omega
    · rw [hget] at hslash
      have hnil : (n ++ tail).length = 0 := by omega
      exact hsome hslash (List.eq_nil_of_length_eq_zero hnil)

theorem flatMap_linkByte_plain {path : Bytes} (h : ∀ c ∈ path, isalnum c = true ∨ c = ascii '/') :
    path.flatMap linkByte = path := by
  induction path with
  | nil => rfl
  | cons c path ih =>
      obtain ⟨hc, hpath⟩ := List.forall_mem_cons.mp h
      have hsame : linkByte c = [c] := by
        rw [linkByte, if_neg]
        rintro ⟨halnum, hslash⟩
        exact hc.elim halnum hslash
      rw [List.flatMap_cons, hsame, ih hpath]
      rfl

theorem head_link {path : Bytes} (h : path.head? = some (ascii '/')) :
    (path.flatMap linkByte).head? = some (ascii '/') := by
  cases path with
  | nil => simp at h
  | cons c path =>
      obtain rfl : c = ascii '/' := Option.some.inj h
      rfl

end Targets

section Folders

variable {components : List Bytes} {entries : List (Bytes × Bool)} {details : UriDetails}

/-- A name of printable characters. -/
def IsName (name : Bytes) : Prop :=
  name ≠ [] ∧ ∀ c ∈ name, ascii ' ' ≤ c ∧ c ≤ ascii '~' ∧ c ≠ ascii '/'

instance (name : Bytes) : Decidable (IsName name) :=
  inferInstanceAs (Decidable (_ ∧ _))

theorem IsName.isComponent {name : Bytes} (h : IsName name) : IsComponent name :=
  ⟨h.1, fun hmem => (h.2 _ hmem).2.2 rfl⟩

theorem IsName.large {name : Bytes} (h : IsName name) : ∀ c ∈ name, 16 ≤ c := by
  intro c hc
  exact UInt8.le_trans (show (16 : UInt8) ≤ ascii ' ' by decide) (h.2 c hc).1

theorem IsName.zero_notMem {name : Bytes} (h : IsName name) : (0 : UInt8) ∉ name := by
  intro hmem
  exact absurd (h.large 0 hmem) (by decide)

/-- A path that is linked as it is. -/
def IsPlain (components : List Bytes) : Prop := ∀ name ∈ components, ∀ c ∈ name, isalnum c = true

instance (components : List Bytes) : Decidable (IsPlain components) :=
  inferInstanceAs (Decidable (∀ name ∈ components, ∀ c ∈ name, isalnum c = true))

theorem crumbPath_plain (h : IsPlain components) (i : Nat) :
    (crumbPath components i).flatMap linkByte = crumbPath components i :=
  flatMap_linkByte_plain (alnum_of_mem_crumbPath h)

theorem crumbPath_head (i : Nat) : (crumbPath components i).head? = some (ascii '/') := by
  rw [crumbPath, joined]
  cases components.take i with
  | nil => rfl
  | cons name names => rfl

theorem length_joined_take {i : Nat} (h : ∀ name ∈ components, IsComponent name)
    (hi : i < components.length) :
    (joined (components.take i)).length + 2 ≤ (joined components).length := by
  have hname := (h _ (List.getElem_mem hi)).1
  have hpos := List.length_pos_of_ne_nil hname
  rw [joined_split components i, List.drop_eq_getElem_cons hi, List.length_append]
  simp only [joined, List.flatMap_cons, List.length_append, List.length_cons]
  omega

theorem listedAs_crumb (h : ∀ name ∈ components, IsComponent name) (hplain : IsPlain components)
    (hpath : details.path = some (folderPath components)) {i : Nat} (hi : i ≤ components.length) :
    listedAs details ((crumbPath components i).flatMap linkByte) = .ok [] := by
  have hlink := isHref_link (crumbPath components i)
  rw [crumbPath_plain hplain] at hlink ⊢
  have hfalse : linkPathIsDirectSub details (crumbPath components i) = .ok false := by
    rw [folderPath] at hpath
    split at hpath
    · rename_i hroot
      subst hroot
      obtain rfl : i = 0 := by simpa using hi
      exact linkPathIsDirectSub_itself hlink (crumbPath_head 0) hpath (.inl rfl)
    · by_cases hlast : i < components.length
      · apply linkPathIsDirectSub_outside hlink (crumbPath_head i) hpath
        intro hstarts
        have hle := hstarts.length_le
        have hlong := length_joined_take h hlast
        rw [crumbPath, List.length_append] at hle
        have hslash : (text "/").length = 1 := rfl
        omega
      · apply linkPathIsDirectSub_itself hlink (crumbPath_head i) hpath
        right
        rw [crumbPath, List.take_of_length_le (by omega)]
  rw [listedAs, hfalse]
  rfl

theorem entryLabel_cases (name : Bytes) (directory : Bool) : ∃ tail,
    (tail = [] ∨ tail = text "/") ∧ entryLabel name directory = name ++ tail ∧
      (entryLabel name directory).flatMap linkByte = name.flatMap linkByte ++ tail := by
  cases directory with
  | false => exact ⟨[], .inl rfl, (List.append_nil name).symm, by simp [entryLabel]⟩
  | true =>
      refine ⟨text "/", .inr rfl, rfl, ?_⟩
      rw [entryLabel, if_pos rfl, List.flatMap_append]
      rfl

theorem listedAs_entry (hplain : IsPlain components)
    (hpath : details.path = some (folderPath components)) {name : Bytes} (hname : IsName name)
    (directory : Bool) :
    listedAs details ((joined components ++ ascii '/' :: entryLabel name directory).flatMap linkByte) =
      .ok [name] := by
  obtain ⟨tail, htail, -, hlabel⟩ := entryLabel_cases name directory
  have hlink := isHref_link (joined components ++ ascii '/' :: entryLabel name directory)
  have hwritten : (joined components ++ ascii '/' :: entryLabel name directory).flatMap linkByte =
      joined components ++ ascii '/' :: (name.flatMap linkByte ++ tail) := by
    rw [List.flatMap_append, flatMap_linkByte_plain (fun c hc => alnum_of_mem_joined hplain hc),
      List.flatMap_cons, hlabel]
    rfl
  have hslash := slash_notMem_link hname.isComponent.2
  have hsome := flatMap_linkByte_ne_nil hname.1
  rw [hwritten] at hlink ⊢
  have htrue : linkPathIsDirectSub details
      (joined components ++ ascii '/' :: (name.flatMap linkByte ++ tail)) = .ok true := by
    have hhead : (joined components ++ ascii '/' :: (name.flatMap linkByte ++ tail)).head? =
        some (ascii '/') := by
      cases components with
      | nil => rfl
      | cons first more => rfl
    rw [folderPath] at hpath
    split at hpath
    · rename_i hroot
      subst hroot
      obtain ⟨x, n, hn⟩ := List.exists_cons_of_ne_nil hsome
      rw [hn] at hslash hlink hhead ⊢
      have hx : x ≠ ascii '/' := fun heq => hslash (by simp [heq])
      exact linkPathIsDirectSub_inside hlink hhead hpath
        (show _ = text "/" ++ x :: (n ++ tail) from rfl)
        (fun hmem => hslash (List.mem_cons_of_mem x hmem)) htail (fun heq => absurd heq hx)
    · exact linkPathIsDirectSub_inside hlink hhead hpath rfl hslash htail
        (fun _ hnil => hsome (List.append_eq_nil_iff.mp hnil).1)
  rw [listedAs, htrue]
  show (entryName _ >>= fun n => Except.ok [n]) = _
  rw [entryName_link hname.isComponent hname.large htail]
  rfl

theorem listedAs_foreign (hpath : details.path = some (folderPath components)) {c : UInt8}
    (hc : c ∈ folderPath components) (halnum : isalnum c = false) (hslash : c ≠ ascii '/')
    (hpercent : c ≠ ascii '%') {path : Bytes} (hhead : path.head? = some (ascii '/')) :
    listedAs details (path.flatMap linkByte) = .ok [] := by
  have hfalse : linkPathIsDirectSub details (path.flatMap linkByte) = .ok false := by
    apply linkPathIsDirectSub_outside (isHref_link path) (head_link hhead) hpath
    intro hstarts
    obtain ⟨d, -, hd⟩ := List.mem_flatMap.mp (hstarts.subset hc)
    rcases linkByte_cases d with ⟨hsame, hplain⟩ | hescape
    · rw [hsame] at hd
      obtain rfl := List.mem_singleton.mp hd
      rcases hplain with hplain | hplain
      · rw [halnum] at hplain
        exact Bool.false_ne_true hplain
      · exact hslash hplain
    · rw [hescape] at hd
      rcases List.mem_cons.mp hd with hd | hd
      · exact hpercent hd
      · obtain ⟨n, hn, rfl⟩ := Newth.Library.Numeral.mem_numeral (by decide) c hd
        have hdigits : ∀ n < 16, isalnum (Newth.Library.Numeral.digit n) = true := by decide
        rw [hdigits n hn] at halnum
        exact Bool.noConfusion halnum
  rw [listedAs, hfalse]
  rfl

end Folders

section Listing

variable {components : List Bytes} {entries : List (Bytes × Bool)}

def pageLinks (components : List Bytes) (entries : List (Bytes × Bool)) : List (Bytes × Bytes) :=
  crumbLinks components ++ entryLinks components entries

/-- No text of a page is taken for markup, and every link fits its buffer. -/
structure Distinguishable (components : List Bytes) (entries : List (Bytes × Bool)) : Prop where
  title : ¬ text "<B" <:+: (folderPath components).map toupper
  linkless : ∀ link ∈ pageLinks components entries, Linkless link.2
  last : ∀ link ∈ (pageLinks components entries).getLast?, quiet link.2 = true
  fits : ∀ link ∈ pageLinks components entries, convertPathToUrlReturn link.1 filenameMax = 0

/-- A page behind its body tag, as a gap and the links after it. -/
def pageBottom : Bytes × List PageLink := (text "\t\t</UL>\n\t</BODY>\n</HTML>\n", [])

def pageEntries (components : List Bytes) (entries : List (Bytes × Bool)) : Bytes × List PageLink :=
  chain (text "\t\t\t<LI>") (text "</LI>\n") (entryLinks components entries) pageBottom

def pageMiddle (components : List Bytes) (entries : List (Bytes × Bool)) : Bytes × List PageLink :=
  (text "\t\t</DIV>\n\t\t<HR>\n\t\t<UL>\n" ++ (pageEntries components entries).1,
    (pageEntries components entries).2)

def pageCrumbs (components : List Bytes) (entries : List (Bytes × Bool)) : Bytes × List PageLink :=
  chain (text "\t\t\t") (text "\n") (crumbLinks components) (pageMiddle components entries)

def pageBody (components : List Bytes) (entries : List (Bytes × Bool)) : Bytes × List PageLink :=
  (text "\n\t\t<DIV>\n" ++ (pageCrumbs components entries).1, (pageCrumbs components entries).2)

theorem listingPage_eq {page : Bytes} (hcomponents : ∀ name ∈ components, IsComponent name)
    (hentries : ∀ entry ∈ entries, IsComponent entry.1)
    (hfits : ∀ link ∈ pageLinks components entries, convertPathToUrlReturn link.1 filenameMax = 0)
    (hpage : listingPage (folderPath components) entries = .ok page) :
    page = (pageTop ++ folderPath components ++ pageStyle) ++
        (text "<BODY>" ++ spread (pageBody components entries)) ∧
      (folderPath components).length < filenameMax ∧
      ∀ link ∈ entryLinks components entries, link.1.length < filenameMax := by
  obtain ⟨top, htop, hpage⟩ := bind_eq_ok_iff.mp hpage
  obtain ⟨list, hlist, hpage⟩ := bind_eq_ok_iff.mp hpage
  obtain ⟨rfl, hshort⟩ := crumbs_written hcomponents
    (fun link hlink => hfits link (List.mem_append_left _ hlink)) htop
  obtain ⟨rfl, hlinks⟩ := entries_written hcomponents hentries
    (fun link hlink => hfits link (List.mem_append_right _ hlink)) hlist
  refine ⟨?_, hshort, hlinks⟩
  have hbottom : spread pageBottom = text "\t\t</UL>\n" ++ text "\t</BODY>\n</HTML>\n" := rfl
  have hspread : spread (pageBody components entries) = text "\n" ++ text "\t\t<DIV>\n" ++
      ((crumbLinks components).flatMap (fun link => text "\t\t\t" ++ anchor link ++ text "\n") ++
        (text "\t\t</DIV>\n\t\t<HR>\n" ++ text "\t\t<UL>\n" ++
          ((entryLinks components entries).flatMap
            (fun link => text "\t\t\t<LI>" ++ anchor link ++ text "</LI>\n") ++
              (text "\t\t</UL>\n" ++ text "\t</BODY>\n</HTML>\n")))) := by
    rw [← hbottom, ← spread_chain, ← pageEntries]
    have hmiddle : spread (pageMiddle components entries) =
        text "\t\t</DIV>\n\t\t<HR>\n" ++ text "\t\t<UL>\n" ++ spread (pageEntries components entries) := by
      rw [spread, pageMiddle, List.append_assoc]
      rfl
    rw [← hmiddle, ← spread_chain, ← pageCrumbs, spread, pageBody, List.append_assoc]
    rfl
  rw [← Except.ok.inj hpage, hspread, htmlHeaderWrite_eq, htmlListStart, htmlListEnd, htmlFooterWrite,
    show text "<BODY>\n" = text "<BODY>" ++ text "\n" from rfl]
  simp only [List.append_assoc]

theorem length_le_folderPath {name : Bytes} (hname : name ∈ components) :
    name.length + 1 ≤ (folderPath components).length := by
  rw [folderPath, if_neg (List.ne_nil_of_mem hname)]
  obtain ⟨before, behind, rfl⟩ := List.append_of_mem hname
  simp only [joined, List.flatMap_append, List.flatMap_cons, List.length_append, List.length_cons]
  omega

theorem clear_crumb (hcomponents : ∀ name ∈ components, IsName name)
    (hshort : (folderPath components).length < filenameMax) {link : Bytes × Bytes}
    (hlink : link ∈ crumbLinks components) (hlinkless : Linkless link.2) : Clear link := by
  obtain ⟨i, hi, rfl⟩ := List.mem_map.mp hlink
  have hpath : crumbPath components i ≠ [] := by
    rw [crumbPath]
    simp [text]
  cases i with
  | zero =>
      refine ⟨hpath, ⟨[], by simp, .inr rfl⟩, hlinkless, ?_, ?_⟩
      · show (0 : UInt8) ∉ text "/"
        decide
      · show 1 ≤ filenameMax
        decide
  | succ i =>
      have hmem : components.getD i [] ∈ components := by
        rw [List.mem_range] at hi
        rw [List.getD_eq_getElem _ _ (by omega)]
        exact List.getElem_mem _
      have hname := hcomponents _ hmem
      refine ⟨hpath, ⟨components.getD i [], hname.isComponent.2, .inr rfl⟩, hlinkless, ?_, ?_⟩
      · show (0 : UInt8) ∉ components.getD i [] ++ text "/"
        rw [List.mem_append, not_or]
        exact ⟨hname.zero_notMem, by decide⟩
      · show (components.getD i [] ++ text "/").length ≤ filenameMax
        have hle := length_le_folderPath hmem
        rw [List.length_append]
        show (components.getD i []).length + 1 ≤ filenameMax
        omega

theorem clear_entry (hentries : ∀ entry ∈ entries, IsName entry.1) {link : Bytes × Bytes}
    (hlink : link ∈ entryLinks components entries) (hlinkless : Linkless link.2)
    (hshort : link.1.length < filenameMax) : Clear link := by
  obtain ⟨entry, hentry, rfl⟩ := List.mem_map.mp hlink
  have hname := hentries entry hentry
  obtain ⟨tail, htail, hlabel, -⟩ := entryLabel_cases entry.1 entry.2
  refine ⟨by simp, ⟨entry.1, hname.isComponent.2, ?_⟩, hlinkless, ?_, ?_⟩
  · rcases htail with rfl | rfl
    · exact .inl (hlabel.trans (List.append_nil _))
    · exact .inr hlabel
  · show (0 : UInt8) ∉ entryLabel entry.1 entry.2
    rw [hlabel, List.mem_append, not_or]
    refine ⟨hname.zero_notMem, ?_⟩
    rcases htail with rfl | rfl <;> decide
  · simp only [List.length_append, List.length_cons] at hshort ⊢
    omega

/-- Behind the crumbs a page goes on with its first entry or with its bottom. -/
theorem pageEntries_cases (components : List Bytes) (entries : List (Bytes × Bool)) :
    (entries = [] ∧ pageEntries components entries = pageBottom) ∨
      ((pageEntries components entries).1 = text "\t\t\t<LI>" ∧
        (pageEntries components entries).2 ≠ []) := by
  cases entries with
  | nil => exact .inl ⟨rfl, rfl⟩
  | cons entry entries => exact .inr ⟨rfl, List.cons_ne_nil _ _⟩

theorem scannable_body (hcomponents : ∀ name ∈ components, IsName name)
    (hentries : ∀ entry ∈ entries, IsName entry.1) (h : Distinguishable components entries)
    (hshort : (folderPath components).length < filenameMax)
    (hlinks : ∀ link ∈ entryLinks components entries, link.1.length < filenameMax) :
    Scannable (pageBody components entries).1 (pageBody components entries).2 ∧
      Scannable (text "<BODY>" ++ (pageBody components entries).1) (pageBody components entries).2 := by
  have hcrumb : ∀ link ∈ crumbLinks components, Clear link := fun link hlink =>
    clear_crumb hcomponents hshort hlink (h.linkless link (List.mem_append_left _ hlink))
  have hentry : ∀ link ∈ entryLinks components entries, Clear link := fun link hlink =>
    clear_entry hentries hlink (h.linkless link (List.mem_append_right _ hlink)) (hlinks link hlink)
  have hlastEntry : ∀ link ∈ (entryLinks components entries).getLast?, quiet link.2 = true := by
    intro link hlink
    apply h.last
    have hne : entryLinks components entries ≠ [] := by
      intro hnil
      rw [hnil] at hlink
      simp at hlink
    rwa [pageLinks, List.getLast?_append_of_ne_nil _ hne]
  obtain ⟨hlist, hlistHead, hlistShort⟩ := @scannable_chain (text "\t\t\t<LI>") (text "</LI>\n")
    (entryLinks components entries) pageBottom
    ⟨by decide, by decide, by decide, by decide, by decide, by decide⟩ hentry
    ⟨by decide, by decide, by decide⟩ rfl (by decide) (fun _ => ⟨by decide, hlastEntry⟩)
  have hmiddleShort : (pageMiddle components entries).1.length ≤ 64 := by
    rw [pageMiddle]
    rcases pageEntries_cases components entries with ⟨-, heq⟩ | ⟨heq, -⟩
    · rw [heq]
      decide
    · rw [heq]
      show (text "\t\t</DIV>\n\t\t<HR>\n\t\t<UL>\n" ++ text "\t\t\t<LI>").length ≤ 64
      decide
  have hmiddle : Scannable (pageMiddle components entries).1 (pageMiddle components entries).2 := by
    apply hlist.front (by decide)
    · rw [hlistHead]
      decide
    · decide
    · rw [pageMiddle, List.length_append] at hmiddleShort
      show _ + (pageEntries components entries).1.length + 2 ≤ 8192
      omega
    · intro hnil
      rcases pageEntries_cases components entries with ⟨-, heq⟩ | ⟨-, hne⟩
      · show quiet (_ ++ (pageEntries components entries).1) = true
        rw [heq]
        decide
      · exact absurd hnil hne
  obtain ⟨hcrumbs, hcrumbsHead, hcrumbsShort⟩ := @scannable_chain (text "\t\t\t") (text "\n")
    (crumbLinks components) (pageMiddle components entries)
    ⟨by decide, by decide, by decide, by decide, by decide, by decide⟩ hcrumb hmiddle rfl
    hmiddleShort (by
      intro hnil
      rcases pageEntries_cases components entries with ⟨hnone, heq⟩ | ⟨-, hne⟩
      · rw [pageMiddle, heq]
        refine ⟨by decide, fun link hlink => h.last link ?_⟩
        rwa [pageLinks, hnone, entryLinks, List.map_nil, List.append_nil]
      · exact absurd hnil hne)
  have hsome : (pageCrumbs components entries).2 ≠ [] := by
    rw [pageCrumbs, crumbLinks, List.range_succ_eq_map]
    exact List.cons_ne_nil _ _
  have hbody : Scannable (pageBody components entries).1 (pageBody components entries).2 := by
    apply hcrumbs.front (by decide)
    · rw [hcrumbsHead]
      decide
    · decide
    · show 9 + (pageCrumbs components entries).1.length + 2 ≤ 8192
      exact Nat.add_le_add_right (Nat.add_le_add_left hcrumbsShort 9) 2 |>.trans (by decide)
    · exact fun hnil => absurd hnil hsome
  refine ⟨hbody, hbody.front (by decide) ?_ (by decide) ?_ (fun hnil => absurd hnil hsome)⟩
  · show some _ ≠ _
    decide
  · rw [pageBody, List.length_append]
    show 6 + (9 + (pageCrumbs components entries).1.length) + 2 ≤ 8192
    exact Nat.add_le_add_right (Nat.add_le_add_left (Nat.add_le_add_left hcrumbsShort 9) 6) 2
      |>.trans (by decide)

def namesOf (details : UriDetails) (link : PageLink) : List Bytes :=
  (listedAs details link.href).toOption.getD []

theorem pageBody_listed {details : UriDetails} {names : Bytes × Bool → List Bytes}
    (hcrumbs : ∀ link ∈ crumbLinks components,
      listedAs details (link.1.flatMap linkByte) = .ok [])
    (hentries : ∀ entry ∈ entries, listedAs details
      ((joined components ++ ascii '/' :: entryLabel entry.1 entry.2).flatMap linkByte) =
        .ok (names entry)) :
    (∀ link ∈ (pageBody components entries).2,
      listedAs details link.href = .ok (namesOf details link)) ∧
      (pageBody components entries).2.flatMap (namesOf details) = entries.flatMap names := by
  constructor
  · intro link hlink
    have hlisted : ∃ found, listedAs details link.href = .ok found := by
      rcases mem_chain hlink with ⟨original, horiginal, heq⟩ | hlink
      · exact ⟨[], heq ▸ hcrumbs original horiginal⟩
      · rcases mem_chain hlink with ⟨original, horiginal, heq⟩ | hlink
        · obtain ⟨entry, hentry, rfl⟩ := List.mem_map.mp horiginal
          exact ⟨names entry, heq ▸ hentries entry hentry⟩
        · exact absurd hlink List.not_mem_nil
    obtain ⟨found, hfound⟩ := hlisted
    rw [namesOf, hfound]
    rfl
  · have hfirst : (crumbLinks components).flatMap (fun link =>
        (listedAs details (link.1.flatMap linkByte)).toOption.getD []) = [] := by
      rw [List.flatMap_eq_nil_iff]
      intro link hlink
      rw [hcrumbs link hlink]
      rfl
    have hsecond : (entryLinks components entries).flatMap (fun link =>
        (listedAs details (link.1.flatMap linkByte)).toOption.getD []) = entries.flatMap names := by
      rw [entryLinks, List.flatMap_map]
      apply List.flatMap_congr
      intro entry hentry
      rw [hentries entry hentry]
      rfl
    have hchain := @chain_flatMap (text "\t\t\t") (text "\n") (crumbLinks components)
      (pageMiddle components entries) (fun href => (listedAs details href).toOption.getD [])
    have hrest := @chain_flatMap (text "\t\t\t<LI>") (text "</LI>\n") (entryLinks components entries)
      pageBottom (fun href => (listedAs details href).toOption.getD [])
    rw [hsecond] at hrest
    rw [hfirst, List.nil_append] at hchain
    exact hchain.trans (hrest.trans (List.append_nil _))

set_option maxRecDepth 4000 in
theorem body_notInfix (htitle : ¬ text "<B" <:+: (folderPath components).map toupper) :
    ¬ text "<B" <:+: ((pageTop ++ folderPath components ++ pageStyle) ++ text "<").map toupper := by
  intro hwithin
  rw [List.append_assoc, List.append_assoc, List.map_append] at hwithin
  rcases pair_infix_append hwithin with htop | hrest | ⟨hlast, -⟩
  · exact absurd htop (by decide)
  · rw [List.map_append] at hrest
    rcases pair_infix_append hrest with hpath | hstyle | ⟨-, hhead⟩
    · exact htitle hpath
    · exact absurd hstyle (by decide)
    · exact absurd hhead (by decide)
  · exact absurd hlast (by decide)

theorem directoryListing_ne_nil {site site' : HttpSite} {details : UriDetails} {absPath : Bytes}
    {names : List Bytes} (h : directoryListing site details absPath = .ok (site', some names)) :
    names ≠ [] := by
  obtain ⟨self, -, h⟩ := bind_eq_ok_iff.mp h
  obtain ⟨self', -, h⟩ := bind_eq_ok_iff.mp h
  obtain ⟨⟨last, entry⟩, -, h⟩ := bind_eq_ok_iff.mp h
  have hsame := (Prod.mk.inj (Except.ok.inj h)).2
  split at hsame
  · contradiction
  · rename_i hsome
    rwa [← Option.some.inj hsame]

/-- The page of a folder without imitations of markup and with all its links within
reach, is read back name by name exactly when it has entries and a path that is
linked as it is. -/
theorem directoryListing_lists_iff {page : Bytes} {site : HttpSite} (details : UriDetails)
    (hcomponents : ∀ name ∈ components, IsName name) (hentries : ∀ entry ∈ entries, IsName entry.1)
    (hpercent : ∀ name ∈ components, ascii '%' ∉ name)
    (hpage : listingPage (folderPath components) entries = .ok page)
    (hfeeding : Feeding page site.socket) (hapart : Distinguishable components entries)
    (hreach : InReach page site.socket.len) :
    (∃ site', directoryListing site details (folderPath components) =
        .ok (site', some (entries.map Prod.fst))) ↔
      entries ≠ [] ∧ IsPlain components := by
  have hparts : ∀ name ∈ components, IsComponent name := fun name hname =>
    (hcomponents name hname).isComponent
  obtain ⟨htext, hshort, hlinks⟩ := listingPage_eq hparts
    (fun entry hentry => (hentries entry hentry).isComponent) hapart.fits hpage
  obtain ⟨hscan, hscan'⟩ := scannable_body hcomponents hentries hapart hshort hlinks
  have hread : ∀ {names : Bytes × Bool → List Bytes},
      (∀ link ∈ crumbLinks components,
        listedAs { details with path := some (folderPath components) }
          (link.1.flatMap linkByte) = .ok []) →
      (∀ entry ∈ entries, listedAs { details with path := some (folderPath components) }
        ((joined components ++ ascii '/' :: entryLabel entry.1 entry.2).flatMap linkByte) =
          .ok (names entry)) →
      ∃ site', directoryListing site details (folderPath components) = .ok (site',
        if entries.flatMap names = [] then none else some (entries.flatMap names)) := by
    intro names hcrumbs hnames
    obtain ⟨hlisted, hflat⟩ := pageBody_listed hcrumbs hnames
    have htop : (pageTop ++ folderPath components ++ pageStyle).length =
        (folderPath components).length + 258 := by
      rw [List.length_append, List.length_append]
      have hbefore : pageTop.length = 116 := rfl
      have hbehind : pageStyle.length = 142 := rfl
      omega
    have hopen : (pageBody components entries).1 ++
        (pageBody components entries).2.flatMap PageLink.written =
          text "\n\t\t" ++ ascii '<' :: (text "DIV>\n" ++ spread (pageCrumbs components entries)) := by
      rw [pageBody, spread, List.append_assoc]
      rfl
    rw [← hflat]
    exact directoryListing_links details (folderPath components) hfeeding hreach htext hopen
      (by decide) (by decide) (body_notInfix hapart.title) (by omega)
      (by rw [htop, sbDataSize]; rw [filenameMax] at hshort; omega) hscan hscan' hlisted
  constructor
  · rintro ⟨site', hresult⟩
    refine ⟨?_, ?_⟩
    · rintro rfl
      exact directoryListing_ne_nil hresult rfl
    · by_contra hforeign
      simp only [IsPlain, not_forall] at hforeign
      obtain ⟨name, hname, c, hc, halnum⟩ := hforeign
      have hslash := ((hcomponents name hname).2 c hc).2.2
      have hpercent' : c ≠ ascii '%' := fun heq => hpercent name hname (heq ▸ hc)
      have hinside : c ∈ folderPath components := by
        rw [folderPath, if_neg (List.ne_nil_of_mem hname)]
        exact List.mem_flatMap.mpr ⟨name, hname, List.mem_cons_of_mem _ hc⟩
      obtain ⟨none', hnone⟩ := @hread (fun _ => [])
        (by
          intro link hlink
          obtain ⟨i, -, rfl⟩ := List.mem_map.mp hlink
          exact listedAs_foreign rfl hinside (by simpa using halnum) hslash hpercent' (crumbPath_head i))
        (by
          intro entry hentry
          apply listedAs_foreign rfl hinside (by simpa using halnum) hslash hpercent'
          cases components with
          | nil => rfl
          | cons first more => rfl)
      rw [if_pos (by simp), hresult] at hnone
      simp at hnone
  · rintro ⟨hsome, hplain⟩
    have hnames : entries.flatMap (fun entry => [entry.1]) = entries.map Prod.fst :=
      List.flatMap_pure_eq_map Prod.fst entries
    obtain ⟨site', hresult⟩ := @hread (fun entry => [entry.1])
      (by
        intro link hlink
        obtain ⟨i, hi, rfl⟩ := List.mem_map.mp hlink
        exact listedAs_crumb hparts hplain rfl (Nat.le_of_lt_succ (List.mem_range.mp hi)))
      (fun entry hentry => listedAs_entry hplain rfl (hentries entry hentry) entry.2)
    rw [hnames, if_neg (by simpa using hsome)] at hresult
    exact ⟨site', hresult⟩

theorem inReach_of_length_le {page : Bytes} (h : page.length ≤ 2048) (first : Nat) :
    InReach page first := by
  rintro start stop ⟨-, e, hfind, rfl⟩
  have hbound := Platform.FindString.needleRaw_bound (by decide) hfind
  rw [List.length_drop] at hbound
  have hclose : (text "</a>").length = 4 := rfl
  exact ⟨by omega, fun k => .inr (.inr (by omega))⟩

/-- A page of which the first part came with the head, and the rest in pieces. -/
def inPieces (page : Bytes) : HttpSite :=
  ⟨none, ⟨some (page.take 100), .known 100 page.length,
    ⟨[], [(page.drop 100).take 250, [], page.drop 350], .idle⟩⟩⟩

theorem inPieces_reading {page : Bytes} (h : 100 < page.length) :
    Reading page (inPieces page).socket := by
  have hrest : (inPieces page).socket.serverSocket.rest = page.drop 100 := by
    show [] ++ ((page.drop 100).take 250 ++ ([] ++ (page.drop 350 ++ []))) = page.drop 100
    have hdrop : page.drop 350 = (page.drop 100).drop 250 := by rw [List.drop_drop]
    rw [hdrop, List.append_nil, List.nil_append, List.nil_append, List.take_append_drop]
  apply Reading.coming
  · rfl
  · rw [hrest]
    apply List.ne_nil_of_length_pos
    rw [List.length_drop]
    omega
  · rw [hrest, List.length_drop]
    omega
  · rw [hrest]
    exact List.take_append_drop 100 page

/-- A page of which no chunk is read yet, though all have arrived. -/
def inChunks (chunks : List Bytes) : HttpSite :=
  ⟨none, ⟨none, .chunk noChunk 0, ⟨wire chunks, [], .idle⟩⟩⟩

theorem inChunks_feeding {chunks : List Bytes} (h : Fits chunks) :
    Feeding chunks.flatten (inChunks chunks).socket := by
  have hrest : (inChunks chunks).socket.serverSocket.rest = lead noChunk ++ wire chunks :=
    List.append_nil _
  refine .chunked (.inr ⟨noChunk, 0, rfl, ?_⟩) rfl
  refine .line h (.inr rfl) hrest rfl fun p hp => ?_
  obtain ⟨m, -, rfl⟩ := hp
  apply not_splitsSizeLine
  show (wire chunks).length ≤ (wire chunks).length + _
  exact Nat.le_add_right _ _

def samplePage : Bytes :=
  (listingPage (folderPath [text "d1", text "d2"]) [(text "a & b.txt", false), (text "c", true)])
    |>.toOption.getD []

theorem directoryListing_lists_sample :
    (∃ site', directoryListing (inPieces samplePage) (uriDetailsNewFrom (text "http://host/"))
      (folderPath [text "d1", text "d2"]) = .ok (site', some [text "a & b.txt", text "c"])) ∧
    ∃ site', directoryListing (inChunks [samplePage.take 200, samplePage.drop 200])
      (uriDetailsNewFrom (text "http://host/")) (folderPath [text "d1", text "d2"]) =
        .ok (site', some [text "a & b.txt", text "c"]) := by
  have hlong : 200 < samplePage.length ∧ samplePage.length ≤ 2048 := by decide +kernel
  have hapart : Distinguishable [text "d1", text "d2"] [(text "a & b.txt", false), (text "c", true)] :=
    ⟨by decide, by decide, by decide, by decide⟩
  have hlisted : ∀ {site : HttpSite}, Feeding samplePage site.socket →
      ∃ site', directoryListing site (uriDetailsNewFrom (text "http://host/"))
        (folderPath [text "d1", text "d2"]) = .ok (site', some [text "a & b.txt", text "c"]) := by
    intro site hfeeding
    exact (@directoryListing_lists_iff [text "d1", text "d2"]
      [(text "a & b.txt", false), (text "c", true)] samplePage site
      (uriDetailsNewFrom (text "http://host/")) (by decide +kernel) (by decide +kernel)
      (by decide) (by rfl) hfeeding hapart (inReach_of_length_le hlong.2 _)).mpr
      ⟨by decide, by decide +kernel⟩
  constructor
  · exact hlisted (.known (inPieces_reading (by omega)))
  · have hfits : Fits [samplePage.take 200, samplePage.drop 200] := by
      intro chunk hchunk
      rw [List.mem_pair] at hchunk
      rcases hchunk with rfl | rfl
      · refine ⟨List.ne_nil_of_length_pos ?_, ?_⟩ <;> rw [List.length_take] <;> omega
      · refine ⟨List.ne_nil_of_length_pos ?_, ?_⟩ <;> rw [List.length_drop] <;> omega
    have hfeeding := inChunks_feeding hfits
    rw [List.flatten_cons, List.flatten_cons, List.flatten_nil, List.append_nil,
      List.take_append_drop] at hfeeding
    exact hlisted hfeeding

/-- The links of a folder with a dash in its path are escaped, and none of them starts
with the path. -/
theorem directoryListing_dash :
    (do
      let page ← listingPage (folderPath [text "my-dir"]) [(text "x", false)]
      let (_, listed) ← directoryListing ⟨none, ⟨some page, .complete, ⟨[], [], .closed⟩⟩⟩
        (uriDetailsNewFrom (text "http://host/")) (folderPath [text "my-dir"])
      .ok listed) = .ok none := by
  decide +kernel

end Listing

end Newth.Exchange.ListingPage
