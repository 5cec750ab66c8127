import Newth.Server.HttpBody
import Newth.Server.UriDecoder

namespace Newth.Server.LinkTarget

open Newth.Common.Hex
open Newth.Library.ByteString
open Newth.Library.Call
open Newth.Library.Numeral
open Newth.Server.HttpBody
open Newth.Server.HttpHeader
open Newth.Server.SharedFolder
open Newth.Server.UriDecoder

section Encode

/-- What the loop of `convertPathToUrl` comes back with. -/
def convertReturn (max : Nat) (done : Bytes) : Bytes → Int
  | [] => 0
  | c :: rest =>
      if ¬ isalnum c ∧ c ≠ ascii '/' then
        let out := asciiToHex c
        if max - 1 < (done ++ c :: rest).length + out.length then -1
        else convertReturn max (done ++ out) rest
      else convertReturn max (done ++ [c]) rest

def convertPathToUrlReturn (path : Bytes) (max : Nat) : Int := convertReturn max [] path

/-- What becomes of one byte of a path in a link. -/
def linkByte (c : UInt8) : Bytes :=
  if ¬ isalnum c ∧ c ≠ ascii '/' then asciiToHex c else [c]

theorem convertFrom_of_return {max : Nat} {done rest : Bytes}
    (h : convertReturn max done rest = 0) :
    convertFrom max done rest = done ++ rest.flatMap linkByte := by
  induction rest generalizing done with
  | nil => simp [convertFrom]
  | cons c rest ih =>
      rw [convertReturn] at h
      rw [convertFrom, List.flatMap_cons, linkByte]
      by_cases hescaped : ¬ isalnum c ∧ c ≠ ascii '/'
      · rw [if_pos hescaped] at h ⊢
        rw [if_pos hescaped]
        simp only at h ⊢
        split at h
        · simp at h
        · rename_i hfits
          rw [if_neg hfits, ih h, List.append_assoc]
      · rw [if_neg hescaped] at h ⊢
        rw [if_neg hescaped, ih h, List.append_assoc]

theorem linkByte_cases (c : UInt8) :
    (linkByte c = [c] ∧ (isalnum c = true ∨ c = ascii '/')) ∨
      linkByte c = ascii '%' :: numeral 16 c.toNat := by
  rw [linkByte]
  split
  · rename_i hescaped
    right
    rw [asciiToHex, if_neg hescaped.1]
  · rename_i hplain
    left
    refine ⟨rfl, ?_⟩
    by_cases halnum : isalnum c = true
    · exact .inl halnum
    · right
      by_contra hslash
      exact hplain ⟨halnum, hslash⟩

theorem numeral_byte {n : Nat} (hn : n < 256) :
    numeral 16 n = if n < 16 then [digit n] else [digit (n / 16), digit (n % 16)] := by
  split
  · rename_i hone
    exact numeral_of_lt hone
  · rename_i htwo
    rw [numeral_of_le (by decide) (Nat.not_lt.mp htwo), numeral_of_lt (by omega : n / 16 < 16)]
    rfl

theorem hexToAscii_digits : ∀ h < 16, ∀ l < 16,
    (hexToAscii (digit h) (digit l)).toNat = 16 * h + l := by decide

theorem isalnum_range {c : UInt8} (h : isalnum c = true ∨ c = ascii '/') :
    16 ≤ c ∧ c ≠ ascii '%' := by
  have hlow : ascii '/' ≤ c := by
    rcases h with h | rfl
    · simp only [isalnum, Bool.or_eq_true, Bool.and_eq_true, decide_eq_true_eq] at h
      rcases h with (⟨h, -⟩ | ⟨h, -⟩) | ⟨h, -⟩
      · exact UInt8.le_trans (by decide) h
      · exact UInt8.le_trans (by decide) h
      · exact UInt8.le_trans (by decide) h
    · exact UInt8.le_refl _
  refine ⟨UInt8.le_trans (by decide) hlow, ?_⟩
  rintro rfl
  exact absurd hlow (by decide)

theorem notMem_linkByte {c d : UInt8} (hd : ∀ n < 16, d ≠ digit n) (hpercent : d ≠ ascii '%')
    (hplain : isalnum d = false ∧ d ≠ ascii '/') : d ∉ linkByte c := by
  rcases linkByte_cases c with ⟨hsame, hc⟩ | hescape
  · rw [hsame]
    intro hmem
    obtain rfl := List.mem_singleton.mp hmem
    rcases hc with hc | hc
    · rw [hplain.1] at hc
      exact Bool.false_ne_true hc
    · exact hplain.2 hc
  · rw [hescape]
    intro hmem
    rcases List.mem_cons.mp hmem with hmem | hmem
    · exact hpercent hmem
    · exact notMem_numeral (by decide) (by decide) hd hmem

theorem percentDecode_cons {c : UInt8} (hc : c ≠ ascii '%') (rest : Bytes) :
    percentDecode (c :: rest) = (percentDecode rest).map (c :: ·) := by
  rcases rest with _ | ⟨h, _ | ⟨l, rest⟩⟩
  · rfl
  · rfl
  · rw [percentDecode, if_neg hc]

theorem percentDecode_linkByte {c : UInt8} (hc : 16 ≤ c) (rest : Bytes) :
    percentDecode (linkByte c ++ rest) = (percentDecode rest).map (c :: ·) := by
  rcases linkByte_cases c with ⟨hsame, hplain⟩ | hescape
  · rw [hsame]
    exact percentDecode_cons (isalnum_range hplain).2 rest
  · have hlarge : 16 ≤ c.toNat := hc
    have hsmall : c.toNat < 256 := c.toNat_lt
    have hvalue : hexToAscii (digit (c.toNat / 16)) (digit (c.toNat % 16)) = c := by
      apply UInt8.toNat_inj.mp
      rw [hexToAscii_digits _ (by omega) _ (by omega)]
      omega
    have hzero : c ≠ 0 := by
      rintro rfl
      exact absurd hc (by decide)
    rw [hescape, numeral_byte hsmall, if_neg (by omega)]
    simp only [List.cons_append, List.nil_append]
    rw [percentDecode, if_pos rfl, hvalue, if_neg hzero]

theorem percentDecode_link {path : Bytes} (h : ∀ c ∈ path, 16 ≤ c) :
    percentDecode (path.flatMap linkByte) = .ok path := by
  induction path with
  | nil => rfl
  | cons c path ih =>
      obtain ⟨hc, hpath⟩ := List.forall_mem_cons.mp h
      rw [List.flatMap_cons, percentDecode_linkByte hc, ih hpath]
      rfl

end Encode

section Readable

/-- Every percent sign announces a first digit other than zero. -/
def Readable : Bytes → Prop
  | [] => True
  | c :: rest => 16 ≤ c ∧ (c = ascii '%' → ∀ h ∈ rest.head?, hexDigit h ≠ 0) ∧ Readable rest

theorem readable_append {ds rest : Bytes} (hds : ∀ d ∈ ds, 16 ≤ d ∧ d ≠ ascii '%')
    (hrest : Readable rest) : Readable (ds ++ rest) := by
  induction ds with
  | nil => exact hrest
  | cons d ds ih =>
      obtain ⟨hd, hds⟩ := List.forall_mem_cons.mp hds
      exact ⟨hd.1, fun heq => absurd heq hd.2, ih hds⟩

theorem readable_linkByte {c : UInt8} (hc : c ≠ 0) {rest : Bytes} (hrest : Readable rest) :
    Readable (linkByte c ++ rest) := by
  rcases linkByte_cases c with ⟨hsame, hplain⟩ | hescape
  · rw [hsame]
    apply readable_append _ hrest
    intro d hd
    obtain rfl := List.mem_singleton.mp hd
    exact isalnum_range hplain
  · rw [hescape]
    have hdigits : ∀ d ∈ numeral 16 c.toNat, 16 ≤ d ∧ d ≠ ascii '%' := by
      intro d hd
      obtain ⟨n, hn, rfl⟩ := mem_numeral (by decide) d hd
      have hdigit : ∀ n < 16, 16 ≤ digit n ∧ digit n ≠ ascii '%' := by decide
      exact hdigit n hn
    refine ⟨by decide, fun _ => ?_, readable_append hdigits hrest⟩
    have hsmall : c.toNat < 256 := c.toNat_lt
    have hpositive : 0 < c.toNat := by
      rw [Nat.pos_iff_ne_zero]
      intro hzero
      exact hc (UInt8.toNat_inj.mp hzero)
    have hfirst : ∀ d < 16, 0 < d → hexDigit (digit d) ≠ 0 := by decide
    intro h hh
    rw [numeral_byte hsmall] at hh
    split at hh
    · obtain rfl : digit c.toNat = h := by simpa using hh
      exact hfirst _ (by omega) hpositive
    · obtain rfl : digit (c.toNat / 16) = h := by simpa using hh
      exact hfirst _ (by omega) (by omega)

theorem readable_link {path : Bytes} (h : ∀ c ∈ path, c ≠ 0) :
    Readable (path.flatMap linkByte) := by
  induction path with
  | nil => exact trivial
  | cons c path ih =>
      obtain ⟨hc, hpath⟩ := List.forall_mem_cons.mp h
      rw [List.flatMap_cons]
      exact readable_linkByte hc (ih hpath)

theorem hexDigit_lt (ch : UInt8) : hexDigit ch < 16 := by
  rw [hexDigit, UInt8.lt_iff_toNat_lt, UInt8.toNat_and]
  exact Nat.lt_of_le_of_lt Nat.and_le_right (by decide)

theorem hexToAscii_large {h : UInt8} (hh : hexDigit h ≠ 0) (l : UInt8) :
    16 ≤ hexToAscii h l := by
  have hall : ∀ a < 16, ∀ b < 16, 0 < a →
      (16 : UInt8) ≤ UInt8.ofNat a <<< 4 ||| UInt8.ofNat b := by
    decide
  have hpositive : 0 < (hexDigit h).toNat := by
    rw [Nat.pos_iff_ne_zero]
    intro hzero
    exact hh (UInt8.toNat_inj.mp hzero)
  have hlarge := hall (hexDigit h).toNat (hexDigit_lt h) (hexDigit l).toNat (hexDigit_lt l) hpositive
  rwa [UInt8.ofNat_toNat, UInt8.ofNat_toNat] at hlarge

theorem unescape_readable {s : Bytes} (h : Readable s) : ∀ c ∈ unescape s, 16 ≤ c := by
  induction s using unescape.induct with
  | case1 => simp [unescape]
  | case2 h' l rest ih =>
      obtain ⟨-, hfirst, -, -, -, -, hrest⟩ := h
      rw [unescape, if_pos rfl]
      exact List.forall_mem_cons.mpr ⟨hexToAscii_large (hfirst rfl h' rfl) l, ih hrest⟩
  | case3 c h' l rest hother ih =>
      obtain ⟨hc, -, hrest⟩ := h
      rw [unescape, if_neg hother]
      exact List.forall_mem_cons.mpr ⟨hc, ih hrest⟩
  | case4 c rest hshort ih =>
      obtain ⟨hc, -, hrest⟩ := h
      rw [unescape]
      · exact List.forall_mem_cons.mpr ⟨hc, ih hrest⟩
      · exact hshort

end Readable

section Link

/-- `/c1/../cn`, or `/c1/../cn/`, with names that are not hidden. -/
def IsLinkPath (path : Bytes) : Prop :=
  ∃ names : List Bytes, names ≠ [] ∧
    (∀ name ∈ names, name ≠ [] ∧ name.head? ≠ some (ascii '.') ∧ (0 : UInt8) ∉ name ∧
      ascii '/' ∉ name) ∧
    (path = names.flatMap (ascii '/' :: ·) ∨ path = names.flatMap (ascii '/' :: ·) ++ text "/")

theorem parent_notInfix {names : List Bytes} (h : ∀ name ∈ names, name ≠ [] ∧
    name.head? ≠ some (ascii '.') ∧ ascii '/' ∉ name) {tail : Bytes} (htail : tail.length < 2) :
    ¬ text "/.." <:+: names.flatMap (ascii '/' :: ·) ++ tail := by
  induction names with
  | nil =>
      intro hinfix
      have hlength := hinfix.length_le
      simp [text] at hlength
      omega
  | cons name names ih =>
      obtain ⟨⟨hname, hdot, hslash⟩, hnames⟩ := List.forall_mem_cons.mp h
      rintro ⟨pre, post, hsplit⟩
      rw [List.flatMap_cons, List.append_assoc, List.append_assoc] at hsplit
      cases pre with
      | nil =>
          obtain ⟨x, name, rfl⟩ := List.exists_cons_of_ne_nil hname
          obtain ⟨-, hdots⟩ := List.cons.inj hsplit
          exact hdot (congrArg some (List.cons.inj hdots).1.symm)
      | cons c pre =>
          obtain ⟨-, hrest⟩ := List.cons.inj hsplit
          rcases List.append_eq_append_iff.mp hrest with ⟨d, rfl, htext⟩ | ⟨d, rfl, htext⟩
          · cases d with
            | nil => exact ih hnames ⟨[], post, by simpa using htext⟩
            | cons x d =>
                have hx : ascii '/' = x := (List.cons.inj htext).1
                exact hslash (by simp [hx])
          · exact ih hnames ⟨d, post, by rw [List.append_assoc, ← htext]⟩

theorem IsLinkPath.clean {path : Bytes} (h : IsLinkPath path) :
    (∀ c ∈ path, c ≠ 0) ∧ 2 ≤ path.length ∧ ¬ text "/.." <:+: path := by
  obtain ⟨names, hsome, hnames, hform⟩ := h
  obtain ⟨name, names, rfl⟩ := List.exists_cons_of_ne_nil hsome
  obtain ⟨tail, htail, rfl⟩ : ∃ tail, (tail = [] ∨ tail = text "/") ∧
      path = (name :: names).flatMap (ascii '/' :: ·) ++ tail := by
    rcases hform with rfl | rfl
    · exact ⟨[], .inl rfl, by simp⟩
    · exact ⟨text "/", .inr rfl, rfl⟩
  have hshort : tail.length < 2 := by
    rcases htail with rfl | rfl <;> decide
  refine ⟨?_, ?_, ?_⟩
  · rintro c hc rfl
    rcases List.mem_append.mp hc with hc | hc
    · obtain ⟨other, hother, hmem⟩ := List.mem_flatMap.mp hc
      rcases List.mem_cons.mp hmem with hmem | hmem
      · exact absurd hmem (by decide)
      · exact (hnames other hother).2.2.1 hmem
    · rcases htail with rfl | rfl
      · simp at hc
      · exact absurd hc (by decide)
  · have hname := List.length_pos_of_ne_nil (hnames name List.mem_cons_self).1
    simp only [List.flatMap_cons, List.length_append, List.length_cons]
    omega
  · apply parent_notInfix _ hshort
    intro other hother
    obtain ⟨hne, hdot, -, hslash⟩ := hnames other hother
    exact ⟨hne, hdot, hslash⟩

/-- A link leads the server back to the path it was made for exactly when no byte of
the path escapes to a single digit. -/
theorem link_leads_back_iff {path : Bytes} (hpath : IsLinkPath path)
    (hreturn : convertPathToUrlReturn path filenameMax = 0) :
    (∃ href name, htmlListWritePathLink [] path
          = .ok (text "\t\t\t<LI><A HREF=\"" ++ (href ++ ascii '"' :: name)) ∧
        ascii '"' ∉ href ∧
        ∀ method rest, ascii ' ' ∉ method →
          httpClientReadUri (method ++ ascii ' ' :: (href ++ ascii ' ' :: rest))
            = .ok (some path)) ↔
      (∀ c ∈ path, 16 ≤ c) ∧ path.length < filenameMax := by
  obtain ⟨hzero, hlong, hclean⟩ := hpath.clean
  obtain ⟨href, hhref⟩ : ∃ href, path.flatMap linkByte = href := ⟨_, rfl⟩
  have hconverted : convertPathToUrl path filenameMax = href := by
    rw [convertPathToUrl, convertFrom_of_return hreturn, List.nil_append, hhref]
  have hspace : ascii ' ' ∉ href := by
    rw [← hhref]
    intro hmem
    obtain ⟨c, -, hc⟩ := List.mem_flatMap.mp hmem
    exact notMem_linkByte (by decide) (by decide) (by decide) hc
  have hquote : ascii '"' ∉ href := by
    rw [← hhref]
    intro hmem
    obtain ⟨c, -, hc⟩ := List.mem_flatMap.mp hmem
    exact notMem_linkByte (by decide) (by decide) (by decide) hc
  have hlink : path.length < filenameMax → htmlListWritePathLink [] path
      = .ok (text "\t\t\t<LI><A HREF=\"" ++ (href ++ ascii '"' ::
          (text ">" ++ (path.drop ((linkSlash path (path.length - 2)).getD 0)).drop 1 ++
            text "</A></LI>\n"))) := by
    intro hfits
    rw [htmlListWritePathLink, if_neg (by omega), linkText, hconverted]
    simp [text, ascii]
  constructor
  · rintro ⟨href', name, hwritten, hquote', hreads⟩
    have hfits : path.length < filenameMax := by
      by_contra hlarge
      rw [htmlListWritePathLink, if_pos (.inr (by omega))] at hwritten
      simp at hwritten
    refine ⟨?_, hfits⟩
    rw [hlink hfits] at hwritten
    have hsame := List.append_cancel_left (Except.ok.inj hwritten)
    have hlength := congrArg (strchr · (ascii '"')) hsame
    simp only [strchr_append hquote, strchr_append hquote', Option.some.injEq] at hlength
    obtain ⟨rfl, -⟩ := List.append_inj hsame hlength
    have hread := hreads (text "GET") [] (by decide)
    obtain ⟨target, htarget, hdecodes⟩ := httpClientReadUri_ok_iff.mp hread
    rw [requestTarget_append (by decide) hspace] at htarget
    obtain rfl := Option.some.inj htarget
    obtain ⟨decoded, hdecoded⟩ := (hexConvertStringToAscii_returns_iff href).mp ⟨path, hdecodes⟩
    have hreadable : Readable href := by
      rw [← hhref]
      exact readable_link hzero
    refine (hexConvertStringToAscii_invariant (fun s => ∀ c ∈ s, 16 ≤ c) ?_ hdecoded ?_ hdecodes).1
    · intro pre post hall c hc
      apply hall
      have hslash : ∀ d ∈ text "/", d ∈ text "/.." := by decide +kernel
      simp only [List.mem_append] at hc ⊢
      rcases hc with (hc | hc) | hc
      · exact .inl (.inl hc)
      · exact .inl (.inr (hslash c hc))
      · exact .inr hc
    · rw [percentDecode_eq_unescape hdecoded]
      exact unescape_readable hreadable
  · rintro ⟨hlarge, hfits⟩
    refine ⟨href, _, hlink hfits, hquote, ?_⟩
    intro method rest hmethod
    rw [httpClientReadUri_ok_iff]
    refine ⟨href, requestTarget_append hmethod hspace rest, ?_⟩
    rw [← hhref]
    exact hexConvert_of_clean (percentDecode_link hlarge) hclean

theorem link_leads_back_spaces :
    ∃ href name, htmlListWritePathLink [] (text "/my docs/100%.txt")
          = .ok (text "\t\t\t<LI><A HREF=\"" ++ (href ++ ascii '"' :: name)) ∧
        ascii '"' ∉ href ∧
        ∀ method rest, ascii ' ' ∉ method →
          httpClientReadUri (method ++ ascii ' ' :: (href ++ ascii ' ' :: rest))
            = .ok (some (text "/my docs/100%.txt")) :=
  (link_leads_back_iff ⟨[text "my docs", text "100%.txt"], by decide, by decide, .inl (by decide)⟩
    (by decide)).mpr ⟨forall_mem_of_all (by decide), by decide⟩

/-- A control character in front of a letter that is also a digit. -/
theorem link_leads_astray :
    IsLinkPath (text "/" ++ [1] ++ text "b") ∧
      convertPathToUrlReturn (text "/" ++ [1] ++ text "b") filenameMax = 0 ∧
      htmlListWritePathLink [] (text "/" ++ [1] ++ text "b")
        = .ok (text "\t\t\t<LI><A HREF=\"/%1b\">" ++ [1] ++ text "b</A></LI>\n") ∧
      httpClientReadUri (text "GET /%1b HTTP/1.1") = .ok (some (text "/" ++ [27])) :=
  ⟨⟨[[1] ++ text "b"], by decide, by decide, .inl (by decide)⟩, by decide, by decide, by decide⟩

end Link

end Newth.Server.LinkTarget
