import Newth.Library.Chunked
import Newth.Server.HttpHeader

namespace Newth.Server.HttpBody

open Newth.Library.ByteString
open Newth.Library.Call
open Newth.Library.Chunked
open Newth.Library.Numeral
open Newth.Server.HttpHeader
open Newth.Server.Sendbufr

/-- `FILENAME_MAX` of the POSIX build. -/
def filenameMax : Nat := 4096

def isalnum (c : UInt8) : Bool :=
  (ascii '0' ≤ c && c ≤ ascii '9') || (ascii 'A' ≤ c && c ≤ ascii 'Z') ||
    (ascii 'a' ≤ c && c ≤ ascii 'z')

def asciiToHex (c : UInt8) : Bytes :=
  if isalnum c then [c] else ascii '%' :: numeral 16 c.toNat

/-- The loop of `convertPathToUrl`; `done` is what `i` has passed. An escape that
does not fit ends it with the path half converted. -/
def convertFrom (max : Nat) (done : Bytes) : Bytes → Bytes
  | [] => done
  | c :: rest =>
      if ¬ isalnum c ∧ c ≠ ascii '/' then
        let out := asciiToHex c
        if max - 1 < (done ++ c :: rest).length + out.length then done ++ c :: rest
        else convertFrom max (done ++ out) rest
      else convertFrom max (done ++ [c]) rest

def convertPathToUrl (path : Bytes) (max : Nat) : Bytes := convertFrom max [] path

/-- The first loop of `GetPathName`: the index it stops at, the slashes passed and
whether it found one more. -/
def pathScan (maxPaths : Nat) : Bytes → Nat → Nat → Nat × Nat × Bool
  | [], i, currentPath => (i + 1, currentPath, false)
  | c :: rest, i, currentPath =>
      if c ≠ ascii '/' then pathScan maxPaths rest (i + 1) currentPath
      else if currentPath ≠ maxPaths then pathScan maxPaths rest (i + 1) (currentPath + 1)
      else (i, currentPath, true)

/-- `do --i; while (linkPath[i] != '/')`. -/
def slashBefore (linkPath : Bytes) : Nat → Except Stop Nat
  | 0 => .error .outOfBounds
  | i + 1 => if linkPath.getD i 0 = ascii '/' then .ok i else slashBefore linkPath i

def getPathName (path : Bytes) (maxPaths : Nat) : Except Stop (Bytes × Bytes) :=
  match pathScan maxPaths path 0 0 with
  | (i, currentPath, true) =>
      if i = 0 then .ok (text "/", text "/")
      else do
        let linkPath := path.take (i + 1)
        if currentPath ≠ 0 then
          let i ← slashBefore linkPath i
          .ok (linkPath, linkPath.drop (i + 1))
        else .ok (linkPath, linkPath)
  | (i, currentPath, false) =>
      if filenameMax < path.length + 2 then .error .outOfBounds
      else do
        let linkPath := path ++ text "/"
        if currentPath ≠ 0 then
          let i ← slashBefore linkPath (i - 1)
          .ok (linkPath, linkPath.drop (i + 1))
        -- the copy of `max` bytes misses the terminator
        else .error .outOfBounds

def getPathCount : Bytes → Nat
  | [] => 0
  | c :: rest => (if c = ascii '/' ∧ rest ≠ [] then 1 else 0) + getPathCount rest

def htmlHeaderWrite (buffer title : Bytes) : Bytes :=
  buffer ++ text "<!DOCTYPE HTML PUBLIC \"-//W3C//DTD HTML 4.01//EN\"\n" ++
    text "\t\"http://www.w3.org/TR/html4/strict.dtd\">\n<HTML>\n\t<HEAD>\n\t\t<TITLE>" ++ title ++
    text "</TITLE>\n\t\t<STYLE TYPE=\"text/css\">\n\t\t*\x7b\n\t\t\tfont-family: monospace;\n" ++
    text "\t\t\x7d\n\t\t\n\t\ta:hover,tr:hover\x7b\n\t\t\tfont-weight: bold;\n\t\t\x7d\n" ++
    text "\t\t</STYLE>\n\t</HEAD>\n\n\t<BODY>\n"

def htmlListStart (buffer : Bytes) : Bytes := buffer ++ text "\t\t<UL>\n"

def htmlListEnd (buffer : Bytes) : Bytes := buffer ++ text "\t\t</UL>\n"

def htmlFooterWrite (buffer : Bytes) : Bytes := buffer ++ text "\t</BODY>\n</HTML>\n"

/-- The last slash before the last byte, not looking at the first byte. -/
def linkSlash (webPath : Bytes) : Nat → Option Nat
  | 0 => none
  | i + 1 => if webPath.getD (i + 1) 0 = ascii '/' then some (i + 1) else linkSlash webPath i

def linkText (webPath : Bytes) : Bytes :=
  let filePath := webPath.drop ((linkSlash webPath (webPath.length - 2)).getD 0)
  text "\t\t\t<LI><A HREF=\"" ++ convertPathToUrl webPath filenameMax ++ text "\">" ++
    filePath.drop 1 ++ text "</A></LI>\n"

/-- `pathLen - 3` wraps on a path of one byte, and `linkPath` has `FILENAME_MAX` bytes. -/
def htmlListWritePathLink (buffer webPath : Bytes) : Except Stop Bytes :=
  if webPath.length < 2 ∨ filenameMax < webPath.length + 1 then .error .outOfBounds
  else .ok (buffer ++ linkText webPath)

def breadCrumb (webPath : Bytes) (i : Nat) : Except Stop Bytes := do
  let (linkPath, displayPath) ← getPathName webPath i
  .ok (text "\t\t\t<A HREF=\"" ++ convertPathToUrl linkPath filenameMax ++ text "\">" ++
    displayPath ++ text "</A>\n")

def htmlBreadCrumbWrite (buffer webPath : Bytes) : Except Stop Bytes :=
  if filenameMax < webPath.length + 1 then .error .outOfBounds
  else do
    let crumbs ← (List.range (getPathCount webPath + 1)).mapM (breadCrumb webPath)
    .ok (buffer ++ text "\t\t<DIV>\n" ++ crumbs.flatten ++ text "\t\t</DIV>\n\t\t<HR>\n")

def httpBodyWriteChunk (link : Link) (buffer : Bytes) : Link × Nat :=
  let buffer := cString buffer
  let (link, r) := sendBufferWriteText link (numeral 16 buffer.length ++ httpEol)
  let (link, r') := sendBufferWriteData link buffer
  let (link, r'') := sendBufferWriteText link httpEol
  (link, r + r' + r'')

def httpBodyWriteChunkEnding (link : Link) : Link × Nat :=
  let (link, r) := sendBufferWriteText link (text "0" ++ httpEol ++ httpEol)
  if r = 0 then (link, 0) else sendBufferFlush link

def httpBodyWriteText (link : Link) (text : Bytes) : Link × Nat := sendBufferWriteText link text

example : getPathName (text "/a/b") 1 = .ok (text "/a/", text "a/") := by decide

theorem httpBodyWriteChunk_writes {link : Link} (h : link.Sound) {buffer : Bytes}
    (htext : (0 : UInt8) ∉ buffer) :
    Writes (chunk buffer) link (httpBodyWriteChunk link buffer).1 ∧
      0 < (httpBodyWriteChunk link buffer).2 := by
  obtain ⟨hsize, hcount⟩ := sendBufferWriteText_writes h (sizeLine buffer)
  obtain ⟨hdata, -⟩ := sendBufferWriteData_writes hsize.sound buffer
  obtain ⟨hend, -⟩ := sendBufferWriteText_writes hdata.sound httpEol
  rw [cString_eq_self (zero_notMem_sizeLine buffer)] at hsize hcount
  simp only [httpBodyWriteChunk, cString_eq_self htext]
  constructor
  · exact (hsize.trans hdata).trans hend
  · have hsome : 0 < (numeral 16 buffer.length).length :=
      List.length_pos_of_ne_nil (numeral_ne_nil 16 _)
    rw [sizeLine, List.length_append] at hcount
    change (sendBufferWriteText link (numeral 16 buffer.length ++ httpEol)).2 = _ at hcount
    omega

theorem httpBodyWriteChunkEnding_writes {link : Link} (h : link.Sound) :
    Writes lastChunk link (httpBodyWriteChunkEnding link).1 := by
  obtain ⟨hending, hcount⟩ := sendBufferWriteText_writes h (text "0" ++ httpEol ++ httpEol)
  have hflush := (sendBufferFlush_flushed hending.sound).writes
  have hsome : (sendBufferWriteText link (text "0" ++ httpEol ++ httpEol)).2 ≠ 0 := by
    rw [hcount]
    decide
  simp only [httpBodyWriteChunkEnding, if_neg hsome]
  have hwrites := hending.trans hflush
  rwa [List.append_nil] at hwrites

theorem zero_notMem_asciiToHex {c : UInt8} (hc : c ≠ 0) : (0 : UInt8) ∉ asciiToHex c := by
  rw [asciiToHex]
  split
  · simpa using hc.symm
  · have hdigits := zero_notMem_numeral 16 c.toNat (by decide) (by decide)
    have hpercent : (0 : UInt8) ≠ ascii '%' := by decide
    simp [hdigits, hpercent]

theorem zero_notMem_convertFrom {max : Nat} {done rest : Bytes} (hdone : (0 : UInt8) ∉ done)
    (hrest : (0 : UInt8) ∉ rest) : (0 : UInt8) ∉ convertFrom max done rest := by
  induction rest generalizing done with
  | nil => exact hdone
  | cons c rest ih =>
      have hc : c ≠ 0 := fun heq => hrest (by simp [heq])
      have htail : (0 : UInt8) ∉ rest := fun hmem => hrest (by simp [hmem])
      have hcode := zero_notMem_asciiToHex hc
      rw [convertFrom]
      split
      · simp only
        split
        · simp [hdone, hc.symm, htail]
        · exact ih (by simp [hdone, hcode]) htail
      · exact ih (by simp [hdone, hc.symm]) htail

theorem zero_notMem_linkText {webPath : Bytes} (h : (0 : UInt8) ∉ webPath) :
    (0 : UInt8) ∉ linkText webPath := by
  have hurl : (0 : UInt8) ∉ convertPathToUrl webPath filenameMax :=
    zero_notMem_convertFrom (by simp) h
  have hname : ∀ n m, (0 : UInt8) ∉ (webPath.drop n).drop m := fun n m hmem =>
    h (List.mem_of_mem_drop (List.mem_of_mem_drop hmem))
  simp only [linkText, List.mem_append, not_or]
  exact ⟨⟨⟨⟨by decide, hurl⟩, by decide⟩, hname _ _⟩, by decide⟩

theorem linkText_ne_nil (webPath : Bytes) : linkText webPath ≠ [] := by
  simp [linkText, text]

theorem zero_notMem_getPathName {path linkPath displayPath : Bytes} {maxPaths : Nat}
    (h : (0 : UInt8) ∉ path) (hname : getPathName path maxPaths = .ok (linkPath, displayPath)) :
    (0 : UInt8) ∉ linkPath ∧ (0 : UInt8) ∉ displayPath := by
  have hslash : (0 : UInt8) ∉ text "/" := by decide
  have htake : ∀ n, (0 : UInt8) ∉ path.take n := fun n hmem => h (List.mem_of_mem_take hmem)
  have hdrop : ∀ {s : Bytes} n, (0 : UInt8) ∉ s → (0 : UInt8) ∉ s.drop n := fun n hs hmem =>
    hs (List.mem_of_mem_drop hmem)
  have happend : (0 : UInt8) ∉ path ++ text "/" := by simp [h, hslash]
  rw [getPathName] at hname
  split at hname
  · split at hname
    · simp only [Except.ok.injEq, Prod.mk.injEq] at hname
      exact hname.1 ▸ hname.2 ▸ ⟨hslash, hslash⟩
    · simp only at hname
      split at hname
      · obtain ⟨i, -, hpair⟩ := bind_eq_ok_iff.mp hname
        simp only [Except.ok.injEq, Prod.mk.injEq] at hpair
        exact hpair.1 ▸ hpair.2 ▸ ⟨htake _, hdrop _ (htake _)⟩
      · simp only [Except.ok.injEq, Prod.mk.injEq] at hname
        exact hname.1 ▸ hname.2 ▸ ⟨htake _, htake _⟩
  · split at hname
    · simp at hname
    · simp only at hname
      split at hname
      · obtain ⟨i, -, hpair⟩ := bind_eq_ok_iff.mp hname
        simp only [Except.ok.injEq, Prod.mk.injEq] at hpair
        exact hpair.1 ▸ hpair.2 ▸ ⟨happend, hdrop _ happend⟩
      · simp at hname

theorem zero_notMem_breadCrumb {webPath crumb : Bytes} {i : Nat} (h : (0 : UInt8) ∉ webPath)
    (hcrumb : breadCrumb webPath i = .ok crumb) : (0 : UInt8) ∉ crumb := by
  rw [breadCrumb] at hcrumb
  obtain ⟨⟨linkPath, displayPath⟩, hname, hok⟩ := bind_eq_ok_iff.mp hcrumb
  obtain ⟨hlink, hdisplay⟩ := zero_notMem_getPathName h hname
  simp only [Except.ok.injEq] at hok
  subst hok
  have hurl : (0 : UInt8) ∉ convertPathToUrl linkPath filenameMax :=
    zero_notMem_convertFrom (by simp) hlink
  simp only [List.mem_append, not_or]
  exact ⟨⟨⟨⟨by decide, hurl⟩, by decide⟩, hdisplay⟩, by decide⟩

theorem length_lt_of_htmlBreadCrumbWrite {buffer webPath crumbs : Bytes}
    (h : htmlBreadCrumbWrite buffer webPath = .ok crumbs) : webPath.length < filenameMax := by
  rw [htmlBreadCrumbWrite] at h
  split at h
  · simp at h
  · omega

theorem zero_notMem_htmlBreadCrumbWrite {webPath crumbs : Bytes} (h : (0 : UInt8) ∉ webPath)
    (hcrumbs : htmlBreadCrumbWrite [] webPath = .ok crumbs) : (0 : UInt8) ∉ crumbs := by
  rw [htmlBreadCrumbWrite] at hcrumbs
  split at hcrumbs
  · simp at hcrumbs
  · obtain ⟨list, hlist, hok⟩ := bind_eq_ok_iff.mp hcrumbs
    simp only [Except.ok.injEq] at hok
    subst hok
    have hmiddle : (0 : UInt8) ∉ list.flatten := by
      intro hmem
      obtain ⟨crumb, hcrumb, hzero⟩ := List.mem_flatten.mp hmem
      obtain ⟨i, -, hi⟩ := mem_of_mapM_eq_ok hlist hcrumb
      exact zero_notMem_breadCrumb h hi hzero
    simp only [List.mem_append, not_or]
    exact ⟨⟨⟨by simp, by decide⟩, hmiddle⟩, by decide⟩

end Newth.Server.HttpBody
