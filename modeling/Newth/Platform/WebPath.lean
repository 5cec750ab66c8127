import Newth.Library.Call
import Newth.Library.PathComponents

namespace Newth.Platform.WebPath

open Newth.Library.ByteString
open Newth.Library.Call
open Newth.Library.PathComponents

/-- `while (output[idx] is a divider && idx) --idx`. -/
def lastKept (isDivider : UInt8 → Bool) (output : Bytes) : Nat → Nat
  | 0 => 0
  | idx + 1 =>
      if isDivider (output.getD (idx + 1) 0) then lastKept isDivider output idx else idx + 1

/-- The body the `platformPathCombine` of every back end has, over the back end's
own dividers. -/
def pathCombine (isDivider : UInt8 → Bool) (divider : UInt8) (path1 path2 : Bytes) :
    Except Stop Bytes :=
  -- on an empty first path `idx = len - 1` wraps
  if path1 = [] then .error .outOfBounds
  else
    let idx := lastKept isDivider path1 (path1.length - 1)
    let output :=
      if idx ≠ 0 ∨ path1 = text "." then path1.take (idx + 1) ++ [divider]
      else if isDivider (path1.getD 0 0) ∧ isDivider (path1.getD 1 0) then path1.take 1
      else path1
    .ok (output ++ path2.dropWhile isDivider)

/-- `if (internal[i] == c) internal[i] = '\0'`. Past the terminator the byte is
arbitrary, but `strcpy` does not read that far. -/
def cutAt (internal : Bytes) (i : Nat) (c : UInt8) : Bytes :=
  if internal[i]? = some c then internal.take i else internal

namespace Posix01

def isDivider (c : UInt8) : Bool := c == ascii '/'

def platformPathCombine : Bytes → Bytes → Except Stop Bytes :=
  pathCombine isDivider (ascii '/')

/-- The inner error is a status code, returned before `absolutePath` is written. -/
def platformPathWebToSystem (filenameMax : Nat) (rootPath webPath : Bytes) :
    Except Stop (Except Nat Bytes) :=
  let absolutePathLen := rootPath.length + webPath.length + 1
  if filenameMax ≤ absolutePathLen then .ok (.error 500)
  else do
    let internal ← platformPathCombine rootPath webPath
    .ok (.ok (if 1 < absolutePathLen then cutAt internal (absolutePathLen - 1) (ascii '/')
      else internal))

end Posix01

namespace Mscrtdl

def isDivider (c : UInt8) : Bool := c == ascii '/' || c == ascii '\\'

def platformPathCombine : Bytes → Bytes → Except Stop Bytes :=
  pathCombine isDivider (ascii '\\')

def toBackslash (c : UInt8) : UInt8 := if c = ascii '/' then ascii '\\' else c

def platformPathWebToSystem (filenameMax : Nat) (rootPath webPath : Bytes) :
    Except Stop (Except Nat Bytes) :=
  let absolutePathLen := rootPath.length + webPath.length + 1
  if filenameMax ≤ absolutePathLen then .ok (.error 500)
  else do
    let internal ← platformPathCombine rootPath webPath
    .ok (.ok (cutAt (internal.map toBackslash) (absolutePathLen - 1) (ascii '\\')))

end Mscrtdl

namespace Doswatb

def isDivider : UInt8 → Bool := Mscrtdl.isDivider

def platformPathCombine : Bytes → Bytes → Except Stop Bytes :=
  pathCombine isDivider (ascii '\\')

/-- Unlike `mscrtdl.c`, the divider that goes is the last byte of the path itself. -/
def platformPathWebToSystem (filenameMax : Nat) (rootPath webPath : Bytes) :
    Except Stop (Except Nat Bytes) :=
  let absolutePathLen := rootPath.length + webPath.length + 1
  if filenameMax ≤ absolutePathLen then .ok (.error 500)
  else do
    let internal ← platformPathCombine rootPath webPath
    .ok (.ok (cutAt (internal.map Mscrtdl.toBackslash) (internal.length - 1) (ascii '\\')))

end Doswatb

section Combine

variable {isDivider : UInt8 → Bool} {divider : UInt8}

/-- What joining makes of the first path. A path that closes gets a divider even if
only its first byte is kept. -/
def firstPart (isDivider : UInt8 → Bool) (divider : UInt8) (closes : Bool) (path1 : Bytes) : Bytes :=
  let idx := lastKept isDivider path1 (path1.length - 1)
  if idx ≠ 0 ∨ closes then path1.take (idx + 1) ++ [divider]
  else if isDivider (path1.getD 0 0) ∧ isDivider (path1.getD 1 0) then path1.take 1
  else path1

theorem pathCombine_eq {path1 : Bytes} (hne : path1 ≠ []) (path2 : Bytes) :
    pathCombine isDivider divider path1 path2 =
      .ok (firstPart isDivider divider (path1 == text ".") path1 ++ path2.dropWhile isDivider) := by
  rw [pathCombine, if_neg hne]
  simp only [firstPart, beq_iff_eq]

theorem length_firstPart_le (closes : Bool) (path1 : Bytes) :
    (firstPart isDivider divider closes path1).length ≤ path1.length + 1 := by
  rw [firstPart]
  split
  · rw [List.length_append]
    exact Nat.succ_le_succ (List.length_take_le' _ _)
  · split
    · exact (List.length_take_le' _ _).trans (Nat.le_succ _)
    · exact Nat.le_succ _

theorem lastKept_of_not_divider {output : Bytes} {idx : Nat}
    (h : isDivider (output.getD idx 0) = false) : lastKept isDivider output idx = idx := by
  cases idx with
  | zero => rfl
  | succ idx => rw [lastKept, h, if_neg Bool.false_ne_true]

theorem lastKept_not_divider {output : Bytes} {idx : Nat} (h : lastKept isDivider output idx ≠ 0) :
    isDivider (output.getD (lastKept isDivider output idx) 0) = false := by
  induction idx with
  | zero => exact absurd rfl h
  | succ idx ih =>
      rw [lastKept] at h ⊢
      split
      · rename_i hdivider
        rw [if_pos hdivider] at h
        exact ih h
      · rename_i hkeep
        simpa using hkeep

theorem cutAt_of_length_le {internal : Bytes} {i : Nat} (h : internal.length ≤ i) (c : UInt8) :
    cutAt internal i c = internal := by
  simp [cutAt, List.getElem?_eq_none h]

theorem cutAt_last (front : Bytes) (d c : UInt8) :
    cutAt (front ++ [d]) ((front ++ [d]).length - 1) c = if d = c then front else front ++ [d] := by
  simp [cutAt]

theorem exists_eq_append_cutAt {internal : Bytes} {i : Nat} {c : UInt8}
    (hi : internal.length ≤ i + 1) :
    ∃ cut, internal = cutAt internal i c ++ cut ∧ ∀ d ∈ cut, d = c := by
  rw [cutAt]
  split
  · rename_i hget
    obtain ⟨hlt, rfl⟩ := List.getElem?_eq_some_iff.mp hget
    refine ⟨[internal[i]], ?_, by simp⟩
    rw [List.take_append_getElem hlt, List.take_of_length_le hi]
  · exact ⟨[], by simp, by simp⟩

theorem lastKept_ne_zero {output : Bytes} {i idx : Nat} (hi : i ≠ 0) (hidx : i ≤ idx)
    (h : isDivider (output.getD i 0) = false) : lastKept isDivider output idx ≠ 0 := by
  induction idx with
  | zero => omega
  | succ idx ih =>
      rw [lastKept]
      split
      · rename_i hdivider
        refine ih ?_
        by_contra hlt
        obtain rfl : i = idx + 1 := by omega
        rw [h] at hdivider
        exact absurd hdivider Bool.false_ne_true
      · omega

theorem take_lastKept (output : Bytes) {idx : Nat} (hidx : idx < output.length) :
    ∃ ds, output.take (idx + 1) = output.take (lastKept isDivider output idx + 1) ++ ds ∧
      ∀ d ∈ ds, isDivider d := by
  induction idx with
  | zero => exact ⟨[], by simp [lastKept], by simp⟩
  | succ idx ih =>
      rw [lastKept]
      split
      · rename_i hdivider
        obtain ⟨ds, htake, hds⟩ := ih (by omega)
        refine ⟨ds ++ [output.getD (idx + 1) 0], ?_, ?_⟩
        · have hget : output.getD (idx + 1) 0 = output[idx + 1] := by simp [hidx]
          rw [← List.append_assoc, ← htake, hget, List.take_append_getElem hidx]
        · intro d hd
          rcases List.mem_append.mp hd with hd | hd
          · exact hds d hd
          · rw [List.mem_singleton.mp hd]
            exact hdivider
      · exact ⟨[], by simp, by simp⟩

theorem length_pathCombine_le {path1 path2 output : Bytes}
    (houtput : pathCombine isDivider divider path1 path2 = .ok output) :
    output.length ≤ path1.length + path2.length + 1 := by
  have hnil : path1 ≠ [] := by
    rintro rfl
    simp [pathCombine] at houtput
  rw [pathCombine_eq hnil] at houtput
  obtain rfl := Except.ok.inj houtput
  have hlead := @length_firstPart_le isDivider divider (path1 == text ".") path1
  have hdrop : (path2.dropWhile isDivider).length ≤ path2.length :=
    (List.dropWhile_sublist _).length_le
  rw [List.length_append]
  omega

theorem pathCombine_concat {body path2 : Bytes} {c : UInt8} (hbody : body ≠ [])
    (hc : isDivider c = false) :
    pathCombine isDivider divider (body ++ [c]) path2
      = .ok (body ++ [c] ++ divider :: path2.dropWhile isDivider) := by
  have hlast : (body ++ [c]).length - 1 = body.length := by simp
  have hkept : lastKept isDivider (body ++ [c]) body.length = body.length := by
    refine lastKept_of_not_divider ?_
    simpa using hc
  have htake : (body ++ [c]).take (body.length + 1) = body ++ [c] :=
    List.take_of_length_le (by simp)
  have hlen : body.length ≠ 0 := by simpa using hbody
  rw [pathCombine, if_neg (by simp), hlast, hkept]
  simp only [hlen, ne_eq, not_false_eq_true, true_or, if_true, htake]
  simp

/-- Joining paths joins their components, unless the first path is one byte other
than a dot and then only dividers. -/
theorem components_pathCombine {path1 path2 output : Bytes}
    (hdivider : isDivider divider)
    (hkept : lastKept isDivider path1 (path1.length - 1) ≠ 0 ∨ isDivider (path1.getD 0 0))
    (houtput : pathCombine isDivider divider path1 path2 = .ok output) :
    components isDivider output = components isDivider path1 ++ components isDivider path2 := by
  have hnil : path1 ≠ [] := by
    rintro rfl
    simp [pathCombine] at houtput
  have hlen : path1.length - 1 < path1.length := by
    have := List.length_pos_of_ne_nil hnil
    omega
  obtain ⟨ds, htake, hds⟩ := @take_lastKept isDivider path1 _ hlen
  rw [Nat.sub_add_cancel (by omega), List.take_length] at htake
  have hkeeps : components isDivider (path1.take (lastKept isDivider path1 (path1.length - 1) + 1))
      = components isDivider path1 := by
    conv_rhs => rw [htake]
    exact (components_append_dividers _ hds).symm
  simp only [pathCombine, if_neg hnil, Except.ok.injEq] at houtput
  subst houtput
  split
  · rw [List.append_assoc, List.singleton_append, components_append_divider hdivider,
      hkeeps, components_dropWhile]
  · rename_i hzero
    simp only [not_or, not_not] at hzero
    have hfirst : isDivider (path1.getD 0 0) := by
      rcases hkept with hkept | hfirst
      · exact absurd hzero.1 hkept
      · exact hfirst
    rw [hzero.1, Nat.zero_add] at hkeeps htake
    obtain ⟨c, rest, rfl⟩ := List.exists_cons_of_ne_nil hnil
    have hc : isDivider c := hfirst
    have hempty : components isDivider [c] = [] := by
      simpa [components] using components_cons_divider hc []
    have hone : components isDivider (c :: rest) = [] := by
      rw [← hkeeps]
      exact hempty
    split
    · rw [hone, List.take_one]
      exact (components_cons_divider hc _).trans (components_dropWhile _)
    · rename_i hsecond
      have hrest : rest = [] := by
        cases rest with
        | nil => rfl
        | cons d rest =>
            have hpassed : d :: rest = ds := by simpa using htake
            have hd : isDivider d := hds d (by simp [← hpassed])
            exact absurd ⟨hfirst, hd⟩ hsecond
      subst hrest
      rw [hempty]
      exact (components_cons_divider hc _).trans (components_dropWhile _)

end Combine

end Newth.Platform.WebPath
