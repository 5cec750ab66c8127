import Newth.Library.FixedArray
import Newth.Platform.WebPath
import Newth.Server.PageLinks

namespace Newth.Server.PathBuffers

open Newth.Library.ByteString
open Newth.Library.Call
open Newth.Library.FixedArray
open Newth.Library.Numeral
open Newth.Server.HttpBody
open Newth.Server.LinkTarget
open Newth.Server.Routines
open Newth.Platform.WebPath.Posix01 (platformPathWebToSystem)

section Functions

/-- One turn of the loop of `convertPathToUrl` in the array that holds the path. -/
def convertTurn (max : Nat) : Nat × Bytes → Except Stop (Turn (Nat × Bytes) (Bytes × Int))
  | (i, path) => do
      let c ← load path i
      if c = 0 then .ok (.leave (path, 0))
      else if ¬ isalnum c ∧ c ≠ ascii '/' then do
        let out := asciiToHex c
        let string ← stringIn path
        if max - 1 < string.length + out.length then .ok (.leave (path, -1))
        else do
          -- one byte behind the terminator moves along
          let moved ← copyFrom path (i + 1) (string.length - i + 1)
          let path ← copyTo path (i + out.length) moved
          let path ← copyTo path i out
          .ok (.again (i + out.length, path))
      else .ok (.again (i + 1, path))

def convertPathToUrl (path : Bytes) (max : Nat) : Except Stop (Bytes × Int) :=
  run (convertTurn max) (path.length + 1) (0, path)

/-- The end of `GetPathName`, with `i` at the slash that `linkPath` ends in. -/
def displayName (linkPath displayPath : Bytes) (max i currentPath : Nat) :
    Except Stop (Bytes × Bytes) :=
  if currentPath ≠ 0 then do
    let i ← slashBefore linkPath i
    let name ← copyFrom linkPath (i + 1) (max - i)
    let displayPath ← copyTo displayPath 0 name
    .ok (linkPath, displayPath)
  else do
    let name ← copyFrom linkPath 0 max
    let displayPath ← copyTo displayPath 0 name
    .ok (linkPath, displayPath)

/-- `GetPathName` from where its loop stopped. -/
def closePath (linkPath displayPath : Bytes) (max i currentPath : Nat) :
    Except Stop (Bytes × Bytes) := do
  let last ← load linkPath (i - 1)
  if last = 0 then do
    let linkPath ← assign linkPath (i - 1) (ascii '/')
    let linkPath ← assign linkPath (i - 1 + 1) 0
    displayName linkPath displayPath max (i - 1) currentPath
  else displayName linkPath displayPath max i currentPath

/-- `GetPathName` in its two arrays. -/
def getPathName (path : Bytes) (maxPaths : Nat) (linkPath displayPath : Bytes) :
    Except Stop (Bytes × Bytes) := do
  let max := path.length + 1
  let linkPath ← copyTo linkPath 0 (path ++ [0])
  match pathScan maxPaths path 0 0 with
  | (i, currentPath, true) =>
      if i = 0 then do
        let linkPath ← assign linkPath 1 0
        let name ← copyFrom linkPath 0 2
        let displayPath ← copyTo displayPath 0 name
        .ok (linkPath, displayPath)
      else do
        let linkPath ← assign linkPath (i + 1) 0
        closePath linkPath displayPath max i currentPath
  | (i, currentPath, false) => closePath linkPath displayPath max i currentPath

/-- The arrays of one turn of `htmlBreadCrumbWrite`, with whatever stands in them. -/
structure CrumbArrays where
  internalBuffer : Bytes
  linkPath : Bytes
  displayPath : Bytes
  internalSize : internalBuffer.length = 20 + filenameMax * 2
  linkSize : linkPath.length = filenameMax
  displaySize : displayPath.length = filenameMax

/-- One turn of `htmlBreadCrumbWrite`. -/
def crumb (webPath : Bytes) (i : Nat) (arrays : CrumbArrays) : Except Stop Bytes := do
  let (linkPath, displayPath) ← getPathName webPath i arrays.linkPath arrays.displayPath
  let (linkPath, _) ← convertPathToUrl linkPath filenameMax
  let link ← stringIn linkPath
  let display ← stringIn displayPath
  let internalBuffer ← copyTo arrays.internalBuffer 0
    (text "\t\t\t<A HREF=\"" ++ link ++ text "\">" ++ display ++ text "</A>\n" ++ [0])
  stringIn internalBuffer

/-- `htmlBreadCrumbWrite` with the arrays of each turn. -/
def htmlBreadCrumbWrite (buffer webPath : Bytes) (arrays : Nat → CrumbArrays) :
    Except Stop Bytes := do
  let crumbs ← (List.range (getPathCount webPath + 1)).mapM fun i => crumb webPath i (arrays i)
  .ok (buffer ++ text "\t\t<DIV>\n" ++ crumbs.flatten ++ text "\t\t</DIV>\n\t\t<HR>\n")

/-- `linkPath` in `htmlListWritePathLink`; for the rest of the link the path is only read. -/
def htmlListLinkPath (webPath linkPath : Bytes) : Except Stop Bytes := do
  let linkPath ← copyTo linkPath 0 (webPath ++ [0])
  let (linkPath, _) ← convertPathToUrl linkPath filenameMax
  .ok linkPath

/-- The arrays an entry goes through, with whatever stands in them. -/
structure EntryArrays where
  pathBuf : Bytes
  linkPath : Bytes
  bufSize : pathBuf.length = bufsiz
  linkSize : linkPath.length = filenameMax

/-- The name of an entry behind the path, in `pathBuf`. -/
def joinName (webPath name pathBuf : Bytes) : Except Stop Bytes := do
  let pathLen := webPath.length
  let pathBuf ← copyTo pathBuf 0 webPath
  let last ← load pathBuf (pathLen - 1)
  if last ≠ ascii '/' then do
    let pathBuf ← assign pathBuf pathLen (ascii '/')
    copyTo pathBuf (pathLen + 1) (name ++ [0])
  else copyTo pathBuf pathLen (name ++ [0])

/-- `pathBuf` in `DirectoryRoutineContinue`. -/
def entryPathBuf (webPath name : Bytes) (directory : Bool) (pathBuf : Bytes) : Except Stop Bytes := do
  let pathBuf ← joinName webPath name pathBuf
  if directory then do
    let path ← stringIn pathBuf
    let pathBuf ← assign pathBuf path.length (ascii '/')
    assign pathBuf (path.length + 1) 0
  else .ok pathBuf

/-- What `DirectoryRoutineContinue` does with an entry in `pathBuf` and in the `linkPath` of
`htmlListWritePathLink`. -/
def listEntryArrays (webPath : Bytes) (entry : Entry) (directory : Bool) (arrays : EntryArrays) :
    Except Stop (Option (Bytes × Bytes)) :=
  if platformDirEntryIsHidden entry then .ok none
  else if webPath.length + entry.name.length + 3 < bufsiz then do
    let pathBuf ← entryPathBuf webPath entry.name directory arrays.pathBuf
    let path ← stringIn pathBuf
    let linkPath ← htmlListLinkPath path arrays.linkPath
    .ok (some (pathBuf, linkPath))
  else .ok none

end Functions

section Converting

variable {max : Nat} {done rest junk : Bytes} {c : UInt8}

theorem length_asciiToHex (hc : ¬ isalnum c) :
    2 ≤ (asciiToHex c).length := by
  rw [asciiToHex, if_neg hc, List.length_cons]
  have hpos := List.length_pos_of_ne_nil (numeral_ne_nil 16 c.toNat)
  omega

theorem turn_escape (hdone : (0 : UInt8) ∉ done) (hrest : (0 : UInt8) ∉ c :: rest)
    (hc : ¬ isalnum c ∧ c ≠ ascii '/')
    (hmax : max ≤ (done ++ c :: rest ++ 0 :: junk).length)
    (hfits : ¬ max - 1 < (done ++ c :: rest).length + (asciiToHex c).length) :
    ∃ junk', convertTurn max (done.length, done ++ c :: rest ++ 0 :: junk) =
        .ok (.again ((done ++ asciiToHex c).length,
          done ++ asciiToHex c ++ rest ++ 0 :: junk')) ∧
      (done ++ asciiToHex c ++ rest ++ 0 :: junk').length =
        (done ++ c :: rest ++ 0 :: junk).length := by
  have hlong := length_asciiToHex hc.1
  have hc0 : c ≠ 0 := fun heq => hrest (by simp [heq])
  have hstring : (0 : UInt8) ∉ done ++ c :: rest := fun h =>
    (List.mem_append.mp h).elim hdone hrest
  generalize hout : asciiToHex c = out at *
  have hroom : done.length + (rest.length + 1) + out.length + 1 ≤
      done.length + (rest.length + 1) + (junk.length + 1) := by
    simp only [List.length_append, List.length_cons] at hmax hfits
    omega
  obtain ⟨stray, junk, rfl⟩ := List.exists_cons_of_ne_nil
    (by rintro rfl; rw [List.length_nil] at hroom; omega : junk ≠ [])
  rw [List.length_cons] at hroom
  -- the bytes that the escape is written over, and those that are moved over
  obtain ⟨covered, behind, hcovered, hlength⟩ : ∃ covered behind,
      c :: rest ++ 0 :: stray :: junk = covered ++ behind ∧ covered.length = out.length := by
    refine ⟨_, _, (List.take_append_drop out.length _).symm, ?_⟩
    rw [List.length_take, List.length_append, List.length_cons, List.length_cons, List.length_cons]
    omega
  have hcount := congrArg List.length hcovered
  simp only [List.length_append, List.length_cons] at hcount
  have hwhole : done ++ c :: rest ++ 0 :: stray :: junk = done ++ covered ++ behind := by
    rw [List.append_assoc, hcovered, List.append_assoc]
  have hload : load (done ++ c :: rest ++ 0 :: stray :: junk) done.length = .ok c := by
    rw [List.append_assoc, List.cons_append]
    exact load_behind
  have hmoved : copyFrom (done ++ c :: rest ++ 0 :: stray :: junk) (done.length + 1)
      ((done ++ c :: rest).length - done.length + 1) = .ok (rest ++ [0, stray]) := by
    have hsplit : done ++ c :: rest ++ 0 :: stray :: junk =
        (done ++ [c]) ++ (rest ++ [0, stray]) ++ junk := by simp
    have hn : (done ++ c :: rest).length - done.length + 1 = (rest ++ [0, stray]).length := by
      simp
    rw [hsplit, hn, ← List.length_singleton (a := c), ← List.length_append]
    exact copyFrom_behind _
  have hmove : copyTo (done ++ c :: rest ++ 0 :: stray :: junk) (done.length + out.length)
      (rest ++ [0, stray]) = .ok (done ++ (covered ++ (rest ++ [0, stray] ++
        behind.drop (rest ++ [0, stray]).length))) := by
    rw [hwhole, ← hlength, ← List.length_append, copyTo_behind (by simp; omega)]
    simp
  have hwrite : copyTo (done ++ (covered ++ (rest ++ [0, stray] ++
      behind.drop (rest ++ [0, stray]).length))) done.length out =
        .ok (done ++ out ++ (rest ++ [0, stray] ++ behind.drop (rest ++ [0, stray]).length)) := by
    rw [copyTo_behind (by simp only [List.length_append]; omega), ← hlength, List.drop_left]
  refine ⟨stray :: behind.drop (rest ++ [0, stray]).length, ?_, ?_⟩
  · simp only [convertTurn, hload, ok_bind, if_neg hc0, if_pos hc, hout, stringIn_eq hstring,
      if_neg hfits, hmoved, hmove, hwrite]
    simp
  · simp only [List.length_append, List.length_cons, List.length_drop, List.length_nil]
    omega

theorem convert_run (hdone : (0 : UInt8) ∉ done) (hrest : (0 : UInt8) ∉ rest)
    (hmax : max ≤ (done ++ rest ++ 0 :: junk).length) {fuel : Nat} (hfuel : rest.length < fuel) :
    ∃ junk', run (convertTurn max) fuel (done.length, done ++ rest ++ 0 :: junk) =
        .ok (convertFrom max done rest ++ 0 :: junk', convertReturn max done rest) ∧
      (convertFrom max done rest ++ 0 :: junk').length = (done ++ rest ++ 0 :: junk).length := by
  induction rest generalizing done junk fuel with
  | nil =>
      obtain ⟨fuel, rfl⟩ := Nat.exists_eq_succ_of_ne_zero (by omega : fuel ≠ 0)
      rw [List.append_nil]
      refine ⟨junk, run_succ_leave fuel ?_, rfl⟩
      simp only [convertTurn, load_behind, ok_bind, if_true]
      rfl
  | cons c rest ih =>
      obtain ⟨fuel, rfl⟩ := Nat.exists_eq_succ_of_ne_zero (by omega : fuel ≠ 0)
      rw [List.length_cons, Nat.add_lt_add_iff_right] at hfuel
      have hc0 : c ≠ 0 := fun heq => hrest (by simp [heq])
      have hrest' : (0 : UInt8) ∉ rest := fun h => hrest (List.mem_cons_of_mem c h)
      have hload : load (done ++ c :: rest ++ 0 :: junk) done.length = .ok c := by
        rw [List.append_assoc, List.cons_append]
        exact load_behind
      have hstring : (0 : UInt8) ∉ done ++ c :: rest := fun h =>
        (List.mem_append.mp h).elim hdone hrest
      rw [convertFrom, convertReturn]
      by_cases hc : ¬ isalnum c ∧ c ≠ ascii '/'
      · rw [if_pos hc, if_pos hc]
        by_cases hfits : max - 1 < (done ++ c :: rest).length + (asciiToHex c).length
        · simp only [if_pos hfits]
          refine ⟨junk, run_succ_leave fuel ?_, rfl⟩
          simp only [convertTurn, hload, ok_bind, if_neg hc0, if_pos hc, stringIn_eq hstring,
            if_pos hfits]
        · simp only [if_neg hfits]
          obtain ⟨junk', hturn, hlength⟩ := turn_escape hdone hrest hc hmax hfits
          have hdone' : (0 : UInt8) ∉ done ++ asciiToHex c := fun h =>
            (List.mem_append.mp h).elim hdone (zero_notMem_asciiToHex hc0)
          rw [run_succ_again fuel hturn, ← hlength]
          exact ih hdone' hrest' (hlength ▸ hmax) hfuel
      · rw [if_neg hc, if_neg hc]
        have hturn : convertTurn max (done.length, done ++ c :: rest ++ 0 :: junk) =
            .ok (.again ((done ++ [c]).length, done ++ [c] ++ rest ++ 0 :: junk)) := by
          simp only [convertTurn, hload, ok_bind, if_neg hc0, if_neg hc]
          simp
        have hsplit : done ++ c :: rest ++ 0 :: junk = done ++ [c] ++ rest ++ 0 :: junk := by simp
        rw [run_succ_again fuel hturn, hsplit]
        have hdone' : (0 : UInt8) ∉ done ++ [c] := by simp [hdone, hc0.symm]
        exact ih hdone' hrest' (hsplit ▸ hmax) hfuel

end Converting

section Names

variable {path linkPath displayPath front rest name tail : Bytes} {max i currentPath maxPaths extra : Nat}

theorem length_slash : (text "/").length = 1 := rfl

theorem pathScan_cases (path : Bytes) (maxPaths i currentPath : Nat) :
    (∃ front rest, path = front ++ ascii '/' :: rest ∧
      pathScan maxPaths path i currentPath =
        (i + front.length, currentPath + front.count (ascii '/'), true)) ∨
    pathScan maxPaths path i currentPath =
      (i + path.length + 1, currentPath + path.count (ascii '/'), false) := by
  induction path generalizing i currentPath with
  | nil => exact .inr rfl
  | cons c path ih =>
      have hnext (passed : Nat) (hpassed : [c].count (ascii '/') = passed)
          (hscan : pathScan maxPaths (c :: path) i currentPath =
            pathScan maxPaths path (i + 1) (currentPath + passed)) :
          (∃ front rest, c :: path = front ++ ascii '/' :: rest ∧
            pathScan maxPaths (c :: path) i currentPath =
              (i + front.length, currentPath + front.count (ascii '/'), true)) ∨
          pathScan maxPaths (c :: path) i currentPath =
            (i + (c :: path).length + 1, currentPath + (c :: path).count (ascii '/'), false) := by
        have hcount (s : Bytes) : (c :: s).count (ascii '/') = passed + s.count (ascii '/') := by
          rw [← hpassed, ← List.count_append, List.singleton_append]
        rcases ih (i + 1) (currentPath + passed) with ⟨front, rest, rfl, hfound⟩ | hpast
        · refine .inl ⟨c :: front, rest, rfl, ?_⟩
          rw [hscan, hfound, hcount, List.length_cons, Nat.add_right_comm, Nat.add_assoc i,
            Nat.add_assoc currentPath]
        · refine .inr ?_
          rw [hscan, hpast, hcount, List.length_cons, Nat.add_right_comm i 1, Nat.add_assoc i,
            Nat.add_assoc currentPath]
      by_cases hc : c = ascii '/'
      · subst hc
        by_cases hlast : currentPath = maxPaths
        · refine .inl ⟨[], path, rfl, ?_⟩
          rw [pathScan, if_neg (by simp), if_neg (by simpa using hlast)]
          rfl
        · refine hnext 1 rfl ?_
          rw [pathScan, if_neg (by simp), if_pos hlast]
      · refine hnext 0 (by simp [hc]) ?_
        rw [pathScan, if_pos hc]
        rfl

theorem slashBefore_name (front : Bytes) (hname : ascii '/' ∉ name) (rest : Bytes) :
    slashBefore (front ++ ascii '/' :: name ++ rest) (front ++ ascii '/' :: name).length =
      .ok front.length := by
  have hbefore := PageLinks.slashBefore_append front hname rest le_rfl
  rw [List.append_assoc, List.cons_append, List.length_append, List.length_cons,
    Nat.add_comm name.length, ← Nat.add_assoc]
  exact hbefore

theorem displayName_slash (hname : ascii '/' ∉ name) (hcurrent : currentPath ≠ 0)
    (hmax : max = (front ++ ascii '/' :: name).length + 1 + extra) (hextra : extra ≤ tail.length)
    (hroom : max ≤ displayPath.length) :
    ∃ junk, displayName (front ++ ascii '/' :: name ++ text "/" ++ 0 :: tail) displayPath max
        (front ++ ascii '/' :: name).length currentPath =
      .ok (front ++ ascii '/' :: name ++ text "/" ++ 0 :: tail, name ++ text "/" ++ 0 :: junk) ∧
      (name ++ text "/" ++ 0 :: junk).length = displayPath.length := by
  rw [List.length_append, List.length_cons] at hmax
  have hslash : slashBefore (front ++ ascii '/' :: name ++ text "/" ++ 0 :: tail)
      (front ++ ascii '/' :: name).length = .ok front.length := by
    rw [List.append_assoc]
    exact slashBefore_name front hname (text "/" ++ 0 :: tail)
  have hn : max - front.length = (name ++ text "/" ++ 0 :: tail.take extra).length := by
    rw [List.length_append, List.length_append, List.length_cons, List.length_take, length_slash]
    omega
  have hcopied : copyFrom (front ++ ascii '/' :: name ++ text "/" ++ 0 :: tail) (front.length + 1)
      (max - front.length) = .ok (name ++ text "/" ++ 0 :: tail.take extra) := by
    have hsplit : front ++ ascii '/' :: name ++ text "/" ++ 0 :: tail =
        (front ++ [ascii '/']) ++ (name ++ text "/" ++ 0 :: tail.take extra) ++ tail.drop extra := by
      simp
    rw [hsplit, hn, ← List.length_singleton (a := ascii '/'), ← List.length_append]
    exact copyFrom_behind _
  have hfits : (name ++ text "/" ++ 0 :: tail.take extra).length ≤ displayPath.length := by
    rw [← hn]
    omega
  refine ⟨tail.take extra ++ displayPath.drop (name ++ text "/" ++ 0 :: tail.take extra).length,
    ?_, ?_⟩
  · simp only [displayName, if_pos hcurrent, hslash, ok_bind, hcopied, copyTo_start hfits]
    simp
  · simp only [List.length_append, List.length_cons, List.length_drop] at hfits ⊢
    omega

theorem displayName_whole {linkPath : Bytes} (hfrom : max ≤ linkPath.length)
    (hroom : max ≤ displayPath.length) (i : Nat) :
    displayName linkPath displayPath max i 0 =
      .ok (linkPath, linkPath.take max ++ displayPath.drop max) := by
  have hlength : (linkPath.take max).length = max := by
    rw [List.length_take]
    omega
  have hcopied : copyFrom linkPath 0 max = .ok (linkPath.take max) := by
    rw [copyFrom, if_pos (by omega), List.drop_zero]
  have hfits : (linkPath.take max).length ≤ displayPath.length := by
    rw [hlength]
    exact hroom
  simp only [displayName, ne_eq, not_true_eq_false, if_false, hcopied, ok_bind, copyTo_start hfits,
    hlength]

theorem displayName_first (hmax : max = front.length + 1 + (extra + 1)) (hextra : extra ≤ tail.length)
    (hroom : max ≤ displayPath.length) (i : Nat) :
    ∃ junk, displayName (front ++ text "/" ++ 0 :: tail) displayPath max i 0 =
        .ok (front ++ text "/" ++ 0 :: tail, front ++ text "/" ++ 0 :: junk) ∧
      (front ++ text "/" ++ 0 :: junk).length = displayPath.length := by
  have hname : (front ++ text "/" ++ 0 :: tail).take max = front ++ text "/" ++ 0 :: tail.take extra := by
    have hn : max = (front ++ text "/").length + (extra + 1) := by
      rw [List.length_append, length_slash, hmax]
    rw [hn, List.take_length_add_append, List.take_succ_cons]
  refine ⟨tail.take extra ++ displayPath.drop max, ?_, ?_⟩
  · have hfrom : max ≤ (front ++ text "/" ++ 0 :: tail).length := by
      simp only [List.length_append, List.length_cons, length_slash]
      omega
    rw [displayName_whole hfrom hroom, hname]
    simp
  · simp only [List.length_append, List.length_cons, List.length_take, List.length_drop, length_slash]
    omega

theorem assign_end (front rest : Bytes) (old : UInt8) :
    assign (front ++ ascii '/' :: old :: rest) (front.length + 1) 0 =
      .ok (front ++ text "/" ++ 0 :: rest) := by
  have hbehind := @assign_behind (front ++ text "/") rest old 0
  rw [List.append_assoc, List.length_append] at hbehind
  exact hbehind

theorem closePath_found (hfront : front ≠ []) (htext : (0 : UInt8) ∉ front) (tail : Bytes) :
    closePath (front ++ text "/" ++ 0 :: tail) displayPath max front.length currentPath =
      displayName (front ++ text "/" ++ 0 :: tail) displayPath max front.length currentPath := by
  obtain ⟨front, c, hconcat⟩ := (List.eq_nil_or_concat front).resolve_left hfront
  rw [List.concat_eq_append] at hconcat
  subst hconcat
  have hc : c ≠ 0 := fun heq => htext (by simp [heq])
  have hload : load (front ++ [c] ++ text "/" ++ 0 :: tail) ((front ++ [c]).length - 1) = .ok c := by
    rw [List.length_append, List.length_singleton, Nat.add_sub_cancel, List.append_assoc,
      List.append_assoc]
    exact load_behind
  simp only [closePath, hload, ok_bind, if_neg hc]

theorem closePath_passed (path tail : Bytes) (old : UInt8) :
    closePath (path ++ 0 :: old :: tail) displayPath max (path.length + 1) currentPath =
      displayName (path ++ text "/" ++ 0 :: tail) displayPath max path.length currentPath := by
  have hslash : assign (path ++ 0 :: old :: tail) path.length (ascii '/') =
      .ok (path ++ ascii '/' :: old :: tail) := assign_behind
  have hend : assign (path ++ ascii '/' :: old :: tail) (path.length + 1) 0 =
      .ok (path ++ text "/" ++ 0 :: tail) := assign_end path tail old
  simp only [closePath, Nat.add_sub_cancel, load_behind, ok_bind, if_true, hslash, hend]

theorem copy_path (hlink : linkPath.length = filenameMax) (hfits : path.length + 2 ≤ filenameMax) :
    ∃ old tail, copyTo linkPath 0 (path ++ [0]) = .ok (path ++ 0 :: old :: tail) ∧
      (path ++ 0 :: old :: tail).length = filenameMax := by
  have hroom : (path ++ [0]).length ≤ linkPath.length := by
    rw [List.length_append, List.length_singleton]
    omega
  obtain ⟨old, tail, htail⟩ := List.exists_cons_of_ne_nil
    (List.ne_nil_of_length_pos (by
      rw [List.length_drop, List.length_append, List.length_singleton]
      omega : 0 < (linkPath.drop (path ++ [0]).length).length))
  refine ⟨old, tail, ?_, ?_⟩
  · rw [copyTo_start hroom, htail, List.append_assoc]
    rfl
  · have hlength := congrArg List.length htail
    simp only [List.length_drop, List.length_append, List.length_cons, List.length_nil] at hlength ⊢
    omega

theorem length_slashed (path tail : Bytes) (old : UInt8) :
    (path ++ text "/" ++ 0 :: tail).length = (path ++ 0 :: old :: tail).length := by
  simp only [List.length_append, List.length_cons, length_slash]
  omega

theorem getPathName_bare (hslash : ascii '/' ∉ path) (hlink : linkPath.length = filenameMax)
    (hdisplay : displayPath.length = filenameMax) (hfits : path.length + 2 ≤ filenameMax) :
    ∃ tail, getPathName path maxPaths linkPath displayPath =
        .ok (path ++ text "/" ++ 0 :: tail, path ++ text "/" ++ displayPath.drop (path.length + 1)) ∧
      (path ++ text "/" ++ 0 :: tail).length = filenameMax := by
  obtain ⟨old, tail, hcopy, hlength⟩ := copy_path hlink hfits
  have hscan : pathScan maxPaths path 0 0 = (path.length + 1, 0, false) := by
    rcases pathScan_cases path maxPaths 0 0 with ⟨front, rest, rfl, -⟩ | hpast
    · exact absurd (by simp) hslash
    · rw [hpast, List.count_eq_zero_of_not_mem hslash, Nat.zero_add]
  have hlength' := length_slashed path tail old
  refine ⟨tail, ?_, hlength'.trans hlength⟩
  have htake : (path ++ text "/" ++ 0 :: tail).take (path.length + 1) = path ++ text "/" := by
    rw [List.append_assoc, List.take_length_add_append]
    rfl
  simp only [getPathName, hcopy, ok_bind, hscan, closePath_passed]
  rw [displayName_whole (by omega) (by omega), htake]

theorem getPathName_found (htext : (0 : UInt8) ∉ front ++ ascii '/' :: rest)
    (hlink : linkPath.length = filenameMax) (hdisplay : displayPath.length = filenameMax)
    (hfits : (front ++ ascii '/' :: rest).length + 2 ≤ filenameMax)
    (hscan : pathScan maxPaths (front ++ ascii '/' :: rest) 0 0 =
      (front.length, front.count (ascii '/'), true)) :
    ∃ display junk junk', HttpBody.getPathName (front ++ ascii '/' :: rest) maxPaths =
        .ok (front ++ text "/", display) ∧
      getPathName (front ++ ascii '/' :: rest) maxPaths linkPath displayPath =
        .ok (front ++ text "/" ++ 0 :: junk, display ++ 0 :: junk') ∧
      (front ++ text "/" ++ 0 :: junk).length = filenameMax ∧
      (display ++ 0 :: junk').length = filenameMax := by
  obtain ⟨old, tail, hcopy, hlength⟩ := copy_path hlink hfits
  obtain ⟨x, junk, hcut⟩ := List.exists_cons_of_ne_nil (by simp : rest ++ 0 :: old :: tail ≠ [])
  have hjunk := congrArg List.length hcut
  simp only [List.length_append, List.length_cons] at hjunk hlength hfits
  have hwhole : front ++ ascii '/' :: rest ++ 0 :: old :: tail = front ++ ascii '/' :: x :: junk := by
    rw [List.append_assoc, List.cons_append, hcut]
  have hassign := assign_end front junk x
  have hlong : (front ++ text "/" ++ 0 :: junk).length = filenameMax := by
    simp only [List.length_append, List.length_cons, length_slash]
    omega
  have htake : (front ++ ascii '/' :: rest).take (front.length + 1) = front ++ text "/" := by
    rw [List.take_length_add_append]
    rfl
  cases hnil : front with
  | nil =>
      subst hnil
      have hroot : HttpBody.getPathName ([] ++ ascii '/' :: rest) maxPaths =
          .ok (text "/", text "/") := by
        rw [HttpBody.getPathName, hscan]
        rfl
      have hcopied : copyFrom ([] ++ text "/" ++ 0 :: junk) 0 2 = .ok (text "/" ++ [0]) :=
        @copyFrom_behind [] junk (text "/" ++ [0])
      have hpair : (text "/" ++ [0]).length = 2 := rfl
      have hfits' : (text "/" ++ [0]).length ≤ displayPath.length := by
        rw [hpair]
        omega
      refine ⟨text "/", junk, displayPath.drop 2, hroot, ?_, hlong, ?_⟩
      · simp only [List.length_nil, Nat.zero_add] at hassign
        simp only [getPathName, hcopy, ok_bind, hscan, hwhole, List.length_nil, if_true, hassign,
          hcopied, copyTo_start hfits', hpair]
        simp
      · simp only [List.length_append, List.length_cons, List.length_drop, length_slash]
        omega
  | cons c front' =>
      have hne : front ≠ [] := by simp [hnil]
      have hlen : front.length ≠ 0 := by simp [hnil]
      rw [← hnil]
      by_cases hslash : ascii '/' ∈ front
      · obtain ⟨first, name, hsplit, hname⟩ := exists_last_split hslash
        have hcurrent : front.count (ascii '/') ≠ 0 := (List.count_pos_iff.mpr hslash).ne'
        obtain ⟨junk', hdisplayed, hlength'⟩ := @displayName_slash displayPath first name junk
          ((front ++ ascii '/' :: rest).length + 1) _ (rest.length + 1) hname hcurrent
          (by rw [← hsplit, List.length_append, List.length_cons]; omega) (by omega)
          (by simp only [List.length_append, List.length_cons]; omega)
        rw [← hsplit] at hdisplayed
        refine ⟨name ++ text "/", junk, junk', ?_, ?_, hlong, hlength'.trans hdisplay⟩
        · have hbefore := slashBefore_name first hname (text "/")
          rw [← hsplit] at hbefore
          rw [HttpBody.getPathName, hscan]
          simp only [if_neg hlen, htake, if_pos hcurrent, hbefore, ok_bind]
          rw [hsplit]
          simp
        · simp only [getPathName, hcopy, ok_bind, hscan, if_neg hlen, hwhole, hassign,
            closePath_found hne (fun h => htext (by simp [h])), hdisplayed]
      · have hcount : front.count (ascii '/') = 0 := List.count_eq_zero_of_not_mem hslash
        rw [hcount] at hscan
        obtain ⟨junk', hdisplayed, hlength'⟩ := @displayName_first displayPath front junk
          ((front ++ ascii '/' :: rest).length + 1) rest.length
          (by rw [List.length_append, List.length_cons]; omega) (by omega)
          (by simp only [List.length_append, List.length_cons]; omega) front.length
        refine ⟨front ++ text "/", junk, junk', ?_, ?_, hlong, hlength'.trans hdisplay⟩
        · rw [HttpBody.getPathName, hscan]
          simp only [if_neg hlen, htake, ne_eq, not_true_eq_false, if_false]
        · simp only [getPathName, hcopy, ok_bind, hscan, if_neg hlen, hwhole, hassign,
            closePath_found hne (fun h => htext (by simp [h])), hdisplayed]

theorem getPathName_slash (htext : (0 : UInt8) ∉ path) (hslash : ascii '/' ∈ path)
    (hlink : linkPath.length = filenameMax) (hdisplay : displayPath.length = filenameMax)
    (hfits : path.length + 2 ≤ filenameMax) (maxPaths : Nat) :
    ∃ link display junk junk', HttpBody.getPathName path maxPaths = .ok (link, display) ∧
      getPathName path maxPaths linkPath displayPath =
        .ok (link ++ 0 :: junk, display ++ 0 :: junk') ∧
      (link ++ 0 :: junk).length = filenameMax ∧ (display ++ 0 :: junk').length = filenameMax := by
  rcases pathScan_cases path maxPaths 0 0 with ⟨front, rest, rfl, hfound⟩ | hpast
  · rw [Nat.zero_add, Nat.zero_add] at hfound
    obtain ⟨display, junk, junk', hname, hcall, hlength, hlength'⟩ :=
      getPathName_found htext hlink hdisplay hfits hfound
    exact ⟨_, display, junk, junk', hname, hcall, hlength, hlength'⟩
  · rw [Nat.zero_add, Nat.zero_add] at hpast
    obtain ⟨front, name, rfl, hname⟩ := exists_last_split hslash
    obtain ⟨old, tail, hcopy, hlength⟩ := copy_path hlink hfits
    have hcurrent : (front ++ ascii '/' :: name).count (ascii '/') ≠ 0 :=
      List.count_pos_iff.mpr hslash |>.ne'
    obtain ⟨junk', hdisplayed, hlength'⟩ := @displayName_slash displayPath front name tail
      ((front ++ ascii '/' :: name).length + 1) _ 0 hname hcurrent rfl (Nat.zero_le _) (by omega)
    refine ⟨front ++ ascii '/' :: name ++ text "/", name ++ text "/", tail, junk', ?_, ?_, ?_, ?_⟩
    · have hbefore := slashBefore_name front hname (text "/")
      rw [HttpBody.getPathName, hpast]
      simp only [if_neg (Nat.not_lt.mpr hfits), Nat.add_sub_cancel, if_pos hcurrent, hbefore, ok_bind]
      simp
    · simp only [getPathName, hcopy, ok_bind, hpast, closePath_passed, hdisplayed]
    · exact (length_slashed _ tail old).trans hlength
    · exact hlength'.trans hdisplay

end Names

section Crumbs

variable {webPath : Bytes}

theorem convert_eq {path junk : Bytes} (htext : (0 : UInt8) ∉ path)
    (hlength : (path ++ 0 :: junk).length = filenameMax) :
    ∃ junk', convertPathToUrl (path ++ 0 :: junk) filenameMax =
        .ok (HttpBody.convertPathToUrl path filenameMax ++ 0 :: junk',
          convertPathToUrlReturn path filenameMax) ∧
      (HttpBody.convertPathToUrl path filenameMax ++ 0 :: junk').length = filenameMax := by
  have hfuel : path.length < (path ++ 0 :: junk).length + 1 := by
    rw [List.length_append]
    omega
  obtain ⟨junk', hrun, hlength'⟩ := @convert_run filenameMax [] path junk (by simp) htext
    (by rw [List.nil_append, hlength]) _ hfuel
  exact ⟨junk', hrun, hlength'.trans hlength⟩

theorem crumb_eq (htext : (0 : UInt8) ∉ webPath) (hslash : ascii '/' ∈ webPath)
    (hfits : webPath.length + 2 ≤ filenameMax) (i : Nat) (arrays : CrumbArrays) :
    ∃ shown, breadCrumb webPath i = .ok shown ∧ crumb webPath i arrays = .ok shown := by
  obtain ⟨link, display, junk, junk', hname, hcall, hlink, hdisplay⟩ :=
    getPathName_slash htext hslash arrays.linkSize arrays.displaySize hfits i
  obtain ⟨hlinkText, hdisplayText⟩ := zero_notMem_getPathName htext hname
  obtain ⟨stray, hconvert, hurl⟩ := convert_eq hlinkText hlink
  have hurlText : (0 : UInt8) ∉ HttpBody.convertPathToUrl link filenameMax :=
    zero_notMem_convertFrom (by simp) hlinkText
  have hcrumb : breadCrumb webPath i = .ok (text "\t\t\t<A HREF=\"" ++
      HttpBody.convertPathToUrl link filenameMax ++ text "\">" ++ display ++ text "</A>\n") := by
    rw [breadCrumb, hname, ok_bind]
  refine ⟨_, hcrumb, ?_⟩
  have hcrumbText := zero_notMem_breadCrumb htext hcrumb
  have hroom : (text "\t\t\t<A HREF=\"" ++ HttpBody.convertPathToUrl link filenameMax ++
      text "\">" ++ display ++ text "</A>\n" ++ [0]).length ≤ arrays.internalBuffer.length := by
    have hopen : (text "\t\t\t<A HREF=\"").length = 12 := rfl
    have hmiddle : (text "\">").length = 2 := rfl
    have hclose : (text "</A>\n").length = 5 := rfl
    rw [arrays.internalSize]
    simp only [List.length_append, List.length_cons, List.length_nil, hopen, hmiddle, hclose] at *
    omega
  simp only [crumb, hcall, ok_bind, hconvert, stringIn_eq hurlText, stringIn_eq hdisplayText,
    copyTo_start hroom]
  rw [List.append_assoc _ [0]]
  exact stringIn_eq hcrumbText _

theorem crumbs_eq (htext : (0 : UInt8) ∉ webPath) (hslash : ascii '/' ∈ webPath)
    (hfits : webPath.length + 2 ≤ filenameMax) (buffer : Bytes) (arrays : Nat → CrumbArrays) :
    ∃ shown, HttpBody.htmlBreadCrumbWrite buffer webPath = .ok shown ∧
      htmlBreadCrumbWrite buffer webPath arrays = .ok shown := by
  have hturns : ∀ i ∈ List.range (getPathCount webPath + 1), ∃ shown,
      breadCrumb webPath i = .ok shown ∧ crumb webPath i (arrays i) = .ok shown :=
    fun i _ => crumb_eq htext hslash hfits i (arrays i)
  obtain ⟨crumbs, htexts, harrays⟩ := exists_mapM_eq_ok hturns
  refine ⟨_, ?_, by rw [htmlBreadCrumbWrite, harrays, ok_bind]⟩
  rw [HttpBody.htmlBreadCrumbWrite, if_neg (by omega), htexts, ok_bind]

/-- Arrays without a zero in them. -/
def strayArrays : CrumbArrays where
  internalBuffer := List.replicate (20 + filenameMax * 2) 1
  linkPath := List.replicate filenameMax 1
  displayPath := List.replicate filenameMax 1
  internalSize := List.length_replicate
  linkSize := List.length_replicate
  displaySize := List.length_replicate

theorem crumbs_bare (htext : (0 : UInt8) ∉ webPath) (hslash : ascii '/' ∉ webPath)
    (hfits : webPath.length + 2 ≤ filenameMax) (buffer : Bytes) :
    htmlBreadCrumbWrite buffer webPath (fun _ => strayArrays) = .error .outOfBounds := by
  have hcount : getPathCount webPath = 0 := by
    have happend := PageLinks.getPathCount_append hslash []
    rwa [List.append_nil] at happend
  obtain ⟨tail, hname, hlength⟩ := @getPathName_bare webPath strayArrays.linkPath
    strayArrays.displayPath 0 hslash strayArrays.linkSize strayArrays.displaySize hfits
  have hlinkText : (0 : UInt8) ∉ webPath ++ text "/" := fun h =>
    (List.mem_append.mp h).elim htext (by decide)
  obtain ⟨stray, hconvert, -⟩ := convert_eq hlinkText hlength
  have hurlText : (0 : UInt8) ∉ HttpBody.convertPathToUrl (webPath ++ text "/") filenameMax :=
    zero_notMem_convertFrom (by simp) hlinkText
  have hdisplay : stringIn (webPath ++ text "/" ++ strayArrays.displayPath.drop (webPath.length + 1)) =
      .error .outOfBounds := by
    have hstray : (0 : UInt8) ∉ strayArrays.displayPath.drop (webPath.length + 1) := fun h =>
      absurd (List.eq_of_mem_replicate (List.mem_of_mem_drop h)) (by decide)
    rw [stringIn, if_neg fun h => (List.mem_append.mp h).elim hlinkText hstray]
  have hcrumb : crumb webPath 0 strayArrays = .error .outOfBounds := by
    simp only [crumb, hname, ok_bind, hconvert, stringIn_eq hurlText, hdisplay, error_bind]
  rw [htmlBreadCrumbWrite, hcount, Nat.zero_add, List.range_one, List.mapM_cons, hcrumb, error_bind,
    error_bind]

end Crumbs

section Entries

variable {webPath name path linkPath pathBuf : Bytes} {directory : Bool}

theorem htmlListLinkPath_returns_iff (htext : (0 : UInt8) ∉ path)
    (hlink : linkPath.length = filenameMax) :
    (∃ converted, htmlListLinkPath path linkPath = .ok converted) ↔ path.length < filenameMax := by
  constructor
  · rintro ⟨converted, hcall⟩
    obtain ⟨copied, hcopy, -⟩ := bind_eq_ok_iff.mp hcall
    have hroom := copyTo_returns_iff.mp ⟨copied, hcopy⟩
    rw [List.length_append, List.length_singleton, hlink] at hroom
    omega
  · intro hfits
    have hroom : (path ++ [0]).length ≤ linkPath.length := by
      rw [List.length_append, List.length_singleton, hlink]
      omega
    have hlength : (path ++ 0 :: linkPath.drop (path ++ [0]).length).length = filenameMax := by
      simp only [List.length_append, List.length_cons, List.length_drop, List.length_nil]
      omega
    obtain ⟨junk, hconvert, -⟩ := convert_eq htext hlength
    refine ⟨HttpBody.convertPathToUrl path filenameMax ++ 0 :: junk, ?_⟩
    rw [htmlListLinkPath, copyTo_start hroom, ok_bind, List.append_assoc, List.singleton_append,
      hconvert, ok_bind]

/-- The bytes of the path an entry is linked by. -/
def linkedLength (webPath name : Bytes) (directory : Bool) : Nat :=
  webPath.length + (if webPath.getLast? = some (ascii '/') then 0 else 1) + name.length +
    if directory then 1 else 0

theorem length_entryPath (webPath name : Bytes) (directory : Bool) :
    (entryPath webPath name directory).length = linkedLength webPath name directory := by
  by_cases hslash : webPath.getLast? = some (ascii '/')
  · cases directory <;> simp [entryPath, linkedLength, hslash, length_slash]
    omega
  · cases directory <;> simp [entryPath, linkedLength, hslash, length_slash] <;> omega

theorem name_copied {rest : Bytes} (last : UInt8) (hroom : name.length + 2 < rest.length) :
    ∃ slash junk, (if last ≠ ascii '/' then do
        let pathBuf ← assign (webPath ++ rest) webPath.length (ascii '/')
        copyTo pathBuf (webPath.length + 1) (name ++ [0])
      else copyTo (webPath ++ rest) webPath.length (name ++ [0])) =
        .ok (webPath ++ slash ++ name ++ 0 :: junk) ∧
      slash = (if last = ascii '/' then [] else text "/") ∧ junk ≠ [] := by
  by_cases hlast : last = ascii '/'
  · have hfits : (name ++ [0]).length ≤ rest.length := by
      rw [List.length_append, List.length_singleton]
      omega
    refine ⟨[], rest.drop (name ++ [0]).length, ?_, (if_pos hlast).symm, ?_⟩
    · rw [if_neg (not_not_intro hlast), copyTo_behind hfits]
      simp
    · rw [ne_eq, List.drop_eq_nil_iff, List.length_append, List.length_singleton]
      omega
  · obtain ⟨old, rest, rfl⟩ := List.exists_cons_of_ne_nil
      (List.ne_nil_of_length_pos (by omega : 0 < rest.length))
    rw [List.length_cons] at hroom
    have hfits : (name ++ [0]).length ≤ rest.length := by
      rw [List.length_append, List.length_singleton]
      omega
    have hcopy := @copyTo_behind (webPath ++ text "/") rest (name ++ [0]) hfits
    rw [List.append_assoc webPath, List.length_append] at hcopy
    refine ⟨text "/", rest.drop (name ++ [0]).length, ?_, (if_neg hlast).symm, ?_⟩
    · rw [if_pos hlast, assign_behind, ok_bind]
      refine hcopy.trans ?_
      simp
    · rw [ne_eq, List.drop_eq_nil_iff, List.length_append, List.length_singleton]
      omega

theorem directory_closed {path junk : Bytes} (htext : (0 : UInt8) ∉ path) (hjunk : junk ≠ [])
    (directory : Bool) :
    ∃ rest, (if directory then do
        let closed ← stringIn (path ++ 0 :: junk)
        let pathBuf ← assign (path ++ 0 :: junk) closed.length (ascii '/')
        assign pathBuf (closed.length + 1) 0
      else .ok (path ++ 0 :: junk)) =
        .ok ((if directory then path ++ text "/" else path) ++ 0 :: rest) := by
  cases directory with
  | false => exact ⟨junk, rfl⟩
  | true =>
      obtain ⟨old, rest, rfl⟩ := List.exists_cons_of_ne_nil hjunk
      refine ⟨rest, ?_⟩
      rw [if_pos rfl, if_pos rfl, stringIn_eq htext, ok_bind, assign_behind, ok_bind]
      exact assign_end path rest old

/-- The path of an entry in `pathBuf`. Behind an empty path the byte that happens to stand there
decides about the slash. -/
theorem entryPathBuf_eq (hpath : (0 : UInt8) ∉ webPath) (hname : (0 : UInt8) ∉ name)
    (hbuf : pathBuf.length = bufsiz) (hguard : webPath.length + name.length + 3 < bufsiz) :
    ∃ path junk, entryPathBuf webPath name directory pathBuf = .ok (path ++ 0 :: junk) ∧
      (0 : UInt8) ∉ path ∧ path.length ≤ linkedLength webPath name directory ∧
      (webPath ≠ [] → path = entryPath webPath name directory) := by
  have hcopy : copyTo pathBuf 0 webPath = .ok (webPath ++ pathBuf.drop webPath.length) :=
    copyTo_start (by omega)
  have hrest : name.length + 2 < (pathBuf.drop webPath.length).length := by
    rw [List.length_drop]
    omega
  generalize pathBuf.drop webPath.length = rest at hcopy hrest
  obtain ⟨last, hload, hlast⟩ : ∃ last, load (webPath ++ rest) (webPath.length - 1) = .ok last ∧
      (webPath ≠ [] → webPath.getLast? = some last) := by
    rcases List.eq_nil_or_concat webPath with rfl | ⟨front, last, hconcat⟩
    · obtain ⟨stray, rest, rfl⟩ := List.exists_cons_of_ne_nil
        (List.ne_nil_of_length_pos (by omega : 0 < rest.length))
      exact ⟨stray, rfl, fun h => absurd rfl h⟩
    · rw [List.concat_eq_append] at hconcat
      subst hconcat
      refine ⟨last, ?_, fun _ => List.getLast?_concat⟩
      rw [List.length_append, List.length_singleton, Nat.add_sub_cancel, List.append_assoc]
      exact load_behind
  obtain ⟨slash, junk, hjoined, hslash, hjunk⟩ := @name_copied webPath name rest last hrest
  have hzero : (0 : UInt8) ∉ webPath ++ slash ++ name := by
    rw [hslash]
    split
    · simp [hpath, hname]
    · have hend : (0 : UInt8) ∉ text "/" := by decide
      simp [hpath, hname, hend]
  obtain ⟨rest', hclosed⟩ := directory_closed hzero hjunk directory
  have hsame : webPath ≠ [] → (if directory then webPath ++ slash ++ name ++ text "/"
      else webPath ++ slash ++ name) = entryPath webPath name directory := by
    intro hne
    rw [entryPath, hlast hne, hslash]
    by_cases hend : last = ascii '/' <;> simp [hend, text]
  refine ⟨if directory then webPath ++ slash ++ name ++ text "/" else webPath ++ slash ++ name,
    rest', ?_, ?_, ?_, hsame⟩
  · have hname : joinName webPath name pathBuf = .ok (webPath ++ slash ++ name ++ 0 :: junk) := by
      rw [joinName, hcopy, ok_bind, hload, ok_bind]
      exact hjoined
    rw [entryPathBuf, hname, ok_bind]
    exact hclosed
  · have hend : (0 : UInt8) ∉ text "/" := by decide
    split
    · exact fun h => (List.mem_append.mp h).elim hzero hend
    · exact hzero
  · by_cases hne : webPath = []
    · have hshort : slash.length ≤ 1 := by
        rw [hslash]
        split <;> simp [length_slash]
      subst hne
      simp only [linkedLength, List.getLast?_nil, reduceCtorEq, if_false, List.nil_append]
      split <;> simp only [List.length_append, List.length_nil, length_slash] <;> omega
    · rw [hsame hne, length_entryPath]

/-- Arrays without a zero in them. -/
def strayEntryArrays : EntryArrays where
  pathBuf := List.replicate bufsiz 1
  linkPath := List.replicate filenameMax 1
  bufSize := List.length_replicate
  linkSize := List.length_replicate

/-- An entry stays in its arrays if its path fits in `linkPath`, which nothing checks. -/
theorem listEntryArrays_returns_iff {entry : Entry} (hpath : (0 : UInt8) ∉ webPath)
    (hfits : webPath.length + 2 < filenameMax) (directory : Bool) :
    (∀ arrays, ∃ result, listEntryArrays webPath entry directory arrays = .ok result) ↔
      platformDirEntryIsHidden entry ∨ linkedLength webPath entry.name directory < filenameMax := by
  have hmax : filenameMax = 4096 := rfl
  have hguard : webPath.length + entry.name.length + 3 < bufsiz := by
    have hshort := entry.short
    have hbuf : bufsiz = 8192 := rfl
    omega
  by_cases hhidden : platformDirEntryIsHidden entry
  · exact iff_of_true (fun arrays => ⟨none, by rw [listEntryArrays, if_pos hhidden]⟩) (Or.inl hhidden)
  · rw [or_iff_right hhidden]
    constructor
    · intro hall
      by_cases hne : webPath = []
      · have hshort := entry.short
        subst hne
        simp only [linkedLength, List.getLast?_nil, reduceCtorEq, if_false, List.length_nil]
        split <;> omega
      obtain ⟨result, hcall⟩ := hall strayEntryArrays
      obtain ⟨path, junk, hbuf, htext, -, hsame⟩ := @entryPathBuf_eq webPath entry.name
        strayEntryArrays.pathBuf directory hpath entry.textual strayEntryArrays.bufSize hguard
      rw [listEntryArrays, if_neg hhidden, if_pos hguard, hbuf, ok_bind, stringIn_eq htext,
        ok_bind] at hcall
      obtain ⟨converted, hlink, -⟩ := bind_eq_ok_iff.mp hcall
      rw [← length_entryPath, ← hsame hne]
      exact (htmlListLinkPath_returns_iff htext strayEntryArrays.linkSize).mp ⟨converted, hlink⟩
    · intro hlinked arrays
      obtain ⟨path, junk, hbuf, htext, hlength, -⟩ := @entryPathBuf_eq webPath entry.name
        arrays.pathBuf directory hpath entry.textual arrays.bufSize hguard
      obtain ⟨converted, hlink⟩ :=
        (htmlListLinkPath_returns_iff htext arrays.linkSize).mpr (hlength.trans_lt hlinked)
      refine ⟨some (path ++ 0 :: junk, converted), ?_⟩
      rw [listEntryArrays, if_neg hhidden, if_pos hguard, hbuf, ok_bind, stringIn_eq htext, ok_bind,
        hlink, ok_bind]

end Entries

section Results

variable {rootPath webPath : Bytes}

/-- The web path is one that requests are served for. -/
def Accepted (rootPath webPath : Bytes) : Prop :=
  ∃ absolutePath, platformPathWebToSystem filenameMax rootPath webPath = .ok (.ok absolutePath)

/-- The path `handleDir` has the crumbs written for. -/
def crumbsPath (webPath : Bytes) : Bytes := if webPath = [] then text "/" else webPath

/-- Listing an entry stays in every array, whatever stood in the arrays. -/
structure Within (webPath : Bytes) (entry : Entry) (directory : Bool) : Prop where
  crumbs : ∀ arrays, ∃ buffer, htmlBreadCrumbWrite [] (crumbsPath webPath) arrays = .ok buffer
  entry : ∀ arrays, ∃ result, listEntryArrays webPath entry directory arrays = .ok result

theorem length_of_accepted (h : Accepted rootPath webPath) : webPath.length + 2 < filenameMax := by
  obtain ⟨absolutePath, hpath⟩ := h
  have hroot : rootPath ≠ [] := by
    rintro rfl
    rw [platformPathWebToSystem] at hpath
    split at hpath
    · simp at hpath
    · exact absurd hpath (by simp [Platform.WebPath.Posix01.platformPathCombine,
        Platform.WebPath.pathCombine])
  have hpos := List.length_pos_of_ne_nil hroot
  rw [platformPathWebToSystem] at hpath
  split at hpath
  · simp at hpath
  · omega

theorem crumbs_return_iff (htext : (0 : UInt8) ∉ webPath) (hfits : webPath.length + 2 < filenameMax) :
    (∀ arrays, ∃ buffer, htmlBreadCrumbWrite [] (crumbsPath webPath) arrays = .ok buffer) ↔
      webPath = [] ∨ ascii '/' ∈ webPath := by
  by_cases hnil : webPath = []
  · subst hnil
    refine iff_of_true (fun arrays => ?_) (Or.inl rfl)
    obtain ⟨shown, -, harrays⟩ := @crumbs_eq (text "/") (by decide) (by decide) (by decide) [] arrays
    exact ⟨shown, harrays⟩
  · rw [or_iff_right hnil, crumbsPath, if_neg hnil]
    by_cases hslash : ascii '/' ∈ webPath
    · refine iff_of_true (fun arrays => ?_) hslash
      obtain ⟨shown, -, harrays⟩ := crumbs_eq htext hslash hfits.le [] arrays
      exact ⟨shown, harrays⟩
    · refine iff_of_false (fun hall => ?_) hslash
      obtain ⟨buffer, hbuffer⟩ := hall fun _ => strayArrays
      rw [crumbs_bare htext hslash hfits.le] at hbuffer
      exact absurd hbuffer (by simp)

theorem within_iff (haccepted : Accepted rootPath webPath) (htext : (0 : UInt8) ∉ webPath)
    (entry : Entry) (directory : Bool) :
    Within webPath entry directory ↔ (webPath = [] ∨ ascii '/' ∈ webPath) ∧
      (platformDirEntryIsHidden entry ∨ linkedLength webPath entry.name directory < filenameMax) := by
  have hfits := length_of_accepted haccepted
  rw [← crumbs_return_iff htext hfits, ← listEntryArrays_returns_iff htext hfits]
  exact ⟨fun h => ⟨h.crumbs, h.entry⟩, fun h => ⟨h.1, h.2⟩⟩

theorem within_iff_at :
    Within (text "/music") ⟨text "a.ogg", by decide, by decide, some false, none⟩ false ↔
      (text "/music" = [] ∨ ascii '/' ∈ text "/music") ∧
        (platformDirEntryIsHidden ⟨text "a.ogg", by decide, by decide, some false, none⟩ ∨
          linkedLength (text "/music") (text "a.ogg") false < filenameMax) :=
  within_iff (⟨text "/srv/music", by decide⟩ : Accepted (text "/srv") (text "/music")) (by decide) _ _

/-- Sixteen folders with names of 249 bytes, one in the other. -/
def deepPath : Bytes := (List.replicate 16 (ascii '/' :: List.replicate 249 (ascii 'a'))).flatten

/-- A name as long as names get. -/
def longEntry : Entry where
  name := List.replicate 255 (ascii 'b')
  textual := by decide
  short := List.length_replicate.le
  dType := some false
  stat := none

theorem length_deepPath : deepPath.length = 4000 := by
  rw [deepPath, List.length_flatten, List.map_replicate, List.length_cons, List.length_replicate]
  rfl

theorem zero_notMem_deepPath : (0 : UInt8) ∉ deepPath := by
  intro h
  obtain ⟨component, hcomponent, hmem⟩ := List.mem_flatten.mp h
  rw [List.eq_of_mem_replicate hcomponent, List.mem_cons] at hmem
  rcases hmem with hslash | hname
  · exact absurd hslash (by decide)
  · exact absurd (List.eq_of_mem_replicate hname) (by decide)

theorem entry_overruns_linkPath :
    Accepted (text "/srv") deepPath ∧ (0 : UInt8) ∉ deepPath ∧ longEntry.name.length = 255 ∧
      ¬ Within deepPath longEntry false := by
  have haccepted : Accepted (text "/srv") deepPath := by
    have hfits : ¬ filenameMax ≤ (text "/srv").length + deepPath.length + 1 := by
      rw [length_deepPath]
      decide
    rw [Accepted, platformPathWebToSystem, if_neg hfits, Platform.WebPath.Posix01.platformPathCombine,
      Platform.WebPath.pathCombine_eq (by decide), ok_bind]
    exact ⟨_, rfl⟩
  have hlength : longEntry.name.length = 255 := List.length_replicate
  refine ⟨haccepted, zero_notMem_deepPath, hlength, fun hwithin => ?_⟩
  have hvisible : ¬ platformDirEntryIsHidden longEntry := by decide
  have hlinked := ((listEntryArrays_returns_iff zero_notMem_deepPath
    (length_of_accepted haccepted) false).mp hwithin.entry).resolve_left hvisible
  rw [linkedLength, length_deepPath, hlength] at hlinked
  have hmax : filenameMax = 4096 := rfl
  omega

end Results

end Newth.Server.PathBuffers
