import Mathlib.Algebra.Group.Nat.Even
import Mathlib.Data.List.DropRight
import Newth.Library.Call
import Newth.Library.Scan

namespace Newth.Platform.BindPort

open Newth.Library.ByteString
open Newth.Library.Call
open Newth.Library.Numeral
open Newth.Library.Scan

/-- What `sa_family` of the address can say. -/
inductive Family where
  | inet
  | inet6
  | other
  deriving DecidableEq

def USHRT_MAX : Nat := 65535

def PORT_SIZE_MAX : Nat := 2048

/-- What is behind `port` and behind `last` up to the end of the array, and the first
`portSize` of `portList`. -/
structure Scanning where
  port : Bytes
  last : Bytes
  portList : List UInt16

def pushPort (portList : List UInt16) (entry : Bytes) : List UInt16 :=
  let (out, errno) := strtoul entry
  if ¬ errno ∧ out < USHRT_MAX ∧ portList.length < PORT_SIZE_MAX then
    portList ++ [UInt16.ofNat out]
  else portList

/-- One turn of the scan. It leaves with nothing at a character that is no number. -/
def portTurn (st : Scanning) :
    Except Stop (Turn Scanning (Option (Bytes × List UInt16))) :=
  match st.port with
  | [] => .error .outOfBounds
  | c :: rest =>
      if c = 0 then .ok (.leave (some (st.last, st.portList)))
      else if c = ascii ',' then
        let strLen := st.last.length - st.port.length + 1
        -- `port` is moved on here and again at the end of the turn
        if 6 < strLen then .ok (.again ⟨rest.drop 1, rest, st.portList⟩)
        else
          let portStr := st.last.take (strLen - 1)
          .ok (.again ⟨rest.drop 1, rest, pushPort st.portList portStr⟩)
      else if isDecimal c then .ok (.again ⟨rest, st.last, st.portList⟩)
      else .ok (.leave none)

/-- The ports to try, with the last number of the string, if there is no other one. -/
def portsToTry (last : Bytes) (portList : List UInt16) : List UInt16 :=
  if portList = [] then
    let (out, errno) := strtoul last
    if ¬ errno ∧ out < USHRT_MAX then [UInt16.ofNat out] else []
  else portList

/-- The calls of `bind`, in order; a call that succeeds is the last one. -/
def bindCalls (bind : UInt16 → Bool) : List UInt16 → List UInt16
  | [] => []
  | p :: portList => p :: if bind p then [] else bindCalls bind portList

/-- `platformBindPort` for the string `port`: what it returns, and the ports that `bind`
is called with. -/
def platformBindPort (sa_family : Family) (bind : UInt16 → Bool) (port : Bytes) :
    Except Stop (Int × List UInt16) := do
  let array := port ++ [0]
  match ← run portTurn (array.length + 1) ⟨array, array, []⟩ with
  | none => .ok (1, [])
  | some (last, portList) =>
      let portList := portsToTry (cString last) portList
      match sa_family with
      | .inet | .inet6 =>
          .ok (if portList.any bind then 0 else -1, bindCalls bind portList)
      | .other => .ok (-1, [])

example : platformBindPort .inet (fun _ => false) (text "80,8080,0") =
    .ok (-1, [80, 8080]) := by
  decide

section Statement

def portNumber (p : Bytes) : Nat := p.foldl (fun acc c => 10 * acc + digitValue c) 0

/-- A decimal port number. -/
def IsPort (p : Bytes) : Prop :=
  p ≠ [] ∧ (∀ c ∈ p, isDecimal c = true) ∧ portNumber p ≤ 65535

/-- The string lists the ports, one at least. -/
def Lists (port : Bytes) (entries : List Bytes) : Prop :=
  entries ≠ [] ∧ (∀ p ∈ entries, IsPort p) ∧ port = [ascii ','].intercalate entries

/-- A character that has no place in a list of ports. -/
def Stray (c : UInt8) : Prop := c ≠ ascii ',' ∧ isDecimal c = false

/-- What is asked of the function for one string. -/
structure TriesPorts (sa_family : Family) (port : Bytes) : Prop where
  within : ∀ bind, ∃ r, platformBindPort sa_family bind port = .ok r
  strict : (∃ c ∈ port, Stray c) → ∀ bind, platformBindPort sa_family bind port = .ok (1, [])
  tried : ∀ entries, Lists port entries → ∀ bind,
    platformBindPort sa_family bind port =
      .ok (if ∃ p ∈ entries, bind (UInt16.ofNat (portNumber p)) then 0 else -1,
        bindCalls bind (entries.map fun p => UInt16.ofNat (portNumber p)))

/-- How many dividers the string ends in. -/
def dividers (s : Bytes) : Nat := (s.rtakeWhile (· == ascii ',')).length

/-- A stray character is behind an even number of dividers. The one behind an odd number
is skipped. -/
def Caught (port : Bytes) : Prop :=
  ∃ front c rest, port = front ++ c :: rest ∧ Stray c ∧ Even (dividers front)

/-- The strings that are handled right: those in which a stray character is caught, and
those without one that do not end in an odd number of dividers and list at most one port,
which is not the last one. -/
def Handled (sa_family : Family) (port : Bytes) : Prop :=
  Caught port ∨ (∀ c ∈ port, ¬ Stray c) ∧ Even (dividers port) ∧
    ∀ entries, Lists port entries →
      sa_family ≠ .other ∧ ∃ p, entries = [p] ∧ portNumber p ≠ 65535

end Statement

section Scan

/-- The scan of a text: what is between `last` and `port`, then what is behind `port`. -/
def scanned (entry : Bytes) (portList : List UInt16) :
    Bytes → Except Stop (Option (Bytes × List UInt16))
  | [] => .ok (some (entry, portList))
  | c :: rest =>
      if c = ascii ',' then
        match rest with
        | [] => .error .outOfBounds
        | d :: rest =>
            scanned [d] (if 5 < entry.length then portList else pushPort portList entry) rest
      else if isDecimal c then scanned (entry ++ [c]) portList rest
      else .ok none

theorem portTurn_comma (entry rest : Bytes) (portList : List UInt16) :
    portTurn ⟨ascii ',' :: rest, entry ++ ascii ',' :: rest, portList⟩ =
      .ok (.again ⟨rest.drop 1, rest,
        if 5 < entry.length then portList else pushPort portList entry⟩) := by
  have hlength : (entry ++ ascii ',' :: rest).length - (ascii ',' :: rest).length + 1 =
      entry.length + 1 := by
    rw [List.length_append, Nat.add_sub_cancel]
  have hzero : ascii ',' ≠ 0 := by decide
  simp only [portTurn, if_neg hzero, if_true, hlength, Nat.add_sub_cancel, List.take_left]
  by_cases hlong : 5 < entry.length
  · rw [if_pos (by omega), if_pos hlong]
  · rw [if_neg (by omega), if_neg hlong]

theorem port_run (s : Bytes) (hs : (0 : UInt8) ∉ s) (entry : Bytes) (portList : List UInt16)
    {fuel : Nat} (hfuel : s.length + 1 < fuel) :
    run portTurn fuel ⟨s ++ [0], entry ++ (s ++ [0]), portList⟩ =
      (scanned entry portList s).map (Option.map fun r => (r.1 ++ [0], r.2)) := by
  obtain ⟨fuel, rfl⟩ : ∃ less, fuel = less + 1 := ⟨fuel - 1, by omega⟩
  fun_induction scanned entry portList s generalizing fuel with
  | case1 entry portList => exact run_succ_leave fuel rfl
  | case2 entry portList =>
      obtain ⟨fuel, rfl⟩ : ∃ less, fuel = less + 1 := ⟨fuel - 1, by simp at hfuel; omega⟩
      exact (run_succ_again _ (portTurn_comma entry [0] portList)).trans (run_succ_error fuel rfl)
  | case3 entry portList d rest ih =>
      obtain ⟨fuel, rfl⟩ : ∃ less, fuel = less + 1 := ⟨fuel - 1, by simp at hfuel; omega⟩
      have hrest : (0 : UInt8) ∉ rest := fun h => hs (by simp [h])
      rw [List.cons_append, run_succ_again _ (portTurn_comma entry _ portList)]
      exact ih hrest fuel (by simp at hfuel; omega)
  | case4 entry portList c rest hcomma hdecimal ih =>
      obtain ⟨fuel, rfl⟩ : ∃ less, fuel = less + 1 := ⟨fuel - 1, by simp at hfuel; omega⟩
      obtain ⟨hc, hrest⟩ : (0 : UInt8) ≠ c ∧ (0 : UInt8) ∉ rest := by simpa using hs
      have hturn : portTurn ⟨c :: (rest ++ [0]), entry ++ c :: (rest ++ [0]), portList⟩ =
          .ok (.again ⟨rest ++ [0], entry ++ [c] ++ (rest ++ [0]), portList⟩) := by
        simp only [portTurn, if_neg (Ne.symm hc), if_neg hcomma, if_pos hdecimal, List.append_assoc]
        rfl
      rw [List.cons_append, run_succ_again _ hturn]
      exact ih hrest fuel (by simp at hfuel; omega)
  | case5 entry portList c rest hcomma hdecimal =>
      have hc : c ≠ 0 := by
        rintro rfl
        exact hs List.mem_cons_self
      apply run_succ_leave
      simp only [List.cons_append, portTurn, if_neg hc, if_neg hcomma, if_neg hdecimal]
      rfl

/-- `Caught` for the part of a string behind `done`. -/
def CaughtBehind (done s : Bytes) : Prop :=
  ∃ front c rest, s = front ++ c :: rest ∧ Stray c ∧ Even (dividers (done ++ front))

theorem dividers_concat (s : Bytes) (c : UInt8) :
    dividers (s ++ [c]) = if c = ascii ',' then dividers s + 1 else 0 := by
  rw [dividers, List.rtakeWhile_concat]
  by_cases hc : c = ascii ','
  · simp [hc, dividers]
  · simp [hc]

theorem caughtBehind_cons {done s : Bytes} {c : UInt8} :
    CaughtBehind done (c :: s) ↔
      Stray c ∧ Even (dividers done) ∨ CaughtBehind (done ++ [c]) s := by
  constructor
  · rintro ⟨front, d, rest, hsplit, hstray, heven⟩
    cases front with
    | nil =>
        obtain ⟨rfl, rfl⟩ := List.cons.inj hsplit
        exact .inl ⟨hstray, by simpa using heven⟩
    | cons e front =>
        obtain ⟨rfl, rfl⟩ := List.cons.inj hsplit
        exact .inr ⟨front, d, rest, rfl, hstray, by simpa using heven⟩
  · rintro (⟨hstray, heven⟩ | ⟨front, d, rest, rfl, hstray, heven⟩)
    · exact ⟨[], c, s, rfl, hstray, by simpa using heven⟩
    · exact ⟨c :: front, d, rest, rfl, hstray, by simpa using heven⟩

theorem not_stray_comma : ¬ Stray (ascii ',') := fun h => h.1 rfl

theorem scanned_outcome (entry : Bytes) (portList : List UInt16) (s : Bytes) {done : Bytes}
    (hdone : Even (dividers done)) :
    (CaughtBehind done s → scanned entry portList s = .ok none) ∧
      (¬ CaughtBehind done s → Even (dividers (done ++ s)) →
        ∃ r, scanned entry portList s = .ok (some r)) ∧
      (¬ CaughtBehind done s → ¬ Even (dividers (done ++ s)) →
        scanned entry portList s = .error .outOfBounds) := by
  fun_induction scanned entry portList s generalizing done with
  | case1 entry portList =>
      refine ⟨?_, fun _ _ => ⟨_, rfl⟩, ?_⟩
      · rintro ⟨front, c, rest, hsplit, -⟩
        simp at hsplit
      · intro _ hodd
        exact absurd (by simpa using hdone) hodd
  | case2 entry portList =>
      refine ⟨?_, ?_, fun _ _ => rfl⟩
      · rw [caughtBehind_cons]
        rintro (⟨hstray, -⟩ | ⟨front, c, rest, hsplit, -⟩)
        · exact absurd hstray not_stray_comma
        · simp at hsplit
      · intro _ heven
        rw [dividers_concat, if_pos rfl] at heven
        exact absurd hdone (Nat.even_add_one.mp heven)
  | case3 entry portList d rest ih =>
      have hodd : ¬ Even (dividers (done ++ [ascii ','])) := by
        rw [dividers_concat, if_pos rfl, Nat.even_add_one]
        exact not_not_intro hdone
      have heven : Even (dividers (done ++ [ascii ','] ++ [d])) := by
        rw [dividers_concat]
        split
        · exact Nat.even_add_one.mpr hodd
        · exact Even.zero
      have hskip : CaughtBehind done (ascii ',' :: d :: rest) ↔
          CaughtBehind (done ++ [ascii ','] ++ [d]) rest := by
        rw [caughtBehind_cons, caughtBehind_cons, or_iff_right fun h => not_stray_comma h.1,
          or_iff_right fun h => hodd h.2]
      rw [hskip]
      simpa using ih heven
  | case4 entry portList c rest hcomma hdecimal ih =>
      have hstray : ¬ Stray c := fun h => by simp [h.2] at hdecimal
      have heven : Even (dividers (done ++ [c])) := by
        rw [dividers_concat, if_neg hcomma]
        exact Even.zero
      rw [caughtBehind_cons, or_iff_right fun h => hstray h.1]
      simpa using ih heven
  | case5 entry portList c rest hcomma hdecimal =>
      have hcaught : CaughtBehind done (c :: rest) :=
        caughtBehind_cons.mpr (.inl ⟨⟨hcomma, by simpa using hdecimal⟩, hdone⟩)
      exact ⟨fun _ => rfl, fun h => absurd hcaught h, fun h => absurd hcaught h⟩

theorem scanned_digits {p : Bytes} (hp : ∀ c ∈ p, isDecimal c = true) (entry : Bytes)
    (portList : List UInt16) (s : Bytes) :
    scanned entry portList (p ++ s) = scanned (entry ++ p) portList s := by
  induction p generalizing entry with
  | nil => rw [List.append_nil, List.nil_append]
  | cons c p ih =>
      obtain ⟨hc, hp⟩ := List.forall_mem_cons.mp hp
      have hcomma : c ≠ ascii ',' := by
        rintro rfl
        exact absurd hc (by decide)
      rw [List.cons_append, scanned.eq_def]
      simp only [if_neg hcomma, if_pos hc]
      rw [ih hp, List.append_assoc, List.singleton_append]

theorem length_pushPort_le (portList : List UInt16) (entry : Bytes) :
    (pushPort portList entry).length ≤ portList.length + 1 := by
  rw [pushPort]
  split
  split
  · simp
  · exact Nat.le_succ _

theorem scanned_entries (more : List Bytes) (hmore : ∀ p ∈ more, IsPort p) (entry : Bytes)
    (portList : List UInt16) :
    ∃ last tried, scanned entry portList (more.flatMap (ascii ',' :: ·)) = .ok (some (last, tried)) ∧
      tried.length ≤ portList.length + more.length ∧
      (more = [] → last = entry ∧ tried = portList) := by
  induction more generalizing entry portList with
  | nil => exact ⟨entry, portList, rfl, Nat.le_refl _, fun _ => ⟨rfl, rfl⟩⟩
  | cons p more ih =>
      obtain ⟨⟨hne, hdigits, -⟩, hrest⟩ := List.forall_mem_cons.mp hmore
      cases p with
      | nil => exact absurd rfl hne
      | cons d p =>
          have hp := (List.forall_mem_cons.mp hdigits).2
          have hless : (if 5 < entry.length then portList else pushPort portList entry).length ≤
              portList.length + 1 := by
            split
            · exact Nat.le_succ _
            · exact length_pushPort_le portList entry
          obtain ⟨last, tried, hscan, hlength, -⟩ := ih hrest (d :: p)
            (if 5 < entry.length then portList else pushPort portList entry)
          refine ⟨last, tried, ?_, ?_, fun h => absurd h (List.cons_ne_nil _ _)⟩
          · rw [List.flatMap_cons, List.cons_append, List.cons_append, scanned.eq_def]
            simp only [if_true]
            rw [scanned_digits hp]
            exact hscan
          · rw [List.length_cons]
            omega

end Scan

section Results

variable {sa_family : Family} {port : Bytes}

theorem platformBindPort_eq (hzero : (0 : UInt8) ∉ port) (bind : UInt16 → Bool) :
    platformBindPort sa_family bind port =
      match scanned [] [] port with
      | .error stop => .error stop
      | .ok none => .ok (1, [])
      | .ok (some (last, portList)) =>
          let portList := portsToTry (cString (last ++ [0])) portList
          match sa_family with
          | .inet | .inet6 =>
              .ok (if portList.any bind then 0 else -1, bindCalls bind portList)
          | .other => .ok (-1, []) := by
  have hrun := @port_run port hzero [] [] ((port ++ [0]).length + 1) (by simp)
  rw [List.nil_append] at hrun
  simp only [platformBindPort, hrun]
  cases scanned [] [] port with
  | error stop => rfl
  | ok r => cases r <;> rfl

theorem bindCalls_false (portList : List UInt16) : bindCalls (fun _ => false) portList = portList := by
  induction portList with
  | nil => rfl
  | cons p portList ih => simp [bindCalls, ih]

theorem lists_cons {p : Bytes} {more : List Bytes} (h : Lists port (p :: more)) :
    IsPort p ∧ (∀ p ∈ more, IsPort p) ∧ port = p ++ more.flatMap (ascii ',' :: ·) := by
  obtain ⟨-, hports, rfl⟩ := h
  obtain ⟨hp, hmore⟩ := List.forall_mem_cons.mp hports
  refine ⟨hp, hmore, ?_⟩
  induction more generalizing p with
  | nil => simp
  | cons q more ih =>
      obtain ⟨hq, hrest⟩ := List.forall_mem_cons.mp hmore
      rw [List.intercalate_cons_cons, ih hmore hq hrest]
      simp

theorem Lists.not_stray {entries : List Bytes} (h : Lists port entries) : ∀ c ∈ port, ¬ Stray c := by
  cases entries with
  | nil => exact absurd rfl h.1
  | cons p more =>
      obtain ⟨hp, hmore, rfl⟩ := lists_cons h
      intro c hc hstray
      rcases List.mem_append.mp hc with hc | hc
      · exact absurd (hp.2.1 c hc) (by simp [hstray.2])
      · obtain ⟨q, hq, hc⟩ := List.mem_flatMap.mp hc
        rcases List.mem_cons.mp hc with rfl | hc
        · exact not_stray_comma hstray
        · exact absurd ((hmore q hq).2.1 c hc) (by simp [hstray.2])

theorem Lists.scanned {p : Bytes} {more : List Bytes} (h : Lists port (p :: more)) :
    ∃ last tried, scanned [] [] port = .ok (some (last, tried)) ∧ tried.length ≤ more.length ∧
      (more = [] → last = p ∧ tried = []) := by
  obtain ⟨hp, hmore, rfl⟩ := lists_cons h
  obtain ⟨last, tried, hscan, hlength, hone⟩ := scanned_entries more hmore p []
  refine ⟨last, tried, ?_, by simpa using hlength, hone⟩
  rw [scanned_digits hp.2.1]
  exact hscan

theorem portsToTry_one {p : Bytes} (hp : IsPort p) :
    portsToTry (cString (p ++ [0])) [] =
      if portNumber p = 65535 then [] else [UInt16.ofNat (portNumber p)] := by
  obtain ⟨-, hdigits, hle⟩ := hp
  have hzero : (0 : UInt8) ∉ p := fun h => absurd (hdigits 0 h) (by decide)
  have hnumber : strtoul p = (portNumber p, false) := strtoul_of_digits hdigits rfl (by omega)
  have hend : cString (p ++ [0]) = p := by
    rw [cString_append hzero]
    exact List.append_nil p
  rw [portsToTry, if_pos rfl, hend, hnumber]
  by_cases hmax : portNumber p = 65535
  · simp [hmax, USHRT_MAX]
  · have hless : portNumber p < USHRT_MAX := Nat.lt_of_le_of_ne hle hmax
    simp [hless, hmax]

theorem length_portsToTry_le (last : Bytes) (portList : List UInt16) :
    (portsToTry last portList).length ≤ max 1 portList.length := by
  rw [portsToTry]
  split
  · split
    split
    · exact Nat.le_max_left _ _
    · exact Nat.zero_le _
  · exact Nat.le_max_right _ _

theorem handled_of_tries (hzero : (0 : UInt8) ∉ port) (h : TriesPorts sa_family port)
    (hcaught : ¬ Caught port) :
    (∀ c ∈ port, ¬ Stray c) ∧ Even (dividers port) ∧
      ∀ entries, Lists port entries →
        sa_family ≠ .other ∧ ∃ p, entries = [p] ∧ portNumber p ≠ 65535 := by
  obtain ⟨-, hread, hover⟩ := @scanned_outcome [] [] port [] (by decide)
  have heven : Even (dividers port) := by
    by_contra hodd
    obtain ⟨r, hr⟩ := h.within fun _ => false
    rw [platformBindPort_eq hzero, hover hcaught hodd] at hr
    simp at hr
  obtain ⟨⟨last, portList⟩, hscan⟩ := hread hcaught heven
  have hcall := @platformBindPort_eq sa_family port hzero fun _ => false
  rw [hscan] at hcall
  refine ⟨?_, heven, ?_⟩
  · intro c hc hstray
    have hreject := h.strict ⟨c, hc, hstray⟩ fun _ => false
    rw [hcall] at hreject
    cases sa_family <;> simp at hreject
  · intro entries hlists
    cases entries with
    | nil => exact absurd rfl hlists.1
    | cons p more =>
        obtain ⟨last', tried, hscan', hlength, hone⟩ := hlists.scanned
        rw [hscan] at hscan'
        obtain ⟨rfl, rfl⟩ : last = last' ∧ portList = tried := by simpa using hscan'
        have htried := h.tried _ hlists fun _ => false
        rw [hcall] at htried
        cases sa_family with
        | other => simp [bindCalls] at htried
        | inet | inet6 =>
            refine ⟨by simp, p, ?_⟩
            have hports := (Prod.mk.inj (Except.ok.inj htried)).2
            rw [bindCalls_false, bindCalls_false] at hports
            have hle := length_portsToTry_le (cString (last ++ [0])) portList
            rw [hports, List.length_map, List.length_cons] at hle
            have hmore : more = [] := List.eq_nil_of_length_eq_zero (by omega)
            obtain ⟨rfl, rfl⟩ := hone hmore
            rw [hmore, portsToTry_one (lists_cons hlists).1] at hports
            refine ⟨by rw [hmore], fun hmax => ?_⟩
            rw [if_pos hmax] at hports
            exact absurd hports.symm (List.cons_ne_nil _ _)

theorem tries_of_handled (hzero : (0 : UInt8) ∉ port) (hplain : ∀ c ∈ port, ¬ Stray c)
    (heven : Even (dividers port))
    (hports : ∀ entries, Lists port entries →
      sa_family ≠ .other ∧ ∃ p, entries = [p] ∧ portNumber p ≠ 65535) :
    TriesPorts sa_family port := by
  have hcaught : ¬ Caught port := by
    rintro ⟨front, c, rest, rfl, hstray, -⟩
    exact hplain c (by simp) hstray
  obtain ⟨⟨last, portList⟩, hscan⟩ :=
    (@scanned_outcome [] [] port [] (by decide)).2.1 hcaught heven
  refine ⟨?_, ?_, ?_⟩
  · intro bind
    rw [platformBindPort_eq hzero, hscan]
    cases sa_family <;> exact ⟨_, rfl⟩
  · rintro ⟨c, hc, hstray⟩
    exact absurd hstray (hplain c hc)
  · intro entries hlists bind
    obtain ⟨hfamily, p, rfl, hmax⟩ := hports entries hlists
    obtain ⟨last', tried, hscan', -, hone⟩ := hlists.scanned
    obtain ⟨rfl, rfl⟩ := hone rfl
    have hlist := portsToTry_one (lists_cons hlists).1
    rw [if_neg hmax] at hlist
    rw [platformBindPort_eq hzero, hscan']
    simp only [hlist]
    cases sa_family with
    | other => exact absurd rfl hfamily
    | inet | inet6 => simp

theorem tries_iff (hzero : (0 : UInt8) ∉ port) :
    TriesPorts sa_family port ↔ Handled sa_family port := by
  by_cases hcaught : Caught port
  · refine iff_of_true ?_ (.inl hcaught)
    have hstop : scanned [] [] port = .ok none :=
      (@scanned_outcome [] [] port [] (by decide)).1 hcaught
    have hcall : ∀ bind, platformBindPort sa_family bind port = .ok (1, []) := by
      intro bind
      rw [platformBindPort_eq hzero, hstop]
    refine ⟨fun bind => ⟨_, hcall bind⟩, fun _ => hcall, ?_⟩
    intro entries hlists
    obtain ⟨front, c, rest, rfl, hstray, -⟩ := hcaught
    exact absurd hstray (hlists.not_stray c (by simp))
  · rw [Handled, or_iff_right hcaught]
    constructor
    · intro h
      exact handled_of_tries hzero h hcaught
    · rintro ⟨hplain, heven, hports⟩
      exact tries_of_handled hzero hplain heven hports

theorem tries_iff_at : TriesPorts .inet6 (text "80,8080") ↔ Handled .inet6 (text "80,8080") :=
  tries_iff (by decide)

/-- The second of two ports is never tried. -/
theorem second_port_not_tried : ¬ TriesPorts .inet (text "80,8080") := by
  intro h
  have hlists : Lists (text "80,8080") [text "80", text "8080"] := by
    refine ⟨by simp, ?_, by decide⟩
    intro p hp
    rcases List.mem_pair.mp hp with rfl | rfl
    · exact ⟨by decide, forall_mem_of_all (by decide), by decide⟩
    · exact ⟨by decide, forall_mem_of_all (by decide), by decide⟩
  have htried := h.tried _ hlists fun _ => false
  have hcall : platformBindPort .inet (fun _ => false) (text "80,8080") = .ok (-1, [80]) := by decide
  rw [hcall] at htried
  simp [bindCalls] at htried

end Results

end Newth.Platform.BindPort
