import Newth.Client.Site

namespace Newth.Client.Mounts

open Newth.Library.Call
open Newth.Client.Site

/-- The `SiteArray` with what happens to its memory. To `memcmp`, and so to `SiteCompare`,
two sites are the same when all of them is: equality on `σ`. -/
structure MountArray (σ : Type) where
  block : Nat
  array : List σ
  activeRead : Int
  activeWrite : Int
  deriving DecidableEq, Repr

inductive MountError where
  | invalidSite
  | outOfMemory
  deriving DecidableEq, Repr

section Cursors

variable {σ : Type}

/-- The site `siteArrayGet` returns a pointer to, none for a null pointer. -/
def siteArrayGet (self : MountArray σ) (id : Int) : Option σ :=
  if id < 0 ∨ self.array.length ≤ id then none else self.array[id.toNat]?

def siteArrayActiveGet (self : MountArray σ) : Option σ := siteArrayGet self self.activeRead

def siteArrayActiveGetWrite (self : MountArray σ) : Option σ := siteArrayGet self self.activeWrite

def siteArrayActiveSetNth (self : MountArray σ) (siteNumber : Int) :
    MountArray σ × Option MountError :=
  if self.array.length ≤ siteNumber then (self, some .invalidSite)
  else ({ self with activeRead := siteNumber }, none)

def siteArrayActiveSetWriteNth (self : MountArray σ) (siteNumber : Int) :
    MountArray σ × Option MountError :=
  if self.array.length ≤ siteNumber then (self, some .invalidSite)
  else ({ self with activeWrite := siteNumber }, none)

/-- `p` is what `malloc` or `realloc` returns. -/
def siteArrayAdd (self : MountArray σ) (site : σ) (p : Option Nat) :
    MountArray σ × Option MountError :=
  match p with
  | none => (self, some .outOfMemory)
  | some p => ({ self with block := p, array := self.array ++ [site] }, none)

def siteArrayRemoveNth (self : MountArray σ) (n : Int) (p : Option Nat) :
    Except Stop (MountArray σ) :=
  let reset (cursor : Int) : Int := if cursor = n then -1 else cursor
  if n ≤ self.array.length - 1 then
    -- `memmove` to in front of the array
    if n < 0 then .error .outOfBounds
    else
      let array := self.array.eraseIdx n.toNat
      match p with
      | none => .ok { self with array := array }
      | some p => .ok ⟨p, array, reset self.activeRead, reset self.activeWrite⟩
  else .ok { self with activeRead := reset self.activeRead, activeWrite := reset self.activeWrite }

section Compare

variable [DecidableEq σ]

/-- Where the loops over the sites first find one `SiteCompare` takes for `site`. -/
def firstSame (self : MountArray σ) (site : σ) : Option Nat := self.array.findIdx? (· = site)

def siteArrayActiveSet (self : MountArray σ) (site : σ) : MountArray σ :=
  match firstSame self site with
  | some i => (siteArrayActiveSetNth self i).1
  | none => self

/-- It calls `siteArrayActiveSetNth`, as `siteArrayActiveSet` does. -/
def siteArrayActiveSetWrite (self : MountArray σ) (site : σ) : MountArray σ :=
  match firstSame self site with
  | some i => (siteArrayActiveSetNth self i).1
  | none => self

def siteArrayRemove (self : MountArray σ) (site : σ) (p : Option Nat) :
    Except Stop (MountArray σ) :=
  match firstSame self site with
  | some i => siteArrayRemoveNth self i p
  | none => .ok self

end Compare

theorem siteArrayGet_eq_none {self : MountArray σ} {id : Int}
    (h : id < 0 ∨ self.array.length ≤ id) : siteArrayGet self id = none := if_pos h

theorem siteArrayGet_natCast (self : MountArray σ) (i : Nat) :
    siteArrayGet self i = self.array[i]? := by
  rw [siteArrayGet]
  split
  · rename_i h
    exact (List.getElem?_eq_none (by omega)).symm
  · rfl

theorem siteArrayGet_added {self : MountArray σ} {site : σ} {block : Nat} (cursor : Int) :
    siteArrayGet { self with block := block, array := self.array ++ [site] } cursor =
        siteArrayGet self cursor ↔ cursor ≠ self.array.length := by
  rw [siteArrayGet, siteArrayGet]
  simp only [List.length_append, List.length_singleton]
  by_cases hend : cursor = self.array.length
  · have hnot : ¬ (cursor < 0 ∨ ((self.array.length + 1 : Nat) : Int) ≤ cursor) := by omega
    have hout : cursor < 0 ∨ (self.array.length : Int) ≤ cursor := by omega
    have hlast : cursor.toNat = self.array.length := by omega
    rw [if_neg hnot, if_pos hout, hlast]
    simp [hend]
  · simp only [ne_eq, hend, not_false_eq_true, iff_true]
    by_cases hout : cursor < 0 ∨ (self.array.length : Int) ≤ cursor
    · rw [if_pos hout, if_pos (by omega)]
    · rw [if_neg hout, if_neg (by omega), List.getElem?_append_left (by omega)]

theorem siteArrayGet_erased {self after : MountArray σ} {n : Nat} (hn : n < self.array.length)
    (harray : after.array = self.array.eraseIdx n) (cursor : Int) :
    siteArrayGet after cursor =
      if cursor < n then siteArrayGet self cursor else siteArrayGet self (cursor + 1) := by
  have hlength : after.array.length = self.array.length - 1 := by
    rw [harray, List.length_eraseIdx_of_lt hn]
  by_cases hneg : cursor < 0
  · rw [siteArrayGet_eq_none (.inl hneg), if_pos (by omega), siteArrayGet_eq_none (.inl hneg)]
  · obtain ⟨i, rfl⟩ := Int.eq_ofNat_of_zero_le (by omega : 0 ≤ cursor)
    have hnext : (i : Int) + 1 = (i + 1 : Nat) := rfl
    rw [hnext, siteArrayGet_natCast, siteArrayGet_natCast, siteArrayGet_natCast, harray,
      List.getElem?_eraseIdx]
    simp only [Int.ofNat_lt]

/-- The site behind a cursor that points behind the removed one, or at it when `realloc`
fails, is followed by the same site or by none. -/
def NotShifted (self : MountArray σ) (n : Int) (p : Option Nat) (cursor : Int) : Prop :=
  n < cursor ∨ cursor = n ∧ p = none → cursor + 1 < self.array.length →
    siteArrayGet self (cursor + 1) = siteArrayGet self cursor

theorem notShifted_iff {self after : MountArray σ} {n : Nat} (hn : n < self.array.length)
    (harray : after.array = self.array.eraseIdx n) (p : Option Nat) (cursor : Int) :
    let left := if cursor = n ∧ p ≠ none then -1 else cursor
    siteArrayGet after left = siteArrayGet self cursor ∨ siteArrayGet after left = none ↔
      NotShifted self n p cursor := by
  intro left
  by_cases hreset : cursor = n ∧ p ≠ none
  · have hleft : left = -1 := if_pos hreset
    rw [hleft, siteArrayGet_eq_none (.inl (by decide))]
    simp only [or_true, true_iff]
    intro hmoved
    rcases hmoved with hlt | ⟨-, hp⟩
    · omega
    · exact absurd hp hreset.2
  · have hleft : left = cursor := if_neg hreset
    rw [hleft, siteArrayGet_erased hn harray, NotShifted]
    by_cases hfront : cursor < n
    · rw [if_pos hfront]
      simp only [true_or, true_iff]
      intro hmoved
      omega
    · have hmoved : (n : Int) < cursor ∨ cursor = n ∧ p = none := by
        by_cases hat : cursor = n
        · exact .inr ⟨hat, by_contra fun hp => hreset ⟨hat, hp⟩⟩
        · exact .inl (by omega)
      rw [if_neg hfront]
      simp only [hmoved, true_implies]
      by_cases hlast : cursor + 1 < self.array.length
      · obtain ⟨i, hi⟩ := Int.eq_ofNat_of_zero_le (by omega : 0 ≤ cursor + 1)
        have hsome : siteArrayGet self (cursor + 1) ≠ none := by
          rw [hi, siteArrayGet_natCast, List.getElem?_eq_getElem (by omega)]
          exact Option.some_ne_none _
        simp only [hlast, true_implies, hsome, or_false]
      · simp only [hlast, false_implies, iff_true]
        exact .inr (siteArrayGet_eq_none (by omega))

end Cursors

section Calls

variable {σ : Type} [DecidableEq σ]

/-- The calls that the cursors have to outlive. -/
inductive ArrayCall (σ : Type) where
  | activeSet (site : σ)
  | activeSetNth (siteNumber : Int)
  | activeSetWrite (site : σ)
  | activeSetWriteNth (siteNumber : Int)
  | add (site : σ) (p : Option Nat)
  | removeNth (n : Int) (p : Option Nat)

def ArrayCall.run (self : MountArray σ) : ArrayCall σ → Except Stop (MountArray σ)
  | .activeSet site => .ok (siteArrayActiveSet self site)
  | .activeSetNth siteNumber => .ok (siteArrayActiveSetNth self siteNumber).1
  | .activeSetWrite site => .ok (siteArrayActiveSetWrite self site)
  | .activeSetWriteNth siteNumber => .ok (siteArrayActiveSetWriteNth self siteNumber).1
  | .add site p => .ok (siteArrayAdd self site p).1
  | .removeNth n p => siteArrayRemoveNth self n p

/-- Only a site of the array is removed. -/
def ArrayCall.InRange (self : MountArray σ) : ArrayCall σ → Prop
  | .removeNth n _ => 0 ≤ n ∧ n < self.array.length
  | _ => True

/-- What each call has to leave of the two cursors. -/
def CursorsFollow (call : ArrayCall σ) (before after : MountArray σ) : Prop :=
  let read := siteArrayActiveGet (σ := σ)
  let write := siteArrayActiveGetWrite (σ := σ)
  match call with
  | .activeSet _ | .activeSetNth _ => after = { before with activeRead := after.activeRead }
  | .activeSetWrite _ | .activeSetWriteNth _ =>
      after = { before with activeWrite := after.activeWrite }
  | .add _ _ => read after = read before ∧ write after = write before
  | .removeNth _ _ =>
      (read after = read before ∨ read after = none) ∧
        (write after = write before ∨ write after = none)

/-- The states in which a call leaves the cursors as it has to. -/
def FollowsWhen (self : MountArray σ) : ArrayCall σ → Prop
  | .activeSet _ | .activeSetNth _ | .activeSetWriteNth _ => True
  | .activeSetWrite site => ∀ i, firstSame self site = some i → self.activeRead = i
  | .add _ p => p = none ∨ self.activeRead ≠ self.array.length ∧
      self.activeWrite ≠ self.array.length
  | .removeNth n p => NotShifted self n p self.activeRead ∧ NotShifted self n p self.activeWrite

theorem activeSet_follows (self : MountArray σ) (site : σ) :
    siteArrayActiveSet self site =
      { self with activeRead := (siteArrayActiveSet self site).activeRead } := by
  rw [siteArrayActiveSet]
  split
  · simp only [siteArrayActiveSetNth]
    split <;> rfl
  · rfl

theorem firstSame_lt {self : MountArray σ} {site : σ} {i : Nat}
    (h : firstSame self site = some i) : i < self.array.length :=
  (List.findIdx?_eq_some_iff_findIdx_eq.mp h).1

theorem activeSetWrite_follows_iff (self : MountArray σ) (site : σ) :
    siteArrayActiveSetWrite self site =
        { self with activeWrite := (siteArrayActiveSetWrite self site).activeWrite } ↔
      ∀ i, firstSame self site = some i → self.activeRead = i := by
  rw [siteArrayActiveSetWrite]
  cases hfirst : firstSame self site with
  | none => simp
  | some i =>
      have hlt := firstSame_lt hfirst
      simp only [siteArrayActiveSetNth, if_neg (by omega : ¬ (self.array.length : Int) ≤ i)]
      simp only [MountArray.mk.injEq, true_and, and_true, Option.some.injEq, forall_eq']
      exact eq_comm

/-- Each call leaves the cursors as it has to exactly in these states. -/
theorem cursors_follow_iff {self : MountArray σ} {call : ArrayCall σ} (h : call.InRange self) :
    (∃ after, call.run self = .ok after ∧ CursorsFollow call self after) ↔
      FollowsWhen self call := by
  cases call with
  | activeSet site =>
      simp only [ArrayCall.run, Except.ok.injEq, exists_eq_left', CursorsFollow, FollowsWhen,
        iff_true]
      exact activeSet_follows self site
  | activeSetNth siteNumber =>
      simp only [ArrayCall.run, Except.ok.injEq, exists_eq_left', CursorsFollow, FollowsWhen,
        iff_true, siteArrayActiveSetNth]
      split <;> rfl
  | activeSetWrite site =>
      simp only [ArrayCall.run, Except.ok.injEq, exists_eq_left', CursorsFollow, FollowsWhen]
      exact activeSetWrite_follows_iff self site
  | activeSetWriteNth siteNumber =>
      simp only [ArrayCall.run, Except.ok.injEq, exists_eq_left', CursorsFollow, FollowsWhen,
        iff_true, siteArrayActiveSetWriteNth]
      split <;> rfl
  | add site p =>
      simp only [ArrayCall.run, Except.ok.injEq, exists_eq_left', CursorsFollow, FollowsWhen]
      cases p with
      | none => simp [siteArrayAdd]
      | some p =>
          simp only [siteArrayAdd, siteArrayActiveGet, siteArrayActiveGetWrite, siteArrayGet_added,
            reduceCtorEq, false_or]
  | removeNth n p =>
      obtain ⟨hpos, hlt⟩ := h
      obtain ⟨i, rfl⟩ := Int.eq_ofNat_of_zero_le hpos
      have hi : i < self.array.length := by omega
      simp only [ArrayCall.run, CursorsFollow, FollowsWhen, siteArrayRemoveNth,
        siteArrayActiveGet, siteArrayActiveGetWrite]
      rw [if_pos (by omega), if_neg (by omega)]
      cases p with
      | none =>
          simp only [Except.ok.injEq, exists_eq_left']
          refine and_congr ?_ ?_
          · simpa using notShifted_iff hi rfl none self.activeRead
          · simpa using notShifted_iff hi rfl none self.activeWrite
      | some p =>
          simp only [Except.ok.injEq, exists_eq_left']
          refine and_congr ?_ ?_
          · simpa using notShifted_iff hi rfl (some p) self.activeRead
          · simpa using notShifted_iff hi rfl (some p) self.activeWrite

/-- Three sites, a read cursor on the second and a write cursor on the first. -/
def threeMounts : MountArray Nat := ⟨0, [10, 11, 12], 1, 0⟩

theorem cursors_follow_threeMounts :
    (∃ after, ArrayCall.run threeMounts (.removeNth 2 (some 0)) = .ok after ∧
      CursorsFollow (.removeNth 2 (some 0)) threeMounts after) ↔
    FollowsWhen threeMounts (.removeNth 2 (some 0)) :=
  cursors_follow_iff ⟨by decide, by decide⟩

/-- When the first site goes, the read cursor denotes the third. -/
theorem cursors_not_follow :
    ¬ ∀ (self : MountArray Nat) (call : ArrayCall Nat), call.InRange self →
      ∃ after, call.run self = .ok after ∧ CursorsFollow call self after := by
  intro h
  obtain ⟨after, hrun, hread, -⟩ := h threeMounts (.removeNth 0 (some 0)) ⟨by decide, by decide⟩
  have hremoved : ArrayCall.run threeMounts (.removeNth 0 (some 0)) =
      .ok ⟨0, [11, 12], 1, -1⟩ := rfl
  rw [hremoved] at hrun
  obtain rfl := Except.ok.inj hrun
  rcases hread with hsame | hnone
  · exact absurd hsame (by decide)
  · exact absurd hnone (by decide)

end Calls

end Newth.Client.Mounts
