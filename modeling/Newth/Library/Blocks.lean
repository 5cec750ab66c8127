import Mathlib.Logic.Function.Basic
import Newth.Library.Call

namespace Newth.Library.Blocks

open Newth.Library.Call

section Blocks

variable {α : Type}

/-- The blocks that are allocated, by their addresses. A block is an array. -/
abbrev Heap (α : Type) := Nat → Option (List α)

/-- What the allocator comes back with: an address, and what happens to stand in the
memory that has not been written yet. -/
structure Grant (α : Type) where
  address : Nat
  stray : Nat → α

/-- A null pointer, or the address of no block but the one that is given up for it. -/
def Granted (heap : Heap α) (p : Option Nat) : Option (Grant α) → Prop
  | none => False
  | some grant => heap grant.address = none ∨ p = some grant.address

instance [DecidableEq α] (heap : Heap α) (p : Option Nat) :
    (grant : Option (Grant α)) → Decidable (Granted heap p grant)
  | none => inferInstanceAs (Decidable False)
  | some grant => inferInstanceAs (Decidable (heap grant.address = none ∨ p = some grant.address))

def resized (block : List α) (n : Nat) (stray : Nat → α) : List α :=
  (List.range n).map fun i => block.getD i (stray i)

/-- `realloc` to `n` elements; of a null pointer it is `malloc`. It returns none when there is no
memory left. -/
def realloc (heap : Heap α) (p : Option Nat) (n : Nat) (grant : Option (Grant α)) :
    Except Stop (Heap α × Option Nat) :=
  match grant with
  | none => .ok (heap, none)
  | some ⟨q, stray⟩ =>
      match p with
      | none => .ok (Function.update heap q (some (resized [] n stray)), some q)
      | some p =>
          match heap p with
          | none => .error .outOfBounds
          | some block =>
              .ok (Function.update (Function.update heap p none) q
                (some (resized block n stray)), some q)

def free (heap : Heap α) (p : Nat) : Except Stop (Heap α) :=
  match heap p with
  | none => .error .outOfBounds
  | some _ => .ok (Function.update heap p none)

/-- `p[i]` -/
def load (heap : Heap α) (p i : Nat) : Except Stop α :=
  match (heap p).bind (·[i]?) with
  | none => .error .outOfBounds
  | some a => .ok a

/-- `p[i] = a` -/
def store (heap : Heap α) (p i : Nat) (a : α) : Except Stop (Heap α) :=
  match heap p with
  | none => .error .outOfBounds
  | some block =>
      if i < block.length then .ok (Function.update heap p (some (block.set i a)))
      else .error .outOfBounds

theorem resized_set_last (block : List α) (stray : Nat → α) (a : α) :
    (resized block (block.length + 1) stray).set block.length a = block ++ [a] := by
  have hfront : (List.range block.length).map (fun i => block.getD i (stray i)) = block := by
    apply List.ext_getElem
    · simp
    · intro i hi hi'
      simp [hi']
  have hlen : ((List.range block.length).map fun i => block.getD i (stray i)).length =
      block.length := by
    simp
  rw [resized, List.range_succ, List.map_append, List.set_append_right _ _ hlen.le, hlen,
    Nat.sub_self, hfront]
  rfl

theorem resized_append (xs ys : List α) (stray : Nat → α) :
    resized (xs ++ ys) xs.length stray = xs := by
  rw [resized]
  apply List.ext_getElem
  · simp
  · intro i hi hi'
    rw [List.getElem_map, List.getElem_range, List.getD_eq_getElem?_getD,
      List.getElem?_append_left hi', List.getElem?_eq_getElem hi', Option.getD_some]

theorem store_new (heap : Heap α) (q n : Nat) (stray : Nat → α) (a : α) :
    ∃ rest, rest.length = n ∧
      store (Function.update heap q (some (resized [] (n + 1) stray))) q 0 a =
        .ok (Function.update heap q (some (a :: rest))) := by
  have hlength : (resized [] (n + 1) stray).length = n + 1 := by simp [resized]
  obtain ⟨x, rest, hblock⟩ := List.exists_cons_of_length_eq_add_one hlength
  rw [hblock, List.length_cons] at hlength
  refine ⟨rest, Nat.succ_injective hlength, ?_⟩
  rw [store, Function.update_self, hblock]
  simp [Function.update_idem]

theorem store_behind {heap : Heap α} {p : Nat} {front rest : List α} {old : α}
    (h : heap p = some (front ++ old :: rest)) (a : α) :
    store heap p front.length a = .ok (Function.update heap p (some (front ++ a :: rest))) := by
  rw [store, h]
  simp

theorem load_behind {heap : Heap α} {p : Nat} {front rest : List α} {a : α}
    (h : heap p = some (front ++ a :: rest)) : load heap p front.length = .ok a := by
  rw [load, h]
  simp

theorem realloc_other {heap heap' : Heap α} {p new : Option Nat} {n q : Nat}
    {grant : Option (Grant α)} (hgrant : Granted heap p grant) (hlive : heap q ≠ none)
    (hapart : p ≠ some q) (h : realloc heap p n grant = .ok (heap', new)) :
    heap' q = heap q ∧ new ≠ some q := by
  cases grant with
  | none => exact hgrant.elim
  | some grant =>
      have hne : grant.address ≠ q := by
        rintro rfl
        rcases hgrant with hfree | hsame
        · exact hlive hfree
        · exact hapart hsame
      cases p with
      | none =>
          obtain ⟨rfl, rfl⟩ := Prod.mk.inj (Except.ok.inj h)
          exact ⟨Function.update_of_ne hne.symm _ _, fun heq => hne (Option.some.inj heq)⟩
      | some p =>
          have hp : q ≠ p := by
            rintro rfl
            exact hapart rfl
          rw [realloc] at h
          split at h
          · contradiction
          · obtain ⟨rfl, rfl⟩ := Prod.mk.inj (Except.ok.inj h)
            refine ⟨?_, fun heq => hne (Option.some.inj heq)⟩
            rw [Function.update_of_ne hne.symm, Function.update_of_ne hp]

theorem store_other {heap heap' : Heap α} {p q i : Nat} {a : α} (hne : q ≠ p)
    (h : store heap p i a = .ok heap') : heap' q = heap q := by
  rw [store] at h
  split at h
  · contradiction
  · split at h
    · rw [← Except.ok.inj h, Function.update_of_ne hne]
    · contradiction

theorem free_other {heap heap' : Heap α} {p q : Nat} (hne : q ≠ p) (h : free heap p = .ok heap') :
    heap' q = heap q := by
  rw [free] at h
  split at h
  · contradiction
  · rw [← Except.ok.inj h, Function.update_of_ne hne]

end Blocks

section Arrays

variable {α : Type} {heap : Heap α} {xs : List α}

/-- An array that is kept in a block of its own, and in none while it is empty. -/
def Holds (heap : Heap α) : Option Nat → List α → Prop
  | none, xs => xs = []
  | some p, xs => heap p = some xs ∧ xs ≠ []

theorem Holds.congr {heap' : Heap α} {p : Option Nat} (h : Holds heap p xs)
    (hsame : ∀ q, p = some q → heap' q = heap q) : Holds heap' p xs := by
  cases p with
  | none => exact h
  | some p =>
      refine ⟨?_, h.2⟩
      rw [hsame p rfl]
      exact h.1

theorem Holds.load {p : Nat} (h : Holds heap (some p) xs) {i : Nat} (hi : i < xs.length) :
    load heap p i = .ok xs[i] := by
  rw [Blocks.load, h.1]
  simp [hi]

theorem Holds.eq_nil_iff {p : Option Nat} (h : Holds heap p xs) : p = none ↔ xs = [] := by
  cases p with
  | none => exact iff_of_true rfl h
  | some p => exact iff_of_false (by simp) h.2

theorem store_resized (q : Nat) (xs : List α) (stray : Nat → α) (a : α) :
    store (Function.update heap q (some (resized xs (xs.length + 1) stray))) q xs.length a =
      .ok (Function.update heap q (some (xs ++ [a]))) := by
  have hroom : xs.length < (resized xs (xs.length + 1) stray).length := by
    simp [resized]
  rw [store, Function.update_self]
  simp only [hroom, if_true, resized_set_last, Function.update_idem]

theorem Holds.realloc_eq {p : Option Nat} (h : Holds heap p xs) (n : Nat) (grant : Grant α) :
    ∃ others, realloc heap p n (some grant) =
        .ok (Function.update others grant.address (some (resized xs n grant.stray)),
          some grant.address) ∧
      ∀ r, p ≠ some r → others r = heap r := by
  cases p with
  | none =>
      obtain rfl : xs = [] := h
      exact ⟨heap, rfl, fun _ _ => rfl⟩
  | some p =>
      refine ⟨Function.update heap p none, ?_, fun r hr => ?_⟩
      · rw [realloc, h.1]
      · exact Function.update_of_ne (fun heq => hr (congrArg some heq.symm)) _ _

/-- `realloc` makes room for one more element and keeps those that are there; blocks
other than the array's stay as they are. -/
theorem Holds.push {p : Option Nat} (h : Holds heap p xs) {grant : Option (Grant α)}
    (hgrant : Granted heap p grant) (a : α) :
    ∃ grown heap' q, realloc heap p (xs.length + 1) grant = .ok (grown, some q) ∧
      store grown q xs.length a = .ok heap' ∧ Holds heap' (some q) (xs ++ [a]) ∧
      ∀ r, heap r ≠ none → p ≠ some r → q ≠ r ∧ heap' r = heap r := by
  cases grant with
  | none => exact hgrant.elim
  | some grant =>
      obtain ⟨others, hrealloc, hothers⟩ := h.realloc_eq (xs.length + 1) grant
      refine ⟨_, _, grant.address, hrealloc, store_resized _ _ _ _,
        ⟨Function.update_self .., by simp⟩, fun r hr hp => ?_⟩
      have hne : grant.address ≠ r := by
        rintro rfl
        rcases hgrant with hfree | hsame
        · exact hr hfree
        · exact hp hsame
      refine ⟨hne, ?_⟩
      rw [Function.update_of_ne hne.symm]
      exact hothers r hp

theorem Holds.shrink {p : Nat} {ys : List α} (h : Holds heap (some p) (xs ++ ys)) (hne : xs ≠ [])
    {grant : Option (Grant α)} (hgrant : Granted heap (some p) grant) :
    ∃ heap' q, realloc heap (some p) xs.length grant = .ok (heap', some q) ∧
      Holds heap' (some q) xs ∧ ∀ r, heap r ≠ none → p ≠ r → q ≠ r ∧ heap' r = heap r := by
  cases grant with
  | none => exact hgrant.elim
  | some grant =>
      obtain ⟨others, hrealloc, hothers⟩ := h.realloc_eq xs.length grant
      refine ⟨_, grant.address, hrealloc, ⟨?_, hne⟩, fun r hr hp => ?_⟩
      · rw [Function.update_self, resized_append]
      · have hapart : grant.address ≠ r := by
          rintro rfl
          rcases hgrant with hfree | hsame
          · exact hr hfree
          · exact hp (Option.some.inj hsame)
        refine ⟨hapart, ?_⟩
        rw [Function.update_of_ne hapart.symm]
        exact hothers r fun hsame => hp (Option.some.inj hsame)

theorem Holds.free {p : Nat} (h : Holds heap (some p) xs) :
    free heap p = .ok (Function.update heap p none) := by
  rw [Blocks.free, h.1]

end Arrays

end Newth.Library.Blocks
