import Newth.Library.ByteString
import Newth.Library.Call

namespace Newth.Library.FixedArray

open Newth.Library.ByteString
open Newth.Library.Call

section Access

/-- `array[i]` -/
def load (array : Bytes) (i : Nat) : Except Stop UInt8 :=
  match array[i]? with
  | none => .error .outOfBounds
  | some c => .ok c

/-- `memcpy(&array[offset], bytes, n)`, for all `n` bytes. -/
def copyTo (array : Bytes) (offset : Nat) (bytes : Bytes) : Except Stop Bytes :=
  if offset + bytes.length ≤ array.length then
    .ok (array.take offset ++ bytes ++ array.drop (offset + bytes.length))
  else .error .outOfBounds

/-- `array[i] = c` -/
def assign (array : Bytes) (i : Nat) (c : UInt8) : Except Stop Bytes := copyTo array i [c]

/-- The `n` bytes from an offset on. -/
def copyFrom (array : Bytes) (offset n : Nat) : Except Stop Bytes :=
  if offset + n ≤ array.length then .ok ((array.drop offset).take n) else .error .outOfBounds

/-- The string in an array, which ends at a terminator. -/
def stringIn (array : Bytes) : Except Stop Bytes :=
  if (0 : UInt8) ∈ array then .ok (cString array) else .error .outOfBounds

variable {array array' front rest bytes s : Bytes} {offset : Nat}

theorem copyTo_returns_iff :
    (∃ array', copyTo array offset bytes = .ok array') ↔ offset + bytes.length ≤ array.length := by
  rw [copyTo]
  split
  · rename_i hroom
    exact iff_of_true ⟨_, rfl⟩ hroom
  · rename_i hfull
    exact iff_of_false (by simp) hfull

theorem copyTo_behind (h : bytes.length ≤ rest.length) :
    copyTo (front ++ rest) front.length bytes = .ok (front ++ bytes ++ rest.drop bytes.length) := by
  rw [copyTo, if_pos (by simpa using h), List.take_left, List.drop_length_add_append]

theorem copyTo_start (h : bytes.length ≤ array.length) :
    copyTo array 0 bytes = .ok (bytes ++ array.drop bytes.length) := by
  simpa using @copyTo_behind [] array bytes h

theorem assign_behind {old c : UInt8} :
    assign (front ++ old :: rest) front.length c = .ok (front ++ c :: rest) := by
  rw [assign, copyTo_behind (by simp)]
  simp

theorem copyFrom_behind (middle : Bytes) :
    copyFrom (front ++ middle ++ rest) front.length middle.length = .ok middle := by
  rw [copyFrom, if_pos (by simp), List.append_assoc, List.drop_left, List.take_left]

theorem load_behind {c : UInt8} : load (front ++ c :: rest) front.length = .ok c := by
  simp [load]

theorem load_of_lt {i : Nat} (hi : i < array.length) : load array i = .ok (array.getD i 0) := by
  simp [load, hi]

theorem stringIn_eq (hs : (0 : UInt8) ∉ s) (rest : Bytes) : stringIn (s ++ 0 :: rest) = .ok s := by
  rw [stringIn, if_pos (by simp), cString_append hs]
  simp [cString]

end Access

end Newth.Library.FixedArray
