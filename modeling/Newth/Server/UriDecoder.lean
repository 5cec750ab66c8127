import Mathlib.Data.List.GetD
import Mathlib.Logic.Relation
import Newth.Server.SharedFolder

namespace Newth.Server.UriDecoder

open Newth.Common.Hex
open Newth.Library.ByteString
open Newth.Library.Call
open Newth.Server.SharedFolder

section InPlace

def strlen (mem : Bytes) (i : Nat) : Nat := (cString (mem.drop i)).length

def memmove (mem : Bytes) (dst src len : Nat) : Bytes :=
  mem.take dst ++ (mem.drop src).take len ++ mem.drop (dst + len)

/-- `memmove(&i[1], &i[3], strlen(i) - 2)`, which must not move more than what is left
of the string behind `&i[3]`, its terminator included. -/
def closeGap (mem : Bytes) (i : Nat) : Except Stop Bytes :=
  let len : Int := (strlen mem i : Int) - 2
  if len < 0 ∨ (strlen mem (i + 3) : Int) + 1 < len then .error .outOfBounds
  else .ok (memmove mem (i + 1) (i + 3) len.toNat)

/-- The array behind `url` and the offset of `i`. -/
structure Decoding where
  mem : Bytes
  i : Nat

def decodeTurn (s : Decoding) : Except Stop (Turn Decoding Bytes) :=
  let c := s.mem.getD s.i 0
  let h := s.mem.getD (s.i + 1) 0
  let l := s.mem.getD (s.i + 2) 0
  if c = 0 then .ok (.leave s.mem)
  else if c = ascii '%' ∧ h ≠ 0 ∧ l ≠ 0 then do
    let mem ← closeGap (s.mem.set s.i (hexToAscii h l)) s.i
    .ok (.again ⟨mem, s.i + 1⟩)
  else .ok (.again ⟨s.mem, s.i + 1⟩)

def cutTurn (mem : Bytes) : Except Stop (Turn Bytes Bytes) :=
  match strstr (cString mem) (text "/..") with
  | none => .ok (.leave mem)
  | some i => do
      let mem ← closeGap mem i
      .ok (.again mem)

/-- `hexConvertStringToAscii` on the array it edits. -/
def hexConvertInPlace (mem : Bytes) : Except Stop Bytes := do
  let mem ← run decodeTurn (strlen mem 0 + 1) ⟨mem, 0⟩
  run cutTurn (strlen mem 0 + 1) mem

/-- An array that holds a string. -/
def Holds (s mem : Bytes) : Prop := (0 : UInt8) ∉ s ∧ ∃ beyond, mem = s ++ 0 :: beyond

theorem cString_of_holds {s mem : Bytes} (h : Holds s mem) : cString mem = s := by
  obtain ⟨hs, beyond, rfl⟩ := h
  rw [cString_append hs]
  simp [cString]

theorem strlen_append (done : Bytes) {s : Bytes} (h : (0 : UInt8) ∉ s) (beyond : Bytes) :
    strlen (done ++ (s ++ 0 :: beyond)) done.length = s.length := by
  rw [strlen, List.drop_left, cString_of_holds ⟨h, beyond, rfl⟩]

theorem memmove_block (before gap block after : Bytes) :
    memmove (before ++ gap ++ block ++ after) before.length (before ++ gap).length block.length
      = before ++ block ++ (gap ++ block ++ after).drop block.length := by
  rw [memmove]
  congr 1
  · congr 1
    · rw [List.append_assoc, List.append_assoc, List.take_left]
    · rw [List.append_assoc, List.drop_left, List.take_left]
  · rw [← List.drop_drop, List.append_assoc, List.append_assoc, List.drop_left,
      List.append_assoc]

theorem closeGap_holds {done rest : Bytes} {v h l : UInt8} (hv : v ≠ 0) (hh : h ≠ 0) (hl : l ≠ 0)
    (hrest : (0 : UInt8) ∉ rest) (beyond : Bytes) :
    ∃ beyond', closeGap (done ++ (v :: h :: l :: rest ++ 0 :: beyond)) done.length
      = .ok (done ++ (v :: rest ++ 0 :: beyond')) := by
  obtain ⟨mem, hmem⟩ : ∃ mem, done ++ (v :: h :: l :: rest ++ 0 :: beyond) = mem := ⟨_, rfl⟩
  have hstart : strlen mem done.length = rest.length + 3 := by
    rw [← hmem, strlen_append]
    · rfl
    · simp [hv.symm, hh.symm, hl.symm, hrest]
  have hsource : strlen mem (done.length + 3) = rest.length := by
    have hstring := strlen_append (done ++ [v, h, l]) hrest beyond
    rw [List.length_append] at hstring
    rw [← hmem]
    simpa using hstring
  have hmoved : memmove mem (done.length + 1) (done.length + 3) (rest.length + 1)
      = done ++ (v :: rest ++ 0 :: ([h, l] ++ (rest ++ [0]) ++ beyond).drop (rest.length + 1)) := by
    have hblock := memmove_block (done ++ [v]) [h, l] (rest ++ [0]) beyond
    simp only [List.length_append, List.length_cons, List.length_nil, Nat.add_assoc,
      List.append_assoc, List.cons_append, List.nil_append] at hblock ⊢
    rw [← hmem]
    exact hblock
  refine ⟨([h, l] ++ (rest ++ [0]) ++ beyond).drop (rest.length + 1), ?_⟩
  rw [hmem, closeGap, hstart, hsource, if_neg (by omega), ← hmoved]
  congr 2
  omega

theorem closeGap_zero (done rest : Bytes) :
    closeGap (done ++ (0 :: rest)) done.length = .error .outOfBounds := by
  have hlen : strlen (done ++ (0 :: rest)) done.length = 0 :=
    strlen_append done List.not_mem_nil rest
  simp [closeGap, hlen]

theorem getD_behind (done tail : Bytes) (k : Nat) :
    (done ++ tail).getD (done.length + k) 0 = tail.getD k 0 := by
  rw [List.getD_append_right _ _ _ _ (Nat.le_add_right _ _), Nat.add_sub_cancel_left]

theorem decodeTurn_behind (done : Bytes) (c : UInt8) (tail : Bytes) :
    decodeTurn ⟨done ++ c :: tail, done.length⟩ =
      if c = 0 then .ok (.leave (done ++ c :: tail))
      else if c = ascii '%' ∧ tail.getD 0 0 ≠ 0 ∧ tail.getD 1 0 ≠ 0 then do
        let mem ← closeGap (done ++ hexToAscii (tail.getD 0 0) (tail.getD 1 0) :: tail) done.length
        .ok (.again ⟨mem, done.length + 1⟩)
      else .ok (.again ⟨done ++ c :: tail, done.length + 1⟩) := by
  have hc : (done ++ c :: tail).getD done.length 0 = c := getD_behind done (c :: tail) 0
  have hh : (done ++ c :: tail).getD (done.length + 1) 0 = tail.getD 0 0 :=
    getD_behind done (c :: tail) 1
  have hl : (done ++ c :: tail).getD (done.length + 2) 0 = tail.getD 1 0 :=
    getD_behind done (c :: tail) 2
  have hset : ∀ v, (done ++ c :: tail).set done.length v = done ++ v :: tail := by
    intro v
    rw [List.set_append_right _ _ (Nat.le_refl _), Nat.sub_self, List.set_cons_zero]
  simp only [decodeTurn, hc, hh, hl, hset]

theorem agree_map {α β γ : Type*} {post : α → γ → Prop} {f : β → γ} {x : Except Stop α}
    {y : Except Stop β} (h : Agree (fun a b => post a (f b)) x y) : Agree post x (y.map f) := by
  cases x with
  | error stop =>
      cases y with
      | error stop' => exact h
      | ok b => exact h.elim
  | ok a =>
      cases y with
      | error stop' => exact h.elim
      | ok b => exact h

theorem run_decodeTurn_behind {s : Decoding} {done rest beyond : Bytes} {v : UInt8} {fuel : Nat}
    (hturn : decodeTurn s = .ok (.again ⟨done ++ (v :: rest ++ 0 :: beyond), done.length + 1⟩))
    (hagree : Agree (fun mem decoded => ∃ beyond', mem = (done ++ [v]) ++ (decoded ++ 0 :: beyond'))
      (run decodeTurn fuel ⟨(done ++ [v]) ++ (rest ++ 0 :: beyond), (done ++ [v]).length⟩)
      (percentDecode rest)) :
    Agree (fun mem decoded => ∃ beyond', mem = done ++ (decoded ++ 0 :: beyond'))
      (run decodeTurn (fuel + 1) s) ((percentDecode rest).map (v :: ·)) := by
  rw [run_succ_again fuel hturn]
  apply agree_map
  simpa using hagree

theorem run_decodeTurn {rest : Bytes} (hrest : (0 : UInt8) ∉ rest) (done beyond : Bytes)
    {fuel : Nat} (hfuel : rest.length < fuel) :
    Agree (fun mem decoded => ∃ beyond', mem = done ++ (decoded ++ 0 :: beyond'))
      (run decodeTurn fuel ⟨done ++ (rest ++ 0 :: beyond), done.length⟩) (percentDecode rest) := by
  obtain ⟨fuel, rfl⟩ := Nat.exists_eq_succ_of_ne_zero (Nat.ne_of_gt (Nat.zero_lt_of_lt hfuel))
  induction rest using percentDecode.induct generalizing done beyond fuel with
  | case1 =>
      have hturn : decodeTurn ⟨done ++ ([] ++ 0 :: beyond), done.length⟩
          = .ok (.leave (done ++ ([] ++ 0 :: beyond))) := by
        rw [List.nil_append, decodeTurn_behind, if_pos rfl]
      rw [run_succ_leave fuel hturn]
      exact ⟨beyond, rfl⟩
  | case2 h l rest hzero =>
      simp only [List.mem_cons, not_or] at hrest
      obtain ⟨hc, hh, hl, hrest⟩ := hrest
      have hturn : decodeTurn ⟨done ++ (ascii '%' :: h :: l :: rest ++ 0 :: beyond), done.length⟩
          = .error .outOfBounds := by
        simp only [List.cons_append, decodeTurn_behind, List.getD_cons_zero, List.getD_cons_succ,
          hzero, closeGap_zero, error_bind]
        rw [if_neg (Ne.symm hc), if_pos ⟨trivial, Ne.symm hh, Ne.symm hl⟩]
      rw [run_succ_error fuel hturn, percentDecode, if_pos rfl, if_pos hzero]
      rfl
  | case3 h l rest hzero ih =>
      simp only [List.mem_cons, not_or] at hrest
      obtain ⟨hc, hh, hl, hrest⟩ := hrest
      obtain ⟨beyond', hgap⟩ := @closeGap_holds done rest (hexToAscii h l) h l hzero (Ne.symm hh)
        (Ne.symm hl) hrest beyond
      have hturn : decodeTurn ⟨done ++ (ascii '%' :: h :: l :: rest ++ 0 :: beyond), done.length⟩
          = .ok (.again ⟨done ++ (hexToAscii h l :: rest ++ 0 :: beyond'), done.length + 1⟩) := by
        simp only [List.cons_append, decodeTurn_behind, List.getD_cons_zero,
          List.getD_cons_succ] at hgap ⊢
        rw [if_neg (Ne.symm hc), if_pos ⟨trivial, Ne.symm hh, Ne.symm hl⟩, hgap, ok_bind]
      rw [percentDecode, if_pos rfl, if_neg hzero]
      obtain ⟨fuel, rfl⟩ := Nat.exists_eq_succ_of_ne_zero
        (Nat.ne_of_gt (by simp at hfuel; omega : 0 < fuel))
      refine run_decodeTurn_behind hturn (ih hrest (done ++ [hexToAscii h l]) beyond' fuel ?_)
      simp at hfuel
      omega
  | case4 c h l rest hother ih =>
      obtain ⟨hc, hrest⟩ := not_or.mp (List.mem_cons.not.mp hrest)
      have hturn : decodeTurn ⟨done ++ (c :: h :: l :: rest ++ 0 :: beyond), done.length⟩
          = .ok (.again ⟨done ++ (c :: (h :: l :: rest) ++ 0 :: beyond), done.length + 1⟩) := by
        rw [List.cons_append, decodeTurn_behind, if_neg (Ne.symm hc),
          if_neg (fun heq => hother heq.1)]
      rw [percentDecode, if_neg hother]
      obtain ⟨fuel, rfl⟩ := Nat.exists_eq_succ_of_ne_zero
        (Nat.ne_of_gt (by simp at hfuel; omega : 0 < fuel))
      exact run_decodeTurn_behind hturn (ih hrest (done ++ [c]) beyond fuel (by simpa using hfuel))
  | case5 c rest hshort ih =>
      obtain ⟨hc, hrest⟩ := not_or.mp (List.mem_cons.not.mp hrest)
      have hturn : decodeTurn ⟨done ++ (c :: rest ++ 0 :: beyond), done.length⟩
          = .ok (.again ⟨done ++ (c :: rest ++ 0 :: beyond), done.length + 1⟩) := by
        rw [List.cons_append, decodeTurn_behind, if_neg (Ne.symm hc), if_neg]
        rintro ⟨-, hh, hl⟩
        rcases rest with _ | ⟨h, _ | ⟨l, rest⟩⟩
        · simp at hh
        · simp at hl
        · exact hshort h l rest rfl
      rw [percentDecode]
      · obtain ⟨fuel, rfl⟩ := Nat.exists_eq_succ_of_ne_zero
          (Nat.ne_of_gt (by simp at hfuel; omega : 0 < fuel))
        exact run_decodeTurn_behind hturn (ih hrest (done ++ [c]) beyond fuel (by simpa using hfuel))
      · exact hshort

/-- The second loop edits the array as `removeParent` edits the text in it. -/
theorem cutTurn_inStep {s mem : Bytes} (h : Holds s mem) :
    Agree (InStep (fun mem s => Holds s mem) (fun mem s => Holds s mem)) (cutTurn mem)
      (removeParent s) := by
  have hstring := cString_of_holds h
  rcases removeParent_cases s with ⟨hclean, hturn⟩ | ⟨pre, post, rfl, hfind, hturn⟩
  · rw [cutTurn, hstring, strstr_eq_none_iff.mpr hclean, hturn]
    exact h
  · obtain ⟨hs, beyond, rfl⟩ := h
    have hpost : (0 : UInt8) ∉ pre ∧ (0 : UInt8) ∉ post := by
      simp only [List.mem_append, not_or] at hs
      exact ⟨hs.1.1, hs.2⟩
    obtain ⟨beyond', hgap⟩ := @closeGap_holds pre post (ascii '/') (ascii '.') (ascii '.')
      (by decide) (by decide) (by decide) hpost.2 beyond
    have hmem : pre ++ text "/.." ++ post ++ 0 :: beyond
        = pre ++ (ascii '/' :: ascii '.' :: ascii '.' :: post ++ 0 :: beyond) := by
      simp [text]
    rw [cutTurn, hstring, hfind, hturn]
    simp only [hmem, hgap, ok_bind]
    refine ⟨?_, beyond', by simp [text]⟩
    simp only [List.mem_append, not_or]
    exact ⟨⟨hpost.1, by decide⟩, hpost.2⟩

theorem percentDecode_cases {s : Bytes} (hs : (0 : UInt8) ∉ s) :
    ((0 : UInt8) ∉ unescape s ∧ percentDecode s = .ok (unescape s)) ∨
      ((0 : UInt8) ∈ unescape s ∧ percentDecode s = .error .outOfBounds) := by
  induction s using percentDecode.induct with
  | case1 => exact .inl ⟨by simp [unescape], rfl⟩
  | case2 h l rest hzero =>
      right
      rw [unescape, percentDecode, if_pos rfl, if_pos rfl, if_pos hzero, hzero]
      exact ⟨List.mem_cons_self, rfl⟩
  | case3 h l rest hzero ih =>
      have hrest : (0 : UInt8) ∉ rest := fun hmem => hs (by simp [hmem])
      rw [unescape, percentDecode, if_pos rfl, if_pos rfl, if_neg hzero]
      rcases ih hrest with ⟨hfree, hok⟩ | ⟨hmem, herror⟩
      · left
        exact ⟨List.not_mem_cons_of_ne_of_not_mem (Ne.symm hzero) hfree, by rw [hok]; rfl⟩
      · right
        exact ⟨List.mem_cons_of_mem _ hmem, by rw [herror]; rfl⟩
  | case4 c h l rest hother ih =>
      obtain ⟨hc, hrest⟩ := not_or.mp (List.mem_cons.not.mp hs)
      rw [unescape, percentDecode, if_neg hother, if_neg hother]
      rcases ih hrest with ⟨hfree, hok⟩ | ⟨hmem, herror⟩
      · left
        exact ⟨List.not_mem_cons_of_ne_of_not_mem hc hfree, by rw [hok]; rfl⟩
      · right
        exact ⟨List.mem_cons_of_mem _ hmem, by rw [herror]; rfl⟩
  | case5 c rest hshort ih =>
      obtain ⟨hc, hrest⟩ := not_or.mp (List.mem_cons.not.mp hs)
      rw [unescape, percentDecode]
      · rcases ih hrest with ⟨hfree, hok⟩ | ⟨hmem, herror⟩
        · left
          exact ⟨List.not_mem_cons_of_ne_of_not_mem hc hfree, by rw [hok]; rfl⟩
        · right
          exact ⟨List.mem_cons_of_mem _ hmem, by rw [herror]; rfl⟩
      · exact hshort
      · exact hshort

/-- Edited in place, the string is what `hexConvertStringToAscii` makes of it. -/
theorem hexConvertInPlace_agrees {s : Bytes} (hs : (0 : UInt8) ∉ s) (beyond : Bytes) :
    Agree (fun mem result => Holds result mem) (hexConvertInPlace (s ++ 0 :: beyond))
      (hexConvertStringToAscii s) := by
  have hdecodes := @run_decodeTurn s hs [] beyond (s.length + 1) (Nat.lt_succ_self _)
  have hlength : strlen (s ++ 0 :: beyond) 0 = s.length := strlen_append [] hs beyond
  rw [hexConvertInPlace, hexConvertStringToAscii, hlength]
  simp only [List.nil_append, List.length_nil] at hdecodes
  rcases percentDecode_cases hs with ⟨hfree, hok⟩ | ⟨-, herror⟩
  · rw [hok] at hdecodes ⊢
    cases hrun : run decodeTurn (s.length + 1) ⟨s ++ 0 :: beyond, 0⟩ with
    | error stop =>
        rw [hrun] at hdecodes
        exact hdecodes.elim
    | ok mem =>
        rw [hrun] at hdecodes
        obtain ⟨beyond', rfl⟩ := hdecodes
        rw [ok_bind, ok_bind]
        have hlength' : strlen (unescape s ++ 0 :: beyond') 0 = (unescape s).length :=
          strlen_append [] hfree beyond'
        rw [hlength']
        exact run_simulation (fun mem s => Holds s mem) (fun mem s => Holds s mem)
          (fun mem s h => cutTurn_inStep h) ⟨hfree, beyond', rfl⟩ _
  · rw [herror] at hdecodes ⊢
    cases hrun : run decodeTurn (s.length + 1) ⟨s ++ 0 :: beyond, 0⟩ with
    | error stop =>
        rw [hrun] at hdecodes
        exact hdecodes
    | ok mem =>
        rw [hrun] at hdecodes
        exact hdecodes.elim

end InPlace

section Removal

/-- One `/..` is cut back to its slash. -/
def CutsBack (s s' : Bytes) : Prop :=
  ∃ pre post, s = pre ++ text "/.." ++ post ∧ s' = pre ++ text "/" ++ post

/-- One `/..` is removed. -/
def Removes (s s' : Bytes) : Prop := ∃ pre post, s = pre ++ text "/.." ++ post ∧ s' = pre ++ post

/-- `s` with `/..` removed until none is left. -/
def Cleaned (s result : Bytes) : Prop :=
  Relation.ReflTransGen Removes s result ∧ ¬ text "/.." <:+: result

theorem length_le_of_cutsBack {s result : Bytes} (h : Relation.ReflTransGen CutsBack s result) :
    result.length ≤ s.length := by
  induction h with
  | refl => exact Nat.le_refl _
  | tail hbefore hstep ih =>
      obtain ⟨pre, post, rfl, rfl⟩ := hstep
      refine Nat.le_trans ?_ ih
      simp [text]

theorem length_unescape_le (s : Bytes) : (unescape s).length ≤ s.length := by
  induction s using unescape.induct with
  | case1 => exact Nat.le_refl _
  | case2 h l rest ih =>
      rw [unescape, if_pos rfl]
      simp only [List.length_cons]
      omega
  | case3 c h l rest hother ih =>
      rw [unescape, if_neg hother]
      simp only [List.length_cons] at ih ⊢
      omega
  | case4 c rest hshort ih =>
      rw [unescape]
      · simp only [List.length_cons]
        omega
      · exact hshort

theorem eq_of_steps_of_clean {step : Bytes → Bytes → Prop} {s result : Bytes}
    (hstep : ∀ s s', step s s' → text "/.." <:+: s) (h : Relation.ReflTransGen step s result)
    (hclean : ¬ text "/.." <:+: s) : s = result := by
  rcases Relation.ReflTransGen.cases_head h with rfl | ⟨next, hfirst, -⟩
  · rfl
  · exact absurd (hstep _ _ hfirst) hclean

theorem infix_of_cutsBack (s s' : Bytes) : CutsBack s s' → text "/.." <:+: s := by
  rintro ⟨pre, post, rfl, -⟩
  exact ⟨pre, post, rfl⟩

theorem infix_of_removes (s s' : Bytes) : Removes s s' → text "/.." <:+: s := by
  rintro ⟨pre, post, rfl, -⟩
  exact ⟨pre, post, rfl⟩

theorem parent_behind {c a b : Bytes} (h : text "/.." ++ a = c ++ (text "/.." ++ b))
    (hne : c ≠ []) : ∃ d, c = text "/.." ++ d ∧ a = d ++ (text "/.." ++ b) := by
  rcases c with _ | ⟨x, _ | ⟨y, _ | ⟨z, d⟩⟩⟩
  · exact absurd rfl hne
  · simp [text, ascii] at h
  · simp [text, ascii] at h
  · obtain ⟨hxyz, ha⟩ := @List.append_inj _ (text "/..") [x, y, z] a _ h rfl
    exact ⟨d, by rw [hxyz]; rfl, ha⟩

theorem removes_apart (a d b : Bytes) :
    Removes (a ++ (d ++ (text "/.." ++ b))) (a ++ (d ++ b)) ∧
      Removes (a ++ (text "/.." ++ d) ++ b) (a ++ (d ++ b)) :=
  ⟨⟨a ++ d, b, by simp, by simp⟩, a, d ++ b, by simp, rfl⟩

theorem removes_diamond {s t u : Bytes} (ht : Removes s t) (hu : Removes s u) :
    ∃ v, Relation.ReflGen Removes t v ∧ Relation.ReflTransGen Removes u v := by
  obtain ⟨pre, post, rfl, rfl⟩ := ht
  obtain ⟨pre', post', hsplit, rfl⟩ := hu
  rw [List.append_assoc, List.append_assoc] at hsplit
  rcases List.append_eq_append_iff.mp hsplit with ⟨c, rfl, heq⟩ | ⟨c, rfl, heq⟩
  · rcases eq_or_ne c [] with rfl | hne
    · obtain rfl : post = post' := List.append_cancel_left heq
      exact ⟨_, .refl, by rw [List.append_nil]⟩
    · obtain ⟨d, rfl, rfl⟩ := parent_behind heq hne
      obtain ⟨hlater, hearlier⟩ := removes_apart pre d post'
      exact ⟨_, .single hlater, .single hearlier⟩
  · rcases eq_or_ne c [] with rfl | hne
    · obtain rfl : post' = post := List.append_cancel_left heq
      exact ⟨_, .refl, by rw [List.append_nil]⟩
    · obtain ⟨d, rfl, rfl⟩ := parent_behind heq hne
      obtain ⟨hlater, hearlier⟩ := removes_apart pre' d post
      exact ⟨_, .single hearlier, .single hlater⟩

/-- In whatever order they are removed, what is left is the same. -/
theorem cleaned_unique {s result result' : Bytes} (h : Cleaned s result) (h' : Cleaned s result') :
    result = result' := by
  obtain ⟨v, hv, hv'⟩ := Relation.church_rosser (fun _ _ _ => removes_diamond) h.1 h'.1
  rw [eq_of_steps_of_clean infix_of_removes hv h.2, eq_of_steps_of_clean infix_of_removes hv' h'.2]

theorem slashes_of_cutsBack {s result : Bytes} (h : Relation.ReflTransGen CutsBack s result) :
    result.count (ascii '/') = s.count (ascii '/') := by
  induction h with
  | refl => rfl
  | tail hbefore hstep ih =>
      obtain ⟨pre, post, rfl, rfl⟩ := hstep
      have hkept : (text "/..").count (ascii '/') = (text "/").count (ascii '/') := by decide
      rw [← ih]
      simp only [List.count_append, hkept]

theorem slashes_of_removes {s s' : Bytes} (h : Removes s s') :
    s'.count (ascii '/') < s.count (ascii '/') := by
  obtain ⟨pre, post, rfl, rfl⟩ := h
  have hone : (text "/..").count (ascii '/') = 1 := by decide
  simp only [List.count_append, hone]
  omega

theorem slashes_le_of_removes {s result : Bytes} (h : Relation.ReflTransGen Removes s result) :
    result.count (ascii '/') ≤ s.count (ascii '/') := by
  induction h with
  | refl => exact Nat.le_refl _
  | tail hbefore hstep ih => exact (slashes_of_removes hstep).le.trans ih

theorem cleaned_iff_of_cutsBack {s result : Bytes} (hcut : Relation.ReflTransGen CutsBack s result)
    (hclean : ¬ text "/.." <:+: result) : Cleaned s result ↔ ¬ text "/.." <:+: s := by
  constructor
  · rintro ⟨hremoves, -⟩ hparent
    rcases Relation.ReflTransGen.cases_head hremoves with rfl | ⟨next, hfirst, hrest⟩
    · exact hclean hparent
    · have hkept := slashes_of_cutsBack hcut
      have hfewer := slashes_of_removes hfirst
      have hrest' := slashes_le_of_removes hrest
      omega
  · intro hnone
    obtain rfl := eq_of_steps_of_clean infix_of_cutsBack hcut hnone
    exact ⟨.refl, hclean⟩

end Removal

/-- Short of an escape that reads NUL the string ends as its decoding, every `/..` cut back
to its slash. -/
theorem hexConvertInPlace_cutsBack {s : Bytes} (hs : (0 : UInt8) ∉ s) (beyond : Bytes)
    (hfree : (0 : UInt8) ∉ unescape s) :
    ∃ mem result, hexConvertInPlace (s ++ 0 :: beyond) = .ok mem ∧ Holds result mem ∧
      Relation.ReflTransGen CutsBack (unescape s) result ∧ ¬ text "/.." <:+: result := by
  have hagrees := hexConvertInPlace_agrees hs beyond
  rcases percentDecode_cases hs with ⟨-, hok⟩ | ⟨hmem, -⟩
  · obtain ⟨result, hresult⟩ := (hexConvertStringToAscii_returns_iff s).mpr ⟨_, hok⟩
    obtain ⟨hcut, hclean⟩ := hexConvertStringToAscii_invariant
      (Relation.ReflTransGen CutsBack (unescape s))
      (fun pre post hcuts => hcuts.tail ⟨pre, post, rfl, rfl⟩) hok .refl hresult
    rw [hresult] at hagrees
    cases hrun : hexConvertInPlace (s ++ 0 :: beyond) with
    | error stop =>
        rw [hrun] at hagrees
        exact hagrees.elim
    | ok mem =>
        rw [hrun] at hagrees
        exact ⟨mem, result, rfl, hagrees, hcut, hclean⟩
  · exact absurd hmem hfree

theorem hexConvertInPlace_escapes_nul {s : Bytes} (hs : (0 : UInt8) ∉ s) (beyond : Bytes)
    (hmem : (0 : UInt8) ∈ unescape s) :
    hexConvertInPlace (s ++ 0 :: beyond) = .error .outOfBounds := by
  have hagrees := hexConvertInPlace_agrees hs beyond
  rcases percentDecode_cases hs with ⟨hfree, -⟩ | ⟨-, herror⟩
  · exact absurd hmem hfree
  · rw [hexConvertStringToAscii, herror] at hagrees
    cases hrun : hexConvertInPlace (s ++ 0 :: beyond) with
    | error stop =>
        rw [hrun] at hagrees
        exact congrArg _ hagrees
    | ok mem =>
        rw [hrun] at hagrees
        exact hagrees.elim

/-- The URI decoder comes back with the escapes read and every `/..` removed, having moved
no more than the string it edits, exactly when no escape reads NUL and there is no `/..` to
remove. -/
theorem hexConvertInPlace_safe_iff {s : Bytes} (hs : (0 : UInt8) ∉ s) (beyond : Bytes) :
    (∃ mem result, hexConvertInPlace (s ++ 0 :: beyond) = .ok mem ∧ Holds result mem ∧
        result.length ≤ s.length ∧ Cleaned (unescape s) result) ↔
      (0 : UInt8) ∉ unescape s ∧ ¬ text "/.." <:+: unescape s := by
  by_cases hfree : (0 : UInt8) ∈ unescape s
  · refine iff_of_false ?_ (fun h => h.1 hfree)
    rintro ⟨mem, result, hrun, -⟩
    rw [hexConvertInPlace_escapes_nul hs beyond hfree] at hrun
    cases hrun
  · obtain ⟨mem, result, hrun, hholds, hcut, hclean⟩ :=
      hexConvertInPlace_cutsBack hs beyond hfree
    rw [and_iff_right hfree, ← cleaned_iff_of_cutsBack hcut hclean]
    constructor
    · rintro ⟨mem', result', hrun', hholds', -, hcleaned⟩
      obtain rfl := Except.ok.inj (hrun.symm.trans hrun')
      rwa [← cString_of_holds hholds, cString_of_holds hholds']
    · intro hcleaned
      exact ⟨mem, result, hrun, hholds,
        (length_le_of_cutsBack hcut).trans (length_unescape_le s), hcleaned⟩

theorem hexConvertInPlace_safe_nested :
    ∃ mem result, hexConvertInPlace (text "/a%2Fb.%2e./%" ++ 0 :: []) = .ok mem ∧
      Holds result mem ∧ result.length ≤ (text "/a%2Fb.%2e./%").length ∧
      Cleaned (unescape (text "/a%2Fb.%2e./%")) result :=
  (hexConvertInPlace_safe_iff (by decide) []).mpr (by decide)

/-- `%00` ends the string under the scan, and the move is two bytes short of nothing. -/
theorem hexConvertInPlace_escaped_nul :
    (0 : UInt8) ∉ text "%00" ∧
      hexConvertInPlace (text "%00" ++ 0 :: []) = .error .outOfBounds := by
  decide

example : hexConvertInPlace (text "/../x" ++ 0 :: []) = .ok (text "//x" ++ 0 :: text "x" ++ [0]) := by
  decide

section Target

/-- A percent sign with two characters behind it. -/
def HasEscape (s : Bytes) : Prop := ∃ pre h l post, s = pre ++ ascii '%' :: h :: l :: post

theorem hasEscape_cons_iff {c : UInt8} (hc : c ≠ ascii '%') (s : Bytes) :
    HasEscape (c :: s) ↔ HasEscape s := by
  constructor
  · rintro ⟨pre, h, l, post, heq⟩
    cases pre with
    | nil => exact absurd (List.cons.inj heq).1 hc
    | cons x pre => exact ⟨pre, h, l, post, (List.cons.inj heq).2⟩
  · rintro ⟨pre, h, l, post, rfl⟩
    exact ⟨c :: pre, h, l, post, rfl⟩

theorem two_lt_length_of_hasEscape {s : Bytes} (h : HasEscape s) : 2 < s.length := by
  obtain ⟨pre, h, l, post, rfl⟩ := h
  simp only [List.length_append, List.length_cons]
  omega

theorem unescape_cases (s : Bytes) :
    (¬ HasEscape s ∧ percentDecode s = .ok s) ∨
      (HasEscape s ∧ (unescape s).length < s.length) := by
  induction s using percentDecode.induct with
  | case1 => exact .inl ⟨fun h => absurd (two_lt_length_of_hasEscape h) (by simp), rfl⟩
  | case2 h l rest hzero =>
      right
      refine ⟨⟨[], h, l, rest, rfl⟩, ?_⟩
      rw [unescape, if_pos rfl]
      have hle := length_unescape_le rest
      simp only [List.length_cons]
      omega
  | case3 h l rest hzero ih =>
      right
      refine ⟨⟨[], h, l, rest, rfl⟩, ?_⟩
      rw [unescape, if_pos rfl]
      have hle := length_unescape_le rest
      simp only [List.length_cons]
      omega
  | case4 c h l rest hother ih =>
      rw [hasEscape_cons_iff hother, percentDecode, unescape, if_neg hother, if_neg hother]
      rcases ih with ⟨hnone, hsame⟩ | ⟨hsome, hless⟩
      · left
        exact ⟨hnone, by rw [hsame]; rfl⟩
      · right
        exact ⟨hsome, by simpa using hless⟩
  | case5 c rest hshort ih =>
      have hlength : rest.length < 2 := by
        rcases rest with _ | ⟨h, _ | ⟨l, rest⟩⟩
        · simp
        · simp
        · exact (hshort h l rest rfl).elim
      left
      refine ⟨fun h => ?_, ?_⟩
      · have hlong := two_lt_length_of_hasEscape h
        simp only [List.length_cons] at hlong
        omega
      · rw [percentDecode]
        · rcases ih with ⟨-, hsame⟩ | ⟨hsome, -⟩
          · rw [hsame]
            rfl
          · have hlong := two_lt_length_of_hasEscape hsome
            omega
        · exact hshort

theorem length_le_of_hexConvert {s result : Bytes}
    (h : hexConvertStringToAscii s = .ok result) : result.length ≤ (unescape s).length := by
  obtain ⟨decoded, hdecoded⟩ := (hexConvertStringToAscii_returns_iff s).mp ⟨result, h⟩
  have hcut := hexConvertStringToAscii_invariant (Relation.ReflTransGen CutsBack decoded)
    (fun pre post hcuts => hcuts.tail ⟨pre, post, rfl, rfl⟩) hdecoded .refl h
  rw [← percentDecode_eq_unescape hdecoded]
  exact length_le_of_cutsBack hcut.1

theorem hexConvert_of_clean {s decoded : Bytes} (hdecoded : percentDecode s = .ok decoded)
    (hclean : ¬ text "/.." <:+: decoded) : hexConvertStringToAscii s = .ok decoded := by
  obtain ⟨result, hresult⟩ := (hexConvertStringToAscii_returns_iff s).mpr ⟨_, hdecoded⟩
  have hsame := hexConvertStringToAscii_invariant (· = decoded)
    (fun pre post heq => absurd ⟨pre, post, heq⟩ hclean) hdecoded rfl hresult
  rw [hresult, hsame.1]

end Target

end Newth.Server.UriDecoder
