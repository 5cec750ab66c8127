import Newth.Library.ByteString
import Newth.Library.Call

namespace Newth.Common.Hex

open Newth.Library.ByteString
open Newth.Library.Call

/-- The value `HexToAscii` folds in for one character; what is no hex digit
contributes its low four bits. -/
def hexDigit (ch : UInt8) : UInt8 :=
  (if ascii '0' ≤ ch ∧ ch ≤ ascii '9' then ch - ascii '0'
    else if ascii 'a' ≤ ch ∧ ch ≤ ascii 'f' then ch - ascii 'a' + 10
    else if ascii 'A' ≤ ch ∧ ch ≤ ascii 'F' then ch - ascii 'A' + 10
    else ch) &&& 0xF

def hexToAscii (h l : UInt8) : UInt8 := hexDigit h <<< 4 ||| hexDigit l

/-- The first loop of `hexConvertStringToAscii`. A byte decoded to NUL makes
`strlen(i) - 2` wrap, and `memmove` runs off the string. -/
def percentDecode : Bytes → Except Stop Bytes
  | [] => .ok []
  | c :: h :: l :: rest =>
      if c = ascii '%' then
        if hexToAscii h l = 0 then .error .outOfBounds
        else (percentDecode rest).map (hexToAscii h l :: ·)
      else (percentDecode (h :: l :: rest)).map (c :: ·)
  | c :: rest => (percentDecode rest).map (c :: ·)

/-- One turn of the second loop: the first `/..` becomes `/`. -/
def removeParent (url : Bytes) : Except Stop (Turn Bytes Bytes) :=
  match strstr url (text "/..") with
  | none => .ok (.leave url)
  | some i => .ok (.again (url.take (i + 1) ++ url.drop (i + 3)))

def hexConvertStringToAscii (url : Bytes) : Except Stop Bytes := do
  let url ← percentDecode url
  run removeParent (url.length + 1) url

theorem removeParent_cases (url : Bytes) :
    (¬ text "/.." <:+: url ∧ removeParent url = .ok (.leave url)) ∨
      ∃ pre post, url = pre ++ text "/.." ++ post ∧ strstr url (text "/..") = some pre.length ∧
        removeParent url = .ok (.again (pre ++ text "/" ++ post)) := by
  cases hfind : strstr url (text "/..") with
  | none =>
      left
      exact ⟨strstr_eq_none_iff.mp hfind, by simp only [removeParent, hfind]⟩
  | some i =>
      right
      obtain ⟨pre, post, rfl, rfl⟩ := eq_append_of_strstr hfind
      refine ⟨pre, post, rfl, rfl, ?_⟩
      have htake : (pre ++ text "/.." ++ post).take (pre.length + 1) = pre ++ text "/" := by
        rw [List.append_assoc, List.take_length_add_append]
        rfl
      have hdrop : (pre ++ text "/.." ++ post).drop (pre.length + 3) = post := by
        rw [List.append_assoc, List.drop_length_add_append]
        rfl
      simp only [removeParent, hfind, htake, hdrop]

/-- The second loop always ends, keeps whatever each removal keeps, and leaves no
`/..` behind. -/
theorem run_removeParent (invariant : Bytes → Prop)
    (hstep : ∀ pre post, invariant (pre ++ text "/.." ++ post) →
      invariant (pre ++ text "/" ++ post))
    {url : Bytes} (hurl : invariant url) {fuel : Nat} (hfuel : url.length < fuel) :
    ∃ result, run removeParent fuel url = .ok result ∧
      invariant result ∧ ¬ text "/.." <:+: result := by
  refine run_total invariant List.length ?_ hurl hfuel
  intro s hs
  rcases removeParent_cases s with ⟨hclean, hturn⟩ | ⟨pre, post, rfl, -, hturn⟩
  · exact ⟨_, hturn, hs, hclean⟩
  · refine ⟨_, hturn, hstep pre post hs, ?_⟩
    have hlong : (text "/..").length = 3 := rfl
    have hshort : (text "/").length = 1 := rfl
    simp only [List.length_append, hlong, hshort]
    omega

/-- Whatever each removal preserves holds of the sanitised text, and no `/..` is
left in it. -/
theorem hexConvertStringToAscii_invariant (invariant : Bytes → Prop)
    (hstep : ∀ pre post, invariant (pre ++ text "/.." ++ post) →
      invariant (pre ++ text "/" ++ post))
    {url decoded result : Bytes} (hdecoded : percentDecode url = .ok decoded)
    (hinvariant : invariant decoded) (hresult : hexConvertStringToAscii url = .ok result) :
    invariant result ∧ ¬ text "/.." <:+: result := by
  obtain ⟨result', hrun, hpost⟩ :=
    run_removeParent invariant hstep hinvariant (Nat.lt_succ_self decoded.length)
  simp only [hexConvertStringToAscii, hdecoded, ok_bind, hrun, Except.ok.injEq] at hresult
  exact hresult ▸ hpost

theorem hexConvertStringToAscii_returns_iff (url : Bytes) :
    (∃ result, hexConvertStringToAscii url = .ok result) ↔
      ∃ decoded, percentDecode url = .ok decoded := by
  constructor
  · rintro ⟨result, hresult⟩
    cases hdecoded : percentDecode url with
    | error stop => simp [hexConvertStringToAscii, hdecoded, error_bind] at hresult
    | ok decoded => exact ⟨decoded, rfl⟩
  · rintro ⟨decoded, hdecoded⟩
    obtain ⟨result, hrun, -⟩ := run_removeParent (fun _ => True)
      (fun _ _ _ => trivial) trivial (Nat.lt_succ_self decoded.length)
    exact ⟨result, by simp only [hexConvertStringToAscii, hdecoded, ok_bind, hrun]⟩

example : hexConvertStringToAscii (text "/a%2f/....%2E/b") = .ok (text "/a//./b") := by decide

end Newth.Common.Hex
