import Newth.Client.Io
import Newth.Server.UriDecoder

namespace Newth.Exchange.RequestLine

open Newth.Client.Io
open Newth.Common.Hex
open Newth.Library.ByteString
open Newth.Library.Call
open Newth.Library.Chunked
open Newth.Server.HttpHeader
open Newth.Server.UriDecoder

/-- What stands behind the path in a request. -/
def afterPath (extra : Option Bytes) : Bytes := httpRes ++ crlf ++ extra.getD [] ++ crlf

theorem ioHttpRequestGenerateGet_eq (path : Bytes) (extra : Option Bytes) :
    ioHttpRequestGenerateGet path extra
      = text "GET" ++ ascii ' ' :: (path ++ ascii ' ' :: afterPath extra) := by
  simp [ioHttpRequestGenerateGet, ioHttpRequestGenerateSend, afterPath, text, ascii]

/-- The server reads the path out of the client's request line exactly when nothing in
it splits the line or reads as an escape. -/
theorem readUri_generateGet_iff {path : Bytes} (hclean : ¬ text "/.." <:+: path)
    (extra : Option Bytes) :
    httpClientReadUri (ioHttpRequestGenerateGet path extra) = .ok (some path) ↔
      ascii ' ' ∉ path ∧ ¬ HasEscape path := by
  have hmethod : ascii ' ' ∉ text "GET" := by decide
  rw [httpClientReadUri_ok_iff, ioHttpRequestGenerateGet_eq]
  by_cases hspace : ascii ' ' ∈ path
  · refine iff_of_false ?_ fun h => h.1 hspace
    obtain ⟨word, rest, rfl, hword⟩ := List.eq_append_cons_of_mem hspace
    rintro ⟨target, htarget, hpath⟩
    rw [List.append_assoc, List.cons_append, requestTarget_append hmethod hword] at htarget
    obtain rfl := Option.some.inj htarget
    have hshort := (length_le_of_hexConvert hpath).trans (length_unescape_le word)
    simp only [List.length_append, List.length_cons] at hshort
    omega
  · simp only [requestTarget_append hmethod hspace, Option.some.injEq, exists_eq_left']
    rcases unescape_cases path with ⟨hnone, hsame⟩ | ⟨hsome, hless⟩
    · exact iff_of_true (hexConvert_of_clean hsame hclean) ⟨hspace, hnone⟩
    · refine iff_of_false ?_ fun h => h.2 hsome
      intro hpath
      have hshort := length_le_of_hexConvert hpath
      omega

theorem readUri_generateGet_percent :
    httpClientReadUri (ioHttpRequestGenerateGet (text "/dir/100%") none)
      = .ok (some (text "/dir/100%")) := by
  refine (readUri_generateGet_iff (by decide) none).mpr ⟨by decide, ?_⟩
  rcases unescape_cases (text "/dir/100%") with ⟨hnone, -⟩ | ⟨-, hless⟩
  · exact hnone
  · exact absurd hless (by decide)

/-- A name with a space ends at it. -/
theorem readUri_generateGet_space :
    ¬ text "/.." <:+: text "/a b" ∧
      httpClientReadUri (ioHttpRequestGenerateGet (text "/a b") none) = .ok (some (text "/a")) := by
  decide

end Newth.Exchange.RequestLine
