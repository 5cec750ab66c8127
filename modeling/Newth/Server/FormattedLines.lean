import Newth.Server.HttpHeader

namespace Newth.Server.FormattedLines

open Newth.Library.ByteString
open Newth.Library.Numeral
open Newth.Server.HttpHeader
open Newth.Server.Sendbufr

/-- The calls of `sendBufferPrintf` in the server with what they print. Dates have
29 characters, and a content type is printed only when its line fits a block. -/
inductive FormattedWrite where
  | range (start finish fileLength : Int)
  | date (clock : Clock) (dated : (cString clock.currentTime).length = 29)
  | contentLength (length : Int)
  | lastModified (clock : Clock) (st : FileStat) (dated : (cString (clock.time st.mtime)).length = 29)
  | contentType (type charSet : Bytes) (admitted : (cString type).length + (cString charSet).length +
      (text "Content-Type: ;" ++ httpEol).length + 1 < sbDataSize)
  | response (str : Bytes)
  | fileName (path : Bytes)

namespace FormattedWrite

/-- The arguments of the call and what its format makes of them. -/
def message : FormattedWrite → Message
  | .range start finish fileLength =>
      ⟨sbDataSize, contentRangeLine start (if finish = fileLength then finish - 1 else finish)
        fileLength⟩
  | .date clock _ => ⟨40, dateLine clock⟩
  | .contentLength length => ⟨80, contentLengthLine length⟩
  | .lastModified clock st _ => ⟨50, lastModifiedLine clock st⟩
  | .contentType type charSet _ =>
      ⟨(cString type).length + (cString charSet).length +
        (text "Content-Type: ;" ++ httpEol).length + 1, contentTypeLine type charSet⟩
  | .response str =>
      ⟨(text "HTTP/1.1").length + str.length + httpEol.length + 2, statusLine str⟩
  | .fileName path => ⟨(HttpHeader.fileName path).length + 40, fileNameLine path⟩

/-- The function that makes the call. -/
def write (link : Link) : FormattedWrite → Link
  | .range start finish fileLength => httpHeaderWriteRange link start finish fileLength
  | .date clock _ => httpHeaderWriteDate link clock
  | .contentLength length => httpHeaderWriteContentLength link length
  | .lastModified clock st _ => httpHeaderWriteLastModified link clock st
  | .contentType type charSet _ => httpHeaderWriteContentType link type charSet
  | .response str => httpHeaderWriteResponseStr link str
  | .fileName path => httpHeaderWriteFileName link path

def isContentType : FormattedWrite → Bool
  | .contentType _ _ _ => true
  | _ => false

theorem write_eq (link : Link) (call : FormattedWrite) :
    call.write link = sendBufferPrintf link call.message := by
  cases call with
  | contentType type charSet admitted => exact if_pos admitted
  | _ => rfl

end FormattedWrite

/-- The text and its terminator fit the block they are printed into. -/
def Fits (message : Message) : Prop := message.text.length + 1 ≤ message.max

theorem length_pfOffset_le (offset : Int) : (pfOffset offset).length ≤ 20 := by
  rw [pfOffset, length_numeral_le_iff (by decide) (by decide)]
  omega

theorem fits_range (first last total : Int) :
    Fits ⟨sbDataSize, contentRangeLine first last total⟩ := by
  have hfirst := length_pfOffset_le first
  have hlast := length_pfOffset_le last
  have htotal := length_pfOffset_le total
  have hname : (text "Content-Range: bytes ").length = 21 := rfl
  simp only [Fits, contentRangeLine, List.length_append, hname, sbDataSize, httpEol,
    List.length_cons, List.length_nil]
  have hdash : (text "-").length = 1 := rfl
  have hslash : (text "/").length = 1 := rfl
  omega

theorem fits_contentLength (length : Int) : Fits ⟨80, contentLengthLine length⟩ := by
  have hlength := length_pfOffset_le length
  have hname : (text "Content-Length: ").length = 16 := rfl
  simp only [Fits, contentLengthLine, List.length_append, hname, httpEol, List.length_cons,
    List.length_nil]
  omega

/-- Every call but the one for a content type has room for what it prints. -/
theorem fits_iff (call : FormattedWrite) : Fits call.message ↔ call.isContentType = false := by
  have heol : httpEol.length = 2 := rfl
  cases call with
  | range start finish fileLength => exact iff_of_true (fits_range _ _ _) rfl
  | date clock dated =>
      have hname : (text "Date: ").length = 6 := rfl
      refine iff_of_true ?_ rfl
      simp only [Fits, FormattedWrite.message, dateLine, List.length_append, hname, heol, dated]
      decide
  | contentLength length => exact iff_of_true (fits_contentLength _) rfl
  | lastModified clock st dated =>
      have hname : (text "Last-Modified: ").length = 15 := rfl
      refine iff_of_true ?_ rfl
      simp only [Fits, FormattedWrite.message, lastModifiedLine, List.length_append, hname, heol,
        dated]
      decide
  | contentType type charSet admitted =>
      have hname : (text "Content-Type: ").length = 14 := rfl
      have hblank : (text "; ").length = 2 := rfl
      have hbound : (text "Content-Type: ;").length = 15 := rfl
      refine iff_of_false ?_ (by simp [FormattedWrite.isContentType])
      -- the bound counts one blank and the terminator, the format prints two blanks
      simp only [Fits, FormattedWrite.message, contentTypeLine, List.length_append, hname, hblank,
        hbound, heol]
      omega
  | response str =>
      have hname : (text "HTTP/1.1 ").length = 9 := rfl
      have hbound : (text "HTTP/1.1").length = 8 := rfl
      refine iff_of_true ?_ rfl
      simp only [Fits, FormattedWrite.message, statusLine, List.length_append, hname, hbound, heol]
      omega
  | fileName path =>
      have hname : (text "Content-Disposition: filename=\"").length = 31 := rfl
      have hquote : (text "\"").length = 1 := rfl
      refine iff_of_true ?_ rfl
      simp only [Fits, FormattedWrite.message, fileNameLine, List.length_append, hname, hquote,
        heol]
      omega

/-- The content type of a page does not fit. -/
theorem not_fits_html :
    ¬ Fits (FormattedWrite.contentType (text "text/html") [] (by decide)).message := by
  unfold Fits
  decide

end Newth.Server.FormattedLines
