import Newth.Library.Numeral

namespace Newth.Library.Chunked

open Newth.Library.ByteString
open Newth.Library.Numeral

def crlf : Bytes := [13, 10]

/-- The line in front of a chunk's data. -/
def sizeLine (data : Bytes) : Bytes := numeral 16 data.length ++ crlf

def chunk (data : Bytes) : Bytes := sizeLine data ++ data ++ crlf

/-- The zero chunk with an empty trailer. -/
def lastChunk : Bytes := text "0" ++ crlf ++ crlf

/-- The chunked transfer coding of a body cut into these pieces. -/
def wire (ds : List Bytes) : Bytes := ds.flatMap chunk ++ lastChunk

theorem wire_cons (d : Bytes) (ds : List Bytes) : wire (d :: ds) = chunk d ++ wire ds := by
  simp [wire]

theorem zero_notMem_sizeLine (data : Bytes) : (0 : UInt8) ∉ sizeLine data := by
  simp only [sizeLine, List.mem_append, not_or]
  exact ⟨notMem_numeral (by decide) (by decide) (by decide), by decide⟩

end Newth.Library.Chunked
