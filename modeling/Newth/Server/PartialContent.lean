import Newth.Server.Handlers

namespace Newth.Server.PartialContent

open Newth.Library.ByteString
open Newth.Library.Call
open Newth.Library.Numeral
open Newth.Server.Handlers
open Newth.Server.HttpHeader
open Newth.Server.Routines
open Newth.Server.Sendbufr

/-- One call of `FileRoutineContinue`, and out once it returns zero. -/
def sendTurn (s : Routine × Channel) :
    Except Stop (Turn (Routine × Channel) (Routine × Channel)) :=
  match s.1.type with
  | .file file => do
      let (routine, channel, written) ← fileRoutineContinue s.1 file s.2
      .ok (if written = 0 then .leave (routine, channel) else .again (routine, channel))
  | _ => .ok (.leave s)

/-- The routine a handler has added sends `body` after what is already written. -/
def SendsBody (handled : Handled) (body : Bytes) : Prop :=
  ∀ routine ∈ handled.added, ∃ fuel final,
    run sendTurn fuel (routine, handled.link.channel) = .ok final ∧
      Link.carried ⟨final.1.socketBuffer, final.2⟩ = handled.link.carried ++ body

/-- A response head with these numbers in its last two lines. -/
def PartialHead (head : Bytes) (first last total length : Nat) : Prop :=
  ∃ before, head = before ++ text "Content-Length: " ++ numeral 10 length ++ httpEol ++
    text "Content-Range: bytes " ++ numeral 10 first ++ text "-" ++ numeral 10 last ++
    text "/" ++ numeral 10 total ++ httpEol ++ httpEol

/-- The head names a range of the file, and the body is that range. -/
def SelfConsistent (content : Bytes) (handled : Handled) : Prop :=
  ∃ first last total length,
    PartialHead handled.link.carried first last total length ∧
      total = content.length ∧ first ≤ last ∧ last < content.length ∧
      length = last - first + 1 ∧
      SendsBody handled ((content.drop first).take length)

theorem partialHead_inj {head : Bytes} {first last total length first' last' total' length' : Nat}
    (h : PartialHead head first last total length)
    (h' : PartialHead head first' last' total' length') :
    first = first' ∧ last = last' ∧ total = total' ∧ length = length' := by
  obtain ⟨before, rfl⟩ := h
  obtain ⟨before', hsame⟩ := h'
  have hfree : ∀ c ∈ [ascii '/', ascii '-', ascii ' '], ∀ n, c ∉ numeral 10 n := by
    intro c hc n
    refine notMem_numeral (by decide) (by decide) ?_
    revert c
    exact forall_mem_of_all (by decide)
  have hslash := hfree (ascii '/') (by decide)
  have hdash := hfree (ascii '-') (by decide)
  have hspace := hfree (ascii ' ') (by decide)
  have hlength : text "Content-Length: " = text "Content-Length:" ++ [ascii ' '] := rfl
  have hrange : text "Content-Range: bytes " = text "Content-Range: bytes" ++ [ascii ' '] := rfl
  rw [hlength, hrange, ← List.append_assoc, ← List.append_assoc, ← List.append_assoc,
    ← List.append_assoc] at hsame
  -- the separators are undone from the end of the head
  have htotal := append_sep_append_inj (hslash _) (hslash _)
    (List.append_cancel_right (List.append_cancel_right hsame))
  have hlast := append_sep_append_inj (hdash _) (hdash _) htotal.1
  have hfirst := append_sep_append_inj (hspace _) (hspace _) hlast.1
  have hlen := append_sep_append_inj (hspace _) (hspace _)
    (List.append_cancel_right (List.append_cancel_right hfirst.1))
  have hinj : ∀ {m n}, numeral 10 m = numeral 10 n → m = n :=
    numeral_inj (by decide) (by decide)
  exact ⟨hinj hfirst.2, hinj hlast.2, hinj htotal.2, hinj hlen.2⟩

/-- A file routine that has written the file from `start` on and has up to `stop` to go. -/
def Sending (content : Bytes) (start stop : Nat) (link : Link) (s : Routine × Channel) : Prop :=
  ∃ pos startOffset, s.1.type = .file ⟨⟨content, pos⟩, startOffset, stop⟩ ∧
    start ≤ pos ∧ pos ≤ stop ∧
    Writes ((content.drop start).take (pos - start)) link ⟨s.1.socketBuffer, s.2⟩

/-- How much of the file a file routine has left. -/
def unsent (s : Routine × Channel) : Nat :=
  match s.1.type with
  | .file routine => (routine.endOffset - routine.file.pos).toNat
  | _ => 0

theorem sendTurn_advances {content : Bytes} {start stop : Nat} {link : Link}
    (hstop : stop ≤ content.length) {s : Routine × Channel}
    (hs : Sending content start stop link s) :
    ∃ turn, sendTurn s = .ok turn ∧
      Advances (Sending content start stop link) unsent
        (fun s => Writes ((content.drop start).take (stop - start)) link ⟨s.1.socketBuffer, s.2⟩)
        s turn := by
  obtain ⟨pos, startOffset, htype, hstart, hpos, hwritten⟩ := hs
  obtain ⟨n, self', channel', hn, hcontinue, htype', hwrites⟩ :=
    fileRoutineContinue_writes hwritten.sound ⟨⟨content, pos⟩, startOffset, stop⟩ rfl hpos hstop
  simp only at hn htype' hwrites
  have hstep := hwritten.trans hwrites
  have hsplit : (content.drop start).take (pos - start) ++ (content.drop pos).take n
      = (content.drop start).take (pos + n - start) := by
    have hdrop : content.drop pos = (content.drop start).drop (pos - start) := by
      rw [List.drop_drop, Nat.add_sub_cancel' hstart]
    rw [hdrop, ← List.take_add]
    congr 1
    omega
  rw [hsplit] at hstep
  simp only [sendTurn, htype, hcontinue, ok_bind]
  have hblock : 0 < sbDataSize := by decide
  split
  · rename_i hzero
    obtain rfl : pos = stop := by omega
    rw [hzero, Nat.add_zero] at hstep
    exact ⟨_, rfl, hstep⟩
  · refine ⟨_, rfl, ⟨pos + n, startOffset, htype', by omega, by omega, hstep⟩, ?_⟩
    simp only [unsent, htype, htype']
    omega

theorem fileRoutine_sendsBody {content webPath : Bytes} {link : Link} {start stop : Nat}
    (h : link.Sound) (hstart : start ≤ stop) (hstop : stop ≤ content.length) :
    SendsBody ⟨0, some (fileRoutineNew link.self ⟨content, 0⟩ start stop webPath), link⟩
      ((content.drop start).take (stop - start)) := by
  intro routine hroutine
  obtain rfl : fileRoutineNew link.self ⟨content, 0⟩ start stop webPath = routine := by
    simpa using hroutine
  have hstarts : Sending content start stop link
      (fileRoutineNew link.self ⟨content, 0⟩ start stop webPath, link.channel) := by
    have hseek : File.seekSet ⟨content, 0⟩ start = ⟨content, start⟩ := by
      simp [File.seekSet, Int.not_lt.mpr (Int.natCast_nonneg start)]
    refine ⟨start, start, by rw [fileRoutineNew, hseek], le_rfl, hstart, ?_⟩
    simpa [fileRoutineNew] using Writes.refl h
  obtain ⟨final, hrun, hwrites⟩ := run_total _ unsent
    (fun s hs => sendTurn_advances hstop hs) hstarts (Nat.lt_succ_self _)
  exact ⟨_, final, hrun, hwrites.carried⟩

theorem partialHead_lines (before : Bytes) (first last total length : Int) :
    PartialHead (before ++ contentLengthLine length ++ contentRangeLine first last total ++ httpEol)
      (first % 2 ^ 64).toNat (last % 2 ^ 64).toNat (total % 2 ^ 64).toNat
      (length % 2 ^ 64).toNat :=
  ⟨before, by simp only [contentLengthLine, contentRangeLine, pfOffset, List.append_assoc]⟩

/-- A partial response is self-consistent exactly when its range starts inside the
file and runs to the end of it. -/
theorem handleFile_selfConsistent_iff {world : World} {clientSocket : Nat}
    {sends : List SendResult} {header webPath absolutePath content : Bytes} {type : HttpType}
    {st : FileStat} {start finish : Int}
    (hopen : world.fileOpen absolutePath = some content) (hsize : st.size = content.length)
    (hpositive : 0 < content.length) (hoffset : content.length < 2 ^ 63)
    (hrange : httpHeaderReadRange header 0 0 st.size = some (start, finish))
    (hsends : SendResult.fails ∉ sends) :
    SelfConsistent content
        (handleFile world clientSocket ⟨[], sends⟩ header webPath absolutePath type st) ↔
      0 ≤ start ∧ start < content.length ∧ content.length ≤ finish := by
  obtain ⟨hlow, hhigh, hnonzero, hfinish⟩ := httpHeaderReadRange_bounds (by omega) hrange
  obtain ⟨before, link, hhead, hwrites⟩ :=
    fileHead_range_writes world webPath (new_sound hsends clientSocket []) hrange
  obtain ⟨stop, hstop⟩ : ∃ stop, rangeEnd finish st.size = stop := ⟨_, rfl⟩
  obtain ⟨last, hlast⟩ : ∃ last, (if stop = st.size then stop - 1 else stop) = last := ⟨_, rfl⟩
  rw [hstop] at hhead hwrites
  rw [hlast] at hwrites
  have hlink : (handleFile world clientSocket ⟨[], sends⟩ header webPath absolutePath type
      st).link = link := by
    simp only [handleFile, hopen, hhead]
    split <;> rfl
  have hnumbers := partialHead_lines before start last st.size (stop - start)
  have hcarried : link.carried = before ++ contentLengthLine (stop - start) ++
      contentRangeLine start last st.size ++ httpEol := hwrites.carried
  rw [← hcarried, ← hlink] at hnumbers
  rw [rangeEnd] at hstop
  constructor
  · rintro ⟨first', last', total', length', hpartial, htotal, hle, hinside, hlength, -⟩
    obtain ⟨rfl, rfl, rfl, rfl⟩ := partialHead_inj hnumbers hpartial
    -- an end inside the file would announce one byte less than the range has
    have hwhole : stop = st.size := by
      by_contra hne
      rw [if_neg hne] at hlast
      split at hstop <;> omega
    rw [if_pos hwhole] at hlast
    split at hstop <;> omega
  · rintro ⟨hstart, hinside, htail⟩
    have hwhole : stop = st.size := by
      rw [if_pos (by omega)] at hstop
      exact hstop.symm
    rw [if_pos hwhole] at hlast
    obtain ⟨first, rfl⟩ : ∃ first : Nat, start = first := ⟨start.toNat, by omega⟩
    refine ⟨_, _, _, _, hnumbers, by omega, by omega, by omega, by omega, ?_⟩
    have hcount : ((stop - first) % 2 ^ 64).toNat = content.length - first := by omega
    have hfirst : ((first : Int) % 2 ^ 64).toNat = first := by omega
    rw [hcount, hfirst]
    simp only [handleFile, hopen, hhead]
    split
    · intro routine hroutine
      simp at hroutine
    · rw [hwhole, hsize]
      exact fileRoutine_sendsBody hwrites.sound (by omega) le_rfl

theorem handleFile_selfConsistent_tail :
    SelfConsistent (text "0123456789")
        (handleFile tenDigits 5 ⟨[], [.accepts 3, .wouldBlock]⟩
          (text "GET /a HTTP/1.1\r\nRange: bytes=4-\r\n\r") (text "/a") (text "/srv/a") .httpGet
          ⟨10, 0, .file⟩) ↔
      0 ≤ (4 : Int) ∧ (4 : Int) < (text "0123456789").length ∧
        (text "0123456789").length ≤ (10 : Int) :=
  @handleFile_selfConsistent_iff tenDigits 5 [.accepts 3, .wouldBlock]
    (text "GET /a HTTP/1.1\r\nRange: bytes=4-\r\n\r") (text "/a") (text "/srv/a")
    (text "0123456789") .httpGet ⟨10, 0, .file⟩ 4 10 rfl rfl (by decide) (by decide)
    (by decide) (by decide)

/-- `bytes=2-5` of ten is announced as four positions and three bytes. -/
theorem handleFile_interior_range :
    httpHeaderReadRange (text "GET /a HTTP/1.1\r\nRange: bytes=2-5\r\n\r") 0 0 10 = some (2, 5) ∧
      ¬ SelfConsistent (text "0123456789")
        (handleFile tenDigits 5 ⟨[], []⟩ (text "GET /a HTTP/1.1\r\nRange: bytes=2-5\r\n\r")
          (text "/a") (text "/srv/a") .httpGet ⟨10, 0, .file⟩) := by
  refine ⟨by decide, ?_⟩
  rintro ⟨first, last, total, length, hpartial, -, -, -, hlength, -⟩
  have hlines : PartialHead (handleFile tenDigits 5 ⟨[], []⟩
      (text "GET /a HTTP/1.1\r\nRange: bytes=2-5\r\n\r") (text "/a") (text "/srv/a") .httpGet
      ⟨10, 0, .file⟩).link.carried 2 5 10 3 :=
    ⟨text "HTTP/1.1 206 Partial Content\r\nDate: Thu, 01 Jan 1970 00:00:00 GMT\r\n" ++
      text "Content-Disposition: filename=\"a\"\r\n" ++
      text "Last-Modified: Thu, 01 Jan 1970 00:00:00 GMT\r\nAccept-Ranges: bytes\r\n", by
        decide +kernel⟩
  obtain ⟨rfl, rfl, -, rfl⟩ := partialHead_inj hpartial hlines
  omega

end Newth.Server.PartialContent
