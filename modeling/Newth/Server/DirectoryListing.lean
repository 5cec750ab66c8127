import Mathlib.Data.List.Nodup
import Newth.Server.Multiplex

namespace Newth.Server.DirectoryListing

open Newth.Library.ByteString
open Newth.Library.Call
open Newth.Library.Chunked
open Newth.Library.Runs
open Newth.Server.Handlers
open Newth.Server.HttpBody
open Newth.Server.HttpHeader
open Newth.Server.Multiplex
open Newth.Server.Routines
open Newth.Server.Sendbufr

def visible (entries : List Entry) : List Entry :=
  entries.filter fun entry => !platformDirEntryIsHidden entry

/-- The list item that links to an entry. -/
def entryLink (webPath : Bytes) (entry : Entry) : Bytes :=
  linkText (entryPath webPath entry.name (entry.dType.getD (entry.stat.getD false)))

def pageTitle (webPath : Bytes) : Bytes := if webPath = [] then text "/" else webPath

def listingHead (clock : Clock) (st : FileStat) : Bytes :=
  statusLine (text "200 OK") ++ dateLine clock ++ lastModifiedLine clock st ++
    contentTypeLine (text "text/html") [] ++ chunkedLine ++ httpEol

/-- The chunks of a listing: the top of the page, the crumbs, one link for every
visible entry, and the bottom of the page. -/
def listing (webPath crumbs : Bytes) (entries : List Entry) : List Bytes :=
  [htmlHeaderWrite [] (pageTitle webPath), htmlListStart crumbs] ++
    (visible entries).map (entryLink webPath) ++ [listingEnd (visible entries).length]

/-- A chunk is three writes. -/
def writeChunk (b : Backlog) (data : Bytes) : Backlog :=
  ((b.write (sizeLine data).length).write data.length).write crlf.length

/-- The backlog after the call that finds the end of the directory: the remaining
links, the bottom of the page and the zero chunk are written and flushed twice. -/
def closing (webPath : Bytes) (rest : List Entry) (count : Nat) (b : Backlog) : Backlog :=
  let b := ((visible rest).map (entryLink webPath)).foldl writeChunk b
  let b := writeChunk b (listingEnd (count + (visible rest).length))
  (b.write lastChunk.length).flush.flush

theorem httpBodyWriteChunk_backlog {link : Link} (h : link.Sound) {buffer : Bytes}
    (htext : (0 : UInt8) ∉ buffer) :
    (httpBodyWriteChunk link buffer).1.backlog = writeChunk link.backlog buffer := by
  have hsize := (sendBufferWriteText_writes h (sizeLine buffer)).1
  have hdata := (sendBufferWriteData_writes hsize.sound buffer).1
  have hline : cString (sizeLine buffer) = sizeLine buffer :=
    cString_eq_self (zero_notMem_sizeLine buffer)
  have heol : cString httpEol = crlf := rfl
  simp only [httpBodyWriteChunk, cString_eq_self htext, writeChunk]
  change (sendBufferWriteText (sendBufferWriteData (sendBufferWriteText link
    (sizeLine buffer)).1 buffer).1 httpEol).1.backlog = _
  rw [sendBufferWriteText, heol, sendBufferWriteData_backlog hdata.sound,
    sendBufferWriteData_backlog hsize.sound, sendBufferWriteText, hline,
    sendBufferWriteData_backlog h]

theorem zero_notMem_listingEnd (count : Nat) : (0 : UInt8) ∉ listingEnd count := by
  rw [listingEnd]
  split <;> decide

theorem httpBodyWriteChunkEnding_backlog {link : Link} (h : link.Sound) :
    (httpBodyWriteChunkEnding link).1.backlog
      = (link.backlog.write lastChunk.length).flush := by
  have htext : cString (text "0" ++ httpEol ++ httpEol) = lastChunk := rfl
  obtain ⟨hending, hcount⟩ := sendBufferWriteText_writes h (text "0" ++ httpEol ++ httpEol)
  have hsome : (sendBufferWriteText link (text "0" ++ httpEol ++ httpEol)).2 ≠ 0 := by
    rw [hcount]
    decide
  simp only [httpBodyWriteChunkEnding, if_neg hsome]
  rw [(sendBufferFlush_flushed hending.sound).backlog, sendBufferWriteText, htext,
    sendBufferWriteData_backlog h]

theorem listEnd_writes {link : Link} (h : link.Sound) (count : Nat) :
    Writes (chunk (listingEnd count) ++ lastChunk) link (listEnd link count) ∧
      (listEnd link count).backlog =
        ((writeChunk link.backlog (listingEnd count)).write lastChunk.length).flush.flush := by
  have htext := zero_notMem_listingEnd count
  obtain ⟨hchunk, hsome⟩ := httpBodyWriteChunk_writes h htext
  have hending := httpBodyWriteChunkEnding_writes hchunk.sound
  have hflushed := sendBufferFlush_flushed hending.sound
  have hend : listEnd link count = (sendBufferFlush
      (httpBodyWriteChunkEnding (httpBodyWriteChunk link (listingEnd count)).1).1).1 := by
    simp only [listEnd, Nat.ne_of_gt hsome, ne_eq, not_false_eq_true, if_true]
  rw [hend]
  constructor
  · have hwrites := (hchunk.trans hending).trans hflushed.writes
    rwa [List.append_nil] at hwrites
  · rw [hflushed.backlog, httpBodyWriteChunkEnding_backlog hchunk.sound,
      httpBodyWriteChunk_backlog h htext]

section Entries

variable {webPath : Bytes} {entry : Entry}

theorem zero_notMem_entryPath (hpath : (0 : UInt8) ∉ webPath) (entry : Entry)
    (directory : Bool) : (0 : UInt8) ∉ entryPath webPath entry.name directory := by
  have hname := entry.textual
  have hslash : (0 : UInt8) ≠ ascii '/' := by decide
  have hend : (0 : UInt8) ∉ text "/" := by decide
  simp only [entryPath]
  split <;> split <;> simp [hpath, hname, hslash, hend]

/-- The second look at an entry agrees with the first, unless it faults. -/
theorem platformDirEntryIsDirectory_spec {dir directory directory' : PlatformDir}
    {st : Option Bool} {isDirectory : Bool}
    (hstats : platformDirEntryGetStats entry dir = .ok (directory, st))
    (h : platformDirEntryIsDirectory entry directory = .ok (directory', isDirectory)) :
    isDirectory = entry.dType.getD (entry.stat.getD false) ∧
      directory'.entries = dir.entries := by
  rw [platformDirEntryGetStats] at hstats
  split at hstats
  · simp at hstats
  · rename_i hlive
    cases hstat : entry.stat with
    | none =>
        simp only [hstat, Except.ok.injEq, Prod.mk.injEq] at hstats
        obtain ⟨rfl, -⟩ := hstats
        cases hkind : entry.dType with
        | none => simp [platformDirEntryIsDirectory, platformDirEntryGetStats, hkind] at h
        | some kind =>
            simp only [platformDirEntryIsDirectory, hkind, Except.ok.injEq, Prod.mk.injEq] at h
            obtain ⟨rfl, rfl⟩ := h
            exact ⟨rfl, rfl⟩
    | some kind =>
        simp only [hstat, Except.ok.injEq, Prod.mk.injEq] at hstats
        obtain ⟨rfl, -⟩ := hstats
        cases hkind : entry.dType with
        | none =>
            simp only [platformDirEntryIsDirectory, platformDirEntryGetStats, hkind, hstat, hlive,
              if_false, ok_bind, Except.ok.injEq, Prod.mk.injEq] at h
            obtain ⟨rfl, rfl⟩ := h
            exact ⟨rfl, rfl⟩
        | some kind' =>
            simp only [platformDirEntryIsDirectory, hkind, Except.ok.injEq, Prod.mk.injEq] at h
            obtain ⟨rfl, rfl⟩ := h
            exact ⟨rfl, rfl⟩

theorem listEntry_writes {s s' : Listing} (hsound : s.link.Sound) (hpath : (0 : UInt8) ∉ webPath)
    (hlength : webPath.length < filenameMax) (h : listEntry webPath entry s = .ok s') :
    Writes (chunk (entryLink webPath entry)) s.link s'.link ∧
      s'.link.backlog = writeChunk s.link.backlog (entryLink webPath entry) ∧
      s'.dir.count = s.dir.count + 1 ∧
      s'.dir.directory.entries = s.dir.directory.entries ∧ s.bytesWrite < s'.bytesWrite := by
  rw [listEntry] at h
  obtain ⟨⟨directory, st⟩, hstats, h⟩ := bind_eq_ok_iff.mp h
  have hshort := entry.short
  have hfits : webPath.length + entry.name.length + 3 < bufsiz := by
    rw [filenameMax] at hlength
    rw [bufsiz]
    omega
  simp only at h
  rw [if_pos hfits] at h
  obtain ⟨⟨directory', isDirectory⟩, hkind, h⟩ := bind_eq_ok_iff.mp h
  obtain ⟨rfl, hentries⟩ := platformDirEntryIsDirectory_spec hstats hkind
  obtain ⟨buffer, hbuffer, h⟩ := bind_eq_ok_iff.mp h
  obtain rfl := Except.ok.inj h
  obtain rfl : entryLink webPath entry = buffer := by
    rw [htmlListWritePathLink] at hbuffer
    split at hbuffer
    · simp at hbuffer
    · exact Except.ok.inj hbuffer
  have htext : (0 : UInt8) ∉ entryLink webPath entry :=
    zero_notMem_linkText (zero_notMem_entryPath hpath entry _)
  have hsome : 0 < (entryLink webPath entry).length :=
    List.length_pos_of_ne_nil (linkText_ne_nil _)
  refine ⟨(httpBodyWriteChunk_writes hsound htext).1, httpBodyWriteChunk_backlog hsound htext,
    rfl, hentries, ?_⟩
  simp only
  omega

/-- The chunks of the visible ones among some entries. -/
def links (webPath : Bytes) (entries : List Entry) : Bytes :=
  ((visible entries).map (entryLink webPath)).flatMap chunk

theorem links_append (webPath : Bytes) (done rest : List Entry) :
    links webPath (done ++ rest) = links webPath done ++ links webPath rest := by
  simp [links, visible]

theorem visible_cons_of_hidden {rest : List Entry} (h : platformDirEntryIsHidden entry = true) :
    visible (entry :: rest) = visible rest := by
  simp [visible, h]

theorem visible_cons_of_shown {rest : List Entry} (h : ¬ platformDirEntryIsHidden entry = true) :
    visible (entry :: rest) = entry :: visible rest := by
  simp [visible, h]

/-- A call either lists some more entries, or finds the end of the directory. -/
inductive Batch (webPath : Bytes) (entries : List Entry) (left : Nat) (s : Listing) :
    Listing × Nat → Prop where
  | more {done rest : List Entry} {s' : Listing} {n : Nat} (split : entries = done ++ rest)
      (ahead : s'.dir.directory.entries = rest)
      (count : s'.dir.count = s.dir.count + (visible done).length)
      (writes : Writes (links webPath done) s.link s'.link)
      (written : s.bytesWrite + min left 1 ≤ n) : Batch webPath entries left s (s', n)
  | ended {s' : Listing}
      (writes : Writes (links webPath entries ++
        (chunk (listingEnd (s.dir.count + (visible entries).length)) ++ lastChunk))
        s.link s'.link)
      (backlog : s'.link.backlog = closing webPath entries s.dir.count s.link.backlog) :
      Batch webPath entries left s (s', 0)

theorem listEntries_batch {entries : List Entry} {left : Nat} {s : Listing}
    {result : Listing × Nat} (hsound : s.link.Sound) (hpath : (0 : UInt8) ∉ webPath)
    (hlength : webPath.length < filenameMax) (hentries : s.dir.directory.entries = entries)
    (h : listEntries webPath entries left s = .ok result) :
    Batch webPath entries left s result := by
  have hturns := listEntries_turns h
  clear h
  induction hturns with
  | full =>
      exact .more (List.nil_append _).symm hentries rfl
        (sendBufferFlush_flushed hsound).writes (by simp)
  | ended =>
      obtain ⟨hwrites, hbacklog⟩ := listEnd_writes hsound _
      exact .ended hwrites hbacklog
  | @hidden entry rest left s result live hidden later ih =>
      have hvisible : ∀ entries, visible (entry :: entries) = visible entries :=
        fun entries => visible_cons_of_hidden hidden
      have hrest := ih hsound rfl
      cases hrest with
      | @more done rest s' n hsplit hahead hcount hwrites hwritten =>
          have hall : entry :: _ = (entry :: done) ++ rest := congrArg (entry :: ·) hsplit
          refine .more hall hahead ?_ ?_ hwritten
          · rw [hvisible]
            exact hcount
          · rw [links, hvisible]
            exact hwrites
      | ended hwrites hbacklog =>
          refine .ended ?_ ?_
          · rw [links, hvisible]
            exact hwrites
          · rw [closing, hvisible]
            exact hbacklog
  | @listed entry rest left s s' result live shown listed later ih =>
      have hvisible : ∀ entries, visible (entry :: entries) = entry :: visible entries :=
        fun entries => visible_cons_of_shown shown
      obtain ⟨hlink, hbacklog, hcount, hahead, hless⟩ :=
        @listEntry_writes webPath entry (s.ahead rest) s' hsound hpath hlength listed
      have hpassed : s'.dir.count = s.dir.count + 1 := hcount
      have hmore : s.bytesWrite < s'.bytesWrite := hless
      have hrest := ih hlink.sound hahead
      cases hrest with
      | @more done rest s'' n hsplit hahead' hcount' hwrites hwritten =>
          have hall : entry :: _ = (entry :: done) ++ rest := congrArg (entry :: ·) hsplit
          refine .more hall hahead' ?_ ?_ ?_
          · rw [hvisible, hcount', hpassed, List.length_cons]
            omega
          · rw [links, hvisible]
            exact hlink.trans hwrites
          · omega
      | ended hwrites hbacklog' =>
          have hnumber : s'.dir.count + (visible rest).length
              = s.dir.count + (visible (entry :: rest)).length := by
            rw [hvisible, hpassed, List.length_cons]
            omega
          refine .ended ?_ ?_
          · rw [← hnumber, links, hvisible]
            have hall := hlink.trans hwrites
            rwa [← List.append_assoc] at hall
          · rw [closing, ← hnumber, hvisible]
            rw [closing, hbacklog] at hbacklog'
            exact hbacklog'

end Entries

section Progress

/-- A directory routine that has written the links of the entries it has passed,
after `written`. -/
structure Listed (webPath written : Bytes) (entries : List Entry) (routine : Routine)
    (channel : Channel) : Prop where
  path : routine.webPath = webPath
  progress : ∃ done rest live, entries = done ++ rest ∧
    routine.type = .dir ⟨(visible done).length, ⟨rest, live⟩⟩ ∧
    Link.carried ⟨routine.socketBuffer, channel⟩ = written ++ links webPath done
  sound : Link.Sound ⟨routine.socketBuffer, channel⟩
  state : routine.state = .stateFlush ∨ routine.state = .stateContinue
  options : routine.socketBuffer.options = 0

/-- The socket takes all that is left to write within the last call and its two flushes. -/
def Drains (routine : Routine) (channel : Channel) : Prop :=
  match routine.type with
  | .dir dir =>
      (closing routine.webPath dir.directory.entries dir.count
        (Link.backlog ⟨routine.socketBuffer, channel⟩)).waiting = 0
  | _ => False

variable {webPath written : Bytes} {entries : List Entry} {deferred : List Nat}
  {routine : Routine} {channel : Channel} {t : Ticked}

/-- What a removed routine leaves behind: everything is written, and what the socket
has not taken is dropped. -/
def Ended (webPath written : Bytes) (entries : List Entry) (routine : Routine)
    (channel : Channel) (t : Ticked) : Prop :=
  Link.carried ⟨t.routine.socketBuffer, t.channel⟩ = written ++ (links webPath entries ++
    (chunk (listingEnd (visible entries).length) ++ lastChunk)) ∧
  (Link.pending ⟨t.routine.socketBuffer, t.channel⟩ = [] ↔ Drains routine channel)

theorem advance_listed (hpath : (0 : UInt8) ∉ webPath) (hlength : webPath.length < filenameMax)
    (hlisted : Listed webPath written entries routine channel)
    (h : advance deferred routine channel = .ok t) :
    (t.kept = true ∧ Listed webPath written entries t.routine t.channel) ∨
      (t.kept = false ∧ Ended webPath written entries routine channel t) := by
  obtain ⟨rfl, ⟨done, rest, live, rfl, htype, hcarried⟩, hsound, hstate, hoptions⟩ := hlisted
  have hflushed := (sendBufferFlush_flushed hsound).writes
  rw [advance] at h
  rcases hstate with hstate | hstate
  · simp only [hstate] at h
    left
    split at h
    · have hfine : (sendBufferFlush ⟨routine.socketBuffer, channel⟩).1.self.has errFail = false := by
        rw [SendBuffer.has, hflushed.options, hoptions]
        decide
      simp only [hfine, Bool.false_eq_true, and_false, if_false] at h
      obtain rfl := Except.ok.inj h
      refine ⟨rfl, rfl, ⟨done, rest, live, rfl, htype, ?_⟩, hflushed.sound, .inl rfl, ?_⟩
      · rw [← hcarried]
        simpa using hflushed.carried
      · exact hflushed.options.trans hoptions
    · obtain rfl := Except.ok.inj h
      exact ⟨rfl, rfl, ⟨done, rest, live, rfl, htype, hcarried⟩, hsound, .inr rfl, hoptions⟩
  · simp only [hstate, htype] at h
    obtain ⟨⟨routine', channel', n⟩, hcontinue, h⟩ := bind_eq_ok_iff.mp h
    rw [directoryRoutineContinue] at hcontinue
    obtain ⟨⟨s, m⟩, hentries, hok⟩ := bind_eq_ok_iff.mp hcontinue
    have hbatch := listEntries_batch
      (s := ⟨⟨routine.socketBuffer, channel⟩, ⟨(visible done).length, ⟨rest, live⟩⟩, 0⟩)
      hsound hpath hlength rfl hentries
    simp only [Except.ok.injEq, Prod.mk.injEq] at hok
    obtain ⟨rfl, rfl, rfl⟩ := hok
    simp only at h
    cases hbatch with
    | @more done' rest' s' n hsplit hahead hcount hwrites hsome =>
        left
        have hn : m ≠ 0 := by
          simp only at hsome
          omega
        rw [if_pos hn] at h
        obtain rfl := Except.ok.inj h
        refine ⟨rfl, rfl, ⟨done ++ done', rest', s.dir.directory.live, ?_, ?_, ?_⟩, hwrites.sound,
          .inr hstate, hwrites.options.trans hoptions⟩
        · rw [List.append_assoc, ← hsplit]
        · have hnumber : (visible (done ++ done')).length = s.dir.count := by
            rw [hcount, visible, visible, visible, List.filter_append, List.length_append]
          rw [hnumber, ← hahead]
        · have hcarried' := hwrites.carried
          rw [hcarried] at hcarried'
          rw [links_append, ← List.append_assoc]
          exact hcarried'
    | ended hwrites hbacklog =>
        right
        rw [if_neg (by simp)] at h
        obtain ⟨hroutine, hchannel, hkept⟩ := retire_eq h
        refine ⟨hkept, ?_, ?_⟩
        · rw [hroutine, hchannel]
          have hcarried' := hwrites.carried
          have hnumber : (visible done).length + (visible rest).length
              = (visible (done ++ rest)).length := by
            rw [visible, visible, visible, List.filter_append, List.length_append]
          simp only at hcarried'
          rw [hcarried, hnumber] at hcarried'
          rw [hcarried', links_append]
          simp only [List.append_assoc]
        · rw [hroutine, hchannel, Drains, htype]
          simp only
          rw [← hbacklog]
          simp [Link.backlog]

end Progress

section Start

theorem zero_notMem_page {title : Bytes} (h : (0 : UInt8) ∉ title) :
    (0 : UInt8) ∉ htmlHeaderWrite [] title := by
  simp only [htmlHeaderWrite, List.mem_append, not_or]
  exact ⟨⟨⟨⟨⟨⟨by simp, by decide⟩, by decide⟩, h⟩, by decide⟩, by decide⟩, by decide⟩

theorem dirHead_writes (world : World) {link : Link} (h : link.Sound) (st : FileStat) :
    Writes (listingHead world.clock st) link (dirHead world link st) := by
  have hstatus : Writes _ link (httpHeaderWriteResponse link 200) :=
    sendBufferPrintf_writes h _ (zero_notMem_statusLine 200)
  have hdate := sendBufferPrintf_writes hstatus.sound
    ⟨40, dateLine world.clock⟩ (zero_notMem_dateLine _)
  have hmodified := sendBufferPrintf_writes hdate.sound
    ⟨50, lastModifiedLine world.clock st⟩ (zero_notMem_lastModifiedLine _ _)
  have htype := sendBufferPrintf_writes hmodified.sound
    ⟨27, contentTypeLine (text "text/html") []⟩ (zero_notMem_contentTypeLine _ _)
  have hchunked := (sendBufferWriteText_writes htype.sound chunkedLine).1
  have hend := (sendBufferWriteText_writes hchunked.sound httpEol).1
  have hall := ((((hstatus.trans hdate).trans hmodified).trans htype).trans hchunked).trans hend
  rw [cString_eq_self (by decide : (0 : UInt8) ∉ httpEol),
    cString_eq_self (by decide : (0 : UInt8) ∉ chunkedLine)] at hall
  exact hall

theorem handleDir_listed {world : World} {clientSocket : Nat} {channel : Channel}
    {webPath absolutePath : Bytes} {type : HttpType} {st : FileStat} {handled : Handled}
    (hpath : (0 : UInt8) ∉ webPath) (hsends : SendResult.fails ∉ channel.sends)
    (h : handleDir world clientSocket channel webPath absolutePath type st = .ok handled)
    {routine : Routine} (hadded : handled.added = some routine) :
    ∃ entries crumbs, world.dirOpen absolutePath = some entries ∧
      htmlBreadCrumbWrite [] (pageTitle webPath) = .ok crumbs ∧
      webPath.length < filenameMax ∧
      Listed webPath (channel.accepted ++ listingHead world.clock st ++
        chunk (htmlHeaderWrite [] (pageTitle webPath)) ++ chunk (htmlListStart crumbs))
        entries routine handled.link.channel := by
  obtain ⟨entries, crumbs, head, hopen, hcrumbs, hhead, -, hlink, rfl⟩ := handleDir_added h hadded
  have htitle : (0 : UInt8) ∉ pageTitle webPath := by
    rw [pageTitle]
    split
    · decide
    · exact hpath
  have hlist : (0 : UInt8) ∉ htmlListStart crumbs := by
    have hzero := zero_notMem_htmlBreadCrumbWrite htitle hcrumbs
    simp only [htmlListStart, List.mem_append, not_or]
    exact ⟨hzero, by decide⟩
  refine ⟨entries, crumbs, hopen, hcrumbs, ?_, ?_⟩
  · have hfits : (pageTitle webPath).length < filenameMax :=
      length_lt_of_htmlBreadCrumbWrite hcrumbs
    by_cases hempty : webPath = []
    · subst hempty
      decide
    · rwa [pageTitle, if_neg hempty] at hfits
  · have hdir := dirHead_writes world (new_sound hsends clientSocket channel.accepted) st
    have hstart : Writes (listingHead world.clock st)
        ⟨sendBufferNew clientSocket 0, channel⟩ head := by
      rcases hhead with rfl | rfl
      · exact hdir
      · have hflushed := hdir.trans (sendBufferFlush_flushed hdir.sound).writes
        rwa [List.append_nil] at hflushed
    have htop := (httpBodyWriteChunk_writes hstart.sound (zero_notMem_page htitle)).1
    have htop' := htop.trans (sendBufferFlush_flushed htop.sound).writes
    have hstarted := (httpBodyWriteChunk_writes htop'.sound hlist).1
    have hstarted' := hstarted.trans (sendBufferFlush_flushed hstarted.sound).writes
    have hall := (hstart.trans htop').trans hstarted'
    rw [List.append_nil, List.append_nil] at hall
    have hcarried := hall.carried
    have hsound := hall.sound
    have hoptions := hall.options
    change handled.link = (sendBufferFlush (httpBodyWriteChunk (sendBufferFlush
      (httpBodyWriteChunk head (htmlHeaderWrite [] (pageTitle webPath))).1).1
        (htmlListStart crumbs)).1).1 at hlink
    rw [← hlink] at hcarried hsound hoptions
    refine ⟨rfl, ⟨[], entries, true, rfl, rfl, ?_⟩, hsound, .inl rfl, hoptions⟩
    simp only [directoryRoutineNew]
    rw [hcarried]
    simp [Link.carried, Link.pending, sendBufferNew, links, visible]

end Start

section Delivery

/-- An event of an orderly run that receives nothing from the socket. -/
def Undisturbed (socket : Nat) (server : Multiplexer) (event : Event) : Prop :=
  Allowed server event ∧ event.reads ≠ some socket

instance (socket : Nat) (server : Multiplexer) (event : Event) :
    Decidable (Undisturbed socket server event) :=
  inferInstanceAs (Decidable (Allowed server event ∧ event.reads ≠ some socket))

/-- The socket's routine is still listing, or has gone. -/
def Underway (webPath written : Bytes) (entries : List Entry) (socket : Nat)
    (server : Multiplexer) : Prop :=
  Tidy server ∧
    ((∃ routine ∈ server.serving.routines, routine.socketBuffer.clientSocket = socket ∧
        Listed webPath written entries routine (server.serving.net socket)) ∨
      socket ∉ sockets server.serving.routines)

theorem serverEvent_underway {webPath written : Bytes} {entries : List Entry} {socket : Nat}
    {server next : Multiplexer} {event : Event} (hpath : (0 : UInt8) ∉ webPath)
    (hlength : webPath.length < filenameMax)
    (hunderway : Underway webPath written entries socket server)
    (hevent : Undisturbed socket server event) (h : serverEvent server event = .ok next) :
    Underway webPath written entries socket next := by
  obtain ⟨htidy, hlisting⟩ := hunderway
  obtain ⟨hallowed, hreads⟩ := hevent
  refine ⟨serverEvent_tidy htidy hallowed h, ?_⟩
  rcases hlisting with ⟨routine, hroutine, rfl, hlisted⟩ | hgone
  · have hfate := serverEvent_fate htidy hallowed h hroutine
    cases hfate with
    | untouched stays same =>
        left
        refine ⟨routine, stays, rfl, ?_⟩
        rwa [same]
    | @advanced deferred t moves channel out =>
        rcases out with ⟨hkept, hmem⟩ | ⟨hgone, hnot⟩
        · left
          refine ⟨t.routine, hmem, advance_clientSocket moves, ?_⟩
          rw [channel]
          rcases advance_listed hpath hlength hlisted moves with ⟨-, hnext⟩ | ⟨hgone, -⟩
          · exact hnext
          · simp [hkept] at hgone
        · exact .inr hnot
    | closed same gone => exact .inr gone
  · right
    intro hmem
    rcases mem_sockets_of_serverEvent hallowed.2 h hmem with hbefore | hread
    · exact hgone hbefore
    · exact hreads hread

theorem nil_notMem_listing (webPath crumbs : Bytes) (entries : List Entry) :
    [] ∉ listing webPath crumbs entries := by
  intro hmem
  simp only [listing, List.mem_append, List.mem_cons, List.mem_map, List.not_mem_nil,
    or_false] at hmem
  rcases hmem with ((htop | hstart) | ⟨entry, -, hentry⟩) | hend
  · exact absurd (List.append_eq_nil_iff.mp htop.symm).2 (by decide)
  · exact absurd (List.append_eq_nil_iff.mp hstart.symm).2 (by decide)
  · exact linkText_ne_nil _ hentry
  · exact absurd (List.append_eq_nil_iff.mp hend.symm).2 (by decide)

theorem wire_listing (webPath crumbs : Bytes) (entries : List Entry) :
    wire (listing webPath crumbs entries)
      = chunk (htmlHeaderWrite [] (pageTitle webPath)) ++ (chunk (htmlListStart crumbs) ++
        (links webPath entries ++
          (chunk (listingEnd (visible entries).length) ++ lastChunk))) := by
  simp [wire, listing, links]

/-- The listing that `handleDir` began is delivered whole exactly when the socket
takes everything left in the tick that removes its routine. -/
theorem listing_delivered_iff {world : World} {clientSocket : Nat} {channel : Channel}
    {webPath absolutePath : Bytes} {type : HttpType} {st : FileStat} {handled : Handled}
    {routine current : Routine} {start last final : Multiplexer}
    (hpath : (0 : UInt8) ∉ webPath) (hsends : SendResult.fails ∉ channel.sends)
    (hhandled : handleDir world clientSocket channel webPath absolutePath type st = .ok handled)
    (hadded : handled.added = some routine) (htidy : Tidy start)
    (hstart : routine ∈ start.serving.routines)
    (hnet : start.serving.net clientSocket = handled.link.channel)
    (hrun : Run serverEvent (Undisturbed clientSocket) start last)
    (hcurrent : current ∈ last.serving.routines)
    (hsocket : current.socketBuffer.clientSocket = clientSocket)
    (htick : serverEvent last .tick = .ok final)
    (hremoved : clientSocket ∉ sockets final.serving.routines) :
    ∃ entries crumbs, world.dirOpen absolutePath = some entries ∧
      htmlBreadCrumbWrite [] (pageTitle webPath) = .ok crumbs ∧
      [] ∉ listing webPath crumbs entries ∧
      ((final.serving.net clientSocket).accepted = channel.accepted ++ listingHead world.clock st ++
          wire (listing webPath crumbs entries) ↔
        Drains current (last.serving.net clientSocket)) := by
  obtain ⟨entries, crumbs, hopen, hcrumbs, hlength, hlisted⟩ :=
    handleDir_listed hpath hsends hhandled hadded
  have howner := (handleDir_owned hhandled routine hadded).1
  refine ⟨entries, crumbs, hopen, hcrumbs, nil_notMem_listing webPath crumbs entries, ?_⟩
  obtain ⟨written, hwritten⟩ : ∃ written, channel.accepted ++ listingHead world.clock st ++
    chunk (htmlHeaderWrite [] (pageTitle webPath)) ++ chunk (htmlListStart crumbs) = written :=
    ⟨_, rfl⟩
  rw [hwritten] at hlisted
  have hbegins : Underway webPath written entries clientSocket start :=
    ⟨htidy, .inl ⟨routine, hstart, howner, hnet ▸ hlisted⟩⟩
  have hlast : Underway webPath written entries clientSocket last :=
    run_invariant _ (fun _ _ _ hs happens moves =>
      serverEvent_underway hpath hlength hs happens moves) hrun hbegins
  obtain ⟨htidyLast, hlisting⟩ := hlast
  subst hsocket
  have hmem : current.socketBuffer.clientSocket ∈ sockets last.serving.routines :=
    List.mem_map_of_mem hcurrent
  obtain ⟨same, hsame, hsocket, hlistedLast⟩ := hlisting.resolve_right (not_not_intro hmem)
  obtain rfl := List.inj_on_of_nodup_map htidyLast.single hsame hcurrent hsocket
  have hallowed : Allowed last .tick := ⟨trivial, trivial⟩
  have hfate := serverEvent_fate htidyLast hallowed htick hcurrent
  cases hfate with
  | untouched stays same => exact absurd (List.mem_map_of_mem stays) hremoved
  | @advanced deferred t moves hchannel out =>
      have hended : Ended webPath written entries same
          (last.serving.net same.socketBuffer.clientSocket) t := by
        rcases advance_listed hpath hlength hlistedLast moves with ⟨hkept, -⟩ | ⟨-, hended⟩
        · have hout := out.resolve_right (by simp [hkept])
          rw [← advance_clientSocket moves] at hremoved
          exact absurd (List.mem_map_of_mem hout.2) hremoved
        · exact hended
      obtain ⟨hcarried, hdrains⟩ := hended
      rw [← hdrains, hchannel, wire_listing]
      have hall : channel.accepted ++ listingHead world.clock st ++
          (chunk (htmlHeaderWrite [] (pageTitle webPath)) ++ (chunk (htmlListStart crumbs) ++
            (links webPath entries ++
              (chunk (listingEnd (visible entries).length) ++ lastChunk))))
          = t.channel.accepted ++ Link.pending ⟨t.routine.socketBuffer, t.channel⟩ := by
        rw [Link.carried, ← hwritten] at hcarried
        rw [hcarried]
        simp only [List.append_assoc]
      rw [hall]
      exact List.self_eq_append_right

/-- A shared folder with nothing but these entries. -/
def folder (entries : List Entry) : World where
  rootPath := text "/srv"
  clock := ⟨text "Thu, 01 Jan 1970 00:00:00 GMT", fun _ => text "Thu, 01 Jan 1970 00:00:00 GMT"⟩
  stat := fun _ => some ⟨0, 0, .directory⟩
  fileOpen := fun _ => none
  dirOpen := fun _ => some entries
  notModified := fun _ _ => false

theorem textual_a : (0 : UInt8) ∉ text "a" := by decide

theorem short_a : (text "a").length ≤ 255 := by decide

/-- A hidden entry and a file. -/
def twoEntries : List Entry :=
  [⟨text ".", by decide, by decide, some true, some true⟩,
    ⟨text "a", textual_a, short_a, none, some false⟩]

theorem listing_delivered_twoEntries :
    ∃ handled routine current last final,
      handleDir (folder twoEntries) 3 ⟨[], [.accepts 9]⟩ (text "/") (text "/srv/") .httpGet
        ⟨0, 0, .directory⟩ = .ok handled ∧
      handled.added = some routine ∧
      Run serverEvent (Undisturbed 3) ⟨⟨[routine], [], fun _ => handled.link.channel⟩, [3]⟩ last ∧
      current ∈ last.serving.routines ∧
      serverEvent last .tick = .ok final ∧
      ∃ entries crumbs, (folder twoEntries).dirOpen (text "/srv/") = some entries ∧
        htmlBreadCrumbWrite [] (pageTitle (text "/")) = .ok crumbs ∧
        [] ∉ listing (text "/") crumbs entries ∧
        ((final.serving.net 3).accepted =
            [] ++ listingHead (folder twoEntries).clock ⟨0, 0, .directory⟩ ++
              wire (listing (text "/") crumbs entries) ↔
          Drains current (last.serving.net 3)) := by
  have hends : (handleDir (folder twoEntries) 3 ⟨[], [.accepts 9]⟩ (text "/") (text "/srv/")
      .httpGet ⟨0, 0, .directory⟩).toOption.any fun handled =>
        handled.added.any fun routine =>
          (follow serverEvent (Undisturbed 3)
              ⟨⟨[routine], [], fun _ => handled.link.channel⟩, [3]⟩ [.tick]).any fun last =>
            last.serving.routines.any (fun current => current.socketBuffer.clientSocket = 3) &&
              (serverEvent last .tick).toOption.any fun final =>
                3 ∉ sockets final.serving.routines := by
    decide +kernel
  obtain ⟨handled, hhandled, hends⟩ := (Option.any_eq_true _ _).mp hends
  obtain ⟨routine, hadded, hends⟩ := (Option.any_eq_true _ _).mp hends
  obtain ⟨last, hlast, hends⟩ := (Option.any_eq_true _ _).mp hends
  obtain ⟨hcurrent, hends⟩ := (Bool.and_eq_true _ _).mp hends
  obtain ⟨current, hcurrent, hsocket⟩ := List.any_eq_true.mp hcurrent
  obtain ⟨final, hfinal, hremoved⟩ := (Option.any_eq_true _ _).mp hends
  rw [toOption_eq_some_iff] at hhandled hfinal
  have hrun := run_of_follow hlast
  have howner := (handleDir_owned hhandled routine hadded).1
  have htidy : Tidy ⟨⟨[routine], [], fun _ => handled.link.channel⟩, [3]⟩ :=
    ⟨List.nodup_singleton _, by simp [sockets, howner]⟩
  exact ⟨handled, routine, current, last, final, hhandled, hadded, hrun, hcurrent, hfinal,
    listing_delivered_iff (by decide) (by decide) hhandled hadded htidy (by simp) rfl hrun hcurrent
      (of_decide_eq_true hsocket) hfinal (of_decide_eq_true hremoved)⟩

/-- The socket takes the first twelve writes, and blocks from the bottom of the page
on: the tick that finds an empty directory's end removes its routine all the same. -/
theorem listing_cut_short :
    ∃ last final, Run serverEvent Possible (serverSetup fun _ => ⟨[], []⟩) last ∧
      3 ∈ sockets last.serving.routines ∧ serverEvent last .tick = .ok final ∧
      3 ∉ sockets final.serving.routines ∧
      ¬ lastChunk <:+ (final.serving.net 3).accepted := by
  have hcut : (follow serverEvent Possible (serverSetup fun _ => ⟨[], []⟩)
      [.accept 3 ⟨[], List.replicate 12 (.accepts 8192) ++ List.replicate 3 .wouldBlock⟩,
        .readable 3 (folder []) [.bytes (text "GET / HTTP/1.1\r\n\r\n")], .tick]).any fun last =>
          (3 ∈ sockets last.serving.routines) &&
            (serverEvent last .tick).toOption.any fun final =>
              3 ∉ sockets final.serving.routines ∧
                ¬ lastChunk.isSuffixOf (final.serving.net 3).accepted := by
    decide +kernel
  obtain ⟨last, hlast, hcut⟩ := (Option.any_eq_true _ _).mp hcut
  obtain ⟨hmem, hcut⟩ := (Bool.and_eq_true _ _).mp hcut
  obtain ⟨final, hfinal, hcut⟩ := (Option.any_eq_true _ _).mp hcut
  obtain ⟨hremoved, hsuffix⟩ := of_decide_eq_true hcut
  refine ⟨last, final, run_of_follow hlast, of_decide_eq_true hmem,
    toOption_eq_some_iff.mp hfinal, hremoved, ?_⟩
  rwa [List.isSuffixOf_iff_suffix] at hsuffix

end Delivery

end Newth.Server.DirectoryListing
