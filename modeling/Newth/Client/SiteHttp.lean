import Newth.Client.Recvbufr

namespace Newth.Client.SiteHttp

open Newth.Library.ByteString
open Newth.Library.Call
open Newth.Client.Recvbufr

/-- The part of the headers of a response that the body depends on. -/
structure HttpResponseHeader where
  length : Nat
  chunked : Bool
  deriving DecidableEq, Repr

structure HttpSite where
  fullUri : Option Bytes
  socket : RecvBuffer
  deriving DecidableEq, Repr

/-- The mode test of `HeadersCompute`. -/
def isGet (mode : Bytes) : Bool := (mode.map toupper).take 3 = text "GET"

def headersCompute (self : HttpSite) (headerResponse : HttpResponseHeader) (mode : Bytes) :
    Except Stop HttpSite :=
  if isGet mode then
    if headerResponse.chunked then do
      let socket ← recvBufferSetLengthChunk self.socket
      .ok { self with socket }
    else if headerResponse.length = self.socket.len then
      .ok { self with socket := recvBufferSetLengthComplete self.socket }
    else
      .ok { self with
        socket := { self.socket with length := .known self.socket.len headerResponse.length } }
  else .ok { self with socket := recvBufferSetLengthComplete self.socket }

/-- The end of `httpSiteSchemeFileRead`: copy to the caller and ditch. -/
def copyAndDitch (self : HttpSite) (bufferSize : Nat) : HttpSite × Option Bytes :=
  ({ self with socket := recvBufferDitch self.socket bufferSize },
    some (self.socket.data.take bufferSize))

/-- `httpSiteSchemeFileRead`; the bytes it copies, or `none` for the result `-1`. -/
def httpSiteSchemeFileRead (self : HttpSite) (size : Nat) :
    Except Stop (HttpSite × Option Bytes) :=
  if self.socket.len < size then do
    let (socket, e) ← recvBufferAppend self.socket (size - self.socket.len)
    let self := { self with socket }
    match e with
    | none | some .noDataToBeRetrieved | some .requestCompleted =>
        .ok (copyAndDitch self (min self.socket.len size))
    | some _ => .ok (self, none)
  else .ok (copyAndDitch self size)

section Download

/-- Read after read, for as long as the calls come back. -/
def reads (self : HttpSite) : List Nat → Except Stop (HttpSite × List (Option Bytes))
  | [] => .ok (self, [])
  | size :: sizes => do
      let (self, result) ← httpSiteSchemeFileRead self size
      let (self, results) ← reads self sizes
      .ok (self, result :: results)

/-- The body cut into the pieces the reads ask for. -/
def pieces : Bytes → List Nat → List Bytes
  | _, [] => []
  | body, size :: sizes => body.take size :: pieces (body.drop size) sizes

theorem flatten_pieces (body : Bytes) (sizes : List Nat) :
    (pieces body sizes).flatten = body.take sizes.sum := by
  induction sizes generalizing body with
  | nil => simp [pieces]
  | cons size sizes ih =>
      rw [pieces, List.flatten_cons, ih, List.sum_cons, List.take_add]

theorem copyAndDitch_reading {body : Bytes} {self : HttpSite} (h : Reading body self.socket)
    {n size : Nat} (hn : n = min self.socket.len size)
    (hall : size ≤ self.socket.len ∨ self.socket.length = .complete) :
    ∃ self', copyAndDitch self n = (self', some (body.take size)) ∧
      Reading (body.drop size) self'.socket := by
  have hle : n ≤ self.socket.len := hn ▸ Nat.min_le_left _ _
  have hditch := h.ditch hle
  have hcut : self.socket.data.take n = body.take size ∧ body.drop n = body.drop size := by
    cases h with
    | delivered hmode hbody =>
        rw [hn, RecvBuffer.len, ← hbody]
        constructor
        · rw [Nat.min_comm, ← List.take_take, List.take_length]
        · rcases Nat.le_total self.socket.data.length size with hshort | hlong
          · rw [Nat.min_eq_left hshort, List.drop_length, List.drop_eq_nil_of_le hshort]
          · rw [Nat.min_eq_right hlong]
    | coming hmode hrest hcount hbody =>
        have hsize : size ≤ self.socket.len := by
          rcases hall with hsize | hcomplete
          · exact hsize
          · rw [hmode] at hcomplete
            contradiction
        rw [Nat.min_eq_right hsize] at hn
        rw [hn, ← hbody, List.take_append_of_le_length hsize]
        exact ⟨rfl, rfl⟩
  refine ⟨{ self with socket := recvBufferDitch self.socket n }, ?_, hcut.2 ▸ hditch⟩
  rw [copyAndDitch, hcut.1]

theorem httpSiteSchemeFileRead_reading {body : Bytes} {self : HttpSite}
    (h : Reading body self.socket) (size : Nat) :
    ∃ self', httpSiteSchemeFileRead self size = .ok (self', some (body.take size)) ∧
      Reading (body.drop size) self'.socket := by
  rw [httpSiteSchemeFileRead]
  split
  · rename_i hshort
    have happend : ∃ socket e, recvBufferAppend self.socket (size - self.socket.len) =
        .ok (socket, e) ∧ (e = none ∨ e = some .requestCompleted) ∧ Reading body socket ∧
        (size ≤ socket.len ∨ socket.length = .complete) := by
      by_cases hmore : self.socket.len < body.length
      · obtain ⟨socket, hrun, hreading, henough⟩ := h.append hmore (size - self.socket.len)
        refine ⟨socket, none, hrun, Or.inl rfl, hreading, ?_⟩
        rw [hreading.complete_iff]
        omega
      · have hmode := h.complete_iff.mpr (le_antisymm h.len_le (Nat.not_lt.mp hmore))
        exact ⟨self.socket, _, recvBufferAppend_complete hmode _, Or.inr rfl, h, Or.inr hmode⟩
    obtain ⟨socket, e, hrun, he, hreading, henough⟩ := happend
    obtain ⟨self', hcopy, hnext⟩ :=
      @copyAndDitch_reading body { self with socket } hreading _ size rfl henough
    refine ⟨self', ?_, hnext⟩
    rcases he with rfl | rfl
    · simp only [hrun, ok_bind, hcopy]
    · simp only [hrun, ok_bind, hcopy]
  · rename_i hlong
    have hle := Nat.not_lt.mp hlong
    obtain ⟨self', hcopy, hnext⟩ :=
      copyAndDitch_reading h (Nat.min_eq_right hle).symm (Or.inl hle)
    exact ⟨self', congrArg Except.ok hcopy, hnext⟩

theorem reads_reading {body : Bytes} {self : HttpSite} (h : Reading body self.socket)
    (sizes : List Nat) :
    ∃ self', reads self sizes = .ok (self', (pieces body sizes).map some) ∧
      Reading (body.drop sizes.sum) self'.socket := by
  induction sizes generalizing body self with
  | nil => exact ⟨self, rfl, by simpa using h⟩
  | cons size sizes ih =>
      obtain ⟨next, hread, hnext⟩ := httpSiteSchemeFileRead_reading h size
      obtain ⟨last, hreads, hlast⟩ := ih hnext
      refine ⟨last, ?_, by simpa [List.drop_drop] using hlast⟩
      simp only [reads, hread, ok_bind, hreads, pieces, List.map_cons]

theorem httpSiteSchemeFileRead_done {self : HttpSite} (hmode : self.socket.length = .complete)
    (hdata : self.socket.data = []) (size : Nat) :
    httpSiteSchemeFileRead self size = .ok (self, some []) := by
  have hlen : self.socket.len = 0 := by rw [RecvBuffer.len, hdata, List.length_nil]
  have hcopy : copyAndDitch self 0 = (self, some []) := rfl
  rw [httpSiteSchemeFileRead, hlen]
  split
  · simp only [recvBufferAppend_complete hmode, ok_bind, hlen, Nat.zero_min]
    rfl
  · rename_i hsize
    rw [Nat.eq_zero_of_not_pos hsize, hcopy]

theorem reads_done {self : HttpSite} (hmode : self.socket.length = .complete)
    (hdata : self.socket.data = []) (sizes : List Nat) :
    reads self sizes = .ok (self, sizes.map fun _ => some []) := by
  induction sizes with
  | nil => rfl
  | cons size sizes ih =>
      simp only [reads, httpSiteSchemeFileRead_done hmode hdata, ok_bind, ih, List.map_cons]

/-- The site with another connection in the place of its own. -/
def HttpSite.over (self : HttpSite) (serverSocket : Socket) : HttpSite :=
  { self with socket := { self.socket with serverSocket } }

theorem headersCompute_reading {site : HttpSite} {header : HttpResponseHeader} {body : Bytes}
    (hbody : site.socket.data ++ site.socket.serverSocket.rest = body)
    (hchunked : header.chunked = false) (hlength : header.length = body.length) :
    ∃ computed, headersCompute site header (text "GET") = .ok computed ∧
      Reading body computed.socket := by
  have hget : isGet (text "GET") = true := by decide
  simp only [headersCompute, hget, if_true, hchunked, Bool.false_eq_true, if_false]
  have hsplit : header.length = site.socket.len + site.socket.serverSocket.rest.length := by
    rw [hlength, ← hbody, List.length_append, RecvBuffer.len]
  split
  · rename_i hwhole
    have hrest : site.socket.serverSocket.rest = [] :=
      List.eq_nil_of_length_eq_zero (by omega)
    rw [hrest, List.append_nil] at hbody
    exact ⟨_, rfl, .delivered rfl hbody⟩
  · rename_i hpart
    have hrest : site.socket.serverSocket.rest ≠ [] := by
      intro hrest
      apply hpart
      rw [hsplit, hrest, List.length_nil, Nat.add_zero]
    exact ⟨_, rfl, .coming rfl hrest hsplit.symm hbody⟩

/-- The reads of a download of known length hand out the body piece by piece; once
it is delivered they come back empty, whatever the connection is by then. -/
theorem reads_knownLength {site : HttpSite} {header : HttpResponseHeader} {body : Bytes}
    (hbody : site.socket.data ++ site.socket.serverSocket.rest = body)
    (hchunked : header.chunked = false) (hlength : header.length = body.length)
    (sizes : List Nat) :
    ∃ computed final, headersCompute site header (text "GET") = .ok computed ∧
      reads computed sizes = .ok (final, (pieces body sizes).map some) ∧
      (pieces body sizes).flatten = body.take sizes.sum ∧
      (body.length ≤ sizes.sum → (pieces body sizes).flatten = body ∧
        ∀ connection more, reads (final.over connection) more =
          .ok (final.over connection, more.map fun _ => some [])) := by
  obtain ⟨computed, hcompute, hreading⟩ := headersCompute_reading hbody hchunked hlength
  obtain ⟨final, hreads, hlast⟩ := reads_reading hreading sizes
  refine ⟨computed, final, hcompute, hreads, flatten_pieces _ _, fun hsum => ?_⟩
  rw [flatten_pieces, List.take_of_length_le hsum]
  rw [List.drop_eq_nil_of_le hsum] at hlast
  refine ⟨rfl, fun connection more => ?_⟩
  cases hlast with
  | delivered hmode hdata =>
      exact @reads_done (final.over connection) hmode hdata more
  | coming hmode hrest hcount hnothing =>
      exact absurd (List.append_eq_nil_iff.mp hnothing).2 hrest

theorem reads_hello :
    ∃ computed final, headersCompute
        ⟨none, ⟨some (text "he"), .complete, ⟨[], [[], text "l", [], text "lo"], .idle⟩⟩⟩
        ⟨5, false⟩ (text "GET") = .ok computed ∧
      reads computed [1, 3, 7] = .ok (final, (pieces (text "hello") [1, 3, 7]).map some) ∧
      (pieces (text "hello") [1, 3, 7]).flatten = (text "hello").take [1, 3, 7].sum ∧
      ((text "hello").length ≤ [1, 3, 7].sum →
        (pieces (text "hello") [1, 3, 7]).flatten = text "hello" ∧
        ∀ connection more, reads (final.over connection) more =
          .ok (final.over connection, more.map fun _ => some [])) :=
  reads_knownLength (by decide) rfl (by decide) [1, 3, 7]

end Download

end Newth.Client.SiteHttp
