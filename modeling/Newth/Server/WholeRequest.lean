import Newth.Server.Handlers

namespace Newth.Server.WholeRequest

open Newth.Library.ByteString
open Newth.Library.Call
open Newth.Platform.WebPath
open Newth.Server.Handlers
open Newth.Server.HttpHeader
open Newth.Server.Routines
open Newth.Server.Sendbufr

section Arrival

def Received.data : Received → Bytes
  | .bytes data => data
  | _ => []

/-- The bytes that arrive, in order. -/
def arrived (received : List Received) : Bytes := received.flatMap Received.data

theorem arrived_cons (result : Received) (received : List Received) :
    arrived (result :: received) = Received.data result ++ arrived received :=
  List.flatMap_cons

/-- After `r` empty reads in a row, nothing arrives behind fifty of them. -/
def Prompt (r : Nat) (received : List Received) : Prop :=
  ∀ before after, List.replicate r .wouldBlock ++ received
    = before ++ List.replicate 50 .wouldBlock ++ after → arrived after = []

theorem prompt_wouldBlock (r : Nat) (received : List Received) :
    Prompt r (.wouldBlock :: received) ↔ Prompt (r + 1) received := by
  have hshift : List.replicate r Received.wouldBlock ++ .wouldBlock :: received
      = List.replicate (r + 1) .wouldBlock ++ received := by
    rw [List.replicate_succ', List.append_assoc, List.singleton_append]
  rw [Prompt, Prompt, hshift]

theorem prompt_impatient {r : Nat} (h : 50 ≤ r) {received : List Received}
    (hprompt : Prompt r received) : arrived received = [] := by
  have hsplit : List.replicate r Received.wouldBlock ++ received
      = List.replicate (r - 50) .wouldBlock ++ List.replicate 50 .wouldBlock ++ received := by
    rw [List.replicate_append_replicate, Nat.sub_add_cancel h]
  exact hprompt _ _ hsplit

theorem prompt_bytes {r : Nat} (hr : r < 50) (data : Bytes) (received : List Received) :
    Prompt r (.bytes data :: received) ↔ Prompt 0 received := by
  constructor
  · intro hprompt before after hsplit
    apply hprompt (List.replicate r .wouldBlock ++ .bytes data :: before)
    rw [List.replicate_zero, List.nil_append] at hsplit
    rw [hsplit]
    simp
  · intro hprompt before after hsplit
    have hforeign : Received.bytes data ∉ List.replicate 50 Received.wouldBlock := by
      intro hmem
      simpa using List.eq_of_mem_replicate hmem
    obtain ⟨c, rfl⟩ := block_after_of_notMem hforeign (by simpa using hr) hsplit
    exact hprompt c after rfl

end Arrival

section Gather

/-- A request head that fits the buffer and ends where its first empty line does. -/
structure Head (request : Bytes) : Prop where
  fits : request.length < bufsiz - 1
  ends : httpEol ++ httpEol <:+ request
  once : ∀ before after, request = before ++ (httpEol ++ httpEol) ++ after → after = []

/-- What the reads bring: something or nothing yet. -/
def Piece (result : Received) : Prop :=
  result = .wouldBlock ∨ ∃ data, data ≠ [] ∧ result = .bytes data

/-- The loop of `handleConnection` while part of the request is missing; `whole` says
that the call is going to see all of it. -/
structure Gathering (request : Bytes) (whole : Prop) (s : Receiving) : Prop where
  part : s.message ++ arrived s.received <+: request
  missing : s.message ≠ request
  patient : s.r < 50
  pieces : ∀ result ∈ s.received, Piece result
  whole_iff : whole ↔ s.message ++ arrived s.received = request ∧ Prompt s.r s.received

theorem endsHead_iff (message : Bytes) : endsHead message = true ↔ httpEol ++ httpEol <:+ message :=
  List.isSuffixOf_iff_suffix

theorem Head.eq_of_endsHead {request message : Bytes} (h : Head request)
    (hpart : message <+: request) (hends : endsHead message = true) : message = request := by
  obtain ⟨after, hafter⟩ := hpart
  obtain ⟨before, hbefore⟩ := (endsHead_iff message).mp hends
  have hnil : after = [] := h.once before after (by rw [hbefore, hafter])
  rw [← hafter, hnil, List.append_nil]

theorem receiveTurn_gathers (world : World) {link : Link} {request : Bytes} (hhead : Head request)
    {whole : Prop} {s : Receiving} (hs : Gathering request whole s) :
    ∃ turn, receiveTurn world link s = .ok turn ∧
      Advances (Gathering request whole) (fun s => 51 * s.received.length + (50 - s.r))
        (fun r => ∃ message, r = .inr message ∧ message <+: request ∧ (message = request ↔ whole))
        s turn := by
  obtain ⟨message, r, received⟩ := s
  obtain ⟨hpart, hmissing, hpatient, hpieces, hwhole⟩ := hs
  simp only at hpart hmissing hpatient hpieces hwhole
  have hmessage : message <+: request := (List.prefix_append _ _).trans hpart
  rcases received with _ | ⟨result, received⟩
  · have hnever : ¬ whole := by
      intro h
      apply hmissing
      simpa [arrived] using (hwhole.mp h).1
    rcases Nat.lt_or_ge (r + 1) 50 with hmore | hlast
    · refine ⟨.again ⟨message, r + 1, []⟩, by simp [receiveTurn, hmore],
        ⟨hpart, hmissing, hmore, hpieces, ?_⟩, ?_⟩
      · exact iff_of_false hnever fun h => hmissing (by simpa [arrived] using h.1)
      · simp only
        omega
    · exact ⟨.leave (.inr message), by simp [receiveTurn, Nat.not_lt.mpr hlast], message, rfl,
        hmessage, iff_of_false hmissing hnever⟩
  · obtain ⟨hpiece, hrest⟩ := List.forall_mem_cons.mp hpieces
    rw [arrived_cons] at hpart hwhole
    rcases hpiece with rfl | ⟨data, hdata, rfl⟩
    · rw [prompt_wouldBlock] at hwhole
      simp only [Received.data, List.nil_append] at hpart hwhole
      rcases Nat.lt_or_ge (r + 1) 50 with hmore | hlast
      · refine ⟨.again ⟨message, r + 1, received⟩, by simp [receiveTurn, hmore],
          ⟨hpart, hmissing, hmore, hrest, hwhole⟩, ?_⟩
        simp only [List.length_cons]
        omega
      · refine ⟨.leave (.inr message), by simp [receiveTurn, Nat.not_lt.mpr hlast], message, rfl,
          hmessage, iff_of_false hmissing fun h => hmissing ?_⟩
        obtain ⟨hall, hprompt⟩ := hwhole.mp h
        rwa [prompt_impatient hlast hprompt, List.append_nil] at hall
    · rw [prompt_bytes hpatient] at hwhole
      simp only [Received.data, ← List.append_assoc] at hpart hwhole
      have hlonger : message ++ data <+: request := (List.prefix_append _ _).trans hpart
      have hlength := hlonger.length_le
      have hfits := hhead.fits
      rw [List.length_append] at hlength
      have htaken : data.take (bufsiz - message.length - 1) = data :=
        List.take_of_length_le (by omega)
      have hroom : ¬ bufsiz - 1 ≤ (message ++ data).length := by
        rw [List.length_append]
        omega
      cases hends : endsHead (message ++ data) with
      | true =>
          obtain rfl := hhead.eq_of_endsHead hlonger hends
          refine ⟨.leave (.inr (message ++ data)), ?_, message ++ data, rfl, hlonger,
            iff_of_true rfl (hwhole.mpr ?_)⟩
          · simp only [receiveTurn, htaken, hroom, hends, if_true, if_false]
          · have hnil : arrived received = [] := by
              have hle := hpart.length_le
              rw [List.length_append] at hle
              exact List.eq_nil_of_length_eq_zero (by omega)
            refine ⟨by rw [hnil, List.append_nil], ?_⟩
            intro before after hsplit
            have hall : arrived received = arrived before ++ arrived
                (List.replicate 50 .wouldBlock) ++ arrived after := by
              rw [List.replicate_zero, List.nil_append] at hsplit
              rw [hsplit]
              simp only [arrived, List.flatMap_append]
            rw [hnil] at hall
            exact (List.append_eq_nil_iff.mp hall.symm).2
      | false =>
          refine ⟨.again ⟨message ++ data, 0, received⟩, ?_, ⟨hpart, ?_, Nat.zero_lt_succ _,
            hrest, hwhole⟩, ?_⟩
          · simp only [receiveTurn, htaken, hroom, hends, if_false, Bool.false_eq_true,
              Nat.zero_lt_succ, if_true]
          · rintro rfl
            rw [(endsHead_iff _).mpr hhead.ends] at hends
            simp at hends
          · simp only [List.length_cons]
            omega

theorem receive_gathers (world : World) (link : Link) {request : Bytes} (hhead : Head request)
    {received : List Received} (hpart : arrived received <+: request)
    (hpieces : ∀ result ∈ received, Piece result) :
    ∃ message, run (receiveTurn world link) (51 * received.length + 51) ⟨[], 0, received⟩
        = .ok (.inr message) ∧ message <+: request ∧
      (message = request ↔ arrived received = request ∧ Prompt 0 received) := by
  have hmissing : [] ≠ request := by
    rintro rfl
    exact absurd (List.IsSuffix.length_le hhead.ends) (by decide)
  obtain ⟨result, hrun, message, rfl, hmessage, hwhole⟩ := run_total _ _
    (fun s hs => @receiveTurn_gathers world link request hhead _ s hs)
    (⟨hpart, hmissing, by simp, hpieces, Iff.rfl⟩ : Gathering request
      (arrived received = request ∧ Prompt 0 received) ⟨[], 0, received⟩)
    (by simp only; omega : _ < 51 * received.length + 51)
  exact ⟨message, hrun, hmessage, hwhole⟩

end Gather

section Calls

/-- The request buffer and the path `handleConnection` calls `handlePath` with, if it
gets that far. -/
def pathCall (world : World) (clientSocket : Nat) (channel : Channel) (received : List Received) :
    Except Stop (Option (Bytes × Bytes)) := do
  let link : Link := ⟨sendBufferNew clientSocket 0, channel⟩
  match ← run (receiveTurn world link) (51 * received.length + 51) ⟨[], 0, received⟩ with
  | .inl _ => .ok none
  | .inr message =>
      if message = [] then .ok none
      else
        match ← httpClientReadUri (cString message.dropLast) with
        | none => .ok none
        | some uriPath =>
            .ok (if uriPath.head? ≠ some (ascii '/') then none
              else some (message.dropLast ++ [0], uriPath))

theorem cString_concat_zero (s : Bytes) : cString (s ++ [0]) = cString s := by
  rw [cString, cString, List.takeWhile_append]
  split
  · rename_i hall
    have hself : s.takeWhile (· != 0) = s := (List.takeWhile_prefix _).eq_of_length hall
    simp [hself]
  · rfl

theorem handleConnection_of_pathCall {world : World} {clientSocket : Nat} {channel : Channel}
    {received : List Received} {buffer uriPath : Bytes}
    (h : pathCall world clientSocket channel received = .ok (some (buffer, uriPath))) :
    handleConnection world clientSocket channel received
      = handlePath world clientSocket channel (cString buffer) uriPath := by
  obtain ⟨result, hrun, h⟩ := bind_eq_ok_iff.mp h
  rw [handleConnection, hrun, ok_bind]
  cases result with
  | inl handled => simp at h
  | inr message =>
      simp only at h
      split at h
      · simp at h
      · rename_i hsome
        obtain ⟨c, message, rfl⟩ := List.exists_cons_of_ne_nil hsome
        obtain ⟨uri, huri, h⟩ := bind_eq_ok_iff.mp h
        simp only [huri, ok_bind]
        cases uri with
        | none => simp at h
        | some uri =>
            simp only [Except.ok.injEq] at h
            split at h
            · simp at h
            · rename_i hslash
              obtain ⟨rfl, rfl⟩ := Prod.mk.inj (Option.some.inj h)
              simp only [hslash, if_false, cString_concat_zero]

theorem handleConnection_of_no_pathCall {world : World} {clientSocket : Nat} {channel : Channel}
    {received : List Received} {handled : Handled}
    (h : pathCall world clientSocket channel received = .ok none)
    (hok : handleConnection world clientSocket channel received = .ok handled) :
    handled.code ≠ 0 ∧ handled.added = none := by
  obtain ⟨result, hrun, h⟩ := bind_eq_ok_iff.mp h
  rw [handleConnection, hrun, ok_bind] at hok
  cases result with
  | inl early =>
      obtain rfl := Except.ok.inj hok
      obtain ⟨link, rfl⟩ := handleConnection_early hrun
      simp
  | inr message =>
      cases message with
      | nil =>
          obtain rfl := Except.ok.inj hok
          simp
      | cons c message =>
          simp only [reduceCtorEq, if_false] at h hok
          obtain ⟨uri, huri, h⟩ := bind_eq_ok_iff.mp h
          simp only [huri, ok_bind] at hok
          cases uri with
          | none =>
              obtain rfl := Except.ok.inj hok
              simp
          | some uri =>
              simp only [Except.ok.injEq] at h
              split at h
              · rename_i hslash
                simp only [hslash, if_true, ne_eq, not_false_eq_true] at hok
                obtain rfl := Except.ok.inj hok
                simp
              · simp at h

/-- One call of `handleConnection`, with the socket and the file system as they are then. -/
structure ConnectionCall where
  world : World
  channel : Channel
  received : List Received

/-- The calls of `handlePath` made while a connection is served, each time its socket
becomes readable, up to the first return value that closes it. -/
def serveCalls (clientSocket : Nat) : List ConnectionCall → List (Bytes × Bytes)
  | [] => []
  | call :: calls =>
      match pathCall call.world clientSocket call.channel call.received with
      | .ok (some request) =>
          match handleConnection call.world clientSocket call.channel call.received with
          | .ok handled => request :: if handled.code = 0 then serveCalls clientSocket calls else []
          | .error _ => [request]
      | _ => []

theorem pathCall_silent (world : World) (clientSocket : Nat) (channel : Channel)
    {received : List Received} (h : ∀ result ∈ received, result.isBytes = false) :
    pathCall world clientSocket channel received = .ok none := by
  obtain ⟨result, hrun, hresult⟩ := run_total _ _
    (fun s hs => @receiveTurn_silent world ⟨sendBufferNew clientSocket 0, channel⟩ s hs)
    (⟨rfl, Nat.zero_lt_succ _, h⟩ : Silent ⟨[], 0, received⟩)
    (by omega : 50 - 0 < 51 * received.length + 51)
  rw [pathCall, hrun, ok_bind]
  rcases hresult with rfl | rfl
  · rfl
  · rfl

theorem serveCalls_silent (clientSocket : Nat) {calls : List ConnectionCall}
    (h : ∀ call ∈ calls, ∀ result ∈ call.received, result.isBytes = false) :
    serveCalls clientSocket calls = [] := by
  cases calls with
  | nil => rfl
  | cons call calls =>
      rw [serveCalls, pathCall_silent _ _ _ (h call (by simp))]

theorem pathCall_of_run {world : World} {clientSocket : Nat} {channel : Channel}
    {received : List Received} {message : Bytes} (hmessage : message ≠ [])
    (hrun : run (receiveTurn world ⟨sendBufferNew clientSocket 0, channel⟩)
      (51 * received.length + 51) ⟨[], 0, received⟩ = .ok (.inr message)) {request : Bytes × Bytes} :
    pathCall world clientSocket channel received = .ok (some request) ↔
      request.1 = message.dropLast ++ [0] ∧
        httpClientReadUri (cString message.dropLast) = .ok (some request.2) ∧
        request.2.head? = some (ascii '/') := by
  obtain ⟨buffer, uriPath⟩ := request
  rw [pathCall, hrun, ok_bind]
  simp only [hmessage, if_false]
  constructor
  · intro h
    obtain ⟨uri, huri, h⟩ := bind_eq_ok_iff.mp h
    cases uri with
    | none => simp at h
    | some uri =>
        simp only [Except.ok.injEq] at h
        split at h
        · simp at h
        · rename_i hslash
          obtain ⟨rfl, rfl⟩ := Prod.mk.inj (Option.some.inj h)
          exact ⟨rfl, huri, not_not.mp hslash⟩
  · rintro ⟨rfl, huri, hslash⟩
    simp only [huri, ok_bind, hslash, ne_eq, not_true, if_false]

theorem pathCall_of_serveCalls {clientSocket : Nat} {call : ConnectionCall}
    {calls : List ConnectionCall} {request : Bytes × Bytes} {later : List (Bytes × Bytes)}
    (h : serveCalls clientSocket (call :: calls) = request :: later) :
    pathCall call.world clientSocket call.channel call.received = .ok (some request) := by
  rw [serveCalls] at h
  split at h
  · rename_i hcall
    split at h
    · rw [hcall, (List.cons.inj h).1]
    · rw [hcall, (List.cons.inj h).1]
  · simp at h

/-- `handlePath` sees the whole request, once, exactly when the request names a path
and the first call sees all of it. -/
theorem handlePath_once_iff (clientSocket : Nat) {request : Bytes} (hhead : Head request)
    {calls : List ConnectionCall}
    (hpieces : ∀ call ∈ calls, ∀ result ∈ call.received, Piece result)
    (harrives : (calls.flatMap fun call => arrived call.received) = request) :
    (∃ uriPath, serveCalls clientSocket calls = [(request.dropLast ++ [0], uriPath)]) ↔
      (∃ uriPath, httpClientReadUri (cString request.dropLast) = .ok (some uriPath) ∧
        uriPath.head? = some (ascii '/')) ∧
      ∃ call ∈ calls.head?, arrived call.received = request ∧ Prompt 0 call.received := by
  have hnonempty : request ≠ [] := by
    rintro rfl
    exact absurd (List.IsSuffix.length_le hhead.ends) (by decide)
  cases calls with
  | nil => exact absurd harrives.symm hnonempty
  | cons call calls =>
      obtain ⟨hfirst, hlater⟩ := List.forall_mem_cons.mp hpieces
      rw [List.flatMap_cons] at harrives
      have hpart : arrived call.received <+: request := ⟨_, harrives⟩
      obtain ⟨message, hrun, hmessage, hwhole⟩ := receive_gathers call.world
        ⟨sendBufferNew clientSocket 0, call.channel⟩ hhead hpart hfirst
      simp only [List.head?_cons, Option.mem_some_iff, exists_eq_left']
      constructor
      · rintro ⟨uriPath, hcalls⟩
        have hcall := pathCall_of_serveCalls hcalls
        have hsome : message ≠ [] := by
          rintro rfl
          rw [pathCall, hrun] at hcall
          simp [ok_bind] at hcall
        obtain ⟨hbuffer, huri, hslash⟩ := (pathCall_of_run hsome hrun).mp hcall
        have hlength := congrArg List.length hbuffer
        simp only [List.length_append, List.length_dropLast, List.length_singleton] at hlength
        have hpositive := List.length_pos_of_ne_nil hsome
        have hrequest := List.length_pos_of_ne_nil hnonempty
        obtain rfl := hmessage.eq_of_length (by omega)
        exact ⟨⟨uriPath, huri, hslash⟩, hwhole.mp rfl⟩
      · rintro ⟨⟨uriPath, huri, hslash⟩, hall⟩
        obtain rfl := hwhole.mpr hall
        have hcall : pathCall call.world clientSocket call.channel call.received
            = .ok (some (message.dropLast ++ [0], uriPath)) :=
          (pathCall_of_run hnonempty hrun).mpr ⟨rfl, huri, hslash⟩
        have hnothing : (calls.flatMap fun call => arrived call.received) = [] := by
          rw [hall.1] at harrives
          simpa using harrives
        have hsilent : serveCalls clientSocket calls = [] := by
          apply serveCalls_silent
          intro later hmem result hresult
          rcases hlater later hmem result hresult with rfl | ⟨data, hdata, rfl⟩
          · rfl
          · refine absurd ?_ hdata
            have hcall := List.flatMap_eq_nil_iff.mp hnothing later hmem
            exact List.flatMap_eq_nil_iff.mp hcall _ hresult
        refine ⟨uriPath, ?_⟩
        rw [serveCalls, hcall]
        simp only
        split
        · rw [hsilent, ite_self]
        · rfl

theorem getRoot_head : Head (text "GET / HTTP/1.1\r\n\r\n") := by
  refine ⟨by decide, by decide, ?_⟩
  intro before after hsplit
  have hlast : ∀ i < 19, httpEol ++ httpEol <+: (text "GET / HTTP/1.1\r\n\r\n").drop i →
      i = 14 := by
    decide
  have hlength := congrArg List.length hsplit
  have hat := hlast before.length (by simp [text, httpEol] at hlength; omega)
    ⟨after, by rw [hsplit]; simp⟩
  simp [text, httpEol] at hlength
  exact List.eq_nil_of_length_eq_zero (by omega)

theorem handlePath_once_twoReads :
    ∃ uriPath, serveCalls 3 [⟨tenDigits, ⟨[], []⟩, [.bytes (text "GET / HT"), .wouldBlock,
        .bytes (text "TP/1.1\r\n\r\n")]⟩]
      = [((text "GET / HTTP/1.1\r\n\r\n").dropLast ++ [0], uriPath)] := by
  refine (handlePath_once_iff 3 getRoot_head ?_ (by decide)).mpr
    ⟨⟨text "/", by decide, by decide⟩, _, rfl, by decide, ?_⟩
  · simp only [forall_eq, List.mem_cons, List.not_mem_nil, or_false,
      forall_eq_or_imp]
    exact ⟨.inr ⟨_, by decide, rfl⟩, .inl rfl, .inr ⟨_, by decide, rfl⟩⟩
  · intro before after hsplit
    have hlength := congrArg List.length hsplit
    simp only [List.length_append, List.length_replicate, List.length_cons, List.length_nil]
      at hlength
    omega

/-- Fifty empty reads in the middle of a request, and `handlePath` gets its beginning. -/
theorem handlePath_cut_short :
    Head (text "GET / HTTP/1.1\r\n\r\n") ∧
      serveCalls 3 [⟨tenDigits, ⟨[], []⟩,
          .bytes (text "GET / HTTP/1.1\r\n") :: List.replicate 50 .wouldBlock⟩,
        ⟨tenDigits, ⟨[], []⟩, [.bytes (text "\r\n")]⟩]
      = [(text "GET / HTTP/1.1\r" ++ [0], text "/")] :=
  ⟨getRoot_head, by decide +kernel⟩

end Calls

end Newth.Server.WholeRequest
