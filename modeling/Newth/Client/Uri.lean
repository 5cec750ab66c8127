import Newth.Library.Numeral
import Newth.Platform.WebPath

namespace Newth.Client.Uri

open Newth.Library.ByteString
open Newth.Library.Call
open Newth.Library.Numeral
open Newth.Platform.WebPath

inductive UriScheme where
  | unknown
  | file
  | ftp
  | ftps
  | http
  | https
  deriving DecidableEq, Repr

structure UriDetails where
  scheme : Option Bytes
  host : Option Bytes
  port : Option Bytes
  path : Option Bytes
  query : Option Bytes
  deriving DecidableEq, Repr

section Details

def uriDetailsGetScheme (details : UriDetails) : UriScheme :=
  match (details.scheme.getD []).map toupper with
  | [f, t, p] => if [f, t, p] = text "FTP" then .ftp else .unknown
  | [h, t, p, s] =>
      if [h, t, p, s] = text "FILE" then .file
      -- `case 'I'` falls into `case 'T'`, and `case 'F'` into `case 'H'`
      else if h = ascii 'F' ∧ (t = ascii 'I' ∨ t = ascii 'T') ∧ p = ascii 'P' ∧ s = ascii 'S' then
        .ftps
      else if (h = ascii 'F' ∨ h = ascii 'H') ∧ t = ascii 'T' ∧ p = ascii 'T' ∧ s = ascii 'P' then
        .http
      else .unknown
  | [h, t, p, s, r] => if [h, t, p, s, r] = text "HTTPS" then .https else .unknown
  | _ => .unknown

/-- The values of the `SCHEME_` constants, which are the default ports. -/
def UriScheme.port : UriScheme → Nat
  | .unknown => 0
  | .file => 1
  | .ftp => 21
  | .ftps => 990
  | .http => 80
  | .https => 443

/-- The digits of a port, or 0 for what is no port number. -/
def portFrom (r : Nat) : Bytes → Nat
  | [] => r
  | c :: port =>
      let r := r * 10 + digitValue c
      if isDecimal c ∧ r ≤ 65535 then portFrom r port else 0

def uriDetailsGetPort (details : UriDetails) : Nat :=
  match details.port with
  | none => (uriDetailsGetScheme details).port
  | some port => portFrom 0 port

/-- The scheme, and what stands behind `://`. -/
def splitScheme (uri : Bytes) : Option Bytes × Bytes :=
  match strstr uri (text "://") with
  | some len => (some (uri.take len), uri.drop (len + 3))
  | none => (none, uri)

/-- The path, and what stands behind the first `?`. -/
def splitQuery (p : Bytes) : Bytes × Option Bytes :=
  match strchr p (ascii '?') with
  | some q => (p.take q, some (p.drop (q + 1)))
  | none => (p, none)

def uriDetailsNewFrom (uri : Bytes) : UriDetails :=
  let (scheme, q) := splitScheme uri
  match strchr q (ascii '/'), strchr q (ascii ':') with
  | some p, i =>
      let (path, query) := splitQuery (q.drop p)
      match i.filter (· < p) with
      | some i => ⟨scheme, some (q.take i), some ((q.take p).drop (i + 1)), some path, query⟩
      | none => ⟨scheme, some (q.take p), none, some path, query⟩
  | none, some i => ⟨scheme, some (q.take i), some (q.drop (i + 1)), none, none⟩
  | none, none => ⟨scheme, if q = [] then none else some q, none, none, none⟩

def uriDetailsCreateString (details : UriDetails) : Option Bytes := do
  let scheme ← details.scheme
  let host ← details.host
  let path ← details.path
  let port := (details.port.map fun port => text ":" ++ port).getD []
  let query := (details.query.map fun query => text "?" ++ query).getD []
  some (scheme ++ text "://" ++ host ++ port ++ path ++ query)

def uriDetailsCreateStringBase (details : UriDetails) : Option Bytes := do
  let scheme ← details.scheme
  if uriDetailsGetScheme details = .file then some (text "file:///")
  else
    let host ← details.host
    let port := (details.port.map fun port => text ":" ++ port).getD []
    some (scheme ++ text "://" ++ host ++ port ++ text "/")

theorem toupper_scheme_of_file {details : UriDetails}
    (h : uriDetailsGetScheme details = .file) :
    (details.scheme.getD []).map toupper = text "FILE" := by
  rw [uriDetailsGetScheme] at h
  split at h
  · split at h <;> simp at h
  · rename_i hletters
    split at h
    · rename_i hfile
      rw [hletters, hfile]
    · split at h
      · simp at h
      · split at h <;> simp at h
  · split at h <;> simp at h
  · simp at h

theorem splitScheme_append {uri scheme q : Bytes} (h : splitScheme uri = (some scheme, q)) :
    scheme ++ text "://" ++ q = uri := by
  rw [splitScheme] at h
  split at h
  · rename_i len hfound
    obtain ⟨rfl, rfl⟩ : uri.take len = scheme ∧ uri.drop (len + 3) = q := by simpa using h
    obtain ⟨rest, hrest⟩ := (strstr_eq_some_iff.mp hfound).1
    have hq : uri.drop (len + 3) = rest := by
      rw [← List.drop_drop, ← hrest]
      rfl
    rw [hq, List.append_assoc, hrest, List.take_append_drop]
  · simp at h

theorem splitQuery_append (p : Bytes) :
    (splitQuery p).1 ++ ((splitQuery p).2.map fun query => text "?" ++ query).getD [] = p := by
  rw [splitQuery]
  split
  · rename_i q hfound
    exact (eq_append_of_strchr hfound).symm
  · exact List.append_nil p

theorem uriDetailsNewFrom_scheme {uri scheme : Bytes}
    (h : (uriDetailsNewFrom uri).scheme = some scheme) :
    ∃ len, strstr uri (text "://") = some len ∧ uri.take len = scheme := by
  have hsplit : (splitScheme uri).1 = some scheme := by
    rw [← h]
    simp only [uriDetailsNewFrom]
    split
    · split <;> rfl
    · rfl
    · rfl
  rw [splitScheme] at hsplit
  split at hsplit
  · rename_i len hfound
    exact ⟨len, hfound, Option.some.inj hsplit⟩
  · simp at hsplit

theorem uriDetailsCreateString_newFrom {uri scheme path : Bytes}
    (hscheme : (uriDetailsNewFrom uri).scheme = some scheme)
    (hpath : (uriDetailsNewFrom uri).path = some path) :
    uriDetailsCreateString (uriDetailsNewFrom uri) = some uri := by
  cases hsplit : splitScheme uri with
  | mk parsed q =>
  simp only [uriDetailsNewFrom, hsplit] at hscheme hpath ⊢
  cases hslash : strchr q (ascii '/') with
  | none =>
      simp only [hslash] at hpath
      cases hcolon : strchr q (ascii ':') with
      | none => simp [hcolon] at hpath
      | some i => simp [hcolon] at hpath
  | some p =>
      simp only [hslash] at hscheme hpath ⊢
      have hrest := splitQuery_append (q.drop p)
      cases hcolon : (strchr q (ascii ':')).filter (· < p) with
      | none =>
          simp only [hcolon] at hscheme ⊢
          obtain rfl : parsed = some scheme := hscheme
          simp only [uriDetailsCreateString, Option.bind_eq_bind, Option.bind_some, Option.map_none,
            Option.getD_none, List.append_nil]
          rw [List.append_assoc, hrest, List.append_assoc, List.take_append_drop,
            splitScheme_append hsplit]
      | some i =>
          simp only [hcolon] at hscheme ⊢
          obtain rfl : parsed = some scheme := hscheme
          obtain ⟨hfound, hlt⟩ := Option.filter_eq_some_iff.mp hcolon
          have hhost : q.take i ++ (text ":" ++ (q.take p).drop (i + 1)) = q.take p := by
            have hi : i < p := of_decide_eq_true hlt
            have hsplit := eq_append_of_strchr hfound
            have hlen := congrArg List.length hsplit
            simp only [List.length_append, List.length_take, List.length_cons, List.length_drop]
              at hlen
            have hi' : (q.take i).length = i := List.length_take_of_le (by omega)
            calc
              _ = q.take i ++ ascii ':' :: (q.drop (i + 1)).take (p - (i + 1)) := by
                rw [List.drop_take]
                rfl
              _ = (q.take i ++ ascii ':' :: q.drop (i + 1)).take p := by
                rw [List.take_append, hi', List.take_of_length_le (by omega : (q.take i).length ≤ p),
                  show p - i = p - (i + 1) + 1 by omega, List.take_succ_cons]
              _ = q.take p := by rw [← hsplit]
          simp only [uriDetailsCreateString, Option.bind_eq_bind, Option.bind_some,
            Option.map_some, Option.getD_some]
          rw [List.append_assoc, hrest, List.append_assoc (scheme ++ text "://"), hhost,
            List.append_assoc, List.take_append_drop, splitScheme_append hsplit]

end Details

section Parts

/-- What the parts of a parsed URI look like. -/
structure Parsed (details : UriDetails) : Prop where
  scheme : ∀ scheme, details.scheme = some scheme →
    ∀ j < scheme.length, ¬ text "://" <+: (scheme ++ text "://").drop j
  host : ∀ host, details.host = some host → ascii '/' ∉ host ∧ ascii ':' ∉ host
  port : ∀ port, details.port = some port → ascii '/' ∉ port
  path : ∀ path, details.path = some path → path.head? = some (ascii '/') ∧ ascii '?' ∉ path

theorem splitScheme_first {uri scheme q : Bytes} (h : splitScheme uri = (some scheme, q)) :
    ∀ j < scheme.length, ¬ text "://" <+: (scheme ++ text "://").drop j := by
  have happend := splitScheme_append h
  rw [splitScheme] at h
  split at h
  · rename_i len hfound
    obtain ⟨rfl, -⟩ : uri.take len = scheme ∧ uri.drop (len + 3) = q := by simpa using h
    obtain ⟨-, -, hfirst⟩ := strstr_eq_some_iff.mp hfound
    intro j hj hearly
    apply hfirst j (Nat.lt_of_lt_of_le hj (List.length_take_le _ _))
    rw [← happend, List.drop_append_of_le_length (by rw [List.length_append]; omega)]
    exact hearly.trans (List.prefix_append _ _)
  · simp at h

theorem splitQuery_path {p path : Bytes} {query : Option Bytes}
    (h : splitQuery p = (path, query)) (hslash : p.head? = some (ascii '/')) :
    path.head? = some (ascii '/') ∧ ascii '?' ∉ path := by
  rw [splitQuery] at h
  split at h
  · rename_i i hfound
    obtain ⟨rfl, -⟩ := Prod.mk.inj h
    refine ⟨?_, notMem_take_of_strchr hfound⟩
    cases i with
    | zero =>
        have hfront := eq_append_of_strchr hfound
        rw [List.take_zero, List.nil_append] at hfront
        rw [hfront, List.head?_cons] at hslash
        exact absurd (Option.some.inj hslash) (by decide)
    | succ i =>
        cases p with
        | nil => simp at hslash
        | cons c p => simpa using hslash
  · rename_i hnone
    obtain ⟨rfl, -⟩ := Prod.mk.inj h
    exact ⟨hslash, notMem_of_strchr hnone⟩

theorem parsed_newFrom (uri : Bytes) : Parsed (uriDetailsNewFrom uri) := by
  cases hscheme : splitScheme uri with
  | mk scheme q =>
  have hfirst : ∀ s, scheme = some s → ∀ j < s.length, ¬ text "://" <+: (s ++ text "://").drop j :=
    fun s hs => splitScheme_first (hs ▸ hscheme)
  simp only [uriDetailsNewFrom, hscheme]
  cases hslash : strchr q (ascii '/') with
  | none =>
      have hno := notMem_of_strchr hslash
      cases hcolon : strchr q (ascii ':') with
      | none =>
          simp only
          refine ⟨hfirst, ?_, by simp, by simp⟩
          intro host hhost
          by_cases hempty : q = []
          · simp [hempty] at hhost
          · obtain rfl : q = host := by simpa [hempty] using hhost
            exact ⟨hno, notMem_of_strchr hcolon⟩
      | some i =>
          simp only
          refine ⟨hfirst, ?_, ?_, by simp⟩
          · intro host hhost
            obtain rfl := Option.some.inj hhost
            exact ⟨fun h => hno (List.mem_of_mem_take h), notMem_take_of_strchr hcolon⟩
          · intro port hport
            obtain rfl := Option.some.inj hport
            exact fun h => hno (List.mem_of_mem_drop h)
  | some p =>
      have hpath : ∀ path query, splitQuery (q.drop p) = (path, query) →
          path.head? = some (ascii '/') ∧ ascii '?' ∉ path := by
        intro path query hquery
        apply splitQuery_path hquery
        have hfront := eq_append_of_strchr hslash
        obtain ⟨hp, hget, -⟩ := List.findIdx?_eq_some_iff_getElem.mp hslash
        rw [List.head?_drop, List.getElem?_eq_getElem hp]
        simpa using hget
      have hno := notMem_take_of_strchr hslash
      cases hcolon : (strchr q (ascii ':')).filter (· < p) with
      | none =>
          simp only [hcolon]
          refine ⟨hfirst, ?_, by simp, ?_⟩
          · intro host hhost
            obtain rfl := Option.some.inj hhost
            refine ⟨hno, ?_⟩
            cases hany : strchr q (ascii ':') with
            | none => exact fun h => notMem_of_strchr hany (List.mem_of_mem_take h)
            | some i =>
                have hle : p ≤ i := by simpa [hany] using hcolon
                intro h
                apply notMem_take_of_strchr hany
                exact (List.take_prefix_take_left hle).subset h
          · intro path hsome
            obtain rfl := Option.some.inj hsome
            exact hpath _ _ rfl
      | some i =>
          obtain ⟨hfound, hlt⟩ := Option.filter_eq_some_iff.mp hcolon
          have hi : i < p := of_decide_eq_true hlt
          simp only [hcolon]
          refine ⟨hfirst, ?_, ?_, ?_⟩
          · intro host hhost
            obtain rfl := Option.some.inj hhost
            refine ⟨?_, notMem_take_of_strchr hfound⟩
            exact fun h => hno ((List.take_prefix_take_left (Nat.le_of_lt hi)).subset h)
          · intro port hport
            obtain rfl := Option.some.inj hport
            exact fun h => hno (List.mem_of_mem_drop h)
          · intro path hsome
            obtain rfl := Option.some.inj hsome
            exact hpath _ _ rfl

theorem splitScheme_print {scheme : Bytes}
    (h : ∀ j < scheme.length, ¬ text "://" <+: (scheme ++ text "://").drop j) (rest : Bytes) :
    splitScheme (scheme ++ text "://" ++ rest) = (some scheme, rest) := by
  have hfound : strstr (scheme ++ text "://" ++ rest) (text "://") = some scheme.length := by
    apply strstr_append
    intro j hj hearly
    apply h j hj
    rw [List.drop_append_of_le_length (by rw [List.length_append]; omega)] at hearly
    apply List.prefix_of_prefix_length_le hearly (List.prefix_append _ _)
    rw [List.length_drop, List.length_append]
    omega
  have hlength : scheme.length + 3 = (scheme ++ text "://").length := by
    rw [List.length_append]
    rfl
  rw [splitScheme, hfound]
  simp only [Prod.mk.injEq, Option.some.injEq]
  constructor
  · rw [List.append_assoc, List.take_left]
  · rw [hlength, List.drop_left]

theorem splitQuery_print {path : Bytes} (h : ascii '?' ∉ path) (query : Option Bytes) :
    splitQuery (path ++ (query.map fun query => text "?" ++ query).getD []) = (path, query) := by
  cases query with
  | none =>
      rw [Option.map_none, Option.getD_none, List.append_nil, splitQuery, strchr_eq_none h]
  | some query =>
      have hmark : path ++ (text "?" ++ query) = path ++ ascii '?' :: query := rfl
      rw [Option.map_some, Option.getD_some, hmark, splitQuery, strchr_append h]
      simp only [List.take_left, Prod.mk.injEq, true_and, Option.some.injEq]
      rw [List.append_cons, List.drop_left' (by simp)]

theorem newFrom_createString {details : UriDetails} (h : Parsed details) {uri : Bytes}
    (huri : uriDetailsCreateString details = some uri) : uriDetailsNewFrom uri = details := by
  obtain ⟨scheme, host, port, path, query⟩ := details
  simp only [uriDetailsCreateString, Option.bind_eq_bind, Option.bind_eq_some_iff] at huri
  obtain ⟨scheme, rfl, host, rfl, path, rfl, huri⟩ := huri
  obtain rfl := Option.some.inj huri
  obtain ⟨hslash, hcolon⟩ := h.host host rfl
  obtain ⟨hhead, hmark⟩ := h.path path rfl
  obtain ⟨path', rfl⟩ : ∃ path', path = ascii '/' :: path' := by
    cases path with
    | nil => simp at hhead
    | cons c path' => exact ⟨path', by simpa using hhead⟩
  have hquery := splitQuery_print hmark query
  generalize (query.map fun query => text "?" ++ query).getD [] = tail at hquery ⊢
  rw [List.cons_append] at hquery
  cases port with
  | none =>
      have hshape : scheme ++ text "://" ++ host ++
          ((none : Option Bytes).map fun port => text ":" ++ port).getD [] ++
            ascii '/' :: path' ++ tail =
          scheme ++ text "://" ++ (host ++ ascii '/' :: (path' ++ tail)) := by
        simp only [Option.map_none, Option.getD_none, List.append_nil, List.append_assoc,
          List.cons_append]
      have hsplit := splitScheme_print (h.scheme scheme rfl) (host ++ ascii '/' :: (path' ++ tail))
      have hfirst := strchr_append hslash (path' ++ tail)
      have hfilter : (strchr (host ++ ascii '/' :: (path' ++ tail)) (ascii ':')).filter
          (· < host.length) = none := by
        rw [Option.filter_eq_none_iff]
        intro i hi
        simpa using length_le_of_strchr hcolon hi
      rw [hshape]
      simp only [uriDetailsNewFrom, hsplit, hfirst, hfilter, List.drop_left, List.take_left, hquery]
  | some port =>
      have hshape : scheme ++ text "://" ++ host ++
          ((some port).map fun port => text ":" ++ port).getD [] ++ ascii '/' :: path' ++ tail =
          scheme ++ text "://" ++ (host ++ ascii ':' :: port ++ ascii '/' :: (path' ++ tail)) := by
        have hport : text ":" ++ port = ascii ':' :: port := rfl
        simp only [Option.map_some, Option.getD_some, hport, List.append_assoc, List.cons_append]
      have hnot : ascii '/' ∉ host ++ ascii ':' :: port := by
        rw [List.mem_append, List.mem_cons]
        rintro (hin | heq | hin)
        · exact hslash hin
        · exact absurd heq (by decide)
        · exact h.port port rfl hin
      have hsplit := splitScheme_print (h.scheme scheme rfl)
        (host ++ ascii ':' :: port ++ ascii '/' :: (path' ++ tail))
      have hfirst := strchr_append hnot (path' ++ tail)
      have hfound : strchr (host ++ ascii ':' :: port ++ ascii '/' :: (path' ++ tail)) (ascii ':') =
          some host.length := by
        rw [List.append_assoc, List.cons_append]
        exact strchr_append hcolon _
      have hlt : host.length < (host ++ ascii ':' :: port).length := by simp
      have htake : (host ++ ascii ':' :: port ++ ascii '/' :: (path' ++ tail)).take host.length =
          host := by
        rw [List.append_assoc, List.take_left]
      have hcut : (host ++ ascii ':' :: port).drop (host.length + 1) = port := by
        rw [List.append_cons, List.drop_left' (by simp)]
      rw [hshape]
      simp only [uriDetailsNewFrom, hsplit, hfirst, hfound, Option.filter_some, hlt, decide_true,
        if_true, List.take_left, List.drop_left, htake, hcut, hquery]

end Parts

section Paths

def isDivider (c : UInt8) : Bool := c == ascii '/'

def uriPathCombine (path1 path2 : Bytes) : Except Stop Bytes :=
  -- on an empty first path `idx = len - 1` wraps
  if path1 = [] then .error .outOfBounds
  else
    let idx := lastKept isDivider path1 (path1.length - 1)
    let output :=
      if idx ≠ 0 then path1.take (idx + 1) ++ text "/"
      else if isDivider (path1.getD 0 0) ∧ isDivider (path1.getD 1 0) then path1.take 1
      else path1
    .ok (output ++ path2.dropWhile isDivider)

/-- `uriPathLast`, with `p` the name found so far. -/
def lastFrom (p : Option Bytes) : Bytes → Option Bytes
  | [] => p
  | c :: rest =>
      if c = ascii '/' then
        if rest = [] then p.map List.dropLast else lastFrom (some rest) rest
      else lastFrom p rest

def uriPathLast (path : Bytes) : Option Bytes := lastFrom none path

/-- `JumpOverDotPaths`, from the character that is due next. -/
def jumpOverDots (skip : UInt8) : Bytes → Nat
  | [] => 0
  | c :: path =>
      if c = skip then jumpOverDots (if skip = ascii '.' then ascii '/' else ascii '.') path + 1
      else 0

def jumpOverDotPaths (path : Bytes) : Nat := jumpOverDots (ascii '/') path

/-- `r[j] = c`. -/
def put (r : Bytes) (j : Nat) (c : UInt8) : Bytes := r.take j ++ c :: r.drop (j + 1)

/-- `do --j; while (j && r[j] != '/')`. -/
def backOver (r : Bytes) : Nat → Nat
  | 0 => 0
  | j + 1 => if j = 0 ∨ r.getD j 0 = ascii '/' then j else backOver r j

/-- One turn of the loop of `uriPathAbsoluteAppend`: `c` is read at `i`, and `r` is
written at `j`. It leaves with `j` and `r`. -/
def absoluteTurn (c : Bytes) :
    Nat × Nat × Bytes → Except Stop (Turn (Nat × Nat × Bytes) (Nat × Bytes))
  | (i, j, r) =>
      let ch (k : Nat) : UInt8 := c.getD k 0
      let next (i j : Nat) (r : Bytes) : Except Stop (Turn (Nat × Nat × Bytes) (Nat × Bytes)) :=
        .ok (.again (i + 1, j + 1, put r j (ch i)))
      if ch i = 0 then .ok (.leave (j, r))
      else if ch i = ascii '/' ∧ ch (i + 1) = ascii '.' then
        if ch (i + 2) = ascii '/' then
          let r := put r j (ch i)
          let i := i + jumpOverDotPaths (c.drop i)
          if ch i = 0 then .ok (.leave (j, r))
          else if ch i = ascii '.' ∧ 3 < i ∧ ch (i - 1) = ascii '.' ∧ ch (i - 2) = ascii '/' then
            next (i - 3) j r
          else next (i - 1) j r
        else if ch (i + 2) = 0 then .ok (.leave (j, r))
        else if ch (i + 2) = ascii '.' ∧ (ch (i + 3) = ascii '/' ∨ ch (i + 3) = 0) then
          let i := i + 3
          let j := backOver r j
          if j = 0 then .ok (.leave (1, r))
          else if ch i = ascii '/' ∧ ch (i + 1) = ascii '.' then
            let i := if ch (i + 2) = ascii '/' then i + jumpOverDotPaths (c.drop i) else i
            next (i - 1) j r
          else if ch i = 0 then .ok (.leave (j, r))
          else next i j r
        else next i j r
      else next i j r

/-- `uriPathAbsoluteAppend`. -/
def uriPathAbsoluteAppend (currentPath append : Bytes) : Except Stop (Option Bytes) :=
  if append.head? = some (ascii '/') then .ok (some append)
  else if append = text "." then .ok (some currentPath)
  -- `append[3]` lies behind the terminator of `..`
  else if append = text ".." then .error .outOfBounds
  else if append.take 2 = text ".." ∧ (append.length = 3 ∨ append[3]? = some (ascii '/')) ∧
      currentPath = text "/" then .ok (some (text "/"))
  else if currentPath.head? ≠ some (ascii '/') then .ok none
  else do
    let c ← uriPathCombine currentPath append
    let (j, r) ← run (absoluteTurn c) (c.length + 1) (0, 0, [])
    -- `r` has not been written up to its terminator
    if r.length < j then .error .outOfBounds else .ok (some (r.take j))

end Paths

end Newth.Client.Uri
