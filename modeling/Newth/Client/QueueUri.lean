import Newth.Client.Queue

namespace Newth.Client.QueueUri

open Newth.Library.ByteString
open Newth.Library.Call
open Newth.Client.Uri
open Newth.Client.Site
open Newth.Client.Queue

section Hosts

variable {η : Type} (http : HttpScheme η) (gethostbyname : Bytes → Option Bytes)

/-- Whether a site answers for a scheme and, where that is HTTP, for an address. -/
def serves (type : UriScheme) (desiredAddress : Option Bytes) : Mounted η → Bool
  | .file _ => type = .file
  | .http site => type = .http ∧ desiredAddress.isSome ∧
      uriDetailsGetHostAddr gethostbyname (uriDetailsNewFrom (http.fullUri site)) = desiredAddress

/-- Whether a site answers for a URI. -/
def servesUri (uri : Bytes) : Mounted η → Bool :=
  let details := uriDetailsNewFrom uri
  serves http gethostbyname (uriDetailsGetScheme details)
    (uriDetailsGetHostAddr gethostbyname details)

variable {http gethostbyname}

theorem getByUriHostFrom_eq {type : UriScheme} {desired : Option Bytes} {sites : List (Mounted η)}
    {i : Nat} {found : Option Nat}
    (h : getByUriHostFrom http gethostbyname type desired i sites = .ok found) :
    found = (sites.findIdx? (serves http gethostbyname type desired)).map (· + i) := by
  induction sites generalizing i with
  | nil =>
      obtain rfl : none = found := by simpa [getByUriHostFrom] using h
      rfl
  | cons site rest ih =>
      have hskip (hnot : serves http gethostbyname type desired site = false)
          (hrest : getByUriHostFrom http gethostbyname type desired (i + 1) rest = .ok found) :
          found =
            ((site :: rest).findIdx? (serves http gethostbyname type desired)).map (· + i) := by
        rw [ih hrest, List.findIdx?_cons, hnot]
        simp only [Bool.false_eq_true, if_false, Option.map_map]
        congr 1
        funext n
        simp only [Function.comp_apply]
        omega
      have hstop (hyes : serves http gethostbyname type desired site = true)
          (hfound : some i = found) :
          found =
            ((site :: rest).findIdx? (serves http gethostbyname type desired)).map (· + i) := by
        rw [List.findIdx?_cons, hyes, ← hfound]
        simp
      cases site with
      | file site =>
          rw [getByUriHostFrom] at h
          by_cases hfile : type = .file
          · rw [if_pos hfile] at h
            exact hstop (by simp [serves, hfile]) (Except.ok.inj h)
          · rw [if_neg hfile] at h
            exact hskip (by simp [serves, hfile]) h
      | http site =>
          unfold getByUriHostFrom at h
          by_cases hhttp : type = .http
          · rw [if_pos hhttp] at h
            split at h
            · rename_i hnone
              apply hskip (decide_eq_false _) h
              rintro ⟨-, hsome, hsame⟩
              rw [← hsame, hnone] at hsome
              contradiction
            · simp at h
            · rename_i siteAddress desired hsite
              by_cases hsame : desired = siteAddress
              · rw [if_pos hsame] at h
                exact hstop (by simp [serves, hhttp, hsite, hsame]) (Except.ok.inj h)
              · rw [if_neg hsame] at h
                exact hskip (by simp [serves, hsite, Ne.symm hsame]) h
          · rw [if_neg hhttp] at h
            exact hskip (by simp [serves, hhttp]) h

theorem serves_file {desired desired' : Option Bytes} (site : Mounted η) :
    serves http gethostbyname .file desired site =
      serves http gethostbyname .file desired' site := by
  cases site <;> simp [serves]

theorem siteArrayGetByUriHost_eq {array : SiteArray η} {uri : Bytes} {p : Option SitePointer}
    (h : siteArrayGetByUriHost http gethostbyname array uri = .ok p) :
    p = (array.array.findIdx? (servesUri http gethostbyname uri)).map
      fun i => ⟨array.block, i⟩ := by
  have hfound {found : Option Nat} {type : UriScheme} {desired : Option Bytes}
      (hsame : serves http gethostbyname type desired = servesUri http gethostbyname uri)
      (hfrom : getByUriHostFrom http gethostbyname type desired 0 array.array = .ok found) :
      found = array.array.findIdx? (servesUri http gethostbyname uri) := by
    rw [← hsame]
    simpa using getByUriHostFrom_eq hfrom
  simp only [siteArrayGetByUriHost] at h
  split at h
  · rename_i hfile
    obtain ⟨found, hfrom, hp⟩ := bind_eq_ok_iff.mp h
    obtain rfl := Except.ok.inj hp
    rw [hfound _ hfrom]
    funext site
    rw [servesUri, hfile]
    exact serves_file site
  · rename_i hhttp
    obtain ⟨found, hfrom, hp⟩ := bind_eq_ok_iff.mp h
    obtain rfl := Except.ok.inj hp
    rw [hfound _ hfrom]
    funext site
    rw [servesUri, hhttp]
  · rename_i hfile hhttp
    obtain rfl : none = p := by simpa using h
    have hnone : array.array.findIdx? (servesUri http gethostbyname uri) = none := by
      rw [List.findIdx?_eq_none_iff]
      intro site _
      cases site with
      | file site => exact decide_eq_false hfile
      | http site => exact decide_eq_false fun h => hhttp h.1
    rw [hnone]
    rfl

end Hosts

section Entry

variable {η : Type} (http : HttpScheme η) (gethostbyname : Bytes → Option Bytes)

def queueEntryGetUri (array : SiteArray η) (site : Option SitePointer) (path : Option Bytes) :
    Except Stop (Option Bytes) := do
  let site ← array.at site
  let d := uriDetailsNewFrom (siteWorkingDirectoryGet http site)
  .ok (uriDetailsCreateString { d with path := path })

/-- A site and a path stand for a URI: they give it back, and the site has its port. -/
def Denotes (array : SiteArray η) (p : Option SitePointer) (path : Option Bytes) (uri : Bytes) :
    Prop :=
  queueEntryGetUri http array p path = .ok (some uri) ∧
    ∀ site, array.at p = .ok site →
      uriDetailsGetPort (uriDetailsNewFrom (siteWorkingDirectoryGet http site)) =
        uriDetailsGetPort (uriDetailsNewFrom uri)

/-- Two URIs that differ in nothing but their paths, and the second has one. -/
def SameButPath (workingDirectory uri : Bytes) : Prop :=
  let d := uriDetailsNewFrom workingDirectory
  let details := uriDetailsNewFrom uri
  details.path ≠ none ∧ d.scheme = details.scheme ∧ d.host = details.host ∧
    d.port = details.port ∧ d.query = details.query

/-- The first site that serves the URI is where the URI says it is. -/
def KeepsUri (array : SiteArray η) (uri : Bytes) : Prop :=
  ∀ site, array.array.find? (servesUri http gethostbyname uri) = some site →
    SameButPath (siteWorkingDirectoryGet http site) uri

variable {http gethostbyname}

theorem at_of_findIdx {array : SiteArray η} {uri : Bytes} {i : Nat}
    (h : array.array.findIdx? (servesUri http gethostbyname uri) = some i) :
    ∃ site, array.at (some ⟨array.block, i⟩) = .ok site ∧
      array.array.find? (servesUri http gethostbyname uri) = some site ∧
      servesUri http gethostbyname uri site = true := by
  obtain ⟨hi, hserves, hfirst⟩ := List.findIdx?_eq_some_iff_getElem.mp h
  refine ⟨array.array[i], ?_, ?_, hserves⟩
  · simp [SiteArray.at, List.getElem?_eq_getElem hi]
  · rw [List.find?_eq_some_iff_getElem]
    exact ⟨hserves, i, hi, rfl, by simpa using hfirst⟩

theorem scheme_of_serves {uri : Bytes} {site : Mounted η}
    (h : servesUri http gethostbyname uri site = true) : (uriDetailsNewFrom uri).scheme ≠ none := by
  intro hnone
  have hunknown : uriDetailsGetScheme (uriDetailsNewFrom uri) = .unknown := by
    rw [uriDetailsGetScheme, hnone]
    rfl
  cases site <;> simp [servesUri, serves, hunknown] at h

theorem createString_iff {workingDirectory uri : Bytes}
    (hscheme : (uriDetailsNewFrom uri).scheme ≠ none) :
    uriDetailsCreateString { uriDetailsNewFrom workingDirectory with
        path := (uriDetailsNewFrom uri).path } = some uri ↔
      SameButPath workingDirectory uri := by
  have hwd := parsed_newFrom workingDirectory
  have hparsed : Parsed { uriDetailsNewFrom workingDirectory with
      path := (uriDetailsNewFrom uri).path } :=
    ⟨hwd.scheme, hwd.host, hwd.port, (parsed_newFrom uri).path⟩
  constructor
  · intro h
    have hsame := newFrom_createString hparsed h
    refine ⟨?_, ?_, ?_, ?_, ?_⟩
    · intro hnone
      simp [uriDetailsCreateString, hnone] at h
    · rw [hsame]
    · rw [hsame]
    · rw [hsame]
    · rw [hsame]
  · rintro ⟨hpath, hs, hh, hp, hq⟩
    obtain ⟨scheme, hscheme⟩ := Option.ne_none_iff_exists'.mp hscheme
    obtain ⟨path, hpath⟩ := Option.ne_none_iff_exists'.mp hpath
    have hsame : { uriDetailsNewFrom workingDirectory with path := (uriDetailsNewFrom uri).path } =
        uriDetailsNewFrom uri := by
      simp only [hs, hh, hp, hq]
    rw [hsame]
    exact uriDetailsCreateString_newFrom hscheme hpath

theorem denotes_iff {array : SiteArray η} {uri : Bytes} {p : Option SitePointer}
    (h : siteArrayGetByUriHost http gethostbyname array uri = .ok p) :
    (p ≠ none → Denotes http array p (uriDetailsNewFrom uri).path uri) ↔
      KeepsUri http gethostbyname array uri := by
  have hp := siteArrayGetByUriHost_eq h
  cases hfound : array.array.findIdx? (servesUri http gethostbyname uri) with
  | none =>
      rw [hfound, Option.map_none] at hp
      have hnone : array.array.find? (servesUri http gethostbyname uri) = none := by
        rw [List.find?_eq_none]
        simpa using hfound
      simp [hp, KeepsUri, hnone]
  | some i =>
      rw [hfound, Option.map_some] at hp
      obtain ⟨site, hat, hfind, hserves⟩ := at_of_findIdx hfound
      have huri :=
        @createString_iff (siteWorkingDirectoryGet http site) uri (scheme_of_serves hserves)
      simp only [hp, ne_eq, reduceCtorEq, not_false_eq_true, true_implies, Denotes,
        queueEntryGetUri, hat, ok_bind, Except.ok.injEq, huri, KeepsUri, hfind, Option.some.injEq,
        forall_eq']
      rw [and_iff_left_iff_imp]
      rintro ⟨-, hscheme, -, hport, -⟩
      simp only [uriDetailsGetPort, uriDetailsGetScheme, hscheme, hport]

theorem newFromPath_ok {array : SiteArray η} {source : Bytes} {destination : Option Bytes}
    {entry : QueueEntry}
    (h : queueEntryNewFromPath http gethostbyname array source destination = .ok (.ok entry)) :
    (∃ u, siteArrayUserPathResolve http array source false = .ok (some u) ∧
      siteArrayGetByUriHost http gethostbyname array u = .ok entry.sourceSite ∧
      entry.sourcePath = (uriDetailsNewFrom u).path) ∧
    ((∃ d v, destination = some d ∧ siteArrayUserPathResolve http array d true = .ok (some v) ∧
        siteArrayGetByUriHost http gethostbyname array v = .ok entry.destinationSite ∧
        entry.destinationPath = (uriDetailsNewFrom v).path) ∨
      (∀ d v, destination = some d →
        siteArrayUserPathResolve http array d true ≠ .ok (some v)) ∧
      ∃ site, array.at entry.destinationSite = .ok site) := by
  rw [queueEntryNewFromPath] at h
  obtain ⟨u, hu, h⟩ := bind_eq_ok_iff.mp h
  cases u with
  | none => simp at h
  | some u =>
      cases destination with
      | none =>
          simp only [ok_bind] at h
          obtain ⟨srcSite, hsrc, h⟩ := bind_eq_ok_iff.mp h
          obtain ⟨site, hsite, h⟩ := bind_eq_ok_iff.mp h
          obtain rfl := Except.ok.inj (Except.ok.inj h)
          exact ⟨⟨u, hu, hsrc, rfl⟩, .inr ⟨by simp, site, hsite⟩⟩
      | some d =>
          obtain ⟨dst, hdst, h⟩ := bind_eq_ok_iff.mp h
          obtain ⟨srcSite, hsrc, h⟩ := bind_eq_ok_iff.mp h
          cases dst with
          | none =>
              simp only [ok_bind] at h
              obtain ⟨site, hsite, h⟩ := bind_eq_ok_iff.mp h
              obtain rfl := Except.ok.inj (Except.ok.inj h)
              refine ⟨⟨u, hu, hsrc, rfl⟩, .inr ⟨?_, site, hsite⟩⟩
              intro d' v hd hv
              obtain rfl := Option.some.inj hd
              rw [hdst] at hv
              simp at hv
          | some v =>
              obtain ⟨dstSite, hdstSite, h⟩ := bind_eq_ok_iff.mp h
              obtain rfl := Except.ok.inj (Except.ok.inj h)
              exact ⟨⟨u, hu, hsrc, rfl⟩, .inl ⟨d, v, rfl, hdst, hdstSite, rfl⟩⟩

/-- A queue entry stands for the URIs it was made from exactly when the first sites that
serve them are where these URIs say. -/
theorem entry_denotes_iff {array : SiteArray η} {source u : Bytes} {destination : Option Bytes}
    {entry : QueueEntry} (hu : siteArrayUserPathResolve http array source false = .ok (some u))
    (h : queueEntryNewFromPath http gethostbyname array source destination = .ok (.ok entry)) :
    ((entry.sourceSite ≠ none → Denotes http array entry.sourceSite entry.sourcePath u) ↔
        KeepsUri http gethostbyname array u) ∧
      ∀ d v, destination = some d → siteArrayUserPathResolve http array d true = .ok (some v) →
        ((entry.destinationSite ≠ none →
            Denotes http array entry.destinationSite entry.destinationPath v) ↔
          KeepsUri http gethostbyname array v) := by
  obtain ⟨⟨u', hu', hsite, hpath⟩, hdestination⟩ := newFromPath_ok h
  obtain rfl := Option.some.inj (Except.ok.inj (hu.symm.trans hu'))
  constructor
  · rw [hpath]
    exact denotes_iff hsite
  · intro d v hd hv
    rcases hdestination with ⟨d', v', hd', hv', hsite, hpath⟩ | ⟨hnone, -⟩
    · obtain rfl := Option.some.inj (hd.symm.trans hd')
      obtain rfl := Option.some.inj (Except.ok.inj (hv.symm.trans hv'))
      rw [hpath]
      exact denotes_iff hsite
    · exact absurd hv (hnone d v hd)

/-- HTTP sites of which only the URI is told. -/
def plainHttp : HttpScheme Bytes :=
  ⟨id, fun site _ => .ok (site, none), fun site _ => .ok (site, none), fun _ => none,
    fun site _ => .ok (site, none), fun _ => true, id⟩

def oneAddress : Bytes → Option Bytes := fun _ => some (text "10.0.0.1")

/-- A file site to write to, and an HTTP site on port 8080. -/
def alternatePort : SiteArray Bytes :=
  ⟨0, [.file ⟨text "file:///home", none, SiteFile.noMeta⟩, .http (text "http://host:8080/")], 1, 0⟩

def entryOfA : QueueEntry :=
  ⟨some ⟨0, 1⟩, some ⟨0, 0⟩, some (text "/a"), some (text "/home"), ⟨true, false, false⟩⟩

theorem entry_denotes_sample :
    ((entryOfA.sourceSite ≠ none → Denotes plainHttp alternatePort entryOfA.sourceSite
        entryOfA.sourcePath (text "http://host:8080/a")) ↔
      KeepsUri plainHttp oneAddress alternatePort (text "http://host:8080/a")) ∧
    ∀ d v, (none : Option Bytes) = some d →
      siteArrayUserPathResolve plainHttp alternatePort d true = .ok (some v) →
        ((entryOfA.destinationSite ≠ none → Denotes plainHttp alternatePort
            entryOfA.destinationSite entryOfA.destinationPath v) ↔
          KeepsUri plainHttp oneAddress alternatePort v) :=
  @entry_denotes_iff Bytes plainHttp oneAddress alternatePort (text "http://host:8080/a")
    (text "http://host:8080/a") none entryOfA rfl rfl

/-- The entry made from a URI on port 9090 stands for one on port 8080. -/
theorem entry_not_denotes :
    ¬ ∀ (array : SiteArray Bytes) (source u : Bytes) (destination : Option Bytes)
      (entry : QueueEntry),
      siteArrayUserPathResolve plainHttp array source false = .ok (some u) →
      queueEntryNewFromPath plainHttp oneAddress array source destination = .ok (.ok entry) →
      entry.sourceSite ≠ none → Denotes plainHttp array entry.sourceSite entry.sourcePath u := by
  intro h
  obtain ⟨huri, -⟩ := h alternatePort (text "http://host:9090/a") (text "http://host:9090/a") none
    entryOfA rfl rfl (by decide)
  have hother : queueEntryGetUri plainHttp alternatePort entryOfA.sourceSite entryOfA.sourcePath =
      .ok (some (text "http://host:8080/a")) := rfl
  rw [hother] at huri
  exact absurd huri (by decide)

end Entry

end Newth.Client.QueueUri
