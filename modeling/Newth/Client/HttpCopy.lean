import Newth.Client.BareChunks
import Newth.Client.HttpOpen
import Newth.Client.ShortWrites

namespace Newth.Client.HttpCopy

open Newth.Library.ByteString
open Newth.Library.Call
open Newth.Client.BareChunks (Emptied)
open Newth.Client.CutShort
open Newth.Client.FileCopy (Download at_set fileAt fileOpen_ok given_ok)
open Newth.Client.Headers
open Newth.Client.HttpOpen
open Newth.Client.Queue (QueueEntry copyTurn sbDataSize given)
open Newth.Client.QueueUpdate (Progress copyUntilOpen copyFromOpen)
open Newth.Client.Recvbufr (RecvBuffer Reading)
open Newth.Client.ShortWrites
open Newth.Client.Site (HttpScheme Mounted SiteArray SitePointer World siteFileClose siteFileOpenMeta
  siteFileAtEnd siteFileOpenRead siteFileOpenWrite siteFileRead siteFileWrite)
open Newth.Client.SiteFile
open Newth.Client.SiteHttp (HttpSite headersCompute)

section Sites

variable {η : Type} {http : HttpScheme η}

theorem at_set_ne {a : SiteArray η} {p q : Option SitePointer} {old other : Mounted η}
    (hp : a.at p = .ok old) (hq : a.at q = .ok other) (hne : p ≠ q) (new : Mounted η) :
    (a.set p new).at q = .ok other := by
  cases p with
  | none => simp [SiteArray.at] at hp
  | some p =>
      cases q with
      | none => simp [SiteArray.at] at hq
      | some q =>
          have hblock : ∀ {r : SitePointer} {site : Mounted η}, a.at (some r) = .ok site →
              r.block = a.block := by
            intro r site hr
            simp only [SiteArray.at] at hr
            split at hr
            · split at hr
              · assumption
              · simp at hr
            · simp at hr
          have hslot : p.slot ≠ q.slot := by
            intro hslot
            apply hne
            obtain ⟨block, slot⟩ := p
            obtain ⟨block', slot'⟩ := q
            obtain rfl : block = block' := (hblock hp).trans (hblock hq).symm
            obtain rfl : slot = slot' := hslot
            rfl
          have hsame : (a.set (some p) new).array[q.slot]? = a.array[q.slot]? :=
            List.getElem?_set_ne hslot
          simp only [SiteArray.at, hsame]
          exact hq

theorem copyUntilOpen_opens_iff {w w' : World η} {entry : QueueEntry} {toPath : Bytes} :
    copyUntilOpen http w entry = .ok (.opensWrite w' toPath) ↔
      ∃ fromPath date name path, entry.sourcePath = some fromPath ∧
        entry.destinationPath = some toPath ∧
        siteFileOpenRead http w entry.sourceSite fromPath = .ok (w', none) ∧
        siteFileOpenMeta http w' entry.sourceSite = .ok (some ⟨date, some name, path, .file⟩) := by
  rw [copyUntilOpen]
  constructor
  · intro h
    obtain ⟨fromPath, hfrom, h⟩ := bind_eq_ok_iff.mp h
    obtain ⟨toPath', hto, h⟩ := bind_eq_ok_iff.mp h
    obtain ⟨⟨w₁, e⟩, hread, h⟩ := bind_eq_ok_iff.mp h
    cases e with
    | some e => simp at h
    | none =>
        simp only [Option.isSome_none, Bool.false_eq_true, if_false] at h
        obtain ⟨found, hmeta, h⟩ := bind_eq_ok_iff.mp h
        split at h
        · obtain ⟨rfl, rfl⟩ := Progress.opensWrite.inj (Except.ok.inj h)
          exact ⟨fromPath, _, _, _, given_ok hfrom, given_ok hto, hread, hmeta⟩
        · obtain ⟨w₂, -, h⟩ := bind_eq_ok_iff.mp h
          simp at h
        · obtain ⟨w₂, -, h⟩ := bind_eq_ok_iff.mp h
          simp at h
        · obtain ⟨w₂, -, h⟩ := bind_eq_ok_iff.mp h
          simp at h
  · rintro ⟨fromPath, date, name, path, hfrom, hto, hread, hmeta⟩
    simp only [hfrom, hto, given, ok_bind, hread, Option.isSome_none, Bool.false_eq_true, if_false,
      hmeta]

theorem copyFromOpen_done_iff {fuel : Nat} {w w' : World η} {entry entry' : QueueEntry}
    {toPath : Bytes} :
    copyFromOpen http fuel entry (.opensWrite w toPath) = .ok (w', entry', none) ↔
      ∃ w₁ w₂ w₃, siteFileOpenWrite w entry.destinationSite toPath = .ok (w₁, none) ∧
        run (copyTurn http entry.sourceSite entry.destinationSite) fuel w₁ = .ok (w₂, true) ∧
        siteFileClose http w₂ entry.sourceSite = .ok w₃ ∧
        siteFileClose http w₃ entry.destinationSite = .ok w' ∧
        { entry with state := ⟨false, true, entry.state.failed⟩ } = entry' := by
  rw [copyFromOpen]
  constructor
  · intro h
    obtain ⟨⟨w₁, e⟩, hwrite, h⟩ := bind_eq_ok_iff.mp h
    cases e with
    | some e =>
        obtain ⟨w₂, -, h⟩ := bind_eq_ok_iff.mp h
        simp at h
    | none =>
        obtain ⟨⟨w₂, ended⟩, hrun, h⟩ := bind_eq_ok_iff.mp h
        obtain ⟨w₃, hsource, h⟩ := bind_eq_ok_iff.mp h
        obtain ⟨w₄, hdestination, h⟩ := bind_eq_ok_iff.mp h
        cases ended with
        | false => simp at h
        | true =>
            simp only [if_true] at h
            obtain ⟨rfl, hentry⟩ := Prod.mk.inj (Except.ok.inj h)
            exact ⟨w₁, w₂, w₃, hwrite, hrun, hsource, hdestination, (Prod.mk.inj hentry).1⟩
  · rintro ⟨w₁, w₂, w₃, hwrite, hrun, hsource, hdestination, rfl⟩
    simp only [hwrite, ok_bind, Option.isSome_none, Bool.false_eq_true, if_false, hrun, hsource,
      hdestination, if_true]

theorem siteFileOpenWrite_isFile {w w' : World η} {p : Option SitePointer} {path : Bytes}
    (h : siteFileOpenWrite w p path = .ok (w', none)) :
    ∃ site, w.sites.at p = .ok (.file site) := by
  rw [siteFileOpenWrite] at h
  obtain ⟨site, hat, h⟩ := bind_eq_ok_iff.mp h
  cases site with
  | file site => exact ⟨site, hat⟩
  | http site => simp at h

end Sites

section Loop

variable {source destination : Option SitePointer} {uri : Bytes} {inode : Nat}
  {paths : Bytes → Nat}

/-- The copy loop in between: what is in the destination, which is open for writing, and the
connection it reads from. -/
structure Copying (source destination : Option SitePointer) (uri : Bytes) (inode : Nat)
    (paths : Bytes → Nat) (conn : HttpConnection) (content : Bytes) (w : World HttpConnection) :
    Prop where
  source : w.sites.at source = .ok (.http conn)
  destination : ∃ fileMeta lossy, w.sites.at destination =
    .ok (.file ⟨uri, some ⟨inode, .wb, content.length, lossy⟩, fileMeta⟩)
  content : w.disk.content inode = some content
  paths : w.disk.inode = paths

theorem Copying.ne {conn : HttpConnection} {content : Bytes} {w : World HttpConnection}
    (h : Copying source destination uri inode paths conn content w) : source ≠ destination := by
  rintro rfl
  obtain ⟨fileMeta, lossy, hdestination⟩ := h.destination
  have hsame := h.source.symm.trans hdestination
  simp at hsame

theorem Copying.setSource {conn : HttpConnection} {content : Bytes} {w : World HttpConnection}
    (h : Copying source destination uri inode paths conn content w) (conn' : HttpConnection) :
    Copying source destination uri inode paths conn' content
      { w with sites := w.sites.set source (.http conn') } := by
  obtain ⟨fileMeta, lossy, hdestination⟩ := h.destination
  exact ⟨at_set h.source _, ⟨fileMeta, lossy, at_set_ne h.source hdestination h.ne _⟩, h.content,
    h.paths⟩

theorem Copying.read {conn conn' : HttpConnection} {content : Bytes} {w : World HttpConnection}
    {data : Option Bytes} {size : Nat}
    (h : Copying source destination uri inode paths conn content w)
    (hread : httpSiteSchemeFileRead conn size = .ok (conn', data)) :
    siteFileRead httpScheme w source size =
      .ok ({ w with sites := w.sites.set source (.http conn') }, data) := by
  have hread' : httpScheme.fileRead conn size = .ok (conn', data) := hread
  simp only [siteFileRead, h.source, ok_bind, hread']

theorem Copying.write {conn : HttpConnection} {content : Bytes} {w : World HttpConnection}
    (h : Copying source destination uri inode paths conn content w) (data : Bytes) :
    ∃ w' n, siteFileWrite w destination data = .ok (w', some n) ∧
      w'.disk.writes = w.disk.writes.tail ∧
      Copying source destination uri inode paths conn
        (content ++ (w.disk.writes.headD .whole).keeps data) w' := by
  obtain ⟨fileMeta, lossy, hdestination⟩ := h.destination
  let kept := (w.disk.writes.headD .whole).keeps data
  let taken := data.length - (w.disk.writes.headD .whole).short
  have hnew : content.take content.length ++ List.replicate (content.length - content.length) 0 ++
      kept ++ content.drop (content.length + kept.length) = content ++ kept := by
    rw [List.take_length, Nat.sub_self, List.replicate_zero, List.append_nil,
      List.drop_eq_nil_of_le (Nat.le_add_right _ _), List.append_nil]
  let file : PlatformFile :=
    ⟨inode, .wb, (content ++ kept).length, lossy || decide (kept.length < taken)⟩
  have hwrite : siteFileWrite w destination data =
      .ok (⟨(w.disk.put inode (content ++ kept)).nextWrite,
        w.sites.set destination (.file ⟨uri, some file, fileMeta⟩)⟩, some taken) := by
    simp only [siteFileWrite, hdestination, ok_bind, fileSiteSchemeFileWrite, platformFileWrite,
      h.content, Option.getD_some, file, taken]
    rw [hnew, List.length_append]
  refine ⟨_, taken, hwrite, rfl, ⟨?_, ⟨fileMeta, file.lossy, at_set hdestination _⟩, ?_, h.paths⟩⟩
  · exact at_set_ne hdestination h.source h.ne.symm _
  · show (w.disk.put inode (content ++ kept)).content inode = some (content ++ kept)
    rw [content_put, if_pos rfl]

theorem copyTurn_write {conn conn' : HttpConnection} {content data : Bytes}
    {w : World HttpConnection}
    (h : Copying source destination uri inode paths conn content w) (hdata : data ≠ [])
    (hread : httpSiteSchemeFileRead conn sbDataSize = .ok (conn', some data)) :
    ∃ w', copyTurn httpScheme source destination w = .ok (.again w') ∧
      w'.disk.writes = w.disk.writes.tail ∧
      Copying source destination uri inode paths conn'
        (content ++ (w.disk.writes.headD .whole).keeps data) w' := by
  obtain ⟨w', n, hwrite, hwrites, hcopying⟩ := (h.setSource conn').write data
  refine ⟨w', ?_, hwrites, hcopying⟩
  rw [copyTurn, h.read hread, ok_bind]
  cases data with
  | nil => exact absurd rfl hdata
  | cons c data => simp only [hwrite, ok_bind, Option.isSome_some, if_true]

theorem copyTurn_again {conn : HttpConnection} {content left : Bytes}
    {w : World HttpConnection}
    (h : Copying source destination uri inode paths conn content w)
    (hdelivers : Delivers left conn.socket) (hleft : left ≠ []) :
    ∃ w' conn', copyTurn httpScheme source destination w = .ok (.again w') ∧
      w'.disk.writes = w.disk.writes.tail ∧ Delivers (left.drop sbDataSize) conn'.socket ∧
      Copying source destination uri inode paths conn'
        (content ++ (w.disk.writes.headD .whole).keeps (left.take sbDataSize)) w' := by
  obtain ⟨site, hsite, hdelivers'⟩ := @Delivers.read left conn.site hdelivers sbDataSize
  have hread : httpSiteSchemeFileRead conn sbDataSize =
      .ok (conn.setSocket site.socket, some (left.take sbDataSize)) := by
    simp only [httpSiteSchemeFileRead, hsite, ok_bind]
  have hblock : left.take sbDataSize ≠ [] := by
    rw [ne_eq, List.take_eq_nil_iff]
    exact not_or.mpr ⟨by decide, hleft⟩
  obtain ⟨w', hturn, hwrites, hcopying⟩ := copyTurn_write h hblock hread
  exact ⟨w', conn.setSocket site.socket, hturn, hwrites, hdelivers', hcopying⟩

theorem copyTurn_leave {conn : HttpConnection} {content : Bytes} {w : World HttpConnection}
    (h : Copying source destination uri inode paths conn content w)
    {conn' : HttpConnection}
    (hread : httpSiteSchemeFileRead conn sbDataSize = .ok (conn', some [])) :
    ∃ w', copyTurn httpScheme source destination w = .ok (.leave (w', true)) ∧
      Copying source destination uri inode paths conn' content w' := by
  refine ⟨_, ?_, h.setSource conn'⟩
  rw [copyTurn, h.read hread, ok_bind]

theorem copy_delivers {fuel : Nat} {conn : HttpConnection} {content left : Bytes}
    {w : World HttpConnection}
    (h : Copying source destination uri inode paths conn content w)
    (hdelivers : Delivers left conn.socket) (hfuel : left.length < fuel) :
    ∃ w' conn', run (copyTurn httpScheme source destination) fuel w = .ok (w', true) ∧
      Copying source destination uri inode paths conn'
        (content ++ stored sbDataSize w.disk.writes left) w' := by
  induction fuel generalizing conn content left w with
  | zero => exact absurd hfuel (Nat.not_lt_zero _)
  | succ fuel ih =>
      by_cases hleft : left = []
      · subst hleft
        obtain ⟨site, hsite, -⟩ := @Delivers.read [] conn.site hdelivers sbDataSize
        have hread : httpSiteSchemeFileRead conn sbDataSize =
            .ok (conn.setSocket site.socket, some []) := by
          simp only [httpSiteSchemeFileRead, hsite, ok_bind, List.take_nil]
        obtain ⟨w', hturn, hcopying⟩ := copyTurn_leave h hread
        rw [stored_nil, List.append_nil]
        exact ⟨w', _, run_succ_leave fuel hturn, hcopying⟩
      · obtain ⟨w₁, conn₁, hturn, hwrites, hdelivers₁, hcopying₁⟩ :=
          copyTurn_again h hdelivers hleft
        have hshorter : (left.drop sbDataSize).length < fuel := by
          have hpos := List.length_pos_iff.mpr hleft
          rw [List.length_drop, sbDataSize]
          omega
        obtain ⟨w', conn', hrun, hcopying⟩ := ih hcopying₁ hdelivers₁ hshorter
        refine ⟨w', conn', (run_succ_again fuel hturn).trans hrun, ?_⟩
        rwa [hwrites, List.append_assoc, stored_block] at hcopying

theorem Copying.read_ok {conn : HttpConnection} {content : Bytes} {w w' : World HttpConnection}
    {data : Option Bytes} {size : Nat}
    (h : Copying source destination uri inode paths conn content w)
    (hread : siteFileRead httpScheme w source size = .ok (w', data)) :
    ∃ site, SiteHttp.httpSiteSchemeFileRead conn.site size = .ok (site, data) ∧
      Copying source destination uri inode paths (conn.setSocket site.socket) content w' := by
  simp only [siteFileRead, h.source, ok_bind] at hread
  obtain ⟨⟨conn', data'⟩, hsite, hread⟩ := bind_eq_ok_iff.mp hread
  obtain ⟨rfl, rfl⟩ := Prod.mk.inj (Except.ok.inj hread)
  obtain ⟨⟨site, data⟩, hdata, hconn⟩ :=
    bind_eq_ok_iff.mp (show httpSiteSchemeFileRead conn size = .ok (conn', data') from hsite)
  obtain ⟨rfl, rfl⟩ := Prod.mk.inj (Except.ok.inj hconn)
  exact ⟨site, hdata, h.setSource _⟩

theorem Cut.not_atEnd {left : Bytes} {conn : HttpConnection} (h : Cut left conn.socket) :
    httpSiteSchemeFileAtEnd conn = false := by
  obtain ⟨escape, total, hmode, -⟩ := h.mode
  simp [httpSiteSchemeFileAtEnd, hmode]

theorem copyTurn_cut {conn : HttpConnection} {content left : Bytes} {w : World HttpConnection}
    (h : Copying source destination uri inode paths conn content w)
    (hcut : Cut left conn.socket) (hopen : conn.socket.serverSocket.ending ≠ .closed)
    {turn : Turn (World HttpConnection) (World HttpConnection × Bool)}
    (hturn : copyTurn httpScheme source destination w = .ok turn) :
    (∃ w', turn = .leave (w', false)) ∨ ∃ w' conn' content' left', turn = .again w' ∧
      Copying source destination uri inode paths conn' content' w' ∧
      Cut left' conn'.socket ∧ conn'.socket.serverSocket.ending ≠ .closed := by
  rw [copyTurn] at hturn
  obtain ⟨⟨w₁, data⟩, hread, hturn⟩ := bind_eq_ok_iff.mp hturn
  obtain ⟨site, hsite, hcopying⟩ := h.read_ok hread
  obtain ⟨left', hcut', hdata⟩ := @Cut.read_open left conn.site hcut hopen _ _ _ hsite
  rcases hdata with rfl | ⟨hopen', bytes, rfl, hbytes⟩
  · have hatEnd : siteFileAtEnd httpScheme w₁ source = .ok false := by
      have hfalse : httpScheme.fileAtEnd (conn.setSocket site.socket) = false :=
        @Cut.not_atEnd left' (conn.setSocket site.socket) hcut'
      simp only [siteFileAtEnd, hcopying.source, ok_bind, hfalse]
    simp only [hatEnd, ok_bind] at hturn
    exact Or.inl ⟨w₁, (Except.ok.inj hturn).symm⟩
  · obtain ⟨w', n, hwrite, -, hcopying'⟩ := hcopying.write bytes
    cases bytes with
    | nil => simp [sbDataSize] at hbytes
    | cons c bytes =>
        simp only [hwrite, ok_bind, Option.isSome_some, if_true] at hturn
        exact Or.inr ⟨_, _, _, left', (Except.ok.inj hturn).symm, hcopying', hcut', hopen'⟩

theorem copy_cut {fuel : Nat} {conn : HttpConnection} {content left : Bytes}
    {w : World HttpConnection}
    (h : Copying source destination uri inode paths conn content w)
    (hcut : Cut left conn.socket) (hopen : conn.socket.serverSocket.ending ≠ .closed)
    {w' : World HttpConnection} {ended : Bool}
    (hrun : run (copyTurn httpScheme source destination) fuel w = .ok (w', ended)) :
    ended = false := by
  apply run_partial (fun w => ∃ conn content left,
    Copying source destination uri inode paths conn content w ∧ Cut left conn.socket ∧
      conn.socket.serverSocket.ending ≠ .closed) (fun r => r.2 = false) _ _
    ⟨conn, content, left, h, hcut, hopen⟩ hrun
  · rintro w w' ⟨conn, content, left, h, hcut, hopen⟩ hturn
    rcases copyTurn_cut h hcut hopen hturn with ⟨w₁, hleave⟩ | ⟨w₁, conn', content', left', hagain,
      hnext⟩
    · contradiction
    · obtain rfl := Turn.again.inj hagain
      exact ⟨conn', content', left', hnext⟩
  · rintro w r ⟨conn, content, left, h, hcut, hopen⟩ hturn
    rcases copyTurn_cut h hcut hopen hturn with
      ⟨w₁, hleave⟩ | ⟨w₁, conn', content', left', hagain, -⟩
    · rw [Turn.leave.inj hleave]
    · contradiction

theorem copy_emptied {fuel : Nat} {conn : HttpConnection} {content : Bytes}
    {w : World HttpConnection}
    (h : Copying source destination uri inode paths conn content w)
    (hempty : Emptied conn.socket) {w' : World HttpConnection} {ended : Bool}
    (hrun : run (copyTurn httpScheme source destination) fuel w = .ok (w', ended)) :
    ∃ conn', Copying source destination uri inode paths conn' content w' := by
  cases fuel with
  | zero => simp [run] at hrun
  | succ fuel =>
      cases hturn : copyTurn httpScheme source destination w with
      | error stop =>
          rw [run_succ_error fuel hturn] at hrun
          contradiction
      | ok turn =>
          have hleave : ∃ w₁ ended conn', turn = .leave (w₁, ended) ∧
              Copying source destination uri inode paths conn' content w₁ := by
            rw [copyTurn] at hturn
            obtain ⟨⟨w₁, data⟩, hread, hturn⟩ := bind_eq_ok_iff.mp hturn
            obtain ⟨site, hsite, hcopying⟩ := h.read_ok hread
            rcases @Emptied.read conn.site _ _ _ hempty hsite with rfl | rfl
            · obtain ⟨atEnd, -, hturn⟩ := bind_eq_ok_iff.mp hturn
              exact ⟨w₁, atEnd, _, (Except.ok.inj hturn).symm, hcopying⟩
            · exact ⟨w₁, true, _, (Except.ok.inj hturn).symm, hcopying⟩
          obtain ⟨w₁, ended', conn', rfl, hcopying⟩ := hleave
          rw [run_succ_leave fuel hturn] at hrun
          rw [← (Prod.mk.inj (Except.ok.inj hrun)).1]
          exact ⟨conn', hcopying⟩

end Loop

section Ends

variable {source destination : Option SitePointer} {w : World HttpConnection}

theorem opened_closes {w₁ : World HttpConnection} {toPath : Bytes} {conn : HttpConnection}
    (hsource : w.sites.at source = .ok (.http conn))
    (hopen : siteFileOpenWrite w destination toPath = .ok (w₁, none)) :
    ∃ uri inode, Copying source destination uri inode w.disk.inode conn [] w₁ ∧
      w₁.disk.writes = w.disk.writes ∧
      ∀ w₂ conn' content, Copying source destination uri inode w.disk.inode conn' content w₂ →
        ∃ w₃ w', siteFileClose httpScheme w₂ source = .ok w₃ ∧
          siteFileClose httpScheme w₃ destination = .ok w' ∧
          fileAt w' destination (some toPath) = some content := by
  obtain ⟨site, hsite⟩ := siteFileOpenWrite_isFile hopen
  have hne : destination ≠ source := by
    rintro rfl
    have hsame := hsource.symm.trans hsite
    simp at hsame
  simp only [siteFileOpenWrite, hsite, ok_bind, fileSiteSchemeFileOpenWrite] at hopen
  obtain ⟨⟨disk, site', e⟩, hfile, hopen⟩ := bind_eq_ok_iff.mp hopen
  obtain ⟨rfl, rfl⟩ := Prod.mk.inj (Except.ok.inj hopen)
  obtain ⟨full, hfull, rfl, rfl⟩ := fileOpen_ok hfile
  refine ⟨site.fullUri, w.disk.inode full, ⟨at_set_ne hsite hsource hne _, ⟨_, _, at_set hsite _⟩, ?_,
    rfl⟩, rfl, ?_⟩
  · show (w.disk.put (w.disk.inode full) []).content (w.disk.inode full) = some []
    rw [content_put, if_pos rfl]
  · intro w₂ conn' content h
    have hclosed := h.setSource (httpSiteSchemeFileClose conn')
    obtain ⟨fileMeta, lossy, hdestination⟩ := hclosed.destination
    let w₃ : World HttpConnection :=
      { w₂ with sites := w₂.sites.set source (.http (httpSiteSchemeFileClose conn')) }
    let file : FileSite :=
      ⟨site.fullUri, some ⟨w.disk.inode full, .wb, content.length, lossy⟩, fileMeta⟩
    refine ⟨w₃,
      { w₃ with sites := w₃.sites.set destination (.file (fileSiteSchemeFileClose file)) },
      ?_, ?_, ?_⟩
    · simp only [siteFileClose, h.source, ok_bind]
      rfl
    · simp only [siteFileClose, w₃, hdestination, ok_bind]
      rfl
    · simp only [w₃, file, fileAt, at_set hdestination, fileSiteSchemeFileClose, hfull, h.paths,
        h.content]

theorem fileOpenRead_eq {conn conn' : HttpConnection} {path resolvedPath header : Bytes}
    {r : ResponseHeader} (hrequest : requestHead conn path = .ok (conn', .ok (resolvedPath, header)))
    (hessential : (ioHttpResponseHeaderEssential header).isSome)
    (hpopulate : headersPopulate header noHeader = .ok r) :
    HttpOpen.httpSiteSchemeFileOpenRead conn path =
      (headersCompute conn'.site r.toHttpResponseHeader (text "GET") >>= fun site =>
        .ok ({ conn'.setSocket site.socket with file := some {
          modifiedDate := r.modifiedDate.map (·.toPlatformTimeStruct)
          name := openedName resolvedPath r.fileName
          path := some resolvedPath
          type := if r.attachment then .file else .directory } }, none)) := by
  obtain ⟨essential, hessential⟩ := Option.isSome_iff_exists.mp hessential
  simp only [HttpOpen.httpSiteSchemeFileOpenRead, hrequest, ok_bind, hessential, hpopulate]

theorem siteFileOpenRead_http_iff {w' : World HttpConnection} {path : Bytes}
    {conn : HttpConnection} (hsource : w.sites.at source = .ok (.http conn)) :
    siteFileOpenRead httpScheme w source path = .ok (w', none) ↔
      ∃ conn', HttpOpen.httpSiteSchemeFileOpenRead conn path = .ok (conn', none) ∧
        { w with sites := w.sites.set source (.http conn') } = w' := by
  have hscheme : httpScheme.fileOpenRead conn path =
      (HttpOpen.httpSiteSchemeFileOpenRead conn path >>= fun opened =>
        .ok (opened.1, opened.2.map fun _ => SiteError.failed)) := rfl
  simp only [siteFileOpenRead, hsource, ok_bind, hscheme]
  constructor
  · intro h
    obtain ⟨⟨conn', e⟩, hopened, h⟩ := bind_eq_ok_iff.mp h
    obtain ⟨⟨conn'', e'⟩, hread, hopened⟩ := bind_eq_ok_iff.mp hopened
    obtain ⟨rfl, rfl⟩ := Prod.mk.inj (Except.ok.inj hopened)
    obtain ⟨hw, he⟩ := Prod.mk.inj (Except.ok.inj h)
    obtain rfl := Option.map_eq_none_iff.mp he
    exact ⟨conn'', hread, hw⟩
  · rintro ⟨conn', hread, rfl⟩
    simp only [hread, ok_bind, Option.map_none]

end Ends

end Newth.Client.HttpCopy
