import Avant.App.HttpListing

/-!
# Answers to `HEAD`

A response to `HEAD` ends with the blank line behind its header lines. The `write_end_callback` of a
file sees to this, and the responses 416 and 304 have no body anyway. The other exits of
`process_callback` answer `HEAD` as they answer `GET`: 404 and 500 with a text of three bytes, and a
directory with its listing.

Results:
* `mute_or_loud`: which answers to `HEAD` have a body, exit by exit;
* **`headBodiless_iff`**: no byte is sent behind the header lines, on every connection and under
  every schedule of sends, exactly if the URL leads to a regular file that can be served, or an
  exception of the file system leaves nothing to send.
-/

namespace Avant.App

open Avant.Lib Avant.Conn Avant.Conn.HttpCtx
open Avant.Conn.HttpTrace (response sentOut)
open Avant.Lib.Http (headText IsLine)

/-- **No byte is sent behind the header lines** of the response to `r`, when the handler gets the
answers `os`. -/
def HeadBodiless (cfg : HttpConfig) (r : HttpRequest) (os : HttpOs) : Prop :=
  ∀ {P : Type} {L : Http.Parser P} {useSsl : Bool} {os₀ : HttpOs} {evs₀ : List (HttpEvent HttpOs)}
    {s : HttpCtx P WriteEnd} {ev : HttpEvent HttpOs},
    exec (step L (httpApp cfg) useSsl) (accepted L (httpApp cfg) useSsl os₀) evs₀ = some s →
    s.Processes L (httpApp cfg) useSsl ev r → ev.os = os →
    ∀ evs s', exec (step L (httpApp cfg) useSsl) s (ev :: evs) = some s' →
      Http.body (sentOut (response (since s s'))) = []

/-- A regular file is answered without an error of the server: its size is known, and the range is
refused, the cached copy is good, or everything can be opened. -/
def FileServed (cfg : HttpConfig) (r : HttpRequest) (tPath : Bytes) (os : HttpOs) : Prop :=
  ∃ fileSize, os.stat = some fileSize ∧
    let etag := (generateEtag cfg os.etagStat).1
    let date := (generateEtag cfg os.etagStat).2
    let range := resolveRange (headerRanges r.headers) (singleHeader (ascii "If-Range") r.headers)
      etag fileSize
    range = .unsatisfiable ∨ (range.isPart = false ∧ notModified r.headers etag date = true) ∨
      (os.newResponse = true ∧ (useGzip cfg r.headers tPath range = true → os.deflateInit = true) ∧
        os.fopen = true)

/-- The URL leads to a regular file that is served, or to an exception of the file system. -/
def ServedOrThrows (cfg : HttpConfig) (r : HttpRequest) (os : HttpOs) : Prop :=
  ∃ tPath, staticPath cfg.staticDir r.url = .path tPath ∧
    (andThen os.pathExists os.isRegularFile = none ∨
      (andThen os.pathExists os.isRegularFile = some true ∧ FileServed cfg r tPath os) ∨
      (andThen os.pathExists os.isRegularFile = some false ∧
        andThen os.existsAgain os.isDirectory = none))

variable {cfg : HttpConfig} {r : HttpRequest} {os : HttpOs}

/-! ## Answers with and without a body -/

/-- The answer is a head and nothing else, or an exception without any. -/
def Mute (cfg : HttpConfig) (a : Answer) : Prop :=
  (a.run.threw = true ∧ a.run.append = []) ∨
    ∃ lines, lines ≠ [] ∧ (∀ l ∈ lines, IsLine l) ∧
      Script (httpApp cfg) (fun _ => True) a.run [headText lines]

/-- The answer is a head and a body. -/
def Loud (cfg : HttpConfig) (a : Answer) : Prop :=
  ∃ lines b ps, lines ≠ [] ∧ (∀ l ∈ lines, IsLine l) ∧ b ≠ [] ∧ ps.flatten = headText lines ++ b ∧
    Script (httpApp cfg) (fun _ => True) a.run ps

theorem mute_threw (cfg : HttpConfig) : Mute cfg .threw := .inl ⟨rfl, rfl⟩

theorem mute_finished (cfg : HttpConfig) {lines : List Bytes} (hne : lines ≠ [])
    (hlines : ∀ l ∈ lines, IsLine l) (ops : List PtrOp) :
    Mute cfg (.finished (headText lines) ops) :=
  .inr ⟨lines, hne, hlines, .last rfl rfl⟩

theorem loud_finished (cfg : HttpConfig) {lines : List Bytes} (hne : lines ≠ [])
    (hlines : ∀ l ∈ lines, IsLine l) {b : Bytes} (hb : b ≠ []) (ops : List PtrOp) :
    Loud cfg (.finished (headText lines ++ b) ops) :=
  ⟨lines, b, [headText lines ++ b], hne, hlines, hb, by simp, .last rfl rfl⟩

theorem loud_404 (cfg : HttpConfig) (keepAlive : Bool) (ops : List PtrOp) :
    Loud cfg (.finished (return404 keepAlive) ops) :=
  loud_finished cfg (by simp [errorLines]) (isLine_errorLines (by decide) (by simp) keepAlive)
    (by decide) ops

theorem loud_500 (cfg : HttpConfig) (keepAlive : Bool) (ops : List PtrOp) :
    Loud cfg (.finished (return500 keepAlive) ops) :=
  loud_finished cfg (by simp [errorLines]) (isLine_errorLines (by decide) (by simp) keepAlive)
    (by decide) ops

/-- The callback of a file does nothing on `HEAD`. -/
theorem mute_file (cfg : HttpConfig) {lines : List Bytes} (hne : lines ≠ [])
    (hlines : ∀ l ∈ lines, IsLine l) (partialResponse : Bool) (resp : FileResponse) (os : HttpOs)
    (ops : List PtrOp) :
    Mute cfg (startResponse (headText lines) (.file true partialResponse resp) os ops) := by
  refine .inr ⟨lines, hne, hlines, ?_⟩
  have hrun : Script (httpApp cfg) (fun _ => True)
      (startResponse (headText lines) (.file true partialResponse resp) os ops).run
      [headText lines ++ []] := .last rfl rfl
  rwa [List.append_nil] at hrun

/-- A listing has a body. -/
theorem loud_directory (h : Lists cfg os.entries r os) (hhead : r.method = ascii "HEAD") :
    Loud cfg (processAnswer cfg r os) := by
  rw [processAnswer_of_lists h (.inr hhead)]
  generalize hpage : directoryPage cfg os.entries = page
  have hlen : 0 < page.length := by
    obtain ⟨tail, htail, -⟩ := directoryPage_eq cfg os.entries
    rw [← hpage, htail]
    simp
  obtain ⟨ps, hflat, hne, hscript⟩ := script_listing cfg (Nat.le_refl page.length)
  rw [Nat.sub_self] at hscript
  obtain ⟨p, ps, rfl⟩ := List.exists_cons_of_ne_nil hne
  refine ⟨directoryLines (headerExistKeepLive r.headers) page, repeated page 1024000 page.length, _,
    by simp [directoryLines], isLine_directoryLines _ page, ?_, ?_,
    script_startResponse _ _ (hscript os)⟩
  · rw [← List.length_pos_iff, length_repeated (by decide) (Nat.le_refl _)]
    exact hlen
  · rw [← hflat]
    simp

/-! ## Exit by exit -/

theorem mute_or_loud_sendFile (tPath : Bytes) (fileSize : Nat) (range : RangeResult)
    (hhead : r.method = ascii "HEAD") :
    let etag := (generateEtag cfg os.etagStat).1
    let date := (generateEtag cfg os.etagStat).2
    let good := (range.isPart = false ∧ notModified r.headers etag date = true) ∨
      (os.newResponse = true ∧ (useGzip cfg r.headers tPath range = true → os.deflateInit = true) ∧
        os.fopen = true)
    (good ∧ Mute cfg (sendFile cfg r tPath fileSize range os)) ∨
      (¬ good ∧ Loud cfg (sendFile cfg r tPath fileSize range os)) := by
  intro etag date good
  have hexit := sendFile_exit cfg r os tPath fileSize range
  generalize sendFile cfg r tPath fileSize range os = a at hexit ⊢
  cases hexit with
  | cached hfull hcached =>
    exact .inl ⟨.inl ⟨hfull, hcached⟩, mute_finished cfg (by simp [lines304]) (isLine_lines304 _) _⟩
  | noResponse hcached hnew =>
    refine .inr ⟨?_, loud_500 cfg _ _⟩
    rintro (h | ⟨h, -, -⟩)
    · exact hcached h
    · exact absurd (h.symm.trans hnew) (by decide)
  | failed hcached hfail =>
    refine .inr ⟨?_, loud_500 cfg _ _⟩
    rintro (h | ⟨-, hdeflate, hopen⟩)
    · exact hcached h
    · rcases hfail with ⟨hgzip, hf⟩ | hf | ⟨-, hget, -⟩
      · exact absurd ((hdeflate hgzip).symm.trans hf) (by decide)
      · exact absurd (hopen.symm.trans hf) (by decide)
      · exact hget hhead
  | started hnew hgzip hopen =>
    refine .inl ⟨.inr ⟨hnew, hgzip, hopen⟩, ?_⟩
    have hmethod : decide (r.method = ascii "HEAD") = true := decide_eq_true hhead
    rw [hmethod]
    exact mute_file cfg (by simp [fileLines])
      (isLine_fileLines cfg os.etagStat tPath _ _ _ _) _ _ _ _

theorem mute_or_loud_fileAnswer (tPath : Bytes) (hhead : r.method = ascii "HEAD") :
    (FileServed cfg r tPath os ∧ Mute cfg (fileAnswer cfg r tPath os)) ∨
      (¬ FileServed cfg r tPath os ∧ Loud cfg (fileAnswer cfg r tPath os)) := by
  have hexit := fileAnswer_exit cfg r os tPath
  generalize fileAnswer cfg r tPath os = a at hexit ⊢
  unfold FileServed
  cases hexit with
  | statFailed hstat => exact .inr ⟨by simp [hstat], loud_500 cfg _ _⟩
  | @unsatisfiable fileSize hstat hrange =>
    exact .inl ⟨⟨fileSize, hstat, .inl hrange⟩, mute_finished cfg (by simp [lines416])
      (isLine_lines416 _ (cr_not_mem_generateEtag cfg os.etagStat).1 fileSize) _⟩
  | @send fileSize range hstat hrange hgood =>
    rcases mute_or_loud_sendFile tPath fileSize range hhead with ⟨hsent, hmute⟩ | ⟨hsent, hloud⟩
    · refine .inl ⟨⟨fileSize, hstat, .inr ?_⟩, hmute⟩
      rwa [hrange]
    · refine .inr ⟨?_, hloud⟩
      rintro ⟨size, hsize, hserved⟩
      obtain rfl := Option.some.inj (hstat.symm.trans hsize)
      simp only [hrange] at hserved
      exact hserved.elim hgood hsent

/-- **Which answers to `HEAD` have a body.** -/
theorem mute_or_loud (cfg : HttpConfig) (os : HttpOs) (hhead : r.method = ascii "HEAD") :
    (ServedOrThrows cfg r os ∧ Mute cfg (processAnswer cfg r os)) ∨
      (¬ ServedOrThrows cfg r os ∧ Loud cfg (processAnswer cfg r os)) := by
  have hexit := processAnswer_exit cfg r os
  generalize hanswer : processAnswer cfg r os = a at hexit ⊢
  unfold ServedOrThrows
  cases hexit with
  | notAllowed _ hno => exact absurd hhead hno
  | internalError hpath => exact .inr ⟨by simp [hpath], loud_500 cfg _ _⟩
  | notFound hpath => exact .inr ⟨by simp [hpath], loud_404 cfg _ _⟩
  | @regularThrew tPath hpath hregular =>
    exact .inl ⟨⟨tPath, hpath, .inl hregular⟩, mute_threw cfg⟩
  | @file tPath hpath hregular =>
    rcases mute_or_loud_fileAnswer tPath hhead with ⟨hserved, hmute⟩ | ⟨hserved, hloud⟩
    · exact .inl ⟨⟨tPath, hpath, .inr (.inl ⟨hregular, hserved⟩)⟩, hmute⟩
    · exact .inr ⟨by simpa [hpath, hregular] using hserved, hloud⟩
  | @directoryThrew tPath hpath hregular hdirectory =>
    exact .inl ⟨⟨tPath, hpath, .inr (.inr ⟨hregular, hdirectory⟩)⟩, mute_threw cfg⟩
  | @directory tPath hmethod hpath hregular hdirectory =>
    refine .inr ⟨by simp [hpath, hregular, hdirectory], ?_⟩
    have hlisted (hnew : os.newResponse = true) (hdir : os.newDir = true) :
        Loud cfg (directoryAnswer cfg r os) :=
      hanswer ▸ loud_directory ⟨⟨tPath, hpath⟩, hregular, hdirectory, hnew, hdir, rfl⟩ hhead
    have hexit := directoryAnswer_exit cfg r os
    generalize directoryAnswer cfg r os = a at hexit hlisted ⊢
    cases hexit with
    | noResponse | noDir => exact loud_404 cfg _ _
    | listed hnew hdir => exact hlisted hnew hdir
  | missing hpath hregular hdirectory =>
    exact .inr ⟨by simp [hpath, hregular, hdirectory], loud_404 cfg _ _⟩

/-! ## The result -/

theorem headBodiless_of_mute (h : Mute cfg (processAnswer cfg r os)) : HeadBodiless cfg r os := by
  intro P L useSsl os₀ evs₀ s ev hs hp hos evs s' hexec
  subst hos
  obtain ⟨run, hrun, hrun'⟩ := processCallback_eq cfg r ev.os
  have hbetween := between_of_run hs
  rcases h with ⟨hthrew, happend⟩ | ⟨lines, hne, hlines, hscript⟩
  · rw [← hrun'] at hthrew happend
    have hfollows := follows_of_threw hbetween hp hrun hthrew hexec
    rw [happend] at hfollows
    rw [List.prefix_nil.mp hfollows.sent]
    rfl
  · rw [← hrun'] at hscript
    have hdelivered :=
      delivered_of_script hbetween hp hrun hscript trivial (fun _ _ => trivial) hexec
    have hsent := hdelivered.follows.sent
    rw [List.flatten_singleton] at hsent
    exact Http.body_of_prefix hne hlines hsent

/-- An answer with a body is sent, when the socket takes bytes often enough. -/
theorem not_headBodiless_of_loud (hreq : Gathered r) (h : Loud cfg (processAnswer cfg r os)) :
    ¬ HeadBodiless cfg r os := by
  intro hbodiless
  obtain ⟨lines, b, ps, hne, hlines, hb, hflat, hscript⟩ := h
  obtain ⟨L, hp⟩ : ∃ L : Http.Parser Unit, (accepted L (httpApp cfg) false os).Processes L
      (httpApp cfg) false (readEvent os) r := exists_processes hreq (fun _ _ => rfl) os os
  have hs : exec (step L (httpApp cfg) false) (accepted L (httpApp cfg) false os) [] =
      some (accepted L (httpApp cfg) false os) := rfl
  have hsmooth : (readEvent os).Smooth := ⟨by simp [readEvent], by simp [readEvent]⟩
  obtain ⟨run, hrun, hrun'⟩ := processCallback_eq cfg r (readEvent os).os
  obtain ⟨s', hexec⟩ : ∃ s', exec (step L (httpApp cfg) false) (accepted L (httpApp cfg) false os)
      (readEvent os :: draining os (ps.flatten.length + ps.length + 1)) = some s' := exec_step _ _
  have hdelivered := delivered_of_script (between_of_run hs) hp hrun (hrun' ▸ hscript) trivial
    (fun _ _ => trivial) hexec
  have hwhole := hdelivered.whole_of_draining (by omega) hsmooth rfl
  have hbody := hbodiless hs hp rfl _ s' hexec
  rw [hwhole.1, hflat, Http.body_headText hne hlines] at hbody
  exact hb hbody

/-- **`HEAD` has no body** exactly if the URL leads to a regular file that is served, or an
exception of the file system ends the exchange. -/
theorem headBodiless_iff (os : HttpOs) (hhead : r.method = ascii "HEAD") (hreq : Gathered r) :
    HeadBodiless cfg r os ↔ ServedOrThrows cfg r os := by
  rcases mute_or_loud cfg os hhead with ⟨hserved, hmute⟩ | ⟨hserved, hloud⟩
  · exact iff_of_true (headBodiless_of_mute hmute) hserved
  · exact iff_of_false (not_headBodiless_of_loud hreq hloud) hserved

/-- A `HEAD` of the root without headers. -/
def headRequest : HttpRequest := ⟨ascii "HEAD", ascii "/", ascii "HTTP", ascii "1.1", []⟩

theorem gathered_headRequest : Gathered headRequest :=
  ⟨[.data .method (ascii "HEAD"), .data .url (ascii "/"), .data .protocol (ascii "HTTP"),
    .data .version (ascii "1.1"), .mark .messageComplete], _, rfl, rfl, rfl⟩

theorem headBodiless_iff_hello : HeadBodiless plainConfig headRequest hello := by
  refine (headBodiless_iff hello rfl gathered_headRequest).mpr
    ⟨ascii "/srv/index.html", rfl, .inr (.inl ⟨rfl, 5, rfl, .inr (.inr ⟨rfl, fun h => ?_, rfl⟩)⟩)⟩
  rfl

/-- **A file that is missing** is answered with a body. -/
theorem not_headBodiless_missing :
    ¬ HeadBodiless plainConfig headRequest
      { pathExists := some false, existsAgain := some false } :=
  not_headBodiless_of_loud gathered_headRequest (loud_404 plainConfig false [])

end Avant.App
