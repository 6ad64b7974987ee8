import Avant.App.HttpBody

/-!
# The listing of a directory

The page of a directory is kept in the response object together with `already_size`, the number of
its bytes that were sent. The `write_end_callback` takes the next piece of at most 1024000 bytes,
and counts it, but always from the start of the page.

Results:
* `script_listing`: what is sent are the first bytes of the page again and again, as many as the
  page has (`repeated`);
* `repeated_eq_iff`: this is the page itself exactly if the page repeats with the size of a piece;
* **`listingDelivered_iff`**: so the listing of a directory is right, on every connection and under
  every schedule of sends, exactly if the page is no longer than a piece, or repeats.
-/

namespace Avant.App

open Avant.Lib Avant.Conn Avant.Conn.HttpCtx
open Avant.Lib.Http (headText IsLine)

/-! ## Pages that repeat -/

/-- `left` bytes, of which each `size` are the first of the page. -/
def repeated (page : Bytes) (size left : Nat) : Bytes :=
  (List.replicate (left / size) (page.take size)).flatten ++ page.take (left % size)

variable {page : Bytes} {size left : Nat}

theorem repeated_of_lt (h : left < size) : repeated page size left = page.take left := by
  rw [repeated, Nat.div_eq_of_lt h, Nat.mod_eq_of_lt h]
  rfl

theorem repeated_add (hsize : 0 < size) (left : Nat) :
    repeated page size (left + size) = page.take size ++ repeated page size left := by
  rw [repeated, repeated, Nat.add_div_right left hsize, Nat.add_mod_right, List.replicate_succ,
    List.flatten_cons, List.append_assoc]

theorem repeated_prefix (hsize : 0 < size) (left : Nat) :
    repeated page size left <+: repeated page size (left + size) := by
  have hmod : left % size ≤ size := Nat.le_of_lt (Nat.mod_lt left hsize)
  rw [repeated, repeated, Nat.add_div_right left hsize, Nat.add_mod_right, List.replicate_succ',
    List.flatten_concat, List.append_assoc]
  refine List.prefix_append_right_inj _ |>.mpr ?_
  exact (List.take_prefix_take_left hmod).trans (List.prefix_append _ _)

/-- The number of bytes is right, whatever the bytes are. -/
theorem length_repeated (hsize : 0 < size) (hleft : left ≤ page.length) :
    (repeated page size left).length = left := by
  induction left using Nat.strongRecOn with
  | ind left ih =>
    by_cases hlast : left < size
    · rw [repeated_of_lt hlast, List.length_take, Nat.min_eq_left hleft]
    · obtain ⟨rest, rfl⟩ := Nat.exists_eq_add_of_le' (Nat.not_lt.mp hlast)
      rw [repeated_add hsize, List.length_append, List.length_take, ih rest (by omega) (by omega)]
      omega

/-- The rest of a page that repeats is what is sent of it. -/
theorem repeated_of_prefix (hsize : 0 < size) (hpage : page.drop size <+: page)
    (hleft : left ≤ page.length) (h : page.drop (page.length - left) <+: page) :
    repeated page size left = page.drop (page.length - left) := by
  induction left using Nat.strongRecOn with
  | ind left ih =>
    have htake := List.prefix_iff_eq_take.mp h
    have hlen : (page.drop (page.length - left)).length = left := by
      rw [List.length_drop]
      omega
    by_cases hlast : left < size
    · rw [repeated_of_lt hlast, htake, hlen]
    · obtain ⟨rest, rfl⟩ := Nat.exists_eq_add_of_le' (Nat.not_lt.mp hlast)
      have hdrop : page.drop (page.length - rest) =
          (page.drop (page.length - (rest + size))).drop size := by
        rw [List.drop_drop]
        congr 1
        omega
      have hnext : page.drop (page.length - rest) <+: page := by
        rw [hdrop]
        exact (h.drop size).trans hpage
      have hfirst : (page.drop (page.length - (rest + size))).take size = page.take size := by
        rw [htake, hlen, List.take_take, Nat.min_eq_left (by omega)]
      rw [repeated_add hsize, ih rest (by omega) (by omega) hnext, hdrop, ← hfirst,
        List.take_append_drop]

/-- **What is sent is the page** exactly if the page repeats. -/
theorem repeated_eq_iff (hsize : 0 < size) :
    repeated page size page.length = page ↔ page.drop size <+: page := by
  constructor
  · intro h
    by_cases hle : page.length ≤ size
    · rw [List.drop_eq_nil_of_le hle]
      exact List.nil_prefix
    · obtain ⟨rest, hrest⟩ := Nat.exists_eq_add_of_le' (Nat.le_of_lt (Nat.not_le.mp hle))
      have hsplit : repeated page size (rest + size) = _ := repeated_add hsize rest
      rw [← hrest, h] at hsplit
      have hdrop : page.drop size = repeated page size rest := by
        have hlen : (page.take size).length = size := by
          rw [List.length_take]
          omega
        conv_lhs => rw [hsplit]
        exact List.drop_left' hlen
      have hprefix : _ <+: repeated page size (rest + size) := repeated_prefix hsize rest
      rw [← hrest, h] at hprefix
      rw [hdrop]
      exact hprefix
  · intro h
    have hall := repeated_of_prefix hsize h (Nat.le_refl page.length) (by simp)
    rw [hall]
    simp

/-! ## The pieces of a page -/

/-- One call of the callback: at most 1024000 bytes, as many as are left, from the start of the
page. -/
theorem run_dir (page : Bytes) (left : Nat) (os : HttpOs) (hpos : 0 < left)
    (hleft : left ≤ page.length) :
    (writeEnd (.dir page (page.length - left)) os).run =
      { append := page.take (min left 1024000)
        writeEnd := some (.dir page (page.length - (left - min left 1024000))) } := by
  have hopen : page.length > page.length - left := by omega
  have hrest : page.length - (page.length - left) = left := by omega
  have hnext : page.length - left + min left 1024000 =
      page.length - (left - min left 1024000) := by omega
  unfold writeEnd dirWriteEnd
  simp only [if_pos hopen, hrest, hnext]

theorem run_dir_end (page : Bytes) (os : HttpOs) :
    (writeEnd (.dir page (page.length - 0)) os).run = { responseEnd := true } := by
  unfold writeEnd dirWriteEnd
  simp

/-- **The pieces of a page.** -/
theorem script_listing (cfg : HttpConfig) (hleft : left ≤ page.length) :
    ∃ ps, ps.flatten = repeated page 1024000 left ∧ ps ≠ [] ∧
      ∀ os, Script (httpApp cfg) (fun _ => True)
        ((httpApp cfg).writeEndCallback (.dir page (page.length - left)) os) ps := by
  have hsize : 0 < 1024000 := by decide
  have hrun := fun left os hpos hleft => run_dir page left os hpos hleft
  generalize 1024000 = size at hsize hrun
  have hzero : ∀ os, Script (httpApp cfg) (fun _ => True)
      ((httpApp cfg).writeEndCallback (.dir page (page.length - 0)) os) [[]] := by
    intro os
    rw [writeEndCallback_eq, run_dir_end]
    exact .last rfl rfl
  induction left using Nat.strongRecOn with
  | ind left ih =>
    rcases Nat.eq_zero_or_pos left with rfl | hpos
    · exact ⟨[[]], by rw [repeated_of_lt hsize]; simp, by simp, hzero⟩
    · by_cases hlast : left < size
      · have hmin : min left size = left := by omega
        refine ⟨[page.take left, []], by rw [repeated_of_lt hlast]; simp, by simp, fun os => ?_⟩
        rw [writeEndCallback_eq, hrun left os hpos hleft, hmin, Nat.sub_self]
        exact .more rfl rfl rfl fun os _ => hzero os
      · obtain ⟨rest, rfl⟩ := Nat.exists_eq_add_of_le' (Nat.not_lt.mp hlast)
        have hmin : min (rest + size) size = size := by omega
        obtain ⟨ps, hflat, -, hscript⟩ := ih rest (by omega) (by omega)
        refine ⟨page.take size :: ps, ?_, by simp, fun os => ?_⟩
        · rw [List.flatten_cons, hflat, repeated_add hsize]
        · rw [writeEndCallback_eq, hrun (rest + size) os hpos hleft, hmin, Nat.add_sub_cancel]
          exact .more rfl rfl rfl fun os _ => hscript os

/-! ## The result -/

/-- The request is answered with the listing of a directory that has these entries. -/
structure Lists (cfg : HttpConfig) (entries : List Bytes) (r : HttpRequest) (os : HttpOs) :
    Prop where
  path : ∃ tPath, staticPath cfg.staticDir r.url = .path tPath
  regular : andThen os.pathExists os.isRegularFile = some false
  directory : andThen os.existsAgain os.isDirectory = some true
  newResponse : os.newResponse = true
  newDir : os.newDir = true
  entries : os.entries = entries

variable {cfg : HttpConfig} {entries : List Bytes}

theorem processAnswer_of_lists {r : HttpRequest} {os : HttpOs} (h : Lists cfg entries r os)
    (hmethod : r.method = ascii "GET" ∨ r.method = ascii "HEAD") :
    processAnswer cfg r os =
      startResponse
        (headText (directoryLines (headerExistKeepLive r.headers) (directoryPage cfg entries)))
        (.dir (directoryPage cfg entries) 0) os [.store, .use] := by
  obtain ⟨tPath, hpath⟩ := h.path
  rw [processAnswer_directory hmethod hpath h.regular h.directory, directoryAnswer, h.newResponse,
    h.newDir, h.entries]
  rfl

/-- **What a listing should be**: to a `GET` of a directory with these entries, on any connection,
the head that announces the page and the page itself are delivered. -/
def ListingDelivered (cfg : HttpConfig) (entries : List Bytes) : Prop :=
  ∀ {P : Type} {L : Http.Parser P} {useSsl : Bool} {os₀ : HttpOs} {evs₀ : List (HttpEvent HttpOs)}
    {s : HttpCtx P WriteEnd} {ev : HttpEvent HttpOs} {r : HttpRequest},
    exec (step L (httpApp cfg) useSsl) (accepted L (httpApp cfg) useSsl os₀) evs₀ = some s →
    s.Processes L (httpApp cfg) useSsl ev r → r.method = ascii "GET" → Lists cfg entries r ev.os →
    ∃ bound, ∀ evs s', exec (step L (httpApp cfg) useSsl) s (ev :: evs) = some s' →
      Delivered
        (headText (directoryLines (headerExistKeepLive r.headers) (directoryPage cfg entries)) ++
          directoryPage cfg entries)
        bound s (ev :: evs) s'

/-- What is delivered instead. -/
theorem repeated_delivered {P : Type} {L : Http.Parser P} {useSsl : Bool} {os₀ : HttpOs}
    {evs₀ : List (HttpEvent HttpOs)} {s : HttpCtx P WriteEnd} {ev : HttpEvent HttpOs}
    {r : HttpRequest}
    (hs : exec (step L (httpApp cfg) useSsl) (accepted L (httpApp cfg) useSsl os₀) evs₀ = some s)
    (hp : s.Processes L (httpApp cfg) useSsl ev r)
    (hmethod : r.method = ascii "GET" ∨ r.method = ascii "HEAD")
    (hlists : Lists cfg entries r ev.os) :
    ∃ bound, ∀ evs s', exec (step L (httpApp cfg) useSsl) s (ev :: evs) = some s' →
      Delivered
        (headText (directoryLines (headerExistKeepLive r.headers) (directoryPage cfg entries)) ++
          repeated (directoryPage cfg entries) 1024000 (directoryPage cfg entries).length)
        bound s (ev :: evs) s' := by
  obtain ⟨ps, hflat, hne, hscript⟩ :=
    script_listing cfg (Nat.le_refl (directoryPage cfg entries).length)
  rw [Nat.sub_self] at hscript
  obtain ⟨bound, h⟩ := delivered_of_startResponse hs hp (processAnswer_of_lists hlists hmethod) hne
    (hscript ev.os) trivial
  rw [hflat] at h
  exact ⟨bound, fun evs s' => h evs s' fun _ _ => trivial⟩

/-- A `GET` of the root without headers. -/
def getRequest : HttpRequest := ⟨ascii "GET", ascii "/", ascii "HTTP", ascii "1.1", []⟩

theorem gathered_getRequest : Gathered getRequest :=
  ⟨[.data .method (ascii "GET"), .data .url (ascii "/"), .data .protocol (ascii "HTTP"),
    .data .version (ascii "1.1"), .mark .messageComplete], _, rfl, rfl, rfl⟩

/-- When the listing of a directory is delivered, its page repeats: the socket can take all that is
sent. -/
theorem repeated_of_listingDelivered (h : ListingDelivered cfg entries) :
    repeated (directoryPage cfg entries) 1024000 (directoryPage cfg entries).length =
      directoryPage cfg entries := by
  let os : HttpOs := { isRegularFile := some false, entries := entries }
  have hlists : Lists cfg entries getRequest (readEvent os).os :=
    ⟨⟨_, rfl⟩, rfl, rfl, rfl, rfl, rfl⟩
  have hsmooth : (readEvent os).Smooth := ⟨by simp [readEvent], by simp [readEvent]⟩
  obtain ⟨L, hp⟩ : ∃ L : Http.Parser Unit, (accepted L (httpApp cfg) false os).Processes L
      (httpApp cfg) false (readEvent os) getRequest :=
    exists_processes gathered_getRequest (fun _ _ => rfl) os os
  have hs : exec (step L (httpApp cfg) false) (accepted L (httpApp cfg) false os) [] =
      some (accepted L (httpApp cfg) false os) := rfl
  obtain ⟨b₁, h₁⟩ := h hs hp rfl hlists
  obtain ⟨b₂, h₂⟩ := repeated_delivered hs hp (.inl rfl) hlists
  obtain ⟨s', hexec⟩ : ∃ s', exec (step L (httpApp cfg) false) (accepted L (httpApp cfg) false os)
      (readEvent os :: draining os (b₁ + b₂ + 1)) = some s' := exec_step _ _
  have hpage := (h₁ _ s' hexec).whole_of_draining (by omega) hsmooth rfl
  have hrepeated := (h₂ _ s' hexec).whole_of_draining (by omega) hsmooth rfl
  exact List.append_cancel_left (hrepeated.1.symm.trans hpage.1)

/-- **The listing of a directory is delivered** exactly if its page repeats with 1024000 bytes, as
every page does that is no longer than that. -/
theorem listingDelivered_iff (cfg : HttpConfig) (entries : List Bytes) :
    ListingDelivered cfg entries ↔
      (directoryPage cfg entries).drop 1024000 <+: directoryPage cfg entries := by
  rw [← repeated_eq_iff (by decide)]
  constructor
  · exact repeated_of_listingDelivered
  · intro hpage P L useSsl os₀ evs₀ s ev r hs hp hget hlists
    obtain ⟨bound, h⟩ := repeated_delivered hs hp (.inl hget) hlists
    rw [hpage] at h
    exact ⟨bound, h⟩

theorem length_aTag (url text : Bytes) : 20 ≤ (aTag url text).length := by
  have hopen : (ascii "<a href=\"").length = 9 := by decide
  have hmid : (ascii "\">").length = 2 := by decide
  have hclose : (ascii "</a></br>").length = 9 := by decide
  simp only [aTag, List.length_append, hopen, hmid, hclose]
  omega

/-- What stands behind `<!` in a page. -/
theorem directoryPage_eq (cfg : HttpConfig) (entries : List Bytes) :
    ∃ tail, directoryPage cfg entries = 60 :: 33 :: tail ∧ 20 * entries.length ≤ tail.length ∧
      ((∀ e ∈ entries, (33 : UInt8) ∉ e) → 33 ∉ tail) := by
  let links : Bytes := entries.flatMap fun e =>
    aTag (e.drop cfg.staticDir.length) (e.drop cfg.staticDir.length)
  refine ⟨(ascii
    "<!DOCTYPE html>                        <html>                        <head>").drop 2 ++
    ascii "                        <title></title>                        </head>" ++
    ascii "                        <body>" ++ links ++
    ascii "</body>                                </html>", rfl, ?_, fun h => ?_⟩
  · have hlinks : 20 * entries.length ≤ links.length := by
      refine mul_length_le_flatMap fun e _ => ?_
      have htag := length_aTag (e.drop cfg.staticDir.length) (e.drop cfg.staticDir.length)
      omega
    simp only [List.length_append]
    omega
  · have hlinks : (33 : UInt8) ∉ links := by
      intro hmem
      obtain ⟨e, he, hmem⟩ := List.mem_flatMap.mp hmem
      have hdrop : (33 : UInt8) ∉ e.drop cfg.staticDir.length := fun hd =>
        h e he (List.mem_of_mem_drop hd)
      have hopen : (33 : UInt8) ∉ ascii "<a href=\"" := by decide
      have hmid : (33 : UInt8) ∉ ascii "\">" := by decide
      have hclose : (33 : UInt8) ∉ ascii "</a></br>" := by decide
      simp [aTag, hdrop, hopen, hmid, hclose] at hmem
    simp only [List.mem_append, not_or]
    exact ⟨⟨⟨⟨by decide, by decide⟩, by decide⟩, hlinks⟩, by decide⟩

/-- A long list of names without an exclamation mark does not repeat, since `<!DOCTYPE` does not
come again. -/
theorem not_repeats (hlen : 51201 ≤ entries.length) (hentries : ∀ e ∈ entries, (33 : UInt8) ∉ e) :
    ¬ (directoryPage cfg entries).drop 1024000 <+: directoryPage cfg entries := by
  obtain ⟨tail, hpage, htail, hno⟩ := directoryPage_eq cfg entries
  have hdrop : ∀ n, (60 :: 33 :: tail : Bytes).drop (n + 2) = tail.drop n := fun n => rfl
  rw [hpage, hdrop 1023998]
  intro h
  have hlong : 2 ≤ (tail.drop 1023998).length := by
    rw [List.length_drop]
    omega
  obtain ⟨a, b, rest, hrest⟩ : ∃ a b rest, tail.drop 1023998 = a :: b :: rest := by
    match tail.drop 1023998, hlong with
    | a :: b :: rest, _ => exact ⟨a, b, rest, rfl⟩
  have hmem : b ∈ tail := List.mem_of_mem_drop (by rw [hrest]; simp)
  rw [hrest, List.cons_prefix_cons, List.cons_prefix_cons] at h
  exact hno hentries (h.2.1 ▸ hmem)

/-- Sixty thousand files. -/
def manyFiles : List Bytes :=
  (List.range 60000).map fun i => ascii "/srv/files/" ++ Decimal.decimal i

/-- **A directory with many files**: behind the first 1024000 bytes of its page, these bytes come
again. -/
theorem not_listingDelivered_manyFiles : ¬ ListingDelivered plainConfig manyFiles := by
  intro h
  have hentries : ∀ e ∈ manyFiles, (33 : UInt8) ∉ e := by
    intro e he
    obtain ⟨i, -, rfl⟩ := List.mem_map.mp he
    have hdigits : (33 : UInt8) ∉ Decimal.decimal i := fun hd =>
      absurd (Decimal.isDigit_of_mem_decimal 33 hd) (by decide)
    have hdir : (33 : UInt8) ∉ ascii "/srv/files/" := by decide
    simp [hdigits, hdir]
  have hlen : 51201 ≤ manyFiles.length := by
    rw [manyFiles, List.length_map, List.length_range]
    decide
  exact not_repeats hlen hentries
    ((repeated_eq_iff (by decide)).mp (repeated_of_listingDelivered h))

end Avant.App
