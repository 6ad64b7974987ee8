import Avant.App.HttpApp

/-!
# Which Range headers are honoured

RFC 7233 allows a server to ignore a `Range` header that it does not understand, and asks it to
ignore one that is malformed. `avant_parse_range_header` pushes a range for each item as it goes
and returns `false` at the first that it cannot read; the caller only logs this, and uses what was
pushed. Items are read with `std::stoll`, which takes white space, a sign, and anything behind the
digits, and `std::getline` sees no item behind the last comma.

So a header counts as one range exactly when the first item can be read and the second cannot, or
is not there. `RangeHandled` is what the grammar asks for instead.

Results:
* `resolved_full`: with no range or several, a request is answered as without the header;
* **`rangeHandled_iff`**: a header is handled as the grammar asks, whatever the request and the
  file, exactly if it is one well-formed range, or does not count as one range at all.
-/

namespace Avant.App

open Avant.Lib Avant.Conn
open Avant.Lib.Http (headText)

/-! ## The grammar -/

/-- One or more digits. -/
def IsDigits (s : Bytes) : Prop := s ≠ [] ∧ ∀ b ∈ s, Decimal.isDigit b = true

/-- `byte-range-spec` or `suffix-byte-range-spec` of RFC 7233. -/
def IsRangeSpec (item : Bytes) : Prop :=
  (∃ first last, item = first ++ 45 :: last ∧ IsDigits first ∧ (last = [] ∨ IsDigits last)) ∨
    ∃ suffix, item = 45 :: suffix ∧ IsDigits suffix

/-- `bytes=` and one range. -/
def IsSingleRange (v : Bytes) : Prop := ∃ item, v = ascii "bytes=" ++ item ∧ IsRangeSpec item

/-- The items of a range header, between commas. -/
def rangeItems (v : Bytes) : List Bytes := (v.drop 6).splitOn 44

/-- The request without its `Range` headers. -/
def withoutRange (r : HttpRequest) : HttpRequest :=
  { r with headers := r.headers.filter fun h => h.1 ≠ ascii "Range" }

/-- **What the grammar asks for**: a partial response only to one well-formed range, and a header
that is rejected, or has an item that is not well formed, makes no difference. -/
def RangeHandled (v : Bytes) : Prop :=
  ∀ (cfg : HttpConfig) (r : HttpRequest) (os : HttpOs),
    r.headers.lookup (ascii "Range") = some [v] →
    (partialStatus <+: (processAnswer cfg r os).run.append → IsSingleRange v) ∧
    ((avantParseRangeHeader v).1 = false ∨ (∃ item ∈ rangeItems v, ¬ IsRangeSpec item) →
      processAnswer cfg r os = processAnswer cfg (withoutRange r) os)

/-- The items that the parser reads before it gives up. -/
def readableItems (v : Bytes) : List Bytes :=
  (getlines [] (v.drop 6)).takeWhile fun item => (parseRangeItem item).isSome

/-! ## What the parser pushes -/

theorem parseRangeItems_eq (items : List Bytes) (ranges : List HttpRange) :
    parseRangeItems items ranges =
      ((items.all fun item => (parseRangeItem item).isSome) &&
          !(ranges ++ items.filterMap parseRangeItem).isEmpty,
        ranges ++ (items.takeWhile fun item => (parseRangeItem item).isSome).filterMap
          parseRangeItem) := by
  induction items generalizing ranges with
  | nil => simp [parseRangeItems]
  | cons item items ih =>
    rw [parseRangeItems]
    cases h : parseRangeItem item with
    | none => simp [h]
    | some r => simp [h, ih]

variable {v : Bytes}

theorem avantParseRangeHeader_of_bytes (hv : ascii "bytes=" <+: v) :
    avantParseRangeHeader v = parseRangeItems (getlines [] (v.drop 6)) [] := by
  refine if_neg ?_
  rw [not_or, not_not]
  refine ⟨fun hnil => ?_, find_eq_zero.mpr hv⟩
  rw [hnil] at hv
  exact absurd hv (by decide)

theorem avantParseRangeHeader_of_not_bytes (hv : ¬ ascii "bytes=" <+: v) :
    avantParseRangeHeader v = (false, []) :=
  if_pos (.inr fun h => hv (find_eq_zero.mp h))

/-- One range is pushed for every item that is read. -/
theorem length_ranges (hv : ascii "bytes=" <+: v) :
    (avantParseRangeHeader v).2.length = (readableItems v).length := by
  have hsome : ∀ item ∈ readableItems v, (parseRangeItem item).isSome = true := by
    intro item h
    rw [readableItems] at h
    exact List.mem_takeWhile_imp (p := fun item => (parseRangeItem item).isSome) h
  rw [avantParseRangeHeader_of_bytes hv, parseRangeItems_eq]
  show ([] ++ (readableItems v).filterMap parseRangeItem).length = _
  rw [List.nil_append]
  clear hv
  generalize readableItems v = items at hsome
  induction items with
  | nil => rfl
  | cons item items ih =>
    obtain ⟨r, hr⟩ := Option.isSome_iff_exists.mp (hsome item List.mem_cons_self)
    rw [List.filterMap_cons_some hr, List.length_cons, List.length_cons,
      ih fun i hi => hsome i (List.mem_cons_of_mem _ hi)]

/-! ## Requests without a range -/

theorem lookup_withoutRange {name : Bytes} (hname : name ≠ ascii "Range") (r : HttpRequest) :
    (withoutRange r).headers.lookup name = r.headers.lookup name := by
  show (r.headers.filter _).lookup name = _
  induction r.headers with
  | nil => rfl
  | cons h hs ih =>
    obtain ⟨k, vs⟩ := h
    by_cases hk : k = ascii "Range"
    · have hne : (name == k) = false := by simpa [hk] using hname
      rw [List.filter_cons_of_neg (by simp [hk]), ih, List.lookup_cons, hne]
    · rw [List.filter_cons_of_pos (by simpa using hk), List.lookup_cons, List.lookup_cons, ih]

theorem lookup_range_withoutRange (r : HttpRequest) :
    (withoutRange r).headers.lookup (ascii "Range") = none := by
  rw [List.lookup_eq_none_iff]
  intro h hh
  have hne : h.1 ≠ ascii "Range" := by simpa using (List.mem_filter.mp hh).2
  simpa using hne.symm

/-- No range, or several. -/
theorem resolveRange_full {ranges : List HttpRange} (h : ranges.length ≠ 1) (ifRange etag : Bytes)
    (fileSize : Int) : resolveRange ranges ifRange etag fileSize = .full := by
  match ranges with
  | [] => rfl
  | [_] => exact absurd rfl h
  | _ :: _ :: _ =>
    unfold resolveRange
    simp

/-- **A request that does not count as one range** is answered as without the header. -/
theorem resolved_full (cfg : HttpConfig) (r : HttpRequest) (os : HttpOs)
    (h : (headerRanges r.headers).length ≠ 1) :
    processAnswer cfg r os = processAnswer cfg (withoutRange r) os := by
  have hnone : headerRanges (withoutRange r).headers = [] := by
    rw [headerRanges, lookup_range_withoutRange]
  have hkeep : headerExistKeepLive (withoutRange r).headers = headerExistKeepLive r.headers := by
    rw [headerExistKeepLive, headerExistKeepLive, lookup_withoutRange (by decide)]
  have hgzip : clientSupportGzip (withoutRange r).headers = clientSupportGzip r.headers := by
    rw [clientSupportGzip, clientSupportGzip, lookup_withoutRange (by decide)]
  have hsingle : ∀ name ≠ ascii "Range",
      singleHeader name (withoutRange r).headers = singleHeader name r.headers := by
    intro name hname
    rw [singleHeader, singleHeader, lookup_withoutRange hname]
  have hcached : ∀ etag date,
      notModified (withoutRange r).headers etag date = notModified r.headers etag date := by
    intro etag date
    simp only [notModified, hsingle (ascii "Cache-Control") (by decide),
      hsingle (ascii "If-None-Match") (by decide),
      hsingle (ascii "If-Modified-Since") (by decide)]
  have hfile : ∀ tPath, fileAnswer cfg (withoutRange r) tPath os = fileAnswer cfg r tPath os := by
    intro tPath
    have huse : useGzip cfg (withoutRange r).headers tPath .full =
        useGzip cfg r.headers tPath .full := by rw [useGzip, useGzip, hgzip]
    have hmethod : (withoutRange r).method = r.method := rfl
    unfold fileAnswer
    simp only [hnone, hkeep, resolveRange_full h]
    cases os.stat with
    | none => rfl
    | some fileSize =>
      simp only [resolveRange]
      unfold sendFile openFile
      simp only [hkeep, hcached, huse, hmethod]
  have hdirectory : directoryAnswer cfg (withoutRange r) os = directoryAnswer cfg r os := by
    unfold directoryAnswer
    simp only [hkeep]
  have hmethod : (withoutRange r).method = r.method := rfl
  have hurl : (withoutRange r).url = r.url := rfl
  unfold processAnswer
  simp only [hkeep, hmethod, hurl, hfile, hdirectory]

/-! ## Items -/

/-- A list of items without an empty one at its end. -/
def dropTrailing (items : List Bytes) : List Bytes :=
  if items.getLast? = some [] then items.dropLast else items

theorem dropTrailing_cons (item : Bytes) {items : List Bytes} (h : items ≠ []) :
    dropTrailing (item :: items) = item :: dropTrailing items := by
  unfold dropTrailing
  rw [List.getLast?_cons_of_ne_nil h, List.dropLast_cons_of_ne_nil h]
  split <;> rfl

/-- `std::getline` gives the parts between commas, without an empty one at the end. -/
theorem getlines_eq (item s : Bytes) :
    getlines item s = dropTrailing ((s.splitOn 44).modifyHead (item ++ ·)) := by
  induction s generalizing item with
  | nil =>
    unfold getlines dropTrailing
    by_cases h : item = [] <;> simp [h]
  | cons b s ih =>
    have hne : s.splitOn 44 ≠ [] := List.splitOnP_ne_nil _ _
    have hcons : (b :: s).splitOn 44 =
        if b = 44 then [] :: s.splitOn 44 else (s.splitOn 44).modifyHead (List.cons b) := by
      unfold List.splitOn
      rw [List.splitOnP_cons_eq_if_modifyHead]
      simp
    rw [getlines, hcons]
    by_cases hb : b = 44
    · have hid : (s.splitOn 44).modifyHead ([] ++ ·) = s.splitOn 44 := by
        cases s.splitOn 44 <;> rfl
      rw [if_pos hb, if_pos hb, ih, hid, List.modifyHead_cons, List.append_nil,
        dropTrailing_cons _ hne]
    · rw [if_neg hb, if_neg hb, ih, List.modifyHead_modifyHead]
      congr 2
      funext x
      simp

theorem isRangeSpec_ne_nil {item : Bytes} (h : IsRangeSpec item) : item ≠ [] := by
  rcases h with ⟨first, last, rfl, -, -⟩ | ⟨suffix, rfl, -⟩ <;> simp

/-- A range has no comma in it. -/
theorem comma_not_mem_of_isRangeSpec {item : Bytes} (h : IsRangeSpec item) :
    (44 : UInt8) ∉ item := by
  have hdigit : ∀ {s : Bytes}, IsDigits s → (44 : UInt8) ∉ s := fun hs hmem =>
    absurd (hs.2 44 hmem) (by decide)
  rcases h with ⟨first, last, rfl, hfirst, hlast⟩ | ⟨suffix, rfl, hsuffix⟩
  · have hlast' : (44 : UInt8) ∉ last := by
      rcases hlast with rfl | hlast
      · simp
      · exact hdigit hlast
    simp [hdigit hfirst, hlast']
  · simp [hdigit hsuffix]

theorem splitOn_of_not_mem {s : Bytes} (h : (44 : UInt8) ∉ s) : s.splitOn 44 = [s] := by
  refine List.splitOnP_eq_singleton fun b hb => ?_
  have : b ≠ 44 := fun hb' => h (hb' ▸ hb)
  simpa using this

/-- Items that are all ranges are those that `std::getline` gives. -/
theorem getlines_of_isRangeSpec {s : Bytes}
    (h : ∀ item ∈ s.splitOn 44, IsRangeSpec item) :
    getlines [] s = s.splitOn 44 := by
  have hid : (s.splitOn 44).modifyHead ([] ++ ·) = s.splitOn 44 := by
    cases s.splitOn 44 <;> rfl
  rw [getlines_eq, hid, dropTrailing, if_neg]
  intro hlast
  exact isRangeSpec_ne_nil (h [] (List.mem_of_getLast? hlast)) rfl

/-! ## The result -/

/-- A well-formed range that is rejected, because a number is too large, is not pushed. -/
theorem length_ranges_of_rejected (hv : IsSingleRange v)
    (h : (avantParseRangeHeader v).1 = false ∨ ∃ item ∈ rangeItems v, ¬ IsRangeSpec item) :
    (avantParseRangeHeader v).2.length ≠ 1 := by
  obtain ⟨item, rfl, hitem⟩ := hv
  have hsplit := splitOn_of_not_mem (comma_not_mem_of_isRangeSpec hitem)
  have hall : ∀ item' ∈ item.splitOn 44, IsRangeSpec item' := by
    intro item' h'
    rw [hsplit, List.mem_singleton] at h'
    exact h' ▸ hitem
  rcases h with hrejected | ⟨item', h', hno⟩
  · have hlines : getlines [] ((ascii "bytes=" ++ item).drop 6) = [item] :=
      (getlines_of_isRangeSpec hall).trans hsplit
    rw [avantParseRangeHeader_of_bytes (List.prefix_append _ _), hlines] at hrejected ⊢
    unfold parseRangeItems at hrejected ⊢
    cases hp : parseRangeItem item with
    | none => simp
    | some r => simp [hp, parseRangeItems] at hrejected
  · exact absurd (hall item' h') hno

/-- A header that counts as one range but is none. -/
theorem malformed_of_not_single (hpre : ascii "bytes=" <+: v) (hone : (readableItems v).length = 1)
    (hnot : ¬ IsSingleRange v) :
    (avantParseRangeHeader v).1 = false ∨ ∃ item ∈ rangeItems v, ¬ IsRangeSpec item := by
  by_contra hok
  rw [not_or, Bool.not_eq_false] at hok
  obtain ⟨haccepted, hitems⟩ := hok
  have hspec : ∀ item ∈ (v.drop 6).splitOn 44, IsRangeSpec item := by
    intro item hitem
    by_contra hno
    exact hitems ⟨item, hitem, hno⟩
  have hlines := getlines_of_isRangeSpec hspec
  rw [avantParseRangeHeader_of_bytes hpre, parseRangeItems_eq, Bool.and_eq_true,
    List.all_eq_true] at haccepted
  rw [readableItems, List.takeWhile_eq_self_iff.mpr haccepted.1, hlines,
    List.length_eq_one_iff] at hone
  obtain ⟨item, hitem⟩ := hone
  refine hnot ⟨item, ?_, hspec item (by rw [hitem]; exact List.mem_singleton_self item)⟩
  have hdrop : v.drop 6 = item := by
    have hjoin : [44].intercalate ((v.drop 6).splitOn 44) = v.drop 6 := List.intercalate_splitOn 44
    rw [← hjoin, hitem]
    simp [List.intercalate]
  obtain ⟨t, rfl⟩ := hpre
  rw [← hdrop]
  rfl

/-- Whether a request is answered partially is a matter of its ranges. -/
theorem not_partial_of_ranges {cfg : HttpConfig} {r : HttpRequest} {os : HttpOs}
    (h : (headerRanges r.headers).length ≠ 1) :
    ¬ partialStatus <+: (processAnswer cfg r os).run.append := by
  intro hpartialStatus
  obtain ⟨tPath, fileSize, start, stop, -, hresolve, -⟩ := partial_processAnswer hpartialStatus
  obtain ⟨range, hone, -⟩ := one_range_of_part hresolve
  exact h (by rw [hone]; rfl)

theorem headerRanges_of_lookup {hs : Headers} (h : hs.lookup (ascii "Range") = some [v]) :
    headerRanges hs = (avantParseRangeHeader v).2 := by
  rw [headerRanges, h]

/-- A `GET` with nothing but a range. -/
def rangeRequest (v : Bytes) : HttpRequest where
  method := ascii "GET"
  url := ascii "/"
  protocol := ascii "HTTP"
  version := ascii "1.1"
  headers := [(ascii "Range", [v])]

/-- A file without bytes has no range that is good, but it can be served. -/
theorem processAnswer_empty_file (hone : (avantParseRangeHeader v).2.length = 1) :
    processAnswer plainConfig (rangeRequest v) { stat := some 0 } ≠
      processAnswer plainConfig (withoutRange (rangeRequest v)) { stat := some 0 } := by
  obtain ⟨range, hrange⟩ := List.length_eq_one_iff.mp hone
  have hranges : headerRanges (rangeRequest v).headers = [range] := hrange
  have hwith : processAnswer plainConfig (rangeRequest v) { stat := some 0 } =
      .finished (headText (lines416 false [] 0)) [] := by
    have hfile : processAnswer plainConfig (rangeRequest v) { stat := some 0 } =
        fileAnswer plainConfig (rangeRequest v) (ascii "/srv/index.html") { stat := some 0 } := rfl
    rw [hfile]
    unfold fileAnswer
    simp only [hranges]
    rfl
  have hwithout : processAnswer plainConfig (withoutRange (rangeRequest v)) { stat := some 0 } =
      sendFile plainConfig (withoutRange (rangeRequest v)) (ascii "/srv/index.html") 0 .full
        { stat := some 0 } := rfl
  rw [hwith, hwithout]
  intro h
  have hstatus : (headText (lines416 false [] 0)).take 12 = ascii "HTTP/1.1 200" :=
    congrArg (fun a => a.run.append.take 12) h
  exact absurd hstatus (by decide)

/-- **Range headers are handled as the grammar asks** exactly if they are one well-formed range, or
do not count as one range: another unit, no item that can be read, or several. -/
theorem rangeHandled_iff (v : Bytes) :
    RangeHandled v ↔
      IsSingleRange v ∨ ¬ ascii "bytes=" <+: v ∨ (readableItems v).length ≠ 1 := by
  constructor
  · intro h
    by_contra hno
    rw [not_or, not_or, not_not, not_not] at hno
    obtain ⟨hsingle, hpre, hone⟩ := hno
    rw [← length_ranges hpre] at hone
    exact processAnswer_empty_file hone ((h plainConfig (rangeRequest v) { stat := some 0 } rfl).2
      (malformed_of_not_single hpre (by rwa [← length_ranges hpre]) hsingle))
  · intro h cfg r os hlookup
    have hranges := headerRanges_of_lookup hlookup
    by_cases hsingle : IsSingleRange v
    · refine ⟨fun _ => hsingle, fun hbad => resolved_full cfg r os ?_⟩
      rw [hranges]
      exact length_ranges_of_rejected hsingle hbad
    · have hcount : (headerRanges r.headers).length ≠ 1 := by
        rw [hranges]
        by_cases hpre : ascii "bytes=" <+: v
        · rw [length_ranges hpre]
          exact (h.resolve_left hsingle).resolve_left (not_not.mpr hpre)
        · rw [avantParseRangeHeader_of_not_bytes hpre]
          decide
      exact ⟨fun hp => absurd hp (not_partial_of_ranges hcount),
        fun _ => resolved_full cfg r os hcount⟩

/-- **A header that is rejected** is honoured up to the item that cannot be read. -/
theorem not_rangeHandled_rejected : ¬ RangeHandled (ascii "bytes=0-1,abc") := by
  intro h
  have hpartialStatus : partialStatus <+: (processAnswer plainConfig
      (rangeRequest (ascii "bytes=0-1,abc")) { stat := some 10 }).run.append := by decide
  obtain ⟨item, hitem, hspec⟩ := (h plainConfig _ { stat := some 10 } rfl).1 hpartialStatus
  have hrest : ascii "0-1,abc" = item := congrArg (·.drop 6) hitem
  exact comma_not_mem_of_isRangeSpec hspec (hrest ▸ by decide)

end Avant.App
