import Avant.Lib.BigEndian

/-!
# Incremental parsers of HTTP messages

An incremental parser is fed a message piece by piece and reports what it finds in callbacks: the
bytes of one part of the message (a `Span`), cut wherever a piece ends, and `Mark`s between the
parts. Forgetting the cuts turns the callbacks into `Token`s. `Parser.Reads` says that a parser
reads a text as a document, a list of tokens, however the text is cut into pieces.

`ofStep` makes a parser of a function that takes one byte; `reads_ofStep` reduces `Reads` to one
scan of the whole text.
-/

namespace Avant.Lib.Http

/-- The part of a message that a data callback carries bytes of. -/
inductive Span
  | method
  | url
  | protocol
  | version
  | headerField
  | headerValue
  | chunkExtensionName
  | chunkExtensionValue
  | body
  deriving DecidableEq

/-- The parts of a message that only a chunked body has. -/
def Span.isExtension : Span → Bool
  | .chunkExtensionName | .chunkExtensionValue => true
  | _ => false

/-- The callbacks without data. -/
inductive Mark
  | messageBegin
  | methodComplete
  | urlComplete
  | protocolComplete
  | versionComplete
  | headerFieldComplete
  | headerValueComplete
  | headersComplete
  | chunkHeader
  | chunkComplete
  | chunkExtensionNameComplete
  | chunkExtensionValueComplete
  | messageComplete
  deriving DecidableEq

/-- The marks that only a chunked body has. -/
def Mark.isChunk : Mark → Bool
  | .chunkHeader | .chunkComplete | .chunkExtensionNameComplete
  | .chunkExtensionValueComplete => true
  | _ => false

inductive Callback
  | data (part : Span) (bs : Bytes)
  | mark (m : Mark)
  deriving DecidableEq

/-- One byte of a data callback, or a mark. -/
inductive Token
  | byte (part : Span) (b : UInt8)
  | mark (m : Mark)
  deriving DecidableEq

/-- The tokens that only a chunked body has. -/
def Token.isChunk : Token → Bool
  | .byte p _ => p.isExtension
  | .mark m => m.isChunk

/-- The bytes of one part. -/
def part (p : Span) (bs : Bytes) : List Token := bs.map (.byte p)

def Callback.tokens : Callback → List Token
  | .data p bs => part p bs
  | .mark m => [.mark m]

/-- The callbacks without the cuts. -/
def tokens (cbs : List Callback) : List Token := cbs.flatMap Callback.tokens

@[simp] theorem part_nil (p : Span) : part p [] = [] := rfl

@[simp] theorem part_cons (p : Span) (b : UInt8) (bs : Bytes) :
    part p (b :: bs) = .byte p b :: part p bs := rfl

@[simp] theorem tokens_nil : tokens [] = [] := rfl

@[simp] theorem tokens_cons (cb : Callback) (cbs : List Callback) :
    tokens (cb :: cbs) = cb.tokens ++ tokens cbs := rfl

/-! ## Parsers -/

/-- A parser: its state after `init`, and what feeding it a piece does: the state after it, the
callbacks made, and whether the piece was accepted. -/
structure Parser (P : Type) where
  init : P
  execute : P → Bytes → P × List Callback × Bool

namespace Parser

variable {P : Type} (L : Parser P)

/-- The state after some pieces. -/
def feed (p : P) (cs : List Bytes) : P := cs.foldl (fun p bs => (L.execute p bs).1) p

/-- The tokens of the callbacks made on some pieces. -/
def made : P → List Bytes → List Token
  | _, [] => []
  | p, bs :: cs => tokens (L.execute p bs).2.1 ++ made (L.execute p bs).1 cs

@[simp] theorem feed_nil (p : P) : L.feed p [] = p := rfl

theorem feed_snoc (p : P) (cs : List Bytes) (bs : Bytes) :
    L.feed p (cs ++ [bs]) = (L.execute (L.feed p cs) bs).1 := by
  simp [feed]

theorem made_snoc (p : P) (cs : List Bytes) (bs : Bytes) :
    L.made p (cs ++ [bs]) = L.made p cs ++ tokens (L.execute (L.feed p cs) bs).2.1 := by
  induction cs generalizing p with
  | nil => simp [made]
  | cons c cs ih => simp [made, ih, feed]

/-- **The parser reads `text` as `doc`**, from its initial state and in pieces of any length: it
accepts every piece, makes its callbacks in the order of the document, has made all of them after
the last byte and completes the message only then. A data callback carries bytes of the piece it
is made on; it may be empty, but not for a part of a chunked body. -/
structure Reads (text : Bytes) (doc : List Token) : Prop where
  accepts : ∀ cs bs, (cs ++ [bs]).flatten <+: text → (L.execute (L.feed L.init cs) bs).2.2 = true
  ordered : ∀ cs, cs.flatten <+: text → L.made L.init cs <+: doc
  whole : ∀ cs, cs.flatten = text → L.made L.init cs = doc
  complete : ∀ cs, cs.flatten <+: text → .mark .messageComplete ∈ L.made L.init cs →
    cs.flatten = text
  span : ∀ cs bs p ds, (cs ++ [bs]).flatten <+: text →
    .data p ds ∈ (L.execute (L.feed L.init cs) bs).2.1 →
      ds.length ≤ bs.length ∧ (p.isExtension = true → ds ≠ [])

end Parser

/-! ## Parsers that take one byte at a time -/

/-- Tokens gathered into callbacks, adjacent bytes of one part into one. -/
def callbacks : List Token → List Callback
  | [] => []
  | .mark m :: ts => .mark m :: callbacks ts
  | .byte p b :: ts =>
    match callbacks ts with
    | .data q bs :: cbs =>
      if p = q then .data p (b :: bs) :: cbs else .data p [b] :: .data q bs :: cbs
    | cbs => .data p [b] :: cbs

@[simp] theorem tokens_callbacks (ts : List Token) : tokens (callbacks ts) = ts := by
  induction ts with
  | nil => rfl
  | cons t ts ih =>
    cases t with
    | mark m => simp [callbacks, Callback.tokens, ih]
    | byte p b =>
      rw [callbacks]
      split
      · rename_i q bs cbs hcbs
        rw [hcbs] at ih
        split_ifs with hp
        · subst hp
          simpa [Callback.tokens] using ih
        · simpa [Callback.tokens] using ih
      · simp [Callback.tokens, ih]

/-- The number of bytes among the tokens. -/
def byteCount (ts : List Token) : Nat :=
  ts.countP fun
    | .byte _ _ => true
    | .mark _ => false

@[simp] theorem byteCount_append (ts us : List Token) :
    byteCount (ts ++ us) = byteCount ts + byteCount us :=
  List.countP_append

@[simp] theorem byteCount_part (p : Span) (bs : Bytes) : byteCount (part p bs) = bs.length := by
  simp [byteCount, part, List.countP_map, Function.comp_def]

theorem length_le_byteCount {cbs : List Callback} {p : Span} {ds : Bytes}
    (h : .data p ds ∈ cbs) : ds.length ≤ byteCount (tokens cbs) := by
  induction cbs with
  | nil => simp at h
  | cons cb cbs ih =>
    rw [tokens_cons, byteCount_append]
    rcases List.mem_cons.mp h with rfl | h
    · simp [Callback.tokens]
    · have := ih h
      omega

theorem ne_nil_of_mem_callbacks {ts : List Token} {p : Span} {ds : Bytes}
    (h : .data p ds ∈ callbacks ts) : ds ≠ [] := by
  induction ts with
  | nil => simp [callbacks] at h
  | cons t ts ih =>
    cases t with
    | mark m => exact ih (by simpa [callbacks] using h)
    | byte q b =>
      rw [callbacks] at h
      split at h
      · rename_i q' bs cbs hcbs
        rw [hcbs] at ih
        split_ifs at h <;> rcases List.mem_cons.mp h with h | h
        · cases h
          simp
        · exact ih (List.mem_cons_of_mem _ h)
        · cases h
          simp
        · exact ih h
      · rcases List.mem_cons.mp h with h | h
        · cases h
          simp
        · exact ih h

section Step

variable {P : Type} (step : P → UInt8 → Option (P × List Token))

/-- One step per byte, up to the first that fails. -/
def scan : P → Bytes → P × List Token × Bool
  | p, [] => (p, [], true)
  | p, b :: bs =>
    match step p b with
    | none => (p, [], false)
    | some (p', ts) => ((scan p' bs).1, ts ++ (scan p' bs).2.1, (scan p' bs).2.2)

/-- The parser that takes one byte at a time. -/
def ofStep (init : P) : Parser P where
  init := init
  execute p bs := ((scan step p bs).1, callbacks (scan step p bs).2.1, (scan step p bs).2.2)

variable {step}

theorem scan_append {p q r : P} {xs ys : Bytes} {ts us : List Token} {ok : Bool}
    (hx : scan step p xs = (q, ts, true)) (hy : scan step q ys = (r, us, ok)) :
    scan step p (xs ++ ys) = (r, ts ++ us, ok) := by
  induction xs generalizing p ts with
  | nil =>
    simp only [scan, Prod.mk.injEq] at hx
    obtain ⟨rfl, rfl, -⟩ := hx
    exact hy
  | cons x xs ih =>
    rw [scan] at hx
    rw [List.cons_append, scan]
    split at hx
    · simp at hx
    · rename_i p' vs _
      simp only [Prod.mk.injEq] at hx
      obtain ⟨h₁, rfl, h₃⟩ := hx
      have hrest : scan step p' xs = (q, (scan step p' xs).2.1, true) := by rw [← h₁, ← h₃]
      simp only [ih hrest, List.append_assoc]

/-- A scan that succeeds can be cut anywhere. -/
theorem scan_split {p r : P} {xs ys : Bytes} {vs : List Token}
    (h : scan step p (xs ++ ys) = (r, vs, true)) :
    ∃ q ts us, scan step p xs = (q, ts, true) ∧ scan step q ys = (r, us, true) ∧
      vs = ts ++ us := by
  induction xs generalizing p vs with
  | nil => exact ⟨p, [], vs, rfl, h, rfl⟩
  | cons x xs ih =>
    rw [List.cons_append, scan] at h
    split at h
    · simp at h
    · rename_i p' ws hx
      simp only [Prod.mk.injEq] at h
      obtain ⟨h₁, rfl, h₃⟩ := h
      obtain ⟨q, ts, us, hxs, hys, hvs⟩ := ih (p := p') (by rw [← h₁, ← h₃])
      exact ⟨q, ws ++ ts, us, by simp [scan, hx, hxs], hys, by simp [hvs]⟩

theorem byteCount_scan_le
    (hstep : ∀ {p b q ts}, step p b = some (q, ts) → byteCount ts ≤ 1) (p : P) (bs : Bytes) :
    byteCount (scan step p bs).2.1 ≤ bs.length := by
  induction bs generalizing p with
  | nil => simp [scan, byteCount]
  | cons b bs ih =>
    rw [scan]
    split
    · simp [byteCount]
    · rename_i q ts hb
      have h₁ := hstep hb
      have h₂ := ih q
      simp only [byteCount_append, List.length_cons]
      omega

/-- The cuts do not matter to a parser that takes one byte at a time. -/
theorem feed_made_ofStep (init : P) :
    ∀ {cs : List Bytes} {p q : P} {ts : List Token}, scan step p cs.flatten = (q, ts, true) →
      (ofStep step init).feed p cs = q ∧ (ofStep step init).made p cs = ts
  | [], _, _, _, h => by
    simp only [List.flatten_nil, scan, Prod.mk.injEq] at h
    exact ⟨h.1, h.2.1⟩
  | bs :: cs, p, q, _, h => by
    obtain ⟨r, ts, us, hbs, hcs, rfl⟩ := scan_split h
    obtain ⟨hfeed, hmade⟩ := feed_made_ofStep init hcs
    have hexec : (ofStep step init).execute p bs = (r, callbacks ts, true) := by
      simp only [ofStep, hbs]
    exact ⟨by rw [← hfeed, Parser.feed, List.foldl_cons, hexec, Parser.feed],
      by rw [Parser.made, hexec, hmade, tokens_callbacks]⟩

/-- **Reading in pieces is reading at once**: a parser that takes one byte at a time reads `text`
as the tokens of one scan, if the message is not complete before the last byte. -/
theorem reads_ofStep {init q r : P} {text : Bytes} {last : UInt8} {ts us : List Token}
    (hstep : ∀ {p b q ts}, step p b = some (q, ts) → byteCount ts ≤ 1)
    (hscan : scan step init text = (q, ts, true)) (hlast : step q last = some (r, us))
    (hts : .mark .messageComplete ∉ ts) :
    (ofStep step init).Reads (text ++ [last]) (ts ++ us) := by
  have hwhole : scan step init (text ++ [last]) = (r, ts ++ us, true) :=
    scan_append hscan (by simp [scan, hlast])
  refine ⟨fun cs bs h => ?_, fun cs h => ?_, fun cs h => ?_, fun cs h hc => ?_,
    fun cs bs p ds h hd => ?_⟩
  · obtain ⟨zs, hzs⟩ := h
    rw [List.flatten_append, List.flatten_singleton, List.append_assoc] at hzs
    obtain ⟨p, vs, ws, hcs, hrest, -⟩ := scan_split (hzs ▸ hwhole)
    obtain ⟨p', vs', ws', hbs, -, -⟩ := scan_split hrest
    rw [(feed_made_ofStep init hcs : (ofStep step init).feed (ofStep step init).init cs = p ∧ _).1]
    simp only [ofStep, hbs]
  · obtain ⟨zs, hzs⟩ := h
    obtain ⟨p, vs, ws, hcs, -, hvs⟩ := scan_split (hzs ▸ hwhole)
    exact ⟨ws, by rw [hvs, ← (feed_made_ofStep init hcs).2]; rfl⟩
  · exact (feed_made_ofStep init (h ▸ hwhole)).2
  · rcases List.prefix_concat_iff.mp h with h | h
    · exact h
    · obtain ⟨zs, hzs⟩ := h
      obtain ⟨p, vs, ws, hcs, -, hvs⟩ := scan_split (hzs ▸ hscan)
      have hmade : (ofStep step init).made (ofStep step init).init cs = vs :=
        (feed_made_ofStep init hcs).2
      rw [hmade] at hc
      exact absurd (hvs ▸ List.mem_append_left ws hc) hts
  · have hlen := length_le_byteCount hd
    simp only [ofStep, tokens_callbacks] at hlen
    exact ⟨hlen.trans (byteCount_scan_le hstep _ _), fun _ => ne_nil_of_mem_callbacks hd⟩

end Step

end Avant.Lib.Http
