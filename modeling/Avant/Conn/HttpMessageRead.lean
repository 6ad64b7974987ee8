import Avant.Conn.HttpCtx
import Avant.Lib.HttpRequest

/-!
# What the callbacks make of a request

The callbacks of `http_ctx` gather the parts of a request in strings that keep growing until
`on_create` clears them. Here a parser reads the text of one request from its initial state, and
nothing behind it.

* `HttpMessage.token` is what one token does to the message; a callback that is accepted does what
  its tokens do, one by one (`callback_eq`), so that the cuts do not matter.
* `message_document`: the tokens of a request leave its method, url and headers in the message.
* `Limits` are the sizes the callbacks accept; `within_document` shows that no part of a request
  that keeps them is refused.
* **`recvLoop_reads`**: the read loop, on bytes of a request and none behind it, fails only with the
  end of the stream and leaves the message and the parser where the tokens lead.
* **`body_accepted_iff`**: when the hooks accept a body exactly if it has at most `maxBodySize`
  bytes. The second hook adds the length of the piece to a count that has it already, so this
  depends on how the body is cut.
-/

namespace Avant.Conn

open Avant.Lib Avant.Lib.Http Avant.Socket

namespace HttpMessage

/-- Bytes of a part of the request are appended to the string for it; those of the body are
counted. -/
def grow (m : HttpMessage) : Span → Bytes → HttpMessage
  | .protocol, bs => { m with protocol := m.protocol ++ bs }
  | .url, bs => { m with url := m.url ++ bs }
  | .method, bs => { m with method := m.method ++ bs }
  | .version, bs => { m with version := m.version ++ bs }
  | .headerField, bs => { m with headFieldTmp := m.headFieldTmp ++ bs }
  | .headerValue, bs => { m with headValueTmp := m.headValueTmp ++ bs }
  | .body, bs => { m with recvBodySize := m.recvBodySize + bs.length }
  | .chunkExtensionName, _ | .chunkExtensionValue, _ => m

/-- What a token does to the message. -/
def token (m : HttpMessage) : Token → HttpMessage
  | .byte p b => m.grow p [b]
  | .mark .headerFieldComplete => m.onHeaderFieldComplete
  | .mark .headerValueComplete => m.onHeaderValueComplete
  | .mark .messageComplete => { m with recvEnd := true }
  | .mark _ => m

def tokens (m : HttpMessage) (ts : List Token) : HttpMessage := ts.foldl token m

variable (m : HttpMessage)

@[simp] theorem tokens_nil : m.tokens [] = m := rfl

@[simp] theorem tokens_cons (t : Token) (ts : List Token) :
    m.tokens (t :: ts) = (m.token t).tokens ts := rfl

@[simp] theorem tokens_append (ts us : List Token) :
    m.tokens (ts ++ us) = (m.tokens ts).tokens us :=
  List.foldl_append

theorem grow_nil (p : Span) : m.grow p [] = m := by
  cases p <;> simp [grow]

theorem grow_grow (p : Span) (b : UInt8) (bs : Bytes) :
    (m.grow p [b]).grow p bs = m.grow p (b :: bs) := by
  cases p <;> simp [grow, Nat.add_assoc, Nat.add_comm 1]

/-- The bytes of a part, one by one. -/
@[simp] theorem tokens_part (p : Span) (bs : Bytes) : m.tokens (part p bs) = m.grow p bs := by
  induction bs generalizing m with
  | nil => simp [grow_nil]
  | cons b bs ih => rw [part_cons, tokens_cons, ih, token, grow_grow]

/-! ## The document of a request -/

/-- `headers` after some header lines. -/
def headerMap (hs : Headers) (lines : List (Bytes × Bytes)) : Headers :=
  lines.foldl (fun hs h => addHeader h.1 h.2 hs) hs

/-- What a handler is to see of a request. -/
def view (r : Request) : HttpRequest :=
  ⟨r.method, r.url, r.protocol, r.version, headerMap [] r.headers⟩

/-- The message behind the request line. -/
def afterStart (r : Request) : HttpMessage :=
  { method := r.method, url := r.url, protocol := r.protocol, version := r.version }

theorem tokens_startDocument (r : Request) :
    ({} : HttpMessage).tokens r.startDocument = afterStart r := by
  simp [Request.startDocument, token, grow, afterStart]

theorem tokens_headerDocument (h : Bytes × Bytes) (hf : m.headFieldTmp = [])
    (hv : m.headValueTmp = []) :
    m.tokens (headerDocument h) = { m with headers := addHeader h.1 h.2 m.headers } := by
  simp [headerDocument, token, grow, onHeaderFieldComplete, onHeaderValueComplete, hf, hv]

theorem tokens_headers (lines : List (Bytes × Bytes)) :
    ∀ m : HttpMessage, m.headFieldTmp = [] → m.headValueTmp = [] →
      m.tokens (lines.flatMap headerDocument) = { m with headers := headerMap m.headers lines } := by
  induction lines with
  | nil => intro m _ _; rfl
  | cons h lines ih =>
    intro m hf hv
    rw [List.flatMap_cons, tokens_append, tokens_headerDocument m h hf hv]
    exact ih _ hf hv

/-- **The tokens of a request leave the request in the message.** -/
theorem message_document (r : Request) :
    ({} : HttpMessage).tokens r.document =
      { afterStart r with
        headers := headerMap [] r.headers
        recvBodySize := r.body.length
        recvEnd := true } := by
  rw [Request.document, tokens_append, tokens_startDocument, tokens_append,
    tokens_headers _ _ rfl rfl]
  simp [token, grow, afterStart]

theorem request_document (r : Request) : (({} : HttpMessage).tokens r.document).request = view r := by
  rw [message_document]
  rfl

/-- `recv_end` is set by the token that completes the message. -/
theorem recvEnd_tokens (ts : List Token) :
    (m.tokens ts).recvEnd = true ↔ m.recvEnd = true ∨ .mark .messageComplete ∈ ts := by
  induction ts generalizing m with
  | nil => simp
  | cons t ts ih =>
    rw [tokens_cons, ih, List.mem_cons]
    cases t with
    | byte p b => cases p <;> simp [token, grow]
    | mark k => cases k <;> simp [token, onHeaderFieldComplete, onHeaderValueComplete]

/-! ## Sizes -/

/-- No callback that led here refused its bytes. A body callback is checked twice, the second time
with its bytes already counted, so that the room of one more piece must be left. -/
structure Within (m : HttpMessage) : Prop where
  url : m.url.length ≤ 10240
  method : m.method.length ≤ 10
  protocol : m.protocol.length ≤ 10
  version : m.version.length ≤ 10
  headFieldTmp : m.headFieldTmp.length ≤ 1024
  headValueTmp : m.headValueTmp.length ≤ 20480
  body : m.recvBodySize + 10240 ≤ maxBodySize

/-- **The sizes of requests that are accepted however they are cut.** -/
structure Limits (r : Request) : Prop where
  url : r.url.length ≤ 10240
  method : r.method.length ≤ 10
  protocol : r.protocol.length ≤ 10
  version : r.version.length ≤ 10
  headers : ∀ h ∈ r.headers, h.1.length ≤ 1024 ∧ h.2.length ≤ 20480
  body : r.body.length + 10240 ≤ maxBodySize

/-- The message stays within the sizes at every token. -/
def Safe : HttpMessage → List Token → Prop
  | m, [] => Within m
  | m, t :: ts => Within m ∧ Safe (m.token t) ts

variable {m : HttpMessage} {ts us : List Token}

theorem Safe.within : ∀ {m : HttpMessage} {ts : List Token}, Safe m ts → Within m
  | _, [], h => h
  | _, _ :: _, h => h.1

theorem Safe.append (hts : Safe m ts) (hus : Safe (m.tokens ts) us) : Safe m (ts ++ us) := by
  induction ts generalizing m with
  | nil => exact hus
  | cons t ts ih => exact ⟨hts.1, ih hts.2 hus⟩

theorem Safe.of_prefix (h : Safe m ts) (hp : us <+: ts) : Within (m.tokens us) := by
  induction us generalizing m ts with
  | nil => exact h.within
  | cons u us ih =>
    cases ts with
    | nil => simp at hp
    | cons t ts =>
      obtain ⟨rfl, hrest⟩ := List.cons_prefix_cons.mp hp
      exact ih h.2 hrest

theorem within_grow_of_cons {p : Span} {b : UInt8} {bs : Bytes}
    (h : Within (m.grow p (b :: bs))) : Within (m.grow p [b]) := by
  obtain ⟨h₁, h₂, h₃, h₄, h₅, h₆, h₇⟩ := h
  cases p <;> constructor <;>
    simp only [grow, List.length_append, List.length_cons, List.length_nil] at * <;> omega

theorem Safe.part {p : Span} {bs : Bytes} (hm : Within m) (h : Within (m.grow p bs)) :
    Safe m (part p bs) := by
  induction bs generalizing m with
  | nil => exact hm
  | cons b bs ih =>
    refine ⟨hm, ih (within_grow_of_cons h) ?_⟩
    rw [token, grow_grow]
    exact h

theorem Safe.part_append {p : Span} {bs : Bytes} (hm : Within m)
    (h : Safe (m.grow p bs) ts) : Safe m (Http.part p bs ++ ts) :=
  (Safe.part hm h.within).append (by rwa [tokens_part])

theorem safe_startDocument {r : Request} (hr : Limits r) : Safe {} r.startDocument := by
  have hbody : 0 + 10240 ≤ maxBodySize := by decide
  have h₀ : Within {} := ⟨by simp, by simp, by simp, by simp, by simp, by simp, hbody⟩
  have h₁ : Within { method := r.method } :=
    ⟨by simp, hr.method, by simp, by simp, by simp, by simp, hbody⟩
  have h₂ : Within { method := r.method, url := r.url } :=
    ⟨hr.url, hr.method, by simp, by simp, by simp, by simp, hbody⟩
  have h₃ : Within { method := r.method, url := r.url, protocol := r.protocol } :=
    ⟨hr.url, hr.method, hr.protocol, by simp, by simp, by simp, hbody⟩
  have h₄ : Within (afterStart r) :=
    ⟨hr.url, hr.method, hr.protocol, hr.version, by simp [afterStart], by simp [afterStart], hbody⟩
  exact ⟨h₀, Safe.part_append h₀ ⟨h₁, Safe.part_append h₁ ⟨h₂, Safe.part_append h₂
    ⟨h₃, Safe.part_append h₃ ⟨h₄, h₄⟩⟩⟩⟩⟩

/-- A header line, between two lines. -/
theorem safe_headerDocument (hm : Within m) (hf : m.headFieldTmp = []) (hv : m.headValueTmp = [])
    {h : Bytes × Bytes} (hh : h.1.length ≤ 1024 ∧ h.2.length ≤ 20480) :
    Safe m (headerDocument h) := by
  have hfield : Within (m.grow .headerField h.1) :=
    { hm with headFieldTmp := by simpa [grow, hf] using hh.1 }
  have hclear : Within (m.grow .headerField h.1).onHeaderFieldComplete :=
    { hm with headFieldTmp := hfield.headFieldTmp, headValueTmp := by simp [onHeaderFieldComplete] }
  have hvalue : Within ((m.grow .headerField h.1).onHeaderFieldComplete.grow .headerValue h.2) :=
    { hm with
      headFieldTmp := hfield.headFieldTmp
      headValueTmp := by simpa [grow, onHeaderFieldComplete] using hh.2 }
  have hdone : Within (m.tokens (headerDocument h)) := by
    rw [tokens_headerDocument m h hf hv]
    exact { hm with }
  rw [headerDocument] at hdone ⊢
  refine Safe.part_append hm ⟨hfield, Safe.part_append hclear ⟨hvalue, ?_⟩⟩
  simpa [Safe, token] using hdone

theorem safe_headers {lines : List (Bytes × Bytes)}
    (hlines : ∀ h ∈ lines, h.1.length ≤ 1024 ∧ h.2.length ≤ 20480) :
    ∀ {m : HttpMessage}, Within m → m.headFieldTmp = [] → m.headValueTmp = [] →
      Safe m (lines.flatMap headerDocument) := by
  induction lines with
  | nil => intro m hm _ _; exact hm
  | cons h lines ih =>
    intro m hm hf hv
    rw [List.flatMap_cons]
    refine (safe_headerDocument hm hf hv (hlines h List.mem_cons_self)).append ?_
    rw [tokens_headerDocument m h hf hv]
    exact ih (fun h' hh' => hlines h' (List.mem_cons_of_mem h hh'))
      { hm with } hf hv

/-- **No part of a request within the limits is refused.** -/
theorem within_document {r : Request} (hr : Limits r) (hp : ts <+: r.document) :
    Within (({} : HttpMessage).tokens ts) := by
  have hstart := safe_startDocument hr
  have hhead : Within (afterStart r) := tokens_startDocument r ▸ hstart.of_prefix List.prefix_rfl
  refine Safe.of_prefix (hstart.append ?_) hp
  rw [tokens_startDocument]
  refine (safe_headers hr.headers hhead rfl rfl).append ?_
  rw [tokens_headers _ _ rfl rfl]
  have hheaders : Within { afterStart r with headers := headerMap [] r.headers } :=
    { hhead with }
  have hbody : Within ({ afterStart r with headers := headerMap [] r.headers }.grow .body r.body) :=
    { hhead with body := by simpa [grow, afterStart] using hr.body }
  have hend : Within (({} : HttpMessage).tokens r.document) := by
    rw [message_document]
    exact { hhead with body := hr.body }
  refine ⟨hheaders, Safe.part_append hheaders ⟨hbody, ?_⟩⟩
  rw [message_document] at hend
  simpa [Safe, token, grow, afterStart] using hend

/-! ## Callbacks and reads -/

/-- A callback that is not refused does what its tokens do. -/
theorem callback_eq {cb : Callback} (hw : Within (m.tokens cb.tokens))
    (hchunk : ∀ t ∈ cb.tokens, t.isChunk = false)
    (hspan : ∀ p ds, cb = .data p ds →
      ds.length ≤ 10240 ∧ (p.isExtension = true → ds ≠ [])) :
    m.callback cb = (m.tokens cb.tokens, true) := by
  cases cb with
  | mark k =>
    have hk : k.isChunk = false := hchunk (.mark k) (by simp [Callback.tokens])
    cases k <;> first | rfl | cases hk
  | data p ds =>
    obtain ⟨hlen, hext⟩ := hspan p ds rfl
    have hp : p.isExtension = false := by
      by_contra h
      obtain ⟨b, bs, rfl⟩ := List.exists_cons_of_ne_nil (hext (by simpa using h))
      exact h (hchunk (.byte p b) (by simp [Callback.tokens]))
    simp only [Callback.tokens, tokens_part] at hw ⊢
    cases p with
    | chunkExtensionName | chunkExtensionValue => cases hp
    | body =>
      have hbody := hw.body
      simp only [grow] at hbody
      have hbefore : onBodyBefore m.recvBodySize ds.length = true := by
        simp only [onBodyBefore, decide_eq_true_eq]
        omega
      have hafter : onBody (m.recvBodySize + ds.length) ds.length = true := by
        simp only [onBody, decide_eq_true_eq]
        omega
      simp [callback, onBodyData, hbefore, hafter, grow]
    | protocol => simpa [callback, onProtocol, gather, grow] using hw.protocol
    | url => simpa [callback, onUrl, gather, grow] using hw.url
    | method => simpa [callback, onMethod, gather, grow] using hw.method
    | version => simpa [callback, onVersion, gather, grow] using hw.version
    | headerField => simpa [callback, onHeaderField, gather, grow] using hw.headFieldTmp
    | headerValue => simpa [callback, onHeaderValue, gather, grow] using hw.headValueTmp

theorem runCallbacks_eq {cbs : List Callback}
    (hw : ∀ us, us <+: Http.tokens cbs → Within (m.tokens us))
    (hchunk : ∀ t ∈ Http.tokens cbs, t.isChunk = false)
    (hspan : ∀ p ds, .data p ds ∈ cbs →
      ds.length ≤ 10240 ∧ (p.isExtension = true → ds ≠ [])) :
    m.runCallbacks cbs = (m.tokens (Http.tokens cbs), true) := by
  induction cbs generalizing m with
  | nil => rfl
  | cons cb cbs ih =>
    rw [Http.tokens_cons] at hw hchunk ⊢
    have hfirst := callback_eq (hw _ (List.prefix_append _ _))
      (fun t ht => hchunk t (List.mem_append_left _ ht))
      fun p ds h => hspan p ds (h ▸ List.mem_cons_self)
    rw [runCallbacks, hfirst, tokens_append]
    refine ih (fun us hus => ?_) (fun t ht => hchunk t (List.mem_append_right _ ht))
      fun p ds h => hspan p ds (List.mem_cons_of_mem cb h)
    rw [← tokens_append]
    exact hw _ ((List.prefix_append_right_inj _).mpr hus)

section Reads

variable {P : Type} {L : Parser P} {text : Bytes} {r : Request}

/-- `llhttp_execute` on a piece of a request. -/
theorem execute_reads (hreads : L.Reads text r.document) (hr : Limits r) {cs : List Bytes}
    {bs : Bytes} (hpre : (cs ++ [bs]).flatten <+: text) (hlen : bs.length ≤ 10240) :
    (({} : HttpMessage).tokens (L.made L.init cs)).execute L (L.feed L.init cs) bs =
      (L.feed L.init (cs ++ [bs]), ({} : HttpMessage).tokens (L.made L.init (cs ++ [bs])), true) := by
  have hmade := hreads.ordered _ hpre
  rw [L.made_snoc] at hmade
  have hrun : (({} : HttpMessage).tokens (L.made L.init cs)).runCallbacks
      (L.execute (L.feed L.init cs) bs).2.1 =
        ((({} : HttpMessage).tokens (L.made L.init cs)).tokens
          (Http.tokens (L.execute (L.feed L.init cs) bs).2.1), true) := by
    refine runCallbacks_eq (fun us hus => ?_)
      (fun t ht => isChunk_of_mem_document (hmade.subset (List.mem_append_right _ ht)))
      fun p ds hd => (hreads.span cs bs p ds hpre hd).imp_left fun h => h.trans hlen
    rw [← tokens_append]
    exact within_document hr (((List.prefix_append_right_inj _).mpr hus).trans hmade)
  have haccepts := hreads.accepts cs bs hpre
  rw [L.made_snoc, L.feed_snoc, tokens_append]
  simp only [execute, hrun, haccepts, Bool.and_self]

/-- A read loop that takes nothing leaves the parser and the message alone. -/
theorem recvLoop_of_taken_nil {rs : List RecvResult} {len : Nat} {p : P} {m : HttpMessage}
    (h : (m.recvLoop L rs len p).taken = []) :
    ∃ f, (f = none ∨ f = some .recv) ∧
      m.recvLoop L rs len p = { parser := p, msg := m, failure := f } := by
  induction rs with
  | nil => exact ⟨none, .inl rfl, rfl⟩
  | cons x rs ih =>
    rw [recvLoop.eq_def] at h ⊢
    dsimp only at h ⊢
    split_ifs at h ⊢
    · cases x with
      | data bs =>
        dsimp only at h
        split at h <;> cases h
      | again => exact ⟨none, .inl rfl, rfl⟩
      | intr => exact ih h
      | closed => exact ⟨some .recv, .inr rfl, rfl⟩
    · exact ⟨none, .inl rfl, rfl⟩

/-- **The read loop on bytes of one request**: it fails only with the end of the stream, and leaves
the parser and the message where the pieces it takes lead. -/
theorem recvLoop_reads (hreads : L.Reads text r.document) (hr : Limits r) {rs : List RecvResult}
    {len : Nat} {cs ds : List Bytes}
    (hds : ((({} : HttpMessage).tokens (L.made L.init cs)).recvLoop L rs len
      (L.feed L.init cs)).taken = ds)
    (hlen : ∀ bs ∈ ds, bs.length ≤ 10240) (hpre : (cs ++ ds).flatten <+: text) :
    ∃ f, (f = none ∨ f = some .recv) ∧
      (({} : HttpMessage).tokens (L.made L.init cs)).recvLoop L rs len (L.feed L.init cs) =
        { parser := L.feed L.init (cs ++ ds)
          msg := ({} : HttpMessage).tokens (L.made L.init (cs ++ ds))
          taken := ds
          failure := f } := by
  induction rs generalizing len cs ds with
  | nil =>
    subst hds
    exact ⟨none, .inl rfl, by simp [recvLoop]⟩
  | cons x rs ih =>
    rw [recvLoop.eq_def] at hds ⊢
    dsimp only at hds ⊢
    split_ifs at hds ⊢
    · cases x with
      | data bs =>
        -- the piece is the first that is taken, whether the parser accepts it or not
        obtain ⟨ds, rfl⟩ : ∃ ds', ds = bs :: ds' := by
          dsimp only at hds
          split at hds <;> exact ⟨_, hds.symm⟩
        rw [List.append_cons] at hpre ⊢
        have hexec := execute_reads hreads hr
          ((List.flatten_append ▸ List.prefix_append _ _).trans hpre) (hlen bs (by simp))
        simp only [hexec, List.cons.injEq, true_and] at hds ⊢
        obtain ⟨f, hf, hloop⟩ := ih hds (fun b hb => hlen b (List.mem_cons_of_mem _ hb)) hpre
        exact ⟨f, hf, by rw [hloop]⟩
      | again => exact ⟨none, .inl rfl, by simp [← hds]⟩
      | intr => exact ih hds hlen hpre
      | closed => exact ⟨some .recv, .inr rfl, by simp [← hds]⟩
    · exact ⟨none, .inl rfl, by simp [← hds]⟩

end Reads

/-! ## The limit of the body -/

/-- The `on_body` callbacks for the pieces of a body are all accepted. -/
def acceptsBody (pieces : List Bytes) (m : HttpMessage) : Bool :=
  (m.runCallbacks (pieces.map (.data .body))).2

/-- The message, with `n` bytes of the body counted. -/
def withBodySize (n : Nat) (m : HttpMessage) : HttpMessage := { m with recvBodySize := n }

theorem acceptsBody_cons (n : Nat) (bs : Bytes) (pieces : List Bytes) (m : HttpMessage) :
    (m.withBodySize n).acceptsBody (bs :: pieces) =
      (decide (n + 2 * bs.length ≤ maxBodySize) &&
        (m.withBodySize (n + bs.length)).acceptsBody pieces) := by
  have hcallback : (m.withBodySize n).callback (.data .body bs) =
      if onBodyBefore n bs.length then
        (m.withBodySize (n + bs.length), onBody (n + bs.length) bs.length)
      else (m.withBodySize n, false) := rfl
  unfold acceptsBody
  rw [List.map_cons, runCallbacks, hcallback]
  unfold onBodyBefore onBody
  by_cases h : n + 2 * bs.length ≤ maxBodySize
  · rw [decide_eq_true h, decide_eq_true (by omega : n + bs.length ≤ maxBodySize), if_pos rfl,
      decide_eq_true (by omega : n + bs.length + bs.length ≤ maxBodySize), Bool.true_and]
  · have hsecond : decide (n + bs.length + bs.length ≤ maxBodySize) = false :=
      decide_eq_false (by omega)
    rw [decide_eq_false h, hsecond, Bool.false_and]
    split_ifs <;> rfl

/-- The pieces are accepted if each of them, counted twice, fits behind those before it. -/
theorem acceptsBody_iff (pieces : List Bytes) (n : Nat) (m : HttpMessage) :
    (m.withBodySize n).acceptsBody pieces = true ↔
      ∀ pre bs, pre ++ [bs] <+: pieces → n + pre.flatten.length + 2 * bs.length ≤ maxBodySize := by
  induction pieces generalizing n with
  | nil => simp [acceptsBody, runCallbacks]
  | cons c cs ih =>
    rw [acceptsBody_cons, Bool.and_eq_true, decide_eq_true_eq, ih]
    constructor
    · rintro ⟨hc, hcs⟩ pre bs hpre
      cases pre with
      | nil =>
        obtain ⟨rfl, -⟩ := List.cons_prefix_cons.mp hpre
        exact hc
      | cons p pre =>
        obtain ⟨rfl, htail⟩ := List.cons_prefix_cons.mp hpre
        have := hcs pre bs htail
        rw [List.flatten_cons, List.length_append]
        omega
    · intro h
      refine ⟨h [] c (by simp), fun pre bs hpre => ?_⟩
      have := h (c :: pre) bs (List.cons_prefix_cons.mpr ⟨rfl, hpre⟩)
      rw [List.flatten_cons, List.length_append] at this
      omega

theorem length_le_of_acceptsBody {pieces : List Bytes} {n : Nat} (hn : n ≤ maxBodySize)
    (h : (m.withBodySize n).acceptsBody pieces = true) :
    n + pieces.flatten.length ≤ maxBodySize := by
  rcases List.eq_nil_or_concat pieces with rfl | ⟨pre, bs, rfl⟩
  · simpa using hn
  · have := (acceptsBody_iff _ n m).mp h pre bs (by simp)
    simp only [List.concat_eq_append, List.flatten_append, List.flatten_cons, List.flatten_nil,
      List.append_nil, List.length_append]
    omega

/-- **The limit of the body**, for every way of cutting it into pieces: the hooks accept exactly
the bodies of at most `maxBodySize` bytes, if the body is longer than that, or if every piece fits
twice behind the pieces before it. -/
theorem body_accepted_iff (m : HttpMessage) (pieces : List Bytes) :
    ((m.withBodySize 0).acceptsBody pieces = true ↔ pieces.flatten.length ≤ maxBodySize) ↔
      (maxBodySize < pieces.flatten.length ∨ ∀ pre bs, pre ++ [bs] <+: pieces →
        pre.flatten.length + 2 * bs.length ≤ maxBodySize) := by
  have haccepts := acceptsBody_iff pieces 0 m
  simp only [Nat.zero_add] at haccepts
  constructor
  · intro h
    rcases Nat.lt_or_ge maxBodySize pieces.flatten.length with hlong | hshort
    · exact .inl hlong
    · exact .inr (haccepts.mp (h.mpr hshort))
  · rintro (hlong | hfit)
    · constructor
      · intro h
        have := length_le_of_acceptsBody (Nat.zero_le _) h
        omega
      · intro h
        omega
    · refine ⟨fun h => ?_, fun _ => haccepts.mpr hfit⟩
      have := length_le_of_acceptsBody (Nat.zero_le _) h
      omega

/-- **A body within the limit is refused**: 200 pieces of 10240 bytes, which is what the buffer of
`on_event` holds; the last one is counted twice. -/
theorem body_refused :
    ¬ (({} : HttpMessage).acceptsBody (List.replicate 200 (List.replicate 10240 0)) = true ↔
      (List.replicate 200 (List.replicate 10240 (0 : UInt8))).flatten.length ≤ maxBodySize) := by
  have hpiece : (List.replicate 10240 (0 : UInt8)).length = 10240 := List.length_replicate
  generalize List.replicate 10240 (0 : UInt8) = piece at hpiece ⊢
  have hlen : ∀ n, (List.replicate n piece).flatten.length = n * 10240 := fun n => by simp [hpiece]
  intro h
  have haccepted := h.mpr (by rw [hlen]; decide)
  have hlast := (acceptsBody_iff _ 0 {}).mp haccepted (List.replicate 199 piece) piece
    (List.replicate_succ' ▸ List.prefix_rfl)
  rw [hlen, hpiece] at hlast
  exact absurd hlast (by decide)

end HttpMessage

end Avant.Conn
