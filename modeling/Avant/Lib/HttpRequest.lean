import Avant.Lib.HttpParser

/-!
# A parser of HTTP requests

Requests whose body, if any, is announced by `Content-Length`: their text, the tokens of the text
in document order, and a parser that takes one byte at a time (`requestParser`).

* `Request.reads`: the parser reads every well-formed request, however its text is cut.
-/

namespace Avant.Lib.Http

structure Request where
  method : Bytes
  url : Bytes
  protocol : Bytes := ascii "HTTP"
  version : Bytes := ascii "1.1"
  headers : List (Bytes × Bytes) := []
  body : Bytes := []
  deriving DecidableEq

/-- The tokens of a header line. -/
def headerDocument (h : Bytes × Bytes) : List Token :=
  part .headerField h.1 ++ .mark .headerFieldComplete ::
    (part .headerValue h.2 ++ [.mark .headerValueComplete])

/-- The tokens of the request line. -/
def Request.startDocument (r : Request) : List Token :=
  .mark .messageBegin :: (part .method r.method ++ .mark .methodComplete ::
    (part .url r.url ++ .mark .urlComplete ::
      (part .protocol r.protocol ++ .mark .protocolComplete ::
        (part .version r.version ++ [.mark .versionComplete]))))

/-- The tokens of a request, in the order of its text. -/
def Request.document (r : Request) : List Token :=
  r.startDocument ++ (r.headers.flatMap headerDocument ++ .mark .headersComplete ::
    (part .body r.body ++ [.mark .messageComplete]))

theorem isChunk_of_mem_part {t : Token} {p : Span} {bs : Bytes} (h : t ∈ part p bs) :
    t.isChunk = p.isExtension := by
  obtain ⟨b, -, rfl⟩ := List.mem_map.mp h
  rfl

theorem isChunk_of_mem_document {r : Request} {t : Token} (h : t ∈ r.document) :
    t.isChunk = false := by
  simp only [Request.document, Request.startDocument, List.mem_append, List.mem_cons,
    List.mem_flatMap, List.not_mem_nil, or_false] at h
  rcases h with (rfl | h | rfl | h | rfl | h | rfl | h | rfl) | ⟨line, -, h⟩ | rfl | h | rfl
  case inr.inl =>
    simp only [headerDocument, List.mem_append, List.mem_cons, List.not_mem_nil, or_false] at h
    rcases h with h | rfl | h | rfl
    all_goals first | rfl | exact isChunk_of_mem_part h
  all_goals first | rfl | exact isChunk_of_mem_part h

def space : UInt8 := 32

def slash : UInt8 := 47

def colon : UInt8 := 58

def cr : UInt8 := 13

def lf : UInt8 := 10

def isUpper (b : UInt8) : Bool := 65 ≤ b && b ≤ 90

def lower (b : UInt8) : UInt8 := if isUpper b then b + 32 else b

/-- A byte above the space and the controls. -/
def isVisible (b : UInt8) : Bool := space < b

def decimal (bs : Bytes) : Nat := bs.foldl (fun n b => 10 * n + (b.toNat - 48)) 0

/-- The length of the body, as the headers up to this one announce it. -/
def announced (n : Nat) (h : Bytes × Bytes) : Nat :=
  if h.1.map lower = ascii "content-length" then decimal h.2 else n

def headerText (h : Bytes × Bytes) : Bytes := h.1 ++ colon :: space :: (h.2 ++ [cr, lf])

/-- The text of the request line. -/
def Request.startText (r : Request) : Bytes :=
  r.method ++ space :: (r.url ++ space :: (r.protocol ++ slash :: (r.version ++ [cr, lf])))

/-- The text of a request. -/
def Request.text (r : Request) : Bytes :=
  r.startText ++ (r.headers.flatMap headerText ++ cr :: lf :: r.body)

/-- Where in a request the parser is. -/
inductive Phase
  | start
  | method
  | url
  | protocol
  | version
  | requestLineEnd
  | headerStart
  | headerField
  | headerValueStart
  | headerValue
  | headerLineEnd
  | headerEnd
  | headersEnd
  | body
  deriving DecidableEq

/-- The state of the request parser: its place, the header being read, and the length of the body
that is still to come. -/
structure Reading where
  phase : Phase := .start
  field : Bytes := []
  value : Bytes := []
  left : Nat := 0
  deriving DecidableEq

/-- The first byte of a header line, or of the empty line behind the headers. -/
def headerStartStep (s : Reading) (b : UInt8) : Option (Reading × List Token) :=
  if b = cr then some ({ s with phase := .headersEnd }, [])
  else if isVisible b && b != colon then
    some ({ s with phase := .headerField, field := [b], value := [] }, [.byte .headerField b])
  else none

/-- The request parser. The value of a header is complete when the next line has begun: a line
that begins with a space would continue it. -/
def requestStep (s : Reading) (b : UInt8) : Option (Reading × List Token) :=
  match s.phase with
  | .start =>
    if isUpper b then
      some ({ s with phase := .method }, [.mark .messageBegin, .byte .method b])
    else none
  | .method =>
    if b = space then some ({ s with phase := .url }, [.mark .methodComplete])
    else if isUpper b then some (s, [.byte .method b])
    else none
  | .url =>
    if b = space then some ({ s with phase := .protocol }, [.mark .urlComplete])
    else if isVisible b then some (s, [.byte .url b])
    else none
  | .protocol =>
    if b = slash then some ({ s with phase := .version }, [.mark .protocolComplete])
    else if isUpper b then some (s, [.byte .protocol b])
    else none
  | .version =>
    if b = cr then some ({ s with phase := .requestLineEnd }, [.mark .versionComplete])
    else if isVisible b then some (s, [.byte .version b])
    else none
  | .requestLineEnd => if b = lf then some ({ s with phase := .headerStart }, []) else none
  | .headerStart => headerStartStep s b
  | .headerField =>
    if b = colon then some ({ s with phase := .headerValueStart }, [.mark .headerFieldComplete])
    else if isVisible b then some ({ s with field := s.field ++ [b] }, [.byte .headerField b])
    else none
  | .headerValueStart =>
    if b = space then some (s, [])
    else if b = cr then some ({ s with phase := .headerLineEnd }, [])
    else if isVisible b then
      some ({ s with phase := .headerValue, value := [b] }, [.byte .headerValue b])
    else none
  | .headerValue =>
    if b = cr then some ({ s with phase := .headerLineEnd }, [])
    else if isVisible b || b = space then
      some ({ s with value := s.value ++ [b] }, [.byte .headerValue b])
    else none
  | .headerLineEnd => if b = lf then some ({ s with phase := .headerEnd }, []) else none
  | .headerEnd =>
    (headerStartStep { s with left := announced s.left (s.field, s.value) } b).map fun r =>
      (r.1, .mark .headerValueComplete :: r.2)
  | .headersEnd =>
    if b = lf then
      if s.left = 0 then some ({}, [.mark .headersComplete, .mark .messageComplete])
      else some ({ s with phase := .body }, [.mark .headersComplete])
    else none
  | .body =>
    if s.left = 1 then some ({}, [.byte .body b, .mark .messageComplete])
    else some ({ s with left := s.left - 1 }, [.byte .body b])

/-- The parser of requests. -/
def requestParser : Parser Reading := ofStep requestStep {}

theorem byteCount_headerStartStep {s q : Reading} {b : UInt8} {ts : List Token}
    (h : headerStartStep s b = some (q, ts)) : byteCount ts ≤ 1 := by
  unfold headerStartStep at h
  split_ifs at h <;> cases h <;> simp [byteCount]

theorem byteCount_requestStep {s q : Reading} {b : UInt8} {ts : List Token}
    (h : requestStep s b = some (q, ts)) : byteCount ts ≤ 1 := by
  unfold requestStep at h
  split at h
  case h_7 => exact byteCount_headerStartStep h
  case h_12 =>
    obtain ⟨⟨q', us⟩, hr, heq⟩ := Option.map_eq_some_iff.mp h
    cases heq
    simpa [byteCount] using byteCount_headerStartStep hr
  all_goals split_ifs at h <;> cases h <;> simp [byteCount]

/-- What a header line may hold. -/
structure HeaderOk (h : Bytes × Bytes) : Prop where
  field_ne_nil : h.1 ≠ []
  field : ∀ b ∈ h.1, isVisible b = true ∧ b ≠ colon
  value : ∀ b ∈ h.2, isVisible b = true ∨ b = space
  value_head : h.2.head? ≠ some space

/-- A request whose text says what it is. -/
structure Request.WellFormed (r : Request) : Prop where
  method_ne_nil : r.method ≠ []
  method : ∀ b ∈ r.method, isUpper b = true
  url : ∀ b ∈ r.url, isVisible b = true
  protocol : ∀ b ∈ r.protocol, isUpper b = true
  version : ∀ b ∈ r.version, isVisible b = true
  headers : ∀ h ∈ r.headers, HeaderOk h
  body : r.headers.foldl announced 0 = r.body.length

theorem ne_of_isUpper {b : UInt8} (h : isUpper b = true) : b ≠ space ∧ b ≠ slash := by
  constructor <;> rintro rfl <;> exact absurd h (by decide)

theorem ne_of_isVisible {b : UInt8} (h : isVisible b = true) : b ≠ space ∧ b ≠ cr := by
  constructor <;> rintro rfl <;> exact absurd h (by decide)

section Scan

variable {P : Type} {step : P → UInt8 → Option (P × List Token)}

theorem scan_cons {p q r : P} {b : UInt8} {bs : Bytes} {ts us : List Token} {ok : Bool}
    (hb : step p b = some (q, ts)) (hbs : scan step q bs = (r, us, ok)) :
    scan step p (b :: bs) = (r, ts ++ us, ok) := by
  simp [scan, hb, hbs]

/-- The bytes of one part, gathered in the state. -/
theorem scan_part (step : P → UInt8 → Option (P × List Token)) (f : Bytes → P) (sp : Span) :
    ∀ (bs xs : Bytes), (∀ b ∈ bs, ∀ xs, step (f xs) b = some (f (xs ++ [b]), [.byte sp b])) →
      scan step (f xs) bs = (f (xs ++ bs), part sp bs, true)
  | [], xs, _ => by simp [scan]
  | b :: bs, xs, h => by
    have hrest := scan_part step f sp bs (xs ++ [b]) fun c hc => h c (List.mem_cons_of_mem b hc)
    rw [scan_cons (h b List.mem_cons_self xs) hrest]
    simp

end Scan

namespace Request

variable {r : Request}

theorem scan_startText (hr : r.WellFormed) :
    scan requestStep {} r.startText = ({ phase := .headerStart }, r.startDocument, true) := by
  obtain ⟨m, ms, hm⟩ := List.exists_cons_of_ne_nil hr.method_ne_nil
  have hupper := hr.method
  rw [hm] at hupper
  have hmethod := scan_part requestStep (fun _ => { phase := .method }) .method ms []
    fun b hb _ => by
      have h := hupper b (List.mem_cons_of_mem m hb)
      simp [requestStep, h, (ne_of_isUpper h).1]
  have hurl := scan_part requestStep (fun _ => { phase := .url }) .url r.url []
    fun b hb _ => by
      have h := hr.url b hb
      simp [requestStep, h, (ne_of_isVisible h).1]
  have hprotocol := scan_part requestStep (fun _ => { phase := .protocol }) .protocol
    r.protocol [] fun b hb _ => by
      have h := hr.protocol b hb
      simp [requestStep, h, (ne_of_isUpper h).2]
  have hversion := scan_part requestStep (fun _ => { phase := .version }) .version
    r.version [] fun b hb _ => by
      have h := hr.version b hb
      simp [requestStep, h, (ne_of_isVisible h).2]
  have hend : scan requestStep { phase := .version } [cr, lf] =
      ({ phase := .headerStart }, [.mark .versionComplete], true) := by decide
  have hfirst : requestStep {} m =
      some ({ phase := .method }, [.mark .messageBegin, .byte .method m]) := by
    simp [requestStep, hupper m List.mem_cons_self]
  have hspace₁ : requestStep { phase := .method } space =
      some ({ phase := .url }, [.mark .methodComplete]) := rfl
  have hspace₂ : requestStep { phase := .url } space =
      some ({ phase := .protocol }, [.mark .urlComplete]) := rfl
  have hslash : requestStep { phase := .protocol } slash =
      some ({ phase := .version }, [.mark .protocolComplete]) := rfl
  rw [startText, startDocument, hm, List.cons_append]
  exact scan_cons hfirst (scan_append hmethod (scan_cons hspace₁ (scan_append hurl
    (scan_cons hspace₂ (scan_append hprotocol (scan_cons hslash (scan_append hversion hend)))))))

end Request

/-! ### Header lines -/

namespace Reading

variable {s : Reading}

/-- At the first byte of a line behind the request line. -/
def AtLine (s : Reading) : Prop := s.phase = .headerStart ∨ s.phase = .headerEnd

/-- The mark that is due when the next line begins. -/
def pending (s : Reading) : List Token :=
  if s.phase = .headerEnd then [.mark .headerValueComplete] else []

/-- The announced length when the next line begins. -/
def settled (s : Reading) : Nat :=
  if s.phase = .headerEnd then announced s.left (s.field, s.value) else s.left

theorem AtLine.step (hs : s.AtLine) (b : UInt8) :
    requestStep s b = (headerStartStep { s with left := s.settled } b).map fun r =>
      (r.1, s.pending ++ r.2) := by
  obtain ⟨phase, field, value, left⟩ := s
  rcases hs with rfl | rfl
  · simp [requestStep, settled, pending]
  · simp [requestStep, settled, pending]

theorem AtLine.scan_headerText (hs : s.AtLine) {h : Bytes × Bytes} (hh : HeaderOk h) :
    scan requestStep s (headerText h) = (⟨.headerEnd, h.1, h.2, s.settled⟩,
      s.pending ++ (part .headerField h.1 ++ .mark .headerFieldComplete ::
        part .headerValue h.2), true) := by
  obtain ⟨f, v⟩ := h
  obtain ⟨k, ks, rfl⟩ := List.exists_cons_of_ne_nil hh.field_ne_nil
  have hfirst : requestStep s k = some (⟨.headerField, [k], [], s.settled⟩,
      s.pending ++ [.byte .headerField k]) := by
    obtain ⟨hvis, hcolon⟩ := hh.field k List.mem_cons_self
    simp [hs.step, headerStartStep, hvis, hcolon, (ne_of_isVisible hvis).2]
  have hfield := scan_part requestStep (fun xs => ⟨.headerField, xs, [], s.settled⟩) .headerField
    ks [k] fun b hb xs => by
      obtain ⟨hvis, hcolon⟩ := hh.field b (List.mem_cons_of_mem k hb)
      simp [requestStep, hvis, hcolon]
  have hvalue : scan requestStep ⟨.headerValueStart, k :: ks, [], s.settled⟩ (v ++ [cr, lf]) =
      (⟨.headerEnd, k :: ks, v, s.settled⟩, part .headerValue v, true) := by
    cases v with
    | nil => rfl
    | cons c cs =>
      have hc : c ≠ space := fun h => hh.value_head (by simp [h])
      have hvis := (hh.value c List.mem_cons_self).resolve_right hc
      have hrest := scan_part requestStep (fun xs => ⟨.headerValue, k :: ks, xs, s.settled⟩)
        .headerValue cs [c] fun b hb xs => by
          rcases hh.value b (List.mem_cons_of_mem c hb) with h | rfl
          · simp [requestStep, h, (ne_of_isVisible h).2]
          · simp [requestStep, space, cr]
      have hc : requestStep ⟨.headerValueStart, k :: ks, [], s.settled⟩ c =
          some (⟨.headerValue, k :: ks, [c], s.settled⟩, [.byte .headerValue c]) := by
        simp [requestStep, hc, hvis, (ne_of_isVisible hvis).2]
      have hend : scan requestStep ⟨.headerValue, k :: ks, c :: cs, s.settled⟩ [cr, lf] =
          (⟨.headerEnd, k :: ks, c :: cs, s.settled⟩, [], true) := rfl
      rw [List.cons_append, scan_cons hc (scan_append hrest hend)]
      simp
  have hcolon : requestStep ⟨.headerField, k :: ks, [], s.settled⟩ colon =
      some (⟨.headerValueStart, k :: ks, [], s.settled⟩, [.mark .headerFieldComplete]) := rfl
  have hspace : requestStep ⟨.headerValueStart, k :: ks, [], s.settled⟩ space =
      some (⟨.headerValueStart, k :: ks, [], s.settled⟩, []) := rfl
  rw [headerText, List.cons_append,
    scan_cons hfirst (scan_append hfield (scan_cons hcolon (scan_cons hspace hvalue)))]
  simp

theorem AtLine.scan_headers {hs : List (Bytes × Bytes)} (hok : ∀ h ∈ hs, HeaderOk h) :
    ∀ {s : Reading}, s.AtLine → ∃ f v,
      scan requestStep s (hs.flatMap headerText ++ [cr]) =
        (⟨.headersEnd, f, v, hs.foldl announced s.settled⟩,
          s.pending ++ hs.flatMap headerDocument, true) := by
  induction hs with
  | nil =>
    intro s hs
    exact ⟨s.field, s.value, scan_cons (by simp [hs.step, headerStartStep]) rfl⟩
  | cons h hs ih =>
    intro s hline
    have hfirst := hline.scan_headerText (hok h List.mem_cons_self)
    obtain ⟨f, v, hrest⟩ := ih (fun h' hh' => hok h' (List.mem_cons_of_mem h hh'))
      (s := ⟨.headerEnd, h.1, h.2, s.settled⟩) (.inr rfl)
    refine ⟨f, v, ?_⟩
    rw [List.flatMap_cons, List.append_assoc, scan_append hfirst hrest]
    simp [settled, pending, headerDocument]

end Reading

/-! ### Whole requests -/

theorem scan_body {f v : Bytes} :
    ∀ {bs : Bytes} {n : Nat}, bs.length < n → scan requestStep ⟨.body, f, v, n⟩ bs =
      (⟨.body, f, v, n - bs.length⟩, part .body bs, true)
  | [], n, _ => rfl
  | b :: bs, n, h => by
    rw [List.length_cons] at h
    have hb : requestStep ⟨.body, f, v, n⟩ b = some (⟨.body, f, v, n - 1⟩, [.byte .body b]) := by
      simp [requestStep, show n ≠ 1 by omega]
    rw [scan_cons hb (scan_body (show bs.length < n - 1 by omega)), List.length_cons,
      Nat.sub_sub, Nat.add_comm 1]
    rfl

@[simp] theorem mark_notMem_part (m : Mark) (p : Span) (bs : Bytes) : .mark m ∉ part p bs := by
  simp [part]

namespace Request

variable {r : Request}

/-- Everything before the body is incomplete. -/
theorem messageComplete_notMem_head (r : Request) :
    .mark .messageComplete ∉ r.startDocument ++ r.headers.flatMap headerDocument := by
  simp [startDocument, headerDocument]

/-- **The parser reads every well-formed request**, in document order and however its text is
cut. -/
theorem reads (hr : r.WellFormed) : requestParser.Reads r.text r.document := by
  obtain ⟨f, v, hheaders⟩ := Reading.AtLine.scan_headers hr.headers
    (s := { phase := .headerStart }) (.inl rfl)
  have hhead := scan_append (scan_startText hr) hheaders
  have hleft : r.headers.foldl announced (Reading.settled { phase := .headerStart }) =
      r.body.length := hr.body
  have hpending : Reading.pending { phase := .headerStart } = [] := rfl
  rw [hleft, hpending, List.nil_append] at hhead
  rcases r.body.eq_nil_or_concat with hbody | ⟨bs, b, hbody⟩
  · rw [hbody] at hhead
    have hlf : requestStep ⟨.headersEnd, f, v, 0⟩ lf =
        some ({}, [.mark .headersComplete, .mark .messageComplete]) := rfl
    have hread : requestParser.Reads _ _ :=
      reads_ofStep byteCount_requestStep hhead hlf r.messageComplete_notMem_head
    simpa [text, document, hbody] using hread
  · rw [List.concat_eq_append] at hbody
    rw [hbody] at hhead
    have hlf : requestStep ⟨.headersEnd, f, v, (bs ++ [b]).length⟩ lf =
        some (⟨.body, f, v, bs.length + 1⟩, [.mark .headersComplete]) := by
      simp [requestStep]
    have hmost := scan_append hhead (scan_cons hlf (scan_body (Nat.lt_succ_self bs.length)))
    have hlast : requestStep ⟨.body, f, v, bs.length + 1 - bs.length⟩ b =
        some ({}, [.byte .body b, .mark .messageComplete]) := by
      simp [requestStep]
    have hread : requestParser.Reads _ _ :=
      reads_ofStep byteCount_requestStep hmost hlast (by
        have := r.messageComplete_notMem_head
        simp_all)
    simpa [text, document, hbody, part] using hread

end Request

end Avant.Lib.Http
