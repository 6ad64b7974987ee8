import Avant.App.HttpApp
import Avant.Conn.HttpResponse

/-!
# The bodies of files

The `write_end_callback` of a file reads the next piece of at most 1000KB and appends it to the send
buffer: as it is for a range, as a chunk for a whole file. Under `Reads content`, which says that
the file has the same bytes throughout, the pieces are known beforehand, and `HttpResponse.lean`
says what the connection does with them.

Results:
* `script_part`, `script_chunked`: the pieces of a range and of a whole file, by induction on what
  is left of it;
* **`range_delivered`**: a partial response to a `GET` is of a range within the file, says so in its
  head, and its body is that range;
* **`file_delivered`**: the body of a whole file that is not compressed is a chunked coding of it.
-/

namespace Avant.App

open Avant.Lib Avant.Conn Avant.Conn.HttpCtx
open Avant.Lib.Http (headText IsLine)

/-- The file has the bytes `content`, and `fread` returns what is asked for as far as there is. -/
def Reads (content : Bytes) (os : HttpOs) : Prop :=
  ∀ position want, os.fread position want = (content.drop position).take want

variable {cfg : HttpConfig} {content : Bytes} {os : HttpOs}

/-! ## Pieces -/

/-- The head of a response goes in front of the first piece. -/
theorem script_startResponse {ok : HttpOs → Prop} {k : WriteEnd} {p : Bytes} {ps : List Bytes}
    (head : Bytes) (ops : List PtrOp) (h : Script (httpApp cfg) ok (writeEnd k os).run (p :: ps)) :
    Script (httpApp cfg) ok (startResponse head k os ops).run ((head ++ p) :: ps) := by
  cases h with
  | last hthrew hend => exact .last rfl hend
  | more hthrew hend hnext hrest =>
    refine .more rfl hend ?_ hrest
    show (writeEnd k os).run.writeEnd.or (some k) = _
    rw [hnext]
    rfl

theorem writeEndCallback_eq (k : WriteEnd) (os : HttpOs) :
    (httpApp cfg).writeEndCallback k os = (writeEnd k os).run := rfl

/-- One call of the callback for a range: at most 1000KB of what is left of it. -/
theorem run_part (hreads : Reads content os) (position left : Nat) (hleft : 0 < left)
    (hin : position + left ≤ content.length) (gzip : Bool) :
    (writeEnd (.file false true ⟨position, left, gzip⟩) os).run =
      { append := (content.drop position).take (min left bufferSize)
        responseEnd := decide (left ≤ bufferSize)
        writeEnd := some (.file false true
          ⟨position + min left bufferSize, (left - min left bufferSize : Nat), gzip⟩) } := by
  have hwant : wanted true ⟨position, left, gzip⟩ = min left bufferSize := by
    unfold wanted
    split_ifs with h
    · have h' : left < bufferSize := by simpa using h
      simp only [Int.toNat_natCast]
      omega
    · have h' : ¬ left < bufferSize := by simpa using h
      omega
  have hdata : (os.fread position (min left bufferSize)).take (min left bufferSize) =
      (content.drop position).take (min left bufferSize) := by
    rw [hreads, List.take_take, min_self]
  have hlen : ((content.drop position).take (min left bufferSize)).length =
      min left bufferSize := by
    rw [List.length_take, List.length_drop]
    omega
  have hpos : 0 < min left bufferSize := lt_min hleft (by decide)
  have hne : (content.drop position).take (min left bufferSize) ≠ [] := by
    rw [← List.length_pos_iff, hlen]
    exact hpos
  have hle : ¬ ((left : Int) < (min left bufferSize : Nat)) := by omega
  have hend : ((left - min left bufferSize : Nat) : Int) ≤ 0 ↔ left ≤ bufferSize := by omega
  have hrest : (left : Int) - (min left bufferSize : Nat) = (left - min left bufferSize : Nat) := by
    omega
  unfold writeEnd fileWriteEnd
  simp only [Bool.false_eq_true, if_false, hwant, hdata, if_pos hne]
  unfold sendData
  simp only [if_true, hlen, if_neg hle, List.take_of_length_le (Nat.le_of_eq hlen), hrest, hend]

/-- **The pieces of a range.** -/
theorem script_part (cfg : HttpConfig) (content : Bytes) {position left : Nat} (hleft : 0 < left)
    (hin : position + left ≤ content.length) :
    ∃ ps, ps.flatten = (content.drop position).take left ∧ ps ≠ [] ∧
      ∀ os, Reads content os → Script (httpApp cfg) (Reads content)
        ((httpApp cfg).writeEndCallback (.file false true ⟨position, left, false⟩) os) ps := by
  have hbuf : 0 < bufferSize := by decide
  have hrun := fun os (h : Reads content os) position left hleft hin =>
    run_part h position left hleft hin false
  -- the size of the buffer does not matter
  generalize bufferSize = size at hbuf hrun
  induction left using Nat.strongRecOn generalizing position with
  | ind left ih =>
    by_cases hlast : left ≤ size
    · refine ⟨[(content.drop position).take left], by simp, by simp, fun os hreads => ?_⟩
      rw [writeEndCallback_eq, hrun os hreads position left hleft hin, Nat.min_eq_left hlast]
      exact .last rfl (by simpa using hlast)
    · have hmin : min left size = size := by omega
      obtain ⟨ps, hflat, -, hscript⟩ :=
        ih (left - size) (by omega) (by omega) (show position + size + (left - size) ≤ _ by omega)
      refine ⟨(content.drop position).take size :: ps, ?_, by simp, fun os hreads => ?_⟩
      · have hsum : left = size + (left - size) := by omega
        rw [List.flatten_cons, hflat, ← List.drop_drop, ← List.take_add, ← hsum]
      · rw [writeEndCallback_eq, hrun os hreads position left hleft hin, hmin]
        exact .more rfl (by simpa using hlast) rfl hscript

/-- One call of the callback for a whole file that is not compressed: a chunk of at most 1000KB, or
the last chunk at the end. -/
theorem run_chunked (hreads : Reads content os) (position : Nat) (left : Int) :
    (writeEnd (.file false false ⟨position, left, false⟩) os).run =
      let data := (content.drop position).take bufferSize
      if data ≠ [] then
        { append := Chunked.chunk data
          writeEnd := some (.file false false ⟨position + data.length, left, false⟩) }
      else
        { append := Chunked.lastChunk
          responseEnd := true
          writeEnd := some (.file false false ⟨position + data.length, left, false⟩) } := by
  have hwant : wanted false ⟨position, left, false⟩ = bufferSize := by simp [wanted]
  have hdata : (os.fread position bufferSize).take bufferSize =
      (content.drop position).take bufferSize := by
    rw [hreads, List.take_take, min_self]
  unfold writeEnd fileWriteEnd
  simp only [Bool.false_eq_true, if_false, hwant, hdata, sendData, sendEnd]

/-- **The pieces of a whole file**: chunks of its bytes, and the last chunk. -/
theorem script_chunked (cfg : HttpConfig) (content : Bytes) (position : Nat) (left : Int) :
    ∃ cs : List Bytes, (∀ c ∈ cs, c ≠ []) ∧ cs.flatten = content.drop position ∧
      ∀ os, Reads content os → Script (httpApp cfg) (Reads content)
        ((httpApp cfg).writeEndCallback (.file false false ⟨position, left, false⟩) os)
        (cs.map Chunked.chunk ++ [Chunked.lastChunk]) := by
  have hbuf : 0 < bufferSize := by decide
  have hrun := fun os (h : Reads content os) position => run_chunked h position left
  generalize bufferSize = size at hbuf hrun
  generalize hn : content.length - position = n
  induction n using Nat.strongRecOn generalizing position with
  | ind n ih =>
    by_cases hdata : (content.drop position).take size = []
    · have hnil : content.drop position = [] := by
        rcases List.take_eq_nil_iff.mp hdata with h | h
        · omega
        · exact h
      refine ⟨[], by simp, hnil.symm, fun os hreads => ?_⟩
      rw [writeEndCallback_eq, hrun os hreads position]
      simp only [hdata, ne_eq, not_true_eq_false, if_false, List.map_nil, List.nil_append]
      exact .last rfl rfl
    · have hpos := List.length_pos_iff.mpr hdata
      have hlen : ((content.drop position).take size).length =
          min size (content.length - position) := by
        rw [List.length_take, List.length_drop]
      obtain ⟨cs, hne, hflat, hscript⟩ :=
        ih (content.length - (position + ((content.drop position).take size).length))
          (by omega) _ rfl
      refine ⟨(content.drop position).take size :: cs, ?_, ?_, fun os hreads => ?_⟩
      · rw [List.forall_mem_cons]
        exact ⟨hdata, hne⟩
      · rw [List.flatten_cons, hflat, ← List.drop_drop]
        exact List.prefix_iff_eq_append.mp (List.take_prefix size _)
      · rw [writeEndCallback_eq, hrun os hreads position]
        simp only [ne_eq, hdata, not_false_eq_true, if_true, List.map_cons, List.cons_append]
        exact .more rfl rfl rfl hscript

/-! ## Ranges -/

/-- **A range that is served lies within the file.** -/
theorem bounds_of_part {range : HttpRange} {size : Nat} {start stop : Int}
    (h : resolveOne range size = .part start stop) : 0 ≤ start ∧ start ≤ stop ∧ stop < size := by
  unfold resolveOne at h
  simp only at h
  split_ifs at h with hzero hempty hneg hall hbad hend
  · obtain ⟨rfl, rfl⟩ := RangeResult.part.inj h
    omega
  all_goals
    obtain ⟨rfl, rfl⟩ := RangeResult.part.inj h
    omega

/-- The answer to a request is what the handlers under the connection run. -/
theorem processCallback_eq (cfg : HttpConfig) (r : HttpRequest) (os : HttpOs) :
    ∃ run : ProcessRun WriteEnd, (httpApp cfg).processCallback r os = some run ∧
      run.toHandlerRun = (processAnswer cfg r os).run :=
  ⟨_, rfl, rfl⟩

section Delivery

variable {P : Type} {L : Lib.Http.Parser P} {useSsl : Bool} {os₀ : HttpOs}
  {evs₀ : List (HttpEvent HttpOs)} {s : HttpCtx P WriteEnd} {ev : HttpEvent HttpOs}
  {r : HttpRequest}

/-- A response that a file starts is delivered, when the pieces of its body are known. -/
theorem delivered_of_startResponse {ok : HttpOs → Prop} {head : Bytes} {k : WriteEnd}
    {ops : List PtrOp} {ps : List Bytes}
    (hs : exec (step L (httpApp cfg) useSsl) (accepted L (httpApp cfg) useSsl os₀) evs₀ = some s)
    (hp : s.Processes L (httpApp cfg) useSsl ev r)
    (hanswer : processAnswer cfg r ev.os = startResponse head k ev.os ops) (hne : ps ≠ [])
    (hscript : Script (httpApp cfg) ok ((httpApp cfg).writeEndCallback k ev.os) ps)
    (hok : ok ev.os) :
    ∃ bound, ∀ evs s', (∀ e ∈ evs, ok e.os) →
      exec (step L (httpApp cfg) useSsl) s (ev :: evs) = some s' →
      Delivered (head ++ ps.flatten) bound s (ev :: evs) s' := by
  obtain ⟨p, ps, rfl⟩ := List.exists_cons_of_ne_nil hne
  obtain ⟨run, hrun, hrun'⟩ := processCallback_eq cfg r ev.os
  have hstart : Script (httpApp cfg) ok run.toHandlerRun ((head ++ p) :: ps) := by
    rw [hrun', hanswer]
    exact script_startResponse head ops hscript
  have hflat : head ++ (p :: ps).flatten = ((head ++ p) :: ps).flatten := by simp
  refine ⟨((head ++ p) :: ps).flatten.length + ((head ++ p) :: ps).length,
    fun evs s' hoks hexec => ?_⟩
  rw [hflat]
  exact delivered_of_script (between_of_run hs) hp hrun hstart hok hoks hexec

/-- **A partial response to a `GET`**, of a file whose bytes stay the same: the range lies within
the file, the head states exactly this range and its length, and under every schedule of sends the
body is these bytes, and the response is marked finished with the last of them. -/
theorem range_delivered
    (hs : exec (step L (httpApp cfg) useSsl) (accepted L (httpApp cfg) useSsl os₀) evs₀ = some s)
    (hp : s.Processes L (httpApp cfg) useSsl ev r) (hget : r.method = ascii "GET")
    (hpartialStatus : partialStatus <+: (processAnswer cfg r ev.os).run.append)
    (hstat : ev.os.stat = some content.length) (hreads : Reads content ev.os) :
    ∃ (start stop : Nat) (lines : List Bytes) (bound : Nat),
      start ≤ stop ∧ stop < content.length ∧
      resolveRange (headerRanges r.headers) (singleHeader (ascii "If-Range") r.headers)
        (generateEtag cfg ev.os.etagStat).1 content.length = .part start stop ∧
      (∃ keepAlive etag date mime,
        lines = fileLines keepAlive etag date mime false (.part start stop) content.length) ∧
      (∀ l ∈ lines, IsLine l) ∧
      ascii "Content-Range: bytes " ++ Decimal.decimal start ++ ascii "-" ++
        Decimal.decimal stop ++ ascii "/" ++ Decimal.decimal content.length ∈ lines ∧
      ascii "Content-Length: " ++ Decimal.decimal (stop + 1 - start) ∈ lines ∧
      ∀ evs s', (∀ e ∈ evs, Reads content e.os) →
        exec (step L (httpApp cfg) useSsl) s (ev :: evs) = some s' →
        Delivered (headText lines ++ (content.drop start).take (stop + 1 - start)) bound s
          (ev :: evs) s' := by
  obtain ⟨tPath, fileSize, first, last, hsize, hresolve, hsend⟩ :=
    partial_processAnswer hpartialStatus
  obtain rfl : fileSize = content.length := Option.some.inj (hsize.symm.trans hstat)
  obtain ⟨range, -, hone⟩ := one_range_of_part hresolve
  obtain ⟨hfirst, hle, hlast⟩ := bounds_of_part hone
  obtain ⟨start, rfl⟩ := Int.eq_ofNat_of_zero_le hfirst
  obtain ⟨stop, rfl⟩ := Int.eq_ofNat_of_zero_le (hfirst.trans hle)
  have hmethod : decide (r.method = ascii "HEAD") = false := by rw [hget]; decide
  have hlen : (stop : Int) - start + 1 = (stop + 1 - start : Nat) := by omega
  have htext : ∀ n : Nat, Decimal.intText n = Decimal.decimal n := fun n => by
    rw [Decimal.intText, if_neg (by omega), Int.natAbs_natCast]
  rw [hsend] at hpartialStatus
  obtain ⟨_, _, hrange, -, hstart⟩ := partial_sendFile hpartialStatus
  obtain ⟨rfl, rfl⟩ := RangeResult.part.inj hrange
  have hopen : openFile cfg r.headers tPath false (.part start stop) =
      ⟨start, (stop + 1 - start : Nat), false⟩ := by
    simp only [openFile, Bool.false_eq_true, if_false, Int.toNat_natCast, hlen]
  rw [hmethod, hopen, ← hsend] at hstart
  obtain ⟨ps, hflat, hne, hscript⟩ := script_part cfg content
    (show 0 < stop + 1 - start by omega) (show start + (stop + 1 - start) ≤ content.length by omega)
  obtain ⟨bound, hdelivered⟩ :=
    delivered_of_startResponse hs hp hstart hne (hscript ev.os hreads) hreads
  rw [hflat] at hdelivered
  refine ⟨start, stop, _, bound, by omega, by omega, hresolve, ⟨_, _, _, _, rfl⟩,
    isLine_fileLines cfg ev.os.etagStat tPath _ _ _ _, ?_, ?_, hdelivered⟩
  · simp [fileLines, bodyLines, htext]
  · simp [fileLines, bodyLines, hlen, htext]

/-- A request for `/` as a client sends it, and the answers that the handlers get. -/
def requestEvent (method : Bytes) (headers : List (Bytes × Bytes)) (os : HttpOs) :
    HttpEvent HttpOs where
  read := true
  write := true
  recvs := [.data { method := method, url := ascii "/", headers := headers : Http.Request }.text]
  os := os

/-- A file with the bytes `hello`. -/
def hello : HttpOs where
  stat := some 5
  fread position want := ((ascii "hello").drop position).take want

theorem range_delivered_hello :
    let s := accepted Http.requestParser (httpApp plainConfig) false hello
    let ev := requestEvent (ascii "GET") [(ascii "Range", ascii "bytes=1-3")] hello
    ∃ lines bound, ∀ evs s', (∀ e ∈ evs, Reads (ascii "hello") e.os) →
      exec (step Http.requestParser (httpApp plainConfig) false) s (ev :: evs) = some s' →
      Delivered (headText lines ++ ascii "ell") bound s (ev :: evs) s' := by
  intro s ev
  have hp : s.Processes Http.requestParser (httpApp plainConfig) false ev
      ⟨ascii "GET", ascii "/", ascii "HTTP", ascii "1.1",
        [(ascii "Range", [ascii "bytes=1-3"])]⟩ := by
    constructor <;> decide +kernel
  have hs : exec (step Http.requestParser (httpApp plainConfig) false)
      (accepted Http.requestParser (httpApp plainConfig) false hello) [] = some s := rfl
  have hreads : Reads (ascii "hello") ev.os := fun _ _ => rfl
  obtain ⟨start, stop, lines, bound, -, -, hrange, -, -, -, -, hdelivered⟩ :=
    range_delivered hs hp rfl (by decide +kernel) rfl hreads
  have hone : RangeResult.part start stop = .part 1 3 := by
    rw [← hrange]
    decide +kernel
  obtain ⟨hstart, hstop⟩ := RangeResult.part.inj hone
  obtain rfl : start = 1 := by omega
  obtain rfl : stop = 3 := by omega
  exact ⟨lines, bound, hdelivered⟩

/-! ## Whole files -/

/-- The status of a whole file. -/
def okStatus : Bytes := ascii "HTTP/1.1 200"

/-- The body of the message is a chunked coding of `content`: it is read back as chunks of these
bytes, none of them empty, and nothing stands behind the last chunk. -/
def CodesChunked (content message : Bytes) : Prop :=
  ∃ cs : List Bytes, (∀ c ∈ cs, c ≠ []) ∧ cs.flatten = content ∧
    Http.body message = Chunked.encode cs ∧
    ∀ fuel, cs.length < fuel → Chunked.decode fuel (Http.body message) = some (cs, [])

theorem not_ok_500 (keepAlive : Bool) : ¬ okStatus <+: return500 keepAlive :=
  not_prefix_headText (by decide) (by decide) _ _

theorem not_ok_304 (keepAlive : Bool) : ¬ okStatus <+: headText (lines304 keepAlive) := by
  rw [← List.append_nil (headText _)]
  exact not_prefix_headText (by decide) (by decide) _ []

theorem not_ok_416 (keepAlive : Bool) (etag : Bytes) (fileSize : Nat) :
    ¬ okStatus <+: headText (lines416 keepAlive etag fileSize) := by
  rw [← List.append_nil (headText _)]
  exact not_prefix_headText (by decide) (by decide) _ []

/-- A whole file: it could be opened, and the callback has been called for the first time. -/
theorem okStatus_sendFile {tPath : Bytes} {fileSize : Nat} {range : RangeResult}
    (hget : r.method = ascii "GET") (hrange : range ≠ .unsatisfiable)
    (h : okStatus <+: (sendFile cfg r tPath fileSize range os).run.append) :
    sendFile cfg r tPath fileSize range os =
      startResponse
        (headText (fileLines (headerExistKeepLive r.headers) (generateEtag cfg os.etagStat).1
          (generateEtag cfg os.etagStat).2 (cfg.mimeType tPath) (useGzip cfg r.headers tPath .full)
          .full fileSize))
        (.file false false ⟨0, -1, useGzip cfg r.headers tPath .full⟩) os [.store, .use] := by
  have hmethod : decide (r.method = ascii "HEAD") = false := by rw [hget]; decide
  have hexit := sendFile_exit cfg r os tPath fileSize range
  generalize sendFile cfg r tPath fileSize range os = a at h hexit ⊢
  cases hexit with
  | cached => exact absurd h (not_ok_304 _)
  | noResponse | failed => exact absurd h (not_ok_500 _)
  | started =>
    cases range with
    | full =>
      rw [hmethod]
      rfl
    | unsatisfiable => exact absurd rfl hrange
    | part start stop =>
      have hline : ∀ ls b, ¬ okStatus <+:
          headText (ascii "HTTP/1.1 206 Partial Content" :: ls) ++ b :=
        not_prefix_headText (by decide) (by decide)
      exact absurd h (hline _ _)

theorem okStatus_processAnswer {tPath : Bytes} (hget : r.method = ascii "GET")
    (hpath : staticPath cfg.staticDir r.url = .path tPath)
    (hregular : andThen os.pathExists os.isRegularFile = some true)
    (h : okStatus <+: (processAnswer cfg r os).run.append) :
    ∃ fileSize, processAnswer cfg r os =
      startResponse
        (headText (fileLines (headerExistKeepLive r.headers) (generateEtag cfg os.etagStat).1
          (generateEtag cfg os.etagStat).2 (cfg.mimeType tPath) (useGzip cfg r.headers tPath .full)
          .full fileSize))
        (.file false false ⟨0, -1, useGzip cfg r.headers tPath .full⟩) os [.store, .use] := by
  rw [processAnswer_file (.inl hget) hpath hregular] at h ⊢
  have hexit := fileAnswer_exit cfg r os tPath
  generalize fileAnswer cfg r tPath os = a at h hexit ⊢
  cases hexit with
  | statFailed => exact absurd h (not_ok_500 _)
  | unsatisfiable => exact absurd h (not_ok_416 _ _ _)
  | @send fileSize range _ _ hgood => exact ⟨fileSize, okStatus_sendFile hget hgood h⟩

/-- **A whole file that is not compressed**, and whose bytes stay the same: under every schedule of
sends, what goes out is a response whose body is a chunked coding of the file. -/
theorem file_delivered {tPath : Bytes}
    (hs : exec (step L (httpApp cfg) useSsl) (accepted L (httpApp cfg) useSsl os₀) evs₀ = some s)
    (hp : s.Processes L (httpApp cfg) useSsl ev r) (hget : r.method = ascii "GET")
    (hpath : staticPath cfg.staticDir r.url = .path tPath)
    (hregular : andThen ev.os.pathExists ev.os.isRegularFile = some true)
    (hstatus : okStatus <+: (processAnswer cfg r ev.os).run.append)
    (hgzip : useGzip cfg r.headers tPath .full = false) (hreads : Reads content ev.os) :
    ∃ message bound, CodesChunked content message ∧
      ∀ evs s', (∀ e ∈ evs, Reads content e.os) →
        exec (step L (httpApp cfg) useSsl) s (ev :: evs) = some s' →
        Delivered message bound s (ev :: evs) s' := by
  obtain ⟨fileSize, hstart⟩ := okStatus_processAnswer hget hpath hregular hstatus
  rw [hgzip] at hstart
  obtain ⟨cs, hne, hflat, hscript⟩ := script_chunked cfg content 0 (-1)
  obtain ⟨bound, hdelivered⟩ :=
    delivered_of_startResponse hs hp hstart (by simp) (hscript ev.os hreads) hreads
  have hencode : (cs.map Chunked.chunk ++ [Chunked.lastChunk]).flatten = Chunked.encode cs := by
    simp [Chunked.encode, List.flatMap]
  have hbody := Http.body_headText (List.cons_ne_nil _ _)
    (isLine_fileLines cfg ev.os.etagStat tPath (headerExistKeepLive r.headers) false .full fileSize)
    (Chunked.encode cs)
  rw [hencode] at hdelivered
  refine ⟨_, bound, ⟨cs, hne, hflat, hbody, fun fuel hfuel => ?_⟩, hdelivered⟩
  rw [hbody, ← List.append_nil (Chunked.encode cs)]
  exact Chunked.decode_encode hne [] hfuel

theorem file_delivered_hello :
    let s := accepted Http.requestParser (httpApp plainConfig) false hello
    let ev := requestEvent (ascii "GET") [] hello
    ∃ message bound, CodesChunked (ascii "hello") message ∧
      ∀ evs s', (∀ e ∈ evs, Reads (ascii "hello") e.os) →
        exec (step Http.requestParser (httpApp plainConfig) false) s (ev :: evs) = some s' →
        Delivered message bound s (ev :: evs) s' := by
  intro s ev
  have hp : s.Processes Http.requestParser (httpApp plainConfig) false ev
      ⟨ascii "GET", ascii "/", ascii "HTTP", ascii "1.1", []⟩ := by
    constructor <;> decide +kernel
  have hs : exec (step Http.requestParser (httpApp plainConfig) false)
      (accepted Http.requestParser (httpApp plainConfig) false hello) [] = some s := rfl
  have hreads : Reads (ascii "hello") ev.os := fun _ _ => rfl
  have hpath : staticPath plainConfig.staticDir (ascii "/") = .path (ascii "/srv/index.html") := by
    decide +kernel
  exact file_delivered hs hp rfl hpath rfl (by decide +kernel) rfl hreads

end Delivery

end Avant.App
