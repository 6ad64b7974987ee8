import Avant.App.StaticPath
import Avant.Conn.HttpReuse
import Avant.Lib.CString
import Avant.Lib.HttpHead

/-!
# The static file server

Model of the handlers of `src/app/http_app.cpp`: `avant_parse_range_header`, the resolution of a
range, and the callbacks that `process_connection` installs. `processAnswer` is `process_callback`
with all of its exits, `writeEnd` the `write_end_callback` of a file and of a directory, and
`httpApp` puts them under a connection as the `HttpApp` of `HttpCtx.lean`.

What the operating system and zlib answer is an `HttpOs`, one for the handlers that an event runs.
A `FILE` is its position, and `fread` a function of that and the number of bytes asked for. A
`WriteEnd` is a callback with the response object it works on.

`ProcessExit` and the three next to it list the exits of `process_callback` with the conditions
under which they are taken; what holds of every answer is proved over them.

`ops` records what a handler does with `ctx.ptr`; only `HttpOwner.lean` reads it.

Left out: the logging, and `std::bad_alloc` of strings and vectors, which `HttpOwner.lean` adds.
The table of media types and the format of `Last-Modified` are parameters.
-/

namespace Avant.App

open Avant.Lib Avant.Conn
open Avant.Lib.Http (headText IsLine)

/-! ## What is given -/

/-- The configuration, and the texts that come from the C++ library or from a table. No media type
and no date has a carriage return in it. -/
structure HttpConfig where
  /-- `http_static_dir` -/
  staticDir : Bytes
  /-- `mime_type::get_type` of a path, with its default -/
  mimeType : Bytes → Bytes
  mimeType_noCr : ∀ t, (13 : UInt8) ∉ mimeType t
  /-- `put_time` of `gmtime` -/
  httpDate : Int → Bytes
  httpDate_noCr : ∀ t, (13 : UInt8) ∉ httpDate t

/-- What `stat` returns of a file. -/
structure FileStat where
  stMtime : Int
  stSize : Nat
  deriving DecidableEq

/-- What the operating system and zlib answer the handlers during one event. -/
structure HttpOs where
  /-- the first `fs::exists`; `none` when it throws -/
  pathExists : Option Bool := some true
  isRegularFile : Option Bool := some true
  /-- the second `fs::exists` -/
  existsAgain : Option Bool := some true
  isDirectory : Option Bool := some true
  /-- the `stat` of `generate_etag_for_regular_file` -/
  etagStat : Option FileStat := none
  /-- the `st_size` of the second `stat` -/
  stat : Option Nat := none
  /-- `new (std::nothrow) avant_http_app_reponse` returns an object -/
  newResponse : Bool := true
  /-- `new (std::nothrow) DIR_TYPE` returns an object -/
  newDir : Bool := true
  /-- `deflateInit2` returns `Z_OK` -/
  deflateInit : Bool := true
  fopen : Bool := true
  fseek : Bool := true
  /-- what `fread` returns at a position for a number of bytes -/
  fread : Nat → Nat → Bytes := fun _ _ => []
  /-- what `deflate` makes of the bytes, `none` for `Z_STREAM_ERROR` -/
  deflate : Option Bytes := none
  /-- what `deflate` gives at the end, `none` for anything but `Z_STREAM_END` -/
  deflateFinish : Option Bytes := none
  /-- the paths that `directory_iterator` gives, up to an error -/
  entries : List Bytes := []

/-- `&&` of two calls that may throw. -/
def andThen (a b : Option Bool) : Option Bool :=
  match a with
  | some true => b
  | r => r

/-! ## Headers -/

/-- The value of a header that came once. -/
def singleHeader (name : Bytes) (hs : Headers) : Bytes :=
  match hs.lookup name with
  | some [v] => v
  | _ => []

/-- `client_support_gzip` -/
def clientSupportGzip (hs : Headers) : Bool :=
  match hs.lookup (ascii "Accept-Encoding") with
  | none => false
  | some vs => vs.any fun v => (find (ascii "gzip") v).isSome

/-! ## Ranges -/

/-- `avant_http_range` -/
structure HttpRange where
  start : Int
  stop : Int
  startEmpty : Bool
  deriving DecidableEq

/-- The items that `std::getline` reads up to commas; nothing behind the last comma is no item. -/
def getlines : Bytes → Bytes → List Bytes
  | item, [] => if item = [] then [] else [item]
  | item, b :: s => if b = 44 then item :: getlines [] s else getlines (item ++ [b]) s

/-- `std::stoll`, or the default for an empty text; `none` when it throws. -/
def stollOr (default : Int) (s : Bytes) : Option Int :=
  if s = [] then some default else stoll s

/-- One item of a range header, `none` when it is rejected. -/
def parseRangeItem (item : Bytes) : Option HttpRange :=
  match find [45] item with
  | none => none
  | some dashPos =>
    let startStr := item.take dashPos
    let endStr := item.drop (dashPos + 1)
    match stollOr 0 startStr, stollOr (-1) endStr with
    | some start, some stop => some ⟨start, stop, startStr = []⟩
    | _, _ => none

/-- The loop of `avant_parse_range_header`: what it returns, and the ranges it pushed. -/
def parseRangeItems : List Bytes → List HttpRange → Bool × List HttpRange
  | [], ranges => (!ranges.isEmpty, ranges)
  | item :: items, ranges =>
    match parseRangeItem item with
    | none => (false, ranges)
    | some r => parseRangeItems items (ranges ++ [r])

/-- `avant_parse_range_header`, on an empty vector. -/
def avantParseRangeHeader (rangeHeader : Bytes) : Bool × List HttpRange :=
  if rangeHeader = [] ∨ find (ascii "bytes=") rangeHeader ≠ some 0 then (false, [])
  else parseRangeItems (getlines [] (rangeHeader.drop 6)) []

/-- `header_ranges`: the ranges that were pushed, whatever the parser returned. -/
def headerRanges (hs : Headers) : List HttpRange :=
  match hs.lookup (ascii "Range") with
  | some [v] => (avantParseRangeHeader v).2
  | _ => []

/-- Which part of a file is asked for. -/
inductive RangeResult
  | full
  /-- `return_416` -/
  | unsatisfiable
  /-- `range_start` and `range_end` of a partial response -/
  | part (start stop : Int)
  deriving DecidableEq

/-- One range against the size of the file. -/
def resolveOne (r : HttpRange) (fileSize : Int) : RangeResult :=
  if fileSize = 0 then .unsatisfiable
  else if r.startEmpty then
    if r.stop ≤ 0 then .unsatisfiable
    else if r.stop ≥ fileSize then .full
    else .part (fileSize - r.stop) (fileSize - 1)
  else if r.start < 0 ∨ r.start ≥ fileSize ∨ (r.stop ≠ -1 ∧ r.stop < r.start) then .unsatisfiable
  else
    let rangeEnd := if r.stop = -1 then fileSize - 1 else r.stop
    .part r.start (if rangeEnd > fileSize - 1 then fileSize - 1 else rangeEnd)

/-- The resolution of the ranges of a request. -/
def resolveRange (ranges : List HttpRange) (ifRange etag : Bytes) (fileSize : Int) : RangeResult :=
  match ranges with
  | [] => .full
  | r :: rs =>
    if ifRange ≠ [] ∧ etag ≠ [] ∧ ifRange ≠ etag then .full
    else if rs ≠ [] then .full
    else resolveOne r fileSize

/-! ## Responses -/

def connectionLines (keepAlive : Bool) : List Bytes :=
  if keepAlive then
    [ascii "Connection: keep-alive", ascii "Keep-Alive: timeout=60, max=10000"]
  else [ascii "Connection: close"]

/-- The lines of an error response with a text of three bytes. -/
def errorLines (status : Bytes) (allow : List Bytes) (keepAlive : Bool) : List Bytes :=
  [status, ascii "Server: avant"] ++ allow ++ connectionLines keepAlive ++
    [ascii "Content-Type: text/plain; charset=UTF-8", ascii "Content-Length: 3"]

def lines404 : Bool → List Bytes := errorLines (ascii "HTTP/1.1 404 Not Found") []

def lines500 : Bool → List Bytes := errorLines (ascii "HTTP/1.1 500 Internal Server Error") []

def lines405 : Bool → List Bytes :=
  errorLines (ascii "HTTP/1.1 405 Method Not Allowed") [ascii "Allow: GET, HEAD"]

/-- `ETag` and `Last-Modified`, from `generate_etag_for_regular_file`; empty when `stat` failed. -/
def generateEtag (cfg : HttpConfig) : Option FileStat → Bytes × Bytes
  | none => ([], [])
  | some st =>
    (ascii "\"" ++ Chunked.hex (st.stMtime % 2 ^ 64).toNat ++ ascii "-" ++
      Chunked.hex st.stSize ++ ascii "\"", cfg.httpDate st.stMtime)

/-- A line for a value that may be missing. -/
def optionalLine (name value : Bytes) : List Bytes := if value = [] then [] else [name ++ value]

def lines416 (keepAlive : Bool) (etag : Bytes) (fileSize : Nat) : List Bytes :=
  [ascii "HTTP/1.1 416 Range Not Satisfiable", ascii "Server: avant"] ++
    connectionLines keepAlive ++
    [ascii "Content-Range: bytes */" ++ Decimal.decimal fileSize] ++
    optionalLine (ascii "ETag: ") etag ++ [ascii "Content-Length: 0"]

def lines304 (keepAlive : Bool) : List Bytes :=
  [ascii "HTTP/1.1 304 Not Modified", ascii "Server: avant"] ++ connectionLines keepAlive ++
    [ascii "Content-Length: 0"]

/-- The lines that say how the body comes: a range with its length, or chunks. -/
def bodyLines (range : RangeResult) (fileSize : Nat) : List Bytes :=
  match range with
  | .part start stop =>
    [ascii "Content-Range: bytes " ++ Decimal.intText start ++ ascii "-" ++
        Decimal.intText stop ++ ascii "/" ++ Decimal.decimal fileSize,
      ascii "Content-Length: " ++ Decimal.intText (stop - start + 1)]
  | _ => [ascii "Transfer-Encoding: chunked"]

def RangeResult.isPart : RangeResult → Bool
  | .part _ _ => true
  | _ => false

/-- The lines of `response_head` of a file. -/
def fileLines (keepAlive : Bool) (etag date mime : Bytes) (useGzip : Bool) (range : RangeResult)
    (fileSize : Nat) : List Bytes :=
  [if range.isPart then ascii "HTTP/1.1 206 Partial Content" else ascii "HTTP/1.1 200 OK",
      ascii "Server: avant"] ++ connectionLines keepAlive ++ [ascii "Accept-Ranges: bytes"] ++
    optionalLine (ascii "ETag: ") etag ++ optionalLine (ascii "Last-Modified: ") date ++
    [ascii "Content-Type: " ++ mime] ++
    (if useGzip && !range.isPart then [ascii "Content-Encoding: gzip"] else []) ++
    bodyLines range fileSize

/-- `avant_html_loader::a_tag` -/
def aTag (url text : Bytes) : Bytes :=
  ascii "<a href=\"" ++ url ++ ascii "\">" ++ text ++ ascii "</a></br>"

/-- `avant_html_loader::load`. The lines of the literal are continued, with their indentation. -/
def loadHtml (body : Bytes) : Bytes :=
  ascii "<!DOCTYPE html>                        <html>                        <head>" ++
    ascii "                        <title></title>                        </head>" ++
    ascii "                        <body>" ++ body ++
    ascii "</body>                                </html>"

/-- The page of a directory. -/
def directoryPage (cfg : HttpConfig) (entries : List Bytes) : Bytes :=
  loadHtml (entries.flatMap fun e =>
    aTag (e.drop cfg.staticDir.length) (e.drop cfg.staticDir.length))

/-- The lines of `response_head` of a directory. -/
def directoryLines (keepAlive : Bool) (page : Bytes) : List Bytes :=
  [ascii "HTTP/1.1 200 OK", ascii "Server: avant"] ++ connectionLines keepAlive ++
    [ascii "Content-Type: text/html; charset=UTF-8",
      ascii "Content-Length: " ++ Decimal.decimal page.length]

/-! ## The handlers -/

/-- `avant_http_app_reponse` of a file: the position of its `FILE`, and its fields. -/
structure FileResponse where
  position : Nat
  rangeLeft : Int
  useGzip : Bool
  deriving DecidableEq

/-- A `write_end_callback`, with its captures and the response object. -/
inductive WriteEnd
  | file (isHttpHeadMethod partialResponse : Bool) (resp : FileResponse)
  /-- the page and `already_size` -/
  | dir (page : Bytes) (alreadySize : Nat)
  deriving DecidableEq

/-- What a handler does with `ctx.ptr`. -/
inductive PtrOp
  /-- a response object is allocated and stored in `ctx.ptr` -/
  | store
  /-- the response object is deleted, and `ctx.ptr` left as it is -/
  | delete
  /-- the response object is used through `ctx.ptr` -/
  | use
  deriving DecidableEq

/-- A run of a handler, and what it does with `ctx.ptr`. -/
structure Answer where
  run : HandlerRun WriteEnd
  ops : List PtrOp := []

/-- A response that is complete, and marked so. -/
def Answer.finished (response : Bytes) (ops : List PtrOp) : Answer where
  run := { append := response, responseEnd := true }
  ops := ops

def return404 (keepAlive : Bool) : Bytes := headText (lines404 keepAlive) ++ ascii "404"

def return500 (keepAlive : Bool) : Bytes := headText (lines500 keepAlive) ++ ascii "500"

def return405 (keepAlive : Bool) : Bytes := headText (lines405 keepAlive) ++ ascii "405"

/-- `buffer_size` of the callback: 1000KB -/
def bufferSize : Nat := 1024000

/-- The bytes that `fread` is asked for. -/
def wanted (partialResponse : Bool) (resp : FileResponse) : Nat :=
  if partialResponse ∧ resp.rangeLeft < bufferSize then resp.rangeLeft.toNat else bufferSize

/-- `len > 0`: what becomes of the bytes that `fread` returned. -/
def sendData (partialResponse : Bool) (resp : FileResponse) (data : Bytes) (os : HttpOs) :
    HandlerRun WriteEnd :=
  let next := WriteEnd.file false partialResponse
  if partialResponse then
    let sent := data.take (if resp.rangeLeft < data.length then resp.rangeLeft.toNat
      else data.length)
    { append := sent
      responseEnd := resp.rangeLeft - sent.length ≤ 0
      writeEnd := some (next { resp with rangeLeft := resp.rangeLeft - sent.length }) }
  else if resp.useGzip then
    match os.deflate with
    | none => { responseEnd := true, writeEnd := some (next resp) }
    | some out =>
      { append := if out ≠ [] then Chunked.chunk out else [], writeEnd := some (next resp) }
  else { append := Chunked.chunk data, writeEnd := some (next resp) }

/-- `len <= 0`: the end of the file, or an error. -/
def sendEnd (partialResponse : Bool) (resp : FileResponse) (os : HttpOs) : HandlerRun WriteEnd :=
  let next := WriteEnd.file false partialResponse resp
  if partialResponse then { responseEnd := true, writeEnd := some next }
  else if resp.useGzip then
    match os.deflateFinish with
    | none => { responseEnd := true, writeEnd := some next }
    | some out =>
      { append := (if out ≠ [] then Chunked.chunk out else []) ++ Chunked.lastChunk
        responseEnd := true
        writeEnd := some next }
  else { append := Chunked.lastChunk, responseEnd := true, writeEnd := some next }

/-- The `write_end_callback` of a file. -/
def fileWriteEnd (isHttpHeadMethod partialResponse : Bool) (resp : FileResponse) (os : HttpOs) :
    Answer :=
  if isHttpHeadMethod then { run := { responseEnd := true } }
  else
    let want := wanted partialResponse resp
    let data := (os.fread resp.position want).take want
    let resp := { resp with position := resp.position + data.length }
    { run := if data ≠ [] then sendData partialResponse resp data os
        else sendEnd partialResponse resp os
      ops := [.use] }

/-- The `write_end_callback` of a directory. The bytes are taken from the start of the page at
every call. -/
def dirWriteEnd (page : Bytes) (alreadySize : Nat) : Answer :=
  if page.length > alreadySize then
    let needSend := min (page.length - alreadySize) 1024000
    { run :=
        { append := page.take needSend, writeEnd := some (.dir page (alreadySize + needSend)) },
      ops := [.use] }
  else { run := { responseEnd := true }, ops := [.use] }

/-- `write_end_callback`. -/
def writeEnd (k : WriteEnd) (os : HttpOs) : Answer :=
  match k with
  | .file isHttpHeadMethod partialResponse resp =>
    fileWriteEnd isHttpHeadMethod partialResponse resp os
  | .dir page alreadySize => dirWriteEnd page alreadySize

/-- The head of a response is appended, the callback installed, and called for the first time. -/
def startResponse (head : Bytes) (k : WriteEnd) (os : HttpOs) (ops : List PtrOp) : Answer :=
  let first := writeEnd k os
  { run :=
      { append := head ++ first.run.append
        responseEnd := first.run.responseEnd
        writeEnd := first.run.writeEnd.or (some k) },
    ops := ops ++ first.ops }

/-- A cached copy of the file is good. -/
def notModified (hs : Headers) (etag date : Bytes) : Bool :=
  singleHeader (ascii "Cache-Control") hs ≠ ascii "no-cache" ∧
    ((etag ≠ [] ∧ singleHeader (ascii "If-None-Match") hs ≠ [] ∧
        etag = singleHeader (ascii "If-None-Match") hs) ∨
      (date ≠ [] ∧ singleHeader (ascii "If-Modified-Since") hs ≠ [] ∧
        date = singleHeader (ascii "If-Modified-Since") hs))

/-- The media types that are compressed. -/
def compressible (mime : Bytes) : Bool :=
  [ascii "text/", ascii "application/javascript", ascii "application/json",
    ascii "application/xml", ascii "image/"].any fun t => find t mime = some 0

/-- `use_gzip` -/
def useGzip (cfg : HttpConfig) (hs : Headers) (tPath : Bytes) (range : RangeResult) : Bool :=
  !range.isPart && clientSupportGzip hs && compressible (cfg.mimeType tPath)

/-- The response object of a file as the callback gets it first. -/
def openFile (cfg : HttpConfig) (hs : Headers) (tPath : Bytes) (isHttpHeadMethod : Bool) :
    RangeResult → FileResponse
  | .part start stop =>
    { position := if isHttpHeadMethod then 0 else start.toNat
      rangeLeft := if isHttpHeadMethod then -1 else stop - start + 1
      useGzip := false }
  | range => { position := 0, rangeLeft := -1, useGzip := useGzip cfg hs tPath range }

/-- The branch of a regular file, behind the resolution of the range. -/
def sendFile (cfg : HttpConfig) (r : HttpRequest) (tPath : Bytes) (fileSize : Nat)
    (range : RangeResult) (os : HttpOs) : Answer :=
  let keepAlive := headerExistKeepLive r.headers
  let isHttpHeadMethod : Bool := r.method = ascii "HEAD"
  let etag := (generateEtag cfg os.etagStat).1
  let date := (generateEtag cfg os.etagStat).2
  let gzip := useGzip cfg r.headers tPath range
  if !range.isPart && notModified r.headers etag date then
    .finished (headText (lines304 keepAlive)) []
  else if !os.newResponse then .finished (return500 keepAlive) []
  else if gzip && !os.deflateInit then .finished (return500 keepAlive) [.store, .use]
  else if !os.fopen then .finished (return500 keepAlive) [.store, .use]
  else if range.isPart && !isHttpHeadMethod && !os.fseek then
    .finished (return500 keepAlive) [.store, .use]
  else
    startResponse
      (headText (fileLines keepAlive etag date (cfg.mimeType tPath) gzip range fileSize))
      (.file isHttpHeadMethod range.isPart (openFile cfg r.headers tPath isHttpHeadMethod range)) os
      [.store, .use]

/-- The branch of a regular file. -/
def fileAnswer (cfg : HttpConfig) (r : HttpRequest) (tPath : Bytes) (os : HttpOs) : Answer :=
  let keepAlive := headerExistKeepLive r.headers
  let etag := (generateEtag cfg os.etagStat).1
  match os.stat with
  | none => .finished (return500 keepAlive) []
  | some fileSize =>
    match resolveRange (headerRanges r.headers) (singleHeader (ascii "If-Range") r.headers) etag
        fileSize with
    | .unsatisfiable => .finished (headText (lines416 keepAlive etag fileSize)) []
    | range => sendFile cfg r tPath fileSize range os

/-- The branch of a directory. -/
def directoryAnswer (cfg : HttpConfig) (r : HttpRequest) (os : HttpOs) : Answer :=
  let keepAlive := headerExistKeepLive r.headers
  if !os.newResponse then .finished (return404 keepAlive) []
  else if !os.newDir then .finished (return404 keepAlive) [.store, .use, .delete]
  else
    let page := directoryPage cfg os.entries
    startResponse (headText (directoryLines keepAlive page)) (.dir page 0) os [.store, .use]

/-- An exception leaves the handler. -/
def Answer.threw : Answer := { run := { threw := true } }

/-- `process_callback`. -/
def processAnswer (cfg : HttpConfig) (r : HttpRequest) (os : HttpOs) : Answer :=
  let keepAlive := headerExistKeepLive r.headers
  if r.method ≠ ascii "GET" ∧ r.method ≠ ascii "HEAD" then .finished (return405 keepAlive) []
  else
    match staticPath cfg.staticDir r.url with
    | .internalError => .finished (return500 keepAlive) []
    | .notFound => .finished (return404 keepAlive) []
    | .path tPath =>
      match andThen os.pathExists os.isRegularFile with
      | none => .threw
      | some true => fileAnswer cfg r tPath os
      | some false =>
        match andThen os.existsAgain os.isDirectory with
        | none => .threw
        | some true => directoryAnswer cfg r os
        | some false => .finished (return404 keepAlive) []

/-! ## Exits -/

section Exits

variable (cfg : HttpConfig) (r : HttpRequest) (os : HttpOs)

/-- The exits of `sendFile`. -/
inductive SendFileExit (tPath : Bytes) (fileSize : Nat) (range : RangeResult) : Answer → Prop
  | cached (hfull : range.isPart = false)
      (hcached : notModified r.headers (generateEtag cfg os.etagStat).1
        (generateEtag cfg os.etagStat).2 = true) :
      SendFileExit tPath fileSize range
        (.finished (headText (lines304 (headerExistKeepLive r.headers))) [])
  | noResponse (hcached : ¬ (range.isPart = false ∧ notModified r.headers
        (generateEtag cfg os.etagStat).1 (generateEtag cfg os.etagStat).2 = true))
      (hnew : os.newResponse = false) :
      SendFileExit tPath fileSize range
        (.finished (return500 (headerExistKeepLive r.headers)) [])
  /-- the response object is there, but something fails behind it -/
  | failed (hcached : ¬ (range.isPart = false ∧ notModified r.headers
        (generateEtag cfg os.etagStat).1 (generateEtag cfg os.etagStat).2 = true))
      (hfail : (useGzip cfg r.headers tPath range = true ∧ os.deflateInit = false) ∨
        os.fopen = false ∨
        (range.isPart = true ∧ r.method ≠ ascii "HEAD" ∧ os.fseek = false)) :
      SendFileExit tPath fileSize range
        (.finished (return500 (headerExistKeepLive r.headers)) [.store, .use])
  | started (hnew : os.newResponse = true)
      (hgzip : useGzip cfg r.headers tPath range = true → os.deflateInit = true)
      (hopen : os.fopen = true)
      (hseek : range.isPart = true → r.method = ascii "HEAD" ∨ os.fseek = true) :
      SendFileExit tPath fileSize range
        (startResponse
          (headText (fileLines (headerExistKeepLive r.headers) (generateEtag cfg os.etagStat).1
            (generateEtag cfg os.etagStat).2 (cfg.mimeType tPath)
            (useGzip cfg r.headers tPath range) range fileSize))
          (.file (r.method = ascii "HEAD") range.isPart
            (openFile cfg r.headers tPath (r.method = ascii "HEAD") range)) os
          [.store, .use])

/-- The exits of the branch of a regular file. -/
inductive FileExit (tPath : Bytes) : Answer → Prop
  | statFailed (hstat : os.stat = none) :
      FileExit tPath (.finished (return500 (headerExistKeepLive r.headers)) [])
  | unsatisfiable {fileSize : Nat} (hstat : os.stat = some fileSize)
      (hrange : resolveRange (headerRanges r.headers)
        (singleHeader (ascii "If-Range") r.headers) (generateEtag cfg os.etagStat).1 fileSize =
          .unsatisfiable) :
      FileExit tPath (.finished (headText (lines416 (headerExistKeepLive r.headers)
        (generateEtag cfg os.etagStat).1 fileSize)) [])
  | send {fileSize : Nat} {range : RangeResult} (hstat : os.stat = some fileSize)
      (hrange : resolveRange (headerRanges r.headers)
        (singleHeader (ascii "If-Range") r.headers) (generateEtag cfg os.etagStat).1 fileSize =
          range)
      (hgood : range ≠ .unsatisfiable) : FileExit tPath (sendFile cfg r tPath fileSize range os)

/-- The exits of the branch of a directory. -/
inductive DirectoryExit : Answer → Prop
  | noResponse (hnew : os.newResponse = false) :
      DirectoryExit (.finished (return404 (headerExistKeepLive r.headers)) [])
  | noDir (hnew : os.newResponse = true) (hdir : os.newDir = false) :
      DirectoryExit
        (.finished (return404 (headerExistKeepLive r.headers)) [.store, .use, .delete])
  | listed (hnew : os.newResponse = true) (hdir : os.newDir = true) :
      DirectoryExit
        (startResponse
          (headText (directoryLines (headerExistKeepLive r.headers)
            (directoryPage cfg os.entries)))
          (.dir (directoryPage cfg os.entries) 0) os [.store, .use])

/-- The exits of `process_callback`. -/
inductive ProcessExit : Answer → Prop
  | notAllowed (hget : r.method ≠ ascii "GET") (hhead : r.method ≠ ascii "HEAD") :
      ProcessExit (.finished (return405 (headerExistKeepLive r.headers)) [])
  | internalError (hpath : staticPath cfg.staticDir r.url = .internalError) :
      ProcessExit (.finished (return500 (headerExistKeepLive r.headers)) [])
  | notFound (hpath : staticPath cfg.staticDir r.url = .notFound) :
      ProcessExit (.finished (return404 (headerExistKeepLive r.headers)) [])
  | regularThrew {tPath : Bytes} (hpath : staticPath cfg.staticDir r.url = .path tPath)
      (hregular : andThen os.pathExists os.isRegularFile = none) : ProcessExit .threw
  | file {tPath : Bytes} (hpath : staticPath cfg.staticDir r.url = .path tPath)
      (hregular : andThen os.pathExists os.isRegularFile = some true) :
      ProcessExit (fileAnswer cfg r tPath os)
  | directoryThrew {tPath : Bytes} (hpath : staticPath cfg.staticDir r.url = .path tPath)
      (hregular : andThen os.pathExists os.isRegularFile = some false)
      (hdirectory : andThen os.existsAgain os.isDirectory = none) : ProcessExit .threw
  | directory {tPath : Bytes} (hmethod : r.method = ascii "GET" ∨ r.method = ascii "HEAD")
      (hpath : staticPath cfg.staticDir r.url = .path tPath)
      (hregular : andThen os.pathExists os.isRegularFile = some false)
      (hdirectory : andThen os.existsAgain os.isDirectory = some true) :
      ProcessExit (directoryAnswer cfg r os)
  | missing {tPath : Bytes} (hpath : staticPath cfg.staticDir r.url = .path tPath)
      (hregular : andThen os.pathExists os.isRegularFile = some false)
      (hdirectory : andThen os.existsAgain os.isDirectory = some false) :
      ProcessExit (.finished (return404 (headerExistKeepLive r.headers)) [])

theorem sendFile_exit (tPath : Bytes) (fileSize : Nat) (range : RangeResult) :
    SendFileExit cfg r os tPath fileSize range (sendFile cfg r tPath fileSize range os) := by
  unfold sendFile
  simp only
  split_ifs with h304 hnew hgzip hopen hseek
  · rw [Bool.and_eq_true, Bool.not_eq_true'] at h304
    exact .cached h304.1 h304.2
  all_goals
    have hcached : ¬ (range.isPart = false ∧ notModified r.headers
        (generateEtag cfg os.etagStat).1 (generateEtag cfg os.etagStat).2 = true) := by
      simpa using h304
  · exact .noResponse hcached (by simpa using hnew)
  · exact .failed hcached (.inl (by simpa using hgzip))
  · exact .failed hcached (.inr (.inl (by simpa using hopen)))
  · exact .failed hcached (.inr (.inr (by simpa [and_assoc] using hseek)))
  · refine .started (by simpa using hnew) (fun hg => ?_) (by simpa using hopen) fun hpart => ?_
    · simpa [hg] using hgzip
    · by_cases hhead : r.method = ascii "HEAD"
      · exact .inl hhead
      · exact .inr (by simpa [hpart, hhead] using hseek)

theorem fileAnswer_exit (tPath : Bytes) : FileExit cfg r os tPath (fileAnswer cfg r tPath os) := by
  unfold fileAnswer
  simp only
  split
  · rename_i hstat
    exact .statFailed hstat
  · rename_i fileSize hstat
    split
    · rename_i hrange
      exact .unsatisfiable hstat hrange
    · rename_i hgood
      exact .send hstat rfl hgood

theorem directoryAnswer_exit : DirectoryExit cfg r os (directoryAnswer cfg r os) := by
  unfold directoryAnswer
  simp only
  split_ifs with hnew hdir
  · exact .noResponse (by simpa using hnew)
  · exact .noDir (by simpa using hnew) (by simpa using hdir)
  · exact .listed (by simpa using hnew) (by simpa using hdir)

/-- **Every run of `process_callback` takes one of its exits.** -/
theorem processAnswer_exit : ProcessExit cfg r os (processAnswer cfg r os) := by
  unfold processAnswer
  simp only
  split_ifs with hmethod
  · exact .notAllowed hmethod.1 hmethod.2
  · split
    · rename_i hpath
      exact .internalError hpath
    · rename_i hpath
      exact .notFound hpath
    · rename_i tPath hpath
      split
      · rename_i hregular
        exact .regularThrew hpath hregular
      · rename_i hregular
        exact .file hpath hregular
      · rename_i hregular
        split
        · rename_i hdirectory
          exact .directoryThrew hpath hregular hdirectory
        · rename_i hdirectory
          refine .directory ?_ hpath hregular hdirectory
          simpa only [ne_eq, not_and_or, not_not] using hmethod
        · rename_i hdirectory
          exact .missing hpath hregular hdirectory

variable {cfg r os}

theorem processAnswer_file {tPath : Bytes}
    (hmethod : r.method = ascii "GET" ∨ r.method = ascii "HEAD")
    (hpath : staticPath cfg.staticDir r.url = .path tPath)
    (hregular : andThen os.pathExists os.isRegularFile = some true) :
    processAnswer cfg r os = fileAnswer cfg r tPath os := by
  have hallowed : ¬ (r.method ≠ ascii "GET" ∧ r.method ≠ ascii "HEAD") := by
    simpa only [ne_eq, not_and_or, not_not] using hmethod
  rw [processAnswer, if_neg hallowed, hpath]
  simp only [hregular]

theorem processAnswer_directory {tPath : Bytes}
    (hmethod : r.method = ascii "GET" ∨ r.method = ascii "HEAD")
    (hpath : staticPath cfg.staticDir r.url = .path tPath)
    (hregular : andThen os.pathExists os.isRegularFile = some false)
    (hdirectory : andThen os.existsAgain os.isDirectory = some true) :
    processAnswer cfg r os = directoryAnswer cfg r os := by
  have hallowed : ¬ (r.method ≠ ascii "GET" ∧ r.method ≠ ascii "HEAD") := by
    simpa only [ne_eq, not_and_or, not_not] using hmethod
  rw [processAnswer, if_neg hallowed, hpath]
  simp only [hregular, hdirectory]

end Exits

/-! ## The application -/

/-- An answer goes on, or says that it is finished, unless an exception ends it. -/
def Answer.Complete (a : Answer) : Prop :=
  a.run.threw = false → a.run.responseEnd = true ∨ a.run.writeEnd.isSome = true

theorem complete_finished (response : Bytes) (ops : List PtrOp) :
    (Answer.finished response ops).Complete :=
  fun _ => .inl rfl

theorem complete_threw : Answer.threw.Complete := fun h => Bool.noConfusion h

theorem complete_startResponse (head : Bytes) (k : WriteEnd) (os : HttpOs) (ops : List PtrOp) :
    (startResponse head k os ops).Complete :=
  fun _ => .inr (by simp [startResponse])

variable (cfg : HttpConfig)

section Forms

variable {Q : Answer → Prop} {r : HttpRequest} {os : HttpOs}
  (finished : ∀ response, Q (.finished response []))
  (failed : ∀ response, Q (.finished response [.store, .use]))
  (started : ∀ head k, Q (startResponse head k os [.store, .use]))

include finished failed started

theorem fileAnswer_forms (tPath : Bytes) : Q (fileAnswer cfg r tPath os) := by
  have hexit := fileAnswer_exit cfg r os tPath
  generalize fileAnswer cfg r tPath os = a at hexit
  cases hexit with
  | statFailed | unsatisfiable => exact finished _
  | @send fileSize range =>
    have hexit := sendFile_exit cfg r os tPath fileSize range
    generalize sendFile cfg r tPath fileSize range os = a at hexit
    cases hexit with
    | cached | noResponse => exact finished _
    | failed => exact failed _
    | started => exact started _ _

/-- **The forms of an answer**: an exception, a response as a whole, without an object or with one
that failed, and a response that goes on with its object. Without memory for `DIR_TYPE` the object is
stored and deleted. -/
theorem processAnswer_forms (threw : Q .threw)
    (noDir : (r.method = ascii "GET" ∨ r.method = ascii "HEAD") →
      (∃ tPath, staticPath cfg.staticDir r.url = .path tPath) →
      andThen os.pathExists os.isRegularFile = some false →
      andThen os.existsAgain os.isDirectory = some true → os.newResponse = true →
      os.newDir = false → ∀ response, Q (.finished response [.store, .use, .delete])) :
    Q (processAnswer cfg r os) := by
  have hexit := processAnswer_exit cfg r os
  generalize processAnswer cfg r os = a at hexit
  cases hexit with
  | notAllowed | internalError | notFound | missing => exact finished _
  | regularThrew | directoryThrew => exact threw
  | file => exact fileAnswer_forms cfg finished failed started _
  | @directory tPath hmethod hpath hregular hdirectory =>
    have hexit := directoryAnswer_exit cfg r os
    generalize directoryAnswer cfg r os = a at hexit
    cases hexit with
    | noResponse => exact finished _
    | noDir hnew hdir => exact noDir hmethod ⟨tPath, hpath⟩ hregular hdirectory hnew hdir _
    | listed => exact started _ _

end Forms

/-- Every run of `process_callback` answers the request. -/
theorem complete_processAnswer (r : HttpRequest) (os : HttpOs) :
    (processAnswer cfg r os).Complete :=
  processAnswer_forms cfg (complete_finished · _) (complete_finished · _)
    (complete_startResponse · · os _) complete_threw fun _ _ _ _ _ _ => (complete_finished · _)

/-- The handlers under a connection. `on_new_connection` does nothing. -/
def httpApp (cfg : HttpConfig) : HttpApp WriteEnd HttpOs where
  onNewConnection _ _ := false
  processCallback r os :=
    some { (processAnswer cfg r os).run with answers := complete_processAnswer cfg r os }
  writeEndCallback k os := (writeEnd k os).run

/-- A configuration without media types and dates. -/
def plainConfig : HttpConfig where
  staticDir := ascii "/srv"
  mimeType _ := []
  mimeType_noCr _ := List.not_mem_nil
  httpDate _ := []
  httpDate_noCr _ := List.not_mem_nil

/-! ## Lines -/

theorem cr_not_mem_decimal (n : Nat) : (13 : UInt8) ∉ Decimal.decimal n := fun h =>
  absurd (Decimal.isDigit_of_mem_decimal 13 h) (by decide)

theorem cr_not_mem_intText (i : Int) : (13 : UInt8) ∉ Decimal.intText i := by
  unfold Decimal.intText
  split_ifs
  · simp [cr_not_mem_decimal]
  · exact cr_not_mem_decimal _

theorem cr_not_mem_hex (n : Nat) : (13 : UInt8) ∉ Chunked.hex n := fun h =>
  absurd (Chunked.isSome_of_mem_hex h) (by decide)

theorem cr_not_mem_generateEtag (st : Option FileStat) :
    (13 : UInt8) ∉ (generateEtag cfg st).1 ∧ (13 : UInt8) ∉ (generateEtag cfg st).2 := by
  cases st with
  | none => exact ⟨List.not_mem_nil, List.not_mem_nil⟩
  | some st =>
    have hquote : (13 : UInt8) ∉ ascii "\"" := by decide
    have hdash : (13 : UInt8) ∉ ascii "-" := by decide
    refine ⟨?_, cfg.httpDate_noCr _⟩
    simp [generateEtag, hquote, hdash, cr_not_mem_hex]

variable (keepAlive : Bool)

theorem isLine_connectionLines : ∀ l ∈ connectionLines keepAlive, IsLine l := by
  cases keepAlive <;> decide

theorem isLine_optionalLine {name value : Bytes} (hname : IsLine name)
    (hvalue : (13 : UInt8) ∉ value) : ∀ l ∈ optionalLine name value, IsLine l := by
  unfold optionalLine
  split_ifs
  · simp
  · simpa using hname.append hvalue

theorem isLine_errorLines {status : Bytes} {allow : List Bytes} (hstatus : IsLine status)
    (hallow : ∀ l ∈ allow, IsLine l) (keepAlive : Bool) :
    ∀ l ∈ errorLines status allow keepAlive, IsLine l := by
  have hserver : IsLine (ascii "Server: avant") := by decide
  have hlast : ∀ l ∈ [ascii "Content-Type: text/plain; charset=UTF-8", ascii "Content-Length: 3"],
      IsLine l := by decide
  simp only [errorLines, List.forall_mem_append]
  exact ⟨⟨⟨by simp [hstatus, hserver], hallow⟩, isLine_connectionLines keepAlive⟩, hlast⟩

theorem isLine_lines416 {etag : Bytes} (hetag : (13 : UInt8) ∉ etag) (fileSize : Nat) :
    ∀ l ∈ lines416 keepAlive etag fileSize, IsLine l := by
  have hrange : IsLine (ascii "Content-Range: bytes */") := by decide
  simp only [lines416, List.forall_mem_append]
  refine ⟨⟨⟨⟨by decide, isLine_connectionLines keepAlive⟩, ?_⟩,
    isLine_optionalLine (by decide) hetag⟩, by decide⟩
  simpa using hrange.append (cr_not_mem_decimal fileSize)

theorem isLine_lines304 : ∀ l ∈ lines304 keepAlive, IsLine l := by
  simp only [lines304, List.forall_mem_append]
  exact ⟨⟨by decide, isLine_connectionLines keepAlive⟩, by decide⟩

theorem isLine_bodyLines (range : RangeResult) (fileSize : Nat) :
    ∀ l ∈ bodyLines range fileSize, IsLine l := by
  have hchunked : ∀ l ∈ [ascii "Transfer-Encoding: chunked"], IsLine l := by decide
  cases range with
  | full | unsatisfiable => exact hchunked
  | part start stop =>
    have hrange : IsLine (ascii "Content-Range: bytes ") := by decide
    have hlength : IsLine (ascii "Content-Length: ") := by decide
    have hdash : (13 : UInt8) ∉ ascii "-" := by decide
    have hslash : (13 : UInt8) ∉ ascii "/" := by decide
    simp only [bodyLines, List.forall_mem_cons]
    exact ⟨(((hrange.append (cr_not_mem_intText _)).append hdash |>.append
      (cr_not_mem_intText _)).append hslash).append (cr_not_mem_decimal _),
      hlength.append (cr_not_mem_intText _), by simp⟩

/-- Every line of the head of a file is one. -/
theorem isLine_fileLines (st : Option FileStat) (tPath : Bytes) (keepAlive gzip : Bool)
    (range : RangeResult) (fileSize : Nat) :
    ∀ l ∈ fileLines keepAlive (generateEtag cfg st).1 (generateEtag cfg st).2 (cfg.mimeType tPath)
      gzip range fileSize, IsLine l := by
  obtain ⟨hetag, hdate⟩ := cr_not_mem_generateEtag cfg st
  have hmime : IsLine (ascii "Content-Type: ") := by decide
  have hgzip : ∀ l ∈ (if gzip && !range.isPart then [ascii "Content-Encoding: gzip"] else []),
      IsLine l := by
    split_ifs
    · decide
    · simp
  have hstatus : ∀ l ∈ [if range.isPart then ascii "HTTP/1.1 206 Partial Content"
      else ascii "HTTP/1.1 200 OK", ascii "Server: avant"], IsLine l := by
    split_ifs <;> decide
  simp only [fileLines, List.forall_mem_append]
  refine ⟨⟨⟨⟨⟨⟨⟨hstatus, isLine_connectionLines keepAlive⟩, by decide⟩,
    isLine_optionalLine (by decide) hetag⟩, isLine_optionalLine (by decide) hdate⟩, ?_⟩, hgzip⟩,
    isLine_bodyLines range fileSize⟩
  simpa using hmime.append (cfg.mimeType_noCr tPath)

theorem isLine_directoryLines (page : Bytes) : ∀ l ∈ directoryLines keepAlive page, IsLine l := by
  have htype : IsLine (ascii "Content-Type: text/html; charset=UTF-8") := by decide
  have hlength : IsLine (ascii "Content-Length: ") := by decide
  simp only [directoryLines, List.forall_mem_append, List.forall_mem_cons]
  exact ⟨⟨⟨by decide, by decide, by simp⟩, isLine_connectionLines keepAlive⟩, htype,
    hlength.append (cr_not_mem_decimal _), by simp⟩

/-! ## Partial responses -/

/-- The status of a partial response. -/
def partialStatus : Bytes := ascii "HTTP/1.1 206"

theorem prefix_headText {p l : Bytes} (hlen : p.length ≤ l.length) (ls : List Bytes) (b : Bytes) :
    p <+: headText (l :: ls) ++ b ↔ p <+: l := by
  have hsplit : headText (l :: ls) ++ b = l ++ (13 :: 10 :: headText ls ++ b) := by
    rw [Http.headText_cons, List.append_assoc]
  rw [hsplit]
  constructor
  · intro h
    exact List.prefix_of_prefix_length_le h (List.prefix_append l _) hlen
  · intro h
    exact h.trans (List.prefix_append l _)

/-- A response with another status. -/
theorem not_prefix_headText {p l : Bytes} (hlen : p.length ≤ l.length) (hl : ¬ p <+: l)
    (ls : List Bytes) (b : Bytes) : ¬ p <+: headText (l :: ls) ++ b :=
  fun h => hl ((prefix_headText hlen ls b).mp h)

/-- A response with another status is not partial. -/
theorem not_partialStatus {l : Bytes} (hlen : 12 ≤ l.length) (hl : ¬ partialStatus <+: l)
    (ls : List Bytes) (b : Bytes) : ¬ partialStatus <+: headText (l :: ls) ++ b :=
  not_prefix_headText (show partialStatus.length ≤ l.length from hlen) hl ls b

theorem not_partial_errorLines {status : Bytes} (hlen : 12 ≤ status.length)
    (hs : ¬ partialStatus <+: status) (allow : List Bytes) (keepAlive : Bool) (b : Bytes) :
    ¬ partialStatus <+: headText (errorLines status allow keepAlive) ++ b :=
  not_partialStatus hlen hs _ b

theorem not_partial_404 : ¬ partialStatus <+: return404 keepAlive :=
  not_partial_errorLines (by decide) (by decide) _ _ _

theorem not_partial_500 : ¬ partialStatus <+: return500 keepAlive :=
  not_partial_errorLines (by decide) (by decide) _ _ _

theorem not_partial_405 : ¬ partialStatus <+: return405 keepAlive :=
  not_partial_errorLines (by decide) (by decide) _ _ _

theorem not_partial_304 : ¬ partialStatus <+: headText (lines304 keepAlive) := by
  rw [← List.append_nil (headText _)]
  exact not_partialStatus (by decide) (by decide) _ []

theorem not_partial_416 (etag : Bytes) (fileSize : Nat) :
    ¬ partialStatus <+: headText (lines416 keepAlive etag fileSize) := by
  rw [← List.append_nil (headText _)]
  exact not_partialStatus (by decide) (by decide) _ []

variable {cfg : HttpConfig} {r : HttpRequest} {os : HttpOs} {tPath : Bytes} {fileSize : Nat}
  {range : RangeResult}

/-- A partial response of `sendFile`: the range is one, everything could be opened, and the
callback has been called for the first time. -/
theorem partial_sendFile
    (h : partialStatus <+: (sendFile cfg r tPath fileSize range os).run.append) :
    ∃ start stop, range = .part start stop ∧
      (r.method = ascii "HEAD" ∨ os.fseek = true) ∧
      sendFile cfg r tPath fileSize range os =
        startResponse
          (headText (fileLines (headerExistKeepLive r.headers) (generateEtag cfg os.etagStat).1
            (generateEtag cfg os.etagStat).2 (cfg.mimeType tPath) false (.part start stop)
            fileSize))
          (.file (r.method = ascii "HEAD") true
            (openFile cfg r.headers tPath (r.method = ascii "HEAD") (.part start stop))) os
          [.store, .use] := by
  have hexit := sendFile_exit cfg r os tPath fileSize range
  generalize sendFile cfg r tPath fileSize range os = a at h hexit
  cases hexit with
  | cached => exact absurd h (not_partial_304 _)
  | noResponse | failed => exact absurd h (not_partial_500 _)
  | started _ _ _ hseek =>
    cases range with
    | full | unsatisfiable => exact absurd h (not_partialStatus (by decide) (by decide) _ _)
    | part start stop =>
      exact ⟨start, stop, rfl, hseek rfl, by simp [useGzip, RangeResult.isPart]⟩

/-- **Where a partial response comes from.** -/
theorem partial_processAnswer (h : partialStatus <+: (processAnswer cfg r os).run.append) :
    ∃ tPath fileSize start stop, os.stat = some fileSize ∧
      resolveRange (headerRanges r.headers) (singleHeader (ascii "If-Range") r.headers)
        (generateEtag cfg os.etagStat).1 fileSize = .part start stop ∧
      processAnswer cfg r os = sendFile cfg r tPath fileSize (.part start stop) os := by
  have hexit := processAnswer_exit cfg r os
  generalize processAnswer cfg r os = a at h hexit ⊢
  cases hexit with
  | notAllowed => exact absurd h (not_partial_405 _)
  | internalError => exact absurd h (not_partial_500 _)
  | notFound | missing => exact absurd h (not_partial_404 _)
  | regularThrew | directoryThrew => exact absurd h (by decide)
  | @file tPath =>
    have hexit := fileAnswer_exit cfg r os tPath
    generalize fileAnswer cfg r tPath os = a at h hexit ⊢
    cases hexit with
    | statFailed => exact absurd h (not_partial_500 _)
    | unsatisfiable => exact absurd h (not_partial_416 _ _ _)
    | @send fileSize range hstat hrange =>
      obtain ⟨start, stop, rfl, -, -⟩ := partial_sendFile h
      exact ⟨tPath, fileSize, start, stop, hstat, hrange, rfl⟩
  | directory =>
    have hexit := directoryAnswer_exit cfg r os
    generalize directoryAnswer cfg r os = a at h hexit
    cases hexit with
    | noResponse | noDir => exact absurd h (not_partial_404 _)
    | listed => exact absurd h (not_partialStatus (by decide) (by decide) _ _)

/-- A partial response is one to exactly one range. -/
theorem one_range_of_part {ranges : List HttpRange} {ifRange etag : Bytes} {size start stop : Int}
    (h : resolveRange ranges ifRange etag size = .part start stop) :
    ∃ r, ranges = [r] ∧ resolveOne r size = .part start stop := by
  unfold resolveRange at h
  split at h
  · simp at h
  · rename_i r rs
    split_ifs at h with hif hrs
    rw [not_not] at hrs
    exact ⟨r, by rw [hrs], h⟩

end Avant.App
