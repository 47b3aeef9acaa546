import MonkeyCache.FileTable

/-!
# One worker of the plugin (`cache.c`)

`_mkp_stage_30` finds the file of a request in the table, on the disk or, for
the URIs of the API, by adding it, and then serves it; the other events go on
with a request, drop it, or evict idle files.  The machine is the serving
machine over file objects that come and go: what a call of the kernel or a
system call answers is part of the event.
-/

namespace MonkeyCache

open Fallible

/-- `MAX_PATH_LEN` -/
def maxPathLen : Nat := 1024

/-- The capacity of a pipe and `conf_dir`. -/
structure Config where
  cap : Nat
  confDir : Key

/-! ## The request line -/

/-- The string that `strncpy(dst, data, min(len, max))` leaves in `dst`. -/
def cString (max : Nat) (data : List Char) : Key :=
  (data.take max).takeWhile (fun ch => ch.toNat ≠ 0)

/-- `API_PREFIX` and the names of its calls. -/
def apiPrefix : Key := ['/', 'c', 'a', 'c', 'h', 'e']
def addPrefix : Key := ['/', 'a', 'd', 'd', '/']
def statsPrefix : Key := ['/', 's', 't', 'a', 't', 's']
def resetPrefix : Key := ['/', 'r', 'e', 's', 'e', 't', '/']
def webuiPrefix : Key := ['/', 'w', 'e', 'b', 'u', 'i']

/-- What a URI asks of the API. -/
inductive Api
  | add (key : Key)
  | stats
  | reset (key : Key)
  /-- the URI without the prefix of the API -/
  | webui (uri : Key)
  /-- not a call of the API -/
  | file
  deriving DecidableEq, Repr

/-- Lines 336 to 388 of `_mkp_stage_30`: which call of the API a URI is. -/
def apiOf (uri : Key) (body : List Byte) : Api :=
  if apiPrefix <+: uri then
    let ptr := uri.drop apiPrefix.length
    if addPrefix <+: ptr ∧ body ≠ [] then .add (ptr.drop 4)
    else if statsPrefix <+: ptr then .stats
    else if resetPrefix <+: ptr then .reset (ptr.drop 6)
    else if webuiPrefix <+: ptr then .webui ptr
    else .file
  else .file

/-- What `_mkp_stage_30` reads of a request. -/
structure Request where
  socket : Int
  /-- `sr->method == HTTP_METHOD_GET` -/
  get : Bool
  uriProcessed : List Char
  realPath : List Char
  /-- `sr->data` -/
  body : List Byte

/-- What `_mkp_stage_30` meets: the disk and the clock, two constructors, the
request pool and the start of the request. -/
structure RequestOut where
  disk : Key → Option (List Byte)
  now : Timeval
  create : CreateOut
  retry : CreateOut
  pipe : PipeOut
  start : StartOut

/-- The string in `uri`. -/
def Request.uri (q : Request) : Key := cString maxUriLen q.uriProcessed

/-- The string in `path`. -/
def Request.path (q : Request) : Key := cString maxPathLen q.realPath

/-- How `_mkp_stage_30` ends. -/
inductive Reply
  /-- the socket has a request already -/
  | busy
  /-- answered by the API -/
  | api
  /-- `MK_PLUGIN_RET_NOT_ME` -/
  | notMe
  /-- served from the object at this address -/
  | file (a : Addr)
  deriving DecidableEq, Repr

/-! ## Finding the file -/

/-- `file = cache_file_new(path, uri)` and the check for `NULL`. -/
def openFile (cfg : Config) (s : Worker) (path uri : Key) (disk : Key → Option (List Byte))
    (o : CreateOut) : Except Fault (Reply × Worker) := do
  let out ← cacheFileNew cfg.cap s path uri disk o
  match out.1 with
  | none => .ok (.notMe, out.2)
  | some a => .ok (.file a, out.2)

/-- `serve_stats` reads the URI and the size of every file in the table. -/
def statsEach (s : Worker) : List (Σ _ : Key, Addr) → Except Fault Unit
  | [] => .ok ()
  | e :: es => do
    let _ ← s.deref e.2
    statsEach s es

/-- The branch of the web UI.  When `cache_file_new` fails, `path` is left
overwritten. -/
def openWebui (cfg : Config) (s : Worker) (q : Request) (ptr : Key) (o : RequestOut) :
    Except Fault (Reply × Worker) :=
  -- `uri_ptr.len` counts the characters behind a NUL as well
  if maxPathLen ≤ cfg.confDir.length + (min maxUriLen q.uriProcessed.length - 7) then
    .error .webuiPath
  else do
    let path := cfg.confDir ++ ptr.drop 1
    let out ← cacheFileNew cfg.cap s path ptr o.disk o.create
    match out.1 with
    | some a => .ok (.file a, out.2)
    | none => openFile cfg out.2 path q.uri o.disk o.retry

/-- Lines 336 to 396 of `_mkp_stage_30`, for a request that `cache_file_get` did
not find. -/
def callApi (cfg : Config) (s : Worker) (q : Request) (o : RequestOut) :
    Except Fault (Reply × Worker) :=
  match apiOf q.uri q.body with
  | .add key => do
    let out ← cacheFileTmp cfg.cap s key q.body o.create
    .ok (.api, out.2)
  | .stats => do
    statsEach s s.fileTable.entries
    .ok (.api, s)
  | .reset key => do
    let s ← fileTableReset cfg.cap s key
    .ok (.api, s)
  | .webui ptr => openWebui cfg s q ptr o
  | .file => openFile cfg s q.path q.uri o.disk o.retry

/-- Lines 332 to 396 of `_mkp_stage_30`. -/
def findFile (cfg : Config) (s : Worker) (q : Request) (o : RequestOut) :
    Except Fault (Reply × Worker) := do
  let hit ← (if q.get then cacheFileGet s q.uri o.now else .ok (none, s))
  match hit.1 with
  | some a => .ok (.file a, hit.2)
  | none => callApi cfg hit.2 q o

/-! ## Serving it -/

/-- `curr_reqs_del` with `cache_req_del`. -/
def currReqsDel (cfg : Config) (s : Worker) (socket : Int) : Except Fault Worker :=
  match currReqsGet s.currReqs socket with
  | none => .ok s
  | some r => do
    let o ← s.deref r.file
    let f := { o.file with pendingReqs := o.file.pendingReqs - 1 }
    let s := { s.put r.file { o with file := f } with
      currReqs := s.currReqs.eraseP (fun q => q.socket = socket) }
    let s ← (if f.zombie ∧ f.pendingReqs = 0 then cacheFileFree cfg.cap s r.file else .ok s)
    .ok { s with pools := cacheReqRelease cfg.cap r.buf s.pools }

/-- A request whose `serve_req` returned 0 or less is removed. -/
def endCall (cfg : Config) (s : Worker) (socket ret : Int) : Except Fault Worker :=
  if ret ≤ 0 then currReqsDel cfg s socket else .ok s

/-- Lines 398 to 445 of `_mkp_stage_30`, for the file at `a`. -/
def serveFile (cfg : Config) (s : Worker) (a : Addr) (socket : Int) (o : RequestOut) :
    Except Fault Worker := do
  let new ← cacheReqNew cfg.cap s.pools o.pipe
  let obj ← s.deref a
  let out ← startReq obj.file a socket new.1 o.start
  endCall cfg
    { s.put a { obj with file := out.2.1 } with
      currReqs := s.currReqs ++ [out.2.2]
      pools := new.2 } socket out.1

/-- `_mkp_stage_30` -/
def stage30 (cfg : Config) (s : Worker) (q : Request) (o : RequestOut) :
    Except Fault (Reply × Worker) :=
  match currReqsGet s.currReqs q.socket with
  | some _ => .ok (.busy, s)
  | none => do
    let found ← findFile cfg s q o
    match found.1 with
    | .file a => do
      let s ← serveFile cfg found.2 a q.socket o
      .ok (.file a, s)
    | reply => .ok (reply, found.2)

/-- `_mkp_event_write` -/
def eventWrite (cfg : Config) (s : Worker) (socket : Int) (o : Nat → RoundOut) :
    Except Fault Worker :=
  match currReqsGet s.currReqs socket with
  | none => .ok s
  | some r =>
    if r.bytesToSend ≤ 0 then .ok s
    else do
      let obj ← s.deref r.file
      let out ← socketServeReqSplice obj.file r o
      endCall cfg
        { s.put r.file { obj with file := out.2.1 } with
          currReqs := currReqsSet out.2.2 s.currReqs } socket out.1

/-! ## The machine -/

/-- One call into the plugin. -/
inductive WorkerEvent
  | stage30 (q : Request) (o : RequestOut)
  | eventWrite (socket : Int) (o : Nat → RoundOut)
  | eventError (socket : Int)
  | eventTimeout (socket : Int)
  | tick (now : Nat → Timeval)

/-- One event; the reply of `_mkp_stage_30` is reported. -/
def Worker.step (cfg : Config) (s : Worker) : WorkerEvent → Except Fault (Option Reply × Worker)
  | .stage30 q o => do
    let out ← MonkeyCache.stage30 cfg s q o
    .ok (some out.1, out.2)
  | .eventWrite socket o => do
    let s ← MonkeyCache.eventWrite cfg s socket o
    .ok (none, s)
  | .eventError socket => do
    let s ← currReqsDel cfg s socket
    .ok (none, s)
  | .eventTimeout socket => do
    let s ← currReqsDel cfg s socket
    .ok (none, s)
  | .tick now => do
    let s ← cacheFileTick cfg.cap now s
    .ok (none, s)

/-- A worker after start-up: no file, no request, empty pools. -/
def Worker.init : Worker where
  heap _ := none
  fileTable := ∅
  currReqs := []
  pools := { reqs := [], pipes := { pool := [], made := 0, memUsed := 0 } }
  serials := 0
  frees := []
  fds := []

end MonkeyCache
