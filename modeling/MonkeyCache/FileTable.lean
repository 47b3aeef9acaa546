import MonkeyCache.Serving
import MonkeyCache.Lib.Buckets

/-!
# The table of cached files (`cache_file.c`)

The file objects of one worker live in its heap, and `file_table` binds URIs to
them.  An object that left the table while requests refer to it is a zombie; the
last of these requests frees it.  An access to an object that was freed is the
fault `useAfterFree`, so that a run without that fault never uses one.

`mem_alloc` may return any block that is free, with anything in it: the block
and its old contents are part of the outcome of a constructor.  The ghosts
number the objects, so that two objects of one address are told apart, and log
what `cache_file_free` and the file descriptors were used for.

The entries of the table are in the order in which the cursor of `table_each`
visits them: the record that was stored first comes first.
-/

namespace MonkeyCache

open Fallible

/-- A string, without its terminator. -/
abbrev Key := List Char

/-- The address of a `struct cache_file_t`. -/
abbrev Addr := Nat

/-- `MAX_URI_LEN` -/
def maxUriLen : Nat := 512

/-- `MAX_FILE_IDLE`, in milliseconds -/
def maxFileIdle : Int := 5000

/-- The two constructors of file objects. -/
inductive Maker
  | cacheFileNew
  | cacheFileTmp
  deriving DecidableEq, Repr

/-- A block of the heap that holds a file object. -/
structure Object where
  file : CacheFile
  maker : Maker
  serial : Nat
  /-- `pending_reqs` as the constructor left it -/
  base : Int
  deriving DecidableEq, Repr

/-- One call of `cache_file_free`: the object, whether it was in the table, and
how many requests in `curr_reqs` referred to it. -/
structure Freed where
  maker : Maker
  serial : Nat
  inTable : Bool
  refs : Nat
  deriving DecidableEq, Repr

/-- What happened to a descriptor. -/
inductive FdUse
  | opened (fd : Int)
  | closed (fd : Int)
  deriving DecidableEq, Repr

/-- What a worker knows of its file objects.  The last two fields are ghosts. -/
structure Books where
  heap : Addr → Option Object
  fileTable : AList (fun _ : Key => Addr)
  currReqs : List (CacheReq Addr)
  /-- how many objects there have been -/
  serials : Nat
  frees : List Freed

/-- One worker.  `fds` is a ghost. -/
structure Worker extends Books where
  pools : Pools
  fds : List FdUse

/-- The number of requests in `curr_reqs` whose file is at `a`. -/
def Books.refs (s : Books) (a : Addr) : Nat := s.currReqs.countP (fun r => r.file = a)

/-- The object at `a` is in the table. -/
def Books.inTable (s : Books) (a : Addr) : Bool :=
  s.fileTable.entries.any (fun e => e.2 = a)

/-- Access to the object at `a`. -/
def Books.deref (s : Books) (a : Addr) : Except Fault Object :=
  match s.heap a with
  | none => .error .useAfterFree
  | some o => .ok o

/-- The object at `a` becomes `o`. -/
def Worker.put (s : Worker) (a : Addr) (o : Object) : Worker :=
  { s with heap := Function.update s.heap a (some o) }

/-- The block has the new object. -/
theorem Worker.put_self (s : Worker) (a : Addr) (o : Object) : (s.put a o).heap a = some o := by
  simp [Worker.put]

/-- Other blocks keep theirs. -/
theorem Worker.put_other (s : Worker) {a b : Addr} (h : b ≠ a) (o : Object) :
    (s.put a o).heap b = s.heap b := by
  simp [Worker.put, h]

/-! ## `ht.h`: the table -/

/-- `table_get` -/
def Books.tableGet (s : Books) (key : Key) : Option Addr := s.fileTable.lookup key

/-- `table_add` of `unqlite_ht.c`: insert or replace, unless the store fails; it
refuses the empty key. -/
def Worker.tableAdd (s : Worker) (key : Key) (a : Addr) (stored : Bool) : Option Worker :=
  if key = [] ∨ stored = false then none
  else some { s with fileTable := Buckets.store key a s.fileTable }

/-- `table_del`: the binding goes; what it was is returned by `tableGet`. -/
def Worker.tableDel (s : Worker) (key : Key) : Worker :=
  { s with fileTable := s.fileTable.erase key }

/-! ## Freeing and resetting -/

/-- `cache_file_free` -/
def cacheFileFree (size : Nat) (s : Worker) (a : Addr) : Except Fault Worker := do
  let o ← s.deref a
  let pipes := o.file.cache.foldl (fun pp buf => pipeBufFree size buf pp)
    (pipeBufFree size o.file.cacheHeaders s.pools.pipes)
  .ok { s with
    heap := Function.update s.heap a none
    pools := { s.pools with pipes := pipes }
    frees := s.frees ++ [⟨o.maker, o.serial, s.inTable a, s.refs a⟩]
    fds := if o.file.fd ≠ -1 then s.fds ++ [.closed o.file.fd] else s.fds }

/-- `cache_file_get` -/
def cacheFileGet (s : Worker) (uri : Key) (now : Timeval) :
    Except Fault (Option Addr × Worker) :=
  match s.tableGet uri with
  | none => .ok (none, s)
  | some a => do
    let o ← s.deref a
    .ok (some a, s.put a { o with file := { o.file with lastAccessed := now } })

/-- The rest of `file_table_reset` once `table_del` has returned a file. -/
def resetFile (size : Nat) (s : Worker) (a : Addr) : Except Fault Worker := do
  let o ← s.deref a
  let s := s.put a { o with file := { o.file with zombie := true } }
  if o.file.pendingReqs = 0 then cacheFileFree size s a else .ok s

/-- `file_table_reset` and `cache_file_reset` -/
def fileTableReset (size : Nat) (s : Worker) (uri : Key) : Except Fault Worker :=
  match s.tableGet uri with
  | none => .ok (s.tableDel uri)
  | some a => resetFile size (s.tableDel uri) a

/-! ## Constructors -/

/-- What was in a block that `mem_alloc` returned, where a constructor leaves it. -/
structure Junk where
  fd : Int
  zombie : Bool
  pendingReqs : Int
  deriving DecidableEq, Repr

/-- What a constructor meets: the outcomes of its system calls, the block, the
pipes and the clock. -/
structure CreateOut where
  fd : Int
  opened : Bool
  written : Bool
  mapped : Bool
  block : Addr
  junk : Junk
  headers : PipeOut
  pipes : Nat → PipeOut
  now : Timeval
  stored : Bool

/-- The fields a constructor sets.  Neither constructor sets `fd`. -/
def builtFile (uri : Key) (content : List Byte) (evictable zombie : Bool) (pendingReqs : Int)
    (o : CreateOut) (headers : PipeBuf) (chain : List PipeBuf) : CacheFile where
  fd := o.junk.fd
  buf := content
  size := content.length
  uri := uri.take (maxUriLen - 1)
  cache := chain
  cacheHeaders := headers
  evictable := evictable
  lastAccessed := o.now
  headerLen := 0
  zombie := zombie
  pendingReqs := pendingReqs

/-- What the two constructors do in the same way: from `mem_alloc` to
`table_add`.  A block that is in use is never handed out. -/
def publish (size : Nat) (s : Worker) (maker : Maker) (uri : Key) (content : List Byte)
    (evictable zombie : Bool) (pendingReqs : Int) (o : CreateOut) :
    Except Fault (Option Addr × Worker) :=
  if (s.heap o.block).isSome then .error .noMemory
  else do
    let headers ← pipeBufNew size s.pools.pipes o.headers
    let chain ← newChain size content.length o.pipes headers.2
    let file := builtFile uri content evictable zombie pendingReqs o headers.1 chain.1
    let s := { s.put o.block ⟨file, maker, s.serials, pendingReqs⟩ with
      pools := { s.pools with pipes := chain.2 }
      serials := s.serials + 1 }
    match s.tableAdd file.uri o.block o.stored with
    | none => do
      let s ← cacheFileFree size s o.block
      .ok (none, s)
    | some s => .ok (some o.block, s)

/-- A descriptor was opened, and closed again if `left` is false. -/
def Worker.useFd (s : Worker) (fd : Int) (left : Bool) : Worker :=
  { s with fds := s.fds ++ if left then [.opened fd] else [.opened fd, .closed fd] }

/-- `cache_file_tmp`: `zombie` and `pending_reqs` are left as they were in the
block. -/
def cacheFileTmp (size : Nat) (s : Worker) (uri : Key) (body : List Byte) (o : CreateOut) :
    Except Fault (Option Addr × Worker) := do
  let s ← fileTableReset size s uri
  if (s.tableGet uri).isSome then .error .stillPresent
  else if ¬ o.opened then .ok (none, s)
  else if ¬ (o.written ∧ o.mapped) then .ok (none, s.useFd o.fd false)
  else
    publish size (s.useFd o.fd true) .cacheFileTmp uri body false o.junk.zombie
      o.junk.pendingReqs o

/-- `cache_file_new`: `disk` is what `stat` and `open` find, and `none` stands
for a path that `stat` refuses or that is a directory. -/
def cacheFileNew (size : Nat) (s : Worker) (path uri : Key) (disk : Key → Option (List Byte))
    (o : CreateOut) : Except Fault (Option Addr × Worker) :=
  match disk path with
  | none => .ok (none, s)
  | some content =>
    if content = [] then .ok (none, s)
    else
      match s.tableGet uri with
      | some a => .ok (some a, s)
      | none =>
        if ¬ o.opened then .ok (none, s)
        else if ¬ o.mapped then .ok (none, s.useFd o.fd false)
        else publish size (s.useFd o.fd true) .cacheFileNew uri content true false 0 o

/-! ## Eviction -/

/-- A C `double` converted to `int`; what does not fit gives the least `int`. -/
def toInt (x : Int) : Int := if -2 ^ 31 ≤ x ∧ x < 2 ^ 31 then x else -2 ^ 31

/-- `get_time_diff_ms`, with doubles taken as exact. -/
def getTimeDiffMs (start fin : Timeval) : Int :=
  let ms := toInt ((fin.sec - start.sec) * 1000)
  toInt ((ms * 1000 + (fin.usec - start.usec)).tdiv 1000)

/-- `cache_file_tick_cb` -/
def cacheFileTickCb (size : Nat) (s : Worker) (a : Addr) (now : Timeval) :
    Except Fault Worker := do
  let o ← s.deref a
  if maxFileIdle < getTimeDiffMs o.file.lastAccessed now ∧ o.file.evictable then
    fileTableReset size s o.file.uri
  else .ok s

/-- `table_each(file_table, cache_file_tick_cb, NULL)` over the records the
cursor has yet to visit; a record that was deleted meanwhile is not visited. -/
def tickEach (size : Nat) (now : Nat → Timeval) :
    List (Σ _ : Key, Addr) → Nat → Worker → Except Fault Worker
  | [], _, s => .ok s
  | e :: es, k, s => do
    let s ← (if s.tableGet e.1 = some e.2 then cacheFileTickCb size s e.2 (now k) else .ok s)
    tickEach size now es (k + 1) s

/-- `cache_file_tick`; every call of `gettimeofday` has its own reading. -/
def cacheFileTick (size : Nat) (now : Nat → Timeval) (s : Worker) : Except Fault Worker :=
  tickEach size now s.fileTable.entries 0 s

/-- **Loop rule.**  What a visit of a record that is still there keeps is kept by the
whole tick. -/
theorem cacheFileTick_ensures {size : Nat} {now : Nat → Timeval} {I : Worker → Prop}
    {E : Fault → Prop}
    (hcb : ∀ t k a i, I t → t.tableGet k = some a → Ensures (cacheFileTickCb size t a (now i)) I E)
    {s : Worker} (h : I s) : Ensures (cacheFileTick size now s) I E := by
  have hloop : ∀ (es : List (Σ _ : Key, Addr)) (i : Nat) (t : Worker), I t →
      Ensures (tickEach size now es i t) I E := by
    intro es
    induction es with
    | nil =>
        intro i t ht
        exact ht
    | cons e es ih =>
        intro i t ht
        unfold tickEach
        have hvisit : Ensures (if t.tableGet e.1 = some e.2 then
            cacheFileTickCb size t e.2 (now i) else .ok t) I E :=
          Ensures.ite (fun hk => hcb t e.1 e.2 i ht hk) (fun _ => ht)
        apply hvisit.bind
        intro t' ht'
        exact ih (i + 1) t' ht'
  exact hloop _ 0 s h

end MonkeyCache
