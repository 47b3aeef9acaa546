import MonkeyCache.Lib.Chunks
import MonkeyCache.PipeBuf

/-!
# Cached files and requests (`cache_file.h`, `cache_req.c`, `cache.c`)

A cached file is cut into pipes: the `i`-th pipe of its chain is there to hold
the `i`-th chunk of the file.  A request walks along the chain with `curr` and
fills the pipe it stands at from an offset computed out of its own counters
(`cacheReqFillCurr`).  The header pipe holds the response headers and, when the
file is small, some of the file (`fillCacheHeaders`); a request that is served
from it counts the headers as file contents (`serveCacheHeaders`).
-/

namespace MonkeyCache

open Fallible Chunks

/-- `struct timeval` -/
structure Timeval where
  sec : Int
  usec : Int
  deriving DecidableEq, Repr

/-- `struct cache_file_t`.  `buf` is the mapped file; its bytes are those the
file had when it was mapped. -/
structure CacheFile where
  fd : Int
  buf : List Byte
  size : Nat
  uri : List Char
  cache : List PipeBuf
  cacheHeaders : PipeBuf
  evictable : Bool
  lastAccessed : Timeval
  headerLen : Nat
  zombie : Bool
  pendingReqs : Int
  deriving DecidableEq, Repr

/-- `struct cache_req_t`.  `ι` names the file objects, and `curr` is the
position of the pipe in the file's chain.  The last two fields are ghosts. -/
structure CacheReq (ι : Type) where
  socket : Int
  file : ι
  curr : Option Nat
  bytesOffset : Int
  bytesToSend : Int
  buf : PipeBuf
  /-- what `socket_serve_req_splice` has put on the socket -/
  sent : List Byte
  /-- set up by `serve_cache_headers` -/
  viaCache : Bool
  deriving DecidableEq, Repr

variable {ι : Type}

/-- The file offset up to which the request has taken data: what it sent and
what waits in its private pipe. -/
def CacheReq.off (r : CacheReq ι) : Int := r.bytesOffset + r.buf.filled

/-- The memory `[buf.data + start, buf.data + start + len)` of the mapping. -/
def CacheFile.read (f : CacheFile) (start len : Int) : Except Fault (List Byte) :=
  if start < 0 ∨ len < 0 ∨ f.size < start + len then .error .readOutside
  else .ok (slice f.buf start.toNat len.toNat)

/-- `cache_req_fill_curr` -/
def cacheReqFillCurr (f : CacheFile) (r : CacheReq ι) (o : Nat → Xfer) :
    Except Fault (Int × CacheFile) :=
  match r.curr with
  | none => .error .noPipe
  | some i =>
    match f.cache[i]? with
    | none => .error .noPipe
    | some curr =>
      let off := r.bytesOffset + r.buf.filled
      let len : Int := if (f.size : Int) < off + curr.cap then f.size - off else curr.cap
      if (f.size : Int) < off then .error .offsetPastEnd
      else if len < 0 then .error .negativeChunk
      else if curr.filled = len then .ok (0, f)
      else if curr.filled < len then do
        let mem ← f.read (curr.filled + off) (len - curr.filled)
        let filled ← pipeBufVmsplice curr mem (len - curr.filled) o
        .ok (len - filled.2.filled, { f with cache := f.cache.set i filled.2 })
      else .ok (len - curr.filled, f)

/-- Lines 198 to 221 of `fill_cache_headers`: the header pipe, which holds the
headers alone, is counted and, when there is room for it, the first chunk of
the file is copied behind them. -/
def fillLeftover (first pipe : PipeBuf) (x : Xfer) : Except Fault PipeBuf :=
  let headerLen := pipe.data.length
  if (first.filled : Int) < (pipe.cap : Int) - headerLen ∧ first.filled ≠ 0 then
    match tee x first pipe first.filled with
    | .error _ => .error .headersTee
    | .ok (ret, pipe) => .ok { pipe with filled := headerLen + ret }
  else .ok { pipe with filled := headerLen }

/-- `fill_cache_headers`: `header` is what `header_send` writes into the pipe,
as far as it has room, and `x` is the outcome of the `tee` behind it. -/
def fillCacheHeaders (f : CacheFile) (header : List Byte) (x : Xfer) :
    Except Fault CacheFile :=
  if f.cacheHeaders.locked ∨ f.cacheHeaders.filled ≠ 0 then .ok f
  else
    let room := f.cacheHeaders.cap - f.cacheHeaders.data.length
    let pipe := { f.cacheHeaders with data := f.cacheHeaders.data ++ header.take room }
    match f.cache.head? with
    | none => .error .noPipe
    | some first => do
      let filled ← fillLeftover first pipe x
      if filled.filled = 0 then .error .headersEmpty
      else .ok { f with cacheHeaders := filled, headerLen := pipe.data.length }

/-- `serve_cache_headers` -/
def serveCacheHeaders (f : CacheFile) (r : CacheReq ι) (x : Xfer) :
    Except Fault (CacheReq ι) :=
  match tee x f.cacheHeaders r.buf f.cacheHeaders.filled with
  | .error _ => .error .headersTee
  | .ok (ret, buf) =>
    if ret < f.headerLen then .error .headersShort
    else .ok { r with
      buf := { buf with filled := r.buf.filled + ret }
      bytesOffset := r.bytesOffset - f.headerLen
      bytesToSend := r.bytesToSend + f.headerLen
      viaCache := true }

/-! ## What a fill does -/

variable {c : Nat} {f : CacheFile} {r : CacheReq ι} {o : Nat → Xfer}

/-- The length of the chunk that a request at file offset `a` wants in a pipe. -/
def want (c size a : Nat) : Nat := min c (size - a)

/-- The file after `bytes` have been appended to the `i`-th pipe of its chain. -/
def CacheFile.fillPipe (f : CacheFile) (i : Nat) (p : PipeBuf) (bytes : List Byte) :
    CacheFile :=
  { f with cache := f.cache.set i (p.append bytes) }

/-- A read inside the size of the file gives that part of the map. -/
theorem CacheFile.read_ok {a n : Nat} (h : a + n ≤ f.size) :
    f.read a n = .ok (slice f.buf a n) := by
  unfold read
  rw [if_neg (by omega)]
  simp

/-- **What a fill does.**  A request whose offset lies in the file appends what
the pipe lacks of the wanted chunk and gets 0; a pipe that holds enough is left
alone, and 0 is returned only when it holds exactly the wanted length. -/
theorem cacheReqFillCurr_eq {i a : Nat} {p : PipeBuf}
    (ho : ∀ k, o k = .all) (hcurr : r.curr = some i) (hp : f.cache[i]? = some p)
    (hpipe : PipeOk c p) (hlen : f.buf.length = f.size)
    (hoff : r.off = a) (ha : a ≤ f.size) :
    cacheReqFillCurr f r o =
      if p.filled < want c f.size a then
        .ok (0, f.fillPipe i p (slice f.buf (p.filled + a) (want c f.size a - p.filled)))
      else .ok ((want c f.size a : Int) - p.filled, f) := by
  have hcap := hpipe.cap_eq
  have hle := hpipe.filled_le
  unfold CacheReq.off at hoff
  have hwant : (if (f.size : Int) < (a : Int) + p.cap then (f.size : Int) - a else p.cap)
      = (want c f.size a : Int) := by
    unfold want
    split <;> omega
  unfold cacheReqFillCurr
  simp only [hcurr, hp, hoff, hwant]
  rw [if_neg (by omega), if_neg (by omega)]
  by_cases hlt : p.filled < want c f.size a
  · -- the pipe lacks the end of the chunk
    have hle' : want c f.size a ≤ c := Nat.min_le_left _ _
    have hwa : want c f.size a ≤ f.size - a := Nat.min_le_right _ _
    have hread : f.read ((p.filled : Int) + a) ((want c f.size a : Int) - p.filled)
        = .ok (slice f.buf (p.filled + a) (want c f.size a - p.filled)) := by
      have h := f.read_ok (a := p.filled + a) (n := want c f.size a - p.filled) (by omega)
      rw [← h]
      congr 1
      omega
    have hbytes : (slice f.buf (p.filled + a) (want c f.size a - p.filled)).length
        = want c f.size a - p.filled := by
      rw [length_slice]
      omega
    have hfill := pipeBufVmsplice_all hpipe ho
      (show p.filled + (slice f.buf (p.filled + a) (want c f.size a - p.filled)).length ≤ c
        by omega)
    rw [hbytes, Nat.cast_sub (Nat.le_of_lt hlt)] at hfill
    rw [if_neg (by omega), if_pos (by omega), if_pos hlt, hread]
    simp only [bind, Except.bind, hfill, PipeBuf.append_filled, hbytes]
    rw [Nat.add_sub_cancel' (Nat.le_of_lt hlt), Int.sub_self]
    rfl
  · rw [if_neg hlt]
    by_cases heq : (p.filled : Int) = want c f.size a
    · rw [if_pos heq, heq, Int.sub_self]
    · rw [if_neg heq, if_neg (by omega)]

end MonkeyCache
