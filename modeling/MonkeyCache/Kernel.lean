import MonkeyCache.Lib.Fallible

/-!
# What the kernel and the process can do to the plugin

The plugin moves bytes between pipes and sockets with `vmsplice`, `tee` and
`splice`, all of them non-blocking.  One call of any of the three is described
by an `Xfer`: how much of what it could move it really moves, or how it fails.
`Fault` lists the ways a call of the plugin ends without a result; a `mk_bug`
whose condition is true aborts the server.
-/

namespace MonkeyCache

/-- A byte of a file, of a header string or of a pipe. -/
abbrev Byte := UInt8

/-- The two kinds of `errno` the code tells apart. -/
inductive Errno
  | eagain
  | other
  deriving DecidableEq, Repr

/-- The outcome of one transferring system call. -/
inductive Xfer
  /-- everything that can be moved is moved -/
  | all
  /-- the call stops after a nonempty prefix -/
  | short (n : Nat)
  /-- the call would block -/
  | eagain
  /-- the call fails otherwise -/
  | error
  deriving DecidableEq, Repr

/-- The count a call with outcome `x` returns when it can move `room` bytes.  A
call that can move nothing would block; a short count is at least one byte and
at most `room`. -/
def Xfer.count (room : Nat) : Xfer → Except Errno Nat
  | .all => if room = 0 then .error .eagain else .ok room
  | .short n => if room = 0 then .error .eagain else .ok (min room (max 1 n))
  | .eagain => .error .eagain
  | .error => .error .other

/-- A count that was returned is a nonempty part of what could be moved. -/
theorem Xfer.count_ok {x : Xfer} {room n : Nat} (h : x.count room = .ok n) :
    0 < n ∧ n ≤ room := by
  cases x with
  | all =>
      simp only [count] at h
      split at h
      · cases h
      · cases h
        omega
  | short k =>
      simp only [count] at h
      split at h
      · cases h
      · cases h
        omega
  | eagain => cases h
  | error => cases h

/-- Only a call that fails hard has another `errno` than `EAGAIN`. -/
theorem Xfer.count_other {x : Xfer} {room : Nat} (h : x.count room = .error .other) :
    x = .error := by
  cases x with
  | all =>
      simp only [count] at h
      split at h <;> cases h
  | short k =>
      simp only [count] at h
      split at h <;> cases h
  | eagain => cases h
  | error => rfl

@[simp] theorem Xfer.count_all {room : Nat} (h : 0 < room) :
    Xfer.all.count room = .ok room := by
  simp [count, Nat.ne_of_gt h]

/-- `INT_MAX` and `INT_MIN` -/
def intMax : Int := 2 ^ 31 - 1
def intMin : Int := -2 ^ 31

/-- The ways in which a call into the plugin ends without a result. -/
inductive Fault
  /-- `pipe_buf_vmsplice`: "destination pipe doesnt have enough space!" -/
  | pipeFull
  /-- `pipe_buf_vmsplice`: `mk_bug(len < 0)` -/
  | negativeLen
  /-- `cache_req_fill_curr`: `mk_bug(off > file->size)` -/
  | offsetPastEnd
  /-- `cache_req_fill_curr`: `mk_bug(len < 0)` -/
  | negativeChunk
  /-- `cache_req_fill_curr` hands `vmsplice` memory outside the file's bytes
  (the code has no check for it) -/
  | readOutside
  /-- `socket_serve_req_splice`: `mk_bug(bytes_offset + bytes_to_send != size)` -/
  | lengthMismatch
  /-- `socket_serve_req_splice`: `mk_bug(req->bytes_to_send < 0)` -/
  | oversent
  /-- a loop of the source that does not end -/
  | diverged
  /-- `pthread_mutex_lock` on a mutex that its own thread holds -/
  | deadlock
  /-- a null or dangling `struct pipe_buf_t *` is dereferenced -/
  | noPipe
  /-- `serve_cache_headers`, `fill_cache_headers`: a failed `tee` -/
  | headersTee
  /-- `serve_cache_headers`: `mk_bug(ret < req->file->header_len)` -/
  | headersShort
  /-- `fill_cache_headers`: `mk_bug(file->cache_headers->filled == 0)` -/
  | headersEmpty
  /-- `_mkp_stage_30`, `cache_req_new`, `pipe_buf_new`: `mk_bug(buf->filled != 0)` -/
  | bufNotEmpty
  /-- `pipe_buf_flush`: the splice to `/dev/null` fails or leaves bytes behind -/
  | flush
  /-- `createpipe`: no pipe, or not of the wanted size -/
  | createPipe
  /-- a freed `struct cache_file_t` is accessed -/
  | useAfterFree
  /-- `mem_alloc` returns `NULL`, which the constructors do not check for -/
  | noMemory
  /-- `cache_file_tmp`: `mk_bug(cache_file_get(uri) != NULL)` -/
  | stillPresent
  /-- `_mkp_stage_30`: `mk_bug(conf_dir_len + uri_ptr.len >= MAX_PATH_LEN)` -/
  | webuiPath
  deriving DecidableEq, Repr

end MonkeyCache
