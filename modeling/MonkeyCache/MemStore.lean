import MonkeyCache.HashTable
import MonkeyCache.Lib.Fallible
import MonkeyCache.Lib.Linked

/-!
# The in-memory engine of `unqlite.c`

`unqlite_ht.c` opens its store as `:mem:`.  The engine behind it keeps every
record in two doubly linked lists at once: the list of all records, from `pLast`
on by `pNext` (the newest record comes first), and the collision list of its
bucket.  The data of a record is a block of its own.

Here are the functions of the engine, on a heap where every access through a
pointer is checked.
-/

namespace MonkeyCache

open Linked Fallible

/-! ## Data -/

/-- `struct mem_hash_record`, with the key that is stored behind it. -/
structure MemHashRecord where
  nHash : Nat
  /-- `pKey` and `nKeyLen` -/
  key : Bytes
  pData : Ptr
  nDataLen : Nat
  pNext : Option Ptr
  pPrev : Option Ptr
  pNextHash : Option Ptr
  pPrevHash : Option Ptr
  deriving DecidableEq, Repr

/-- `struct mem_hash_kv_engine`; `xHash` and `xCmp` are the built-in ones. -/
structure MemHashEngine where
  /-- the blocks of `sAlloc` that hold a record -/
  records : Heap MemHashRecord
  /-- the blocks of `sAlloc` that hold the data of a record -/
  blobs : Heap Bytes
  nRecord : Nat
  nBucket : Nat
  apBucket : List (Option Ptr)
  pFirst : Option Ptr
  pLast : Option Ptr

/-- What `SyMemBackendAlloc` answers during one call of the engine. -/
structure MemBackend where
  record : Backend MemHashRecord
  blob : Backend Bytes
  /-- there is room for an array of that many buckets -/
  table : Nat → Bool

/-- The return codes the engine uses. -/
inductive UnqliteRc
  | ok
  | nomem
  | limit
  | empty
  | notfound
  | eof
  deriving DecidableEq, Repr

/-- The value of an expression of type `sxu32`. -/
def sxu32 (n : Nat) : Nat := n % 2 ^ 32

/-- `SXU32_HIGH` -/
def sxu32High : Nat := 0xFFFFFFFF

/-- `MEM_HASH_BUCKET_SIZE` -/
def memHashBucketSize : Nat := 64

/-- `MEM_HASH_FILL_FACTOR` -/
def memHashFillFactor : Nat := 4

/-- `MemHashFunc` -/
def memHashFunc (key : Bytes) : Nat :=
  (key.foldl (fun nH c => nH * 33 + c.toUInt32) (5381 : UInt32)).toNat

/-- `MemHashInit`, where the array of buckets could be allocated. -/
def memHashInit : MemHashEngine where
  records _ := none
  blobs _ := none
  nRecord := 0
  nBucket := memHashBucketSize
  apBucket := List.replicate memHashBucketSize none
  pFirst := none
  pLast := none

/-! ## Records -/

/-- `MemHashNewRecord`: a block for the record and its key, and one for the data;
without the second one the first one is given back.  `int nKeyLen` and the `sxu32 nByte`
of the first block are exact, as keys are shorter than `2 ^ 31` bytes. -/
def memHashNewRecord (A : MemBackend) (e : MemHashEngine) (key data : Bytes) (nHash : Nat) :
    Except HeapFault (Option Ptr × MemHashEngine) :=
  match A.record.pick e.records with
  | none => .ok (none, e)
  | some pRecord =>
    let e := { e with
      records := Function.update e.records pRecord
        (some ⟨nHash, key, 0, sxu32 data.length, none, none, none, none⟩) }
    match A.blob.pick e.blobs with
    | none => do
      let records ← e.records.free pRecord
      .ok (none, { e with records := records })
    | some pDupData => do
      let records ← e.records.modify pRecord (fun r => { r with pData := pDupData })
      .ok (some pRecord, { e with
        records := records
        blobs := Function.update e.blobs pDupData (some data) })

/-- `apBucket[i]` -/
def bucketHead (apBucket : List (Option Ptr)) (i : Nat) : Except HeapFault (Option Ptr) :=
  match apBucket[i]? with
  | some head => .ok head
  | none => .error .bounds

/-- `pRecord->nHash & (nBucket - 1)` -/
def bucketOf (nBucket nHash : Nat) : Nat := nHash &&& (nBucket - 1)

/-- The record becomes the head of the collision list of its bucket, as in
`MemHashLinkRecord` and `MemHashGrowTable`. -/
def installRecord (records : Heap MemHashRecord) (apBucket : List (Option Ptr)) (nBucket : Nat)
    (pRecord : Ptr) : Except HeapFault (Heap MemHashRecord × List (Option Ptr)) := do
  let r ← records.read pRecord
  let i := bucketOf nBucket r.nHash
  let head ← bucketHead apBucket i
  let records ← records.modify pRecord (fun r => { r with pNextHash := head })
  let records ← records.modify? head (fun r => { r with pPrevHash := some pRecord })
  .ok (records, apBucket.set i (some pRecord))

/-- `MACRO_LD_PUSH(pLast, pRecord)`, or where there is no record yet, the two
assignments instead of it. -/
def pushRecord (records : Heap MemHashRecord) (pFirst pLast : Option Ptr) (pRecord : Ptr) :
    Except HeapFault (Heap MemHashRecord × Option Ptr × Option Ptr) :=
  match pFirst, pLast with
  | none, _ => .ok (records, some pRecord, some pRecord)
  | some _, none => .ok (records, pFirst, some pRecord)
  | some _, some last => do
    let records ← records.modify pRecord (fun r => { r with pNext := some last })
    let records ← records.modify last (fun r => { r with pPrev := some pRecord })
    .ok (records, pFirst, some pRecord)

/-- `MemHashLinkRecord` -/
def memHashLinkRecord (e : MemHashEngine) (pRecord : Ptr) : Except HeapFault MemHashEngine := do
  let (records, apBucket) ← installRecord e.records e.apBucket e.nBucket pRecord
  let (records, pFirst, pLast) ← pushRecord records e.pFirst e.pLast pRecord
  .ok { e with
    records := records
    apBucket := apBucket
    pFirst := pFirst
    pLast := pLast
    nRecord := sxu32 (e.nRecord + 1) }

/-- The collision list without `pEntry`, as in `MemHashUnlinkRecord`. -/
def uninstallRecord (records : Heap MemHashRecord) (apBucket : List (Option Ptr)) (nBucket : Nat)
    (pEntry : Ptr) : Except HeapFault (Heap MemHashRecord × List (Option Ptr)) := do
  let r ← records.read pEntry
  let records ← records.modify? r.pPrevHash (fun q => { q with pNextHash := r.pNextHash })
  let records ← records.modify? r.pNextHash (fun q => { q with pPrevHash := r.pPrevHash })
  match r.pPrevHash with
  | some _ => .ok (records, apBucket)
  | none => do
    let i := bucketOf nBucket r.nHash
    let _ ← bucketHead apBucket i
    .ok (records, apBucket.set i r.pNextHash)

/-- `MACRO_LD_REMOVE(pLast, pEntry)` and the assignment to `pFirst` behind it. -/
def removeRecord (records : Heap MemHashRecord) (pFirst pLast : Option Ptr) (pEntry : Ptr) :
    Except HeapFault (Heap MemHashRecord × Option Ptr × Option Ptr) := do
  let r ← records.read pEntry
  let records ← records.modify? r.pPrev (fun q => { q with pNext := r.pNext })
  let records ← records.modify? r.pNext (fun q => { q with pPrev := r.pPrev })
  .ok (records,
    if pFirst = some pEntry then r.pPrev else pFirst,
    if pLast = some pEntry then r.pNext else pLast)

/-- `MemHashUnlinkRecord` -/
def memHashUnlinkRecord (e : MemHashEngine) (pEntry : Ptr) : Except HeapFault MemHashEngine := do
  let (records, apBucket) ← uninstallRecord e.records e.apBucket e.nBucket pEntry
  let (records, pFirst, pLast) ← removeRecord records e.pFirst e.pLast pEntry
  let r ← records.read pEntry
  let blobs ← e.blobs.free r.pData
  let records ← records.free pEntry
  .ok { e with
    records := records
    blobs := blobs
    apBucket := apBucket
    pFirst := pFirst
    pLast := pLast
    nRecord := sxu32 (e.nRecord + (2 ^ 32 - 1)) }

/-- The loop of `MemHashGetEntry` along a collision list. -/
def getEntryFrom (records : Heap MemHashRecord) (nHash : Nat) (key : Bytes) :
    Nat → Option Ptr → Except HeapFault (Option Ptr)
  | 0, _ => .error .timeout
  | _ + 1, none => .ok none
  | fuel + 1, some pEntry => do
    let r ← records.read pEntry
    if r.nHash = nHash ∧ r.key = key then .ok (some pEntry)
    else getEntryFrom records nHash key fuel r.pNextHash

/-- `MemHashGetEntry`; a list has no more cells than there are records. -/
def memHashGetEntry (e : MemHashEngine) (key : Bytes) : Except HeapFault (Option Ptr) := do
  let nHash := memHashFunc key
  let head ← bucketHead e.apBucket (bucketOf e.nBucket nHash)
  getEntryFrom e.records nHash key (e.nRecord + 1) head

/-- The loop of `MemHashGrowTable`; `k` records are left, and `pEntry` is the next
of them. -/
def rehashFrom (nNewSize : Nat) :
    Nat → Option Ptr → Heap MemHashRecord × List (Option Ptr) →
      Except HeapFault (Heap MemHashRecord × List (Option Ptr))
  | 0, _, out => .ok out
  | _ + 1, none, _ => .error .null
  | k + 1, some pEntry, (records, apNew) => do
    let records ← records.modify pEntry (fun r => { r with pNextHash := none, pPrevHash := none })
    let (records, apNew) ← installRecord records apNew nNewSize pEntry
    let r ← records.read pEntry
    rehashFrom nNewSize k r.pNext (records, apNew)

/-- `MemHashGrowTable`; without room for the new array nothing happens. -/
def memHashGrowTable (A : MemBackend) (e : MemHashEngine) : Except HeapFault MemHashEngine :=
  let nNewSize := sxu32 (e.nBucket * 2)
  if A.table nNewSize then do
    let (records, apNew) ←
      rehashFrom nNewSize e.nRecord e.pLast (e.records, List.replicate nNewSize none)
    .ok { e with records := records, apBucket := apNew, nBucket := nNewSize }
  else .ok e

/-- The data of an existing record is replaced, as in `MemHashReplace`.  A block of
the right size is used again. -/
def replaceData (A : MemBackend) (e : MemHashEngine) (pRecord : Ptr) (data : Bytes) :
    Except HeapFault (UnqliteRc × MemHashEngine) := do
  let r ← e.records.read pRecord
  let nData := sxu32 data.length
  if nData = r.nDataLen then do
    let blobs ← e.blobs.modify r.pData (fun _ => data)
    .ok (.ok, { e with blobs := blobs })
  else
    match A.blob.pick e.blobs with
    | none => .ok (.nomem, e)
    | some pNew => do
      let blobs ← Heap.free (Function.update e.blobs pNew (some data)) r.pData
      let records ← e.records.modify pRecord
        (fun r => { r with nDataLen := nData, pData := pNew })
      .ok (.ok, { e with records := records, blobs := blobs })

/-- `MemHashReplace` -/
def memHashReplace (A : MemBackend) (e : MemHashEngine) (key data : Bytes) :
    Except HeapFault (UnqliteRc × MemHashEngine) :=
  if data.length > sxu32High then .ok (.limit, e)
  else do
    match ← memHashGetEntry e key with
    | some pRecord => replaceData A e pRecord data
    | none =>
      match ← memHashNewRecord A e key data (memHashFunc key) with
      | (none, e) => .ok (.nomem, e)
      | (some pRecord, e) => do
        let e ← memHashLinkRecord e pRecord
        if e.nRecord ≥ sxu32 (e.nBucket * memHashFillFactor) ∧ e.nRecord < 100000 then do
          let e ← memHashGrowTable A e
          .ok (.ok, e)
        else .ok (.ok, e)

/-! ## Cursors -/

/-- `MemHashCursorFirst`, and so `MemHashInitCursor` and `MemHashCursorReset`. -/
def memHashCursorFirst (e : MemHashEngine) : Option Ptr := e.pFirst

/-- `MemHashCursorNext`; the links go the other way. -/
def memHashCursorNext (e : MemHashEngine) (pCur : Option Ptr) :
    Except HeapFault (UnqliteRc × Option Ptr) :=
  match pCur with
  | none => .ok (.eof, none)
  | some p => do
    let r ← e.records.read p
    .ok (.ok, r.pPrev)

/-- `MemHashCursorKey`: what the consumer is called with. -/
def memHashCursorKey (e : MemHashEngine) (pCur : Option Ptr) :
    Except HeapFault (UnqliteRc × Bytes) :=
  match pCur with
  | none => .ok (.eof, [])
  | some p => do
    let r ← e.records.read p
    .ok (.ok, r.key)

/-- `MemHashCursorData`: what the consumer is called with, `nDataLen` bytes of the
block. -/
def memHashCursorData (e : MemHashEngine) (pCur : Option Ptr) :
    Except HeapFault (UnqliteRc × Bytes) :=
  match pCur with
  | none => .ok (.eof, [])
  | some p => do
    let r ← e.records.read p
    let data ← e.blobs.read r.pData
    if r.nDataLen ≤ data.length then .ok (.ok, data.take r.nDataLen) else .error .bounds

/-- `MemHashCursorSeek`; only exact matches are found. -/
def memHashCursorSeek (e : MemHashEngine) (key : Bytes) :
    Except HeapFault (UnqliteRc × Option Ptr) := do
  match ← memHashGetEntry e key with
  | none => .ok (.notfound, none)
  | some p => .ok (.ok, some p)

/-- `MemHashCursorDelete`: the cursor moves on. -/
def memHashCursorDelete (e : MemHashEngine) (pCur : Option Ptr) :
    Except HeapFault (UnqliteRc × Option Ptr × MemHashEngine) :=
  match pCur with
  | none => .ok (.notfound, none, e)
  | some p => do
    let r ← e.records.read p
    let e ← memHashUnlinkRecord e p
    .ok (.ok, r.pPrev, e)

end MonkeyCache
