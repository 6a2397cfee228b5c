/-
`class Cache` (`client_src/cache.hpp`, `cache.cpp`): the block cache of one
client, over four callbacks that reach the server.

The operations are programs of `Nfs.Lib.Act`: a callback is a request
(`Call`) whose answer carries what the callback returns and what it leaves
in its reference arguments; a non-zero `int` return is the `err` outcome, a
failed `assert`, a missed `.at()` or a loop that does not end is `fault`.
The parts that call nothing are functions `Cache → Option Cache`.

Sizes and offsets are naturals. The recency list is a list of nodes with
addresses, and an entry's `_use_record` is the address of its node. The
two unordered maps are association lists; the one place where their order
could be seen, the visit of `fblocks` in `flushDirtyBlocks`, takes the
order as a parameter (`HashOrder`).
-/
import Mathlib.Data.List.AList
import Mathlib.Data.List.Sort
import Nfs.Entry
import Nfs.Lib.Act

namespace Nfs

open PlainFile Resume

structure CacheEntryID where
  filename : Str
  blockNum : Nat
  deriving DecidableEq, Repr

/-- A node of `_recent_list`: its address and what it holds. -/
structure UseRecord where
  addr : Nat
  id : CacheEntryID
  deriving DecidableEq, Repr

structure FileAttr where
  size : Nat
  mode : UInt32
  time : FileTime
  deriving DecidableEq, Repr

structure FileCache where
  stale : Bool
  attr : FileAttr
  entries : AList fun _ : Nat => CacheEntry

/-- `FileCache(FileAttr)`. -/
def FileCache.ofAttr (attr : FileAttr) : FileCache := { stale := false, attr := attr, entries := ∅ }

structure Cache where
  /-- `_file_map`, the look up map. -/
  fileMap : AList fun _ : Str => FileCache
  /-- `_recent_list`, the hot end first. -/
  recentList : List UseRecord
  /-- The address the next list node gets. -/
  nextAddr : Nat
  lastReadHit : Bool

/-! ## The callbacks -/

/-- A call of one of the four callbacks, with what it passes by value and
the current contents of what it passes by reference. -/
inductive Call
  | contentWb (fname : Str) (offset : Nat) (data : Bytes) (time : FileTime) (stale : Bool)
  | attrWb (fname : Str) (attr : FileAttr) (stale : Bool)
  | contentFt (filename : Str) (offset size : Nat)
  | attrFt (filename : Str)

structure ContentWbAns where
  err : Int
  time : FileTime
  stale : Bool

structure AttrWbAns where
  err : Int
  attr : FileAttr
  stale : Bool

/-- `data` is what the callback put at the front of the buffer. -/
structure ContentFtAns where
  err : Int
  data : Bytes

structure AttrFtAns where
  err : Int
  attr : FileAttr

abbrev Call.Ans : Call → Type
  | .contentWb .. => ContentWbAns
  | .attrWb .. => AttrWbAns
  | .contentFt .. => ContentFtAns
  | .attrFt .. => AttrFtAns

abbrev CacheM := Prog Cache Call.Ans

/-- The order in which an unordered map from file names to block lists is
visited, as a function of its pairs in the order of their insertion. -/
structure HashOrder where
  visit : List (Str × List Nat) → List (Str × List Nat)
  perm : ∀ m, (visit m).Perm m

/-- The visit in the order of insertion. -/
def HashOrder.inserted : HashOrder := ⟨id, fun _ => .refl _⟩

namespace Cache

/-- `Cache(...)`: nothing cached. -/
def empty : Cache := { fileMap := ∅, recentList := [], nextAddr := 0, lastReadHit := false }

def file (c : Cache) (filename : Str) : Option FileCache := c.fileMap.lookup filename

def setFile (c : Cache) (filename : Str) (fc : FileCache) : Cache :=
  { c with fileMap := c.fileMap.insert filename fc }

/-- The entry of a block. -/
def entry (c : Cache) (filename : Str) (b : Nat) : Option CacheEntry :=
  (c.file filename).bind fun fc => fc.entries.lookup b

/-- `_file_map.at(filename)`. -/
def fileAt (filename : Str) : CacheM FileCache := do
  let c ← Prog.get
  Prog.check (c.file filename)

/-- `_file_map.at(filename).entries.at(b)`. -/
def entryAt (filename : Str) (b : Nat) : CacheM CacheEntry := do
  let c ← Prog.get
  Prog.check (c.entry filename b)

def putFile (filename : Str) (fc : FileCache) : CacheM Unit := do
  let c ← Prog.get
  Prog.set (c.setFile filename fc)

/-- A part that calls nothing. -/
def local_ (m : Cache → Option Cache) : CacheM Unit := Prog.step fun c => (m c).map ((), ·)

/-- `_content_wb(filename, offset, &data[0], data.size(), fc.attr.time, fc.stale)`. -/
def contentWb (filename : Str) (offset : Nat) (data : Bytes) : CacheM Unit := do
  let fc ← fileAt filename
  let ans : ContentWbAns ← Prog.ask (Call.contentWb filename offset data fc.attr.time fc.stale)
  putFile filename { fc with attr := { fc.attr with time := ans.time }, stale := ans.stale }
  if ans.err ≠ 0 then Prog.throw ans.err

/-- `_attr_wb(filename, fc.attr, fc.stale)`. -/
def attrWb (filename : Str) : CacheM Unit := do
  let fc ← fileAt filename
  let ans : AttrWbAns ← Prog.ask (Call.attrWb filename fc.attr fc.stale)
  putFile filename { fc with attr := ans.attr, stale := ans.stale }
  if ans.err ≠ 0 then Prog.throw ans.err

/-! ## Queries -/

def isStale (c : Cache) (filename : Str) : Bool :=
  match c.file filename with
  | none => false
  | some fc => fc.stale

def getFileTime (c : Cache) (filename : Str) : Option FileTime :=
  (c.file filename).map (·.attr.time)

def countCachedBlocks (c : Cache) : Nat := c.recentList.length

def countDirtyBlocks (c : Cache) : Nat :=
  (c.fileMap.entries.map fun f => (f.2.entries.entries.filter fun b => b.2.state = .dirty).length).sum

/-- `blockNum(fsize - 1) + 1`, zero for an empty file. -/
def endBlock (B fsize : Nat) : Nat := if fsize = 0 then 0 else (fsize - 1) / B + 1

def isFullBlock (B : Nat) (fc : FileCache) (b : Nat) : Bool :=
  match fc.entries.lookup b with
  | none => false
  | some e => e.isFull B

/-! ## Entries -/

/-- `newEntry(filename, block_num, _recent_list.end())`, as both callers
call it. -/
def newEntry (B : Nat) (filename : Str) (b : Nat) (c : Cache) : Option Cache := do
  let fc ← c.file filename
  -- `assert(fc.entries.find(block_num) == fc.entries.end())`
  if (fc.entries.lookup b).isSome then none
  else
    some { c with
      recentList := c.recentList ++ [⟨c.nextAddr, ⟨filename, b⟩⟩]
      nextAddr := c.nextAddr + 1
      fileMap := c.fileMap.insert filename
        { fc with entries := fc.entries.insert b (CacheEntry.new B c.nextAddr) } }

/-- A change of an entry through a reference to it. -/
def updateEntry (filename : Str) (b : Nat) (g : CacheEntry → Option CacheEntry) (c : Cache) :
    Option Cache := do
  let fc ← c.file filename
  let e ← fc.entries.lookup b
  let e' ← g e
  some (c.setFile filename { fc with entries := fc.entries.insert b e' })

/-- The branch both `writeBlock` and `cacheBlocks` take: `g` is applied to the
block's entry, which is created first when there is none. -/
def touchEntry (B : Nat) (filename : Str) (b : Nat) (g : CacheEntry → Option CacheEntry) (c : Cache) :
    Option Cache := do
  let fc ← c.file filename
  match fc.entries.lookup b with
  | none => do
    let c ← newEntry B filename b c
    updateEntry filename b g c
  | some _ => updateEntry filename b g c

/-- `_recent_list.erase(it)` for the node at an address. -/
def eraseRecord (addr : Nat) (records : List UseRecord) : List UseRecord :=
  records.eraseP fun r => r.addr == addr

def deleteEntry (filename : Str) (b : Nat) (c : Cache) : Option Cache := do
  let fc ← c.file filename
  -- `assert(entry_itor != file.entries.end())`
  let e ← fc.entries.lookup b
  some { c with
    recentList := eraseRecord e.useRecord c.recentList
    fileMap := c.fileMap.insert filename { fc with entries := fc.entries.erase b } }

def deleteEntryBeyond (filename : Str) (blockBound : Nat) (c : Cache) : Option Cache := do
  let fc ← c.file filename
  fc.entries.keys.foldlM (fun c b => if b ≥ blockBound then deleteEntry filename b c else some c) c

/-- `_recent_list.splice(_recent_list.begin(), _recent_list, rec_pos)`. -/
def moveToHead (addr : Nat) (c : Cache) : Option Cache := do
  let r ← c.recentList.find? fun r => r.addr == addr
  some { c with recentList := r :: eraseRecord addr c.recentList }

/-! ## Attributes -/

def cacheFileAttr (filename : Str) : CacheM Unit := do
  let c ← Prog.get
  match c.file filename with
  | some _ => pure ()
  | none => do
    let ans : AttrFtAns ← Prog.ask (Call.attrFt filename)
    if ans.err ≠ 0 then Prog.throw ans.err
    else putFile filename (FileCache.ofAttr ans.attr)

def setSize (filename : Str) (size : Nat) (c : Cache) : Option Cache := do
  let fc ← c.file filename
  some (c.setFile filename { fc with attr := { fc.attr with size := size } })

/-! ## Writing -/

def writeBlock (B : Nat) (filename : Str) (b offset : Nat) (buf : Bytes) (c : Cache) : Option Cache :=
  -- `assert(offset + size <= _block_size)`
  if offset + buf.length ≤ B then touchEntry B filename b (·.write offset buf) c else none

/-- The `while` loop of `write`. An iteration stores at least one byte, so
`buf.length` of them are enough. -/
def writeLoop (B : Nat) (filename : Str) (buf : Bytes) :
    (fuel currBlock bstart bsize writtenSize : Nat) → Cache → Option Cache
  | 0, _, _, _, writtenSize, c => if writtenSize < buf.length then none else some c
  | fuel + 1, currBlock, bstart, bsize, writtenSize, c =>
    if writtenSize < buf.length then do
      let c ← writeBlock B filename currBlock bstart ((buf.drop writtenSize).take bsize) c
      writeLoop B filename buf fuel (currBlock + 1) 0 (min B (buf.length - (writtenSize + bsize)))
        (writtenSize + bsize) c
    else some c

/-- The part of `write` after the attributes are there. -/
def store (B : Nat) (filename : Str) (offset : Nat) (buf : Bytes) (c : Cache) : Option Cache := do
  let fc ← c.file filename
  let c ← if offset + buf.length > fc.attr.size then setSize filename (offset + buf.length) c else some c
  writeLoop B filename buf buf.length (offset / B) (offset % B) (min (B - offset % B) buf.length) 0 c

def write (B : Nat) (filename : Str) (offset : Nat) (buf : Bytes) : CacheM Unit := do
  cacheFileAttr filename
  local_ (store B filename offset buf)

/-! ## Truncation -/

def truncate (B : Nat) (filename : Str) (fsize : Nat) : CacheM Unit := do
  cacheFileAttr filename
  let fc ← fileAt filename
  if fsize < fc.attr.size then do
    local_ (deleteEntryBeyond filename (if fsize = 0 then 0 else endBlock B fsize))
    local_ (setSize filename fsize)
    attrWb filename
  else if fsize > fc.attr.size then do
    local_ (setSize filename fsize)
    attrWb filename

/-! ## Reading -/

/-- `block_range`: the blocks of `[b, b + n)` that are not full. -/
def missingBlocks (B : Nat) (fc : FileCache) : (n b : Nat) → RangeList → Option RangeList
  | 0, _, range => some range
  | n + 1, b, range =>
    if isFullBlock B fc b then missingBlocks B fc n (b + 1) range
    else do
      let range ← range.insertRange b (b + 1)
      missingBlocks B fc n (b + 1) range

/-- The inner loop of `cacheBlocks`: the fetched run starts at block `start`. -/
def installBlocks (B : Nat) (filename : Str) (buf : Bytes) (start : Nat) : (n b : Nat) → Cache → Option Cache
  | 0, _, c => some c
  | n + 1, b, c => do
    let c ← touchEntry B filename b (·.fetch ((buf.drop ((b - start) * B)).take B)) c
    installBlocks B filename buf start n (b + 1) c

/-- The outer loop of `cacheBlocks`. The buffer is zero where the callback
left it alone. -/
def fetchRuns (B : Nat) (filename : Str) : List Range → CacheM Unit
  | [] => pure ()
  | rg :: rgs => do
    let ans : ContentFtAns ← Prog.ask (Call.contentFt filename (rg.start * B) ((rg.stop - rg.start) * B))
    if ans.err ≠ 0 then Prog.throw ans.err
    else do
      let buf := ftruncate ans.data ((rg.stop - rg.start) * B)
      local_ (installBlocks B filename buf rg.start (rg.stop - rg.start) rg.start)
      fetchRuns B filename rgs

def cacheBlocks (B : Nat) (filename : Str) (blockStart blockEnd : Nat) : CacheM Unit := do
  let fc ← fileAt filename
  if fc.attr.size = 0 then pure ()
  else do
    let blockRange ← Prog.check (missingBlocks B fc (blockEnd - blockStart) blockStart [])
    let c ← Prog.get
    Prog.set { c with lastReadHit := blockRange.length == 0 }
    fetchRuns B filename blockRange

def readBlock (B : Nat) (filename : Str) (b offset size : Nat) (c : Cache) : Option (Bytes × Cache) := do
  let fc ← c.file filename
  if offset + size ≤ B then do
    let e ← fc.entries.lookup b
    -- `assert(isFullBlock(fc, block_num))`
    if isFullBlock B fc b then do
      let c ← moveToHead e.useRecord c
      some ((e.data.drop offset).take size, c)
    else none
  else none

/-- The `while` loop of `read`; `buf` is what it has read so far. -/
def readLoop (B : Nat) (filename : Str) (size : Nat) :
    (fuel currBlock bstart bsize : Nat) → Bytes → Cache → Option (Bytes × Cache)
  | 0, _, _, _, buf, c => if buf.length < size then none else some (buf, c)
  | fuel + 1, currBlock, bstart, bsize, buf, c =>
    if buf.length < size then do
      let (piece, c) ← readBlock B filename currBlock bstart bsize c
      readLoop B filename size fuel (currBlock + 1) 0 (min B (size - (buf.length + bsize))) (buf ++ piece) c
    else some (buf, c)

/-- `read`; the result is the first `read_size` bytes of `buf`. -/
def read (B : Nat) (filename : Str) (offset size : Nat) : CacheM Bytes := do
  cacheFileAttr filename
  let fc ← fileAt filename
  if offset ≥ fc.attr.size ∨ size = 0 then pure []
  else do
    let size := if offset + size > fc.attr.size then fc.attr.size - offset else size
    cacheBlocks B filename (offset / B) (endBlock B (offset + size))
    Prog.step (readLoop B filename size size (offset / B) (offset % B) (min (B - offset % B) size) [])

/-! ## Writing back -/

/-- The bytes of a range of an entry. -/
def slice (e : CacheEntry) (rg : Range) : Bytes := (e.data.take rg.stop).drop rg.start

/-- The first `if` of the inner loop of `flushBlocks`, for a valid range
`[absStart, absEnd)` with the bytes `piece`: the pending range is extended by
it, or written back. -/
def extendOrSend (filename : Str) (absStart absEnd : Nat) (piece : Bytes) (flushRange : RangeList) (data : Bytes) :
    CacheM (RangeList × Bytes) :=
  match flushRange with
  | [r] =>
    if r.stop = absStart then do
      let merged ← Prog.check (flushRange.insertRange absStart absEnd)
      pure (merged, data ++ piece)
    else do
      Prog.assert (r.stop - r.start = data.length)
      contentWb filename r.start data
      pure ([], [])
  | _ => pure (flushRange, data)

/-- The second `if`: a range becomes the pending one when there is none. -/
def seed (absStart absEnd : Nat) (piece : Bytes) (flushRange : RangeList) (data : Bytes) :
    CacheM (RangeList × Bytes) :=
  if flushRange.length = 0 then do
    let seeded ← Prog.check (flushRange.insertRange absStart absEnd)
    Prog.assert (data.length = 0)
    pure (seeded, data ++ piece)
  else pure (flushRange, data)

/-- The loop of `flushBlocks` over the valid ranges of block `b`:
`flushRange` and `data` are the pending range and its bytes. -/
def flushRanges (B : Nat) (filename : Str) (b : Nat) (e : CacheEntry) :
    List Range → RangeList → Bytes → CacheM (RangeList × Bytes)
  | [], flushRange, data => pure (flushRange, data)
  | rg :: rgs, flushRange, data => do
    let (flushRange, data) ←
      extendOrSend filename (rg.start + b * B) (rg.stop + b * B) (slice e rg) flushRange data
    let (flushRange, data) ← seed (rg.start + b * B) (rg.stop + b * B) (slice e rg) flushRange data
    flushRanges B filename b e rgs flushRange data

/-- The loop of `flushBlocks` over the blocks. -/
def flushData (B : Nat) (filename : Str) : List Nat → RangeList → Bytes → CacheM (RangeList × Bytes)
  | [], flushRange, data => pure (flushRange, data)
  | b :: bs, flushRange, data => do
    let e ← entryAt filename b
    let (flushRange, data) ← flushRanges B filename b e e.validRanges flushRange data
    flushData B filename bs flushRange data

/-- `entry.clean()` on every listed block. -/
def cleanBlocks (filename : Str) (bs : List Nat) (c : Cache) : Option Cache :=
  bs.foldlM (fun c b => updateEntry filename b (fun e => some { e with state := .clean }) c) c

/-- The write-back of what is pending at the end. -/
def sendPending (filename : Str) (flushRange : RangeList) (data : Bytes) : CacheM Unit := do
  Prog.assert (flushRange.length ≤ 1)
  match flushRange with
  | [r] => do
    Prog.assert (r.stop - r.start = data.length)
    contentWb filename r.start data
  | _ => pure ()

def flushBlocks (B : Nat) (filename : Str) (sortedDblocks : List Nat) : CacheM Unit := do
  let _ ← fileAt filename
  let (flushRange, data) ← flushData B filename sortedDblocks [] []
  sendPending filename flushRange data
  local_ (cleanBlocks filename sortedDblocks)
  attrWb filename

/-- `std::sort`. -/
def sort (blocks : List Nat) : List Nat := blocks.insertionSort (· ≤ ·)

/-- `flush`. The result of `flushBlocks` is not looked at. -/
def flush (B : Nat) (filename : Str) : CacheM Unit := do
  let c ← Prog.get
  match c.file filename with
  | none => pure ()
  | some fc =>
    let dblocks := (fc.entries.entries.filter fun p => p.2.state = .dirty).map (·.1)
    if dblocks.length > 0 then Prog.swallow (flushBlocks B filename (sort dblocks))
    else pure ()

/-- `fblocks[filename].push_back(block_num)`. -/
def pushBlock (filename : Str) (b : Nat) : List (Str × List Nat) → List (Str × List Nat)
  | [] => [(filename, [b])]
  | (f, bs) :: fblocks =>
    if f = filename then (f, bs ++ [b]) :: fblocks else (f, bs) :: pushBlock filename b fblocks

/-- The first loop of `flushDirtyBlocks`: the dirty blocks of every file, in
the order the records are visited. -/
def collectDirty (c : Cache) : List UseRecord → List (Str × List Nat) → Option (List (Str × List Nat))
  | [], fblocks => some fblocks
  | r :: rs, fblocks => do
    let e ← c.entry r.id.filename r.id.blockNum
    collectDirty c rs (if e.state = .dirty then pushBlock r.id.filename r.id.blockNum fblocks else fblocks)

/-- The second loop of `flushDirtyBlocks`. -/
def flushFiles (B : Nat) : List (Str × List Nat) → CacheM Unit
  | [] => pure ()
  | (f, bs) :: fblocks => do
    flushBlocks B f (sort bs)
    flushFiles B fblocks

def flushDirtyBlocks (B : Nat) (order : HashOrder) : CacheM Unit := do
  let c ← Prog.get
  let fblocks ← Prog.check (collectDirty c c.recentList.reverse [])
  flushFiles B (order.visit fblocks)

/-- The loop of `evictBlocks`. -/
def dropTail : Nat → Cache → Option Cache
  | 0, c => some c
  | n + 1, c => do
    let r ← c.recentList.getLast?
    let c ← deleteEntry r.id.filename r.id.blockNum c
    dropTail n c

def evictBlocks (B : Nat) (order : HashOrder) (count : Nat) : CacheM Unit := do
  let c ← Prog.get
  let count := min c.recentList.length count
  flushDirtyBlocks B order
  local_ (dropTail count)

def invalidate (filename : Str) (c : Cache) : Option Cache :=
  match c.file filename with
  | none => some c
  | some _ => do
    let c ← deleteEntryBeyond filename 0 c
    some { c with fileMap := c.fileMap.erase filename }

end Cache

end Nfs
