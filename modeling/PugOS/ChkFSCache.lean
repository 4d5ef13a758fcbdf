import PugOS.BlockExec
import PugOS.BufCacheSlot
import PugOS.ChkFS

/-! # The buffer cache under one call after another

When file-system calls come one after another, a call of `get_disk_entry` runs from its
start to its end, and what is left of the cache's machinery is what it does to the entries,
to the buffers and to the disk.  What the order of the lists, `kalloc` and the disk decide
is given by a `Choice`: the slot that is found or evicted, whether a dirty entry was met and
all of them written first, whether the block could be loaded, and the same for the blocks
prefetched after it.

`mref` counts are kept beside the contents of the blocks, and the ones of a block are
cleared when it is read from the disk: only inode blocks have any, and these are always
loaded with `clean_inode_block`.  `reads` tells the buffers apart that a block has had: a
pointer into one is of no use once the block has been read again.  `wraps` counts the
references that were taken to an entry whose count had no room for them; the cache does not
use it.  No block has the number `emptyblock`.
-/
namespace PugOS.ChkFS
open Bytes BlockProg
open Journal (blocksize)
open BufCache (ne nPrefetch emptyblock incRef decRef)

/-- An entry of the cache: its block, `ref_`, whether it is loaded, and `dirty`. -/
structure CacheEntry where
  bn : Nat
  ref : Nat
  loaded : Bool
  dirty : Bool
  deriving DecidableEq, Repr

/-- The slots, the dirty list, the buffers and the disk. -/
structure Cache where
  e : Nat → CacheEntry
  dirtyList : List Nat
  /-- the buffers, that of block `bn` at `bn * blocksize` -/
  mem : Mem
  disk : Mem
  mref : Nat → Nat
  /-- how often a block has been read from the disk -/
  reads : Nat → Nat
  /-- how often `++ref_` has come to 0 -/
  wraps : Nat

/-- How loading a block ends: `kalloc` may fail, and all the disk's command slots may be
taken. -/
inductive Outcome
  | ok
  | noMemory
  | noSlot
  deriving DecidableEq, Repr

/-- A round of the prefetch loop. -/
structure Ahead where
  flush : Bool
  slot : Nat
  memory : Bool
  deriving DecidableEq, Repr

/-- How one load goes: whether the dirty blocks are flushed, the slot, and what becomes of the read.
-/
structure Choice where
  flush : Bool
  slot : Option Nat
  outcome : Outcome
  ahead : List Ahead
  deriving DecidableEq, Repr

namespace Cache

/-- The entry of a slot is changed. -/
def modify (s : Cache) (k : Nat) (f : CacheEntry → CacheEntry) : Cache :=
  { s with e := Function.update s.e k (f (s.e k)) }

/-- The slot of a block. -/
def findBlock (s : Cache) (bn : Nat) : Option Nat := (List.range ne).find? fun k => (s.e k).bn = bn

/-- `find_entry`: the entry whose buffer has the block, which must be there. -/
def findEntry (s : Cache) (bn : Nat) : Option Nat :=
  (List.range ne).find? fun k => (s.e k).bn = bn ∧ (s.e k).loaded = true

/-- `sync` writes one entry of the dirty list. -/
def writeEntry (s : Cache) (k : Nat) : Cache :=
  ({ s with disk := fun x => if x / blocksize = (s.e k).bn then s.mem x else s.disk x }).modify k
    fun x => { x with dirty := false }

/-- `sync(false)`. -/
def flush (s : Cache) : Cache := s.dirtyList.foldl writeEntry { s with dirtyList := [] }

/-- The loop of `sync(true)` that drops the entries without references. -/
def dropUnused (s : Cache) : Cache :=
  { s with e := fun k =>
    if (s.e k).bn ≠ emptyblock ∧ (s.e k).ref = 0 then
      { s.e k with bn := emptyblock, loaded := false, dirty := false }
    else s.e k }

/-- `sync(drop)`. -/
def sync (s : Cache) (drop : Bool) : Cache := if drop then s.flush.dropUnused else s.flush

/-- The dirty entries are written when the search for a slot meets one without references. -/
def flushFor (s : Cache) (flush : Bool) : Option Cache :=
  if flush then do
    guard ((List.range ne).any fun k => (s.e k).dirty && (s.e k).ref = 0)
    return s.flush
  else some s

/-- A slot is empty, or its entry can be evicted. -/
def available (s : Cache) (k : Nat) : Bool :=
  k < ne ∧ ((s.e k).bn = emptyblock ∨ (s.e k).ref = 0 ∧ (s.e k).dirty = false)

/-- `get_bufentry_slot`. -/
def getBufentrySlot (s : Cache) (bn : Nat) (flush : Bool) (slot : Option Nat) :
    Option (Option Nat × Cache) := do
  guard (bn ≠ emptyblock)
  match s.findBlock bn with
  | some k => return (some k, s)
  | none =>
    let s ← s.flushFor flush
    match slot with
    | none => return (none, s)
    | some k =>
      guard (s.available k)
      return (some k, s.modify k fun x => { x with bn := bn, loaded := false, dirty := false })

/-- `++ref_`, which block 0 does not need. -/
def addRef (s : Cache) (k bn : Nat) : Cache :=
  if bn ≠ 0 then
    ({ s with wraps := if incRef (s.e k).ref = 0 then s.wraps + 1 else s.wraps }).modify k
      fun x => { x with ref := incRef x.ref }
  else s

/-- The prefetch of block `bn`. -/
def prefetchOne (s : Cache) (bn : Nat) (a : Ahead) : Option Cache := do
  match ← s.getBufentrySlot bn a.flush (some a.slot) with
  | (none, s) => return s
  | (some k, s) =>
    if (s.e k).loaded || a.memory then return s
    else return s.modify k fun x => { x with ref := decRef x.ref }

/-- The prefetch loop from round `n` on. -/
def prefetch (bn : Nat) : Nat → List Ahead → Cache → Option Cache
  | _, [], s => some s
  | n, a :: l, s => do
    guard (n ≤ nPrefetch)
    let s ← s.prefetchOne ((bn + n) % 2 ^ 32) a
    prefetch bn (n + 1) l s

/-- The block in slot `k` is read from the disk. -/
def readBlock (s : Cache) (k : Nat) : Cache :=
  ({ s with
    mem := fun x => if x / blocksize = (s.e k).bn then s.disk x else s.mem x
    mref := fun a => if a / blocksize = (s.e k).bn then 0 else s.mref a
    reads := Function.update s.reads (s.e k).bn (s.reads (s.e k).bn + 1) }).modify k
    fun x => { x with loaded := true }

/-- `load_disk_block` and what `get_disk_entry` does from there on. -/
def load (s : Cache) (k bn : Nat) (c : Choice) : Option (Bool × Cache) :=
  if (s.e k).loaded then some (true, s)
  else
    match c.outcome with
    | .noMemory => some (false, s.modify k fun x => { x with ref := decRef x.ref })
    | .noSlot => some (false, s)
    | .ok => do
      let s ← prefetch bn 1 c.ahead s
      return (true, s.readBlock k)

/-- `get_disk_entry(bn)`: whether there is an entry, and the cache. -/
def getDiskEntry (s : Cache) (bn : Nat) (c : Choice) : Option (Bool × Cache) := do
  match ← s.getBufentrySlot bn c.flush c.slot with
  | (none, s) => return (false, s)
  | (some k, s) => (s.addRef k bn).load k bn c

/-- `put_entry(find_entry(buf))`. -/
def putEntry (s : Cache) (bn : Nat) : Option Cache := do
  let k ← s.findEntry bn
  if bn ≠ 0 then return s.modify k fun x => { x with ref := decRef x.ref } else return s

/-- `sully(find_entry(buf))`. -/
def sully (s : Cache) (bn : Nat) : Option Cache := do
  let k ← s.findEntry bn
  if (s.e k).dirty then return s
  else return ({ s with dirtyList := k :: s.dirtyList }).modify k fun x => { x with dirty := true }

/-- The cache answers the calls of a program. -/
def interp : Interp Cache Choice where
  load := getDiskEntry
  put := putEntry
  sully := sully
  mem := mem
  setMem s m := { s with mem := m }

/-- After boot, with the superblock in slot 0. -/
def boot (disk : Mem) : Cache where
  e := Function.update (fun _ => ⟨emptyblock, 0, false, false⟩) 0 ⟨0, 1, true, false⟩
  dirtyList := []
  mem x := if x / blocksize = 0 then disk x else 0
  disk := disk
  mref _ := 0
  reads _ := 0
  wraps := 0

end Cache
end PugOS.ChkFS
