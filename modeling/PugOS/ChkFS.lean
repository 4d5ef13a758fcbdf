import PugOS.BlockProg
import PugOS.Journal

/-! # ChickadeeFS files

A file system is one memory of blocks, block `bn` at address `bn * blocksize`; a
pointer into a cached block is an address, and a cache entry is its block number.  The
functions of `chkfsstate`, `chkfs_fileiter` and `vnode_inode` are programs over the
block cache.

`mlock` and `mref` are only used in memory and are left out, and with them the waiting
in `lock_write` and `get_write`: calls come one after another here.
-/
namespace PugOS.ChkFS
open Bytes Ring BlockProg
open Journal (blocksize)

/-! ## Layout -/

/-- `chkfs::ndirect`, `nindirect`, `maxsize` and `bitsperblock`. -/
def ndirect : Nat := 9
def nindirect : Nat := 1024
def maxsize : Nat := (ndirect + nindirect + nindirect * nindirect) * blocksize
def bitsperblock : Nat := blocksize * 8

/-- Error codes as block numbers. -/
def E_NOSPC : Nat := 2 ^ 32 - 28
def E_FBIG : Nat := 2 ^ 32 - 27
def E_NOMEM : Nat := 2 ^ 32 - 12
def E_MINERROR : Nat := 2 ^ 32 - 100

/-- The addresses of the superblock's fields. -/
def nblocksAddr : Nat := 512 + 8

/-- `fbb_bn` of the superblock. -/
def fbbBnAddr : Nat := 512 + 28

section Inode
variable (ino : Nat)

/-- The addresses of the fields of the inode at `ino`. -/
def sizeAddr : Nat := ino + 4

/-- The pointers of the inode at `ino`. -/
def directAddr (i : Nat) : Nat := ino + 20 + 4 * i
def indirectAddr : Nat := ino + 56
def indirect2Addr : Nat := ino + 60

/-- `find_entry(ino)`: the block that holds the inode. -/
def inoEntry : Nat := ino / blocksize

end Inode

/-- The address of the `i`th number of block `bn`. -/
def entryAddr (bn i : Nat) : Nat := bn * blocksize + 4 * i

/-- `bi_direct_index`. -/
def biDirectIndex (bi : Nat) : Nat := if bi < ndirect then bi else (bi - ndirect) % nindirect

/-- `bi_indirect_index`. -/
def biIndirectIndex (bi : Nat) : Nat := (bi - ndirect - nindirect) / nindirect

/-! ## Block lookup -/

/-- Load the block a pointer is to, if it is not null. -/
def loadPtr (ptr : Nat) : Prog (Option Nat) := do
  let bn ← peek ptr 4
  if bn ≠ 0 then getEntry bn else return none

/-- The second half of `get_data_block`, from the pointer to the indirect block on. -/
def getIndirectBlock (iptr bi : Nat) : Prog (Option Nat) := do
  match ← loadPtr iptr with
  | none => return none
  | some ie =>
    assert (bi < maxsize / blocksize)
    let de ← loadPtr (entryAddr ie (biDirectIndex bi))
    putEntry ie
    return de

/-- `get_data_block(ino, off)`: the block, to which a reference is taken. -/
def getDataBlock (ino off : Nat) : Prog (Option Nat) := do
  assert (off % blocksize = 0)
  let bi := off / blocksize % 2 ^ 32
  if ndirect + nindirect ≤ bi then
    match ← loadPtr (indirect2Addr ino) with
    | none => return none
    | some i2e =>
      assert (bi < maxsize / blocksize)
      let de ← getIndirectBlock (entryAddr i2e (biIndirectIndex bi)) bi
      putEntry i2e
      return de
  else if ndirect ≤ bi then getIndirectBlock (indirectAddr ino) bi
  else loadPtr (directAddr ino (biDirectIndex bi))

/-! ## Allocation -/

/-- `fbb[bn / 8] & (1 << (bn % 8))`, for a byte of the bitmap. -/
def bitSet (byte bn : Nat) : Bool := byte.testBit (bn % 8)

/-- `byte & ~(1 << (bn % 8))`. -/
def clearBit (byte bn : Nat) : Nat := byte &&& (255 ^^^ 2 ^ (bn % 8))

/-- The search of `allocate_block` from block number `bn` on, `fuel` steps at most. -/
def allocateFrom (fbb nblocks : Nat) : Nat → Nat → Prog Nat
  | 0, _ => return E_NOSPC
  | fuel + 1, bn => do
    if bn < nblocks then
      let byte ← peek (fbb * blocksize + bn / 8) 1
      if bitSet byte bn then
        poke (fbb * blocksize + bn / 8) 1 (clearBit byte bn)
        return bn
      else allocateFrom fbb nblocks fuel (bn + 1)
    else return E_NOSPC

/-- `allocate_block`.  The search goes on as long as the bitmap's first block: beyond,
the source reads past its buffer. -/
def allocateBlock : Prog Nat := do
  match ← getEntry 0 with
  | none => .fail
  | some sb =>
    let fbbBn ← peek fbbBnAddr 4
    match ← getEntry fbbBn with
    | none => .fail
    | some fbb =>
      sully fbb
      let nblocks ← peek nblocksAddr 4
      let bn ← allocateFrom fbb nblocks bitsperblock 0
      putEntry sb
      putEntry fbb
      return bn

/-! ## The file iterator -/

/-- `chkfs_fileiter`: the entries are the blocks it holds references to. -/
structure FileIter where
  ino : Nat
  off : Nat
  dptr : Option Nat
  indirect2 : Option Nat
  indirect : Option Nat

namespace FileIter

/-- The constructor. -/
def mk' (ino : Nat) : FileIter :=
  { ino := ino, off := 0, dptr := some (directAddr ino 0), indirect2 := none, indirect := none }

/-- The indirect block that a file block is under: 0 for that of the inode. -/
def iclass (bi : Nat) : Nat := (bi + nindirect - ndirect) / nindirect

/-- `get_iptr`, which needs the indirect2 entry for the classes from 2 on. -/
def getIptr (it : FileIter) (bi : Nat) : Option Nat :=
  if iclass bi > 1 then it.indirect2.map fun e => entryAddr e (iclass bi - 2)
  else if iclass bi > 0 then some (indirectAddr it.ino)
  else none

/-- `get_dptr`, which needs the indirect entry for indirect blocks. -/
def getDptr (it : FileIter) (bi : Nat) : Option Nat :=
  if bi ≥ ndirect then it.indirect.map fun e => entryAddr e (biDirectIndex bi)
  else some (directAddr it.ino bi)

/-- The indirect entry is given up when the iterator moves to another class. -/
def clearIndirect (it : FileIter) (bi : Nat) : Prog FileIter :=
  match it.indirect with
  | some e =>
    if iclass bi ≠ iclass (it.off / blocksize) then do
      putEntry e
      return { it with indirect := none }
    else return it
  | none => return it

/-- Load the doubly-indirect block if necessary. -/
def loadIndirect2 (it : FileIter) (bi : Nat) : Prog FileIter :=
  if ndirect + nindirect ≤ bi ∧ it.indirect2 = none then do
    return { it with indirect2 := ← loadPtr (indirect2Addr it.ino) }
  else return it

/-- Load the indirect block if necessary. -/
def loadIndirect (it : FileIter) (bi : Nat) : Prog FileIter :=
  if ndirect ≤ bi ∧ it.indirect = none then
    match it.getIptr bi with
    | none => .fail
    | some iptr => do return { it with indirect := ← loadPtr iptr }
  else return it

/-- `find(off)`. -/
def find (it : FileIter) (off : Nat) : Prog FileIter := do
  let bi := min off maxsize / blocksize
  let it ← clearIndirect it bi
  let it ← loadIndirect2 { it with off := off, dptr := none } bi
  if ndirect + nindirect ≤ bi ∧ it.indirect2 = none then return it
  let it ← loadIndirect it bi
  if ndirect ≤ bi ∧ it.indirect = none then return it
  assert (bi < ndirect ∨ bi < maxsize / blocksize)
  return { it with dptr := it.getDptr bi }

/-- `allocate_metablock_entry`: the block or an error code. -/
def allocateMetablockEntry : Prog (Nat × Option Nat) := do
  let bn ← allocateBlock
  if bn ≥ E_MINERROR then return (bn, none)
  match ← getEntry bn with
  | none => return (E_NOMEM, none)
  | some e =>
    sully e
    storeBytes (e * blocksize) (List.replicate blocksize 0)
    return (bn, some e)

/-- Allocate and initialize the doubly-indirect block if necessary. -/
def mapIndirect2 (it : FileIter) (bi : Nat) : Prog (Except Nat FileIter) :=
  if ndirect + nindirect ≤ bi ∧ it.indirect2 = none then do
    let (i2bn, e) ← allocateMetablockEntry
    if i2bn ≥ E_MINERROR then return .error i2bn
    sully (inoEntry it.ino)
    poke (indirect2Addr it.ino) 4 i2bn
    return .ok { it with indirect2 := e }
  else return .ok it

/-- Allocate and initialize the indirect block if necessary. -/
def mapIndirect (it : FileIter) (bi : Nat) : Prog (Except Nat FileIter) :=
  if ndirect ≤ bi ∧ it.indirect = none then do
    let (ibn, e) ← allocateMetablockEntry
    if ibn ≥ E_MINERROR then return .error ibn
    match (if ndirect + nindirect ≤ bi then it.indirect2 else some (inoEntry it.ino)),
        it.getIptr bi with
    | some iptrEntry, some iptr =>
      sully iptrEntry
      poke iptr 4 ibn
      return .ok { it with indirect := e }
    | _, _ => .fail
  else return .ok it

/-- Store the data block pointer. -/
def mapData (it : FileIter) (bi bn : Nat) : Prog FileIter :=
  match (if ndirect ≤ bi then it.indirect else some (inoEntry it.ino)), it.getDptr bi with
  | some entry, some dptr => do
    sully entry
    poke dptr 4 bn
    return { it with dptr := some dptr }
  | _, _ => .fail

/-- `map(bn)`: zero or an error code. -/
def map (it : FileIter) (bn : Nat) : Prog (Nat × FileIter) := do
  let bi := it.off / blocksize % 2 ^ 32
  if bn = 0 ∧ it.dptr = none then return (0, it)
  if it.off ≥ maxsize then return (E_FBIG, it)
  match ← mapIndirect2 it bi with
  | .error e => return (e, it)
  | .ok it =>
    match ← mapIndirect it bi with
    | .error e => return (e, it)
    | .ok it => return (0, ← mapData it bi bn)

/-- The destructor. -/
def release (it : FileIter) : Prog Unit := do
  match it.indirect with
  | some e => putEntry e
  | none => pure ()
  match it.indirect2 with
  | some e => putEntry e
  | none => pure ()

end FileIter

/-! ## Writing -/

/-- Allocate another block for the file, at offset `blockEnd`, if it has none there.
The reference `get_data_block` takes is not given back. -/
def mapNext (ino blockEnd : Nat) (it : FileIter) : Prog FileIter := do
  match ← getDataBlock ino blockEnd with
  | some _ => return it
  | none =>
    let it ← it.find blockEnd
    let newB ← allocateBlock
    assert (newB ≠ E_NOSPC)
    let (r, it) ← it.map newB
    assert (r = 0)
    return it

/-- `if (off > i_->size) i_->size = off`. -/
def growSize (ino off : Nat) : Prog Unit := do
  let size ← peek (sizeAddr ino) 4
  if off > size then poke (sizeAddr ino) 4 off else return

/-- The loop of `vnode_inode::write`, with `buf` the bytes not yet written, `fuel` of
them at most. -/
def writeLoop (ino : Nat) : Nat → FileIter → List UInt8 → Nat → Nat → Prog (Nat × Nat × FileIter)
  | 0, it, _, off, nwritten => return (nwritten, off, it)
  | fuel + 1, it, buf, off, nwritten => do
    if buf.length = 0 then return (nwritten, off, it)
    let blockoff := off / blocksize * blocksize
    match ← getDataBlock ino blockoff with
    | none => return (nwritten, off, it)
    | some data =>
      let blockEnd := blockoff + blocksize
      let it ← if off + buf.length > blockEnd then mapNext ino blockEnd it else pure it
      let ncopy := if off + buf.length > blockEnd then blocksize - off % blocksize else buf.length
      sully data
      storeBytes (data * blocksize + (off - blockoff)) (buf.take ncopy)
      putEntry data
      growSize ino (off + ncopy)
      writeLoop ino fuel it (buf.drop ncopy) (off + ncopy) (nwritten + ncopy)

/-- `vnode_inode::write(buf, sz, off)`: the result and the new offset. -/
def write (ino : Nat) (buf : List UInt8) (off : Nat) : Prog (Nat × Nat) := do
  -- `lock_write` marks the inode's block as dirty
  sully (inoEntry ino)
  let (nwritten, off, it) ← writeLoop ino buf.length (FileIter.mk' ino) buf off 0
  it.release
  return (nwritten, off)

end PugOS.ChkFS
