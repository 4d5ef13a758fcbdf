import PugOS.BlockAlloc
import PugOS.ChkFSRead

/-! # `mkchickadeefs` building an image

Where `blocks[b]` is not null, `mem` has its bytes at `b * blocksize`: each pointer is to a buffer
of its own, and those of the blocks below `data_bn` follow one another, so that what is written past
the end of one goes to the next.  Where the program exits or an assertion fails there is no image.
-/
namespace PugOS.Mkfs
open Bytes Ring ChkFS
open Journal (blocksize)
open BlockAlloc (Options Superblock layout nfbb)

/-- `chkfs::magic`, and the other constants of the format. -/
def magic : Nat := 0xFBBFBB003EE9BEEF
def maxdirectsize : Nat := ndirect * blocksize
def maxindirectsize : Nat := maxdirectsize + nindirect * blocksize
def maxnamelen : Nat := 123
def typeDirectory : Nat := 2

/-! ## The builder -/

/-- A file to add, with its name in the image. -/
structure InputFile where
  name : List UInt8
  contents : List UInt8
  nul : (0 : UInt8) ∉ name

/-- A directory entry. -/
structure Dirent where
  inum : Nat
  name : List UInt8

/-- The directory entry: zeros after the name. -/
def Dirent.bytes (de : Dirent) : List UInt8 :=
  toLE 4 de.inum ++ de.name ++ List.replicate (maxnamelen + 1 - de.name.length) 0

/-- The image that is being built, the next free block and inode, and the entries of the root
directory. -/
structure Image where
  mem : Mem
  /-- `blocks[b]` is not null -/
  present : Nat → Bool
  freeb : Nat
  freeinode : Nat
  root : List Dirent

/-- A block of zeros, at a new pointer `blocks[b]`. -/
def Image.newBlock (im : Image) (b : Nat) (bytes : Nat → UInt8) : Image :=
  { im with
    mem := fun a => if a / blocksize = b then bytes (a % blocksize) else im.mem a
    present := Function.update im.present b true }

/-- `memmove(&blocks[first], &blocks[first - 1], k * sizeof(unsigned char*))`. -/
def Image.moveUp (im : Image) (first k : Nat) : Image :=
  { im with
    mem := fun a =>
      if first ≤ a / blocksize ∧ a / blocksize < first + k then im.mem (a - blocksize) else im.mem a
    present := fun b => if first ≤ b ∧ b < first + k then im.present (b - 1) else im.present b }

/-- `add_boot_sector`, with what the file has. -/
def addBootSector (mem : Mem) (sector : List UInt8) : Option Mem :=
  let bytes := sector.take blocksize
  if bytes.length > 510 then none
  else some (putLE (putLE (store mem 0 bytes) 510 1 0x55) 511 1 0xAA)

/-- `fbb[b / 8] |= 1U << (b % 8)`. -/
def setBit (mem : Mem) (fbb b : Nat) : Mem :=
  putLE mem (fbb + b / 8) 1 (getLE mem (fbb + b / 8) 1 ||| 2 ^ (b % 8))

/-- The zeroed blocks, with the boot sector if there is one. -/
def bootBlock : Option (List UInt8) → Option Mem
  | none => some fun _ => 0
  | some sector => addBootSector (fun _ => 0) sector

section Builder
variable (sb : Superblock)

/-- The superblock's fields, each with its address and width. -/
def superblockFields : List (Nat × Nat × Nat) :=
  [(512, 8, magic), (512 + 8, 4, sb.nblocks), (512 + 12, 4, sb.nswap), (512 + 16, 4, sb.ninodes),
    (512 + 20, 4, sb.njournal), (512 + 24, 4, sb.swapBn), (512 + 28, 4, sb.fbbBn),
    (512 + 32, 4, sb.inodeBn), (512 + 36, 4, sb.dataBn), (512 + 40, 4, sb.journalBn)]

/-- The superblock is written. -/
def putSuperblock (mem : Mem) : Mem :=
  (superblockFields sb).foldl (fun m f => putLE m f.1 f.2.1 f.2.2) mem

/-- `advance_blockno`, which stops in front of the journal. -/
def advanceBlockno (im : Image) : Option Image :=
  if im.freeb ≥ sb.journalBn then none else some { im with freeb := im.freeb + 1 }

/-- Where inode `inum` is. -/
def inodeAt (inum : Nat) : Nat := sb.inodeBn * blocksize + inum * inodesize

/-- `get_inode`. -/
def getInode (inum : Nat) : Option Nat := if inum < sb.ninodes then some (inodeAt sb inum) else none

/-- `add_inode`, the choice of the inode number. -/
def newInum (im : Image) (inum : Nat) : Option (Nat × Image) :=
  if inum = 0 then
    if im.freeinode = sb.ninodes then none
      else some (im.freeinode, { im with freeinode := im.freeinode + 1 })
  else some (inum, im)

/-- `add_inode`, the allocation of the indirect block: also the first data block and the indirect
block. -/
def addIndirect (im : Image) (ino first : Nat) (atEnd : Bool) : Option (Image × Nat × Nat) := do
  let im ← advanceBlockno sb im
  if atEnd then
    let im := { im with mem := putLE im.mem (indirectAddr ino) 4 (im.freeb - 1) }
    return (im.newBlock (im.freeb - 1) fun _ => 0, first, im.freeb - 1)
  else
    let first := first + 1
    let im := im.moveUp first (im.freeb - first)
    let im := { im with mem := putLE im.mem (indirectAddr ino) 4 (first - 1) }
    return (im.newBlock (first - 1) fun _ => 0, first, first - 1)

/-- Where the pointer to data block `bidx` is, `indir` being the indirect block. -/
def ptrAddr (ino indir bidx : Nat) : Nat :=
  if bidx < ndirect then directAddr ino bidx else entryAddr indir (bidx - ndirect)

/-- The loop that assigns block pointers, `fuel` of them at most. -/
def assignPointers (ino indir first sz : Nat) : Nat → Nat → Mem → Mem
  | 0, _, mem => mem
  | fuel + 1, bidx, mem =>
    if bidx * blocksize < sz then
      assignPointers ino indir first sz fuel (bidx + 1)
        (putLE mem (ptrAddr ino indir bidx) 4 (first + bidx))
    else mem

/-- `add_inode`, with the inode at `ino`. -/
def fillInode (im : Image) (ino type sz nlink first : Nat) (atEnd : Bool) : Option Image :=
  let mem :=
    putLE (putLE (putLE im.mem (typeAddr ino) 4 type) (sizeAddr ino) 4 sz) (nlinkAddr ino) 4 nlink
  let im := { im with mem := mem }
  if sz > maxindirectsize then none
  else if sz > maxdirectsize then do
    let (im, first, indir) ← addIndirect sb im ino first atEnd
    return { im with mem := assignPointers ino indir first sz sz 0 im.mem }
  else some { im with mem := assignPointers ino 0 first sz sz 0 im.mem }

/-- `add_inode`: a number, and the inode with its pointers. -/
def addInode (im : Image) (inum type sz nlink first : Nat) (atEnd : Bool) : Option (Image × Nat) :=
  if im.freeb ≥ first + (sz + blocksize - 1) / blocksize then do
    let (inum, im) ← newInum sb im inum
    let ino ← getInode sb inum
    let im ← fillInode sb im ino type sz nlink first atEnd
    return (im, inum)
  else none

/-- `add_file`, at the start of a round: a block for the next byte. -/
def nextBlock (im : Image) (sz : Nat) : Option Image :=
  if sz % blocksize = 0 then advanceBlockno sb im else some im

/-- `if (!blocks[freeb - 1])`. -/
def Image.ensureBlock (im : Image) : Image :=
  if im.present (im.freeb - 1) then im else im.newBlock (im.freeb - 1) fun _ => 0

/-- The loop of `add_file`, with `rest` still to be read: also how much has been read. -/
def readLoop : Nat → Image → List UInt8 → Nat → Option (Image × Nat)
  | 0, _, _, _ => none
  | fuel + 1, im, rest, sz => do
    let im := (← nextBlock sb im sz).ensureBlock
    let off := sz % blocksize
    let bytes := rest.take (blocksize - off)
    if bytes.length = 0 then return (im, sz)
    else
      let mem := store im.mem ((im.freeb - 1) * blocksize + off) bytes
      readLoop fuel { im with mem := mem } (rest.drop (blocksize - off)) (sz + bytes.length)

/-- What `add_file` accepts as a name. -/
def legalName (name : List UInt8) : Bool :=
  !(name = [46] || name = [46, 46] || name.contains 47 || name.length > maxnamelen)

/-- `add_file`: the data, the inode and the entry. -/
def addFile (im : Image) (f : InputFile) (indirectAtEnd : Bool) : Option Image := do
  let firstBlock := im.freeb
  let (im, sz) ← readLoop sb (f.contents.length + 1) im f.contents 0
  let im := if sz % blocksize = 0 then { im with freeb := im.freeb - 1 } else im
  let (im, ino) ← addInode sb im 0 typeRegular sz 1 firstBlock indirectAtEnd
  if legalName f.name then return { im with root := im.root ++ [⟨ino, f.name⟩] } else none

/-- The loop over the files. -/
def addFiles : Bool → List InputFile → Image → Option Image
  | _, [], im => some im
  | isFirst, f :: files, im => do addFiles false files (← addFile sb im f isFirst)

/-- The loop that fills the directory's last block, `fuel` entries at most. -/
def padRoot : Nat → List Dirent → List Dirent
  | 0, root => root
  | fuel + 1, root =>
    if root.length * direntsize % blocksize ≠ 0 ∨
      root.length = 0 then padRoot fuel (root ++ [⟨0, []⟩]) else root

/-- The loop over the directory's blocks, from offset `sz` on: also its size. -/
def rootLoop (data : List UInt8) : Nat → Image → Nat → Option (Image × Nat)
  | 0, _, _ => none
  | fuel + 1, im, sz =>
    if sz < data.length then do
      let im ← advanceBlockno sb im
      rootLoop data fuel (im.newBlock (im.freeb - 1) fun x => data.getD (sz + x) 0) (sz + blocksize)
    else some (im, sz)

/-- The root directory, after all files. -/
def addRoot (im : Image) : Option Image := do
  let root := padRoot (blocksize / direntsize) im.root
  let data := root.flatMap Dirent.bytes
  let firstBlock := im.freeb
  let (im, sz) ← rootLoop sb data (data.length + 1) { im with root := root } 0
  let (im, _) ← addInode sb im 1 typeDirectory sz 1 firstBlock false
  return im

/-- `mark_free`. -/
def markFree (mem : Mem) (bnum : Nat) : Mem := setBit mem (sb.fbbBn * blocksize) bnum

/-- `mark_allocated`. -/
def markAllocated (mem : Mem) (bnum : Nat) : Mem :=
  let a := sb.fbbBn * blocksize + bnum / 8
  putLE mem a 1 (clearBit (getLE mem a 1) bnum)

/-- A loop of `main` that marks the blocks from `b` up to `e`. -/
def markRange (mark : Mem → Nat → Mem) (b e : Nat) (mem : Mem) : Mem :=
  (List.range' b (e - b)).foldl mark mem

/-- `main`, from `mark free blocks` on. -/
def markFreeBlocks (freeb : Nat) (mem : Mem) : Mem :=
  let fbb := sb.fbbBn * blocksize
  let mem := store mem fbb (List.replicate (sb.nblocks / 8) 0xFF)
  let mem := store mem fbb (List.replicate (freeb / 8) 0)
  let mem := markRange (markAllocated sb) (freeb / 8 * 8) freeb mem
  let mem := markRange (markFree sb) (sb.nblocks / 8 * 8) sb.nblocks mem
  markRange (markAllocated sb) sb.journalBn sb.nblocks mem

/-- `main`, from the allocation of `blocks` to the starting point: `boot` is what the boot sector's
file has, if there is one.  Past `nblocks` there are no pointers to initialize. -/
def start (boot : Option (List UInt8)) : Option Image :=
  if sb.dataBn ≤ sb.nblocks then do
    let mem ← bootBlock boot
    return ⟨putSuperblock sb mem, fun b => b < sb.dataBn, sb.dataBn, 2, []⟩
  else none

end Builder

/-- `main` of `mkchickadeefs`, up to the shuffling. -/
def mkfs (o : Options) (boot : Option (List UInt8)) (files : List InputFile) :
    Option (Superblock × Image) := do
  let sb ← layout o
  let im ← start sb boot
  let im ← addFiles sb (o.firstData ≠ 0) files im
  let im ← addRoot sb im
  return (sb, { im with mem := markFreeBlocks sb im.freeb im.mem })

/-- What is written to the output: zeros for a null pointer. -/
def Image.disk (im : Image) : Mem := fun a => if im.present (a / blocksize) then im.mem a else 0

/-! ## The geometry -/

/-- What holds of the superblock if there is room for all blocks. -/
structure Geometry (sb : Superblock) : Prop where
  lt : sb.nblocks < 2 ^ 31
  fbb : sb.fbbBn = 1 + sb.nswap
  inode : sb.inodeBn = sb.fbbBn + nfbb sb.nblocks
  ninodes : sb.ninodes < 2 ^ 31
  data : sb.inodeBn * blocksize + sb.ninodes * inodesize ≤ sb.dataBn * blocksize
  journal : sb.dataBn ≤ sb.journalBn
  le : sb.journalBn ≤ sb.nblocks

variable {sb : Superblock}

/-- The block after the inodes. -/
def dataAfter (inodeBn ninodes : Nat) : Nat :=
  (inodeBn + (BlockAlloc.signExtend ninodes * BlockAlloc.inodesize + blocksize - 1) % 2 ^ 64 /
    blocksize) % 2 ^ 32

/-- A negative number of inodes puts the data before the inodes, and so not at `first_datab`. -/
theorem defaultInodes_lt {o : Options} {inodeBn : Nat} (hbn : inodeBn < 2 ^ 31 + 2 ^ 17)
    (hfirst : o.firstData < 2 ^ 31)
    (hdata : o.firstData ≠ 0 →
    o.firstData = dataAfter inodeBn (BlockAlloc.defaultInodes o inodeBn)) :
    BlockAlloc.defaultInodes o inodeBn < 2 ^ 31 := by
  unfold BlockAlloc.defaultInodes at *
  simp only [BlockAlloc.inodesize, blocksize] at *
  split at hdata
  · rename_i hcase
    rw [if_pos hcase]
    have hdata := hdata hcase.1
    by_contra hge
    unfold dataAfter BlockAlloc.signExtend at hdata
    rw [if_neg hge] at hdata
    unfold BlockAlloc.inodesize blocksize at hdata
    omega
  · rename_i hcase
    rw [if_neg hcase]
    split <;> omega

theorem dataAfter_eq {inodeBn ninodes : Nat} (hbn : inodeBn < 2 ^ 31 + 2 ^ 17)
    (hn : ninodes < 2 ^ 31) : inodeBn * blocksize + ninodes * inodesize ≤
    dataAfter inodeBn ninodes * blocksize ∧
      dataAfter inodeBn ninodes < 2 ^ 31 + 2 ^ 26 := by
  unfold dataAfter BlockAlloc.signExtend BlockAlloc.inodesize inodesize blocksize
  rw [if_pos hn]
  omega

theorem layout_geometry {o : Options} (ho : o.Ok) (h : layout o = some sb)
    (hfit : sb.dataBn ≤ sb.nblocks) : Geometry sb := by
  have hlt := (BlockAlloc.layout_nblocks ho h).2
  obtain ⟨hblocks, hinodes, hswap, hjournal, hfirst⟩ := ho
  unfold layout at h
  dsimp only at h
  generalize hnb : (if o.blocks = 0 then 1024 else o.blocks) = nblocks at h
  obtain ⟨hcheck, h⟩ := Option.ite_none_left_eq_some.mp h
  obtain rfl := Option.some.inj h
  have hnfbb : nfbb nblocks ≤ 2 ^ 16 := by
    unfold nfbb bitsperblock blocksize
    simp only at hlt
    omega
  have hfbb : (1 + o.swap) % 2 ^ 32 = 1 + o.swap := Nat.mod_eq_of_lt (by omega)
  have hino : (1 + o.swap + nfbb nblocks) % 2 ^ 32 = 1 + o.swap + nfbb nblocks :=
    Nat.mod_eq_of_lt (by omega)
  rw [hfbb, hino] at hcheck hfit ⊢
  have hbn : 1 + o.swap + nfbb nblocks < 2 ^ 31 + 2 ^ 17 := by omega
  generalize hi : 1 + o.swap + nfbb nblocks = inodeBn at *
  generalize hnin :
    (if o.inodes = 0 then BlockAlloc.defaultInodes o inodeBn else o.inodes) = ninodes at *
  change (dataAfter inodeBn ninodes + o.journal) % 2 ^ 32 > nblocks ∨
    o.firstData ≠ 0 ∧ o.firstData ≠ dataAfter inodeBn ninodes → False at hcheck
  have hninodes : ninodes < 2 ^ 31 := by
    rw [← hnin]
    split
    · rename_i hz
      rw [if_pos hz] at hnin
      refine defaultInodes_lt hbn hfirst fun hne => ?_
      rw [hnin]
      by_contra hdata
      exact hcheck (.inr ⟨hne, hdata⟩)
    · exact hinodes
  obtain ⟨hdata, hsmall⟩ := dataAfter_eq hbn hninodes
  have hroom : ¬(dataAfter inodeBn ninodes + o.journal) % 2 ^ 32 > nblocks :=
    fun hgt => hcheck (.inl hgt)
  change dataAfter inodeBn ninodes ≤ nblocks at hfit
  simp only at hlt
  have hjournal : dataAfter inodeBn ninodes + o.journal ≤ nblocks := by omega
  refine ⟨hlt, rfl, hi.symm, hninodes, hdata, ?_, ?_⟩
  · change dataAfter inodeBn ninodes ≤ (nblocks + 2 ^ 32 - o.journal) % 2 ^ 32
    omega
  · change (nblocks + 2 ^ 32 - o.journal) % 2 ^ 32 ≤ nblocks
    omega

end PugOS.Mkfs
