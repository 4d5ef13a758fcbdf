import PugOS.ChkFS

/-! # The file system checker

`chickadeefsck` reads the superblock, marks the blocks of the fixed areas, visits the root
directory and all that its entries lead to, block by block, and last scans the inodes it
has not come across.  A pointer into the image is an address of the memory `data`; the
vectors `blocks` and `inodes` are functions of their index, and an index out of range is
`none`, as is a worklist that outlasts its fuel.

Every `eprintf` is recorded as an `Error`.  Warnings are not counted as errors and change
nothing, so `ewprintf`, and `ref_` and `blockidx_`, which are only printed, are left out.
The image is checked as it is: its journal is absent or has been replayed.
-/
namespace PugOS.Fsck
open Bytes Ring
open Journal (blocksize)
open ChkFS (ndirect nindirect maxsize bitsperblock sizeAddr directAddr indirectAddr indirect2Addr
  entryAddr bitSet)

/-! ## Data -/

def inodesize : Nat := 64
def direntsize : Nat := 128
def maxnamelen : Nat := 123
def magic : Nat := 0xFBBFBB003EE9BEEF
def typeRegular : Nat := 1
def typeDirectory : Nat := 2

/-- `blocktype`. -/
inductive BlockType where
  | unused
  | superblock
  | swap
  | fbb
  | inode
  | journal
  | free
  | directory
  | data
  | indirect
  | indirect2
  deriving DecidableEq

/-- A file's name, up to its null byte. -/
abbrev Name : Type := List UInt8

/-- What is reported, with the block, the inode or the entry's address it is about. -/
inductive Error where
  | unexpectedSize
  | tooSmall
  | badMagic
  | badNblocks
  | unexpectedSwapBn
  | tooManySwap
  | unexpectedFbbBn
  | unexpectedInodeBn
  | tooFewInodes
  | unexpectedDataBn
  | dataBnTooLarge
  | unexpectedJournalBn
  | unexpectedNjournal
  | reusingBlock (b : Nat)
  | usedMarkedFree (b : Nat)
  | refersToInodeZero
  | unknownType (inum type : Nat)
  | directoryLinks (inum : Nat)
  | lostInode (inum : Nat)
  | sizeTooBig (inum : Nat)
  | directorySize (inum : Nat)
  | blockOutOfRange (inum b : Nat)
  | emptyName (a : Nat)
  | nameTooLong (a : Nat)
  | nameReserved (a : Nat)
  | reusesName (a : Nat)
  | inodeOutOfRange (a : Nat)
  deriving DecidableEq

/-- A four-byte number as an `int32_t`. -/
def toInt32 (v : Nat) : Int := if v < 2 ^ 31 then v else v - 2 ^ 32

/-- An `int32_t` as a `size_t`. -/
def toSize (i : Int) : Nat := (i % 2 ^ 64).toNat

/-- The superblock. -/
structure Superblock where
  magic : Nat
  nblocks : Nat
  nswap : Nat
  ninodes : Int
  njournal : Nat
  swapBn : Nat
  fbbBn : Nat
  inodeBn : Nat
  dataBn : Nat
  journalBn : Nat

/-- The superblock of an image. -/
def superblock (m : Mem) : Superblock where
  magic := getLE m 512 8
  nblocks := getLE m 520 4
  nswap := getLE m 524 4
  ninodes := toInt32 (getLE m 528 4)
  njournal := getLE m 532 4
  swapBn := getLE m 536 4
  fbbBn := getLE m 540 4
  inodeBn := getLE m 544 4
  dataBn := getLE m 548 4
  journalBn := getLE m 552 4

/-- An image holds all the blocks its superblock speaks of. -/
structure Image where
  size : Nat
  data : Mem
  whole : (superblock data).nblocks * blocksize ≤ size

/-- `inodeinfo`: how often an inode has been visited, and as what. -/
structure InodeInfo where
  visits : Nat
  type : BlockType

/-- What the checker has seen: the tables of blocks and inodes, the queue, and the complaints. -/
structure State where
  data : Mem
  blocks : Nat → BlockType
  inodes : Nat → InodeInfo
  inodeq : List Nat
  /-- `contents_` of the inode that is being visited, while it has one. -/
  contents : Option (List Name)
  errors : List Error

/-- A complaint. -/
def State.eprintf (s : State) (e : Error) : State := { s with errors := e :: s.errors }

/-- The error is reported if the condition holds. -/
def State.eprintfIf (s : State) (c : Bool) (e : Error) : State := if c then s.eprintf e else s

/-! ## Superblock -/

/-- The checks of the superblock, in order, each with what is reported when it fails. -/
def superblockChecks (size : Nat) (sb : Superblock) : List (Bool × Error) :=
  let nfbb := (sb.nblocks + bitsperblock - 1) / bitsperblock
  let inodeperblock := blocksize / inodesize
  let ninodeb := (toSize sb.ninodes + inodeperblock - 1) % 2 ^ 64 / inodeperblock
  [(size % blocksize = 0, .unexpectedSize),
   (blocksize ≤ size, .tooSmall),
   (sb.magic = magic, .badMagic),
   (2 < sb.nblocks ∧ sb.nblocks < 0x10000000, .badNblocks),
   (sb.swapBn = 1, .unexpectedSwapBn),
   ((sb.swapBn + sb.nswap) % 2 ^ 32 ≤ sb.nblocks, .tooManySwap),
   ((sb.swapBn + sb.nswap) % 2 ^ 32 = sb.fbbBn, .unexpectedFbbBn),
   (sb.fbbBn + nfbb = sb.inodeBn, .unexpectedInodeBn),
   (10 ≤ sb.ninodes, .tooFewInodes),
   (sb.inodeBn + ninodeb ≤ sb.dataBn, .unexpectedDataBn),
   (sb.dataBn < sb.nblocks, .dataBnTooLarge),
   (sb.dataBn ≤ sb.journalBn ∧ sb.journalBn ≤ sb.nblocks, .unexpectedJournalBn),
   (sb.njournal ≤ (sb.nblocks + 2 ^ 32 - sb.journalBn) % 2 ^ 32, .unexpectedNjournal)]

/-- What is wrong with the superblock.  An image shorter than a block has none to check. -/
def superblockErrors (size : Nat) (sb : Superblock) : List Error :=
  let checks := superblockChecks size sb
  let checks := if size < blocksize then checks.take 2 else checks
  checks.filterMap fun c => if c.1 then none else some c.2

section Walk
variable (sb : Superblock)

/-! ## Blocks and inodes -/

/-- `blockinfo::visit`. -/
def visitBlock (type : BlockType) (b : Nat) (s : State) : Option State :=
  if b < sb.nblocks then
    if s.blocks b ≠ .unused then some (s.eprintf (.reusingBlock b))
    else
      let free := bitSet (s.data (sb.fbbBn * blocksize + b / 8)).toNat b
      some ({ s with blocks := Function.update s.blocks b type }.eprintfIf free (.usedMarkedFree b))
  else none

/-- `get_inode`: the address of the inode. -/
def inodeAddr (inum : Nat) : Nat := sb.inodeBn * blocksize + inum * inodesize

/-- The type of an inode, as the image has it. -/
def inodeType (m : Mem) (inum : Nat) : Nat := getLE m (inodeAddr sb inum) 4

/-- `in->size`. -/
def inodeSize (m : Mem) (inum : Nat) : Nat := getLE m (sizeAddr (inodeAddr sb inum)) 4

/-- The `type_` an inode of type `t` is given. -/
def kindOf (t : Nat) : BlockType := if t = typeDirectory then .directory else .data

/-- What is known of an inode is set. -/
def State.setInode (s : State) (inum : Nat) (info : InodeInfo) : State :=
  { s with inodes := Function.update s.inodes inum info }

/-- `inodeq.push_back`. -/
def State.push (s : State) (inum : Nat) : State := { s with inodeq := s.inodeq ++ [inum] }

/-- `inodeinfo::visit`. -/
def visitInode (inum : Nat) (s : State) : Option State :=
  if inum < sb.ninodes then
    let visits := ((s.inodes inum).visits + 1) % 2 ^ 32
    let type := (s.inodes inum).type
    if inum = 0 then some ((s.setInode inum ⟨visits, type⟩).eprintf .refersToInodeZero)
    else if visits = 1 then
      let t := inodeType sb s.data inum
      let s := s.setInode inum ⟨visits, kindOf t⟩
      let s := s.eprintfIf (t ≠ typeDirectory ∧ t ≠ typeRegular) (.unknownType inum t)
      some (s.push inum)
    else
      some ((s.setInode inum ⟨visits, type⟩).eprintfIf (type = .directory) (.directoryLinks inum))
  else none

/-! ## Directory entries -/

/-- `strnlen` of the string at address `a`. -/
def strnlen (m : Mem) : Nat → Nat → Nat
  | _, 0 => 0
  | a, n + 1 => if m a = 0 then 0 else strnlen m (a + 1) n + 1

/-- `.`, `..`, or a name with a slash. -/
def reservedName (name : Name) : Bool :=
  name = [46] || name = [46, 46] || name.contains 47

/-- The checks of the name of the entry at `a`: a name without a null byte is cut off. -/
def checkName (a : Nat) (s : State) : State :=
  let namelen := strnlen s.data (a + 4) (maxnamelen + 1)
  if namelen = 0 then s.eprintf (.emptyName a)
  else if namelen > maxnamelen then
    { s.eprintf (.nameTooLong a) with data := Function.update s.data (a + 4 + (namelen - 1)) 0 }
  else s

/-- The name is entered in `contents_`, if it is not there yet. -/
def addName (a : Nat) (name : Name) (s : State) : Option State :=
  match s.contents with
  | none => none
  | some names =>
    some (if name ∈ names then s.eprintf (.reusesName a)
      else { s with contents := some (name :: names) })

/-- A step of `visit_directory_data`, for the entry at `a`. -/
def visitDirent (a : Nat) (s : State) : Option State :=
  let inum := toInt32 (getLE s.data a 4)
  if inum ≠ 0 then
    let namelen := strnlen s.data (a + 4) (maxnamelen + 1)
    let s := checkName a s
    let name := slice s.data (a + 4) namelen
    (addName a name (s.eprintfIf (reservedName name) (.nameReserved a))).bind fun s =>
      if inum < sb.ninodes then
        if 0 ≤ inum then visitInode sb inum.toNat s else none
      else some (s.eprintf (.inodeOutOfRange a))
  else some s

/-- The addresses of the entries in block `b` of a directory, at position `pos` of its
`sz` bytes. -/
def direntAddrs (b pos sz : Nat) : List Nat :=
  ((List.range (blocksize / direntsize)).takeWhile fun i => pos + (i + 1) * direntsize ≤ sz).map
    fun i => b * blocksize + i * direntsize

/-- `visit_directory_data`: the entries of a block. -/
def visitDirectoryData (b pos sz : Nat) (s : State) : Option State :=
  (direntAddrs b pos sz).foldlM (fun s a => visitDirent sb a s) s

/-! ## The blocks of an inode -/

section Inode
variable (inum : Nat)

/-- `visit_data`: a data block, and its entries if it is a directory's. -/
def visitData (b idx sz : Nat) (s : State) : Option State :=
  if b ≠ 0 then
    if b < sb.nblocks then
      (visitBlock sb (s.inodes inum).type b s).bind fun s =>
        if (s.inodes inum).type = .directory then visitDirectoryData sb b (idx * blocksize) sz s
        else some s
    else some (s.eprintf (.blockOutOfRange inum b))
  else some s

/-- `visit_indirect`: an indirect block and the blocks it points to. -/
def visitIndirect (b idx sz : Nat) (s : State) : Option State :=
  if b ≠ 0 then
    if b < sb.nblocks then
      (visitBlock sb .indirect b s).bind fun s =>
        (List.range nindirect).foldlM (fun s i =>
          visitData sb inum (getLE s.data (entryAddr b i) 4) (idx + i) sz s) s
    else some (s.eprintf (.blockOutOfRange inum b))
  else some s

/-- `visit_indirect2`, in the same way. -/
def visitIndirect2 (b idx sz : Nat) (s : State) : Option State :=
  if b ≠ 0 then
    if b < sb.nblocks then
      (visitBlock sb .indirect2 b s).bind fun s =>
        (List.range nindirect).foldlM (fun s i =>
          visitIndirect sb inum (getLE s.data (entryAddr b i) 4) (idx + i * nindirect) sz s) s
    else some (s.eprintf (.blockOutOfRange inum b))
  else some s

/-- The first part of `finish_visit`: the size is checked, and a directory gets its set of
names. -/
def startVisit (sz : Nat) (s : State) : State :=
  let s := s.eprintfIf (maxsize < sz) (.sizeTooBig inum)
  if (s.inodes inum).type = .directory then
    { s with contents := some [] }.eprintfIf (sz % direntsize ≠ 0) (.directorySize inum)
  else s

/-- The pointers of `finish_visit`. -/
def visitPointers (sz : Nat) (s : State) : Option State :=
  let ino := inodeAddr sb inum
  ((List.range ndirect).foldlM (fun s i =>
    visitData sb inum (getLE s.data (directAddr ino i) 4) i sz s) s).bind fun s =>
  (visitIndirect sb inum (getLE s.data (indirectAddr ino) 4) ndirect sz s).bind fun s =>
  visitIndirect2 sb inum (getLE s.data (indirect2Addr ino) 4) (ndirect + nindirect) sz s

/-- `inodeinfo::finish_visit`. -/
def finishVisit (s : State) : Option State :=
  let sz := inodeSize sb s.data inum
  (visitPointers sb inum sz (startVisit inum sz s)).map fun s => { s with contents := none }

end Inode

/-! ## The worklist -/

/-- `clear_inodeq`, which takes `fuel` inodes from the queue at most. -/
def clearInodeq : Nat → State → Option State
  | 0, s => if s.inodeq = [] then some s else none
  | fuel + 1, s =>
    match s.inodeq with
    | [] => some s
    | x :: inodeq => (finishVisit sb x { s with inodeq := inodeq }).bind (clearInodeq fuel)

/-- `inodeinfo::scan`. -/
def scan (fuel inum : Nat) (s : State) : Option State :=
  if (s.inodes inum).visits = 0 then
    if inodeType sb s.data inum ≠ 0 then
      (visitInode sb inum (s.eprintf (.lostInode inum))).bind (clearInodeq sb fuel)
    else some s
  else some s

/-- The values of a loop `for (b = lo; b != hi; ++b)` over block numbers. -/
def blockRange (lo hi : Nat) : List Nat :=
  (List.range ((hi + 2 ^ 32 - lo) % 2 ^ 32)).map fun i => (lo + i) % 2 ^ 32

/-- The fixed areas, with the type of their blocks. -/
def areas : List (BlockType × List Nat) :=
  [(.superblock, [0]), (.swap, blockRange sb.swapBn sb.fbbBn),
   (.fbb, blockRange sb.fbbBn sb.inodeBn), (.inode, blockRange sb.inodeBn sb.dataBn),
   (.journal, blockRange sb.journalBn sb.nblocks)]

/-- The areas of the disk are marked before any inode is visited. -/
def markBlocks (s : State) : Option State :=
  (areas sb).foldlM (fun s area => area.2.foldlM (fun s b => visitBlock sb area.1 b s) s) s

/-- The rest of `main`, for a superblock without errors. -/
def checkInodes (fuel : Nat) (s : State) : Option State :=
  (markBlocks sb s).bind fun s =>
  (visitInode sb 1 s).bind fun s =>
  (clearInodeq sb fuel s).bind fun s =>
  (List.range sb.ninodes.toNat).foldlM (fun s inum => scan sb fuel inum s) s

end Walk

/-- The checker's state at the start. -/
def start (data : Mem) (errors : List Error) : State where
  data := data
  blocks := fun _ => .unused
  inodes := fun _ => ⟨0, .unused⟩
  inodeq := []
  contents := none
  errors := errors

/-- `main`: the state at exit. -/
def fsck (fuel : Nat) (img : Image) : Option State :=
  let sb := superblock img.data
  let errors := superblockErrors img.size sb
  if errors = [] then checkInodes sb fuel (start img.data [])
  else some (start img.data errors)

/-- The number of errors at exit. -/
def State.nerrors (s : State) : Nat := s.errors.length

end PugOS.Fsck
