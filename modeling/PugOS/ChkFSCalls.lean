import PugOS.ChkFSCache
import PugOS.Transition

/-! # File-system calls

The functions of `chkfsstate` that look names up and create files, `vnode_inode::read` and
`chickadeefs_read_file_data`, as programs over the block cache, and the system calls that
are made of them as a machine: calls come one after another, and a step is a part of a call
up to the next place where the call has to keep books on its references.  Between the steps
of a call its `Pc` has what its local variables have.

A system call whose checks of user memory fail does nothing and is left out.  A descriptor
of a file that `sys_open` has created has no reference to the block of its inode, which may
be evicted; a step that uses the pointer after that has no successor, nor has one in which
the kernel faults.
-/
namespace PugOS.ChkFS
open Bytes BlockProg
open Journal (blocksize)

/-! ## Inodes and directories -/

/-- `chkfs::inodesize`. -/
def inodesize : Nat := 64

/-- `chkfs::inodesperblock`. -/
def inodesperblock : Nat := blocksize / inodesize

/-- The size of a `chkfs::dirent`. -/
def direntsize : Nat := 128

/-- `chkfs::type_regular`. -/
def typeRegular : Nat := 1

/-- `ninodes` of the superblock, in the cached block 0. -/
def ninodesAddr : Nat := 512 + 16

/-- `inode_bn` of the superblock. -/
def inodeBnAddr : Nat := 512 + 32

section Inode
variable (ino : Nat)

/-- `type` of the inode at `ino`. -/
def typeAddr : Nat := ino

/-- `nlink` of the inode at `ino`. -/
def nlinkAddr : Nat := ino + 8

end Inode

/-- A 32-bit number as an `inum_t`. -/
def toInum (n : Nat) : Int := if n < 2 ^ 31 then n else (n : Int) - 2 ^ 32

/-- The superblock's `inode_bn` and `ninodes`. -/
def inodeArea : Prog (Nat × Int) := do
  match ← getEntry 0 with
  | none => .fail
  | some sb =>
    let inodeBn ← peek inodeBnAddr 4
    let ninodes ← peek ninodesAddr 4
    putEntry sb
    return (inodeBn, toInum ninodes)

/-- The block with inode `inum`. -/
def inodeBlock (inodeBn inum : Nat) : Nat := (inodeBn + inum / inodesperblock) % 2 ^ 32

/-- `get_inode(inum)`, all but `mref++`. -/
def getInode (inum : Int) : Prog (Option Nat) := do
  let (inodeBn, ninodes) ← inodeArea
  if 0 < inum ∧ inum < ninodes then
    match ← getEntry (inodeBlock inodeBn inum.toNat) with
    | none => return none
    | some e => return some (e * blocksize + inum.toNat % inodesperblock * inodesize)
  else return none

/-- `strcmp(str, name) == 0`, for the string at `a`. -/
def strEq (a : Nat) : List UInt8 → Prog Bool
  | [] => do return (← peek a 1) = 0
  | c :: l => do
    if (← peek a 1) = c.toNat then strEq (a + 1) l else return false

/-- `min(size - off, blocksize)`, on unsigned numbers. -/
def blockBytes (size off : Nat) : Nat := min ((size + 2 ^ 64 - off) % 2 ^ 64) blocksize

/-- The loop over the entries of a directory block, `bsz` bytes of it, from the entry at
offset `o` on: the inode number with the name, or 0. -/
def searchBlock (e bsz : Nat) (name : List UInt8) : Nat → Nat → Prog Nat
  | 0, _ => return 0
  | fuel + 1, o => do
    if o < bsz then
      let inum ← peek (e * blocksize + o) 4
      if inum ≠ 0 then
        if ← strEq (e * blocksize + o + 4) name then return inum
        else searchBlock e bsz name fuel (o + direntsize)
      else searchBlock e bsz name fuel (o + direntsize)
    else return 0

/-- `it.blocknum()`, which is 0 when there is no block. -/
def FileIter.blocknum (it : FileIter) : Prog Nat :=
  match it.dptr with
  | none => return 0
  | some p => peek p 4

/-- `it.find(off).present() && (e = bc.get_disk_entry(it.blocknum()))`. -/
def FileIter.findEntry (it : FileIter) (off : Nat) : Prog (FileIter × Option Nat) := do
  let it ← it.find off
  let bn ← it.blocknum
  if bn ≠ 0 then return (it, ← getEntry bn) else return (it, none)

/-- The number of blocks a file can have, and one more. -/
def maxBlocks : Nat := maxsize / blocksize + 1

/-- The loop of `lookup_inode` over the directory, from offset `diroff` on. -/
def lookupLoop (dirino : Nat) (name : List UInt8) : Nat → FileIter → Nat → Prog (FileIter × Nat)
  | 0, it, _ => return (it, 0)
  | fuel + 1, it, diroff => do
    let (it, e) ← it.findEntry diroff
    match e with
    | none => return (it, 0)
    | some e =>
      let size ← peek (sizeAddr dirino) 4
      let inum ← searchBlock e (blockBytes size diroff) name (blocksize / direntsize) 0
      putEntry e
      if inum ≠ 0 then return (it, inum) else lookupLoop dirino name fuel it (diroff + blocksize)

/-- `lookup_inode(dirino, name)`, all but the `mref++` of its `get_inode`. -/
def lookupInode (dirino : Nat) (name : List UInt8) : Prog (Option Nat) := do
  let (it, inum) ← lookupLoop dirino name maxBlocks (FileIter.mk' dirino) 0
  let ino ← getInode (toInum inum)
  it.release
  return ino

/-- The loop of `find_empty_inode` within the inode block `e`: the first empty inode from
`inum` on, or the one to go on with. -/
def scanInodes (ninodes : Int) (e : Nat) : Nat → Nat → Prog (Except Nat Nat)
  | 0, inum => return .error inum
  | fuel + 1, inum => do
    if inum < ninodes then
      if inum < 2 then scanInodes ninodes e fuel (inum + 1)
      else
        let type ← peek (typeAddr (e * blocksize + inum % inodesperblock * inodesize)) 4
        if type = 0 then return .ok inum else scanInodes ninodes e fuel (inum + 1)
    else return .error inum

/-- The loop of `find_empty_inode` over one inode block, `inum` being its first inode.  The
entry is given back when an empty inode is found, and only then. -/
def findInBlock (inodeBn : Nat) (ninodes : Int) (inum : Nat) : Prog (Except (Nat × Nat) Nat) := do
  match ← getEntry (inodeBlock inodeBn inum) with
  | none => .fail
  | some e =>
    match ← scanInodes ninodes e inodesperblock inum with
    | .ok inum =>
      sully e
      putEntry e
      return .ok inum
    | .error inum => return .error (inum, e)

/-- The loop over the entries of a directory block: the address of one that is not used. -/
def searchEmpty (e bsz : Nat) : Nat → Nat → Prog (Option Nat)
  | 0, _ => return none
  | fuel + 1, o => do
    if o < bsz then
      let inum ← peek (e * blocksize + o) 4
      if inum = 0 then return some (e * blocksize + o) else searchEmpty e bsz fuel (o + direntsize)
    else return none

/-- The loop of `find_empty_direntry`. -/
def findEmptyDirentLoop (dirino : Nat) : Nat → FileIter → Nat → Prog (FileIter × Option Nat)
  | 0, it, _ => return (it, none)
  | fuel + 1, it, diroff => do
    let (it, e) ← it.findEntry diroff
    match e with
    | none => return (it, none)
    | some e =>
      sully e
      let size ← peek (sizeAddr dirino) 4
      let d ← searchEmpty e (blockBytes size diroff) (blocksize / direntsize) 0
      putEntry e
      match d with
      | some d => return (it, some d)
      | none => findEmptyDirentLoop dirino fuel it (diroff + blocksize)

/-- `find_empty_direntry(dirino)`. -/
def findEmptyDirentry (dirino : Nat) : Prog (Option Nat) := do
  let (it, d) ← findEmptyDirentLoop dirino maxBlocks (FileIter.mk' dirino) 0
  it.release
  return d

/-! ## Reading -/

/-- The bytes from `a` on. -/
def peekBytes (a : Nat) : Nat → Prog (List UInt8)
  | 0 => return []
  | n + 1 => do
    let b ← peek a 1
    return UInt8.ofNat b :: (← peekBytes (a + 1) n)

/-- The loop of `vnode_inode::read`, with `sz` bytes to go: the bytes, and the offset. -/
def readLoop (ino : Nat) : Nat → Nat → Nat → Prog (List UInt8 × Nat)
  | 0, _, off => return ([], off)
  | fuel + 1, sz, off => do
    if sz = 0 then return ([], off)
    let blockoff := off / blocksize * blocksize
    match ← getDataBlock ino blockoff with
    | none => return ([], off)
    | some data =>
      let ncopy :=
        if (off + sz) % 2 ^ 64 > blockoff + blocksize then blocksize - off % blocksize else sz
      let size ← peek (sizeAddr ino) 4
      let ncopy := min ncopy ((size + 2 ^ 64 - off) % 2 ^ 64)
      let bytes ← peekBytes (data * blocksize + (off - blockoff)) ncopy
      putEntry data
      if ncopy = 0 then return ([], off)
      let (rest, off) ← readLoop ino fuel (sz - ncopy) (off + ncopy)
      return (bytes ++ rest, off)

/-- `vnode_inode::read(buf, sz, off)`. -/
def read (ino sz off : Nat) : Prog (List UInt8 × Nat) := readLoop ino sz sz off

/-- How many bytes `chickadeefs_read_file_data` copies from a block, at offset `off`. -/
def copyBytes (size sz off : Nat) : Nat :=
  let bsz := blockBytes size (off / blocksize * blocksize)
  let boff := off % blocksize
  if bsz > boff then min (bsz - boff) sz else 0

/-- The loop of `chickadeefs_read_file_data`. -/
def readFileLoop (ino : Nat) : Nat → FileIter → Nat → Nat → Prog (FileIter × List UInt8)
  | 0, it, _, _ => return (it, [])
  | fuel + 1, it, sz, off => do
    if sz = 0 then return (it, [])
    let (it, e) ← it.findEntry off
    match e with
    | none => return (it, [])
    | some e =>
      let size ← peek (sizeAddr ino) 4
      let ncopy := copyBytes size sz off
      let bytes ← peekBytes (e * blocksize + off % blocksize) ncopy
      putEntry e
      if ncopy = 0 then return (it, [])
      let (it, rest) ← readFileLoop ino fuel it (sz - ncopy) (off + ncopy)
      return (it, bytes ++ rest)

/-- `chickadeefs_read_file_data` between the locks of the file. -/
def readFileData (ino sz off : Nat) : Prog (List UInt8) := do
  let (it, bytes) ← readFileLoop ino sz (FileIter.mk' ino) sz off
  it.release
  return bytes

/-! ## Writing, one round at a time -/

/-- The file gets a block at offset `blockEnd`. -/
def extend (blockEnd : Nat) (it : FileIter) : Prog FileIter := do
  let it ← it.find blockEnd
  let newB ← allocateBlock
  assert (newB ≠ E_NOSPC)
  let (r, it) ← it.map newB
  assert (r = 0)
  return it

/-- The end of the block that offset `off` is in. -/
def blockEnd (off : Nat) : Nat := off / blocksize * blocksize + blocksize

/-- What one round of `write` copies: up to the end of the block. -/
def roundBytes (len off : Nat) : Nat :=
  if off + len > blockEnd off then blocksize - off % blocksize else len

/-- The last part of a round: the data are copied, and the file grows. -/
def copyRound (ino data : Nat) (buf : List UInt8) (off : Nat) : Prog Unit := do
  sully data
  storeBytes (data * blocksize + (off - off / blocksize * blocksize))
    (buf.take (roundBytes buf.length off))
  putEntry data
  growSize ino (off + roundBytes buf.length off)

/-! ## The machine -/

/-- `OF_READ`, `OF_WRITE`, `OF_CREATE` and `OF_TRUNC`. -/
structure OpenFlags where
  read : Bool
  write : Bool
  create : Bool
  trunc : Bool
  deriving DecidableEq, Repr

/-- The calls that look a name up in the root directory. -/
inductive Call
  | open (pid : Nat) (path : List UInt8) (flags : OpenFlags)
  | readdiskfile (filename : List UInt8) (sz off : Nat)
  deriving DecidableEq

/-- The name that is looked up. -/
def Call.name : Call → List UInt8
  | .open _ path _ => path
  | .readdiskfile filename _ _ => filename

/-- `memfile::namesize`. -/
def namesize : Nat := 64

/-- `check_string_termination`. -/
def Call.valid : Call → Bool
  | .open _ path _ => path.length < namesize
  | .readdiskfile .. => true

/-- The call makes a file that is not there. -/
def Call.creates : Call → Bool
  | .open _ _ flags => flags.create && flags.write
  | .readdiskfile .. => false

/-- A write under way. -/
structure Write where
  pid : Nat
  fd : Nat
  ino : Nat
  /-- how often the inode's block had been read when the file was opened -/
  gen : Nat
  it : FileIter
  buf : List UInt8
  off : Nat

/-- Where the call that is in progress has got to. -/
inductive Pc
  | idle
  /-- `get_inode(1)` has returned `dir` -/
  | lookup (c : Call) (dir : Nat)
  /-- `sys_open` is about to call `find_empty_inode` -/
  | create (c : Call) (dir : Nat)
  /-- at the head of its loop over the inode blocks, with `e` the block before -/
  | findInode (c : Call) (dir inodeBn : Nat) (ninodes : Int) (inum : Nat) (e : Option Nat)
  /-- it returned `inum` -/
  | createInode (c : Call) (dir inum : Nat)
  /-- inode `inum` is initialized, `find_empty_direntry` comes next -/
  | link (c : Call) (dir ino inum : Nat)
  /-- before `put_inode(ino)` for the new inode -/
  | putNew (c : Call) (dir ino : Nat)
  /-- before `put_inode(dirino)` -/
  | putDir (c : Call) (dir : Nat) (ino : Option Nat) (created : Bool)
  /-- before `sys_open` looks for a descriptor -/
  | install (c : Call) (ino : Nat) (created : Bool)
  /-- before `put_inode(ino)` when there is no memory for the file -/
  | giveUp (ino : Nat) (created : Bool)
  /-- before the read loop of `chickadeefs_read_file_data` -/
  | readFile (ino sz off : Nat)
  /-- before its `put_inode(ino)` -/
  | putFile (ino : Nat)
  /-- at the head of the write loop -/
  | writeGet (w : Write)
  /-- the data block is there -/
  | writeProbe (w : Write) (data : Nat)
  /-- the data go on in the next block, which is `next` -/
  | writeMap (w : Write) (data : Nat) (next : Option Nat)
  /-- the next one is there -/
  | writeCopy (w : Write) (data : Nat)
  /-- the write loop has ended -/
  | writeEnd (w : Write)

/-- An open file: its inode, the generation of the entry that the inode was in, and `off_`,
`readable_` and `writeable_`. -/
structure Descriptor where
  ino : Nat
  gen : Nat
  off : Nat
  readable : Bool
  writeable : Bool
  deriving DecidableEq, Repr

/-- The cache, the descriptors of the processes, and the call in progress. -/
structure State where
  cache : Cache
  /-- by process and number -/
  fds : Nat → Nat → Option Descriptor
  pc : Pc

namespace Cache

/-- `ino->mref++`, unless there is no inode. -/
def refInode (s : Cache) : Option Nat → Cache
  | none => s
  | some ino => { s with mref := Function.update s.mref ino ((s.mref ino + 1) % 2 ^ 32) }

/-- The pointer to an inode is to the buffer its block has now. -/
def live (s : Cache) (ino gen : Nat) : Bool := s.reads (inoEntry ino) = gen

/-- `put_inode(ino)`. -/
def putInode (s : Cache) (ino : Nat) : Option Cache :=
  let mref := BufCache.decRef (s.mref ino)
  let s := { s with mref := Function.update s.mref ino mref }
  if mref = 0 then s.putEntry (inoEntry ino) else some s

end Cache

namespace State

/-- Run a program, and go on with its result. -/
def run {α : Type} (s : State) (p : Prog α) (cs : List Choice) (f : α → Cache → Option State) :
    Option State :=
  (exec Cache.interp p s.cache cs).bind fun r => f r.1 r.2.1

/-- The call goes on at `pc`. -/
def goto (s : State) (cache : Cache) (pc : Pc) : State := { s with cache := cache, pc := pc }

/-- A descriptor is set, or cleared. -/
def setFd (s : State) (pid fd : Nat) (d : Option Descriptor) : State :=
  { s with fds := Function.update s.fds pid (Function.update (s.fds pid) fd d) }

end State

/-- The number of descriptors of a process. -/
def NFDS : Nat := 256

/-- The start of the calls that look a name up: `get_inode(1)`, which must succeed. -/
def beginLookup (s : State) (c : Call) (cs : List Choice) : Option State :=
  match s.pc, c.valid with
  | .idle, true => s.run (getInode 1) cs fun r cache =>
    r.map fun dir => s.goto (cache.refInode r) (.lookup c dir)
  | _, _ => none

/-- `lookup_inode`, and where the call goes on. -/
def finishLookup (s : State) (cs : List Choice) : Option State :=
  match s.pc with
  | .lookup c dir => s.run (lookupInode dir c.name) cs fun r cache =>
    match r with
    | none => some (s.goto cache (if c.creates then .create c dir else .putDir c dir none false))
    | some ino => some (s.goto (cache.refInode r) (.putDir c dir (some ino) false))
  | _ => none

/-- `find_empty_inode` reads the superblock. -/
def beginFind (s : State) (cs : List Choice) : Option State :=
  match s.pc with
  | .create c dir =>
    s.run inodeArea cs fun r cache => some (s.goto cache (.findInode c dir r.1 r.2 0 none))
  | _ => none

/-- One block of `find_empty_inode`. -/
def stepFindInode (s : State) (cs : List Choice) : Option State :=
  match s.pc with
  | .findInode c dir inodeBn ninodes inum _ =>
    if inum < ninodes then
      s.run (findInBlock inodeBn ninodes inum) cs fun r cache =>
        match r with
        | .ok inum => some (s.goto cache (.createInode c dir inum))
        | .error (inum, e) => some (s.goto cache (.findInode c dir inodeBn ninodes inum (some e)))
    else some (s.goto s.cache (.createInode c dir 0))
  | _ => none

/-- What `sys_open` does to a new inode, once it has it. -/
def initInode (ino : Nat) : Prog Unit := do
  sully (inoEntry ino)
  poke (typeAddr ino) 4 typeRegular
  poke (sizeAddr ino) 4 0
  poke (nlinkAddr ino) 4 1
  let dataBn ← allocateBlock
  let (_, it) ← (FileIter.mk' ino).map dataBn
  it.release

/-- `get_inode(ino_num)`, which must succeed, with the choices `cs`, and the rest with `cs'`. -/
def stepCreateInode (s : State) (cs cs' : List Choice) : Option State :=
  match s.pc with
  | .createInode c dir inum => s.run (getInode inum) cs fun r cache =>
    match r with
    | none => none
    | some ino =>
      (s.goto (cache.refInode r) s.pc).run (initInode ino) cs' fun _ cache =>
        some (s.goto cache (.link c dir ino inum))
  | _ => none

/-- The directory entry of the new file. -/
def linkInode (dir inum : Nat) (path : List UInt8) : Prog Unit := do
  sully (inoEntry dir)
  match ← findEmptyDirentry dir with
  | none => .fail
  | some d =>
    storeBytes (d + 4) path
    poke d 4 inum

/-- The new inode is entered in the directory. -/
def stepLink (s : State) (cs : List Choice) : Option State :=
  match s.pc with
  | .link c dir ino inum =>
    s.run (linkInode dir inum c.name) cs fun _ cache => some (s.goto cache (.putNew c dir ino))
  | _ => none

/-- Where a call goes on after `put_inode(dirino)`. -/
def afterDir (c : Call) (ino : Option Nat) (created : Bool) : Pc :=
  match c, ino with
  | _, none => .idle
  | .open .., some ino => .install c ino created
  | .readdiskfile _ sz off, some ino => .readFile ino sz off

/-- The inode a call is about to give to `put_inode`, and where it goes on. -/
def Pc.put : Pc → Option (Nat × Pc)
  | .putNew c dir ino => some (ino, .putDir c dir (some ino) true)
  | .putDir c dir ino created => some (dir, afterDir c ino created)
  | .giveUp ino _ => some (ino, .idle)
  | .putFile ino => some (ino, .idle)
  | _ => none

/-- `put_inode`, wherever a call drops an inode. -/
def stepPut (s : State) : Option State := do
  let (ino, pc) ← s.pc.put
  let cache ← s.cache.putInode ino
  return s.goto cache pc

/-- `ino->size = 0`, under the inode's lock. -/
def truncate (ino : Nat) : Prog Unit := do
  sully (inoEntry ino)
  poke (sizeAddr ino) 4 0

/-- The end of `sys_open`; `file` and `vnode` say which of the two could be allocated.  When
there is a file and something else is lacking, `kdelete(f)` follows the vnode of a file that
has not been given one. -/
def stepInstall (s : State) (file vnode : Bool) : Option State :=
  match s.pc with
  | .install (.open pid _ flags) ino created =>
    match (List.range NFDS).find? fun fd => s.fds pid fd = none, file, vnode with
    | some fd, true, true =>
      let s' :=
        s.setFd pid fd (some ⟨ino, s.cache.reads (inoEntry ino), 0, flags.read, flags.write⟩)
      if flags.trunc && flags.write then s'.run (truncate ino) [] fun _ cache =>
        some (s'.goto cache .idle)
      else some (s'.goto s.cache .idle)
    | _, false, _ => some (s.goto s.cache (.giveUp ino created))
    | _, _, _ => none
  | _ => none

/-- `chickadeefs_read_file_data` copies the file. -/
def stepReadFile (s : State) (cs : List Choice) : Option State :=
  match s.pc with
  | .readFile ino sz off =>
    s.run (readFileData ino sz off) cs fun _ cache => some (s.goto cache (.putFile ino))
  | _ => none

/-- `sys_read`, of a disk file. -/
def sysRead (s : State) (pid fd sz : Nat) (cs : List Choice) : Option State :=
  match s.pc, s.fds pid fd with
  | .idle, some d =>
    if d.readable && sz ≠ 0 && s.cache.live d.ino d.gen then
      s.run (read d.ino sz d.off) cs fun r cache =>
        some ((s.setFd pid fd (some { d with off := r.2 })).goto cache .idle)
    else none
  | _, _ => none

/-- The start of `vnode_inode::write`: `lock_write` marks the inode's block as dirty. -/
def sysWrite (s : State) (pid fd : Nat) (buf : List UInt8) : Option State :=
  match s.pc, s.fds pid fd with
  | .idle, some d =>
    if d.writeable && buf ≠ [] && s.cache.live d.ino d.gen then
      s.run (sully (inoEntry d.ino)) [] fun _ cache =>
        some (s.goto cache (.writeGet ⟨pid, fd, d.ino, d.gen, FileIter.mk' d.ino, buf, d.off⟩))
    else none
  | _, _ => none

/-- `write` gets the block that it writes to, or ends. -/
def stepWriteGet (s : State) (cs : List Choice) : Option State :=
  match s.pc with
  | .writeGet w => do
    guard (s.cache.live w.ino w.gen)
    if w.buf.length = 0 then some (s.goto s.cache (.writeEnd w))
    else s.run (getDataBlock w.ino (w.off / blocksize * blocksize)) cs fun r cache =>
      match r with
      | none => some (s.goto cache (.writeEnd w))
      | some data => some (s.goto cache (.writeProbe w data))
  | _ => none

/-- `write` looks whether the next block is there, if the bytes go on there. -/
def stepWriteProbe (s : State) (cs : List Choice) : Option State :=
  match s.pc with
  | .writeProbe w data => do
    guard (s.cache.live w.ino w.gen)
    if w.off + w.buf.length > blockEnd w.off then
      s.run (getDataBlock w.ino (blockEnd w.off)) cs fun next cache =>
        some (s.goto cache (.writeMap w data next))
    else some (s.goto s.cache (.writeCopy w data))
  | _ => none

/-- `write` maps the next block if it is not. -/
def stepWriteMap (s : State) (cs : List Choice) : Option State :=
  match s.pc with
  | .writeMap w data (some _) => some (s.goto s.cache (.writeCopy w data))
  | .writeMap w data none => do
    guard (s.cache.live w.ino w.gen)
    s.run (extend (blockEnd w.off) w.it) cs fun it cache =>
      some (s.goto cache (.writeCopy { w with it := it } data))
  | _ => none

/-- `write` copies the bytes of one round. -/
def stepWriteCopy (s : State) : Option State :=
  match s.pc with
  | .writeCopy w data => do
    guard (s.cache.live w.ino w.gen)
    s.run (copyRound w.ino data w.buf w.off) [] fun _ cache =>
      let n := roundBytes w.buf.length w.off
      some (s.goto cache (.writeGet { w with buf := w.buf.drop n, off := w.off + n }))
  | _ => none

/-- `write` returns, and the offset of the descriptor moves. -/
def stepWriteEnd (s : State) : Option State :=
  match s.pc with
  | .writeEnd w => s.run w.it.release [] fun _ cache =>
    let d := (s.fds w.pid w.fd).map fun d => { d with off := w.off }
    some ((s.setFd w.pid w.fd d).goto cache .idle)
  | _ => none

/-- `LSEEK_SET`, `LSEEK_CUR` and `LSEEK_END`. -/
inductive Origin
  | set
  | cur
  | end
  deriving DecidableEq, Repr

/-- `sys_lseek`, of a disk file. -/
def sysLseek (s : State) (pid fd : Nat) (off : Int) (origin : Origin) : Option State :=
  match s.pc, s.fds pid fd with
  | .idle, some d => do
    guard (s.cache.live d.ino d.gen)
    let from' : Int := match origin with
      | .set => 0
      | .cur => d.off
      | .end => getLE s.cache.mem (sizeAddr d.ino) 4
    some (s.setFd pid fd (some { d with off := (from' + off).toNat }))
  | _, _ => none

/-- `sys_close`: the vnode is deleted without its destructor, so no inode is put. -/
def sysClose (s : State) (pid fd : Nat) : Option State :=
  match s.pc, s.fds pid fd with
  | .idle, some _ => some (s.setFd pid fd none)
  | _, _ => none

/-- `sys_sync`. -/
def sysSync (s : State) (drop : Bool) : Option State :=
  match s.pc with
  | .idle => some { s with cache := s.cache.sync drop }
  | _ => none

/-- A step of the call in progress, or a call that is a step of its own. -/
inductive Label
  | begin (c : Call) (cs : List Choice)
  | lookup (cs : List Choice)
  | create (cs : List Choice)
  | findInode (cs : List Choice)
  | createInode (cs cs' : List Choice)
  | link (cs : List Choice)
  | put
  | install (file vnode : Bool)
  | readFile (cs : List Choice)
  | read (pid fd sz : Nat) (cs : List Choice)
  | write (pid fd : Nat) (buf : List UInt8)
  | writeGet (cs : List Choice)
  | writeProbe (cs : List Choice)
  | writeMap (cs : List Choice)
  | writeCopy
  | writeEnd
  | lseek (pid fd : Nat) (off : Int) (origin : Origin)
  | close (pid fd : Nat)
  | sync (drop : Bool)

/-- One step. -/
def step (s : State) : Label → Option State
  | .begin c cs => beginLookup s c cs
  | .lookup cs => finishLookup s cs
  | .create cs => beginFind s cs
  | .findInode cs => stepFindInode s cs
  | .createInode cs cs' => stepCreateInode s cs cs'
  | .link cs => stepLink s cs
  | .put => stepPut s
  | .install file vnode => stepInstall s file vnode
  | .readFile cs => stepReadFile s cs
  | .read pid fd sz cs => sysRead s pid fd sz cs
  | .write pid fd buf => sysWrite s pid fd buf
  | .writeGet cs => stepWriteGet s cs
  | .writeProbe cs => stepWriteProbe s cs
  | .writeMap cs => stepWriteMap s cs
  | .writeCopy => stepWriteCopy s
  | .writeEnd => stepWriteEnd s
  | .lseek pid fd off origin => sysLseek s pid fd off origin
  | .close pid fd => sysClose s pid fd
  | .sync drop => sysSync s drop

/-- The kernel has booted. -/
def boot (disk : Mem) : State := ⟨Cache.boot disk, fun _ _ => none, .idle⟩

/-- Runs from boot, on any disk. -/
def machine : Transition.Machine State Label where
  init s := ∃ disk, s = boot disk
  step := step

/-- Runs from a given state. -/
def machineFrom (s₀ : State) : Transition.Machine State Label where
  init s := s = s₀
  step := step

/-! ## Steps -/

section Steps
variable {α : Type} {s s' : State} {cs : List Choice}

/-- A program that is run has a result, and what follows takes it. -/
theorem State.run_some {p : Prog α} {f : α → Cache → Option State} (h : s.run p cs f = some s') :
    ∃ a cache, (∃ l, exec Cache.interp p s.cache cs = some (a, cache, l)) ∧
      f a cache = some s' := by
  obtain ⟨⟨a, cache, l⟩, hr, h⟩ := Option.bind_eq_some_iff.mp h
  exact ⟨a, cache, ⟨l, hr⟩, h⟩

/-- What every program keeps, and counting inodes and `sync` keep. -/
structure Stable (P : Cache → Prop) : Prop where
  program : ∀ {α : Type} (p : Prog α) c cs r, P c → exec Cache.interp p c cs = some r → P r.2.1
  refInode : ∀ c r, P c → P (Cache.refInode c r)
  putInode : ∀ c ino c', P c → Cache.putInode c ino = some c' → P c'
  sync : ∀ c drop, P c → P (Cache.sync c drop)

variable {P : Cache → Prop} (hP : Stable P)
include hP

/-- A program keeps the property. -/
theorem Stable.run {p : Prog α} {f : α → Cache → Option State} (hs : P s.cache)
    (h : s.run p cs f = some s') : ∃ a cache, P cache ∧ f a cache = some s' := by
  obtain ⟨a, cache, ⟨l, hr⟩, h⟩ := State.run_some h
  exact ⟨a, cache, hP.program p _ _ _ hs hr, h⟩

/-- `get_inode(1)` counts a reference to the root directory. -/
theorem kept_begin {c : Call} (hs : P s.cache) (h : beginLookup s c cs = some s') : P s'.cache := by
  unfold beginLookup at h
  split at h
  · obtain ⟨r, cache, hc, h⟩ := hP.run hs h
    cases r with
    | none => cases h
    | some dir =>
      obtain rfl := Option.some.inj h
      exact hP.refInode cache (some dir) hc
  · cases h

/-- The lookup counts one to the file. -/
theorem kept_lookup (hs : P s.cache) (h : finishLookup s cs = some s') : P s'.cache := by
  unfold finishLookup at h
  split at h
  · obtain ⟨r, cache, hc, h⟩ := hP.run hs h
    cases r with
    | none =>
      obtain rfl := Option.some.inj h
      exact hc
    | some ino =>
      obtain rfl := Option.some.inj h
      exact hP.refInode cache (some ino) hc
  · cases h

/-- Reading the superblock counts no inode. -/
theorem kept_create (hs : P s.cache) (h : beginFind s cs = some s') : P s'.cache := by
  unfold beginFind at h
  split at h
  · obtain ⟨r, cache, hc, h⟩ := hP.run hs h
    obtain rfl := Option.some.inj h
    exact hc
  · cases h

/-- Nor does the search for an empty inode. -/
theorem kept_findInode (hs : P s.cache) (h : stepFindInode s cs = some s') : P s'.cache := by
  unfold stepFindInode at h
  split at h
  · split at h
    · obtain ⟨r, cache, hc, h⟩ := hP.run hs h
      cases r with
      | ok inum =>
        obtain rfl := Option.some.inj h
        exact hc
      | error r =>
        obtain rfl := Option.some.inj h
        exact hc
    · obtain rfl := Option.some.inj h
      exact hs
  · cases h

/-- The new inode is counted, and filled in. -/
theorem kept_createInode {cs' : List Choice} (hs : P s.cache)
    (h : stepCreateInode s cs cs' = some s') : P s'.cache := by
  unfold stepCreateInode at h
  split at h
  · obtain ⟨r, cache, hc, h⟩ := hP.run hs h
    cases r with
    | none => cases h
    | some ino =>
      obtain ⟨_, cache', hc', h⟩ := hP.run (hP.refInode cache (some ino) hc) h
      obtain rfl := Option.some.inj h
      exact hc'
  · cases h

/-- The directory is written to. -/
theorem kept_link (hs : P s.cache) (h : stepLink s cs = some s') : P s'.cache := by
  unfold stepLink at h
  split at h
  · obtain ⟨r, cache, hc, h⟩ := hP.run hs h
    obtain rfl := Option.some.inj h
    exact hc
  · cases h

/-- A reference is dropped. -/
theorem kept_put (hs : P s.cache) (h : stepPut s = some s') : P s'.cache := by
  unfold stepPut at h
  obtain ⟨⟨ino, pc⟩, -, h⟩ := Option.bind_eq_some_iff.mp h
  obtain ⟨cache, hc, h⟩ := Option.bind_eq_some_iff.mp h
  obtain rfl := Option.some.inj h
  exact hP.putInode _ ino _ hs hc

/-- The size may be set to 0. -/
theorem kept_install {file vnode : Bool} (hs : P s.cache) (h : stepInstall s file vnode = some s') :
    P s'.cache := by
  unfold stepInstall at h
  split at h
  · split at h
    · dsimp only at h
      split at h
      · obtain ⟨r, cache, hc, h⟩ := hP.run (s := s.setFd _ _ _) hs h
        obtain rfl := Option.some.inj h
        exact hc
      · obtain rfl := Option.some.inj h
        exact hs
    · obtain rfl := Option.some.inj h
      exact hs
    · cases h
  · cases h

/-- A file is read. -/
theorem kept_readFile (hs : P s.cache) (h : stepReadFile s cs = some s') : P s'.cache := by
  unfold stepReadFile at h
  split at h
  · obtain ⟨r, cache, hc, h⟩ := hP.run hs h
    obtain rfl := Option.some.inj h
    exact hc
  · cases h

/-- A descriptor is read from. -/
theorem kept_read {pid fd sz : Nat} (hs : P s.cache) (h : sysRead s pid fd sz cs = some s') :
    P s'.cache := by
  unfold sysRead at h
  split at h
  · split at h
    · obtain ⟨r, cache, hc, h⟩ := hP.run hs h
      obtain rfl := Option.some.inj h
      exact hc
    · cases h
  · cases h

/-- A write begins. -/
theorem kept_write {pid fd : Nat} {buf : List UInt8} (hs : P s.cache)
    (h : sysWrite s pid fd buf = some s') : P s'.cache := by
  unfold sysWrite at h
  split at h
  · split at h
    · obtain ⟨r, cache, hc, h⟩ := hP.run hs h
      obtain rfl := Option.some.inj h
      exact hc
    · cases h
  · cases h

/-- It gets a block. -/
theorem kept_writeGet (hs : P s.cache) (h : stepWriteGet s cs = some s') : P s'.cache := by
  unfold stepWriteGet at h
  split at h
  · obtain ⟨-, h⟩ := BufCache.of_guard h
    split at h
    · obtain rfl := Option.some.inj h
      exact hs
    · obtain ⟨r, cache, hc, h⟩ := hP.run hs h
      cases r with
      | none =>
        obtain rfl := Option.some.inj h
        exact hc
      | some data =>
        obtain rfl := Option.some.inj h
        exact hc
  · cases h

/-- It looks for the next one. -/
theorem kept_writeProbe (hs : P s.cache) (h : stepWriteProbe s cs = some s') : P s'.cache := by
  unfold stepWriteProbe at h
  split at h
  · obtain ⟨-, h⟩ := BufCache.of_guard h
    split at h
    · obtain ⟨r, cache, hc, h⟩ := hP.run hs h
      obtain rfl := Option.some.inj h
      exact hc
    · obtain rfl := Option.some.inj h
      exact hs
  · cases h

/-- It maps the next one. -/
theorem kept_writeMap (hs : P s.cache) (h : stepWriteMap s cs = some s') : P s'.cache := by
  unfold stepWriteMap at h
  split at h
  · obtain rfl := Option.some.inj h
    exact hs
  · obtain ⟨-, h⟩ := BufCache.of_guard h
    obtain ⟨r, cache, hc, h⟩ := hP.run hs h
    obtain rfl := Option.some.inj h
    exact hc
  · cases h

/-- It copies bytes. -/
theorem kept_writeCopy (hs : P s.cache) (h : stepWriteCopy s = some s') : P s'.cache := by
  unfold stepWriteCopy at h
  split at h
  · obtain ⟨-, h⟩ := BufCache.of_guard h
    obtain ⟨r, cache, hc, h⟩ := hP.run hs h
    obtain rfl := Option.some.inj h
    exact hc
  · cases h

/-- It ends. -/
theorem kept_writeEnd (hs : P s.cache) (h : stepWriteEnd s = some s') : P s'.cache := by
  unfold stepWriteEnd at h
  split at h
  · obtain ⟨r, cache, hc, h⟩ := hP.run hs h
    obtain rfl := Option.some.inj h
    exact hc
  · cases h

omit hP in
/-- An offset is not in the cache. -/
theorem kept_lseek {pid fd : Nat} {off : Int} {origin : Origin} (hs : P s.cache)
    (h : sysLseek s pid fd off origin = some s') : P s'.cache := by
  unfold sysLseek at h
  split at h
  · obtain ⟨-, h⟩ := BufCache.of_guard h
    obtain rfl := Option.some.inj h
    exact hs
  · cases h

omit hP in
/-- Nor is a descriptor. -/
theorem kept_close {pid fd : Nat} (hs : P s.cache) (h : sysClose s pid fd = some s') :
    P s'.cache := by
  unfold sysClose at h
  split at h
  · obtain rfl := Option.some.inj h
    exact hs
  · cases h

/-- `sync` writes the dirty entries back, and may drop the unused ones. -/
theorem kept_sync {drop : Bool} (hs : P s.cache) (h : sysSync s drop = some s') : P s'.cache := by
  unfold sysSync at h
  split at h
  · obtain rfl := Option.some.inj h
    exact hP.sync _ drop hs
  · cases h

/-- It is kept by every step. -/
theorem Stable.step {l : Label} (hs : P s.cache) (h : ChkFS.step s l = some s') : P s'.cache := by
  cases l with
  | begin c cs => exact kept_begin hP hs h
  | lookup cs => exact kept_lookup hP hs h
  | create cs => exact kept_create hP hs h
  | findInode cs => exact kept_findInode hP hs h
  | createInode cs cs' => exact kept_createInode hP hs h
  | link cs => exact kept_link hP hs h
  | put => exact kept_put hP hs h
  | install file vnode => exact kept_install hP hs h
  | readFile cs => exact kept_readFile hP hs h
  | read pid fd sz cs => exact kept_read hP hs h
  | write pid fd buf => exact kept_write hP hs h
  | writeGet cs => exact kept_writeGet hP hs h
  | writeProbe cs => exact kept_writeProbe hP hs h
  | writeMap cs => exact kept_writeMap hP hs h
  | writeCopy => exact kept_writeCopy hP hs h
  | writeEnd => exact kept_writeEnd hP hs h
  | lseek pid fd off origin => exact kept_lseek hs h
  | close pid fd => exact kept_close hs h
  | sync drop => exact kept_sync hP hs h

end Steps

end PugOS.ChkFS
