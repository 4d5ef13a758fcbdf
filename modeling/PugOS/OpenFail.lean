import PugOS.ChkFSRead
import PugOS.ChkFSFail

/-! # A creation that fails

`sys_open` for a file that is not there takes an inode, a block, a directory entry, a descriptor and
memory, one after another. It is run here on the contents of the blocks, with a choice for each
load.

A creation that cannot be completed is not taken back: it leaves the file system as it was, with an
error, in no case; there is one that does all it should exactly when nothing was lacking
(`open_undone_iff`).
-/
namespace PugOS.ChkFS
open Bytes Ring BlockProg
open Journal (blocksize SameBlock)

/-! ## The call -/

/-- The loop of `find_empty_inode` over the inode blocks, from the block of inode `inum` on. -/
def findEmptyLoop (inodeBn : Nat) (ninodes : Int) : Nat → Nat → Prog Nat
  | 0, _ => return 0
  | fuel + 1, inum => do
    if inum < ninodes then
      match ← findInBlock inodeBn ninodes inum with
      | .ok inum => return inum
      | .error (inum, _) => findEmptyLoop inodeBn ninodes fuel inum
    else return 0

/-- `find_empty_inode()`. -/
def findEmptyInode : Prog Nat := do
  let (inodeBn, ninodes) ← inodeArea
  findEmptyLoop inodeBn ninodes ninodes.toNat 0

/-- The part of `sys_open` that makes a new file, all but the references to inodes: the inode. -/
def createFile (dir : Nat) (path : List UInt8) : Prog Nat := do
  let inum ← findEmptyInode
  match ← getInode inum with
  | none => .fail
  | some ino =>
    initInode ino
    linkInode dir inum path
    return ino

/-- `get_inode(1)`, which must succeed, and `lookup_inode`. -/
def lookupPath (path : List UInt8) : Prog (Nat × Option Nat) := do
  match ← getInode 1 with
  | none => .fail
  | some dir => return (dir, ← lookupInode dir path)

namespace Errno

/-- The error codes of `sys_open`. -/
def E_NOENT : Int := -2
def E_NOMEM : Int := -12
def E_INVAL : Int := -22
def E_NFILE : Int := -23

end Errno

/-- What a descriptor is for. -/
structure OpenFile where
  ino : Nat
  off : Nat
  readable : Bool
  writeable : Bool
  deriving DecidableEq

/-- `fds_`. -/
abbrev FdTable : Type := Nat → Option OpenFile

/-- The end of `sys_open`, where `file` and `vnode` say whether `knew` has memory for them: the
result and the table.  A file that was made and then lacks a descriptor or its vnode is deleted
again, and `file::~file` follows the `vnode_` it never got. -/
def installFile (flags : OpenFlags) (fds : FdTable) (file vnode : Bool) (ino : Nat) :
    Prog (Int × FdTable) := do
  match (List.range NFDS).find? fun fd => fds fd = none, file, vnode with
  | some fd, true, true =>
    if flags.trunc && flags.write then truncate ino
    return (fd, Function.update fds fd (some ⟨ino, 0, flags.read, flags.write⟩))
  | none, false, _ => return (Errno.E_NFILE, fds)
  | some _, false, _ => return (Errno.E_NOMEM, fds)
  | none, true, _ | some _, true, false => .fail

/-- `sys_open(path, flags)`. -/
def sysOpen (path : List UInt8) (flags : OpenFlags) (fds : FdTable) (file vnode : Bool) :
    Prog (Int × FdTable) := do
  if path.length < namesize then
    match ← lookupPath path with
    | (_, some ino) => installFile flags fds file vnode ino
    | (dir, none) =>
      if flags.create && flags.write then
        let ino ← createFile dir path
        installFile flags fds file vnode ino
      else return (Errno.E_NOENT, fds)
  else return (Errno.E_INVAL, fds)

/-! ## Inodes and entries -/

section Layout
variable (m : Mem)

/-- `inode_bn` of the superblock. -/
def inodeBn : Nat := getLE m inodeBnAddr 4

/-- `ninodes` of the superblock. -/
def ninodes : Int := toInum (getLE m ninodesAddr 4)

/-- `nblocks` of the superblock. -/
def nblocks : Nat := getLE m nblocksAddr 4

/-- Where inode `i` is. -/
def inodeAddr (i : Nat) : Nat :=
  inodeBlock (inodeBn m) i * blocksize + i % inodesperblock * inodesize

/-- The inode is for a new file. -/
def FreeInode (i : Nat) : Prop := 2 ≤ i ∧ i < ninodes m ∧ getLE m (typeAddr (inodeAddr m i)) 4 = 0

/-- Where entry `i` of block `bi` of the directory is. -/
def direntAddr (dir bi i : Nat) : Nat := dataVal m dir bi * blocksize + i * direntsize

/-- The entry is for a new name: no block is missing before it, and it is in the directory. -/
structure EmptyEntry (dir bi i : Nat) : Prop where
  mapped : ∀ bj ≤ bi, dataVal m dir bj ≠ 0
  lt : bi < maxsize / blocksize
  inside : i * direntsize < blockBytes (fileSize m dir) (bi * blocksize)
  empty : getLE m (direntAddr m dir bi i) 4 = 0

/-- The superblock, the bitmap, the inodes and the directory's blocks are apart. -/
structure Layout : Prop where
  nblocks : nblocks m ≤ E_NOSPC
  fbb : fbbBn m ≠ 0
  inode : ∀ i : Nat, i < ninodes m → inodeBlock (inodeBn m) i ≠ 0 ∧
    inodeBlock (inodeBn m) i ≠ fbbBn m
  directory : ∀ s : Slot, s.Ok → val m (inodeAddr m 1) s ≠ 0 → val m (inodeAddr m 1) s ≠ fbbBn m ∧
    ∀ i : Nat, i < ninodes m → val m (inodeAddr m 1) s ≠ inodeBlock (inodeBn m) i

/-- No pointer of an inode is to a block that there is not. -/
def PointersOk : Prop :=
  ∀ i : Nat, i < ninodes m → ∀ k < ndirect + 2, getLE m (directAddr (inodeAddr m i) k) 4 < nblocks m

end Layout

/-- The inodes, the free blocks and the directory are the same. -/
structure Unchanged (m m' : Mem) : Prop where
  inode : ∀ i : Nat, i < ninodes m → ∀ k < inodesize, m' (inodeAddr m i + k) = m (inodeAddr m i + k)
  bitmap : ∀ b, isFree m' b = isFree m b
  directory : ∀ bi < maxsize / blocksize, dataVal m (inodeAddr m 1) bi ≠ 0 →
    SameBlock m' m (dataVal m (inodeAddr m 1) bi)

/-- No file has the name. -/
def Absent (m : Mem) (path : List UInt8) : Prop :=
  ∃ dir, view (lookupPath path) m = some ((dir, none), m)

/-- The call gives a descriptor, or an error and all is as before, and the pointers of the inodes
are to blocks. -/
def OpensOrUndoes (m : Mem) (path : List UInt8) (flags : OpenFlags) (fds : FdTable)
    (file vnode : Bool) (cs : List Bool) :
    Prop :=
  ∃ r fds' m' cs', attempt (sysOpen path flags fds file vnode) m cs = some ((r, fds'), m', cs') ∧
    (0 ≤ r ∨ (r < 0 ∧ fds' = fds ∧ Unchanged m m')) ∧ PointersOk m'

/-- The cache has memory for the call: the lookup is answered, and no load of the creation is
refused. -/
def CacheServes (m : Mem) (path : List UInt8) (cs : List Bool) : Prop :=
  ∃ r, attempt (lookupPath path) m cs = some r ∧ refused (createFile r.1.1 path) m r.2.2 = false

/-- Nothing that a new file needs is lacking. -/
structure Available (m : Mem) (path : List UInt8) (fds : FdTable) (file vnode : Bool)
    (cs : List Bool) : Prop where
  cache : CacheServes m path cs
  inode : ∃ i, FreeInode m i
  block : ∃ b, isFree m b = true
  entry : ∃ bi i, EmptyEntry m (inodeAddr m 1) bi i
  descriptor : ∃ fd < NFDS, fds fd = none
  memory : file = true ∧ vnode = true


/-! ## What the searches find -/

section Searches
variable {m : Mem} {fuel inum : Nat}

theorem view_inodeArea (m : Mem) : view inodeArea m = some ((inodeBn m, ninodes m), m) := rfl

/-- **`get_inode`**, when no block is refused. -/
theorem view_getInode (m : Mem) (inum : Nat) : view (getInode inum) m =
    some (if 0 < inum ∧ inum < ninodes m then some (inodeAddr m inum) else none, m) := by
  unfold getInode
  rw [view_bind, view_inodeArea, Option.bind_some]
  by_cases h : 0 < inum ∧ (inum : Int) < ninodes m
  · have hint : (0 : Int) < inum ∧ (inum : Int) < ninodes m := ⟨Int.natCast_pos.mpr h.1, h.2⟩
    rw [if_pos h]
    dsimp only
    rw [if_pos hint]
    rfl
  · have hint : ¬ ((0 : Int) < inum ∧ (inum : Int) < ninodes m) :=
      fun hc => h ⟨Int.natCast_pos.mp hc.1, hc.2⟩
    rw [if_neg h]
    dsimp only
    rw [if_neg hint]
    rfl

/-- The scan of a block from inode `inum` on finds the first that is for a new file, or none of
those it passes is. -/
theorem view_scanInodes {e : Nat} (h : ∀ i, inum ≤ i → i < inum + fuel → typeAddr (inodeAddr m i) =
      typeAddr (e * blocksize + i % inodesperblock * inodesize)) :
    (∃ i, FreeInode m i ∧ view (scanInodes (ninodes m) e fuel inum) m = some (.ok i, m)) ∨
      ∃ i, view (scanInodes (ninodes m) e fuel inum) m = some (.error i, m) ∧
        (i = inum + fuel ∨ ninodes m ≤ i) ∧ ∀ j, inum ≤ j → j < i → ¬ FreeInode m j := by
  induction fuel generalizing inum with
  | zero => exact .inr ⟨inum, rfl, .inl rfl, fun j h₁ h₂ => absurd h₁ (Nat.not_le.mpr h₂)⟩
  | succ fuel ih =>
    have hrest := @ih (inum + 1) fun i h₁ h₂ => h i (by omega) (by omega)
    -- an inode that is passed
    have hpass : ¬ FreeInode m inum → (∃ i, FreeInode m i ∧
        view (scanInodes (ninodes m) e fuel (inum + 1)) m = some (.ok i, m)) ∨
        ∃ i, view (scanInodes (ninodes m) e fuel (inum + 1)) m = some (.error i, m) ∧
          (i = inum + (fuel + 1) ∨ ninodes m ≤ i) ∧ ∀ j, inum ≤ j → j < i → ¬ FreeInode m j := by
      intro hne
      rcases hrest with hok | ⟨i, hrun, hi, hnone⟩
      · exact .inl hok
      · refine .inr ⟨i, hrun, hi.imp_left fun hi => by omega, fun j h₁ h₂ => ?_⟩
        rcases Nat.lt_or_eq_of_le h₁ with hlt | rfl
        · exact hnone j hlt h₂
        · exact hne
    unfold scanInodes
    by_cases hn : (inum : Int) < ninodes m
    · rw [if_pos hn]
      by_cases h2 : inum < 2
      · rw [if_pos h2]
        exact hpass fun hf => absurd hf.1 (Nat.not_le.mpr h2)
      · rw [if_neg h2, view_bind, view_peek, Option.bind_some, ← h inum (Nat.le_refl _) (by omega)]
        by_cases ht : getLE m (typeAddr (inodeAddr m inum)) 4 = 0
        · dsimp only
          rw [if_pos ht]
          exact .inl ⟨inum, ⟨Nat.not_lt.mp h2, hn, ht⟩, rfl⟩
        · dsimp only
          rw [if_neg ht]
          exact hpass fun hf => ht hf.2.2
    · rw [if_neg hn]
      exact .inr ⟨inum, rfl, .inr (Int.not_lt.mp hn), fun j h₁ h₂ => absurd h₁ (Nat.not_le.mpr h₂)⟩

theorem view_findInBlock (hinum : inum % inodesperblock = 0) :
    (∃ i, FreeInode m i ∧ view (findInBlock (inodeBn m) (ninodes m) inum) m = some (.ok i, m)) ∨
      ∃ i, view (findInBlock (inodeBn m) (ninodes m) inum) m =
          some (.error (i, inodeBlock (inodeBn m) inum), m) ∧
        (i = inum + inodesperblock ∨ ninodes m ≤ i) ∧ ∀ j, inum ≤ j → j < i → ¬ FreeInode m j := by
  have haddr : ∀ i, inum ≤ i → i < inum + inodesperblock → typeAddr (inodeAddr m i) =
      typeAddr (inodeBlock (inodeBn m) inum * blocksize + i % inodesperblock * inodesize) := by
    intro i h₁ h₂
    have hdiv : i / inodesperblock = inum / inodesperblock := by
      unfold inodesperblock blocksize inodesize at *
      omega
    unfold inodeAddr inodeBlock
    rw [hdiv]
  unfold findInBlock
  rw [view_bind, view_getEntry, Option.bind_some]
  dsimp only
  rw [view_bind]
  rcases view_scanInodes haddr with ⟨i, hfree, hrun⟩ | ⟨i, hrun, hi, hnone⟩
  · exact .inl ⟨i, hfree, by rw [hrun]; rfl⟩
  · exact .inr ⟨i, by rw [hrun]; rfl, hi, hnone⟩

/-- **`find_empty_inode`** finds an inode for a new file, or there is none. -/
theorem view_findEmptyLoop (hinum : inum % inodesperblock = 0) (hfuel : ninodes m ≤ inum + fuel) :
    (∃ i, FreeInode m i ∧ view (findEmptyLoop (inodeBn m) (ninodes m) fuel inum) m = some (i, m)) ∨
      (view (findEmptyLoop (inodeBn m) (ninodes m) fuel inum) m = some (0, m) ∧ ∀ j, inum ≤ j →
        ¬ FreeInode m j) := by
  induction fuel generalizing inum with
  | zero =>
    refine .inr ⟨rfl, fun j hj hf => ?_⟩
    have := hf.2.1
    omega
  | succ fuel ih =>
    unfold findEmptyLoop
    by_cases hn : (inum : Int) < ninodes m
    · rw [if_pos hn, view_bind]
      rcases view_findInBlock hinum with ⟨i, hfree, hrun⟩ | ⟨i, hrun, hi, hnone⟩
      · rw [hrun]
        exact .inl ⟨i, hfree, rfl⟩
      · rw [hrun, Option.bind_some]
        dsimp only
        by_cases hend : ninodes m ≤ i
        · -- the last block
          have hstop : view (findEmptyLoop (inodeBn m) (ninodes m) fuel i) m = some (0, m) := by
            cases fuel with
            | zero => rfl
            | succ fuel =>
              unfold findEmptyLoop
              rw [if_neg (Int.not_lt.mpr hend)]
              rfl
          refine .inr ⟨hstop, fun j hj hf => ?_⟩
          have hlt := hf.2.1
          exact hnone j hj (by omega) hf
        · obtain rfl := hi.resolve_right hend
          have hmod : (inum + inodesperblock) % inodesperblock = 0 := by
            rw [Nat.add_mod_right, hinum]
          have hle : ninodes m ≤ ((inum + inodesperblock : Nat) : Int) + fuel := by
            have hpos : 1 ≤ inodesperblock := by decide
            push_cast at hfuel ⊢
            omega
          rcases ih hmod hle with hok | ⟨hrun', hnone'⟩
          · exact .inl hok
          · refine .inr ⟨hrun', fun j hj => ?_⟩
            by_cases hlt : j < inum + inodesperblock
            · exact hnone j hj hlt
            · exact hnone' j (Nat.not_lt.mp hlt)
    · rw [if_neg hn]
      refine .inr ⟨rfl, fun j hj hf => ?_⟩
      have := hf.2.1
      omega

theorem view_findEmptyInode (m : Mem) : (∃ i, FreeInode m i ∧ view findEmptyInode m = some (i, m)) ∨
    (view findEmptyInode m = some (0, m) ∧ ∀ i, ¬ FreeInode m i) := by
  unfold findEmptyInode
  rw [view_bind, view_inodeArea, Option.bind_some]
  have hfuel : ninodes m ≤ ((0 : Nat) : Int) + (ninodes m).toNat := by omega
  rcases view_findEmptyLoop (Nat.zero_mod inodesperblock) hfuel with hok | ⟨hrun, hnone⟩
  · exact .inl hok
  · exact .inr ⟨hrun, fun i => hnone i (Nat.zero_le i)⟩

/-- The search of a block finds an entry that is not used, or there is none. -/
theorem view_searchEmpty {e bsz o : Nat} :
    (∃ i, o + i * direntsize < bsz ∧ getLE m (e * blocksize + (o + i * direntsize)) 4 = 0 ∧
        view (searchEmpty e bsz fuel o) m = some (some (e * blocksize + (o + i * direntsize)), m)) ∨
      (view (searchEmpty e bsz fuel o) m = some (none, m) ∧
        ∀ i < fuel, o + i * direntsize < bsz →
        getLE m (e * blocksize + (o + i * direntsize)) 4 ≠ 0) := by
  induction fuel generalizing o with
  | zero => exact .inr ⟨rfl, fun i hi => absurd hi (Nat.not_lt_zero i)⟩
  | succ fuel ih =>
    unfold searchEmpty
    by_cases ho : o < bsz
    · rw [if_pos ho, view_bind, view_peek, Option.bind_some]
      dsimp only
      by_cases hz : getLE m (e * blocksize + o) 4 = 0
      · rw [if_pos hz]
        exact .inl ⟨0, by omega, by rwa [Nat.zero_mul, Nat.add_zero],
          by rw [Nat.zero_mul, Nat.add_zero]; rfl⟩
      · rw [if_neg hz]
        have hstep : ∀ i, o + direntsize + i * direntsize = o + (i + 1) * direntsize := by
          intro i
          rw [Nat.succ_mul]
          omega
        rcases @ih (o + direntsize) with ⟨i, hlt, hzero, hrun⟩ | ⟨hrun, hnone⟩
        · rw [hstep] at hlt hzero hrun
          exact .inl ⟨i + 1, hlt, hzero, hrun⟩
        · refine .inr ⟨hrun, fun i hi hlt => ?_⟩
          cases i with
          | zero => rwa [Nat.zero_mul, Nat.add_zero]
          | succ i =>
            rw [← hstep] at hlt ⊢
            exact hnone i (Nat.lt_of_succ_lt_succ hi) hlt
    · rw [if_neg ho]
      exact .inr ⟨rfl, fun i _ hlt => absurd (Nat.lt_of_le_of_lt (Nat.le_add_right o _) hlt) ho⟩

/-- Past the largest offset there is no pointer. -/
theorem view_find_past {it it' : FileIter} {m' : Mem}
    (h : view (it.find maxsize) m = some (it', m')) : it'.dptr = none := by
  have hmin : min maxsize maxsize / blocksize = maxsize / blocksize := by rw [Nat.min_self]
  unfold FileIter.find at h
  rw [hmin, view_bind] at h
  obtain ⟨⟨it₁, m₁⟩, -, h⟩ := Option.bind_eq_some_iff.mp h
  rw [view_bind] at h
  obtain ⟨⟨it₂, m₂⟩, h₂, h⟩ := Option.bind_eq_some_iff.mp h
  have hnone : it₂.dptr = none := by
    unfold FileIter.loadIndirect2 at h₂
    split at h₂
    · rw [view_bind] at h₂
      obtain ⟨r, -, h₂⟩ := Option.bind_eq_some_iff.mp h₂
      cases h₂
      rfl
    · cases h₂
      rfl
  dsimp only at h
  split at h
  · cases h
    exact hnone
  · rw [view_bind] at h
    obtain ⟨⟨it₃, m₃⟩, h₃, h⟩ := Option.bind_eq_some_iff.mp h
    have hnone₃ : it₃.dptr = none := by
      unfold FileIter.loadIndirect at h₃
      split at h₃
      · split at h₃
        · cases h₃
        · rw [view_bind] at h₃
          obtain ⟨r, -, h₃⟩ := Option.bind_eq_some_iff.mp h₃
          cases h₃
          exact hnone
      · cases h₃
        exact hnone
    dsimp only at h
    split at h
    · cases h
      exact hnone₃
    · -- the assertion of `bi_direct_index` fails
      rw [view_bind] at h
      obtain ⟨r, hassert, -⟩ := Option.bind_eq_some_iff.mp h
      cases hassert

theorem view_findEntry_past {it it' : FileIter} {e : Option Nat} {m' : Mem}
    (h : view (it.findEntry maxsize) m = some ((it', e), m')) : e = none := by
  unfold FileIter.findEntry at h
  rw [view_bind] at h
  obtain ⟨⟨it₁, m₁⟩, h₁, h⟩ := Option.bind_eq_some_iff.mp h
  have hdptr := view_find_past h₁
  have hbn : it₁.blocknum = pure 0 := by
    unfold FileIter.blocknum
    rw [hdptr]
  dsimp only at h
  rw [hbn, view_bind, view_pure, Option.bind_some] at h
  dsimp only at h
  rw [if_neg (not_not.mpr rfl)] at h
  cases h
  rfl

/-- The loop of `find_empty_direntry` from block `bi` on finds an entry for a new name, or there is
none there. -/
theorem view_findEmptyDirentLoop {dir bi : Nat} (hfuel : bi + fuel = maxBlocks)
    (hmapped : ∀ bj < bi, dataVal m dir bj ≠ 0) : ∀ {it : FileIter}, it.Inv m → it.ino = dir →
    (∃ bi' i it', EmptyEntry m dir bi' i ∧
      view (findEmptyDirentLoop dir fuel it (bi * blocksize)) m =
      some ((it', some (direntAddr m dir bi' i)), m)) ∨
      ((∀ bi' i, bi ≤ bi' → ¬ EmptyEntry m dir bi' i) ∧
        ∀ r, view (findEmptyDirentLoop dir fuel it (bi * blocksize)) m = some r →
        r.1.2 = none) := by
  induction fuel generalizing bi with
  | zero =>
    intro it _ _
    refine .inr ⟨fun bi' i hbi hen => ?_, fun r h => ?_⟩
    · have := hen.lt
      unfold maxBlocks at hfuel
      omega
    · cases h
      rfl
  | succ fuel ih =>
    intro it hit hino
    have hdiv : bi * blocksize / blocksize = bi := Nat.mul_div_cancel bi (by decide)
    unfold findEmptyDirentLoop
    by_cases hmax : bi < maxsize / blocksize
    · obtain ⟨it₁, hfind, hinv, hino₁⟩ := @view_findEntry m (bi * blocksize) it hit (by rwa [hdiv])
      rw [hino, hdiv] at hfind
      rw [hino] at hino₁
      rw [view_bind, hfind, Option.bind_some]
      by_cases hz : dataVal m dir bi = 0
      · rw [hz]
        refine .inr ⟨fun bi' i hbi hen => hen.mapped bi hbi hz, fun r h => ?_⟩
        cases h
        rfl
      · rw [entryOf_some hz]
        dsimp only
        have hsize : getLE m (sizeAddr dir) 4 = fileSize m dir := rfl
        rw [view_bind, view_sully, Option.bind_some, view_bind, view_peek, Option.bind_some, hsize,
          view_bind]
        have hmap' : ∀ bj ≤ bi, dataVal m dir bj ≠ 0 := by
          intro bj hj
          rcases Nat.lt_or_eq_of_le hj with hlt | rfl
          · exact hmapped bj hlt
          · exact hz
        rcases @view_searchEmpty m (blocksize / direntsize) (dataVal m dir bi)
          (blockBytes (fileSize m dir) (bi * blocksize)) 0 with ⟨i, hlt, hzero, hrun⟩ |
          ⟨hrun, hnone⟩
        · rw [Nat.zero_add] at hlt hzero hrun
          rw [hrun, Option.bind_some, view_bind, view_putEntry, Option.bind_some]
          exact .inl ⟨bi, i, it₁, ⟨hmap', hmax, hlt, hzero⟩, rfl⟩
        · rw [hrun, Option.bind_some, view_bind, view_putEntry, Option.bind_some]
          dsimp only
          have hnext : bi * blocksize + blocksize = (bi + 1) * blocksize :=
            (Nat.succ_mul bi blocksize).symm
          rw [hnext]
          have hrest :=
            @ih (bi + 1) (by omega) (fun bj hj => hmap' bj (Nat.le_of_lt_succ hj)) it₁ hinv hino₁
          refine hrest.imp_right fun ⟨hno, hres⟩ => ⟨fun bi' i hbi hen => ?_, hres⟩
          rcases Nat.lt_or_eq_of_le hbi with hlt | rfl
          · exact hno bi' i hlt hen
          · -- the block has been searched
            have hin := hen.inside
            have hi : i < blocksize / direntsize := by
              unfold blockBytes at hin
              have := Nat.lt_of_lt_of_le hin (Nat.min_le_right _ _)
              unfold blocksize direntsize at *
              omega
            refine hnone i hi ?_ ?_
            · rwa [Nat.zero_add]
            · rw [Nat.zero_add]
              exact hen.empty
    · -- the offset is the largest there is
      refine .inr ⟨fun bi' i hbi hen => ?_, fun r h => ?_⟩
      · have := hen.lt
        omega
      · obtain rfl : bi = maxsize / blocksize := by
          unfold maxBlocks at hfuel
          omega
        have hoff : maxsize / blocksize * blocksize = maxsize := by decide
        rw [hoff, view_bind] at h
        obtain ⟨⟨⟨it₁, e⟩, m₁⟩, h₁, h⟩ := Option.bind_eq_some_iff.mp h
        obtain rfl := view_findEntry_past h₁
        cases h
        rfl

/-- **`find_empty_direntry`** finds an entry for a new name, or there is none. -/
theorem view_findEmptyDirentry (m : Mem) (dir : Nat) :
    (∃ bi i, EmptyEntry m dir bi i ∧
      view (findEmptyDirentry dir) m = some (some (direntAddr m dir bi i), m)) ∨
      ((∀ bi i, ¬ EmptyEntry m dir bi i) ∧ ∀ r, view (findEmptyDirentry dir) m = some r →
        r.1 = none) := by
  have hloop := @view_findEmptyDirentLoop m maxBlocks dir 0 (Nat.zero_add maxBlocks)
    (fun bj hj => absurd hj (Nat.not_lt_zero bj)) _ (FileIter.Inv.start m dir) rfl
  rw [Nat.zero_mul] at hloop
  unfold findEmptyDirentry
  rcases hloop with ⟨bi, i, it, hen, hrun⟩ | ⟨hno, hres⟩
  · refine .inl ⟨bi, i, hen, ?_⟩
    rw [view_bind, hrun, Option.bind_some, view_bind, view_release]
    rfl
  · refine .inr ⟨fun bi i => hno bi i (Nat.zero_le bi), fun r h => ?_⟩
    rw [view_bind] at h
    obtain ⟨⟨⟨it, d⟩, m₁⟩, h₁, h⟩ := Option.bind_eq_some_iff.mp h
    obtain rfl : d = none := hres _ h₁
    rw [view_bind, view_release] at h
    cases h
    rfl

end Searches

/-! ## Refused loads -/

theorem fragile_loadPtr (p : Nat) : Fragile (loadPtr p) fun e => e = none := by
  unfold loadPtr
  refine Fragile.seq (.peek p 4) fun bn => ?_
  exact .ite (.getEntry bn) (.pure none)

theorem fragile_inodeArea : Fragile inodeArea fun _ => False := by
  unfold inodeArea
  refine (Fragile.getEntry 0).bind ?_ fun e => ?_
  · rintro e rfl m cs r h
    cases h
  · cases e with
    | none => exact .fail
    | some sb => rintro m cs r ⟨⟩

theorem fragile_getInode (inum : Int) : Fragile (getInode inum) fun r => r = none := by
  unfold getInode
  refine fragile_inodeArea.seq fun r => .ite ?_ (.pure none)
  refine (Fragile.getEntry _).bind ?_ fun e => ?_
  · rintro e rfl m cs r h
    cases h
    rfl
  · cases e with
    | none => exact .pure none
    | some e => exact .pure _

theorem fragile_scanInodes (ninodes : Int) (e : Nat) :
    ∀ fuel inum, Fragile (scanInodes ninodes e fuel inum) fun _ => False := by
  intro fuel
  induction fuel with
  | zero => exact fun inum => .pure _
  | succ fuel ih =>
    intro inum
    unfold scanInodes
    refine .ite (.ite (ih _) ?_) (.pure _)
    exact Fragile.seq (.peek _ 4) fun type => .ite (.pure _) (ih _)

theorem fragile_findInBlock (inodeBn : Nat) (ninodes : Int) (inum : Nat) :
    Fragile (findInBlock inodeBn ninodes inum) fun _ => False := by
  unfold findInBlock
  refine (Fragile.getEntry _).bind ?_ fun e => ?_
  · rintro e rfl m cs r h
    cases h
  · cases e with
    | none => exact .fail
    | some e =>
      refine (fragile_scanInodes ninodes e _ _).seq fun r => ?_
      cases r with
      | ok i => rintro m cs r ⟨⟩
      | error i => exact .pure _

theorem fragile_findEmptyInode : Fragile findEmptyInode fun _ => False := by
  have hloop : ∀ inodeBn ninodes fuel inum, Fragile (findEmptyLoop inodeBn ninodes fuel inum)
      fun _ => False := by
    intro inodeBn ninodes fuel
    induction fuel with
    | zero => exact fun inum => .pure 0
    | succ fuel ih =>
      intro inum
      unfold findEmptyLoop
      refine .ite ?_ (.pure 0)
      refine (fragile_findInBlock inodeBn ninodes inum).seq fun r => ?_
      cases r with
      | ok i => exact .pure i
      | error r => exact ih r.1
  unfold findEmptyInode
  exact fragile_inodeArea.seq fun r => hloop r.1 r.2 _ 0

theorem fragile_allocateBlock : Fragile allocateBlock fun _ => False := by
  have hfrom : ∀ fbb nblocks fuel bn, Fragile (allocateFrom fbb nblocks fuel bn)
      fun _ => False := by
    intro fbb nblocks fuel
    induction fuel with
    | zero => exact fun bn => .pure _
    | succ fuel ih =>
      intro bn
      unfold allocateFrom
      refine .ite ?_ (.pure _)
      refine Fragile.seq (.peek _ 1) fun byte => .ite ?_ (ih _)
      rintro m cs r ⟨⟩
  unfold allocateBlock
  refine (Fragile.getEntry 0).bind ?_ fun e => ?_
  · rintro e rfl m cs r h
    cases h
  · cases e with
    | none => exact .fail
    | some sb =>
      refine Fragile.seq (.peek _ 4) fun fbb => ?_
      refine (Fragile.getEntry fbb).bind ?_ fun e => ?_
      · rintro e rfl m cs r h
        cases h
      · cases e with
        | none => exact .fail
        | some fbb =>
          refine Fragile.seq (.sully fbb) fun _ => ?_
          refine Fragile.seq (.peek _ 4) fun nblocks => ?_
          refine (hfrom fbb nblocks _ 0).seq fun bn => ?_
          rintro m cs r ⟨⟩

/-- The first pointer of an inode is mapped without a block being loaded. -/
theorem map_first (ino bn : Nat) : (FileIter.mk' ino).map bn = (do
    sully (inoEntry ino)
    poke (directAddr ino 0) 4 bn
    return (0, { FileIter.mk' ino with dptr := some (directAddr ino 0) })) := by
  have hdptr : ¬(bn = 0 ∧ (FileIter.mk' ino).dptr = none) := fun h => Option.some_ne_none _ h.2
  have hmax : ¬ (FileIter.mk' ino).off ≥ maxsize := show ¬ 0 ≥ maxsize by decide
  have hbi : (FileIter.mk' ino).off / blocksize % 2 ^ 32 = 0 :=
    show 0 / blocksize % 2 ^ 32 = 0 by decide
  have hdouble : (FileIter.mk' ino).mapIndirect2 0 = pure (.ok (FileIter.mk' ino)) :=
    if_neg fun h => absurd h.1 (by decide)
  have hsingle : (FileIter.mk' ino).mapIndirect 0 = pure (.ok (FileIter.mk' ino)) :=
    if_neg fun h => absurd h.1 (by decide)
  unfold FileIter.map
  dsimp only
  rw [if_neg hdptr, if_neg hmax, hbi, hdouble]
  change (FileIter.mk' ino).mapIndirect 0 >>= _ = _
  rw [hsingle]
  rfl

theorem fragile_initInode (ino : Nat) : Fragile (initInode ino) fun _ => False := by
  unfold initInode
  refine Fragile.seq (.sully _) fun _ => ?_
  refine Fragile.seq (.storeBytes _ _) fun _ => ?_
  refine Fragile.seq (.storeBytes _ _) fun _ => ?_
  refine Fragile.seq (.storeBytes _ _) fun _ => ?_
  refine fragile_allocateBlock.seq fun bn => ?_
  rw [map_first]
  rintro m cs r ⟨⟩

/-- The pointer of an iterator is left alone while blocks are loaded. -/
theorem attempt_loadIndirect2 (it : FileIter) (bi : Nat) (hdptr : it.dptr = none) (m : Mem)
    (cs : List Bool) (r : FileIter × Mem × List Bool)
    (h : attempt (it.loadIndirect2 bi) m cs = some r) : r.1.dptr = none := by
  unfold FileIter.loadIndirect2 at h
  split at h
  · obtain ⟨e, m₁, cs₁, -, hrest⟩ := attempt_bind_some h
    cases hrest
    exact hdptr
  · cases h
    exact hdptr

theorem attempt_loadIndirect (it : FileIter) (bi : Nat) (hdptr : it.dptr = none) (m : Mem)
    (cs : List Bool) (r : FileIter × Mem × List Bool)
    (h : attempt (it.loadIndirect bi) m cs = some r) : r.1.dptr = none := by
  unfold FileIter.loadIndirect at h
  split at h
  · split at h
    · cases h
    · obtain ⟨e, m₁, cs₁, -, hrest⟩ := attempt_bind_some h
      cases hrest
      exact hdptr
  · cases h
    exact hdptr

/-- A part of `find` in which a load has been refused. -/
theorem fragile_loadIndirect2 (it : FileIter) (bi : Nat) : Fragile (it.loadIndirect2 bi) fun it' =>
    (ndirect + nindirect ≤ bi ∧ it'.indirect2 = none) ∧ it'.dptr = it.dptr := by
  unfold FileIter.loadIndirect2
  by_cases hneed : ndirect + nindirect ≤ bi ∧ it.indirect2 = none
  · rw [if_pos hneed]
    refine (fragile_loadPtr _).bind ?_ fun e => .pure _
    rintro e rfl m cs r h
    cases h
    exact ⟨⟨hneed.1, rfl⟩, rfl⟩
  · rw [if_neg hneed]
    exact .pure _

theorem fragile_loadIndirect (it : FileIter) (bi : Nat) : Fragile (it.loadIndirect bi) fun it' =>
    (ndirect ≤ bi ∧ it'.indirect = none) ∧ it'.dptr = it.dptr := by
  unfold FileIter.loadIndirect
  by_cases hneed : ndirect ≤ bi ∧ it.indirect = none
  · rw [if_pos hneed]
    cases it.getIptr bi with
    | none => exact .fail
    | some p =>
      refine (fragile_loadPtr p).bind ?_ fun e => .pure _
      rintro e rfl m cs r h
      cases h
      exact ⟨⟨hneed.1, rfl⟩, rfl⟩
  · rw [if_neg hneed]
    exact .pure _

/-- `find` with a refused load has no pointer. -/
theorem fragile_find (it : FileIter) (off : Nat) : Fragile (it.find off) fun it' =>
    it'.dptr = none := by
  unfold FileIter.find
  have hclear : ∀ bi, Fragile (it.clearIndirect bi) fun _ => False := by
    intro bi
    unfold FileIter.clearIndirect
    split
    · refine .ite ?_ (.pure _)
      rintro m cs r ⟨⟩
    · exact .pure _
  refine (hclear _).seq fun it₁ => ?_
  generalize min off maxsize / blocksize = bi
  -- without the doubly indirect block `find` ends
  refine Fragile.bind_of (fun it' => it'.dptr = none) (fragile_loadIndirect2 _ bi)
    (attempt_loadIndirect2 { it₁ with off := off, dptr := none } bi rfl) ?_ fun it₂ hdptr => ?_
  · rintro it₂ ⟨hnone, hdptr⟩ m cs r h
    rw [if_pos hnone] at h
    cases h
    exact hdptr
  · refine .ite (.pure _) ?_
    -- nor without the indirect one
    refine Fragile.bind_of (fun it' => it'.dptr = none) (fragile_loadIndirect it₂ bi)
      (attempt_loadIndirect it₂ bi hdptr) ?_ fun it₃ _ => ?_
    · rintro it₃ ⟨hnone, hdptr'⟩ m cs r h
      rw [if_pos hnone] at h
      cases h
      exact hdptr'.trans hdptr
    · refine .ite (.pure _) ?_
      rintro m cs r href
      cases hassert : (decide (bi < ndirect ∨ bi < maxsize / blocksize))
      all_goals
        rw [hassert] at href
        cases href

theorem refused_release (it : FileIter) (m : Mem) (cs : List Bool) :
    refused it.release m cs = false := by
  unfold FileIter.release
  cases it.indirect <;> cases it.indirect2 <;> rfl

theorem fragile_findEntry (it : FileIter) (off : Nat) : Fragile (it.findEntry off) fun r =>
    r.2 = none := by
  unfold FileIter.findEntry
  refine (fragile_find it off).bind ?_ fun it₁ => ?_
  · intro it₁ hdptr m cs r h
    have hbn : it₁.blocknum = pure 0 := by
      unfold FileIter.blocknum
      rw [hdptr]
    rw [hbn] at h
    cases h
    rfl
  · refine Fragile.seq ?_ fun bn => .ite ?_ (.pure _)
    · unfold FileIter.blocknum
      split
      · exact .pure 0
      · exact .peek _ 4
    · refine (Fragile.getEntry bn).bind ?_ fun e => .pure _
      rintro e rfl m cs r h
      cases h
      rfl

theorem fragile_searchEmpty (e bsz : Nat) : ∀ fuel o, Fragile (searchEmpty e bsz fuel o)
    fun _ => False := by
  intro fuel
  induction fuel with
  | zero => exact fun o => .pure _
  | succ fuel ih =>
    intro o
    unfold searchEmpty
    refine .ite ?_ (.pure _)
    exact Fragile.seq (.peek _ 4) fun inum => .ite (.pure _) (ih _)

theorem fragile_findEmptyDirentry (dir : Nat) : Fragile (findEmptyDirentry dir)
    fun d => d = none := by
  have hloop : ∀ fuel it off, Fragile (findEmptyDirentLoop dir fuel it off) fun r =>
      r.2 = none := by
    intro fuel
    induction fuel with
    | zero => exact fun it off => .pure _
    | succ fuel ih =>
      intro it off
      unfold findEmptyDirentLoop
      refine (fragile_findEntry it off).bind ?_ fun r => ?_
      · rintro ⟨it₁, e⟩ rfl m cs r h
        cases h
        rfl
      · obtain ⟨it₁, e⟩ := r
        cases e with
        | none => exact .pure _
        | some e =>
          refine Fragile.seq (.sully e) fun _ => ?_
          refine Fragile.seq (.peek _ 4) fun size => ?_
          refine (fragile_searchEmpty e _ _ _).seq fun d => ?_
          refine Fragile.seq (.putEntry e) fun _ => ?_
          cases d with
          | none => exact ih it₁ _
          | some d => exact .pure _
  unfold findEmptyDirentry
  refine (hloop _ _ _).bind ?_ fun r => ?_
  · rintro ⟨it, d⟩ rfl m cs r h
    obtain ⟨u, m₁, cs₁, -, hrest⟩ := attempt_bind_some h
    cases hrest
    rfl
  · refine Fragile.seq ?_ fun _ => .pure _
    rintro m cs r href
    rw [refused_release] at href
    cases href

/-- **A creation with a refused load fails an assertion.** -/
theorem fragile_createFile (dir : Nat) (path : List UInt8) : Fragile (createFile dir path)
    fun _ => False := by
  unfold createFile
  refine fragile_findEmptyInode.seq fun inum => ?_
  refine (fragile_getInode inum).bind ?_ fun ino => ?_
  · rintro ino rfl m cs r h
    cases h
  · cases ino with
    | none => exact .fail
    | some ino =>
      refine (fragile_initInode ino).seq fun _ => ?_
      refine Fragile.seq ?_ fun _ => .pure ino
      unfold linkInode
      refine Fragile.seq (.sully _) fun _ => ?_
      refine (fragile_findEmptyDirentry dir).bind ?_ fun d => ?_
      · rintro d rfl m cs r h
        cases h
      · cases d with
        | none => exact .fail
        | some d => rintro m cs r ⟨⟩

/-! ## What a creation does -/

section Create
variable {m m' m₁ : Mem} {i j ino bn b : Nat} {path : List UInt8}

theorem ninodes_lt (m : Mem) : ninodes m < 2 ^ 31 := by
  have hlt : getLE m ninodesAddr 4 < 2 ^ 32 := getLE_lt m ninodesAddr 4
  unfold ninodes toInum
  split <;> omega

theorem inoEntry_inodeAddr (m : Mem) (i : Nat) :
    inoEntry (inodeAddr m i) = inodeBlock (inodeBn m) i := by
  unfold inoEntry inodeAddr inodesperblock inodesize blocksize
  omega

theorem inodeAddr_mod (m : Mem) (i : Nat) : inodeAddr m i % 64 = 0 := by
  unfold inodeAddr inodesperblock inodesize blocksize
  omega

/-- Where in the inode's block it is. -/
theorem inodeAddr_block (m : Mem) (i : Nat) {k : Nat} (hk : k < 64) :
    inodeBlock (inodeBn m) i * blocksize ≤ inodeAddr m i + k ∧
      inodeAddr m i + k < inodeBlock (inodeBn m) i * blocksize + blocksize := by
  unfold inodeAddr inodesperblock inodesize blocksize
  omega

/-- Two inodes are apart. -/
theorem inodeAddr_apart (hi : i < ninodes m) (hj : j < ninodes m) (hne : i ≠ j) :
    inodeAddr m i + 64 ≤ inodeAddr m j ∨ inodeAddr m j + 64 ≤ inodeAddr m i := by
  have hlt := ninodes_lt m
  have hi' : i < 2 ^ 31 := by omega
  have hj' : j < 2 ^ 31 := by omega
  unfold inodeAddr inodeBlock inodesperblock inodesize blocksize
  omega

/-- The new inode, and block `bn` (or an error code) as its first. -/
structure Initialized (m : Mem) (ino bn : Nat) (m₁ : Mem) : Prop where
  frame : ∀ x, x < ino ∨ ino + 64 ≤ x → x / blocksize ≠ fbbBn m → m₁ x = m x
  type : getLE m₁ (typeAddr ino) 4 = typeRegular
  first : getLE m₁ (directAddr ino 0) 4 = bn
  rest : ∀ k, 0 < k → k < ndirect + 2 → getLE m₁ (directAddr ino k) 4 = getLE m (directAddr ino k) 4

/-- The block an allocation has given, or the error code. -/
def Allocated (m : Mem) (bn : Nat) : Prop :=
  isFree m bn = true ∨ (bn = E_NOSPC ∧ ∀ b, isFree m b = false)

theorem Allocated.lt (h : Allocated m bn) : bn < 256 ^ 4 := by
  rcases h with h | ⟨rfl, -⟩
  · have := isFree_lt h
    unfold bitsperblock blocksize at this
    omega
  · decide

/-- `allocate_block` changes the bitmap alone. -/
theorem view_allocateBlock_frame (m : Mem) : ∃ bn m₁, view allocateBlock m = some (bn, m₁) ∧
    Allocated m bn ∧ Confined (fbbBn m) m m₁ := by
  rcases view_allocateBlock_cases m with ⟨hrun, hnone⟩ | ⟨b, hb, -, hrun⟩
  · exact ⟨_, _, hrun, .inr ⟨rfl, hnone⟩, fun c _ x _ _ => rfl⟩
  · exact ⟨_, _, hrun, .inl hb, takeBlock_confined hb⟩

/-- **The new inode.** -/
theorem view_initInode (haddr : ino % 64 = 0) (hzero : inoEntry ino ≠ 0)
    (hfbb : inoEntry ino ≠ fbbBn m) : ∃ bn m₁, view (initInode ino) m = some ((), m₁) ∧
    Initialized m ino bn m₁ ∧ Allocated m bn := by
  -- the metadata
  generalize hmeta : putLE (putLE (putLE m (typeAddr ino) 4 typeRegular) (sizeAddr ino) 4 0)
    (nlinkAddr ino) 4 1 = m₀
  have hin : ∀ {a n : Nat}, ino ≤ a → a + n ≤ ino + 64 →
      inoEntry ino * blocksize ≤ a ∧ a + n ≤ inoEntry ino * blocksize + blocksize := by
    intro a n h₁ h₂
    unfold inoEntry blocksize
    omega
  have hconf : Confined (inoEntry ino) m m₀ := by
    rw [← hmeta]
    intro c hc x h₁ h₂
    rw [putLE_of_not_mem, putLE_of_not_mem, putLE_of_not_mem]
    all_goals
      unfold typeAddr sizeAddr nlinkAddr inoEntry blocksize at *
      omega
  obtain ⟨bn, m₂, hrun, halloc, hconf'⟩ := view_allocateBlock_frame m₀
  have hbn := halloc.lt
  rw [hconf.fbbBn hzero] at hconf'
  have halloc' : Allocated m bn := by
    unfold Allocated at *
    simpa only [hconf.isFree hzero hfbb] using halloc
  -- the inode's bytes are not in the bitmap
  have hsame : ∀ {x : Nat}, ino ≤ x → x < ino + 64 → m₂ x = m₀ x := by
    intro x h₁ h₂
    have hx := hin h₁ (show x + 1 ≤ ino + 64 by omega)
    exact hconf' (inoEntry ino) hfbb x hx.1 (by omega)
  refine ⟨bn, putLE m₂ (directAddr ino 0) 4 bn, ?_, ⟨?_, ?_, ?_, ?_⟩, halloc'⟩
  · unfold initInode
    simp only [view_bind, view_sully, view_poke, Option.bind_some, hmeta, hrun, map_first,
      view_pure, view_release]
  · intro x hx hb
    rw [putLE_of_not_mem (by unfold directAddr; omega)]
    have hblock : m₂ x = m₀ x :=
      hconf' (x / blocksize) hb x (by unfold blocksize; omega) (by unfold blocksize; omega)
    rw [hblock, ← hmeta, putLE_of_not_mem (by unfold nlinkAddr; omega),
      putLE_of_not_mem (by unfold sizeAddr; omega), putLE_of_not_mem (by unfold typeAddr; omega)]
  · rw [getLE_putLE_frame (by unfold typeAddr directAddr; omega),
      getLE_congr fun x h₁ h₂ =>
      hsame (by unfold typeAddr at h₁; omega) (by unfold typeAddr at h₂; omega), ← hmeta,
      getLE_putLE_frame (by unfold typeAddr nlinkAddr; omega),
      getLE_putLE_frame (by unfold typeAddr sizeAddr; omega)]
    exact getLE_putLE _ _ (by decide)
  · exact getLE_putLE _ _ hbn
  · intro k hk hlt
    unfold ndirect at hlt
    rw [getLE_putLE_frame (by unfold directAddr; omega),
      getLE_congr fun x h₁ h₂ =>
      hsame (by unfold directAddr at h₁; omega) (by unfold directAddr at h₂; omega), ← hmeta,
      getLE_putLE_frame (by unfold directAddr nlinkAddr; omega),
      getLE_putLE_frame (by unfold directAddr sizeAddr; omega),
      getLE_putLE_frame (by unfold directAddr typeAddr; omega)]

/-- The directory is the same. -/
structure SameDirectory (m m₁ : Mem) (dir : Nat) : Prop where
  val : ∀ s : Slot, s.Ok → val m₁ dir s = val m dir s
  size : fileSize m₁ dir = fileSize m dir
  block : ∀ s : Slot, s.Ok → ChkFS.val m dir s ≠ 0 → SameBlock m₁ m (ChkFS.val m dir s)

theorem SameDirectory.symm {dir : Nat} (h : SameDirectory m m₁ dir) : SameDirectory m₁ m dir where
  val s ok := (h.val s ok).symm
  size := h.size.symm
  block s ok hne := by
    rw [h.val s ok] at hne ⊢
    exact fun x h₁ h₂ => (h.block s ok hne x h₁ h₂).symm

/-- An entry is in its block. -/
theorem EmptyEntry.lt_block {dir bi k : Nat} (h : EmptyEntry m dir bi k) :
    k * direntsize + direntsize ≤ blocksize := by
  have hlt := Nat.lt_of_lt_of_le h.inside (Nat.min_le_right _ _)
  unfold blocksize direntsize at *
  omega

theorem SameDirectory.emptyEntry {dir bi k : Nat} (h : SameDirectory m m₁ dir)
    (hen : EmptyEntry m dir bi k) : EmptyEntry m₁ dir bi k ∧
    direntAddr m₁ dir bi k = direntAddr m dir bi k := by
  have hval : ∀ bj ≤ bi, dataVal m₁ dir bj = dataVal m dir bj :=
    fun bj hj => h.val (.data bj) (Nat.lt_of_le_of_lt hj hen.lt)
  have haddr : direntAddr m₁ dir bi k = direntAddr m dir bi k := by
    unfold direntAddr
    rw [hval bi (Nat.le_refl bi)]
  refine ⟨⟨fun bj hj => ?_, hen.lt, ?_, ?_⟩, haddr⟩
  · rw [hval bj hj]
    exact hen.mapped bj hj
  · rw [h.size]
    exact hen.inside
  · rw [haddr]
    have hblock := h.block (.data bi) hen.lt (hen.mapped bi (Nat.le_refl bi))
    have hlt := hen.lt_block
    have hsame : getLE m₁ (direntAddr m dir bi k) 4 = getLE m (direntAddr m dir bi k) 4 :=
      hblock.getLE (by unfold direntsize at *; omega)
    exact hsame.trans hen.empty

/-- A new inode is apart from the directory. -/
theorem Initialized.directory (hl : Layout m) (h : Initialized m (inodeAddr m i) bn m₁) (h2 : 2 ≤ i)
    (hi : i < ninodes m) : SameDirectory m m₁ (inodeAddr m 1) := by
  have h1 : ((1 : Nat) : Int) < ninodes m := by omega
  have hapart := inodeAddr_apart hi h1 (by omega)
  have hinode : ∀ x, inodeAddr m 1 ≤ x → x < inodeAddr m 1 + 64 → m₁ x = m x := by
    intro x hx₁ hx₂
    refine h.frame x (by omega) fun hx => (hl.inode 1 h1).2 ?_
    rw [← hx, ← inoEntry_inodeAddr]
    have := inodeAddr_mod m 1
    unfold inoEntry blocksize
    omega
  have hblock : ∀ s : Slot, s.Ok → ChkFS.val m (inodeAddr m 1) s ≠ 0 →
      SameBlock m₁ m (ChkFS.val m (inodeAddr m 1) s) := by
    intro s ok hne x hx₁ hx₂
    obtain ⟨hfbb, hino⟩ := hl.directory s ok hne
    have hdiv : x / blocksize = ChkFS.val m (inodeAddr m 1) s := by
      unfold blocksize at *
      omega
    refine h.frame x ?_ (hdiv ▸ hfbb)
    have hne' := hino i hi
    have hlow := inodeAddr_block m i (show 0 < 64 by decide)
    have hhigh := inodeAddr_block m i (show 63 < 64 by decide)
    unfold blocksize at *
    omega
  refine ⟨fun s ok => ?_, ?_, hblock⟩
  · exact val_congr (fun x hx₁ hx₂ => hinode x (by omega) hx₂) (fun p ok _ hne => hblock p ok hne)
      ok
  · exact getLE_congr fun x hx₁ hx₂ =>
      hinode x (by unfold sizeAddr at hx₁; omega) (by unfold sizeAddr at hx₂; omega)

/-- The file system with a new file: its inode is number `i`, its first block `bn`. -/
structure Created (m : Mem) (i bn : Nat) (m' : Mem) : Prop where
  super : SameBlock m' m 0
  type : getLE m' (typeAddr (inodeAddr m i)) 4 = typeRegular
  first : getLE m' (directAddr (inodeAddr m i) 0) 4 = bn
  pointers : ∀ j : Nat, j < ninodes m → ∀ k < ndirect + 2, j ≠ i ∨ 0 < k →
    getLE m' (directAddr (inodeAddr m j) k) 4 = getLE m (directAddr (inodeAddr m j) k) 4

/-- A store into a block of the directory does nothing to the inodes. -/
theorem Initialized.linked (hl : Layout m) (h : Initialized m (inodeAddr m i) bn m₁)
    (hi : i < ninodes m) {s : Slot} (ok : s.Ok) (hne : val m (inodeAddr m 1) s ≠ 0)
    (hm : ∀ x, x / blocksize ≠ val m (inodeAddr m 1) s → m' x = m₁ x) : Created m i bn m' := by
  obtain ⟨hfbb, hino⟩ := hl.directory s ok hne
  have hinode : ∀ j : Nat, j < ninodes m → ∀ x, inodeAddr m j ≤ x → x < inodeAddr m j + 64 →
      m' x = m₁ x := by
    intro j hj x hx₁ hx₂
    refine hm x fun hx => hino j hj ?_
    rw [← hx, ← inoEntry_inodeAddr]
    have := inodeAddr_mod m j
    unfold inoEntry blocksize
    omega
  have hword : ∀ j : Nat, j < ninodes m → ∀ k < ndirect + 2,
      getLE m' (directAddr (inodeAddr m j) k) 4 = getLE m₁ (directAddr (inodeAddr m j) k) 4 := by
    intro j hj k hk
    unfold ndirect at hk
    exact getLE_congr fun x hx₁ hx₂ =>
      hinode j hj x (by unfold directAddr at hx₁; omega) (by unfold directAddr at hx₂; omega)
  refine ⟨?_, ?_, ?_, ?_⟩
  · intro x hx₁ hx₂
    have hdiv : x / blocksize = 0 := Nat.div_eq_of_lt (by omega)
    rw [hm x (by rw [hdiv]; exact Ne.symm hne)]
    refine h.frame x ?_ (by rw [hdiv]; exact Ne.symm hl.fbb)
    have hlow := inodeAddr_block m i (show 0 < 64 by decide)
    have hpos := (hl.inode i hi).1
    unfold blocksize at *
    omega
  · rw [← h.type]
    exact getLE_congr fun x hx₁ hx₂ =>
      hinode i hi x (by unfold typeAddr at hx₁; omega) (by unfold typeAddr at hx₂; omega)
  · rw [hword i hi 0 (by decide)]
    exact h.first
  · intro j hj k hk hor
    rw [hword j hj k hk]
    by_cases hji : j = i
    · subst hji
      exact h.rest k (hor.resolve_left fun hne => hne rfl) hk
    · have hapart := inodeAddr_apart hi hj (Ne.symm hji)
      unfold ndirect at hk
      refine getLE_congr fun x hx₁ hx₂ => h.frame x (by unfold directAddr at *; omega) fun hx =>
        (hl.inode j hj).2 ?_
      rw [← hx, ← inoEntry_inodeAddr]
      have := inodeAddr_mod m j
      unfold inoEntry blocksize directAddr at *
      omega

end Create

/-! ## The lookup -/

section Lookup
variable {m m₁ : Mem} {cs : List Bool} {path : List UInt8}

theorem quiet_ite {α : Type} {c : Prop} [Decidable c] {p q : Prog α} (hp : Quiet p) (hq : Quiet q) :
    Quiet (if c then p else q) := by
  split
  · exact hp
  · exact hq

theorem quiet_inodeArea : Quiet inodeArea := by
  refine (Quiet.getEntry 0).bind fun e => ?_
  cases e with
  | none => trivial
  | some sb =>
    exact (Quiet.peek _ 4).bind fun _ => (Quiet.peek _ 4).bind fun _ => (Quiet.putEntry sb).bind
      fun _ => .pure _

theorem quiet_getInode (inum : Int) : Quiet (getInode inum) := by
  refine quiet_inodeArea.bind fun r => quiet_ite ((Quiet.getEntry _).bind fun e => ?_) (.pure none)
  cases e with
  | none => exact .pure none
  | some e => exact .pure _

theorem quiet_release (it : FileIter) : Quiet it.release := by
  unfold FileIter.release
  cases it.indirect <;> cases it.indirect2 <;> trivial

theorem quiet_findEntry (it : FileIter) (off : Nat) : Quiet (it.findEntry off) := by
  refine (quiet_find it off).bind fun it₁ => Quiet.bind ?_ fun bn => quiet_ite ?_ (.pure _)
  · unfold FileIter.blocknum
    split
    · exact .pure 0
    · exact .peek _ 4
  · exact (Quiet.getEntry bn).bind fun e => .pure _

theorem quiet_searchBlock (e bsz : Nat) (name : List UInt8) :
    ∀ fuel o, Quiet (searchBlock e bsz name fuel o) := by
  have hstr : ∀ (name : List UInt8) a, Quiet (strEq a name) := by
    intro name
    induction name with
    | nil => exact fun a => (Quiet.peek a 1).bind fun _ => .pure _
    | cons c l ih =>
      exact fun a => (Quiet.peek a 1).bind fun _ => quiet_ite (ih (a + 1)) (.pure false)
  intro fuel
  induction fuel with
  | zero => exact fun o => .pure 0
  | succ fuel ih =>
    intro o
    unfold searchBlock
    refine quiet_ite ((Quiet.peek _ 4).bind fun inum =>
      quiet_ite ((hstr name _).bind fun b => quiet_ite (.pure _) (ih _)) (ih _)) (.pure 0)

theorem quiet_lookupInode (dir : Nat) (name : List UInt8) : Quiet (lookupInode dir name) := by
  have hloop : ∀ fuel it off, Quiet (lookupLoop dir name fuel it off) := by
    intro fuel
    induction fuel with
    | zero => exact fun it off => .pure _
    | succ fuel ih =>
      intro it off
      unfold lookupLoop
      refine (quiet_findEntry it off).bind fun r => ?_
      obtain ⟨it₁, e⟩ := r
      cases e with
      | none => exact .pure _
      | some e =>
        refine (Quiet.peek _ 4).bind fun size => (quiet_searchBlock e _ name _ _).bind
          fun inum => ?_
        exact (Quiet.putEntry e).bind fun _ => quiet_ite (.pure _) (ih it₁ _)
  unfold lookupInode
  refine (hloop _ _ _).bind fun r => (quiet_getInode _).bind fun ino => ?_
  exact (quiet_release r.1).bind fun _ => .pure ino

theorem attempt_getInode_zero {r : Option Nat × Mem × List Bool}
    (h : attempt (getInode (toInum 0)) m cs = some r) : r.1 = none := by
  unfold getInode at h
  obtain ⟨⟨a, n⟩, m₁, cs₁, -, hrest⟩ := attempt_bind_some h
  have hneg : ¬ ((0 : Int) < toInum 0 ∧ toInum 0 < n) := fun hc => absurd hc.1 (by decide)
  dsimp only at hrest
  rw [if_neg hneg] at hrest
  cases hrest
  rfl

theorem attempt_release (it : FileIter) (m : Mem) (cs : List Bool) :
    attempt it.release m cs = some ((), m, cs) := by
  unfold FileIter.release
  cases it.indirect <;> cases it.indirect2 <;> rfl

theorem fragile_searchBlock (e bsz : Nat) (name : List UInt8) :
    ∀ fuel o, Fragile (searchBlock e bsz name fuel o) fun _ => False := by
  have hstr : ∀ (name : List UInt8) a, Fragile (strEq a name) fun _ => False := by
    intro name
    induction name with
    | nil =>
      rintro a m cs r ⟨⟩
    | cons c l ih => exact fun a => Fragile.seq (.peek a 1) fun _ => .ite (ih (a + 1)) (.pure false)
  intro fuel
  induction fuel with
  | zero => exact fun o => .pure 0
  | succ fuel ih =>
    intro o
    unfold searchBlock
    refine .ite (Fragile.seq (.peek _ 4) fun inum =>
      .ite ((hstr name _).seq fun b => .ite (.pure _) (ih _)) (ih _)) (.pure 0)

/-- **A lookup with a refused load reports the name as missing.** -/
theorem fragile_lookupInode (dir : Nat) (name : List UInt8) : Fragile (lookupInode dir name)
    fun ino => ino = none := by
  have hloop : ∀ fuel it off, Fragile (lookupLoop dir name fuel it off) fun r => r.2 = 0 := by
    intro fuel
    induction fuel with
    | zero => exact fun it off => .pure _
    | succ fuel ih =>
      intro it off
      unfold lookupLoop
      refine (fragile_findEntry it off).bind ?_ fun r => ?_
      · rintro ⟨it₁, e⟩ rfl m cs r h
        cases h
        rfl
      · obtain ⟨it₁, e⟩ := r
        cases e with
        | none => exact .pure _
        | some e =>
          refine Fragile.seq (.peek _ 4) fun size => (fragile_searchBlock e _ name _ _).seq
            fun inum => ?_
          exact Fragile.seq (.putEntry e) fun _ => .ite (.pure _) (ih it₁ _)
  unfold lookupInode
  refine (hloop _ _ _).bind ?_ fun r => ?_
  · rintro ⟨it, inum⟩ rfl m cs r h
    obtain ⟨ino, m₁, cs₁, hget, hrest⟩ := attempt_bind_some h
    rw [attempt_bind, attempt_release] at hrest
    cases hrest
    exact attempt_getInode_zero hget
  · refine (fragile_getInode _).bind ?_ fun ino => ?_
    · rintro ino rfl m cs s h
      rw [attempt_bind, attempt_release] at h
      cases h
      rfl
    · intro m cs s href
      rw [refused_bind (attempt_release r.1 m cs), refused_release] at href
      cases href

/-- The lookup of a name that no file has, with any loads refused. -/
theorem attempt_lookupPath {r : (Nat × Option Nat) × Mem × List Bool} (habsent : Absent m path)
    (h : attempt (lookupPath path) m cs = some r) : r.1 = (inodeAddr m 1, none) ∧ r.2.1 = m ∧
    1 < ninodes m := by
  obtain ⟨dir, hview⟩ := habsent
  have hget : view (getInode 1) m =
      some (if 0 < 1 ∧ ((1 : Nat) : Int) < ninodes m then some (inodeAddr m 1) else none, m) :=
    view_getInode m 1
  unfold lookupPath at h hview
  rw [view_bind, hget, Option.bind_some] at hview
  by_cases hn : 0 < 1 ∧ ((1 : Nat) : Int) < ninodes m
  · rw [if_pos hn] at hget hview
    obtain ⟨d, m₁, cs₁, hrun, hrest⟩ := attempt_bind_some h
    obtain rfl := (quiet_getInode 1).attempt hrun
    cases hd : refused (getInode 1) m₁ cs with
    | true =>
      obtain rfl : d = none := fragile_getInode 1 _ _ _ hd hrun
      cases hrest
    | false =>
      have hgranted := attempt_granted hd
      rw [hrun, hget] at hgranted
      obtain rfl : d = some (inodeAddr m₁ 1) := (Prod.mk.inj (Option.some.inj hgranted)).1
      obtain ⟨ino, m₂, cs₂, hlookup, hrest⟩ := attempt_bind_some hrest
      obtain rfl := (quiet_lookupInode _ _).attempt hlookup
      cases hrest
      refine ⟨?_, rfl, hn.2⟩
      cases hl : refused (lookupInode (inodeAddr m₂ 1) path) m₂ cs₁ with
      | true => rw [show ino = none from fragile_lookupInode _ _ _ _ _ hl hlookup]
      | false =>
        have hgranted := attempt_granted hl
        rw [hlookup] at hgranted
        dsimp only at hview
        rw [view_bind, ← hgranted] at hview
        cases hview
        rfl
  · rw [if_neg hn] at hview
    cases hview

end Lookup

/-! ## All or nothing -/

section Open
variable {m m' : Mem} {path : List UInt8} {flags : OpenFlags} {fds : FdTable} {file vnode : Bool}
  {cs : List Bool} {ino bn : Nat}

/-- **The creation**, when no load is refused: it makes the file, or there is no inode or no
directory entry and an assertion fails. -/
theorem view_createFile (hl : Layout m) (hpath : path.length < namesize) :
    (∃ i bn m', FreeInode m i ∧ Allocated m bn ∧ Created m i bn m' ∧
      (∃ bi k, EmptyEntry m (inodeAddr m 1) bi k) ∧ view (createFile (inodeAddr m 1) path) m =
      some (inodeAddr m i, m')) ∨
    (view (createFile (inodeAddr m 1) path) m = none ∧
      ((∀ i, ¬ FreeInode m i) ∨ ∀ bi k, ¬ EmptyEntry m (inodeAddr m 1) bi k)) := by
  unfold createFile
  rcases view_findEmptyInode m with ⟨i, hfree, hrun⟩ | ⟨hrun, hnone⟩
  · have hi : 0 < i ∧ (i : Int) < ninodes m := ⟨Nat.lt_of_lt_of_le Nat.two_pos hfree.1, hfree.2.1⟩
    obtain ⟨hzero, hfbb⟩ := hl.inode i hi.2
    rw [← inoEntry_inodeAddr] at hzero hfbb
    obtain ⟨bn, m₁, hinit, hm₁, halloc⟩ := view_initInode (inodeAddr_mod m i) hzero hfbb
    have hdir := hm₁.directory hl hfree.1 hi.2
    rw [view_bind, hrun, Option.bind_some, view_bind, view_getInode, Option.bind_some, if_pos hi]
    dsimp only
    rw [view_bind, hinit, Option.bind_some, view_bind]
    unfold linkInode
    rw [view_bind, view_sully, Option.bind_some, view_bind]
    rcases view_findEmptyDirentry m₁ (inodeAddr m 1) with ⟨bi, k, hen, hfind⟩ | ⟨hno, hfind⟩
    · obtain ⟨hen', haddr⟩ := hdir.symm.emptyEntry hen
      refine .inl ⟨i, bn, putLE (store m₁ (direntAddr m₁ (inodeAddr m 1) bi k + 4) path)
        (direntAddr m₁ (inodeAddr m 1) bi k) 4 i, hfree, halloc, ?_, ⟨bi, k, hen'⟩, ?_⟩
      · refine hm₁.linked hl hi.2 (s := .data bi) hen'.lt (hen'.mapped bi (Nat.le_refl bi))
          fun x hx => ?_
        have hlt := hen'.lt_block
        have hx' : x / blocksize ≠ dataVal m (inodeAddr m 1) bi := hx
        rw [← haddr]
        unfold direntAddr at *
        unfold namesize at hpath
        rw [putLE_of_not_mem, store_of_not_mem]
        all_goals
          unfold blocksize direntsize at *
          omega
      · rw [hfind, Option.bind_some]
        dsimp only
        rw [view_bind, view_storeBytes, Option.bind_some, view_poke, Option.bind_some]
        rfl
    · refine .inr ⟨?_, .inr fun bi k hen => hno bi k (hdir.emptyEntry hen).1⟩
      cases hres : view (findEmptyDirentry (inodeAddr m 1)) m₁ with
      | none => rfl
      | some r =>
        obtain ⟨d, m₂⟩ := r
        obtain rfl : d = none := hfind _ hres
        rfl
  · refine .inr ⟨?_, .inl hnone⟩
    rw [view_bind, hrun, Option.bind_some, view_bind, view_getInode, Option.bind_some,
      if_neg fun h => Nat.lt_irrefl 0 h.1]
    rfl

theorem attempt_some {α : Type} {p : Prog α} {a : α} (hr : refused p m cs = false)
    (h : view p m = some (a, m')) : ∃ cs', attempt p m cs = some (a, m', cs') := by
  have hgranted := attempt_granted hr
  rw [h] at hgranted
  obtain ⟨⟨b, m₁, cs'⟩, hrun, heq⟩ := Option.map_eq_some_iff.mp hgranted
  cases heq
  exact ⟨cs', hrun⟩

/-- **The end of `sys_open`**: a descriptor when there is one and memory; an error, or a fault, when
something is lacking. -/
theorem attempt_installFile (flags : OpenFlags) (fds : FdTable) (file vnode : Bool) (ino : Nat)
    (m : Mem) (cs : List Bool) : (((∃ fd < NFDS, fds fd = none) ∧ file = true ∧ vnode = true) ∧
      ∃ r fds' m', attempt (installFile flags fds file vnode ino) m cs = some ((r, fds'), m', cs) ∧
        0 ≤ r ∧ (m' = m ∨ m' = putLE m (sizeAddr ino) 4 0)) ∨
    (¬ ((∃ fd < NFDS, fds fd = none) ∧ file = true ∧ vnode = true) ∧
      ∀ r fds' s, attempt (installFile flags fds file vnode ino) m cs = some ((r, fds'), s) →
      r < 0 ∧ s = (m, cs)) := by
  unfold installFile
  cases hfind : (List.range NFDS).find? fun fd => fds fd = none with
  | none =>
    refine .inr ⟨?_, fun r fds' s hrun => ?_⟩
    · rintro ⟨⟨fd, hlt, hfree⟩, -⟩
      have hall := List.find?_eq_none.mp hfind fd (List.mem_range.mpr hlt)
      exact absurd (decide_eq_true hfree) hall
    · cases file with
      | true => cases hrun
      | false =>
        cases hrun
        exact ⟨by decide, rfl⟩
  | some fd =>
    have hfree : fds fd = none :=
      of_decide_eq_true (List.find?_some (p := fun fd => decide (fds fd = none)) hfind)
    have hlt : fd < NFDS := List.mem_range.mp (List.mem_of_find?_eq_some hfind)
    cases file with
    | false =>
      refine .inr ⟨fun h => Bool.false_ne_true h.2.1, fun r fds' s hrun => ?_⟩
      cases hrun
      exact ⟨by decide, rfl⟩
    | true =>
      cases vnode with
      | false => exact .inr ⟨fun h => Bool.false_ne_true h.2.2, fun r fds' s hrun => by cases hrun⟩
      | true =>
        refine .inl ⟨⟨⟨fd, hlt, hfree⟩, rfl, rfl⟩, ?_⟩
        dsimp only
        cases htrunc : flags.trunc && flags.write with
        | true => exact ⟨fd, _, _, rfl, Int.natCast_nonneg fd, .inr (store_toLE _ _ _ _)⟩
        | false => exact ⟨fd, _, m, rfl, Int.natCast_nonneg fd, .inl rfl⟩

/-- The file that is made may be truncated at once. -/
theorem Created.truncate {i : Nat} (hl : Layout m) (hi : i < ninodes m) (h : Created m i bn m') :
    Created m i bn (putLE m' (sizeAddr (inodeAddr m i)) 4 0) := by
  have hblock := inodeAddr_block m i (show 0 < 64 by decide)
  have hmod := inodeAddr_mod m i
  refine ⟨fun x hx₁ hx₂ => ?_, ?_, ?_, fun j hj k hk hor => ?_⟩
  · have hpos := (hl.inode i hi).1
    rw [putLE_of_not_mem (by unfold sizeAddr blocksize at *; omega)]
    exact h.super x hx₁ hx₂
  · rw [getLE_putLE_frame (by unfold typeAddr sizeAddr; omega)]
    exact h.type
  · rw [getLE_putLE_frame (by unfold directAddr sizeAddr; omega)]
    exact h.first
  · rw [getLE_putLE_frame]
    · exact h.pointers j hj k hk hor
    · by_cases hji : j = i
      · subst hji
        unfold directAddr sizeAddr
        omega
      · have hapart := inodeAddr_apart hi hj (Ne.symm hji)
        unfold ndirect at hk
        unfold directAddr sizeAddr
        omega

/-- A new file is not undone. -/
theorem Created.changed {i : Nat} (hfree : FreeInode m i) (h : Created m i bn m') :
    ¬ Unchanged m m' := by
  intro hun
  have hsame : getLE m' (typeAddr (inodeAddr m i)) 4 = getLE m (typeAddr (inodeAddr m i)) 4 := by
    refine getLE_congr fun x hx₁ hx₂ => ?_
    obtain ⟨k, rfl⟩ := Nat.exists_eq_add_of_le hx₁
    exact hun.inode i hfree.2.1 k (by unfold typeAddr inodesize at *; omega)
  rw [h.type, hfree.2.2] at hsame
  exact absurd hsame (by decide)

theorem Created.layout {i : Nat} (h : Created m i bn m') : inodeBn m' = inodeBn m ∧
    ninodes m' = ninodes m ∧ nblocks m' = nblocks m := by
  have hword : ∀ a, a + 4 ≤ blocksize → getLE m' a 4 = getLE m a 4 := by
    intro a ha
    exact getLE_congr fun x hx₁ hx₂ => h.super x (by omega) (by omega)
  refine ⟨hword _ (by decide), ?_, hword _ (by decide)⟩
  unfold ninodes
  rw [hword _ (by decide)]

/-- **The pointers of the inodes** are to blocks exactly when the new file has got one. -/
theorem Created.pointersOk {i : Nat} (hl : Layout m) (hp : PointersOk m) (hi : i < ninodes m)
    (hbn : Allocated m bn) (h : Created m i bn m') : PointersOk m' ↔ isFree m bn = true := by
  obtain ⟨hinodeBn, hninodes, hnblocks⟩ := h.layout
  have haddr : ∀ j, inodeAddr m' j = inodeAddr m j := fun j => by
    unfold inodeAddr
    rw [hinodeBn]
  constructor
  · intro hok
    refine hbn.resolve_right fun hfull => ?_
    have hlt := hok i (by rw [hninodes]; exact hi) 0 (by decide)
    rw [haddr, h.first, hnblocks, hfull.1] at hlt
    exact absurd hlt (Nat.not_lt.mpr hl.nblocks)
  · intro hfree j hj k hk
    rw [hninodes] at hj
    rw [haddr, hnblocks]
    by_cases hor : j ≠ i ∨ 0 < k
    · rw [h.pointers j hj k hk hor]
      exact hp j hj k hk
    · obtain ⟨hji, hk0⟩ := not_or.mp hor
      obtain rfl := not_not.mp hji
      obtain rfl := Nat.eq_zero_of_not_pos hk0
      rw [h.first]
      unfold isFree at hfree
      rw [Bool.and_eq_true, Bool.and_eq_true] at hfree
      exact of_decide_eq_true hfree.1.1

/-- **`sys_open` of a new file does all or nothing exactly when nothing is lacking.**  When it lacks
something, it fails an assertion or faults, or returns an error and leaves the new file in the inode
table and the directory, or leaves an error code as a block number in the inode. -/
theorem open_undone_iff (hl : Layout m) (hp : PointersOk m) (habsent : Absent m path)
    (hpath : path.length < namesize) (hcreate : flags.create = true) (hwrite : flags.write = true) :
    OpensOrUndoes m path flags fds file vnode cs ↔ Available m path fds file vnode cs := by
  have hflags : (flags.create && flags.write) = true := by rw [hcreate, hwrite]; rfl
  -- the call, once the name has been looked up
  have hopen : ∀ {cs₁}, attempt (lookupPath path) m cs = some ((inodeAddr m 1, none), m, cs₁) →
      attempt (sysOpen path flags fds file vnode) m cs =
        (attempt (createFile (inodeAddr m 1) path) m cs₁).bind
        fun r => attempt (installFile flags fds file vnode r.1) r.2.1 r.2.2 := by
    intro cs₁ hlookup
    unfold sysOpen
    rw [if_pos hpath, attempt_bind, hlookup, Option.bind_some]
    dsimp only
    rw [if_pos hflags, attempt_bind]
  constructor
  · rintro ⟨r, fds', m', cs', hrun, hres, hok⟩
    have hsome : ∃ s, attempt (lookupPath path) m cs = some s := by
      unfold sysOpen at hrun
      rw [if_pos hpath] at hrun
      obtain ⟨a, m₁, cs₁, hlookup, -⟩ := attempt_bind_some hrun
      exact ⟨_, hlookup⟩
    obtain ⟨⟨a, m₁, cs₁⟩, hlookup⟩ := hsome
    obtain ⟨ha, hm₁, -⟩ := attempt_lookupPath habsent hlookup
    obtain rfl : a = _ := ha
    obtain rfl : m₁ = m := hm₁
    rw [hopen hlookup] at hrun
    obtain ⟨⟨ino, m₂, cs₂⟩, hmade, hrest⟩ := Option.bind_eq_some_iff.mp hrun
    have hgranted : refused (createFile (inodeAddr m₁ 1) path) m₁ cs₁ = false := by
      by_contra hr
      exact fragile_createFile _ _ _ _ _ (Bool.eq_true_of_not_eq_false hr) hmade
    have hview := attempt_granted hgranted
    rw [hmade] at hview
    rcases view_createFile hl hpath with ⟨i, bn, m₃, hfree, halloc, hcreated, hentry, hrun₃⟩ |
      ⟨hnone, -⟩
    · rw [hrun₃] at hview
      have heq : (ino, m₂) = (inodeAddr m₁ i, m₃) := Option.some.inj hview
      obtain ⟨rfl, rfl⟩ := Prod.mk.inj heq
      rcases attempt_installFile flags fds file vnode (inodeAddr m₁ i) m₂ cs₂ with
        ⟨⟨hfd, hmem⟩, r₁, fds₁, m₄, hinstall, -, hm₄⟩ | ⟨-, herror⟩
      swap
      · -- the error leaves the new file where it is
        obtain ⟨hneg, heq⟩ := herror r fds' _ hrest
        obtain ⟨rfl, -⟩ := Prod.mk.inj heq
        have hun := (hres.resolve_left (Int.not_le.mpr hneg)).2.2
        exact absurd hun (hcreated.changed hfree)
      cases hinstall.symm.trans hrest
      have hcreated' : Created m₁ i bn m' := by
        rcases hm₄ with rfl | rfl
        · exact hcreated
        · exact hcreated.truncate hl hfree.2.1
      exact ⟨⟨_, hlookup, hgranted⟩, ⟨i, hfree⟩,
        ⟨bn, (hcreated'.pointersOk hl hp hfree.2.1 halloc).mp hok⟩, hentry, hfd, hmem⟩
    · rw [hnone] at hview
      cases hview
  · rintro ⟨⟨⟨a, m₁, cs₁⟩, hlookup, hgranted⟩, ⟨i₀, hfree₀⟩, ⟨b, hb⟩, ⟨bi, k, hentry⟩, hfd, hmem⟩
    obtain ⟨ha, hm₁, -⟩ := attempt_lookupPath habsent hlookup
    obtain rfl : a = _ := ha
    obtain rfl : m₁ = m := hm₁
    rcases view_createFile hl hpath with ⟨i, bn, m₂, hfree, halloc, hcreated, -, hrun₂⟩ |
      ⟨-, hnone | hnone⟩
    · obtain ⟨cs₂, hmade⟩ := attempt_some hgranted hrun₂
      rcases attempt_installFile flags fds file vnode (inodeAddr m₁ i) m₂ cs₂ with
        ⟨-, r, fds', m', hinstall, hnonneg, hm'⟩ | ⟨hlacks, -⟩
      swap
      · exact absurd ⟨hfd, hmem⟩ hlacks
      have hcreated' : Created m₁ i bn m' := by
        rcases hm' with rfl | rfl
        · exact hcreated
        · exact hcreated.truncate hl hfree.2.1
      have hbn : isFree m₁ bn = true := by
        refine halloc.resolve_right fun hfull => ?_
        rw [hfull.2 b] at hb
        cases hb
      refine ⟨r, fds', m', cs₂, ?_, .inl hnonneg,
        (hcreated'.pointersOk hl hp hfree.2.1 halloc).mpr hbn⟩
      rw [hopen hlookup, hmade, Option.bind_some]
      exact hinstall
    · exact absurd hfree₀ (hnone i₀)
    · exact absurd hentry (hnone bi k)

end Open

/-! ## An empty directory -/

/-- A file system of 16 blocks, where the directory has room for one file. -/
def emptyDir : Mem :=
  image [(nblocksAddr, 4, 16), (fbbBnAddr, 4, 1), (ninodesAddr, 4, 8), (inodeBnAddr, 4, 2),
    (4096, 2, 0xfff0),
  (8256, 4, 2), (8260, 4, 128), (8276, 4, 3)]

/-- The superblock, and the directory's inode. -/
theorem emptyDir_fields : nblocks emptyDir = 16 ∧ fbbBn emptyDir = 1 ∧ ninodes emptyDir = 8 ∧
    inodeBn emptyDir = 2 ∧ inodeAddr emptyDir 1 = 8256 ∧ rootVal emptyDir 8256 = 0 ∧
    getLE emptyDir (indirectAddr 8256) 4 = 0 := by decide +kernel

theorem emptyDir_addr : inodeAddr emptyDir 1 = 8256 := emptyDir_fields.2.2.2.2.1

theorem emptyDir_fbb : fbbBn emptyDir = 1 := emptyDir_fields.2.1

theorem emptyDir_ninodes : ninodes emptyDir = 8 := emptyDir_fields.2.2.1

theorem emptyDir_inodeBlock {i : Nat} (hi : i < ninodes emptyDir) : i < 8 ∧
    inodeBlock (inodeBn emptyDir) i = 2 := by
  obtain ⟨-, -, hninodes, hbn, -⟩ := emptyDir_fields
  rw [hninodes] at hi
  have hlt : i < 8 := by omega
  rw [hbn]
  unfold inodeBlock inodesperblock blocksize inodesize
  omega

/-- The only block of the directory is block 3, and no inode has another. -/
theorem emptyDir_blocks : (∀ bi < ndirect, dataVal emptyDir 8256 bi = if bi = 0 then 3 else 0) ∧
    ∀ i < 8, ∀ k < ndirect + 2, getLE emptyDir (directAddr (inodeAddr emptyDir i) k) 4 <
    nblocks emptyDir := by
  decide +kernel

theorem emptyDir_val {s : Slot} (hs : s.Ok) :
    val emptyDir 8256 s = if s = .data 0 then 3 else 0 := by
  obtain ⟨-, -, -, -, -, hroot, hsingle⟩ := emptyDir_fields
  rcases val_direct hroot hsingle hs with ⟨bi, hbi, rfl⟩ | ⟨hne, hz⟩
  · change dataVal emptyDir 8256 bi = _
    rw [emptyDir_blocks.1 bi hbi]
    simp only [Slot.data.injEq]
  · rw [hz, if_neg (hne 0 (by decide))]

theorem emptyDir_layout : Layout emptyDir := by
  refine ⟨?_, ?_, fun i hi => ?_, fun s ok hne => ?_⟩
  · rw [emptyDir_fields.1]
    decide
  · rw [emptyDir_fbb]
    decide
  · rw [(emptyDir_inodeBlock hi).2, emptyDir_fbb]
    decide
  · rw [emptyDir_addr, emptyDir_val ok] at hne ⊢
    split at hne
    · rename_i hs
      rw [if_pos hs, emptyDir_fbb]
      refine ⟨by decide, fun i hi => ?_⟩
      rw [(emptyDir_inodeBlock hi).2]
      decide
    · exact absurd rfl hne

theorem emptyDir_pointers : PointersOk emptyDir :=
  fun i hi => emptyDir_blocks.2 i (emptyDir_inodeBlock hi).1

theorem emptyDir_absent : Absent emptyDir [97] := ⟨8256, rfl⟩

/-- `OF_WRITE | OF_CREATE`. -/
def writeCreate : OpenFlags := ⟨false, true, true, false⟩

/-- Inode 2, block 4 and the first entry of the directory are free. -/
theorem emptyDir_available : getLE emptyDir (typeAddr (inodeAddr emptyDir 2)) 4 = 0 ∧
    isFree emptyDir 4 = true ∧ (∀ bj ≤ 0, dataVal emptyDir 8256 bj ≠ 0) ∧
    0 * direntsize < blockBytes (fileSize emptyDir 8256) (0 * blocksize) ∧
    getLE emptyDir (direntAddr emptyDir 8256 0 0) 4 = 0 := by decide +kernel

/-- The first file. -/
theorem open_first_file : OpensOrUndoes emptyDir [97] writeCreate (fun _ => none) true true [] := by
  obtain ⟨hinode, hblock, hmapped, hinside, hempty⟩ := emptyDir_available
  refine (open_undone_iff emptyDir_layout emptyDir_pointers emptyDir_absent (by decide) rfl rfl).mpr
    ⟨⟨((8256, none), emptyDir, []), rfl, rfl⟩, ⟨2, by decide, ?_, hinode⟩, ⟨4, hblock⟩, ⟨0, 0, ?_⟩,
      ⟨0, by decide, rfl⟩, rfl, rfl⟩
  · rw [emptyDir_ninodes]
    decide
  · rw [emptyDir_addr]
    exact ⟨hmapped, by decide, hinside, hempty⟩

/-- No memory for the file: the call returns an error, and the new file stays. -/
theorem open_leaves_file : Layout emptyDir ∧ PointersOk emptyDir ∧ Absent emptyDir [97] ∧
    ¬ OpensOrUndoes emptyDir [97] writeCreate (fun _ => none) false false [] := by
  refine ⟨emptyDir_layout, emptyDir_pointers, emptyDir_absent, ?_⟩
  rintro ⟨r, fds', m', cs', hrun, hres, -⟩
  have heval : (attempt (sysOpen [97] writeCreate (fun _ => none) false false) emptyDir []).map
      (fun s => (s.1.1, getLE s.2.1 (inodeAddr emptyDir 2) 4)) = some (Errno.E_NOMEM, 1) := by
        decide +kernel
  rw [hrun, Option.map_some, Option.some.injEq, Prod.mk.injEq] at heval
  obtain ⟨hr, htype⟩ := heval
  have hneg : r < 0 := by
    change r = Errno.E_NOMEM at hr
    rw [hr]
    decide
  have hun := (hres.resolve_left (Int.not_le.mpr hneg)).2.2
  have hin : ((2 : Nat) : Int) < ninodes emptyDir := by
    rw [emptyDir_ninodes]
    decide
  have hsame : getLE m' (inodeAddr emptyDir 2) 4 = getLE emptyDir (inodeAddr emptyDir 2) 4 := by
    refine getLE_congr fun x hx₁ hx₂ => ?_
    obtain ⟨k, rfl⟩ := Nat.exists_eq_add_of_le hx₁
    exact hun.inode 2 hin k (by unfold inodesize; omega)
  have hzero : getLE emptyDir (inodeAddr emptyDir 2) 4 = 0 := emptyDir_available.1
  rw [hsame, hzero] at htype
  exact absurd htype (by decide)

end PugOS.ChkFS
