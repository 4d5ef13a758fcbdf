import PugOS.MkfsFits
import PugOS.Renumber

/-! # `shuffle_blocks`

The pointers of every inode are renumbered in place, then the blocks are moved to their new numbers,
and then the bitmap is rebuilt.  The files lie apart from each other, so that every pointer is
renumbered exactly once, and every file reads the same as before (`shuffle_preserves`), whatever the
order is that `std::shuffle` chooses.
-/
namespace PugOS.Mkfs
open Bytes Ring ChkFS Renumber
open Journal (blocksize)
open BlockAlloc (Options Superblock nfbb)

/-! ## The functions -/

section Pointers
variable (perm : List Nat) (present : Nat → Bool)

/-- `p = to_le(perm[from_le(p)])`, for the pointer at `a`. -/
def shufflePtr (mem : Mem) (a : Nat) : Option Mem := do
  let b ← perm[getLE mem a 4]?
  return putLE mem a 4 b

/-- A loop over pointers. -/
def shufflePtrs (mem : Mem) (addrs : List Nat) : Option Mem := addrs.foldlM (shufflePtr perm) mem

/-- The pointers of an indirect block. -/
def shuffleIndirect (mem : Mem) (bn : Nat) : Option Mem :=
  if present bn then shufflePtrs perm mem ((List.range nindirect).map (entryAddr bn)) else none

/-- Those of a doubly indirect one, and of the blocks below it. -/
def shuffleIndirect2 (mem : Mem) (bn : Nat) : Option Mem :=
  if present bn then
    (List.range nindirect).foldlM (fun mem i => do
      let mem ← shuffleIndirect perm present mem (getLE mem (entryAddr bn i) 4)
      shufflePtr perm mem (entryAddr bn i)) mem
  else none

/-- `if (from_le(p))`, for the pointer at `a`: the block it is to, and then the pointer. -/
def shuffleTo (block : Mem → Nat → Option Mem) (mem : Mem) (a : Nat) : Option Mem :=
  if getLE mem a 4 ≠ 0 then do shufflePtr perm (← block mem (getLE mem a 4)) a else some mem

/-- Those of an inode. -/
def shuffleInode (mem : Mem) (ino : Nat) : Option Mem := do
  let mem ← shufflePtrs perm mem ((List.range ndirect).map (directAddr ino))
  let mem ← shuffleTo perm (shuffleIndirect perm present) mem (indirectAddr ino)
  shuffleTo perm (shuffleIndirect2 perm present) mem (indirect2Addr ino)

end Pointers

section Shuffle
variable (sb : Superblock)

/-- The first block to be shuffled. -/
def shuffleStart (im : Image) (preserveInode2 : Bool) : Option Nat :=
  if preserveInode2 then do
    let ino ← getInode sb 2
    if getLE im.mem (sizeAddr ino) 4 ≠ 0 then
      if getLE im.mem (directAddr ino 0) 4 = sb.dataBn then
        return sb.dataBn + (getLE im.mem (sizeAddr ino) 4 + blocksize - 1) / blocksize
      else none
    else return sb.dataBn
  else some sb.dataBn

/-- `shufflein`. -/
def shuffleIn (freeb dataBn : Nat) : List Nat :=
  (List.range sb.nblocks).filter fun b => dataBn ≤ b ∧ b < sb.journalBn ∧ b < freeb + 128

/-- The loop over the inodes. -/
def shuffleInodes (perm : List Nat) (present : Nat → Bool) (mem : Mem) (inums : List Nat) :
    Option Mem :=
  inums.foldlM (fun mem i => do shuffleInode perm present mem (← getInode sb i)) mem

/-- `new_blocks[perm[b]] = blocks[b]`. -/
def moveBlock (perm : List Nat) (im new : Image) (b : Nat) : Option Image := do
  let p ← perm[b]?
  return { new.newBlock p fun x => im.mem (b * blocksize + x) with
    present := Function.update new.present p (im.present b) }

/-- The loop over the blocks; `new_blocks` has null pointers before it. -/
def moveBlocks (perm : List Nat) (im : Image) : Option Image :=
  (List.range sb.nblocks).foldlM (moveBlock perm im)
    { im with mem := fun _ => 0, present := fun _ => false }

/-- The free bit of block `b`, in the new bitmap. -/
def moveBit (perm : List Nat) (mem fbb : Mem) (b : Nat) : Option Mem :=
  if free mem (sb.fbbBn * blocksize) b then do
    let xb ← perm[b]?
    return setBit fbb 0 xb
  else some fbb

/-- The new bitmap. -/
def shuffleFbb (perm : List Nat) (mem : Mem) : Option Mem := do
  let fbb ← (List.range sb.nblocks).foldlM (moveBit sb perm mem) fun _ => 0
  return store mem (sb.fbbBn * blocksize) (slice fbb 0 ((sb.inodeBn - sb.fbbBn) * blocksize))

/-- `shuffle` is what `std::shuffle` does. -/
def shuffleBlocks (shuffle : List Nat → List Nat) (preserveInode2 : Bool) (im : Image) :
    Option Image := do
  let dataBn ← shuffleStart sb im preserveInode2
  let shufflein := shuffleIn sb im.freeb dataBn
  let perm := table sb.nblocks shufflein (shuffle shufflein)
  let mem ← shuffleInodes sb perm im.present im.mem (List.range' 1 (im.freeinode - 1))
  let im ← moveBlocks sb perm { im with mem := mem }
  return { im with mem := ← shuffleFbb sb perm im.mem }

end Shuffle

/-! ## Renumbering pointers -/

variable {sb : Superblock} {im im' : Image} {m m' m₁ : Mem} {p q : Placed} {placed : List Placed}
  {perm : List Nat} {π : Nat → Nat} {present : Nat → Bool} {a b c x n bi lo hi ino : Nat}
  {addrs : List Nat}

/-- The pointers at the addresses have been renumbered, and nothing else is different. -/
structure Renumbered (π : Nat → Nat) (addrs : List Nat) (m m' : Mem) : Prop where
  ptr : ∀ a ∈ addrs, getLE m' a 4 = π (getLE m a 4)
  frame : ∀ x, (∀ a ∈ addrs, x < a ∨ a + 4 ≤ x) → m' x = m x

theorem shufflePtr_spec (h : Renumbering perm n π) (hn : n ≤ 2 ^ 32) (hlt : getLE m a 4 < n) :
    shufflePtr perm m a = some (putLE m a 4 (π (getLE m a 4))) ∧
      getLE (putLE m a 4 (π (getLE m a 4))) a 4 = π (getLE m a 4) := by
  have hπ := h.lt _ hlt
  refine ⟨?_, getLE_putLE m a (show _ < 256 ^ 4 by omega)⟩
  unfold shufflePtr
  rw [h.get _ hlt]
  rfl

/-- **Every pointer is renumbered once.** -/
theorem shufflePtrs_spec (h : Renumbering perm n π) (hn : n ≤ 2 ^ 32) :
    ∀ {addrs : List Nat} {m : Mem}, addrs.Pairwise (fun a b => a + 4 ≤ b ∨ b + 4 ≤ a) →
    (∀ a ∈ addrs, getLE m a 4 < n) → ∃ m', shufflePtrs perm m addrs = some m' ∧
    Renumbered π addrs m m' := by
  intro addrs
  induction addrs with
  | nil => exact fun _ _ => ⟨_, rfl, fun a ha => absurd ha List.not_mem_nil, fun _ _ => rfl⟩
  | cons a addrs ih =>
    intro m happart hlt
    obtain ⟨ha, happart⟩ := List.pairwise_cons.mp happart
    obtain ⟨hfirst, hput⟩ := shufflePtr_spec h hn (hlt a List.mem_cons_self)
    have hsame : ∀ b ∈ addrs, getLE (putLE m a 4 (π (getLE m a 4))) b 4 = getLE m b 4 :=
      fun b hb => getLE_putLE_frame (by have := ha b hb; omega)
    obtain ⟨m', hrest, hrenum⟩ := @ih (putLE m a 4 (π (getLE m a 4))) happart fun b hb => by
      rw [hsame b hb]
      exact hlt b (List.mem_cons_of_mem _ hb)
    refine ⟨m', ?_, fun b hb => ?_, fun x hx => ?_⟩
    · unfold shufflePtrs at *
      rw [List.foldlM_cons, hfirst]
      exact hrest
    · rcases List.mem_cons.mp hb with rfl | hb
      · rw [← hput]
        refine getLE_congr fun x h₁ h₂ => hrenum.frame x fun c hc => ?_
        have := ha c hc
        omega
      · rw [hrenum.ptr b hb, hsame b hb]
    · rw [hrenum.frame x fun b hb => hx b (List.mem_cons_of_mem _ hb)]
      have := hx a List.mem_cons_self
      exact putLE_of_not_mem (by omega)

/-- The file's pointers have been renumbered, those in its indirect block with them, where it was.
-/
structure Placed.Repointed (p : Placed) (π : Nat → Nat) (m : Mem) (ino : Nat) : Prop where
  size : getLE m (sizeAddr ino) 4 = p.data.length
  direct : ∀ i < ndirect, getLE m (directAddr ino i) 4 = π (p.ptr i)
  indirect : getLE m (indirectAddr ino) 4 = π p.ind
  indirect2 : getLE m (indirect2Addr ino) 4 = 0
  entry : p.ind ≠ 0 → ∀ i < nindirect, getLE m (entryAddr p.ind i) 4 = π (p.ptr (ndirect + i))

theorem direct_apart (ino : Nat) :
    ((List.range ndirect).map (directAddr ino)).Pairwise fun a b => a + 4 ≤ b ∨ b + 4 ≤ a := by
  refine List.pairwise_map.mpr (List.pairwise_lt_range.imp fun hlt => .inl ?_)
  unfold directAddr
  omega

theorem entry_apart (bn : Nat) :
    ((List.range nindirect).map (entryAddr bn)).Pairwise fun a b => a + 4 ≤ b ∨ b + 4 ≤ a := by
  refine List.pairwise_map.mpr (List.pairwise_lt_range.imp fun hlt => .inl ?_)
  unfold entryAddr
  omega

theorem Placed.Within.ptr_lt (h : p.Within lo hi) (hhi : hi ≤ n) (hpos : 0 < n) : p.ptr bi < n := by
  unfold Placed.ptr
  split
  · rename_i hlt
    have := h.has (.inl ⟨Nat.le_add_right p.first bi, Nat.add_lt_add_left (lt_dataBlocks hlt) _⟩)
    omega
  · exact hpos

theorem Placed.Within.ind_lt (h : p.Within lo hi) (hne : p.ind ≠ 0) : lo ≤ p.ind ∧ p.ind < hi :=
  h.has (.inr ⟨hne, rfl⟩)

/-- The indirect block and the pointer to it. -/
theorem shuffleTo_spec (h : Renumbering perm n π) (hn : n ≤ 2 ^ 32) (hpos : 0 < n) (hfix : π 0 = 0)
    (hp : getLE m (indirectAddr ino) 4 = p.ind) (hw : p.Within lo hi) (hhi : hi ≤ n)
    (hapart : ino + inodesize ≤ lo * blocksize)
    (hentry : p.ind ≠ 0 → ∀ i < nindirect, getLE m (entryAddr p.ind i) 4 = p.ptr (ndirect + i))
    (hpresent : ∀ b, p.Has b → present b = true) :
    ∃ m', shuffleTo perm (shuffleIndirect perm present) m (indirectAddr ino) = some m' ∧
      getLE m' (indirectAddr ino) 4 = π p.ind ∧
      (p.ind ≠ 0 → ∀ i < nindirect, getLE m' (entryAddr p.ind i) 4 = π (p.ptr (ndirect + i))) ∧
      ∀ x, x < ino + 56 ∨ ino + 60 ≤ x → (p.ind ≠ 0 → x / blocksize ≠ p.ind) → m' x = m x := by
  unfold shuffleTo
  rw [hp]
  by_cases hz : p.ind = 0
  · rw [if_neg (not_not.mpr hz)]
    refine ⟨m, rfl, ?_, fun hne => absurd hz hne, fun _ _ _ => rfl⟩
    rw [hp, hz, hfix]
  · rw [if_pos hz]
    obtain ⟨hlo, hlt⟩ := hw.ind_lt hz
    have hblock : ino + inodesize ≤ p.ind * blocksize :=
      Nat.le_trans hapart (Nat.mul_le_mul_right _ hlo)
    obtain ⟨m₁, hrun, hrenum⟩ := shufflePtrs_spec h hn (m := m) (entry_apart p.ind) fun a ha => by
      obtain ⟨i, hi, rfl⟩ := List.mem_map.mp ha
      rw [hentry hz i (List.mem_range.mp hi)]
      exact hw.ptr_lt hhi hpos
    have hinside : ∀ x, x / blocksize ≠ p.ind → m₁ x = m x := by
      refine fun x hx => hrenum.frame x fun a ha => ?_
      obtain ⟨i, hi, rfl⟩ := List.mem_map.mp ha
      have := List.mem_range.mp hi
      unfold entryAddr nindirect blocksize at *
      omega
    have hptr : getLE m₁ (indirectAddr ino) 4 = p.ind := by
      rw [← hp]
      refine getLE_congr fun x h₁ h₂ => hinside x ?_
      unfold indirectAddr inodesize at *
      have := block_lt (show x < p.ind * blocksize by omega)
      omega
    obtain ⟨hput, hget⟩ := shufflePtr_spec h hn (hptr.symm ▸ Nat.lt_of_lt_of_le hlt hhi)
    rw [hptr] at hput hget
    refine ⟨putLE m₁ (indirectAddr ino) 4 (π p.ind), ?_, hget, fun _ i hi => ?_, fun x hx hne => ?_⟩
    · unfold shuffleIndirect
      rw [if_pos (hpresent _ (.inr ⟨hz, rfl⟩)), hrun]
      exact hput
    · rw [getLE_putLE_frame (by unfold indirectAddr entryAddr inodesize at *; omega),
        hrenum.ptr _ (List.mem_map.mpr ⟨i, List.mem_range.mpr hi, rfl⟩), hentry hz i hi]
    · rw [putLE_of_not_mem (by unfold indirectAddr; omega)]
      exact hinside x (hne hz)

/-- **The pointers of one file are renumbered.** -/
theorem shuffleInode_spec (h : Renumbering perm n π) (hn : n ≤ 2 ^ 32) (hpos : 0 < n)
    (hfix : π 0 = 0) (hp : p.Laid m ino) (hw : p.Within lo hi) (hhi : hi ≤ n)
    (hapart : ino + inodesize ≤ lo * blocksize) (hpresent : ∀ b, p.Has b → present b = true) :
    ∃ m', shuffleInode perm present m ino = some m' ∧ p.Repointed π m' ino ∧
      ∀ x, x < ino + 20 ∨ ino + 60 ≤ x → (p.ind ≠ 0 → x / blocksize ≠ p.ind) → m' x = m x := by
  obtain ⟨m₁, hrun, hrenum⟩ := shufflePtrs_spec h hn (m := m) (direct_apart ino) fun a ha => by
    obtain ⟨i, hi, rfl⟩ := List.mem_map.mp ha
    rw [hp.direct i (List.mem_range.mp hi)]
    exact hw.ptr_lt hhi hpos
  have hframe₁ : ∀ x, x < ino + 20 ∨ ino + 56 ≤ x → m₁ x = m x := by
    refine fun x hx => hrenum.frame x fun a ha => ?_
    obtain ⟨i, hi, rfl⟩ := List.mem_map.mp ha
    have := List.mem_range.mp hi
    unfold directAddr ndirect at *
    omega
  have hblock : p.ind ≠ 0 → ino + inodesize ≤ p.ind * blocksize :=
    fun hne => Nat.le_trans hapart (Nat.mul_le_mul_right _ (hw.ind_lt hne).1)
  have hbelow : ∀ x, x < ino + inodesize → p.ind ≠ 0 → x / blocksize ≠ p.ind := by
    intro x hx hne
    have := block_lt (Nat.lt_of_lt_of_le hx (hblock hne))
    omega
  have hind₁ : getLE m₁ (indirectAddr ino) 4 = p.ind := by
    rw [← hp.indirect]
    exact getLE_congr fun x h₁ _ => hframe₁ x (.inr h₁)
  obtain ⟨m₂, hto, hind, hentry, hframe₂⟩ := shuffleTo_spec h hn hpos hfix hind₁ hw hhi hapart
    (fun hne i hi => by
      rw [← hp.entry hne i hi]
      have := hblock hne
      unfold entryAddr inodesize at *
      exact getLE_congr fun x h₁ _ => hframe₁ x (by omega))
    hpresent
  have hfield : ∀ o, o + 4 ≤ 56 ∨ 60 ≤ o ∧ o + 4 ≤ inodesize →
      getLE m₂ (ino + o) 4 = getLE m₁ (ino + o) 4 := by
    intro o ho
    refine getLE_congr fun x h₁ h₂ => hframe₂ x (by omega) (hbelow x ?_)
    unfold inodesize at *
    omega
  have hroot : getLE m₂ (indirect2Addr ino) 4 = 0 := by
    have hsame : getLE m₁ (ino + 60) 4 = getLE m (ino + 60) 4 :=
      getLE_congr fun x h₁ _ => hframe₁ x (by omega)
    exact ((hfield 60 (by decide)).trans hsame).trans hp.indirect2
  refine ⟨m₂, ?_, ⟨?_, fun i hi => ?_, hind, hroot, hentry⟩, fun x hx hne => ?_⟩
  · unfold shuffleInode
    rw [hrun, Option.bind_eq_bind, Option.bind_some, hto, Option.bind_some]
    unfold shuffleTo
    rw [if_neg (not_not.mpr hroot)]
  · rw [← hp.size]
    have hsame : getLE m₁ (ino + 4) 4 = getLE m (ino + 4) 4 :=
      getLE_congr fun x _ h₂ => hframe₁ x (by omega)
    exact (hfield 4 (by decide)).trans hsame
  · have := hfield (20 + 4 * i) (by unfold ndirect at hi; omega)
    rw [← Nat.add_assoc] at this
    exact this.trans ((hrenum.ptr _ (List.mem_map.mpr ⟨i, List.mem_range.mpr hi, rfl⟩)).trans
      (congrArg π (hp.direct i hi)))
  · rw [hframe₂ x (by omega) hne, hframe₁ x (by omega)]

/-! ## The inodes one after another -/

/-- The file has an inode, and its blocks are below `n`. -/
structure Placed.Fits (p : Placed) (sb : Superblock) (n : Nat) : Prop where
  inum : p.inum < sb.ninodes
  blocks : ∃ lo hi, sb.dataBn ≤ lo ∧ hi ≤ n ∧ p.Within lo hi

/-- The address is not in one of the file's pointers. -/
def Placed.Away (p : Placed) (sb : Superblock) (x : Nat) : Prop :=
  (x < inodeAt sb p.inum + 20 ∨ inodeAt sb p.inum + 60 ≤ x) ∧ (p.ind ≠ 0 → x / blocksize ≠ p.ind)

/-- Two files that share nothing. -/
def Separate (p q : Placed) : Prop := p.inum ≠ q.inum ∧ ∀ b, p.Has b → ¬q.Has b

theorem Separate.symm (h : Separate p q) : Separate q p := ⟨h.1.symm, fun b hq hp => h.2 b hp hq⟩

theorem Placed.Fits.has_ge (h : p.Fits sb n) (hb : p.Has b) : sb.dataBn ≤ b ∧ b < n := by
  obtain ⟨lo, hi, hlo, hhi, hw⟩ := h.blocks
  have := hw.has hb
  omega

/-- Another inode is away from the pointers of a file. -/
theorem Placed.Fits.away_inode (g : Geometry sb) (h : q.Fits sb n) (hp : p.Fits sb n)
    (hsep : Separate p q) (h₁ : inodeAt sb p.inum ≤ x) (h₂ : x < inodeAt sb p.inum + inodesize) :
    q.Away sb x := by
  have hapart := @inodeAt_apart sb _ _ hsep.1
  refine ⟨by unfold inodesize at *; omega, fun hne heq => ?_⟩
  have hge := (h.has_ge (.inr ⟨hne, rfl⟩)).1
  have hlt := block_lt (Nat.lt_of_lt_of_le h₂ (g.inode_lt hp.inum).2)
  omega

/-- So is a block of the data that is not one of the file's. -/
theorem Placed.Fits.away_block (g : Geometry sb) (h : q.Fits sb n)
    (hdata : sb.dataBn * blocksize ≤ x) (hout : ¬q.Has (x / blocksize)) : q.Away sb x := by
  have := (g.inode_lt h.inum).2
  refine ⟨.inr ?_, fun hne heq => hout (.inr ⟨hne, heq⟩)⟩
  unfold inodesize at this
  omega

theorem Placed.Repointed.congr (h : p.Repointed π m ino)
    (hino : ∀ a, ino ≤ a → a < ino + inodesize → m' a = m a)
    (hblock : p.ind ≠ 0 → ∀ a, a / blocksize = p.ind → m' a = m a) : p.Repointed π m' ino := by
  have hfield : ∀ o, o + 4 ≤ inodesize → getLE m' (ino + o) 4 = getLE m (ino + o) 4 :=
    fun o ho => getLE_congr fun x h₁ h₂ => hino x (by omega) (by omega)
  refine ⟨(hfield 4 (by decide)).trans h.size, fun i hi => ?_,
    (hfield 56 (by decide)).trans h.indirect, (hfield 60 (by decide)).trans h.indirect2,
    fun hne i hi => ?_⟩
  · have := hfield (20 + 4 * i) (by unfold ndirect at hi; unfold inodesize; omega)
    rw [← Nat.add_assoc] at this
    exact this.trans (h.direct i hi)
  · rw [← h.entry hne i hi]
    refine getLE_congr fun x h₁ h₂ => hblock hne x ?_
    unfold entryAddr nindirect blocksize at *
    omega

theorem mul_le_of_div {k : Nat} (h : k ≤ x / blocksize) : k * blocksize ≤ x :=
  Nat.le_trans (Nat.mul_le_mul_right _ h) (Nat.div_mul_le_self x blocksize)

/-- **The pointers of all files are renumbered**, and nothing else is different. -/
theorem shuffleInodes_spec (g : Geometry sb) (h : Renumbering perm n π) (hn : n ≤ 2 ^ 32)
    (hpos : 0 < n) (hfix : π 0 = 0) :
    ∀ {todo : List Placed} {m : Mem}, (∀ p ∈ todo, p.Laid m (inodeAt sb p.inum)) →
    (∀ p ∈ todo, p.Fits sb n) →
      (∀ p ∈ todo, ∀ b, p.Has b → present b = true) → todo.Pairwise Separate →
      ∃ m', shuffleInodes sb perm present m (todo.map Placed.inum) = some m' ∧
        (∀ p ∈ todo, p.Repointed π m' (inodeAt sb p.inum)) ∧ ∀ x, (∀ p ∈ todo, p.Away sb x) →
        m' x = m x := by
  intro todo
  induction todo with
  | nil => exact fun _ _ _ _ => ⟨_, rfl, fun p hp => absurd hp List.not_mem_nil, fun _ _ => rfl⟩
  | cons p todo ih =>
    intro m hlaid hfits hpresent hsep
    obtain ⟨hpsep, hsep⟩ := List.pairwise_cons.mp hsep
    have hpfits := hfits p List.mem_cons_self
    obtain ⟨lo, hi, hlo, hhi, hw⟩ := hpfits.blocks
    have hino := (g.inode_lt hpfits.inum).2
    obtain ⟨m₁, hrun, hpoint, hframe⟩ := shuffleInode_spec h hn hpos hfix
      (hlaid p List.mem_cons_self) hw hhi (Nat.le_trans hino (Nat.mul_le_mul_right _ hlo))
      (hpresent p List.mem_cons_self)
    have hqfits : ∀ q ∈ todo, q.Fits sb n := fun q hq => hfits q (List.mem_cons_of_mem _ hq)
    -- the files that follow are as before
    have hlaid₁ : ∀ q ∈ todo, q.Laid m₁ (inodeAt sb q.inum) := by
      intro q hq
      have hqsep := (hpsep q hq).symm
      refine (hlaid q (List.mem_cons_of_mem _ hq)).congr (fun a h₁ h₂ => ?_) fun a ha => ?_
      · have haway := hpfits.away_inode g (hqfits q hq) hqsep h₁ h₂
        exact hframe a haway.1 haway.2
      · have haway := hpfits.away_block g (mul_le_of_div ((hqfits q hq).has_ge ha).1) (hqsep.2 _ ha)
        exact hframe a haway.1 haway.2
    obtain ⟨m', hrest, hpoint', hframe'⟩ :=
      ih hlaid₁ hqfits (fun q hq => hpresent q (List.mem_cons_of_mem _ hq)) hsep
    refine ⟨m', ?_, fun q hq => ?_, fun x hx => ?_⟩
    · have hstep : (do shuffleInode perm present m (← getInode sb p.inum)) = some m₁ := by
        rw [show getInode sb p.inum = some (inodeAt sb p.inum) from if_pos hpfits.inum]
        exact hrun
      unfold shuffleInodes at *
      rw [List.map_cons, List.foldlM_cons, hstep]
      exact hrest
    · rcases List.mem_cons.mp hq with rfl | hq
      · refine hpoint.congr (fun a h₁ h₂ => hframe' a fun r hr => ?_) fun hne a ha =>
          hframe' a fun r hr => ?_
        · exact (hqfits r hr).away_inode g hpfits (hpsep r hr) h₁ h₂
        · have hhas : q.Has (a / blocksize) := .inr ⟨hne, ha⟩
          exact (hqfits r hr).away_block g (mul_le_of_div (hpfits.has_ge hhas).1)
            ((hpsep r hr).2 _ hhas)
      · exact hpoint' q hq
    · have haway := hx p List.mem_cons_self
      rw [hframe' x fun q hq => hx q (List.mem_cons_of_mem _ hq), hframe x haway.1 haway.2]

/-! ## Moving the blocks -/

/-- The blocks below `k` have been moved. -/
structure MovedBelow (π : Nat → Nat) (im new : Image) (k : Nat) : Prop where
  block : ∀ b < k, ∀ x < blocksize, new.mem (π b * blocksize + x) = im.mem (b * blocksize + x)
  present : ∀ b < k, new.present (π b) = im.present b
  /-- what no block has been moved to -/
  rest : ∀ c, (∀ b < k, π b ≠ c) → new.present c = false ∧
    ∀ x < blocksize, new.mem (c * blocksize + x) = 0
  freeb : new.freeb = im.freeb
  freeinode : new.freeinode = im.freeinode

theorem MovedBelow.step {new : Image} {k : Nat} (h : MovedBelow π im new k)
    (hperm : Renumbering perm n π) (hk : k < n) : ∃ new', moveBlock perm im new k = some new' ∧
    MovedBelow π im new' (k + 1) := by
  have hother : ∀ c, c ≠ π k → ∀ x < blocksize, ¬(c * blocksize + x) / blocksize = π k := by
    intro c hc x hx
    rwa [block_add, Nat.div_eq_of_lt hx, Nat.add_zero]
  have hself : ∀ x < blocksize, (π k * blocksize + x) / blocksize = π k ∧
      (π k * blocksize + x) % blocksize = x := by
    intro x hx
    rw [block_add, Nat.div_eq_of_lt hx, Nat.add_comm (π k * blocksize), Nat.add_mul_mod_self_right]
    exact ⟨Nat.add_zero _, Nat.mod_eq_of_lt hx⟩
  have hne : ∀ b < k, π b ≠ π k :=
    fun b hb heq => absurd (hperm.inj b (by omega) k hk heq) (by omega)
  refine ⟨{ new.newBlock (π k) fun x => im.mem (k * blocksize + x) with
    present := Function.update new.present (π k) (im.present k) }, ?_, fun b hb x hx =>
      ?_, fun b hb => ?_, fun c hc => ?_,
    h.freeb, h.freeinode⟩
  · unfold moveBlock
    rw [hperm.get k hk]
    rfl
  · rcases Nat.lt_succ_iff_lt_or_eq.mp hb with hb | rfl
    · exact (if_neg (hother _ (hne b hb) x hx)).trans (h.block b hb x hx)
    · obtain ⟨hdiv, hmod⟩ := hself x hx
      refine (if_pos hdiv).trans ?_
      rw [hmod]
  · rcases Nat.lt_succ_iff_lt_or_eq.mp hb with hb | rfl
    · exact (Function.update_of_ne (hne b hb) ..).trans (h.present b hb)
    · exact Function.update_self ..
  · have hck : c ≠ π k := (hc k (Nat.lt_succ_self k)).symm
    obtain ⟨hpresent, hzero⟩ := h.rest c fun b hb => hc b (Nat.lt_succ_of_lt hb)
    exact ⟨(Function.update_of_ne hck ..).trans hpresent,
      fun x hx => (if_neg (hother c hck x hx)).trans (hzero x hx)⟩

/-- **Every block is moved to its new number.** -/
theorem moveBlocks_spec (hperm : Renumbering perm sb.nblocks π) (im : Image) :
    ∃ new, moveBlocks sb perm im = some new ∧ MovedBelow π im new sb.nblocks := by
  unfold moveBlocks
  suffices h : ∀ k ≤ sb.nblocks, ∃ new,
      (List.range k).foldlM (moveBlock perm im)
        { im with mem := fun _ => 0, present := fun _ => false } = some new ∧
        MovedBelow π im new k from h _ (Nat.le_refl _)
  intro k
  induction k with
  | zero =>
    exact fun _ =>
      ⟨_, rfl, fun b hb => absurd hb (Nat.not_lt_zero b), fun b hb => absurd hb (Nat.not_lt_zero b),
      fun _ _ => ⟨rfl, fun _ _ => rfl⟩, rfl, rfl⟩
  | succ k ih =>
    intro hk
    obtain ⟨new, hrun, hmoved⟩ := ih (by omega)
    obtain ⟨new', hstep, hmoved'⟩ := hmoved.step hperm hk
    refine ⟨new', ?_, hmoved'⟩
    rw [List.range_succ, List.foldlM_append, hrun, Option.bind_eq_bind, Option.bind_some,
      List.foldlM_cons, hstep]
    rfl

/-! ## Rebuilding the bitmap -/

/-- **A bit of the new bitmap is that of the block which was moved there.** -/
theorem moveBits_spec (hperm : Renumbering perm n π) : ∀ k ≤ n, ∃ fbb,
    (List.range k).foldlM (moveBit sb perm m) (fun _ => 0) = some fbb ∧
      ∀ c, free fbb 0 c = true ↔ ∃ b < k, π b = c ∧ free m (sb.fbbBn * blocksize) b = true := by
  intro k
  induction k with
  | zero =>
    refine fun _ =>
      ⟨_, rfl, fun c => ⟨fun h => ?_, fun ⟨b, hb, _⟩ => absurd hb (Nat.not_lt_zero b)⟩⟩
    exact absurd ((bitSet_zero c).symm.trans h) Bool.false_ne_true
  | succ k ih =>
    intro hk
    obtain ⟨fbb, hrun, hbits⟩ := ih (by omega)
    rw [List.range_succ, List.foldlM_append, hrun, Option.bind_eq_bind, Option.bind_some,
      List.foldlM_cons]
    unfold moveBit
    by_cases hfree : free m (sb.fbbBn * blocksize) k = true
    · rw [if_pos hfree, hperm.get k hk]
      refine ⟨_, rfl, fun c => ?_⟩
      have hor : free (setBit fbb 0 (π k)) 0 c = (free fbb 0 c || decide (c = π k)) := free_setBit
      rw [hor, Bool.or_eq_true, decide_eq_true_eq, hbits]
      constructor
      · rintro (⟨b, hb, hc, hset⟩ | rfl)
        · exact ⟨b, Nat.lt_succ_of_lt hb, hc, hset⟩
        · exact ⟨k, Nat.lt_succ_self k, rfl, hfree⟩
      · rintro ⟨b, hb, hc, hset⟩
        rcases Nat.lt_succ_iff_lt_or_eq.mp hb with hb | rfl
        · exact .inl ⟨b, hb, hc, hset⟩
        · exact .inr hc.symm
    · rw [if_neg hfree]
      refine ⟨fbb, rfl, fun c => ?_⟩
      rw [hbits]
      constructor
      · rintro ⟨b, hb, hc⟩
        exact ⟨b, Nat.lt_succ_of_lt hb, hc⟩
      · rintro ⟨b, hb, hc, hset⟩
        rcases Nat.lt_succ_iff_lt_or_eq.mp hb with hb | rfl
        · exact ⟨b, hb, hc, hset⟩
        · exact absurd hset hfree

theorem shuffleFbb_spec (g : Geometry sb) (hperm : Renumbering perm sb.nblocks π) :
    ∃ m', shuffleFbb sb perm m = some m' ∧
      (∀ b < sb.nblocks, free m' (sb.fbbBn * blocksize) (π b) = free m (sb.fbbBn * blocksize) b) ∧
      ∀ a, a < sb.fbbBn * blocksize ∨ sb.inodeBn * blocksize ≤ a → m' a = m a := by
  obtain ⟨fbb, hrun, hbits⟩ := @moveBits_spec sb m perm π _ hperm sb.nblocks (Nat.le_refl _)
  have hsize : sb.fbbBn * blocksize + (sb.inodeBn - sb.fbbBn) * blocksize = sb.inodeBn *
      blocksize := by
    rw [← Nat.add_mul]
    congr 1
    have := g.inode
    omega
  refine ⟨_, by unfold shuffleFbb; rw [hrun]; rfl, fun b hb => ?_, fun a ha => ?_⟩
  · have hbyte : π b / 8 < (sb.inodeBn - sb.fbbBn) * blocksize := by
      have := hperm.lt b hb
      rw [g.inode, Nat.add_sub_cancel_left]
      unfold nfbb bitsperblock blocksize
      omega
    have hlen : π b / 8 < (slice fbb 0 ((sb.inodeBn - sb.fbbBn) * blocksize)).length := by
      rwa [slice_length]
    have hnew :
        free (store m (sb.fbbBn * blocksize) (slice fbb 0 ((sb.inodeBn - sb.fbbBn) * blocksize)))
        (sb.fbbBn * blocksize) (π b) = free fbb 0 (π b) := by
      unfold free
      rw [store_getElem _ _ hlen]
      simp only [slice, List.getElem_map, List.getElem_range]
    rw [hnew]
    refine Bool.eq_iff_iff.mpr ((hbits _).trans ⟨?_, fun hset => ⟨b, hb, rfl, hset⟩⟩)
    rintro ⟨c, hc, heq, hset⟩
    rwa [← hperm.inj c hc b hb heq]
  · refine store_of_not_mem _ _ ?_
    rw [slice_length]
    omega

/-! ## What a file reads -/

/-- The blocks of the data have been moved, and the inodes are where they were. -/
structure Moved (sb : Superblock) (π : Nat → Nat) (m m' : Mem) : Prop where
  inode : ∀ a, sb.inodeBn * blocksize ≤ a → a < sb.dataBn * blocksize → m' a = m a
  block : ∀ b, sb.dataBn ≤ b → b < sb.nblocks →
    ∀ x < blocksize, m' (π b * blocksize + x) = m (b * blocksize + x)

theorem Moved.field {o inum : Nat} (g : Geometry sb) (h : Moved sb π m m')
    (hinum : inum < sb.ninodes) (ho : o + 4 ≤ inodesize) :
    getLE m' (inodeAt sb inum + o) 4 = getLE m (inodeAt sb inum + o) 4 := by
  have hge := inodeAt_ge sb inum
  have hlt := (g.inode_lt hinum).2
  exact getLE_congr fun x h₁ h₂ => h.inode x (by omega) (by omega)

theorem Moved.entry {i : Nat} (h : Moved sb π m m') (hb : sb.dataBn ≤ b) (hlt : b < sb.nblocks)
    (hi : i < nindirect) : getLE m' (entryAddr (π b) i) 4 = getLE m (entryAddr b i) 4 := by
  have hmove : ∀ k n, 4 * i + k + n ≤ blocksize →
      getLE m' (π b * blocksize + (4 * i + k)) n = getLE m (b * blocksize + (4 * i + k)) n := by
    intro k n
    induction n generalizing k with
    | zero => exact fun _ => rfl
    | succ n ih =>
      intro hk
      have := ih (k + 1) (by omega)
      rw [getLE, getLE, h.block b hb hlt _ (by omega)]
      simp only [Nat.add_assoc] at this ⊢
      rw [this]
  exact hmove 0 4 (by unfold nindirect blocksize at *; omega)

/-- A file without an indirect block has no more than its direct blocks. -/
theorem Placed.Fits.ptr_zero (g : Geometry sb) (h : p.Fits sb n) (hz : p.ind = 0)
    (hbi : ndirect ≤ bi) : p.ptr bi = 0 := by
  obtain ⟨lo, hi, hlo, -, hw⟩ := h.blocks
  have hpos : 0 < lo := by
    have := g.inode
    have := g.fbb
    have := g.data
    unfold blocksize at *
    omega
  have hle : p.data.length ≤ maxdirectsize := by
    by_contra hgt
    have := hw.indirect (Nat.not_le.mp hgt)
    omega
  refine if_neg ?_
  unfold maxdirectsize ndirect blocksize at *
  omega

theorem Placed.Fits.ptr_last (h : p.Fits sb n) (hbi : ndirect + nindirect ≤ bi) : p.ptr bi = 0 := by
  obtain ⟨lo, hi, -, -, hw⟩ := h.blocks
  have hle := hw.size
  refine if_neg ?_
  unfold maxindirectsize maxdirectsize blocksize at *
  omega

/-- **Where the blocks of a file are after they have been moved.** -/
theorem Placed.Repointed.dataVal (g : Geometry sb) (h : p.Repointed π m (inodeAt sb p.inum))
    (hfits : p.Fits sb sb.nblocks) (hmoved : Moved sb π m m') (hfix : π 0 = 0)
    (hne : ∀ b < sb.nblocks, b ≠ 0 → π b ≠ 0) :
    dataVal m' (inodeAt sb p.inum) bi = π (p.ptr bi) := by
  have hind : indVal m' (inodeAt sb p.inum) 1 = π p.ind := by
    unfold indVal
    rw [if_pos (Nat.le_refl 1)]
    exact (hmoved.field g hfits.inum (by decide)).trans h.indirect
  have hroot : rootVal m' (inodeAt sb p.inum) = 0 :=
    (hmoved.field g hfits.inum (by decide)).trans h.indirect2
  unfold ChkFS.dataVal
  by_cases hdirect : bi < ndirect
  · rw [if_pos hdirect, ← h.direct bi hdirect]
    have :=
      hmoved.field g hfits.inum
        (show 20 + 4 * bi + 4 ≤ inodesize by unfold ndirect at hdirect; unfold inodesize; omega)
    rwa [← Nat.add_assoc] at this
  · rw [if_neg hdirect]
    by_cases hdouble : ndirect + nindirect ≤ bi
    · have hzero : indVal m' (inodeAt sb p.inum) (FileIter.iclass bi) = 0 := by
        unfold indVal
        rw [if_neg (by rw [iclass_double hdouble]; omega), if_pos hroot]
      rw [if_pos hzero, hfits.ptr_last hdouble, hfix]
    · have hidx : biDirectIndex bi = bi - ndirect := by
        unfold biDirectIndex
        rw [if_neg hdirect, Nat.mod_eq_of_lt (by omega)]
      rw [iclass_single (Nat.not_lt.mp hdirect) (Nat.not_le.mp hdouble), hind]
      by_cases hz : p.ind = 0
      · rw [hz, hfix, if_pos rfl, hfits.ptr_zero g hz (Nat.not_lt.mp hdirect), hfix]
      · obtain ⟨hge, hlt⟩ := hfits.has_ge (.inr ⟨hz, rfl⟩)
        have hi : bi - ndirect < nindirect := by omega
        rw [if_neg (hne _ hlt hz), hidx, hmoved.entry hge hlt hi, h.entry hz _ hi,
          Nat.add_sub_cancel' (Nat.not_lt.mp hdirect)]

theorem Placed.Laid.repointed (h : p.Laid m ino) : p.Repointed id m ino :=
  ⟨h.size, h.direct, h.indirect, h.indirect2, h.entry⟩

theorem Placed.Laid.dataVal (g : Geometry sb) (h : p.Laid m (inodeAt sb p.inum))
    (hfits : p.Fits sb sb.nblocks) : dataVal m (inodeAt sb p.inum) bi = p.ptr bi :=
  h.repointed.dataVal g hfits ⟨fun _ _ _ => rfl, fun _ _ _ _ _ => rfl⟩ rfl fun _ _ hne => hne

/-- An empty inode has no blocks. -/
theorem dataVal_empty (h : ∀ a, ino ≤ a → a < ino + inodesize → m a = 0) :
    ChkFS.dataVal m ino bi = 0 := by
  have hfield : ∀ o, o + 4 ≤ inodesize → getLE m (ino + o) 4 = 0 :=
    fun o ho => getLE_zero fun x h₁ h₂ => h x (by omega) (by omega)
  have hind : ∀ k, indVal m ino k = 0 := by
    intro k
    have hroot : rootVal m ino = 0 := hfield 60 (by decide)
    unfold indVal
    by_cases hk : k ≤ 1
    · rw [if_pos hk]
      exact hfield 56 (by decide)
    · rw [if_neg hk, if_pos hroot]
  unfold ChkFS.dataVal
  split
  · rename_i hbi
    have := hfield (20 + 4 * bi) (by unfold ndirect at hbi; unfold inodesize; omega)
    rwa [← Nat.add_assoc] at this
  · rw [if_pos (hind _)]

/-! ## The whole shuffle -/

variable {firstData : Bool} {files : List InputFile} {root : Placed} {inum : Nat}

theorem Geometry.dataBn_pos (g : Geometry sb) : 0 < sb.dataBn := by
  have := g.inode
  have := g.fbb
  have := g.data
  unfold blocksize at *
  omega

/-- The files of an image and its root directory, in the order of their inodes. -/
theorem ImageBuilt.inums (h : ImageBuilt sb firstData files im placed root) :
    (root :: placed).map Placed.inum = List.range' 1 (im.freeinode - 1) := by
  rw [List.map_cons, h.numbered, h.inum, h.freeinode, show 2 + placed.length - 1 = placed.length +
    1 by omega, List.range'_succ]

theorem ImageBuilt.mem_iff : p ∈ root :: placed ↔ p ∈ placed ++ [root] := by
  rw [List.mem_cons, List.mem_append, List.mem_singleton, or_comm]

theorem ImageBuilt.fits (g : Geometry sb) (h : ImageBuilt sb firstData files im placed root) :
    ∀ p ∈ root :: placed, p.Fits sb sb.nblocks := by
  intro p hp
  have hp := ImageBuilt.mem_iff.mp hp
  obtain ⟨lo, hi, hlo, hhi, hw⟩ := h.built.tiles.mem hp
  exact ⟨h.built.inums p hp, lo, hi, hlo, Nat.le_trans hhi (Nat.le_trans h.built.journal g.le), hw⟩

theorem ImageBuilt.separate (h : ImageBuilt sb firstData files im placed root) :
    (root :: placed).Pairwise Separate := by
  have hperm : (root :: placed).Perm (placed ++ [root]) :=
    (List.perm_append_singleton root placed).symm
  refine (hperm.pairwise_iff fun h => Separate.symm h).mpr ?_
  exact (List.pairwise_map.mp h.built.nodup).and h.built.tiles.pairwise

/-- An inode is a file's, or it is empty. -/
theorem ImageBuilt.inode_cases (g : Geometry sb) (h : ImageBuilt sb firstData files im placed root)
    (hinum : inum < sb.ninodes) : (∃ p ∈ root :: placed, p.inum = inum) ∨
      ∀ a, inodeAt sb inum ≤ a → a < inodeAt sb inum + inodesize → im.mem a = 0 := by
  by_cases hmem : inum ∈ (placed ++ [root]).map Placed.inum
  · obtain ⟨p, hp, heq⟩ := List.mem_map.mp hmem
    exact .inl ⟨p, ImageBuilt.mem_iff.mpr hp, heq⟩
  · exact .inr fun a => h.built.unused g hinum hmem

/-- **The first block to be shuffled** is past the data of inode 2, if they are to stay where they
are. -/
theorem shuffleStart_spec (g : Geometry sb) (h : ImageBuilt sb firstData files im placed root) :
    firstData = true ∧ sb.ninodes ≤ 2 ∧ shuffleStart sb im firstData = none ∨
      ∃ start, shuffleStart sb im firstData = some start ∧ sb.dataBn ≤ start ∧
        (firstData = true → 2 < sb.ninodes ∧ ∀ bi, bi * blocksize < fileSize im.mem (inodeAt sb 2) →
          sb.dataBn + bi < start ∧ ChkFS.dataVal im.mem (inodeAt sb 2) bi = sb.dataBn + bi) := by
  unfold shuffleStart
  cases firstData with
  | false => exact .inr ⟨_, rfl, Nat.le_refl _, fun hc => absurd hc Bool.false_ne_true⟩
  | true =>
    rw [if_pos rfl]
    unfold getInode
    by_cases htwo : 2 < sb.ninodes
    · rw [if_pos htwo, Option.bind_eq_bind, Option.bind_some]
      refine .inr ?_
      rcases Nat.eq_zero_or_pos (fileSize im.mem (inodeAt sb 2)) with hz | hpos
      · have hz' : getLE im.mem (sizeAddr (inodeAt sb 2)) 4 = 0 := hz
        rw [if_neg (not_not.mpr hz')]
        exact ⟨_, rfl, Nat.le_refl _,
          fun _ => ⟨htwo, fun bi hbi => absurd hbi (by rw [hz]; exact Nat.not_lt_zero _)⟩⟩
      · have hne : getLE im.mem (sizeAddr (inodeAt sb 2)) 4 ≠ 0 := Nat.ne_of_gt hpos
        -- inode 2 is the first file's
        obtain ⟨p, hp, hinum⟩ := (h.inode_cases g htwo).resolve_right fun hempty =>
          hne (getLE_zero fun x h₁ h₂ => by
          unfold sizeAddr at h₁ h₂
          exact hempty x (by omega) (by unfold inodesize; omega))
        have hlaid := h.built.laid p (ImageBuilt.mem_iff.mp hp)
        have hfits := h.fits g p hp
        have hfirst : p.first = sb.dataBn := by
          cases placed with
          | nil =>
            rw [List.mem_singleton.mp hp, h.inum] at hinum
            cases hinum
          | cons q placed =>
            have hnum := h.numbered
            rw [List.length_cons, List.range'_succ, List.map_cons] at hnum
            obtain ⟨hq, hrest⟩ := List.cons.inj hnum
            rcases List.mem_cons.mp hp with rfl | hp
            · rw [h.inum] at hinum
              cases hinum
            · rcases List.mem_cons.mp hp with rfl | hp
              · exact h.head rfl p rfl
              · have : p.inum ∈ placed.map Placed.inum := List.mem_map.mpr ⟨p, hp, rfl⟩
                rw [hrest, hinum, List.mem_range'_1] at this
                omega
        have hsize : getLE im.mem (sizeAddr (inodeAt sb 2)) 4 = p.data.length := by
          rw [← hinum]
          exact hlaid.size
        have hval : ∀ bi, bi * blocksize < p.data.length →
            ChkFS.dataVal im.mem (inodeAt sb 2) bi = sb.dataBn + bi := by
          intro bi hbi
          rw [← hinum, hlaid.dataVal g hfits, ← hfirst]
          exact if_pos hbi
        have hzero : getLE im.mem (directAddr (inodeAt sb 2) 0) 4 = sb.dataBn := by
          have := hval 0 (by rw [Nat.zero_mul, ← hsize]; exact hpos)
          unfold ChkFS.dataVal at this
          rwa [if_pos (by decide)] at this
        rw [if_pos hne, if_pos hzero]
        refine ⟨_, rfl, Nat.le_add_right .., fun _ => ⟨htwo, fun bi hbi => ?_⟩⟩
        have hbi : bi * blocksize < p.data.length := by
          rw [← hsize]
          exact hbi
        refine ⟨?_, hval bi hbi⟩
        rw [hsize]
        exact Nat.add_lt_add_left (lt_dataBlocks hbi) _
    · rw [if_neg htwo]
      exact .inl ⟨rfl, Nat.not_lt.mp htwo, rfl⟩

/-- The image after the shuffling, with block `b` at `π b`. -/
structure Shuffled (sb : Superblock) (firstData : Bool) (π : Nat → Nat) (im im' : Image) :
    Prop where
  lt : ∀ b < sb.nblocks, π b < sb.nblocks
  inj : ∀ b < sb.nblocks, ∀ c < sb.nblocks, π b = π c → b = c
  fixed : ∀ b < sb.nblocks, b < sb.dataBn ∨ sb.journalBn ≤ b → π b = b
  /-- a block of the data is as it was, unless it is an indirect block -/
  block : ∀ b, sb.dataBn ≤ b → b < sb.nblocks →
    (∀ inum < sb.ninodes, getLE im.disk (indirectAddr (inodeAt sb inum)) 4 ≠ b) →
    ∀ x < blocksize, im'.disk (π b * blocksize + x) = im.disk (b * blocksize + x)
  pointer : ∀ inum < sb.ninodes, ∀ bi,
    ChkFS.dataVal im'.disk (inodeAt sb inum) bi = π (ChkFS.dataVal im.disk (inodeAt sb inum) bi)
  size : ∀ inum < sb.ninodes, fileSize im'.disk (inodeAt sb inum) = fileSize im.disk
    (inodeAt sb inum)
  /-- every file reads the same -/
  reads : ∀ inum < sb.ninodes, ∀ off, fileByte im'.disk (inodeAt sb inum) off = fileByte im.disk
    (inodeAt sb inum) off
  free : ∀ b < sb.nblocks, free im'.disk (sb.fbbBn * blocksize) (π b) =
    free im.disk (sb.fbbBn * blocksize) b
  firstData : firstData = true → ∀ bi, bi * blocksize < fileSize im.disk (inodeAt sb 2) →
    ChkFS.dataVal im'.disk (inodeAt sb 2) bi = sb.dataBn + bi

/-- A block of the data that is not an indirect block has no pointers. -/
theorem ImageBuilt.away (g : Geometry sb) (h : ImageBuilt sb firstData files im placed root)
    (hdata : sb.dataBn * blocksize ≤ x)
    (hnot : ∀ p ∈ root :: placed, p.ind ≠ 0 → x / blocksize ≠ p.ind) :
    ∀ p ∈ root :: placed, p.Away sb x := by
  intro p hp
  have := (g.inode_lt (h.fits g p hp).inum).2
  refine ⟨.inr ?_, hnot p hp⟩
  unfold inodesize at this
  omega

/-- There are no pointers in the first block. -/
theorem ImageBuilt.away_first (g : Geometry sb) (h : ImageBuilt sb firstData files im placed root)
    (hp : p ∈ root :: placed) (hx : x < blocksize) : p.Away sb x := by
  have hfits := h.fits g p hp
  have hge := inodeAt_ge sb p.inum
  have hinode : blocksize ≤ sb.inodeBn * blocksize :=
    Nat.le_mul_of_pos_left _ (by have := g.fbb; have := g.inode; omega)
  refine ⟨.inl (by omega), fun hz heq => ?_⟩
  have := (hfits.has_ge (.inr ⟨hz, rfl⟩)).1
  have := g.dataBn_pos
  rw [Nat.div_eq_of_lt hx] at heq
  omega

instance : Std.Symm Separate := ⟨fun _ _ h => h.symm⟩

/-- No data block of a file is an indirect block. -/
theorem ImageBuilt.data_ne (g : Geometry sb) (h : ImageBuilt sb firstData files im placed root)
    (hp : p ∈ root :: placed) (hbi : bi < dataBlocks p.data.length) :
    ∀ q ∈ root :: placed, q.ind ≠ 0 → p.first + bi ≠ q.ind := by
  intro q hq hne heq
  have hhas : p.Has (p.first + bi) := .inl ⟨Nat.le_add_right .., Nat.add_lt_add_left hbi _⟩
  by_cases hpq : p = q
  · obtain ⟨lo, hi, -, -, hw⟩ := (h.fits g p hp).blocks
    exact hw.ind_ne (hpq ▸ hne) hbi (hpq ▸ heq)
  · exact (h.separate.forall hp hq hpq).2 _ hhas (.inr ⟨hne, heq⟩)

/-- What the steps of the shuffling have done to the memory of an image. -/
structure Steps (sb : Superblock) (π : Nat → Nat) (im : Image) (all : List Placed) (m m' : Mem) :
    Prop where
  repointed : ∀ p ∈ all, p.Repointed π m (inodeAt sb p.inum)
  frame : ∀ x, (∀ p ∈ all, p.Away sb x) → m x = im.mem x
  moved : Moved sb π m m'
  /-- the boot sector and the superblock -/
  first : ∀ a < blocksize, m' a = im.mem a

section Steps
variable (g : Geometry sb) (h : ImageBuilt sb firstData files im placed root)
  (hs : Steps sb π im (root :: placed) m m') (hfix : π 0 = 0)
  (hne : ∀ b < sb.nblocks, b ≠ 0 → π b ≠ 0)
include g h hs

/-- A block of the data without pointers is moved as it was. -/
theorem Steps.block (hge : sb.dataBn ≤ b) (hlt : b < sb.nblocks)
    (hnot : ∀ p ∈ root :: placed, p.ind ≠ 0 → b ≠ p.ind)
    (hx : x < blocksize) : m' (π b * blocksize + x) = im.mem (b * blocksize + x) := by
  have hdiv : (b * blocksize + x) / blocksize = b := by
    rw [block_add, Nat.div_eq_of_lt hx, Nat.add_zero]
  rw [hs.moved.block b hge hlt x hx]
  refine hs.frame _ (h.away g ?_ fun p hp hz => by rw [hdiv]; exact hnot p hp hz)
  exact Nat.le_trans (Nat.mul_le_mul_right _ hge) (Nat.le_add_right ..)

/-- An empty inode stays empty. -/
theorem Steps.empty (hinum : inum < sb.ninodes)
    (hempty : ∀ a, inodeAt sb inum ≤ a → a < inodeAt sb inum + inodesize → im.mem a = 0)
    (hno : ∀ p ∈ root :: placed, p.inum ≠ inum) (h₁ : inodeAt sb inum ≤ a)
    (h₂ : a < inodeAt sb inum + inodesize) : m' a = 0 := by
  have hlt := (g.inode_lt hinum).2
  have hge := inodeAt_ge sb inum
  rw [hs.moved.inode a (by omega) (by omega), hs.frame a fun p hp => ?_, hempty a h₁ h₂]
  have hfits := h.fits g p hp
  refine ⟨?_, fun hz heq => ?_⟩
  · have := @inodeAt_apart sb _ _ (hno p hp)
    unfold inodesize at *
    omega
  · have := (hfits.has_ge (.inr ⟨hz, rfl⟩)).1
    have := block_lt (show a < sb.dataBn * blocksize by omega)
    omega

include hfix hne

theorem Steps.pointer (hinum : inum < sb.ninodes) :
    ChkFS.dataVal m' (inodeAt sb inum) bi = π (ChkFS.dataVal im.mem (inodeAt sb inum) bi) := by
  by_cases hfile : ∃ p ∈ root :: placed, p.inum = inum
  · obtain ⟨p, hp, rfl⟩ := hfile
    have hfits := h.fits g p hp
    rw [(h.built.laid p (ImageBuilt.mem_iff.mp hp)).dataVal g hfits]
    exact (hs.repointed p hp).dataVal g hfits hs.moved hfix hne
  · have hempty := (h.inode_cases g hinum).resolve_left hfile
    rw [dataVal_empty hempty, hfix]
    exact dataVal_empty fun a => hs.empty g h hinum hempty fun p hp heq => hfile ⟨p, hp, heq⟩

/-- **A file reads the same.** -/
theorem Steps.reads (hinum : inum < sb.ninodes) (off : Nat) :
    fileByte m' (inodeAt sb inum) off = fileByte im.mem (inodeAt sb inum) off := by
  unfold fileByte
  rw [hs.pointer g h hfix hne hinum]
  by_cases hfile : ∃ p ∈ root :: placed, p.inum = inum
  · obtain ⟨p, hp, rfl⟩ := hfile
    have hfits := h.fits g p hp
    rw [(h.built.laid p (ImageBuilt.mem_iff.mp hp)).dataVal g hfits]
    by_cases hlt : off / blocksize * blocksize < p.data.length
    · have hbi := lt_dataBlocks hlt
      obtain ⟨hge, hn⟩ :=
        hfits.has_ge (.inl ⟨Nat.le_add_right _ (off / blocksize), Nat.add_lt_add_left hbi _⟩)
      have hz : p.first + off / blocksize ≠ 0 := by
        have := g.dataBn_pos
        omega
      have hptr : p.ptr (off / blocksize) = p.first + off / blocksize := if_pos hlt
      rw [hptr, entryOf_some hz, entryOf_some (hne _ hn hz), Option.map_some, Option.map_some]
      exact congrArg some (hs.block g h hge hn (h.data_ne g hp hbi) (Nat.mod_lt _ (by decide)))
    · have hptr : p.ptr (off / blocksize) = 0 := if_neg hlt
      rw [hptr, hfix]
      rfl
  · rw [dataVal_empty ((h.inode_cases g hinum).resolve_left hfile), hfix]
    rfl

omit hfix hne in
theorem Steps.size (hinum : inum < sb.ninodes) :
    fileSize m' (inodeAt sb inum) = fileSize im.mem (inodeAt sb inum) := by
  by_cases hfile : ∃ p ∈ root :: placed, p.inum = inum
  · obtain ⟨p, hp, rfl⟩ := hfile
    have hsize := hs.moved.field g hinum (show 4 + 4 ≤ inodesize by decide)
    exact hsize.trans
      ((hs.repointed p hp).size.trans (h.built.laid p (ImageBuilt.mem_iff.mp hp)).size.symm)
  · have hempty := (h.inode_cases g hinum).resolve_left hfile
    have hzero : ∀ m : Mem, (∀ a, inodeAt sb inum ≤ a → a < inodeAt sb inum + inodesize → m a = 0) →
        fileSize m (inodeAt sb inum) = 0 :=
      fun m hm => getLE_zero fun x h₁ h₂ =>
        hm x (by unfold sizeAddr at h₁; omega) (by unfold sizeAddr inodesize at *; omega)
    rw [hzero _ hempty]
    exact hzero _ fun a => hs.empty g h hinum hempty fun p hp heq => hfile ⟨p, hp, heq⟩

end Steps

/-- Blocks that are not below `k` stay so if those below it are fixed. -/
theorem renumbering_ge (hperm : Renumbering perm n π) {k : Nat} (hfix : ∀ b < k, π b = b)
    (hb : k ≤ b) (hlt : b < n) : k ≤ π b := by
  by_contra hgt
  have := hperm.inj _ (hperm.lt b hlt) b hlt (hfix _ (Nat.not_le.mp hgt))
  omega

/-- What is not a pointer is as it was, in the blocks before the data. -/
theorem MovedBelow.low {new : Image} (hmoved : MovedBelow π { im with mem := m } new sb.nblocks)
    (g : Geometry sb) (hfix : ∀ b < sb.dataBn, π b = b) (ha : a < sb.dataBn * blocksize) :
    new.mem a = m a := by
  have hlt := block_lt ha
  have hle := g.journal
  have := g.le
  have hblock := hmoved.block (a / blocksize) (by omega) (a % blocksize) (Nat.mod_lt _ (by decide))
  rw [hfix _ hlt] at hblock
  rwa [Nat.div_add_mod'] at hblock

/-- **The steps of the shuffling**, once the new numbers have been chosen. -/
theorem steps_of_perm (g : Geometry sb) (h : ImageBuilt sb firstData files im placed root)
    (hperm : Renumbering perm sb.nblocks π) (hlow : ∀ b < sb.dataBn, π b = b) :
    ∃ m im', shuffleInodes sb perm im.present im.mem (List.range' 1 (im.freeinode - 1)) = some m ∧
      (do
        let im ← moveBlocks sb perm { im with mem := m }
        return { im with mem := ← shuffleFbb sb perm im.mem }) = some im' ∧
      Steps sb π im (root :: placed) m im'.mem ∧ im'.disk = im'.mem ∧
      ∀ b < sb.nblocks, free im'.mem (sb.fbbBn * blocksize) (π b) =
      free im.mem (sb.fbbBn * blocksize) b := by
  have hn : sb.nblocks ≤ 2 ^ 32 := Nat.le_of_lt (Nat.lt_trans g.lt (by decide))
  have hdata := g.dataBn_pos
  have hjournal := g.journal
  have hle := g.le
  have hfix : π 0 = 0 := hlow 0 hdata
  have hpresent : ∀ p ∈ root :: placed, ∀ b, p.Has b → im.present b = true := fun p hp b hb =>
    h.built.present b (h.built.tiles.has (ImageBuilt.mem_iff.mp hp) hb).2
  obtain ⟨m, hrun, hpoint, hframe⟩ := shuffleInodes_spec g hperm hn (by omega) hfix
    (fun p hp => h.built.laid p (ImageBuilt.mem_iff.mp hp)) (h.fits g) hpresent h.separate
  obtain ⟨new, hmove, hmoved⟩ := moveBlocks_spec hperm { im with mem := m }
  obtain ⟨m', hfbb, hbits, hkeep⟩ := @shuffleFbb_spec sb new.mem perm π g hperm
  rw [h.inums] at hrun
  have hbefore : sb.inodeBn * blocksize ≤ sb.dataBn * blocksize := by
    have := g.data
    omega
  have hafter : ∀ {a : Nat}, sb.dataBn * blocksize ≤ a → m' a = new.mem a :=
    fun ha => hkeep _ (.inr (Nat.le_trans hbefore ha))
  have hge : ∀ b, sb.dataBn ≤ b → b < sb.nblocks → sb.dataBn ≤ π b :=
    fun b hb hlt => renumbering_ge hperm hlow hb hlt
  have hsteps : Steps sb π im (root :: placed) m m' := by
    refine ⟨hpoint, hframe, ⟨fun a h₁ h₂ => ?_, fun b hb hlt x hx => ?_⟩, fun a ha => ?_⟩
    · rw [hkeep a (.inr h₁)]
      exact hmoved.low g hlow h₂
    · have := Nat.mul_le_mul_right blocksize (hge b hb hlt)
      rw [hafter (Nat.le_trans this (Nat.le_add_right ..))]
      exact hmoved.block b hlt x hx
    · have hfbb : blocksize ≤ sb.fbbBn * blocksize :=
        Nat.le_mul_of_pos_left _ (by have := g.fbb; omega)
      have hdata : blocksize ≤ sb.dataBn * blocksize := Nat.le_mul_of_pos_left _ hdata
      rw [hkeep a (.inl (by omega)), hmoved.low g hlow (by omega)]
      exact hframe a fun p hp => h.away_first g hp ha
  refine ⟨m, { new with mem := m' }, hrun, ?_, hsteps, ?_, fun b hb => ?_⟩
  · rw [hmove, Option.bind_eq_bind, Option.bind_some, hfbb]
    rfl
  · -- a block with a null pointer has only zeros
    funext a
    unfold Image.disk
    split
    · rfl
    · rename_i habsent
      have hmod : a % blocksize < blocksize := Nat.mod_lt _ (by decide)
      have haddr : a = a / blocksize * blocksize + a % blocksize :=
        (Nat.div_add_mod' a blocksize).symm
      by_cases hlt : a / blocksize < sb.nblocks
      · obtain ⟨b, hb, heq⟩ := hperm.surj hlt
        have hnull : im.present b ≠ true := by
          rw [← hmoved.present b hb, heq]
          exact habsent
        have hfree : im.freeb ≤ b := by
          by_contra hgt
          exact hnull (h.built.present b (Nat.not_le.mp hgt))
        have hdatab := h.built.tiles.le
        have hzero := hsteps.block g h (b := b) (by omega) hb (fun p hp hne heq => by
          have := (h.built.tiles.has (ImageBuilt.mem_iff.mp hp) (.inr ⟨hne, rfl⟩)).2
          omega) hmod
        rw [heq, ← haddr] at hzero
        refine (hzero.trans (h.built.zero _ ?_)).symm
        exact Nat.le_trans (Nat.mul_le_mul_right _ hfree) (Nat.le_add_right ..)
      · obtain ⟨-, hzero⟩ := hmoved.rest (a / blocksize) fun b hb heq => hlt (heq ▸ hperm.lt b hb)
        have := hzero _ hmod
        rw [← haddr] at this
        have hfar := Nat.mul_le_mul_right blocksize (Nat.not_lt.mp hlt)
        refine ((hafter ?_).trans this).symm
        have := Nat.mul_le_mul_right blocksize (Nat.le_trans hjournal hle)
        omega
  · rw [hbits b hb]
    have hbyte : sb.fbbBn * blocksize + b / 8 < sb.inodeBn * blocksize := by
      rw [g.inode]
      unfold nfbb bitsperblock blocksize
      omega
    unfold free
    rw [hmoved.low g hlow (by omega), hframe _ fun p hp => ?_]
    have := inodeAt_ge sb p.inum
    refine ⟨.inl (by omega), fun hne heq => ?_⟩
    have := ((h.fits g p hp).has_ge (.inr ⟨hne, rfl⟩)).1
    have := block_lt (show sb.fbbBn * blocksize + b / 8 < sb.dataBn * blocksize by omega)
    omega

/-- What the shuffling does: the first block is as it was, too. -/
theorem shuffleBlocks_spec {o : Options} {boot : Option (List UInt8)}
    {shuffle : List Nat → List Nat} (ho : o.Ok) (h : mkfs o boot files = some (sb, im))
    (hshuffle : ∀ l, (shuffle l).Perm l) :
    (o.firstData ≠ 0 ∧ sb.ninodes ≤ 2 ∧ shuffleBlocks sb shuffle (o.firstData ≠ 0) im = none) ∨
      ∃ im' π, shuffleBlocks sb shuffle (o.firstData ≠ 0) im = some im' ∧
        Shuffled sb (o.firstData ≠ 0) π im im' ∧ ∀ a < blocksize, im'.disk a = im.disk a := by
  obtain ⟨g, -, placed, root, hb⟩ := mkfs_built ho h
  rcases shuffleStart_spec g hb with ⟨hfirst, htwo, hnone⟩ | ⟨start, hstart, hge, hdata⟩
  · refine .inl ⟨of_decide_eq_true hfirst, htwo, ?_⟩
    unfold shuffleBlocks
    rw [hnone]
    rfl
  · have hnodup : (shuffleIn sb im.freeb start).Nodup := List.nodup_range.filter _
    have hmem : ∀ b ∈ shuffleIn sb im.freeb start, b < sb.nblocks ∧ start ≤ b ∧
        b < sb.journalBn := by
      intro b hb
      obtain ⟨hlt, hin⟩ := List.mem_filter.mp hb
      have hin := of_decide_eq_true hin
      exact ⟨List.mem_range.mp hlt, hin.1, hin.2.1⟩
    obtain ⟨π, hperm, hout⟩ := table_renumbering hnodup (fun b hb => (hmem b hb).1) (hshuffle _)
    have hlow : ∀ b < start, π b = b :=
      fun b hb => hout b fun hin => absurd (hmem b hin).2.1 (Nat.not_le.mpr hb)
    obtain ⟨m, im', hinodes, hmove, hsteps, hdisk, hfree⟩ :=
      steps_of_perm g hb hperm fun b hlt => hlow b (by omega)
    have hjournal := g.journal
    have hle := g.le
    have hpos := g.dataBn_pos
    have hfix : π 0 = 0 := hlow 0 (by omega)
    have hne : ∀ b < sb.nblocks, b ≠ 0 → π b ≠ 0 := by
      intro b hb hz heq
      exact hz (hperm.inj b hb 0 (by omega) (heq.trans hfix.symm))
    have hdisk₀ := disk_eq hb.built
    refine .inr ⟨im', π, ?_,
      ⟨hperm.lt, hperm.inj, fun b hlt hout' => ?_, fun b hge' hlt hnot x hx => ?_,
      fun inum hinum bi => ?_, fun inum hinum => ?_, fun inum hinum off => ?_, fun b hlt => ?_,
      fun hfd bi hbi => ?_⟩, fun a ha => ?_⟩
    · unfold shuffleBlocks
      rw [hstart, Option.bind_eq_bind, Option.bind_some]
      dsimp only
      rw [hinodes, Option.bind_eq_bind, Option.bind_some]
      exact hmove
    · rcases hout' with hlow' | hhigh
      · exact hlow b (by omega)
      · exact hout b fun hin => absurd (hmem b hin).2.2 (Nat.not_lt.mpr hhigh)
    · rw [hdisk, hdisk₀] at *
      refine hsteps.block g hb hge' hlt (fun p hp hz heq => ?_) hx
      have hind := (hb.built.laid p (ImageBuilt.mem_iff.mp hp)).indirect
      exact hnot p.inum (hb.fits g p hp).inum (hind.trans heq.symm)
    · rw [hdisk, hdisk₀]
      exact hsteps.pointer g hb hfix hne hinum
    · rw [hdisk, hdisk₀]
      exact hsteps.size g hb hinum
    · rw [hdisk, hdisk₀]
      exact hsteps.reads g hb hfix hne hinum off
    · rw [hdisk, hdisk₀]
      exact hfree b hlt
    · rw [hdisk₀] at hbi
      rw [hdisk]
      obtain ⟨htwo, hfirst⟩ := hdata hfd
      obtain ⟨hin, hval⟩ := hfirst bi hbi
      rw [hsteps.pointer g hb hfix hne htwo, hval]
      exact hlow _ hin
    · rw [hdisk, hdisk₀]
      exact hsteps.first a ha

end PugOS.Mkfs
