import PugOS.ChkFS
import PugOS.JournalAnalyze

/-! # The block pointers of an inode

The pointers of an inode form a tree: the inode holds the direct pointers, the pointer
to the indirect block and the one to the indirect2 block, whose entries point to
further indirect blocks.  Each pointer is a `Slot`, with a `place` in the inode or in
the block another slot points to, and `val` reads it.

In a sound file system (`Sound`) no block is pointed to twice, and none that is pointed
to is free, so that storing into one block leaves the pointers alone unless the block
holds pointers (`val_congr`), and setting an empty slot to a fresh block changes no
other slot (`val_set`).
-/
namespace PugOS.ChkFS
open Bytes Ring BlockProg
open Journal (blocksize SameBlock)
open FileIter (iclass)

variable {m m' : Mem} {ino bi v b : Nat}

/-! ## Slots -/

/-- The block pointers of an inode: to the data blocks, to the indirect block of each
class from 1 on, and to the indirect2 block. -/
inductive Slot where
  | data (bi : Nat)
  | ind (c : Nat)
  | root
  deriving DecidableEq

/-- The slots a file can have. -/
def Slot.Ok : Slot → Prop
  | .data bi => bi < maxsize / blocksize
  | .ind c => 1 ≤ c ∧ c ≤ nindirect + 1
  | .root => True

/-- Where a slot is: at an offset in the inode, or at an index in the block another
slot points to. -/
inductive Place where
  | inode (o : Nat)
  | block (parent : Slot) (i : Nat)
  deriving DecidableEq

def Slot.place : Slot → Place
  | .data bi =>
    if bi < ndirect then .inode (20 + 4 * bi) else .block (.ind (iclass bi)) (biDirectIndex bi)
  | .ind c => if c ≤ 1 then .inode 56 else .block .root (c - 2)
  | .root => .inode 60

section Values
variable (m : Mem) (ino : Nat)

/-- The number of the indirect2 block, or zero. -/
def rootVal : Nat := getLE m (indirect2Addr ino) 4

/-- The number of the indirect block of class `c`, or zero. -/
def indVal (c : Nat) : Nat :=
  if c ≤ 1 then getLE m (indirectAddr ino) 4
  else if rootVal m ino = 0 then 0
  else getLE m (entryAddr (rootVal m ino) (c - 2)) 4

/-- The number of data block `bi`, or zero. -/
def dataVal (bi : Nat) : Nat :=
  if bi < ndirect then getLE m (directAddr ino bi) 4
  else if indVal m ino (iclass bi) = 0 then 0
  else getLE m (entryAddr (indVal m ino (iclass bi)) (biDirectIndex bi)) 4

/-- The block a slot points to, or zero. -/
def val : Slot → Nat
  | .data bi => dataVal m ino bi
  | .ind c => indVal m ino c
  | .root => rootVal m ino

/-- The number at a place, or zero when there is no block it could be in. -/
def readPlace : Place → Nat
  | .inode o => getLE m (ino + o) 4
  | .block p i => if val m ino p = 0 then 0 else getLE m (entryAddr (val m ino p) i) 4

end Values

theorem place_direct (h : bi < ndirect) : (Slot.data bi).place = .inode (20 + 4 * bi) := if_pos h

theorem place_data (h : ndirect ≤ bi) :
    (Slot.data bi).place = .block (.ind (iclass bi)) (biDirectIndex bi) := if_neg (by omega)

theorem place_ind_one : (Slot.ind 1).place = .inode 56 := rfl

theorem place_ind {c : Nat} (h : 2 ≤ c) : (Slot.ind c).place = .block .root (c - 2) :=
  if_neg (by omega)

theorem nmax_eq : maxsize / blocksize = 1049609 := by decide

/-- The five kinds of slots. -/
theorem Slot.Ok.kinds {s : Slot} (h : s.Ok) :
    (∃ bi, bi < ndirect ∧ s = .data bi) ∨ (∃ bi, ndirect ≤ bi ∧ bi < 1049609 ∧ s = .data bi) ∨
      s = .ind 1 ∨ (∃ c, 2 ≤ c ∧ c ≤ 1025 ∧ s = .ind c) ∨ s = .root := by
  cases s with
  | data bi =>
    have h : bi < 1049609 := nmax_eq ▸ h
    by_cases hbi : bi < ndirect
    · exact .inl ⟨bi, hbi, rfl⟩
    · exact .inr (.inl ⟨bi, by omega, h, rfl⟩)
  | ind c =>
    have h : 1 ≤ c ∧ c ≤ 1025 := h
    by_cases hc : c = 1
    · exact .inr (.inr (.inl (hc ▸ rfl)))
    · exact .inr (.inr (.inr (.inl ⟨c, by omega, h.2, rfl⟩)))
  | root => exact .inr (.inr (.inr (.inr rfl)))

theorem val_eq {s : Slot} (h : s.Ok) (m : Mem) (ino : Nat) :
    val m ino s = readPlace m ino s.place := by
  rcases h.kinds with ⟨bi, hbi, rfl⟩ | ⟨bi, hbi, -, rfl⟩ | rfl | ⟨c, hc, -, rfl⟩ | rfl
  · rw [place_direct hbi, val, dataVal, if_pos hbi, readPlace, directAddr, Nat.add_assoc]
  · rw [place_data hbi, val, dataVal, if_neg (by omega)]
    rfl
  · rfl
  · rw [place_ind hc, val, indVal, if_neg (by omega)]
    rfl
  · rfl

/-- The parent of a slot is a slot a file can have, and the index is in its block. -/
theorem Slot.Ok.parent {s p : Slot} {i : Nat} (hs : s.Ok) (h : s.place = .block p i) :
    p.Ok ∧ i < nindirect ∧ p ≠ s ∧ ∀ bi, p ≠ .data bi := by
  rcases hs.kinds with ⟨bi, hbi, rfl⟩ | ⟨bi, hbi, hmax, rfl⟩ | rfl | ⟨c, hc, hmax, rfl⟩ | rfl
  · rw [place_direct hbi] at h
    cases h
  · rw [place_data hbi] at h
    cases h
    refine ⟨?_, ?_, Slot.noConfusion, fun _ => Slot.noConfusion⟩
    · change 1 ≤ iclass bi ∧ iclass bi ≤ nindirect + 1
      unfold iclass nindirect ndirect at *
      omega
    · unfold biDirectIndex
      rw [if_neg (by omega)]
      exact Nat.mod_lt _ (by decide)
  · cases h
  · rw [place_ind hc] at h
    cases h
    exact ⟨trivial, by unfold nindirect; omega, Slot.noConfusion, fun _ => Slot.noConfusion⟩
  · cases h

/-- The places in the inode are its pointers. -/
theorem Slot.Ok.inInode {s : Slot} {o : Nat} (hs : s.Ok) (h : s.place = .inode o) :
    20 ≤ o ∧ o + 4 ≤ 64 ∧ o % 4 = 0 := by
  rcases hs.kinds with ⟨bi, hbi, rfl⟩ | ⟨bi, hbi, hmax, rfl⟩ | rfl | ⟨c, hc, hmax, rfl⟩ | rfl
  · rw [place_direct hbi] at h
    cases h
    unfold ndirect at hbi
    omega
  · rw [place_data hbi] at h
    cases h
  · cases h
    omega
  · rw [place_ind hc] at h
    cases h
  · cases h
    omega

/-- The slot at a place. -/
def Place.slot : Place → Slot
  | .inode o => if o = 60 then .root else if o = 56 then .ind 1 else .data ((o - 20) / 4)
  | .block .root i => .ind (i + 2)
  | .block (.ind c) i => .data (ndirect + (c - 1) * nindirect + i)
  | .block (.data _) _ => .root

theorem Slot.Ok.slot_place {s : Slot} (hs : s.Ok) : s.place.slot = s := by
  rcases hs.kinds with ⟨bi, hbi, rfl⟩ | ⟨bi, hbi, hmax, rfl⟩ | rfl | ⟨c, hc, hmax, rfl⟩ | rfl
  · rw [place_direct hbi]
    unfold ndirect at hbi
    change (if 20 + 4 * bi = 60 then Slot.root else if 20 + 4 * bi = 56 then Slot.ind 1
      else Slot.data ((20 + 4 * bi - 20) / 4)) = _
    rw [if_neg (by omega), if_neg (by omega)]
    congr 1
    omega
  · rw [place_data hbi]
    unfold Place.slot biDirectIndex
    rw [if_neg (by omega)]
    dsimp only
    congr 1
    unfold iclass ndirect nindirect at *
    omega
  · rfl
  · rw [place_ind hc]
    unfold Place.slot
    dsimp only
    congr 1
    omega
  · rfl

/-- Two slots have different places. -/
theorem Slot.Ok.place_inj {s t : Slot} (hs : s.Ok) (ht : t.Ok) (h : s.place = t.place) : s = t := by
  rw [← hs.slot_place, h, ht.slot_place]

/-- To prove a fact about every slot, prove it of a slot from its parent. -/
theorem Slot.induct_parent {P : Slot → Prop}
    (h : ∀ s : Slot, s.Ok → (∀ p i, s.place = .block p i → P p) → P s) {s : Slot} (hs : s.Ok) :
    P s := by
  have hroot : P .root := h .root trivial fun p i hp => by cases hp
  have hind : ∀ c, (Slot.ind c).Ok → P (.ind c) := by
    intro c hc
    refine h _ hc fun p i hp => ?_
    rcases hc.kinds with ⟨_, -, hk⟩ | ⟨_, -, -, hk⟩ | hk | ⟨c', hc', -, hk⟩ | hk
    · cases hk
    · cases hk
    · cases hk
      cases hp
    · cases hk
      rw [place_ind hc'] at hp
      cases hp
      exact hroot
    · cases hk
  rcases hs.kinds with ⟨bi, hbi, rfl⟩ | ⟨bi, hbi, hmax, rfl⟩ | rfl | ⟨c, hc, hmax, rfl⟩ | rfl
  · exact h _ hs fun p i hp => by rw [place_direct hbi] at hp; cases hp
  · refine h _ hs fun p i hp => ?_
    have hp' := hs.parent hp
    rw [place_data hbi] at hp
    cases hp
    exact hind _ hp'.1
  · exact hind 1 hs
  · exact hind c hs
  · exact hroot

/-! ## Stores and pointers -/

/-- The block of the free block bitmap that `allocate_block` searches. -/
def fbbBn (m : Mem) : Nat := getLE m fbbBnAddr 4

/-- Block `b` is free: its bit is set in the first block of the bitmap. -/
def isFree (m : Mem) (b : Nat) : Bool :=
  b < getLE m nblocksAddr 4 && b < bitsperblock &&
    bitSet (getLE m (fbbBn m * blocksize + b / 8) 1) b

/-- The block is the superblock, the bitmap or the inode's. -/
def Reserved (m : Mem) (ino b : Nat) : Prop := b = 0 ∨ b = fbbBn m ∨ b = inoEntry ino

/-- A file system in which the inode at `ino` is sound: no block is pointed to twice,
and the blocks pointed to, the free blocks and the reserved ones are apart. -/
structure Sound (m : Mem) (ino : Nat) : Prop where
  inode : ino % 64 = 0
  fbb : fbbBn m ≠ 0
  ino_ne : inoEntry ino ≠ 0
  ino_ne_fbb : inoEntry ino ≠ fbbBn m
  inj : ∀ s t : Slot, s.Ok → t.Ok → val m ino s ≠ 0 → val m ino s = val m ino t → s = t
  used : ∀ s : Slot, s.Ok → val m ino s ≠ 0 → ¬ Reserved m ino (val m ino s) ∧
    isFree m (val m ino s) = false
  free : ∀ b, isFree m b = true → ¬ Reserved m ino b

/-- The pointers of the inode and of every block that holds pointers decide all. -/
theorem val_congr (hino : ∀ x, ino + 20 ≤ x → x < ino + 64 → m' x = m x)
    (hblock : ∀ p : Slot, p.Ok → (∀ bi, p ≠ .data bi) → val m ino p ≠ 0 →
      SameBlock m' m (val m ino p)) {s : Slot} (hs : s.Ok) : val m' ino s = val m ino s := by
  refine Slot.induct_parent (P := fun s => val m' ino s = val m ino s) ?_ hs
  intro s hs ih
  rw [val_eq hs, val_eq hs]
  cases hp : s.place with
  | inode o =>
    have ho := hs.inInode hp
    exact getLE_congr fun x h₁ h₂ => hino x (by omega) (by omega)
  | block p i =>
    obtain ⟨hok, hi, -, hnd⟩ := hs.parent hp
    rw [readPlace, readPlace, ih p i hp]
    split
    · rfl
    · rename_i hne
      refine (hblock p hok hnd hne).getLE ?_
      unfold nindirect at hi
      unfold blocksize
      omega

/-- The address of a slot whose parent, if it has one, is there. -/
def slotAddr (m : Mem) (ino : Nat) (s : Slot) : Nat :=
  match s.place with
  | .inode o => ino + o
  | .block p i => entryAddr (val m ino p) i

/-- The slot's parent is there. -/
def HasParent (m : Mem) (ino : Nat) (s : Slot) : Prop :=
  ∀ p i, s.place = .block p i → val m ino p ≠ 0

/-- Block `v` is used for nothing yet. -/
structure Fresh (m : Mem) (ino v : Nat) : Prop where
  reserved : ¬ Reserved m ino v
  free : isFree m v = false
  unused : ∀ s : Slot, s.Ok → val m ino s ≠ v
  lt : v < 2 ^ 32

theorem Fresh.ne_zero (h : Fresh m ino v) : v ≠ 0 := fun hv => h.reserved (.inl hv)

/-- The block a slot is in. -/
def slotBlock (m : Mem) (ino : Nat) (s : Slot) : Nat :=
  match s.place with
  | .inode _ => inoEntry ino
  | .block p _ => val m ino p

/-- A block no slot is in, and its slots' blocks apart, keep what is stored elsewhere. -/
theorem getLE_putLE_block {b c a o n k v : Nat} (hne : b ≠ c) (hb : b * blocksize ≤ a)
    (ha : a + n ≤ b * blocksize + blocksize) (ho : o + k ≤ blocksize) :
    getLE (putLE m a n v) (c * blocksize + o) k = getLE m (c * blocksize + o) k := by
  refine getLE_putLE_frame ?_
  unfold blocksize at *
  rcases Nat.lt_trichotomy b c with h | h | h <;> omega

/-- The slots of pointer blocks are those of no data block. -/
def Slot.Pointer (p : Slot) : Prop := ∀ bi, p ≠ .data bi

/-- The pointer blocks of the inode at `ino` form a tree: none is in two places, and none is the
inode's block, the superblock or the bitmap. -/
structure PtrTree (m : Mem) (ino : Nat) : Prop where
  inode : ino % 64 = 0
  fbb : fbbBn m ≠ 0
  ino_ne : inoEntry ino ≠ 0
  ino_ne_fbb : inoEntry ino ≠ fbbBn m
  inj : ∀ p q : Slot, p.Ok → q.Ok → p.Pointer → q.Pointer → val m ino p ≠ 0 →
    val m ino p = val m ino q → p = q
  apart : ∀ p : Slot, p.Ok → p.Pointer → val m ino p ≠ 0 → ¬ Reserved m ino (val m ino p)

theorem Sound.ptrTree (hs : Sound m ino) : PtrTree m ino where
  inode := hs.inode
  fbb := hs.fbb
  ino_ne := hs.ino_ne
  ino_ne_fbb := hs.ino_ne_fbb
  inj p q hp hq _ _ := hs.inj p q hp hq
  apart p hp _ hne := (hs.used p hp hne).1

theorem PtrTree.slotAddr_block (hs : PtrTree m ino) {s : Slot} (ok : s.Ok) :
    slotBlock m ino s * blocksize ≤ slotAddr m ino s ∧
      slotAddr m ino s + 4 ≤ slotBlock m ino s * blocksize + blocksize := by
  unfold slotBlock slotAddr
  cases hp : s.place with
  | inode o =>
    have ho := ok.inInode hp
    have hino := hs.inode
    unfold inoEntry blocksize
    dsimp only
    omega
  | block p i =>
    obtain ⟨-, hi, -⟩ := ok.parent hp
    unfold entryAddr blocksize nindirect at *
    dsimp only
    omega

theorem Sound.slotAddr_block (hs : Sound m ino) {s : Slot} (ok : s.Ok) :
    slotBlock m ino s * blocksize ≤ slotAddr m ino s ∧
      slotAddr m ino s + 4 ≤ slotBlock m ino s * blocksize + blocksize :=
        hs.ptrTree.slotAddr_block ok

/-- **Setting a slot** changes no other slot, if the slot is a data block's, or is empty and is set
to an empty block that nothing points to. -/
theorem val_store (hs : PtrTree m ino) {s : Slot} (ok : s.Ok) (hparent : HasParent m ino s)
    (hv : v < 2 ^ 32)
    (hnew : s.Pointer → val m ino s = 0 ∧ ¬ Reserved m ino v ∧
    (∀ q : Slot, q.Ok → q.Pointer → val m ino q ≠ v) ∧
      ∀ i < nindirect, getLE m (entryAddr v i) 4 = 0)
    {t : Slot} (ht : t.Ok) :
    val (putLE m (slotAddr m ino s) 4 v) ino t = if t = s then v else val m ino t := by
  have hblock := hs.slotAddr_block ok
  have hv4 : v < 256 ^ 4 := hv
  have hino := hs.inode
  refine Slot.induct_parent (P := fun t => val (putLE m (slotAddr m ino s) 4 v) ino t =
    if t = s then v else val m ino t) ?_ ht
  intro t ht ih
  by_cases hts : t = s
  · -- the slot itself: its parent is not changed
    subst hts
    rw [if_pos rfl, val_eq ht]
    cases hp : t.place with
    | inode o =>
      rw [readPlace]
      unfold slotAddr
      rw [hp]
      exact getLE_putLE m _ hv4
    | block p i =>
      obtain ⟨-, -, hne, -⟩ := ht.parent hp
      rw [readPlace, ih p i hp, if_neg hne, if_neg (hparent p i hp)]
      unfold slotAddr
      rw [hp]
      exact getLE_putLE m _ hv4
  · rw [if_neg hts, val_eq ht, val_eq ht]
    cases hp : t.place with
    | inode o =>
      have ho := ht.inInode hp
      rw [readPlace, readPlace]
      refine getLE_putLE_frame ?_
      unfold slotAddr
      cases hps : s.place with
      | inode o' =>
        have ho' := ok.inInode hps
        have hne : o ≠ o' := by
          rintro rfl
          exact hts (ht.place_inj ok (hp.trans hps.symm))
        dsimp only
        omega
      | block p' i' =>
        obtain ⟨hpok', hi', -, hnd'⟩ := ok.parent hps
        have hne : val m ino p' ≠ inoEntry ino :=
          fun h => hs.apart p' hpok' hnd' (hparent p' i' hps) (.inr (.inr h))
        unfold inoEntry entryAddr blocksize nindirect at *
        dsimp only
        omega
    | block p i =>
      obtain ⟨hpok, hi, hpt, hnd⟩ := ht.parent hp
      rw [readPlace, readPlace, ih p i hp]
      by_cases hps : p = s
      · -- the slot points to the new block, which is empty
        subst hps
        obtain ⟨hempty, hreserved, hunused, hzero⟩ := hnew hnd
        have hvne : v ≠ 0 := fun hv => hreserved (.inl hv)
        rw [if_pos rfl, if_neg hvne, hempty, if_pos rfl]
        have hout : slotBlock m ino p ≠ v := by
          unfold slotBlock
          cases hpp : p.place with
          | inode o => exact fun h => hreserved (.inr (.inr h.symm))
          | block q j =>
            obtain ⟨hqok, -, -, hqnd⟩ := ok.parent hpp
            exact hunused q hqok hqnd
        rw [← hzero i hi]
        refine getLE_putLE_block hout hblock.1 hblock.2 ?_
        unfold blocksize nindirect at *
        omega
      · rw [if_neg hps]
        split
        · rfl
        · rename_i hq
          refine getLE_putLE_frame ?_
          unfold slotAddr
          cases hpls : s.place with
          | inode o' =>
            have hne : val m ino p ≠ inoEntry ino := fun h => hs.apart p hpok hnd hq (.inr (.inr h))
            have ho' := ok.inInode hpls
            unfold inoEntry entryAddr blocksize nindirect at *
            dsimp only
            omega
          | block p' i' =>
            obtain ⟨hpok', hi', -, hnd'⟩ := ok.parent hpls
            have hne : val m ino p ≠ val m ino p' ∨ i ≠ i' := by
              by_contra hc
              push Not at hc
              have hpp := hs.inj p p' hpok hpok' hnd hnd' hq hc.1
              rw [← hpp, ← hc.2] at hpls
              exact hts (ht.place_inj ok (hp.trans hpls.symm))
            unfold entryAddr blocksize nindirect at *
            dsimp only
            rcases Nat.lt_trichotomy (val m ino p) (val m ino p') with h | h | h <;> omega

/-- **Setting an empty slot** to a fresh block changes no other slot, if the block is
empty or is to hold data. -/
theorem val_set (hs : Sound m ino) {s : Slot} (ok : s.Ok) (hparent : HasParent m ino s)
    (hempty : val m ino s = 0) (hv : Fresh m ino v)
    (hzero : (∀ bi, s ≠ .data bi) → ∀ i < nindirect, getLE m (entryAddr v i) 4 = 0)
    {t : Slot} (ht : t.Ok) :
    val (putLE m (slotAddr m ino s) 4 v) ino t = if t = s then v else val m ino t :=
  val_store hs.ptrTree ok hparent hv.lt
    (fun hp => ⟨hempty, hv.reserved, fun q hq _ => hv.unused q hq, hzero hp⟩) ht

/-! ## What keeps a file system sound -/

/-- Only block `b` has changed. -/
def Confined (b : Nat) (m m' : Mem) : Prop := ∀ c, c ≠ b → SameBlock m' m c

theorem Confined.putLE {a n : Nat} (hb : b * blocksize ≤ a) (ha : a + n ≤ b * blocksize + blocksize)
    (v : Nat) : Confined b m (putLE m a n v) := by
  intro c hc x h₁ h₂
  refine putLE_of_not_mem ?_
  unfold blocksize at *
  omega

theorem Confined.store {a : Nat} {bytes : List UInt8} (hb : b * blocksize ≤ a)
    (ha : a + bytes.length ≤ b * blocksize + blocksize) : Confined b m (store m a bytes) := by
  intro c hc x h₁ h₂
  refine store_of_not_mem m bytes ?_
  unfold blocksize at *
  omega

theorem Confined.fbbBn (h : Confined b m m') (hb : b ≠ 0) : fbbBn m' = fbbBn m := by
  have h₀ : SameBlock m' m 0 := h 0 (Ne.symm hb)
  refine getLE_congr fun x h₁ h₂ => h₀ x (by omega) ?_
  unfold fbbBnAddr blocksize at *
  omega

/-- The free blocks are the same when neither the superblock nor the bitmap changes. -/
theorem Confined.isFree (h : Confined b m m') (hb : b ≠ 0) (hfbb : b ≠ ChkFS.fbbBn m) (x : Nat) :
    isFree m' x = isFree m x := by
  have h₀ : SameBlock m' m 0 := h 0 (Ne.symm hb)
  have hn : getLE m' nblocksAddr 4 = getLE m nblocksAddr 4 := by
    refine getLE_congr fun x h₁ h₂ => h₀ x (by omega) ?_
    unfold nblocksAddr blocksize at *
    omega
  unfold ChkFS.isFree
  rw [hn, h.fbbBn hb]
  by_cases hx : x < bitsperblock
  · have hbyte : x / 8 + 1 ≤ blocksize := by
      unfold bitsperblock blocksize at *
      omega
    rw [(h _ (Ne.symm hfbb)).getLE hbyte]
  · simp [hx]

/-- The pointers are the same when no block that holds pointers changes. -/
theorem Confined.val (h : Confined b m m') (hino : ino % 64 = 0) (hb : b ≠ inoEntry ino)
    (hptr : ∀ p : Slot, p.Ok → (∀ bi, p ≠ .data bi) → ChkFS.val m ino p ≠ 0 →
      ChkFS.val m ino p ≠ b) {s : Slot} (hs : s.Ok) : val m' ino s = val m ino s := by
  refine val_congr (fun x h₁ h₂ => h _ (Ne.symm hb) x ?_ ?_)
    (fun p hp hnd hne => h _ (hptr p hp hnd hne)) hs
  · unfold inoEntry blocksize
    omega
  · unfold inoEntry blocksize
    omega

/-- Soundness is kept when the pointers are, and no block becomes free. -/
theorem Sound.congr (h : Sound m ino) (hfbb : fbbBn m' = fbbBn m)
    (hfree : ∀ b, isFree m' b = true → isFree m b = true)
    (hval : ∀ s : Slot, s.Ok → val m' ino s = val m ino s) : Sound m' ino := by
  have hres : ∀ b, Reserved m' ino b ↔ Reserved m ino b := by
    intro b
    unfold Reserved
    rw [hfbb]
  refine ⟨h.inode, hfbb ▸ h.fbb, h.ino_ne, hfbb ▸ h.ino_ne_fbb, ?_, ?_, ?_⟩
  · intro s t hs ht hne heq
    rw [hval s hs] at hne
    rw [hval s hs, hval t ht] at heq
    exact h.inj s t hs ht hne heq
  · intro s hs hne
    rw [hval s hs] at hne ⊢
    obtain ⟨h₁, h₂⟩ := h.used s hs hne
    refine ⟨fun hr => h₁ ((hres _).mp hr), ?_⟩
    exact Bool.eq_false_iff.mpr fun hf => by simp [hfree _ hf] at h₂
  · exact fun b hb hr => h.free b (hfree b hb) ((hres b).mp hr)

/-- **Pointing an empty slot to a fresh block** keeps the file system sound. -/
theorem Sound.set (hs : Sound m ino) {s : Slot} (ok : s.Ok) (hparent : HasParent m ino s)
    (hempty : val m ino s = 0) (hv : Fresh m ino v)
    (hzero : (∀ bi, s ≠ .data bi) → ∀ i < nindirect, getLE m (entryAddr v i) 4 = 0) :
    Sound (putLE m (slotAddr m ino s) 4 v) ino := by
  have hval := fun {t : Slot} (ht : t.Ok) => val_set hs ok hparent hempty hv hzero ht
  obtain ⟨h₁, h₂⟩ := hs.slotAddr_block ok
  have hconf : Confined (slotBlock m ino s) m (putLE m (slotAddr m ino s) 4 v) :=
    Confined.putLE h₁ h₂ v
  have hblock : slotBlock m ino s ≠ 0 ∧ slotBlock m ino s ≠ fbbBn m := by
    unfold slotBlock
    cases hp : s.place with
    | inode o => exact ⟨hs.ino_ne, hs.ino_ne_fbb⟩
    | block p i =>
      have hne := hparent p i hp
      have hused := (hs.used p (ok.parent hp).1 hne).1
      exact ⟨hne, fun h => hused (.inr (.inl h))⟩
  have hfbb := hconf.fbbBn hblock.1
  have hfree := hconf.isFree hblock.1 hblock.2
  have hres : ∀ b, Reserved (putLE m (slotAddr m ino s) 4 v) ino b ↔ Reserved m ino b := by
    intro b
    unfold Reserved
    rw [hfbb]
  refine ⟨hs.inode, hfbb ▸ hs.fbb, hs.ino_ne, hfbb ▸ hs.ino_ne_fbb, ?_, ?_, ?_⟩
  · intro t u ht hu hne heq
    rw [hval ht] at hne heq
    rw [hval hu] at heq
    by_cases hts : t = s <;> by_cases hus : u = s
    · rw [hts, hus]
    · rw [if_pos hts, if_neg hus] at heq
      exact absurd heq.symm (hv.unused u hu)
    · rw [if_neg hts, if_pos hus] at heq
      exact absurd heq (hv.unused t ht)
    · rw [if_neg hts] at hne heq
      rw [if_neg hus] at heq
      exact hs.inj t u ht hu hne heq
  · intro t ht hne
    rw [hval ht] at hne ⊢
    rw [hres, hfree]
    split
    · exact ⟨hv.reserved, hv.free⟩
    · rename_i hts
      rw [if_neg hts] at hne
      exact hs.used t ht hne
  · intro b hb
    rw [hfree] at hb
    rw [hres]
    exact hs.free b hb

end PugOS.ChkFS
