import PugOS.ChkFSPtr
import Mathlib.Data.Finset.Card

/-! # Mapping blocks

`allocate_block` takes a free block (`view_allocateBlock`); `map` fills the empty slots
on the way to a data block with fresh blocks, from the indirect2 block down, and
changes no other pointer and no data (`view_map`).
-/
namespace PugOS.ChkFS
open Bytes Ring BlockProg
open Journal (blocksize SameBlock)
open FileIter (iclass)

variable {m m' m'' : Mem} {ino bi v b : Nat}

/-! ## Allocation -/

/-- The number of blocks below `n` that `p` holds of. -/
def countBelow (n : Nat) (p : Nat → Bool) : Nat := ((Finset.range n).filter fun b => p b).card

theorem countBelow_erase {n b : Nat} {p q : Nat → Bool} (hb : b < n) (hp : p b = true)
    (hq : ∀ c, q c = (p c && decide (c ≠ b))) : countBelow n q + 1 = countBelow n p := by
  have hmem : b ∈ (Finset.range n).filter fun b => p b :=
    Finset.mem_filter.mpr ⟨Finset.mem_range.mpr hb, hp⟩
  have herase : (Finset.range n).filter (fun c => q c) =
      ((Finset.range n).filter fun c => p c).erase b := by
    ext c
    rw [Finset.mem_erase, Finset.mem_filter, Finset.mem_filter, hq]
    simp only [Bool.and_eq_true, decide_eq_true_eq]
    tauto
  unfold countBelow
  rw [herase, Finset.card_erase_of_mem hmem]
  have := Finset.card_pos.mpr ⟨b, hmem⟩
  omega

/-- The number of free blocks. -/
@[irreducible] def freeCount (m : Mem) : Nat := countBelow bitsperblock (isFree m)

theorem freeCount_congr (h : ∀ b, isFree m' b = isFree m b) : freeCount m' = freeCount m := by
  unfold freeCount
  rw [funext h]

theorem exists_free (h : 0 < freeCount m) : ∃ b, isFree m b = true := by
  unfold freeCount at h
  obtain ⟨b, hb⟩ := Finset.card_pos.mp h
  exact ⟨b, (Finset.mem_filter.mp hb).2⟩

/-- The byte of the bitmap that holds the bit of block `b`. -/
def fbbByte (m : Mem) (b : Nat) : Nat := getLE m (fbbBn m * blocksize + b / 8) 1

/-- The bit of block `b` is cleared. -/
def takeBlock (m : Mem) (b : Nat) : Mem :=
  putLE m (fbbBn m * blocksize + b / 8) 1 (clearBit (fbbByte m b) b)

theorem bitSet_clearBit (byte b c : Nat) :
    bitSet (clearBit byte c) b = (bitSet byte b && decide (b % 8 ≠ c % 8)) := by
  have hlt : b % 8 < 8 := Nat.mod_lt _ (by decide)
  have h255 : Nat.testBit 255 (b % 8) = true := by
    have : ∀ j < 8, Nat.testBit 255 j = true := by decide
    exact this _ hlt
  unfold bitSet clearBit
  rw [Nat.testBit_and, Nat.testBit_xor, h255, Nat.testBit_two_pow, Bool.true_xor]
  by_cases h : c % 8 = b % 8
  · simp [h]
  · simp [h, Ne.symm h]

theorem view_allocateFrom {fbb nblocks : Nat} (fuel bn : Nat)
    (h : ∃ b, bn ≤ b ∧ b < bn + fuel ∧ b < nblocks ∧
      bitSet (getLE m (fbb * blocksize + b / 8) 1) b = true) :
    ∃ b, b < bn + fuel ∧ b < nblocks ∧
      bitSet (getLE m (fbb * blocksize + b / 8) 1) b = true ∧
      view (allocateFrom fbb nblocks fuel bn) m =
        some (b, putLE m (fbb * blocksize + b / 8) 1
          (clearBit (getLE m (fbb * blocksize + b / 8) 1) b)) := by
  induction fuel generalizing bn with
  | zero =>
    obtain ⟨b, h₁, h₂, -⟩ := h
    omega
  | succ fuel ih =>
    obtain ⟨b, h₁, h₂, h₃, h₄⟩ := h
    have hbn : bn < nblocks := Nat.lt_of_le_of_lt h₁ h₃
    unfold allocateFrom
    rw [if_pos hbn]
    cases hbit : bitSet (getLE m (fbb * blocksize + bn / 8) 1) bn with
    | true => exact ⟨bn, by omega, hbn, hbit, by simp [hbit]⟩
    | false =>
      have hne : b ≠ bn := by
        rintro rfl
        rw [hbit] at h₄
        cases h₄
      obtain ⟨b', h₁', h₂', h₃', h₄'⟩ := ih (bn + 1) ⟨b, by omega, by omega, h₃, h₄⟩
      exact ⟨b', by omega, h₂', h₃', by simp [hbit, h₄']⟩

/-- **`allocate_block` takes a free block** if there is one. -/
theorem view_allocateBlock (h : 0 < freeCount m) :
    ∃ b, isFree m b = true ∧ view allocateBlock m = some (b, takeBlock m b) := by
  obtain ⟨b, hfree⟩ := exists_free h
  unfold isFree at hfree
  simp only [Bool.and_eq_true, decide_eq_true_eq] at hfree
  obtain ⟨b, h₁, h₂, h₃, h₄⟩ := @view_allocateFrom m (fbbBn m) _ bitsperblock 0
    ⟨b, Nat.zero_le b, by omega, hfree.1.1, hfree.2⟩
  refine ⟨b, ?_, ?_⟩
  · unfold isFree
    simp only [Bool.and_eq_true, decide_eq_true_eq]
    exact ⟨⟨h₂, by omega⟩, h₃⟩
  · unfold fbbBn at h₄
    simp [allocateBlock, h₄, takeBlock, fbbByte, fbbBn]

theorem clearBit_lt (byte b : Nat) : clearBit byte b < 256 ^ 1 := by
  have hlt : b % 8 < 8 := Nat.mod_lt _ (by decide)
  have hpow : 2 ^ (b % 8) < 2 ^ 8 := Nat.pow_lt_pow_right (by decide) hlt
  have hx : 255 ^^^ 2 ^ (b % 8) < 2 ^ 8 := Nat.xor_lt_two_pow (by decide) hpow
  exact Nat.lt_of_le_of_lt Nat.and_le_right hx

theorem isFree_lt (h : isFree m b = true) : b < bitsperblock := by
  unfold isFree at h
  simp only [Bool.and_eq_true, decide_eq_true_eq] at h
  exact h.1.2

/-- What taking a free block changes: the bitmap. -/
theorem takeBlock_confined (hb : isFree m b = true) : Confined (fbbBn m) m (takeBlock m b) := by
  have hlt := isFree_lt hb
  refine Confined.putLE (by omega) ?_ _
  unfold bitsperblock blocksize at *
  omega

/-- The bit of the block that is taken is the only one that changes. -/
theorem isFree_take (hne : fbbBn m ≠ 0) (hb : isFree m b = true) (c : Nat) :
    isFree (takeBlock m b) c = (isFree m c && decide (c ≠ b)) := by
  have hconf := takeBlock_confined hb
  have h₀ : SameBlock (takeBlock m b) m 0 := hconf 0 (Ne.symm hne)
  have hfbb : fbbBn (takeBlock m b) = fbbBn m := hconf.fbbBn hne
  have hn : getLE (takeBlock m b) nblocksAddr 4 = getLE m nblocksAddr 4 := by
    refine getLE_congr fun x h₁ h₂ => h₀ x (by omega) ?_
    unfold nblocksAddr blocksize at *
    omega
  have hbyte : bitSet (getLE (takeBlock m b) (fbbBn m * blocksize + c / 8) 1) c =
      (bitSet (getLE m (fbbBn m * blocksize + c / 8) 1) c && decide (c ≠ b)) := by
    by_cases hbc : c / 8 = b / 8
    · have hread : getLE (takeBlock m b) (fbbBn m * blocksize + c / 8) 1 =
          clearBit (fbbByte m b) b := by
        rw [hbc]
        exact getLE_putLE m _ (clearBit_lt _ _)
      have hne : decide (c % 8 ≠ b % 8) = decide (c ≠ b) := by
        rw [decide_eq_decide]
        omega
      rw [hread, bitSet_clearBit, hne, fbbByte, hbc]
    · have hread : getLE (takeBlock m b) (fbbBn m * blocksize + c / 8) 1 =
          getLE m (fbbBn m * blocksize + c / 8) 1 := getLE_putLE_frame (by omega)
      have hne : decide (c ≠ b) = true := by
        rw [decide_eq_true_iff]
        rintro rfl
        exact hbc rfl
      rw [hread, hne, Bool.and_true]
  unfold isFree
  rw [hn, hfbb, hbyte, Bool.and_assoc]
  simp only [Bool.and_assoc]

theorem isFree_takeBlock (hs : Sound m ino) (hb : isFree m b = true) (c : Nat) :
    isFree (takeBlock m b) c = (isFree m c && decide (c ≠ b)) := isFree_take hs.fbb hb c

theorem freeCount_takeBlock (hs : Sound m ino) (hb : isFree m b = true) :
    freeCount (takeBlock m b) + 1 = freeCount m := by
  unfold freeCount
  exact countBelow_erase (isFree_lt hb) hb (isFree_takeBlock hs hb)

/-! ## How a file grows -/

/-- The file has kept its pointers, its data and its size, and `k` blocks have been
taken. -/
structure Evolved (ino k : Nat) (m m' : Mem) : Prop where
  sound : Sound m' ino
  kept : ∀ s : Slot, s.Ok → val m ino s ≠ 0 → val m' ino s = val m ino s
  data : ∀ bi, (Slot.data bi).Ok → val m ino (.data bi) ≠ 0 →
    SameBlock m' m (val m ino (.data bi))
  size : getLE m' (sizeAddr ino) 4 = getLE m (sizeAddr ino) 4
  free : ∀ b, isFree m' b = true → isFree m b = true
  fbb : fbbBn m' = fbbBn m
  count : freeCount m' + k = freeCount m

theorem Evolved.refl (h : Sound m ino) : Evolved ino 0 m m :=
  ⟨h, fun _ _ _ => rfl, fun _ _ _ _ _ _ => rfl, rfl, fun _ h => h, rfl, rfl⟩

theorem Evolved.trans {j k : Nat} (h : Evolved ino j m m') (h' : Evolved ino k m' m'') :
    Evolved ino (j + k) m m'' := by
  refine ⟨h'.sound, ?_, ?_, h'.size.trans h.size, fun b hb => h.free b (h'.free b hb),
    h'.fbb.trans h.fbb, ?_⟩
  · intro s hs hne
    have h₁ := h.kept s hs hne
    rw [h'.kept s hs (h₁.symm ▸ hne), h₁]
  · intro bi hbi hne
    have h₁ := h.kept _ hbi hne
    exact (h₁ ▸ h'.data bi hbi (h₁.symm ▸ hne)).trans (h.data bi hbi hne)
  · have h₁ := h.count
    have h₂ := h'.count
    omega

/-- A change confined to a block that is neither reserved nor a pointer block nor data. -/
theorem Evolved.confined (hs : Sound m ino) (h : Confined b m m') (hb : ¬ Reserved m ino b)
    (hval : ∀ s : Slot, s.Ok → val m ino s ≠ b) : Evolved ino 0 m m' := by
  have hne : b ≠ 0 ∧ b ≠ fbbBn m ∧ b ≠ inoEntry ino :=
    ⟨fun h => hb (.inl h), fun h => hb (.inr (.inl h)), fun h => hb (.inr (.inr h))⟩
  have hsame := fun s (ok : Slot.Ok s) =>
    h.val hs.inode hne.2.2 (fun p hp _ _ => hval p hp) ok
  have hfree := h.isFree hne.1 hne.2.1
  have hfbb := h.fbbBn hne.1
  refine ⟨hs.congr hfbb (fun b hb => hfree b ▸ hb) hsame, fun s ok _ => hsame s ok,
    fun bi ok _ => h _ (hval _ ok), ?_, fun b hb => hfree b ▸ hb, hfbb, ?_⟩
  · have hblock := h _ (Ne.symm hne.2.2)
    have hino := hs.inode
    refine getLE_congr fun x h₁ h₂ => hblock x ?_ ?_ <;>
      (unfold sizeAddr inoEntry blocksize at *; omega)
  · exact freeCount_congr hfree

/-- **Taking a free block.** -/
theorem Evolved.take (hs : Sound m ino) (hb : isFree m b = true) :
    Evolved ino 1 m (takeBlock m b) ∧ Fresh (takeBlock m b) ino b ∧
      ∀ s : Slot, s.Ok → val (takeBlock m b) ino s = val m ino s := by
  have hconf := takeBlock_confined hb
  have hused := fun (s : Slot) (ok : s.Ok) (hne : val m ino s ≠ 0) => (hs.used s ok hne).1
  have hval : ∀ s : Slot, s.Ok → val (takeBlock m b) ino s = val m ino s := fun s ok =>
    hconf.val hs.inode (Ne.symm hs.ino_ne_fbb)
      (fun p hp _ hne h => hused p hp hne (.inr (.inl h))) ok
  have hfree : ∀ c, isFree (takeBlock m b) c = true → isFree m c = true := by
    intro c hc
    rw [isFree_takeBlock hs hb, Bool.and_eq_true] at hc
    exact hc.1
  have hfbb := hconf.fbbBn hs.fbb
  refine ⟨⟨hs.congr hfbb hfree hval, fun s ok _ => hval s ok, ?_, ?_, hfree, hfbb,
    freeCount_takeBlock hs hb⟩, ⟨?_, ?_, ?_, ?_⟩, hval⟩
  · exact fun bi ok hne => hconf _ fun h => hused _ ok hne (.inr (.inl h))
  · have hblock := hconf _ hs.ino_ne_fbb
    have hino := hs.inode
    refine getLE_congr fun x h₁ h₂ => hblock x ?_ ?_ <;>
      (unfold sizeAddr inoEntry blocksize at *; omega)
  · have := hs.free b hb
    unfold Reserved at this ⊢
    rwa [hfbb]
  · rw [isFree_takeBlock hs hb]
    simp
  · intro s ok heq
    rw [hval s ok] at heq
    have hne : val m ino s ≠ 0 := heq ▸ fun h => hs.free b hb (.inl h)
    have := (hs.used s ok hne).2
    rw [heq, hb] at this
    cases this
  · have := isFree_lt hb
    unfold bitsperblock blocksize at this
    omega

/-- A block that is fresh stays so while another one is taken. -/
theorem Fresh.take (hs : Sound m ino) (hb : isFree m b = true) (hv : Fresh m ino v) :
    v ≠ b ∧ Fresh (takeBlock m b) ino v := by
  obtain ⟨he, -, hval⟩ := Evolved.take hs hb
  have hne : v ≠ b := by
    rintro rfl
    rw [hv.free] at hb
    cases hb
  refine ⟨hne, ?_, ?_, fun s ok => hval s ok ▸ hv.unused s ok, hv.lt⟩
  · have := hv.reserved
    unfold Reserved at this ⊢
    rwa [he.fbb]
  · exact Bool.eq_false_iff.mpr fun h => by simpa [hv.free] using he.free v h

/-- What another block's being fresh depends on. -/
theorem Fresh.congr (hv : Fresh m ino v) (hfbb : fbbBn m' = fbbBn m)
    (hfree : ∀ b, isFree m' b = true → isFree m b = true)
    (hval : ∀ s : Slot, s.Ok → val m' ino s ≠ v) : Fresh m' ino v := by
  refine ⟨?_, Bool.eq_false_iff.mpr fun h => by simpa [hv.free] using hfree v h, hval, hv.lt⟩
  have := hv.reserved
  unfold Reserved at this ⊢
  rwa [hfbb]

/-- **Pointing an empty slot to a fresh block.** -/
theorem Evolved.set (hs : Sound m ino) {s : Slot} (ok : s.Ok) (hparent : HasParent m ino s)
    (hempty : val m ino s = 0) (hv : Fresh m ino v)
    (hzero : (∀ bi, s ≠ .data bi) → ∀ i < nindirect, getLE m (entryAddr v i) 4 = 0) :
    Evolved ino 0 m (putLE m (slotAddr m ino s) 4 v) ∧
      ∀ w, Fresh m ino w → w ≠ v → Fresh (putLE m (slotAddr m ino s) 4 v) ino w := by
  have hval := fun {t : Slot} (ht : t.Ok) => val_set hs ok hparent hempty hv hzero ht
  obtain ⟨h₁, h₂⟩ := hs.slotAddr_block ok
  have hconf : Confined (slotBlock m ino s) m (putLE m (slotAddr m ino s) 4 v) :=
    Confined.putLE h₁ h₂ v
  -- the slot is in the inode or in a block that holds pointers
  have hblock : slotBlock m ino s ≠ 0 ∧ slotBlock m ino s ≠ fbbBn m ∧
      ∀ bi, (Slot.data bi).Ok → val m ino (.data bi) ≠ 0 →
        val m ino (.data bi) ≠ slotBlock m ino s := by
    unfold slotBlock
    cases hp : s.place with
    | inode o =>
      refine ⟨hs.ino_ne, hs.ino_ne_fbb, fun bi hbi hne heq => ?_⟩
      exact (hs.used _ hbi hne).1 (.inr (.inr heq))
    | block p i =>
      have hne := hparent p i hp
      obtain ⟨hpok, -, -, hnd⟩ := ok.parent hp
      have hused := (hs.used p hpok hne).1
      refine ⟨hne, fun h => hused (.inr (.inl h)), fun bi hbi hdata heq => ?_⟩
      exact hnd bi (hs.inj _ _ hbi hpok hdata heq).symm
  have hfbb := hconf.fbbBn hblock.1
  have hfree := hconf.isFree hblock.1 hblock.2.1
  refine ⟨⟨hs.set ok hparent hempty hv hzero, ?_, fun bi hbi hne => hconf _ (hblock.2.2 bi hbi hne),
    ?_, fun b hb => hfree b ▸ hb, hfbb, freeCount_congr hfree⟩, ?_⟩
  · intro t ht hne
    rw [hval ht, if_neg]
    rintro rfl
    exact hne hempty
  · refine getLE_putLE_frame ?_
    unfold slotAddr
    cases hp : s.place with
    | inode o =>
      have := ok.inInode hp
      unfold sizeAddr
      dsimp only
      omega
    | block p i =>
      obtain ⟨hpok, hi, -, -⟩ := ok.parent hp
      have hne : val m ino p ≠ inoEntry ino :=
        fun h => (hs.used p hpok (hparent p i hp)).1 (.inr (.inr h))
      have hino := hs.inode
      unfold sizeAddr entryAddr inoEntry blocksize nindirect at *
      dsimp only
      omega
  · intro w hw hne
    refine hw.congr hfbb (fun b hb => hfree b ▸ hb) fun t ht => ?_
    rw [hval ht]
    split
    · exact Ne.symm hne
    · exact hw.unused t ht

/-- **A new block for pointers** is empty. -/
theorem view_allocateMetablockEntry (hs : Sound m ino) (h : 0 < freeCount m) :
    ∃ v m', view FileIter.allocateMetablockEntry m = some ((v, some v), m') ∧ v < E_MINERROR ∧
      Evolved ino 1 m m' ∧ Fresh m' ino v ∧ (∀ s : Slot, s.Ok → val m' ino s = val m ino s) ∧
      (∀ i < nindirect, getLE m' (entryAddr v i) 4 = 0) ∧
      ∀ w, Fresh m ino w → w ≠ v ∧ Fresh m' ino w := by
  obtain ⟨v, hv, halloc⟩ := view_allocateBlock h
  obtain ⟨he, hfresh, hval⟩ := Evolved.take hs hv
  have hlt : v < E_MINERROR := by
    have := isFree_lt hv
    unfold E_MINERROR bitsperblock blocksize at *
    omega
  have hconf : Confined v (takeBlock m v)
      (store (takeBlock m v) (v * blocksize) (List.replicate blocksize 0)) :=
    Confined.store (Nat.le_refl _) (by rw [List.length_replicate])
  have hne : v ≠ 0 ∧ v ≠ fbbBn (takeBlock m v) ∧ v ≠ inoEntry ino :=
    ⟨fun h => hfresh.reserved (.inl h), fun h => hfresh.reserved (.inr (.inl h)),
      fun h => hfresh.reserved (.inr (.inr h))⟩
  have hval' : ∀ s : Slot, s.Ok →
      val (store (takeBlock m v) (v * blocksize) (List.replicate blocksize 0)) ino s =
      val m ino s :=
    fun s ok => (hconf.val hs.inode hne.2.2 (fun p hp _ _ => hfresh.unused p hp) ok).trans
      (hval s ok)
  have hfbb := hconf.fbbBn hne.1
  have hfree := hconf.isFree hne.1 hne.2.1
  refine ⟨v, _, ?_, hlt, he.trans (Evolved.confined he.sound hconf hfresh.reserved hfresh.unused),
    ?_, hval', ?_, ?_⟩
  · simp [FileIter.allocateMetablockEntry, halloc, Nat.not_le.mpr hlt]
  · refine hfresh.congr hfbb (fun b hb => hfree b ▸ hb) fun s ok => ?_
    rw [hval' s ok, ← hval s ok]
    exact hfresh.unused s ok
  · intro i hi
    refine getLE_zero fun x h₁ h₂ => store_replicate ?_ ?_
    · unfold entryAddr at h₁
      omega
    · unfold entryAddr nindirect blocksize at *
      omega
  · intro w hw
    obtain ⟨hwv, hw'⟩ := Fresh.take hs hv hw
    refine ⟨hwv, hw'.congr hfbb (fun b hb => hfree b ▸ hb) fun s ok => ?_⟩
    rw [hval' s ok, ← hval s ok]
    exact hw'.unused s ok

/-! ## Looking blocks up -/

/-- A block number as an entry. -/
def entryOf (bn : Nat) : Option Nat := if bn = 0 then none else some bn

@[simp] theorem entryOf_eq_none {bn : Nat} : entryOf bn = none ↔ bn = 0 := by
  unfold entryOf
  split <;> simp_all

@[simp] theorem entryOf_zero : entryOf 0 = none := rfl

theorem entryOf_some {bn : Nat} (h : bn ≠ 0) : entryOf bn = some bn := if_neg h

@[simp] theorem view_loadPtr (m : Mem) (p : Nat) :
    view (loadPtr p) m = some (entryOf (getLE m p 4), m) := by
  unfold loadPtr entryOf
  by_cases h : getLE m p 4 = 0 <;> simp [h]

theorem iclass_single (h₁ : ndirect ≤ bi) (h₂ : bi < ndirect + nindirect) : iclass bi = 1 := by
  unfold iclass nindirect ndirect at *
  omega

theorem iclass_double (h : ndirect + nindirect ≤ bi) : iclass bi = biIndirectIndex bi + 2 := by
  unfold iclass biIndirectIndex nindirect ndirect at *
  omega

theorem iclass_pos (h : ndirect ≤ bi) : 1 ≤ iclass bi := by
  unfold iclass nindirect ndirect at *
  omega

theorem iclass_le (h : bi < maxsize / blocksize) : iclass bi ≤ nindirect + 1 := by
  rw [nmax_eq] at h
  unfold iclass nindirect ndirect
  omega

/-- **`get_data_block` finds what the pointers say.** -/
theorem view_getDataBlock (m : Mem) (ino : Nat) {off : Nat} (hoff : off % blocksize = 0)
    (hmax : off / blocksize < maxsize / blocksize) :
    view (getDataBlock ino off) m = some (entryOf (dataVal m ino (off / blocksize)), m) := by
  have hmod : off / blocksize % 2 ^ 32 = off / blocksize :=
    Nat.mod_eq_of_lt (Nat.lt_trans (nmax_eq ▸ hmax) (by decide))
  unfold getDataBlock
  rw [hmod]
  generalize off / blocksize = bi at hmax ⊢
  have hassert : decide (bi < maxsize / blocksize) = true := decide_eq_true hmax
  by_cases h₁ : ndirect + nindirect ≤ bi
  · have hdirect : ¬ bi < ndirect := by omega
    rw [dataVal, if_neg hdirect, indVal, iclass_double h₁]
    unfold rootVal
    by_cases h₂ : getLE m (indirect2Addr ino) 4 = 0
    · simp [hoff, h₁, view_assert, h₂, entryOf]
    · by_cases h₃ : getLE m (entryAddr (getLE m (indirect2Addr ino) 4) (biIndirectIndex bi)) 4 = 0
      · simp [hoff, h₁, view_assert, h₂, h₃, entryOf, hassert, getIndirectBlock]
      · simp [hoff, h₁, view_assert, h₂, h₃, entryOf, hassert, getIndirectBlock]
  · by_cases h₂ : ndirect ≤ bi
    · have hdirect : ¬ bi < ndirect := by omega
      rw [dataVal, if_neg hdirect, indVal, iclass_single h₂ (by omega)]
      by_cases h₃ : getLE m (indirectAddr ino) 4 = 0
      · simp [hoff, h₁, h₂, view_assert, h₃, entryOf, getIndirectBlock]
      · simp [hoff, h₁, h₂, view_assert, h₃, entryOf, hassert, getIndirectBlock]
    · have hdirect : bi < ndirect := by omega
      have hindex : biDirectIndex bi = bi := if_pos hdirect
      rw [dataVal, if_pos hdirect]
      simp [hoff, h₁, h₂, view_assert, hindex]

/-! ## The iterator -/

/-- The entries of an iterator are those its inode's pointers lead to. -/
structure FileIter.Inv (it : FileIter) (m : Mem) : Prop where
  lt : it.off / blocksize < maxsize / blocksize
  indirect2 : ∀ e, it.indirect2 = some e → e = val m it.ino .root ∧ e ≠ 0
  indirect : ∀ e, it.indirect = some e →
    e = val m it.ino (.ind (iclass (it.off / blocksize))) ∧ e ≠ 0

/-- The iterator is at offset `off`, with every entry on the way that there is. -/
structure FileIter.At (it : FileIter) (m : Mem) (ino off : Nat) : Prop where
  inv : it.Inv m
  inode : it.ino = ino
  offset : it.off = off
  indirect2 : ndirect + nindirect ≤ off / blocksize → it.indirect2 = entryOf (val m ino .root)
  indirect : ndirect ≤ off / blocksize →
    it.indirect = entryOf (val m ino (.ind (iclass (off / blocksize))))

theorem FileIter.Inv.start (m : Mem) (ino : Nat) : (FileIter.mk' ino).Inv m :=
  ⟨show 0 / blocksize < maxsize / blocksize by decide,
    fun _ h => (Option.some_ne_none _ h.symm).elim,
    fun _ h => (Option.some_ne_none _ h.symm).elim⟩

/-- The indirect entry that is left is that of the new class. -/
theorem view_clearIndirect {it : FileIter} (h : it.Inv m) (bi : Nat) :
    ∃ x, view (it.clearIndirect bi) m = some ({ it with indirect := x }, m) ∧
      ∀ e, x = some e → e = val m it.ino (.ind (iclass bi)) ∧ e ≠ 0 := by
  obtain ⟨ino, off, dptr, indirect2, indirect⟩ := it
  unfold FileIter.clearIndirect
  cases indirect with
  | none => exact ⟨none, rfl, fun e he => by cases he⟩
  | some e =>
    dsimp only
    split
    · exact ⟨none, by simp, fun e he => by cases he⟩
    · rename_i hc
      refine ⟨some e, rfl, fun e' he' => ?_⟩
      rw [Decidable.not_not.mp hc]
      exact h.indirect e' he'

theorem view_loadIndirect2 {it : FileIter}
    (h : ∀ e, it.indirect2 = some e → e = val m it.ino .root ∧ e ≠ 0) (bi : Nat) :
    view (it.loadIndirect2 bi) m = some ({ it with
      indirect2 := if ndirect + nindirect ≤ bi then entryOf (val m it.ino .root)
        else it.indirect2 }, m) := by
  unfold FileIter.loadIndirect2
  by_cases hbi : ndirect + nindirect ≤ bi
  · cases hi : it.indirect2 with
    | none =>
      have hroot : val m it.ino .root = getLE m (indirect2Addr it.ino) 4 := rfl
      simp [hbi, hroot]
    | some e =>
      obtain ⟨he, hne⟩ := h e hi
      have hroot : entryOf (val m it.ino .root) = some e := by rw [← he, entryOf_some hne]
      rw [if_neg (by simp), if_pos hbi, hroot, ← hi]
      rfl
  · simp [hbi]

theorem view_loadIndirect {it : FileIter}
    (h2 : ndirect + nindirect ≤ bi → it.indirect2 = some (val m it.ino .root) ∧
      val m it.ino .root ≠ 0)
    (h : ∀ e, it.indirect = some e → e = val m it.ino (.ind (iclass bi)) ∧ e ≠ 0) :
    view (it.loadIndirect bi) m = some ({ it with
      indirect := if ndirect ≤ bi then entryOf (val m it.ino (.ind (iclass bi)))
        else it.indirect }, m) := by
  unfold FileIter.loadIndirect
  by_cases hbi : ndirect ≤ bi
  · cases hi : it.indirect with
    | none =>
      by_cases hdouble : ndirect + nindirect ≤ bi
      · obtain ⟨h₁, h₂⟩ := h2 hdouble
        have hc : iclass bi > 1 := by
          rw [iclass_double hdouble]
          omega
        have hval : val m it.ino (.ind (iclass bi)) =
            getLE m (entryAddr (val m it.ino .root) (iclass bi - 2)) 4 := by
          change indVal m it.ino (iclass bi) = _
          rw [indVal, if_neg (by omega)]
          exact if_neg h₂
        simp [hbi, FileIter.getIptr, hc, h₁, hval]
      · have hc := iclass_single hbi (by omega)
        have hval : val m it.ino (.ind 1) = getLE m (indirectAddr it.ino) 4 := rfl
        simp [hbi, FileIter.getIptr, hc, hval]
    | some e =>
      obtain ⟨he, hne⟩ := h e hi
      have hind : entryOf (val m it.ino (.ind (iclass bi))) = some e := by
        rw [← he, entryOf_some hne]
      rw [if_neg (by simp), if_pos hbi, hind, ← hi]
      rfl
  · simp [hbi]

/-- **`find` puts the iterator at the offset**, with a pointer to the data block's number if
there is an indirect block on the way or none is needed. -/
theorem view_find_dptr {it : FileIter} (h : it.Inv m) {off : Nat}
    (hmax : off / blocksize < maxsize / blocksize) :
    ∃ it', view (it.find off) m = some (it', m) ∧ it'.At m it.ino off ∧
      it'.dptr = if ndirect ≤ off / blocksize ∧ it'.indirect = none then none
        else it'.getDptr (off / blocksize) := by
  have hmin : min off maxsize = off := by
    refine Nat.min_eq_left ?_
    by_contra hc
    exact absurd (Nat.div_le_div_right (c := blocksize) (Nat.le_of_lt (Nat.not_le.mp hc)))
      (by omega)
  obtain ⟨x, hclear, hx⟩ := view_clearIndirect h (off / blocksize)
  unfold FileIter.find
  rw [hmin]
  simp only [view_bind, hclear, Option.bind_some]
  rw [@view_loadIndirect2 m { it with off := off, dptr := none, indirect := x } h.indirect2]
  generalize hbi : off / blocksize = bi at hmax hx ⊢
  dsimp only [Option.bind_some]
  by_cases hd : ndirect + nindirect ≤ bi ∧ val m it.ino .root = 0
  · -- there is no indirect2 block
    have hclass : val m it.ino (.ind (iclass bi)) = 0 := by
      change indVal m it.ino (iclass bi) = 0
      rw [indVal, if_neg (by rw [iclass_double hd.1]; omega)]
      exact if_pos hd.2
    have hnone : x = none := by
      cases hi : x with
      | none => rfl
      | some e => exact absurd ((hx e hi).1.trans hclass) (hx e hi).2
    rw [if_pos ⟨hd.1, by simp [hd]⟩]
    refine ⟨_, rfl, ⟨⟨hbi.symm ▸ hmax, ?_, ?_⟩, rfl, rfl, ?_, ?_⟩, (if_pos ⟨by omega, hnone⟩).symm⟩
    · simp [hd]
    · simp [hnone]
    · simp [hbi, hd]
    · simp [hbi, hnone, hclass]
  · have h2 : ndirect + nindirect ≤ bi →
        entryOf (val m it.ino .root) = some (val m it.ino .root) ∧ val m it.ino .root ≠ 0 := by
      intro hdouble
      have hne : val m it.ino .root ≠ 0 := fun h => hd ⟨hdouble, h⟩
      exact ⟨entryOf_some hne, hne⟩
    have hassert : decide (bi < ndirect ∨ bi < maxsize / blocksize) = true :=
      decide_eq_true (.inr hmax)
    have hcond : ¬ (ndirect + nindirect ≤ bi ∧ (if ndirect + nindirect ≤ bi then
        entryOf (val m it.ino .root) else it.indirect2) = none) := by
      rintro ⟨h₁, h₂⟩
      rw [if_pos h₁, entryOf_eq_none] at h₂
      exact hd ⟨h₁, h₂⟩
    have hinv2 : ∀ e, (if ndirect + nindirect ≤ bi then entryOf (val m it.ino .root)
        else it.indirect2) = some e → e = val m it.ino .root ∧ e ≠ 0 := by
      intro e he
      split at he
      · rename_i hdouble
        obtain ⟨h₁, h₂⟩ := h2 hdouble
        rw [h₁] at he
        cases he
        exact ⟨rfl, h₂⟩
      · exact h.indirect2 e he
    rw [if_neg hcond, view_bind, @view_loadIndirect m bi _ (fun hdouble => by
      rw [if_pos hdouble]; exact h2 hdouble) hx, Option.bind_some]
    dsimp only
    have hinv : ∀ e, (if ndirect ≤ bi then entryOf (val m it.ino (.ind (iclass bi))) else x) =
        some e → e = val m it.ino (.ind (iclass bi)) ∧ e ≠ 0 := by
      intro e he
      split at he
      · by_cases hz : val m it.ino (.ind (iclass bi)) = 0
        · rw [hz] at he
          cases he
        · rw [entryOf_some hz] at he
          cases he
          exact ⟨rfl, hz⟩
      · exact hx e he
    by_cases hind : ndirect ≤ bi ∧
        (if ndirect ≤ bi then entryOf (val m it.ino (.ind (iclass bi))) else x) = none
    · rw [if_pos hind]
      exact ⟨_, rfl, ⟨⟨hbi.symm ▸ hmax, hinv2, hbi ▸ hinv⟩, rfl, rfl, fun h => if_pos (hbi ▸ h),
        fun h => by rw [hbi]; exact if_pos (hbi ▸ h)⟩, (if_pos hind).symm⟩
    · rw [if_neg hind, view_bind, view_assert _ hassert, Option.bind_some]
      exact ⟨_, rfl, ⟨⟨hbi.symm ▸ hmax, hinv2, hbi ▸ hinv⟩, rfl, rfl, fun h => if_pos (hbi ▸ h),
        fun h => by rw [hbi]; exact if_pos (hbi ▸ h)⟩, (if_neg hind).symm⟩

theorem view_find {it : FileIter} (h : it.Inv m) {off : Nat}
    (hmax : off / blocksize < maxsize / blocksize) :
    ∃ it', view (it.find off) m = some (it', m) ∧ it'.At m it.ino off := by
  obtain ⟨it', hfind, hat, -⟩ := view_find_dptr h hmax
  exact ⟨it', hfind, hat⟩

/-- The entries stay right while the pointers to pointer blocks that are there are kept. -/
theorem FileIter.Inv.of_pointers {it : FileIter} (h : it.Inv m) (hino : it.ino = ino)
    (kept : ∀ s : Slot, s.Ok → s.Pointer → val m ino s ≠ 0 → val m' ino s = val m ino s) :
    it.Inv m' := by
  subst hino
  refine ⟨h.lt, fun e he => ?_, fun e he => ?_⟩
  · obtain ⟨h₁, h₂⟩ := h.indirect2 e he
    rw [kept .root trivial (fun _ => Slot.noConfusion) (h₁ ▸ h₂)]
    exact ⟨h₁, h₂⟩
  · obtain ⟨h₁, h₂⟩ := h.indirect e he
    have hle := iclass_le h.lt
    generalize iclass (it.off / blocksize) = c at h₁ hle ⊢
    by_cases hc : c = 0
    · -- class 0 has no indirect block; read as one, it is that of class 1
      subst hc
      have hone : (Slot.ind 1).Ok := ⟨Nat.le_refl 1, by decide⟩
      have hkept := kept (.ind 1) hone (fun _ => Slot.noConfusion) (h₁ ▸ h₂)
      exact ⟨h₁.trans hkept.symm, h₂⟩
    · have hok : (Slot.ind c).Ok := ⟨Nat.pos_of_ne_zero hc, hle⟩
      rw [kept _ hok (fun _ => Slot.noConfusion) (h₁ ▸ h₂)]
      exact ⟨h₁, h₂⟩

theorem FileIter.Inv.mono {it : FileIter} (h : it.Inv m) (hino : it.ino = ino)
    (kept : ∀ s : Slot, s.Ok → val m ino s ≠ 0 → val m' ino s = val m ino s) : it.Inv m' :=
  h.of_pointers hino fun s ok _ => kept s ok

/-! ## Filling slots -/

/-- The slots of the indirect2 block and the indirect block on the way to block `bi`. -/
def rootSlots (bi : Nat) : Finset Slot := if ndirect + nindirect ≤ bi then {.root} else ∅

def indSlots (bi : Nat) : Finset Slot := if ndirect ≤ bi then {.ind (iclass bi)} else ∅

/-- The slots on the way to data block `bi`, its own included. -/
def path (bi : Nat) : Finset Slot := rootSlots bi ∪ indSlots bi ∪ {.data bi}

/-- The slots of `S` that point to no block yet. -/
def absent (m : Mem) (ino : Nat) (S : Finset Slot) : Finset Slot :=
  S.filter fun s => val m ino s = 0

/-- The empty slots of `S` have been filled with new blocks, and nothing else has
changed. -/
structure Filled (ino : Nat) (S : Finset Slot) (m m' : Mem) : Prop where
  ok : ∀ s ∈ S, s.Ok
  evolved : Evolved ino (absent m ino S).card m m'
  full : ∀ s ∈ S, val m' ino s ≠ 0
  rest : ∀ s : Slot, s.Ok → s ∉ S → val m' ino s = val m ino s

variable {S T : Finset Slot}

theorem mem_path {s : Slot} : s ∈ path bi ↔
    (ndirect + nindirect ≤ bi ∧ s = .root) ∨ (ndirect ≤ bi ∧ s = .ind (iclass bi)) ∨
    s = .data bi := by
  unfold path rootSlots indSlots
  by_cases h₁ : ndirect + nindirect ≤ bi <;> by_cases h₂ : ndirect ≤ bi <;>
    simp [h₁, h₂]

theorem data_not_mem {bi' : Nat} : Slot.data bi ∉ rootSlots bi' ∪ indSlots bi' := by
  unfold rootSlots indSlots
  split <;> split <;> simp

theorem path_ok (hbi : bi < maxsize / blocksize) : ∀ s ∈ path bi, s.Ok := by
  intro s hs
  rcases mem_path.mp hs with ⟨-, rfl⟩ | ⟨h, rfl⟩ | rfl
  · exact trivial
  · exact ⟨iclass_pos h, iclass_le hbi⟩
  · exact hbi

/-- What `S` and `T` lack is what `S` lacks, and what `T` lacks once `S` is filled. -/
theorem card_absent_union (hT : ∀ s ∈ T, s.Ok) (hfull : ∀ s ∈ S, val m' ino s ≠ 0)
    (hrest : ∀ s : Slot, s.Ok → s ∉ S → val m' ino s = val m ino s) :
    (absent m ino (S ∪ T)).card = (absent m ino S).card + (absent m' ino T).card := by
  have hdisj : Disjoint (absent m ino S) (absent m' ino T) := by
    refine Finset.disjoint_left.mpr fun s hS hT' => ?_
    exact hfull s (Finset.mem_filter.mp hS).1 (Finset.mem_filter.mp hT').2
  rw [← Finset.card_union_of_disjoint hdisj]
  congr 1
  ext s
  unfold absent
  simp only [Finset.mem_filter, Finset.mem_union]
  constructor
  · rintro ⟨hmem, hz⟩
    by_cases hS : s ∈ S
    · exact .inl ⟨hS, hz⟩
    · have hsT := hmem.resolve_left hS
      exact .inr ⟨hsT, (hrest s (hT s hsT) hS).trans hz⟩
  · rintro (⟨hS, hz⟩ | ⟨hsT, hz⟩)
    · exact ⟨.inl hS, hz⟩
    · have hS : s ∉ S := fun hS => hfull s hS hz
      exact ⟨.inr hsT, (hrest s (hT s hsT) hS).symm.trans hz⟩

theorem absent_congr (h : ∀ s ∈ S, val m' ino s = val m ino s) : absent m' ino S = absent m ino S :=
  Finset.filter_congr fun s hs => by rw [h s hs]

theorem absent_subset (h : S ⊆ T) : absent m ino S ⊆ absent m ino T :=
  Finset.filter_subset_filter _ h

theorem absent_eq_empty (h : ∀ s ∈ S, val m ino s ≠ 0) : absent m ino S = ∅ :=
  Finset.filter_false_of_mem h

theorem Filled.trans (h : Filled ino S m m') (h' : Filled ino T m' m'') :
    Filled ino (S ∪ T) m m'' := by
  refine ⟨?_, ?_, ?_, ?_⟩
  · intro s hs
    exact (Finset.mem_union.mp hs).elim (h.ok s) (h'.ok s)
  · rw [card_absent_union h'.ok h.full h.rest]
    exact h.evolved.trans h'.evolved
  · intro s hs
    by_cases hT : s ∈ T
    · exact h'.full s hT
    · have hS := (Finset.mem_union.mp hs).resolve_right hT
      rw [h'.rest s (h.ok s hS) hT]
      exact h.full s hS
  · intro s hok hs
    rw [Finset.mem_union, not_or] at hs
    rw [h'.rest s hok hs.2, h.rest s hok hs.1]

/-- There is nothing to fill. -/
theorem Filled.refl (hs : Sound m ino) (hok : ∀ s ∈ S, s.Ok) (h : ∀ s ∈ S, val m ino s ≠ 0) :
    Filled ino S m m := by
  refine ⟨hok, ?_, h, fun _ _ _ => rfl⟩
  rw [absent_eq_empty h]
  exact Evolved.refl hs

/-- **A metablock is put in its slot.** -/
theorem Filled.metablock {s : Slot} (ok : s.Ok) (hparent : HasParent m ino s)
    (hempty : val m ino s = 0) (he : Evolved ino 1 m m') (hv : Fresh m' ino v)
    (hval : ∀ s : Slot, s.Ok → val m' ino s = val m ino s)
    (hzero : ∀ i < nindirect, getLE m' (entryAddr v i) 4 = 0) :
    Filled ino {s} m (putLE m' (slotAddr m' ino s) 4 v) ∧
      val (putLE m' (slotAddr m' ino s) 4 v) ino s = v ∧
      ∀ w, Fresh m' ino w → w ≠ v → Fresh (putLE m' (slotAddr m' ino s) 4 v) ino w := by
  have hparent' : HasParent m' ino s := fun p i hp => hval p (ok.parent hp).1 ▸ hparent p i hp
  have hempty' : val m' ino s = 0 := (hval s ok).trans hempty
  obtain ⟨hset, hfresh⟩ := Evolved.set he.sound ok hparent' hempty' hv fun _ => hzero
  have hval' := fun {t : Slot} (ht : t.Ok) =>
    val_set he.sound ok hparent' hempty' hv (fun _ => hzero) ht
  have hself : val (putLE m' (slotAddr m' ino s) 4 v) ino s = v := (hval' ok).trans (if_pos rfl)
  have hcard : (absent m ino {s}).card = 1 := by
    unfold absent
    rw [Finset.filter_singleton, if_pos hempty, Finset.card_singleton]
  refine ⟨⟨?_, ?_, ?_, ?_⟩, hself, hfresh⟩
  · exact fun t ht => Finset.mem_singleton.mp ht ▸ ok
  · rw [hcard]
    exact he.trans hset
  · intro t ht
    rw [Finset.mem_singleton.mp ht, hself]
    exact hv.ne_zero
  · intro t ht hne
    rw [hval' ht, if_neg fun h => hne (Finset.mem_singleton.mpr h), hval t ht]

/-! ## `map` -/

section Map
variable {it : FileIter} {off : Nat}

theorem view_mapIndirect2 (hs : Sound m ino) (h : it.At m ino off) (hv : Fresh m ino v)
    (hfree : (absent m ino (rootSlots (off / blocksize))).card ≤ freeCount m) :
    ∃ it' m', view (it.mapIndirect2 (off / blocksize)) m = some (.ok it', m') ∧
      it'.At m' ino off ∧ Fresh m' ino v ∧ Filled ino (rootSlots (off / blocksize)) m m' := by
  obtain rfl := h.inode
  have hlt := h.inv.lt
  rw [h.offset] at hlt
  have hok : ∀ s ∈ rootSlots (off / blocksize), s.Ok := by
    intro s hs
    exact path_ok hlt s (Finset.mem_union_left _ (Finset.mem_union_left _ hs))
  unfold FileIter.mapIndirect2
  by_cases hd : ndirect + nindirect ≤ off / blocksize
  · by_cases hroot : val m it.ino .root = 0
    · -- the indirect2 block is made
      have hnone : it.indirect2 = none := by rw [h.indirect2 hd, hroot, entryOf_zero]
      have habsent : (absent m it.ino (rootSlots (off / blocksize))).card = 1 := by
        unfold rootSlots absent
        rw [if_pos hd, Finset.filter_singleton, if_pos hroot, Finset.card_singleton]
      obtain ⟨b, m₁, halloc, hb, he, hfresh, hval, hzero, hother⟩ :=
        view_allocateMetablockEntry hs (by omega)
      obtain ⟨hvb, hv₁⟩ := hother v hv
      obtain ⟨hfill, hself, hkeep⟩ := Filled.metablock (s := .root) trivial
        (fun p i hp => by cases hp) hroot he hfresh hval hzero
      have hslots : rootSlots (off / blocksize) = {.root} := if_pos hd
      refine ⟨{ it with indirect2 := some b }, _, ?_, ?_, hkeep v hv₁ hvb, hslots ▸ hfill⟩
      · simp only [hd, hnone, and_self, if_true, view_bind, halloc, Option.bind_some,
          if_neg (Nat.not_le.mpr hb), view_sully, view_poke, view_pure]
        rfl
      · have hinv : it.Inv _ := h.inv.mono rfl hfill.evolved.kept
        refine ⟨⟨hinv.lt, fun e he => ?_, hinv.indirect⟩, h.inode, h.offset, fun _ => ?_,
          fun hind => ?_⟩
        · cases he
          dsimp only
          rw [hself]
          exact ⟨rfl, hfresh.ne_zero⟩
        · rw [hself, entryOf_some hfresh.ne_zero]
        · have hind' : (Slot.ind (iclass (off / blocksize))).Ok := ⟨iclass_pos hind, iclass_le hlt⟩
          rw [hfill.rest _ hind' (by simp)]
          exact h.indirect hind
    · have hsome : it.indirect2 ≠ none := by
        rw [h.indirect2 hd, entryOf_some hroot]
        exact Option.some_ne_none _
      rw [if_neg fun hc => hsome hc.2]
      refine ⟨it, m, rfl, h, hv, Filled.refl hs hok fun s hs => ?_⟩
      unfold rootSlots at hs
      rw [if_pos hd, Finset.mem_singleton] at hs
      rw [hs]
      exact hroot
  · rw [if_neg fun hc => hd hc.1]
    refine ⟨it, m, rfl, h, hv, Filled.refl hs hok fun s hs => ?_⟩
    unfold rootSlots at hs
    rw [if_neg hd] at hs
    exact absurd hs (Finset.notMem_empty s)

theorem hasParent_ind (hroot : ∀ s ∈ rootSlots bi, val m ino s ≠ 0) (hd : ndirect ≤ bi) :
    HasParent m ino (.ind (iclass bi)) := by
  intro p i hp
  by_cases hdouble : ndirect + nindirect ≤ bi
  · have hc : 2 ≤ iclass bi := by
      rw [iclass_double hdouble]
      omega
    rw [place_ind hc] at hp
    cases hp
    exact hroot .root (by unfold rootSlots; rw [if_pos hdouble]; exact Finset.mem_singleton_self _)
  · rw [iclass_single hd (by omega), place_ind_one] at hp
    cases hp

/-- The pointer to the indirect block is where its slot is. -/
theorem FileIter.At.iptr (h : it.At m ino off) (hd : ndirect ≤ off / blocksize)
    (hroot : ∀ s ∈ rootSlots (off / blocksize), val m ino s ≠ 0)
    (hroot' : val m' ino .root = val m ino .root) :
    ∃ e, (if ndirect + nindirect ≤ off / blocksize then it.indirect2
        else some (inoEntry it.ino)) = some e ∧
      it.getIptr (off / blocksize) = some (slotAddr m' ino (.ind (iclass (off / blocksize)))) := by
  unfold FileIter.getIptr
  by_cases hdouble : ndirect + nindirect ≤ off / blocksize
  · have hc : 2 ≤ iclass (off / blocksize) := by
      rw [iclass_double hdouble]
      omega
    have hne : val m ino .root ≠ 0 := by
      refine hroot .root ?_
      unfold rootSlots
      rw [if_pos hdouble]
      exact Finset.mem_singleton_self _
    have hsome : it.indirect2 = some (val m ino .root) := by
      rw [h.indirect2 hdouble, entryOf_some hne]
    rw [if_pos hdouble, if_pos (show iclass (off / blocksize) > 1 from hc), hsome]
    refine ⟨_, rfl, ?_⟩
    unfold slotAddr
    rw [place_ind hc, ← hroot']
    rfl
  · have hc : iclass (off / blocksize) = 1 := iclass_single hd (by omega)
    rw [if_neg hdouble, hc, ← h.inode]
    exact ⟨_, rfl, rfl⟩

theorem view_mapIndirect (hs : Sound m ino) (h : it.At m ino off) (hv : Fresh m ino v)
    (hroot : ∀ s ∈ rootSlots (off / blocksize), val m ino s ≠ 0)
    (hfree : (absent m ino (indSlots (off / blocksize))).card ≤ freeCount m) :
    ∃ it' m', view (it.mapIndirect (off / blocksize)) m = some (.ok it', m') ∧
      it'.At m' ino off ∧ Fresh m' ino v ∧ Filled ino (indSlots (off / blocksize)) m m' := by
  obtain rfl := h.inode
  have hlt := h.inv.lt
  rw [h.offset] at hlt
  have hok : ∀ s ∈ indSlots (off / blocksize), s.Ok := by
    intro s hs
    exact path_ok hlt s (Finset.mem_union_left _ (Finset.mem_union_right _ hs))
  unfold FileIter.mapIndirect
  by_cases hd : ndirect ≤ off / blocksize
  · have hind : (Slot.ind (iclass (off / blocksize))).Ok := ⟨iclass_pos hd, iclass_le hlt⟩
    by_cases hval₀ : val m it.ino (.ind (iclass (off / blocksize))) = 0
    · -- the indirect block is made
      have hnone : it.indirect = none := by rw [h.indirect hd, hval₀, entryOf_zero]
      have habsent : (absent m it.ino (indSlots (off / blocksize))).card = 1 := by
        unfold indSlots absent
        rw [if_pos hd, Finset.filter_singleton, if_pos hval₀, Finset.card_singleton]
      obtain ⟨b, m₁, halloc, hb, he, hfresh, hval, hzero, hother⟩ :=
        view_allocateMetablockEntry hs (by omega)
      obtain ⟨hvb, hv₁⟩ := hother v hv
      have hparent := hasParent_ind hroot hd
      obtain ⟨hfill, hself, hkeep⟩ := Filled.metablock hind hparent hval₀ he hfresh hval hzero
      have hslots : indSlots (off / blocksize) = {.ind (iclass (off / blocksize))} := if_pos hd
      have hroot₁ := hval .root trivial
      obtain ⟨e, hentry, hiptr⟩ := h.iptr hd hroot hroot₁
      refine ⟨{ it with indirect := some b }, _, ?_, ?_, hkeep v hv₁ hvb, hslots ▸ hfill⟩
      · simp only [hd, hnone, and_self, if_true, view_bind, halloc, Option.bind_some,
          if_neg (Nat.not_le.mpr hb), hentry, hiptr, view_sully, view_poke, view_pure]
      · have hinv : it.Inv _ := h.inv.mono rfl hfill.evolved.kept
        refine ⟨⟨hinv.lt, hinv.indirect2, fun e he => ?_⟩, h.inode, h.offset, fun hdouble => ?_,
          fun _ => ?_⟩
        · cases he
          dsimp only
          rw [h.offset, hself]
          exact ⟨rfl, hfresh.ne_zero⟩
        · rw [hfill.rest .root trivial (by simp)]
          exact h.indirect2 hdouble
        · rw [hself, entryOf_some hfresh.ne_zero]
    · have hsome : it.indirect ≠ none := by
        rw [h.indirect hd, entryOf_some hval₀]
        exact Option.some_ne_none _
      rw [if_neg fun hc => hsome hc.2]
      refine ⟨it, m, rfl, h, hv, Filled.refl hs hok fun s hs => ?_⟩
      unfold indSlots at hs
      rw [if_pos hd, Finset.mem_singleton] at hs
      rw [hs]
      exact hval₀
  · rw [if_neg fun hc => hd hc.1]
    refine ⟨it, m, rfl, h, hv, Filled.refl hs hok fun s hs => ?_⟩
    unfold indSlots at hs
    rw [if_neg hd] at hs
    exact absurd hs (Finset.notMem_empty s)

theorem hasParent_data (hind : ∀ s ∈ indSlots bi, val m ino s ≠ 0) :
    HasParent m ino (.data bi) := by
  intro p i hp
  by_cases hd : ndirect ≤ bi
  · rw [place_data hd] at hp
    cases hp
    refine hind _ ?_
    unfold indSlots
    rw [if_pos hd]
    exact Finset.mem_singleton_self _
  · rw [place_direct (by omega)] at hp
    cases hp

/-- The pointer to the data block is where its slot is. -/
theorem FileIter.At.dptr (h : it.At m ino off)
    (hind : ∀ s ∈ indSlots (off / blocksize), val m ino s ≠ 0) :
    ∃ e, (if ndirect ≤ off / blocksize then it.indirect else some (inoEntry it.ino)) = some e ∧
      it.getDptr (off / blocksize) = some (slotAddr m ino (.data (off / blocksize))) := by
  unfold FileIter.getDptr
  by_cases hd : ndirect ≤ off / blocksize
  · have hne : val m ino (.ind (iclass (off / blocksize))) ≠ 0 := by
      refine hind _ ?_
      unfold indSlots
      rw [if_pos hd]
      exact Finset.mem_singleton_self _
    have hsome : it.indirect = some (val m ino (.ind (iclass (off / blocksize)))) := by
      rw [h.indirect hd, entryOf_some hne]
    rw [if_pos hd, if_pos (show off / blocksize ≥ ndirect from hd), hsome]
    refine ⟨_, rfl, ?_⟩
    unfold slotAddr
    rw [place_data hd]
    rfl
  · rw [if_neg hd, if_neg (show ¬ off / blocksize ≥ ndirect from hd), ← h.inode]
    refine ⟨_, rfl, ?_⟩
    unfold slotAddr directAddr
    rw [place_direct (by omega), Nat.add_assoc]

theorem lt_maxsize (h : off / blocksize < maxsize / blocksize) : off < maxsize := by
  by_contra hc
  exact absurd (Nat.div_le_div_right (c := blocksize) (Nat.not_lt.mp hc)) (by omega)

/-- **`map` puts a fresh block in the slot of the iterator's offset**, after it has
filled the slots on the way. -/
theorem view_map (hs : Sound m ino) (h : it.At m ino off) (hv : Fresh m ino v)
    (hempty : val m ino (.data (off / blocksize)) = 0)
    (hfree : (absent m ino (rootSlots (off / blocksize) ∪ indSlots (off / blocksize))).card ≤
      freeCount m) :
    ∃ it' m₁ m', view (it.map v) m = some ((0, it'), m') ∧ it'.Inv m' ∧ it'.ino = ino ∧
      Filled ino (rootSlots (off / blocksize) ∪ indSlots (off / blocksize)) m m₁ ∧
      Evolved ino 0 m₁ m' ∧ ∀ s : Slot, s.Ok →
        val m' ino s = if s = .data (off / blocksize) then v else val m₁ ino s := by
  have hlt := h.inv.lt
  rw [h.offset] at hlt
  have hmod : off / blocksize % 2 ^ 32 = off / blocksize :=
    Nat.mod_eq_of_lt (Nat.lt_trans (nmax_eq ▸ hlt) (by decide))
  have hok := path_ok hlt
  have hdata : (Slot.data (off / blocksize)).Ok := hlt
  -- the slots on the way
  have hfree₁ := Nat.le_trans (Finset.card_le_card (absent_subset Finset.subset_union_left)) hfree
  obtain ⟨it₁, m₁, hmap₁, hat₁, hv₁, hfill₁⟩ := view_mapIndirect2 hs h hv hfree₁
  have hcard := card_absent_union (T := indSlots (off / blocksize))
    (fun s hs => hok s (Finset.mem_union_left _ (Finset.mem_union_right _ hs))) hfill₁.full
    hfill₁.rest
  have hcount := hfill₁.evolved.count
  obtain ⟨it₂, m₂, hmap₂, hat₂, hv₂, hfill₂⟩ :=
    view_mapIndirect hfill₁.evolved.sound hat₁ hv₁ hfill₁.full (by omega)
  have hfill := hfill₁.trans hfill₂
  -- the data block's own slot
  have hempty₂ : val m₂ ino (.data (off / blocksize)) = 0 := by
    rw [hfill.rest _ hdata data_not_mem, hempty]
  have hparent := hasParent_data hfill₂.full
  have hzero : (∀ bi, Slot.data (off / blocksize) ≠ .data bi) →
      ∀ i < nindirect, getLE m₂ (entryAddr v i) 4 = 0 := fun hne => absurd rfl (hne _)
  obtain ⟨hset, -⟩ := Evolved.set hfill₂.evolved.sound hdata hparent hempty₂ hv₂ hzero
  obtain ⟨e, hentry, hdptr⟩ := hat₂.dptr hfill₂.full
  have hinv : it₂.Inv _ := hat₂.inv.mono hat₂.inode hset.kept
  refine ⟨{ it₂ with dptr := some (slotAddr m₂ ino (.data (off / blocksize))) }, m₂, _, ?_,
    ⟨hinv.lt, hinv.indirect2, hinv.indirect⟩, hat₂.inode, hfill, hset,
    fun s ok => val_set hfill₂.evolved.sound hdata hparent hempty₂ hv₂ hzero ok⟩
  unfold FileIter.map FileIter.mapData
  simp only [h.offset, hmod, hv.ne_zero, false_and, if_false, Nat.not_le.mpr (lt_maxsize hlt),
    view_bind, hmap₁, hmap₂, Option.bind_some, hentry, hdptr, view_sully, view_poke,
    view_pure]

/-- A data block that is there is reached through blocks that are there. -/
theorem path_full (h : val m ino (.data bi) ≠ 0) : ∀ s ∈ path bi, val m ino s ≠ 0 := by
  intro s hs
  rcases mem_path.mp hs with ⟨hd, rfl⟩ | ⟨hd, rfl⟩ | rfl
  · intro hz
    refine h ?_
    change dataVal m ino bi = 0
    have hind : indVal m ino (iclass bi) = 0 := by
      rw [indVal, if_neg (by rw [iclass_double hd]; omega)]
      exact if_pos hz
    rw [dataVal, if_neg (by omega), if_pos hind]
  · intro hz
    refine h ?_
    change dataVal m ino bi = 0
    rw [dataVal, if_neg (by omega)]
    exact if_pos hz
  · exact h

/-- **The next block is mapped** if it was not. -/
theorem view_mapNext (hs : Sound m ino) (h : it.Inv m) (hino : it.ino = ino)
    (hoff : off % blocksize = 0) (hlt : off / blocksize < maxsize / blocksize)
    (hfree : (absent m ino (path (off / blocksize))).card ≤ freeCount m) :
    ∃ it' m', view (mapNext ino off it) m = some (it', m') ∧ it'.Inv m' ∧ it'.ino = ino ∧
      Filled ino (path (off / blocksize)) m m' := by
  have hok := path_ok hlt
  have hdata : (Slot.data (off / blocksize)).Ok := hlt
  unfold mapNext
  rw [view_bind, view_getDataBlock m ino hoff hlt, Option.bind_some]
  by_cases hmapped : val m ino (.data (off / blocksize)) = 0
  · have hnone : entryOf (dataVal m ino (off / blocksize)) = none := entryOf_eq_none.mpr hmapped
    obtain ⟨it₁, hfind, hat⟩ := view_find h hlt
    -- the slot is empty, so that one block is for it
    have hcard : (absent m ino (path (off / blocksize))).card =
        (absent m ino (rootSlots (off / blocksize) ∪ indSlots (off / blocksize))).card + 1 := by
      unfold path absent
      rw [Finset.filter_union, Finset.filter_singleton, if_pos hmapped]
      refine Finset.card_union_of_disjoint ?_
      rw [Finset.disjoint_singleton_right]
      exact fun hmem => data_not_mem (Finset.mem_of_mem_filter _ hmem)
    obtain ⟨b, hb, halloc⟩ := view_allocateBlock (by omega : 0 < freeCount m)
    obtain ⟨he, hfresh, hval⟩ := Evolved.take hs hb
    have hnospc : decide (b ≠ E_NOSPC) = true := by
      have := isFree_lt hb
      unfold bitsperblock blocksize at this
      unfold E_NOSPC
      exact decide_eq_true (by omega)
    have hat₁ : it₁.At (takeBlock m b) ino off := by
      rw [hino] at hat
      refine ⟨hat.inv.mono hat.inode he.kept, hat.inode, hat.offset, fun hd => ?_, fun hd => ?_⟩
      · rw [hval .root trivial]
        exact hat.indirect2 hd
      · have hind : (Slot.ind (iclass (off / blocksize))).Ok := ⟨iclass_pos hd, iclass_le hlt⟩
        rw [hval _ hind]
        exact hat.indirect hd
    have hsame :
        absent (takeBlock m b) ino (rootSlots (off / blocksize) ∪ indSlots (off / blocksize)) =
        absent m ino (rootSlots (off / blocksize) ∪ indSlots (off / blocksize)) :=
      absent_congr fun s hs => hval s (hok s (Finset.mem_union_left _ hs))
    have hcount := he.count
    obtain ⟨it', m₁, m', hmap, hinv, hino', hfill, hset, hval'⟩ := view_map he.sound hat₁ hfresh
      ((hval _ hdata).trans hmapped) (by rw [hsame]; omega)
    refine ⟨it', m', ?_, hinv, hino', hok, ?_, ?_, ?_⟩
    · simp only [hnone, view_bind, hfind, halloc, Option.bind_some, view_assert _ hnospc, hmap,
        decide_true, view_assert, view_pure]
    · have := (he.trans hfill.evolved).trans hset
      rw [hsame] at this
      rw [hcard, Nat.add_comm]
      exact this
    · intro s hs
      rw [hval' s (hok s hs)]
      split
      · exact hfresh.ne_zero
      · rename_i hne
        exact hfill.full s ((Finset.mem_union.mp hs).resolve_right fun hc =>
          hne (Finset.mem_singleton.mp hc))
    · intro s ok hs
      unfold path at hs
      rw [Finset.mem_union, not_or, Finset.mem_singleton] at hs
      rw [hval' s ok, if_neg hs.2, hfill.rest s ok hs.1, hval s ok]
  · have hsome : entryOf (dataVal m ino (off / blocksize)) =
        some (dataVal m ino (off / blocksize)) := entryOf_some hmapped
    rw [hsome]
    exact ⟨it, m, rfl, h, hino, Filled.refl hs hok (path_full hmapped)⟩

end Map

end PugOS.ChkFS
