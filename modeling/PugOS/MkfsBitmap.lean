import PugOS.Mkfs

/-! # The bitmap that `mkchickadeefs` paints

The bits of a bitmap are painted by filling whole bytes and by loops over single bits.  Each is
right for the bits it is for and leaves the others alone, so that what a bit is at the end is known
exactly (`free_markFreeBlocks`).
-/
namespace PugOS.Mkfs
open Bytes Ring ChkFS
open Journal (blocksize)
open BlockAlloc (Superblock nfbb)

variable {sb : Superblock} {m : Mem} {a b c e v n freeb : Nat}

/-- The free bit of block `b`, in the bitmap that is at `fbb`. -/
def free (m : Mem) (fbb b : Nat) : Bool := bitSet (m (fbb + b / 8)).toNat b

/-! ## One bit -/

theorem bitSet_or (byte b c : Nat) :
    bitSet (byte ||| 2 ^ (c % 8)) b = (bitSet byte b || decide (b % 8 = c % 8)) := by
  unfold bitSet
  rw [Nat.testBit_or, Nat.testBit_two_pow]
  congr 1
  exact decide_eq_decide.mpr eq_comm

theorem or_lt (hbyte : v < 256) (c : Nat) : v ||| 2 ^ (c % 8) < 256 :=
  Nat.or_lt_two_pow (n := 8) hbyte (Nat.pow_lt_pow_right (by decide) (Nat.mod_lt _ (by decide)))

theorem getLE_one (m : Mem) (a : Nat) : getLE m a 1 = (m a).toNat := by
  rw [getLE, getLE, Nat.mul_zero, Nat.add_zero]

/-- Setting one byte of the bitmap. -/
theorem free_putLE {fbb : Nat} (hv : v < 256) :
    free (putLE m (fbb + c / 8) 1 v) fbb b = if b / 8 = c / 8 then bitSet v b
      else free m fbb b := by
  unfold free
  by_cases hb : b / 8 = c / 8
  · have hbyte := getLE_putLE m (fbb + c / 8) (show v < 256 ^ 1 from hv)
    rw [if_pos hb, hb, ← getLE_one, hbyte]
  · rw [if_neg hb, putLE_of_not_mem (by omega)]

theorem same_bit : (b / 8 = c / 8 ∧ b % 8 = c % 8) ↔ b = c := by
  constructor
  · rintro ⟨hdiv, hmod⟩
    omega
  · rintro rfl
    exact ⟨rfl, rfl⟩

theorem free_setBit {fbb : Nat} :
    free (setBit m fbb c) fbb b = (free m fbb b || decide (b = c)) := by
  unfold setBit
  rw [free_putLE (or_lt (getLE_lt _ _ 1) c), getLE_one]
  split
  · rename_i hb
    rw [bitSet_or, ← hb]
    exact congrArg _ (decide_eq_decide.mpr ⟨fun hmod => same_bit.mp ⟨hb, hmod⟩, fun h => by rw [h]⟩)
  · rename_i hb
    rw [decide_eq_false (by rintro rfl; exact hb rfl), Bool.or_false]

theorem free_markAllocated : free (markAllocated sb m c) (sb.fbbBn * blocksize) b =
    (free m (sb.fbbBn * blocksize) b && !decide (b = c)) := by
  unfold markAllocated
  dsimp only
  rw [free_putLE (clearBit_lt _ c), getLE_one]
  split
  · rename_i hb
    rw [bitSet_clearBit, ← hb, ← decide_not]
    exact congrArg _
      (decide_eq_decide.mpr (not_congr ⟨fun hmod => same_bit.mp ⟨hb, hmod⟩, fun h => by rw [h]⟩))
  · rename_i hb
    rw [decide_eq_false (by rintro rfl; exact hb rfl), Bool.not_false, Bool.and_true]

/-! ## A loop over the blocks -/

theorem markRange_succ (mark : Mem → Nat → Mem) (m : Mem) (h : b ≤ e) :
    markRange mark b (e + 1) m = mark (markRange mark b e m) e := by
  unfold markRange
  rw [Nat.succ_sub h, List.range'_concat, List.foldl_append, Nat.one_mul, Nat.add_sub_cancel' h]
  rfl

theorem markRange_self (mark : Mem → Nat → Mem) (m : Mem) : markRange mark b b m = m := by
  unfold markRange
  rw [Nat.sub_self]
  rfl

theorem free_markRange_free (h : a ≤ e) :
    free (markRange (markFree sb) a e m) (sb.fbbBn * blocksize) b =
    (free m (sb.fbbBn * blocksize) b || decide (a ≤ b ∧ b < e)) := by
  induction e, h using Nat.le_induction with
  | base =>
    rw [markRange_self, decide_eq_false (by omega), Bool.or_false]
  | succ e he ih =>
    rw [markRange_succ _ _ he, markFree, free_setBit, ih, Bool.or_assoc]
    congr 1
    rw [← Bool.decide_or]
    exact decide_eq_decide.mpr (by omega)

theorem free_markRange_allocated (h : a ≤ e) :
    free (markRange (markAllocated sb) a e m) (sb.fbbBn * blocksize) b =
    (free m (sb.fbbBn * blocksize) b && !decide (a ≤ b ∧ b < e)) := by
  induction e, h using Nat.le_induction with
  | base =>
    rw [markRange_self, decide_eq_false (by omega), Bool.not_false, Bool.and_true]
  | succ e he ih =>
    rw [markRange_succ _ _ he, free_markAllocated, ih, Bool.and_assoc]
    congr 1
    rw [← Bool.not_or, ← Bool.decide_or]
    exact congrArg _ (decide_eq_decide.mpr (by omega))

/-- Filling whole bytes. -/
theorem free_fill {fbb : Nat} (byte : UInt8) : free (store m fbb (List.replicate n byte)) fbb b =
    if b < 8 * n then bitSet byte.toNat b else free m fbb b := by
  unfold free
  by_cases hb : b < 8 * n
  · rw [if_pos hb, store_replicate (Nat.le_add_right ..) (by omega)]
  · rw [if_neg hb, store_of_not_mem _ _ (by rw [List.length_replicate]; omega)]

theorem bitSet_full (b : Nat) : bitSet 255 b = true := by
  have : ∀ j < 8, Nat.testBit 255 j = true := by decide
  exact this _ (Nat.mod_lt _ (by decide))

theorem bitSet_zero (b : Nat) : bitSet 0 b = false := Nat.zero_testBit _

/-- **What is painted**, on a bitmap of zeros: the blocks after the last whole byte are marked free
whether or not they have been allocated. -/
theorem free_markFreeBlocks (hzero : free m (sb.fbbBn * blocksize) b = false)
    (hle : freeb ≤ sb.nblocks) (hjournal : sb.journalBn ≤ sb.nblocks) :
    free (markFreeBlocks sb freeb m) (sb.fbbBn * blocksize) b =
      decide (b < sb.journalBn ∧ (freeb ≤ b ∨ sb.nblocks / 8 * 8 ≤ b)) := by
  unfold markFreeBlocks
  dsimp only
  rw [free_markRange_allocated hjournal, free_markRange_free (Nat.div_mul_le_self _ _),
    free_markRange_allocated (Nat.div_mul_le_self _ _), free_fill, free_fill, hzero]
  have hff : (255 : UInt8).toNat = 255 := rfl
  have h0 : (0 : UInt8).toNat = 0 := rfl
  rw [hff, h0, bitSet_full, bitSet_zero]
  by_cases h₁ : b < 8 * (freeb / 8)
  · rw [if_pos h₁, Bool.false_and, Bool.false_or, ← decide_not, ← Bool.decide_and]
    exact decide_eq_decide.mpr (by omega)
  · rw [if_neg h₁]
    by_cases h₂ : b < 8 * (sb.nblocks / 8)
    · rw [if_pos h₂, Bool.true_and, ← decide_not, ← decide_not, ← Bool.decide_or, ← Bool.decide_and]
      exact decide_eq_decide.mpr (by omega)
    · rw [if_neg h₂, Bool.false_and, Bool.false_or, ← decide_not, ← Bool.decide_and]
      exact decide_eq_decide.mpr (by omega)

/-! ## What is not painted -/

theorem markRange_frame {mark : Mem → Nat → Mem} (h : a ≤ e) (x : Nat)
    (hmark : ∀ m b, a ≤ b → b < e → mark m b x = m x) : markRange mark a e m x = m x := by
  induction e, h using Nat.le_induction with
  | base => rw [markRange_self]
  | succ e he ih =>
    rw [markRange_succ _ _ he, hmark _ e he (Nat.lt_succ_self e), ih fun m b h₁ h₂ =>
      hmark m b h₁ (by omega)]

theorem markFreeBlocks_frame (hle : freeb ≤ sb.nblocks) (hjournal : sb.journalBn ≤ sb.nblocks)
    (h : a < sb.fbbBn * blocksize ∨ sb.fbbBn * blocksize + nfbb sb.nblocks * blocksize ≤ a) :
    markFreeBlocks sb freeb m a = m a := by
  have hbyte : ∀ b < sb.nblocks, a < sb.fbbBn * blocksize + b / 8 ∨ sb.fbbBn * blocksize + b / 8 +
      1 ≤ a := by
    intro b hb
    have : b / 8 < nfbb sb.nblocks * blocksize := by
      unfold nfbb bitsperblock blocksize
      omega
    omega
  have hfill : ∀ (m : Mem) (n : Nat) (byte : UInt8), n ≤ sb.nblocks →
      store m (sb.fbbBn * blocksize) (List.replicate (n / 8) byte) a = m a := by
    intro m n byte hn
    refine store_of_not_mem _ _ ?_
    rw [List.length_replicate]
    have : n / 8 ≤ nfbb sb.nblocks * blocksize := by
      unfold nfbb bitsperblock blocksize
      omega
    omega
  have hfree : ∀ (m : Mem) (b : Nat), b < sb.nblocks → markFree sb m b a = m a :=
    fun m b hb => putLE_of_not_mem (hbyte b hb)
  have hallocated : ∀ (m : Mem) (b : Nat), b < sb.nblocks → markAllocated sb m b a = m a :=
    fun m b hb => putLE_of_not_mem (hbyte b hb)
  unfold markFreeBlocks
  rw [markRange_frame hjournal a fun m b _ hb => hallocated m b hb,
    markRange_frame (Nat.div_mul_le_self _ _) a fun m b _ hb => hfree m b hb,
    markRange_frame (Nat.div_mul_le_self _ _) a fun m b _ hb => hallocated m b (by omega),
    hfill _ _ _ hle, hfill _ _ _ (Nat.le_refl _)]

end PugOS.Mkfs
