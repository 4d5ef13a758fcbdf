import PugOS.Mkfs

/-! # Where `mkchickadeefs` puts a file

A file has its data in one piece, and its indirect block right before them or right after
(`Placed`).  `add_inode` points an inode to them, and the blocks it takes are the only ones that
change (`Added`).
-/
namespace PugOS.Mkfs
open Bytes Ring ChkFS
open Journal (blocksize)
open BlockAlloc (Superblock)

/-! ## Files in place -/

/-- The number of data blocks of a file. -/
def dataBlocks (sz : Nat) : Nat := (sz + blocksize - 1) / blocksize

/-- The number of blocks that a file takes. -/
def blocksFor (sz : Nat) : Nat := dataBlocks sz + if sz > maxdirectsize then 1 else 0

/-- Where a file has been put: its data from block `first` on, and its indirect block, 0 if it has
none. -/
structure Placed where
  inum : Nat
  name : List UInt8
  data : List UInt8
  first : Nat
  ind : Nat

namespace Placed
variable (p : Placed)

/-- The pointer to data block `bi`. -/
def ptr (bi : Nat) : Nat := if bi * blocksize < p.data.length then p.first + bi else 0

/-- Block `b` is one of the file's. -/
def Has (b : Nat) : Prop := p.first ≤ b ∧ b < p.first + dataBlocks p.data.length ∨ p.ind ≠ 0 ∧
    b = p.ind

/-- The file has the blocks from `lo` up to `hi`: its indirect block is the first of them, or the
last. -/
structure Within (lo hi : Nat) : Prop where
  stop : hi = lo + blocksFor p.data.length
  size : p.data.length ≤ maxindirectsize
  direct : p.data.length ≤ maxdirectsize → p.ind = 0 ∧ p.first = lo
  indirect : maxdirectsize < p.data.length →
    p.ind = lo ∧ p.first = lo + 1 ∨ p.ind = lo + dataBlocks p.data.length ∧ p.first = lo

/-- The inode at `ino` and the blocks are those of the file. -/
structure Laid (m : Mem) (ino : Nat) : Prop where
  size : getLE m (sizeAddr ino) 4 = p.data.length
  direct : ∀ i < ndirect, getLE m (directAddr ino i) 4 = p.ptr i
  indirect : getLE m (indirectAddr ino) 4 = p.ind
  indirect2 : getLE m (indirect2Addr ino) 4 = 0
  entry : p.ind ≠ 0 → ∀ i < nindirect, getLE m (entryAddr p.ind i) 4 = p.ptr (ndirect + i)
  bytes : ∀ x (h : x < p.data.length), m (p.first * blocksize + x) = p.data[x]

end Placed

variable {sb : Superblock} {im im' : Image} {m m' : Mem} {p q : Placed}
  {a b x ino lo hi first ind sz fuel bi i j : Nat}

theorem block_lt (h : a < b * blocksize) : a / blocksize < b :=
  (Nat.div_lt_iff_lt_mul (by decide)).mpr h

theorem le_block (h : b * blocksize ≤ a) : b ≤ a / blocksize :=
  (Nat.le_div_iff_mul_le (by decide)).mpr h

theorem block_add (b x : Nat) : (b * blocksize + x) / blocksize = b + x / blocksize := by
  rw [Nat.add_comm, Nat.add_mul_div_right _ _ (by decide), Nat.add_comm]

theorem block_lt_dataBlocks (h : x < sz) : x / blocksize < dataBlocks sz := by
  unfold dataBlocks blocksize
  omega

theorem le_dataBlocks (sz : Nat) : sz ≤ dataBlocks sz * blocksize := by
  unfold dataBlocks blocksize
  omega

theorem lt_dataBlocks (h : bi * blocksize < sz) : bi < dataBlocks sz := by
  unfold dataBlocks blocksize at *
  omega

theorem Placed.Within.has (h : p.Within lo hi) (hb : p.Has b) : lo ≤ b ∧ b < hi := by
  have hstop := h.stop
  unfold blocksFor at hstop
  by_cases hsize : p.data.length ≤ maxdirectsize
  · obtain ⟨hind, hfirst⟩ := h.direct hsize
    rw [if_neg (Nat.not_lt.mpr hsize)] at hstop
    rcases hb with ⟨h₁, h₂⟩ | ⟨hne, -⟩
    · omega
    · exact absurd hind hne
  · rw [if_pos (Nat.not_le.mp hsize)] at hstop
    rcases h.indirect (Nat.not_le.mp hsize) with ⟨hind, hfirst⟩ | ⟨hind, hfirst⟩
    all_goals rcases hb with ⟨h₁, h₂⟩ | ⟨-, rfl⟩ <;> omega

/-- The indirect block is none of the data blocks. -/
theorem Placed.Within.ind_ne (h : p.Within lo hi) (hne : p.ind ≠ 0)
    (hbi : bi < dataBlocks p.data.length) : p.first + bi ≠ p.ind := by
  have hsize : maxdirectsize < p.data.length := by
    by_contra hle
    exact hne (h.direct (Nat.not_lt.mp hle)).1
  rcases h.indirect hsize with ⟨hind, hfirst⟩ | ⟨hind, hfirst⟩ <;> omega

/-- What is laid out stays so if the inode and the file's blocks stay the same. -/
theorem Placed.Laid.congr (h : p.Laid m ino)
    (hino : ∀ a, ino ≤ a → a < ino + inodesize → m' a = m a)
    (hblock : ∀ a, p.Has (a / blocksize) → m' a = m a) : p.Laid m' ino := by
  have hfield : ∀ o, o + 4 ≤ inodesize → getLE m' (ino + o) 4 = getLE m (ino + o) 4 :=
    fun o ho => getLE_congr fun x h₁ h₂ => hino x (by omega) (by omega)
  refine ⟨(hfield 4 (by decide)).trans h.size, fun i hi => ?_,
    (hfield 56 (by decide)).trans h.indirect, (hfield 60 (by decide)).trans h.indirect2,
    fun hne i hi => ?_, fun x hx => ?_⟩
  · have := hfield (20 + 4 * i) (by unfold ndirect at hi; unfold inodesize; omega)
    rw [← h.direct i hi]
    unfold directAddr
    rwa [← Nat.add_assoc] at this
  · rw [← h.entry hne i hi]
    refine getLE_congr fun x h₁ h₂ => hblock x (.inr ⟨hne, ?_⟩)
    unfold entryAddr nindirect blocksize at *
    omega
  · rw [← h.bytes x hx]
    refine hblock _ (.inl ?_)
    unfold dataBlocks blocksize
    omega

/-! ## Reading a file -/

theorem store_append (m : Mem) (a : Nat) (xs ys : List UInt8) :
    store (store m a xs) (a + xs.length) ys = store m a (xs ++ ys) := by
  funext k
  have hlen : (xs ++ ys).length = xs.length + ys.length := List.length_append
  unfold store
  by_cases h₁ : a + xs.length ≤ k ∧ k < a + xs.length + ys.length
  · rw [dif_pos h₁, dif_pos ⟨by omega, by omega⟩]
    simp only [List.get_eq_getElem]
    rw [List.getElem_append_right (by omega)]
    congr 1
    omega
  · rw [dif_neg h₁]
    by_cases h₂ : a ≤ k ∧ k < a + xs.length
    · rw [dif_pos h₂, dif_pos ⟨by omega, by omega⟩]
      simp only [List.get_eq_getElem]
      rw [List.getElem_append_left (by omega)]
    · rw [dif_neg h₂, dif_neg (by omega)]

theorem store_nil (m : Mem) (a : Nat) : store m a [] = m := by
  funext k
  exact store_of_not_mem m [] (by simp only [List.length_nil]; omega)

theorem advanceBlockno_some (h : advanceBlockno sb im = some im') :
    im.freeb < sb.journalBn ∧ im' = { im with freeb := im.freeb + 1 } := by
  unfold advanceBlockno at h
  obtain ⟨hlt, h⟩ := Option.ite_none_left_eq_some.mp h
  exact ⟨Nat.not_le.mp hlt, (Option.some.inj h).symm⟩

/-- A new block of zeros changes nothing where there were zeros. -/
theorem newBlock_zero (hzero : ∀ a, b * blocksize ≤ a → im.mem a = 0) :
    (im.newBlock b fun _ => 0).mem = im.mem := by
  funext a
  unfold Image.newBlock
  dsimp only
  split
  · rename_i hb
    refine (hzero a ?_).symm
    rw [← hb]
    exact Nat.div_mul_le_self a blocksize
  · rfl

/-- What is the same after a loop over the blocks of a file. -/
structure Kept (im im' : Image) : Prop where
  freeinode : im'.freeinode = im.freeinode
  root : im'.root = im.root

theorem Kept.trans {im₁ : Image} (h : Kept im im₁) (h' : Kept im₁ im') : Kept im im' :=
  ⟨h'.freeinode.trans h.freeinode, h'.root.trans h.root⟩

/-- What has been read: `sz` bytes of the file, with its first block `first`. -/
structure Reading (im : Image) (first sz : Nat) : Prop where
  freeb : im.freeb = first + dataBlocks sz
  zero : ∀ a, first * blocksize + sz ≤ a → im.mem a = 0
  present : ∀ b, b < im.freeb → im.present b

/-- The block for the next byte is there. -/
structure Ready (im : Image) (first sz : Nat) : Prop where
  freeb : im.freeb = first + sz / blocksize + 1
  zero : ∀ a, first * blocksize + sz ≤ a → im.mem a = 0
  present : ∀ b, b < im.freeb → im.present b

theorem ensureBlock_kept (im : Image) : Kept im im.ensureBlock ∧
    im.ensureBlock.freeb = im.freeb := by
  unfold Image.ensureBlock
  split <;> exact ⟨⟨rfl, rfl⟩, rfl⟩

theorem ensureBlock_present (h : ∀ b, b < im.freeb - 1 → im.present b) : ∀ b, b < im.freeb →
    im.ensureBlock.present b := by
  intro b hb
  unfold Image.ensureBlock
  by_cases hlast : b = im.freeb - 1
  · subst hlast
    split
    · assumption
    · exact Function.update_self ..
  · have hbefore := h b (by omega)
    split
    · exact hbefore
    · exact (Function.update_of_ne hlast ..).trans hbefore

theorem ensureBlock_mem
    (h : im.present (im.freeb - 1) = false → ∀ a, (im.freeb - 1) * blocksize ≤ a → im.mem a = 0) :
    im.ensureBlock.mem = im.mem := by
  unfold Image.ensureBlock
  split
  · rfl
  · rename_i habsent
    exact newBlock_zero (h (Bool.not_eq_true _ ▸ habsent))

/-- A block for the next byte: a new one if the last is full. -/
theorem Reading.ready {im₁ : Image} (h : Reading im first sz) (hfirst : 0 < first)
    (hnext : nextBlock sb im sz = some im₁) : Ready im₁.ensureBlock first sz ∧
    Kept im im₁.ensureBlock ∧ im₁.ensureBlock.mem = im.mem ∧
      (im.freeb ≤ sb.journalBn → im₁.ensureBlock.freeb ≤ sb.journalBn) := by
  have hfree := h.freeb
  have hzero := h.zero
  obtain ⟨hkept, hsame⟩ := ensureBlock_kept im₁
  unfold nextBlock at hnext
  split at hnext
  · rename_i hz
    obtain ⟨hlt, rfl⟩ := advanceBlockno_some hnext
    have hdiv : dataBlocks sz = sz / blocksize := by
      unfold dataBlocks blocksize at *
      omega
    rw [hdiv] at hfree
    have hend : im.freeb * blocksize = first * blocksize + sz := by
      rw [hfree, Nat.add_mul, Nat.div_mul_cancel (Nat.dvd_of_mod_eq_zero hz)]
    have hmem : ({ im with freeb := im.freeb + 1 } : Image).ensureBlock.mem = im.mem := by
      refine ensureBlock_mem fun _ a ha => hzero a ?_
      rw [← hend]
      exact ha
    refine ⟨⟨?_, fun a ha => ?_, ?_⟩, ⟨hkept.freeinode, hkept.root⟩, hmem, fun _ => ?_⟩
    · rw [hsame]
      dsimp only
      omega
    · rw [hmem]
      exact hzero a ha
    · rw [hsame]
      exact ensureBlock_present fun b hb => h.present b (by simpa using hb)
    · rw [hsame]
      exact hlt
  · rename_i hz
    obtain rfl := Option.some.inj hnext
    have hdiv : dataBlocks sz = sz / blocksize + 1 := by
      unfold dataBlocks blocksize at *
      omega
    have hself : im.ensureBlock = im := if_pos (h.present _ (by omega))
    rw [hself]
    exact ⟨⟨by omega, hzero, h.present⟩, ⟨rfl, rfl⟩, rfl, id⟩

/-- A round reads the bytes that follow. -/
theorem Ready.round {bytes : List UInt8} (h : Ready im first sz) (hpos : 0 < bytes.length)
    (hlen : bytes.length ≤ blocksize - sz % blocksize) :
    (im.freeb - 1) * blocksize + sz % blocksize = first * blocksize + sz ∧
      Reading { im with mem := store im.mem (first * blocksize + sz) bytes } first
      (sz + bytes.length) := by
  have hfree := h.freeb
  have hmod := Nat.div_add_mod' sz blocksize
  have hlt : sz % blocksize < blocksize := Nat.mod_lt _ (by decide)
  refine ⟨?_, ?_, fun a ha => ?_, h.present⟩
  · rw [hfree, Nat.add_sub_cancel, Nat.add_mul]
    omega
  · dsimp only
    rw [hfree]
    unfold dataBlocks
    unfold blocksize at *
    omega
  · dsimp only
    rw [store_of_not_mem _ _ (by omega)]
    exact h.zero a (by omega)

/-- **The loop of `add_file` stores the file's bytes one after another.** -/
theorem readLoop_spec (hfirst : 0 < first) :
    ∀ {fuel : Nat} {im : Image} {rest : List UInt8} {sz : Nat} {r : Image × Nat},
    Reading im first sz → readLoop sb fuel im rest sz = some r →
    r.2 = sz + rest.length ∧ Ready r.1 first r.2 ∧ Kept im r.1 ∧
      r.1.mem = store im.mem (first * blocksize + sz) rest ∧
      (im.freeb ≤ sb.journalBn → r.1.freeb ≤ sb.journalBn) := by
  intro fuel
  induction fuel with
  | zero => exact fun _ h => absurd h (by simp [readLoop])
  | succ fuel ih =>
    intro im rest sz r hreading h
    unfold readLoop at h
    dsimp only at h
    obtain ⟨im₁, hnext, h⟩ := Option.bind_eq_some_iff.mp h
    obtain ⟨hready, hkept, hmem, hjournal⟩ := hreading.ready hfirst hnext
    have hlt : sz % blocksize < blocksize := Nat.mod_lt _ (by decide)
    have hlen : (rest.take (blocksize - sz % blocksize)).length =
        min (blocksize - sz % blocksize) rest.length :=
      List.length_take
    by_cases hz : (rest.take (blocksize - sz % blocksize)).length = 0
    · obtain rfl : rest = [] := List.length_eq_zero_iff.mp (by omega)
      rw [if_pos hz] at h
      obtain rfl := Option.some.inj h
      exact ⟨rfl, hready, hkept, hmem.trans (store_nil ..).symm, hjournal⟩
    · rw [if_neg hz] at h
      obtain ⟨haddr, hnext⟩ := hready.round (Nat.pos_of_ne_zero hz) (by omega)
      rw [haddr] at h
      obtain ⟨hsz, hready', hkept', hmem', hjournal'⟩ := ih hnext h
      refine ⟨?_, hready', hkept.trans ⟨hkept'.freeinode, hkept'.root⟩, ?_,
        fun hle => hjournal' (hjournal hle)⟩
      · rw [hsz, List.length_drop]
        omega
      · rw [hmem', hmem, ← Nat.add_assoc, store_append, List.take_append_drop]

/-! ## Pointing an inode to its blocks -/

/-- The block is not the inode's. -/
def Apart (ino b : Nat) : Prop := ino + inodesize ≤ b * blocksize ∨ b * blocksize + blocksize ≤ ino

/-- What the pointers of a file cover. -/
theorem ptrAddr_cases (ino ind i : Nat) :
    i < ndirect ∧ ptrAddr ino ind i = ino + 20 + 4 * i ∨
      ndirect ≤ i ∧ ptrAddr ino ind i = ind * blocksize + 4 * (i - ndirect) := by
  unfold ptrAddr
  by_cases hi : i < ndirect
  · exact .inl ⟨hi, if_pos hi⟩
  · exact .inr ⟨Nat.not_lt.mp hi, if_neg hi⟩

theorem ptrAddr_apart (hapart : Apart ino ind) (hi : i < ndirect + nindirect)
    (hj : j < ndirect + nindirect) (hne : i ≠ j) : ptrAddr ino ind i + 4 ≤ ptrAddr ino ind j ∨
    ptrAddr ino ind j + 4 ≤ ptrAddr ino ind i := by
  have hi' := ptrAddr_cases ino ind i
  have hj' := ptrAddr_cases ino ind j
  unfold Apart inodesize ndirect nindirect blocksize at *
  rcases hi' with ⟨h₁, h₂⟩ | ⟨h₁, h₂⟩ <;> rcases hj' with ⟨h₃, h₄⟩ | ⟨h₃, h₄⟩ <;> omega

theorem assignPointers_frame : ∀ {fuel bi : Nat} {m : Mem},
    (∀ i, bi ≤ i → i * blocksize < sz → x < ptrAddr ino ind i ∨ ptrAddr ino ind i + 4 ≤ x) →
    assignPointers ino ind first sz fuel bi m x = m x := by
  intro fuel
  induction fuel with
  | zero => exact fun _ => rfl
  | succ fuel ih =>
    intro bi m h
    unfold assignPointers
    split
    · rename_i hbi
      rw [ih fun i hi => h i (by omega), putLE_of_not_mem (h bi (Nat.le_refl _) hbi)]
    · rfl

/-- Each pointer is assigned its block. -/
theorem assignPointers_get (hapart : Apart ino ind) (hsz : sz ≤ maxindirectsize)
    (hlt : first + dataBlocks sz < 2 ^ 32) : ∀ {fuel bi : Nat} {m : Mem}, sz ≤ bi + fuel → bi ≤ i →
    i * blocksize < sz →
      getLE (assignPointers ino ind first sz fuel bi m) (ptrAddr ino ind i) 4 = first + i := by
  have hmax : ∀ j, j * blocksize < sz → j < ndirect + nindirect := by
    intro j hj
    unfold maxindirectsize maxdirectsize blocksize at *
    omega
  intro fuel
  induction fuel with
  | zero =>
    intro bi m hfuel hle hi
    unfold blocksize at hi
    omega
  | succ fuel ih =>
    intro bi m hfuel hle hi
    unfold assignPointers
    have hbi : bi * blocksize < sz := Nat.lt_of_le_of_lt (Nat.mul_le_mul_right _ hle) hi
    rw [if_pos hbi]
    rcases Nat.eq_or_lt_of_le hle with rfl | hgt
    · have hbound := lt_dataBlocks hi
      have hframe :
          getLE
          (assignPointers ino ind first sz fuel (bi + 1)
          (putLE m (ptrAddr ino ind bi) 4 (first + bi))) (ptrAddr ino ind bi) 4 =
          getLE (putLE m (ptrAddr ino ind bi) 4 (first + bi)) (ptrAddr ino ind bi) 4 := by
        refine getLE_congr fun x h₁ h₂ => assignPointers_frame fun j hj hjs => ?_
        have := ptrAddr_apart hapart (hmax bi hi) (hmax j hjs) (by omega)
        omega
      rw [hframe]
      exact getLE_putLE _ _ (show first + bi < 256 ^ 4 by omega)
    · exact ih (by omega) hgt hi

/-- The pointers are in the inode and, for a file that has one, in its indirect block. -/
theorem assignPointers_outside (hsz : sz ≤ maxindirectsize) (hino : x < ino + 20 ∨ ino + 56 ≤ x)
    (hind : maxdirectsize < sz → x / blocksize ≠ ind) :
    assignPointers ino ind first sz fuel bi m x = m x := by
  refine assignPointers_frame fun i _ hi => ?_
  have hi' := ptrAddr_cases ino ind i
  unfold maxindirectsize maxdirectsize ndirect nindirect blocksize at *
  rcases hi' with ⟨h₁, h₂⟩ | ⟨h₁, h₂⟩ <;> omega

/-- An inode that has its size and, if it needs one, an indirect block of zeros, with its data at
`p.first`. -/
structure Placed.Unassigned (p : Placed) (m : Mem) (ino : Nat) : Prop where
  apart : Apart ino p.ind
  le : p.data.length ≤ maxindirectsize
  needs : maxdirectsize < p.data.length ↔ p.ind ≠ 0
  bound : p.first + dataBlocks p.data.length < 2 ^ 32
  size : getLE m (sizeAddr ino) 4 = p.data.length
  direct : ∀ a, ino + 20 ≤ a → a < ino + 56 → m a = 0
  indirect : getLE m (indirectAddr ino) 4 = p.ind
  indirect2 : getLE m (indirect2Addr ino) 4 = 0
  entry : p.ind ≠ 0 → ∀ a, a / blocksize = p.ind → m a = 0
  bytes : ∀ x (h : x < p.data.length), m (p.first * blocksize + x) = p.data[x]
  data : ∀ bi < dataBlocks p.data.length, Apart ino (p.first + bi) ∧ p.first + bi ≠ p.ind

/-- **The pointers are assigned.** -/
theorem Placed.Unassigned.laid (h : p.Unassigned m ino) :
    p.Laid (assignPointers ino p.ind p.first p.data.length p.data.length 0 m) ino := by
  have hfield : ∀ o, o + 4 ≤ 20 ∨ 56 ≤ o ∧ o + 4 ≤ inodesize →
      getLE (assignPointers ino p.ind p.first p.data.length p.data.length 0 m) (ino + o) 4 =
      getLE m (ino + o) 4 := by
    intro o ho
    refine getLE_congr fun x h₁ h₂ => assignPointers_outside h.le (by omega) fun _ hx => ?_
    have hapart := h.apart
    unfold Apart inodesize blocksize at *
    omega
  -- a pointer past the last block of the file is still zero
  have hptr : ∀ i, i < ndirect + nindirect → (ndirect ≤ i → p.ind ≠ 0) →
      getLE (assignPointers ino p.ind p.first p.data.length p.data.length 0 m) (ptrAddr ino p.ind i)
      4 = p.ptr i := by
    intro i hi hne
    unfold ptr
    by_cases hlt : i * blocksize < p.data.length
    · rw [if_pos hlt]
      exact assignPointers_get h.apart h.le h.bound (by omega) (Nat.zero_le _) hlt
    · rw [if_neg hlt]
      refine getLE_zero fun x h₁ h₂ => ?_
      rw [assignPointers_frame fun j _ hj => ?_]
      · rcases ptrAddr_cases ino p.ind i with ⟨h₃, h₄⟩ | ⟨h₃, h₄⟩
        · refine h.direct x ?_ ?_ <;> unfold ndirect at * <;> omega
        · refine h.entry (hne h₃) x ?_
          unfold ndirect nindirect blocksize at *
          omega
      · have hjlt : j < ndirect + nindirect := by
          have := h.le
          unfold maxindirectsize maxdirectsize blocksize at *
          omega
        have := ptrAddr_apart h.apart hi hjlt (by rintro rfl; exact hlt hj)
        omega
  refine ⟨(hfield 4 (by decide)).trans h.size, fun i hi => ?_,
    (hfield 56 (by decide)).trans h.indirect, (hfield 60 (by decide)).trans h.indirect2,
    fun hne i hi => ?_, fun x hx => ?_⟩
  · have := hptr i (by omega) fun hge => absurd hi (Nat.not_lt.mpr hge)
    rwa [ptrAddr, if_pos hi] at this
  · have := hptr (ndirect + i) (by omega) fun _ => hne
    rwa [ptrAddr, if_neg (by omega), Nat.add_sub_cancel_left] at this
  · have hbi : x / blocksize < dataBlocks p.data.length := by
      unfold dataBlocks blocksize
      omega
    obtain ⟨hapart, hne⟩ := h.data _ hbi
    rw [← h.bytes x hx]
    refine assignPointers_outside h.le ?_ fun _ => ?_
    · unfold Apart inodesize blocksize at *
      omega
    · unfold blocksize at *
      omega

/-! ## Adding an inode -/

/-- The file's data are there, and nothing after them. -/
structure Loaded (im : Image) (first : Nat) (data : List UInt8) : Prop where
  freeb : im.freeb = first + dataBlocks data.length
  bytes : ∀ x (h : x < data.length), im.mem (first * blocksize + x) = data[x]
  zero : ∀ a, im.freeb * blocksize ≤ a → im.mem a = 0
  present : ∀ b, b < im.freeb → im.present b

/-- What `addIndirect` does: the data are at `first'` afterwards. -/
structure WithIndirect (im im' : Image) (ino first first' ind : Nat) (data : List UInt8) :
    Prop where
  kept : Kept im im'
  freeb : im'.freeb = im.freeb + 1
  place : ind = first ∧ first' = first + 1 ∨ ind = im.freeb ∧ first' = first
  bytes : ∀ x (h : x < data.length), im'.mem (first' * blocksize + x) = data[x]
  entry : ∀ a, a / blocksize = ind → im'.mem a = 0
  indirect : getLE im'.mem (indirectAddr ino) 4 = ind
  frame : ∀ a < first * blocksize, a < ino + 56 ∨ ino + 60 ≤ a → im'.mem a = im.mem a
  zero : ∀ a, im'.freeb * blocksize ≤ a → im'.mem a = 0
  present : ∀ b, b < im'.freeb → im'.present b

variable {data : List UInt8} {im₁ : Image} {r : Image × Nat × Nat}

/-- The indirect block after the data. -/
theorem WithIndirect.after (h : Loaded im first data) (hino : ino + inodesize ≤ first * blocksize)
    (hlt : im.freeb < 2 ^ 32) :
    WithIndirect im
    ({ im with freeb := im.freeb + 1, mem := putLE im.mem (indirectAddr ino) 4 im.freeb }.newBlock
    im.freeb
      fun _ => 0) ino first first im.freeb data := by
  have hfree := h.freeb
  have hend : first * blocksize ≤ im.freeb * blocksize := Nat.mul_le_mul_right _ (by omega)
  -- the block is past everything else
  have hold : ∀ a, a < im.freeb * blocksize →
      ({ im with freeb := im.freeb + 1, mem := putLE im.mem (indirectAddr ino) 4 im.freeb }.newBlock
        im.freeb fun _ => 0).mem a = putLE im.mem (indirectAddr ino) 4 im.freeb a :=
    fun a ha => if_neg (Nat.ne_of_lt (block_lt ha))
  refine ⟨⟨rfl, rfl⟩, rfl, .inr ⟨rfl, rfl⟩, fun x hx => ?_, fun a ha => if_pos ha, ?_,
    fun a ha hne => ?_, fun a ha => ?_, fun b hb => ?_⟩
  · have hblocks : x / blocksize < dataBlocks data.length := by
      unfold dataBlocks blocksize
      omega
    rw [hold _ (by rw [hfree]; unfold blocksize at *; omega), putLE_of_not_mem, h.bytes x hx]
    unfold indirectAddr inodesize at *
    omega
  · rw [getLE_congr fun x h₁ h₂ => hold x (by unfold indirectAddr inodesize at *; omega)]
    exact getLE_putLE _ _ hlt
  · rw [hold a (by omega), putLE_of_not_mem (by unfold indirectAddr; omega)]
  · have hgt : (im.freeb + 1) * blocksize ≤ a := ha
    have hne : ¬a / blocksize = im.freeb := by
      unfold blocksize at *
      omega
    refine (if_neg hne).trans ((putLE_of_not_mem ?_).trans ?_)
    · unfold indirectAddr inodesize blocksize at *
      omega
    · exact h.zero a (Nat.le_trans (Nat.mul_le_mul_right _ (Nat.le_succ _)) hgt)
  · by_cases hlast : b = im.freeb
    · rw [hlast]
      exact Function.update_self ..
    · have hb : b < im.freeb + 1 := hb
      exact (Function.update_of_ne hlast ..).trans (h.present b (by omega))

/-- The indirect block before the data, which move up. -/
theorem WithIndirect.before (h : Loaded im first data) (hpos : 0 < first)
    (hino : ino + inodesize ≤ first * blocksize) (hlt : im.freeb < 2 ^ 32) :
    WithIndirect im
      (({ ({ im with freeb := im.freeb + 1 } : Image).moveUp (first + 1) (im.freeb - first) with
        mem := putLE (({ im with freeb := im.freeb + 1 } : Image).moveUp (first + 1)
          (im.freeb - first)).mem (indirectAddr ino) 4 first }).newBlock first fun _ => 0) ino first
          (first + 1) first data := by
  have hfree := h.freeb
  generalize hmoved : ({ im with freeb := im.freeb + 1 } : Image).moveUp (first + 1)
    (im.freeb - first) = moved
  have hup : ∀ a, moved.mem a = if first + 1 ≤ a / blocksize ∧
      a / blocksize < first + 1 + (im.freeb - first) then im.mem (a - blocksize) else im.mem a := by
    rw [← hmoved]
    exact fun a => rfl
  have hlow : ∀ a, a < first * blocksize →
      ({ moved with mem := putLE moved.mem (indirectAddr ino) 4 first }.newBlock first
      fun _ => 0).mem a = putLE moved.mem (indirectAddr ino) 4 first a :=
    fun a ha => if_neg (Nat.ne_of_lt (block_lt ha))
  have hhigh : ∀ a, (first + 1) * blocksize ≤ a →
      ({ moved with mem := putLE moved.mem (indirectAddr ino) 4 first }.newBlock first fun _ =>
        0).mem a = moved.mem a := by
    intro a ha
    have hge : first * blocksize ≤ a := Nat.le_trans (Nat.mul_le_mul_right _ (Nat.le_succ _)) ha
    refine (if_neg (Nat.ne_of_gt (le_block ha))).trans (putLE_of_not_mem ?_)
    unfold indirectAddr inodesize at *
    omega
  refine ⟨?_, ?_, .inl ⟨rfl, rfl⟩, fun x hx => ?_, fun a ha => if_pos ha, ?_, fun a ha hne => ?_,
    fun a ha => ?_, fun b hb => ?_⟩
  · rw [← hmoved]
    exact ⟨rfl, rfl⟩
  · rw [← hmoved]
    rfl
  · have hblocks := block_lt_dataBlocks hx
    have hdown : (first + 1) * blocksize + x - blocksize = first * blocksize + x := by
      rw [Nat.succ_mul]
      omega
    have hin : first + 1 ≤ first + 1 + x / blocksize := Nat.le_add_right ..
    rw [hhigh _ (Nat.le_add_right ..), hup, if_pos (by rw [block_add]; exact ⟨hin, by omega⟩),
      hdown, h.bytes x hx]
  · rw [getLE_congr fun x h₁ h₂ => hlow x (by unfold indirectAddr inodesize at *; omega)]
    exact getLE_putLE _ _ (show first < 256 ^ 4 by omega)
  · have := block_lt ha
    rw [hlow a ha, putLE_of_not_mem (by unfold indirectAddr; omega), hup, if_neg (by omega)]
  · have hfreeb : ({ moved with mem := putLE moved.mem (indirectAddr ino) 4 first }.newBlock first
        fun _ => 0).freeb = im.freeb + 1 := by
      rw [← hmoved]
      rfl
    rw [hfreeb] at ha
    have hge := le_block ha
    rw [hhigh a (Nat.le_trans (Nat.mul_le_mul_right _ (by omega)) ha), hup, if_neg (by omega)]
    exact h.zero a (Nat.le_trans (Nat.mul_le_mul_right _ (Nat.le_succ _)) ha)
  · have hb : b < im.freeb + 1 := by
      rw [← hmoved] at hb
      exact hb
    by_cases hfirst : b = first
    · rw [hfirst]
      exact Function.update_self ..
    · refine (Function.update_of_ne hfirst ..).trans ?_
      have hp : moved.present b =
          if first + 1 ≤ b ∧ b < first + 1 + (im.freeb - first) then im.present (b - 1)
            else im.present b := by
        rw [← hmoved]
        rfl
      change moved.present b = true
      rw [hp]
      split
      · exact h.present _ (by omega)
      · exact h.present _ (by omega)

theorem addIndirect_spec {atEnd : Bool} (hload : Loaded im first data) (hpos : 0 < first)
    (hino : ino + inodesize ≤ first * blocksize) (hlt : im.freeb < 2 ^ 32)
    (h : addIndirect sb im ino first atEnd = some r) :
    WithIndirect im r.1 ino first r.2.1 r.2.2 data ∧ im.freeb < sb.journalBn ∧
      (atEnd = true → r.2.1 = first) := by
  unfold addIndirect at h
  obtain ⟨im₁, hadvance, h⟩ := Option.bind_eq_some_iff.mp h
  obtain ⟨hjournal, rfl⟩ := advanceBlockno_some hadvance
  cases atEnd with
  | true =>
    obtain rfl := Option.some.inj h
    exact ⟨.after hload hino hlt, hjournal, fun _ => rfl⟩
  | false =>
    have hk : im.freeb + 1 - (first + 1) = im.freeb - first := by omega
    obtain rfl := Option.some.inj h
    refine ⟨?_, hjournal, fun hc => absurd hc Bool.false_ne_true⟩
    have := WithIndirect.before hload hpos hino hlt
    rw [← hk] at this
    exact this

/-- The file has been added: its blocks from `first` on are the only ones that are new. -/
structure Added (sb : Superblock) (im im' : Image) (first : Nat) (p : Placed) : Prop where
  within : p.Within first im'.freeb
  laid : p.Laid im'.mem (inodeAt sb p.inum)
  frame : ∀ a < first * blocksize, a < inodeAt sb p.inum ∨ inodeAt sb p.inum + inodesize ≤ a →
    im'.mem a = im.mem a
  zero : ∀ a, im'.freeb * blocksize ≤ a → im'.mem a = 0
  present : ∀ b, b < im'.freeb → im'.present b
  journal : im'.freeb ≤ sb.journalBn

variable {inum type nlink : Nat} {name : List UInt8} {atEnd : Bool}

/-- The inodes are before the data, and not in the first block. -/
theorem Geometry.inode_lt (g : Geometry sb) (hinum : inum < sb.ninodes) :
    blocksize ≤ inodeAt sb inum ∧ inodeAt sb inum + inodesize ≤ sb.dataBn * blocksize := by
  obtain ⟨-, hfbb, hino, -, hdata, -, -⟩ := g
  unfold inodeAt inodesize blocksize at *
  omega

theorem Loaded.with_mem {m : Mem} (h : Loaded im first data)
    (hsame : ∀ a, first * blocksize ≤ a → m a = im.mem a) :
    Loaded { im with mem := m } first data := by
  refine ⟨h.freeb, fun x hx => ?_, fun a ha => ?_, h.present⟩
  · exact (hsame _ (Nat.le_add_right ..)).trans (h.bytes x hx)
  · have hge : first * blocksize ≤ im.freeb * blocksize :=
      Nat.mul_le_mul_right _ (by rw [h.freeb]; exact Nat.le_add_right ..)
    exact (hsame a (Nat.le_trans hge ha)).trans (h.zero a ha)

/-- A file that needs no indirect block. -/
theorem added_direct (g : Geometry sb) (hload : Loaded im first data) (hfirst : sb.dataBn ≤ first)
    (hinum : inum < sb.ninodes) (hsize : getLE im.mem (sizeAddr (inodeAt sb inum)) 4 = data.length)
    (hempty : ∀ a, inodeAt sb inum + 20 ≤ a → a < inodeAt sb inum + inodesize → im.mem a = 0)
    (hjournal : im.freeb ≤ sb.journalBn) (hle : data.length ≤ maxdirectsize) :
    Added sb im
      { im with mem := assignPointers (inodeAt sb inum) 0 first data.length data.length 0 im.mem }
      first ⟨inum, name, data, first, 0⟩ := by
  obtain ⟨hlow, hino⟩ := g.inode_lt hinum
  have hpos : 0 < first := by
    have := g.inode
    have := g.fbb
    have := g.data
    unfold blocksize at *
    omega
  have hfree := hload.freeb
  have hbound : sb.journalBn < 2 ^ 31 := Nat.lt_of_le_of_lt g.le g.lt
  have hend : inodeAt sb inum + inodesize ≤ first * blocksize :=
    Nat.le_trans hino (Nat.mul_le_mul_right _ hfirst)
  have hmax : data.length ≤ maxindirectsize := Nat.le_trans hle (Nat.le_add_right ..)
  have houtside : ∀ a, a < inodeAt sb inum ∨ inodeAt sb inum + inodesize ≤ a →
      assignPointers (inodeAt sb inum) 0 first data.length data.length 0 im.mem a = im.mem a := by
    intro a ha
    refine assignPointers_outside hmax ?_ fun hgt => absurd hle (Nat.not_le.mpr hgt)
    unfold inodesize at ha
    omega
  refine ⟨⟨?_, hmax, fun _ => ⟨rfl, rfl⟩, fun hgt => absurd hle (Nat.not_le.mpr hgt)⟩,
    Placed.Unassigned.laid (p := ⟨inum, name, data, first, 0⟩) ⟨.inr (by dsimp only; omega), hmax,
      ?_, by dsimp only; omega, hsize, fun a h₁ h₂ =>
      hempty a h₁ (by unfold inodesize; omega), ?_, ?_, fun hne => absurd rfl hne, hload.bytes,
      fun bi _ => ⟨.inl ?_, by dsimp only; omega⟩⟩,
    fun a _ ha => houtside a ha, fun a ha => ?_, hload.present, hjournal⟩
  · unfold blocksFor
    rw [if_neg (Nat.not_lt.mpr hle)]
    exact hfree
  · exact ⟨fun hgt => absurd hle (Nat.not_le.mpr hgt), fun hne => absurd rfl hne⟩
  · exact getLE_zero fun x h₁ h₂ => hempty x (by unfold indirectAddr at h₁; omega)
      (by unfold indirectAddr inodesize at *; omega)
  · exact getLE_zero fun x h₁ h₂ => hempty x (by unfold indirect2Addr at h₁; omega)
      (by unfold indirect2Addr inodesize at *; omega)
  · exact Nat.le_trans hend (Nat.mul_le_mul_right _ (Nat.le_add_right ..))
  · have hge : first * blocksize ≤ im.freeb * blocksize := Nat.mul_le_mul_right _ (by omega)
    exact (houtside a (.inr (Nat.le_trans hend (Nat.le_trans hge ha)))).trans (hload.zero a ha)

/-- A file with an indirect block. -/
theorem added_indirect {first' ind : Nat} (g : Geometry sb) (hload : Loaded im first data)
    (hfirst : sb.dataBn ≤ first) (hinum : inum < sb.ninodes)
    (hsize : getLE im.mem (sizeAddr (inodeAt sb inum)) 4 = data.length)
    (hempty : ∀ a, inodeAt sb inum + 20 ≤ a → a < inodeAt sb inum + inodesize → im.mem a = 0)
    (hind : WithIndirect im im₁ (inodeAt sb inum) first first' ind data)
    (hjournal : im.freeb < sb.journalBn) (hgt : maxdirectsize < data.length)
    (hmax : data.length ≤ maxindirectsize) :
    Added sb im
      { im₁ with
        mem := assignPointers (inodeAt sb inum) ind first' data.length data.length 0 im₁.mem }
      first ⟨inum, name, data, first', ind⟩ := by
  obtain ⟨hlow, hino⟩ := g.inode_lt hinum
  have hpos : 0 < first := by
    have := g.inode
    have := g.fbb
    have := g.data
    unfold blocksize at *
    omega
  have hfree := hload.freeb
  have hbound : sb.journalBn < 2 ^ 31 := Nat.lt_of_le_of_lt g.le g.lt
  have hend : inodeAt sb inum + inodesize ≤ first * blocksize :=
    Nat.le_trans hino (Nat.mul_le_mul_right _ hfirst)
  have hplace := hind.place
  have hafter : ∀ b, first ≤ b → inodeAt sb inum + inodesize ≤ b * blocksize :=
    fun b hb => Nat.le_trans hend (Nat.mul_le_mul_right _ hb)
  have hindge : first ≤ ind := by omega
  have hsame : ∀ a, inodeAt sb inum ≤ a → a < inodeAt sb inum + inodesize →
      a < inodeAt sb inum + 56 ∨ inodeAt sb inum + 60 ≤ a →
      im₁.mem a = im.mem a := fun a _ h₂ h₃ => hind.frame a (by omega) h₃
  have houtside : ∀ a, a < inodeAt sb inum ∨ inodeAt sb inum + inodesize ≤ a → a / blocksize ≠ ind →
      assignPointers (inodeAt sb inum) ind first' data.length data.length 0 im₁.mem a =
      im₁.mem a := by
    intro a ha hne
    refine assignPointers_outside hmax ?_ fun _ => hne
    unfold inodesize at ha
    omega
  refine ⟨⟨?_, hmax, fun hle => absurd hgt (Nat.not_lt.mpr hle), fun _ => by dsimp only; omega⟩,
    Placed.Unassigned.laid (p := ⟨inum, name, data, first', ind⟩) ⟨.inl (hafter _ hindge), hmax, ?_,
      by dsimp only; omega, ?_, fun a h₁ h₂ => ?_, hind.indirect, ?_, fun _ =>
      hind.entry, hind.bytes, fun bi hbi =>
      ⟨.inl (hafter _ (by dsimp only; omega)), by dsimp only at *; omega⟩⟩,
    fun a hlt ha => ?_, fun a ha => ?_, hind.present, ?_⟩
  · unfold blocksFor
    rw [if_pos hgt]
    have := hind.freeb
    dsimp only
    omega
  · exact ⟨fun _ => by dsimp only; omega, fun _ => hgt⟩
  · rw [← hsize]
    exact getLE_congr fun x h₁ h₂ =>
      hsame x (by unfold sizeAddr at h₁; omega) (by unfold sizeAddr inodesize at *; omega)
      (.inl (by unfold sizeAddr at h₂; omega))
  · rw [hsame a (by omega) (by unfold inodesize; omega) (.inl h₂)]
    exact hempty a h₁ (by unfold inodesize; omega)
  · refine getLE_zero fun x h₁ h₂ => ?_
    unfold indirect2Addr at h₁ h₂
    rw [hsame x (by omega) (by unfold inodesize; omega) (.inr h₁)]
    exact hempty x (by omega) (by unfold inodesize; omega)
  · have hne := block_lt hlt
    exact (houtside a ha (by omega)).trans
      (hind.frame a hlt (by dsimp only [inodesize] at ha; omega))
  · have hge := le_block ha
    have hfreeb := hind.freeb
    dsimp only at hge
    exact (houtside a (.inr (Nat.le_trans (hafter im₁.freeb (by omega)) ha)) (by omega)).trans
      (hind.zero a ha)
  · have := hind.freeb
    dsimp only
    omega

end PugOS.Mkfs
