import PugOS.OpenFail

/-! # What a directory says

`lookup_inode` goes through the blocks of a directory one after another, and through the entries of
each.  Here the entries are a list of addresses, up to the first hole (`dirEntries`), and the lookup
is the first of them that is used and has the name (`view_lookupInode`).  So what a lookup finds is
a matter of that list alone.
-/
namespace PugOS.ChkFS
open Bytes Ring BlockProg
open Journal (blocksize)

/-- The entry at `a` is in use, and this is its name. -/
def Named (m : Mem) (name : List UInt8) (a : Nat) : Prop :=
  getLE m a 4 ≠ 0 ∧ slice m (a + 4) (name.length + 1) = name ++ [0]

instance (m : Mem) (name : List UInt8) (a : Nat) : Decidable (Named m name a) :=
  inferInstanceAs (Decidable (_ ∧ _))

/-- The entries of block `e`, of which `bsz` bytes are in use, from the entry at offset `o` on. -/
def blockEntries (e bsz : Nat) : Nat → Nat → List Nat
  | 0, _ => []
  | fuel + 1, o =>
    if o < bsz then (e * blocksize + o) :: blockEntries e bsz fuel (o + direntsize) else []

/-- The entries of a directory from its block `bi` on, up to a hole. -/
def entriesFrom (m : Mem) (dir : Nat) : Nat → Nat → List Nat
  | 0, _ => []
  | fuel + 1, bi =>
    if dataVal m dir bi = 0 then []
    else
      blockEntries (dataVal m dir bi) (blockBytes (fileSize m dir) (bi * blocksize))
        (blocksize / direntsize) 0 ++ entriesFrom m dir fuel (bi + 1)

def dirEntries (m : Mem) (dir : Nat) : List Nat := entriesFrom m dir (maxsize / blocksize) 0

/-- The inode number of the first entry with the name, 0 if there is none. -/
def inumOf (m : Mem) (name : List UInt8) (entries : List Nat) : Nat :=
  ((entries.find? fun a => Named m name a).map fun a => getLE m a 4).getD 0

/-- The inode that a name stands for. -/
def inodeOf (m : Mem) (dir : Nat) (name : List UInt8) : Option Nat :=
  let inum := inumOf m name (dirEntries m dir)
  if 0 < toInum inum ∧ toInum inum < ninodes m then some (inodeAddr m inum) else none

section Entries
variable {m : Mem} {dir e bsz o bi fuel a : Nat} {name : List UInt8} {l l' : List Nat}

theorem mem_blockEntries : a ∈ blockEntries e bsz fuel o ↔
    ∃ i < fuel, o + i * direntsize < bsz ∧ a = e * blocksize + (o + i * direntsize) := by
  induction fuel generalizing o with
  | zero => simp [blockEntries]
  | succ fuel ih =>
    have hstep : ∀ i, o + direntsize + i * direntsize = o + (i + 1) * direntsize := by
      intro i
      rw [Nat.succ_mul]
      omega
    unfold blockEntries
    by_cases ho : o < bsz
    · rw [if_pos ho, List.mem_cons, ih]
      constructor
      · rintro (rfl | ⟨i, hi, hlt, rfl⟩)
        · exact ⟨0, by omega, by omega, by omega⟩
        · exact ⟨i + 1, by omega, by rwa [← hstep], by rw [hstep]⟩
      · rintro ⟨i, hi, hlt, rfl⟩
        cases i with
        | zero => exact .inl (by omega)
        | succ i => exact .inr ⟨i, by omega, by rwa [hstep], by rw [hstep]⟩
    · rw [if_neg ho]
      simp only [List.not_mem_nil, false_iff, not_exists, not_and]
      intro i _ hlt
      omega

theorem mem_entriesFrom : a ∈ entriesFrom m dir fuel bi ↔ ∃ bj i, bi ≤ bj ∧ bj < bi + fuel ∧
    (∀ bk, bi ≤ bk → bk ≤ bj → dataVal m dir bk ≠ 0) ∧
    i * direntsize < blockBytes (fileSize m dir) (bj * blocksize) ∧ a = direntAddr m dir bj i := by
  induction fuel generalizing bi with
  | zero =>
    simp only [entriesFrom, List.not_mem_nil, false_iff]
    rintro ⟨bj, i, h₁, h₂, -⟩
    omega
  | succ fuel ih =>
    unfold entriesFrom
    by_cases hz : dataVal m dir bi = 0
    · rw [if_pos hz]
      simp only [List.not_mem_nil, false_iff]
      rintro ⟨bj, i, hle, -, hmapped, -⟩
      exact hmapped bi (Nat.le_refl bi) hle hz
    · rw [if_neg hz, List.mem_append, mem_blockEntries, ih]
      constructor
      · rintro (⟨i, hi, hlt, rfl⟩ | ⟨bj, i, hle, hlt, hmapped, hin, rfl⟩)
        · refine ⟨bi, i, Nat.le_refl bi, by omega, fun bk h₁ h₂ => ?_, by omega, ?_⟩
          · rwa [show bk = bi by omega]
          · rw [Nat.zero_add]
            rfl
        · refine ⟨bj, i, by omega, by omega, fun bk h₁ h₂ => ?_, hin, rfl⟩
          rcases Nat.eq_or_lt_of_le h₁ with rfl | h₁
          · exact hz
          · exact hmapped bk h₁ h₂
      · rintro ⟨bj, i, hle, hlt, hmapped, hin, rfl⟩
        rcases Nat.eq_or_lt_of_le hle with rfl | hle
        · refine .inl ⟨i, ?_, by rwa [Nat.zero_add], by rw [Nat.zero_add]; rfl⟩
          have hblock := Nat.lt_of_lt_of_le hin (Nat.min_le_right _ _)
          unfold direntsize blocksize at *
          omega
        · exact .inr ⟨bj, i, hle, by omega, fun bk h₁ h₂ => hmapped bk (by omega) h₂, hin, rfl⟩

/-- **The entries of a directory**: those of the blocks before the first hole. -/
theorem mem_dirEntries : a ∈ dirEntries m dir ↔ ∃ bi i, bi < maxsize / blocksize ∧
    (∀ bj ≤ bi, dataVal m dir bj ≠ 0) ∧ i * direntsize < blockBytes (fileSize m dir)
    (bi * blocksize) ∧ a = direntAddr m dir bi i := by
  unfold dirEntries
  rw [mem_entriesFrom]
  constructor
  · rintro ⟨bi, i, -, hlt, hmapped, hrest⟩
    exact ⟨bi, i, by omega, fun bj => hmapped bj (Nat.zero_le bj), hrest⟩
  · rintro ⟨bi, i, hlt, hmapped, hrest⟩
    exact ⟨bi, i, Nat.zero_le bi, by omega, fun bj _ => hmapped bj, hrest⟩

theorem inumOf_append : inumOf m name (l ++ l') = if inumOf m name l = 0 then inumOf m name l'
    else inumOf m name l := by
  unfold inumOf
  rw [List.find?_append]
  cases hfind : l.find? fun a => Named m name a with
  | none => rfl
  | some a =>
    have hnamed : Named m name a := by simpa using List.find?_some hfind
    rw [Option.some_or, Option.map_some, Option.getD_some, if_neg hnamed.1]

/-- The only entry with the name. -/
theorem inumOf_unique (ha : a ∈ l) (hnamed : Named m name a)
    (hunique : ∀ b ∈ l, Named m name b → b = a) : inumOf m name l = getLE m a 4 := by
  unfold inumOf
  cases hfind : l.find? fun a => Named m name a with
  | none => exact absurd (decide_eq_true hnamed) (List.find?_eq_none.mp hfind a ha)
  | some b =>
    have hb : Named m name b := by simpa using List.find?_some hfind
    rw [hunique b (List.mem_of_find?_eq_some hfind) hb]
    rfl

theorem inumOf_cons_of_not (ha : ¬Named m name a) : inumOf m name (a :: l) = inumOf m name l := by
  unfold inumOf
  rw [List.find?_cons_of_neg (by simpa using ha)]

theorem inumOf_cons (ha : Named m name a) : inumOf m name (a :: l) = getLE m a 4 := by
  unfold inumOf
  rw [List.find?_cons_of_pos (by simpa using ha)]
  rfl

theorem inumOf_lt (m : Mem) (name : List UInt8) (l : List Nat) : inumOf m name l < 2 ^ 32 := by
  induction l with
  | nil => exact Nat.two_pow_pos 32
  | cons a l ih =>
    by_cases ha : Named m name a
    · rw [inumOf_cons ha]
      exact getLE_lt m a 4
    · rwa [inumOf_cons_of_not ha]

theorem inumOf_none (h : ∀ a ∈ l, ¬Named m name a) : inumOf m name l = 0 := by
  unfold inumOf
  rw [List.find?_eq_none.mpr fun a ha => by simpa using h a ha]
  rfl

end Entries

/-! ## The lookup -/

section Lookup
variable {m : Mem} {dir bi fuel : Nat} {name : List UInt8}

theorem view_strEq (m : Mem) (name : List UInt8) : ∀ a, view (strEq a name) m =
    some (decide (slice m a (name.length + 1) = name ++ [0]), m) := by
  have hbyte : ∀ a (c : UInt8), getLE m a 1 = c.toNat ↔ m a = c := by
    intro a c
    simp [getLE, UInt8.toNat_inj]
  induction name with
  | nil =>
    intro a
    have hnil : getLE m a 1 = 0 ↔ m a = 0 := hbyte a 0
    simp [strEq, slice, hnil]
  | cons c name ih =>
    intro a
    have hslice : slice m a ((c :: name).length + 1) = m a :: slice m (a + 1)
        (name.length + 1) := by
      rw [List.length_cons, Nat.add_comm _ 1, slice_add]
      rfl
    rw [strEq, view_bind, view_peek, Option.bind_some, hslice, List.cons_append]
    by_cases hc : m a = c
    · rw [if_pos ((hbyte a c).mpr hc), ih, hc]
      simp
    · rw [if_neg (mt (hbyte a c).mp hc)]
      simp [hc]

theorem view_searchBlock (e bsz : Nat) : ∀ o, view (searchBlock e bsz name fuel o) m =
    some (inumOf m name (blockEntries e bsz fuel o), m) := by
  induction fuel with
  | zero => exact fun _ => rfl
  | succ fuel ih =>
    intro o
    unfold searchBlock blockEntries
    by_cases ho : o < bsz
    · rw [if_pos ho, if_pos ho, view_bind, view_peek, Option.bind_some]
      dsimp only
      by_cases hz : getLE m (e * blocksize + o) 4 = 0
      · rw [if_neg (not_not.mpr hz), ih, inumOf_cons_of_not fun h => h.1 hz]
      · rw [if_pos hz, view_bind, view_strEq, Option.bind_some]
        dsimp only
        by_cases hname : slice m (e * blocksize + o + 4) (name.length + 1) = name ++ [0]
        · have hnamed : Named m name (e * blocksize + o) := ⟨hz, hname⟩
          rw [if_pos (decide_eq_true hname), view_pure, inumOf_cons hnamed]
        · rw [if_neg (by simpa using hname), ih, inumOf_cons_of_not fun h => hname h.2]
    · rw [if_neg ho, if_neg ho]
      rfl

theorem view_lookupLoop (hfuel : bi + fuel = maxBlocks)
    (hend : ∃ bj, bi ≤ bj ∧ bj < maxsize / blocksize ∧ dataVal m dir bj = 0) :
    ∀ {it : FileIter}, it.Inv m → it.ino = dir →
      ∃ it', view (lookupLoop dir name fuel it (bi * blocksize)) m =
      some ((it', inumOf m name (entriesFrom m dir (maxsize / blocksize - bi) bi)), m) := by
  induction fuel generalizing bi with
  | zero =>
    obtain ⟨bj, h₁, h₂, -⟩ := hend
    unfold maxBlocks at hfuel
    omega
  | succ fuel ih =>
    intro it hit hino
    obtain ⟨bj, hle, hmax, hzero⟩ := hend
    have hdiv : bi * blocksize / blocksize = bi := Nat.mul_div_cancel bi (by decide)
    obtain ⟨it₁, hfind, hinv, hino₁⟩ :=
      @view_findEntry m (bi * blocksize) it hit (by rw [hdiv]; omega)
    rw [hino, hdiv] at hfind
    rw [hino] at hino₁
    obtain ⟨n, hn⟩ : ∃ n, maxsize / blocksize - bi = n + 1 :=
      ⟨maxsize / blocksize - bi - 1, by omega⟩
    rw [hn]
    unfold lookupLoop entriesFrom
    rw [view_bind, hfind, Option.bind_some]
    by_cases hz : dataVal m dir bi = 0
    · rw [if_pos hz, hz]
      exact ⟨it₁, rfl⟩
    · rw [if_neg hz, entryOf_some hz]
      dsimp only
      have hsize : getLE m (sizeAddr dir) 4 = fileSize m dir := rfl
      rw [view_bind, view_peek, Option.bind_some, hsize, view_bind, view_searchBlock,
        Option.bind_some, view_bind, view_putEntry, Option.bind_some, inumOf_append]
      dsimp only
      generalize inumOf m name (blockEntries _ _ _ 0) = inum
      by_cases hinum : inum = 0
      · have hne : bi ≠ bj := by
          rintro rfl
          exact hz hzero
        have hnext : bi * blocksize + blocksize = (bi + 1) * blocksize :=
          (Nat.succ_mul bi blocksize).symm
        rw [if_neg (not_not.mpr hinum), if_pos hinum, hnext,
          show n = maxsize / blocksize - (bi + 1) by omega]
        exact ih (by omega) ⟨bj, by omega, hmax, hzero⟩ hinv hino₁
      · rw [if_pos hinum, if_neg hinum]
        exact ⟨it₁, rfl⟩

theorem view_getInode_toInum (m : Mem) {inum : Nat} (h : inum < 2 ^ 32) :
    view (getInode (toInum inum)) m = some (if 0 < toInum inum ∧
    toInum inum < ninodes m then some (inodeAddr m inum) else none, m) := by
  unfold toInum
  by_cases hlt : inum < 2 ^ 31
  · rw [if_pos hlt]
    simpa using view_getInode m inum
  · rw [if_neg hlt]
    unfold getInode
    rw [view_bind, view_inodeArea, Option.bind_some]
    have hneg : ¬((0 : Int) < inum - 2 ^ 32 ∧ (inum : Int) - 2 ^ 32 < ninodes m) := by omega
    dsimp only
    rw [if_neg hneg, if_neg hneg]
    rfl

/-- **`lookup_inode`** finds what the list of entries says, in a directory with a hole before the
largest size. -/
theorem view_lookupInode (hend : ∃ bi < maxsize / blocksize, dataVal m dir bi = 0) :
    view (lookupInode dir name) m = some (inodeOf m dir name, m) := by
  obtain ⟨bj, hmax, hzero⟩ := hend
  obtain ⟨it, hloop⟩ := @view_lookupLoop m dir 0 maxBlocks name (Nat.zero_add _)
    ⟨bj, Nat.zero_le bj, hmax, hzero⟩ _ (FileIter.Inv.start m dir) rfl
  rw [Nat.zero_mul] at hloop
  unfold lookupInode
  rw [view_bind, hloop, Option.bind_some, view_bind, view_getInode_toInum m (inumOf_lt _ _ _),
    Option.bind_some, view_bind, view_release]
  rfl

end Lookup

end PugOS.ChkFS
