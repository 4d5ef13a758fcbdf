import PugOS.Directory

/-! # Files keep their names

`sys_open` adds names to the root directory, and nothing takes one away.  For calls made one after
another, all answered by the cache, this is what it comes to (`open_all`): a name goes on standing
for the file it stood for, a descriptor is for the file that its name stands for at the end, and two
descriptors are for one file exactly if they were opened under one name.

The directory has to be in order for this (`RootOk`), and a call leaves it so: a new file has an
inode that no entry has, and an entry that no name has.
-/
namespace PugOS.ChkFS
open Bytes Ring BlockProg
open Journal (blocksize SameBlock)

/-- What an entry has room for. -/
def namebytes : Nat := direntsize - 4

/-- A name that an entry can have. -/
structure ValidName (name : List UInt8) : Prop where
  length : name.length < namebytes
  nul : (0 : UInt8) ∉ name

/-- What the names in the root directory stand for. -/
def rootNames (m : Mem) (name : List UInt8) : Option Nat := inodeOf m (inodeAddr m 1) name

def rootEntries (m : Mem) : List Nat := dirEntries m (inodeAddr m 1)

/-- The root directory is in order. -/
structure RootOk (m : Mem) : Prop where
  layout : Layout m
  root : (1 : Int) < ninodes m
  /-- No block is in the directory twice. -/
  once : ∀ s t : Slot, s.Ok → t.Ok → val m (inodeAddr m 1) s ≠ 0 →
    val m (inodeAddr m 1) s = val m (inodeAddr m 1) t → s = t
  hole : ∃ bi < maxsize / blocksize, dataVal m (inodeAddr m 1) bi = 0
  /-- There is nothing in an entry that is not used. -/
  clean : ∀ a ∈ rootEntries m, getLE m a 4 = 0 → ∀ k < namebytes, m (a + 4 + k) = 0
  used : ∀ a ∈ rootEntries m, getLE m a 4 ≠ 0 →
    2 ≤ getLE m a 4 ∧ (getLE m a 4 : Int) < ninodes m ∧
    getLE m (typeAddr (inodeAddr m (getLE m a 4))) 4 ≠ 0
  /-- No inode has two entries. -/
  distinct : ∀ a ∈ rootEntries m, ∀ b ∈ rootEntries m, getLE m a 4 ≠ 0 → getLE m a 4 = getLE m b 4 →
    a = b

/-! ## Calls -/

/-- The arguments of a call of `sys_open`, the caller's descriptors, and whether there is memory. -/
structure OpenCall where
  path : List UInt8
  flags : OpenFlags
  fds : FdTable
  file : Bool
  vnode : Bool

/-- The inode of the descriptor that a call has returned. -/
def openedInode (r : Int) (fds : FdTable) : Option Nat :=
  if 0 ≤ r then (fds r.toNat).map OpenFile.ino else none

/-- The calls, one after another, and the inodes that they open. -/
def openAll : List OpenCall → Prog (List (Option Nat))
  | [] => return []
  | c :: calls => do
    let (r, fds) ← sysOpen c.path c.flags c.fds c.file c.vnode
    let inos ← openAll calls
    return openedInode r fds :: inos

/-! ## Entries -/

section Entries
variable {m m' : Mem} {dir a b : Nat} {name name' : List UInt8} {l : List Nat}

theorem dirEntry_place (ha : a ∈ dirEntries m dir) :
    ∃ bi < maxsize / blocksize, dataVal m dir bi ≠ 0 ∧
    a / blocksize = dataVal m dir bi ∧ a % direntsize = 0 := by
  obtain ⟨bi, i, hlt, hmapped, hin, rfl⟩ := mem_dirEntries.mp ha
  have hblock := Nat.lt_of_lt_of_le hin (Nat.min_le_right _ _)
  refine ⟨bi, hlt, hmapped bi (Nat.le_refl bi), ?_, ?_⟩
  all_goals
    unfold direntAddr blocksize direntsize at *
    omega

/-- An entry is in its block. -/
theorem dirEntry_block {x : Nat} (ha : a ∈ dirEntries m dir) (h₁ : a ≤ x)
    (h₂ : x < a + direntsize) : ∃ bi < maxsize / blocksize, dataVal m dir bi ≠ 0 ∧
    x / blocksize = dataVal m dir bi := by
  obtain ⟨bi, hlt, hne, hdiv, hmod⟩ := dirEntry_place ha
  refine ⟨bi, hlt, hne, ?_⟩
  rw [← hdiv]
  unfold blocksize direntsize at *
  omega

/-- An entry that is free, as the search sees it, is one of the directory. -/
theorem EmptyEntry.mem {bi i : Nat} (h : EmptyEntry m dir bi i) :
    direntAddr m dir bi i ∈ dirEntries m dir :=
  mem_dirEntries.mpr ⟨bi, i, h.lt, h.mapped, h.inside, rfl⟩

theorem entriesFrom_congr {fuel bi : Nat}
    (hval : ∀ bj, bi ≤ bj → bj < bi + fuel → dataVal m' dir bj = dataVal m dir bj)
    (hsize : fileSize m' dir = fileSize m dir) :
    entriesFrom m' dir fuel bi = entriesFrom m dir fuel bi := by
  induction fuel generalizing bi with
  | zero => rfl
  | succ fuel ih =>
    unfold entriesFrom
    rw [hval bi (Nat.le_refl bi) (by omega), hsize, ih fun bj h₁ h₂ =>
      hval bj (by omega) (by omega)]

theorem Named.unique (h : Named m name a) (h' : Named m name' a) (hname : (0 : UInt8) ∉ name)
    (hname' : (0 : UInt8) ∉ name') : name = name' := by
  have hlen : ∀ {u v : List UInt8}, Named m u a → Named m v a → (0 : UInt8) ∉ v →
      v.length ≤ u.length := by
    intro u v hu hv hnul
    by_contra hlt
    have hle : u.length + 1 ≤ v.length + 1 := by omega
    have htake := (slice_take hv.2 hle).symm.trans hu.2
    rw [List.take_append_of_le_length (by omega)] at htake
    have hmem : (0 : UInt8) ∈ v.take (u.length + 1) := by
      rw [htake]
      exact List.mem_append_right u (List.mem_singleton_self 0)
    exact hnul (List.mem_of_mem_take hmem)
  have heq : name.length = name'.length := Nat.le_antisymm (hlen h' h hname) (hlen h h' hname')
  have hbytes := h.2
  rw [heq, h'.2] at hbytes
  exact (List.append_cancel_right hbytes).symm

/-- The first entry with a name is the same, if the entries with the name are. -/
theorem inumOf_congr (hnamed : ∀ b ∈ l, Named m' name b ↔ Named m name b)
    (hinum : ∀ b ∈ l, Named m name b → getLE m' b 4 = getLE m b 4) :
    inumOf m' name l = inumOf m name l := by
  induction l with
  | nil => rfl
  | cons b l ih =>
    obtain ⟨hb, hnamed⟩ := List.forall_mem_cons.mp hnamed
    obtain ⟨hb', hinum⟩ := List.forall_mem_cons.mp hinum
    by_cases h : Named m name b
    · rw [inumOf_cons (hb.mpr h), inumOf_cons h, hb' h]
    · rw [inumOf_cons_of_not (mt hb.mp h), inumOf_cons_of_not h, ih hnamed hinum]

theorem inumOf_ne_zero (h : inumOf m name l ≠ 0) : ∃ a ∈ l, Named m name a ∧
    inumOf m name l = getLE m a 4 := by
  induction l with
  | nil => exact absurd rfl h
  | cons b l ih =>
    by_cases hb : Named m name b
    · exact ⟨b, List.mem_cons_self, hb, inumOf_cons hb⟩
    · rw [inumOf_cons_of_not hb] at h ⊢
      obtain ⟨a, ha, hrest⟩ := ih h
      exact ⟨a, List.mem_cons_of_mem b ha, hrest⟩

theorem inumOf_ne_zero_of (ha : a ∈ l) (hnamed : Named m name a) : inumOf m name l ≠ 0 := by
  induction l with
  | nil => cases ha
  | cons b l ih =>
    by_cases hb : Named m name b
    · rw [inumOf_cons hb]
      exact hb.1
    · rw [inumOf_cons_of_not hb]
      rcases List.mem_cons.mp ha with rfl | ha
      · exact absurd hnamed hb
      · exact ih ha

end Entries

/-! ## What names stand for -/

section Names
variable {m : Mem} {name name' : List UInt8} {i ino : Nat}

theorem toInum_of_lt (hi : (i : Int) < ninodes m) : toInum i = i := by
  have hlt := ninodes_lt m
  unfold toInum
  rw [if_pos (by omega)]

theorem rootNames_eq (h : RootOk m) (name : List UInt8) : rootNames m name =
    if inumOf m name (rootEntries m) = 0 then none
      else some (inodeAddr m (inumOf m name (rootEntries m))) := by
  unfold rootNames inodeOf
  change (if 0 < toInum (inumOf m name (rootEntries m)) ∧
    toInum (inumOf m name (rootEntries m)) < ninodes m then
    some (inodeAddr m (inumOf m name (rootEntries m))) else none) = _
  by_cases hz : inumOf m name (rootEntries m) = 0
  · rw [if_pos hz, hz, if_neg fun h => absurd h.1 (by decide)]
  · obtain ⟨a, ha, hnamed, heq⟩ := inumOf_ne_zero hz
    obtain ⟨h2, hlt, -⟩ := h.used a ha hnamed.1
    rw [if_neg hz, heq, toInum_of_lt hlt, if_pos ⟨by omega, hlt⟩]

/-- A name that stands for a file is that of an entry, with the inode's number in it. -/
theorem rootNames_some (h : RootOk m) : rootNames m name = some ino ↔
    ∃ a ∈ rootEntries m, Named m name a ∧ inumOf m name (rootEntries m) = getLE m a 4 ∧
    ino = inodeAddr m (getLE m a 4) := by
  rw [rootNames_eq h]
  constructor
  · intro hino
    split at hino
    · cases hino
    · rename_i hz
      obtain ⟨a, ha, hnamed, heq⟩ := inumOf_ne_zero hz
      cases hino
      exact ⟨a, ha, hnamed, heq, by rw [heq]⟩
  · rintro ⟨a, ha, hnamed, heq, rfl⟩
    rw [heq, if_neg hnamed.1]

theorem inodeAddr_inj {j : Nat} (hi : (i : Int) < ninodes m) (hj : (j : Int) < ninodes m)
    (h : inodeAddr m i = inodeAddr m j) : i = j := by
  by_contra hne
  have hapart := inodeAddr_apart hi hj hne
  omega

/-- **Two names stand for two files.** -/
theorem rootNames_inj (h : RootOk m) (hname : ValidName name) (hname' : ValidName name')
    (h₁ : rootNames m name = some ino) (h₂ : rootNames m name' = some ino) : name = name' := by
  obtain ⟨a, ha, hnamed, -, rfl⟩ := (rootNames_some h).mp h₁
  obtain ⟨b, hb, hnamed', -, haddr⟩ := (rootNames_some h).mp h₂
  have hinum := inodeAddr_inj (h.used a ha hnamed.1).2.1 (h.used b hb hnamed'.1).2.1 haddr
  obtain rfl := h.distinct a ha b hb hnamed.1 hinum
  exact hnamed.unique hnamed' hname.nul hname'.nul

end Names

/-! ## What a call changes -/

/-- Inode `i`, the bitmap and the entry `new`, if there is one, are all that is changed. -/
def Outside (m : Mem) (i : Nat) (new : Option Nat) (m' : Mem) : Prop :=
  ∀ x, x < inodeAddr m i ∨ inodeAddr m i + 64 ≤ x → x / blocksize ≠ fbbBn m →
    (∀ a ∈ new, x < a ∨ a + direntsize ≤ x) → m' x = m x

/-- What stays as it is. -/
structure OthersKept (m : Mem) (i : Nat) (new : Option Nat) (m' : Mem) : Prop where
  super : SameBlock m' m 0
  inode : ∀ j : Nat, (j : Int) < ninodes m → j ≠ i → ∀ x, inodeAddr m j ≤ x →
    x < inodeAddr m j + 64 → m' x = m x
  val : ∀ s : Slot, s.Ok → val m' (inodeAddr m 1) s = val m (inodeAddr m 1) s
  size : fileSize m' (inodeAddr m 1) = fileSize m (inodeAddr m 1)
  entry : ∀ b ∈ rootEntries m, b ∉ new → ∀ x, b ≤ x → x < b + direntsize → m' x = m x

section OthersKept
variable {m m' : Mem} {i : Nat} {new : Option Nat}

/-- A block of the directory is not one of inodes. -/
theorem RootOk.block_ne (h : RootOk m) {s : Slot} (ok : s.Ok) (hne : val m (inodeAddr m 1) s ≠ 0)
    {x j : Nat} (hx : x / blocksize = val m (inodeAddr m 1) s) (hj : (j : Int) < ninodes m) :
    x < inodeAddr m j ∨ inodeAddr m j + 64 ≤ x := by
  have hblock := (h.layout.directory s ok hne).2 j hj
  have hlow := inodeAddr_block m j (show 0 < 64 by decide)
  have hhigh := inodeAddr_block m j (show 63 < 64 by decide)
  unfold blocksize at *
  omega

theorem inode_div (m : Mem) (j : Nat) {x : Nat} (h₁ : inodeAddr m j ≤ x)
    (h₂ : x < inodeAddr m j + 64) : x / blocksize = inodeBlock (inodeBn m) j := by
  have hlow := inodeAddr_block m j (show 0 < 64 by decide)
  have hhigh := inodeAddr_block m j (show 63 < 64 by decide)
  unfold blocksize at *
  omega

theorem RootOk.kept (h : RootOk m) (h2 : 2 ≤ i) (hi : (i : Int) < ninodes m)
    (hnew : ∀ a ∈ new, a ∈ rootEntries m) (hm : Outside m i new m') : OthersKept m i new m' := by
  -- the new entry is in a block of the directory
  have hplace : ∀ a ∈ new, ∃ bi < maxsize / blocksize, dataVal m (inodeAddr m 1) bi ≠ 0 ∧
      a / blocksize = dataVal m (inodeAddr m 1) bi ∧ a % direntsize = 0 :=
        fun a ha => dirEntry_place (hnew a ha)
  have hapart : ∀ x, (∀ bi < maxsize / blocksize, dataVal m (inodeAddr m 1) bi ≠ 0 →
      x / blocksize ≠ dataVal m (inodeAddr m 1) bi) → ∀ a ∈ new, x < a ∨ a + direntsize ≤ x := by
    intro x hx a ha
    obtain ⟨bi, hlt, hne, hdiv, hmod⟩ := hplace a ha
    have hblock := hx bi hlt hne
    unfold blocksize direntsize at *
    omega
  have hinode : ∀ j : Nat, (j : Int) < ninodes m → j ≠ i → ∀ x, inodeAddr m j ≤ x →
      x < inodeAddr m j + 64 → m' x = m x := by
    intro j hj hne x hx₁ hx₂
    have hdiv := inode_div m j hx₁ hx₂
    have hother := inodeAddr_apart hi hj (Ne.symm hne)
    refine hm x (by omega) (hdiv ▸ (h.layout.inode j hj).2)
      (hapart x fun bi hlt hmapped hblock => ?_)
    exact (h.layout.directory (.data bi) hlt hmapped).2 j hj (hblock.symm.trans hdiv)
  have hroot := hinode 1 h.root (by omega)
  -- a block that holds pointers holds no entries
  have hpointers : ∀ p : Slot, p.Ok → (∀ bi, p ≠ .data bi) → val m (inodeAddr m 1) p ≠ 0 →
      SameBlock m' m (val m (inodeAddr m 1) p) := by
    intro p ok hp hne x hx₁ hx₂
    have hdiv : x / blocksize = val m (inodeAddr m 1) p := by
      unfold blocksize at *
      omega
    refine hm x (h.block_ne ok hne hdiv hi) (hdiv ▸ (h.layout.directory p ok hne).1)
      (hapart x fun bi hlt hmapped hblock => ?_)
    exact hp bi (h.once p (.data bi) ok hlt hne (hdiv.symm.trans hblock))
  refine ⟨fun x hx₁ hx₂ => ?_, hinode, fun s ok => ?_, ?_, fun b hb hnot x hx₁ hx₂ => ?_⟩
  · have hdiv : x / blocksize = 0 := Nat.div_eq_of_lt (by omega)
    have hzero := (h.layout.inode i hi).1
    have hlow := inodeAddr_block m i (show 0 < 64 by decide)
    refine hm x ?_ (hdiv ▸ Ne.symm h.layout.fbb) (hapart x fun bi _ hmapped hblock =>
      hmapped (hblock.symm.trans hdiv))
    unfold blocksize at *
    omega
  · exact val_congr (fun x hx₁ hx₂ => hroot x (by omega) hx₂) hpointers ok
  · exact getLE_congr fun x hx₁ hx₂ =>
      hroot x (by unfold sizeAddr at hx₁; omega) (by unfold sizeAddr at hx₂; omega)
  · obtain ⟨bi, hlt, hne, hx⟩ := dirEntry_block hb hx₁ hx₂
    obtain ⟨-, -, -, -, hmod⟩ := dirEntry_place hb
    refine hm x (h.block_ne (s := .data bi) hlt hne hx hi)
      (hx ▸ (h.layout.directory (.data bi) hlt hne).1) fun a ha => ?_
    obtain ⟨-, -, -, -, hmod'⟩ := hplace a ha
    have hab : a ≠ b := by
      rintro rfl
      exact hnot ha
    unfold direntsize at *
    omega

namespace OthersKept
variable {name : List UInt8} {b j : Nat} (hk : OthersKept m i new m')
include hk

theorem word {a : Nat} (ha : a + 4 ≤ blocksize) : getLE m' a 4 = getLE m a 4 :=
  getLE_congr fun x h₁ h₂ => hk.super x (by omega) (by omega)

theorem ninodes_eq : ninodes m' = ninodes m := by
  unfold ninodes
  rw [hk.word (by decide)]

theorem fbbBn_eq : fbbBn m' = fbbBn m := hk.word (by decide)

theorem inodeBn_eq : inodeBn m' = inodeBn m := hk.word (by decide)

theorem inodeAddr_eq (j : Nat) : inodeAddr m' j = inodeAddr m j := by
  unfold inodeAddr
  rw [hk.inodeBn_eq]

theorem val_eq {s : Slot} (ok : s.Ok) :
    ChkFS.val m' (inodeAddr m' 1) s = ChkFS.val m (inodeAddr m 1) s := by
  rw [hk.inodeAddr_eq, hk.val s ok]

theorem rootEntries_eq : rootEntries m' = rootEntries m := by
  unfold rootEntries dirEntries
  rw [hk.inodeAddr_eq]
  exact entriesFrom_congr (fun bj _ hlt => hk.val (.data bj) (by rwa [Nat.zero_add] at hlt)) hk.size

theorem layout (hl : Layout m) : Layout m' := by
  refine ⟨?_, ?_, fun j hj => ?_, fun s ok hne => ?_⟩
  · rw [show nblocks m' = nblocks m from hk.word (by decide)]
    exact hl.nblocks
  · rw [hk.fbbBn_eq]
    exact hl.fbb
  · rw [hk.ninodes_eq] at hj
    rw [hk.inodeBn_eq, hk.fbbBn_eq]
    exact hl.inode j hj
  · rw [hk.val_eq ok] at hne ⊢
    rw [hk.ninodes_eq, hk.inodeBn_eq, hk.fbbBn_eq]
    exact hl.directory s ok hne

theorem inum_eq (hb : b ∈ rootEntries m) (hnot : b ∉ new) : getLE m' b 4 = getLE m b 4 :=
  getLE_congr fun x h₁ h₂ => hk.entry b hb hnot x h₁ (by unfold direntsize; omega)

theorem named_iff (hb : b ∈ rootEntries m) (hnot : b ∉ new) (hname : name.length < namebytes) :
    Named m' name b ↔ Named m name b := by
  have hslice : slice m' (b + 4) (name.length + 1) = slice m (b + 4) (name.length + 1) := by
    refine slice_congr fun x h₁ h₂ => hk.entry b hb hnot x (by omega) ?_
    unfold namebytes direntsize at *
    omega
  unfold Named
  rw [hk.inum_eq hb hnot, hslice]

theorem type_eq (hj : (j : Int) < ninodes m) (hne : j ≠ i) :
    getLE m' (typeAddr (inodeAddr m j)) 4 = getLE m (typeAddr (inodeAddr m j)) 4 :=
  getLE_congr fun x h₁ h₂ =>
    hk.inode j hj hne x (by unfold typeAddr at h₁; omega) (by unfold typeAddr at h₂; omega)

end OthersKept

/-- A new entry, for an inode that no entry has. -/
structure NewEntry (m : Mem) (i : Nat) (path : List UInt8) (m' : Mem) (a : Nat) : Prop where
  mem : a ∈ rootEntries m
  empty : getLE m a 4 = 0
  free : FreeInode m i
  inum : getLE m' a 4 = i
  name : slice m' (a + 4) namebytes = path ++ List.replicate (namebytes - path.length) 0

/-- **The directory stays in order.** -/
theorem RootOk.next {path : List UInt8} (h : RootOk m) (hk : OthersKept m i new m')
    (hi : 2 ≤ i ∧ (i : Int) < ninodes m ∧ getLE m' (typeAddr (inodeAddr m i)) 4 ≠ 0)
    (hnew : ∀ a ∈ new, NewEntry m i path m' a) : RootOk m' := by
  -- no old entry has the inode of a new one
  have hother : ∀ a ∈ new, ∀ b ∈ rootEntries m, b ∉ new → i ≠ getLE m' b 4 := by
    intro a ha b hb hnot heq
    have hfree := (hnew a ha).free
    rw [hk.inum_eq hb hnot] at heq
    have hne : getLE m b 4 ≠ 0 := by
      have := hfree.1
      omega
    exact (h.used b hb hne).2.2 (heq ▸ hfree.2.2)
  refine ⟨hk.layout h.layout, ?_, fun s t ok ok' hne heq => ?_, ?_, fun a ha hz k hlt => ?_,
    fun a ha hne => ?_, fun a ha b hb hne heq => ?_⟩
  · rw [hk.ninodes_eq]
    exact h.root
  · rw [hk.val_eq ok] at hne heq
    rw [hk.val_eq ok'] at heq
    exact h.once s t ok ok' hne heq
  · obtain ⟨bi, hlt, hz⟩ := h.hole
    have hval : dataVal m' (inodeAddr m' 1) bi = dataVal m (inodeAddr m 1) bi :=
      hk.val_eq (s := .data bi) hlt
    exact ⟨bi, hlt, hval.trans hz⟩
  · rw [hk.rootEntries_eq] at ha
    by_cases hin : a ∈ new
    · have := (hnew a hin).free.1
      rw [(hnew a hin).inum] at hz
      omega
    · rw [hk.inum_eq ha hin] at hz
      rw [hk.entry a ha hin _ (by omega) (by unfold namebytes at hlt; omega)]
      exact h.clean a ha hz k hlt
  · rw [hk.rootEntries_eq] at ha
    rw [hk.ninodes_eq, hk.inodeAddr_eq]
    by_cases hin : a ∈ new
    · rw [(hnew a hin).inum]
      exact hi
    · rw [hk.inum_eq ha hin] at hne ⊢
      obtain ⟨h2, hlt, htype⟩ := h.used a ha hne
      refine ⟨h2, hlt, ?_⟩
      by_cases hai : getLE m a 4 = i
      · rw [hai]
        exact hi.2.2
      · rwa [hk.type_eq hlt hai]
  · rw [hk.rootEntries_eq] at ha hb
    by_cases hina : a ∈ new
    · by_cases hinb : b ∈ new
      · exact Option.mem_unique hina hinb
      · rw [(hnew a hina).inum] at heq
        exact absurd heq (hother a hina b hb hinb)
    · by_cases hinb : b ∈ new
      · rw [(hnew b hinb).inum] at heq
        exact absurd heq.symm (hother b hinb a ha hina)
      · rw [hk.inum_eq ha hina] at hne heq
        rw [hk.inum_eq hb hinb] at heq
        exact h.distinct a ha b hb hne heq

/-- Names other than the new one stand for what they stood for. -/
theorem rootNames_kept {path name : List UInt8} (h : RootOk m) (h' : RootOk m')
    (hk : OthersKept m i new m') (hnew : ∀ a ∈ new, NewEntry m i path m' a) (hpath : ValidName path)
    (hname : ValidName name) (hne : ∀ a ∈ new, name ≠ path) :
    rootNames m' name = rootNames m name := by
  have hinum : inumOf m' name (rootEntries m') = inumOf m name (rootEntries m) := by
    rw [hk.rootEntries_eq]
    refine inumOf_congr (fun b hb => ?_) fun b hb hnamed => ?_
    · by_cases hin : b ∈ new
      · have hen := hnew b hin
        refine iff_of_false (fun hnamed => hne b hin ?_) fun hnamed => hnamed.1 hen.empty
        exact (string_iff hen.name hpath.length hpath.nul hname.nul).mp hnamed.2
      · exact hk.named_iff hb hin hname.length
    · refine hk.inum_eq hb fun hin => ?_
      exact hnamed.1 (hnew b hin).empty
  rw [rootNames_eq h, rootNames_eq h', hinum, hk.inodeAddr_eq]

/-- The new name stands for the new inode. -/
theorem rootNames_new {path : List UInt8} {a : Nat} (h : RootOk m) (h' : RootOk m')
    (hk : OthersKept m i (some a) m') (hnew : NewEntry m i path m' a) (hpath : ValidName path)
    (habsent : rootNames m path = none) : rootNames m' path = some (inodeAddr m i) := by
  have hnamed : Named m' path a := by
    refine ⟨?_, (string_iff hnew.name hpath.length hpath.nul hpath.nul).mpr rfl⟩
    have := hnew.free.1
    rw [hnew.inum]
    omega
  have hnone : inumOf m path (rootEntries m) = 0 := by
    by_contra hz
    rw [rootNames_eq h, if_neg hz] at habsent
    cases habsent
  have hmem : a ∈ rootEntries m' := by
    rw [hk.rootEntries_eq]
    exact hnew.mem
  -- no other entry has the name
  have hunique : ∀ b ∈ rootEntries m', Named m' path b → b = a := by
    intro b hb hb'
    rw [hk.rootEntries_eq] at hb
    by_contra hne
    have hnot : b ∉ some a := fun hin => hne (Option.some.inj hin).symm
    exact inumOf_ne_zero_of hb ((hk.named_iff hb hnot hpath.length).mp hb') hnone
  rw [rootNames_eq h', inumOf_unique hmem hnamed hunique, if_neg hnamed.1, hnew.inum,
    hk.inodeAddr_eq]

end OthersKept

/-! ## The calls -/

section Calls
variable {m m' m₁ : Mem} {i bn ino : Nat} {path : List UInt8} {flags : OpenFlags} {fds : FdTable}
  {file vnode : Bool}

/-- The name in a new entry. -/
theorem stored_name {a v : Nat} (hlen : path.length < namebytes)
    (hrest : ∀ x, a + 4 + path.length ≤ x → x < a + direntsize → m₁ x = 0) :
    slice (putLE (store m₁ (a + 4) path) a 4 v) (a + 4) namebytes = path ++ List.replicate
      (namebytes - path.length) 0 := by
  obtain ⟨d, hd⟩ := Nat.exists_eq_add_of_le (Nat.le_of_lt hlen)
  have hname : slice (putLE (store m₁ (a + 4) path) a 4 v) (a + 4) path.length = path := by
    rw [slice_congr (g := store m₁ (a + 4) path) fun x h₁ _ => putLE_of_not_mem (by omega),
      slice_store]
  rw [hd, slice_add, hname, Nat.add_sub_cancel_left]
  refine congrArg (path ++ ·) (slice_replicate fun x h₁ h₂ => ?_)
  rw [putLE_of_not_mem (by omega), store_of_not_mem _ _ (by omega)]
  refine hrest x h₁ ?_
  unfold namebytes at hd
  unfold direntsize at *
  omega

/-- **A new entry** for a new inode. -/
theorem Initialized.newEntry {a : Nat} (h : RootOk m) (hm₁ : Initialized m (inodeAddr m i) bn m₁)
    (hfree : FreeInode m i) (hmem : a ∈ rootEntries m) (hempty : getLE m a 4 = 0)
    (hpath : ValidName path) : NewEntry m i path (putLE (store m₁ (a + 4) path) a 4 i) a ∧
      OthersKept m i (some a) (putLE (store m₁ (a + 4) path) a 4 i) ∧
      getLE (putLE (store m₁ (a + 4) path) a 4 i) (typeAddr (inodeAddr m i)) 4 = typeRegular := by
  have hdir := hm₁.directory h.layout hfree.1 hfree.2.1
  have hlen := hpath.length
  have hi32 : i < 256 ^ 4 := by
    have := ninodes_lt m
    have := hfree.2.1
    omega
  have hstored : ∀ x, x < a ∨ a + direntsize ≤ x →
      putLE (store m₁ (a + 4) path) a 4 i x = m₁ x := by
    intro x hx
    unfold namebytes direntsize at *
    rw [putLE_of_not_mem (by omega), store_of_not_mem _ _ (by omega)]
  -- the bytes after the name are as they were
  have hrest : ∀ x, a + 4 + path.length ≤ x → x < a + direntsize → m₁ x = 0 := by
    intro x hx₁ hx₂
    obtain ⟨bi, hlt, hne, hdiv⟩ := dirEntry_block hmem (show a ≤ x by omega) hx₂
    have hold : SameBlock m₁ m (dataVal m (inodeAddr m 1) bi) := hdir.block (.data bi) hlt hne
    rw [hold x (by unfold blocksize at *; omega) (by unfold blocksize at *; omega)]
    obtain ⟨k, rfl⟩ := Nat.exists_eq_add_of_le (show a + 4 ≤ x by omega)
    exact h.clean a hmem hempty k (by unfold namebytes; omega)
  have hout : Outside m i (some a) (putLE (store m₁ (a + 4) path) a 4 i) := by
    intro x hx hb ha
    rw [hstored x (ha a rfl), hm₁.frame x hx hb]
  refine ⟨⟨hmem, hempty, hfree, getLE_putLE _ _ hi32, stored_name hlen hrest⟩,
    h.kept hfree.1 hfree.2.1 (fun b hb => Option.some.inj hb ▸ hmem) hout,
    .trans (getLE_congr fun x hx₁ hx₂ => hstored x ?_) hm₁.type⟩
  -- the inode is not in the directory
  by_contra hin
  obtain ⟨bi, hlt, hne, hdiv⟩ := dirEntry_block hmem (show a ≤ x by omega) (by omega)
  have hx :=
    inode_div m i (show inodeAddr m i ≤ x by unfold typeAddr at hx₁; omega)
      (by unfold typeAddr at hx₂; omega)
  exact (h.layout.directory (.data bi) hlt hne).2 i hfree.2.1 (hdiv.symm.trans hx)

/-- **A new file.** -/
theorem view_createFile_entry (h : RootOk m) (hpath : ValidName path)
    (hrun : view (createFile (inodeAddr m 1) path) m = some (ino, m')) :
    ∃ i a, ino = inodeAddr m i ∧ NewEntry m i path m' a ∧ OthersKept m i (some a) m' ∧
      getLE m' (typeAddr (inodeAddr m i)) 4 = typeRegular := by
  unfold createFile at hrun
  rw [view_bind] at hrun
  rcases view_findEmptyInode m with ⟨i, hfree, hfind⟩ | ⟨hfind, -⟩
  · have hi : 0 < i ∧ (i : Int) < ninodes m := ⟨Nat.lt_of_lt_of_le Nat.two_pos hfree.1, hfree.2.1⟩
    obtain ⟨hzero, hfbb⟩ := h.layout.inode i hi.2
    rw [← inoEntry_inodeAddr] at hzero hfbb
    obtain ⟨bn, m₁, hinit, hm₁, -⟩ := view_initInode (inodeAddr_mod m i) hzero hfbb
    rw [hfind, Option.bind_some, view_bind, view_getInode, Option.bind_some, if_pos hi] at hrun
    dsimp only at hrun
    rw [view_bind, hinit, Option.bind_some, view_bind] at hrun
    unfold linkInode at hrun
    rw [view_bind, view_sully, Option.bind_some, view_bind] at hrun
    rcases view_findEmptyDirentry m₁ (inodeAddr m 1) with ⟨bi, k, hen, hfind⟩ | ⟨-, hfind⟩
    · obtain ⟨hen', haddr⟩ := (hm₁.directory h.layout hfree.1 hi.2).symm.emptyEntry hen
      rw [hfind, Option.bind_some] at hrun
      dsimp only at hrun
      rw [view_bind, view_storeBytes, Option.bind_some, view_poke, Option.bind_some, ← haddr]
        at hrun
      obtain ⟨rfl, rfl⟩ : inodeAddr m i = ino ∧
        putLE (store m₁ (direntAddr m (inodeAddr m 1) bi k + 4) path)
        (direntAddr m (inodeAddr m 1) bi k) 4 i = m' := Prod.mk.inj (Option.some.inj hrun)
      exact ⟨i, _, rfl, hm₁.newEntry h hfree hen'.mem hen'.empty hpath⟩
    · -- no entry is free
      cases hd : view (findEmptyDirentry (inodeAddr m 1)) m₁ with
      | none =>
        rw [hd] at hrun
        cases hrun
      | some r =>
        obtain ⟨d, m₂⟩ := r
        obtain rfl : d = none := hfind _ hd
        rw [hd] at hrun
        cases hrun
  · rw [hfind, Option.bind_some, view_bind, view_getInode, Option.bind_some, if_neg fun h =>
      Nat.lt_irrefl 0 h.1] at hrun
    cases hrun

/-- **The end of `sys_open`**: the size of the file may be set to zero, and a descriptor is for the
file. -/
theorem view_installFile {r : Int} {fds' : FdTable}
    (hrun : view (installFile flags fds file vnode ino) m = some ((r, fds'), m')) :
    (m' = m ∨ m' = putLE m (sizeAddr ino) 4 0) ∧ ∀ ino', openedInode r fds' = some ino' →
      ino' = ino := by
  unfold installFile at hrun
  have hneg : ∀ {e : Int} {fds : FdTable}, e < 0 → ∀ ino', openedInode e fds = some ino' →
      ino' = ino := by
    intro e fds he ino' hino
    unfold openedInode at hino
    rw [if_neg (Int.not_le.mpr he)] at hino
    cases hino
  cases hfind : (List.range NFDS).find? fun fd => fds fd = none with
  | none =>
    rw [hfind] at hrun
    cases file with
    | true => cases hrun
    | false =>
      cases hrun
      exact ⟨.inl rfl, hneg (by decide)⟩
  | some fd =>
    rw [hfind] at hrun
    cases file with
    | false =>
      cases hrun
      exact ⟨.inl rfl, hneg (by decide)⟩
    | true =>
      cases vnode with
      | false => cases hrun
      | true =>
        have hopened : ∀ ino', openedInode (fd : Int)
            (Function.update fds fd (some ⟨ino, 0, flags.read, flags.write⟩)) = some ino' →
            ino' = ino := by
          intro ino' hino
          unfold openedInode at hino
          rw [if_pos (Int.natCast_nonneg fd), Int.toNat_natCast, Function.update_self] at hino
          exact (Option.some.inj hino).symm
        dsimp only at hrun
        cases htrunc : flags.trunc && flags.write with
        | true =>
          rw [htrunc] at hrun
          cases hrun
          exact ⟨.inr (store_toLE _ _ _ _), hopened⟩
        | false =>
          rw [htrunc] at hrun
          cases hrun
          exact ⟨.inl rfl, hopened⟩

/-- **A truncation** leaves the names alone. -/
theorem RootOk.truncated (h : RootOk m) (h2 : 2 ≤ i) (hi : (i : Int) < ninodes m)
    (htype : getLE m (typeAddr (inodeAddr m i)) 4 ≠ 0) :
    RootOk (putLE m (sizeAddr (inodeAddr m i)) 4 0) ∧ ∀ name, ValidName name →
    rootNames (putLE m (sizeAddr (inodeAddr m i)) 4 0) name = rootNames m name := by
  have hout : Outside m i none (putLE m (sizeAddr (inodeAddr m i)) 4 0) :=
    fun x hx _ _ => putLE_of_not_mem (by unfold sizeAddr; omega)
  have hkept := h.kept h2 hi (fun a ha => absurd ha (Option.not_mem_none a)) hout
  have htype' : getLE (putLE m (sizeAddr (inodeAddr m i)) 4 0) (typeAddr (inodeAddr m i)) 4 ≠
      0 := by
    rwa [getLE_putLE_frame (by unfold typeAddr sizeAddr; omega)]
  have hnext : RootOk (putLE m (sizeAddr (inodeAddr m i)) 4 0) :=
    @RootOk.next _ _ _ _ [] h hkept ⟨h2, hi, htype'⟩ fun a ha => absurd ha (Option.not_mem_none a)
  have hempty : ValidName [] := ⟨by decide, List.not_mem_nil⟩
  exact ⟨hnext, fun name hname =>
    rootNames_kept h hnext hkept (fun a ha => absurd ha (Option.not_mem_none a)) hempty hname
      fun a ha => absurd ha (Option.not_mem_none a)⟩

/-- The rest of a call, once there is a file of the name. -/
theorem install_step {r : Int} {fds' : FdTable} (h : RootOk m) (hino : rootNames m path = some ino)
    (hrun : view (installFile flags fds file vnode ino) m = some ((r, fds'), m')) : RootOk m' ∧
      (∀ name, ValidName name → rootNames m' name = rootNames m name) ∧
      ∀ ino', openedInode r fds' = some ino' → rootNames m path = some ino' := by
  obtain ⟨hm', hopened⟩ := view_installFile hrun
  have hopened' : ∀ ino', openedInode r fds' = some ino' → rootNames m path = some ino' := by
    intro ino' h
    rw [hopened ino' h, hino]
  rcases hm' with rfl | rfl
  · exact ⟨h, fun _ _ => rfl, hopened'⟩
  · obtain ⟨a, ha, hnamed, -, rfl⟩ := (rootNames_some h).mp hino
    obtain ⟨h2, hlt, htype⟩ := h.used a ha hnamed.1
    obtain ⟨hok, hnames⟩ := h.truncated h2 hlt htype
    exact ⟨hok, hnames, hopened'⟩

/-- **One call.**  The directory stays in order; the names stand for what they stood for, except
that the call's own name may stand for a new file; and the descriptor is for the file that the name
then stands for. -/
theorem open_step {r : Int} {fds' : FdTable} (h : RootOk m) (hnul : (0 : UInt8) ∉ path)
    (hrun : view (sysOpen path flags fds file vnode) m = some ((r, fds'), m')) : RootOk m' ∧
      (∀ name, ValidName name → name ≠ path ∨ rootNames m name ≠ none →
        rootNames m' name = rootNames m name) ∧
      ∀ ino, openedInode r fds' = some ino → ValidName path ∧ rootNames m' path = some ino := by
  have hnone : ∀ {e : Int} {fds : FdTable}, e < 0 → ∀ ino, openedInode e fds = some ino →
      ValidName path ∧ rootNames m path = some ino := by
    intro e fds he ino hino
    unfold openedInode at hino
    rw [if_neg (Int.not_le.mpr he)] at hino
    cases hino
  unfold sysOpen at hrun
  by_cases hlen : path.length < namesize
  · have hpath : ValidName path :=
      ⟨by unfold namebytes direntsize; unfold namesize at hlen; omega, hnul⟩
    have hroot : (0 : Nat) < 1 ∧ ((1 : Nat) : Int) < ninodes m := ⟨Nat.one_pos, h.root⟩
    have hget : view (getInode 1) m = some (some (inodeAddr m 1), m) := by
      have hview := view_getInode m 1
      rwa [if_pos hroot] at hview
    have hlookup : view (lookupPath path) m = some ((inodeAddr m 1, rootNames m path), m) := by
      unfold lookupPath
      rw [view_bind, hget, Option.bind_some]
      dsimp only
      rw [view_bind, view_lookupInode h.hole, Option.bind_some]
      rfl
    rw [if_pos hlen, view_bind, hlookup, Option.bind_some] at hrun
    cases hname : rootNames m path with
    | some ino =>
      rw [hname] at hrun
      obtain ⟨hok, hnames, hopened⟩ := install_step h hname hrun
      refine ⟨hok, fun name hvalid _ => hnames name hvalid, fun ino' hino' => ⟨hpath, ?_⟩⟩
      rw [hnames path hpath, hopened ino' hino']
    | none =>
      rw [hname] at hrun
      dsimp only at hrun
      split at hrun
      · rw [view_bind] at hrun
        obtain ⟨⟨ino, m₁⟩, hcreate, hrest⟩ := Option.bind_eq_some_iff.mp hrun
        obtain ⟨i, a, rfl, hnew, hkept, htype⟩ := view_createFile_entry h hpath hcreate
        have hnew' : ∀ b ∈ some a, NewEntry m i path m₁ b := fun b hb => Option.some.inj hb ▸ hnew
        have hok : RootOk m₁ :=
          h.next hkept ⟨hnew.free.1, hnew.free.2.1, by rw [htype]; decide⟩ hnew'
        have hmade := rootNames_new h hok hkept hnew hpath hname
        obtain ⟨hok', hnames, hopened⟩ := install_step hok hmade hrest
        refine ⟨hok', fun name hvalid hor => ?_, fun ino' hino' => ⟨hpath, ?_⟩⟩
        · have hne : name ≠ path := by
            rcases hor with hne | hsome
            · exact hne
            · rintro rfl
              exact hsome hname
          rw [hnames name hvalid, rootNames_kept h hok hkept hnew' hpath hvalid fun _ _ => hne]
        · rw [hnames path hpath, hopened ino' hino']
      · cases hrun
        exact ⟨h, fun _ _ _ => rfl, hnone (by decide)⟩
  · rw [if_neg hlen] at hrun
    cases hrun
    exact ⟨h, fun _ _ _ => rfl, hnone (by decide)⟩

/-- **Any number of calls.** -/
theorem openAll_names {calls : List OpenCall} {inos : List (Option Nat)} (h : RootOk m)
    (hnul : ∀ c ∈ calls, (0 : UInt8) ∉ c.path) (hrun : view (openAll calls) m = some (inos, m')) :
    RootOk m' ∧
      (∀ name, ValidName name → name ∉ calls.map OpenCall.path ∨ rootNames m name ≠ none →
        rootNames m' name = rootNames m name) ∧
      ∀ (k : Nat) (c : OpenCall) ino, calls[k]? = some c → inos[k]? = some (some ino) →
      ValidName c.path ∧ rootNames m' c.path = some ino := by
  induction calls generalizing m inos with
  | nil =>
    cases hrun
    exact ⟨h, fun _ _ _ => rfl, fun k c ino hc => absurd hc (by simp)⟩
  | cons c calls ih =>
    obtain ⟨hc, hnul⟩ := List.forall_mem_cons.mp hnul
    unfold openAll at hrun
    rw [view_bind] at hrun
    obtain ⟨⟨⟨r, fds'⟩, m₁⟩, hfirst, hrun⟩ := Option.bind_eq_some_iff.mp hrun
    dsimp only at hrun
    rw [view_bind] at hrun
    obtain ⟨⟨inos', m₂⟩, hrest, hrun⟩ := Option.bind_eq_some_iff.mp hrun
    cases hrun
    obtain ⟨hok, hnames, hopened⟩ := open_step h hc hfirst
    obtain ⟨hok', hnames', hopened'⟩ := ih hok hnul hrest
    refine ⟨hok', fun name hvalid hor => ?_, fun k c' ino hc' hino => ?_⟩
    · have hstep : rootNames m₁ name = rootNames m name := by
        refine hnames name hvalid (hor.imp_left fun hnot => ?_)
        exact fun heq => hnot (heq ▸ List.mem_cons_self)
      rw [← hstep] at hor ⊢
      exact hnames' name hvalid (hor.imp_left fun hnot hin => hnot (List.mem_cons_of_mem _ hin))
    · cases k with
      | zero =>
        cases hc'
        obtain ⟨hvalid, hname⟩ := hopened ino (Option.some.inj hino)
        refine ⟨hvalid, ?_⟩
        rw [hnames' c.path hvalid (.inr (hname ▸ Option.some_ne_none ino)), hname]
      | succ k => exact hopened' k c' ino hc' hino

/-- **Files keep their names.**  After any number of calls, a name that stood for a file stands for
that file, one that no call was given stands for what it did, a descriptor is for the file that its
name stands for, and two descriptors are for one file exactly if they were opened under one name. -/
theorem open_all {calls : List OpenCall} {inos : List (Option Nat)} (h : RootOk m)
    (hnul : ∀ c ∈ calls, (0 : UInt8) ∉ c.path) (hrun : view (openAll calls) m = some (inos, m')) :
    (∀ name, ValidName name → name ∉ calls.map OpenCall.path ∨ rootNames m name ≠ none →
      rootNames m' name = rootNames m name) ∧ (∀ (k : Nat) (c : OpenCall) ino, calls[k]? = some c →
      inos[k]? = some (some ino) → rootNames m' c.path = some ino) ∧
      ∀ (j k : Nat) (c c' : OpenCall) ino ino', calls[j]? = some c → calls[k]? = some c' →
        inos[j]? = some (some ino) → inos[k]? = some (some ino') →
        (ino = ino' ↔ c.path = c'.path) := by
  obtain ⟨hok, hnames, hopened⟩ := openAll_names h hnul hrun
  refine ⟨hnames, fun k c ino hc hino => (hopened k c ino hc hino).2,
    fun j k c c' ino ino' hc hc' hino hino' => ?_⟩
  obtain ⟨hvalid, hname⟩ := hopened j c ino hc hino
  obtain ⟨hvalid', hname'⟩ := hopened k c' ino' hc' hino'
  constructor
  · rintro rfl
    exact rootNames_inj hok hvalid hvalid' hname hname'
  · intro heq
    rw [heq, hname'] at hname
    exact (Option.some.inj hname).symm

end Calls

/-! ## A directory with one entry -/

theorem emptyDir_entries {a : Nat} (ha : a ∈ rootEntries emptyDir) : a = 12288 := by
  obtain ⟨bi, i, hlt, hmapped, hin, rfl⟩ := mem_dirEntries.mp ha
  have hfirst : bi = 0 := by
    by_contra hne
    have hval : val emptyDir 8256 (.data bi) = _ := emptyDir_val hlt
    rw [if_neg fun h => hne (Slot.data.inj h)] at hval
    exact hmapped bi (Nat.le_refl bi) hval
  obtain rfl := hfirst
  have hblock : blockBytes (fileSize emptyDir (inodeAddr emptyDir 1)) (0 * blocksize) =
      direntsize := by decide +kernel
  have hval : dataVal emptyDir (inodeAddr emptyDir 1) 0 = 3 := by
    rw [emptyDir_addr]
    exact emptyDir_val (s := .data 0) hlt
  rw [hblock] at hin
  unfold direntAddr
  rw [hval]
  unfold blocksize direntsize at *
  omega

theorem emptyDir_zero {x : Nat} (hx : 12288 ≤ x) : emptyDir x = 0 := by
  have hend : ∀ f ∈ [(nblocksAddr, 4, 16), (fbbBnAddr, 4, 1), (ninodesAddr, 4, 8),
      (inodeBnAddr, 4, 2), (4096, 2, 0xfff0), (8256, 4, 2), (8260, 4, 128), (8276, 4, 3)],
      f.1 + f.2.1 ≤ 12288 := by decide
  exact image_of_not_mem fun f hf => .inr (Nat.le_trans (hend f hf) hx)

theorem emptyDir_rootOk : RootOk emptyDir := by
  have hempty : ∀ a ∈ rootEntries emptyDir, getLE emptyDir a 4 = 0 := fun a ha =>
    getLE_zero fun x hx _ => emptyDir_zero (by rw [emptyDir_entries ha] at hx; exact hx)
  refine ⟨emptyDir_layout, by rw [emptyDir_ninodes]; decide, fun s t ok ok' hne heq => ?_,
    ⟨1, by decide, ?_⟩, fun a ha _ k _ => ?_, fun a ha hne => absurd (hempty a ha) hne,
    fun a ha b hb _ _ => (emptyDir_entries ha).trans (emptyDir_entries hb).symm⟩
  · rw [emptyDir_addr, emptyDir_val ok] at hne heq
    rw [emptyDir_val ok'] at heq
    have hs : s = .data 0 := by
      by_contra h
      exact hne (if_neg h)
    have ht : t = .data 0 := by
      by_contra h
      rw [if_pos hs, if_neg h] at heq
      cases heq
    exact hs.trans ht.symm
  · rw [emptyDir_addr]
    exact emptyDir_val (s := .data 1) (show 1 < maxsize / blocksize by decide)
  · exact emptyDir_zero (by rw [emptyDir_entries ha]; omega)

/-- The file is made, opened again, and then another is looked for. -/
def threeOpens : List OpenCall :=
  [⟨[97], writeCreate, fun _ => none, true, true⟩,
    ⟨[97], ⟨true, false, false, false⟩, fun _ => none, true, true⟩,
    ⟨[98], ⟨true, false, false, false⟩, fun _ => none, true, true⟩]

theorem open_all_three : ∃ m', view (openAll threeOpens) emptyDir =
    some ([some 8320, some 8320, none], m') ∧ rootNames m' [97] = some 8320 ∧
    rootNames m' [99] = rootNames emptyDir [99] := by
  have heval : (view (openAll threeOpens) emptyDir).map Prod.fst =
      some [some 8320, some 8320, none] := by decide +kernel
  obtain ⟨⟨inos, m'⟩, hrun, hinos⟩ := Option.map_eq_some_iff.mp heval
  obtain rfl : inos = _ := hinos
  obtain ⟨hnames, hopened, -⟩ := open_all emptyDir_rootOk (by decide) hrun
  have hfirst : threeOpens[0]? = some ⟨[97], writeCreate, fun _ => none, true, true⟩ := rfl
  have hino : [some 8320, some 8320, none][0]? = some (some 8320) := rfl
  have hname := hopened 0 _ _ hfirst hino
  have hother : rootNames m' [99] = rootNames emptyDir [99] :=
    hnames [99] ⟨by decide, by decide⟩ (.inl (by decide))
  exact ⟨m', hrun, hname, hother⟩

end PugOS.ChkFS
