import PugOS.ChkFSRead

/-! # Indices of pointer blocks

`chkfs_fileiter::find` and `chkfsstate::get_data_block` again, with every index into a pointer
block or the inode and every assertion of `bi_direct_index` and `bi_indirect_index` checked.  For
offsets below the maximum file size nothing goes wrong, and both find what the unchecked functions
find.  From the maximum file size on the one clamps the block index to one past the last, the
other cuts it to 32 bits (`lookups_iff`).
-/
namespace PugOS.ChkFS
open Bytes BlockProg FileIter
open Journal (blocksize)

/-- What can go wrong in a lookup. -/
inductive Fault
  /-- An index out of bounds. -/
  | index
  /-- An assertion that fails. -/
  | assertion
  deriving DecidableEq

/-- The `i`th number of a pointer block. -/
def pointer (m : Mem) (bn i : Nat) : Except Fault Nat :=
  if i < nindirect then .ok (getLE m (entryAddr bn i) 4) else .error .index

/-- `ino->direct[i]`. -/
def direct (m : Mem) (ino i : Nat) : Except Fault Nat :=
  if i < ndirect then .ok (getLE m (directAddr ino i) 4) else .error .index

/-- `bi_direct_index`, with its assertion. -/
def checkedDirectIndex (bi : Nat) : Except Fault Nat :=
  if bi < maxsize / blocksize then .ok (biDirectIndex bi) else .error .assertion

/-- `bi_indirect_index`, with its assertion. -/
def checkedIndirectIndex (bi : Nat) : Except Fault Nat :=
  if ndirect + nindirect ≤ bi ∧ bi < maxsize / blocksize then .ok (biIndirectIndex bi)
    else .error .assertion

/-- The second half of `get_data_block`, from the indirect block `ibn` on. -/
def checkedIndirectBlock (m : Mem) (ibn bi : Nat) : Except Fault Nat :=
  if ibn = 0 then .ok 0 else (checkedDirectIndex bi).bind (pointer m ibn)

/-- `get_data_block(ino, off)`: the number of the block, 0 if there is none. -/
def checkedGetDataBlock (m : Mem) (ino off : Nat) : Except Fault Nat :=
  let bi := off / blocksize % 2 ^ 32
  if off % blocksize ≠ 0 then .error .assertion
  else if ndirect + nindirect ≤ bi then
    if rootVal m ino = 0 then .ok 0
    else ((checkedIndirectIndex bi).bind (pointer m (rootVal m ino))).bind fun ibn =>
      checkedIndirectBlock m ibn bi
  else if ndirect ≤ bi then checkedIndirectBlock m (getLE m (indirectAddr ino) 4) bi
  else (checkedDirectIndex bi).bind (direct m ino)

/-- `*get_iptr(bi)`, for the block indices that have an indirect block. -/
def checkedIptr (m : Mem) (it : FileIter) (bi : Nat) : Except Fault Nat :=
  if iclass bi > 1 then
    match it.indirect2 with
    | some e => pointer m e (iclass bi - 2)
    | none => .error .index
  else .ok (getLE m (indirectAddr it.ino) 4)

/-- `*get_dptr(bi)`. -/
def checkedDptr (m : Mem) (it : FileIter) (bi : Nat) : Except Fault Nat :=
  if bi ≥ ndirect then
    match it.indirect with
    | some e => (checkedDirectIndex bi).bind (pointer m e)
    | none => .error .index
  else direct m it.ino bi

/-- The indirect entry that `find` goes on with: it is dropped in another class.  The index of the
block it was found for is cut to 32 bits. -/
def keptIndirect (it : FileIter) (bi : Nat) : Option Nat :=
  if iclass bi ≠ iclass (it.off / blocksize % 2 ^ 32) then none else it.indirect

/-- The indirect2 entry that `find` goes on with. -/
def loadedIndirect2 (m : Mem) (it : FileIter) (bi : Nat) : Option Nat :=
  if ndirect + nindirect ≤ bi ∧ it.indirect2 = none then entryOf (rootVal m it.ino)
    else it.indirect2

/-- The rest of `find`, from the indirect block on. -/
def checkedFindIndirect (m : Mem) (it : FileIter) (bi : Nat) : Except Fault Nat :=
  if ndirect ≤ bi ∧ it.indirect = none then
    (checkedIptr m it bi).bind fun ibn =>
      if ibn = 0 then .ok 0 else checkedDptr m { it with indirect := some ibn } bi
  else checkedDptr m it bi

/-- `find(off)`, and `blocknum()` after it. -/
def checkedFind (m : Mem) (it : FileIter) (off : Nat) : Except Fault Nat :=
  let bi := min off maxsize / blocksize
  let it := { it with indirect := keptIndirect it bi, indirect2 := loadedIndirect2 m it bi }
  if ndirect + nindirect ≤ bi ∧ it.indirect2 = none then .ok 0 else checkedFindIndirect m it bi

/-- A lookup indexes within bounds, and finds no block from the maximum file size on. -/
def Reported (off : Nat) (r : Except Fault Nat) : Prop :=
  ∃ bn, r = .ok bn ∧ (maxsize ≤ off → bn = 0)

section Checked
variable {m : Mem} {ino off bi bn i : Nat} {it : FileIter}

theorem biDirectIndex_lt (hd : ndirect ≤ bi) : biDirectIndex bi < nindirect := by
  rw [biDirectIndex, if_neg (by omega)]
  exact Nat.mod_lt _ (by decide)

theorem biIndirectIndex_lt (hbi : bi < maxsize / blocksize) : biIndirectIndex bi < nindirect := by
  rw [nmax_eq] at hbi
  unfold biIndirectIndex ndirect nindirect
  omega

/-- Below the maximum file size the indices of an indirect block are in bounds. -/
theorem checkedIndirectBlock_eq (hd : ndirect ≤ bi) (hbi : bi < maxsize / blocksize) :
    checkedIndirectBlock m bn bi = .ok (if bn = 0 then 0
      else getLE m (entryAddr bn (biDirectIndex bi)) 4) := by
  unfold checkedIndirectBlock checkedDirectIndex
  rw [if_pos hbi]
  split
  · rfl
  · exact if_pos (biDirectIndex_lt hd)

/-- **`get_data_block` with a block index that a file can have** finds what the walk finds. -/
theorem checkedGetDataBlock_eq (hoff : off % blocksize = 0)
    (hbi : off / blocksize % 2 ^ 32 < maxsize / blocksize) :
    checkedGetDataBlock m ino off = .ok (walk m ino (off / blocksize % 2 ^ 32)) := by
  unfold checkedGetDataBlock walk
  dsimp only
  rw [if_neg (not_not.mpr hoff)]
  generalize off / blocksize % 2 ^ 32 = bi at *
  by_cases hdouble : ndirect + nindirect ≤ bi
  · rw [if_pos hdouble, if_neg (show ¬ bi < ndirect by omega),
      if_neg (show ¬ bi < ndirect + nindirect by omega)]
    by_cases hroot : rootVal m ino = 0
    · rw [if_pos hroot, if_pos hroot]
      rfl
    · rw [if_neg hroot, if_neg hroot, checkedIndirectIndex, if_pos ⟨hdouble, hbi⟩]
      change (pointer m (rootVal m ino) (biIndirectIndex bi)).bind _ = _
      rw [pointer, if_pos (biIndirectIndex_lt hbi)]
      exact checkedIndirectBlock_eq (by omega) hbi
  · rw [if_neg hdouble]
    by_cases hd : ndirect ≤ bi
    · rw [if_pos hd, if_neg (show ¬ bi < ndirect by omega),
        if_pos (show bi < ndirect + nindirect by omega)]
      exact checkedIndirectBlock_eq hd hbi
    · have hlt : biDirectIndex bi = bi := if_pos (Nat.not_le.mp hd)
      rw [if_neg hd, if_pos (Nat.not_le.mp hd), checkedDirectIndex, if_pos hbi]
      change direct m ino (biDirectIndex bi) = _
      rw [direct, if_pos (by omega)]

theorem checkedDptr_indirect {e : Nat} (he : it.indirect = some e) (hd : ndirect ≤ bi)
    (hbi : bi < maxsize / blocksize) :
    checkedDptr m it bi = .ok (getLE m (entryAddr e (biDirectIndex bi)) 4) := by
  unfold checkedDptr
  rw [if_pos hd, he]
  change (checkedDirectIndex bi).bind (pointer m e) = _
  rw [checkedDirectIndex, if_pos hbi]
  exact if_pos (biDirectIndex_lt hd)

theorem checkedIptr_eq
    (h2 : ndirect + nindirect ≤ bi → it.indirect2 = some (rootVal m it.ino) ∧ rootVal m it.ino ≠ 0)
    (hd : ndirect ≤ bi) (hbi : bi < maxsize / blocksize) :
    checkedIptr m it bi = .ok (indVal m it.ino (iclass bi)) := by
  unfold checkedIptr indVal
  by_cases hdouble : ndirect + nindirect ≤ bi
  · obtain ⟨hroot, hne⟩ := h2 hdouble
    have hclass := iclass_double hdouble
    rw [if_pos (by omega), if_neg (by omega), if_neg hne, hroot]
    have hlt : iclass bi - 2 < nindirect := by
      rw [hclass, Nat.add_sub_cancel]
      exact biIndirectIndex_lt hbi
    exact if_pos hlt
  · rw [iclass_single hd (by omega), if_neg (by decide), if_pos (Nat.le_refl 1)]

theorem checkedFindIndirect_eq
    (h2 : ndirect + nindirect ≤ bi → it.indirect2 = some (rootVal m it.ino) ∧ rootVal m it.ino ≠ 0)
    (h : ∀ e, it.indirect = some e → e = indVal m it.ino (iclass bi) ∧ e ≠ 0)
    (hbi : bi < maxsize / blocksize) : checkedFindIndirect m it bi = .ok (dataVal m it.ino bi) := by
  unfold checkedFindIndirect dataVal
  by_cases hd : ndirect ≤ bi
  · rw [if_neg (Nat.not_lt.mpr hd)]
    cases hi : it.indirect with
    | none =>
      rw [if_pos ⟨hd, rfl⟩, checkedIptr_eq h2 hd hbi]
      change (if indVal m it.ino (iclass bi) = 0 then _ else _) = _
      split
      · rfl
      · exact checkedDptr_indirect rfl hd hbi
    | some e =>
      obtain ⟨he, hne⟩ := h e hi
      rw [if_neg (fun hc => Option.some_ne_none _ hc.2), checkedDptr_indirect hi hd hbi, ← he,
        if_neg hne]
  · rw [if_neg (fun hc => hd hc.1), if_pos (Nat.not_le.mp hd), checkedDptr, if_neg hd]
    exact if_pos (Nat.not_le.mp hd)

end Checked

section Iterator
variable {m : Mem} {ino off bi : Nat} {it : FileIter}

/-- The cut to 32 bits does not matter for the block indices of a file. -/
theorem FileIter.Inv.bi_mod (h : it.Inv m) : it.off / blocksize % 2 ^ 32 = it.off / blocksize := by
  have hlt := h.lt
  rw [nmax_eq] at hlt
  exact Nat.mod_eq_of_lt (by omega)

theorem keptIndirect_inv (h : it.Inv m) {e : Nat} (he : keptIndirect it bi = some e) :
    e = indVal m it.ino (iclass bi) ∧ e ≠ 0 := by
  unfold keptIndirect at he
  rw [h.bi_mod] at he
  split at he
  · cases he
  · rename_i hc
    rw [Decidable.not_not.mp hc]
    exact h.indirect e he

theorem loadedIndirect2_eq (h : it.Inv m) (hdouble : ndirect + nindirect ≤ bi) :
    loadedIndirect2 m it bi = entryOf (rootVal m it.ino) := by
  unfold loadedIndirect2
  cases hi : it.indirect2 with
  | none => exact if_pos ⟨hdouble, rfl⟩
  | some e =>
    obtain ⟨he, hne⟩ := h.indirect2 e hi
    change e = rootVal m it.ino at he
    rw [if_neg (fun hc => Option.some_ne_none _ hc.2), ← he, entryOf_some hne]

/-- **`find` below the maximum file size** indexes within bounds, and finds what the walk finds. -/
theorem checkedFind_eq (h : it.Inv m) (hoff : off < maxsize) :
    checkedFind m it off = .ok (walk m it.ino (off / blocksize)) := by
  have hbi := lt_max_of_lt_maxsize hoff
  unfold checkedFind
  rw [Nat.min_eq_left (Nat.le_of_lt hoff), walk_eq]
  dsimp only
  generalize off / blocksize = bi at hbi
  by_cases hdouble : ndirect + nindirect ≤ bi ∧ loadedIndirect2 m it bi = none
  · have hroot : rootVal m it.ino = 0 := by
      have hnone := hdouble.2
      rwa [loadedIndirect2_eq h hdouble.1, entryOf_eq_none] at hnone
    have hind : indVal m it.ino (iclass bi) = 0 := by
      rw [indVal, if_neg (by rw [iclass_double hdouble.1]; omega), if_pos hroot]
    rw [if_pos hdouble, dataVal, if_neg (by omega), if_pos hind]
  · rw [if_neg hdouble]
    refine checkedFindIndirect_eq (fun hd => ?_) (fun e he => keptIndirect_inv h he) hbi
    have hsome := fun hnone => hdouble ⟨hd, hnone⟩
    change loadedIndirect2 m it bi = _ ∧ _
    rw [loadedIndirect2_eq h hd] at hsome ⊢
    have hne := fun hz => hsome (entryOf_eq_none.mpr hz)
    exact ⟨entryOf_some hne, hne⟩

/-- **`find` from the maximum file size on** reads past the indirect2 block, if there is one. -/
theorem checkedFind_past (h : it.Inv m) (hoff : maxsize ≤ off) :
    checkedFind m it off = if rootVal m it.ino = 0 then .ok 0 else .error .index := by
  have hclass : iclass (maxsize / blocksize) = nindirect + 2 := by decide
  have hdouble : ndirect + nindirect ≤ maxsize / blocksize := by decide
  have hkept : keptIndirect it (maxsize / blocksize) = none := by
    unfold keptIndirect
    have hle := iclass_le h.lt
    rw [h.bi_mod, hclass]
    exact if_pos (by omega)
  unfold checkedFind
  dsimp only
  rw [Nat.min_eq_right hoff, hkept, loadedIndirect2_eq h hdouble]
  by_cases hroot : rootVal m it.ino = 0
  · rw [if_pos ⟨hdouble, entryOf_eq_none.mpr hroot⟩, if_pos hroot]
  · rw [if_neg (fun hc => hroot (entryOf_eq_none.mp hc.2)), if_neg hroot, entryOf_some hroot,
      checkedFindIndirect, if_pos ⟨by decide, rfl⟩]
    rfl

/-! ## Every offset -/

theorem Reported.of_lt {bn : Nat} (hoff : off < maxsize) : Reported off (.ok bn) :=
  ⟨bn, rfl, fun hmax => absurd hmax (Nat.not_le.mpr hoff)⟩

theorem reported_past {bn : Nat} (hoff : maxsize ≤ off) : Reported off (.ok bn) ↔ bn = 0 := by
  refine ⟨?_, fun hz => ⟨bn, rfl, fun _ => hz⟩⟩
  rintro ⟨bn', hbn, hz⟩
  cases hbn
  exact hz hoff

theorem not_reported {f : Fault} : ¬ Reported off (.error f) := by
  rintro ⟨bn, hbn, -⟩
  cases hbn

/-- `get_data_block` in a file without an indirect2 block, at any offset. -/
theorem checkedGetDataBlock_single (hoff : off % blocksize = 0) (hroot : rootVal m ino = 0) :
    checkedGetDataBlock m ino off = .ok (if off / blocksize % 2 ^ 32 < ndirect + nindirect
      then walk m ino (off / blocksize % 2 ^ 32) else 0) := by
  by_cases hsingle : off / blocksize % 2 ^ 32 < ndirect + nindirect
  · have hbi : off / blocksize % 2 ^ 32 < maxsize / blocksize :=
      Nat.lt_of_lt_of_le hsingle (by decide)
    rw [if_pos hsingle, checkedGetDataBlock_eq hoff hbi]
  · unfold checkedGetDataBlock
    dsimp only
    rw [if_neg (not_not.mpr hoff), if_neg hsingle, if_pos (Nat.not_lt.mp hsingle), if_pos hroot]

/-- **No offset makes the lookups index out of bounds, exactly if** it is below the maximum file
size, or the file has no indirect2 block and none where the index cut to 32 bits leads. -/
theorem lookups_iff {offs : List Nat} (hoffs : ∀ o ∈ offs, o < maxsize)
    (hit : view ((FileIter.mk' ino).finds offs) m = some (it, m)) (off : Nat) :
    Reported off (checkedFind m it off) ∧
      Reported off (checkedGetDataBlock m ino (off / blocksize * blocksize)) ↔
      off < maxsize ∨ rootVal m ino = 0 ∧
        (off / blocksize % 2 ^ 32 < ndirect + nindirect →
          walk m ino (off / blocksize % 2 ^ 32) = 0) := by
  obtain ⟨it', hfinds, hinv, hino⟩ := view_finds m offs (FileIter.Inv.start m ino) hoffs
  obtain rfl : it' = it := congrArg Prod.fst (Option.some.inj (hfinds.symm.trans hit))
  have hino : it'.ino = ino := hino
  have hblock : off / blocksize * blocksize % blocksize = 0 :=
    Nat.mul_mod_left (off / blocksize) blocksize
  by_cases hoff : off < maxsize
  · have hlt := lt_max_of_lt_maxsize hoff
    have hmod : off / blocksize % 2 ^ 32 = off / blocksize := by
      rw [nmax_eq] at hlt
      exact Nat.mod_eq_of_lt (by omega)
    rw [checkedFind_eq hinv hoff,
      checkedGetDataBlock_eq hblock (by rw [div_mul_div, hmod]; exact hlt)]
    exact ⟨fun _ => .inl hoff, fun _ => ⟨.of_lt hoff, .of_lt hoff⟩⟩
  · have hmax := Nat.not_lt.mp hoff
    rw [checkedFind_past hinv hmax, hino]
    by_cases hroot : rootVal m ino = 0
    · rw [if_pos hroot, checkedGetDataBlock_single hblock hroot, div_mul_div, reported_past hmax,
        reported_past hmax]
      constructor
      · rintro ⟨-, hz⟩
        exact .inr ⟨hroot, fun hsingle => by rwa [if_pos hsingle] at hz⟩
      · intro h
        refine ⟨rfl, ?_⟩
        split
        · exact (h.resolve_left hoff).2 ‹_›
        · rfl
    · rw [if_neg hroot]
      exact ⟨fun h => absurd h.1 not_reported, fun h => absurd (h.resolve_left hoff).1 hroot⟩

/-- After a lookup in the middle of a file of one block, one at the end of what a file can have. -/
theorem lookups_short : ∃ it, Reported maxsize (checkedFind shortFile it maxsize) ∧
    Reported maxsize (checkedGetDataBlock shortFile 0x4040 (maxsize / blocksize * blocksize)) := by
  have hoffs : ∀ o ∈ [50], o < maxsize := by decide
  obtain ⟨it, hfinds, -⟩ := view_finds shortFile [50] (FileIter.Inv.start shortFile 0x4040) hoffs
  refine ⟨it, (lookups_iff hoffs hfinds maxsize).mpr (.inr ⟨by decide +kernel, fun h => ?_⟩)⟩
  exact absurd h (by decide)

/-- A file with an indirect2 block, whose inode is in block 4. -/
def longFile : Mem := image [(sizeAddr 0x4040, 4, 5000000), (indirect2Addr 0x4040, 4, 9)]

/-- At the maximum file size `find` indexes past the indirect2 block and `get_data_block` fails its
assertion; at 2^44 `get_data_block` finds the first block of the file. -/
theorem lookups_past : checkedFind longFile (FileIter.mk' 0x4040) maxsize = .error .index ∧
    checkedGetDataBlock longFile 0x4040 maxsize = .error .assertion ∧
    checkedGetDataBlock shortFile 0x4040 (2 ^ 44) = .ok 7 := by decide +kernel

end Iterator
end PugOS.ChkFS
