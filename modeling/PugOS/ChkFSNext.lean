import PugOS.ChkFSRead

/-! # Moving on to the next block that is there

`chkfs_fileiter::next` looks at one block index after another, and leaves out whole classes that
have no pointer block.  What is still to come after an offset is a list (`blocksFrom`).  A round of
the loop takes absent blocks from its front only, and a call takes one block (`next_spec`).

Past the last class `find` reads the number behind the indirect2 block, which is taken to be 0 here.
-/
namespace PugOS.ChkFS
open Bytes BlockProg FileIter
open Journal (blocksize)

variable {m : Mem} {ino off bi bj : Nat}

namespace FileIter

/-- Load the indirect block if necessary, and if the index is one of the indirect2 block. -/
def loadIndirectWithin (it : FileIter) (bi : Nat) : Prog FileIter :=
  if iclass bi ≤ nindirect + 1 then it.loadIndirect bi else return it

/-- `find(off)`, with 0 for the number behind the indirect2 block. -/
def findWithin (it : FileIter) (off : Nat) : Prog FileIter := do
  let bi := min off maxsize / blocksize
  let it ← clearIndirect it bi
  let it ← loadIndirect2 { it with off := off, dptr := none } bi
  if ndirect + nindirect ≤ bi ∧ it.indirect2 = none then return it
  let it ← loadIndirectWithin it bi
  if ndirect ≤ bi ∧ it.indirect = none then return it
  assert (bi < ndirect ∨ bi < maxsize / blocksize)
  return { it with dptr := it.getDptr bi }

/-- `maxdirectsize`. -/
def maxdirectsize : Nat := ndirect * blocksize

/-- The loop of `next`. -/
def nextLoop : (fuel : Nat) → FileIter → Prog FileIter
  | 0, _ => .fail
  | fuel + 1, it => do
    let it ← if it.off < maxsize then it.findWithin ((it.off + 1 + (blocksize - 1)) / blocksize *
        blocksize) else pure it
    let bn ← it.blocknum
    if bn ≠ 0 ∨ ¬ it.off < maxsize then return it
    let biclass := iclass (it.off / blocksize)
    if biclass > 1 ∧ it.indirect2 = none then nextLoop fuel { it with off := maxsize - 1 }
    else if biclass > 0 ∧ it.indirect = none then
      nextLoop fuel { it with off := biclass * nindirect * blocksize + maxdirectsize - 1 }
    else nextLoop fuel it

/-- `next()`, given up after more rounds than a file has blocks. -/
def next (it : FileIter) : Prog FileIter := it.nextLoop (maxsize / blocksize + 2)

/-- `next` again and again while the iterator is `active()`: the offsets it stops at, and where it
is in the end. -/
def visit : (fuel : Nat) → FileIter → Prog (List Nat × FileIter)
  | 0, _ => .fail
  | fuel + 1, it => do
    let it ← it.next
    if it.off < maxsize then
      let (l, end_) ← visit fuel it
      return (it.off :: l, end_)
    else return ([], it)

end FileIter

/-- The blocks that are there, from block index `bi` on. -/
def blocksFrom (m : Mem) (ino bi : Nat) : List Nat :=
  (List.range' bi (maxsize / blocksize - bi)).filter fun bj => walk m ino bj ≠ 0

theorem blocksFrom_end (h : maxsize / blocksize ≤ bi) : blocksFrom m ino bi = [] := by
  unfold blocksFrom
  rw [Nat.sub_eq_zero_of_le h]
  rfl

theorem blocksFrom_cons (h : bi < maxsize / blocksize) : blocksFrom m ino bi =
    if walk m ino bi ≠ 0 then bi :: blocksFrom m ino (bi + 1) else blocksFrom m ino (bi + 1) := by
  unfold blocksFrom
  obtain ⟨n, hn⟩ : ∃ n, maxsize / blocksize - bi = n + 1 := Nat.exists_eq_succ_of_ne_zero (by omega)
  have hn' : maxsize / blocksize - (bi + 1) = n := by omega
  rw [hn, hn', List.range'_succ, List.filter_cons]
  simp only [decide_eq_true_eq]

/-- Absent blocks are left out. -/
theorem blocksFrom_skip (hle : bi ≤ bj) (hmax : bj ≤ maxsize / blocksize)
    (h : ∀ b, bi ≤ b → b < bj → walk m ino b = 0) : blocksFrom m ino bi = blocksFrom m ino bj := by
  induction bj, hle using Nat.le_induction with
  | base => rfl
  | succ bj hle ih =>
    have hz := h bj hle (Nat.lt_succ_self bj)
    rw [ih (Nat.le_of_succ_le hmax) fun b hb hb' => h b hb (Nat.lt_succ_of_lt hb'),
      blocksFrom_cons hmax, if_neg (not_not.mpr hz)]

theorem mem_blocksFrom {b : Nat} : b ∈ blocksFrom m ino bi ↔ bi ≤ b ∧ b < maxsize / blocksize ∧
    walk m ino b ≠ 0 := by
  unfold blocksFrom
  rw [List.mem_filter, List.mem_range'_1, decide_eq_true_iff]
  constructor
  · rintro ⟨⟨hle, hlt⟩, hne⟩
    exact ⟨hle, by omega, hne⟩
  · rintro ⟨hle, hlt, hne⟩
    exact ⟨⟨hle, by omega⟩, hne⟩

theorem blocksFrom_sorted : (blocksFrom m ino bi).Pairwise (· < ·) :=
  List.Pairwise.filter _ List.pairwise_lt_range'

/-! ## A round of the loop -/

section Round
variable {it : FileIter}

/-- Below the maximum file size the index is within the indirect2 block. -/
theorem findWithin_eq (it : FileIter) (hoff : off < maxsize) : it.findWithin off = it.find off := by
  have hmin : min off maxsize = off := Nat.min_eq_left (Nat.le_of_lt hoff)
  have hle := iclass_le (lt_max_of_lt_maxsize hoff)
  have hload : ∀ it : FileIter, it.loadIndirectWithin (off / blocksize) = it.loadIndirect
      (off / blocksize) :=
    fun _ => if_pos hle
  unfold findWithin find
  rw [hmin]
  simp only [hload]

theorem view_clearIndirect_end (h : it.Inv m) :
    view (it.clearIndirect (maxsize / blocksize)) m = some ({ it with indirect := none }, m) := by
  obtain ⟨ino, off, dptr, indirect2, indirect⟩ := it
  unfold clearIndirect
  cases indirect with
  | none => rfl
  | some e =>
    have hle : iclass (off / blocksize) ≤ nindirect + 1 := iclass_le h.lt
    have hclass : iclass (maxsize / blocksize) = nindirect + 2 := by decide
    dsimp only
    rw [if_pos (by omega), view_bind, view_putEntry]
    rfl

/-- **`find` from the maximum file size on** is at no block. -/
theorem view_findWithin_end (h : it.Inv m) (hoff : maxsize ≤ off) :
    ∃ it', view (it.findWithin off) m = some (it', m) ∧
    it'.ino = it.ino ∧ it'.off = off ∧ it'.dptr = none := by
  have hdouble : ndirect + nindirect ≤ maxsize / blocksize := by decide
  have hpast : ¬ iclass (maxsize / blocksize) ≤ nindirect + 1 := by decide
  have hind : ndirect ≤ maxsize / blocksize := by decide
  unfold findWithin
  rw [Nat.min_eq_right hoff]
  simp only [view_bind, view_clearIndirect_end h, Option.bind_some]
  rw [@view_loadIndirect2 m { it with off := off, dptr := none, indirect := none } h.indirect2,
    if_pos hdouble, Option.bind_some]
  dsimp only
  refine ⟨⟨it.ino, off, none, entryOf (val m it.ino .root), none⟩, ?_, rfl, rfl, rfl⟩
  split
  · rfl
  · unfold loadIndirectWithin
    rw [if_neg hpast, view_bind]
    change view (if ndirect ≤ maxsize / blocksize ∧ (none : Option Nat) = none then _ else _) m = _
    rw [if_pos ⟨hind, rfl⟩]
    rfl

theorem view_blocknum_none (m : Mem) (h : it.dptr = none) : view it.blocknum m = some (0, m) := by
  unfold blocknum
  rw [h]
  rfl

theorem next_offset (off : Nat) : (off + 1 + (blocksize - 1)) / blocksize * blocksize =
    (off / blocksize + 1) * blocksize := by
  unfold blocksize
  omega

theorem iclass_pos_iff : iclass bi > 0 ↔ ndirect ≤ bi := by
  unfold iclass ndirect nindirect
  omega

theorem iclass_double_iff : iclass bi > 1 ↔ ndirect + nindirect ≤ bi := by
  unfold iclass ndirect nindirect
  omega

/-- Without an indirect block there are no blocks of its class. -/
theorem walk_ind (hind : val m ino (.ind (iclass bi)) = 0) (hd : ndirect ≤ bi) :
    walk m ino bi = 0 := by
  rw [walk_eq, dataVal, if_neg (by omega)]
  exact if_pos hind

/-- Without an indirect2 block there are no indirect blocks of the later classes. -/
theorem ind_root (hroot : val m ino .root = 0) (hd : ndirect + nindirect ≤ bi) :
    val m ino (.ind (iclass bi)) = 0 := by
  change indVal m ino (iclass bi) = 0
  rw [indVal, if_neg (by rw [iclass_double hd]; omega)]
  exact if_pos hroot

/-- The last block index before the next class. -/
theorem class_end (hd : ndirect ≤ bi) (hbi : bi < maxsize / blocksize) :
    (iclass bi * nindirect * blocksize + maxdirectsize - 1) / blocksize + 1 = iclass bi *
      nindirect + ndirect ∧ bi < iclass bi * nindirect + ndirect ∧
      iclass bi * nindirect + ndirect ≤ maxsize / blocksize ∧
      ∀ b, bi ≤ b → b < iclass bi * nindirect + ndirect → iclass b = iclass bi := by
  rw [nmax_eq] at *
  unfold maxdirectsize iclass ndirect nindirect blocksize at *
  refine ⟨by omega, by omega, by omega, fun b hb hb' => by omega⟩

end Round

/-! ## `next` -/

section Next
variable {it : FileIter}

/-- Where `next` has gone: to the first block still to come, or to the end. -/
def Moved (m : Mem) (ino bi : Nat) (it' : FileIter) : Prop :=
  (∃ bj < maxsize / blocksize, it'.off = bj * blocksize ∧ it'.Inv m ∧
      blocksFrom m ino bi = bj :: blocksFrom m ino (bj + 1)) ∨
    it'.off = maxsize ∧ blocksFrom m ino bi = []

/-- **The loop ends at the first block still to come.** -/
theorem nextLoop_spec : ∀ {fuel : Nat} {it : FileIter}, it.Inv m → it.ino = ino →
    maxsize / blocksize - it.off / blocksize ≤ fuel →
    ∃ it', view (it.nextLoop fuel) m = some (it', m) ∧ it'.ino = ino ∧
    Moved m ino (it.off / blocksize + 1) it' := by
  intro fuel
  induction fuel with
  | zero =>
    intro it h _ hfuel
    exact absurd (Nat.sub_eq_zero_iff_le.mp (Nat.le_zero.mp hfuel)) (Nat.not_le.mpr h.lt)
  | succ fuel ih =>
    intro it h hino hfuel
    have hlt := h.lt
    unfold nextLoop
    rw [if_pos (lt_maxsize hlt), next_offset]
    generalize hbi : it.off / blocksize + 1 = bi
    rcases Nat.lt_or_eq_of_le (show bi ≤ maxsize / blocksize by omega) with hmax | hmax
    · have hoff : bi * blocksize < maxsize := lt_maxsize (by rwa [Nat.mul_div_cancel _ (by decide)])
      obtain ⟨it₁, hfind, hat, hbn⟩ :=
        @view_find_blocknum _ (bi * blocksize) _ h (by rwa [Nat.mul_div_cancel _ (by decide)])
      have hdiv : bi * blocksize / blocksize = bi := Nat.mul_div_cancel bi (by decide)
      rw [hdiv, hino, ← walk_eq] at hbn
      rw [findWithin_eq it hoff]
      have hat₁ : it₁.At m ino (bi * blocksize) := hino ▸ hat
      have hoff₁ := hat₁.offset
      simp only [view_bind, hfind, hbn, Option.bind_some, hoff₁, hdiv]
      by_cases hpresent : walk m ino bi = 0
      · rw [if_neg (by rintro (hne | hnot); exacts [hne hpresent, hnot hoff])]
        simp only [iclass_double_iff, iclass_pos_iff]
        have hind₁ := hat₁.indirect
        have hroot₁ := hat₁.indirect2
        rw [hdiv] at hind₁ hroot₁
        by_cases hnoroot : ndirect + nindirect ≤ bi ∧ it₁.indirect2 = none
        · -- all the classes that are left
          rw [if_pos hnoroot]
          have hroot : val m ino .root = 0 := by
            have := hroot₁ hnoroot.1
            rwa [hnoroot.2, eq_comm, entryOf_eq_none] at this
          have hnone : it₁.indirect = none := by
            rw [hind₁ (by omega), ind_root hroot hnoroot.1, entryOf_zero]
          have hlast : (maxsize - 1) / blocksize + 1 = maxsize / blocksize := by decide
          obtain ⟨it', hrun, hino', hmoved⟩ := @ih { it₁ with off := maxsize - 1 }
            ⟨show (maxsize - 1) / blocksize < maxsize / blocksize by decide, hat₁.inv.indirect2,
              fun e he => by rw [hnone] at he; cases he⟩ hat₁.inode
            (show maxsize / blocksize - (maxsize - 1) / blocksize ≤ fuel by omega)
          refine ⟨it', hrun, hino', ?_⟩
          change Moved m ino ((maxsize - 1) / blocksize + 1) it' at hmoved
          rw [hlast] at hmoved
          unfold Moved
          rw [blocksFrom_skip (Nat.le_of_lt hmax) (Nat.le_refl _) fun b hb _ => walk_ind
            (ind_root hroot (Nat.le_trans hnoroot.1 hb)) (by omega)]
          exact hmoved
        · rw [if_neg hnoroot]
          by_cases hnoind : ndirect ≤ bi ∧ it₁.indirect = none
          · -- the rest of the class
            rw [if_pos hnoind]
            have hclass : val m ino (.ind (iclass bi)) = 0 := by
              have := hind₁ hnoind.1
              rwa [hnoind.2, eq_comm, entryOf_eq_none] at this
            obtain ⟨hlast, hmore, hle, hsame⟩ := class_end hnoind.1 hmax
            obtain ⟨it', hrun, hino', hmoved⟩ := @ih
              { it₁ with off := iclass bi * nindirect * blocksize + maxdirectsize - 1 }
              ⟨show (iclass bi * nindirect * blocksize + maxdirectsize - 1) / blocksize < maxsize /
                blocksize by omega, hat₁.inv.indirect2, fun e he =>
                by rw [hnoind.2] at he; cases he⟩ hat₁.inode
              (show maxsize / blocksize - (iclass bi * nindirect * blocksize + maxdirectsize - 1) /
                blocksize ≤ fuel by omega)
            refine ⟨it', hrun, hino', ?_⟩
            change Moved m ino ((iclass bi * nindirect * blocksize + maxdirectsize - 1) /
              blocksize + 1) it' at hmoved
            rw [hlast] at hmoved
            unfold Moved
            rw [blocksFrom_skip (Nat.le_of_lt hmore) hle fun b hb hb' =>
              walk_ind (by rw [hsame b hb hb']; exact hclass) (Nat.le_trans hnoind.1 hb)]
            exact hmoved
          · -- the next block of the class
            rw [if_neg hnoind]
            obtain ⟨it', hrun, hino', hmoved⟩ := ih hat₁.inv hat₁.inode (by rw [hoff₁, hdiv]; omega)
            refine ⟨it', hrun, hino', ?_⟩
            rw [hoff₁, hdiv] at hmoved
            unfold Moved
            rw [blocksFrom_cons hmax, if_neg (not_not.mpr hpresent)]
            exact hmoved
      · rw [if_pos (.inl hpresent)]
        refine ⟨it₁, rfl, hat₁.inode, .inl ⟨bi, hmax, hoff₁, hat₁.inv, ?_⟩⟩
        rw [blocksFrom_cons hmax, if_pos hpresent]
    · -- there are no blocks left
      have hend : bi * blocksize = maxsize := by
        rw [hmax]
        decide
      obtain ⟨it₁, hfind, hino₁, hoff₁, hdptr⟩ := view_findWithin_end h (Nat.le_refl maxsize)
      have hbn := view_blocknum_none m hdptr
      rw [hend]
      simp only [view_bind, hfind, hbn, Option.bind_some]
      rw [if_pos (.inr (by rw [hoff₁]; exact Nat.lt_irrefl _))]
      exact ⟨it₁, rfl, hino₁.trans hino, .inr ⟨hoff₁, blocksFrom_end (Nat.le_of_eq hmax.symm)⟩⟩

/-- **`next` takes one block.** -/
theorem next_spec (h : it.Inv m) (hino : it.ino = ino) :
    ∃ it', view it.next m = some (it', m) ∧ it'.ino = ino ∧
      Moved m ino (it.off / blocksize + 1) it' :=
  nextLoop_spec h hino (Nat.le_trans (Nat.sub_le _ _) (Nat.le_add_right _ 2))

/-- **All calls of `next` together** take all blocks. -/
theorem visit_spec : ∀ {fuel : Nat} {it : FileIter}, it.Inv m → it.ino = ino →
    maxsize / blocksize - it.off / blocksize < fuel + 1 → ∃ it', view (it.visit (fuel + 1)) m =
      some (((blocksFrom m ino (it.off / blocksize + 1)).map (· * blocksize), it'), m) ∧
      it'.off = maxsize := by
  intro fuel
  induction fuel with
  | zero =>
    intro it h _ hfuel
    exact absurd (Nat.sub_pos_of_lt h.lt) (Nat.not_lt.mpr (Nat.le_of_lt_succ hfuel))
  | succ fuel ih =>
    intro it h hino hfuel
    have hlt := h.lt
    obtain ⟨it₁, hnext, hino₁, hmoved⟩ := next_spec h hino
    unfold visit
    simp only [view_bind, hnext, Option.bind_some]
    rcases hmoved with ⟨bj, hbj, hoff, hinv, hcons⟩ | ⟨hoff, hnil⟩
    · have hdiv : bj * blocksize / blocksize = bj := Nat.mul_div_cancel bj (by decide)
      have hlt' : it₁.off < maxsize := by
        rw [hoff]
        exact lt_maxsize (by rwa [hdiv])
      have hmem : bj ∈ blocksFrom m ino (it.off / blocksize + 1) := hcons ▸ List.mem_cons_self
      have hle := (mem_blocksFrom.mp hmem).1
      obtain ⟨it', hrun, hoff'⟩ := ih hinv hino₁ (by rw [hoff, hdiv]; omega)
      refine ⟨it', ?_, hoff'⟩
      rw [hoff, hdiv] at hrun
      rw [if_pos hlt']
      simp only [view_bind, hrun, Option.bind_some, view_pure]
      rw [hcons, hoff]
      rfl
    · rw [if_neg (by rw [hoff]; exact Nat.lt_irrefl _), hnil]
      exact ⟨it₁, rfl, hoff⟩

/-- From the maximum file size on `next` goes nowhere. -/
theorem visit_end (hoff : maxsize ≤ it.off) (hdptr : it.dptr = none) (fuel : Nat) :
    view (it.visit (fuel + 1)) m = some (([], it), m) := by
  have hnot : ¬ it.off < maxsize := Nat.not_lt.mpr hoff
  have hnext : view it.next m = some (it, m) := by
    unfold next nextLoop
    rw [if_neg hnot]
    simp only [view_bind, view_pure, view_blocknum_none m hdptr, Option.bind_some]
    rw [if_pos (.inr hnot)]
    rfl
  unfold visit
  simp only [view_bind, hnext, Option.bind_some]
  rw [if_neg hnot]
  rfl

/-- **`next` enumerates the blocks that are there**, in the order of their offsets, and ends at the
maximum file size, or where it has started if that is further. -/
theorem next_enumerates {it₀ : FileIter} (h : it₀.Inv m)
    (hfind : view (it₀.findWithin off) m = some (it, m)) :
    ∃ l it', view (it.visit (maxsize / blocksize + 1)) m = some ((l, it'), m) ∧
      it'.off = max off maxsize ∧ l.Pairwise (· < ·) ∧
      ∀ o, o ∈ l ↔ o % blocksize = 0 ∧ off < o ∧ o < maxsize ∧
      walk m it₀.ino (o / blocksize) ≠ 0 := by
  rcases Nat.lt_or_ge off maxsize with hoff | hoff
  · rw [findWithin_eq it₀ hoff] at hfind
    obtain ⟨it₁, hfind₁, hat⟩ := view_find h (lt_max_of_lt_maxsize hoff)
    obtain rfl : it₁ = it := congrArg Prod.fst (Option.some.inj (hfind₁.symm.trans hfind))
    obtain ⟨it', hrun, hend⟩ := @visit_spec _ _ (maxsize / blocksize) _ hat.inv hat.inode
      (Nat.lt_succ_of_le (Nat.sub_le _ _))
    rw [hat.offset] at hrun
    refine ⟨_, it', hrun, hend.trans (Nat.max_eq_right (Nat.le_of_lt hoff)).symm, ?_, fun o => ?_⟩
    · exact blocksFrom_sorted.map _ fun a b hab => Nat.mul_lt_mul_of_pos_right hab (by decide)
    · rw [List.mem_map]
      constructor
      · rintro ⟨b, hb, rfl⟩
        obtain ⟨hle, hlt, hne⟩ := mem_blocksFrom.mp hb
        have hdiv : b * blocksize / blocksize = b := Nat.mul_div_cancel b (by decide)
        rw [hdiv]
        refine ⟨Nat.mul_mod_left b blocksize, ?_, lt_maxsize (by rwa [hdiv]), hne⟩
        unfold blocksize at *
        omega
      · rintro ⟨hmod, hlt, hmax, hne⟩
        refine ⟨o / blocksize, mem_blocksFrom.mpr ⟨?_, lt_max_of_lt_maxsize hmax, hne⟩,
          Nat.div_mul_cancel (Nat.dvd_of_mod_eq_zero hmod)⟩
        unfold blocksize at *
        omega
  · obtain ⟨it₁, hfind₁, -, hoff₁, hdptr⟩ := view_findWithin_end h hoff
    obtain rfl : it₁ = it := congrArg Prod.fst (Option.some.inj (hfind₁.symm.trans hfind))
    refine ⟨[], it₁, visit_end (hoff₁ ▸ hoff) hdptr _, hoff₁.trans (Nat.max_eq_left hoff).symm,
      List.Pairwise.nil, fun o => ?_⟩
    refine iff_of_false List.not_mem_nil fun ho => ?_
    exact absurd (Nat.lt_trans ho.2.1 ho.2.2.1) (Nat.not_lt.mpr hoff)

/-- The blocks of a file that has one of the indirect2 block only. -/
theorem next_enumerates_hole : ∃ it l it', view ((FileIter.mk' 0x4040).findWithin 100) holeFile =
    some (it, holeFile) ∧ view (it.visit (maxsize / blocksize + 1)) holeFile =
    some ((l, it'), holeFile) ∧ it'.off = max 100 maxsize ∧ l.Pairwise (· < ·) ∧
    ∀ o, o ∈ l ↔ o % blocksize = 0 ∧ 100 < o ∧ o < maxsize ∧
    walk holeFile 0x4040 (o / blocksize) ≠ 0 := by
  have hinv := FileIter.Inv.start holeFile 0x4040
  obtain ⟨it, hfind, -⟩ := @view_find _ _ hinv 100 (by decide)
  rw [← findWithin_eq _ (by decide)] at hfind
  obtain ⟨l, it', h⟩ := next_enumerates hinv hfind
  exact ⟨it, l, it', hfind, h⟩

/-- From behind the maximum file size the iterator does not get there. -/
theorem next_stays_behind : ¬ ∀ (m : Mem) (it₀ it : FileIter) (off : Nat), it₀.Inv m →
    view (it₀.findWithin off) m = some (it, m) →
    ∃ l it', view (it.visit (maxsize / blocksize + 1)) m = some ((l, it'), m) ∧
    it'.off = maxsize := by
  intro h
  have hinv := FileIter.Inv.start shortFile 0x4040
  obtain ⟨it, hfind, -, hoff, hdptr⟩ := view_findWithin_end hinv (Nat.le_succ maxsize)
  obtain ⟨l, it', hrun, hend⟩ := h shortFile _ it _ hinv hfind
  rw [visit_end (hoff ▸ Nat.le_succ maxsize) hdptr] at hrun
  obtain rfl : it = it' := congrArg (fun r => r.1.2) (Option.some.inj hrun)
  rw [hoff] at hend
  exact absurd hend (Nat.succ_ne_self maxsize)

end Next

end PugOS.ChkFS
