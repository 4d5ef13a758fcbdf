import PugOS.ChkFSFrame
import PugOS.ChkFSIndex
import PugOS.LoadFail

/-! # Loads that fail while a block is mapped

For `find` and `map` a pointer block that could not be loaded is one that is not there.  So `map`
puts a new, empty block in the place of one that `find` has failed to load (`map_missed`), and
nothing is lost where the loads of `find` are granted (`map_runs`).
-/
namespace PugOS.ChkFS
open Bytes Ring BlockProg
open Journal (blocksize SameBlock)
open FileIter (iclass)

variable {m m' m₁ : Mem} {ino off bn b : Nat} {cs cs' cs₁ : List Bool}

/-- No block that is there is replaced. -/
def Kept (ino : Nat) (m m' : Mem) : Prop :=
  ∀ s : Slot, s.Ok → val m ino s ≠ 0 → val m' ino s = val m ino s

theorem Kept.refl : Kept ino m m := fun _ _ _ => rfl

theorem Kept.trans {m'' : Mem} (h : Kept ino m m') (h' : Kept ino m' m'') : Kept ino m m'' := by
  intro s ok hne
  have hkept := h s ok hne
  rw [h' s ok (hkept.symm ▸ hne), hkept]

/-! ## `find` -/

/-- A pointer is followed, or its block cannot be loaded. -/
theorem exec_loadPtr {p : Nat} {e : Option Nat}
    (h : exec failing (loadPtr p) m cs = some (e, m₁, cs₁)) :
    m₁ = m ∧ ((granted (loadPtr p) m cs = true ∧ e = entryOf (getLE m p 4)) ∨
      (granted (loadPtr p) m cs = false ∧ e = none ∧ getLE m p 4 ≠ 0)) := by
  unfold loadPtr at h ⊢
  obtain ⟨v, m₂, cs₂, hpeek, h⟩ := exec_bind_some h
  rw [exec_peek] at hpeek
  obtain ⟨rfl, rfl, rfl⟩ : getLE m p 4 = v ∧ m = m₂ ∧ cs = cs₂ := by simpa using hpeek
  rw [granted_bind (exec_peek m cs p 4)]
  by_cases hz : getLE m p 4 = 0
  · rw [if_neg (not_not.mpr hz)] at h ⊢
    cases h
    rw [hz]
    exact ⟨rfl, .inl ⟨rfl, rfl⟩⟩
  · rw [if_pos hz] at h ⊢
    cases cs with
    | nil => cases h
    | cons c cs =>
      cases c with
      | false =>
        cases h
        exact ⟨rfl, .inr ⟨rfl, rfl, hz⟩⟩
      | true =>
        cases h
        exact ⟨rfl, .inl ⟨rfl, (entryOf_some hz).symm⟩⟩

/-- `find` has not found a pointer block that is there. -/
inductive Missing (m : Mem) (ino bi : Nat) (it : FileIter) : Prop
  | indirect2 (hd : ndirect + nindirect ≤ bi) (hnone : it.indirect2 = none)
      (hne : val m ino .root ≠ 0)
  | indirect (hd : ndirect ≤ bi) (hnone : it.indirect = none)
      (hne : val m ino (.ind (iclass bi)) ≠ 0)
      (hroot : ndirect + nindirect ≤ bi → it.indirect2 = some (val m ino .root) ∧
      val m ino .root ≠ 0)

/-- The iterator after such a `find`. -/
structure Missed (m : Mem) (ino off : Nat) (it : FileIter) : Prop where
  inv : it.Inv m
  inode : it.ino = ino
  offset : it.off = off
  dptr : it.dptr = none
  missing : Missing m ino (off / blocksize) it

theorem exec_clearIndirect {it it' : FileIter} (h : it.Inv m) (bi : Nat)
    (hrun : exec failing (it.clearIndirect bi) m cs = some (it', m₁, cs₁)) :
    m₁ = m ∧ cs₁ = cs ∧ granted (it.clearIndirect bi) m cs = true ∧
      ∃ x, it' = { it with indirect := x } ∧ ∀ e, x = some e → e = val m it.ino (.ind (iclass bi)) ∧
      e ≠ 0 := by
  obtain ⟨ino, o, dptr, indirect2, indirect⟩ := it
  unfold FileIter.clearIndirect at hrun ⊢
  cases indirect with
  | none =>
    cases hrun
    exact ⟨rfl, rfl, rfl, none, rfl, fun e he => by cases he⟩
  | some e =>
    dsimp only at hrun ⊢
    split at hrun
    · rename_i hc
      obtain ⟨u, m₂, cs₂, hput, hrest⟩ := exec_bind_some hrun
      cases hput
      cases hrest
      refine ⟨rfl, rfl, ?_, none, rfl, fun e he => by cases he⟩
      rw [if_pos hc]
      rfl
    · rename_i hc
      cases hrun
      rw [if_neg hc]
      refine ⟨rfl, rfl, rfl, some e, rfl, fun e' he' => ?_⟩
      rw [Decidable.not_not.mp hc]
      exact h.indirect e' he'

theorem exec_loadIndirect2 {it it' : FileIter} {bi : Nat}
    (hrun : exec failing (it.loadIndirect2 bi) m cs = some (it', m₁, cs₁)) : m₁ = m ∧
      ∃ y, it' = { it with indirect2 := y } ∧ ((granted (it.loadIndirect2 bi) m cs = true ∧
          y = if ndirect + nindirect ≤ bi ∧ it.indirect2 = none then entryOf (val m it.ino .root)
          else it.indirect2) ∨
        (granted (it.loadIndirect2 bi) m cs = false ∧ ndirect + nindirect ≤ bi ∧ y = none ∧
          val m it.ino .root ≠ 0)) := by
  unfold FileIter.loadIndirect2 at hrun ⊢
  by_cases hneed : ndirect + nindirect ≤ bi ∧ it.indirect2 = none
  · rw [if_pos hneed] at hrun ⊢
    obtain ⟨e, m₂, cs₂, hload, hrest⟩ := exec_bind_some hrun
    rw [granted_bind hload]
    obtain ⟨rfl, hcase⟩ := exec_loadPtr hload
    cases hrest
    refine ⟨rfl, e, rfl, ?_⟩
    rcases hcase with ⟨hg, he⟩ | ⟨hg, he, hne⟩
    · rw [hg, if_pos hneed]
      exact .inl ⟨rfl, he⟩
    · rw [hg]
      exact .inr ⟨rfl, hneed.1, he, hne⟩
  · rw [if_neg hneed] at hrun ⊢
    cases hrun
    rw [if_neg hneed]
    exact ⟨rfl, _, rfl, .inl ⟨rfl, rfl⟩⟩

theorem exec_loadIndirect {it it' : FileIter} {bi : Nat}
    (h2 : ndirect + nindirect ≤ bi → it.indirect2 = some (val m it.ino .root) ∧
      val m it.ino .root ≠ 0)
    (hrun : exec failing (it.loadIndirect bi) m cs = some (it', m₁, cs₁)) : m₁ = m ∧
      ∃ x, it' = { it with indirect := x } ∧ (granted (it.loadIndirect bi) m cs = true ∨
        (granted (it.loadIndirect bi) m cs = false ∧ ndirect ≤ bi ∧ x = none ∧
          val m it.ino (.ind (iclass bi)) ≠ 0)) := by
  unfold FileIter.loadIndirect at hrun ⊢
  by_cases hneed : ndirect ≤ bi ∧ it.indirect = none
  · rw [if_pos hneed] at hrun ⊢
    have hiptr : ∃ p, it.getIptr bi = some p ∧ getLE m p 4 = val m it.ino (.ind (iclass bi)) := by
      unfold FileIter.getIptr
      by_cases hdouble : ndirect + nindirect ≤ bi
      · obtain ⟨hsome, hne⟩ := h2 hdouble
        have hc : iclass bi > 1 := by
          rw [iclass_double hdouble]
          omega
        rw [if_pos hc, hsome]
        refine ⟨_, rfl, ?_⟩
        change _ = indVal m it.ino (iclass bi)
        rw [indVal, if_neg (by omega)]
        exact (if_neg hne).symm
      · rw [iclass_single hneed.1 (by omega)]
        exact ⟨_, rfl, rfl⟩
    obtain ⟨p, hp, hval⟩ := hiptr
    rw [hp] at hrun ⊢
    dsimp only at hrun ⊢
    obtain ⟨e, m₂, cs₂, hload, hrest⟩ := exec_bind_some hrun
    rw [granted_bind hload]
    obtain ⟨rfl, hcase⟩ := exec_loadPtr hload
    cases hrest
    refine ⟨rfl, e, rfl, ?_⟩
    rcases hcase with ⟨hg, -⟩ | ⟨hg, he, hne⟩
    · rw [hg]
      exact .inl rfl
    · rw [hg]
      exact .inr ⟨rfl, hneed.1, he, hval ▸ hne⟩
  · rw [if_neg hneed] at hrun ⊢
    cases hrun
    exact ⟨rfl, _, rfl, .inl rfl⟩

theorem granted_assert (c : Bool) (m : Mem) (cs : List Bool) : granted (assert c) m cs = true := by
  cases c <;> rfl

/-- **`find` with loads that may be refused.** -/
theorem exec_find {it it' : FileIter} (h : it.Inv m) (hmax : off / blocksize < maxsize / blocksize)
    (hrun : exec failing (it.find off) m cs = some (it', m₁, cs₁)) : m₁ = m ∧
      ((granted (it.find off) m cs = true ∧ view (it.find off) m = some (it', m)) ∨
        (granted (it.find off) m cs = false ∧ Missed m it.ino off it')) := by
  suffices hmain : m₁ = m ∧ (granted (it.find off) m cs = false → Missed m it.ino off it') by
    obtain ⟨rfl, hmiss⟩ := hmain
    refine ⟨rfl, ?_⟩
    cases hg : granted (it.find off) m₁ cs with
    | true => exact .inl ⟨rfl, view_of_granted hrun hg⟩
    | false => exact .inr ⟨rfl, hmiss hg⟩
  have hmin : min off maxsize = off := Nat.min_eq_left (Nat.le_of_lt (lt_maxsize hmax))
  unfold FileIter.find at hrun ⊢
  rw [hmin] at hrun ⊢
  generalize hbi : off / blocksize = bi at hrun hmax ⊢
  dsimp only at hrun ⊢
  obtain ⟨it₁, m₂, cs₂, hclear, hrun⟩ := exec_bind_some hrun
  rw [granted_bind hclear]
  obtain ⟨rfl, rfl, hg, x, rfl, hx⟩ := exec_clearIndirect h bi hclear
  rw [hg, Bool.true_and]
  dsimp only at hrun ⊢
  obtain ⟨it₂, m₃, cs₃, hload2, hrun⟩ := exec_bind_some hrun
  rw [granted_bind hload2]
  obtain ⟨rfl, y, rfl, hcase⟩ := exec_loadIndirect2 hload2
  dsimp only at hrun hcase ⊢
  rcases hcase with ⟨hg2, hy⟩ | ⟨hg2, hd, rfl, hne⟩
  · rw [hg2, Bool.true_and]
    have hinv2 : ∀ e, y = some e → e = val m₃ it.ino .root ∧ e ≠ 0 := by
      intro e he
      rw [he] at hy
      split at hy
      · have hne : val m₃ it.ino .root ≠ 0 := fun hz => by rw [hz, entryOf_zero] at hy; cases hy
        rw [entryOf_some hne] at hy
        cases hy
        exact ⟨rfl, hne⟩
      · exact h.indirect2 e hy.symm
    by_cases hnoroot : ndirect + nindirect ≤ bi ∧ y = none
    · rw [if_pos hnoroot] at hrun ⊢
      cases hrun
      exact ⟨rfl, fun hfalse => by cases hfalse⟩
    · rw [if_neg hnoroot] at hrun ⊢
      have h2 : ndirect + nindirect ≤ bi → y = some (val m₃ it.ino .root) ∧
          val m₃ it.ino .root ≠ 0 := by
        intro hd
        cases y with
        | none => exact absurd ⟨hd, rfl⟩ hnoroot
        | some e =>
          obtain ⟨rfl, hne⟩ := hinv2 e rfl
          exact ⟨rfl, hne⟩
      obtain ⟨it₃, m₄, cs₄, hload, hrun⟩ := exec_bind_some hrun
      rw [granted_bind hload]
      obtain ⟨rfl, z, rfl, hcase⟩ := exec_loadIndirect h2 hload
      dsimp only at hrun hcase ⊢
      rcases hcase with hgi | ⟨hgi, hd, rfl, hne⟩
      · rw [hgi, Bool.true_and]
        split at hrun
        · rename_i hnoind
          cases hrun
          rw [if_pos hnoind]
          exact ⟨rfl, fun hfalse => by cases hfalse⟩
        · rename_i hnoind
          rw [if_neg hnoind]
          obtain ⟨u, m₅, cs₅, hassert, hrun⟩ := exec_bind_some hrun
          rw [granted_bind hassert, granted_assert]
          obtain ⟨-, heq⟩ := exec_assert hassert
          cases heq
          cases hrun
          exact ⟨rfl, fun hfalse => by cases hfalse⟩
      · rw [if_pos ⟨hd, rfl⟩] at hrun
        cases hrun
        refine ⟨rfl, fun _ => ⟨⟨hbi.symm ▸ hmax, hinv2, fun e he => by cases he⟩, rfl, rfl,
          rfl, ?_⟩⟩
        rw [hbi]
        exact .indirect hd rfl hne h2
  · rw [if_pos ⟨hd, rfl⟩] at hrun
    cases hrun
    refine ⟨rfl, fun _ => ⟨⟨hbi.symm ▸ hmax, (fun e he => by cases he), ?_⟩, rfl, rfl, rfl, ?_⟩⟩
    · dsimp only
      rw [hbi]
      exact hx
    · rw [hbi]
      exact .indirect2 hd rfl hne

theorem quiet_loadPtr (p : Nat) : Quiet (loadPtr p) := by
  refine (Quiet.peek p 4).bind fun v => ?_
  split
  · exact Quiet.getEntry v
  · exact Quiet.pure none

theorem quiet_find (it : FileIter) (off : Nat) : Quiet (it.find off) := by
  unfold FileIter.find
  refine Quiet.bind ?_ fun it₁ => Quiet.bind ?_ fun it₂ => ?_
  · unfold FileIter.clearIndirect
    split
    · split
      · exact (Quiet.putEntry _).bind fun _ => Quiet.pure _
      · exact Quiet.pure _
    · exact Quiet.pure _
  · unfold FileIter.loadIndirect2
    split
    · exact (quiet_loadPtr _).bind fun _ => Quiet.pure _
    · exact Quiet.pure _
  · split
    · exact Quiet.pure _
    · refine Quiet.bind ?_ fun it₃ => ?_
      · unfold FileIter.loadIndirect
        split
        · split
          · trivial
          · exact (quiet_loadPtr _).bind fun _ => Quiet.pure _
        · exact Quiet.pure _
      · split
        · exact Quiet.pure _
        · exact (Quiet.assert _).bind fun _ => Quiet.pure _

/-- The iterator is at the offset, whatever has been loaded. -/
theorem exec_find_off {it it' : FileIter}
    (h : exec failing (it.find off) m cs = some (it', m₁, cs₁)) : it'.off = off := by
  unfold FileIter.find at h
  obtain ⟨it₁, m₂, cs₂, -, h₁⟩ := exec_bind_some h
  obtain ⟨it₂, m₃, cs₃, hload2, h₂⟩ := exec_bind_some h₁
  obtain ⟨-, y, rfl, -⟩ := exec_loadIndirect2 hload2
  split at h₂
  · cases h₂
    rfl
  · obtain ⟨it₃, m₄, cs₄, hload, h₃⟩ := exec_bind_some h₂
    have hoff : it₃.off = off := by
      unfold FileIter.loadIndirect at hload
      split at hload
      · split at hload
        · cases hload
        · obtain ⟨e, m₅, cs₅, -, hrest⟩ := exec_bind_some hload
          cases hrest
          rfl
      · cases hload
        rfl
    split at h₃
    · cases h₃
      exact hoff
    · obtain ⟨u, m₅, cs₅, -, hrest⟩ := exec_bind_some h₃
      cases hrest
      exact hoff

/-! ## Allocation -/

theorem exec_allocateFrom {fbb nblocks : Nat} (fuel bn : Nat) :
    exec failing (allocateFrom fbb nblocks fuel bn) m cs =
    (view (allocateFrom fbb nblocks fuel bn) m).map fun r => (r.1, r.2, cs) := by
  induction fuel generalizing bn with
  | zero => rfl
  | succ fuel ih =>
    unfold allocateFrom
    split
    · rw [exec_bind, exec_peek, view_bind, view_peek, Option.bind_some, Option.bind_some]
      dsimp only
      split
      · rw [exec_bind, exec_poke, view_bind, view_poke]
        rfl
      · exact ih (bn + 1)
    · rfl

/-- `allocate_block` does not go on without its two blocks. -/
inductive BlockRuns (m : Mem) (cs : List Bool) : Prop
  | stops (hcs : ¬ [true, true] <+: cs) (hexec : exec failing allocateBlock m cs = none)
    (hfinal : final allocateBlock m cs = m)
  | full {cs₁ : List Bool} (hcs : cs = true :: true :: cs₁) (hnone : ∀ b, isFree m b = false)
    (hexec : exec failing allocateBlock m cs = some (E_NOSPC, m, cs₁))
  | taken {cs₁ : List Bool} {b : Nat} (hcs : cs = true :: true :: cs₁) (hb : isFree m b = true)
    (hlow : ∀ c < b, isFree m c = false)
    (hexec : exec failing allocateBlock m cs = some (b, takeBlock m b, cs₁))

theorem exec_allocateBlock_granted (m : Mem) (cs : List Bool) :
    exec failing allocateBlock m (true :: true :: cs) =
    (view allocateBlock m).map fun r => (r.1, r.2, cs) := by
  unfold allocateBlock
  simp only [exec_bind, exec_getEntry, exec_peek, exec_sully, exec_putEntry, exec_allocateFrom,
    view_bind, view_getEntry, view_peek, view_sully, view_putEntry, view_pure, exec_pure,
    Option.bind_some, if_true]
  cases view (allocateFrom (getLE m fbbBnAddr 4) (getLE m nblocksAddr 4) bitsperblock 0) m <;> rfl

theorem allocateBlock_runs (m : Mem) (cs : List Bool) : BlockRuns m cs := by
  have hnot : ∀ c cs, ¬ (c = true ∧ [true] <+: cs) → ¬ [true, true] <+: (c :: cs) := by
    rintro c cs hc h
    obtain ⟨hc₁, h⟩ := List.cons_prefix_cons.mp h
    exact hc ⟨hc₁.symm, h⟩
  match cs with
  | [] => exact .stops (by simp) rfl rfl
  | false :: cs => exact .stops (hnot _ _ (by simp)) rfl rfl
  | [true] => exact .stops (by simp) rfl rfl
  | true :: false :: cs => exact .stops (hnot _ _ (by simp)) rfl rfl
  | true :: true :: cs =>
    have hexec := exec_allocateBlock_granted m cs
    rcases view_allocateBlock_cases m with ⟨hview, hnone⟩ | ⟨b, hb, hlow, hview⟩
    · rw [hview] at hexec
      exact .full rfl hnone hexec
    · rw [hview] at hexec
      exact .taken rfl hb hlow hexec

/-- There are `n` free blocks, and the next `loads` loads are granted. -/
def Allocates (n loads : Nat) (m : Mem) (cs : List Bool) : Prop :=
  n ≤ freeCount m ∧ List.replicate loads true <+: cs

theorem freeCount_pos (hb : isFree m b = true) : 0 < freeCount m := by
  unfold freeCount
  exact Finset.card_pos.mpr ⟨b, Finset.mem_filter.mpr ⟨Finset.mem_range.mpr (isFree_lt hb), hb⟩⟩

/-- A block has been taken at most. -/
def TakesBlock (m m' : Mem) : Prop := m' = m ∨ ∃ b, isFree m b = true ∧ m' = takeBlock m b

/-- A new pointer block is made, or the run does not go on with one. -/
inductive MetablockRuns (m : Mem) (cs : List Bool) : Prop
  | stops (hnot : ¬ Allocates 1 3 m cs)
      (hexec : ∀ {r m₁ cs₁}, exec failing FileIter.allocateMetablockEntry m cs = some (r, m₁, cs₁) →
      E_MINERROR ≤ r.1) (hfinal : TakesBlock m (final FileIter.allocateMetablockEntry m cs))
  | made {cs₁ : List Bool} {b : Nat} (hcs : cs = true :: true :: true :: cs₁)
      (hb : isFree m b = true)
    (hlow : ∀ c < b, isFree m c = false) (hlt : b < E_MINERROR)
    (hexec : exec failing FileIter.allocateMetablockEntry m cs =
      some ((b, some b), store (takeBlock m b) (b * blocksize) (List.replicate blocksize 0), cs₁))
    (hview : view FileIter.allocateMetablockEntry m =
      some ((b, some b), store (takeBlock m b) (b * blocksize) (List.replicate blocksize 0)))

theorem isFree_lt_error (hb : isFree m b = true) : b < E_MINERROR := by
  have := isFree_lt hb
  unfold E_MINERROR bitsperblock blocksize at *
  omega

theorem allocateMetablockEntry_runs (m : Mem) (cs : List Bool) : MetablockRuns m cs := by
  cases allocateBlock_runs m cs with
  | stops hcs hexec hfinal =>
    have hstop : exec failing FileIter.allocateMetablockEntry m cs = none := by
      unfold FileIter.allocateMetablockEntry
      rw [exec_bind, hexec, Option.bind_none]
    refine .stops (fun h => hcs ?_) (fun {r m₁ cs₁} h => by rw [hstop] at h; cases h) (.inl ?_)
    · exact (List.prefix_append [true, true] [true]).trans h.2
    · unfold FileIter.allocateMetablockEntry
      rw [final_bind_none hexec, hfinal]
  | full hcs hnone hexec =>
    have herror : E_NOSPC ≥ E_MINERROR := by decide
    refine .stops (fun h => ?_) (fun {r m₁ cs₁} h => ?_) (.inl ?_)
    · obtain ⟨b, hb⟩ := exists_free h.1
      rw [hnone b] at hb
      cases hb
    · unfold FileIter.allocateMetablockEntry at h
      rw [exec_bind, hexec, Option.bind_some, if_pos herror] at h
      cases h
      exact herror
    · unfold FileIter.allocateMetablockEntry
      rw [final_bind_some hexec, if_pos herror]
      rfl
  | @taken cs₁ b hcs hb hlow hexec =>
    have hlt := isFree_lt_error hb
    have hgo : ¬ b ≥ E_MINERROR := Nat.not_le.mpr hlt
    match cs₁ with
    | [] =>
      refine .stops (fun h => ?_) (fun {r m₁ cs₁} h => ?_) (.inr ⟨b, hb, ?_⟩)
      · have hp := h.2
        rw [hcs] at hp
        simp at hp
      · unfold FileIter.allocateMetablockEntry at h
        rw [exec_bind, hexec, Option.bind_some, if_neg hgo] at h
        cases h
      · unfold FileIter.allocateMetablockEntry
        rw [final_bind_some hexec, if_neg hgo]
        rfl
    | false :: cs₁ =>
      refine .stops (fun h => ?_) (fun {r m₁ cs₁} h => ?_) (.inr ⟨b, hb, ?_⟩)
      · have hp := h.2
        rw [hcs] at hp
        simp at hp
      · unfold FileIter.allocateMetablockEntry at h
        rw [exec_bind, hexec, Option.bind_some, if_neg hgo] at h
        cases h
        exact (by decide : E_MINERROR ≤ E_NOMEM)
      · unfold FileIter.allocateMetablockEntry
        rw [final_bind_some hexec, if_neg hgo]
        rfl
    | true :: cs₁ =>
      refine .made hcs hb hlow hlt ?_ ?_
      · unfold FileIter.allocateMetablockEntry
        rw [exec_bind, hexec, Option.bind_some, if_neg hgo]
        rfl
      · rcases view_allocateBlock_cases m with ⟨-, hnone⟩ | ⟨b', hb', hlow', hview⟩
        · rw [hnone b] at hb
          cases hb
        · have hsame : b' = b := by
            rcases Nat.lt_trichotomy b' b with hlt' | heq | hgt
            · rw [hlow b' hlt'] at hb'
              cases hb'
            · exact heq
            · rw [hlow' b hgt] at hb
              cases hb
          subst hsame
          simp [FileIter.allocateMetablockEntry, hview, Nat.not_le.mpr hlt]

/-! ## `map`, where `find` has found what is there -/

section Map
variable {it it' : FileIter}

theorem Sound.unused (hs : Sound m ino) (hb : isFree m b = true) {s : Slot} (ok : s.Ok) :
    val m ino s ≠ b := by
  intro heq
  have hne : val m ino s ≠ 0 := heq ▸ fun h => hs.free b hb (.inl h)
  have hused := (hs.used s ok hne).2
  rw [heq, hb] at hused
  cases hused

theorem Sound.allocApart (hs : Sound m ino) (n : Nat) : AllocApart n m ino (2 ^ 32) := by
  intro b hb _
  refine ⟨hs.free b hb, fun s ok => hs.unused hb ok, ?_⟩
  · have := isFree_lt hb
    unfold bitsperblock blocksize at this
    omega

theorem TakesBlock.val (hs : PtrTree m ino) (h : TakesBlock m m') {s : Slot} (ok : s.Ok) :
    val m' ino s = val m ino s := by
  rcases h with rfl | ⟨b, hb, rfl⟩
  · rfl
  · exact (takeBlock_confined hb).val hs.inode (Ne.symm hs.ino_ne_fbb)
      (fun p hp hptr hne h => hs.apart p hp hptr hne (.inr (.inl h))) ok

/-- The step ends `map` with an error, before any pointer is set. -/
structure Ends (m : Mem) (cs : List Bool) (p : Prog (Except Nat FileIter)) : Prop where
  error : ∀ {r m₁ cs₁}, exec failing p m cs = some (r, m₁, cs₁) → ∃ e, r = .error e ∧ e ≠ 0
  taken : TakesBlock m (final p m cs)

theorem Ends.of_alloc {q : Nat × Option Nat → Prog (Except Nat FileIter)}
    (hexec : ∀ {r m₁ cs₁}, exec failing FileIter.allocateMetablockEntry m cs = some (r, m₁, cs₁) →
      E_MINERROR ≤ r.1)
    (hfinal : TakesBlock m (final FileIter.allocateMetablockEntry m cs)) : Ends m cs
      (FileIter.allocateMetablockEntry >>= fun r => if r.1 ≥ E_MINERROR then pure (.error r.1)
        else q r) := by
  constructor
  · intro r m₁ cs₁ h
    obtain ⟨r', m₂, cs₂, halloc, h⟩ := exec_bind_some h
    have herror := hexec halloc
    rw [if_pos herror] at h
    cases h
    exact ⟨_, rfl, fun hz => absurd (hz ▸ herror) (by decide)⟩
  · cases halloc : exec failing FileIter.allocateMetablockEntry m cs with
    | none => rwa [final_bind_none halloc]
    | some r =>
      obtain ⟨r, m₁, cs₁⟩ := r
      rw [final_bind_some halloc, if_pos (hexec halloc)]
      rwa [final_of_exec halloc] at hfinal

/-- A step of `map`, and what follows unless it fails. -/
def andThen (p : Prog (Except Nat FileIter)) (it : FileIter)
    (q : FileIter → Prog (Nat × FileIter)) : Prog (Nat × FileIter) :=
  p >>= fun r => match r with
    | .error e => pure (e, it)
    | .ok it => q it

section AndThen
variable {p : Prog (Except Nat FileIter)} {q : FileIter → Prog (Nat × FileIter)}

theorem exec_andThen (h : exec failing p m cs = some (.ok it', m₁, cs₁)) :
    exec failing (andThen p it q) m cs = exec failing (q it') m₁ cs₁ := by
  rw [andThen, exec_bind, h]
  rfl

theorem final_andThen (h : exec failing p m cs = some (.ok it', m₁, cs₁)) :
    final (andThen p it q) m cs = final (q it') m₁ cs₁ := final_bind_some h

theorem Ends.final_andThen (h : Ends m cs p) : TakesBlock m (final (andThen p it q) m cs) := by
  have htaken := h.taken
  unfold andThen
  cases hexec : exec failing p m cs with
  | none => rwa [final_bind_none hexec]
  | some r =>
    obtain ⟨r, m₁, cs₁⟩ := r
    obtain ⟨e, rfl, -⟩ := h.error hexec
    rw [final_of_exec hexec] at htaken
    rwa [final_bind_some hexec]

theorem Ends.exec_andThen {r : Nat} (h : Ends m cs p)
    (hrun : exec failing (andThen p it q) m cs = some ((r, it'), m', cs')) : r ≠ 0 := by
  unfold andThen at hrun
  obtain ⟨r', m₁, cs₁, hexec, hrest⟩ := exec_bind_some hrun
  obtain ⟨e, rfl, hne⟩ := h.error hexec
  cases hrest
  exact hne

theorem map_eq (hoff : it.off = off) (hlt : off / blocksize < maxsize / blocksize)
    (hne : ¬ (bn = 0 ∧ it.dptr = none)) :
    it.map bn = andThen (it.mapIndirect2 (off / blocksize)) it fun it =>
      andThen (it.mapIndirect (off / blocksize)) it fun it =>
        it.mapData (off / blocksize) bn >>= fun it => pure (0, it) := by
  have hmod : off / blocksize % 2 ^ 32 = off / blocksize :=
    Nat.mod_eq_of_lt (Nat.lt_trans (nmax_eq ▸ hlt) (by decide))
  unfold FileIter.map
  rw [hoff, hmod]
  simp only [if_neg hne, Nat.not_le.mpr (lt_maxsize hlt), if_false]
  rfl

end AndThen

/-- The indirect2 block is there, is made, or ends `map`. -/
theorem exec_mapIndirect2_at (hs : PtrTree m ino)
    (ha : AllocApart (absent m ino (rootSlots (off / blocksize))).card m ino bn)
    (h : it.At m ino off) (cs : List Bool) :
    (Ends m cs (it.mapIndirect2 (off / blocksize)) ∧
    ∃ s ∈ rootSlots (off / blocksize), val m ino s = 0) ∨
      ∃ it' m₁ cs₁, exec failing (it.mapIndirect2 (off / blocksize)) m cs =
        some (.ok it', m₁, cs₁) ∧ it'.At m₁ ino off ∧
        Extended ino bn (rootSlots (off / blocksize)) m m₁ := by
  have hcases := mapIndirect2_cases hs ha h
  unfold FileIter.mapIndirect2 at hcases ⊢
  by_cases hneed : ndirect + nindirect ≤ off / blocksize ∧ it.indirect2 = none
  · simp only [if_pos hneed] at hcases ⊢
    cases allocateMetablockEntry_runs m cs with
    | stops hnot hexec hfinal =>
      refine .inl ⟨Ends.of_alloc hexec hfinal, .root, ?_, ?_⟩
      · rw [rootSlots, if_pos hneed.1]
        exact Finset.mem_singleton_self _
      · exact entryOf_eq_none.mp ((h.indirect2 hneed.1).symm.trans hneed.2)
    | @made cs₁ b hcs hb hlow hlt hexec hview =>
      refine .inr ?_
      simp only [view_bind, hview, Option.bind_some, if_neg (Nat.not_le.mpr hlt), view_sully,
        view_poke, view_pure] at hcases
      simp only [exec_bind, hexec, Option.bind_some, if_neg (Nat.not_le.mpr hlt), exec_sully,
        exec_poke, exec_pure]
      rcases hcases with ⟨e, m', heq, -⟩ | ⟨it', m', heq, hat, hext⟩
      · cases heq
      · cases heq
        exact ⟨_, _, _, rfl, hat, hext⟩
  · simp only [if_neg hneed] at hcases ⊢
    rcases hcases with ⟨e, m', heq, -⟩ | ⟨it', m', heq, hat, hext⟩
    · cases heq
    · cases heq
      exact .inr ⟨_, _, _, rfl, hat, hext⟩

/-- The indirect block is there, is made, or ends `map`. -/
theorem exec_mapIndirect_at (hs : PtrTree m ino)
    (ha : AllocApart (absent m ino (indSlots (off / blocksize))).card m ino bn)
    (h : it.At m ino off) (hroot : ∀ s ∈ rootSlots (off / blocksize), val m ino s ≠ 0)
    (cs : List Bool) :
    (Ends m cs (it.mapIndirect (off / blocksize)) ∧
    ∃ s ∈ indSlots (off / blocksize), val m ino s = 0) ∨
      ∃ it' m₁ cs₁, exec failing (it.mapIndirect (off / blocksize)) m cs = some (.ok it', m₁, cs₁) ∧
        it'.At m₁ ino off ∧ Extended ino bn (indSlots (off / blocksize)) m m₁ := by
  have hcases := mapIndirect_cases hs ha h hroot
  obtain rfl := h.inode
  unfold FileIter.mapIndirect at hcases ⊢
  by_cases hneed : ndirect ≤ off / blocksize ∧ it.indirect = none
  · obtain ⟨e, hentry, hiptr⟩ := h.iptr hneed.1 hroot rfl
    simp only [if_pos hneed, hentry, hiptr] at hcases ⊢
    cases allocateMetablockEntry_runs m cs with
    | stops hnot hexec hfinal =>
      refine .inl ⟨Ends.of_alloc hexec hfinal, .ind (iclass (off / blocksize)), ?_, ?_⟩
      · rw [indSlots, if_pos hneed.1]
        exact Finset.mem_singleton_self _
      · exact entryOf_eq_none.mp ((h.indirect hneed.1).symm.trans hneed.2)
    | @made cs₁ b hcs hb hlow hlt hexec hview =>
      refine .inr ?_
      simp only [view_bind, hview, Option.bind_some, if_neg (Nat.not_le.mpr hlt), view_sully,
        view_poke, view_pure] at hcases
      simp only [exec_bind, hexec, Option.bind_some, if_neg (Nat.not_le.mpr hlt), exec_sully,
        exec_poke, exec_pure]
      rcases hcases with ⟨e, m', heq, -⟩ | ⟨it', m', heq, hat, hext⟩
      · cases heq
      · cases heq
        exact ⟨_, _, _, rfl, hat, hext⟩
  · simp only [if_neg hneed] at hcases ⊢
    rcases hcases with ⟨e, m', heq, -⟩ | ⟨it', m', heq, hat, hext⟩
    · cases heq
    · cases heq
      exact .inr ⟨_, _, _, rfl, hat, hext⟩

theorem exec_mapData (it : FileIter) (bi bn : Nat) (m : Mem) (cs : List Bool) :
    exec failing (it.mapData bi bn) m cs = (view (it.mapData bi bn) m).map fun r =>
      (r.1, r.2, cs) := by
  unfold FileIter.mapData
  split
  · simp only [exec_bind, exec_sully, exec_poke, view_bind, view_sully, view_poke, Option.bind_some]
    rfl
  · rfl

/-- How `map` ends, where `find` has found what is there: in an error, with the data block's slot
empty; at once, with nothing to clear; or with the slots on the way filled and the data block's set.
-/
inductive MapRuns (ino off bn : Nat) (it : FileIter) (m : Mem) (cs : List Bool) : Prop
  | ends (hdata : val m ino (.data (off / blocksize)) = 0)
      (hkept : Kept ino m (final (it.map bn) m cs))
    (herror : ∀ {r it' m' cs'}, exec failing (it.map bn) m cs = some ((r, it'), m', cs') → r ≠ 0)
  | nothing (hbn : bn = 0) (hdata : val m ino (.data (off / blocksize)) = 0)
      (hfinal : final (it.map bn) m cs = m)
  | set {m₁ m' : Mem} {it' : FileIter} {cs' : List Bool}
    (hext : Extended ino (2 ^ 32) (rootSlots (off / blocksize) ∪ indSlots (off / blocksize)) m m₁)
    (hexec : exec failing (it.map bn) m cs = some ((0, it'), m', cs')) (hinv : it'.Inv m')
    (hino : it'.ino = ino)
    (hval : ∀ s : Slot, s.Ok → val m' ino s = if s = .data (off / blocksize) then bn
    else val m₁ ino s) (hsound : Sound m₁ ino → Fresh m₁ ino bn →
    val m₁ ino (.data (off / blocksize)) = 0 → Sound m' ino)

theorem Extended.keeps {S : Finset Slot} (h : Extended ino bn S m m₁)
    (hval : ∀ s : Slot, s.Ok → val m' ino s = val m₁ ino s) :
    Kept ino m m' :=
  fun s ok hne => (hval s ok).trans (h.kept s ok hne)

theorem map_runs (hs : Sound m ino) (h : it.At m ino off)
    (hdptr : it.dptr = none → val m ino (.data (off / blocksize)) = 0) (hbn : bn < 2 ^ 32)
    (cs : List Bool) :
    MapRuns ino off bn it m cs := by
  have hlt := h.inv.lt
  rw [h.offset] at hlt
  obtain ⟨hok₂, hok₁⟩ := way_ok hlt
  -- a data block is there only if the slots on the way are full
  have hempty : ∀ s ∈ rootSlots (off / blocksize) ∪ indSlots (off / blocksize), val m ino s = 0 →
      val m ino (.data (off / blocksize)) = 0 := by
    intro s hs hz
    by_contra hne
    exact path_full hne s (Finset.mem_union_left _ hs) hz
  by_cases hnothing : bn = 0 ∧ it.dptr = none
  · refine .nothing hnothing.1 (hdptr hnothing.2) ?_
    unfold FileIter.map
    simp only [hnothing, and_self, if_true]
    rfl
  · have hmap := @map_eq _ bn _ h.offset hlt hnothing
    rcases exec_mapIndirect2_at hs.ptrTree (hs.allocApart _) h cs with ⟨hends, s, hmem, hz⟩ |
      ⟨it₁, m₁, cs₁, hexec₁, hat₁, hext₁⟩
    · refine .ends (hempty s (Finset.mem_union_left _ hmem) hz) (fun s ok _ => ?_)
        fun {r it' m' cs'} hrun => ?_
      · rw [hmap]
        exact hends.final_andThen.val hs.ptrTree ok
      · rw [hmap] at hrun
        exact hends.exec_andThen hrun
    · have ha₂ := hext₁.apart (absent m₁ ino (indSlots (off / blocksize))).card (hs.allocApart _)
      rcases exec_mapIndirect_at hext₁.tree ha₂ hat₁ hext₁.full cs₁ with ⟨hends, s, hmem, hz⟩ |
        ⟨it₂, m₂, cs₂, hexec₂, hat₂, hext₂⟩
      · have hz₀ : val m ino s = 0 := by
          by_contra hne
          exact hne ((hext₁.kept s (hok₁ s hmem) hne).symm.trans hz)
        refine .ends (hempty s (Finset.mem_union_right _ hmem) hz₀) ?_ fun {r it' m' cs'} hrun => ?_
        · rw [hmap, final_andThen hexec₁]
          exact hext₁.keeps fun s ok => hends.final_andThen.val hext₁.tree ok
        · rw [hmap, exec_andThen hexec₁] at hrun
          exact hends.exec_andThen hrun
      · obtain ⟨it₃, m₃, hdata, hinv, hino, -, hval, hsound⟩ :=
          mapData_view hext₂.tree hat₂ hbn hext₂.full
        have hexec : exec failing (it.map bn) m cs = some ((0, it₃), m₃, cs₂) := by
          rw [hmap, exec_andThen hexec₁, exec_andThen hexec₂, exec_bind, exec_mapData, hdata]
          rfl
        exact .set (hext₁.trans hok₂ hok₁ hext₂) hexec hinv hino hval hsound

/-! ## `map`, where `find` has missed something -/

theorem exec_map_data {e bi : Nat} (hd : ndirect ≤ bi) (he : it.indirect = some e) :
    exec failing (it.mapData bi bn >>= fun it => pure (0, it)) m cs =
      some ((0, { it with dptr := some (entryAddr e (biDirectIndex bi)) }),
        putLE m (entryAddr e (biDirectIndex bi)) 4 bn, cs) := by
  have hdptr : it.getDptr bi = some (entryAddr e (biDirectIndex bi)) := by
    rw [FileIter.getDptr, if_pos hd, he]
    rfl
  unfold FileIter.mapData
  rw [if_pos hd, he, hdptr]
  simp only [exec_bind, exec_sully, exec_poke, Option.bind_some, exec_pure]

/-- The entries of a pointer block are in it. -/
theorem confined_entry {e i : Nat} (hi : i < nindirect) (v : Nat) :
    Confined e m (putLE m (entryAddr e i) 4 v) := by
  refine Confined.putLE ?_ ?_ v <;> unfold entryAddr nindirect blocksize at * <;> omega

/-- A new indirect2 block in the place of one that is there: the inode keeps it. -/
theorem final_mapIndirect_inode (hino : ∀ c, isFree m c = true → c ≠ inoEntry ino)
    (hfbb : fbbBn m ≠ inoEntry ino) (hd : ndirect + nindirect ≤ off / blocksize)
    (hlt : off / blocksize < maxsize / blocksize) {e₂ : Nat}
    (h₂ : it.indirect2 = some e₂) (hne₂ : e₂ ≠ inoEntry ino) (h : ∀ e, it.indirect = some e →
      e ≠ inoEntry ino) (cs : List Bool) :
    SameBlock
      (final (andThen (it.mapIndirect (off / blocksize)) it fun it =>
      it.mapData (off / blocksize) bn >>= fun it =>
      pure (0, it)) m cs) m (inoEntry ino) := by
  have hd' : ndirect ≤ off / blocksize := by omega
  have hindex := biDirectIndex_lt hd'
  have hclass : iclass (off / blocksize) > 1 := by
    rw [iclass_double hd]
    omega
  have hiptr : it.getIptr (off / blocksize) =
      some (entryAddr e₂ (iclass (off / blocksize) - 2)) := by
    rw [FileIter.getIptr, if_pos hclass, h₂]
    rfl
  have hindex₂ : iclass (off / blocksize) - 2 < nindirect := by
    have := iclass_le hlt
    omega
  have htakes : ∀ {b : Nat}, isFree m b = true → SameBlock (takeBlock m b) m (inoEntry ino) :=
    fun hb => takeBlock_confined hb _ (Ne.symm hfbb)
  cases hi : it.indirect with
  | some e =>
    have hgo : exec failing (it.mapIndirect (off / blocksize)) m cs = some (.ok it, m, cs) := by
      unfold FileIter.mapIndirect
      rw [if_neg fun hneed => Option.some_ne_none e (hi.symm.trans hneed.2)]
      rfl
    rw [final_andThen hgo, final_of_exec (exec_map_data hd' hi)]
    exact confined_entry hindex bn _ (Ne.symm (h e hi))
  | none =>
    have hneed : ndirect ≤ off / blocksize ∧ it.indirect = none := ⟨hd', hi⟩
    cases allocateMetablockEntry_runs m cs with
    | stops hnot hexec hfinal =>
      have hends : Ends m cs (it.mapIndirect (off / blocksize)) := by
        unfold FileIter.mapIndirect
        rw [if_pos hneed]
        exact Ends.of_alloc hexec hfinal
      rcases @Ends.final_andThen m cs it _ (fun it => it.mapData (off / blocksize) bn >>= fun it =>
        pure (0, it)) hends with heq | ⟨b, hb, heq⟩
      · rw [heq]
        exact fun _ _ _ => rfl
      · rw [heq]
        exact htakes hb
    | @made cs₁ b hcs hb hlow hmin hexec hview =>
      have hgo : exec failing (it.mapIndirect (off / blocksize)) m cs =
          some (.ok { it with indirect := some b },
          putLE (store (takeBlock m b) (b * blocksize) (List.replicate blocksize 0))
          (entryAddr e₂ (iclass (off / blocksize) - 2)) 4 b, cs₁) := by
        unfold FileIter.mapIndirect
        simp only [if_pos hneed, exec_bind, hexec, Option.bind_some, if_neg (Nat.not_le.mpr hmin),
          if_pos hd, h₂, hiptr, exec_sully, exec_poke, exec_pure]
      have hclear :
          Confined b (takeBlock m b)
          (store (takeBlock m b) (b * blocksize) (List.replicate blocksize 0)) :=
        Confined.store (Nat.le_refl _) (by rw [List.length_replicate])
      have hb' := Ne.symm (hino b hb)
      rw [final_andThen hgo, final_of_exec (exec_map_data hd' rfl)]
      exact (((confined_entry hindex bn _ hb').trans
        (confined_entry hindex₂ b _ (Ne.symm hne₂))).trans (hclear _ hb')).trans (htakes hb)

/-- The blocks that an iterator holds are not the inode's. -/
theorem FileIter.Inv.indirect_ne (h : it.Inv m) (hs : Sound m it.ino) {e : Nat}
    (he : it.indirect = some e) : e ≠ inoEntry it.ino := by
  obtain ⟨rfl, hne⟩ := h.indirect e he
  by_cases hpos : 1 ≤ iclass (it.off / blocksize)
  · have ok : (Slot.ind (iclass (it.off / blocksize))).Ok := ⟨hpos, iclass_le h.lt⟩
    exact fun heq => (hs.used _ ok hne).1 (.inr (.inr heq))
  · have hval : val m it.ino (.ind (iclass (it.off / blocksize))) = val m it.ino (.ind 1) := by
      change indVal _ _ _ = indVal _ _ _
      rw [indVal, indVal, if_pos (by omega), if_pos (Nat.le_refl 1)]
    have ok : (Slot.ind 1).Ok := ⟨Nat.le_refl 1, by decide⟩
    rw [hval] at hne ⊢
    exact fun heq => (hs.used _ ok hne).1 (.inr (.inr heq))

/-- The inode has the number of the new indirect2 block. -/
theorem val_root_made (hs : Sound m it.ino) (hinv : it.Inv m)
    (hd : ndirect + nindirect ≤ off / blocksize) (hlt : off / blocksize < maxsize / blocksize)
    (hb : isFree m b = true) (cs : List Bool) :
    val
    (final (andThen (({ it with indirect2 := some b } : FileIter).mapIndirect (off / blocksize))
    { it with indirect2 := some b }
        fun it => it.mapData (off / blocksize) bn >>= fun it => pure (0, it))
      (putLE (store (takeBlock m b) (b * blocksize) (List.replicate blocksize 0))
        (indirect2Addr it.ino) 4 b) cs)
      it.ino .root = b := by
  have hmod := hs.inode
  have hreserved := hs.free b hb
  have htaken := taken hs.ptrTree hb hreserved fun s ok => hs.unused hb ok
  generalize store (takeBlock m b) (b * blocksize) (List.replicate blocksize 0) = m₀ at htaken ⊢
  have hconf : Confined (inoEntry it.ino) m₀ (putLE m₀ (indirect2Addr it.ino) 4 b) := by
    refine Confined.putLE ?_ ?_ b <;> unfold indirect2Addr inoEntry blocksize at * <;> omega
  have hfbb : fbbBn (putLE m₀ (indirect2Addr it.ino) 4 b) = fbbBn m :=
    (hconf.fbbBn hs.ino_ne).trans htaken.fbb
  have hfree : ∀ c, isFree (putLE m₀ (indirect2Addr it.ino) 4 b) c = true →
      c ≠ inoEntry it.ino := by
    intro c hc
    rw [hconf.isFree hs.ino_ne (htaken.fbb ▸ hs.ino_ne_fbb), htaken.free, Bool.and_eq_true] at hc
    exact fun heq => hs.free c hc.1 (.inr (.inr heq))
  have hsame := @final_mapIndirect_inode _ _ _ bn { it with indirect2 := some b } hfree
    (hfbb ▸ Ne.symm hs.ino_ne_fbb) hd hlt _ rfl (fun heq => hreserved (.inr (.inr heq)))
    (fun e he => hinv.indirect_ne hs he) cs
  have hb4 : b < 256 ^ 4 := by
    have := isFree_lt hb
    unfold bitsperblock blocksize at this
    omega
  refine (getLE_congr fun x h₁ h₂ => hsame x ?_ ?_).trans (getLE_putLE m₀ _ hb4)
  · unfold indirect2Addr inoEntry blocksize at *
    omega
  · unfold indirect2Addr inoEntry blocksize at *
    omega

/-- The indirect block's slot has the number of the new one. -/
theorem val_ind_made {bi i p : Nat} (hs : Sound m ino) (hd : ndirect ≤ bi)
    (hlt : bi < maxsize / blocksize) (hroot : ndirect + nindirect ≤ bi → val m ino .root ≠ 0)
    (hp : p = slotAddr m ino (.ind (iclass bi))) (hi : i < nindirect) (hb : isFree m b = true) :
    val (putLE (putLE (store (takeBlock m b) (b * blocksize) (List.replicate blocksize 0)) p 4 b)
      (entryAddr b i) 4 bn) ino (.ind (iclass bi)) = b := by
  have hmod := hs.inode
  have hreserved := hs.free b hb
  have htaken := taken hs.ptrTree hb hreserved fun s ok => hs.unused hb ok
  generalize store (takeBlock m b) (b * blocksize) (List.replicate blocksize 0) = m₀ at htaken ⊢
  have ok : (Slot.ind (iclass bi)).Ok := ⟨iclass_pos hd, iclass_le hlt⟩
  have hb4 : b < 256 ^ 4 := by
    have := isFree_lt hb
    unfold bitsperblock blocksize at this
    omega
  have hlast : Confined b (putLE m₀ p 4 b) (putLE (putLE m₀ p 4 b) (entryAddr b i) 4 bn) :=
    confined_entry hi bn
  have hino : SameBlock (putLE (putLE m₀ p 4 b) (entryAddr b i) 4 bn) (putLE m₀ p 4 b)
      (inoEntry ino) :=
    hlast _ fun heq => hreserved (.inr (.inr heq.symm))
  have hinode : ∀ o, o + 4 ≤ 64 → getLE (putLE (putLE m₀ p 4 b) (entryAddr b i) 4 bn) (ino + o) 4 =
      getLE (putLE m₀ p 4 b) (ino + o) 4 := by
    intro o ho
    refine getLE_congr fun x h₁ h₂ => hino x ?_ ?_ <;>
      (unfold inoEntry blocksize at *; omega)
  by_cases hdouble : ndirect + nindirect ≤ bi
  · -- the slot is in the indirect2 block
    have hplace : (Slot.ind (iclass bi)).place = .block .root (iclass bi - 2) :=
      place_ind (by rw [iclass_double hdouble]; omega)
    have haddr : p = entryAddr (val m ino .root) (iclass bi - 2) := by
      rw [hp]
      unfold slotAddr
      rw [hplace]
    obtain ⟨-, hindex, -, -⟩ := ok.parent hplace
    have hne := hroot hdouble
    have hused := (hs.used .root trivial hne).1
    have hval : val (putLE (putLE m₀ p 4 b) (entryAddr b i) 4 bn) ino .root = val m ino .root := by
      have hsame : SameBlock (putLE m₀ p 4 b) m₀ (inoEntry ino) := by
        rw [haddr]
        exact confined_entry hindex b _ fun heq => hused (.inr (.inr heq.symm))
      refine (hinode 60 (by omega)).trans
        ((getLE_congr fun x h₁ h₂ => hsame x ?_ ?_).trans (htaken.val .root trivial)) <;>
        (unfold inoEntry blocksize at *; omega)
    rw [val_eq ok, hplace, readPlace, hval, if_neg hne]
    have hblock : SameBlock (putLE (putLE m₀ p 4 b) (entryAddr b i) 4 bn) (putLE m₀ p 4 b)
        (val m ino .root) :=
      hlast _ (hs.unused hb (s := .root) trivial)
    refine (hblock.getLE ?_).trans ?_
    · unfold nindirect blocksize at *
      omega
    · change getLE (putLE m₀ p 4 b) (entryAddr _ _) 4 = b
      rw [haddr]
      exact getLE_putLE m₀ _ hb4
  · have hplace : (Slot.ind (iclass bi)).place = .inode 56 := by
      rw [iclass_single hd (by omega)]
      rfl
    have haddr : p = ino + 56 := by
      rw [hp]
      unfold slotAddr
      rw [hplace]
    rw [val_eq ok, hplace, readPlace, hinode 56 (by omega), haddr]
    exact getLE_putLE m₀ _ hb4

/-- The indirect block's slot, where the indirect2 block has been found if there has to be one. -/
theorem iptr_found {bi : Nat} (hd : ndirect ≤ bi)
    (h : ndirect + nindirect ≤ bi → it.indirect2 = some (val m it.ino .root)) :
    (∃ e, (if ndirect + nindirect ≤ bi then it.indirect2 else some (inoEntry it.ino)) = some e) ∧
      it.getIptr bi = some (slotAddr m it.ino (.ind (iclass bi))) := by
  unfold FileIter.getIptr slotAddr
  by_cases hdouble : ndirect + nindirect ≤ bi
  · have hclass : iclass bi > 1 := by
      rw [iclass_double hdouble]
      omega
    rw [if_pos hdouble, if_pos hclass, h hdouble, place_ind hclass]
    exact ⟨⟨_, rfl⟩, rfl⟩
  · rw [if_neg hdouble, iclass_single hd (by omega)]
    exact ⟨⟨_, rfl⟩, rfl⟩

/-- How `map` ends where `find` has missed a pointer block: in an error, or with a new one in its
place. -/
theorem map_missed (hs : Sound m ino) (h : Missed m ino off it) (hbn : bn ≠ 0) (cs : List Bool) :
    (¬ Allocates 1 3 m cs ∧ TakesBlock m (final (it.map bn) m cs) ∧
        ∀ {r it' m' cs'}, exec failing (it.map bn) m cs = some ((r, it'), m', cs') → r ≠ 0) ∨
      (Allocates 1 3 m cs ∧ ¬ Kept ino m (final (it.map bn) m cs)) := by
  have hlt := h.inv.lt
  rw [h.offset] at hlt
  obtain rfl := h.inode
  rw [map_eq h.offset hlt fun hz => hbn hz.1]
  cases h.missing with
  | indirect2 hd hnone hne =>
    have hneed : ndirect + nindirect ≤ off / blocksize ∧ it.indirect2 = none := ⟨hd, hnone⟩
    cases allocateMetablockEntry_runs m cs with
    | stops hnot hexec hfinal =>
      have hends : Ends m cs (it.mapIndirect2 (off / blocksize)) := by
        unfold FileIter.mapIndirect2
        rw [if_pos hneed]
        exact Ends.of_alloc hexec hfinal
      exact .inl ⟨hnot, hends.final_andThen, fun hrun => hends.exec_andThen hrun⟩
    | @made cs₁ b hcs hb hlow hmin hexec hview =>
      have hgo : exec failing (it.mapIndirect2 (off / blocksize)) m cs =
          some (.ok { it with indirect2 := some b },
          putLE (store (takeBlock m b) (b * blocksize) (List.replicate blocksize 0))
          (indirect2Addr it.ino) 4 b, cs₁) := by
        unfold FileIter.mapIndirect2
        simp only [if_pos hneed, exec_bind, hexec, Option.bind_some, if_neg (Nat.not_le.mpr hmin),
          exec_sully, exec_poke, exec_pure]
      refine .inr ⟨⟨freeCount_pos hb, ?_⟩, fun hkept => hs.unused hb (s := .root) trivial ?_⟩
      · rw [hcs]
        exact List.prefix_append [true, true, true] cs₁
      · rw [← hkept .root trivial hne, final_andThen hgo]
        exact val_root_made hs h.inv hd hlt hb cs₁
  | indirect hd hnone hne hroot =>
    have hneed : ndirect ≤ off / blocksize ∧ it.indirect = none := ⟨hd, hnone⟩
    have hgo₂ : exec failing (it.mapIndirect2 (off / blocksize)) m cs = some (.ok it, m, cs) := by
      unfold FileIter.mapIndirect2
      rw [if_neg]
      · rfl
      · exact fun hneed₂ => Option.some_ne_none _ ((hroot hneed₂.1).1.symm.trans hneed₂.2)
    have ok : (Slot.ind (iclass (off / blocksize))).Ok := ⟨iclass_pos hd, iclass_le hlt⟩
    obtain ⟨⟨entry, hentry⟩, hiptr⟩ := iptr_found hd fun hdouble => (hroot hdouble).1
    rw [exec_andThen hgo₂, final_andThen hgo₂]
    cases allocateMetablockEntry_runs m cs with
    | stops hnot hexec hfinal =>
      have hends : Ends m cs (it.mapIndirect (off / blocksize)) := by
        unfold FileIter.mapIndirect
        rw [if_pos hneed]
        exact Ends.of_alloc hexec hfinal
      exact .inl ⟨hnot, hends.final_andThen, fun hrun => hends.exec_andThen hrun⟩
    | @made cs₁ b hcs hb hlow hmin hexec hview =>
      have hgo : exec failing (it.mapIndirect (off / blocksize)) m cs =
          some (.ok { it with indirect := some b },
          putLE (store (takeBlock m b) (b * blocksize) (List.replicate blocksize 0))
            (slotAddr m it.ino (.ind (iclass (off / blocksize)))) 4 b, cs₁) := by
        unfold FileIter.mapIndirect
        simp only [if_pos hneed, exec_bind, hexec, Option.bind_some, if_neg (Nat.not_le.mpr hmin),
          hentry, hiptr, exec_sully, exec_poke, exec_pure]
      refine .inr ⟨⟨freeCount_pos hb, ?_⟩, fun hkept => hs.unused hb ok ?_⟩
      · rw [hcs]
        exact List.prefix_append [true, true, true] cs₁
      · rw [← hkept _ ok hne, final_andThen hgo, final_of_exec (exec_map_data hd rfl)]
        exact val_ind_made hs hd hlt (fun hdouble => (hroot hdouble).2) rfl (biDirectIndex_lt hd) hb

/-! ## `find`, then `map` -/

theorem TakesBlock.kept (hs : PtrTree m ino) (h : TakesBlock m m') : Kept ino m m' :=
  fun _ ok _ => h.val hs ok

theorem FileIter.At.dptr_none (h : it.At m ino off)
    (hdptr : it.dptr = if ndirect ≤ off / blocksize ∧ it.indirect = none then none
      else it.getDptr (off / blocksize))
    (hnone : it.dptr = none) : val m ino (.data (off / blocksize)) = 0 := by
  by_contra hne
  have hfull := path_full hne
  obtain ⟨e, -, hget⟩ :=
    h.dptr fun s hs => hfull s (Finset.mem_union_left _ (Finset.mem_union_right _ hs))
  rw [hnone, if_neg, hget] at hdptr
  · cases hdptr
  · rintro ⟨hd, hind⟩
    rw [h.indirect hd, entryOf_eq_none] at hind
    exact hfull _ (mem_path.mpr (.inr (.inl ⟨hd, rfl⟩))) hind

/-- Beyond the maximum file size `map` does nothing. -/
theorem map_beyond (hoff : maxsize ≤ it.off) (bn : Nat) : Quiet (it.map bn) := by
  unfold FileIter.map
  dsimp only
  rw [if_pos (show it.off ≥ maxsize from hoff)]
  split <;> exact Quiet.pure _

/-- Where `find` has found what is there, only the block's own number can be replaced. -/
theorem MapRuns.kept_iff (h : MapRuns ino off bn it m cs)
    (hlt : off / blocksize < maxsize / blocksize) : Kept ino m (final (it.map bn) m cs) ↔
      val m ino (.data (off / blocksize)) = 0 ∨ val m ino (.data (off / blocksize)) = bn := by
  cases h with
  | ends hdata hkept herror => exact ⟨fun _ => .inl hdata, fun _ => hkept⟩
  | nothing hbn hdata hfinal =>
    rw [hfinal]
    exact ⟨fun _ => .inl hdata, fun _ => Kept.refl⟩
  | set hext hexec hinv hino hval hsound =>
    rw [final_of_exec hexec]
    constructor
    · intro hkept
      by_cases hz : val m ino (.data (off / blocksize)) = 0
      · exact .inl hz
      · have hsame := hkept (.data (off / blocksize)) hlt hz
        rw [hval (.data (off / blocksize)) hlt, if_pos rfl] at hsame
        exact .inr hsame.symm
    · intro hcase s ok hne
      rw [hval s ok]
      split
      · rename_i heq
        subst heq
        exact (hcase.resolve_left hne).symm
      · exact hext.kept s ok hne

/-- What `find` leaves to `map`, and when `map` then keeps every block that is there. -/
theorem find_map_iff {it₀ : FileIter} (hs : Sound m ino) (h : it₀.Inv m) (hino : it₀.ino = ino)
    (hbn : bn < 2 ^ 32) (hfind : exec failing (it₀.find off) m cs = some (it, m₁, cs₁)) :
    Kept ino m (final (it.map bn) m₁ cs₁) ↔ maxsize ≤ off ∨ if granted (it₀.find off) m cs then
      val m ino (.data (off / blocksize)) = 0 ∨ val m ino (.data (off / blocksize)) = bn
      else bn = 0 ∨ ¬ Allocates 1 3 m cs₁ := by
  obtain rfl := (quiet_find it₀ off).mem hfind
  by_cases hoff : maxsize ≤ off
  · have hquiet := map_beyond ((exec_find_off hfind).symm ▸ hoff) bn
    rw [hquiet.final]
    exact ⟨fun _ => .inl hoff, fun _ => Kept.refl⟩
  · have hlt := lt_max_of_lt_maxsize (Nat.not_le.mp hoff)
    rw [or_iff_right hoff]
    obtain ⟨-, ⟨hg, hview⟩ | ⟨hg, hmissed⟩⟩ := exec_find h hlt hfind
    · obtain ⟨it', hfind', hat, hdptr⟩ := view_find_dptr h hlt
      obtain rfl : it' = it := congrArg Prod.fst (Option.some.inj (hfind'.symm.trans hview))
      rw [hino] at hat
      rw [hg, if_pos rfl]
      exact (map_runs hs hat (hat.dptr_none hdptr) hbn cs₁).kept_iff hlt
    · rw [hg, if_neg Bool.false_ne_true]
      rw [hino] at hmissed
      by_cases hz : bn = 0
      · have hquiet : final (it.map bn) m₁ cs₁ = m₁ := by
          unfold FileIter.map
          simp only [hz, hmissed.dptr, and_self, if_true]
          rfl
        rw [hquiet]
        exact ⟨fun _ => .inl hz, fun _ => Kept.refl⟩
      · rw [or_iff_right hz]
        rcases map_missed hs hmissed hz cs₁ with ⟨hnot, htakes, -⟩ | ⟨hmakes, hlost⟩
        · exact ⟨fun _ => hnot, fun _ => htakes.kept hs.ptrTree⟩
        · exact ⟨fun hkept => absurd hkept hlost, fun hnot => absurd hmakes hnot⟩

end Map
end PugOS.ChkFS
