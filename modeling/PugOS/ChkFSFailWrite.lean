import PugOS.ChkFSFail

/-! # Loads that fail in a write

`vnode_inode::write` takes a next block that could not be loaded for one that is not there, and maps
another one in its place.  A round of it keeps every block that is there exactly if `NextClean`
holds of its loads (`mapNext_kept_iff`), and a write whose rounds are clean keeps them all
(`writeLoop_kept`).
-/
namespace PugOS.ChkFS
open Bytes Ring BlockProg
open Journal (blocksize SameBlock)
open FileIter (iclass)

variable {m m' m₁ : Mem} {ino off bn b : Nat} {cs cs' cs₁ : List Bool} {it it' : FileIter}

/-! ## A round of `write` -/

theorem quiet_getDataBlock (ino off : Nat) : Quiet (getDataBlock ino off) := by
  have hindirect : ∀ iptr bi, Quiet (getIndirectBlock iptr bi) := by
    intro iptr bi
    refine (quiet_loadPtr iptr).bind fun e => ?_
    split
    · exact Quiet.pure _
    · exact (Quiet.assert _).bind fun _ => (quiet_loadPtr _).bind fun _ => (Quiet.putEntry _).bind
        fun _ => Quiet.pure _
  refine (Quiet.assert _).bind fun _ => ?_
  dsimp only
  split
  · refine (quiet_loadPtr _).bind fun e => ?_
    split
    · exact Quiet.pure _
    · exact (Quiet.assert _).bind fun _ => (hindirect _ _).bind fun _ => (Quiet.putEntry _).bind
        fun _ => Quiet.pure _
  · split
    · exact hindirect _ _
    · exact quiet_loadPtr _

theorem FileIter.At.congr (h : it.At m ino off)
    (hval : ∀ s : Slot, s.Ok → val m' ino s = val m ino s) : it.At m' ino off := by
  have hlt := h.inv.lt
  rw [h.offset] at hlt
  refine ⟨h.inv.mono h.inode fun s ok _ => hval s ok, h.inode, h.offset, fun hd => ?_, fun hd => ?_⟩
  · rw [hval .root trivial]
    exact h.indirect2 hd
  · have ok : (Slot.ind (iclass (off / blocksize))).Ok := ⟨iclass_pos hd, iclass_le hlt⟩
    rw [hval _ ok]
    exact h.indirect hd

theorem Missed.congr (h : Missed m ino off it)
    (hval : ∀ s : Slot, s.Ok → val m' ino s = val m ino s) :
    Missed m' ino off it := by
  have hlt := h.inv.lt
  rw [h.offset] at hlt
  refine ⟨h.inv.mono h.inode fun s ok _ => hval s ok, h.inode, h.offset, h.dptr, ?_⟩
  cases h.missing with
  | indirect2 hd hnone hne => exact .indirect2 hd hnone (by rwa [hval .root trivial])
  | indirect hd hnone hne hroot =>
    have ok : (Slot.ind (iclass (off / blocksize))).Ok := ⟨iclass_pos hd, iclass_le hlt⟩
    refine .indirect hd hnone (by rwa [hval _ ok]) ?_
    rw [hval .root trivial]
    exact hroot

theorem Kept.congr_left {m₀ : Mem} (hval : ∀ s : Slot, s.Ok → val m₀ ino s = val m ino s) :
    Kept ino m₀ m' ↔ Kept ino m m' := by
  unfold Kept
  refine forall_congr' fun s => forall_congr' fun ok => ?_
  rw [hval s ok]

/-- A round of `write` maps the next block only where it is not there and `find` has found what is,
or does not come so far as to make a pointer block. -/
def NextClean (ino blockEnd : Nat) (it : FileIter) (m : Mem) (cs : List Bool) : Prop :=
  ∀ {cs₁ it' cs₂}, exec failing (getDataBlock ino blockEnd) m cs = some (none, m, cs₁) →
    exec failing (it.find blockEnd) m cs₁ = some (it', m, cs₂) → maxsize ≤ blockEnd ∨
      if granted (it.find blockEnd) m cs₁ then val m ino (.data (blockEnd / blocksize)) = 0 ∨
        ¬ Allocates 1 2 m cs₂
      else ¬ Allocates 2 5 m cs₂

theorem prefix_true {n k : Nat} : List.replicate (n + k) true <+: List.replicate n true ++ cs ↔
    List.replicate k true <+: cs := by
  rw [List.replicate_add, List.prefix_append_right_inj]

/-- The next block, after the one of `write` has been taken. -/
theorem allocates_take (hs : Sound m ino) (hb : isFree m b = true) :
    Allocates 1 3 (takeBlock m b) cs ↔ Allocates 2 5 m (true :: true :: cs) := by
  have hcount := freeCount_takeBlock hs hb
  have hheads : List.replicate 5 true <+: true :: true :: cs ↔ List.replicate 3 true <+: cs :=
    prefix_true (n := 2) (k := 3)
  unfold Allocates
  rw [hheads]
  exact and_congr_left fun _ => by omega

/-- What `write` does with the iterator once it has not found the next block: a block is taken, and
is mapped. -/
def mapTaken (it : FileIter) : Prog FileIter := do
  let newB ← allocateBlock
  assert (newB ≠ E_NOSPC)
  let (r, it) ← it.map newB
  assert (r = 0)
  return it

theorem mapNext_eq (ino blockEnd : Nat) (it : FileIter) :
    mapNext ino blockEnd it = getDataBlock ino blockEnd >>= fun e =>
    match e with
    | some _ => pure it
    | none => it.find blockEnd >>= mapTaken := rfl

/-- No block is taken, or the run is that of `map` with the block. -/
inductive TakenRuns (it : FileIter) (m : Mem) (cs : List Bool) : Prop
  | stops (hnot : ¬ Allocates 1 2 m cs) (hexec : exec failing (mapTaken it) m cs = none)
      (hfinal : final (mapTaken it) m cs = m)
  | takes {b : Nat} {cs₁ : List Bool} (hcs : cs = true :: true :: cs₁) (hb : isFree m b = true)
    (hfinal : final (mapTaken it) m cs = final (it.map b) (takeBlock m b) cs₁)
    (hexec : ∀ {it' m' cs'}, exec failing (mapTaken it) m cs = some (it', m', cs') →
      exec failing (it.map b) (takeBlock m b) cs₁ = some ((0, it'), m', cs'))

theorem mapTaken_runs (it : FileIter) (m : Mem) (cs : List Bool) : TakenRuns it m cs := by
  cases allocateBlock_runs m cs with
  | stops hcs hexec hfinal =>
    refine .stops (fun h => hcs h.2) ?_ ?_
    · unfold mapTaken
      rw [exec_bind, hexec, Option.bind_none]
    · unfold mapTaken
      rw [final_bind_none hexec, hfinal]
  | full hcs hnone hexec =>
    refine .stops (fun h => ?_) ?_ ?_
    · obtain ⟨b, hb⟩ := exists_free h.1
      rw [hnone b] at hb
      cases hb
    · unfold mapTaken
      rw [exec_bind, hexec]
      rfl
    · unfold mapTaken
      rw [final_bind_some hexec]
      rfl
  | @taken cs₁ b hcs hb hlow hexec =>
    have hne : b ≠ E_NOSPC := by
      have := isFree_lt hb
      unfold E_NOSPC bitsperblock blocksize at *
      omega
    refine .takes hcs hb ?_ fun {it' m' cs'} h => ?_
    · unfold mapTaken
      rw [final_bind_some hexec, decide_eq_true hne]
      exact final_bind_quiet fun r => (Quiet.assert _).bind fun _ => Quiet.pure _
    · unfold mapTaken at h
      rw [exec_bind, hexec, Option.bind_some, decide_eq_true hne] at h
      obtain ⟨r, m₁, cs₂, hmap, hrest⟩ := exec_bind_some (p := it.map b) h
      obtain ⟨u, m₂, cs₃, hassert, hrest⟩ := exec_bind_some hrest
      obtain ⟨hzero, heq⟩ := exec_assert hassert
      cases heq
      cases hrest
      rw [hmap, ← of_decide_eq_true hzero]

section Next
variable {blockEnd : Nat}

/-- The block that has been taken is mapped, in a run that went on. -/
theorem final_mapNext {cs₁ cs₂ : List Bool}
    (hget : exec failing (getDataBlock ino blockEnd) m cs = some (none, m, cs₁))
    (hfind : exec failing (it.find blockEnd) m cs₁ = some (it', m, cs₂)) :
    final (mapNext ino blockEnd it) m cs = final (mapTaken it') m cs₂ := by
  rw [mapNext_eq, final_bind_some hget]
  exact final_bind_some hfind

/-- A round that does not come to take a block changes nothing. -/
theorem final_mapNext_quiet
    (hnot : ∀ {cs₁ it' cs₂}, exec failing (getDataBlock ino blockEnd) m cs = some (none, m, cs₁) →
    exec failing (it.find blockEnd) m cs₁ ≠ some (it', m, cs₂)) : final (mapNext ino blockEnd it) m
    cs = m := by
  rw [mapNext_eq]
  cases hget : exec failing (getDataBlock ino blockEnd) m cs with
  | none => rw [final_bind_none hget, (quiet_getDataBlock ino blockEnd).final]
  | some r =>
    obtain ⟨e, m₁, cs₁⟩ := r
    obtain rfl := (quiet_getDataBlock ino blockEnd).mem hget
    rw [final_bind_some hget]
    cases e with
    | some e => rfl
    | none =>
      dsimp only
      cases hfind : exec failing (it.find blockEnd) m₁ cs₁ with
      | none => rw [final_bind_none hfind, (quiet_find it blockEnd).final]
      | some r =>
        obtain ⟨it', m₂, cs₂⟩ := r
        obtain rfl := (quiet_find it blockEnd).mem hfind
        exact absurd hfind (hnot hget)

/-- The block taken, and the rest of the round. -/
theorem mapTaken_kept_iff (hs : Sound m ino) (h : it.Inv m) (hino : it.ino = ino)
    (hlt : blockEnd / blocksize < maxsize / blocksize) {cs₁ cs₂ : List Bool}
    (hfind : exec failing (it.find blockEnd) m cs₁ = some (it', m, cs₂)) :
    Kept ino m (final (mapTaken it') m cs₂) ↔ if granted (it.find blockEnd) m cs₁ then
      val m ino (.data (blockEnd / blocksize)) = 0 ∨ ¬ Allocates 1 2 m cs₂
        else ¬ Allocates 2 5 m cs₂ := by
  cases mapTaken_runs it' m cs₂ with
  | stops hnot hexec hfinal =>
    rw [hfinal]
    refine ⟨fun _ => ?_, fun _ => Kept.refl⟩
    split
    · exact .inr hnot
    · exact fun hall =>
        hnot ⟨Nat.le_of_succ_le hall.1, (List.prefix_append (List.replicate 2 true) _).trans hall.2⟩
  | @takes b cs₃ hcs hb hfinal hexec =>
    obtain ⟨he, hfresh, hval⟩ := Evolved.take hs hb
    have hallocates : Allocates 1 2 m cs₂ :=
      ⟨freeCount_pos hb, hcs ▸ List.prefix_append [true, true] cs₃⟩
    rw [hfinal, ← Kept.congr_left hval]
    obtain ⟨-, ⟨hg, hview⟩ | ⟨hg, hmissed⟩⟩ := exec_find h hlt hfind
    · obtain ⟨it₁, hfind₁, hat, hdptr⟩ := view_find_dptr h hlt
      obtain rfl : it₁ = it' := congrArg Prod.fst (Option.some.inj (hfind₁.symm.trans hview))
      rw [hino] at hat
      have hat₁ := hat.congr hval
      have ok : (Slot.data (blockEnd / blocksize)).Ok := hlt
      have hruns :=
        map_runs he.sound hat₁ (fun hnone => (hval _ ok).trans (hat.dptr_none hdptr hnone))
          hfresh.lt cs₃
      rw [hruns.kept_iff hlt, hg, if_pos rfl, or_iff_left (not_not.mpr hallocates), hval _ ok]
      exact or_iff_left (hs.unused hb ok)
    · rw [hino] at hmissed
      rw [hg, if_neg Bool.false_ne_true, hcs, ← allocates_take hs hb]
      rcases map_missed he.sound (hmissed.congr hval) hfresh.ne_zero cs₃ with ⟨hnot, htakes, -⟩ |
        ⟨hmakes, hlost⟩
      · exact ⟨fun _ => hnot, fun _ => htakes.kept he.sound.ptrTree⟩
      · exact ⟨fun hkept => absurd hkept hlost, fun hnot => absurd hmakes hnot⟩

/-- **A round of `write`** keeps every block that is there exactly if it is clean. -/
theorem mapNext_kept_iff (hs : Sound m ino) (h : it.Inv m) (hino : it.ino = ino) :
    Kept ino m (final (mapNext ino blockEnd it) m cs) ↔ NextClean ino blockEnd it m cs := by
  by_cases hreach : ∃ cs₁ it' cs₂, exec failing (getDataBlock ino blockEnd) m cs =
      some (none, m, cs₁) ∧ exec failing (it.find blockEnd) m cs₁ = some (it', m, cs₂)
  · obtain ⟨cs₁, it', cs₂, hget, hfind⟩ := hreach
    have hclean : NextClean ino blockEnd it m cs ↔ maxsize ≤ blockEnd ∨
        if granted (it.find blockEnd) m cs₁ then val m ino (.data (blockEnd / blocksize)) = 0 ∨
          ¬ Allocates 1 2 m cs₂
        else ¬ Allocates 2 5 m cs₂ := by
      refine ⟨fun hclean => hclean hget hfind, fun hcond cs₃ it₁ cs₄ hget' hfind' => ?_⟩
      cases hget.symm.trans hget'
      cases hfind.symm.trans hfind'
      exact hcond
    rw [hclean, final_mapNext hget hfind]
    by_cases hmax : maxsize ≤ blockEnd
    · refine ⟨fun _ => .inl hmax, fun _ => ?_⟩
      cases mapTaken_runs it' m cs₂ with
      | stops hnot hexec hfinal =>
        rw [hfinal]
        exact Kept.refl
      | takes hcs hb hfinal hexec =>
        rw [hfinal, (map_beyond ((exec_find_off hfind).symm ▸ hmax) _).final]
        exact TakesBlock.kept hs.ptrTree (.inr ⟨_, hb, rfl⟩)
    · rw [or_iff_right hmax]
      exact mapTaken_kept_iff hs h hino (lt_max_of_lt_maxsize (Nat.not_le.mp hmax)) hfind
  · rw [final_mapNext_quiet fun {cs₁ it' cs₂} hget hfind => hreach ⟨cs₁, it', cs₂, hget, hfind⟩]
    exact ⟨fun _ cs₁ it' cs₂ hget hfind => absurd ⟨cs₁, it', cs₂, hget, hfind⟩ hreach,
      fun _ => Kept.refl⟩

/-- A clean round that goes on leaves the file system sound, and the iterator right. -/
theorem mapNext_sound (hs : Sound m ino) (h : it.Inv m) (hino : it.ino = ino)
    (hclean : NextClean ino blockEnd it m cs)
    (hrun : exec failing (mapNext ino blockEnd it) m cs = some (it', m', cs')) :
    Sound m' ino ∧ it'.Inv m' ∧ it'.ino = ino := by
  rw [mapNext_eq] at hrun
  obtain ⟨e, m₁, cs₁, hget, hrest⟩ := exec_bind_some hrun
  obtain rfl := (quiet_getDataBlock ino blockEnd).mem hget
  cases e with
  | some e =>
    cases hrest
    exact ⟨hs, h, hino⟩
  | none =>
    obtain ⟨it₁, m₂, cs₂, hfind, htaken⟩ := exec_bind_some (p := it.find blockEnd) hrest
    obtain rfl := (quiet_find it blockEnd).mem hfind
    cases mapTaken_runs it₁ m₂ cs₂ with
    | stops hnot hexec hfinal => cases hexec.symm.trans htaken
    | @takes b cs₃ hcs hb hfinal hexec =>
      have hmap := hexec htaken
      obtain ⟨he, hfresh, hval⟩ := Evolved.take hs hb
      have hoff : it₁.off = blockEnd := exec_find_off hfind
      by_cases hmax : maxsize ≤ blockEnd
      · -- the file is as long as it can be
        unfold FileIter.map at hmap
        simp only [hfresh.ne_zero, false_and, if_false,
          if_pos (show it₁.off ≥ maxsize from hoff ▸ hmax), exec_pure] at hmap
        cases hmap
      · have hlt := lt_max_of_lt_maxsize (Nat.not_le.mp hmax)
        have ok : (Slot.data (blockEnd / blocksize)).Ok := hlt
        have hcond := (hclean hget hfind).resolve_left hmax
        obtain ⟨-, ⟨hg, hview⟩ | ⟨hg, hmissed⟩⟩ := exec_find h hlt hfind
        · obtain ⟨it₂, hfind₂, hat, hdptr⟩ := view_find_dptr h hlt
          obtain rfl : it₂ = it₁ := congrArg Prod.fst (Option.some.inj (hfind₂.symm.trans hview))
          rw [hino] at hat
          have hat₁ := hat.congr hval
          have hallocates : Allocates 1 2 m₂ cs₂ :=
            ⟨freeCount_pos hb, hcs ▸ List.prefix_append [true, true] cs₃⟩
          rw [hg, if_pos rfl, or_iff_left (not_not.mpr hallocates)] at hcond
          cases map_runs he.sound hat₁ (fun hnone => (hval _ ok).trans (hat.dptr_none hdptr hnone))
            hfresh.lt cs₃ with
          | ends hdata hkept herror => exact absurd rfl (herror hmap)
          | nothing hbn hdata hfinal => exact absurd hbn hfresh.ne_zero
          | set hext hexec' hinv' hino' hval' hsound =>
            cases hexec'.symm.trans hmap
            refine ⟨hsound (hext.sound he.sound) (hext.keeps_fresh hfresh) ?_, hinv', hino'⟩
            exact (hext.rest _ ok data_not_mem).trans ((hval _ ok).trans hcond)
        · rw [hino] at hmissed
          rcases map_missed he.sound (hmissed.congr hval) hfresh.ne_zero cs₃ with ⟨-, -, herror⟩ |
            ⟨hmakes, -⟩
          · exact absurd rfl (herror hmap)
          · rw [hg, if_neg Bool.false_ne_true, hcs, ← allocates_take hs hb] at hcond
            exact absurd hmakes hcond

end Next

/-! ## The loop of `write` -/

/-- A block that `get_data_block` returns is one of the file. -/
theorem exec_getDataBlock_some {data : Nat}
    (hget : exec failing (getDataBlock ino off) m cs = some (some data, m₁, cs₁)) :
    off / blocksize % 2 ^ 32 < maxsize / blocksize ∧
      data = dataVal m ino (off / blocksize % 2 ^ 32) ∧ data ≠ 0 := by
  have hptr : ∀ {p e : Nat} {m m₁ : Mem} {cs cs₁ : List Bool}, exec failing (loadPtr p) m cs =
      some (some e, m₁, cs₁) → m₁ = m ∧ e = getLE m p 4 ∧ e ≠ 0 := by
    intro p e m m₁ cs cs₁ hload
    obtain ⟨rfl, ⟨-, he⟩ | ⟨-, he, -⟩⟩ := exec_loadPtr hload
    · have hne : getLE m₁ p 4 ≠ 0 := fun hz => by rw [hz] at he; cases he
      rw [entryOf_some hne] at he
      cases he
      exact ⟨rfl, rfl, hne⟩
    · cases he
  -- from the indirect block's slot on
  have hind : ∀ {iptr bi : Nat} {cs : List Bool}, exec failing (getIndirectBlock iptr bi) m cs =
      some (some data, m₁, cs₁) → bi < maxsize / blocksize ∧ getLE m iptr 4 ≠ 0 ∧
      data = getLE m (entryAddr (getLE m iptr 4) (biDirectIndex bi)) 4 ∧
        data ≠ 0 ∧ m₁ = m := by
    intro iptr bi cs hrun
    unfold getIndirectBlock at hrun
    obtain ⟨ie, m₂, cs₂, hload, hrun⟩ := exec_bind_some hrun
    cases ie with
    | none => cases hrun
    | some ie =>
      obtain ⟨rfl, rfl, hne⟩ := hptr hload
      obtain ⟨u, m₃, cs₃, hassert, hrun⟩ := exec_bind_some hrun
      obtain ⟨hbi, heq⟩ := exec_assert hassert
      cases heq
      obtain ⟨de, m₄, cs₄, hload', hrun⟩ := exec_bind_some hrun
      cases hrun
      obtain ⟨rfl, rfl, hne'⟩ := hptr hload'
      exact ⟨of_decide_eq_true hbi, hne, rfl, hne', rfl⟩
  unfold getDataBlock at hget
  obtain ⟨u, m₂, cs₂, hassert, hrest⟩ := exec_bind_some hget
  obtain ⟨-, heq⟩ := exec_assert hassert
  cases heq
  generalize off / blocksize % 2 ^ 32 = bi at hrest ⊢
  dsimp only at hrest
  unfold dataVal indVal rootVal
  by_cases hdouble : ndirect + nindirect ≤ bi
  · rw [if_pos hdouble] at hrest
    obtain ⟨i2e, m₃, cs₃, hload, hrest⟩ := exec_bind_some hrest
    cases i2e with
    | none => cases hrest
    | some i2e =>
      obtain ⟨rfl, rfl, hne⟩ := hptr hload
      obtain ⟨u, m₄, cs₄, hassert, hrest⟩ := exec_bind_some hrest
      obtain ⟨hbi, heq⟩ := exec_assert hassert
      cases heq
      obtain ⟨de, m₅, cs₅, hblock, hrest⟩ := exec_bind_some hrest
      cases hrest
      obtain ⟨-, hne₁, rfl, hne', -⟩ := hind hblock
      have hclass := iclass_double hdouble
      refine ⟨of_decide_eq_true hbi, ?_, hne'⟩
      rw [if_neg (by omega), hclass, if_neg (show ¬ biIndirectIndex bi + 2 ≤ 1 by omega),
        if_neg hne, Nat.add_sub_cancel, if_neg hne₁]
  · rw [if_neg hdouble] at hrest
    by_cases hd : ndirect ≤ bi
    · rw [if_pos hd] at hrest
      obtain ⟨hbi, hne₁, rfl, hne', -⟩ := hind hrest
      refine ⟨hbi, ?_, hne'⟩
      rw [if_neg (by omega), iclass_single hd (by omega), if_pos (Nat.le_refl 1), if_neg hne₁]
    · rw [if_neg hd] at hrest
      obtain ⟨-, rfl, hne'⟩ := hptr hrest
      have hindex : biDirectIndex bi = bi := if_pos (Nat.not_le.mp hd)
      refine ⟨?_, ?_, hne'⟩
      · rw [nmax_eq]
        unfold ndirect nindirect at *
        omega
      · rw [if_pos (Nat.not_le.mp hd), hindex]

/-- What `write` stores in a block that it has, and the size. -/
theorem stored (hs : Sound m ino) {bi : Nat} (ok : (Slot.data bi).Ok) (hne : dataVal m ino bi ≠ 0)
    {a o : Nat} {bytes : List UInt8} (hb : dataVal m ino bi * blocksize ≤ a)
    (ha : a + bytes.length ≤ dataVal m ino bi * blocksize + blocksize) :
    SameMap ino m (grown (store m a bytes) ino o) := by
  have hsame := SameMap.confined_data hs ok hne (Confined.store hb ha)
  have hgrown : SameMap ino (store m a bytes) (grown (store m a bytes) ino o) := by
    unfold grown
    split
    · exact (SameMap.size (hsame.sound hs) o).1
    · exact ⟨fun _ _ => rfl, rfl, fun _ => rfl⟩
  exact ⟨fun s ok => (hgrown.val s ok).trans (hsame.val s ok), hgrown.fbb.trans hsame.fbb,
    fun b => (hgrown.free b).trans (hsame.free b)⟩

theorem exec_growSize (ino o : Nat) (m : Mem) (cs : List Bool) :
    exec failing (growSize ino o) m cs = some ((), grown m ino o, cs) := by
  unfold growSize grown fileSize
  rw [exec_bind, exec_peek, Option.bind_some]
  dsimp only
  split
  · rw [exec_poke]
  · rfl

/-- The end of a round. -/
theorem final_stored {α : Type} (data a o : Nat) (bytes : List UInt8) (k : Prog α) (m : Mem)
    (cs : List Bool) :
    final (sully data >>= fun _ => storeBytes a bytes >>= fun _ => putEntry data >>= fun _ =>
    growSize ino o >>= fun _ => k) m cs =
      final k (grown (store m a bytes) ino o) cs := by
  rw [final_bind_some (exec_sully m cs data), final_bind_some (exec_storeBytes m cs a bytes),
    final_bind_some (exec_putEntry _ cs data), final_bind_some (exec_growSize ino o _ cs)]

theorem final_writeLoop_nil (fuel : Nat) (it : FileIter) (off nwritten : Nat) (m : Mem)
    (cs : List Bool) : final (writeLoop ino fuel it [] off nwritten) m cs = m := by
  cases fuel <;> rfl

/-- The rounds of the loop that map a block are clean. -/
def LoopClean (ino : Nat) : Nat → FileIter → List UInt8 → Nat → Mem → List Bool → Prop
  | 0, _, _, _, _, _ => True
  | fuel + 1, it, buf, off, m, cs =>
    let blockoff := off / blocksize * blocksize
    let blockEnd := blockoff + blocksize
    off + buf.length > blockEnd → ∀ {data cs₁}, exec failing (getDataBlock ino blockoff) m cs =
      some (some data, m, cs₁) → NextClean ino blockEnd it m cs₁ ∧
        ∀ {it' m' cs'}, exec failing (mapNext ino blockEnd it) m cs₁ = some (it', m', cs') →
          let ncopy := blocksize - off % blocksize
          LoopClean ino fuel it' (buf.drop ncopy) (off + ncopy)
            (grown (store m' (data * blocksize + (off - blockoff)) (buf.take ncopy)) ino
              (off + ncopy)) cs'

/-- A clean round after the other, no block is lost. -/
theorem writeLoop_kept :
    ∀ (fuel : Nat) {it : FileIter} {buf : List UInt8} {off nwritten : Nat} {m : Mem}
    {cs : List Bool}, Sound m ino → it.Inv m → it.ino = ino → LoopClean ino fuel it buf off m cs →
      Kept ino m (final (writeLoop ino fuel it buf off nwritten) m cs) := by
  intro fuel
  induction fuel with
  | zero => exact fun _ _ _ _ => Kept.refl
  | succ fuel ih =>
    intro it buf off nwritten m cs hs h hino hclean
    unfold writeLoop
    dsimp only [LoopClean] at hclean
    by_cases hnil : buf.length = 0
    · rw [if_pos hnil]
      exact Kept.refl
    rw [if_neg hnil]
    dsimp only
    cases hget : exec failing (getDataBlock ino (off / blocksize * blocksize)) m cs with
    | none =>
      rw [final_bind_none hget, (quiet_getDataBlock ino _).final]
      exact Kept.refl
    | some r =>
      obtain ⟨e, m₁, cs₁⟩ := r
      obtain rfl := (quiet_getDataBlock ino _).mem hget
      rw [final_bind_some hget]
      cases e with
      | none => exact Kept.refl
      | some data =>
        obtain ⟨ok, rfl, hne⟩ := exec_getDataBlock_some hget
        rw [div_mul_div] at ok hget hne ⊢
        generalize off / blocksize % 2 ^ 32 = bi at ok hget hne ⊢
        have hbi : (Slot.data bi).Ok := ok
        have hmod : off % blocksize < blocksize := Nat.mod_lt _ (by decide)
        dsimp only
        rw [sub_block]
        by_cases hcross : off + buf.length > off / blocksize * blocksize + blocksize
        · simp only [if_pos hcross]
          obtain ⟨hnext, hrest⟩ := hclean hcross hget
          have hkept := (mapNext_kept_iff hs h hino).mpr hnext
          cases hrun : exec failing (mapNext ino (off / blocksize * blocksize + blocksize) it) m₁
            cs₁ with
          | none => rwa [final_bind_none hrun]
          | some r =>
            obtain ⟨it', m', cs'⟩ := r
            rw [final_of_exec hrun] at hkept
            obtain ⟨hs', h', hino'⟩ := mapNext_sound hs h hino hnext hrun
            have hdata : dataVal m' ino bi = dataVal m₁ ino bi := hkept (.data bi) hbi hne
            have hstored := @stored _ _ hs' _ hbi (hdata.symm ▸ hne)
                (dataVal m₁ ino bi * blocksize + off % blocksize)
              (off + (blocksize - off % blocksize)) (buf.take (blocksize - off % blocksize))
              (by rw [hdata]; exact Nat.le_add_right _ _) (by rw [hdata, List.length_take]; omega)
            rw [final_bind_some hrun, final_stored]
            refine hkept.trans (Kept.trans (fun s ok _ => hstored.val s ok) ?_)
            have hloop := hrest hrun
            rw [sub_block] at hloop
            exact ih (hstored.sound hs') (h'.mono hino' fun s ok _ => hstored.val s ok) hino' hloop
        · simp only [if_neg hcross]
          have hstored := @stored _ _ hs _ hbi hne (dataVal m₁ ino bi * blocksize + off % blocksize)
              (off + buf.length)
            buf (Nat.le_add_right _ _) (by
              have := Nat.div_add_mod off blocksize
              rw [Nat.mul_comm] at this
              omega)
          change Kept ino m₁
            (final (sully _ >>= fun _ => storeBytes _ _ >>= fun _ => putEntry _ >>= fun _ =>
            growSize ino _ >>= fun _ => writeLoop ino fuel it _ _ _) m₁ cs₁)
          rw [final_stored, List.take_length, List.drop_length, final_writeLoop_nil]
          exact fun s ok _ => hstored.val s ok

/-- **Loads that are refused lose no block, exactly if** `find` finds what is there or `map` makes
no pointer block.  So for `find` and `map`, where the block's own number is the caller's to replace;
for each round of `write`; and no block is lost in a `write` whose rounds are clean. -/
theorem refused_loads_iff (hs : Sound m ino) :
    (∀ {it₀ it : FileIter} {off bn : Nat} {cs cs₁ : List Bool} {m₁ : Mem}, it₀.Inv m →
      it₀.ino = ino → bn < 2 ^ 32 → exec failing (it₀.find off) m cs = some (it, m₁, cs₁) →
      (Kept ino m (final (it.map bn) m₁ cs₁) ↔ maxsize ≤ off ∨ if granted (it₀.find off) m cs then
        val m ino (.data (off / blocksize)) = 0 ∨ val m ino (.data (off / blocksize)) = bn
        else bn = 0 ∨ ¬ Allocates 1 3 m cs₁)) ∧
    (∀ {it : FileIter} {blockEnd : Nat} {cs : List Bool}, it.Inv m → it.ino = ino →
      (Kept ino m (final (mapNext ino blockEnd it) m cs) ↔ NextClean ino blockEnd it m cs)) ∧
    ∀ (buf : List UInt8) (off : Nat) (cs : List Bool), LoopClean ino buf.length
      (FileIter.mk' ino) buf off m cs → Kept ino m (final (write ino buf off) m cs) := by
  refine ⟨fun h hino hbn hfind => find_map_iff hs h hino hbn hfind,
    fun h hino => mapNext_kept_iff hs h hino, fun buf off cs hclean => ?_⟩
  have hrelease : ∀ r : Nat × Nat × FileIter, Quiet (r.2.2.release >>= fun _ =>
      pure (r.1, r.2.1)) := by
    rintro ⟨nwritten, off, ⟨_, _, _, indirect2, indirect⟩⟩
    cases indirect2 <;> cases indirect <;> trivial
  unfold write
  rw [final_bind_some (exec_sully m cs (inoEntry ino))]
  rw [final_bind_quiet (p := writeLoop ino buf.length (FileIter.mk' ino) buf off 0) hrelease]
  exact writeLoop_kept buf.length hs (FileIter.Inv.start m ino) rfl hclean

/-- Two bytes, of which the second is the first of a new block. -/
theorem refused_loads_iff_oneBlock :
    Kept 8256 oneBlock (final (write 8256 [65, 66] 4095) oneBlock [true, true, true]) := by
  refine (refused_loads_iff oneBlock_sound).2.2 [65, 66] 4095 _ fun _ data cs₁ _ =>
    ⟨fun {cs₂ it' cs₃} _ _ => .inr ?_, fun {it' m' cs'} _ hcross => absurd hcross (by decide)⟩
  have hgranted : granted ((FileIter.mk' 8256).find (4095 / blocksize * blocksize + blocksize))
      oneBlock cs₂ = true := rfl
  have ok : (Slot.data ((4095 / blocksize * blocksize + blocksize) / blocksize)).Ok := by
    change _ < _
    decide
  rw [if_pos hgranted, oneBlock_val ok]
  exact .inl (by decide)

/-! ## A file with an indirect block -/

/-- A disk of 16 blocks, with the bitmap in block 1, the inodes in block 2, and a file whose tenth
block is block 5, by way of the indirect block 4. -/
def indirectFile : Mem :=
  image [(nblocksAddr, 4, 16), (fbbBnAddr, 4, 1), (4096, 2, 0xffc0), (indirectAddr 8256, 4, 4),
  (entryAddr 4 0, 4, 5)]

theorem indirectFile_val {s : Slot} (hs : s.Ok) :
    val indirectFile 8256 s = if s = .data 9 then 5 else if s = .ind 1 then 4 else 0 := by
  have hroot : rootVal indirectFile 8256 = 0 := by decide +kernel
  have hone : indVal indirectFile 8256 1 = 4 := by decide +kernel
  have hind : ∀ c, 2 ≤ c → indVal indirectFile 8256 c = 0 := by
    intro c hc
    rw [indVal, if_neg (by omega), if_pos hroot]
  rcases hs.kinds with ⟨bi, hbi, rfl⟩ | ⟨bi, hbi, hmax, rfl⟩ | rfl | ⟨c, hc, -, rfl⟩ | rfl
  · have hdirect : ∀ bi < ndirect, dataVal indirectFile 8256 bi = 0 := by decide +kernel
    rw [if_neg, if_neg Slot.noConfusion]
    · exact hdirect bi hbi
    · exact fun heq => absurd (Slot.data.inj heq) (Nat.ne_of_lt hbi)
  · rw [if_neg (show Slot.data bi ≠ .ind 1 from Slot.noConfusion)]
    change dataVal indirectFile 8256 bi = _
    rw [dataVal, if_neg (by omega)]
    by_cases hsingle : bi < ndirect + nindirect
    · rw [iclass_single hbi hsingle, hone, if_neg (by decide), biDirectIndex, if_neg (by omega)]
      by_cases hnine : bi = 9
      · subst hnine
        decide +kernel
      · rw [if_neg fun heq => hnine (Slot.data.inj heq)]
        have hmod : (bi - ndirect) % nindirect = bi - 9 := by
          unfold ndirect nindirect at *
          omega
        rw [hmod]
        refine getLE_zero fun x h₁ h₂ => image_of_not_mem fun f hf => ?_
        simp only [List.mem_cons, List.not_mem_nil, or_false] at hf
        rcases hf with rfl | rfl | rfl | rfl | rfl <;>
          simp only [entryAddr, nblocksAddr, fbbBnAddr, indirectAddr, ndirect, nindirect, blocksize]
            at * <;> omega
    · rw [iclass_double (by omega), hind _ (by omega), if_pos rfl, if_neg]
      rintro heq
      cases heq
      exact hsingle (by decide)
  · rw [if_neg Slot.noConfusion, if_pos rfl]
    exact hone
  · rw [if_neg Slot.noConfusion, if_neg fun heq => absurd (Slot.ind.inj heq) (by omega)]
    exact hind c hc
  · exact hroot

theorem indirectFile_sound : Sound indirectFile 8256 := by
  have hval : ∀ s : Slot, s.Ok → val indirectFile 8256 s ≠ 0 →
      (s = .data 9 ∧ val indirectFile 8256 s = 5) ∨ (s = .ind 1 ∧ val indirectFile 8256 s = 4) := by
    intro s hs hne
    rw [indirectFile_val hs] at hne ⊢
    by_cases hdata : s = .data 9
    · exact .inl ⟨hdata, if_pos hdata⟩
    · rw [if_neg hdata] at hne ⊢
      by_cases hind : s = .ind 1
      · exact .inr ⟨hind, if_pos hind⟩
      · exact absurd (if_neg hind) hne
  have hfree : ∀ b, isFree indirectFile b = true → 6 ≤ b := by
    intro b hb
    by_contra hlt
    have hused : ∀ b < 6, isFree indirectFile b = false := by decide +kernel
    rw [hused b (by omega)] at hb
    cases hb
  have hres : ∀ b, 3 ≤ b → ¬ Reserved indirectFile 8256 b := by
    intro b hb hr
    have h₁ : fbbBn indirectFile = 1 := by decide +kernel
    have h₂ : inoEntry 8256 = 2 := by decide
    unfold Reserved at hr
    omega
  refine ⟨by decide, by decide +kernel, by decide, by decide +kernel, fun s t hs ht hne heq => ?_,
    fun s hs hne => ?_, fun b hb => hres b (by have := hfree b hb; omega)⟩
  · rcases hval s hs hne with ⟨rfl, h₁⟩ | ⟨rfl, h₁⟩ <;>
      rcases hval t ht (heq ▸ hne) with ⟨rfl, h₂⟩ | ⟨rfl, h₂⟩ <;>
      first | rfl | (rw [h₁, h₂] at heq; cases heq)
  · rcases hval s hs hne with ⟨rfl, h₁⟩ | ⟨rfl, h₁⟩ <;> rw [h₁]
    · exact ⟨hres 5 (by decide), by decide +kernel⟩
    · exact ⟨hres 4 (by decide), by decide +kernel⟩

/-- The indirect block is not loaded, and a new one is put in its place. -/
theorem refused_load_loses_block :
    ¬ ∀ (m : Mem) (ino off bn : Nat) (it₀ it : FileIter) (cs cs₁ : List Bool) (m₁ : Mem), Sound m
    ino → it₀.Inv m → it₀.ino = ino → off < maxsize → bn < 2 ^ 32 →
    val m ino (.data (off / blocksize)) = 0 →
    exec failing (it₀.find off) m cs = some (it, m₁, cs₁) →
    Kept ino m (final (it.map bn) m₁ cs₁) := by
  intro h
  have hinv := FileIter.Inv.start indirectFile 8256
  have hrun :
      (exec failing ((FileIter.mk' 8256).find 40960) indirectFile [false, true, true, true]).map
      (fun r => r.2.2) = some [true, true, true] := by decide +kernel
  obtain ⟨⟨it, m₁, cs₁⟩, hfind, rfl⟩ := Option.map_eq_some_iff.mp hrun
  have hten : val indirectFile 8256 (.data (40960 / blocksize)) = 0 := by
    have ok : (Slot.data (40960 / blocksize)).Ok := by
      change _ < _
      decide
    exact (indirectFile_val ok).trans (by decide)
  have hkept :=
    h indirectFile 8256 40960 6 _ it _ _ m₁ indirectFile_sound hinv rfl (by decide)
      (by decide) hten hfind
  have hfree : isFree indirectFile 6 = true := by decide +kernel
  have hgranted : granted ((FileIter.mk' 8256).find 40960) indirectFile [false, true, true, true] =
      false := by
    decide +kernel
  rw [find_map_iff indirectFile_sound hinv rfl (by decide) hfind, hgranted,
    if_neg Bool.false_ne_true] at hkept
  rcases hkept with hmax | hzero | hnot
  · exact absurd hmax (by decide)
  · cases hzero
  · exact hnot ⟨freeCount_pos hfree, List.prefix_rfl⟩

end PugOS.ChkFS
