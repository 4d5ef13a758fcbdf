import PugOS.BufCache

/-! # One slot per block

What a section of `get_bufentry_slot` does to the block numbers, and that no two entries
get the same one as long as a task that has given `lock_` up does not find its block in the
cache when it has the lock again.
-/
namespace PugOS
namespace BufCache
variable {s s' : State} {k bn : Nat}

@[simp] theorem modify_self (s : State) (k : Nat) (f : Entry → Entry) :
    (s.modify k f).e k = f (s.e k) := Function.update_self ..

theorem modify_ne {i : Nat} (s : State) (f : Entry → Entry) (h : i ≠ k) :
    (s.modify k f).e i = s.e i := Function.update_of_ne h ..

/-- A step past a check. -/
theorem of_guard {α : Type} {p : Prop} [Decidable p] {x : Option α} {y : α}
    (h : (do guard p; x : Option α) = some y) : p ∧ x = some y := by
  obtain ⟨_, hg, h⟩ := Option.bind_eq_some_iff.mp h
  exact ⟨(Option.guard_eq_some' _).mp hg, h⟩

/-! ### What a section does -/

/-- A slot is taken off its list. -/
theorem unlink_some (h : s.unlink k = some s') : s.linked k = true ∧
    s' = { s with eList := s.eList.erase k, prefList := s.prefList.erase k } := by
  unfold State.unlink at h
  obtain ⟨hl, h⟩ := of_guard h
  exact ⟨hl, (Option.some.inj h).symm⟩

/-- A free slot is given to a block. -/
theorem take_some (h : take s k bn = some s') : s.linked k = false ∧
    s' = ({ s with eList := s.eList ++ [k] }).modify k (fun x => { x with bn := bn }) := by
  unfold take at h
  obtain ⟨hl, h⟩ := of_guard h
  exact ⟨by simpa using hl, (Option.some.inj h).symm⟩

/-- A slot that nobody refers to is emptied. -/
theorem evict_some (h : evict s k = some s') : ∃ s₁, s.unlink k = some s₁ ∧ (s.e k).ref = 0 ∧
    s' = release s₁ k := by
  unfold evict at h
  obtain ⟨s₁, h₁, h⟩ := Option.bind_eq_some_iff.mp h
  obtain ⟨hr, h⟩ := of_guard h
  obtain ⟨-, rfl⟩ := unlink_some h₁
  exact ⟨_, h₁, hr, (Option.some.inj h).symm⟩

/-- The slot that is found has the block. -/
theorem findBlock_some (h : findBlock s.e bn = some k) : k < ne ∧ (s.e k).bn = bn := by
  have hp := List.find?_some h
  exact ⟨List.mem_range.mp (List.mem_of_find?_eq_some h), of_decide_eq_true hp⟩

/-- If none is found, none has. -/
theorem findBlock_none (h : findBlock s.e bn = none) (hk : k < ne) : (s.e k).bn ≠ bn := by
  have := List.find?_eq_none.mp h k (List.mem_range.mpr hk)
  simpa using this

/-- A free slot has no block. -/
theorem findFree_slot {e : Nat → Entry} {l : List Nat} (h : findFree e l = .slot k) :
    k ∈ l ∧ (e k).bn = emptyblock := by
  induction l with
  | nil => cases h
  | cons i l ih =>
    rw [findFree] at h
    split at h
    · rename_i hi
      cases h
      exact ⟨List.mem_cons_self .., hi⟩
    · split at h
      · cases h
      · obtain ⟨hmem, hbn⟩ := ih h
        exact ⟨List.mem_cons_of_mem _ hmem, hbn⟩

/-- How a section that looks for a free slot succeeds: it takes an empty slot, or a victim
that it has evicted. -/
theorem freeSlot_slot {l : List Nat} (h : freeSlot s bn l = some (.slot k s')) :
    (k ∈ l ∧ (s.e k).bn = emptyblock ∧ take s k bn = some s') ∨
      ∃ s₁, victim s = some k ∧ evict s k = some s₁ ∧ take s₁ k bn = some s' := by
  unfold freeSlot at h
  split at h
  · rename_i i hfree
    obtain ⟨s₁, h₁, h⟩ := Option.bind_eq_some_iff.mp h
    cases Option.some.inj h
    obtain ⟨hmem, hbn⟩ := findFree_slot hfree
    exact .inl ⟨hmem, hbn, h₁⟩
  · cases Option.some.inj h
  · split at h
    · cases Option.some.inj h
    · rename_i i hv
      obtain ⟨s₁, h₁, h⟩ := Option.bind_eq_some_iff.mp h
      obtain ⟨s₂, h₂, h⟩ := Option.bind_eq_some_iff.mp h
      cases Option.some.inj h
      exact .inr ⟨s₁, hv, h₁, h₂⟩

/-- How `get_bufentry_slot` succeeds in one section. -/
theorem getBufentrySlot_slot (h : getBufentrySlot s bn = some (.slot k s')) :
    (∃ s₁, k < ne ∧ (s.e k).bn = bn ∧ s.unlink k = some s₁ ∧ take s₁ k bn = some s') ∨
      ((∀ i < ne, (s.e i).bn ≠ bn) ∧ freeSlot s bn (List.range ne) = some (.slot k s')) := by
  unfold getBufentrySlot at h
  split at h
  · rename_i i hfind
    obtain ⟨s₁, h₁, h⟩ := Option.bind_eq_some_iff.mp h
    obtain ⟨s₂, h₂, h⟩ := Option.bind_eq_some_iff.mp h
    cases Option.some.inj h
    obtain ⟨hk, hbn⟩ := findBlock_some hfind
    exact .inl ⟨s₁, hk, hbn, h₁, h₂⟩
  · rename_i hnone
    exact .inr ⟨fun i hi => findBlock_none hnone hi, h⟩

/-! ### Block numbers -/

/-- The block numbers of the entries. -/
def bns (s : State) (i : Nat) : Nat := (s.e i).bn

/-- An entry that is changed may keep its block. -/
theorem bns_modify {f : Entry → Entry} (hf : ∀ x, (f x).bn = x.bn) :
    bns (s.modify k f) = bns s := by
  funext i
  unfold bns
  by_cases hi : i = k
  · rw [hi, modify_self, hf]
  · rw [modify_ne _ _ hi]

theorem bns_unlink (h : s.unlink k = some s') : bns s' = bns s := by
  obtain ⟨-, rfl⟩ := unlink_some h
  rfl

/-- A slot that is taken has the block. -/
theorem bns_take (h : take s k bn = some s') : bns s' = Function.update (bns s) k bn := by
  obtain ⟨-, rfl⟩ := take_some h
  funext i
  unfold bns
  by_cases hi : i = k
  · rw [hi, Function.update_self]
    exact congrArg Entry.bn (modify_self _ _ _)
  · rw [Function.update_of_ne hi]
    exact congrArg Entry.bn (modify_ne _ _ hi)

/-- One that is released has none. -/
theorem bns_release (s : State) (k : Nat) :
    bns (release s k) = Function.update (bns s) k emptyblock := by
  funext i
  unfold bns
  by_cases hi : i = k
  · rw [hi, Function.update_self]
    exact congrArg Entry.bn (modify_self _ _ _)
  · rw [Function.update_of_ne hi]
    exact congrArg Entry.bn (modify_ne _ _ hi)

theorem bns_evict (h : evict s k = some s') : bns s' = Function.update (bns s) k emptyblock := by
  obtain ⟨s₁, h₁, -, rfl⟩ := evict_some h
  rw [bns_release, bns_unlink h₁]

/-- A slot that is found or made free gets the block number, and nothing else changes. -/
theorem bns_freeSlot {l : List Nat} (h : freeSlot s bn l = some (.slot k s')) :
    bns s' = Function.update (bns s) k bn := by
  obtain ⟨-, -, h⟩ | ⟨s₁, -, h₁, h⟩ := freeSlot_slot h
  · exact bns_take h
  · rw [bns_take h, bns_evict h₁, Function.update_idem]

/-- A reference changes no block. -/
theorem bns_addRef (s : State) (k bn : Nat) : bns (addRef s k bn) = bns s := by
  unfold addRef
  split
  · exact bns_modify fun _ => rfl
  · rfl

theorem bns_movePrefetch (h : movePrefetch s k = some s') : bns s' = bns s := by
  unfold movePrefetch at h
  split at h
  · obtain ⟨s₁, h₁, h⟩ := Option.bind_eq_some_iff.mp h
    obtain rfl := Option.some.inj h
    refine Eq.trans (bns_modify ?_) (show bns s₁ = bns s from bns_unlink h₁)
    exact fun _ => rfl
  · rw [Option.some.inj h]

/-- No two entries have the same block. -/
def Unique (f : Nat → Nat) : Prop :=
  ∀ i j, i < ne → j < ne → f i = f j → f i ≠ emptyblock → i = j

/-- A slot may lose its block. -/
theorem Unique.update_empty {f : Nat → Nat} (hu : Unique f) (k : Nat) :
    Unique (Function.update f k emptyblock) := by
  intro i j hi hj heq hne
  by_cases hik : i = k
  · rw [hik, Function.update_self] at hne
    exact absurd rfl hne
  · by_cases hjk : j = k
    · rw [hjk, Function.update_self] at heq
      exact absurd heq hne
    · rw [Function.update_of_ne hik] at heq hne
      rw [Function.update_of_ne hjk] at heq
      exact hu i j hi hj heq hne

/-- It may get one that is nowhere else. -/
theorem Unique.update_absent {f : Nat → Nat} (hu : Unique f) (habs : ∀ i < ne, f i ≠ bn) (k : Nat) :
    Unique (Function.update f k bn) := by
  intro i j hi hj heq hne
  by_cases hik : i = k
  · by_cases hjk : j = k
    · rw [hik, hjk]
    · rw [hik, Function.update_self, Function.update_of_ne hjk] at heq
      exact absurd heq.symm (habs j hj)
  · by_cases hjk : j = k
    · rw [hjk, Function.update_self, Function.update_of_ne hik] at heq
      exact absurd heq (habs i hi)
    · rw [Function.update_of_ne hik] at heq hne
      rw [Function.update_of_ne hjk] at heq
      exact hu i j hi hj heq hne

/-- **A new slot is for a block that no other has.** -/
theorem getBufentrySlot_unique (hu : Unique (bns s))
    (h : getBufentrySlot s bn = some (.slot k s')) : Unique (bns s') := by
  obtain ⟨s₁, -, hbn, h₁, h⟩ | ⟨habs, h⟩ := getBufentrySlot_slot h
  · have hself : Function.update (bns s) k bn = bns s := by
      rw [← hbn]
      exact Function.update_eq_self k (bns s)
    rw [bns_take h, bns_unlink h₁, hself]
    exact hu
  · rw [bns_freeSlot h]
    exact hu.update_absent habs k

/-- A section of `get_disk_entry` that looked for a slot changes the block numbers as the
search does. -/
theorem bns_enter {τ : Nat} {j : Job} {r : Got} (h : enter s τ j r = some s') :
    (∃ k s₁, r = .slot k s₁ ∧ bns s' = bns s₁) ∨ bns s' = bns s := by
  cases r with
  | flush => exact .inr (by rw [← Option.some.inj h]; rfl)
  | full =>
    cases j with
    | main bn => exact .inr (by rw [← Option.some.inj h]; rfl)
    | ahead bn i n => exact .inr (by rw [← Option.some.inj h]; rfl)
  | slot k s₁ =>
    refine .inl ⟨k, s₁, rfl, ?_⟩
    cases j with
    | main bn =>
      rw [← Option.some.inj h]
      exact bns_addRef s₁ k bn
    | ahead bn i n =>
      obtain ⟨s₂, h₂, h⟩ := Option.bind_eq_some_iff.mp h
      obtain rfl := Option.some.inj h
      exact (show bns (s₂.goto τ _) = bns s₂ from rfl).trans (bns_movePrefetch h₂)

theorem bns_loaded (s : State) (τ : Nat) (j : Job) (k : Nat) (prefetching ok : Bool) :
    bns (loaded s τ j k prefetching ok) = bns s := by
  cases j <;> cases ok <;> rfl

/-- Dropping unused blocks keeps them apart. -/
theorem drop_unique : ∀ (l : List Nat) {s s' : State}, Unique (bns s) → drop l s = some s' →
    Unique (bns s') := by
  intro l
  induction l with
  | nil =>
    intro s s' hu h
    rw [← Option.some.inj h]
    exact hu
  | cons k l ih =>
    intro s s' hu h
    rw [drop] at h
    split at h
    · obtain ⟨s₁, h₁, h⟩ := Option.bind_eq_some_iff.mp h
      refine ih ?_ h
      rw [bns_release, bns_unlink h₁]
      exact hu.update_empty k
    · exact ih hu h

/-! ### Steps that leave the block numbers -/

theorem bns_goto (s : State) (τ : Nat) (pc : Pc) : bns (s.goto τ pc) = bns s := rfl

/-- A block that is loaded stays in its slot. -/
theorem bns_loadDiskBlock {τ : Nat} {buf : Option Nat} (h : loadDiskBlock s τ buf = some s') :
    bns s' = bns s := by
  unfold loadDiskBlock at h
  split at h
  · rename_i j k prefetching _
    split at h
    · rw [← Option.some.inj h, bns_loaded]
    · split at h
      · rw [← Option.some.inj h]
        exact bns_modify (s := s) (k := k) (f := fun x => { x with loading := true }) fun _ => rfl
      · obtain ⟨-, h⟩ := of_guard h
        rw [← Option.some.inj h, bns_goto]
        refine Eq.trans (bns_modify ?_) rfl
        exact fun _ => rfl
      · rw [← Option.some.inj h, bns_loaded]
        exact bns_modify fun _ => rfl
  · cases h

theorem bns_issue (s : State) (q : Nat) (c : Cmd) : bns (issue s q c) = bns s :=
  bns_modify (s := { s with cmds := s.cmds.set q c })
    (f := fun x => { x with fetchStatus := .again }) fun _ => rfl

theorem bns_queueRead {nslots τ : Nat} (h : queueRead nslots s τ = some s') : bns s' = bns s := by
  unfold queueRead at h
  split at h
  · split at h
    · rw [← Option.some.inj h, bns_loaded]
      exact bns_modify fun _ => rfl
    · obtain ⟨b, -, h⟩ := Option.bind_eq_some_iff.mp h
      rw [← Option.some.inj h, bns_loaded, bns_issue]
  · cases h

theorem bns_finishLoad (h : finishLoad s k = some s') : bns s' = bns s := by
  have hmod : bns (s.modify k fun x => { x with loading := false, loaded := true }) = bns s :=
    bns_modify fun _ => rfl
  unfold finishLoad at h
  split at h
  · dsimp only at h
    split at h
    · obtain ⟨s₁, h₁, h⟩ := Option.bind_eq_some_iff.mp h
      obtain rfl := Option.some.inj h
      refine Eq.trans (bns_modify ?_) (show bns s₁ = bns s from (bns_unlink h₁).trans hmod)
      exact fun _ => rfl
    · rw [← Option.some.inj h, hmod]
  · rw [Option.some.inj h]

theorem bns_finish {τ : Nat} (h : finish s τ = some s') : bns s' = bns s := by
  unfold finish at h
  split at h
  · obtain ⟨-, h⟩ := of_guard h
    obtain ⟨s₁, h₁, h⟩ := Option.bind_eq_some_iff.mp h
    obtain rfl := Option.some.inj h
    exact (show bns (s₁.goto τ _) = bns s₁ from rfl).trans (bns_finishLoad h₁)
  · cases h

theorem bns_putEntry {τ : Nat} (h : putEntry s τ = some s') : bns s' = bns s := by
  unfold putEntry at h
  split at h
  · rename_i k _
    split at h
    · rw [← Option.some.inj h]
      exact bns_modify (s := s) (k := k) (f := fun x => { x with ref := decRef x.ref })
        fun _ => rfl
    · rw [← Option.some.inj h]
      rfl
  · cases h

theorem bns_sullyEntry (h : sullyEntry s k = some s') : bns s' = bns s := by
  unfold sullyEntry at h
  split at h
  · rw [Option.some.inj h]
  · obtain ⟨-, h⟩ := of_guard h
    obtain rfl := Option.some.inj h
    exact bns_modify fun _ => rfl

theorem bns_sully {τ : Nat} (h : sully s τ = some s') : bns s' = bns s := by
  unfold sully at h
  split at h
  · exact bns_sullyEntry h
  · cases h

theorem bns_writeBack {nslots τ : Nat} (h : writeBack nslots s τ k = some s') : bns s' = bns s := by
  unfold writeBack at h
  obtain ⟨-, h⟩ := of_guard h
  obtain ⟨-, h⟩ := of_guard h
  obtain ⟨s₁, h₁, h⟩ := Option.bind_eq_some_iff.mp h
  obtain ⟨q, -, h⟩ := Option.bind_eq_some_iff.mp h
  obtain ⟨b, -, h⟩ := Option.bind_eq_some_iff.mp h
  have hs : bns s₁ = bns s := Eq.trans (bns_sullyEntry h₁) rfl
  rw [← Option.some.inj h, bns_goto, bns_issue, hs]

theorem bns_markClean {τ : Nat} (h : markClean s τ = some s') : bns s' = bns s := by
  unfold markClean at h
  split at h
  · rename_i k _
    obtain ⟨-, h⟩ := of_guard h
    rw [← Option.some.inj h]
    exact bns_modify (s := s) (k := k) (f := fun x => { x with dirty := false }) fun _ => rfl
  · cases h

/-- The device changes no block number. -/
theorem bns_acknowledge {q : Nat} {failed : Bool} (h : acknowledge s q failed = some s') :
    bns s' = bns s := by
  unfold acknowledge at h
  obtain ⟨c, -, h⟩ := Option.bind_eq_some_iff.mp h
  rw [← Option.some.inj h]
  exact bns_modify fun _ => rfl

/-! ### Runs -/

/-- A task that has `lock_` again after `sync(false)` finds the block it is looking for in
the cache. -/
def Overtaken (s : State) : Label → Prop
  | .resume τ => ∃ j i, s.tasks.get τ = some (.flush j) ∧ i < ne ∧ (s.e i).bn = j.block
  | _ => False

/-- **Every step keeps the blocks apart**, if no call is overtaken. -/
theorem step_unique {nslots : Nat} {l : Label} (hu : Unique (bns s)) (hok : ¬Overtaken s l)
    (h : step nslots s l = some s') : Unique (bns s') := by
  cases l with
  | get τ bn =>
    change getDiskEntry s τ bn = some s' at h
    unfold getDiskEntry at h
    obtain ⟨-, h⟩ := of_guard h
    obtain ⟨-, h⟩ := of_guard h
    obtain ⟨r, hr, h⟩ := Option.bind_eq_some_iff.mp h
    obtain ⟨k, s₁, rfl, hb⟩ | hb := bns_enter h
    · rw [hb]
      exact getBufentrySlot_unique hu hr
    · rw [hb]
      exact hu
  | resume τ =>
    change resume s τ = some s' at h
    unfold resume at h
    split at h
    · rename_i j hj
      obtain ⟨r, hr, h⟩ := Option.bind_eq_some_iff.mp h
      obtain ⟨k, s₁, rfl, hb⟩ | hb := bns_enter h
      · rw [hb, bns_freeSlot hr]
        exact hu.update_absent (fun i hi hbn => hok ⟨j, i, hj, hi, hbn⟩) k
      · rw [hb]
        exact hu
    · cases h
  | load τ buf => exact (bns_loadDiskBlock h).symm ▸ hu
  | queue τ => exact (bns_queueRead h).symm ▸ hu
  | prefetch τ =>
    change prefetch s τ = some s' at h
    unfold prefetch at h
    split at h
    · split at h
      · obtain ⟨r, hr, h⟩ := Option.bind_eq_some_iff.mp h
        obtain ⟨k, s₁, rfl, hb⟩ | hb := bns_enter h
        · rw [hb]
          exact getBufentrySlot_unique hu hr
        · rw [hb]
          exact hu
      · rw [← Option.some.inj h]
        exact hu
    · cases h
  | finish τ => exact (bns_finish h).symm ▸ hu
  | put τ => exact (bns_putEntry h).symm ▸ hu
  | sully τ => exact (bns_sully h).symm ▸ hu
  | writeBack τ k => exact (bns_writeBack h).symm ▸ hu
  | markClean τ => exact (bns_markClean h).symm ▸ hu
  | drop => exact drop_unique _ hu h
  | acknowledge q failed => exact (bns_acknowledge h).symm ▸ hu

theorem boot_e (hk : k ≠ 0) : boot.e k = .empty := by simp [boot, hk]

/-- At the boot there is one block. -/
theorem boot_unique : Unique (bns boot) := by
  intro i j _ _ heq hne
  have hz : ∀ k, bns boot k ≠ emptyblock → k = 0 := by
    intro k hk
    by_contra hk0
    exact hk (by rw [bns, boot_e hk0]; rfl)
  rw [hz i hne, hz j (heq ▸ hne)]

/-- **One cache slot per block**, in every run in which no task is overtaken while it has
given `lock_` up. -/
theorem one_slot_per_block {nslots : Nat} {s : State}
    (h : (machine nslots).ReachWhen (fun s l => ¬Overtaken s l) s) : Unique (bns s) := by
  refine h.invariant (fun s => Unique (bns s)) ?_ ?_
  · rintro s rfl
    exact boot_unique
  · exact fun s l s' hu hok h => step_unique hu hok h

/-- One task reads block 7, makes it dirty and lets it go; a disk with one command slot has
no room for the prefetch. -/
def dirtied : List Label :=
  [.get 1 7, .load 1 (some 100), .queue 1, .prefetch 1, .load 1 (some 101), .queue 1,
    .acknowledge 0 false, .finish 1, .sully 1, .put 1]

/-- A task looks for block 50, finds the dirty entry first and gives `lock_` up; when it has
been written, the task takes a slot. -/
theorem one_slot_per_block_resumed : ∃ s s', (machine 1).run boot (dirtied ++ [.get 2 50,
      .writeBack 4 1, .acknowledge 0 false, .markClean 4]) = some s ∧
    (machine 1).step s (.resume 2) = some s' ∧ (s'.e 3).bn = 50 ∧ Unique (bns s') := by
  obtain ⟨s, s', j, hrun, hstep, hpc, hblock, hnone, hbn⟩ : ∃ s s' j,
      (machine 1).run boot (dirtied ++ [.get 2 50, .writeBack 4 1, .acknowledge 0 false,
        .markClean 4]) = some s ∧ (machine 1).step s (.resume 2) = some s' ∧
      s.tasks.get 2 = some (.flush j) ∧ j.block = 50 ∧ (∀ i < ne, bns s i ≠ 50) ∧
      (s'.e 3).bn = 50 :=
    ⟨_, _, _, rfl, rfl, rfl, rfl, by decide, rfl⟩
  refine ⟨s, s', hrun, hstep, hbn, one_slot_per_block (.step ?_ ?_ hstep)⟩
  · exact .run (by simp [dirtied, Overtaken]) (.init rfl) hrun
  · rintro ⟨j', i, hpc', hi, hblock'⟩
    cases hpc.symm.trans hpc'
    exact hnone i hi (hblock'.trans hblock)

/-- Two tasks look for block 50, both find the dirty entry first and give `lock_` up; when
it has been written, both take a slot. -/
theorem two_slots : ∃ s, (machine 1).Reach s ∧ ¬Unique (bns s) := by
  have hrun : ∃ s, (machine 1).Reach s ∧ bns s 3 = 50 ∧ bns s 4 = 50 :=
    ⟨_, Transition.Machine.Reach.run (l := dirtied ++ [.get 2 50, .get 3 50, .writeBack 4 1,
      .acknowledge 0 false, .markClean 4, .resume 2, .resume 3])
      (Transition.Machine.Reach.init rfl) rfl, rfl, rfl⟩
  obtain ⟨s, hs, h3, h4⟩ := hrun
  refine ⟨s, hs, fun hu => ?_⟩
  have hij : (3 : Nat) = 4 :=
    hu 3 4 (by decide) (by decide) (h3.trans h4.symm) (by rw [h3]; decide)
  exact absurd hij (by decide)

end BufCache
end PugOS
