import PugOS.BufCacheSlot
import Mathlib.Data.ZMod.Basic

/-! # The references of a failed `get_disk_entry`

A call of `get_disk_entry` is a sequence of sections, with steps of other tasks and of the disk
between them.  What its own sections add to each `ref_`, an unsigned number, is followed along the
call (`Call`).  A call that returns null has added nothing exactly if it was not the superblock's
that got no memory, and not another block's that got no command slot (`failed_get_iff`).
-/
namespace PugOS
namespace BufCache

variable {s s' : State} {k bn τ nslots : Nat}

/-- The references of the entries. -/
def refs (s : State) (k : Nat) : ZMod (2 ^ 32) := (s.e k).ref

theorem refs_modify {f : Entry → Entry} (hf : ∀ x, (f x).ref = x.ref) :
    refs (s.modify k f) = refs s := by
  funext i
  unfold refs
  by_cases hi : i = k
  · rw [hi, modify_self, hf]
  · rw [modify_ne _ _ hi]

theorem refs_modify_add {f : Entry → Entry} {d : ZMod (2 ^ 32)}
    (hf : ∀ x, ((f x).ref : ZMod (2 ^ 32)) = (x.ref : ZMod (2 ^ 32)) + d) :
    refs (s.modify k f) = refs s + Pi.single k d := by
  funext i
  rw [Pi.add_apply]
  unfold refs
  by_cases hi : i = k
  · rw [hi, modify_self, hf, Pi.single_eq_same]
  · rw [modify_ne _ _ hi, Pi.single_eq_of_ne hi, add_zero]

theorem refs_unlink (h : s.unlink k = some s') : refs s' = refs s := by
  obtain ⟨-, rfl⟩ := unlink_some h
  rfl

theorem refs_take (h : take s k bn = some s') : refs s' = refs s := by
  obtain ⟨-, rfl⟩ := take_some h
  refine Eq.trans (refs_modify ?_) (show refs { s with eList := s.eList ++ [k] } = refs s from rfl)
  exact fun _ => rfl

theorem refs_evict (h : evict s k = some s') : refs s' = refs s := by
  obtain ⟨s₁, h₁, -, rfl⟩ := evict_some h
  refine Eq.trans (refs_modify ?_) (show refs s₁ = refs s from refs_unlink h₁)
  exact fun _ => rfl

/-- Looking for a slot takes no reference. -/
theorem refs_freeSlot {l : List Nat} (h : freeSlot s bn l = some (.slot k s')) :
    refs s' = refs s := by
  obtain ⟨-, -, h⟩ | ⟨s₁, -, h₁, h⟩ := freeSlot_slot h
  · exact refs_take h
  · exact (refs_take h).trans (refs_evict h₁)

theorem refs_getBufentrySlot (h : getBufentrySlot s bn = some (.slot k s')) : refs s' = refs s := by
  obtain ⟨s₁, -, -, h₁, h⟩ | ⟨-, h⟩ := getBufentrySlot_slot h
  · exact (refs_take h).trans (refs_unlink h₁)
  · exact refs_freeSlot h

/-- The reference that a call for block `bn` takes to its slot. -/
def taken (bn k : Nat) : Nat → ZMod (2 ^ 32) := if bn ≠ 0 then Pi.single k 1 else 0

theorem cast_incRef (r : Nat) : (incRef r : ZMod (2 ^ 32)) = (r : ZMod (2 ^ 32)) + 1 := by
  unfold incRef
  split
  · rename_i hr
    rw [hr]
    decide
  · exact Nat.cast_succ r

theorem refs_addRef (s : State) (k bn : Nat) : refs (addRef s k bn) = refs s + taken bn k := by
  unfold addRef taken
  split
  · exact refs_modify_add fun x => cast_incRef x.ref
  · exact (add_zero _).symm

theorem cast_decRef (r : Nat) : (decRef r : ZMod (2 ^ 32)) = (r : ZMod (2 ^ 32)) + -1 := by
  unfold decRef
  split
  · rename_i hr
    rw [hr]
    decide
  · rw [Nat.cast_pred (by omega), sub_eq_add_neg]

theorem refs_decRef (s : State) (k : Nat) :
    refs (s.modify k fun x => { x with ref := decRef x.ref }) = refs s + Pi.single k (-1) :=
  refs_modify_add fun x => cast_decRef x.ref

/-! ## A call -/

/-- The task that a step is one of. -/
def Label.task : Label → Option Nat
  | .get τ _ => some τ
  | .resume τ => some τ
  | .load τ _ => some τ
  | .queue τ => some τ
  | .prefetch τ => some τ
  | .finish τ => some τ
  | .put τ => some τ
  | .sully τ => some τ
  | .writeBack τ _ => some τ
  | .markClean τ => some τ
  | .drop => none
  | .acknowledge _ _ => none

/-- The sections of `get_disk_entry` after the first. -/
inductive Section (τ : Nat) : Label → Prop
  | resume : Section τ (.resume τ)
  | load (buf : Option Nat) : Section τ (.load τ buf)
  | queue : Section τ (.queue τ)
  | prefetch : Section τ (.prefetch τ)
  | finish : Section τ (.finish τ)

/-- Task `τ` is in a call of `get_disk_entry(bn)` that has begun in `s`, or has returned null from
it: what its sections have added to the references, the last of them, and the state.  Between the
sections others take steps that `Other` allows. -/
inductive Call (nslots : Nat) (Other : State → Label → State → Prop) (s : State) (τ bn : Nat) :
    (Nat → ZMod (2 ^ 32)) → Label → State → Prop
  | get {s₁ : State} (h : step nslots s (.get τ bn) = some s₁) :
    Call nslots Other s τ bn (refs s₁ - refs s) (.get τ bn) s₁
  | own {d : Nat → ZMod (2 ^ 32)} {l l' : Label} {s₁ s₂ : State}
      (hc : Call nslots Other s τ bn d l s₁)
    (hl : Section τ l') (h : step nslots s₁ l' = some s₂) :
    Call nslots Other s τ bn (d + (refs s₂ - refs s₁)) l' s₂
  | other {d : Nat → ZMod (2 ^ 32)} {l l' : Label} {s₁ s₂ : State}
      (hc : Call nslots Other s τ bn d l s₁)
    (hl : l'.task ≠ some τ) (h : step nslots s₁ l' = some s₂) (hother : Other s₁ l' s₂) :
    Call nslots Other s τ bn d l s₂

/-! ## The tasks -/

theorem tasks_unlink (h : s.unlink k = some s') : s'.tasks = s.tasks := by
  obtain ⟨-, rfl⟩ := unlink_some h
  rfl

theorem tasks_take (h : take s k bn = some s') : s'.tasks = s.tasks := by
  obtain ⟨-, rfl⟩ := take_some h
  rfl

theorem tasks_evict (h : evict s k = some s') : s'.tasks = s.tasks := by
  obtain ⟨s₁, h₁, -, rfl⟩ := evict_some h
  have hunlink := tasks_unlink h₁
  exact hunlink

theorem tasks_freeSlot {l : List Nat} (h : freeSlot s bn l = some (.slot k s')) :
    s'.tasks = s.tasks := by
  obtain ⟨-, -, h⟩ | ⟨s₁, -, h₁, h⟩ := freeSlot_slot h
  · exact tasks_take h
  · exact (tasks_take h).trans (tasks_evict h₁)

theorem tasks_getBufentrySlot (h : getBufentrySlot s bn = some (.slot k s')) :
    s'.tasks = s.tasks := by
  obtain ⟨s₁, -, -, h₁, h⟩ | ⟨-, h⟩ := getBufentrySlot_slot h
  · exact (tasks_take h).trans (tasks_unlink h₁)
  · exact tasks_freeSlot h

theorem tasks_addRef (s : State) (k bn : Nat) : (addRef s k bn).tasks = s.tasks := by
  unfold addRef
  split <;> rfl

theorem tasks_movePrefetch (h : movePrefetch s k = some s') : s'.tasks = s.tasks := by
  unfold movePrefetch at h
  split at h
  · obtain ⟨s₁, h₁, h⟩ := Option.bind_eq_some_iff.mp h
    rw [← Option.some.inj h]
    have hunlink := tasks_unlink h₁
    exact hunlink
  · rw [Option.some.inj h]

theorem tasks_finishLoad (h : finishLoad s k = some s') : s'.tasks = s.tasks := by
  unfold finishLoad at h
  split at h
  · dsimp only at h
    split at h
    · obtain ⟨s₁, h₁, h⟩ := Option.bind_eq_some_iff.mp h
      rw [← Option.some.inj h]
      have hunlink := tasks_unlink h₁
      exact hunlink
    · rw [← Option.some.inj h]
      rfl
  · rw [Option.some.inj h]

theorem tasks_sullyEntry (h : sullyEntry s k = some s') : s'.tasks = s.tasks := by
  unfold sullyEntry at h
  split at h
  · rw [Option.some.inj h]
  · obtain ⟨-, h⟩ := of_guard h
    rw [← Option.some.inj h]
    rfl

theorem tasks_drop : ∀ (l : List Nat) {s s' : State}, drop l s = some s' → s'.tasks = s.tasks := by
  intro l
  induction l with
  | nil =>
    intro s s' h
    rw [Option.some.inj h]
  | cons k l ih =>
    intro s s' h
    rw [drop] at h
    split at h
    · obtain ⟨s₁, h₁, h⟩ := Option.bind_eq_some_iff.mp h
      have hunlink := tasks_unlink h₁
      exact (ih h).trans hunlink
    · exact ih h

theorem loaded_get_ne (s : State) {τ' : Nat} (hne : τ ≠ τ') (j : Job) (k : Nat) (p ok : Bool) :
    (loaded s τ' j k p ok).tasks.get τ = s.tasks.get τ := by
  cases j <;> cases ok
  · exact Heap.get_erase_ne hne
  · exact Heap.get_set_ne hne
  · exact Heap.get_set_ne hne
  · exact Heap.get_set_ne hne

theorem enter_get_ne {τ' : Nat} (hne : τ ≠ τ') {j : Job} {r : Got}
    (hr : ∀ k s₁, r = .slot k s₁ → s₁.tasks = s.tasks)
    (h : enter s τ' j r = some s') : s'.tasks.get τ = s.tasks.get τ := by
  cases r with
  | flush =>
    rw [← Option.some.inj h]
    exact Heap.get_set_ne hne
  | full =>
    cases j with
    | main bn =>
      rw [← Option.some.inj h]
      exact Heap.get_erase_ne hne
    | ahead bn i n =>
      rw [← Option.some.inj h]
      exact Heap.get_set_ne hne
  | slot k s₁ =>
    rw [← hr k s₁ rfl]
    cases j with
    | main bn =>
      rw [← Option.some.inj h, ← tasks_addRef s₁ k bn]
      exact Heap.get_set_ne hne
    | ahead bn i n =>
      obtain ⟨s₂, h₂, h⟩ := Option.bind_eq_some_iff.mp h
      rw [← Option.some.inj h, ← tasks_movePrefetch h₂]
      exact Heap.get_set_ne hne

/-- **A step is one of its task.** -/
theorem tasks_step {l : Label} (hl : l.task ≠ some τ) (h : step nslots s l = some s') :
    s'.tasks.get τ = s.tasks.get τ := by
  have hne : ∀ {τ' : Nat}, l.task = some τ' → τ ≠ τ' := fun ht heq => hl (heq ▸ ht)
  cases l with
  | get τ' bn =>
    obtain ⟨-, h⟩ := of_guard h
    obtain ⟨-, h⟩ := of_guard h
    obtain ⟨r, hr, h⟩ := Option.bind_eq_some_iff.mp h
    exact enter_get_ne (hne rfl) (fun k s₁ hs => tasks_getBufentrySlot (hs ▸ hr)) h
  | resume τ' =>
    change resume s τ' = some s' at h
    unfold resume at h
    split at h
    · obtain ⟨r, hr, h⟩ := Option.bind_eq_some_iff.mp h
      exact enter_get_ne (hne rfl) (fun k s₁ hs => tasks_freeSlot (hs ▸ hr)) h
    · cases h
  | load τ' buf =>
    change loadDiskBlock s τ' buf = some s' at h
    unfold loadDiskBlock at h
    split at h
    · split at h
      · rw [← Option.some.inj h]
        exact loaded_get_ne s (hne rfl) _ _ _ _
      · split at h
        · rw [← Option.some.inj h]
          exact Heap.get_set_ne (hne rfl)
        · obtain ⟨-, h⟩ := of_guard h
          rw [← Option.some.inj h]
          exact Heap.get_set_ne (hne rfl)
        · rw [← Option.some.inj h]
          exact loaded_get_ne _ (hne rfl) _ _ _ _
    · cases h
  | queue τ' =>
    change queueRead nslots s τ' = some s' at h
    unfold queueRead at h
    split at h
    · split at h
      · rw [← Option.some.inj h]
        exact loaded_get_ne _ (hne rfl) _ _ _ _
      · obtain ⟨b, -, h⟩ := Option.bind_eq_some_iff.mp h
        rw [← Option.some.inj h]
        exact loaded_get_ne _ (hne rfl) _ _ _ _
    · cases h
  | prefetch τ' =>
    change prefetch s τ' = some s' at h
    unfold prefetch at h
    split at h
    · split at h
      · obtain ⟨r, hr, h⟩ := Option.bind_eq_some_iff.mp h
        exact enter_get_ne (hne rfl) (fun k s₁ hs => tasks_getBufentrySlot (hs ▸ hr)) h
      · rw [← Option.some.inj h]
        exact Heap.get_set_ne (hne rfl)
    · cases h
  | finish τ' =>
    change finish s τ' = some s' at h
    unfold finish at h
    split at h
    · obtain ⟨-, h⟩ := of_guard h
      obtain ⟨s₁, h₁, h⟩ := Option.bind_eq_some_iff.mp h
      rw [← Option.some.inj h, ← tasks_finishLoad h₁]
      exact Heap.get_set_ne (hne rfl)
    · cases h
  | put τ' =>
    change putEntry s τ' = some s' at h
    unfold putEntry at h
    split at h
    · split at h <;>
      · rw [← Option.some.inj h]
        exact Heap.get_erase_ne (hne rfl)
    · cases h
  | sully τ' =>
    change sully s τ' = some s' at h
    unfold sully at h
    split at h
    · rw [tasks_sullyEntry h]
    · cases h
  | writeBack τ' k =>
    obtain ⟨-, h⟩ := of_guard h
    obtain ⟨-, h⟩ := of_guard h
    obtain ⟨s₁, h₁, h⟩ := Option.bind_eq_some_iff.mp h
    obtain ⟨q, -, h⟩ := Option.bind_eq_some_iff.mp h
    obtain ⟨b, -, h⟩ := Option.bind_eq_some_iff.mp h
    rw [← Option.some.inj h]
    exact (Heap.get_set_ne (hne rfl)).trans (congrArg (fun t => t.get τ) (tasks_sullyEntry h₁))
  | markClean τ' =>
    change markClean s τ' = some s' at h
    unfold markClean at h
    split at h
    · obtain ⟨-, h⟩ := of_guard h
      rw [← Option.some.inj h]
      exact Heap.get_erase_ne (hne rfl)
    · cases h
  | drop => rw [tasks_drop _ h]
  | acknowledge q failed =>
    obtain ⟨c, -, h⟩ := Option.bind_eq_some_iff.mp h
    rw [← Option.some.inj h]
    rfl

/-! ## A call that returns null -/

/-- The task is past the load of its block. -/
def Pc.later : Pc → Bool
  | .flush (.ahead _ _ _) => true
  | .load (.ahead _ _ _) _ _ => true
  | .queue (.ahead _ _ _) _ _ => true
  | .next _ _ _ => true
  | .wait _ => true
  | .hold _ => true
  | _ => false

/-- How far a call is, and what it has added to the references so far. -/
inductive Stage (τ bn : Nat) (d : Nat → ZMod (2 ^ 32)) (l : Label) (s : State) : Prop
  | looking (hpc : s.tasks.get τ = some (.flush (.main bn))) (hd : d = 0)
  | loading {k : Nat} {p : Bool} (hpc : s.tasks.get τ = some (.load (.main bn) k p))
      (hd : d = taken bn k)
  | queuing {k : Nat} {p : Bool} (hpc : s.tasks.get τ = some (.queue (.main bn) k p))
      (hd : d = taken bn k)
  | later {pc : Pc} (hpc : s.tasks.get τ = some pc) (hlater : pc.later = true)
  | full (hpc : s.tasks.get τ = none) (hd : d = 0) (hl : l = .get τ bn ∨ l = .resume τ)
  | noMemory {k : Nat} (hpc : s.tasks.get τ = none) (hd : d = taken bn k + Pi.single k (-1))
      {buf : Option Nat}
    (hl : l = .load τ buf)
  | noSlot {k : Nat} (hpc : s.tasks.get τ = none) (hd : d = taken bn k) (hl : l = .queue τ)

variable {d : Nat → ZMod (2 ^ 32)} {l : Label}

/-- The section that looks for the block's slot. -/
theorem Stage.enter {r : Got} (hr : ∀ k s₁, r = .slot k s₁ → refs s₁ = refs s)
    (hl : l = .get τ bn ∨ l = .resume τ) (hd : d = 0) (h : enter s τ (.main bn) r = some s') :
    Stage τ bn (d + (refs s' - refs s)) l s' := by
  rw [hd, zero_add]
  cases r with
  | flush =>
    cases Option.some.inj h
    exact .looking Heap.get_set_self (sub_self _)
  | full =>
    cases Option.some.inj h
    exact .full Heap.get_erase_self (sub_self _) hl
  | slot k s₁ =>
    cases Option.some.inj h
    refine .loading Heap.get_set_self ?_
    change refs (addRef s₁ k bn) - refs s = _
    rw [refs_addRef, hr k s₁ rfl, add_sub_cancel_left]

theorem enter_later {r : Got} {bn₀ i n : Nat}
    (h : BufCache.enter s τ (.ahead bn₀ i n) r = some s') :
    ∃ pc, s'.tasks.get τ = some pc ∧ pc.later = true := by
  cases r with
  | flush =>
    cases Option.some.inj h
    exact ⟨_, Heap.get_set_self, rfl⟩
  | full =>
    cases Option.some.inj h
    exact ⟨_, Heap.get_set_self, rfl⟩
  | slot k s₁ =>
    obtain ⟨s₂, -, h⟩ := Option.bind_eq_some_iff.mp h
    cases Option.some.inj h
    exact ⟨_, Heap.get_set_self, rfl⟩

theorem loaded_later (s : State) (τ : Nat) (j : Job) (k : Nat) (p : Bool) :
    ∃ pc, (loaded s τ j k p true).tasks.get τ = some pc ∧ pc.later = true := by
  cases j with
  | main bn =>
    cases p
    · exact ⟨_, Heap.get_set_self, rfl⟩
    · exact ⟨_, Heap.get_set_self, rfl⟩
  | ahead bn i n => exact ⟨_, Heap.get_set_self, rfl⟩

theorem loaded_ahead_later (s : State) (τ bn i n k : Nat) (p ok : Bool) :
    ∃ pc, (loaded s τ (.ahead bn i n) k p ok).tasks.get τ = some pc ∧ pc.later = true := by
  cases ok
  · exact ⟨_, Heap.get_set_self, rfl⟩
  · exact ⟨_, Heap.get_set_self, rfl⟩

/-- A call that is past the load of its block does not return null. -/
theorem later_step {pc : Pc} (hpc : s.tasks.get τ = some pc) (hlater : pc.later = true)
    (hl : Section τ l) (h : step nslots s l = some s') : ∃ pc', s'.tasks.get τ = some pc' ∧
    pc'.later = true := by
  cases hl with
  | resume =>
    change resume s τ = some s' at h
    unfold resume at h
    rw [hpc] at h
    split at h
    · rename_i j heq
      cases heq
      obtain ⟨r, -, h⟩ := Option.bind_eq_some_iff.mp h
      cases j with
      | main bn => cases hlater
      | ahead bn i n => exact enter_later h
    · cases h
  | load buf =>
    change loadDiskBlock s τ buf = some s' at h
    unfold loadDiskBlock at h
    rw [hpc] at h
    split at h
    · rename_i j k p heq
      cases heq
      cases j with
      | main bn => cases hlater
      | ahead bn i n =>
        split at h
        · cases Option.some.inj h
          exact loaded_later s τ _ k p
        · split at h
          · cases Option.some.inj h
            exact ⟨_, Heap.get_set_self, rfl⟩
          · obtain ⟨-, h⟩ := of_guard h
            cases Option.some.inj h
            exact ⟨_, Heap.get_set_self, rfl⟩
          · cases Option.some.inj h
            exact loaded_ahead_later _ τ bn i n k p false
    · cases h
  | queue =>
    change queueRead nslots s τ = some s' at h
    unfold queueRead at h
    rw [hpc] at h
    split at h
    · rename_i j k p heq
      cases heq
      cases j with
      | main bn => cases hlater
      | ahead bn i n =>
        split at h
        · cases Option.some.inj h
          exact loaded_ahead_later _ τ bn i n k p false
        · obtain ⟨b, -, h⟩ := Option.bind_eq_some_iff.mp h
          cases Option.some.inj h
          exact loaded_ahead_later _ τ bn i n k p true
    · cases h
  | prefetch =>
    change prefetch s τ = some s' at h
    unfold prefetch at h
    split at h
    · split at h
      · obtain ⟨r, -, h⟩ := Option.bind_eq_some_iff.mp h
        exact enter_later h
      · cases Option.some.inj h
        exact ⟨_, Heap.get_set_self, rfl⟩
    · cases h
  | finish =>
    change finish s τ = some s' at h
    unfold finish at h
    split at h
    · obtain ⟨-, h⟩ := of_guard h
      obtain ⟨s₁, -, h⟩ := Option.bind_eq_some_iff.mp h
      cases Option.some.inj h
      exact ⟨_, Heap.get_set_self, rfl⟩
    · cases h

/-- Where a task is when it takes a section. -/
def Label.startsAt (pc : Pc) : Label → Prop
  | .resume _ => ∃ j, pc = .flush j
  | .load _ _ => ∃ j k p, pc = .load j k p
  | .queue _ => ∃ j k p, pc = .queue j k p
  | .prefetch _ => ∃ bn i n, pc = .next bn i n
  | _ => ∃ i, pc = .wait i

theorem Section.pc (hl : Section τ l) (h : step nslots s l = some s') :
    ∃ pc, s.tasks.get τ = some pc ∧ l.startsAt pc := by
  cases hl with
  | resume =>
    change BufCache.resume s τ = some s' at h
    unfold BufCache.resume at h
    split at h
    · rename_i j hpc
      exact ⟨_, hpc, j, rfl⟩
    · cases h
  | load buf =>
    change loadDiskBlock s τ buf = some s' at h
    unfold loadDiskBlock at h
    split at h
    · rename_i j k p hpc
      exact ⟨_, hpc, j, k, p, rfl⟩
    · cases h
  | queue =>
    change queueRead nslots s τ = some s' at h
    unfold queueRead at h
    split at h
    · rename_i j k p hpc
      exact ⟨_, hpc, j, k, p, rfl⟩
    · cases h
  | prefetch =>
    change BufCache.prefetch s τ = some s' at h
    unfold BufCache.prefetch at h
    split at h
    · rename_i bn i n hpc
      exact ⟨_, hpc, bn, i, n, rfl⟩
    · cases h
  | finish =>
    change BufCache.finish s τ = some s' at h
    unfold BufCache.finish at h
    split at h
    · rename_i i hpc
      exact ⟨_, hpc, i, rfl⟩
    · cases h

/-- What a section of the call does to its stage. -/
theorem Stage.own {l' : Label} (hst : Stage τ bn d l s) (hl : Section τ l')
    (h : step nslots s l' = some s') : Stage τ bn (d + (refs s' - refs s)) l' s' := by
  obtain ⟨pc, hpc', hat⟩ := hl.pc h
  cases hst with
  | later hpc hlater =>
    obtain ⟨pc', hpc'', hlater'⟩ := later_step hpc hlater hl h
    exact .later hpc'' hlater'
  | full hpc hd hl => cases hpc.symm.trans hpc'
  | noMemory hpc hd hl => cases hpc.symm.trans hpc'
  | noSlot hpc hd hl => cases hpc.symm.trans hpc'
  | looking hpc hd =>
    cases hpc.symm.trans hpc'
    cases hl with
    | resume =>
      change BufCache.resume s τ = some s' at h
      unfold BufCache.resume at h
      rw [hpc] at h
      obtain ⟨r, hr, h⟩ := Option.bind_eq_some_iff.mp h
      exact Stage.enter (fun k s₁ hs => refs_freeSlot (hs ▸ hr)) (.inr rfl) hd h
    | load buf => obtain ⟨j, k, p, hat⟩ := hat; cases hat
    | queue => obtain ⟨j, k, p, hat⟩ := hat; cases hat
    | prefetch => obtain ⟨bn, i, n, hat⟩ := hat; cases hat
    | finish => obtain ⟨i, hat⟩ := hat; cases hat
  | @loading k p hpc hd =>
    cases hpc.symm.trans hpc'
    cases hl with
    | load buf =>
      change loadDiskBlock s τ buf = some s' at h
      unfold loadDiskBlock at h
      rw [hpc] at h
      dsimp only at h
      split at h
      · cases Option.some.inj h
        obtain ⟨pc', hpc'', hlater⟩ := loaded_later s τ (.main bn) k p
        exact .later hpc'' hlater
      · have hadd : ∀ {t : State}, refs t = refs s → d + (refs t - refs s) = taken bn k := by
          intro t ht
          rw [ht, sub_self, add_zero, hd]
        split at h
        · cases Option.some.inj h
          have hsame : refs (s.modify k fun x => { x with loading := true }) = refs s :=
            refs_modify fun _ => rfl
          exact .queuing Heap.get_set_self (hadd hsame)
        · rename_i b _
          obtain ⟨-, h⟩ := of_guard h
          cases Option.some.inj h
          have hsame : refs (({ s with live := insert b s.live } : State).modify k
              fun x => { x with buf := some b, loading := true }) = refs s := refs_modify fun _ =>
              rfl
          exact .queuing Heap.get_set_self (hadd hsame)
        · cases Option.some.inj h
          have hgiven : d + (refs (s.modify k fun x => { x with ref := decRef x.ref }) - refs s) =
              taken bn k + Pi.single k (-1) := by
            rw [refs_decRef, add_sub_cancel_left, hd]
          exact .noMemory Heap.get_erase_self hgiven rfl
    | resume => obtain ⟨j, hat⟩ := hat; cases hat
    | queue => obtain ⟨j, k, p, hat⟩ := hat; cases hat
    | prefetch => obtain ⟨bn, i, n, hat⟩ := hat; cases hat
    | finish => obtain ⟨i, hat⟩ := hat; cases hat
  | @queuing k p hpc hd =>
    cases hpc.symm.trans hpc'
    cases hl with
    | queue =>
      change queueRead nslots s τ = some s' at h
      unfold queueRead at h
      rw [hpc] at h
      dsimp only at h
      split at h
      · cases Option.some.inj h
        have hsame : refs (s.modify k fun x => { x with loading := false }) = refs s :=
          refs_modify fun _ => rfl
        have hkeeps : d + (refs (s.modify k fun x => { x with loading := false }) - refs s) =
            taken bn k := by
          rw [hsame, sub_self, add_zero, hd]
        exact .noSlot Heap.get_erase_self hkeeps rfl
      · obtain ⟨b, -, h⟩ := Option.bind_eq_some_iff.mp h
        cases Option.some.inj h
        obtain ⟨pc', hpc'', hlater⟩ := loaded_later (issue s _ ⟨k, b, bn, false⟩) τ (.main bn) k p
        exact .later hpc'' hlater
    | resume => obtain ⟨j, hat⟩ := hat; cases hat
    | load buf => obtain ⟨j, k, p, hat⟩ := hat; cases hat
    | prefetch => obtain ⟨bn, i, n, hat⟩ := hat; cases hat
    | finish => obtain ⟨i, hat⟩ := hat; cases hat

theorem Stage.other (hst : Stage τ bn d l s) (hsame : s'.tasks.get τ = s.tasks.get τ) :
    Stage τ bn d l s' := by
  cases hst with
  | looking hpc hd => exact .looking (hsame.trans hpc) hd
  | loading hpc hd => exact .loading (hsame.trans hpc) hd
  | queuing hpc hd => exact .queuing (hsame.trans hpc) hd
  | later hpc hlater => exact .later (hsame.trans hpc) hlater
  | full hpc hd hl => exact .full (hsame.trans hpc) hd hl
  | noMemory hpc hd hl => exact .noMemory (hsame.trans hpc) hd hl
  | noSlot hpc hd hl => exact .noSlot (hsame.trans hpc) hd hl

variable {Other : State → Label → State → Prop}

/-- **A call is at one of the stages.** -/
theorem Call.stage (h : Call nslots Other s τ bn d l s') : Stage τ bn d l s' := by
  induction h with
  | @get s₁ h =>
    obtain ⟨-, h⟩ := of_guard h
    obtain ⟨-, h⟩ := of_guard h
    obtain ⟨r, hr, h⟩ := Option.bind_eq_some_iff.mp h
    have hst :=
      Stage.enter (fun k s₁ hs => refs_getBufentrySlot (hs ▸ hr)) (.inl rfl)
        (rfl : (0 : Nat → ZMod (2 ^ 32)) = 0) h
    rwa [zero_add] at hst
  | own hc hl h ih => exact ih.own hl h
  | other hc hl h hother ih => exact ih.other (tasks_step hl h)

/-- While nobody else changes the references, the call's sections account for all changes. -/
theorem Call.alone (h : Call nslots Other s τ bn d l s')
    (hother : ∀ t l t', Other t l t' → refs t' = refs t) : d = refs s' - refs s := by
  induction h with
  | get h => rfl
  | own hc hl h ih => rw [ih, sub_add_sub_cancel']
  | other hc hl h ho ih => rw [hother _ _ _ ho, ih]

/-- **A call that returns null has taken no reference, exactly if** it was not for want of memory
that the superblock was not loaded, and not for want of a command slot that another block was not.
Whatever the others do, the call's own sections have then added nothing to any `ref_`; and if the
others have left the references alone, each is what it was. -/
theorem failed_get_iff (h : Call nslots Other s τ bn d l s') (hnull : s'.tasks.get τ = none) :
    ((∀ k, d k = 0) ↔ (bn = 0 → ∀ buf, l ≠ .load τ buf) ∧ (bn ≠ 0 → l ≠ .queue τ)) ∧
      ((∀ t l t', Other t l t' → refs t' = refs t) →
        ((∀ k, refs s' k = refs s k) ↔ (bn = 0 → ∀ buf, l ≠ .load τ buf) ∧
          (bn ≠ 0 → l ≠ .queue τ))) := by
  have hmain : (∀ k, d k = 0) ↔ (bn = 0 → ∀ buf, l ≠ .load τ buf) ∧ (bn ≠ 0 → l ≠ .queue τ) := by
    have hone : ∀ k : Nat, (Pi.single k 1 : Nat → ZMod (2 ^ 32)) k ≠ 0 := by
      intro k
      rw [Pi.single_eq_same]
      decide
    cases h.stage with
    | looking hpc hd => cases hpc.symm.trans hnull
    | loading hpc hd => cases hpc.symm.trans hnull
    | queuing hpc hd => cases hpc.symm.trans hnull
    | later hpc hlater => cases hpc.symm.trans hnull
    | full hpc hd hl =>
      refine ⟨fun _ => ⟨fun _ buf => ?_, fun _ => ?_⟩, fun _ k => congrFun hd k⟩ <;>
        rcases hl with rfl | rfl <;> rintro ⟨⟩
    | @noMemory k hpc hd buf hl =>
      subst hl hd
      refine ⟨fun hzero => ⟨fun hsuper => ?_, fun _ => by rintro ⟨⟩⟩, fun ⟨hmem, _⟩ i => ?_⟩
      · have hk := hzero k
        rw [taken, if_neg (not_not.mpr hsuper), zero_add, Pi.single_eq_same] at hk
        exact absurd hk (by decide)
      · have hbn : bn ≠ 0 := fun hz => hmem hz buf rfl
        rw [taken, if_pos hbn, ← Pi.single_add, add_neg_cancel, Pi.single_zero]
        rfl
    | @noSlot k hpc hd hl =>
      subst hl hd
      refine ⟨fun hzero => ⟨fun _ buf => by rintro ⟨⟩, fun hbn => ?_⟩, fun ⟨_, hslot⟩ i => ?_⟩
      · have hk := hzero k
        rw [taken, if_pos hbn] at hk
        exact absurd hk (hone k)
      · rw [taken, if_neg fun hbn => hslot hbn rfl]
        rfl
  refine ⟨hmain, fun hother => ?_⟩
  rw [← hmain, h.alone hother]
  exact forall_congr' fun k => sub_eq_zero.symm

/-- There is no memory for block 7. -/
theorem failed_get_iff_noMemory : ∃ s, (machine 1).run boot [.get 0 7, .load 0 none] = some s ∧
    s.tasks.get 0 = none ∧ ∀ k, refs s k = refs boot k := by
  have hrun : ∃ s, (machine 1).run boot [.get 0 7, .load 0 none] = some s ∧ s.tasks.get 0 = none :=
    ⟨_, rfl, rfl⟩
  obtain ⟨s, hrun, hnull⟩ := hrun
  obtain ⟨s₁, hget, hrest⟩ := Option.bind_eq_some_iff.mp hrun
  obtain ⟨s₂, hload, hend⟩ := Option.bind_eq_some_iff.mp hrest
  cases Option.some.inj hend
  have hcall : Call 1 (fun _ _ _ => False) boot 0 7 _ (.load 0 none) s :=
    .own (.get hget) (.load none) hload
  refine ⟨s, hrun, hnull, ((failed_get_iff hcall hnull).2 fun _ _ _ h => h.elim).mpr ⟨fun hz => ?_,
    fun _ hq => ?_⟩⟩
  · cases hz
  · cases hq

/-- The one command slot is taken by the read of block 7, and the entry of block 50 keeps its
reference. -/
theorem failed_get_keeps_reference :
    ¬ ∀ (nslots : Nat) (s s' : State) (τ bn : Nat) (buf : Option Nat),
    (machine nslots).Reach s → (machine nslots).run s [.get τ bn, .load τ buf, .queue τ] = some s' →
      s'.tasks.get τ = none → ∀ k, (s'.e k).ref = (s.e k).ref := by
  intro h
  have hrun : ∃ s s', (machine 1).Reach s ∧
      (machine 1).run s [.get 2 50, .load 2 (some 101), .queue 2] = some s' ∧
      s'.tasks.get 2 = none ∧ (s.e 2).ref = 0 ∧ (s'.e 2).ref = 1 :=
    ⟨_, _, Transition.Machine.Reach.run (l := [.get 1 7, .load 1 (some 100), .queue 1])
      (Transition.Machine.Reach.init rfl) rfl, rfl, rfl, rfl, rfl⟩
  obtain ⟨s, s', hreach, hrun, hnull, hbefore, hafter⟩ := hrun
  have hsame := h 1 s s' 2 50 (some 101) hreach hrun hnull 2
  rw [hbefore, hafter] at hsame
  cases hsame

end BufCache
end PugOS
