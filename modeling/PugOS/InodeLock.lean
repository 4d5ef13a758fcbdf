import PugOS.Heap
import PugOS.Transition

/-! # The inode lock

`mlock` counts the tasks that hold the lock of an inode for reading, or is -1 when a task
holds it for writing.  Any number of tasks lock and unlock one inode; every load,
compare-exchange and store of `mlock` is a step, and a compare-exchange may fail for no
reason.  Marking the inode's block as dirty, which `lock_write` does last, does not touch
`mlock`.
-/
namespace PugOS.InodeLock
open Transition

/-- `uint32_t(-1)`. -/
def writeLocked : Nat := 2 ^ 32 - 1

/-- Where a task is.  The number is its `v`. -/
inductive Pc where
  | outside
  -- lock_read
  | readLoad
  | readLoop (v : Nat)
  | reading
  -- unlock_read
  | unreadLoad
  | unreadLoop (v : Nat)
  -- lock_write
  | writeLoop
  | writing
  -- unlock_write
  | unwriteAssert
  | unwriteStore
  /-- An assertion has failed. -/
  | failed
  deriving DecidableEq

/-- `mlock` of an inode, and the tasks. -/
structure State where
  mlock : Nat
  tasks : Heap Pc

/-- A call, or the next step of the call a task is in. -/
inductive Label where
  | lockRead (t : Nat)
  | lockWrite (t : Nat)
  | unlock (t : Nat)
  /-- The next step of a call.  A compare-exchange fails if `spurious` says so. -/
  | cpu (t : Nat) (spurious : Bool)

/-- `compare_exchange_weak`: the new value, if it succeeds. -/
def compareExchangeWeak (mlock expected desired : Nat) (spurious : Bool) : Option Nat :=
  if mlock = expected ∧ spurious = false then some desired else none

/-- A step of the task at `pc`: the new value of `mlock`, and where the task is then. -/
def next (mlock : Nat) (spurious : Bool) : Pc → Option (Nat × Pc)
  | .readLoad => some (mlock, .readLoop mlock)
  | .readLoop v =>
    if v = writeLocked then some (mlock, .readLoad)
    else
      match compareExchangeWeak mlock v ((v + 1) % 2 ^ 32) spurious with
      | some mlock => some (mlock, .reading)
      | none => some (mlock, .readLoop mlock)
  | .unreadLoad =>
    if mlock ≠ 0 ∧ mlock ≠ writeLocked then some (mlock, .unreadLoop mlock)
      else some (mlock, .failed)
  | .unreadLoop v =>
    match compareExchangeWeak mlock v ((v + 2 ^ 32 - 1) % 2 ^ 32) spurious with
    | some mlock => some (mlock, .outside)
    | none => some (mlock, .unreadLoop mlock)
  | .writeLoop =>
    match compareExchangeWeak mlock 0 writeLocked spurious with
    | some mlock => some (mlock, .writing)
    | none => some (mlock, .writeLoop)
  | .unwriteAssert => some (mlock, if mlock = writeLocked then .unwriteStore else .failed)
  | .unwriteStore => some (0, .outside)
  | .outside | .reading | .writing | .failed => none

/-- The first step of a call. -/
def call : Label → Pc → Option Pc
  | .lockRead _, .outside => some .readLoad
  | .lockWrite _, .outside => some .writeLoop
  | .unlock _, .reading => some .unreadLoad
  | .unlock _, .writing => some .unwriteAssert
  | _, _ => none

/-- The task that moves. -/
def Label.task : Label → Nat
  | .lockRead t | .lockWrite t | .unlock t | .cpu t _ => t

/-- One step of one task. -/
def step (s : State) (a : Label) : Option State := do
  let pc ← s.tasks.get a.task
  match a with
  | .cpu t spurious => (next s.mlock spurious pc).map fun (mlock, pc') => ⟨mlock, s.tasks.set t pc'⟩
  | a => (call a pc).map fun pc' => { s with tasks := s.tasks.set a.task pc' }

/-- Fewer than `2 ^ 32 - 2` tasks, none of which holds the lock. -/
structure Start (s : State) : Prop where
  mlock : s.mlock = 0
  outside : ∀ t pc, s.tasks.get t = some pc → pc = .outside
  few : s.tasks.sum (fun _ => 1) < 2 ^ 32 - 2

/-- Any number of tasks, interleaved in any way. -/
def machine : Machine State Label where
  init := Start
  step := step

/-! ## Who holds the lock -/

/-- The task holds the lock for reading: from the successful compare-exchange in `lock_read`
to that in `unlock_read`. -/
def Pc.holdsRead : Pc → Nat
  | .reading | .unreadLoad | .unreadLoop _ => 1
  | _ => 0

/-- The task holds the lock for writing: from the compare-exchange to the store. -/
def Pc.holdsWrite : Pc → Nat
  | .writing | .unwriteAssert | .unwriteStore => 1
  | _ => 0

/-- The tasks that hold the lock for reading. -/
def State.readers (s : State) : Nat := s.tasks.sum Pc.holdsRead

/-- The tasks that hold it for writing. -/
def State.writers (s : State) : Nat := s.tasks.sum Pc.holdsWrite

/-- `mlock` says who holds the lock. -/
def Accounted (mlock readers writers : Nat) : Prop :=
  (mlock = writeLocked ∧ writers = 1 ∧ readers = 0) ∨ (mlock = readers ∧ writers = 0)

/-- `mlock` accounts for those who hold the lock, and no assertion has failed. -/
structure Inv (s : State) : Prop where
  accounted : Accounted s.mlock s.readers s.writers
  few : s.tasks.sum (fun _ => 1) < 2 ^ 32 - 2
  passed : ∀ t, s.tasks.get t ≠ some .failed

variable {s s' : State} {t mlock : Nat} {pc pc' : Pc}

/-- The readers are no more than the tasks, so the count does not reach the mark of a writer. -/
theorem Inv.readers_lt (h : Inv s) : s.readers < 2 ^ 32 - 2 := by
  have hle : s.readers ≤ s.tasks.sum fun _ => 1 := by
    refine Heap.sum_mono fun pc => ?_
    cases pc <;> simp [Pc.holdsRead]
  exact Nat.lt_of_le_of_lt hle h.few

/-- A compare-exchange that succeeds has found what it expected. -/
theorem compareExchangeWeak_some {expected desired v : Nat} {spurious : Bool}
    (h : compareExchangeWeak mlock expected desired spurious = some v) : mlock = expected ∧
    v = desired := by
  unfold compareExchangeWeak at h
  split at h
  · rename_i hc
    exact ⟨hc.1, (Option.some.inj h).symm⟩
  · cases h

/-- A step keeps the account, given what it does to the number of holders. -/
theorem next_accounted {spurious : Bool} {mlock' readers writers readers' writers' : Nat}
    (h : Accounted mlock readers writers) (hfew : readers < 2 ^ 32 - 2)
    (hr : pc.holdsRead ≤ readers) (hw : pc.holdsWrite ≤ writers)
    (hstep : next mlock spurious pc = some (mlock', pc'))
    (hr' : readers' + pc.holdsRead = readers + pc'.holdsRead)
    (hw' : writers' + pc.holdsWrite = writers + pc'.holdsWrite) :
    Accounted mlock' readers' writers' ∧ pc' ≠ .failed := by
  have hmax : writeLocked = 2 ^ 32 - 1 := rfl
  unfold Accounted at *
  cases pc with
  | readLoad =>
    obtain ⟨rfl, rfl⟩ := Prod.mk.inj (Option.some.inj hstep)
    dsimp only [Pc.holdsRead, Pc.holdsWrite] at *
    exact ⟨by omega, Pc.noConfusion⟩
  | readLoop v =>
    simp only [next] at hstep
    split at hstep
    · obtain ⟨rfl, rfl⟩ := Prod.mk.inj (Option.some.inj hstep)
      dsimp only [Pc.holdsRead, Pc.holdsWrite] at *
      exact ⟨by omega, Pc.noConfusion⟩
    · rename_i hv
      split at hstep
      · rename_i v' hswap
        -- one more reader: there are too few tasks for the count to reach -1
        obtain ⟨rfl, rfl⟩ := compareExchangeWeak_some hswap
        obtain ⟨rfl, rfl⟩ := Prod.mk.inj (Option.some.inj hstep)
        dsimp only [Pc.holdsRead, Pc.holdsWrite] at *
        exact ⟨by omega, Pc.noConfusion⟩
      · obtain ⟨rfl, rfl⟩ := Prod.mk.inj (Option.some.inj hstep)
        dsimp only [Pc.holdsRead, Pc.holdsWrite] at *
        exact ⟨by omega, Pc.noConfusion⟩
  | unreadLoad =>
    simp only [next] at hstep
    split at hstep
    · obtain ⟨rfl, rfl⟩ := Prod.mk.inj (Option.some.inj hstep)
      dsimp only [Pc.holdsRead, Pc.holdsWrite] at *
      exact ⟨by omega, Pc.noConfusion⟩
    · -- the task itself is a reader
      dsimp only [Pc.holdsRead, Pc.holdsWrite] at hr
      omega
  | unreadLoop v =>
    simp only [next] at hstep
    split at hstep
    · rename_i v' hswap
      obtain ⟨hv, hv'⟩ := compareExchangeWeak_some hswap
      obtain ⟨hm, rfl⟩ := Prod.mk.inj (Option.some.inj hstep)
      dsimp only [Pc.holdsRead, Pc.holdsWrite] at *
      exact ⟨by omega, Pc.noConfusion⟩
    · obtain ⟨rfl, rfl⟩ := Prod.mk.inj (Option.some.inj hstep)
      dsimp only [Pc.holdsRead, Pc.holdsWrite] at *
      exact ⟨by omega, Pc.noConfusion⟩
  | writeLoop =>
    simp only [next] at hstep
    split at hstep
    · rename_i v' hswap
      obtain ⟨rfl, rfl⟩ := compareExchangeWeak_some hswap
      obtain ⟨rfl, rfl⟩ := Prod.mk.inj (Option.some.inj hstep)
      dsimp only [Pc.holdsRead, Pc.holdsWrite] at *
      exact ⟨by omega, Pc.noConfusion⟩
    · obtain ⟨rfl, rfl⟩ := Prod.mk.inj (Option.some.inj hstep)
      dsimp only [Pc.holdsRead, Pc.holdsWrite] at *
      exact ⟨by omega, Pc.noConfusion⟩
  | unwriteAssert =>
    obtain ⟨rfl, rfl⟩ := Prod.mk.inj (Option.some.inj hstep)
    have hlocked : mlock = writeLocked := by
      dsimp only [Pc.holdsWrite] at hw
      omega
    rw [if_pos hlocked] at hr' hw' ⊢
    dsimp only [Pc.holdsRead, Pc.holdsWrite] at *
    exact ⟨by omega, Pc.noConfusion⟩
  | unwriteStore =>
    obtain ⟨rfl, rfl⟩ := Prod.mk.inj (Option.some.inj hstep)
    dsimp only [Pc.holdsRead, Pc.holdsWrite] at *
    exact ⟨by omega, Pc.noConfusion⟩
  | outside => cases hstep
  | reading => cases hstep
  | writing => cases hstep
  | failed => cases hstep

/-- A call changes no holder. -/
theorem call_holds {a : Label} (h : call a pc = some pc') :
    pc'.holdsRead = pc.holdsRead ∧ pc'.holdsWrite = pc.holdsWrite ∧ pc' ≠ .failed := by
  cases a <;> cases pc <;> cases h <;> exact ⟨rfl, rfl, Pc.noConfusion⟩

/-- The tasks after one of them has moved. -/
theorem Inv.set (h : Inv s) (hpc : s.tasks.get t = some pc) (hne : pc' ≠ .failed) {mlock' : Nat}
    (hacc : Accounted mlock' ((s.tasks.set t pc').sum Pc.holdsRead)
      ((s.tasks.set t pc').sum Pc.holdsWrite)) : Inv ⟨mlock', s.tasks.set t pc'⟩ := by
  refine ⟨hacc, ?_, ?_⟩
  · have hcount := Heap.sum_set (w := fun _ => 1) (x := pc') hpc
    have hfew := h.few
    dsimp only
    omega
  · intro t'
    dsimp only
    by_cases ht : t' = t
    · rw [ht, Heap.get_set_self]
      exact fun hc => hne (Option.some.inj hc)
    · rw [Heap.get_set_ne ht]
      exact h.passed t'

/-- **A step keeps the account.** -/
theorem Inv.step {a : Label} (h : Inv s) (hstep : step s a = some s') : Inv s' := by
  unfold InodeLock.step at hstep
  obtain ⟨pc, hpc, hstep⟩ := Option.bind_eq_some_iff.mp hstep
  have hr := Heap.le_sum (w := Pc.holdsRead) hpc
  have hw := Heap.le_sum (w := Pc.holdsWrite) hpc
  have hsetr := fun pc' => Heap.sum_set (w := Pc.holdsRead) (x := pc') hpc
  have hsetw := fun pc' => Heap.sum_set (w := Pc.holdsWrite) (x := pc') hpc
  have hcall : ∀ {pc'}, call a pc = some pc' → Inv ⟨s.mlock, s.tasks.set a.task pc'⟩ := by
    intro pc' hc
    obtain ⟨hcr, hcw, hne⟩ := call_holds hc
    have hreaders : (s.tasks.set a.task pc').sum Pc.holdsRead = s.readers := by
      have := hsetr pc'
      unfold State.readers
      omega
    have hwriters : (s.tasks.set a.task pc').sum Pc.holdsWrite = s.writers := by
      have := hsetw pc'
      unfold State.writers
      omega
    refine h.set hpc hne ?_
    rw [hreaders, hwriters]
    exact h.accounted
  cases a with
  | cpu t spurious =>
    obtain ⟨⟨mlock', pc'⟩, hnext, rfl⟩ := Option.map_eq_some_iff.mp hstep
    obtain ⟨hacc, hne⟩ :=
      next_accounted h.accounted h.readers_lt hr hw hnext (hsetr pc') (hsetw pc')
    exact h.set hpc hne hacc
  | lockRead t =>
    obtain ⟨pc', hc, rfl⟩ := Option.map_eq_some_iff.mp hstep
    exact hcall hc
  | lockWrite t =>
    obtain ⟨pc', hc, rfl⟩ := Option.map_eq_some_iff.mp hstep
    exact hcall hc
  | unlock t =>
    obtain ⟨pc', hc, rfl⟩ := Option.map_eq_some_iff.mp hstep
    exact hcall hc

/-- At the start nobody holds the lock. -/
theorem Start.inv (h : Start s) : Inv s := by
  have hreaders : s.readers = 0 :=
    Heap.sum_eq_zero.mpr fun t pc hpc => by rw [h.outside t pc hpc]; rfl
  have hwriters : s.writers = 0 :=
    Heap.sum_eq_zero.mpr fun t pc hpc => by rw [h.outside t pc hpc]; rfl
  refine ⟨.inr ⟨?_, hwriters⟩, h.few, fun t ht => ?_⟩
  · rw [h.mlock, hreaders]
  · cases h.outside t _ ht

/-- **The lock is accounted for**: `mlock` is -1 if and only if one task holds the lock for
writing and none for reading, and is else the number of readers, with no writer; and no
assertion fails. -/
theorem inode_lock_accounted (h : machine.Reach s) :
    (s.mlock = writeLocked ↔ s.writers = 1 ∧ s.readers = 0) ∧
      (s.mlock ≠ writeLocked → s.mlock = s.readers ∧ s.writers = 0) ∧
        ∀ t, s.tasks.get t ≠ some .failed := by
  have hinv : Inv s := by
    refine h.invariant Inv ?_ ?_
    · exact fun s hs => Start.inv hs
    · exact fun s a s' hs hstep => hs.step hstep
  have hfew := hinv.readers_lt
  have hmax : writeLocked = 2 ^ 32 - 1 := rfl
  refine ⟨?_, ?_, hinv.passed⟩
  · rcases hinv.accounted with ⟨h₁, h₂, h₃⟩ | ⟨h₁, h₂⟩ <;> omega
  · rcases hinv.accounted with ⟨h₁, h₂, h₃⟩ | ⟨h₁, h₂⟩ <;> omega

/-- Two tasks, one of which takes the lock for writing while the other waits to read. -/
def twoTasks : State := ⟨0, (Heap.empty.set 1 .outside).set 2 .outside⟩

/-- The compare-exchange of the writer comes first, and the reader waits. -/
theorem inode_lock_accounted_two : ∃ s, machine.run twoTasks
    [.lockRead 1, .cpu 1 false, .lockWrite 2, .cpu 2 false, .cpu 1 false] = some s ∧
      s.mlock = writeLocked ∧ s.writers = 1 ∧ s.readers = 0 := by
  have hstart : Start twoTasks := by
    refine ⟨rfl, ?_, by decide⟩
    intro t pc hpc
    unfold twoTasks at hpc
    by_cases h₂ : t = 2
    · rw [h₂, Heap.get_set_self] at hpc
      exact (Option.some.inj hpc).symm
    · rw [Heap.get_set_ne h₂] at hpc
      by_cases h₁ : t = 1
      · rw [h₁, Heap.get_set_self] at hpc
        exact (Option.some.inj hpc).symm
      · rw [Heap.get_set_ne h₁] at hpc
        cases hpc
  obtain ⟨s, hrun, hlock⟩ : ∃ s, machine.run twoTasks
      [.lockRead 1, .cpu 1 false, .lockWrite 2, .cpu 2 false, .cpu 1 false] = some s ∧
        s.mlock = writeLocked := ⟨_, rfl, rfl⟩
  have hreach := (Machine.Reach.init hstart).run hrun
  exact ⟨s, hrun, hlock, (inode_lock_accounted hreach).1.mp hlock⟩

end PugOS.InodeLock
