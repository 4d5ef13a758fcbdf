import PugOS.ProcTree
import Mathlib.Data.List.Nodup

/-! # Who releases the descriptors

The threads of a process share one `fdtable`.  They leave by `sys_exit`, which waits
until it is alone and then runs the release loop of `process_exit`, by `sys_texit`,
which runs it only if no other thread is active, or by being told to exit in
`block_until`, which does not run it.  Whether a thread is the last one is decided
under `ptable_lock`, and `state_` becomes `broken` some steps later.

The loop never runs twice.  It runs once in every run in which a thread that decides
to leave without it leaves some thread behind that has not decided the same
(`descriptors_released_once`).  Two threads that call `sys_texit` may both count each
other, and nobody runs it (`two_texits_leak`); so may two that call `sys_exit`, which
tell each other to exit.
-/
namespace PugOS.ExitWait
open Transition

/-- The tasks, the descriptor table of each process, and two records: the tasks that
have run the release loop, and each `deref` the loop has made, with its process. -/
structure Releasing where
  kernel : State
  fdtable : Nat → List (Option Nat)
  released : List Nat
  derefs : List (Nat × Nat)

/-- What happens next: a step of a CPU or a timer interrupt there, or the program it
runs exits, makes a thread, or opens and closes descriptors. -/
inductive ReleaseLabel
  | cpu (c : Nat)
  | timer (c : Nat)
  | exit (c : Nat) (status : Int)
  | texit (c : Nat) (status : Int)
  | clone (c : Nat) (exitStatus : Int)
  | files (c : Nat) (fdtable : List (Option Nat))
  deriving DecidableEq, Repr

/-- The task takes `ptable_lock` after the release loop. -/
def Pc.releases : Pc → Bool
  | .exitParentLock _ => true
  | _ => false

/-- The task whose next step on CPU `c` follows the release loop. -/
def State.releaser (s : State) (c : Nat) : Option (Nat × Proc) :=
  match (s.cpus c).phase, (s.cpus c).current with
  | .run, some t =>
    match s.procs t with
    | some p => if p.pc.releases then some (t, p) else none
    | none => none
  | _, _ => none

/-- The loop `for (i = 0; i < NFDS; i++)` of `process_exit`. -/
def Releasing.release (s : Releasing) (t truePid : Nat) : Releasing :=
  { s with
    released := s.released ++ [t]
    derefs := s.derefs ++ ((s.fdtable truePid).filterMap id).map (truePid, ·) }

def Releasing.setKernel (s : Releasing) (kernel : State) : Releasing := { s with kernel := kernel }

def releaseStep (ncpu : Nat) (s : Releasing) : ReleaseLabel → Option Releasing
  | .cpu c =>
    (step s.kernel (.cpu c)).map fun kernel =>
      match s.kernel.releaser c with
      | some (t, p) => (s.release t p.truePid).setKernel kernel
      | none => s.setKernel kernel
  | .timer c => (step s.kernel (.timer c)).map s.setKernel
  | .exit c status => (step s.kernel (.syscall c (.exit status))).map s.setKernel
  | .texit c status => (step s.kernel (.syscall c (.texit status))).map s.setKernel
  | .clone c exitStatus =>
    match s.kernel.userTask c with
    | some (t, _) =>
      if s.kernel.ptableLock = none then (s.kernel.sysClone ncpu t exitStatus).map s.setKernel
      else none
    | none => none
  | .files c fdtable =>
    match s.kernel.userTask c with
    | some (_, p) =>
      some { s with fdtable := fun i => if i = p.truePid then fdtable else s.fdtable i }
    | none => none

/-- Threads in user mode, and nothing released yet. -/
structure ReleaseStarted (s : Releasing) : Prop extends Started s.kernel where
  slots : ∀ i p, s.kernel.procs i = some p → i < nproc
  released : s.released = []
  derefs : s.derefs = []

/-- The threads of any number of processes as they exit. -/
def threads (ncpu : Nat) : Machine Releasing ReleaseLabel where
  init := ReleaseStarted
  step := releaseStep ncpu

/-! ## The condition -/

/-- The task will break without running the release loop, unless it has run it. -/
def Pc.leaving : Pc → Bool
  | .texitStatus _ | .caughtClear | .setBroken _ => true
  | _ => false

/-- The next step of the task is to leave without running the release loop: a
`sys_texit` that did not count one active thread, or a thread caught in
`block_until`. -/
def Proc.abandoning (p : Proc) : Bool :=
  match p.pc with
  | .texitCount _ i r => decide (nproc ≤ i ∧ r ≠ 1)
  | .exitCaught _ => p.exiting
  | _ => false

/-- Slot `j` holds another thread of the process that will not leave so. -/
def Releasing.stays (s : Releasing) (truePid t j : Nat) : Bool :=
  match s.kernel.procs j with
  | some q =>
    q.truePid = truePid ∧ j ≠ t ∧ q.state ≠ .broken ∧ (q.pc.leaving = false ∨ j ∈ s.released)
  | none => false

/-- The step is taken by the last thread of a process that could still run the
release loop, and it leaves without. -/
def abandons (s : Releasing) : ReleaseLabel → Bool
  | .cpu c =>
    match (s.kernel.cpus c).phase, (s.kernel.cpus c).current with
    | .run, some t =>
      match s.kernel.procs t with
      | some p => p.abandoning ∧ (List.range nproc).all fun j => !s.stays p.truePid t j
      | none => false
    | _, _ => false
  | _ => false

/-! ## What the code knows -/

/-- All other threads of the process are broken. -/
def Alone (s : State) (truePid t : Nat) : Prop :=
  ∀ j q, s.procs j = some q → q.truePid = truePid → j ≠ t → q.state = .broken

/-- The task holds `ptable_lock`. -/
def Pc.holds : Pc → Bool
  | .texitCount .. | .exitCount .. | .exitMark .. | .exitPrepare _ | .exitCaught _
  | .exitPredicate .. | .exitPredicateBlocked .. | .exitPredicateWake _ | .exitBlockUnlock _
  | .exitClear _ | .exitUnlock _ | .exitParent _ | .exitReparent _ | .exitParentUnlock _ => true
  | _ => false

/-- The task is in `sys_waitpid`. -/
def Pc.waits : Pc → Bool
  | .waitParentLock _ | .waitParent _ | .waitCheck .. | .waitLock _ | .waitPrepare _ | .waitStart _
  | .waitAny .. | .waitScan .. | .reapLock .. | .reap .. | .reapUnlock .. | .reapWake ..
  | .waitRelock .. | .waitThreads _ | .waitBlock _ | .waitBlocked _ | .waitClear _
  | .waitReturn _ => true
  | _ => false

/-- The task has run the release loop and goes on in `process_exit`. -/
def Pc.past : Pc → Bool
  | .exitParent _ | .exitReparent _ | .exitParentUnlock _ | .exitWake _ => true
  | _ => false

/-- What a task at this position knows of the other threads of its process. -/
def Pc.Knows (s : State) (truePid t : Nat) : Pc → Prop
  | .exitCount _ i r => (t < i → 1 ≤ r) ∧ ∀ j q, s.procs j = some q → q.truePid = truePid → j ≠ t →
      j < i → q.state ≠ .broken → (if t < i then 2 else 1) ≤ r
  | .exitPredicate _ i => ∀ j q, s.procs j = some q → q.truePid = truePid → j ≠ t → j < i →
      q.state = .broken
  | .exitClear _ | .exitUnlock _ | .exitParentLock _ | .exitParent _ | .exitReparent _
  | .exitParentUnlock _ | .exitWake _ => Alone s truePid t
  | _ => True

variable {s s' s₁ : State} {c t i j truePid : Nat} {p q : Proc} {a : Act} {pc : Pc}

/-- Every thread of the process was there before, and the broken ones still are. -/
def Breaks (s s' : State) (truePid : Nat) : Prop :=
  ∀ j q', s'.procs j = some q' → q'.truePid = truePid →
    ∃ q, s.procs j = some q ∧ q.truePid = truePid ∧ (q.state = .broken → q'.state = .broken)

/-- A thread that is alone stays so while threads only break. -/
theorem Alone.mono (h : Alone s truePid t) (hb : Breaks s s' truePid) : Alone s' truePid t := by
  intro j q' hq' htrue hne
  obtain ⟨q, hq, htq, hbroken⟩ := hb j q' hq' htrue
  exact hbroken (h j q hq htq hne)

/-- What a thread knows of the others survives their exits. -/
theorem Pc.Knows.mono (h : pc.Knows s truePid t) (hb : Breaks s s' truePid) :
    pc.Knows s' truePid t := by
  cases pc with
  | exitCount texit i r =>
    refine ⟨h.1, ?_⟩
    intro j q' hq' htrue hne hlt hnb
    obtain ⟨q, hq, htq, hbroken⟩ := hb j q' hq' htrue
    exact h.2 j q hq htq hne hlt (fun hst => hnb (hbroken hst))
  | exitPredicate texit i =>
    intro j q' hq' htrue hne hlt
    obtain ⟨q, hq, htq, hbroken⟩ := hb j q' hq' htrue
    exact hbroken (h j q hq htq hne hlt)
  | exitClear | exitUnlock | exitParentLock | exitParent | exitReparent | exitParentUnlock
  | exitWake => exact Alone.mono h hb
  | _ => trivial

/-- **Where an exiting task goes**, in the terms the invariant needs. -/
structure Leaves (p : Proc) (a : Act) (pc : Pc) : Prop where
  waits : pc.waits = false
  lock : a = .lock → pc.holds ∧ p.pc.holds = false
  unlock : a = .unlock → p.pc.holds ∧ pc.holds = false
  holds : a ≠ .lock → pc.holds → p.pc.holds
  past : pc.past → p.pc.past ∨ p.pc.releases
  released : p.pc.releases → pc.past
  leaving : pc.leaving → p.pc.leaving ∨ p.abandoning ∨ p.pc.past
  setBroken : a = .setBroken → p.pc.leaving
  free : ∀ i, a ≠ .free i
  done : p.pc.past → pc.past ∨ pc.leaving
  broken : p.pc.leaving → pc.leaving ∨ pc.pastBroken

attribute [local simp] Pc.waits Pc.holds Pc.past Pc.releases Pc.leaving Pc.pastBroken

/-- The two exit calls go where `Leaves` says. -/
theorem nextExit_leaves (h : nextExit s t p p.pc = some (a, pc)) : Leaves p a pc := by
  cases hpc : p.pc
  all_goals rw [hpc] at h
  case setBroken thenWake => cases thenWake <;> cases h <;> constructor <;> simp [hpc]
  case texitCount status i r =>
    simp only [nextExit] at h
    split at h
    · cases h
      constructor <;> simp [hpc]
    · rename_i hi
      split at h <;> cases h <;> constructor <;> simp [hpc, Proc.abandoning]
      exact ⟨by omega, by assumption⟩
  case exitCaught texit =>
    simp only [nextExit] at h
    split at h <;> cases h <;> constructor <;> simp [hpc, Proc.abandoning]
    assumption
  all_goals simp only [nextExit] at h
  all_goals first
    | cases h
    | (try split at h) <;> (try split at h) <;> cases h
  all_goals constructor <;> simp [hpc]

/-- A thread that is neither blank nor broken is active. -/
theorem active_iff (hq : s.procs i = some q) (hblank : q.state ≠ .blank) :
    s.active truePid i = true ↔ q.truePid = truePid ∧ q.state ≠ .broken := by
  unfold State.active
  rw [hq]
  cases hst : q.state <;> simp_all

/-- The count of `active_threads` goes on to the next slot.  The task counts itself. -/
theorem knows_count {r : Nat} {texit : Bool} (hp : s.procs t = some p) (hlive : p.state ≠ .broken)
    (hblank : ∀ i q, s.procs i = some q → q.state ≠ .blank)
    (h : (Pc.exitCount texit i r).Knows s p.truePid t) :
    (Pc.exitCount texit (i + 1) (if s.active p.truePid i then r + 1 else r)).Knows s
      p.truePid t := by
  obtain ⟨hself, hothers⟩ := h
  have hactive : i = t → s.active p.truePid i = true := by
    rintro rfl
    exact (active_iff hp (hblank i p hp)).mpr ⟨rfl, hlive⟩
  refine ⟨?_, ?_⟩
  · intro hlt
    by_cases hit : i = t
    · rw [if_pos (hactive hit)]
      omega
    · have hr := hself (by omega)
      split <;> omega
  · intro j q hq htrue hne hlt hnb
    by_cases hji : j = i
    · subst hji
      rw [if_pos ((active_iff hq (hblank j q hq)).mpr ⟨htrue, hnb⟩)]
      by_cases htj : t < j
      · have hr := hself htj
        rw [if_pos (by omega)]
        omega
      · rw [if_neg (by omega)]
        omega
    · have hr := hothers j q hq htrue hne (by omega) hnb
      by_cases hit : i = t
      · rw [if_neg (by omega)] at hr
        rw [if_pos (hactive hit), if_pos (by omega)]
        omega
      · have hle : (if t < i + 1 then 2 else 1) = if t < i then 2 else 1 := by
          by_cases hti : t < i
          · rw [if_pos hti, if_pos (by omega)]
          · rw [if_neg hti, if_neg (by omega)]
        have hmono : r ≤ if s.active p.truePid i then r + 1 else r := by
          split <;> omega
        rw [hle]
        exact Nat.le_trans hr hmono

/-- The scan that finds no other thread means that every one is broken. -/
theorem otherThread_false (h : s.otherThread truePid t i = false) (hq : s.procs i = some q)
    (htrue : q.truePid = truePid) (hne : i ≠ t) : q.state = .broken := by
  unfold State.otherThread at h
  rw [hq] at h
  by_contra hb
  simp [htrue, hne, hb] at h

/-- A step of the code tells its task no more than holds. -/
theorem nextExit_knows (hp : s.procs t = some p) (hslots : ∀ i q, s.procs i = some q → i < nproc)
    (hblank : ∀ i q, s.procs i = some q → q.state ≠ .blank)
    (hbroken : p.state = .broken → p.pc.pastBroken) (hk : p.pc.Knows s p.truePid t)
    (h : nextExit s t p p.pc = some (a, pc)) : pc.Knows s p.truePid t := by
  cases hpc : p.pc
  all_goals rw [hpc] at h hk
  case setBroken thenWake => cases thenWake <;> cases h <;> trivial
  case exitLock texit =>
    cases h
    exact ⟨fun hlt => absurd hlt (Nat.not_lt_zero t), fun _ _ _ _ _ hlt =>
      absurd hlt (Nat.not_lt_zero _)⟩
  case exitCount texit i r =>
    simp only [nextExit] at h
    split at h
    · cases h
      refine knows_count hp (fun hb => ?_) hblank hk
      have hpast := hbroken hb
      rw [hpc] at hpast
      cases hpast
    · rename_i hi
      split at h
      · cases h
        trivial
      · rename_i hr
        cases h
        intro j q hq htrue hne
        by_contra hnb
        have hcount := hk.2 j q hq htrue hne (by have := hslots j q hq; omega) hnb
        rw [if_pos (by have := hslots t p hp; omega)] at hcount
        omega
  case exitCaught texit =>
    simp only [nextExit] at h
    split at h <;> cases h
    · trivial
    · exact fun _ _ _ _ _ hlt => absurd hlt (Nat.not_lt_zero _)
  case exitPredicate texit i =>
    simp only [nextExit] at h
    split at h
    · split at h <;> cases h
      · trivial
      · rename_i hother
        intro j q hq htrue hne hlt
        by_cases hji : j = i
        · subst hji
          exact otherThread_false (Bool.eq_false_iff.mpr hother) hq htrue hne
        · exact hk j q hq htrue hne (by omega)
    · rename_i hi
      cases h
      intro j q hq htrue hne
      exact hk j q hq htrue hne (by have := hslots j q hq; omega)
  case exitClear | exitUnlock | exitParentLock | exitReparent | exitParentUnlock =>
    cases h
    exact hk
  case exitParent texit =>
    simp only [nextExit] at h
    split at h <;> cases h <;> exact hk
  all_goals simp only [nextExit] at h
  all_goals first
    | cases h
    | (try split at h) <;> (try split at h) <;> cases h
  all_goals trivial

/-! ## The invariant -/

/-- The `deref`s that the release loop has made for a process. -/
def Releasing.derefsOf (s : Releasing) (truePid : Nat) : List Nat :=
  (s.derefs.filter fun d => d.1 = truePid).map Prod.snd

/-- What holds of the tasks and `ptable_lock`. -/
structure ThreadInv (s : State) : Prop where
  slots : ∀ i p, s.procs i = some p → i < nproc
  blank : ∀ i p, s.procs i = some p → p.state ≠ .blank
  broken : ∀ i p, s.procs i = some p → p.state = .broken → p.pc.pastBroken
  waits : ∀ i p, s.procs i = some p → p.pc.waits = false
  lock : ∀ i p, s.procs i = some p → p.pc.holds → s.ptableLock = some i
  knows : ∀ i p, s.procs i = some p → p.pc.Knows s p.truePid i

/-- What holds of the tasks that have run the release loop, `Released`: they are alone
and past it, and the loop has released what is in the table of their process. -/
structure ReleaseInv (s : Releasing) : Prop extends ThreadInv s.kernel where
  past : ∀ i p, s.kernel.procs i = some p → p.pc.past → i ∈ s.released
  done : ∀ i ∈ s.released, ∃ p, s.kernel.procs i = some p ∧
    (p.pc.past ∨ p.pc.leaving ∨ p.pc.pastBroken) ∧ Alone s.kernel p.truePid i ∧
    s.derefsOf p.truePid = (s.fdtable p.truePid).filterMap id
  nodup : s.released.Nodup
  unique : ∀ i ∈ s.released, ∀ j ∈ s.released, ∀ truePid, s.kernel.threadOf truePid i = true →
    s.kernel.threadOf truePid j = true → i = j
  clean : ∀ truePid, (∀ i ∈ s.released, s.kernel.threadOf truePid i = false) →
    s.derefsOf truePid = []
  stays : ∀ i p, s.kernel.procs i = some p → ∃ j q, s.kernel.procs j = some q ∧
    q.truePid = p.truePid ∧ (j ∈ s.released ∨ (q.state ≠ .broken ∧ q.pc.leaving = false))

/-- The lock changes hands by `lock` and `unlock` alone. -/
theorem perform_lock (h : s.perform c t p a = some s₁) :
    s₁.ptableLock = if a = .lock then some t else if a = .unlock then none else s.ptableLock := by
  have hadopts : ∀ (l : List Nat) (s : State), (l.foldl State.adopt s).ptableLock =
      s.ptableLock := by
    intro l
    induction l with
    | nil => exact fun _ => rfl
    | cons i l ih =>
      intro s
      rw [List.foldl_cons, ih]
      unfold State.adopt
      split <;> rfl
  have hwake : ∀ (i : Nat) (s : State), (s.wake i).ptableLock = s.ptableLock := by
    intro i s
    unfold State.wake
    split
    · rfl
    · split <;> rfl
  have hwakes : ∀ (l : List Nat) (s : State), (l.foldl State.wake s).ptableLock = s.ptableLock := by
    intro l
    induction l with
    | nil => exact fun _ => rfl
    | cons i l ih => exact fun s => (ih _).trans (hwake i s)
  cases a with
  | skip | unlock | yield | prepare | clear | setStatus | setBroken | ret => cases h; rfl
  | lock =>
    simp only [State.perform] at h
    split at h
    · cases h; rfl
    · cases h
  | wakeAll => cases h; exact hwakes s.waitq s
  | wake i => cases h; exact hwake i s
  | interrupt i =>
    simp only [State.perform] at h
    split at h
    · cases h; exact hwake i _
    · cases h
  | setExiting i =>
    simp only [State.perform] at h
    split at h
    · cases h; rfl
    · cases h
  | reparent =>
    simp only [State.perform, State.reparent] at h
    split at h
    · cases h; rfl
    split at h
    · cases h
    split at h
    · cases h
      exact hadopts p.children _
    · cases h
  | free i =>
    simp only [State.perform, State.free] at h
    split at h
    · cases h
    split at h
    · cases h
    split at h
    · cases h; rfl
    · cases h

/-- A thread that takes the lock found it free. -/
theorem lock_free (h : s.perform c t p .lock = some s₁) : s.ptableLock = none := by
  simp only [State.perform] at h
  split at h
  · assumption
  · cases h

/-- A task that waits for nobody takes its step in the exit code. -/
theorem next_exit (hw : p.pc.waits = false) (h : next s t p = some (a, pc)) :
    nextExit s t p p.pc = some (a, pc) := by
  rcases next_cases h with h | h
  · exact h
  · cases hpc : p.pc <;> rw [hpc] at h hw <;> simp [nextWait] at h hw

section TaskStep
variable {p₁ : Proc} (hi : ThreadInv s) (hp : s.procs t = some p)
  (hn : next s t p = some (a, pc)) (hs₁ : s.perform c t p a = some s₁)
  (hp₁ : s₁.procs t = some p₁)
include hi hp hn hs₁ hp₁

/-- Broken threads stay broken over a step of another thread or of their own. -/
theorem ThreadInv.breaks (truePid : Nat) :
    Breaks s (s₁.setProc t (some { p₁ with pc := pc })) truePid := by
  intro j q' hq' htrue
  obtain ⟨q, hq, -, htq, -, hm, -⟩ := taskStep_kept hp hs₁ hp₁ hq'
  refine ⟨q, hq, htq.symm.trans htrue, fun hb => ?_⟩
  rw [hb] at hm
  refine hm.of_broken.resolve_right ?_
  rintro ⟨rfl, ha⟩
  rw [hp] at hq
  cases hq
  -- a broken task neither prepares nor clears
  have hexit := next_exit (hi.waits j p hp) hn
  have hpast := (nextExit_course hexit).pastBroken (hi.broken j p hp hb)
  rcases (next_flow hn).pastBroken hpast with rfl | ⟨-, rfl | rfl⟩ <;> rcases ha with ha | ha <;>
    cases ha

theorem ThreadInv.taskStep : ThreadInv (s₁.setProc t (some { p₁ with pc := pc })) := by
  have hexit := next_exit (hi.waits t p hp) hn
  have hleaves := nextExit_leaves hexit
  have hbreaks := hi.breaks hp hn hs₁ hp₁
  refine ⟨?_, ?_, ?_, ?_, ?_, ?_⟩
  · intro j q' hq'
    obtain ⟨q, hq, -⟩ := taskStep_kept hp hs₁ hp₁ hq'
    exact hi.slots j q hq
  · intro j q' hq'
    obtain ⟨q, hq, -, -, -, hm, -⟩ := taskStep_kept hp hs₁ hp₁ hq'
    exact hm.ne_blank (hi.blank j q hq)
  · intro j q' hq' hb
    obtain ⟨q, hq, hqpc, -, -, hm, -⟩ := taskStep_kept hp hs₁ hp₁ hq'
    rw [hb] at hm
    by_cases hj : j = t
    · subst hj
      rw [hp] at hq
      cases hq
      rw [hqpc, if_pos rfl]
      rcases hm.to_broken with hb | ⟨ha, -⟩
      · exact (nextExit_course hexit).pastBroken (hi.broken j p hp hb)
      · exact (nextExit_course hexit).setBroken ha
    · rw [hqpc, if_neg hj]
      exact hi.broken j q hq (hm.to_broken.resolve_right (fun h => hj h.2))
  · intro j q' hq'
    obtain ⟨q, hq, hqpc, -⟩ := taskStep_kept hp hs₁ hp₁ hq'
    rw [hqpc]
    split
    · exact hleaves.waits
    · exact hi.waits j q hq
  · intro j q' hq' hholds
    obtain ⟨q, hq, hqpc, -⟩ := taskStep_kept hp hs₁ hp₁ hq'
    change s₁.ptableLock = some j
    rw [perform_lock hs₁]
    rw [hqpc] at hholds
    by_cases hj : j = t
    · subst hj
      rw [if_pos rfl] at hholds
      split
      · rfl
      · rename_i ha
        have hlock := hi.lock j p hp (hleaves.holds ha hholds)
        split
        · rename_i hu
          rw [(hleaves.unlock hu).2] at hholds
          cases hholds
        · exact hlock
    · rw [if_neg hj] at hholds
      have hlock := hi.lock j q hq hholds
      split
      · rename_i ha
        subst ha
        rw [lock_free hs₁] at hlock
        cases hlock
      · split
        · rename_i ha
          have hlock' := hi.lock t p hp (hleaves.unlock ha).1
          rw [hlock] at hlock'
          exact absurd (Option.some.inj hlock') hj
        · exact hlock
  · intro j q' hq'
    obtain ⟨q, hq, hqpc, htrue, -⟩ := taskStep_kept hp hs₁ hp₁ hq'
    rw [hqpc, htrue]
    refine Pc.Knows.mono ?_ (hbreaks q.truePid)
    split
    · rename_i hj
      subst hj
      rw [hp] at hq
      cases hq
      exact nextExit_knows hp hi.slots hi.blank (hi.broken j p hp) (hi.knows j p hp) hexit
    · exact hi.knows j q hq

/-- Nobody disappears. -/
theorem ThreadInv.survives (hq : s.procs j = some q) :
    ∃ q', (s₁.setProc t (some { p₁ with pc := pc })).procs j = some q' ∧
      q'.truePid = q.truePid ∧ q'.pc = (if j = t then pc else q.pc) ∧
      Moves a (j = t) q.state q'.state := by
  have hexit := next_exit (hi.waits t p hp) hn
  obtain ⟨q₁, hq₁⟩ := (perform_exists ⟨q, hq⟩ hs₁).resolve_right ((nextExit_leaves hexit).free j)
  obtain ⟨q', hq'⟩ : ∃ q', (s₁.setProc t (some { p₁ with pc := pc })).procs j = some q' :=
    setProc_exists ⟨q₁, hq₁⟩
  obtain ⟨q₀, hq₀, hpc, htrue, -, hm, -⟩ := taskStep_kept hp hs₁ hp₁ hq'
  rw [hq] at hq₀
  cases hq₀
  exact ⟨q', hq', htrue, hpc, hm⟩

end TaskStep

/-- A release drops each open descriptor of its process once. -/
theorem derefsOf_release (s : Releasing) (t truePid truePid' : Nat) :
    (s.release t truePid).derefsOf truePid' = s.derefsOf truePid' ++
      if truePid = truePid' then (s.fdtable truePid).filterMap id else [] := by
  unfold Releasing.derefsOf Releasing.release
  rw [List.filter_append, List.map_append]
  congr 1
  by_cases h : truePid = truePid'
  · simp [h, List.filter_map, Function.comp_def]
  · simp [h, List.filter_map, Function.comp_def]

/-- The loop has not run for a process one of whose threads is about to run it. -/
theorem ReleaseInv.unreleased {s : Releasing} (hi : ReleaseInv s) (hp : s.kernel.procs t = some p)
    (hrel : p.pc.releases) : t ∉ s.released ∧
    ∀ i ∈ s.released, s.kernel.threadOf p.truePid i = false := by
  have hnot : ¬ (p.pc.past ∨ p.pc.leaving ∨ p.pc.pastBroken) := by
    cases hpc : p.pc <;> rw [hpc] at hrel <;> simp at hrel ⊢
  have hself : t ∉ s.released := by
    intro hmem
    obtain ⟨p', hp', hpc, -⟩ := hi.done t hmem
    rw [hp] at hp'
    cases hp'
    exact hnot hpc
  refine ⟨hself, fun i hmem => ?_⟩
  obtain ⟨q, hq, -, halone, -⟩ := hi.done i hmem
  unfold State.threadOf
  rw [hq]
  refine decide_eq_false fun htrue => ?_
  -- who has run it is alone, so `t` would be broken
  have hb := halone t p hp htrue.symm (fun hti => hself (hti ▸ hmem))
  exact hnot (.inr (.inr (hi.broken t p hp hb)))

/-- The task's step leaves a thread behind that can still run the loop. -/
theorem stays_of_abandons {s : Releasing} (hph : (s.kernel.cpus c).phase = .run)
    (hc : (s.kernel.cpus c).current = some t) (hp : s.kernel.procs t = some p)
    (hab : p.abandoning) (hok : abandons s (.cpu c) = false) :
    ∃ j q, s.kernel.procs j = some q ∧ q.truePid = p.truePid ∧ j ≠ t ∧ q.state ≠ .broken ∧
      (q.pc.leaving = false ∨ j ∈ s.released) := by
  simp only [abandons, hph, hc, hp, hab, true_and, decide_eq_false_iff_not, List.all_eq_true,
    List.mem_range, Bool.not_eq_true', not_forall, Bool.not_eq_false] at hok
  obtain ⟨j, -, hstays⟩ := hok
  unfold Releasing.stays at hstays
  split at hstays
  · rename_i q hq
    obtain ⟨htrue, hne, hb, hl⟩ := of_decide_eq_true hstays
    exact ⟨j, q, hq, htrue, hne, hb, hl⟩
  · cases hstays

theorem threadOf_congr (hq : s.procs i = some q) {q' : Proc} (hq' : s'.procs i = some q')
    (htrue : q'.truePid = q.truePid) : s'.threadOf truePid i = s.threadOf truePid i := by
  unfold State.threadOf
  rw [hq, hq']
  dsimp only
  rw [htrue]

/-- The records after the step of task `t`. -/
def Releasing.after (s : Releasing) (t : Nat) (p : Proc) : Releasing :=
  if p.pc.releases then s.release t p.truePid else s

/-- Who has released: those before, and the thread that is at the release. -/
theorem mem_after {s : Releasing} : i ∈ (s.after t p).released ↔
    i ∈ s.released ∨ (i = t ∧ p.pc.releases) := by
  unfold Releasing.after
  split
  · rename_i h
    simp [-Pc.releases, Releasing.release, h]
  · rename_i h
    simp [-Pc.releases, h]

theorem after_fdtable (s : Releasing) (t : Nat) (p : Proc) : (s.after t p).fdtable = s.fdtable := by
  unfold Releasing.after
  split <;> rfl

/-- The descriptors dropped after a step. -/
theorem derefsOf_after (s : Releasing) (t : Nat) (p : Proc) (truePid : Nat) :
    (s.after t p).derefsOf truePid = s.derefsOf truePid ++
      if p.pc.releases ∧ p.truePid = truePid then (s.fdtable truePid).filterMap id else [] := by
  unfold Releasing.after
  split
  · rename_i h
    rw [derefsOf_release]
    simp only [h, true_and]
    split
    · rename_i heq
      rw [heq]
    · rfl
  · rename_i h
    simp [-Pc.releases, h]

section ReleaseStep
variable {s : Releasing} {p₁ : Proc} (hi : ReleaseInv s) (hp : s.kernel.procs t = some p)
  (hn : next s.kernel t p = some (a, pc)) (hs₁ : s.kernel.perform c t p a = some s₁)
  (hp₁ : s₁.procs t = some p₁)
include hi hp hn hs₁ hp₁

/-- Whoever is past the loop has run it. -/
theorem ReleaseInv.past_step {q' : Proc}
    (hq' : (s₁.setProc t (some { p₁ with pc := pc })).procs j = some q') (hpast : q'.pc.past) :
    j ∈ (s.after t p).released := by
  have hleaves := nextExit_leaves (next_exit (hi.waits t p hp) hn)
  obtain ⟨q, hq, hqpc, -⟩ := taskStep_kept hp hs₁ hp₁ hq'
  rw [hqpc] at hpast
  refine mem_after.mpr ?_
  by_cases hj : j = t
  · subst hj
    rw [if_pos rfl] at hpast
    exact (hleaves.past hpast).imp (hi.past j p hp) (fun hrel => ⟨rfl, hrel⟩)
  · rw [if_neg hj] at hpast
    exact .inl (hi.past j q hq hpast)

/-- A thread that ran the loop before is still on its way out, and its process has nothing
left to drop. -/
theorem ReleaseInv.done_old (hj : j ∈ s.released) : ∃ q',
    (s₁.setProc t (some { p₁ with pc := pc })).procs j = some q' ∧
    (q'.pc.past ∨ q'.pc.leaving ∨ q'.pc.pastBroken) ∧
    Alone (s₁.setProc t (some { p₁ with pc := pc })) q'.truePid j ∧
    (s.after t p).derefsOf q'.truePid = (s.fdtable q'.truePid).filterMap id := by
  have hth := hi.toThreadInv
  have hexit := next_exit (hi.waits t p hp) hn
  have hleaves := nextExit_leaves hexit
  have hbreaks := hth.breaks hp hn hs₁ hp₁
  obtain ⟨q, hq, hqpc, halone, hderefs⟩ := hi.done j hj
  obtain ⟨q', hq', htrue, hqpc', -⟩ := hth.survives hp hn hs₁ hp₁ hq
  refine ⟨q', hq', ?_, by rw [htrue]; exact halone.mono (hbreaks q.truePid), ?_⟩
  · rw [hqpc']
    split
    · rename_i hjt
      subst hjt
      rw [hp] at hq
      cases hq
      rcases hqpc with hqpc | hqpc | hqpc
      · exact (hleaves.done hqpc).imp_right .inl
      · exact .inr (hleaves.broken hqpc)
      · exact .inr (.inr ((nextExit_course hexit).pastBroken hqpc))
    · exact hqpc
  · rw [derefsOf_after, if_neg, htrue, List.append_nil]
    · exact hderefs
    · rintro ⟨hrel, heq⟩
      have hno := (hi.unreleased hp hrel).2 j hj
      unfold State.threadOf at hno
      rw [hq] at hno
      exact of_decide_eq_false hno (by rw [heq, htrue])

/-- The thread that runs the loop in this step is alone, and drops what its process has. -/
theorem ReleaseInv.done_new (hrel : p.pc.releases) : ∃ q',
    (s₁.setProc t (some { p₁ with pc := pc })).procs t = some q' ∧
    (q'.pc.past ∨ q'.pc.leaving ∨ q'.pc.pastBroken) ∧
    Alone (s₁.setProc t (some { p₁ with pc := pc })) q'.truePid t ∧
    (s.after t p).derefsOf q'.truePid = (s.fdtable q'.truePid).filterMap id := by
  have hth := hi.toThreadInv
  have hleaves := nextExit_leaves (next_exit (hi.waits t p hp) hn)
  have hbreaks := hth.breaks hp hn hs₁ hp₁
  obtain ⟨q', hq', htrue, hqpc', -⟩ := hth.survives hp hn hs₁ hp₁ hp
  have halone : Alone s.kernel p.truePid t := by
    have hk := hi.knows t p hp
    cases hpc : p.pc <;> rw [hpc] at hrel hk <;> simp at hrel
    exact hk
  refine ⟨q', hq', .inl ?_, by rw [htrue]; exact halone.mono (hbreaks p.truePid), ?_⟩
  · rw [hqpc', if_pos rfl]
    exact hleaves.released hrel
  · rw [derefsOf_after, if_pos ⟨hrel, htrue.symm⟩, htrue,
      hi.clean p.truePid (hi.unreleased hp hrel).2, List.nil_append]

/-- A thread stays with its process. -/
theorem ReleaseInv.threadOf_step {q : Proc} (hq : s.kernel.procs j = some q) (truePid : Nat) :
    (s₁.setProc t (some { p₁ with pc := pc })).threadOf truePid j =
      s.kernel.threadOf truePid j := by
  obtain ⟨q', hq', htrue, -⟩ := hi.toThreadInv.survives hp hn hs₁ hp₁ hq
  exact threadOf_congr hq hq' htrue

/-- A thread that runs the loop is the first of its process. -/
theorem ReleaseInv.first_step (hj : j ∈ s.released) (hrel : p.pc.releases)
    (ht : (s₁.setProc t (some { p₁ with pc := pc })).threadOf truePid t = true)
    (hjt : (s₁.setProc t (some { p₁ with pc := pc })).threadOf truePid j = true) : False := by
  obtain ⟨q, hq, -⟩ := hi.done j hj
  rw [hi.threadOf_step hp hn hs₁ hp₁ hp, State.threadOf, hp] at ht
  rw [hi.threadOf_step hp hn hs₁ hp₁ hq, ← of_decide_eq_true ht,
    (hi.unreleased hp hrel).2 j hj] at hjt
  cases hjt

/-- So no process has two that ran it. -/
theorem ReleaseInv.unique_step {k : Nat} (hj : j ∈ (s.after t p).released)
    (hk : k ∈ (s.after t p).released)
    (htj : (s₁.setProc t (some { p₁ with pc := pc })).threadOf truePid j = true)
    (htk : (s₁.setProc t (some { p₁ with pc := pc })).threadOf truePid k = true) : j = k := by
  rcases mem_after.mp hj with hj' | ⟨hjt, hrel⟩
  · rcases mem_after.mp hk with hk' | ⟨hkt, hrel⟩
    · obtain ⟨q, hq, -⟩ := hi.done j hj'
      obtain ⟨r, hr, -⟩ := hi.done k hk'
      rw [hi.threadOf_step hp hn hs₁ hp₁ hq] at htj
      rw [hi.threadOf_step hp hn hs₁ hp₁ hr] at htk
      exact hi.unique j hj' k hk' truePid htj htk
    · exact (hi.first_step hp hn hs₁ hp₁ hj' hrel (hkt ▸ htk) htj).elim
  · rcases mem_after.mp hk with hk' | ⟨hkt, -⟩
    · exact (hi.first_step hp hn hs₁ hp₁ hk' hrel (hjt ▸ htj) htk).elim
    · exact hjt.trans hkt.symm

/-- A process none of whose threads ran the loop has dropped nothing. -/
theorem ReleaseInv.clean_step (hnone : ∀ i ∈ (s.after t p).released,
    (s₁.setProc t (some { p₁ with pc := pc })).threadOf truePid i = false) :
    (s.after t p).derefsOf truePid = [] := by
  have hold : ∀ j ∈ s.released, s.kernel.threadOf truePid j = false := by
    intro j hj
    obtain ⟨q, hq, -⟩ := hi.done j hj
    rw [← hi.threadOf_step hp hn hs₁ hp₁ hq]
    exact hnone j (mem_after.mpr (.inl hj))
  rw [derefsOf_after, hi.clean truePid hold, List.nil_append, if_neg]
  rintro ⟨hrel, htp⟩
  have hthread := hnone t (mem_after.mpr (.inr ⟨rfl, hrel⟩))
  rw [hi.threadOf_step hp hn hs₁ hp₁ hp, State.threadOf, hp] at hthread
  exact of_decide_eq_false hthread htp

/-- A thread other than `t` that can still run the loop, or ran it, is still there. -/
theorem ReleaseInv.stays_other {q : Proc} (hq : s.kernel.procs j = some q) (hjt : j ≠ t)
    (htrue : q.truePid = truePid)
    (hstay : j ∈ s.released ∨ (q.state ≠ .broken ∧ q.pc.leaving = false)) :
    ∃ j q', (s₁.setProc t (some { p₁ with pc := pc })).procs j = some q' ∧
      q'.truePid = truePid ∧
      (j ∈ (s.after t p).released ∨ (q'.state ≠ .broken ∧ q'.pc.leaving = false)) := by
  obtain ⟨q', hq', htrue', hqpc, hm⟩ := hi.toThreadInv.survives hp hn hs₁ hp₁ hq
  refine ⟨j, q', hq', htrue'.trans htrue, ?_⟩
  refine hstay.imp (fun hmem => mem_after.mpr (.inl hmem)) ?_
  rintro ⟨hnb, hnl⟩
  refine ⟨fun hb => ?_, by rw [hqpc, if_neg hjt]; exact hnl⟩
  rw [hb] at hm
  exact hnb (hm.to_broken.resolve_right (fun h => hjt h.2))

/-- When `t` itself gives up, another thread is left that does not. -/
theorem ReleaseInv.stays_self (hph : (s.kernel.cpus c).phase = .run)
    (hc : (s.kernel.cpus c).current = some t) (hok : abandons s (.cpu c) = false)
    (hstay : t ∈ s.released ∨ (p.state ≠ .broken ∧ p.pc.leaving = false)) :
    ∃ j q', (s₁.setProc t (some { p₁ with pc := pc })).procs j = some q' ∧
      q'.truePid = p.truePid ∧
      (j ∈ (s.after t p).released ∨ (q'.state ≠ .broken ∧ q'.pc.leaving = false)) := by
  have hleaves := nextExit_leaves (next_exit (hi.waits t p hp) hn)
  obtain ⟨q', hq', htrue, hqpc, hm⟩ := hi.toThreadInv.survives hp hn hs₁ hp₁ hp
  rcases hstay with hmem | ⟨hnb, hnl⟩
  · exact ⟨t, q', hq', htrue, .inl (mem_after.mpr (.inl hmem))⟩
  · cases hl : pc.leaving with
    | true =>
      rcases hleaves.leaving hl with h | hab | hpast
      · rw [hnl] at h
        cases h
      · obtain ⟨u, x, hx, hxtrue, hut, hxb, hxl⟩ := stays_of_abandons hph hc hp hab hok
        refine hi.stays_other hp hn hs₁ hp₁ hx hut hxtrue ?_
        exact hxl.symm.imp_right (fun h => ⟨hxb, h⟩)
      · exact ⟨t, q', hq', htrue, .inl (mem_after.mpr (.inl (hi.past t p hp hpast)))⟩
    | false =>
      refine ⟨t, q', hq', htrue, .inr ⟨fun hb => ?_, by rw [hqpc, if_pos rfl, hl]⟩⟩
      rw [hb] at hm
      rcases hm.to_broken with hb | ⟨ha, -⟩
      · exact hnb hb
      · rw [hleaves.setBroken ha] at hnl
        cases hnl

end ReleaseStep

/-- A step of a task inside the two system calls. -/
theorem ReleaseInv.taskStep {s : Releasing} {k : State} (hi : ReleaseInv s)
    (hph : (s.kernel.cpus c).phase = .run) (hc : (s.kernel.cpus c).current = some t)
    (hp : s.kernel.procs t = some p) (hok : abandons s (.cpu c) = false)
    (h : s.kernel.taskStep c t = some k) : ReleaseInv ((s.after t p).setKernel k) := by
  obtain ⟨p', a, pc, s₁, p₁, hp', hn, hs₁, hp₁, rfl⟩ := taskStep_inv h
  rw [hp] at hp'
  cases hp'
  refine ⟨hi.toThreadInv.taskStep hp hn hs₁ hp₁, ?_, ?_, ?_, ?_, ?_, ?_⟩
  · exact fun _ _ hq' hpast => hi.past_step hp hn hs₁ hp₁ hq' hpast
  · intro j hj
    change ∃ q', (s₁.setProc t (some { p₁ with pc := pc })).procs j = some q' ∧ _ ∧ _ ∧
      (s.after t p).derefsOf q'.truePid = ((s.after t p).fdtable q'.truePid).filterMap id
    rw [after_fdtable]
    rcases mem_after.mp hj with hj | ⟨rfl, hrel⟩
    · exact hi.done_old hp hn hs₁ hp₁ hj
    · exact hi.done_new hp hn hs₁ hp₁ hrel
  · change (s.after t p).released.Nodup
    unfold Releasing.after
    split
    · rename_i hrel
      rw [Releasing.release, ← List.concat_eq_append]
      exact hi.nodup.concat (hi.unreleased hp hrel).1
    · exact hi.nodup
  · exact fun _ hj _ hk _ htj htk => hi.unique_step hp hn hs₁ hp₁ hj hk htj htk
  · exact fun _ hnone => hi.clean_step hp hn hs₁ hp₁ hnone
  · intro i r' hr'
    obtain ⟨r, hr, -, hrtrue, -⟩ := taskStep_kept hp hs₁ hp₁ hr'
    rw [hrtrue]
    obtain ⟨j, q, hq, htrue, hstay⟩ := hi.stays i r hr
    by_cases hjt : j = t
    · subst hjt
      rw [hp] at hq
      cases hq
      rw [← htrue]
      exact hi.stays_self hp hn hs₁ hp₁ hph hc hok hstay
    · exact hi.stays_other hp hn hs₁ hp₁ hq hjt htrue hstay

/-- A position a task comes to from user mode in one step, or user mode. -/
def Pc.plain : Pc → Bool
  | .user | .exitStatus false _ | .texitLock _ => true
  | _ => false

/-- The task in user mode makes a system call, and there may be new threads of its
process. -/
structure Grows (s s' : State) (t : Nat) (p : Proc) : Prop where
  user : s.procs t = some p ∧ p.pc = .user
  old : ∀ j q, s.procs j = some q → ∃ q', s'.procs j = some q' ∧ q'.truePid = q.truePid ∧
    q'.state = q.state ∧ (q'.pc = q.pc ∨ (q.pc = .user ∧ q'.pc.plain))
  new : ∀ j q', s'.procs j = some q' → (∃ q, s.procs j = some q) ∨ (s.ptableLock = none ∧
    j < nproc ∧ q'.truePid = p.truePid ∧ q'.state = .runnable ∧ q'.pc.plain)
  lock : s'.ptableLock = s.ptableLock

/-- A place outside the exit code claims nothing. -/
theorem Pc.plain_spec (h : pc.plain) : pc.holds = false ∧ pc.waits = false ∧ pc.past = false ∧
    pc.leaving = false := by
  cases pc <;> simp [Pc.plain] at h ⊢

theorem Pc.plain_knows (h : pc.plain) : pc.Knows s truePid t := by
  cases pc <;> simp [Pc.plain, Pc.Knows] at h ⊢

/-- A task that holds `ptable_lock` sees no new threads. -/
theorem Grows.breaks (hg : Grows s s' t p) (hlock : s.ptableLock ≠ none) : Breaks s s' truePid := by
  intro j q' hq' htrue
  rcases hg.new j q' hq' with ⟨q, hq⟩ | ⟨hnone, -⟩
  · obtain ⟨q₁, hq₁, htq, hst, -⟩ := hg.old j q hq
    rw [hq'] at hq₁
    cases hq₁
    exact ⟨q, hq, htq.symm.trans htrue, fun hb => hst.trans hb⟩
  · exact absurd hnone hlock

section Grows
variable (hi : ThreadInv s) (hg : Grows s s' t p)
include hi hg

theorem Grows.user_live : p.state ≠ .broken := by
  intro hb
  have hpast := hi.broken t p hg.user.1 hb
  rw [hg.user.2] at hpast
  cases hpast

/-- Who is alone makes no system call and gets no new threads. -/
theorem Grows.alone (halone : Alone s truePid i) (hit : i ≠ t) : Alone s' truePid i := by
  intro j q' hq' htrue hne
  rcases hg.new j q' hq' with ⟨q, hq⟩ | ⟨-, -, htp, -⟩
  · obtain ⟨q₁, hq₁, htq, hst, -⟩ := hg.old j q hq
    rw [hq'] at hq₁
    cases hq₁
    rw [hst]
    exact halone j q hq (htq.symm.trans htrue) hne
  · exact absurd (halone t p hg.user.1 (htp.symm.trans htrue) (Ne.symm hit)) (hg.user_live hi)

theorem Grows.knows (hq : s.procs i = some q) : q.pc.Knows s' q.truePid i := by
  have hk := hi.knows i q hq
  have hit : q.pc ≠ .user → i ≠ t := by
    rintro hne rfl
    rw [hg.user.1] at hq
    cases hq
    exact hne hg.user.2
  have hlock : q.pc.holds → s.ptableLock ≠ none := by
    intro hh hnone
    rw [hi.lock i q hq hh] at hnone
    cases hnone
  cases hpc : q.pc with
  | exitCount | exitPredicate =>
    rw [hpc] at hk hlock
    exact hk.mono (hg.breaks (hlock rfl))
  | exitClear | exitUnlock | exitParentLock | exitParent | exitReparent | exitParentUnlock
  | exitWake =>
    rw [hpc] at hk hit
    exact hg.alone hi hk (hit nofun)
  | _ => trivial

/-- The invariant survives a step that adds a thread or moves one out of user code. -/
theorem Grows.threadInv : ThreadInv s' := by
  -- a task of `s'` is one of `s`, or is at a plain position
  have hcases : ∀ j q', s'.procs j = some q' → (∃ q, s.procs j = some q ∧ q'.truePid = q.truePid ∧
      q'.state = q.state ∧ (q'.pc = q.pc ∨ (q.pc = .user ∧ q'.pc.plain))) ∨
      (j < nproc ∧ q'.state = .runnable ∧ q'.pc.plain) := by
    intro j q' hq'
    rcases hg.new j q' hq' with ⟨q, hq⟩ | ⟨-, hlt, -, hst, hplain⟩
    · obtain ⟨q₁, hq₁, htq, hst, hpc⟩ := hg.old j q hq
      rw [hq'] at hq₁
      cases hq₁
      exact .inl ⟨q, hq, htq, hst, hpc⟩
    · exact .inr ⟨hlt, hst, hplain⟩
  refine ⟨?_, ?_, ?_, ?_, ?_, ?_⟩
  · intro j q' hq'
    rcases hcases j q' hq' with ⟨q, hq, -⟩ | ⟨hlt, -⟩
    · exact hi.slots j q hq
    · exact hlt
  · intro j q' hq'
    rcases hcases j q' hq' with ⟨q, hq, -, hst, -⟩ | ⟨-, hst, -⟩
    · rw [hst]
      exact hi.blank j q hq
    · rw [hst]
      exact nofun
  · intro j q' hq' hb
    rcases hcases j q' hq' with ⟨q, hq, -, hst, hpc⟩ | ⟨-, hst, -⟩
    · have hpast := hi.broken j q hq (hst.symm.trans hb)
      rcases hpc with hpc | ⟨hu, -⟩
      · rwa [hpc]
      · rw [hu] at hpast
        cases hpast
    · rw [hst] at hb
      cases hb
  · intro j q' hq'
    rcases hcases j q' hq' with ⟨q, hq, -, -, hpc | ⟨-, hplain⟩⟩ | ⟨-, -, hplain⟩
    · rw [hpc]
      exact hi.waits j q hq
    · exact (Pc.plain_spec hplain).2.1
    · exact (Pc.plain_spec hplain).2.1
  · intro j q' hq' hholds
    rw [hg.lock]
    rcases hcases j q' hq' with ⟨q, hq, -, -, hpc | ⟨-, hplain⟩⟩ | ⟨-, -, hplain⟩
    · rw [hpc] at hholds
      exact hi.lock j q hq hholds
    · rw [(Pc.plain_spec hplain).1] at hholds
      cases hholds
    · rw [(Pc.plain_spec hplain).1] at hholds
      cases hholds
  · intro j q' hq'
    rcases hcases j q' hq' with ⟨q, hq, htrue, -, hpc | ⟨-, hplain⟩⟩ | ⟨-, -, hplain⟩
    · rw [hpc, htrue]
      exact hg.knows hi hq
    · exact Pc.plain_knows hplain
    · exact Pc.plain_knows hplain

end Grows

/-- A task that has run the loop is not in user mode. -/
theorem ReleaseInv.not_user {s : Releasing} (hi : ReleaseInv s) (hj : j ∈ s.released)
    (hp : s.kernel.procs t = some p) (hu : p.pc = .user) : j ≠ t := by
  rintro rfl
  obtain ⟨q, hq, hpc, -⟩ := hi.done j hj
  rw [hp] at hq
  cases hq
  rw [hu] at hpc
  simp at hpc

/-- The same for the released descriptors. -/
theorem ReleaseInv.grow {s : Releasing} (hi : ReleaseInv s) (hg : Grows s.kernel s' t p) :
    ReleaseInv (s.setKernel s') := by
  have hth := hi.toThreadInv
  have hsame : ∀ j ∈ s.released, ∀ truePid, s'.threadOf truePid j =
      s.kernel.threadOf truePid j := by
    intro j hj truePid
    obtain ⟨q, hq, -⟩ := hi.done j hj
    obtain ⟨q', hq', htrue, -⟩ := hg.old j q hq
    exact threadOf_congr hq hq' htrue
  refine ⟨hg.threadInv hth, ?_, ?_, hi.nodup, ?_, ?_, ?_⟩
  · intro j q' hq' hpast
    have hnot : q'.pc.plain → False := by
      intro hplain
      rw [(Pc.plain_spec hplain).2.2.1] at hpast
      cases hpast
    rcases hg.new j q' hq' with ⟨q, hq⟩ | ⟨-, -, -, -, hplain⟩
    · obtain ⟨q₁, hq₁, -, -, hpc⟩ := hg.old j q hq
      rw [show (s.setKernel s').kernel = s' from rfl] at hq'
      rw [hq'] at hq₁
      cases hq₁
      rcases hpc with hpc | ⟨-, hplain⟩
      · rw [hpc] at hpast
        exact hi.past j q hq hpast
      · exact (hnot hplain).elim
    · exact (hnot hplain).elim
  · intro j hj
    obtain ⟨q, hq, hpc, halone, hderefs⟩ := hi.done j hj
    obtain ⟨q', hq', htrue, -, hpc'⟩ := hg.old j q hq
    have hne := hi.not_user hj hg.user.1 hg.user.2
    have hsame : q'.pc = q.pc := by
      refine hpc'.resolve_right ?_
      rintro ⟨hu, -⟩
      exact hi.not_user hj hq hu rfl
    refine ⟨q', hq', by rwa [hsame], ?_, ?_⟩
    · rw [htrue]
      exact hg.alone hth halone hne
    · rw [htrue]
      exact hderefs
  · intro j hj k hk truePid htj htk
    exact hi.unique j hj k hk truePid ((hsame j hj truePid).symm.trans htj)
      ((hsame k hk truePid).symm.trans htk)
  · intro truePid hnone
    refine hi.clean truePid fun j hj => ?_
    rw [← hsame j hj truePid]
    exact hnone j hj
  · intro j r' hr'
    obtain ⟨r, hr, htrue⟩ : ∃ r, (∃ i, s.kernel.procs i = some r) ∧ r'.truePid = r.truePid := by
      rcases hg.new j r' hr' with ⟨r, hr⟩ | ⟨-, -, htp, -⟩
      · obtain ⟨r₁, hr₁, htr, -⟩ := hg.old j r hr
        rw [show (s.setKernel s').kernel = s' from rfl] at hr'
        rw [hr'] at hr₁
        cases hr₁
        exact ⟨r, ⟨j, hr⟩, htr⟩
      · exact ⟨p, ⟨t, hg.user.1⟩, htp⟩
    obtain ⟨i, hr⟩ := hr
    obtain ⟨u, q, hq, hqtrue, hstay⟩ := hi.stays i r hr
    obtain ⟨q', hq', htrue', hst, hpc⟩ := hg.old u q hq
    refine ⟨u, q', hq', htrue'.trans (hqtrue.trans htrue.symm), hstay.imp_right ?_⟩
    rintro ⟨hnb, hnl⟩
    refine ⟨by rwa [hst], ?_⟩
    rcases hpc with hpc | ⟨-, hplain⟩
    · rwa [hpc]
    · exact (Pc.plain_spec hplain).2.2.2

/-! ## Runs -/

theorem grows_syscall (hp : s.procs t = some p) (hu : p.pc = .user) (hpc : pc.plain) :
    Grows s (s.setProc t (some { p with pc := pc })) t p := by
  refine ⟨⟨hp, hu⟩, ?_, ?_, rfl⟩
  · intro j q hq
    by_cases hj : j = t
    · subst hj
      rw [hp] at hq
      cases hq
      exact ⟨_, setProc_procs_self .., rfl, rfl, .inr ⟨hu, hpc⟩⟩
    · exact ⟨q, by rwa [setProc_procs_ne _ _ hj], rfl, rfl, .inl rfl⟩
  · intro j q' hq'
    by_cases hj : j = t
    · subst hj
      exact .inl ⟨p, hp⟩
    · rw [setProc_procs_ne _ _ hj] at hq'
      exact .inl ⟨q', hq'⟩

/-- Returning a value keeps what the invariant reads of every process. -/
theorem setRax_old (s : State) (t : Nat) (rax : Int) (hq : s.procs j = some q) :
    ∃ q', (s.setRax t rax).procs j = some q' ∧ q'.truePid = q.truePid ∧ q'.state = q.state ∧
      q'.pc = q.pc := by
  unfold State.setRax
  split
  · rename_i p hp
    by_cases hj : j = t
    · subst hj
      rw [hp] at hq
      cases hq
      exact ⟨_, setProc_procs_self .., rfl, rfl, rfl⟩
    · exact ⟨q, by rwa [setProc_procs_ne _ _ hj], rfl, rfl, rfl⟩
  · exact ⟨q, hq, rfl, rfl, rfl⟩

/-- So does adding a child. -/
theorem pushChild_old (s : State) (o i : Nat) (hq : s.procs j = some q) :
    ∃ q', (s.pushChild o i).procs j = some q' ∧ q'.truePid = q.truePid ∧ q'.state = q.state ∧
      q'.pc = q.pc := by
  unfold State.pushChild
  split
  · rename_i r hr
    by_cases hj : j = o
    · subst hj
      rw [hr] at hq
      cases hq
      exact ⟨_, setProc_procs_self .., rfl, rfl, rfl⟩
    · exact ⟨q, by rwa [setProc_procs_ne _ _ hj], rfl, rfl, rfl⟩
  · exact ⟨q, hq, rfl, rfl, rfl⟩

theorem setRax_lock (s : State) (t : Nat) (rax : Int) :
    (s.setRax t rax).ptableLock = s.ptableLock := by
  unfold State.setRax
  split <;> rfl

theorem pushChild_lock (s : State) (o i : Nat) : (s.pushChild o i).ptableLock = s.ptableLock := by
  unfold State.pushChild
  split <;> rfl

/-- `sys_clone` adds one thread in user mode, or none. -/
theorem grows_clone {ncpu : Nat} {exitStatus : Int} (hi : ThreadInv s) (hp : s.procs t = some p)
    (hu : p.pc = .user) (hlock : s.ptableLock = none)
    (h : s.sysClone ncpu t exitStatus = some s') : Grows s s' t p := by
  unfold State.sysClone at h
  obtain ⟨p', hp', h⟩ := Option.bind_eq_some_iff.mp h
  rw [hp] at hp'
  cases hp'
  split at h
  · cases h
    refine ⟨⟨hp, hu⟩, ?_, ?_, setRax_lock s t _⟩
    · intro j q hq
      obtain ⟨q', hq', htrue, hst, hpc⟩ := setRax_old s t (-1) hq
      exact ⟨q', hq', htrue, hst, .inl hpc⟩
    · intro j q' hq'
      obtain ⟨q, hq, -⟩ := still_setRax s t (-1) j q' hq'
      exact .inl ⟨q, hq⟩
  · rename_i i hslot
    obtain ⟨r, -, h⟩ := Option.bind_eq_some_iff.mp h
    split at h
    · cases h
      have hmem := List.mem_of_find?_eq_some hslot
      have hi16 : i < nproc := by
        rw [List.mem_range'_1] at hmem
        exact hmem.2
      have hnone : s.procs i = none := by
        have hfree := List.find?_some hslot
        split at hfree
        · rename_i q hq
          exact absurd (of_decide_eq_true hfree) (hi.blank i q hq)
        · assumption
      refine ⟨⟨hp, hu⟩, ?_, ?_, ?_⟩
      · intro j q hq
        have hji : j ≠ i := by
          rintro rfl
          rw [hq] at hnone
          cases hnone
        obtain ⟨q₁, hq₁, htrue₁, hst₁, hpc₁⟩ := pushChild_old (s.setProc i (some
          { truePid := p.truePid, ppid := p.ppid, main := false, cpu := i % ncpu,
            state := .runnable, exitStatus := exitStatus, pc := .user })) p.ppid i
          (by rwa [setProc_procs_ne _ _ hji])
        obtain ⟨q₂, hq₂, htrue₂, hst₂, hpc₂⟩ :=
          setRax_old (State.enqueue _ (i % ncpu) i) t i
            (show (State.enqueue _ _ _).procs j = _ from hq₁)
        exact ⟨q₂, hq₂, htrue₂.trans htrue₁, hst₂.trans hst₁, .inl (hpc₂.trans hpc₁)⟩
      · intro j q' hq'
        obtain ⟨q₁, hq₁, hpc₁, htrue₁, -, hst₁⟩ := still_setRax _ t _ j q' hq'
        obtain ⟨q₂, hq₂, hpc₂, htrue₂, -, hst₂⟩ := still_pushChild _ _ _ j q₁ hq₁
        by_cases hji : j = i
        · subst hji
          rw [setProc_procs_self] at hq₂
          cases hq₂
          refine .inr ⟨hlock, hi16, htrue₁.trans htrue₂, hst₁.trans hst₂, ?_⟩
          rw [hpc₁, hpc₂]
          rfl
        · rw [setProc_procs_ne _ _ hji] at hq₂
          exact .inl ⟨q₂, hq₂⟩
      · rw [setRax_lock]
        exact pushChild_lock ..
    · cases h

/-- The thread that a processor runs is the one that may release. -/
theorem releaser_of_run (hph : (s.cpus c).phase = .run) (hc : (s.cpus c).current = some t)
    (hp : s.procs t = some p) : s.releaser c = if p.pc.releases then some (t, p) else none := by
  unfold State.releaser
  simp only [hph, hc, hp]

theorem userTask_user (h : s.userTask c = some (t, p)) : s.procs t = some p ∧ p.pc = .user := by
  refine ⟨userTask_some h, ?_⟩
  unfold State.userTask at h
  split at h
  · split at h
    · split at h
      · cases h
        assumption
      · cases h
    · cases h
  · cases h

/-- The processors' own state does not matter. -/
theorem ReleaseInv.setCpu {s : Releasing} (hi : ReleaseInv s) (c : Nat) (cpu : Cpu) :
    ReleaseInv (s.setKernel (s.kernel.setCpu c cpu)) :=
  ⟨⟨hi.slots, hi.blank, hi.broken, hi.waits, hi.lock, hi.knows⟩, hi.past, hi.done, hi.nodup,
    hi.unique, hi.clean, hi.stays⟩

/-- A user thread may change its own descriptors. -/
theorem ReleaseInv.files {s : Releasing} (hi : ReleaseInv s) (hp : s.kernel.procs t = some p)
    (hu : p.pc = .user) (fdtable : List (Option Nat)) :
    ReleaseInv { s with fdtable := fun i => if i = p.truePid then fdtable else s.fdtable i } := by
  refine ⟨hi.toThreadInv, hi.past, ?_, hi.nodup, hi.unique, hi.clean, hi.stays⟩
  intro j hj
  obtain ⟨q, hq, hpc, halone, hderefs⟩ := hi.done j hj
  have hne := hi.not_user hj hp hu
  -- the process of the user task has no thread that is alone
  have htrue : q.truePid ≠ p.truePid := by
    intro heq
    have hpast := hi.broken t p hp (halone t p hp heq.symm (Ne.symm hne))
    rw [hu] at hpast
    cases hpast
  refine ⟨q, hq, hpc, halone, ?_⟩
  change s.derefsOf q.truePid = _
  rw [hderefs]
  dsimp only
  rw [if_neg htrue]

/-- A step of a processor is one of the task it runs, or touches only the processor. -/
theorem cpuStep_cases (h : step s (.cpu c) = some s') :
    (∃ t, (s.cpus c).phase = .run ∧ (s.cpus c).current = some t ∧ s.taskStep c t = some s') ∨
      (s.releaser c = none ∧ ∃ cpu, s' = s.setCpu c cpu) := by
  have hrel : (s.cpus c).phase ≠ .run → s.releaser c = none := by
    intro hne
    unfold State.releaser
    split
    · rename_i hph _
      exact absurd hph hne
    · rfl
  simp only [step] at h
  split at h
  · cases h
  · rename_i t hph hc
    exact .inl ⟨t, hph, hc, h⟩
  · rename_i hph
    obtain ⟨cpu, hs, -⟩ := sched_inv (.inl ⟨_, h⟩)
    exact .inr ⟨hrel (by rw [hph]; rintro ⟨⟩), cpu, hs⟩
  · rename_i hph
    obtain ⟨cpu, hs, -⟩ := sched_inv (.inr (.inl h))
    exact .inr ⟨hrel (by rw [hph]; rintro ⟨⟩), cpu, hs⟩

/-- A timer interrupt touches only the processor. -/
theorem timerStep_inv (h : step s (.timer c) = some s') : ∃ cpu, s' = s.setCpu c cpu := by
  simp only [step] at h
  split at h
  · exact ⟨_, (Option.some.inj h).symm⟩
  · obtain ⟨p, -, h⟩ := Option.bind_eq_some_iff.mp h
    split at h
    · exact ⟨_, (Option.some.inj h).symm⟩
    · cases h
  · cases h

/-- A system call moves its thread to the call's first place. -/
theorem syscallStep_inv {call : Syscall} (h : step s (.syscall c call) = some s') :
    ∃ t p pc, s.procs t = some p ∧ p.pc = .user ∧ call.entry = some pc ∧
      s' = s.setProc t (some { p with pc := pc }) := by
  simp only [step] at h
  split at h
  · rename_i t _ _
    obtain ⟨p, hp, h⟩ := Option.bind_eq_some_iff.mp h
    obtain ⟨pc, hpc, h⟩ := Option.bind_eq_some_iff.mp h
    split at h
    · rename_i hu
      exact ⟨t, p, pc, hp, hu, hpc, (Option.some.inj h).symm⟩
    · cases h
  · cases h

/-- Every step, by its kind. -/
theorem ReleaseInv.releaseStep {ncpu : Nat} {s s' : Releasing} {l : ReleaseLabel}
    (hi : ReleaseInv s) (hok : abandons s l = false) (h : releaseStep ncpu s l = some s') :
    ReleaseInv s' := by
  cases l with
  | cpu c =>
    obtain ⟨k, hk, rfl⟩ := Option.map_eq_some_iff.mp h
    rcases cpuStep_cases hk with ⟨t, hph, hc, hstep⟩ | ⟨hrel, cpu, rfl⟩
    · obtain ⟨p, -, -, -, -, hp, -⟩ := taskStep_inv hstep
      have hnext := hi.taskStep hph hc hp hok hstep
      unfold Releasing.after at hnext
      rw [releaser_of_run hph hc hp]
      split at hnext
      · rename_i hrel
        rw [if_pos hrel]
        exact hnext
      · rename_i hrel
        rw [if_neg hrel]
        exact hnext
    · rw [hrel]
      exact hi.setCpu c cpu
  | timer c =>
    obtain ⟨k, hk, rfl⟩ := Option.map_eq_some_iff.mp h
    obtain ⟨cpu, rfl⟩ := timerStep_inv hk
    exact hi.setCpu c cpu
  | exit c status =>
    obtain ⟨k, hk, rfl⟩ := Option.map_eq_some_iff.mp h
    obtain ⟨t, p, pc, hp, hu, hpc, rfl⟩ := syscallStep_inv hk
    cases hpc
    exact hi.grow (grows_syscall hp hu rfl)
  | texit c status =>
    obtain ⟨k, hk, rfl⟩ := Option.map_eq_some_iff.mp h
    obtain ⟨t, p, pc, hp, hu, hpc, rfl⟩ := syscallStep_inv hk
    cases hpc
    exact hi.grow (grows_syscall hp hu rfl)
  | clone c exitStatus =>
    unfold ExitWait.releaseStep at h
    dsimp only at h
    split at h
    · rename_i t p hut
      obtain ⟨hp, hu⟩ := userTask_user hut
      split at h
      · rename_i hlock
        obtain ⟨k, hk, rfl⟩ := Option.map_eq_some_iff.mp h
        exact hi.grow (grows_clone hi.toThreadInv hp hu hlock hk)
      · cases h
    · cases h
  | files c fdtable =>
    unfold ExitWait.releaseStep at h
    dsimp only at h
    split at h
    · rename_i t p hut
      cases h
      obtain ⟨hp, hu⟩ := userTask_user hut
      exact hi.files hp hu fdtable
    · cases h

/-- Before any thread has begun to exit. -/
theorem ReleaseInv.started {s : Releasing} (h : ReleaseStarted s) : ReleaseInv s := by
  have hplain : ∀ i p, s.kernel.procs i = some p → p.pc.plain := by
    intro i p hp
    rw [(h.user i p hp).1]
    rfl
  have hrun : ∀ i p, s.kernel.procs i = some p → p.state = .runnable :=
    fun i p hp => (h.user i p hp).2
  refine ⟨⟨h.slots, ?_, ?_, ?_, ?_, ?_⟩, ?_, ?_, ?_, ?_, ?_, ?_⟩
  · intro i p hp
    rw [hrun i p hp]
    exact nofun
  · intro i p hp hb
    rw [hrun i p hp] at hb
    cases hb
  · exact fun i p hp => (Pc.plain_spec (hplain i p hp)).2.1
  · intro i p hp hh
    rw [(Pc.plain_spec (hplain i p hp)).1] at hh
    cases hh
  · exact fun i p hp => Pc.plain_knows (hplain i p hp)
  · intro i p hp hpast
    rw [(Pc.plain_spec (hplain i p hp)).2.2.1] at hpast
    cases hpast
  · rw [h.released]
    exact List.forall_mem_nil _
  · rw [h.released]
    exact List.nodup_nil
  · rw [h.released]
    exact List.forall_mem_nil _
  · intro truePid _
    rw [Releasing.derefsOf, h.derefs]
    rfl
  · intro i p hp
    refine ⟨i, p, hp, rfl, .inr ⟨?_, (Pc.plain_spec (hplain i p hp)).2.2.2⟩⟩
    rw [hrun i p hp]
    exact nofun

/-- Every thread of the process is broken. -/
def AllBroken (s : State) (truePid : Nat) : Prop :=
  (∃ i p, s.procs i = some p ∧ p.truePid = truePid) ∧
    ∀ i p, s.procs i = some p → p.truePid = truePid → p.state = .broken

/-- **A process releases its descriptors exactly once in every run in which a thread
that leaves without the release loop leaves another behind that has not decided to do
so**: once all its threads are broken, one of them has run the loop, no thread has
run it again, and it has called `deref` once for each occupied slot of the shared
table.  Any number of processes and threads run on any number of CPUs. -/
theorem descriptors_released_once {ncpu : Nat} {s : Releasing}
    (h : (threads ncpu).ReachWhen (fun s l => abandons s l = false) s) (truePid : Nat)
    (hb : AllBroken s.kernel truePid) :
    (s.released.filter (s.kernel.threadOf truePid)).length = 1 ∧
      s.derefsOf truePid = (s.fdtable truePid).filterMap id := by
  have hi : ReleaseInv s := h.invariant ReleaseInv (fun _ => ReleaseInv.started)
    (fun _ _ _ hi hok hstep => hi.releaseStep hok hstep)
  obtain ⟨⟨i, p, hp, htrue⟩, hall⟩ := hb
  obtain ⟨j, q, hq, hqtrue, hstay⟩ := hi.stays i p hp
  have hqtrue := hqtrue.trans htrue
  have hmem : j ∈ s.released := hstay.resolve_right (fun h => h.1 (hall j q hq hqtrue))
  have hthread : s.kernel.threadOf truePid j = true := by
    unfold State.threadOf
    rw [hq]
    exact decide_eq_true hqtrue
  obtain ⟨q', hq', -, -, hderefs⟩ := hi.done j hmem
  rw [hq] at hq'
  cases hq'
  rw [hqtrue] at hderefs
  refine ⟨?_, hderefs⟩
  have hfilter : s.released.filter (s.kernel.threadOf truePid) = [j] := by
    refine List.perm_singleton.mp ?_
    refine (List.perm_ext_iff_of_nodup (hi.nodup.filter _) (List.nodup_singleton j)).mpr fun k => ?_
    rw [List.mem_filter, List.mem_singleton]
    constructor
    · rintro ⟨hk, htk⟩
      exact hi.unique k hk j hmem truePid htk hthread
    · rintro rfl
      exact ⟨hmem, hthread⟩
  rw [hfilter]
  rfl

/-- Process 2 with two threads, one on each of two CPUs, and one file in two of its
descriptors. -/
def pair : Releasing where
  kernel :=
    { procs := fun i =>
        if i = 2 then some { truePid := 2, ppid := 1, main := true, cpu := 0, state := .runnable,
                             pc := .user }
        else if i = 3 then some { truePid := 2, ppid := 1, main := false, cpu := 1,
                                  state := .runnable, pc := .user }
        else none
      cpus := fun c =>
        { current := if c = 0 then some 2 else if c = 1 then some 3 else none,
          runq := [], phase := .run }
      waitq := []
      ptableLock := none
      deleted := [] }
  fdtable := fun i => if i = 2 then [some 7, none, some 7] else []
  released := []
  derefs := []

theorem pair_started : ReleaseStarted pair := by
  have hprocs : ∀ i p, pair.kernel.procs i = some p →
      (p.pc = .user ∧ p.state = .runnable) ∧ i < nproc := by
    intro i p h
    simp only [pair] at h
    split at h
    · rename_i hi
      cases h
      exact ⟨⟨rfl, rfl⟩, by rw [hi]; decide⟩
    split at h
    · rename_i hi
      cases h
      exact ⟨⟨rfl, rfl⟩, by rw [hi]; decide⟩
    · cases h
  refine ⟨⟨fun i p h => (hprocs i p h).1, ?_, ?_, ?_, ?_, rfl, rfl⟩, fun i p h => (hprocs i p h).2,
    rfl, rfl⟩
  · intro c i h
    simp only [pair] at h
    split at h
    · rename_i hc
      cases h
      exact ⟨_, rfl, hc.symm⟩
    split at h
    · rename_i hc
      cases h
      exact ⟨_, rfl, hc.symm⟩
    · cases h
  · intro c i h
    cases h
  · exact fun c => List.not_mem_nil
  · exact fun c => List.nodup_nil

/-- Only `sys_clone` creates a task. -/
theorem releaseStep_none {ncpu : Nat} {s s' : Releasing} {l : ReleaseLabel}
    (hl : ∀ c exitStatus, l ≠ .clone c exitStatus) (h : releaseStep ncpu s l = some s')
    (hj : s.kernel.procs j = none) : s'.kernel.procs j = none := by
  cases l with
  | cpu c =>
    obtain ⟨k, hk, rfl⟩ := Option.map_eq_some_iff.mp h
    have hkernel := step_none hk hj
    split <;> exact hkernel
  | timer c =>
    obtain ⟨k, hk, rfl⟩ := Option.map_eq_some_iff.mp h
    exact step_none hk hj
  | exit c status =>
    obtain ⟨k, hk, rfl⟩ := Option.map_eq_some_iff.mp h
    exact step_none hk hj
  | texit c status =>
    obtain ⟨k, hk, rfl⟩ := Option.map_eq_some_iff.mp h
    exact step_none hk hj
  | clone c exitStatus => exact absurd rfl (hl c exitStatus)
  | files c fdtable =>
    unfold releaseStep at h
    dsimp only at h
    split at h
    · cases h
      exact hj
    · cases h

theorem threads_run_none {ncpu : Nat} {ls : List ReleaseLabel} :
    ∀ {s s' : Releasing}, (∀ l ∈ ls, ∀ c exitStatus, l ≠ .clone c exitStatus) →
      (threads ncpu).run s ls = some s' → s.kernel.procs j = none → s'.kernel.procs j = none := by
  induction ls with
  | nil =>
    intro s s' _ h hj
    cases h
    exact hj
  | cons l ls ih =>
    intro s s' hl h hj
    obtain ⟨s₁, h₁, h⟩ := Option.bind_eq_some_iff.mp h
    obtain ⟨hhead, htail⟩ := List.forall_mem_cons.mp hl
    exact ih htail h (releaseStep_none hhead h₁ hj)

theorem allBroken_pair {k : State}
    (h₂ : (k.procs 2).map (fun p => (p.truePid, p.state)) = some (2, .broken))
    (h₃ : (k.procs 3).map (fun p => (p.truePid, p.state)) = some (2, .broken))
    (hnone : ∀ i, i ≠ 2 → i ≠ 3 → k.procs i = none) : AllBroken k 2 := by
  obtain ⟨p, hp, hpt⟩ := Option.map_eq_some_iff.mp h₂
  obtain ⟨q, hq, hqt⟩ := Option.map_eq_some_iff.mp h₃
  rw [Prod.mk.injEq] at hpt hqt
  refine ⟨⟨2, p, hp, hpt.1⟩, ?_⟩
  intro i r hr _
  by_cases hi₂ : i = 2
  · rw [hi₂, hp] at hr
    cases hr
    exact hpt.2
  by_cases hi₃ : i = 3
  · rw [hi₃, hq] at hr
    cases hr
    exact hqt.2
  · rw [hnone i hi₂ hi₃] at hr
    cases hr

theorem pair_none {i : Nat} (h₂ : i ≠ 2) (h₃ : i ≠ 3) : pair.kernel.procs i = none := by
  simp [pair, h₂, h₃]

/-- The second thread leaves by `sys_texit`, and then the first by `sys_exit`. -/
def lastExitRun : List ReleaseLabel :=
  ReleaseLabel.texit 1 5 :: List.replicate 20 (ReleaseLabel.cpu 1) ++ ReleaseLabel.exit 0 0 ::
    List.replicate 26 (ReleaseLabel.cpu 0)

theorem descriptors_released_once_pair : ∃ s,
    (threads 2).ReachWhen (fun s l => abandons s l = false) s ∧ AllBroken s.kernel 2 ∧
      (s.released.filter (s.kernel.threadOf 2)).length = 1 ∧ s.derefsOf 2 = [7, 7] := by
  have hrun : ((threads 2).runWhen (fun s l => abandons s l = false) pair lastExitRun).isSome := by
    decide +kernel
  obtain ⟨s, hs⟩ := Option.isSome_iff_exists.mp hrun
  have h : ((threads 2).runWhen (fun s l => abandons s l = false) pair lastExitRun).map
      (fun s => ((s.kernel.procs 2).map (fun p => (p.truePid, p.state)),
        (s.kernel.procs 3).map (fun p => (p.truePid, p.state)), s.fdtable 2)) =
      some (some (2, .broken), some (2, .broken), [some 7, none, some 7]) := by
    decide +kernel
  rw [hs, Option.map_some, Option.some.injEq, Prod.mk.injEq, Prod.mk.injEq] at h
  have hclone : ∀ l ∈ lastExitRun, ∀ c exitStatus, l ≠ .clone c exitStatus := by
    unfold lastExitRun
    intro l hl c exitStatus hc
    subst hc
    simp at hl
  have hbroken : AllBroken s.kernel 2 := allBroken_pair h.1 h.2.1 fun i hi₂ hi₃ =>
    threads_run_none hclone (Machine.run_of_runWhen hs) (pair_none hi₂ hi₃)
  have hreach := Machine.ReachWhen.runWhen (.init pair_started) hs
  obtain ⟨hone, hderefs⟩ := descriptors_released_once hreach 2 hbroken
  rw [h.2.2] at hderefs
  exact ⟨s, hreach, hbroken, hone, hderefs⟩

/-- Both threads count two active threads, and then both break. -/
def bothTexitRun : List ReleaseLabel :=
  ReleaseLabel.texit 0 0 :: List.replicate 18 (ReleaseLabel.cpu 0) ++ ReleaseLabel.texit 1 0 ::
    List.replicate 20 (ReleaseLabel.cpu 1) ++ List.replicate 2 (ReleaseLabel.cpu 0)

/-- Both threads are broken, and the files of the process stay open. -/
theorem two_texits_leak : ∃ s, (threads 2).Reach s ∧ AllBroken s.kernel 2 ∧
    (s.released.filter (s.kernel.threadOf 2)).length = 0 ∧ s.derefsOf 2 = [] ∧
    (s.fdtable 2).filterMap id = [7, 7] := by
  have hrun : ((threads 2).run pair bothTexitRun).isSome := by decide +kernel
  obtain ⟨s, hs⟩ := Option.isSome_iff_exists.mp hrun
  have h : ((threads 2).run pair bothTexitRun).map
      (fun s => ((s.kernel.procs 2).map (fun p => (p.truePid, p.state)),
        (s.kernel.procs 3).map (fun p => (p.truePid, p.state)), s.fdtable 2)) =
      some (some (2, .broken), some (2, .broken), [some 7, none, some 7]) := by
    decide +kernel
  have hrecords : ((threads 2).run pair bothTexitRun).map (fun s => (s.released, s.derefs)) =
      some ([], []) := by
    decide +kernel
  rw [hs, Option.map_some, Option.some.injEq, Prod.mk.injEq, Prod.mk.injEq] at h
  rw [hs, Option.map_some, Option.some.injEq, Prod.mk.injEq] at hrecords
  obtain ⟨h₂, h₃, hfd⟩ := h
  obtain ⟨hrel, hderefs⟩ := hrecords
  have hclone : ∀ l ∈ bothTexitRun, ∀ c exitStatus, l ≠ .clone c exitStatus := by
    unfold bothTexitRun
    intro l hl c exitStatus hc
    subst hc
    simp at hl
  refine ⟨s, Machine.Reach.run (.init pair_started) hs, ?_, by rw [hrel]; rfl, ?_, by rw [hfd]; rfl⟩
  · exact allBroken_pair h₂ h₃ fun i hi₂ hi₃ => threads_run_none hclone hs (pair_none hi₂ hi₃)
  · rw [Releasing.derefsOf, hderefs]
    rfl

end PugOS.ExitWait
