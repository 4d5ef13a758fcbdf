import PugOS.ExitWait
import Mathlib.Data.List.Nodup

/-! # Lost wake-ups and early reaping

Two properties of the kernel's tasks, each of which fails in one window of an
exiting task and holds in every run that avoids it.

* `process_exit` calls `wake_all` on `waitpid_wq` before it sets `state_` to
  `broken`, and `sys_exit` does not call it again.  A parent that prepares and
  scans in between misses both (`family_loses_wakeup`).  When no blocked task
  scans a child in that window, no wake-up is lost (`exit_keeps_wakeup`).
* A task is `broken` while it still runs on its own kernel stack, until the
  scheduler replaces `current_`.  A parent that scans in between frees it there
  (`family_reaps_running`).  When no scan finds a task broken before its CPU has
  switched away from it, `process_reap` never frees a running one
  (`reap_only_switched_out`).

Both proofs say first what an operation can do to a task (`perform_kept`) and
where the code can go (`next_*`), and derive every invariant from that.
-/
namespace PugOS.ExitWait
open Transition

variable {s s' s₁ : State} {c t i j : Nat} {p q q₁ : Proc} {a : Act} {pc : Pc}

/-! ## What an operation does to the tasks -/

@[simp] theorem setProc_procs_self (s : State) (i : Nat) (p : Option Proc) :
    (s.setProc i p).procs i = p := by
  simp [State.setProc]

theorem setProc_procs_ne (s : State) (p : Option Proc) (h : j ≠ i) :
    (s.setProc i p).procs j = s.procs j := by
  simp [State.setProc, h]

@[simp] theorem setProc_cpus (s : State) (i : Nat) (p : Option Proc) :
    (s.setProc i p).cpus = s.cpus := rfl

@[simp] theorem setProc_waitq (s : State) (i : Nat) (p : Option Proc) :
    (s.setProc i p).waitq = s.waitq := rfl

@[simp] theorem setCpu_procs (s : State) (c : Nat) (cpu : Cpu) :
    (s.setCpu c cpu).procs = s.procs := rfl

@[simp] theorem setCpu_waitq (s : State) (c : Nat) (cpu : Cpu) :
    (s.setCpu c cpu).waitq = s.waitq := rfl

@[simp] theorem setCpu_cpus_self (s : State) (c : Nat) (cpu : Cpu) :
    (s.setCpu c cpu).cpus c = cpu := by
  simp [State.setCpu]

theorem setCpu_cpus_ne (s : State) (cpu : Cpu) {d : Nat} (h : d ≠ c) :
    (s.setCpu c cpu).cpus d = s.cpus d := by
  simp [State.setCpu, h]

/-- What `proc::wake` does to the task itself. -/
def Proc.woken (p : Proc) : Proc :=
  if p.state = .blocked then { p with state := .runnable } else p

/-- A process that has been woken is not blocked. -/
theorem Proc.woken_state_ne (p : Proc) : p.woken.state ≠ .blocked := by
  unfold Proc.woken
  split
  · simp
  · assumption

theorem Proc.woken_woken (p : Proc) : p.woken.woken = p.woken := by
  have h := p.woken_state_ne
  rw [Proc.woken, if_neg h]

/-- `wake` of a process: its state, and nothing of any other. -/
theorem wake_procs (s : State) (i j : Nat) :
    (s.wake i).procs j = if j = i then (s.procs j).map Proc.woken else s.procs j := by
  unfold State.wake
  split
  · rename_i h
    split
    · subst j; simp [h]
    · rfl
  · rename_i p h
    split
    · rename_i hb
      by_cases hj : j = i
      · subst hj; simp [h, Proc.woken, hb]
      · simp [setProc_procs_ne _ _ hj, hj]
    · rename_i hb
      split
      · subst j; simp [h, Proc.woken, hb]
      · rfl

/-- Several of them. -/
theorem wakes_procs (l : List Nat) : ∀ (s : State) (j : Nat),
    (l.foldl State.wake s).procs j =
      if j ∈ l then (s.procs j).map Proc.woken else s.procs j := by
  induction l with
  | nil => intro s j; simp
  | cons i l ih =>
    intro s j
    rw [List.foldl_cons, ih, wake_procs]
    by_cases hl : j ∈ l <;> by_cases hi : j = i <;>
      simp [hl, hi, Function.comp_def, Proc.woken_woken]

/-- `wake_all`: those in the queue. -/
theorem wakeAll_procs (s : State) (j : Nat) :
    s.wakeAll.procs j = if j ∈ s.waitq then (s.procs j).map Proc.woken else s.procs j :=
  wakes_procs s.waitq s j

/-- How a step of task `t` can change the `state_` of task `j`: a blocked task may
be woken, and the acting task sets its own. -/
inductive Moves (a : Act) (own : Prop) : ProcState → ProcState → Prop
  | same (st : ProcState) : Moves a own st st
  | woken : Moves a own .blocked .runnable
  | prepare (st : ProcState) (ha : a = .prepare) (ho : own) : Moves a own st .blocked
  | clear (st : ProcState) (ha : a = .clear) (ho : own) : Moves a own st .runnable
  | broken (st : ProcState) (ha : a = .setBroken) (ho : own) : Moves a own st .broken

/-- The fields of a task no operation changes, and how its `state_` and its list of
children can change. -/
structure Kept (a : Act) (own : Prop) (q q₁ : Proc) : Prop where
  pc : q₁.pc = q.pc
  truePid : q₁.truePid = q.truePid
  cpu : q₁.cpu = q.cpu
  state : Moves a own q.state q₁.state
  children : a ≠ .reparent → q₁.children ⊆ q.children

theorem Kept.refl (a : Act) (own : Prop) (q : Proc) : Kept a own q q :=
  ⟨rfl, rfl, rfl, .same _, fun _ => List.Subset.refl _⟩

theorem Kept.woken (a : Act) (own : Prop) (q : Proc) : Kept a own q q.woken := by
  unfold Proc.woken
  split
  · rename_i h
    exact ⟨rfl, rfl, rfl, h ▸ .woken, fun _ => List.Subset.refl _⟩
  · exact .refl a own q

/-- What a step keeps of the process that it sets, it keeps of all. -/
theorem Kept.of_setProc {own : Prop} {r : Proc} (hr : s.procs i = some r)
    (h : (s.setProc i (some q)).procs j = some q₁) (hk : j = i → Kept a own r q) :
    ∃ q, s.procs j = some q ∧ Kept a own q q₁ := by
  by_cases hj : j = i
  · subst hj
    rw [setProc_procs_self] at h
    cases h
    exact ⟨r, hr, hk rfl⟩
  · rw [setProc_procs_ne _ _ hj] at h
    exact ⟨q₁, h, .refl ..⟩

/-- `wake` keeps it. -/
theorem Kept.of_wake {own : Prop} (h : (s.wake i).procs j = some q₁) :
    ∃ q, s.procs j = some q ∧ Kept a own q q₁ := by
  rw [wake_procs] at h
  split at h
  · obtain ⟨q, hq, rfl⟩ := Option.map_eq_some_iff.mp h
    exact ⟨q, hq, .woken ..⟩
  · exact ⟨q₁, h, .refl ..⟩

/-- `wake_all` keeps it. -/
theorem Kept.of_wakeAll {own : Prop} (h : s.wakeAll.procs j = some q₁) :
    ∃ q, s.procs j = some q ∧ Kept a own q q₁ := by
  rw [wakeAll_procs] at h
  split at h
  · obtain ⟨q, hq, rfl⟩ := Option.map_eq_some_iff.mp h
    exact ⟨q, hq, .woken ..⟩
  · exact ⟨q₁, h, .refl ..⟩

/-- Every task of `s₁` is in `s`, at the same place and in the same state; only its
flags and its place in the process tree may differ. -/
def Still (s s₁ : State) : Prop :=
  ∀ j q₁, s₁.procs j = some q₁ → ∃ q, s.procs j = some q ∧
    q₁.pc = q.pc ∧ q₁.truePid = q.truePid ∧ q₁.cpu = q.cpu ∧ q₁.state = q.state

theorem Still.refl (s : State) : Still s s :=
  fun _ q₁ h => ⟨q₁, h, rfl, rfl, rfl, rfl⟩

theorem Still.trans {s₂ : State} (h₁ : Still s s₁) (h₂ : Still s₁ s₂) : Still s s₂ := by
  intro j q₂ h
  obtain ⟨q₁, hq₁, a₁, b₁, c₁, d₁⟩ := h₂ j q₂ h
  obtain ⟨q, hq, a, b, c, d⟩ := h₁ j q₁ hq₁
  exact ⟨q, hq, a₁.trans a, b₁.trans b, c₁.trans c, d₁.trans d⟩

/-- A process whose state, place and CPU are set to what they were stands still. -/
theorem Still.setProc (hp : s.procs i = some p) (h : q.pc = p.pc ∧ q.truePid = p.truePid ∧
    q.cpu = p.cpu ∧ q.state = p.state) : Still s (s.setProc i (some q)) := by
  intro j q₁ hq
  by_cases hj : j = i
  · subst hj
    rw [setProc_procs_self] at hq
    cases hq
    exact ⟨p, hp, h⟩
  · rw [setProc_procs_ne _ _ hj] at hq
    exact Still.refl s j q₁ hq

/-- Reparenting a child moves nobody. -/
theorem Still.adopt (s : State) (i : Nat) : Still s (s.adopt i) := by
  unfold State.adopt
  split
  · rename_i q hq
    exact .setProc hq ⟨rfl, rfl, rfl, rfl⟩
  · exact .refl s

/-- Nor does reparenting several. -/
theorem Still.adopts (l : List Nat) : ∀ s : State, Still s (l.foldl State.adopt s) := by
  induction l with
  | nil => exact Still.refl
  | cons i l ih => exact fun s => (Still.adopt s i).trans (ih _)

theorem adopts_cpus_waitq (l : List Nat) : ∀ s : State,
    (l.foldl State.adopt s).cpus = s.cpus ∧ (l.foldl State.adopt s).waitq = s.waitq := by
  induction l with
  | nil => exact fun s => ⟨rfl, rfl⟩
  | cons i l ih =>
    intro s
    have h : (s.adopt i).cpus = s.cpus ∧ (s.adopt i).waitq = s.waitq := by
      unfold State.adopt
      split <;> exact ⟨rfl, rfl⟩
    exact ⟨(ih _).1.trans h.1, (ih _).2.trans h.2⟩

/-- **`process_exit`'s reparenting moves nobody.** -/
theorem reparent_still (hp : s.procs t = some p) (h : s.reparent t p = some s₁) :
    Still s s₁ ∧ s₁.cpus = s.cpus ∧ s₁.waitq = s.waitq := by
  unfold State.reparent at h
  split at h
  · cases h
    exact ⟨.refl s, rfl, rfl⟩
  split at h
  · cases h
  dsimp only at h
  split at h
  · rename_i r hr
    cases h
    obtain ⟨hc, hw⟩ := adopts_cpus_waitq p.children (s.setProc t (some { p with children := [] }))
    refine ⟨?_, hc, hw⟩
    have h₁ : Still s (s.setProc t (some { p with children := [] })) :=
      .setProc hp ⟨rfl, rfl, rfl, rfl⟩
    exact (h₁.trans (.adopts p.children _)).trans (.setProc hr ⟨rfl, rfl, rfl, rfl⟩)
  · cases h

/-- `process_reap` removes task `i` and touches only its parent's children. -/
theorem free_inv (h : s.free i = some s₁) :
    ∃ p q, s.procs i = some p ∧ s.procs p.ppid = some q ∧ s₁.cpus = s.cpus ∧
      s₁.waitq = s.waitq ∧ s₁.procs i = none ∧
      ∀ j, j ≠ i → s₁.procs j =
        if j = p.ppid then some { q with children := q.children.erase i } else s.procs j := by
  unfold State.free at h
  split at h
  · cases h
  · rename_i p hp
    split at h
    · cases h
    · rename_i q hq
      split at h
      · cases h
        refine ⟨p, q, hp, hq, rfl, rfl, by simp, ?_⟩
        intro j hj
        simp [State.setProc, hj]
      · cases h

/-- **What an operation does to the tasks.**  No operation creates one; a task that
is still there kept its place in the code, its process and its CPU, and its
`state_` moved as `Moves` allows. -/
theorem perform_kept (hp : s.procs t = some p) (h : s.perform c t p a = some s₁)
    (hq : s₁.procs j = some q₁) : ∃ q, s.procs j = some q ∧ Kept a (j = t) q q₁ := by
  cases a with
  | skip => cases h; exact ⟨q₁, hq, .refl ..⟩
  | lock =>
    simp only [State.perform] at h
    split at h
    · cases h; exact ⟨q₁, hq, .refl ..⟩
    · cases h
  | unlock => cases h; exact ⟨q₁, hq, .refl ..⟩
  | prepare =>
    cases h
    exact Kept.of_setProc hp hq (fun hj =>
      ⟨rfl, rfl, rfl, .prepare _ rfl hj, fun _ => List.Subset.refl _⟩)
  | clear =>
    cases h
    exact Kept.of_setProc hp hq (fun hj =>
      ⟨rfl, rfl, rfl, .clear _ rfl hj, fun _ => List.Subset.refl _⟩)
  | wakeAll => cases h; exact Kept.of_wakeAll hq
  | wake i => cases h; exact Kept.of_wake hq
  | interrupt i =>
    simp only [State.perform] at h
    split at h
    · rename_i r hr
      cases h
      rw [wake_procs] at hq
      by_cases hj : j = i
      · subst hj
        simp only [if_true, setProc_procs_self, Option.map_some] at hq
        cases hq
        have hk := Kept.woken (.interrupt j) (j = t) { r with interrupted := true }
        exact ⟨r, hr, hk.pc, hk.truePid, hk.cpu, hk.state, hk.children⟩
      · rw [if_neg hj, setProc_procs_ne _ _ hj] at hq
        exact ⟨q₁, hq, .refl ..⟩
    · cases h
  | setExiting i =>
    simp only [State.perform] at h
    split at h
    · rename_i r hr
      cases h
      exact Kept.of_setProc hr hq (fun _ =>
      ⟨rfl, rfl, rfl, .same _, fun _ => List.Subset.refl _⟩)
    · cases h
  | setStatus status =>
    cases h
    exact Kept.of_setProc hp hq (fun _ =>
      ⟨rfl, rfl, rfl, .same _, fun _ => List.Subset.refl _⟩)
  | setBroken =>
    cases h
    exact Kept.of_setProc hp hq (fun hj =>
      ⟨rfl, rfl, rfl, .broken _ rfl hj, fun _ => List.Subset.refl _⟩)
  | reparent =>
    obtain ⟨q, hq, h₁, h₂, h₃, h₄⟩ := (reparent_still hp h).1 j q₁ hq
    exact ⟨q, hq, h₁, h₂, h₃, h₄ ▸ .same _, fun h => absurd rfl h⟩
  | free i =>
    obtain ⟨r, q, hr, hq', -, -, hi, hj⟩ := free_inv h
    by_cases hji : j = i
    · rw [hji, hi] at hq; cases hq
    · rw [hj j hji] at hq
      split at hq
      · rename_i hjp
        cases hq
        exact ⟨q, hjp ▸ hq', rfl, rfl, rfl, .same _, fun _ => List.erase_subset⟩
      · exact ⟨q₁, hq, .refl ..⟩
  | yield => cases h; exact ⟨q₁, hq, .refl ..⟩
  | ret rax rcx =>
    cases h
    exact Kept.of_setProc hp hq (fun _ =>
      ⟨rfl, rfl, rfl, .same _, fun _ => List.Subset.refl _⟩)

theorem setProc_exists (h : ∃ q, s.procs j = some q) :
    ∃ q, (s.setProc i (some p)).procs j = some q := by
  by_cases hj : j = i
  · subst hj
    exact ⟨p, setProc_procs_self ..⟩
  · rwa [setProc_procs_ne _ _ hj]

theorem adopts_exists (l : List Nat) : ∀ s : State, (∃ q, s.procs j = some q) →
    ∃ q, (l.foldl State.adopt s).procs j = some q := by
  induction l with
  | nil => exact fun _ h => h
  | cons i l ih =>
    intro s h
    refine ih _ ?_
    unfold State.adopt
    split
    · exact setProc_exists h
    · exact h

theorem wakes_exists (l : List Nat) (h : ∃ q, s.procs j = some q) :
    ∃ q, (l.foldl State.wake s).procs j = some q := by
  obtain ⟨q, hq⟩ := h
  rw [wakes_procs, hq]
  split
  · exact ⟨q.woken, rfl⟩
  · exact ⟨q, rfl⟩

/-- Only `process_reap` removes a task. -/
theorem perform_exists (hq : ∃ q, s.procs j = some q) (h : s.perform c t p a = some s₁) :
    (∃ q₁, s₁.procs j = some q₁) ∨ a = .free j := by
  cases a with
  | skip | unlock | yield => cases h; exact .inl hq
  | lock =>
    simp only [State.perform] at h
    split at h
    · cases h; exact .inl hq
    · cases h
  | prepare | clear | setStatus | setBroken | ret => cases h; exact .inl (setProc_exists hq)
  | wakeAll => cases h; exact .inl (wakes_exists s.waitq hq)
  | wake i => cases h; exact .inl (wakes_exists [i] hq)
  | interrupt i =>
    simp only [State.perform] at h
    split at h
    · cases h; exact .inl (wakes_exists [i] (setProc_exists hq))
    · cases h
  | setExiting i =>
    simp only [State.perform] at h
    split at h
    · cases h; exact .inl (setProc_exists hq)
    · cases h
  | reparent =>
    simp only [State.perform, State.reparent] at h
    split at h
    · cases h; exact .inl hq
    split at h
    · cases h
    split at h
    · cases h
      exact .inl (setProc_exists (adopts_exists _ _ (setProc_exists hq)))
    · cases h
  | free i =>
    obtain ⟨r, q, -, -, -, -, -, hj⟩ := free_inv h
    by_cases hji : j = i
    · exact .inr (hji ▸ rfl)
    · rw [hj j hji]
      split
      · exact .inl ⟨_, rfl⟩
      · exact .inl hq

/-- **What one step of a task is**: the code picks an operation and a next
position, and the operation is carried out. -/
theorem taskStep_inv (h : s.taskStep c t = some s') :
    ∃ p a pc s₁ p₁, s.procs t = some p ∧ next s t p = some (a, pc) ∧
      s.perform c t p a = some s₁ ∧ s₁.procs t = some p₁ ∧
      s' = s₁.setProc t (some { p₁ with pc := pc }) := by
  simp only [State.taskStep, Option.bind_eq_bind] at h
  obtain ⟨p, hp, h⟩ := Option.bind_eq_some_iff.mp h
  obtain ⟨⟨a, pc⟩, hn, h⟩ := Option.bind_eq_some_iff.mp h
  obtain ⟨s₁, hs₁, h⟩ := Option.bind_eq_some_iff.mp h
  obtain ⟨p₁, hp₁, h⟩ := Option.bind_eq_some_iff.mp h
  exact ⟨p, a, pc, s₁, p₁, hp, hn, hs₁, hp₁, (Option.some.inj h).symm⟩

/-- The three kinds of steps: a step of a running task, a step of the scheduler or a
timer interrupt, which leave the tasks alone, and a system call, which moves its
task from user mode to its first line. -/
theorem step_cases {l : Label} (h : step s l = some s') :
    (∃ c t, l = .cpu c ∧ (s.cpus c).phase = .run ∧ (s.cpus c).current = some t ∧
      s.taskStep c t = some s') ∨
    (∃ c, (∃ yf, s.schedCheck c yf = some s') ∨ s.schedSwap c = some s' ∨
      ∃ ph, s' = s.setCpu c { s.cpus c with phase := ph }) ∨
    (∃ t p call pc, s.procs t = some p ∧ p.pc = .user ∧ Syscall.entry call = some pc ∧
      s' = s.setProc t (some { p with pc := pc })) := by
  cases l with
  | cpu c =>
    simp only [step] at h
    split at h
    · cases h
    · rename_i t hph hc
      exact .inl ⟨c, t, rfl, hph, hc, h⟩
    · exact .inr (.inl ⟨c, .inl ⟨_, h⟩⟩)
    · exact .inr (.inl ⟨c, .inr (.inl h)⟩)
  | timer c =>
    simp only [step] at h
    split at h
    · cases h
      exact .inr (.inl ⟨c, .inr (.inr ⟨_, rfl⟩)⟩)
    · obtain ⟨p, -, h⟩ := Option.bind_eq_some_iff.mp h
      split at h
      · cases h
        exact .inr (.inl ⟨c, .inr (.inr ⟨_, rfl⟩)⟩)
      · cases h
    · cases h
  | syscall c call =>
    simp only [step] at h
    split at h
    · rename_i t _ _
      obtain ⟨p, hp, h⟩ := Option.bind_eq_some_iff.mp h
      obtain ⟨pc, hpc, h⟩ := Option.bind_eq_some_iff.mp h
      split at h
      · rename_i hu
        cases h
        exact .inr (.inr ⟨t, p, call, pc, hp, hu, hpc, rfl⟩)
      · cases h
    · cases h

/-- What a step of the scheduler or a timer interrupt makes of its CPU: its tasks stay
where they are, or `current_` is put back and the next task taken. -/
inductive Switch (s : State) (c : Nat) (cpu : Cpu) : Prop
  | stay (hcur : cpu.current = (s.cpus c).current) (hrunq : cpu.runq = (s.cpus c).runq)
  | idle (hcur : cpu.current = none) (hrunq : cpu.runq = [])
  | take (st : ProcState) (hst : s.stateOf (s.cpus c).current = some st)
      (h : (s.cpus c).putBack st = cpu.current :: cpu.runq)

/-- What the scheduler does to a CPU. -/
theorem sched_inv (h : (∃ yf, s.schedCheck c yf = some s') ∨ s.schedSwap c = some s' ∨
    ∃ ph, s' = s.setCpu c { s.cpus c with phase := ph }) :
    ∃ cpu, s' = s.setCpu c cpu ∧ Switch s c cpu := by
  rcases h with ⟨yf, h⟩ | h | ⟨ph, rfl⟩
  · obtain ⟨st, -, h⟩ := Option.bind_eq_some_iff.mp h
    split at h <;> cases h <;> exact ⟨_, rfl, .stay rfl rfl⟩
  · obtain ⟨st, hst, h⟩ := Option.bind_eq_some_iff.mp h
    split at h
    · cases h
      exact ⟨_, rfl, .idle rfl rfl⟩
    · rename_i i rest hr
      cases h
      exact ⟨_, rfl, .take st hst hr⟩
  · exact ⟨_, rfl, .stay rfl rfl⟩

/-! ## Where the code goes -/

/-- The slot whose `state_` the next step of `sys_waitpid` reads. -/
def State.scans (s : State) (p : Proc) : Option Nat :=
  match p.pc with
  | .waitAny _ (i :: _) => some i
  | .waitScan w i => if i < nproc ∧ s.threadOf w.childPid i then some i else none
  | _ => none

/-- The task will reach a `wake_all` on `waitpid_wq` before it blocks or leaves the
kernel. -/
def Pc.committed : Pc → Bool
  | .texitStatus _ | .exitPredicateWake _ | .exitClear _ | .exitUnlock _ | .exitParentLock _
  | .exitParent _ | .exitReparent _ | .exitParentUnlock _ | .exitWake _ | .caughtClear
  | .setBroken true | .lastWake | .reapLock .. | .reap .. | .reapUnlock .. | .reapWake .. => true
  | _ => false

/-- The task has made the last `wake_all` of its exit. -/
def Pc.pastWake : Pc → Bool
  | .setBroken false | .yieldNoreturn | .dead => true
  | _ => false

/-- The task has set its `state_` to `broken`. -/
def Pc.pastBroken : Pc → Bool
  | .lastWake | .yieldNoreturn | .dead => true
  | _ => false

/-- The slot the task is about to free. -/
def Pc.reaping : Pc → Option Nat
  | .reapLock _ _ i | .reap _ _ i => some i
  | _ => none

/-- The task takes `ptable_lock` again after a `process_reap`. -/
def Pc.relocking : Pc → Bool
  | .waitRelock .. => true
  | _ => false

/-- The call waits for the task in slot `i`, which belongs to process `truePid`. -/
def Wait.awaits (w : Wait) (children : List Nat) (truePid i : Nat) : Prop :=
  if w.childPid = 0 then i ∈ children else truePid = w.childPid ∧ i < nproc

/-- A waiting task at this position has looked at the task in slot `i` since it
prepared to block, and did not find it broken. -/
def Pc.missed (children : List Nat) (truePid i : Nat) : Pc → Prop
  | .waitAny w rest => w.awaits children truePid i ∧ (w.childPid = 0 → i ∉ rest)
  | .waitScan w j => w.awaits children truePid i ∧ (w.childPid ≠ 0 → i < j)
  | .waitThreads w | .waitBlock w | .waitBlocked w => w.awaits children truePid i
  | _ => False

/-- **Where the code goes**, in the terms the invariants need. -/
structure Flow (s : State) (p : Proc) (a : Act) (pc : Pc) : Prop where
  committed : p.pc.committed → a = .wakeAll ∨ pc.committed
  pastWake : pc.pastWake → a = .wakeAll ∨ p.pc.pastWake
  pastBroken : pc.pastBroken → a = .setBroken ∨ (p.pc.pastBroken ∧ (a = .wakeAll ∨ a = .yield))
  relocking : pc.relocking → a = .wakeAll
  prepare : a = .prepare → ∀ children truePid i, ¬ pc.missed children truePid i
  reparent : a = .reparent → pc.committed
  free : ∀ i, a = .free i → p.pc.reaping = some i ∧ pc.committed
  reaping : ∀ i, pc.reaping = some i → p.pc.reaping = some i ∨
    (s.scans p = some i ∧ ∃ q, s.procs i = some q ∧ q.state = .broken)

attribute [local simp] Pc.committed Pc.pastWake Pc.pastBroken Pc.relocking Pc.missed Pc.reaping

/-- The places of `exit` and `texit` follow each other so. -/
theorem nextExit_flow (h : nextExit s t p p.pc = some (a, pc)) : Flow s p a pc := by
  cases hpc : p.pc
  all_goals rw [hpc] at h
  case setBroken thenWake => cases thenWake <;> cases h <;> constructor <;> simp [hpc]
  all_goals simp only [nextExit] at h
  all_goals first
    | cases h
    | (try split at h) <;> (try split at h) <;> cases h
  all_goals constructor <;> simp [hpc]

/-- Those of `waitpid` do. -/
theorem nextWait_flow (h : nextWait s t p p.pc = some (a, pc)) : Flow s p a pc := by
  cases hpc : p.pc
  all_goals rw [hpc] at h
  case waitStart w =>
    cases h
    by_cases h0 : w.childPid = 0 <;> constructor <;> simp [h0, hpc]
  case waitAny w rest =>
    cases rest with
    | nil => cases h; constructor <;> simp [hpc]
    | cons i rest =>
      simp only [nextWait] at h
      split at h
      · cases h
      rename_i q hq
      split at h <;> rename_i hb <;> cases h <;> constructor <;> simp [hpc, State.scans]
      exact ⟨q, hq, hb⟩
  case waitScan w i =>
    simp only [nextWait] at h
    split at h
    · rename_i hi
      split at h
      · cases h; constructor <;> simp [hpc]
      · rename_i q hq
        split at h <;> rename_i hb <;> cases h <;> constructor <;> simp [hpc]
        exact ⟨by simp [State.scans, hpc, State.threadOf, hi, hq, hb.1], q, hq, hb.2⟩
    · cases h; constructor <;> simp [hpc]
  case waitRelock w k => cases k <;> cases h <;> constructor <;> simp [hpc]
  all_goals simp only [nextWait] at h
  all_goals first
    | cases h
    | (try split at h) <;> (try split at h) <;> cases h
  all_goals constructor <;> simp [hpc]

/-- A step is one of `exit` or `texit`, or one of `waitpid`. -/
theorem next_cases (h : next s t p = some (a, pc)) :
    nextExit s t p p.pc = some (a, pc) ∨ nextWait s t p p.pc = some (a, pc) := by
  unfold next at h
  cases he : nextExit s t p p.pc with
  | none => exact .inr (by simpa [he] using h)
  | some x => exact .inl (by simpa [he] using h)

/-- So each step goes on in its call. -/
theorem next_flow (h : next s t p = some (a, pc)) : Flow s p a pc :=
  (next_cases h).elim nextExit_flow nextWait_flow

/-! ## Lost wake-ups -/

/-- A scan of the children goes on to the next one. -/
theorem missed_any {w : Wait} {rest : List Nat} (hpc : p.pc = .waitAny w (i :: rest))
    (hq : s.procs i = some q) (hb : q.state ≠ .broken) {q' : Proc} (hq' : s.procs j = some q')
    (hm : (Pc.waitAny w rest).missed p.children q'.truePid j) :
    p.pc.missed p.children q'.truePid j ∨ (s.scans p = some j ∧ q'.state ≠ .broken) := by
  by_cases hj : j = i
  · subst hj
    rw [hq] at hq'
    cases hq'
    exact .inr ⟨by simp [State.scans, hpc], hb⟩
  · rw [hpc]
    exact .inl ⟨hm.1, fun h0 => by simp [hj, hm.2 h0]⟩

/-- A scan of the table goes on to the next slot. -/
theorem missed_scan {w : Wait} (hpc : p.pc = .waitScan w i) (hi : i < nproc)
    (hb : ∀ q, s.procs i = some q → q.truePid = w.childPid → q.state ≠ .broken)
    (hq : s.procs j = some q) (hm : (Pc.waitScan w (i + 1)).missed p.children q.truePid j) :
    p.pc.missed p.children q.truePid j ∨ (s.scans p = some j ∧ q.state ≠ .broken) := by
  obtain ⟨haw, hlt⟩ := hm
  by_cases h0 : w.childPid = 0
  · rw [hpc]
    exact .inl ⟨haw, fun h => absurd h0 h⟩
  by_cases hj : j = i
  · subst hj
    have ht : q.truePid = w.childPid := by
      rw [Wait.awaits, if_neg h0] at haw
      exact haw.1
    exact .inr ⟨by simp [State.scans, hpc, hi, State.threadOf, hq, ht], hb q hq ht⟩
  · have := hlt h0
    rw [hpc]
    exact .inl ⟨haw, fun _ => by omega⟩

/-- A task that has missed another one had missed it before, has just looked at it,
or has just come back from a `process_reap`. -/
theorem nextWait_missed (h : nextWait s t p p.pc = some (a, pc)) (hq : s.procs j = some q)
    (hm : pc.missed p.children q.truePid j) :
    p.pc.missed p.children q.truePid j ∨ p.pc.relocking ∨
      (s.scans p = some j ∧ q.state ≠ .broken) := by
  cases hpc : p.pc
  all_goals rw [hpc] at h
  case waitStart w =>
    cases h
    by_cases h0 : w.childPid = 0 <;> simp [h0, Wait.awaits] at hm
  case waitAny w rest =>
    cases rest with
    | nil =>
      cases h
      exact .inl ⟨hm, fun _ => List.not_mem_nil⟩
    | cons i rest =>
      simp only [nextWait] at h
      split at h
      · cases h
      rename_i r hr
      split at h <;> rename_i hb <;> cases h
      · simp at hm
      · exact hpc ▸ (missed_any hpc hr hb hq hm).imp_right .inr
  case waitScan w i =>
    simp only [nextWait] at h
    split at h
    · rename_i hi
      split at h
      · rename_i hn
        cases h
        exact hpc ▸ (missed_scan hpc hi (fun r hr => by simp [hn] at hr) hq hm).imp_right .inr
      · rename_i r hr
        split at h <;> rename_i hb <;> cases h
        · simp at hm
        · have hb' : ∀ q, s.procs i = some q → q.truePid = w.childPid → q.state ≠ .broken := by
            intro q hq ht hs
            rw [hr] at hq
            cases hq
            exact hb ⟨ht, hs⟩
          exact hpc ▸ (missed_scan hpc hi hb' hq hm).imp_right .inr
    · rename_i hi
      cases h
      refine .inl ⟨hm, fun h0 => ?_⟩
      have haw : q.truePid = w.childPid ∧ j < nproc := by
        simpa [Wait.awaits, h0] using hm
      omega
  case waitRelock w k => exact .inr (.inl rfl)
  case waitThreads w =>
    simp only [nextWait] at h
    split at h <;> cases h
    · simp at hm
    · exact .inl hm
  case waitBlock w =>
    cases h
    exact .inl hm
  all_goals simp only [nextWait] at h
  all_goals first
    | cases h
    | (try split at h) <;> (try split at h) <;> cases h
  all_goals simp at hm

/-- An exit has missed no child. -/
theorem nextExit_missed (h : nextExit s t p p.pc = some (a, pc)) {l : List Nat} {truePid : Nat} :
    ¬ pc.missed l truePid j := by
  cases hpc : p.pc
  all_goals rw [hpc] at h
  case setBroken thenWake => cases thenWake <;> cases h <;> simp
  all_goals simp only [nextExit] at h
  all_goals first
    | cases h
    | (try split at h) <;> (try split at h) <;> cases h
  all_goals simp

/-- After the wake-up an exit is to be marked broken, or is. -/
theorem Pc.pastWake_cases (h : pc.pastWake) : pc = .setBroken false ∨ pc.pastBroken := by
  cases pc with
  | setBroken thenWake => cases thenWake <;> simp at h ⊢
  | yieldNoreturn | dead => exact .inr rfl
  | _ => simp at h

/-- The task whose `state_` the step reads in a scan, with the task that scans. -/
def scanOf (s : State) : Label → Option (Proc × Nat × Proc)
  | .cpu c => do
    let t ← (s.cpus c).current
    let p ← s.procs t
    let i ← s.scans p
    let q ← s.procs i
    if (s.cpus c).phase = .run then some (p, i, q) else none
  | _ => none

/-- The step is a scan by a blocked task of one that has made its last `wake_all`
and has not set its `state_` yet. -/
def blindScan (s : State) (l : Label) : Bool :=
  match scanOf s l with
  | some (p, _, q) => p.state = .blocked ∧ q.pc = .setBroken false
  | none => false

/-- Task `i` has finished its exit, and `t` stays blocked in `sys_waitpid`, waiting
for it, with nobody left who will wake it. -/
structure LostWakeup (s : State) (t i : Nat) : Prop where
  child : ∃ q, s.procs i = some q ∧ q.state = .broken ∧ q.pc = .dead
  parent : ∃ p w q, s.procs t = some p ∧ s.procs i = some q ∧ p.state = .blocked ∧
    (p.pc = .waitBlock w ∨ p.pc = .waitBlocked w) ∧ w.awaits p.children q.truePid i
  alone : ∀ u r, s.procs u = some r → r.pc.committed = false

/-- Somebody will call `wake_all`. -/
def Pending (s : State) : Prop :=
  ∃ u r, s.procs u = some r ∧ r.pc.committed

/-- The invariant behind `exit_keeps_wakeup`.  A blocked task is linked in
`waitpid_wq`; a task that has looked at another and is still blocked looked before
that one's last `wake_all`, unless another `wake_all` is on its way. -/
structure WakeInv (s : State) : Prop where
  linked : ∀ t p, s.procs t = some p → p.state = .blocked → t ∈ s.waitq
  broken : ∀ t p, s.procs t = some p → p.pc.pastBroken → p.state = .broken
  relocking : ∀ t p, s.procs t = some p → p.pc.relocking → p.state ≠ .blocked
  missed : ∀ t p i q, s.procs t = some p → s.procs i = some q → p.state = .blocked →
    p.pc.missed p.children q.truePid i → q.pc.pastWake → Pending s

/-- **A child that a wait has missed** was missed before, or the wait takes the lock again, or the
scan passes it now. -/
theorem next_missed (h : next s t p = some (a, pc)) (hq : s.procs j = some q)
    (hm : pc.missed p.children q.truePid j) :
    p.pc.missed p.children q.truePid j ∨ p.pc.relocking ∨
      (s.scans p = some j ∧ q.state ≠ .broken) := by
  rcases next_cases h with h | h
  · exact absurd hm (nextExit_missed h)
  · exact nextWait_missed h hq hm

/-- A wait that has missed a child has missed it with more children. -/
theorem Pc.missed_mono {l l' : List Nat} {truePid : Nat} (hl : l ⊆ l')
    (h : pc.missed l truePid i) : pc.missed l' truePid i := by
  have haw : ∀ w : Wait, w.awaits l truePid i → w.awaits l' truePid i := by
    intro w hw
    unfold Wait.awaits at hw ⊢
    split
    · rename_i h0
      rw [if_pos h0] at hw
      exact hl hw
    · rename_i h0
      rwa [if_neg h0] at hw
  cases pc with
  | waitAny w rest | waitScan w k => exact ⟨haw w h.1, h.2⟩
  | waitThreads w | waitBlock w | waitBlocked w => exact haw w h
  | _ => exact h.elim

/-- The task a step of task `t` leaves in slot `j`. -/
theorem taskStep_kept {p₁ : Proc} (hp : s.procs t = some p) (hs₁ : s.perform c t p a = some s₁)
    (hp₁ : s₁.procs t = some p₁)
    (hq₁ : (s₁.setProc t (some { p₁ with pc := pc })).procs j = some q₁) :
    ∃ q, s.procs j = some q ∧ q₁.pc = (if j = t then pc else q.pc) ∧ q₁.truePid = q.truePid ∧
      q₁.cpu = q.cpu ∧ Moves a (j = t) q.state q₁.state ∧
      (a ≠ .reparent → q₁.children ⊆ q.children) := by
  by_cases hj : j = t
  · subst hj
    rw [setProc_procs_self] at hq₁
    cases hq₁
    obtain ⟨q, hq, hk⟩ := perform_kept hp hs₁ hp₁
    exact ⟨q, hq, by simp, hk.truePid, hk.cpu, hk.state, hk.children⟩
  · rw [setProc_procs_ne _ _ hj] at hq₁
    obtain ⟨q, hq, hk⟩ := perform_kept hp hs₁ hq₁
    exact ⟨q, hq, by simp [hj, hk.pc], hk.truePid, hk.cpu, hk.state, hk.children⟩

/-- A process is blocked by its own `prepare` alone. -/
theorem Moves.blocked {own : Prop} {st : ProcState} (h : Moves a own st .blocked) :
    st = .blocked ∨ (a = .prepare ∧ own) := by
  cases h with
  | same => exact .inl rfl
  | prepare _ ha ho => exact .inr ⟨ha, ho⟩

/-- A broken one stays broken, but for what it does itself. -/
theorem Moves.of_broken {own : Prop} {st : ProcState} (h : Moves a own .broken st) :
    st = .broken ∨ own ∧ (a = .prepare ∨ a = .clear) := by
  cases h with
  | same | broken => exact .inl rfl
  | prepare _ ha ho => exact .inr ⟨ho, .inl ha⟩
  | clear _ ha ho => exact .inr ⟨ho, .inr ha⟩

/-- A runnable one stays so, but for what it does itself. -/
theorem Moves.of_runnable {own : Prop} {st : ProcState} (h : Moves a own .runnable st) :
    st = .runnable ∨ own := by
  cases h with
  | same | clear => exact .inl rfl
  | prepare _ _ ho | broken _ _ ho => exact .inr ho

/-- After a `wake_all` nobody is blocked. -/
theorem WakeInv.wakeAll_state (h : WakeInv s) (hq : s.wakeAll.procs j = some q) :
    q.state ≠ .blocked := by
  rw [wakeAll_procs] at hq
  split at hq
  · obtain ⟨r, -, rfl⟩ := Option.map_eq_some_iff.mp hq
    exact r.woken_state_ne
  · rename_i hj
    exact fun hb => hj (h.linked j q hq hb)

@[simp] theorem wake_waitq (s : State) (i : Nat) : (s.wake i).waitq = s.waitq := by
  unfold State.wake
  split
  · rfl
  · split <;> rfl

/-- The waiters left in `waitpid_wq`. -/
theorem perform_waitq (hp : s.procs t = some p) (h : s.perform c t p a = some s₁) :
    a = .wakeAll ∨ (∀ j ∈ s.waitq, (j = t → a ≠ .clear) → j ∈ s₁.waitq) ∧
      (a = .prepare → t ∈ s₁.waitq) := by
  cases a with
  | wakeAll => exact .inl rfl
  | prepare => cases h; exact .inr ⟨fun j hj _ => by simp [hj], by simp⟩
  | clear =>
    cases h
    refine .inr ⟨fun j hj hne => ?_, by simp⟩
    exact (List.mem_erase_of_ne (fun hjt => hne hjt rfl)).mpr hj
  | lock =>
    simp only [State.perform] at h
    split at h
    · cases h; exact .inr ⟨fun _ hj _ => hj, by simp⟩
    · cases h
  | skip | unlock | setStatus | setBroken | yield | ret =>
    cases h; exact .inr ⟨fun _ hj _ => hj, by simp⟩
  | wake i => cases h; exact .inr ⟨fun j hj _ => by simpa using hj, by simp⟩
  | interrupt i =>
    simp only [State.perform] at h
    split at h
    · cases h; exact .inr ⟨fun j hj _ => by simpa using hj, by simp⟩
    · cases h
  | setExiting i =>
    simp only [State.perform] at h
    split at h
    · cases h; exact .inr ⟨fun _ hj _ => hj, by simp⟩
    · cases h
  | reparent =>
    refine .inr ⟨fun j hj _ => ?_, by simp⟩
    rw [(reparent_still hp h).2.2]
    exact hj
  | free i =>
    obtain ⟨-, -, -, -, -, hw, -⟩ := free_inv h
    refine .inr ⟨fun j hj _ => ?_, by simp⟩
    rw [hw]
    exact hj

/-- The scan of the current task's wait. -/
theorem scanOf_cpu (hph : (s.cpus c).phase = .run) (hc : (s.cpus c).current = some t)
    (hp : s.procs t = some p) (hi : s.scans p = some i) (hq : s.procs i = some q) :
    scanOf s (.cpu c) = some (p, i, q) := by
  simp [scanOf, hph, hc, hp, hi, hq]

/-- A `wake_all` that is on its way stays so until somebody calls it. -/
theorem Pending.taskStep {p₁ : Proc} (h : Pending s) (hp : s.procs t = some p)
    (hn : next s t p = some (a, pc)) (hs₁ : s.perform c t p a = some s₁)
    (hp₁ : s₁.procs t = some p₁) (ha : a ≠ .wakeAll) :
    Pending (s₁.setProc t (some { p₁ with pc := pc })) := by
  obtain ⟨u, r, hr, hc⟩ := h
  by_cases hu : u = t
  · subst hu
    rw [hp] at hr
    cases hr
    exact ⟨u, _, setProc_procs_self .., ((next_flow hn).committed hc).resolve_left ha⟩
  · rcases perform_exists ⟨r, hr⟩ hs₁ with ⟨r₁, hr₁⟩ | rfl
    · refine ⟨u, r₁, by rwa [setProc_procs_ne _ _ hu], ?_⟩
      obtain ⟨r', hr', hk⟩ := perform_kept hp hs₁ hr₁
      rw [hr] at hr'
      cases hr'
      rwa [hk.pc]
    · exact ⟨t, _, setProc_procs_self .., ((next_flow hn).free u rfl).2⟩

/-- Somebody who has just come to a position with a `wake_all` ahead. -/
theorem Pending.of_next {p₁ : Proc} (hc : pc.committed) :
    Pending (s₁.setProc t (some { p₁ with pc := pc })) :=
  ⟨t, _, setProc_procs_self .., hc⟩

section TaskStep
variable {p₁ : Proc} (hi : WakeInv s) (hp : s.procs t = some p)
  (hn : next s t p = some (a, pc)) (hs₁ : s.perform c t p a = some s₁)
  (hp₁ : s₁.procs t = some p₁)
  (hq₁ : (s₁.setProc t (some { p₁ with pc := pc })).procs j = some q₁)
include hi hp hn hs₁ hp₁ hq₁

/-- A task blocked after a step was blocked before or has prepared to block, and the
step was no `wake_all`. -/
theorem WakeInv.blocked_before (hb : q₁.state = .blocked) :
    a ≠ .wakeAll ∧ ((∃ q, s.procs j = some q ∧ q.state = .blocked) ∨ (a = .prepare ∧ j = t)) := by
  refine ⟨?_, ?_⟩
  · rintro rfl
    cases hs₁
    by_cases hj : j = t
    · subst hj
      rw [setProc_procs_self] at hq₁
      cases hq₁
      exact hi.wakeAll_state hp₁ hb
    · rw [setProc_procs_ne _ _ hj] at hq₁
      exact hi.wakeAll_state hq₁ hb
  · obtain ⟨q, hq, -, -, -, hm, -⟩ := taskStep_kept hp hs₁ hp₁ hq₁
    rw [hb] at hm
    exact hm.blocked.imp (fun h => ⟨q, hq, h⟩) id

/-- Who is blocked is in the queue. -/
theorem WakeInv.linked_after (hb : q₁.state = .blocked) : j ∈ s₁.waitq := by
  obtain ⟨ha, h⟩ := hi.blocked_before hp hn hs₁ hp₁ hq₁ hb
  obtain ⟨hw, hprep⟩ := (perform_waitq hp hs₁).resolve_left ha
  rcases h with ⟨q, hq, hqb⟩ | ⟨rfl, rfl⟩
  · refine hw j (hi.linked j q hq hqb) ?_
    -- `clear` leaves its own task runnable
    rintro rfl rfl
    cases hs₁
    rw [setProc_procs_self] at hq₁
    cases hq₁
    simp only [setProc_procs_self, Option.some.injEq] at hp₁
    subst hp₁
    cases hb
  · exact hprep rfl

/-- Who is past the mark is broken. -/
theorem WakeInv.broken_after (hb : q₁.pc.pastBroken) : q₁.state = .broken := by
  obtain ⟨q, hq, hpc, -, -, hm, -⟩ := taskStep_kept hp hs₁ hp₁ hq₁
  by_cases hj : j = t
  · subst hj
    rw [hp] at hq
    cases hq
    rw [hpc, if_pos rfl] at hb
    rcases (next_flow hn).pastBroken hb with rfl | ⟨hb, ha⟩
    · cases hs₁
      rw [setProc_procs_self] at hp₁ hq₁
      cases hp₁
      cases hq₁
      rfl
    · rw [hi.broken j p hp hb] at hm
      rcases hm.of_broken with h | ⟨-, h⟩
      · exact h
      · rcases ha with rfl | rfl <;> rcases h with h | h <;> cases h
  · rw [hpc, if_neg hj] at hb
    rw [hi.broken j q hq hb] at hm
    exact hm.of_broken.resolve_right (fun h => hj h.1)

/-- Who takes the lock again is not blocked. -/
theorem WakeInv.relocking_after (hr : q₁.pc.relocking) : q₁.state ≠ .blocked := by
  intro hb
  obtain ⟨ha, h⟩ := hi.blocked_before hp hn hs₁ hp₁ hq₁ hb
  obtain ⟨q, hq, hpc, -⟩ := taskStep_kept hp hs₁ hp₁ hq₁
  by_cases hj : j = t
  · rw [hpc, if_pos hj] at hr
    exact ha ((next_flow hn).relocking hr)
  · rcases h with ⟨q', hq', hqb⟩ | ⟨-, h⟩
    · rw [hq] at hq'
      cases hq'
      rw [hpc, if_neg hj] at hr
      exact hi.relocking j q hq hr hqb
    · exact hj h

/-- **A step keeps wake-ups.**  A blocked task that has missed `i`, when `i` is past
its last `wake_all`, had missed it before; the only new miss is a blind scan. -/
theorem WakeInv.missed_after {r₁ : Proc}
    (hr₁ : (s₁.setProc t (some { p₁ with pc := pc })).procs i = some r₁)
    (hok : p.state = .blocked → s.scans p = some i → ∀ r, s.procs i = some r →
      r.pc ≠ .setBroken false)
    (hb : q₁.state = .blocked) (hmiss : q₁.pc.missed q₁.children r₁.truePid i)
    (hpast : r₁.pc.pastWake) : Pending (s₁.setProc t (some { p₁ with pc := pc })) := by
  obtain ⟨ha, hb⟩ := hi.blocked_before hp hn hs₁ hp₁ hq₁ hb
  obtain ⟨q, hq, hpc, -, -, -, hchild⟩ := taskStep_kept hp hs₁ hp₁ hq₁
  obtain ⟨r, hr, hrpc, htrue, -⟩ := taskStep_kept hp hs₁ hp₁ hr₁
  have hflow := next_flow hn
  -- the exiting task was past its last `wake_all` before the step
  have hpast' : r.pc.pastWake := by
    by_cases hit : i = t
    · subst hit
      rw [hp] at hr
      cases hr
      rw [hrpc, if_pos rfl] at hpast
      exact (hflow.pastWake hpast).resolve_left ha
    · rwa [hrpc, if_neg hit] at hpast
  by_cases hre : a = .reparent
  · exact .of_next (hflow.reparent hre)
  have hmiss := Pc.missed_mono (hchild hre) hmiss
  rw [htrue] at hmiss
  rcases hb with ⟨q', hq', hqb⟩ | ⟨hprep, rfl⟩
  · rw [hq] at hq'
    cases hq'
    by_cases hj : j = t
    · subst hj
      rw [hp] at hq
      cases hq
      rw [hpc, if_pos rfl] at hmiss
      rcases next_missed hn hr hmiss with h | h | ⟨hscan, hnb⟩
      · exact (hi.missed j p i r hp hr hqb h hpast').taskStep hp hn hs₁ hp₁ ha
      · exact absurd hqb (hi.relocking j p hp h)
      · -- not broken and past its last `wake_all`: it is in the window
        have hbr : ¬ r.pc.pastBroken := fun h => hnb (hi.broken i r hr h)
        exact absurd ((Pc.pastWake_cases hpast').resolve_right hbr) (hok hqb hscan r hr)
    · rw [hpc, if_neg hj] at hmiss
      exact (hi.missed j q i r hq hr hqb hmiss hpast').taskStep hp hn hs₁ hp₁ ha
  · rw [hpc, if_pos rfl] at hmiss
    exact absurd hmiss (hflow.prepare hprep _ _ _)

end TaskStep

/-- **A step of a task keeps the invariant**, if no scan is blind. -/
theorem WakeInv.taskStep (hi : WakeInv s) (hph : (s.cpus c).phase = .run)
    (hc : (s.cpus c).current = some t) (hok : blindScan s (.cpu c) = false)
    (h : s.taskStep c t = some s') : WakeInv s' := by
  obtain ⟨p, a, pc, s₁, p₁, hp, hn, hs₁, hp₁, rfl⟩ := taskStep_inv h
  refine ⟨?_, ?_, ?_, ?_⟩
  · intro j q₁ hq₁ hb
    rw [setProc_waitq]
    exact hi.linked_after hp hn hs₁ hp₁ hq₁ hb
  · exact fun j q₁ hq₁ => hi.broken_after hp hn hs₁ hp₁ hq₁
  · exact fun j q₁ hq₁ => hi.relocking_after hp hn hs₁ hp₁ hq₁
  · intro j q₁ i r₁ hq₁ hr₁
    refine hi.missed_after hp hn hs₁ hp₁ hq₁ hr₁ ?_
    intro hb hscan r hr hpc
    simp [blindScan, scanOf_cpu hph hc hp hscan hr, hb, hpc] at hok

/-- A system call starts at a position no invariant says anything about. -/
theorem Syscall.entry_plain {call : Syscall} (h : call.entry = some pc) :
    pc.pastBroken = false ∧ pc.pastWake = false ∧ pc.relocking = false ∧ pc.reaping = none ∧
      ∀ l truePid i, ¬ pc.missed l truePid i := by
  cases call with
  | exit status | texit status => cases h; simp
  | waitpid childPid nohang =>
    simp only [Syscall.entry] at h
    split at h
    · cases h; simp
    · cases h

/-- It is about the processes and the queue. -/
theorem WakeInv.of_same (hi : WakeInv s) (hp : s'.procs = s.procs) (hw : s'.waitq = s.waitq) :
    WakeInv s' := by
  refine ⟨?_, ?_, ?_, ?_⟩
  · rw [hp, hw]; exact hi.linked
  · rw [hp]; exact hi.broken
  · rw [hp]; exact hi.relocking
  · unfold Pending; rw [hp]; exact hi.missed

/-- A call begins. -/
theorem WakeInv.syscall (hi : WakeInv s) {call : Syscall} (hp : s.procs t = some p)
    (hu : p.pc = .user) (hpc : call.entry = some pc) :
    WakeInv (s.setProc t (some { p with pc := pc })) := by
  obtain ⟨hbr, hpw, hre, -, hmi⟩ := Syscall.entry_plain hpc
  -- the other tasks are as before
  have hcases : ∀ {j q₁}, (s.setProc t (some { p with pc := pc })).procs j = some q₁ →
      (j = t ∧ q₁ = { p with pc := pc }) ∨ (j ≠ t ∧ s.procs j = some q₁) := by
    intro j q₁ hq
    by_cases hj : j = t
    · subst hj
      rw [setProc_procs_self] at hq
      exact .inl ⟨rfl, (Option.some.inj hq).symm⟩
    · rw [setProc_procs_ne _ _ hj] at hq
      exact .inr ⟨hj, hq⟩
  refine ⟨?_, ?_, ?_, ?_⟩
  · intro j q₁ hq hb
    rcases hcases hq with ⟨rfl, rfl⟩ | ⟨-, hq⟩
    · exact hi.linked j p hp hb
    · exact hi.linked j q₁ hq hb
  · intro j q₁ hq hb
    rcases hcases hq with ⟨rfl, rfl⟩ | ⟨-, hq⟩
    · exact absurd (hbr.symm.trans hb) Bool.false_ne_true
    · exact hi.broken j q₁ hq hb
  · intro j q₁ hq hr
    rcases hcases hq with ⟨rfl, rfl⟩ | ⟨-, hq⟩
    · exact absurd (hre.symm.trans hr) Bool.false_ne_true
    · exact hi.relocking j q₁ hq hr
  · intro j q₁ i r₁ hq hr hb hm hw
    rcases hcases hq with ⟨rfl, rfl⟩ | ⟨-, hq⟩
    · exact absurd hm (hmi _ _ _)
    rcases hcases hr with ⟨rfl, rfl⟩ | ⟨-, hr⟩
    · exact absurd (hpw.symm.trans hw) Bool.false_ne_true
    obtain ⟨u, x, hx, hcx⟩ := hi.missed j q₁ i r₁ hq hr hb hm hw
    have hu' : u ≠ t := by
      rintro rfl
      rw [hp] at hx
      cases hx
      simp [hu] at hcx
    exact ⟨u, x, by rwa [setProc_procs_ne _ _ hu'], hcx⟩

/-- **Every step keeps it**, if no scan is blind. -/
theorem WakeInv.step {l : Label} (hi : WakeInv s) (hok : blindScan s l = false)
    (h : step s l = some s') : WakeInv s' := by
  rcases step_cases h with ⟨c, t, rfl, hph, hc, h⟩ | ⟨c, h⟩ | ⟨t, p, call, pc, hp, hu, hpc, rfl⟩
  · exact hi.taskStep hph hc hok h
  · obtain ⟨cpu, rfl, -⟩ := sched_inv h
    exact hi.of_same rfl rfl
  · exact hi.syscall hp hu hpc

/-- It holds at the start. -/
theorem WakeInv.started (h : Started s) : WakeInv s := by
  refine ⟨?_, ?_, ?_, ?_⟩
  · intro t p hp hb
    simp [(h.user t p hp).2] at hb
  · intro t p hp hb
    simp [(h.user t p hp).1] at hb
  · intro t p hp hb
    simp [(h.user t p hp).1] at hb
  · intro t p i q hp _ hb
    simp [(h.user t p hp).2] at hb

/-- **Exit keeps the parent's wake-up in every run without a blind scan.**  As long
as no blocked task looks at a child between the last `wake_all` of the child's
`sys_exit` and its `state_ = broken`, no reachable state has a child that has
finished its exit and a parent blocked in `sys_waitpid` for it with no `wake_all` on
its way: on any number of CPUs, with any number of processes and threads. -/
theorem exit_keeps_wakeup (h : kernel.ReachWhen (fun s l => blindScan s l = false) s)
    (t i : Nat) : ¬ LostWakeup s t i := by
  have hi : WakeInv s := h.invariant WakeInv (fun _ => WakeInv.started)
    (fun _ _ _ hi hok hstep => hi.step hok hstep)
  rintro ⟨⟨q, hq, -, hdead⟩, ⟨p, w, q', hp, hq', hb, hpc, haw⟩, halone⟩
  rw [hq] at hq'
  cases hq'
  have hm : p.pc.missed p.children q.truePid i := by
    rcases hpc with hpc | hpc <;> rw [hpc] <;> exact haw
  obtain ⟨u, r, hr, hc⟩ := hi.missed t p i q hp hq hb hm (by rw [hdead]; rfl)
  rw [halone u r hr] at hc
  cases hc

/-- Process 1 on CPU 1 and its child, process 2, on CPU 0, both in user mode. -/
def family : State where
  procs := fun i =>
    if i = 1 then some { truePid := 1, ppid := 1, main := true, cpu := 1, state := .runnable,
                         children := [2], pc := .user }
    else if i = 2 then some { truePid := 2, ppid := 1, main := true, cpu := 0,
                              state := .runnable, pc := .user }
    else none
  cpus := fun c =>
    { current := if c = 0 then some 2 else if c = 1 then some 1 else none,
      runq := [], phase := .run }
  waitq := []
  ptableLock := none
  deleted := []

theorem family_started : Started family := by
  refine ⟨?_, ?_, ?_, ?_, ?_, rfl, rfl⟩
  · intro i p h
    simp only [family] at h
    split at h
    · cases h; exact ⟨rfl, rfl⟩
    split at h
    · cases h; exact ⟨rfl, rfl⟩
    · cases h
  · intro c i h
    simp only [family] at h
    split at h
    · rename_i hc
      cases h
      exact ⟨_, rfl, hc.symm⟩
    split at h
    · rename_i hc
      cases h
      exact ⟨_, rfl, hc.symm⟩
    · cases h
  · intro c i h
    cases h
  · exact fun c => List.not_mem_nil
  · exact fun c => List.nodup_nil

/-- The child exits up to its last `wake_all`; then the parent waits, scans and
blocks; then the child becomes broken and is switched away from. -/
def lostRun : List Label :=
  Label.syscall 0 (.exit 0) :: List.replicate 25 (Label.cpu 0) ++
  Label.syscall 1 (.waitpid 2 false) :: List.replicate 28 (Label.cpu 1) ++ List.replicate 5
  (Label.cpu 0)

/-- No step creates a task. -/
theorem step_none {l : Label} (h : step s l = some s') (hj : s.procs j = none) :
    s'.procs j = none := by
  rcases step_cases h with ⟨c, t, -, -, -, h⟩ | ⟨c, h⟩ | ⟨t, p, call, pc, hp, -, -, rfl⟩
  · obtain ⟨p, a, pc, s₁, p₁, hp, -, hs₁, hp₁, rfl⟩ := taskStep_inv h
    rw [Option.eq_none_iff_forall_ne_some]
    intro q₁ hq₁
    obtain ⟨q, hq, -⟩ := taskStep_kept hp hs₁ hp₁ hq₁
    rw [hj] at hq
    cases hq
  · obtain ⟨cpu, rfl, -⟩ := sched_inv h
    exact hj
  · have hjt : j ≠ t := by
      rintro rfl
      rw [hp] at hj
      cases hj
    rwa [setProc_procs_ne _ _ hjt]

/-- A slot that is empty stays so. -/
theorem run_none {ls : List Label} : ∀ {s s' : State}, kernel.run s ls = some s' →
    s.procs j = none → s'.procs j = none := by
  induction ls with
  | nil =>
    intro s s' h hj
    cases h
    exact hj
  | cons l ls ih =>
    intro s s' h hj
    obtain ⟨s₁, h₁, h⟩ := Option.bind_eq_some_iff.mp h
    exact ih h (step_none h₁ hj)

/-- In `lostRun` the parent's wake-up is lost: no other task exists. -/
theorem family_loses_wakeup : ∃ s, kernel.Reach s ∧ LostWakeup s 1 2 ∧
    ∀ u, u ≠ 1 → u ≠ 2 → s.procs u = none := by
  have hrun : (kernel.run family lostRun).isSome := by decide
  obtain ⟨s, hs⟩ := Option.isSome_iff_exists.mp hrun
  have h₁ : (kernel.run family lostRun).bind (fun s => s.procs 1) =
      some { truePid := 1, ppid := 1, main := true, cpu := 1, state := .blocked,
             children := [2], pc := .waitBlocked { childPid := 2, nohang := false } } := by
    decide
  have h₂ : (kernel.run family lostRun).bind (fun s => s.procs 2) =
      some { truePid := 2, ppid := 1, main := true, cpu := 0, state := .broken, pc := .dead } := by
    decide
  rw [hs, Option.bind_some] at h₁ h₂
  have hnone : ∀ u, u ≠ 1 → u ≠ 2 → s.procs u = none :=
    fun u hu₁ hu₂ => run_none hs (by simp [family, hu₁, hu₂])
  refine ⟨s, Machine.Reach.run (.init family_started) hs, ⟨?_, ?_, ?_⟩, hnone⟩
  · exact ⟨_, h₂, rfl, rfl⟩
  · exact ⟨_, _, _, h₁, h₂, rfl, .inr rfl, rfl, by decide⟩
  · intro u r hr
    by_cases hu₁ : u = 1
    · subst hu₁
      rw [h₁] at hr
      cases hr
      rfl
    by_cases hu₂ : u = 2
    · subst hu₂
      rw [h₂] at hr
      cases hr
      rfl
    · rw [hnone u hu₁ hu₂] at hr
      cases hr

/-- The parent blocks first; the child exits and wakes it; the parent reaps it and
returns. -/
def keptRun : List Label :=
  Label.syscall 1 (.waitpid 2 false) :: List.replicate 28 (Label.cpu 1) ++
  Label.syscall 0 (.exit 7) :: List.replicate 29 (Label.cpu 0) ++
  Label.timer 1 :: List.replicate 32 (Label.cpu 1)

theorem exit_keeps_wakeup_reaped : ∃ s p, kernel.ReachWhen (fun s l => blindScan s l = false) s ∧
    s.procs 1 = some p ∧ p.pc = .user ∧ p.rax = 2 ∧ p.rcx = 7 ∧ ¬ LostWakeup s 1 2 := by
  have hrun : (kernel.runWhen (fun s l => blindScan s l = false) family keptRun).isSome := by
    decide +kernel
  obtain ⟨s, hs⟩ := Option.isSome_iff_exists.mp hrun
  have h₁ : (kernel.runWhen (fun s l => blindScan s l = false) family keptRun).bind
      (fun s => s.procs 1) =
      some { truePid := 1, ppid := 1, main := true, cpu := 1, state := .runnable,
             interrupted := true, rax := 2, rcx := 7, pc := .user } := by
    decide +kernel
  rw [hs, Option.bind_some] at h₁
  have hreach := Machine.ReachWhen.runWhen (.init family_started) hs
  exact ⟨s, _, hreach, h₁, rfl, rfl, rfl, exit_keeps_wakeup hreach 1 2⟩

/-! ## Reaping a running task -/

/-- The step is a scan that finds a task broken while its CPU still runs it. -/
def earlyScan (s : State) (l : Label) : Bool :=
  match scanOf s l with
  | some (_, i, q) => q.state = .broken ∧ (s.cpus q.cpu).current = some i
  | none => false

/-- Where the tasks are: a current task is on its own CPU, and a queued one is
runnable, in its own CPU's queue and nowhere else. -/
structure SchedInv (s : State) : Prop where
  current : ∀ c i p, (s.cpus c).current = some i → s.procs i = some p → p.cpu = c
  runq : ∀ c i, some i ∈ (s.cpus c).runq →
    ∃ p, s.procs i = some p ∧ p.cpu = c ∧ p.state = .runnable
  disjoint : ∀ c, (s.cpus c).current ∉ (s.cpus c).runq
  nodup : ∀ c, (s.cpus c).runq.Nodup

/-- The task in slot `i` has been switched away from for good. -/
structure Gone (s : State) (i : Nat) : Prop where
  broken : ∀ q, s.procs i = some q → q.state = .broken
  notCurrent : ∀ c, (s.cpus c).current ≠ some i
  notQueued : ∀ c, some i ∉ (s.cpus c).runq

/-- The invariant behind `reap_only_switched_out`. -/
structure ReapInv (s : State) : Prop where
  sched : SchedInv s
  gone : ∀ t p i, s.procs t = some p → p.pc.reaping = some i → Gone s i

/-- What `wake` does to the CPUs. -/
theorem wake_cpus (s : State) (i c : Nat) :
    (s.wake i).cpus c = s.cpus c ∨ ∃ p, s.procs i = some p ∧ p.state = .blocked ∧ p.cpu = c ∧
      (s.wake i).cpus c = (s.cpus c).enqueue (some i) := by
  unfold State.wake
  split
  · exact .inl rfl
  · rename_i p hp
    split
    · rename_i hb
      by_cases hc : c = p.cpu
      · subst hc
        exact .inr ⟨p, hp, hb, rfl, setCpu_cpus_self ..⟩
      · exact .inl (setCpu_cpus_ne _ _ hc)
    · exact .inl rfl

theorem Cpu.enqueue_current (cpu : Cpu) (i : Option Nat) :
    (cpu.enqueue i).current = cpu.current := by
  unfold Cpu.enqueue
  split <;> rfl

/-- Who is enqueued goes to the run queue, unless current. -/
theorem Cpu.mem_enqueue {cpu : Cpu} {i k : Option Nat} (h : k ∈ (cpu.enqueue i).runq) :
    k ∈ cpu.runq ∨ (k = i ∧ cpu.current ≠ i) := by
  unfold Cpu.enqueue at h
  split at h
  · rename_i hc
    rcases List.mem_append.mp h with h | h
    · exact .inl h
    · exact .inr ⟨List.mem_singleton.mp h, hc.1⟩
  · exact .inl h

/-- Nobody is in a run queue twice. -/
theorem Cpu.nodup_enqueue {cpu : Cpu} {i : Option Nat} (h : cpu.runq.Nodup) :
    (cpu.enqueue i).runq.Nodup := by
  unfold Cpu.enqueue
  split
  · rename_i hc
    simp only [← List.concat_eq_append]
    exact h.concat hc.2
  · exact h

theorem wake_current (s : State) (i c : Nat) :
    ((s.wake i).cpus c).current = (s.cpus c).current := by
  rcases wake_cpus s i c with h | ⟨p, -, -, -, h⟩
  · rw [h]
  · rw [h, Cpu.enqueue_current]

/-- Who is woken goes to the run queue of its CPU. -/
theorem mem_wake_runq {k : Option Nat} (h : k ∈ ((s.wake i).cpus c).runq) :
    k ∈ (s.cpus c).runq ∨ (k = some i ∧ (s.cpus c).current ≠ some i ∧
      ∃ p, s.procs i = some p ∧ p.state = .blocked ∧ p.cpu = c) := by
  rcases wake_cpus s i c with hc | ⟨p, hp, hb, hcpu, hc⟩
  · exact .inl (hc ▸ h)
  · rw [hc] at h
    exact (Cpu.mem_enqueue h).imp_right fun ⟨hk, hne⟩ => ⟨hk, hne, p, hp, hb, hcpu⟩

/-- Waking keeps the scheduler's invariant. -/
theorem SchedInv.wake (h : SchedInv s) (i : Nat) : SchedInv (s.wake i) := by
  -- waking keeps a task's CPU and makes a blocked task runnable
  have hproc : ∀ j p, s.procs j = some p → (p.state = .runnable ∨ (j = i ∧ p.state = .blocked)) →
      ∃ p₁, (s.wake i).procs j = some p₁ ∧ p₁.cpu = p.cpu ∧ p₁.state = .runnable := by
    intro j p hp hst
    rw [wake_procs, hp]
    split
    · refine ⟨p.woken, rfl, ?_, ?_⟩ <;> unfold Proc.woken <;> split <;> simp_all
    · rename_i hj
      exact ⟨p, rfl, rfl, hst.resolve_right (fun h => hj h.1)⟩
  refine ⟨?_, ?_, ?_, ?_⟩
  · intro c j p hc hp
    rw [wake_current] at hc
    obtain ⟨q, hq, hk⟩ : ∃ q, s.procs j = some q ∧ Kept .skip False q p := Kept.of_wake hp
    exact hk.cpu.trans (h.current c j q hc hq)
  · intro c j hj
    rcases mem_wake_runq hj with hj | ⟨hj, -, p, hp, hb, hc⟩
    · obtain ⟨p, hp, hc, hr⟩ := h.runq c j hj
      obtain ⟨p₁, hp₁, hc₁, hr₁⟩ := hproc j p hp (.inl hr)
      exact ⟨p₁, hp₁, hc₁.trans hc, hr₁⟩
    · cases hj
      obtain ⟨p₁, hp₁, hc₁, hr₁⟩ := hproc i p hp (.inr ⟨rfl, hb⟩)
      exact ⟨p₁, hp₁, hc₁.trans hc, hr₁⟩
  · intro c hmem
    rw [wake_current] at hmem
    rcases mem_wake_runq hmem with hmem | ⟨hcur, hne, -⟩
    · exact h.disjoint c hmem
    · exact hne hcur
  · intro c
    rcases wake_cpus s i c with hc | ⟨p, -, -, -, hc⟩
    · rw [hc]
      exact h.nodup c
    · rw [hc]
      exact Cpu.nodup_enqueue (h.nodup c)

/-- It brings nobody back who is gone. -/
theorem Gone.wake (h : Gone s i) (j : Nat) : Gone (s.wake j) i := by
  refine ⟨?_, ?_, ?_⟩
  · intro q hq
    obtain ⟨r, hr, hk⟩ : ∃ r, s.procs i = some r ∧ Kept .skip False r q := Kept.of_wake hq
    have hm := hk.state
    rw [h.broken r hr] at hm
    exact hm.of_broken.resolve_right (fun h => h.1)
  · intro c
    rw [wake_current]
    exact h.notCurrent c
  · intro c hmem
    rcases mem_wake_runq hmem with hmem | ⟨hij, -, p, hp, hb, -⟩
    · exact h.notQueued c hmem
    · cases hij
      rw [h.broken p hp] at hb
      cases hb

/-- Waking several keeps it. -/
theorem SchedInv.wakes (l : List Nat) : ∀ {s : State}, SchedInv s →
    SchedInv (l.foldl State.wake s) := by
  induction l with
  | nil => exact fun h => h
  | cons i l ih => exact fun h => ih (h.wake i)

theorem Gone.wakes (l : List Nat) : ∀ {s : State}, Gone s i → Gone (l.foldl State.wake s) i := by
  induction l with
  | nil => exact fun h => h
  | cons j l ih => exact fun h => ih (h.wake j)

theorem SchedInv.of_eq (h : SchedInv s) (hp : s'.procs = s.procs) (hc : s'.cpus = s.cpus) :
    SchedInv s' := by
  obtain ⟨h₁, h₂, h₃, h₄⟩ := h
  constructor <;> simpa only [hp, hc]

theorem Gone.of_eq (h : Gone s i) (hp : s'.procs = s.procs) (hc : s'.cpus = s.cpus) :
    Gone s' i := by
  obtain ⟨h₁, h₂, h₃⟩ := h
  constructor <;> simpa only [hp, hc]

/-- The tasks stay where they are and the queued ones stay runnable. -/
theorem SchedInv.of_kept (h : SchedInv s)
    (hc : ∀ d, (s₁.cpus d).current = (s.cpus d).current ∧ (s₁.cpus d).runq = (s.cpus d).runq)
    (hback : ∀ j q₁, s₁.procs j = some q₁ → ∃ q, s.procs j = some q ∧ q₁.cpu = q.cpu)
    (hfwd : ∀ d j p, some j ∈ (s.cpus d).runq → s.procs j = some p → p.state = .runnable →
      ∃ q₁, s₁.procs j = some q₁ ∧ q₁.state = .runnable) : SchedInv s₁ := by
  refine ⟨?_, ?_, ?_, ?_⟩
  · intro d j q₁ hcur hq₁
    obtain ⟨q, hq, hcpu⟩ := hback j q₁ hq₁
    rw [(hc d).1] at hcur
    exact hcpu.trans (h.current d j q hcur hq)
  · intro d j hj
    rw [(hc d).2] at hj
    obtain ⟨p, hp, hd, hr⟩ := h.runq d j hj
    obtain ⟨q₁, hq₁, hr₁⟩ := hfwd d j p hj hp hr
    obtain ⟨q, hq, hcpu⟩ := hback j q₁ hq₁
    rw [hp] at hq
    cases hq
    exact ⟨q₁, hq₁, hcpu.trans hd, hr₁⟩
  · intro d
    rw [(hc d).1, (hc d).2]
    exact h.disjoint d
  · intro d
    rw [(hc d).2]
    exact h.nodup d

/-- So does setting what the scheduler does not read. -/
theorem SchedInv.setProc (h : SchedInv s) (hp : s.procs i = some p)
    (hk : q.cpu = p.cpu ∧ q.state = p.state) : SchedInv (s.setProc i (some q)) := by
  refine h.of_kept (fun _ => ⟨rfl, rfl⟩) ?_ ?_
  · intro j q₁ hq₁
    by_cases hj : j = i
    · subst hj
      rw [setProc_procs_self] at hq₁
      cases hq₁
      exact ⟨p, hp, hk.1⟩
    · rw [setProc_procs_ne _ _ hj] at hq₁
      exact ⟨q₁, hq₁, rfl⟩
  · intro d j r _ hr hrun
    by_cases hj : j = i
    · subst hj
      rw [hp] at hr
      cases hr
      exact ⟨q, setProc_procs_self .., hk.2.trans hrun⟩
    · exact ⟨r, by rwa [setProc_procs_ne _ _ hj], hrun⟩

/-- And that brings nobody back. -/
theorem Gone.setProc (h : Gone s i) (hp : s.procs j = some p) (hk : q.state = p.state) :
    Gone (s.setProc j (some q)) i := by
  refine ⟨?_, h.notCurrent, h.notQueued⟩
  intro q₁ hq₁
  by_cases hj : i = j
  · subst hj
    rw [setProc_procs_self] at hq₁
    cases hq₁
    exact hk.trans (h.broken p hp)
  · rw [setProc_procs_ne _ _ hj] at hq₁
    exact h.broken q₁ hq₁

/-- The operations that may put a task in a run queue. -/
def Act.wakes : Act → Bool
  | .wakeAll | .wake _ | .interrupt _ => true
  | _ => false

/-- Only waking changes the CPUs. -/
theorem perform_cpus (hp : s.procs t = some p) (h : s.perform c t p a = some s₁)
    (ha : a.wakes = false) (d : Nat) :
    (s₁.cpus d).current = (s.cpus d).current ∧ (s₁.cpus d).runq = (s.cpus d).runq := by
  cases a with
  | wakeAll | wake i | interrupt i => cases ha
  | skip | unlock | prepare | clear | setStatus | setBroken | ret => cases h; exact ⟨rfl, rfl⟩
  | lock =>
    simp only [State.perform] at h
    split at h
    · cases h; exact ⟨rfl, rfl⟩
    · cases h
  | setExiting i =>
    simp only [State.perform] at h
    split at h
    · cases h; exact ⟨rfl, rfl⟩
    · cases h
  | reparent => rw [(reparent_still hp h).2.1]; exact ⟨rfl, rfl⟩
  | free i =>
    obtain ⟨-, -, -, -, hc, -⟩ := free_inv h
    rw [hc]
    exact ⟨rfl, rfl⟩
  | yield =>
    cases h
    by_cases hd : d = c
    · subst hd
      rw [setCpu_cpus_self]
      exact ⟨rfl, rfl⟩
    · rw [setCpu_cpus_ne _ _ hd]
      exact ⟨rfl, rfl⟩

/-- The current task of a CPU is in no run queue. -/
theorem SchedInv.current_not_queued (h : SchedInv s) (hc : (s.cpus c).current = some t) (d : Nat) :
    some t ∉ (s.cpus d).runq := by
  intro hmem
  obtain ⟨p, hp, hd, -⟩ := h.runq d t hmem
  have hcd : c = d := (h.current c t p hc hp).symm.trans hd
  subst hcd
  exact h.disjoint c (hc ▸ hmem)

/-- **What a task does keeps the scheduler's invariant**, if it frees only who is gone. -/
theorem SchedInv.perform (hi : SchedInv s) (hc : (s.cpus c).current = some t)
    (hp : s.procs t = some p) (h : s.perform c t p a = some s₁)
    (hfree : ∀ i, a = .free i → Gone s i) : SchedInv s₁ := by
  by_cases ha : a.wakes
  · cases a with
    | wakeAll => cases h; exact (hi.wakes s.waitq).of_eq rfl rfl
    | wake i => cases h; exact hi.wake i
    | interrupt i =>
      simp only [State.perform] at h
      split at h
      · rename_i q hq
        cases h
        refine SchedInv.wake ?_ i
        exact hi.setProc hq ⟨rfl, rfl⟩
      · cases h
    | _ => cases ha
  · refine hi.of_kept (perform_cpus hp h (by simpa using ha)) ?_ ?_
    · intro j q₁ hq₁
      obtain ⟨q, hq, hk⟩ := perform_kept hp h hq₁
      exact ⟨q, hq, hk.cpu⟩
    · intro d j q hj hq hr
      have hjt : j ≠ t := by
        rintro rfl
        exact hi.current_not_queued hc d hj
      rcases perform_exists ⟨q, hq⟩ h with ⟨q₁, hq₁⟩ | hf
      · obtain ⟨q', hq', hk⟩ := perform_kept hp h hq₁
        rw [hq] at hq'
        cases hq'
        refine ⟨q₁, hq₁, ?_⟩
        have hm := hk.state
        rw [hr] at hm
        exact hm.of_runnable.resolve_right hjt
      · exact absurd hj ((hfree j hf).notQueued d)

/-- It brings nobody back. -/
theorem Gone.perform (hi : Gone s i) (hc : (s.cpus c).current = some t)
    (hp : s.procs t = some p) (h : s.perform c t p a = some s₁) : Gone s₁ i := by
  by_cases ha : a.wakes
  · cases a with
    | wakeAll => cases h; exact (hi.wakes s.waitq).of_eq rfl rfl
    | wake j => cases h; exact hi.wake j
    | interrupt j =>
      simp only [State.perform] at h
      split at h
      · rename_i q hq
        cases h
        refine Gone.wake ?_ j
        exact hi.setProc hq rfl
      · cases h
    | _ => cases ha
  · have hcpus := perform_cpus hp h (by simpa using ha)
    refine ⟨?_, fun d => ?_, fun d => ?_⟩
    · intro q₁ hq₁
      obtain ⟨q, hq, hk⟩ := perform_kept hp h hq₁
      have hm := hk.state
      rw [hi.broken q hq] at hm
      refine hm.of_broken.resolve_right fun hown => ?_
      exact hi.notCurrent c (hown.1 ▸ hc)
    · rw [(hcpus d).1]
      exact hi.notCurrent d
    · rw [(hcpus d).2]
      exact hi.notQueued d

/-- **A step of a task keeps the invariant**, if no scan is early. -/
theorem ReapInv.taskStep (hi : ReapInv s) (hph : (s.cpus c).phase = .run)
    (hc : (s.cpus c).current = some t) (hok : earlyScan s (.cpu c) = false)
    (h : s.taskStep c t = some s') : ReapInv s' := by
  obtain ⟨p, a, pc, s₁, p₁, hp, hn, hs₁, hp₁, rfl⟩ := taskStep_inv h
  have hflow := next_flow hn
  have hfree : ∀ i, a = .free i → Gone s i := fun i ha => hi.gone t p i hp (hflow.free i ha).1
  refine ⟨(hi.sched.perform hc hp hs₁ hfree).setProc hp₁ ⟨rfl, rfl⟩, ?_⟩
  intro j q₁ i hq₁ hr
  obtain ⟨q, hq, hpc, -⟩ := taskStep_kept hp hs₁ hp₁ hq₁
  have hgone : Gone s i := by
    by_cases hj : j = t
    · rw [hpc, if_pos hj] at hr
      rcases hflow.reaping i hr with hr | ⟨hscan, r, hr, hb⟩
      · exact hi.gone t p i hp hr
      · -- the scan found task `i` broken: its CPU no longer runs it
        simp only [earlyScan, scanOf_cpu hph hc hp hscan hr, hb, true_and,
          decide_eq_false_iff_not] at hok
        refine ⟨?_, ?_, ?_⟩
        · intro r' hr'
          rw [hr] at hr'
          cases hr'
          exact hb
        · intro d hd
          exact hok (hi.sched.current d i r hd hr ▸ hd)
        · intro d hd
          obtain ⟨r', hr', -, hrun⟩ := hi.sched.runq d i hd
          rw [hr] at hr'
          cases hr'
          rw [hb] at hrun
          cases hrun
    · rw [hpc, if_neg hj] at hr
      exact hi.gone j q i hq hr
  exact (hgone.perform hc hp hs₁).setProc hp₁ rfl

/-- The current task is put back if it is runnable. -/
theorem Cpu.mem_putBack {cpu : Cpu} {st : ProcState} {k : Option Nat} (h : k ∈ cpu.putBack st) :
    k ∈ cpu.runq ∨ (k = cpu.current ∧ st = .runnable) := by
  unfold Cpu.putBack at h
  split at h
  · rename_i hc
    exact (List.mem_append.mp h).imp_right fun h => ⟨List.mem_singleton.mp h, hc.1⟩
  · exact .inl h

/-- Nobody is put back twice. -/
theorem Cpu.nodup_putBack {cpu : Cpu} (st : ProcState) (h : cpu.runq.Nodup) :
    (cpu.putBack st).Nodup := by
  unfold Cpu.putBack
  split
  · rename_i hc
    rw [← List.concat_eq_append]
    exact h.concat hc.2
  · exact h

/-- The scheduler takes the next task from the queue. -/
theorem SchedInv.switch {cpu : Cpu} (hi : SchedInv s) (h : Switch s c cpu) :
    SchedInv (s.setCpu c cpu) := by
  -- the other CPUs are as before
  suffices hown : (∀ i p, cpu.current = some i → s.procs i = some p → p.cpu = c) ∧
      (∀ i, some i ∈ cpu.runq → ∃ p, s.procs i = some p ∧ p.cpu = c ∧ p.state = .runnable) ∧
      cpu.current ∉ cpu.runq ∧ cpu.runq.Nodup by
    obtain ⟨h₁, h₂, h₃, h₄⟩ := hown
    refine ⟨?_, ?_, ?_, ?_⟩ <;> intro d <;> by_cases hd : d = c
    · subst hd; rw [setCpu_cpus_self]; exact h₁
    · rw [setCpu_cpus_ne _ _ hd]; exact hi.current d
    · subst hd; rw [setCpu_cpus_self]; exact h₂
    · rw [setCpu_cpus_ne _ _ hd]; exact hi.runq d
    · subst hd; rw [setCpu_cpus_self]; exact h₃
    · rw [setCpu_cpus_ne _ _ hd]; exact hi.disjoint d
    · subst hd; rw [setCpu_cpus_self]; exact h₄
    · rw [setCpu_cpus_ne _ _ hd]; exact hi.nodup d
  cases h with
  | stay hcur hrunq =>
    rw [hcur, hrunq]
    exact ⟨hi.current c, hi.runq c, hi.disjoint c, hi.nodup c⟩
  | idle hcur hrunq => simp [hcur, hrunq]
  | take st hst h =>
    have hmem : ∀ i, some i ∈ cpu.current :: cpu.runq →
        ∃ p, s.procs i = some p ∧ p.cpu = c ∧ p.state = .runnable := by
      intro i hmem
      rcases Cpu.mem_putBack (h ▸ hmem) with hmem | ⟨hcur, rfl⟩
      · exact hi.runq c i hmem
      · rw [← hcur] at hst
        obtain ⟨p, hp, hr⟩ := Option.map_eq_some_iff.mp hst
        exact ⟨p, hp, hi.current c i p hcur.symm hp, hr⟩
    have hnodup := Cpu.nodup_putBack st (hi.nodup c)
    rw [h, List.nodup_cons] at hnodup
    refine ⟨?_, fun i hi => hmem i (List.mem_cons_of_mem _ hi), hnodup.1, hnodup.2⟩
    intro i p hcur hp
    obtain ⟨q, hq, hc, -⟩ := hmem i (hcur ▸ List.mem_cons_self)
    rw [hp] at hq
    cases hq
    exact hc

/-- A switch brings nobody back. -/
theorem Gone.switch {cpu : Cpu} (hi : Gone s i) (h : Switch s c cpu) :
    Gone (s.setCpu c cpu) i := by
  suffices hown : cpu.current ≠ some i ∧ some i ∉ cpu.runq by
    refine ⟨hi.broken, ?_, ?_⟩ <;> intro d <;> by_cases hd : d = c
    · subst hd; rw [setCpu_cpus_self]; exact hown.1
    · rw [setCpu_cpus_ne _ _ hd]; exact hi.notCurrent d
    · subst hd; rw [setCpu_cpus_self]; exact hown.2
    · rw [setCpu_cpus_ne _ _ hd]; exact hi.notQueued d
  cases h with
  | stay hcur hrunq =>
    rw [hcur, hrunq]
    exact ⟨hi.notCurrent c, hi.notQueued c⟩
  | idle hcur hrunq => simp [hcur, hrunq]
  | take st hst h =>
    have hmem : some i ∉ cpu.current :: cpu.runq := by
      rw [← h]
      intro hmem
      rcases Cpu.mem_putBack hmem with hmem | ⟨hcur, -⟩
      · exact hi.notQueued c hmem
      · exact hi.notCurrent c hcur.symm
    exact ⟨fun h => hmem (h ▸ List.mem_cons_self), fun h => hmem (List.mem_cons_of_mem _ h)⟩

/-- **Every step keeps it**, if no scan is early. -/
theorem ReapInv.step {l : Label} (hi : ReapInv s) (hok : earlyScan s l = false)
    (h : step s l = some s') : ReapInv s' := by
  rcases step_cases h with ⟨c, t, rfl, hph, hc, h⟩ | ⟨c, h⟩ | ⟨t, p, call, pc, hp, hu, hpc, rfl⟩
  · exact hi.taskStep hph hc hok h
  · obtain ⟨cpu, rfl, hsw⟩ := sched_inv h
    exact ⟨hi.sched.switch hsw, fun t p i hp hr => (hi.gone t p i hp hr).switch hsw⟩
  · refine ⟨hi.sched.setProc hp ⟨rfl, rfl⟩, ?_⟩
    intro j q i hq hr
    by_cases hj : j = t
    · subst hj
      rw [setProc_procs_self] at hq
      cases hq
      rw [(Syscall.entry_plain hpc).2.2.2.1] at hr
      cases hr
    · rw [setProc_procs_ne _ _ hj] at hq
      exact (hi.gone j q i hq hr).setProc hp rfl

/-- It holds at the start. -/
theorem ReapInv.started (h : Started s) : ReapInv s := by
  refine ⟨⟨?_, ?_, h.disjoint, h.nodup⟩, ?_⟩
  · intro c i p hc hp
    obtain ⟨q, hq, hcpu⟩ := h.current c i hc
    rw [hp] at hq
    cases hq
    exact hcpu
  · intro c i hi
    obtain ⟨p, hp, hcpu⟩ := h.runq c i hi
    exact ⟨p, hp, hcpu, (h.user i p hp).2⟩
  · intro t p i hp hr
    simp [(h.user t p hp).1] at hr

/-- **`process_reap` frees no running task in any run without an early scan.**  As
long as no scan of `sys_waitpid` finds a task broken while its CPU still runs it, a
step that frees a `proc` finds it current on no CPU: on any number of CPUs, with
any number of processes and threads. -/
theorem reap_only_switched_out {l : Label}
    (h : kernel.ReachWhen (fun s l => earlyScan s l = false) s) (hstep : step s l = some s')
    (hbefore : s.procs i = some p) (hafter : s'.procs i = none) (c : Nat) :
    (s.cpus c).current ≠ some i := by
  have hi : ReapInv s := h.invariant ReapInv (fun _ => ReapInv.started)
    (fun _ _ _ hi hok hstep => hi.step hok hstep)
  rcases step_cases hstep with ⟨d, t, -, -, -, h⟩ | ⟨d, h⟩ | ⟨t, q, call, pc, hq, -, -, rfl⟩
  · obtain ⟨q, a, pc, s₁, q₁, hq, hn, hs₁, -, rfl⟩ := taskStep_inv h
    have hit : i ≠ t := by
      rintro rfl
      simp at hafter
    rw [setProc_procs_ne _ _ hit] at hafter
    rcases perform_exists ⟨p, hbefore⟩ hs₁ with ⟨p₁, hp₁⟩ | hfree
    · rw [hafter] at hp₁
      cases hp₁
    · exact (hi.gone t q i hq ((next_flow hn).free i hfree).1).notCurrent c
  · obtain ⟨cpu, rfl, -⟩ := sched_inv h
    rw [setCpu_procs, hbefore] at hafter
    cases hafter
  · obtain ⟨r, hr⟩ : ∃ r, (s.setProc t (some { q with pc := pc })).procs i = some r :=
      setProc_exists ⟨p, hbefore⟩
    rw [hafter] at hr
    cases hr

/-- In `keptRun` the parent frees the child after its CPU has switched away. -/
theorem reap_only_switched_out_family : ∃ s s' p,
    kernel.ReachWhen (fun s l => earlyScan s l = false) s ∧ step s (.cpu 1) = some s' ∧
    s.procs 2 = some p ∧ s'.procs 2 = none ∧ ∀ c, (s.cpus c).current ≠ some 2 := by
  have hrun : (kernel.runWhen (fun s l => earlyScan s l = false) family
      (keptRun.take 71)).isSome := by
    decide
  obtain ⟨s, hs⟩ := Option.isSome_iff_exists.mp hrun
  have hnext : ((kernel.runWhen (fun s l => earlyScan s l = false) family
      (keptRun.take 71)).bind (fun s => step s (.cpu 1))).isSome := by
    decide
  have h₁ : (kernel.runWhen (fun s l => earlyScan s l = false) family (keptRun.take 71)).bind
      (fun s => s.procs 2) =
      some { truePid := 2, ppid := 1, main := true, cpu := 0, state := .broken,
             exitStatus := 7, pc := .dead } := by
    decide
  have h₂ : ((kernel.runWhen (fun s l => earlyScan s l = false) family
      (keptRun.take 71)).bind (fun s => step s (.cpu 1))).bind (fun s => s.procs 2) = none := by
    decide
  rw [hs, Option.bind_some] at hnext h₁ h₂
  obtain ⟨s', hs'⟩ := Option.isSome_iff_exists.mp hnext
  rw [hs', Option.bind_some] at h₂
  have hreach := Machine.ReachWhen.runWhen (.init family_started) hs
  exact ⟨s, s', _, hreach, hs', h₁, h₂, reap_only_switched_out hreach hs' h₁ h₂⟩

/-- The child exits up to `state_ = broken`; then the parent waits and scans. -/
def earlyRun : List Label :=
  Label.syscall 0 (.exit 0) :: List.replicate 26 (Label.cpu 0) ++
  Label.syscall 1 (.waitpid 2 false) :: List.replicate 10 (Label.cpu 1)

/-- At the end of `earlyRun` the parent's next step frees the child, which is still
the current task of CPU 0. -/
theorem family_reaps_running : ∃ s s' p, kernel.Reach s ∧ step s (.cpu 1) = some s' ∧
    s.procs 2 = some p ∧ s'.procs 2 = none ∧ (s.cpus 0).current = some 2 := by
  have hrun : (kernel.run family earlyRun).isSome := by decide
  obtain ⟨s, hs⟩ := Option.isSome_iff_exists.mp hrun
  have hnext : ((kernel.run family earlyRun).bind (fun s => step s (.cpu 1))).isSome := by
    decide
  have h₁ : (kernel.run family earlyRun).bind (fun s => s.procs 2) =
      some { truePid := 2, ppid := 1, main := true, cpu := 0, state := .broken,
             pc := .yieldNoreturn } := by
    decide
  have h₂ : ((kernel.run family earlyRun).bind (fun s => step s (.cpu 1))).bind
      (fun s => s.procs 2) = none := by
    decide
  have h₃ : (kernel.run family earlyRun).bind (fun s => (s.cpus 0).current) = some 2 := by
    decide
  rw [hs, Option.bind_some] at hnext h₁ h₂ h₃
  obtain ⟨s', hs'⟩ := Option.isSome_iff_exists.mp hnext
  rw [hs', Option.bind_some] at h₂
  exact ⟨s, s', _, .run (.init family_started) hs, hs', h₁, h₂, h₃⟩

end PugOS.ExitWait
