import PugOS.Sched
import Mathlib.Algebra.Group.Nat.Defs

/-! # Blocking and waking

Tasks wait in `waiter::block_until(wq, predicate, lock, irqs)` on one wait queue, or in
`sys_msleep` on a spoke of the timing wheel.  Other tasks and interrupt handlers change what
the predicates read while they hold `lock`, and call `wq.wake_all()` at some time after
that, with or without `lock`; the timer counts `ticks` and wakes a spoke.  The tasks run on
the scheduler of `Sched`: a task takes a step when it is current and its CPU runs it, and
kernel code is preempted nowhere but in the window `proc::yield` opens for interrupts.

A waiter that found its predicate false is linked, or popped by one who has not woken it
yet, as long as it is blocked; and as soon as its predicate holds somebody owes a wake-up.
So no wake-up is lost (`no_lost_wakeup`).
-/
namespace PugOS.WaitQueue
open Transition
open ExitWait (ProcState)
open Sched (Task Phase)

/-- The number of queues of the timing wheel. -/
def wheelSpokes : Nat := 8

/-- The wait queue `wq`, and the spokes of `sleep_wheel`. -/
inductive Queue
  | wq
  | spoke (k : Nat)
  deriving DecidableEq, Repr

/-- What a task waits for: a predicate on the data that `lock` protects, or a tick. -/
inductive Call (D : Type)
  | blockUntil (predicate : D → Bool)
  | msleep (till : Nat)

/-- The queue a call waits in. -/
def Call.queue {D : Type} : Call D → Queue
  | .blockUntil _ => .wq
  | .msleep till => .spoke (till % wheelSpokes)

/-- What follows `waiter::clear`: the loop goes on, or the call is done, or the task ends
because it is `exiting_`. -/
inductive After
  | again | done | exit
  deriving DecidableEq, Repr

/-- Where a task is. -/
inductive Pc (D : Type)
  | out
  -- waiter::prepare
  | prepareLock (w : Call D)
  | prepare (w : Call D)
  | link (w : Call D)
  | prepareUnlock (w : Call D)
  -- block_until, sys_msleep
  | exiting (w : Call D)
  | exitUnlock (w : Call D)
  | test (w : Call D)
  | unlock (w : Call D)
  | yield (w : Call D)
  | yielded (w : Call D)
  -- waiter::clear
  | clearLock (w : Call D) (k : After)
  | clear (w : Call D) (k : After)
  | unlink (w : Call D) (k : After)
  | clearUnlock (w : Call D) (k : After)
  | relock (w : Call D)
  | broken

/-- What `wake_all` returns to. -/
inductive Caller
  | kernel | locked | timer
  deriving DecidableEq, Repr

/-- What the kernel does on a CPU: the current task goes on, or the kernel does something else in
it or in an interrupt. -/
inductive Job
  | task
  | lock
  | held
  -- wait_queue::wake_all
  | wakeLock (on : Queue) (k : Caller)
  | wakePop (on : Queue) (k : Caller)
  | wakeUnlock (on : Queue) (k : Caller)
  /-- The timer has incremented `ticks`. -/
  | tick
  deriving DecidableEq, Repr

/-- The locks hold the CPU that has taken them.  `owes` holds the tasks that have changed
`data` and are not past the loop of the `wake_all` that follows. -/
structure State (D : Type) where
  sched : Sched.State
  pc : Nat → Pc D
  job : Nat → Job
  queue : Queue → List Nat
  qlock : Queue → Option Nat
  lock : Option Nat
  data : D
  owes : List Task
  exiting : Nat → Bool
  interrupted : Nat → Bool
  ticks : Nat

variable {D : Type}

/-- A task goes on at `pc`. -/
def State.setPc (s : State D) (i : Nat) (pc : Pc D) : State D :=
  { s with pc := Function.update s.pc i pc }

/-- A CPU goes on with `job`. -/
def State.setJob (s : State D) (c : Nat) (job : Job) : State D :=
  { s with job := Function.update s.job c job }

/-- The lock of a queue is taken or given back. -/
def State.setQlock (s : State D) (on : Queue) (holder : Option Nat) : State D :=
  { s with qlock := Function.update s.qlock on holder }

/-- A queue is set. -/
def State.setQueue (s : State D) (on : Queue) (q : List Nat) : State D :=
  { s with queue := Function.update s.queue on q }

/-- The scheduler is set. -/
def State.setSched (s : State D) (sched : Sched.State) : State D := { s with sched := sched }

/-- `(long) (end - ticks)`. -/
def timeLeft (till ticks : Nat) : Int := (BitVec.ofNat 64 till - BitVec.ofNat 64 ticks).toInt

/-- `ticks + (ms + 9) / 10`, in 64 bits. -/
def sleepEnd (ticks ms : Nat) : Nat := (ticks + (ms + 9) % 2 ^ 64 / 10) % 2 ^ 64

/-- The test that ends the loop. -/
def State.met (s : State D) (i : Nat) : Call D → Bool
  | .blockUntil predicate => predicate s.data
  | .msleep till => decide (timeLeft till s.ticks ≤ 0) || s.interrupted i

/-- The call returns: `block_until` with `lock` locked. -/
def State.finish (s : State D) (c i : Nat) : Call D → State D
  | .blockUntil _ => (s.setPc i .out).setJob c .held
  | .msleep _ => s.setPc i .out

/-- The next step of the current task `i` of CPU `c`. -/
def State.taskStep (s : State D) (c i : Nat) : Pc D → Option (State D)
  | .out => none
  | .prepareLock w =>
    if s.qlock w.queue = none then some ((s.setQlock w.queue (some c)).setPc i (.prepare w))
      else none
  | .prepare w => (s.sched.become c .blocked).map fun sched => (s.setSched sched).setPc i (.link w)
  | .link w => some ((s.setQueue w.queue (s.queue w.queue ++ [i])).setPc i (.prepareUnlock w))
  | .prepareUnlock w =>
    some ((s.setQlock w.queue none).setPc i
      (match w with
      | .blockUntil _ => .exiting w
      | .msleep _ => .test w))
  | .exiting w => some (s.setPc i (if s.exiting i then .exitUnlock w else .test w))
  | .exitUnlock w => some ({ s with lock := none }.setPc i (.clearLock w .exit))
  | .test w =>
    some (s.setPc i
      (if s.met i w then .clearLock w .done
      else match w with
        | .blockUntil _ => .unlock w
        | .msleep _ => .yield w))
  | .unlock w => some ({ s with lock := none }.setPc i (.yield w))
  | .yield w => some ((s.setSched (s.sched.yield c)).setPc i (.yielded w))
  | .yielded w => some (s.setPc i (.clearLock w .again))
  | .clearLock w k =>
    if s.qlock w.queue = none then some ((s.setQlock w.queue (some c)).setPc i (.clear w k))
      else none
  | .clear w k =>
    (s.sched.become c .runnable).map fun sched => (s.setSched sched).setPc i (.unlink w k)
  | .unlink w k =>
    some ((s.setQueue w.queue ((s.queue w.queue).erase i)).setPc i (.clearUnlock w k))
  | .clearUnlock w .again =>
    some ((s.setQlock w.queue none).setPc i
      (match w with
      | .blockUntil _ => .relock w
      | .msleep _ => .prepareLock w))
  | .clearUnlock w .done => some ((s.setQlock w.queue none).finish c i w)
  | .clearUnlock w .exit => some ((s.setQlock w.queue none).setPc i .broken)
  | .relock w =>
    if s.lock = none then some ({ s with lock := some c }.setPc i (.prepareLock w)) else none
  | .broken => (s.sched.become c .broken).map fun sched => (s.setSched sched).setPc i .out

/-- `wake_all` has seen the empty queue. -/
def State.paid (s : State D) (c : Nat) (on : Queue) : State D :=
  { s with owes :=
      match on, s.sched.current c with
      | .wq, some t => s.owes.filter (· ≠ t)
      | _, _ => s.owes }

/-- The next step of what else CPU `c` does. -/
def State.jobStep (s : State D) (c : Nat) : Job → Option (State D)
  | .task | .held => none
  | .lock => if s.lock = none then some ({ s with lock := some c }.setJob c .held) else none
  | .wakeLock on k =>
    if s.qlock on = none then some ((s.setQlock on (some c)).setJob c (.wakePop on k)) else none
  | .wakePop on k =>
    match s.queue on with
    | i :: rest => (s.sched.wake c i).map fun sched => (s.setSched sched).setQueue on rest
    | [] => some ((s.paid c on).setJob c (.wakeUnlock on k))
  | .wakeUnlock on .kernel => some ((s.setQlock on none).setJob c .task)
  | .wakeUnlock on .locked => some ((s.setQlock on none).setJob c .held)
  | .wakeUnlock on .timer =>
    some (((s.setQlock on none).setJob c .task).setSched (s.sched.yield c))
  | .tick =>
    -- the queue is looked at without its lock
    if s.queue (.spoke (s.ticks % wheelSpokes)) = [] then
      some ((s.setJob c .task).setSched (s.sched.yield c))
    else some (s.setJob c (.wakeLock (.spoke (s.ticks % wheelSpokes)) .timer))

/-- What happens next.  `lock`, `unlock`, `change` and `wakeAll` are those of one who changes
the data; `sched` is anything else, with wake-ups from elsewhere. -/
inductive Label (D : Type)
  | run (c : Nat)
  | sched (a : Sched.Label)
  | lock (c : Nat)
  | change (c : Nat) (f : D → D)
  | unlock (c : Nat)
  | wakeAll (c : Nat)
  | blockUntil (c : Nat) (predicate : D → Bool)
  | msleep (c : Nat) (ms : Nat)
  | timer
  | setExiting (i : Nat)
  | interrupt (i : Nat)

/-- The current task is outside the calls. -/
def State.outside (s : State D) (c : Nat) : Bool :=
  match s.job c, s.sched.current c with
  | .task, some (.proc i) => match s.pc i with | .out => true | _ => false
  | .task, _ => true
  | _, _ => false

/-- An interrupt may arrive: the current task is outside the calls, or about to yield. -/
def State.interruptible (s : State D) (c : Nat) : Bool :=
  match s.job c, s.sched.current c with
  | .task, some (.proc i) => match s.pc i with | .out | .yield _ => true | _ => false
  | .task, _ => true
  | _, _ => false

/-- What the scheduler may do. -/
def State.allows (s : State D) : Sched.Label → Bool
  | .step _ => true
  | .yield c => s.interruptible c
  | .wake c _ => s.interruptible c || s.job c = .held
  | .create c _ _ | .become c _ => s.outside c

/-- What a CPU that runs may begin. -/
def State.start (s : State D) : Label D → Option (State D)
  | .lock c => if s.interruptible c then some (s.setJob c .lock) else none
  | .change c f =>
    match s.job c, s.sched.current c with
    | .held, some t => some { s with data := f s.data, owes := t :: s.owes }
    | _, _ => none
  | .unlock c => if s.job c = .held then some ({ s with lock := none }.setJob c .task) else none
  | .wakeAll c =>
    if s.job c = .held then some (s.setJob c (.wakeLock .wq .locked))
    else if s.interruptible c then some (s.setJob c (.wakeLock .wq .kernel))
    else none
  | .blockUntil c predicate =>
    match s.job c, s.sched.current c with
    | .held, some (.proc i) =>
      match s.pc i with
      | .out => some ((s.setPc i (.prepareLock (.blockUntil predicate))).setJob c .task)
      | _ => none
    | _, _ => none
  | .msleep c ms =>
    match s.sched.current c with
    | some (.proc i) =>
      if s.outside c ∧ ms < 2 ^ 64 then
        some ({ s with interrupted := Function.update s.interrupted i false }.setPc i
          (.prepareLock (.msleep (sleepEnd s.ticks ms))))
      else none
    | _ => none
  | .timer =>
    if s.interruptible 0 then some ({ s with ticks := s.ticks + 1 }.setJob 0 .tick) else none
  | _ => none

/-- The CPU of a label of `start`. -/
def Label.cpu : Label D → Nat
  | .run c | .lock c | .change c _ | .unlock c | .wakeAll c | .blockUntil c _ | .msleep c _ => c
  | .sched a => a.cpu
  | .timer | .setExiting _ | .interrupt _ => 0

/-- The next step of a CPU that runs. -/
def State.runStep (s : State D) (c : Nat) : Option (State D) :=
  match s.job c with
  | .task =>
    match s.sched.current c with
    | some (.proc i) => s.taskStep c i (s.pc i)
    | _ => none
  | job => s.jobStep c job

/-- One step of one CPU, or of the world. -/
def step (ncpu : Nat) (s : State D) (a : Label D) : Option (State D) :=
  match a with
  | .setExiting i => some { s with exiting := Function.update s.exiting i true }
  | .interrupt i => some { s with interrupted := Function.update s.interrupted i true }
  | .sched a => if s.allows a then (Sched.step ncpu s.sched a).map s.setSched else none
  | .run c => if c < ncpu ∧ s.sched.phase c = .run then s.runStep c else none
  | a => if a.cpu < ncpu ∧ s.sched.phase a.cpu = .run then s.start a else none

/-- Nothing has happened yet. -/
structure Start (s : State D) : Prop where
  sched : s.sched = Sched.boot
  pc : ∀ i, s.pc i = .out
  job : ∀ c, s.job c = .task
  queue : ∀ on, s.queue on = []
  qlock : ∀ on, s.qlock on = none
  lock : s.lock = none
  owes : s.owes = []

/-- Any number of tasks and CPUs, over any data. -/
def machine (D : Type) (ncpu : Nat) : Machine (State D) (Label D) where
  init := Start
  step := step ncpu

/-! ## What the scheduler does to a waiter -/

/-- The process that the CPU is about to wake. -/
def wakes : Phase → Option Nat
  | .wakeLock i | .wakeTest i | .wakeSet i => some i
  | _ => none

/-- Up to the write of its state a process is woken in one of three phases. -/
theorem wakes_cases {ph : Phase} {i : Nat} (h : wakes ph = some i) :
    ph = .wakeLock i ∨ ph = .wakeTest i ∨ ph = .wakeSet i := by
  cases ph <;> cases h <;> simp

/-- A step of CPU `c` in the scheduler that is not a task changing its own state. -/
structure Schedules (ncpu c : Nat) (s s' : Sched.State) : Prop where
  kept : Sched.Kept ncpu c s s'
  blocked : ∀ i q', s'.procs i = some q' → q'.state = .blocked →
    ∃ q, s.procs i = some q ∧ q.state = .blocked
  wakes : ∀ i, wakes (s.phase c) = some i → wakes (s'.phase c) = some i ∨
    ∀ q', s'.procs i = some q' → q'.state ≠ .blocked

section Scheduler
variable {ncpu c i : Nat} {s s' : Sched.State} {q : Sched.Proc} {ph : Phase}

theorem setProc_blocked {q' : Sched.Proc}
    (hst : q'.state = .blocked → ∃ q, s.procs i = some q ∧ q.state = .blocked)
    (j : Nat) (r : Sched.Proc) (hr : (s.setProc i q').procs j = some r) (hb : r.state = .blocked) :
    ∃ q, s.procs j = some q ∧ q.state = .blocked := by
  by_cases hj : j = i
  · subst hj
    rw [Sched.State.setProc_procs] at hr
    cases hr
    exact hst hb
  · rw [Sched.State.setProc_ne _ _ _ hj] at hr
    exact ⟨r, hr, hb⟩

theorem enqueue_procs (s : Sched.State) (ncpu c : Nat) (p : Task) :
    (s.enqueue ncpu c p).procs = s.procs := by
  unfold Sched.State.enqueue
  split
  · rfl
  · rfl

theorem acquire_goto {d : Nat} (h : (s.acquire c d).map (fun s => s.goto c ph) = some s') :
    s' = (s.setLock d (some c)).goto c ph := by
  unfold Sched.State.acquire at h
  split at h
  · exact (Option.some.inj h).symm
  · cases h

/-- The steps of `schedule` leave the processes as they are. -/
theorem scheduleStep_procs (h : s.scheduleStep ncpu c ph = some s') : s'.procs = s.procs := by
  cases ph
  case entry yieldingFrom =>
    simp only [Sched.State.scheduleStep] at h
    split at h
    · cases h
      rfl
    · cases h
      rfl
  case tryCurrent yieldingFrom =>
    simp only [Sched.State.scheduleStep] at h
    split at h
    · split at h
      · cases h
        rfl
      · cases h
        rfl
    · cases h
      rfl
  case lock yieldingFrom =>
    have h : (s.acquire c c).map (fun s => s.goto c (.detach yieldingFrom)) = some s' := h
    rw [acquire_goto h]
    rfl
  case detach yieldingFrom =>
    simp only [Sched.State.scheduleStep] at h
    split at h
    · cases h
      rfl
    · cases h
      rfl
  case requeue p =>
    cases h
    rw [Sched.State.goto_procs]
    split
    · rw [enqueue_procs]
    · rfl
  case pop yieldingFrom =>
    simp only [Sched.State.scheduleStep] at h
    split at h
    · cases h
      rfl
    · cases h
      rfl
  case unlock yieldingFrom =>
    cases h
    rfl
  case runIdle yieldingFrom =>
    cases h
    rw [Sched.State.goto_procs]
    split
    · rfl
    · rfl
  all_goals cases h

theorem wakeStep_schedules (hph : s.phase c = ph) (htarget : ph.target = some i)
    (hq : s.procs i = some q) (h : s.wakeStep ncpu c q ph = some s') (hk : Sched.Kept ncpu c s s') :
    Schedules ncpu c s s' := by
  cases ph
  case wakeLock j =>
    cases htarget
    have h : (s.acquire c q.cpu).map (fun s => s.goto c (.wakeTest i)) = some s' := h
    have he := acquire_goto h
    refine ⟨hk, fun j r hr hb => ⟨r, by rwa [he] at hr, hb⟩, fun j hj => .inl ?_⟩
    rw [hph] at hj
    cases hj
    rw [he, Sched.State.goto_phase]
    rfl
  case wakeTest j =>
    cases htarget
    cases h
    refine ⟨hk, fun j r hr hb => ⟨r, hr, hb⟩, fun j hj => ?_⟩
    rw [hph] at hj
    cases hj
    by_cases hb : q.state = .blocked
    · rw [Sched.State.goto_phase, if_pos hb]
      exact .inl rfl
    · refine .inr fun r hr => ?_
      rw [Sched.State.goto_procs, hq] at hr
      cases hr
      exact hb
  case wakeSet j =>
    cases htarget
    cases h
    refine ⟨hk, setProc_blocked nofun, fun j hj => .inr fun r hr => ?_⟩
    rw [hph] at hj
    cases hj
    rw [Sched.State.goto_procs, Sched.State.setProc_procs] at hr
    cases hr
    exact nofun
  case wakeEnqueue j =>
    cases h
    refine ⟨hk, fun j r hr hb => ⟨r, ?_, hb⟩, ?_⟩
    · rwa [Sched.State.goto_procs, enqueue_procs] at hr
    · rw [hph]
      exact nofun
  case wakeUnlock j =>
    cases h
    refine ⟨hk, fun j r hr hb => ⟨r, hr, hb⟩, ?_⟩
    rw [hph]
    exact nofun
  all_goals cases h

theorem spawnStep_schedules (hph : s.phase c = ph) (htarget : ph.target = some i)
    (hq : s.procs i = some q) (h : s.spawnStep ncpu c q ph = some s')
    (hk : Sched.Kept ncpu c s s') : Schedules ncpu c s s' := by
  have hquiet : ∀ j, wakes (s.phase c) ≠ some j := by
    rw [hph]
    intro j hj
    obtain rfl | rfl | rfl := wakes_cases hj
    all_goals cases h
  refine ⟨hk, ?_, fun j hj => absurd hj (hquiet j)⟩
  cases ph
  case initUser j =>
    cases h
    exact setProc_blocked nofun
  case place j =>
    cases htarget
    cases h
    exact setProc_blocked fun hb => ⟨q, hq, hb⟩
  case spawnLock j =>
    have h : (s.acquire c q.cpu).map (fun s => s.goto c (.spawnEnqueue j)) = some s' := h
    have he := acquire_goto h
    exact fun j r hr hb => ⟨r, by rwa [he] at hr, hb⟩
  case spawnEnqueue j =>
    cases htarget
    cases h
    have hq' : (s.enqueue ncpu q.cpu (.proc i)).procs i = some q := by rwa [enqueue_procs]
    intro j r hr hb
    rw [Sched.State.goto_procs] at hr
    rw [← enqueue_procs s ncpu q.cpu (.proc i)]
    refine setProc_blocked ?_ j r hr hb
    exact fun hb => ⟨q, hq', hb⟩
  case spawnUnlock j =>
    cases h
    exact fun j r hr hb => ⟨r, hr, hb⟩
  all_goals cases h

theorem cpuStep_schedules (hi : Sched.Inv ncpu s) (h : s.cpuStep ncpu c = some s') :
    Schedules ncpu c s s' := by
  have hk := hi.cpuStep h
  unfold Sched.State.cpuStep at h
  split at h
  · rename_i hnone
    refine ⟨hk, fun i q' hq' hb => ⟨q', by rwa [scheduleStep_procs h] at hq', hb⟩, ?_⟩
    intro i hw
    obtain hph | hph | hph := wakes_cases hw
    all_goals
      rw [hph] at hnone
      cases hnone
  · rename_i i htarget
    obtain ⟨q, hq, h⟩ := Option.bind_eq_some_iff.mp h
    rcases Option.or_eq_some_iff.mp h with h | ⟨-, h⟩
    · exact wakeStep_schedules rfl htarget hq h hk
    · exact spawnStep_schedules rfl htarget hq h hk

/-- What a CPU that runs begins in the scheduler. -/
theorem runStep_schedules {a : Sched.Label} (hi : Sched.Inv ncpu s) (hph : s.phase a.cpu = .run)
    (hne : ∀ c st, a ≠ .become c st) (h : s.runStep a = some s') : Schedules ncpu a.cpu s s' := by
  refine ⟨hi.runStep hph h, ?_, by rw [hph]; rintro _ ⟨⟩⟩
  cases a with
  | step c => cases h
  | yield c =>
    cases h
    exact fun j r hr hb => ⟨r, hr, hb⟩
  | wake c i =>
    simp only [Sched.State.runStep, Sched.State.wake] at h
    split at h
    · split at h
      · cases h
        exact fun j r hr hb => ⟨r, hr, hb⟩
      · cases h
    · cases h
  | create c i how =>
    simp only [Sched.State.runStep, Sched.State.create] at h
    split at h
    · cases h
      refine setProc_blocked ?_
      cases how
      all_goals rintro ⟨⟩
    · cases h
  | become c st => exact absurd rfl (hne c st)

end Scheduler

/-! ## The invariant -/

/-- The task is inside the kernel and cannot be interrupted. -/
def Pc.busy : Pc D → Bool
  | .out | .yield _ | .yielded _ => false
  | _ => true

/-- The waiter was linked in this round of the loop, and `clear` has not begun. -/
def Pc.prepared : Pc D → Option (Call D)
  | .prepareUnlock w | .exiting w | .test w | .unlock w | .yield w | .yielded w => some w
  | _ => none

/-- The test of this round has failed. -/
def Pc.past : Pc D → Option (Call D)
  | .unlock w | .yield w | .yielded w => some w
  | _ => none

/-- The queue whose lock the task holds. -/
def Pc.holds : Pc D → Option Queue
  | .prepare w | .link w | .prepareUnlock w | .clear w _ | .unlink w _ | .clearUnlock w _ =>
    some w.queue
  | _ => none

/-- The queue that `wake_all` is called on, and who called it. -/
def Job.wakes : Job → Option (Queue × Caller)
  | .wakeLock on k | .wakePop on k | .wakeUnlock on k => some (on, k)
  | _ => none

/-- The queue whose lock the job holds. -/
def Job.holds : Job → Option Queue
  | .wakePop on _ | .wakeUnlock on _ => some on
  | _ => none

/-- The task is blocked. -/
def State.Blocked (s : State D) (i : Nat) : Prop :=
  ∃ q, s.sched.procs i = some q ∧ q.state = .blocked

/-- A CPU in `wake_all` has taken the waiter off the queue and not woken it yet. -/
def State.Popped (s : State D) (i : Nat) (on : Queue) : Prop :=
  ∃ c k, s.job c = .wakePop on k ∧ wakes (s.sched.phase c) = some i

/-- The timer is not past the loop of its `wake_all`. -/
def State.Ticking (s : State D) : Prop :=
  s.job 0 = .tick ∨ s.job 0 = .wakeLock (.spoke (s.ticks % wheelSpokes)) .timer ∨
    s.job 0 = .wakePop (.spoke (s.ticks % wheelSpokes)) .timer

/-- What holds of the task `i` at this point. -/
structure Fits (s : State D) (i : Nat) (pc : Pc D) : Prop where
  busy : pc.busy = true → ∃ q, s.sched.procs i = some q ∧ s.sched.current q.cpu = some (.proc i) ∧
    s.sched.phase q.cpu = .run ∧ s.job q.cpu = .task
  linked : ∀ w, pc.prepared = some w → s.Blocked i → i ∈ s.queue w.queue ∨ s.Popped i w.queue
  owed : ∀ predicate, pc.past = some (.blockUntil predicate) → s.Blocked i →
    predicate s.data = true → s.owes ≠ []
  locks : ∀ on q, pc.holds = some on → s.sched.procs i = some q → s.qlock on = some q.cpu
  timely : s.ticks < 2 ^ 63 → ∀ till, pc.past = some (.msleep till) → s.Blocked i →
    s.ticks < till ∨ (till = s.ticks ∧ s.Ticking)

/-- The invariant: the scheduler's, and that each task fits its place in the loop. -/
structure Inv (ncpu : Nat) (s : State D) : Prop where
  sched : Sched.Inv ncpu s.sched
  tasks : ∀ i, Fits s i (s.pc i)
  locks : ∀ c on, (s.job c).holds = some on → s.qlock on = some c
  spokes : ∀ c n k, (s.job c).wakes = some (.spoke n, k) → c = 0 ∧ k = .timer
  timer : ∀ c, s.job c = .tick → c = 0

/-- No task of the CPU is inside the kernel. -/
def State.Idle (s : State D) (c : Nat) : Prop :=
  ∀ i q, (s.pc i).busy = true → s.sched.procs i = some q → q.cpu ≠ c

section Fields
variable {ncpu c i j : Nat} {s s' : State D} {pc : Pc D} {on : Queue} {w : Call D}

theorem Pc.past_prepared (h : pc.past = some w) : pc.prepared = some w := by
  cases pc
  all_goals first | exact h | cases h

theorem Pc.holds_busy (h : pc.holds = some on) : pc.busy = true := by
  cases pc
  all_goals first | rfl | cases h

theorem Inv.setPc (hi : Inv ncpu s) (h : Fits s i pc) : Inv ncpu (s.setPc i pc) := by
  refine ⟨hi.sched, fun j => ?_, hi.locks, hi.spokes, hi.timer⟩
  have hj : Fits s j ((s.setPc i pc).pc j) := by
    by_cases hj : j = i
    · subst hj
      simpa [State.setPc] using h
    · simpa [State.setPc, Function.update_of_ne hj] using hi.tasks j
  exact ⟨hj.busy, hj.linked, hj.owed, hj.locks, hj.timely⟩

theorem Inv.acquire (hi : Inv ncpu s) (hfree : s.qlock on = none) :
    Inv ncpu (s.setQlock on (some c)) := by
  have hkeep : ∀ {on' d}, s.qlock on' = some d → (s.setQlock on (some c)).qlock on' = some d := by
    intro on' d h
    have hne : on' ≠ on := by
      rintro rfl
      rw [hfree] at h
      cases h
    exact (Function.update_of_ne hne _ _).trans h
  refine ⟨hi.sched, fun j => ?_, fun d on' h => hkeep (hi.locks d on' h), hi.spokes, hi.timer⟩
  have hj := hi.tasks j
  exact ⟨hj.busy, hj.linked, hj.owed, fun on' q h hq => hkeep (hj.locks on' q h hq), hj.timely⟩

theorem Inv.release (hi : Inv ncpu s) (htask : ∀ j, (s.pc j).holds ≠ some on)
    (hjob : ∀ c, (s.job c).holds ≠ some on) : Inv ncpu (s.setQlock on none) := by
  have hkeep : ∀ {on' d}, on' ≠ on → s.qlock on' = some d →
      (s.setQlock on none).qlock on' = some d :=
    fun hne h => (Function.update_of_ne hne _ _).trans h
  refine ⟨hi.sched, fun j => ?_, ?_, hi.spokes, hi.timer⟩
  · have hj := hi.tasks j
    refine ⟨hj.busy, hj.linked, hj.owed, fun on' q h hq => ?_, hj.timely⟩
    exact hkeep (fun he => htask j (he ▸ h)) (hj.locks on' q h hq)
  · exact fun d on' h => hkeep (fun he => hjob d (he ▸ h)) (hi.locks d on' h)

/-- A change of the queue that drops nobody who is prepared. -/
theorem Inv.setQueue {l : List Nat} (hi : Inv ncpu s)
    (h : ∀ j w, (s.pc j).prepared = some w → w.queue = on → s.Blocked j → j ∈ s.queue on →
      j ∈ l ∨ s.Popped j on) : Inv ncpu (s.setQueue on l) := by
  refine ⟨hi.sched, fun j => ?_, hi.locks, hi.spokes, hi.timer⟩
  have hj := hi.tasks j
  refine ⟨hj.busy, fun w hw hb => ?_, hj.owed, hj.locks, hj.timely⟩
  rcases hj.linked w hw hb with hin | hpop
  · by_cases hon : w.queue = on
    · rw [hon] at hin
      rcases h j w hw hon hb hin with hin | hpop
      · refine .inl ?_
        rw [hon]
        simpa [State.setQueue] using hin
      · exact .inr (hon ▸ hpop)
    · refine .inl ?_
      simpa [State.setQueue, Function.update_of_ne hon] using hin
  · exact .inr hpop

/-- The CPU is in the timer interrupt and not past the loop of `wake_all`. -/
def Job.ticks : Job → Bool
  | .tick | .wakeLock _ .timer | .wakePop _ .timer => true
  | _ => false

theorem State.setJob_job (s : State D) (c : Nat) (job : Job) : (s.setJob c job).job c = job :=
  Function.update_self ..

theorem State.Ticking.job (h : s.Ticking) : (s.job 0).ticks = true := by
  rcases h with h | h | h
  all_goals
    rw [h]
    rfl

theorem State.Ticking.setJob_ne {job : Job} (h : s.Ticking) (hc : c ≠ 0) :
    (s.setJob c job).Ticking := by
  have hjob : (s.setJob c job).job 0 = s.job 0 := Function.update_of_ne hc.symm _ _
  unfold State.Ticking
  rw [hjob]
  exact h

theorem State.Ticking.setJob {job : Job} (h : s.Ticking) (hc : (s.job c).ticks = false) :
    (s.setJob c job).Ticking := by
  refine h.setJob_ne ?_
  rintro rfl
  rw [h.job] at hc
  cases hc

theorem Inv.setJob {job : Job} (hi : Inv ncpu s) (hrun : s.sched.phase c = .run) (hidle : s.Idle c)
    (hholds : ∀ on, job.holds = some on → s.qlock on = some c)
    (hspoke : ∀ n k, job.wakes = some (.spoke n, k) → c = 0 ∧ k = .timer)
    (htimer : job = .tick → c = 0)
    (htick : s.Ticking → (s.setJob c job).Ticking ∨ ∀ j, (s.pc j).past = some (.msleep s.ticks) →
    ¬ s.Blocked j) : Inv ncpu (s.setJob c job) := by
  have hself : (s.setJob c job).job c = job := Function.update_self ..
  have hother : ∀ d, d ≠ c → (s.setJob c job).job d = s.job d :=
    fun d hd => Function.update_of_ne hd _ _
  refine ⟨hi.sched, fun j => ?_, ?_, ?_, ?_⟩
  · have hj := hi.tasks j
    refine ⟨fun hb => ?_, fun w hw hb => ?_, hj.owed, hj.locks, fun ht till hp hb => ?_⟩
    · obtain ⟨q, hq, hcur, hph, hjob⟩ := hj.busy hb
      exact ⟨q, hq, hcur, hph, (hother _ (hidle j q hb hq)).trans hjob⟩
    · refine (hj.linked w hw hb).imp_right ?_
      rintro ⟨d, k, hjob, hwake⟩
      have hd : d ≠ c := by
        rintro rfl
        rw [hrun] at hwake
        cases hwake
      exact ⟨d, k, (hother d hd).trans hjob, hwake⟩
    · rcases hj.timely ht till hp hb with hlt | ⟨rfl, htk⟩
      · exact .inl hlt
      · rcases htick htk with htk | hno
        · exact .inr ⟨rfl, htk⟩
        · exact absurd hb (hno j hp)
  · intro d on h
    by_cases hd : d = c
    · rw [hd] at h ⊢
      rw [hself] at h
      exact hholds on h
    · rw [hother d hd] at h
      exact hi.locks d on h
  · intro d n k h
    by_cases hd : d = c
    · rw [hd, hself] at h
      rw [hd]
      exact hspoke n k h
    · rw [hother d hd] at h
      exact hi.spokes d n k h
  · intro d h
    by_cases hd : d = c
    · rw [hd, hself] at h
      rw [hd]
      exact htimer h
    · rw [hother d hd] at h
      exact hi.timer d h

/-- The scheduler takes a step on a CPU none of whose tasks is inside the kernel. -/
theorem Inv.setSched {sched : Sched.State} (hi : Inv ncpu s) (h : Schedules ncpu c s.sched sched)
    (hidle : s.Idle c) : Inv ncpu (s.setSched sched) := by
  have hblocked : ∀ j, (s.setSched sched).Blocked j → s.Blocked j := by
    rintro j ⟨q', hq', hb⟩
    exact h.blocked j q' hq' hb
  have hold : ∀ j, (s.pc j).busy = true → ∃ q q', s.sched.procs j = some q ∧
      sched.procs j = some q' ∧ q'.cpu = q.cpu := by
    intro j hb
    obtain ⟨q, hq, hcur, -⟩ := (hi.tasks j).busy hb
    obtain ⟨r, hr, -, henq⟩ := (hi.sched.tidy.current _ _ hcur).1
    rw [hq] at hr
    cases hr
    obtain ⟨q', hq', hcpu, -⟩ := h.kept.moves.old j q hq henq
    exact ⟨q, q', hq, hq', hcpu⟩
  refine ⟨h.kept.inv, fun j => ?_, hi.locks, hi.spokes, hi.timer⟩
  have hj := hi.tasks j
  refine ⟨fun hb => ?_, fun w hw hb => ?_, fun predicate hp hb =>
    hj.owed predicate hp (hblocked j hb), fun on q' ho hq' => ?_, fun ht till hp hb =>
    hj.timely ht till hp (hblocked j hb)⟩
  · obtain ⟨q, hq, hcur, hph, hjob⟩ := hj.busy hb
    obtain ⟨r, q', hr, hq', hcpu⟩ := hold j hb
    rw [hq] at hr
    cases hr
    have hne := hidle j q hb hq
    refine ⟨q', hq', ?_, ?_, by rwa [hcpu]⟩
    · rw [hcpu]
      exact (h.kept.moves.current _ hne).trans hcur
    · rw [hcpu]
      exact (h.kept.moves.phase _ hne).trans hph
  · refine (hj.linked w hw (hblocked j hb)).imp_right ?_
    rintro ⟨d, k, hjob, hwake⟩
    refine ⟨d, k, hjob, ?_⟩
    by_cases hd : d = c
    · rw [hd] at hwake ⊢
      refine (h.wakes j hwake).resolve_right fun hno => ?_
      obtain ⟨q', hq', hb⟩ := hb
      exact hno q' hq' hb
    · exact (congrArg wakes (h.kept.moves.phase d hd)).trans hwake
  · obtain ⟨q, r, hq, hr, hcpu⟩ := hold j (Pc.holds_busy ho)
    have hq' : sched.procs j = some q' := hq'
    rw [hr] at hq'
    cases hq'
    rw [hcpu]
    exact hj.locks on q ho hq

/-- The current task of a CPU changes its own state before it is linked or after it was. -/
theorem Inv.become {q : Sched.Proc} {st : ProcState} (hi : Inv ncpu s)
    (hrun : s.sched.phase c = .run) (hcur : s.sched.current c = some (.proc i))
    (hq : s.sched.procs i = some q) (hpc : (s.pc i).prepared = none) :
    Inv ncpu (s.setSched (s.sched.setProc i { q with state := st })) := by
  have hprocs : ∀ j r, (s.sched.setProc i { q with state := st }).procs j = some r →
      ∃ r₀, s.sched.procs j = some r₀ ∧ r.cpu = r₀.cpu ∧ (j ≠ i → r = r₀) := by
    intro j r hr
    by_cases hj : j = i
    · subst hj
      rw [Sched.State.setProc_procs] at hr
      cases hr
      exact ⟨q, hq, rfl, fun h => absurd rfl h⟩
    · rw [Sched.State.setProc_ne _ _ _ hj] at hr
      exact ⟨r, hr, rfl, fun _ => rfl⟩
  have hblocked : ∀ j w, (s.pc j).prepared = some w →
      (s.setSched (s.sched.setProc i { q with state := st })).Blocked j → s.Blocked j := by
    rintro j w hw ⟨r, hr, hb⟩
    have hj : j ≠ i := by
      rintro rfl
      rw [hpc] at hw
      cases hw
    obtain ⟨r₀, hr₀, -, he⟩ := hprocs j r hr
    rw [he hj] at hb
    exact ⟨r₀, hr₀, hb⟩
  refine ⟨(hi.sched.become hrun hcur hq).inv, fun j => ?_, hi.locks, hi.spokes, hi.timer⟩
  have hj := hi.tasks j
  refine ⟨fun hb => ?_, fun w hw hb => hj.linked w hw (hblocked j w hw hb),
    fun predicate hp hb => hj.owed predicate hp (hblocked j _ (Pc.past_prepared hp) hb),
    fun on r ho hr => ?_, fun ht till hp hb =>
    hj.timely ht till hp (hblocked j _ (Pc.past_prepared hp) hb)⟩
  · obtain ⟨r, hr, hrest⟩ := hj.busy hb
    by_cases hji : j = i
    · subst hji
      rw [hq] at hr
      cases hr
      exact ⟨_, Sched.State.setProc_procs .., hrest⟩
    · exact ⟨r, (Sched.State.setProc_ne _ _ _ hji).trans hr, hrest⟩
  · obtain ⟨r₀, hr₀, hcpu, -⟩ := hprocs j r hr
    rw [hcpu]
    exact hj.locks on r₀ ho hr₀

end Fields

/-! ## The steps of a task -/

section Tasks
variable {ncpu c i : Nat} {s s' : State D} {pc pc' : Pc D} {on : Queue} {w : Call D}
  {q : Sched.Proc}

theorem lt_of_timeLeft {till ticks : Nat} (ht : ticks < 2 ^ 63) (h : ¬ timeLeft till ticks ≤ 0) :
    ticks < till := by
  by_contra hle
  refine h ?_
  have hd : (2 ^ 64 - ticks % 2 ^ 64 + till % 2 ^ 64) % 2 ^ 64 = (2 ^ 64 - (ticks - till)) %
      2 ^ 64 := by
    omega
  unfold timeLeft
  rw [BitVec.toInt_eq_toNat_bmod, BitVec.toNat_sub, BitVec.toNat_ofNat, BitVec.toNat_ofNat, hd,
    Int.bmod_def]
  omega

/-- CPU `c` runs the task `i`, and nothing else. -/
structure Runs (s : State D) (c i : Nat) (q : Sched.Proc) : Prop where
  procs : s.sched.procs i = some q
  cpu : q.cpu = c
  current : s.sched.current c = some (.proc i)
  phase : s.sched.phase c = .run
  job : s.job c = .task

theorem Runs.busy (h : Runs s c i q) : ∃ q, s.sched.procs i = some q ∧
    s.sched.current q.cpu = some (.proc i) ∧ s.sched.phase q.cpu = .run ∧ s.job q.cpu = .task := by
  obtain ⟨hq, rfl, hcur, hph, hjob⟩ := h
  exact ⟨q, hq, hcur, hph, hjob⟩

/-- The task goes from one point to the next. -/
theorem Fits.move (h : Fits s i pc) (hr : Runs s c i q)
    (hprepared : ∀ w, pc'.prepared = some w → i ∈ s.queue w.queue ∨ pc.prepared = some w)
    (hpast : ∀ w, pc'.past = some w → s.met i w = false ∨ pc.past = some w)
    (hholds : ∀ on, pc'.holds = some on → s.qlock on = some c ∨ pc.holds = some on) :
    Fits s i pc' := by
  refine ⟨fun _ => hr.busy, fun w hw hb => ?_, fun predicate hp hb ht => ?_, fun on q' ho hq' => ?_,
    fun ht till hp hb => ?_⟩
  · rcases hprepared w hw with hin | hw
    · exact .inl hin
    · exact h.linked w hw hb
  · rcases hpast _ hp with hmet | hp
    · have hmet : predicate s.data = false := hmet
      rw [ht] at hmet
      cases hmet
    · exact h.owed predicate hp hb ht
  · rcases hholds on ho with hlock | ho
    · rw [hr.procs] at hq'
      cases hq'
      rw [hr.cpu]
      exact hlock
    · exact h.locks on q' ho hq'
  · rcases hpast _ hp with hmet | hp
    · have hmet : (decide (timeLeft till s.ticks ≤ 0) || s.interrupted i) = false := hmet
      rw [Bool.or_eq_false_iff, decide_eq_false_iff_not] at hmet
      exact .inl (lt_of_timeLeft ht hmet.1)
    · exact h.timely ht till hp hb

/-- The lock that a task holds is held by nobody else. -/
theorem Inv.holder (hi : Inv ncpu s) (hr : Runs s c i q) (hheld : s.qlock on = some c) :
    (∀ j, j ≠ i → (s.pc j).holds ≠ some on) ∧ ∀ d, (s.job d).holds ≠ some on := by
  constructor
  · intro j hj ho
    obtain ⟨r, hr', hcur, -⟩ := (hi.tasks j).busy (Pc.holds_busy ho)
    have hlock := (hi.tasks j).locks on r ho hr'
    rw [hheld] at hlock
    rw [← Option.some.inj hlock, hr.current] at hcur
    exact hj (Task.proc.inj (Option.some.inj hcur)).symm
  · intro d ho
    have hlock := hi.locks d on ho
    rw [hheld] at hlock
    rw [← Option.some.inj hlock, hr.job] at ho
    cases ho

/-- A task leaves a section that holds the lock of a queue. -/
theorem Inv.leave (hi : Inv ncpu s) (hr : Runs s c i q) (ho : (s.pc i).holds = some on)
    (hfits : Fits s i pc') (ho' : pc'.holds = none) :
    Inv ncpu ((s.setQlock on none).setPc i pc') := by
  have hheld : s.qlock on = some c := by
    rw [← hr.cpu]
    exact (hi.tasks i).locks on q ho hr.procs
  obtain ⟨htask, hjob⟩ := hi.holder hr hheld
  refine (hi.setPc hfits).release (fun j => ?_) hjob
  by_cases hj : j = i
  · subst hj
    simp [State.setPc, ho']
  · simpa [State.setPc, Function.update_of_ne hj] using htask j hj

/-- A task enters a section that holds the lock of a queue. -/
theorem Inv.enter (hi : Inv ncpu s) (hr : Runs s c i q) (hfree : s.qlock on = none)
    (hprepared : pc'.prepared = none) (hholds : pc'.holds = some on) :
    Inv ncpu ((s.setQlock on (some c)).setPc i pc') := by
  have hi' : Inv ncpu (s.setQlock on (some c)) := hi.acquire hfree
  refine hi'.setPc ((hi'.tasks i).move ⟨hr.procs, hr.cpu, hr.current, hr.phase, hr.job⟩ ?_ ?_ ?_)
  · intro w hw
    rw [hprepared] at hw
    cases hw
  · intro w hw
    rw [Pc.past_prepared hw] at hprepared
    cases hprepared
  · intro on' ho
    rw [hholds] at ho
    cases ho
    exact .inl (Function.update_self ..)

theorem Inv.frame_lock {l : Option Nat} (hi : Inv ncpu s) : Inv ncpu { s with lock := l } :=
  ⟨hi.sched, fun j => have h := hi.tasks j; ⟨h.busy, h.linked, h.owed, h.locks, h.timely⟩, hi.locks,
    hi.spokes, hi.timer⟩

/-- A task goes on to a point that needs nothing but that it runs. -/
theorem Inv.goOn (hi : Inv ncpu s) (hr : Runs s c i q) (hprepared : pc'.prepared = none)
    (hholds : pc'.holds = none) : Inv ncpu (s.setPc i pc') := by
  refine hi.setPc ((hi.tasks i).move hr ?_ ?_ ?_)
  · intro w hw
    rw [hprepared] at hw
    cases hw
  · intro w hw
    rw [Pc.past_prepared hw] at hprepared
    cases hprepared
  · intro on ho
    rw [hholds] at ho
    cases ho

/-- A task changes its own state and goes on. -/
theorem Inv.becomes {st : ProcState} {sched : Sched.State} (hi : Inv ncpu s) (hr : Runs s c i q)
    (h : s.sched.become c st = some sched) (hpc : (s.pc i).prepared = none)
    (hprepared : pc'.prepared = none) (hholds : ∀ on, pc'.holds = some on →
      (s.pc i).holds = some on) :
    Inv ncpu ((s.setSched sched).setPc i pc') := by
  rw [Sched.State.become, hr.current] at h
  simp only [hr.procs, Option.map_some, Option.some.injEq] at h
  subst h
  have hi' : Inv ncpu (s.setSched (s.sched.setProc i { q with state := st })) :=
    hi.become hr.phase hr.current hr.procs hpc
  refine hi'.setPc ((hi'.tasks i).move (q := { q with state := st })
    ⟨Sched.State.setProc_procs .., hr.cpu, hr.current, hr.phase, hr.job⟩ ?_ ?_ ?_)
  · intro w hw
    rw [hprepared] at hw
    cases hw
  · intro w hw
    rw [Pc.past_prepared hw] at hprepared
    cases hprepared
  · exact fun on ho => .inr (hholds on ho)

theorem Inv.idle_of_job (hi : Inv ncpu s) (h : s.job c ≠ .task) : s.Idle c := by
  intro j r hb hr hc
  obtain ⟨r', hr', -, -, hjob⟩ := (hi.tasks j).busy hb
  rw [hr] at hr'
  cases hr'
  rw [hc] at hjob
  exact h hjob

theorem Inv.idle_of_current (hi : Inv ncpu s)
    (h : ∀ i, s.sched.current c = some (.proc i) → (s.pc i).busy = false) : s.Idle c := by
  intro j r hb hr hc
  obtain ⟨r', hr', hcur, -⟩ := (hi.tasks j).busy hb
  rw [hr] at hr'
  cases hr'
  rw [hc] at hcur
  rw [h j hcur] at hb
  cases hb

theorem yield_schedules {σ : Sched.State} (hi : Sched.Inv ncpu σ) (hrun : σ.phase c = .run) :
    Schedules ncpu c σ (σ.yield c) :=
  runStep_schedules (a := .yield c) hi hrun nofun rfl

/-- The task joins the queue, which it holds the lock of. -/
theorem Inv.step_link {w : Call D} (hi : Inv ncpu s) (hr : Runs s c i q) (hpc : s.pc i = .link w)
    (h : s.taskStep c i (.link w) = some s') : Inv ncpu s' := by
  cases h
  have hi' : Inv ncpu (s.setQueue w.queue (s.queue w.queue ++ [i])) :=
    hi.setQueue fun j _ _ _ _ hin => .inl (List.mem_append_left _ hin)
  refine hi'.setPc ((hi'.tasks i).move ⟨hr.procs, hr.cpu, hr.current, hr.phase, hr.job⟩ ?_ nofun ?_)
  · intro w' hw
    cases hw
    refine .inl ?_
    simp [State.setQueue]
  · intro on ho
    refine .inr ?_
    rw [show (s.setQueue w.queue (s.queue w.queue ++ [i])).pc i = .link w from hpc]
    exact ho

/-- The task is prepared, and in the queue. -/
theorem Inv.step_prepareUnlock {w : Call D} (hi : Inv ncpu s) (hr : Runs s c i q)
    (hpc : s.pc i = .prepareUnlock w) (h : s.taskStep c i (.prepareUnlock w) = some s') :
    Inv ncpu s' := by
  cases h
  refine hi.leave hr (by rw [hpc]; rfl) ((hi.tasks i).move hr ?_ ?_ ?_) ?_
  · rw [hpc]
    cases w
    all_goals exact fun _ hw => .inr hw
  · cases w
    all_goals exact nofun
  · cases w
    all_goals exact nofun
  · cases w
    all_goals rfl

/-- A caller of `block_until` sees whether it is to exit. -/
theorem Inv.step_exiting {w : Call D} (hi : Inv ncpu s) (hr : Runs s c i q)
    (hpc : s.pc i = .exiting w) (h : s.taskStep c i (.exiting w) = some s') : Inv ncpu s' := by
  cases h
  split
  · exact hi.goOn hr rfl rfl
  · refine hi.setPc ((hi.tasks i).move hr ?_ nofun nofun)
    rw [hpc]
    exact fun _ hw => .inr hw

/-- The condition is not met, or the task goes on without waiting. -/
theorem Inv.step_test {w : Call D} (hi : Inv ncpu s) (hr : Runs s c i q) (hpc : s.pc i = .test w)
    (h : s.taskStep c i (.test w) = some s') : Inv ncpu s' := by
  cases h
  split
  · exact hi.goOn hr rfl rfl
  · rename_i hmet
    refine hi.setPc ((hi.tasks i).move hr ?_ ?_ ?_)
    · rw [hpc]
      cases w
      all_goals exact fun _ hw => .inr hw
    · intro w' hw
      refine .inl ?_
      have hww : w = w' := by
        cases w
        all_goals exact Option.some.inj hw
      rw [← hww]
      exact Bool.eq_false_iff.mpr hmet
    · cases w
      all_goals exact nofun

/-- `block_until` gives the lock of the caller back. -/
theorem Inv.step_unlock {w : Call D} (hi : Inv ncpu s) (hr : Runs s c i q)
    (hpc : s.pc i = .unlock w) (h : s.taskStep c i (.unlock w) = some s') : Inv ncpu s' := by
  cases h
  have hpc' : ({ s with lock := none } : State D).pc i = .unlock w := hpc
  refine hi.frame_lock.setPc ((hi.frame_lock.tasks i).move
    ⟨hr.procs, hr.cpu, hr.current, hr.phase, hr.job⟩ ?_ ?_ nofun)
  · rw [hpc']
    exact fun _ hw => .inr hw
  · rw [hpc']
    exact fun _ hw => .inr hw

/-- The task yields: it is the state of the process that decides whether it runs again. -/
theorem Inv.step_yield {w : Call D} (hi : Inv ncpu s) (hr : Runs s c i q) (hpc : s.pc i = .yield w)
    (h : s.taskStep c i (.yield w) = some s') : Inv ncpu s' := by
  cases h
  have hi' : Inv ncpu (s.setPc i (.yielded w)) := by
    refine hi.setPc ((hi.tasks i).move hr ?_ ?_ nofun)
    · rw [hpc]
      exact fun _ hw => .inr hw
    · rw [hpc]
      exact fun _ hw => .inr hw
  refine hi'.setSched (yield_schedules hi.sched hr.phase) (hi'.idle_of_current fun j hj => ?_)
  obtain rfl : i = j := Task.proc.inj (Option.some.inj (hr.current.symm.trans hj))
  simp [State.setPc, Pc.busy]

/-- The task leaves the queue. -/
theorem Inv.step_unlink {w : Call D} {k : After} (hi : Inv ncpu s) (hr : Runs s c i q)
    (hpc : s.pc i = .unlink w k) (h : s.taskStep c i (.unlink w k) = some s') : Inv ncpu s' := by
  cases h
  have hi' : Inv ncpu (s.setQueue w.queue ((s.queue w.queue).erase i)) := by
    refine hi.setQueue fun j w' hw _ _ hin => .inl ?_
    have hj : j ≠ i := by
      rintro rfl
      rw [hpc] at hw
      cases hw
    exact (List.mem_erase_of_ne hj).mpr hin
  refine hi'.setPc
    ((hi'.tasks i).move ⟨hr.procs, hr.cpu, hr.current, hr.phase, hr.job⟩ nofun nofun ?_)
  intro on ho
  refine .inr ?_
  rw [show (s.setQueue w.queue ((s.queue w.queue).erase i)).pc i = .unlink w k from hpc]
  exact ho

/-- `clear` is over, and the loop goes on or ends. -/
theorem Inv.step_clearUnlock {w : Call D} {k : After} (hi : Inv ncpu s) (hr : Runs s c i q)
    (hpc : s.pc i = .clearUnlock w k) (h : s.taskStep c i (.clearUnlock w k) = some s') :
    Inv ncpu s' := by
  have hplain : ∀ pc' : Pc D, pc'.prepared = none → pc'.holds = none →
      Inv ncpu ((s.setQlock w.queue none).setPc i pc') := by
    intro pc' hprepared hholds
    refine hi.leave hr (by rw [hpc]; rfl) ((hi.tasks i).move hr ?_ ?_ ?_) hholds
    · rw [hprepared]
      exact nofun
    · intro w' hw
      rw [Pc.past_prepared hw] at hprepared
      cases hprepared
    · rw [hholds]
      exact nofun
  cases k with
  | again =>
    cases h
    cases w with
    | blockUntil predicate => exact hplain (.relock _) rfl rfl
    | msleep till => exact hplain (.prepareLock _) rfl rfl
  | exit =>
    cases h
    exact hplain .broken rfl rfl
  | done =>
    cases h
    have hi' := hplain .out rfl rfl
    cases w with
    | msleep till => exact hi'
    | blockUntil predicate =>
      -- the caller goes on with the lock held
      refine hi'.setJob (c := c) hr.phase (hi'.idle_of_current fun j hj => ?_) nofun nofun nofun ?_
      · obtain rfl : i = j := Task.proc.inj (Option.some.inj (hr.current.symm.trans hj))
        simp [State.setPc, Pc.busy]
      · exact fun ht => .inl (ht.setJob (congrArg Job.ticks hr.job))

theorem Inv.taskStep (hi : Inv ncpu s) (hr : Runs s c i q) (h : s.taskStep c i (s.pc i) = some s') :
    Inv ncpu s' := by
  cases hpc : s.pc i
  all_goals rw [hpc] at h
  case out => cases h
  case prepareLock w =>
    simp only [State.taskStep] at h
    split at h
    · rename_i hfree
      cases h
      exact hi.enter hr hfree rfl rfl
    · cases h
  case prepare w =>
    obtain ⟨sched, hs, rfl⟩ := Option.map_eq_some_iff.mp h
    exact hi.becomes hr hs (by rw [hpc]; rfl) rfl (by rw [hpc]; exact fun _ => id)
  case link w => exact hi.step_link hr hpc h
  case prepareUnlock w => exact hi.step_prepareUnlock hr hpc h
  case exiting w => exact hi.step_exiting hr hpc h
  case exitUnlock w =>
    cases h
    exact hi.frame_lock.goOn ⟨hr.procs, hr.cpu, hr.current, hr.phase, hr.job⟩ rfl rfl
  case test w => exact hi.step_test hr hpc h
  case unlock w => exact hi.step_unlock hr hpc h
  case yield w => exact hi.step_yield hr hpc h
  case yielded w =>
    cases h
    exact hi.goOn hr rfl rfl
  case clearLock w k =>
    simp only [State.taskStep] at h
    split at h
    · rename_i hfree
      cases h
      exact hi.enter hr hfree rfl rfl
    · cases h
  case clear w k =>
    obtain ⟨sched, hs, rfl⟩ := Option.map_eq_some_iff.mp h
    exact hi.becomes hr hs (by rw [hpc]; rfl) rfl (by rw [hpc]; exact fun _ => id)
  case unlink w k => exact hi.step_unlink hr hpc h
  case clearUnlock w k => exact hi.step_clearUnlock hr hpc h
  case relock w =>
    simp only [State.taskStep] at h
    split at h
    · cases h
      exact hi.frame_lock.goOn ⟨hr.procs, hr.cpu, hr.current, hr.phase, hr.job⟩ rfl rfl
    · cases h
  case broken =>
    obtain ⟨sched, hs, rfl⟩ := Option.map_eq_some_iff.mp h
    exact hi.becomes hr hs (by rw [hpc]; rfl) rfl nofun

end Tasks

/-! ## The steps of `wake_all` and of the timer -/

section Jobs
variable {ncpu c i : Nat} {s s' : State D} {on : Queue} {k : Caller} {job : Job}

/-- One who sees the queue empty while it holds its lock leaves no blocked waiter behind. -/
theorem Inv.empty (hi : Inv ncpu s) (hrun : s.sched.phase c = .run) (hjob : s.job c = .wakePop on k)
    (hempty : s.queue on = []) {j : Nat} {w : Call D} (hw : (s.pc j).prepared = some w)
    (hon : w.queue = on) : ¬ s.Blocked j := by
  intro hb
  rcases (hi.tasks j).linked w hw hb with hin | ⟨d, k', hd, hwake⟩
  · rw [hon, hempty] at hin
    cases hin
  · -- whoever has popped it holds the lock
    have hc : s.qlock on = some c := hi.locks c on (by rw [hjob]; rfl)
    have hd' : s.qlock on = some d := hi.locks d on (by rw [hd, hon]; rfl)
    rw [hc] at hd'
    rw [← Option.some.inj hd', hrun] at hwake
    cases hwake

theorem Inv.paid (hi : Inv ncpu s) (hrun : s.sched.phase c = .run) (hjob : s.job c = .wakePop on k)
    (hempty : s.queue on = []) : Inv ncpu (s.paid c on) := by
  refine ⟨hi.sched, fun j => ?_, hi.locks, hi.spokes, hi.timer⟩
  have hj := hi.tasks j
  refine ⟨hj.busy, hj.linked, fun predicate hp hb ht => ?_, hj.locks, hj.timely⟩
  cases on with
  | wq => exact absurd hb (hi.empty hrun hjob hempty (Pc.past_prepared hp) rfl)
  | spoke n => exact hj.owed predicate hp hb ht

/-- `wake_all` gives the lock of the queue back. -/
theorem Inv.drop (hi : Inv ncpu s) (hrun : s.sched.phase c = .run)
    (hjob : s.job c = .wakeUnlock on k) (hholds : job.holds = none) (hwakes : job.wakes = none)
    (htimer : job ≠ .tick) : Inv ncpu ((s.setQlock on none).setJob c job) := by
  have hidle : s.Idle c := hi.idle_of_job (by rw [hjob]; exact nofun)
  have hheld : s.qlock on = some c := hi.locks c on (by rw [hjob]; rfl)
  have hi' : Inv ncpu (s.setJob c job) := by
    refine hi.setJob hrun hidle (by rw [hholds]; exact nofun) (by rw [hwakes]; exact nofun)
      (fun h => absurd h htimer) (fun ht => .inl (ht.setJob ?_))
    rw [hjob]
    rfl
  refine hi'.release (fun j ho => ?_) (fun d ho => ?_)
  · obtain ⟨r, hr, -⟩ := (hi.tasks j).busy (Pc.holds_busy ho)
    have hlock := (hi.tasks j).locks on r ho hr
    rw [hheld] at hlock
    exact hidle j r (Pc.holds_busy ho) hr (Option.some.inj hlock).symm
  · by_cases hd : d = c
    · subst hd
      simp [State.setJob, hholds] at ho
    · have ho : (s.job d).holds = some on := by
        simpa [State.setJob, Function.update_of_ne hd] using ho
      have hlock := hi.locks d on ho
      rw [hheld] at hlock
      exact hd (Option.some.inj hlock).symm

theorem Inv.jobStep (hi : Inv ncpu s) (hrun : s.sched.phase c = .run)
    (h : s.jobStep c (s.job c) = some s') : Inv ncpu s' := by
  cases hjob : s.job c
  all_goals rw [hjob] at h
  case task => cases h
  case held => cases h
  case lock =>
    have hidle : s.Idle c := hi.idle_of_job (by rw [hjob]; exact nofun)
    simp only [State.jobStep] at h
    split at h
    · cases h
      exact hi.frame_lock.setJob (c := c) hrun hidle nofun nofun nofun
        fun ht => .inl (ht.setJob (congrArg Job.ticks hjob))
    · cases h
  case wakeLock on k =>
    have hidle : s.Idle c := hi.idle_of_job (by rw [hjob]; exact nofun)
    simp only [State.jobStep] at h
    split at h
    · rename_i hfree
      cases h
      refine (hi.acquire hfree).setJob (c := c) hrun hidle ?_ ?_ nofun ?_
      · intro on' ho
        cases ho
        exact Function.update_self ..
      · intro n k' hk
        exact hi.spokes c n k' (by rw [hjob]; exact hk)
      · intro ht
        refine .inl ?_
        by_cases hc : c = 0
        · subst hc
          have ht : s.Ticking := ht
          unfold State.Ticking at ht
          rw [hjob] at ht
          rcases ht with ht | ht | ht
          · cases ht
          · obtain ⟨rfl, rfl⟩ := Job.wakeLock.inj ht
            exact .inr (.inr (State.setJob_job ..))
          · cases ht
        · exact ht.setJob_ne hc
    · cases h
  case wakePop on k =>
    have hidle : s.Idle c := hi.idle_of_job (by rw [hjob]; exact nofun)
    simp only [State.jobStep] at h
    split at h
    · rename_i i rest hqueue
      obtain ⟨sched, hs, rfl⟩ := Option.map_eq_some_iff.mp h
      have hphase : sched.phase c = .wakeLock i := by
        unfold Sched.State.wake at hs
        split at hs
        · split at hs
          · cases hs
            exact Sched.State.goto_phase ..
          · cases hs
        · cases hs
      have hi' := hi.setSched (runStep_schedules (a := .wake c i) hi.sched hrun nofun hs) hidle
      refine hi'.setQueue fun j w hw hon hb hin => ?_
      have hin : j ∈ s.queue on := hin
      rw [hqueue] at hin
      rcases List.mem_cons.mp hin with rfl | hin
      · exact .inr ⟨c, k, hjob, congrArg wakes hphase⟩
      · exact .inl hin
    · rename_i hempty
      cases h
      refine (hi.paid hrun hjob hempty).setJob (c := c) hrun hidle ?_ ?_ nofun ?_
      · intro on' ho
        exact hi.locks c on' (by rw [hjob]; exact ho)
      · intro n k' hk
        exact hi.spokes c n k' (by rw [hjob]; exact hk)
      · intro ht
        by_cases hc : c = 0
        · -- the timer has woken all who slept until now
          subst hc
          have ht : s.Ticking := ht
          unfold State.Ticking at ht
          rw [hjob] at ht
          rcases ht with ht | ht | ht
          · cases ht
          · cases ht
          · obtain ⟨rfl, rfl⟩ := Job.wakePop.inj ht
            exact .inr fun j hp => hi.empty hrun hjob hempty (Pc.past_prepared hp) rfl
        · exact .inl (ht.setJob_ne hc)
  case wakeUnlock on k =>
    cases k with
    | kernel =>
      cases h
      exact hi.drop hrun hjob rfl rfl nofun
    | locked =>
      cases h
      exact hi.drop hrun hjob rfl rfl nofun
    | timer =>
      cases h
      have hi' : Inv ncpu ((s.setQlock on none).setJob c .task) := hi.drop hrun hjob rfl rfl nofun
      refine hi'.setSched (yield_schedules hi.sched hrun) ?_
      exact hi.idle_of_job (by rw [hjob]; exact nofun)
  case tick =>
    have hidle : s.Idle c := hi.idle_of_job (by rw [hjob]; exact nofun)
    obtain rfl : c = 0 := hi.timer c hjob
    simp only [State.jobStep] at h
    split at h
    · rename_i hempty
      cases h
      have hi' : Inv ncpu (s.setJob 0 .task) := by
        refine hi.setJob hrun hidle nofun nofun nofun fun _ => .inr fun j hp hb => ?_
        -- nobody is linked, and nobody but the timer pops from a spoke
        rcases (hi.tasks j).linked _ (Pc.past_prepared hp) hb with hin | ⟨d, k, hd, -⟩
        · have hin : j ∈ s.queue (.spoke (s.ticks % wheelSpokes)) := hin
          rw [hempty] at hin
          cases hin
        · have hd0 : d = 0 := (hi.spokes d (s.ticks % wheelSpokes) k (by rw [hd]; rfl)).1
          rw [hd0, hjob] at hd
          cases hd
      exact hi'.setSched (yield_schedules hi.sched hrun) hidle
    · cases h
      refine hi.setJob hrun hidle nofun ?_ nofun fun _ => .inl (.inr (.inl (State.setJob_job ..)))
      intro n k hk
      cases hk
      exact ⟨rfl, rfl⟩

end Jobs

/-! ## Every step keeps the invariant -/

section Steps
variable {ncpu c i : Nat} {s s' : State D}

theorem Inv.runs (hi : Inv ncpu s) (hcur : s.sched.current c = some (.proc i))
    (hrun : s.sched.phase c = .run) (hjob : s.job c = .task) : ∃ q, Runs s c i q := by
  obtain ⟨q, hq, hcpu, -⟩ := (hi.sched.tidy.current c _ hcur).1
  exact ⟨q, hq, hcpu, hcur, hrun, hjob⟩

theorem Inv.interruptible (hi : Inv ncpu s) (h : s.interruptible c = true) : s.job c = .task ∧
    s.Idle c := by
  unfold State.interruptible at h
  split at h
  · rename_i i hjob hcur
    refine ⟨hjob, hi.idle_of_current fun j hj => ?_⟩
    rw [hcur] at hj
    cases hj
    split at h
    · rename_i hpc
      rw [hpc]
      rfl
    · rename_i w hpc
      rw [hpc]
      rfl
    · cases h
  · rename_i t hjob hno
    exact ⟨hjob, hi.idle_of_current fun j hj => absurd hj (hno j)⟩
  · cases h

theorem Inv.outside (hi : Inv ncpu s) (h : s.outside c = true) : s.job c = .task ∧ s.Idle c ∧
    ∀ i, s.sched.current c = some (.proc i) → s.pc i = .out := by
  unfold State.outside at h
  split at h
  · rename_i i hjob hcur
    split at h
    · rename_i hpc
      have hout : ∀ j, s.sched.current c = some (.proc j) → s.pc j = .out := by
        intro j hj
        rw [hcur] at hj
        cases hj
        exact hpc
      exact ⟨hjob, hi.idle_of_current fun j hj => by rw [hout j hj]; rfl, hout⟩
    · cases h
  · rename_i t hjob hno
    exact ⟨hjob, hi.idle_of_current fun j hj => absurd hj (hno j), fun j hj => absurd hj (hno j)⟩
  · cases h

theorem Inv.schedStep {a : Sched.Label} {sched : Sched.State} (hi : Inv ncpu s)
    (ha : s.allows a = true) (h : Sched.step ncpu s.sched a = some sched) :
    Inv ncpu (s.setSched sched) := by
  unfold Sched.step at h
  split at h
  · split at h
    · rename_i hrun
      cases a with
      | step c => cases h
      | yield c =>
        exact hi.setSched (runStep_schedules hi.sched hrun nofun h) (hi.interruptible ha).2
      | wake c j =>
        refine hi.setSched (runStep_schedules hi.sched hrun nofun h) ?_
        rcases Bool.or_eq_true_iff.mp ha with ha | ha
        · exact (hi.interruptible ha).2
        · have hheld : s.job c = .held := of_decide_eq_true ha
          exact hi.idle_of_job (c := c) (by rw [hheld]; exact nofun)
      | create c j how =>
        exact hi.setSched (runStep_schedules hi.sched hrun nofun h) (hi.outside ha).2.1
      | become c st =>
        simp only [Sched.State.runStep, Sched.State.become] at h
        split at h
        · rename_i j hcur
          obtain ⟨q, hq, rfl⟩ := Option.map_eq_some_iff.mp h
          refine hi.become hrun hcur hq ?_
          rw [(hi.outside ha).2.2 j hcur]
          rfl
        · cases h
    · rename_i hne
      split at h
      · rename_i c
        refine hi.setSched (cpuStep_schedules hi.sched h) ?_
        intro j r hb hr hc
        obtain ⟨r', hr', -, hrun, -⟩ := (hi.tasks j).busy hb
        rw [hr] at hr'
        cases hr'
        rw [hc] at hrun
        exact hne hrun
      · cases h
  · cases h

theorem Inv.timerStep (hi : Inv ncpu s) (hrun : s.sched.phase 0 = .run)
    (ha : s.interruptible 0 = true) :
    Inv ncpu ({ s with ticks := s.ticks + 1 }.setJob 0 .tick) := by
  obtain ⟨hjob, hidle⟩ := hi.interruptible ha
  have hno : ¬ s.Ticking := by
    intro ht
    have := ht.job
    rw [hjob] at this
    cases this
  have hi' : Inv ncpu (s.setJob 0 .tick) :=
    hi.setJob hrun hidle nofun nofun (fun _ => rfl) (fun ht => absurd ht hno)
  refine ⟨hi'.sched, fun j => ?_, hi'.locks, hi'.spokes, hi'.timer⟩
  have hj := hi'.tasks j
  refine ⟨hj.busy, hj.linked, hj.owed, hj.locks, fun ht till hp hb => ?_⟩
  have ht : s.ticks + 1 < 2 ^ 63 := ht
  rcases (hi.tasks j).timely (by omega) till hp hb with hlt | ⟨-, htk⟩
  · -- the sleepers of this tick are on the spoke that is looked at next
    rcases Nat.lt_or_eq_of_le hlt with hlt | heq
    · exact .inl hlt
    · exact .inr ⟨heq.symm, .inl (State.setJob_job ..)⟩
  · exact absurd htk hno

theorem Inv.start {a : Label D} (hi : Inv ncpu s) (hrun : s.sched.phase a.cpu = .run)
    (h : s.start a = some s') : Inv ncpu s' := by
  cases a with
  | lock c =>
    simp only [State.start] at h
    split at h
    · rename_i ha
      obtain ⟨hjob, hidle⟩ := hi.interruptible ha
      cases h
      exact hi.setJob hrun hidle nofun nofun nofun fun ht =>
        .inl (ht.setJob (congrArg Job.ticks hjob))
    · cases h
  | change c f =>
    simp only [State.start] at h
    split at h
    · rename_i t hjob hcur
      cases h
      refine ⟨hi.sched, fun j => ?_, hi.locks, hi.spokes, hi.timer⟩
      have hj := hi.tasks j
      exact ⟨hj.busy, hj.linked, fun _ _ _ _ => List.cons_ne_nil _ _, hj.locks, hj.timely⟩
    · cases h
  | unlock c =>
    simp only [State.start] at h
    split at h
    · rename_i hjob
      cases h
      exact hi.frame_lock.setJob (c := c) hrun (hi.idle_of_job (by rw [hjob]; exact nofun)) nofun
        nofun nofun fun ht => .inl (ht.setJob (congrArg Job.ticks hjob))
    · cases h
  | wakeAll c =>
    simp only [State.start] at h
    split at h
    · rename_i hjob
      cases h
      exact hi.setJob hrun (hi.idle_of_job (by rw [hjob]; exact nofun)) nofun nofun nofun
        fun ht => .inl (ht.setJob (congrArg Job.ticks hjob))
    · split at h
      · rename_i ha
        obtain ⟨hjob, hidle⟩ := hi.interruptible ha
        cases h
        exact hi.setJob hrun hidle nofun nofun nofun fun ht =>
          .inl (ht.setJob (congrArg Job.ticks hjob))
      · cases h
  | blockUntil c predicate =>
    simp only [State.start] at h
    split at h
    · rename_i i hjob hcur
      split at h
      · cases h
        have hi' : Inv ncpu (s.setJob c .task) :=
          hi.setJob hrun (hi.idle_of_job (by rw [hjob]; exact nofun)) nofun nofun nofun
            fun ht => .inl (ht.setJob (congrArg Job.ticks hjob))
        obtain ⟨q, hr⟩ := hi'.runs hcur hrun (State.setJob_job ..)
        exact hi'.goOn hr rfl rfl
      · cases h
    · cases h
  | msleep c ms =>
    simp only [State.start] at h
    split at h
    · rename_i i hcur
      split at h
      · rename_i ha
        cases h
        obtain ⟨q, hr⟩ := hi.runs hcur hrun (hi.outside ha.1).1
        have hi' : Inv ncpu { s with interrupted := Function.update s.interrupted i false } :=
          ⟨hi.sched, fun j => have h := hi.tasks j; ⟨h.busy, h.linked, h.owed, h.locks, h.timely⟩,
            hi.locks, hi.spokes, hi.timer⟩
        exact hi'.goOn ⟨hr.procs, hr.cpu, hr.current, hr.phase, hr.job⟩ rfl rfl
      · cases h
    · cases h
  | timer =>
    simp only [State.start] at h
    split at h
    · rename_i ha
      cases h
      exact hi.timerStep hrun ha
    · cases h
  | run | sched | setExiting | interrupt => cases h

theorem Inv.runStep (hi : Inv ncpu s) (hrun : s.sched.phase c = .run) (h : s.runStep c = some s') :
    Inv ncpu s' := by
  unfold State.runStep at h
  split at h
  · rename_i hjob
    split at h
    · rename_i i hcur
      obtain ⟨q, hr⟩ := hi.runs hcur hrun hjob
      exact hi.taskStep hr h
    · cases h
  · exact hi.jobStep hrun h

theorem Inv.step {a : Label D} (hi : Inv ncpu s) (h : step ncpu s a = some s') : Inv ncpu s' := by
  unfold WaitQueue.step at h
  split at h
  · cases h
    exact ⟨hi.sched, fun j => have h := hi.tasks j; ⟨h.busy, h.linked, h.owed, h.locks, h.timely⟩,
      hi.locks, hi.spokes, hi.timer⟩
  · cases h
    exact ⟨hi.sched, fun j => have h := hi.tasks j; ⟨h.busy, h.linked, h.owed, h.locks, h.timely⟩,
      hi.locks, hi.spokes, hi.timer⟩
  · split at h
    · rename_i ha
      obtain ⟨sched, hs, rfl⟩ := Option.map_eq_some_iff.mp h
      exact hi.schedStep ha hs
    · cases h
  · split at h
    · rename_i hc
      exact hi.runStep hc.2 h
    · cases h
  · split at h
    · rename_i hc
      exact hi.start hc.2 h
    · cases h

theorem Inv.init (h : Start s) : Inv ncpu s := by
  refine ⟨?_, fun i => ?_, ?_, ?_, ?_⟩
  · rw [h.sched]
    exact Sched.Inv.boot ncpu
  · rw [h.pc i]
    exact ⟨nofun, nofun, nofun, nofun, nofun⟩
  · intro c on hon
    rw [h.job c] at hon
    cases hon
  · intro c n k hk
    rw [h.job c] at hk
    cases hk
  · intro c hk
    rw [h.job c] at hk
    cases hk

end Steps

/-- The call the task is in. -/
def Pc.call : Pc D → Option (Call D)
  | .prepareLock w | .prepare w | .link w | .prepareUnlock w | .exiting w | .exitUnlock w | .test w
  | .unlock w | .yield w | .yielded w | .clearLock w _ | .clear w _ | .unlink w _ | .clearUnlock w _
  | .relock w => some w
  | .out | .broken => none

/-- The timer interrupt is over. -/
def State.timerDone (s : State D) : Prop :=
  s.job 0 ≠ .tick ∧ ∀ on, (s.job 0).wakes ≠ some (on, .timer)

/-- The task waits in this call, is blocked, and is not current on its CPU. -/
structure State.Asleep (s : State D) (i : Nat) (w : Call D) : Prop where
  call : (s.pc i).call = some w
  off : ∃ q, s.sched.procs i = some q ∧ q.state = .blocked ∧ s.sched.current q.cpu ≠ some (.proc i)

theorem Inv.asleep {ncpu i : Nat} {s : State D} {w : Call D} (hi : Inv ncpu s) (h : s.Asleep i w) :
    (s.pc i).past = some w ∧ s.Blocked i := by
  obtain ⟨hcall, q, hq, hb, hoff⟩ := h
  refine ⟨?_, q, hq, hb⟩
  have hnot : (s.pc i).busy ≠ true := by
    intro hbusy
    obtain ⟨r, hr, hcur, -⟩ := (hi.tasks i).busy hbusy
    rw [hq] at hr
    cases hr
    exact hoff hcur
  cases hpc : s.pc i
  all_goals rw [hpc] at hcall hnot
  case yield w' | yielded w' => exact hcall
  case out => cases hcall
  all_goals exact absurd rfl hnot

/-- **No wake-up is lost.**  Once everybody who changed the data is past the loop of the
`wake_all` that follows the change, no task that waits in `block_until`, blocked and off its
CPU, has a true predicate.  Once the timer interrupt is over, no task that waits in
`sys_msleep`, blocked and off its CPU, sleeps until a tick that has come. -/
theorem no_lost_wakeup {ncpu : Nat} {s : State D} (h : (machine D ncpu).Reach s) :
    (s.owes = [] → ∀ i predicate, s.Asleep i (.blockUntil predicate) →
      predicate s.data = false) ∧
    (s.ticks < 2 ^ 63 → s.timerDone → ∀ i till, s.Asleep i (.msleep till) → s.ticks < till) := by
  have hi : Inv ncpu s :=
    h.invariant (Inv ncpu) (fun _ h => Inv.init h) (fun _ _ _ hi hs => hi.step hs)
  constructor
  · intro howes i predicate hasleep
    obtain ⟨hpast, hb⟩ := hi.asleep hasleep
    by_contra htrue
    exact (hi.tasks i).owed predicate hpast hb (Bool.not_eq_false _ ▸ htrue) howes
  · intro hticks hdone i till hasleep
    obtain ⟨hpast, hb⟩ := hi.asleep hasleep
    rcases (hi.tasks i).timely hticks till hpast hb with hlt | ⟨-, ht | ht | ht⟩
    · exact hlt
    · exact absurd ht hdone.1
    · exact absurd (by rw [ht]; rfl) (hdone.2 (.spoke (s.ticks % wheelSpokes)))
    · exact absurd (by rw [ht]; rfl) (hdone.2 (.spoke (s.ticks % wheelSpokes)))

/-- Nobody waits. -/
def quiet : State Nat where
  sched := Sched.boot
  pc := fun _ => .out
  job := fun _ => .task
  queue := fun _ => []
  qlock := fun _ => none
  lock := none
  data := 0
  owes := []
  exiting := fun _ => false
  interrupted := fun _ => false
  ticks := 0

theorem quiet_start : Start quiet :=
  ⟨rfl, fun _ => rfl, fun _ => rfl, fun _ => rfl, fun _ => rfl, rfl, rfl⟩

/-- Process 1 waits until the data are 2, and process 3 until tick 3; process 2 makes the data 1. -/
def sleepRun : List (Label Nat) :=
  let steps (c n : Nat) : List (Label Nat) := List.replicate n (.sched (.step c))
  let runs (c n : Nat) : List (Label Nat) := List.replicate n (.run c)
  let create (i : Nat) : List (Label Nat) := .sched (.create 0 i .setup) :: steps 0 5
  create 1 ++ create 2 ++ create 3 ++ Label.sched (.yield 0) :: steps 0 8 ++
    Label.sched (.yield 1) :: steps 1 8 ++
    -- block_until
    [Label.lock 1, .run 1, .blockUntil 1 (· == 2)] ++ runs 1 8 ++ steps 1 9 ++
    -- sys_msleep
    Label.msleep 1 25 :: runs 1 6 ++ steps 1 9 ++
    -- wake_all pops process 1 and wakes it
    [Label.lock 0, .run 0, .change 0 (· + 1), .unlock 0, .wakeAll 0] ++ runs 0 2 ++
    steps 0 5 ++ runs 0 2 ++
    [Label.timer, .run 0] ++
    -- process 1 finds that its predicate is false, and waits again
    Label.sched (.yield 1) :: steps 1 9 ++ runs 1 14 ++ steps 1 9

/-- What process `i` sleeps for: the values of its predicate at 1 and 2, or its tick. -/
def State.sleeps (s : State Nat) (i : Nat) : Option ((Bool × Bool) ⊕ Nat) :=
  match s.pc i with
  | .yielded (.blockUntil predicate) => some (.inl (predicate 1, predicate 2))
  | .yielded (.msleep till) => some (.inr till)
  | _ => none

theorem no_lost_wakeup_sleepers : ∃ s : State Nat, (machine Nat 2).Reach s ∧ s.owes = [] ∧
    s.timerDone ∧ (∃ predicate, s.Asleep 1 (.blockUntil predicate) ∧ predicate 2 = true ∧
    predicate s.data = false) ∧ s.Asleep 3 (.msleep 3) ∧ s.ticks < 3 := by
  have hrun : ((machine Nat 2).run quiet sleepRun).isSome := by decide +kernel
  obtain ⟨s, hs⟩ := Option.isSome_iff_exists.mp hrun
  have hdata : ((machine Nat 2).run quiet sleepRun).map (fun s => (s.owes, s.job 0, s.ticks)) =
      some ([], .task, 1) := by
    decide +kernel
  have hsched : ((machine Nat 2).run quiet sleepRun).map
      (fun s => (s.sched.procs 1, s.sched.procs 3, s.sched.current 1)) =
      some (some ⟨.blocked, 1, true⟩, some ⟨.blocked, 1, true⟩, some (.idle 1)) := by
    decide +kernel
  have hsleeps : ((machine Nat 2).run quiet sleepRun).map (fun s => (s.sleeps 1, s.sleeps 3)) =
      some (some (.inl (false, true)), some (.inr 3)) := by
    decide +kernel
  rw [hs, Option.map_some, Option.some.injEq, Prod.mk.injEq] at hdata hsched hsleeps
  rw [Prod.mk.injEq] at hdata hsched
  have hreach := Machine.Reach.run (.init quiet_start) hs
  have hoff : ∀ i, s.sched.current 1 ≠ some (.proc i) := by
    rw [hsched.2.2]
    exact nofun
  have hdone : s.timerDone := by
    unfold State.timerDone
    rw [hdata.2.1]
    exact ⟨nofun, nofun⟩
  obtain ⟨hblock, hsleep⟩ := hsleeps
  unfold State.sleeps at hblock hsleep
  split at hblock
  · rename_i predicate hpc
    have hval := Sum.inl.inj (Option.some.inj hblock)
    have hasleep : s.Asleep 1 (.blockUntil predicate) :=
      ⟨by rw [hpc]; rfl, _, hsched.1, rfl, hoff 1⟩
    split at hsleep
    · cases hsleep
    · rename_i till hpc'
      obtain rfl : till = 3 := Sum.inr.inj (Option.some.inj hsleep)
      have hasleep' : s.Asleep 3 (.msleep 3) := ⟨by rw [hpc']; rfl, _, hsched.2.1, rfl, hoff 3⟩
      obtain ⟨hpredicate, htick⟩ := no_lost_wakeup hreach
      refine ⟨s, hreach, hdata.1, hdone, ⟨predicate, hasleep, congrArg Prod.snd hval, ?_⟩,
        hasleep', ?_⟩
      · exact hpredicate hdata.1 1 predicate hasleep
      · exact htick (by rw [hdata.2.2]; decide) hdone 3 3 hasleep'
    · cases hsleep
  · cases hblock
  · cases hblock

end PugOS.WaitQueue
