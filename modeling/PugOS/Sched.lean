import PugOS.ExitWait
import PugOS.Transition
import Mathlib.Logic.Function.Basic
import Mathlib.Data.List.Nodup

/-! # The scheduler

Any number of CPUs run `cpustate::schedule`, `proc::wake` and the end of process creation;
a task that runs changes its own `state_` in `waiter::prepare` and `waiter::clear`, or when
it ends.  Every read or write of `current_`, `state_`, a run queue or a `runq_lock_` is a
step.  Nothing but `runq_lock_` keeps two CPUs apart: `schedule` first looks at `current_`
and `state_` without it, and so does a task that writes its own state.

Outside the sections that hold a `runq_lock_` every task is at most at one place, and a
runnable one that has been enqueued is at one (`placement`).
-/
namespace PugOS.Sched
open Transition
open ExitWait (ProcState nproc)

/-- A `proc`: the idle task of a CPU, or the one in slot `i` of `ptable`. -/
inductive Task
  | idle (c : Nat)
  | proc (i : Nat)
  deriving DecidableEq, Repr

/-- `enqueued` records that process creation has put it on a run queue.  `cpu_` is not set
before that. -/
structure Proc where
  state : ProcState
  cpu : Nat := 0
  enqueued : Bool := false
  deriving DecidableEq, Repr

/-- What a CPU does next.  A CPU that has not called `schedule` yet is in `run` as well,
with no current task. -/
inductive Phase
  | run
  -- cpustate::schedule
  | entry (yieldingFrom : Option Task)
  | tryCurrent (yieldingFrom : Option Task)
  | lock (yieldingFrom : Option Task)
  | detach (yieldingFrom : Option Task)
  | requeue (p : Task)
  | pop (yieldingFrom : Option Task)
  | unlock (yieldingFrom : Option Task)
  | runIdle (yieldingFrom : Option Task)
  -- proc::wake
  | wakeLock (i : Nat)
  | wakeTest (i : Nat)
  | wakeSet (i : Nat)
  | wakeEnqueue (i : Nat)
  | wakeUnlock (i : Nat)
  -- process_setup, process_fork and sys_clone
  | initUser (i : Nat)
  | place (i : Nat)
  | spawnLock (i : Nat)
  | spawnEnqueue (i : Nat)
  | spawnUnlock (i : Nat)
  deriving DecidableEq, Repr

/-- `ptable`, and of each CPU its `current_`, `runq_`, the CPU that holds its `runq_lock_`,
and whether it has an `idle_task_`. -/
structure State where
  procs : Nat → Option Proc
  current : Nat → Option Task
  runq : Nat → List Task
  runqLock : Nat → Option Nat
  idleTask : Nat → Bool
  phase : Nat → Phase

/-- The `state_` of a task.  That of an idle task is set by `init_kernel` and never changes. -/
def State.stateOf (s : State) : Task → Option ProcState
  | .idle _ => some .runnable
  | .proc i => (s.procs i).map Proc.state

/-- `runq_link_.is_linked()`. -/
def State.linked (s : State) (ncpu : Nat) (p : Task) : Bool :=
  (List.range ncpu).any fun c => p ∈ s.runq c

/-- The CPU goes on at `ph`. -/
def State.goto (s : State) (c : Nat) (ph : Phase) : State :=
  { s with phase := Function.update s.phase c ph }

/-- A process is set. -/
def State.setProc (s : State) (i : Nat) (q : Proc) : State :=
  { s with procs := Function.update s.procs i (some q) }

/-- `runq_lock_` of a CPU is taken or given back. -/
def State.setLock (s : State) (c : Nat) (holder : Option Nat) : State :=
  { s with runqLock := Function.update s.runqLock c holder }

/-- `current_` of a CPU is set. -/
def State.setCurrent (s : State) (c : Nat) (p : Option Task) : State :=
  { s with current := Function.update s.current c p }

/-- `runq_` of a CPU is set. -/
def State.setRunq (s : State) (c : Nat) (q : List Task) : State :=
  { s with runq := Function.update s.runq c q }

section Fields
variable (s : State) (c : Nat) (ph : Phase) (q : Proc) (l : List Task) (p : Option Task) {d : Nat}

@[simp] theorem State.goto_procs : (s.goto c ph).procs = s.procs := rfl
@[simp] theorem State.goto_current : (s.goto c ph).current = s.current := rfl
@[simp] theorem State.goto_runq : (s.goto c ph).runq = s.runq := rfl
@[simp] theorem State.goto_phase : (s.goto c ph).phase c = ph := Function.update_self ..
@[simp] theorem State.setRunq_current : (s.setRunq c l).current = s.current := rfl
@[simp] theorem State.setRunq_runq : (s.setRunq c l).runq c = l := Function.update_self ..
@[simp] theorem State.setCurrent_current : (s.setCurrent c p).current c = p :=
  Function.update_self ..
@[simp] theorem State.setProc_runq : (s.setProc c q).runq = s.runq := rfl
@[simp] theorem State.setProc_procs : (s.setProc c q).procs c = some q := Function.update_self ..

theorem State.setRunq_ne (h : d ≠ c) : (s.setRunq c l).runq d = s.runq d :=
  Function.update_of_ne h _ _
theorem State.setProc_ne (h : d ≠ c) : (s.setProc c q).procs d = s.procs d :=
  Function.update_of_ne h _ _

end Fields

/-- `cpus[c].enqueue(p)`. -/
def State.enqueue (s : State) (ncpu c : Nat) (p : Task) : State :=
  if s.current c ≠ some p ∧ s.linked ncpu p = false then s.setRunq c (s.runq c ++ [p]) else s

/-- `spinlock::lock` as one step: it is taken when it is free. -/
def State.acquire (s : State) (c d : Nat) : Option State :=
  if s.runqLock d = none then some (s.setLock d (some c)) else none

/-- The next step of `schedule` on CPU `c`. -/
def State.scheduleStep (s : State) (ncpu c : Nat) : Phase → Option State
  | .entry yieldingFrom =>
    if s.idleTask c = false then
      some ({ s with idleTask := Function.update s.idleTask c true }.goto c
        (.tryCurrent yieldingFrom))
    else
      some (s.goto c (.tryCurrent
        (if s.current c = some (.idle c) then some (.idle c) else yieldingFrom)))
  | .tryCurrent yieldingFrom =>
    match s.current c with
    | some p =>
      if s.stateOf p = some .runnable ∧ some p ≠ yieldingFrom then some (s.goto c .run)
      else some (s.goto c (.lock yieldingFrom))
    | none => some (s.goto c (.lock yieldingFrom))
  | .lock yieldingFrom => (s.acquire c c).map fun s => s.goto c (.detach yieldingFrom)
  | .detach yieldingFrom =>
    match s.current c with
    | some p => some ((s.setCurrent c none).goto c (.requeue p))
    | none => some (s.goto c (.pop yieldingFrom))
  | .requeue p =>
    some ((if s.stateOf p = some .runnable then s.enqueue ncpu c p else s).goto c (.pop none))
  | .pop yieldingFrom =>
    match s.runq c with
    | [] => some (s.goto c (.unlock yieldingFrom))
    | p :: rest => some (((s.setCurrent c (some p)).setRunq c rest).goto c (.unlock yieldingFrom))
  | .unlock yieldingFrom => some ((s.setLock c none).goto c (.runIdle yieldingFrom))
  | .runIdle yieldingFrom =>
    some ((if s.current c = none then s.setCurrent c (some (.idle c)) else s).goto c
      (.tryCurrent yieldingFrom))
  | _ => none

/-- The next step of `proc::wake` on CPU `c`; `q` is the process to be woken. -/
def State.wakeStep (s : State) (ncpu c : Nat) (q : Proc) : Phase → Option State
  | .wakeLock i => (s.acquire c q.cpu).map fun s => s.goto c (.wakeTest i)
  | .wakeTest i => some (s.goto c (if q.state = .blocked then .wakeSet i else .wakeUnlock i))
  | .wakeSet i => some ((s.setProc i { q with state := .runnable }).goto c (.wakeEnqueue i))
  | .wakeEnqueue i => some ((s.enqueue ncpu q.cpu (.proc i)).goto c (.wakeUnlock i))
  | .wakeUnlock _ => some ((s.setLock q.cpu none).goto c .run)
  | _ => none

/-- The next step of process creation on CPU `c`; `q` is the new process. -/
def State.spawnStep (s : State) (ncpu c : Nat) (q : Proc) : Phase → Option State
  | .initUser i => some ((s.setProc i { q with state := .runnable }).goto c (.place i))
  | .place i => some ((s.setProc i { q with cpu := i % ncpu }).goto c (.spawnLock i))
  | .spawnLock i => (s.acquire c q.cpu).map fun s => s.goto c (.spawnEnqueue i)
  | .spawnEnqueue i =>
    some (((s.enqueue ncpu q.cpu (.proc i)).setProc i { q with enqueued := true }).goto c
      (.spawnUnlock i))
  | .spawnUnlock _ => some ((s.setLock q.cpu none).goto c .run)
  | _ => none

/-- The process that `proc::wake` or process creation works on. -/
def Phase.target : Phase → Option Nat
  | .wakeLock i | .wakeTest i | .wakeSet i | .wakeEnqueue i | .wakeUnlock i | .initUser i | .place i
  | .spawnLock i | .spawnEnqueue i | .spawnUnlock i => some i
  | _ => none

/-- The next step of CPU `c` outside `run`. -/
def State.cpuStep (s : State) (ncpu c : Nat) : Option State :=
  match (s.phase c).target with
  | none => s.scheduleStep ncpu c (s.phase c)
  | some i => do
    let q ← s.procs i
    (s.wakeStep ncpu c q (s.phase c)).or (s.spawnStep ncpu c q (s.phase c))

/-- Where a new process comes from. -/
inductive Creation
  | setup | fork | clone
  deriving DecidableEq, Repr

/-- The `state_` a new process has when its slot is filled, and what is left to do then.
Only `sys_clone` does without `init_user`. -/
def Creation.start (i : Nat) : Creation → ProcState × Phase
  | .setup => (.blank, .initUser i)
  | .fork => (.broken, .initUser i)
  | .clone => (.runnable, .place i)

/-- What a CPU does next.  `wake` and `create` begin a call; a wake-up is only ever meant for
a process that has run, since it comes from its waiter or from one who saw it blocked. -/
inductive Label
  | step (c : Nat)
  /-- The current task yields, or the timer makes it. -/
  | yield (c : Nat)
  | wake (c i : Nat)
  | create (c i : Nat) (how : Creation)
  /-- The current task sets its own state: blocked in `waiter::prepare`, runnable in
  `waiter::clear`, broken when it ends. -/
  | become (c : Nat) (st : ProcState)
  deriving DecidableEq, Repr

/-- The CPU that moves. -/
def Label.cpu : Label → Nat
  | .step c | .yield c | .wake c _ | .create c _ _ | .become c _ => c

/-- `yield`: the task saves its registers and calls `schedule`. -/
def State.yield (s : State) (c : Nat) : State := s.goto c (.entry (s.current c))

/-- `wake`, of a process that has been scheduled before. -/
def State.wake (s : State) (c i : Nat) : Option State :=
  match s.procs i with
  | some q => if q.enqueued then some (s.goto c (.wakeLock i)) else none
  | none => none

/-- A process is made, by `fork`, `clone` or the kernel. -/
def State.create (s : State) (c i : Nat) (how : Creation) : Option State :=
  if 1 ≤ i ∧ i < nproc ∧ s.procs i = none then
    some ((s.setProc i { state := (how.start i).1 }).goto c (how.start i).2)
  else none

/-- The current task sets its state. -/
def State.become (s : State) (c : Nat) (st : ProcState) : Option State :=
  match s.current c with
  | some (.proc i) => (s.procs i).map fun q => s.setProc i { q with state := st }
  | _ => none

/-- What a CPU in `run` may begin. -/
def State.runStep (s : State) : Label → Option State
  | .yield c => some (s.yield c)
  | .wake c i => s.wake c i
  | .create c i how => s.create c i how
  | .become c st => s.become c st
  | .step _ => none

/-- One step of one CPU. -/
def step (ncpu : Nat) (s : State) (a : Label) : Option State :=
  if a.cpu < ncpu then
    if s.phase a.cpu = .run then s.runStep a
    else match a with
      | .step c => s.cpuStep ncpu c
      | _ => none
  else none

/-- Nothing has been created, and no CPU has called `schedule`. -/
def boot : State where
  procs := fun _ => none
  current := fun _ => none
  runq := fun _ => []
  runqLock := fun _ => none
  idleTask := fun _ => false
  phase := fun _ => .run

/-- The CPUs from their boot on, interleaved in any way. -/
def machine (ncpu : Nat) : Machine State Label where
  init s := s = boot
  step := step ncpu

/-! ## What the locks protect -/

/-- The CPU whose `runq_lock_` is held in this phase of CPU `k`. -/
def Phase.holds (s : State) (k : Nat) : Phase → Option Nat
  | .detach _ | .requeue _ | .pop _ | .unlock _ => some k
  | .wakeTest i | .wakeSet i | .wakeEnqueue i | .wakeUnlock i | .spawnEnqueue i | .spawnUnlock i =>
    (s.procs i).map Proc.cpu
  | _ => none

/-- The process that is being created. -/
def Phase.spawns : Phase → Option Nat
  | .initUser i | .place i | .spawnLock i | .spawnEnqueue i => some i
  | _ => none

/-- The process that the CPU is about to put on a queue. -/
def Phase.carries : Phase → Option Nat
  | .requeue (.proc i) | .wakeEnqueue i => some i
  | _ => none

/-- The task belongs to CPU `c`. -/
def State.Lives (s : State) (c : Nat) : Task → Prop
  | .idle d => d = c
  | .proc i => ∃ q, s.procs i = some q ∧ q.cpu = c ∧ q.enqueued = true

/-- What holds when CPU `k` is in this phase. -/
def Phase.At (s : State) (ncpu k : Nat) : Phase → Prop
  | .requeue p => s.current k = none ∧ s.Lives k p ∧ p ∉ s.runq k
  | .pop _ => s.current k = none
  | .unlock _ | .runIdle _ => s.current k = none → .idle k ∉ s.runq k
  | .wakeLock i | .wakeTest i | .wakeUnlock i | .spawnUnlock i =>
    ∃ q, s.procs i = some q ∧ q.enqueued = true
  | .wakeSet i => ∃ q, s.procs i = some q ∧ q.enqueued = true ∧ .proc i ∉ s.runq q.cpu
  | .wakeEnqueue i => ∃ q, s.procs i = some q ∧ q.enqueued = true ∧ .proc i ∉ s.runq q.cpu ∧
    (s.current q.cpu = some (.proc i) ∨ q.state = .runnable)
  | .initUser i => ∃ q, s.procs i = some q ∧ q.enqueued = false
  | .place i => ∃ q, s.procs i = some q ∧ q.enqueued = false ∧ q.state = .runnable
  | .spawnLock i | .spawnEnqueue i =>
    ∃ q, s.procs i = some q ∧ q.enqueued = false ∧ q.state = .runnable ∧ q.cpu = i % ncpu
  | _ => True

/-- Tasks on a run queue are runnable ones of its CPU, and the current task of a CPU is one of
its tasks that is not on its run queue. -/
structure Tidy (s : State) : Prop where
  queued : ∀ c p, p ∈ s.runq c → s.Lives c p ∧ s.stateOf p = some .runnable
  nodup : ∀ c, (s.runq c).Nodup
  current : ∀ c p, s.current c = some p → s.Lives c p ∧ p ∉ s.runq c

/-- A runnable process is current, queued or on its way to the queue. -/
def State.Somewhere (s : State) (c i : Nat) : Prop :=
  s.current c = some (.proc i) ∨ .proc i ∈ s.runq c ∨ s.phase c = .requeue (.proc i) ∨
    ∃ k, s.phase k = .wakeEnqueue i

/-- The invariant: each phase is where its locks and flags say, and a runnable process that is
enqueued is somewhere. -/
structure Inv (ncpu : Nat) (s : State) : Prop where
  tidy : Tidy s
  phases : ∀ k, (s.phase k).At s ncpu k
  locks : ∀ k c, (s.phase k).holds s k = some c → s.runqLock c = some k
  spawners : ∀ j k i, (s.phase j).spawns = some i → (s.phase k).spawns = some i → j = k
  placed : ∀ i q, s.procs i = some q → q.enqueued = true → q.state = .runnable → s.Somewhere q.cpu i

/-! ## What a step of one CPU leaves to the others -/

/-- What a step of CPU `k` may change. -/
structure Moves (k : Nat) (s s' : State) : Prop where
  phase : ∀ j, j ≠ k → s'.phase j = s.phase j
  current : ∀ c, c ≠ k → s'.current c = s.current c
  detached : s'.current k ≠ s.current k → s.runqLock k = some k ∨ s.current k = none
  runq : ∀ c, s.runqLock c ≠ some k → s'.runq c = s.runq c
  idle : ∀ c, c ≠ k → .idle c ∈ s'.runq c → .idle c ∈ s.runq c
  locks : ∀ c j, j ≠ k → s.runqLock c = some j → s'.runqLock c = some j
  old : ∀ i q, s.procs i = some q → q.enqueued = true → ∃ q', s'.procs i = some q' ∧
    q'.cpu = q.cpu ∧ q'.enqueued = true ∧
    (q'.state = q.state ∨ q'.state = .runnable ∨ s.current k = some (.proc i))
  new : ∀ i q, s.procs i = some q → q.enqueued = false → (s.phase k).spawns ≠ some i →
    s'.procs i = some q

variable {ncpu k c i j : Nat} {s s' : State} {p : Task} {q : Proc} {ph : Phase}

theorem Moves.lives (h : Moves k s s') (hl : s.Lives c p) : s'.Lives c p := by
  cases p with
  | idle d => exact hl
  | proc i =>
    obtain ⟨q, hq, hcpu, henq⟩ := hl
    obtain ⟨q', hq', hcpu', henq', -⟩ := h.old i q hq henq
    exact ⟨q', hq', hcpu'.trans hcpu, henq'⟩

/-- What another CPU knows in its phase stays so. -/
theorem Inv.at_other (hi : Inv ncpu s) (h : Moves k s s') (hj : j ≠ k) :
    (s'.phase j).At s' ncpu j := by
  rw [h.phase j hj]
  have hat := hi.phases j
  have hlock := hi.locks j
  -- what is held by `j` is not held by `k`
  have hrunq : ∀ c, (s.phase j).holds s j = some c → s'.runq c = s.runq c := fun c hc =>
    h.runq c (by rw [hlock c hc]; exact fun he => hj (Option.some.inj he))
  have hspawn : ∀ i, (s.phase j).spawns = some i → (s.phase k).spawns ≠ some i :=
    fun i hs hk => hj (hi.spawners j k i hs hk)
  cases hph : s.phase j
  all_goals rw [hph] at hat hrunq hspawn
  case requeue p =>
    obtain ⟨hcur, hlives, hnot⟩ := hat
    exact ⟨(h.current j hj).trans hcur, h.lives hlives, by rwa [hrunq j rfl]⟩
  case pop yieldingFrom => exact (h.current j hj).trans hat
  case unlock yieldingFrom =>
    intro hcur
    rw [hrunq j rfl]
    exact hat ((h.current j hj).symm.trans hcur)
  case runIdle yieldingFrom =>
    exact fun hcur hin => hat ((h.current j hj).symm.trans hcur) (h.idle j hj hin)
  case wakeLock i | wakeTest i | wakeUnlock i | spawnUnlock i =>
    obtain ⟨q, hq, henq⟩ := hat
    obtain ⟨q', hq', -, henq', -⟩ := h.old i q hq henq
    exact ⟨q', hq', henq'⟩
  case wakeSet i =>
    obtain ⟨q, hq, henq, hnot⟩ := hat
    obtain ⟨q', hq', hcpu, henq', -⟩ := h.old i q hq henq
    refine ⟨q', hq', henq', ?_⟩
    rwa [hcpu, hrunq q.cpu (by simp [Phase.holds, hq])]
  case wakeEnqueue i =>
    obtain ⟨q, hq, henq, hnot, hst⟩ := hat
    obtain ⟨q', hq', hcpu, henq', hst'⟩ := h.old i q hq henq
    have hheld : (Phase.wakeEnqueue i).holds s j = some q.cpu := by simp [Phase.holds, hq]
    have hlocked : s.runqLock q.cpu = some j := hlock q.cpu (by rwa [hph])
    refine ⟨q', hq', henq', by rwa [hcpu, hrunq q.cpu hheld], ?_⟩
    rw [hcpu]
    -- the task stays current as long as `j` holds the lock
    have hstay : s.current q.cpu = some (.proc i) → s'.current q.cpu = some (.proc i) := by
      intro hcur
      by_cases hk : q.cpu = k
      · by_contra hne
        rw [← hcur, hk] at hne
        rw [hk] at hlocked hcur
        rcases h.detached hne with hl | hn
        · rw [hlocked] at hl
          exact hj (Option.some.inj hl)
        · rw [hcur] at hn
          cases hn
      · rw [h.current _ hk]
        exact hcur
    rcases hst with hcur | hrun
    · exact .inl (hstay hcur)
    · rcases hst' with he | hr | hcur
      · exact .inr (he.trans hrun)
      · exact .inr hr
      · obtain ⟨q₀, hq₀, hcpu₀, -⟩ := (hi.tidy.current k _ hcur).1
        rw [hq] at hq₀
        cases hq₀
        exact .inl (hstay (by rwa [hcpu₀]))
  case initUser i =>
    obtain ⟨q, hq, henq⟩ := hat
    exact ⟨q, h.new i q hq henq (hspawn i rfl), henq⟩
  case place i | spawnLock i | spawnEnqueue i =>
    obtain ⟨q, hq, henq, hrest⟩ := hat
    exact ⟨q, h.new i q hq henq (hspawn i rfl), henq, hrest⟩
  all_goals trivial

theorem Inv.holds_other (hi : Inv ncpu s) (h : Moves k s s') (hj : j ≠ k)
    (hc : (s'.phase j).holds s' j = some c) : s'.runqLock c = some j := by
  rw [h.phase j hj] at hc
  refine h.locks c j hj (hi.locks j c ?_)
  have hat := hi.phases j
  cases hph : s.phase j
  all_goals rw [hph] at hat hc
  case wakeTest i | wakeSet i | wakeEnqueue i | wakeUnlock i | spawnUnlock i =>
    obtain ⟨q, hq, henq⟩ : ∃ q, s.procs i = some q ∧ q.enqueued = true := by
      obtain ⟨q, hq, henq⟩ := hat
      exact ⟨q, hq, by first | exact henq | exact henq.1⟩
    obtain ⟨q', hq', hcpu, -⟩ := h.old i q hq henq
    simp only [Phase.holds, hq', Option.map_some] at hc
    simpa [Phase.holds, hq, hcpu] using hc
  case spawnEnqueue i =>
    obtain ⟨q, hq, henq, -⟩ := hat
    have hq' := h.new i q hq henq fun hk => hj (hi.spawners j k i (by rw [hph]; rfl) hk)
    simpa [Phase.holds, hq, hq'] using hc
  all_goals exact hc

theorem Inv.spawner (hi : Inv ncpu s) (h : (s.phase j).spawns = some i) : s.procs i ≠ none := by
  have hat := hi.phases j
  cases hph : s.phase j
  all_goals rw [hph] at hat h
  all_goals try cases h
  all_goals
    obtain ⟨q, hq, -⟩ := hat
    rw [hq]
    exact nofun

/-- A step of CPU `k` that keeps the invariant. -/
structure Kept (ncpu k : Nat) (s s' : State) : Prop where
  moves : Moves k s s'
  inv : Inv ncpu s'

/-- The invariant after a step of CPU `k`, from what the step has to show about `k` itself. -/
theorem Inv.moves (hi : Inv ncpu s) (h : Moves k s s') (htidy : Tidy s')
    (hat : (s'.phase k).At s' ncpu k)
    (hlock : ∀ c, (s'.phase k).holds s' k = some c → s'.runqLock c = some k)
    (hspawn : ∀ i, (s'.phase k).spawns = some i → (s.phase k).spawns = some i ∨ s.procs i = none)
    (hplaced : ∀ i q, s'.procs i = some q → q.enqueued = true → q.state = .runnable →
      s'.Somewhere q.cpu i) : Kept ncpu k s s' := by
  -- nobody else creates what `k` creates
  have hone : ∀ j i, j ≠ k → (s'.phase j).spawns = some i → (s'.phase k).spawns ≠ some i := by
    intro j i hj hs hk
    rw [h.phase j hj] at hs
    rcases hspawn i hk with hk | hnone
    · exact hj (hi.spawners j k i hs hk)
    · exact hi.spawner hs hnone
  refine ⟨h, htidy, ?_, ?_, ?_, hplaced⟩
  · intro j
    by_cases hj : j = k
    · rw [hj]
      exact hat
    · exact hi.at_other h hj
  · intro j c hc
    by_cases hj : j = k
    · rw [hj] at hc ⊢
      exact hlock c hc
    · exact hi.holds_other h hj hc
  · intro j l i hj hl
    by_cases hjk : j = k
    · by_cases hlk : l = k
      · rw [hjk, hlk]
      · rw [hjk] at hj
        exact absurd hj (hone l i hlk hl)
    · by_cases hlk : l = k
      · rw [hlk] at hl
        exact absurd hl (hone j i hjk hj)
      · rw [h.phase j hjk] at hj
        rw [h.phase l hlk] at hl
        exact hi.spawners j l i hj hl

/-- A step of `k` that neither drops the process from `k` nor from a queue leaves it where it
is. -/
theorem Moves.somewhere (h : Moves k s s')
    (hcur : s.current k = some (.proc i) → s'.current k = some (.proc i))
    (hrunq : .proc i ∈ s.runq c → .proc i ∈ s'.runq c) (hother : (s.phase k).carries ≠ some i)
    (hs : s.Somewhere c i) : s'.Somewhere c i := by
  rcases hs with hs | hs | hs | ⟨l, hs⟩
  · by_cases hc : c = k
    · rw [hc] at hs ⊢
      exact .inl (hcur hs)
    · exact .inl ((h.current c hc).trans hs)
  · exact .inr (.inl (hrunq hs))
  · have hc : c ≠ k := by
      rintro rfl
      exact hother (by rw [hs]; rfl)
    exact .inr (.inr (.inl ((h.phase c hc).trans hs)))
  · have hl : l ≠ k := by
      rintro rfl
      exact hother (by rw [hs]; rfl)
    exact .inr (.inr (.inr ⟨l, (h.phase l hl).trans hs⟩))

/-! ## The operations of a step -/

section Operations
variable {t : State} {d : Nat} {l : List Task}

theorem Moves.refl (k : Nat) (s : State) : Moves k s s where
  phase _ _ := rfl
  current _ _ := rfl
  detached h := absurd rfl h
  runq _ _ := rfl
  idle _ _ h := h
  locks _ _ _ h := h
  old _ q hq henq := ⟨q, hq, rfl, henq, .inl rfl⟩
  new _ _ hq _ _ := hq

theorem Moves.goto (h : Moves k s t) (ph : Phase) : Moves k s (t.goto k ph) :=
  { h with phase := fun j hj => (Function.update_of_ne hj _ _).trans (h.phase j hj) }

theorem Moves.acquire (hfree : s.runqLock d = none) : Moves k s (s.setLock d (some k)) :=
  { Moves.refl k s with
    locks := by
      intro c j _ hc
      have hne : c ≠ d := by
        rintro rfl
        rw [hfree] at hc
        cases hc
      exact (Function.update_of_ne hne _ _).trans hc }

theorem Moves.release (hheld : s.runqLock d = some k) : Moves k s (s.setLock d none) :=
  { Moves.refl k s with
    locks := by
      intro c j hj hc
      have hne : c ≠ d := by
        rintro rfl
        rw [hheld] at hc
        exact hj (Option.some.inj hc).symm
      exact (Function.update_of_ne hne _ _).trans hc }

theorem Moves.setCurrent (h : s.runqLock k = some k ∨ s.current k = none) (p : Option Task) :
    Moves k s (s.setCurrent k p) :=
  { Moves.refl k s with
    current := fun _ hc => Function.update_of_ne hc _ _
    detached := fun _ => h }

theorem Moves.setRunq (h : Moves k s t) (hheld : s.runqLock d = some k)
    (hidle : d ≠ k → .idle d ∈ l → .idle d ∈ s.runq d) : Moves k s (t.setRunq d l) :=
  { h with
    runq := by
      intro c hc
      have hne : c ≠ d := fun he => hc (he ▸ hheld)
      exact (Function.update_of_ne hne _ _).trans (h.runq c hc)
    idle := by
      intro c hc hin
      by_cases hcd : c = d
      · subst hcd
        exact hidle hc (by simpa [State.setRunq] using hin)
      · exact h.idle c hc (by simpa [State.setRunq, Function.update_of_ne hcd] using hin) }

/-- The process changes its own state, or is made runnable. -/
theorem Moves.setProc_old {q' : Proc} (hq : s.procs i = some q) (henq : q.enqueued = true)
    (hcpu : q'.cpu = q.cpu) (henq' : q'.enqueued = true)
    (hst : q'.state = .runnable ∨ s.current k = some (.proc i)) : Moves k s (s.setProc i q') :=
  { Moves.refl k s with
    old := by
      intro j r hr hrenq
      by_cases hj : j = i
      · subst hj
        rw [hq] at hr
        cases hr
        exact ⟨q', Function.update_self .., hcpu, henq', .inr hst⟩
      · exact ⟨r, (Function.update_of_ne hj _ _).trans hr, rfl, hrenq, .inl rfl⟩
    new := by
      intro j r hr hrenq _
      have hj : j ≠ i := by
        rintro rfl
        rw [hq] at hr
        cases hr
        rw [henq] at hrenq
        cases hrenq
      exact (Function.update_of_ne hj _ _).trans hr }

/-- The creator writes the process that has not been enqueued, or fills an empty slot. -/
theorem Moves.setProc_new {q' : Proc} (h : Moves k s t) (ht : t.procs = s.procs)
    (hq : ∀ q, s.procs i = some q → q.enqueued = false ∧ (s.phase k).spawns = some i) :
    Moves k s (t.setProc i q') :=
  { h with
    old := by
      intro j r hr hrenq
      have hj : j ≠ i := by
        rintro rfl
        rw [(hq r hr).1] at hrenq
        cases hrenq
      refine ⟨r, (Function.update_of_ne hj _ _).trans ?_, rfl, hrenq, .inl rfl⟩
      rw [ht]
      exact hr
    new := by
      intro j r hr _ hsp
      have hj : j ≠ i := by
        rintro rfl
        exact hsp (hq r hr).2
      refine (Function.update_of_ne hj _ _).trans ?_
      rw [ht]
      exact hr }

/-! ### The queues -/

theorem Tidy.goto (h : Tidy s) (ph : Phase) : Tidy (s.goto c ph) := ⟨h.queued, h.nodup, h.current⟩

theorem Tidy.setCurrent_none (h : Tidy s) : Tidy (s.setCurrent c none) := by
  refine ⟨h.queued, h.nodup, ?_⟩
  intro d p hp
  by_cases hd : d = c
  · subst hd
    simp [State.setCurrent] at hp
  · exact h.current d p (by simpa [State.setCurrent, Function.update_of_ne hd] using hp)

theorem Tidy.setCurrent_idle (h : Tidy s) (hnot : .idle c ∉ s.runq c) :
    Tidy (s.setCurrent c (some (.idle c))) := by
  refine ⟨h.queued, h.nodup, ?_⟩
  intro d p hp
  by_cases hd : d = c
  · subst hd
    obtain rfl : .idle d = p := by simpa [State.setCurrent] using hp
    exact ⟨rfl, hnot⟩
  · exact h.current d p (by simpa [State.setCurrent, Function.update_of_ne hd] using hp)

theorem Tidy.push (h : Tidy s) (hlives : s.Lives c p) (hrun : s.stateOf p = some .runnable)
    (hnot : p ∉ s.runq c) (hcur : s.current c ≠ some p) : Tidy (s.setRunq c (s.runq c ++ [p])) := by
  have hself : (s.setRunq c (s.runq c ++ [p])).runq c = s.runq c ++ [p] := Function.update_self ..
  have hother : ∀ d, d ≠ c → (s.setRunq c (s.runq c ++ [p])).runq d = s.runq d :=
    fun d hd => Function.update_of_ne hd _ _
  refine ⟨?_, ?_, ?_⟩
  · intro d r hr
    by_cases hd : d = c
    · subst hd
      rw [hself, List.mem_append, List.mem_singleton] at hr
      rcases hr with hr | rfl
      · exact h.queued d r hr
      · exact ⟨hlives, hrun⟩
    · rw [hother d hd] at hr
      exact h.queued d r hr
  · intro d
    by_cases hd : d = c
    · rw [hd, hself]
      refine List.nodup_append.mpr ⟨h.nodup c, List.nodup_singleton p, ?_⟩
      intro a ha b hb hab
      rw [List.mem_singleton] at hb
      rw [hab, hb] at ha
      exact hnot ha
    · rw [hother d hd]
      exact h.nodup d
  · intro d r hr
    refine ⟨(h.current d r hr).1, ?_⟩
    by_cases hd : d = c
    · subst hd
      rw [hself, List.mem_append, List.mem_singleton]
      rintro (hin | rfl)
      · exact (h.current d r hr).2 hin
      · exact hcur hr
    · rw [hother d hd]
      exact (h.current d r hr).2

theorem Tidy.pop (h : Tidy s) (hq : s.runq c = p :: l) :
    Tidy ((s.setCurrent c (some p)).setRunq c l) := by
  have hself : ((s.setCurrent c (some p)).setRunq c l).runq c = l := Function.update_self ..
  have hother : ∀ d, d ≠ c → ((s.setCurrent c (some p)).setRunq c l).runq d = s.runq d :=
    fun d hd => Function.update_of_ne hd _ _
  have hnodup : p ∉ l ∧ l.Nodup := by
    have := h.nodup c
    rw [hq] at this
    exact List.nodup_cons.mp this
  refine ⟨?_, ?_, ?_⟩
  · intro d r hr
    refine h.queued d r ?_
    by_cases hd : d = c
    · rw [hd, hself] at hr
      rw [hd, hq]
      exact List.mem_cons_of_mem p hr
    · rwa [hother d hd] at hr
  · intro d
    by_cases hd : d = c
    · rw [hd, hself]
      exact hnodup.2
    · rw [hother d hd]
      exact h.nodup d
  · intro d r hr
    by_cases hd : d = c
    · subst hd
      obtain rfl : p = r := by simpa [State.setCurrent, State.setRunq] using hr
      rw [hself]
      exact ⟨(h.queued d p (by rw [hq]; exact List.mem_cons_self)).1, hnodup.1⟩
    · rw [hother d hd]
      exact h.current d r
        (by simpa [State.setCurrent, State.setRunq, Function.update_of_ne hd] using hr)

theorem Tidy.setProc {q' : Proc} (h : Tidy s)
    (hlives : ∀ c, s.Lives c (.proc i) → q'.cpu = c ∧ q'.enqueued = true)
    (hst : ∀ c, .proc i ∈ s.runq c → q'.state = .runnable) : Tidy (s.setProc i q') := by
  have hlives' : ∀ c p, s.Lives c p → (s.setProc i q').Lives c p := by
    intro c p hp
    cases p with
    | idle d => exact hp
    | proc j =>
      by_cases hj : j = i
      · subst hj
        exact ⟨q', Function.update_self .., hlives c hp⟩
      · obtain ⟨q, hq, hrest⟩ := hp
        exact ⟨q, (Function.update_of_ne hj _ _).trans hq, hrest⟩
  refine ⟨?_, h.nodup, fun c p hp => ⟨hlives' c p (h.current c p hp).1, (h.current c p hp).2⟩⟩
  intro c p hp
  obtain ⟨hl, hrun⟩ := h.queued c p hp
  refine ⟨hlives' c p hl, ?_⟩
  cases p with
  | idle d => rfl
  | proc j =>
    by_cases hj : j = i
    · subst hj
      simp [State.stateOf, State.setProc, hst c hp]
    · simpa [State.stateOf, State.setProc, Function.update_of_ne hj] using hrun

theorem State.Lives.proc (hq : s.procs i = some q) (henq : q.enqueued = true) :
    s.Lives q.cpu (.proc i) :=
  ⟨q, hq, rfl, henq⟩

theorem State.Lives.unique (h : s.Lives c p) (h' : s.Lives d p) : c = d := by
  cases p with
  | idle e => exact h.symm.trans h'
  | proc i =>
    obtain ⟨q, hq, hcpu, -⟩ := h
    obtain ⟨q', hq', hcpu', -⟩ := h'
    rw [hq] at hq'
    cases hq'
    exact hcpu.symm.trans hcpu'

/-- A task is on no run queue if it is not on the one of its CPU. -/
theorem Tidy.not_linked (h : Tidy s) (hlives : s.Lives c p) (hnot : p ∉ s.runq c) (ncpu : Nat) :
    s.linked ncpu p = false := by
  by_contra hlinked
  rw [Bool.not_eq_false, State.linked, List.any_eq_true] at hlinked
  obtain ⟨d, -, hd⟩ := hlinked
  have hin : p ∈ s.runq d := of_decide_eq_true hd
  rw [(h.queued d p hin).1.unique hlives] at hin
  exact hnot hin

end Operations

/-! ## Every step keeps the invariant -/

/-- The process is where it was if the step does not move it. -/
theorem Inv.kept (hi : Inv ncpu s) (h : Moves k s s') (hprocs : s'.procs i = s.procs i)
    (hcur : s.current k = some (.proc i) → s'.current k = some (.proc i))
    (hrunq : ∀ c, .proc i ∈ s.runq c → .proc i ∈ s'.runq c) (hother : (s.phase k).carries ≠ some i)
    (hq : s'.procs i = some q) (henq : q.enqueued = true)
    (hrun : q.state = .runnable) : s'.Somewhere q.cpu i := by
  rw [hprocs] at hq
  exact h.somewhere hcur (hrunq q.cpu) hother (hi.placed i q hq henq hrun)

theorem Phase.At.congr (h : ph.At s ncpu k) (hprocs : s'.procs = s.procs)
    (hcur : s'.current = s.current) (hrunq : s'.runq = s.runq) : ph.At s' ncpu k := by
  obtain ⟨procs, current, runq, runqLock, idleTask, phase⟩ := s'
  dsimp only at hprocs hcur hrunq
  subst hprocs hcur hrunq
  cases ph
  all_goals exact h

theorem Phase.holds_congr (ph : Phase) (hprocs : s'.procs = s.procs) :
    ph.holds s' k = ph.holds s k := by
  cases ph
  all_goals simp only [Phase.holds, hprocs]

/-- A step that only changes the phase of `k`, or a lock. -/
theorem Inv.still (hi : Inv ncpu s) (h : Moves k s s') (hprocs : s'.procs = s.procs)
    (hcur : s'.current = s.current) (hrunq : s'.runq = s.runq)
    (hquiet : (s.phase k).carries = none) (hat : (s'.phase k).At s ncpu k)
    (hlock : ∀ c, (s'.phase k).holds s k = some c → s'.runqLock c = some k)
    (hspawn : ∀ i, (s'.phase k).spawns = some i → (s.phase k).spawns = some i) :
    Kept ncpu k s s' := by
  have htidy : Tidy s' := by
    obtain ⟨procs, current, runq, runqLock, idleTask, phase⟩ := s'
    dsimp only at hprocs hcur hrunq
    subst hprocs hcur hrunq
    exact ⟨hi.tidy.queued, hi.tidy.nodup, hi.tidy.current⟩
  refine hi.moves h htidy (hat.congr hprocs hcur hrunq) ?_ (fun i hs => .inl (hspawn i hs)) ?_
  · intro c hc
    rw [Phase.holds_congr _ hprocs] at hc
    exact hlock c hc
  · intro i q hq henq hrun
    refine hi.kept h (congrFun hprocs i) ?_ ?_ (by rw [hquiet]; exact nofun) hq henq hrun
    · rw [hcur]
      exact id
    · rw [hrunq]
      exact fun _ => id

/-- A step that takes no lock, releases none and goes to a phase that needs no more. -/
theorem Inv.goto (hi : Inv ncpu s) (hquiet : (s.phase k).carries = none)
    (hat : ph.At s ncpu k)
    (hlock : ∀ c, ph.holds s k = some c → (s.phase k).holds s k = some c)
    (hspawn : ∀ i, ph.spawns = some i → (s.phase k).spawns = some i) :
    Kept ncpu k s (s.goto k ph) := by
  refine hi.still ((Moves.refl k s).goto ph) rfl rfl rfl hquiet ?_ ?_ ?_
  · rwa [State.goto_phase]
  · intro c hc
    rw [State.goto_phase] at hc
    exact hi.locks k c (hlock c hc)
  · intro i hs
    rw [State.goto_phase] at hs
    exact hspawn i hs

theorem Inv.acquire {d : Nat} (hi : Inv ncpu s)
    (h : (s.acquire k d).map (fun s => s.goto k ph) = some s') (hquiet : (s.phase k).carries = none)
    (hat : ph.At s ncpu k)
    (hlock : ∀ c, ph.holds s k = some c → c = d)
    (hspawn : ∀ i, ph.spawns = some i → (s.phase k).spawns = some i) : Kept ncpu k s s' := by
  unfold State.acquire at h
  split at h
  · rename_i hfree
    cases h
    refine hi.still ((Moves.acquire hfree).goto ph) rfl rfl rfl hquiet ?_ ?_ ?_
    · rwa [State.goto_phase]
    · intro c hc
      rw [State.goto_phase] at hc
      rw [hlock c hc]
      exact Function.update_self ..
    · intro i hs
      rw [State.goto_phase] at hs
      exact hspawn i hs
  · cases h

theorem Inv.release {d : Nat} (hi : Inv ncpu s) (hquiet : (s.phase k).carries = none)
    (hheld : (s.phase k).holds s k = some d)
    (hat : ph.At s ncpu k) (hlock : ph.holds s k = none) (hspawn : ph.spawns = none) :
    Kept ncpu k s ((s.setLock d none).goto k ph) := by
  refine hi.still ((Moves.release (hi.locks k d hheld)).goto ph) rfl rfl rfl hquiet ?_ ?_ ?_
  · rwa [State.goto_phase]
  · intro c hc
    rw [State.goto_phase, hlock] at hc
    cases hc
  · intro i hs
    rw [State.goto_phase, hspawn] at hs
    cases hs

theorem Inv.detach {yieldingFrom : Option Task} (hi : Inv ncpu s)
    (hph : s.phase k = .detach yieldingFrom) (hcur : s.current k = some p) :
    Kept ncpu k s ((s.setCurrent k none).goto k (.requeue p)) := by
  have hlock : s.runqLock k = some k := hi.locks k k (by rw [hph]; rfl)
  obtain ⟨hlives, hnot⟩ := hi.tidy.current k p hcur
  have hm : Moves k s ((s.setCurrent k none).goto k (.requeue p)) :=
    (Moves.setCurrent (.inl hlock) none).goto _
  refine hi.moves hm (hi.tidy.setCurrent_none.goto _) ?_ ?_ ?_ ?_
  · rw [State.goto_phase]
    exact ⟨Function.update_self .., hlives, hnot⟩
  · intro c hc
    rw [State.goto_phase] at hc
    cases hc
    exact hlock
  · intro i hs
    rw [State.goto_phase] at hs
    cases hs
  · intro i q hq henq hrun
    by_cases hp : p = .proc i
    · -- the task that was current is to be put back
      subst hp
      rw [(State.Lives.proc (s := s) hq henq).unique hlives]
      exact .inr (.inr (.inl (State.goto_phase ..)))
    · refine hi.kept hm rfl ?_ (fun _ => id) (by rw [hph]; exact nofun) hq henq hrun
      intro hc
      rw [hcur] at hc
      exact absurd (Option.some.inj hc) hp

theorem Inv.requeue (hi : Inv ncpu s) (hph : s.phase k = .requeue p) :
    Kept ncpu k s ((if s.stateOf p = some .runnable then s.enqueue ncpu k p else s).goto k
      (.pop none)) := by
  have hlock : s.runqLock k = some k := hi.locks k k (by rw [hph]; rfl)
  obtain ⟨hcur, hlives, hnot⟩ : s.current k = none ∧ s.Lives k p ∧ p ∉ s.runq k := by
    have := hi.phases k
    rwa [hph] at this
  have hother : ∀ i, p ≠ .proc i → (s.phase k).carries ≠ some i := by
    intro i hp
    rw [hph]
    cases p with
    | idle c => exact nofun
    | proc j => exact fun he => hp (congrArg Task.proc (Option.some.inj he))
  split
  · rename_i hrunnable
    have henqueue : s.enqueue ncpu k p = s.setRunq k (s.runq k ++ [p]) :=
      if_pos ⟨by rw [hcur]; exact nofun, hi.tidy.not_linked hlives hnot ncpu⟩
    rw [henqueue]
    have hm : Moves k s ((s.setRunq k (s.runq k ++ [p])).goto k (.pop none)) :=
      ((Moves.refl k s).setRunq hlock fun hne => absurd rfl hne).goto _
    have htidy := hi.tidy.push hlives hrunnable hnot (by rw [hcur]; exact nofun)
    refine hi.moves hm (htidy.goto _) ?_ ?_ ?_ ?_
    · rw [State.goto_phase]
      exact hcur
    · intro c hc
      rw [State.goto_phase] at hc
      cases hc
      exact hlock
    · intro i hs
      rw [State.goto_phase] at hs
      cases hs
    · intro i q hq henq hrun
      have hqueue : ((s.setRunq k (s.runq k ++ [p])).goto k (.pop none)).runq k = s.runq k ++ [p] :=
        Function.update_self ..
      by_cases hp : p = .proc i
      · rw [(State.Lives.proc (s := s) hq henq).unique (hp ▸ hlives)]
        refine .inr (.inl ?_)
        rw [hqueue, hp]
        exact List.mem_append_right _ (List.mem_singleton_self _)
      · refine hi.kept hm rfl id ?_ (hother i hp) hq henq hrun
        intro c hin
        by_cases hc : c = k
        · rw [hc] at hin ⊢
          rw [hqueue]
          exact List.mem_append_left _ hin
        · rwa [State.goto_runq, State.setRunq_ne _ _ _ hc]
  · rename_i hrunnable
    have hm : Moves k s (s.goto k (.pop none)) := (Moves.refl k s).goto _
    refine hi.moves hm (hi.tidy.goto _) ?_ ?_ ?_ ?_
    · rw [State.goto_phase]
      exact hcur
    · intro c hc
      rw [State.goto_phase] at hc
      cases hc
      exact hlock
    · intro i hs
      rw [State.goto_phase] at hs
      cases hs
    · intro i q hq henq hrun
      have hp : p ≠ .proc i := by
        rintro rfl
        refine hrunnable ?_
        have hq : s.procs i = some q := hq
        simp [State.stateOf, hq, hrun]
      exact hi.kept hm rfl id (fun _ => id) (hother i hp) hq henq hrun

theorem Inv.pop {yieldingFrom : Option Task} {l : List Task} (hi : Inv ncpu s)
    (hph : s.phase k = .pop yieldingFrom) (hqueue : s.runq k = p :: l) :
    Kept ncpu k s (((s.setCurrent k (some p)).setRunq k l).goto k (.unlock yieldingFrom)) := by
  have hlock : s.runqLock k = some k := hi.locks k k (by rw [hph]; rfl)
  have hcur : s.current k = none := by
    have := hi.phases k
    rwa [hph] at this
  have hm : Moves k s (((s.setCurrent k (some p)).setRunq k l).goto k (.unlock yieldingFrom)) :=
    ((Moves.setCurrent (.inl hlock) _).setRunq hlock fun hne => absurd rfl hne).goto _
  refine hi.moves hm ((hi.tidy.pop hqueue).goto _) ?_ ?_ ?_ ?_
  · rw [State.goto_phase]
    intro hnone
    rw [State.goto_current, State.setRunq_current, State.setCurrent_current] at hnone
    cases hnone
  · intro c hc
    rw [State.goto_phase] at hc
    cases hc
    exact hlock
  · intro i hs
    rw [State.goto_phase] at hs
    cases hs
  · intro i q hq henq hrun
    have hq : s.procs i = some q := hq
    have hlives := State.Lives.proc hq henq
    rcases hi.placed i q hq henq hrun with hs | hs | hs | ⟨j, hs⟩
    · -- nothing is current when the queue is popped
      obtain rfl | hne := eq_or_ne q.cpu k
      · rw [hcur] at hs
        cases hs
      · exact .inl ((Function.update_of_ne hne _ _).trans hs)
    · obtain hk | hne := eq_or_ne q.cpu k
      · rw [hk, hqueue] at hs
        rw [hk]
        rcases List.mem_cons.mp hs with rfl | hs
        · exact .inl (Function.update_self ..)
        · exact .inr (.inl (by rwa [State.goto_runq, State.setRunq_runq]))
      · exact .inr (.inl (by rwa [State.goto_runq, State.setRunq_ne _ _ _ hne]))
    · have hne : q.cpu ≠ k := by
        rintro hk
        rw [hk, hph] at hs
        cases hs
      exact .inr (.inr (.inl ((hm.phase _ hne).trans hs)))
    · have hne : j ≠ k := by
        rintro rfl
        rw [hph] at hs
        cases hs
      exact .inr (.inr (.inr ⟨j, (hm.phase _ hne).trans hs⟩))

theorem Inv.runIdle {yieldingFrom : Option Task} (hi : Inv ncpu s)
    (hph : s.phase k = .runIdle yieldingFrom) :
    Kept ncpu k s ((if s.current k = none then s.setCurrent k (some (.idle k)) else s).goto k
      (.tryCurrent yieldingFrom)) := by
  have hquiet : (s.phase k).carries = none := by
    rw [hph]
    rfl
  split
  · rename_i hcur
    have hnot : .idle k ∉ s.runq k := by
      have := hi.phases k
      rw [hph] at this
      exact this hcur
    have hm : Moves k s ((s.setCurrent k (some (.idle k))).goto k (.tryCurrent yieldingFrom)) :=
      (Moves.setCurrent (.inr hcur) _).goto _
    refine hi.moves hm ((hi.tidy.setCurrent_idle hnot).goto _) ?_ ?_ ?_ ?_
    · rw [State.goto_phase]
      trivial
    · intro c hc
      rw [State.goto_phase] at hc
      cases hc
    · intro i hs
      rw [State.goto_phase] at hs
      cases hs
    · intro i q hq henq hrun
      refine hi.kept hm rfl ?_ (fun _ => id) (by rw [hquiet]; exact nofun) hq henq hrun
      rw [hcur]
      exact nofun
  · exact hi.goto hquiet trivial nofun nofun

/-- A step that writes one process. -/
theorem Inv.write {q' : Proc} (hi : Inv ncpu s) (hquiet : (s.phase k).carries = none)
    (hm : Moves k s (s.setProc i q'))
    (htidy : Tidy (s.setProc i q')) (hat : ph.At (s.setProc i q') ncpu k)
    (hlock : ∀ c, ph.holds (s.setProc i q') k = some c → s.runqLock c = some k)
    (hspawn : ∀ i, ph.spawns = some i → (s.phase k).spawns = some i ∨ s.procs i = none)
    (hself : q'.enqueued = true → q'.state = .runnable →
      ph = .wakeEnqueue i ∨ s.current q'.cpu = some (.proc i)) :
    Kept ncpu k s ((s.setProc i q').goto k ph) := by
  refine hi.moves (hm.goto ph) (htidy.goto ph) ?_ ?_ ?_ ?_
  · rw [State.goto_phase]
    exact hat.congr rfl rfl rfl
  · intro c hc
    rw [State.goto_phase, Phase.holds_congr ph (State.goto_procs ..)] at hc
    exact hlock c hc
  · intro j hs
    rw [State.goto_phase] at hs
    exact hspawn j hs
  · intro j r hr henq hrun
    by_cases hj : j = i
    · subst hj
      rw [State.goto_procs, State.setProc_procs] at hr
      cases hr
      rcases hself henq hrun with rfl | hcur
      · exact .inr (.inr (.inr ⟨k, State.goto_phase ..⟩))
      · exact .inl hcur
    · exact hi.kept (hm.goto ph) (State.setProc_ne _ _ _ hj) id (fun _ => id)
        (by rw [hquiet]; exact nofun) hr henq hrun

/-- A process that has not been enqueued is nowhere yet. -/
theorem Tidy.setProc_new {q' : Proc} (h : Tidy s)
    (hq : ∀ q, s.procs i = some q → q.enqueued = false) : Tidy (s.setProc i q') := by
  have hnot : ∀ c, ¬ s.Lives c (.proc i) := by
    rintro c ⟨q, hq', -, henq⟩
    rw [hq q hq'] at henq
    cases henq
  exact h.setProc (fun c hl => absurd hl (hnot c))
    (fun c hin => absurd (h.queued c _ hin).1 (hnot c))

theorem Inv.wakeSet (hi : Inv ncpu s) (hph : s.phase k = .wakeSet i) (hq : s.procs i = some q) :
    Kept ncpu k s ((s.setProc i { q with state := .runnable }).goto k (.wakeEnqueue i)) := by
  obtain ⟨henq, hnot⟩ : q.enqueued = true ∧ .proc i ∉ s.runq q.cpu := by
    have := hi.phases k
    rw [hph] at this
    obtain ⟨q', hq', hrest⟩ := this
    rw [hq] at hq'
    cases hq'
    exact hrest
  have hlock : s.runqLock q.cpu = some k := hi.locks k q.cpu (by rw [hph]; simp [Phase.holds, hq])
  refine hi.write (by rw [hph]; rfl)
    (Moves.setProc_old hq henq rfl henq (.inl rfl)) (hi.tidy.setProc ?_ fun _ _ => rfl)
    ⟨_, State.setProc_procs .., henq, hnot, .inr rfl⟩ ?_ nofun (fun _ _ => .inl rfl)
  · intro c hl
    exact ⟨(State.Lives.proc hq henq).unique hl, henq⟩
  · intro c hc
    obtain rfl : q.cpu = c := by simpa [Phase.holds] using hc
    exact hlock

/-- A CPU that holds the lock of the queue pushes a process on it. -/
theorem Moves.push (hlock : s.runqLock c = some k) :
    Moves k s (s.setRunq c (s.runq c ++ [.proc i])) := by
  refine (Moves.refl k s).setRunq hlock ?_
  intro _ hin
  rw [List.mem_append, List.mem_singleton] at hin
  exact hin.resolve_right nofun

theorem State.mem_push {r : Task} {d : Nat} (h : r ∈ s.runq d) :
    r ∈ (s.setRunq c (s.runq c ++ [p])).runq d := by
  by_cases hd : d = c
  · subst hd
    rw [State.setRunq_runq]
    exact List.mem_append_left _ h
  · rwa [State.setRunq_ne _ _ _ hd]

theorem Inv.wakeEnqueue (hi : Inv ncpu s) (hph : s.phase k = .wakeEnqueue i)
    (hq : s.procs i = some q) :
    Kept ncpu k s ((s.enqueue ncpu q.cpu (.proc i)).goto k (.wakeUnlock i)) := by
  obtain ⟨henq, hnot, hst⟩ : q.enqueued = true ∧ .proc i ∉ s.runq q.cpu ∧
      (s.current q.cpu = some (.proc i) ∨ q.state = .runnable) := by
    have := hi.phases k
    rw [hph] at this
    obtain ⟨q', hq', hrest⟩ := this
    rw [hq] at hq'
    cases hq'
    exact hrest
  have hheld : (s.phase k).holds s k = some q.cpu := by
    rw [hph]
    simp [Phase.holds, hq]
  have hlock := hi.locks k q.cpu hheld
  have hlives := State.Lives.proc hq henq
  have hother : ∀ j, j ≠ i → (s.phase k).carries ≠ some j := by
    intro j hj he
    rw [hph] at he
    exact hj (Option.some.inj he).symm
  have hlocks : ∀ c, (Phase.wakeUnlock i).holds s k = some c → s.runqLock c = some k := by
    intro c hc
    obtain rfl : q.cpu = c := by simpa [Phase.holds, hq] using hc
    exact hlock
  by_cases hcur : s.current q.cpu = some (.proc i)
  · -- it has not been dropped from its CPU yet
    have henqueue : s.enqueue ncpu q.cpu (.proc i) = s := if_neg fun h => h.1 hcur
    rw [henqueue]
    have hm := (Moves.refl k s).goto (.wakeUnlock i)
    refine hi.moves hm (hi.tidy.goto _) ?_ ?_ ?_ ?_
    · rw [State.goto_phase]
      exact ⟨q, hq, henq⟩
    · intro c hc
      rw [State.goto_phase, Phase.holds_congr _ (State.goto_procs ..)] at hc
      exact hlocks c hc
    · intro j hs
      rw [State.goto_phase] at hs
      cases hs
    · intro j r hr hrenq hrun
      by_cases hj : j = i
      · subst hj
        rw [State.goto_procs, hq] at hr
        cases hr
        exact .inl hcur
      · exact hi.kept hm rfl id (fun _ => id) (hother j hj) hr hrenq hrun
  · have hrun := hst.resolve_left hcur
    have henqueue : s.enqueue ncpu q.cpu (.proc i) = s.setRunq q.cpu (s.runq q.cpu ++ [.proc i]) :=
      if_pos ⟨hcur, hi.tidy.not_linked hlives hnot ncpu⟩
    rw [henqueue]
    have hm := (Moves.push (i := i) hlock).goto (.wakeUnlock i)
    have htidy := hi.tidy.push hlives (by simp [State.stateOf, hq, hrun]) hnot hcur
    refine hi.moves hm (htidy.goto _) ?_ ?_ ?_ ?_
    · rw [State.goto_phase]
      exact ⟨q, hq, henq⟩
    · intro c hc
      rw [State.goto_phase] at hc
      exact hlocks c hc
    · intro j hs
      rw [State.goto_phase] at hs
      cases hs
    · intro j r hr hrenq hrun
      by_cases hj : j = i
      · subst hj
        have hr : s.procs j = some r := hr
        rw [hq] at hr
        cases hr
        refine .inr (.inl ?_)
        rw [State.goto_runq, State.setRunq_runq]
        exact List.mem_append_right _ (List.mem_singleton_self _)
      · exact hi.kept hm rfl id (fun _ => State.mem_push) (hother j hj) hr hrenq hrun

theorem Inv.spawnEnqueue (hi : Inv ncpu s) (hph : s.phase k = .spawnEnqueue i)
    (hq : s.procs i = some q) :
    Kept ncpu k s (((s.enqueue ncpu q.cpu (.proc i)).setProc i { q with enqueued := true }).goto k
      (.spawnUnlock i)) := by
  obtain ⟨henq, hrun⟩ : q.enqueued = false ∧ q.state = .runnable := by
    have := hi.phases k
    rw [hph] at this
    obtain ⟨q', hq', henq, hrun, -⟩ := this
    rw [hq] at hq'
    cases hq'
    exact ⟨henq, hrun⟩
  have hlock : s.runqLock q.cpu = some k := hi.locks k q.cpu (by rw [hph]; simp [Phase.holds, hq])
  have hnew : ∀ r, s.procs i = some r → r.enqueued = false ∧ (s.phase k).spawns = some i := by
    intro r hr
    rw [hq] at hr
    cases hr
    exact ⟨henq, by rw [hph]; rfl⟩
  have hnot : ∀ c, ¬ s.Lives c (.proc i) := by
    rintro c ⟨r, hr, -, hrenq⟩
    rw [(hnew r hr).1] at hrenq
    cases hrenq
  have hnotin : ∀ c, .proc i ∉ s.runq c := fun c hin => hnot c (hi.tidy.queued c _ hin).1
  have hcur : s.current q.cpu ≠ some (.proc i) := fun hc => hnot _ (hi.tidy.current _ _ hc).1
  have hlinked : s.linked ncpu (.proc i) = false := by
    simp [State.linked, hnotin]
  have henqueue : s.enqueue ncpu q.cpu (.proc i) = s.setRunq q.cpu (s.runq q.cpu ++ [.proc i]) :=
    if_pos ⟨hcur, hlinked⟩
  rw [henqueue]
  have hm : Moves k s (((s.setRunq q.cpu (s.runq q.cpu ++ [.proc i])).setProc i
      { q with enqueued := true }).goto k (.spawnUnlock i)) :=
    ((Moves.push hlock).setProc_new rfl hnew).goto _
  -- once the process counts as enqueued it is pushed as any other
  have htidy :
      Tidy ((s.setProc i { q with enqueued := true }).setRunq q.cpu (s.runq q.cpu ++ [.proc i])) :=
    (hi.tidy.setProc_new fun r hr => (hnew r hr).1).push ⟨_, State.setProc_procs .., rfl, rfl⟩
      (by simp [State.stateOf, hrun]) (hnotin _) hcur
  refine hi.moves hm ⟨htidy.queued, htidy.nodup, htidy.current⟩ ?_ ?_ ?_ ?_
  · rw [State.goto_phase]
    exact ⟨_, State.setProc_procs .., rfl⟩
  · intro c hc
    rw [State.goto_phase] at hc
    obtain rfl : q.cpu = c := by simpa [Phase.holds] using hc
    exact hlock
  · intro j hs
    rw [State.goto_phase] at hs
    cases hs
  · intro j r hr hrenq hrrun
    by_cases hj : j = i
    · subst hj
      rw [State.goto_procs, State.setProc_procs] at hr
      cases hr
      refine .inr (.inl ?_)
      rw [State.goto_runq, State.setProc_runq, State.setRunq_runq]
      exact List.mem_append_right _ (List.mem_singleton_self _)
    · exact hi.kept hm (State.setProc_ne _ _ _ hj) id (fun _ => State.mem_push)
        (by rw [hph]; exact nofun) hr hrenq hrrun

theorem Inv.initUser (hi : Inv ncpu s) (hph : s.phase k = .initUser i) (hq : s.procs i = some q) :
    Kept ncpu k s ((s.setProc i { q with state := .runnable }).goto k (.place i)) := by
  have hnew : ∀ r, s.procs i = some r → r.enqueued = false ∧ (s.phase k).spawns = some i := by
    intro r hr
    have := hi.phases k
    rw [hph] at this
    obtain ⟨q', hq', henq⟩ := this
    rw [hr] at hq'
    cases hq'
    exact ⟨henq, by rw [hph]; rfl⟩
  refine hi.write (by rw [hph]; rfl)
    ((Moves.refl k s).setProc_new rfl hnew) (hi.tidy.setProc_new fun r hr => (hnew r hr).1)
    ⟨_, State.setProc_procs .., (hnew q hq).1, rfl⟩ nofun ?_ ?_
  · intro j hj
    rw [hph]
    exact .inl hj
  · intro henq
    rw [(hnew q hq).1] at henq
    cases henq

theorem Inv.place (hi : Inv ncpu s) (hph : s.phase k = .place i) (hq : s.procs i = some q) :
    Kept ncpu k s ((s.setProc i { q with cpu := i % ncpu }).goto k (.spawnLock i)) := by
  obtain ⟨henq, hrun⟩ : q.enqueued = false ∧ q.state = .runnable := by
    have := hi.phases k
    rw [hph] at this
    obtain ⟨q', hq', hrest⟩ := this
    rw [hq] at hq'
    cases hq'
    exact hrest
  have hnew : ∀ r, s.procs i = some r → r.enqueued = false ∧ (s.phase k).spawns = some i := by
    intro r hr
    rw [hq] at hr
    cases hr
    exact ⟨henq, by rw [hph]; rfl⟩
  refine hi.write (by rw [hph]; rfl)
    ((Moves.refl k s).setProc_new rfl hnew) (hi.tidy.setProc_new fun r hr => (hnew r hr).1)
    ⟨_, State.setProc_procs .., henq, hrun, rfl⟩ nofun ?_ ?_
  · intro j hj
    rw [hph]
    exact .inl hj
  · intro henq'
    rw [henq] at henq'
    cases henq'

theorem Inv.create {how : Creation} (hi : Inv ncpu s) (hph : s.phase k = .run)
    (hnone : s.procs i = none) :
    Kept ncpu k s ((s.setProc i { state := (how.start i).1 }).goto k (how.start i).2) := by
  have hnew : ∀ r, s.procs i = some r → r.enqueued = false ∧ (s.phase k).spawns = some i := by
    intro r hr
    rw [hnone] at hr
    cases hr
  refine hi.write (by rw [hph]; rfl)
    ((Moves.refl k s).setProc_new rfl hnew) (hi.tidy.setProc_new fun r hr => (hnew r hr).1) ?_ ?_
    ?_ nofun
  · cases how with
    | setup | fork => exact ⟨_, State.setProc_procs .., rfl⟩
    | clone => exact ⟨_, State.setProc_procs .., rfl, rfl⟩
  · cases how
    all_goals exact nofun
  · intro j hj
    cases how
    all_goals
      cases hj
      exact .inr hnone

theorem State.goto_self (s : State) (h : s.phase k = ph) : s.goto k ph = s := by
  rw [State.goto, ← h, Function.update_eq_self]

/-- The current task changes its own state. -/
theorem Inv.become {st : ProcState} (hi : Inv ncpu s) (hph : s.phase k = .run)
    (hcur : s.current k = some (.proc i)) (hq : s.procs i = some q) :
    Kept ncpu k s (s.setProc i { q with state := st }) := by
  obtain ⟨⟨r, hr, hcpu, henq⟩, hnot⟩ := hi.tidy.current k _ hcur
  rw [hq] at hr
  cases hr
  have hlives := State.Lives.proc hq henq
  have hrun : (s.setProc i { q with state := st }).phase k = .run := hph
  rw [← State.goto_self _ hrun]
  refine hi.write (by rw [hph]; rfl)
    (Moves.setProc_old hq henq rfl henq (.inr hcur)) (hi.tidy.setProc ?_ ?_) trivial nofun nofun ?_
  · exact fun c hl => ⟨hlives.unique hl, henq⟩
  · intro c hin
    rw [(hi.tidy.queued c _ hin).1.unique hlives, hcpu] at hin
    exact absurd hin hnot
  · intro _ _
    rw [hcpu]
    exact .inr hcur

theorem Inv.scheduleStep (hi : Inv ncpu s) (hph : s.phase k = ph)
    (h : s.scheduleStep ncpu k ph = some s') : Kept ncpu k s s' := by
  cases ph
  case entry yieldingFrom =>
    simp only [State.scheduleStep] at h
    split at h
    · cases h
      have hm : Moves k s { s with idleTask := Function.update s.idleTask k true } :=
        { Moves.refl k s with }
      refine hi.still (hm.goto (.tryCurrent yieldingFrom)) rfl rfl rfl (by rw [hph]; rfl) ?_ ?_ ?_
      all_goals rw [State.goto_phase]
      · trivial
      · exact nofun
      · exact nofun
    · cases h
      exact hi.goto (by rw [hph]; rfl) trivial nofun nofun
  case tryCurrent yieldingFrom =>
    have hgo : ∀ ph' : Phase, ph' = .run ∨ ph' = .lock yieldingFrom →
        Kept ncpu k s (s.goto k ph') := by
      rintro ph' (rfl | rfl)
      · exact hi.goto (by rw [hph]; rfl) trivial nofun nofun
      · exact hi.goto (by rw [hph]; rfl) trivial nofun nofun
    simp only [State.scheduleStep] at h
    split at h
    · split at h
      · cases h
        exact hgo _ (.inl rfl)
      · cases h
        exact hgo _ (.inr rfl)
    · cases h
      exact hgo _ (.inr rfl)
  case lock yieldingFrom =>
    have h : (s.acquire k k).map (fun s => s.goto k (.detach yieldingFrom)) = some s' := h
    exact hi.acquire h (by rw [hph]; rfl) trivial
      (fun c hc => (Option.some.inj hc).symm) nofun
  case detach yieldingFrom =>
    simp only [State.scheduleStep] at h
    split at h
    · rename_i p hp
      cases h
      exact hi.detach hph hp
    · rename_i hp
      cases h
      exact hi.goto (by rw [hph]; rfl) hp (by rw [hph]; exact fun _ => id)
        nofun
  case requeue p =>
    cases h
    exact hi.requeue hph
  case pop yieldingFrom =>
    simp only [State.scheduleStep] at h
    split at h
    · rename_i hempty
      cases h
      refine hi.goto (by rw [hph]; rfl) ?_ (by rw [hph]; exact fun _ => id)
        nofun
      intro _
      rw [hempty]
      exact List.not_mem_nil
    · rename_i p l hqueue
      cases h
      exact hi.pop hph hqueue
  case unlock yieldingFrom =>
    cases h
    have hat := hi.phases k
    rw [hph] at hat
    exact hi.release (by rw [hph]; rfl) (by rw [hph]; rfl) hat rfl rfl
  case runIdle yieldingFrom =>
    cases h
    exact hi.runIdle hph
  all_goals cases h

theorem Inv.wakeStep (hi : Inv ncpu s) (hph : s.phase k = ph) (htarget : ph.target = some i)
    (hq : s.procs i = some q) (h : s.wakeStep ncpu k q ph = some s') : Kept ncpu k s s' := by
  have hat := hi.phases k
  rw [hph] at hat
  cases ph
  case wakeLock j =>
    cases htarget
    have h : (s.acquire k q.cpu).map (fun s => s.goto k (.wakeTest i)) = some s' := h
    refine hi.acquire h (by rw [hph]; rfl) hat ?_ nofun
    intro c hc
    simpa [Phase.holds, hq, eq_comm] using hc
  case wakeTest j =>
    cases htarget
    cases h
    split
    · rename_i hblocked
      refine hi.goto (by rw [hph]; rfl) ?_ (by rw [hph]; exact fun _ => id)
        nofun
      obtain ⟨q', hq', henq⟩ := hat
      rw [hq] at hq'
      cases hq'
      -- whoever is on a run queue is runnable
      refine ⟨q, hq, henq, fun hin => ?_⟩
      have hrun := (hi.tidy.queued q.cpu _ hin).2
      simp [State.stateOf, hq, hblocked] at hrun
    · exact hi.goto (by rw [hph]; rfl) hat (by rw [hph]; exact fun _ => id)
        nofun
  case wakeSet j =>
    cases htarget
    cases h
    exact hi.wakeSet hph hq
  case wakeEnqueue j =>
    cases htarget
    cases h
    exact hi.wakeEnqueue hph hq
  case wakeUnlock j =>
    cases htarget
    cases h
    exact hi.release (by rw [hph]; rfl)
      (by rw [hph]; simp [Phase.holds, hq]) trivial rfl rfl
  all_goals cases h

theorem Inv.spawnStep (hi : Inv ncpu s) (hph : s.phase k = ph) (htarget : ph.target = some i)
    (hq : s.procs i = some q) (h : s.spawnStep ncpu k q ph = some s') : Kept ncpu k s s' := by
  have hat := hi.phases k
  rw [hph] at hat
  cases ph
  case initUser j =>
    cases htarget
    cases h
    exact hi.initUser hph hq
  case place j =>
    cases htarget
    cases h
    exact hi.place hph hq
  case spawnLock j =>
    cases htarget
    have h : (s.acquire k q.cpu).map (fun s => s.goto k (.spawnEnqueue i)) = some s' := h
    refine hi.acquire h (by rw [hph]; rfl) hat ?_ ?_
    · intro c hc
      simpa [Phase.holds, hq, eq_comm] using hc
    · rw [hph]
      exact fun _ => id
  case spawnEnqueue j =>
    cases htarget
    cases h
    exact hi.spawnEnqueue hph hq
  case spawnUnlock j =>
    cases htarget
    cases h
    exact hi.release (by rw [hph]; rfl)
      (by rw [hph]; simp [Phase.holds, hq]) trivial rfl rfl
  all_goals cases h

theorem Inv.cpuStep (hi : Inv ncpu s) (h : s.cpuStep ncpu k = some s') : Kept ncpu k s s' := by
  unfold State.cpuStep at h
  split at h
  · exact hi.scheduleStep rfl h
  · rename_i i htarget
    obtain ⟨q, hq, h⟩ := Option.bind_eq_some_iff.mp h
    rcases Option.or_eq_some_iff.mp h with h | ⟨-, h⟩
    · exact hi.wakeStep rfl htarget hq h
    · exact hi.spawnStep rfl htarget hq h

theorem Inv.runStep {a : Label} (hi : Inv ncpu s) (hph : s.phase a.cpu = .run)
    (h : s.runStep a = some s') : Kept ncpu a.cpu s s' := by
  cases a with
  | step c => cases h
  | yield c =>
    cases h
    exact hi.goto (by rw [hph]; rfl) trivial nofun nofun
  | wake c i =>
    simp only [State.runStep, State.wake] at h
    split at h
    · rename_i q hq
      split at h
      · rename_i henq
        cases h
        exact hi.goto (by rw [hph]; rfl) ⟨q, hq, henq⟩ nofun nofun
      · cases h
    · cases h
  | create c i how =>
    simp only [State.runStep, State.create] at h
    split at h
    · rename_i hfree
      cases h
      exact hi.create hph hfree.2.2
    · cases h
  | become c st =>
    simp only [State.runStep, State.become] at h
    split at h
    · rename_i i hcur
      obtain ⟨q, hq, rfl⟩ := Option.map_eq_some_iff.mp h
      exact hi.become hph hcur hq
    · cases h

theorem Inv.step {a : Label} (hi : Inv ncpu s) (h : step ncpu s a = some s') :
    Kept ncpu a.cpu s s' := by
  unfold Sched.step at h
  split at h
  · split at h
    · rename_i hph
      exact hi.runStep hph h
    · split at h
      · exact hi.cpuStep h
      · cases h
  · cases h

theorem Inv.boot (ncpu : Nat) : Inv ncpu boot where
  tidy := ⟨nofun, fun _ => List.nodup_nil, nofun⟩
  phases _ := trivial
  locks := nofun
  spawners := nofun
  placed := nofun

theorem inv_of_reach (h : (machine ncpu).Reach s) : Inv ncpu s := by
  refine h.invariant (Inv ncpu) ?_ (fun _ _ _ hi hstep => (hi.step hstep).inv)
  intro s₀ (he : s₀ = boot)
  rw [he]
  exact Inv.boot ncpu

/-- CPUs that do not exist do nothing. -/
theorem phase_of_reach (h : (machine ncpu).Reach s) (hc : ncpu ≤ c) : s.phase c = .run := by
  suffices hs : Inv ncpu s ∧ s.phase c = .run from hs.2
  refine h.invariant (fun s => Inv ncpu s ∧ s.phase c = .run) ?_ ?_
  · intro s₀ (he : s₀ = boot)
    rw [he]
    exact ⟨Inv.boot ncpu, rfl⟩
  · rintro s a s' ⟨hi, hrun⟩ hstep
    have hk := hi.step hstep
    have hne : c ≠ a.cpu := by
      rintro rfl
      have hstep : step ncpu s a = some s' := hstep
      unfold step at hstep
      rw [if_neg (Nat.not_lt.mpr hc)] at hstep
      cases hstep
    exact ⟨hk.inv, (hk.moves.phase c hne).trans hrun⟩

/-- The CPU is inside a section that holds a `runq_lock_`. -/
def Phase.locked : Phase → Bool
  | .detach _ | .requeue _ | .pop _ | .unlock _ | .wakeTest _ | .wakeSet _ | .wakeEnqueue _
  | .wakeUnlock _ | .spawnEnqueue _ | .spawnUnlock _ => true
  | _ => false

/-- **Scheduler placement**: whatever the CPUs do, when none of them holds a run-queue lock
every task is current on at most one CPU, linked on at most one run queue and once there, and
not both; a process that has been enqueued and is runnable is current on its CPU or on its
run queue. -/
theorem placement (h : (machine ncpu).Reach s) (hfree : ∀ c, (s.phase c).locked = false) :
    (∀ p c d, s.current c = some p → s.current d = some p → c = d) ∧
      (∀ p c d, p ∈ s.runq c → p ∈ s.runq d → c = d) ∧ (∀ c, (s.runq c).Nodup) ∧
      (∀ p c d, s.current c = some p → p ∉ s.runq d) ∧
      ∀ i q, s.procs i = some q → q.enqueued = true → q.state = .runnable →
        s.current q.cpu = some (.proc i) ∨ .proc i ∈ s.runq q.cpu := by
  have hi := inv_of_reach h
  refine ⟨?_, ?_, hi.tidy.nodup, ?_, ?_⟩
  · intro p c d hc hd
    exact (hi.tidy.current c p hc).1.unique (hi.tidy.current d p hd).1
  · intro p c d hc hd
    exact (hi.tidy.queued c p hc).1.unique (hi.tidy.queued d p hd).1
  · intro p c d hc hd
    obtain ⟨hlives, hnot⟩ := hi.tidy.current c p hc
    rw [hlives.unique (hi.tidy.queued d p hd).1] at hnot
    exact hnot hd
  · intro i q hq henq hrun
    rcases hi.placed i q hq henq hrun with hs | hs | hs | ⟨k, hs⟩
    · exact .inl hs
    · exact .inr hs
    · have := hfree q.cpu
      rw [hs] at this
      cases this
    · have := hfree k
      rw [hs] at this
      cases this

/-- CPU 0 creates process 1, which belongs to CPU 1, runs there and blocks; CPU 0 wakes it. -/
def wokenRun : List Label :=
  Label.create 0 1 .setup :: List.replicate 5 (Label.step 0) ++ Label.yield 1 :: List.replicate 8
    (Label.step 1) ++ [Label.become 1 .blocked, .yield 1] ++ List.replicate 9
    (Label.step 1) ++ Label.wake 0 1 :: List.replicate 5 (Label.step 0)

theorem placement_woken : ∃ s, (machine 2).Reach s ∧ (∀ c, (s.phase c).locked = false) ∧
    s.current 1 = some (.idle 1) ∧ .proc 1 ∈ s.runq 1 := by
  have hrun : ((machine 2).run boot wokenRun).isSome := by decide +kernel
  obtain ⟨s, hs⟩ := Option.isSome_iff_exists.mp hrun
  have hphase : ((machine 2).run boot wokenRun).map (fun s => (s.phase 0, s.phase 1)) =
      some (.run, .run) := by
    decide +kernel
  have hproc : ((machine 2).run boot wokenRun).map (fun s => (s.procs 1, s.current 1)) =
      some (some ⟨.runnable, 1, true⟩, some (.idle 1)) := by
    decide +kernel
  rw [hs, Option.map_some, Option.some.injEq, Prod.mk.injEq] at hphase hproc
  have hreach := Machine.Reach.run (.init rfl) hs
  have hfree : ∀ c, (s.phase c).locked = false := by
    intro c
    match c with
    | 0 => rw [hphase.1]; rfl
    | 1 => rw [hphase.2]; rfl
    | c + 2 => rw [phase_of_reach hreach (Nat.le_add_left 2 c)]; rfl
  refine ⟨s, hreach, hfree, hproc.2, ?_⟩
  rcases (placement hreach hfree).2.2.2.2 1 _ hproc.1 rfl rfl with hcur | hin
  · rw [hproc.2] at hcur
    cases hcur
  · exact hin

end PugOS.Sched
