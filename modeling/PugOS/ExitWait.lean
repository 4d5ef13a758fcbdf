import PugOS.Transition

/-! # Exit, wait and the scheduler

The steps of `sys_exit`, `sys_texit` and `sys_waitpid` on any number of CPUs,
with the parts of the scheduler and of `waitpid_wq` they meet.  A step is what
one CPU does without another being able to look in between: one section under
the wait queue's lock or a run queue's lock, or one access to shared data.
`ptable_lock` is held over several steps, so it is part of the state; the
`state_` of a task is written without it, and a scan of the process table reads
one slot per step.

A task's position in the kernel's code is its `Pc`.  What a step does is chosen
by `next`, which follows the source line by line, and carried out by
`perform`, which has one case for each operation of the source on shared data.
A step that would dereference a null or freed `proc` has no successor.
-/
namespace PugOS.ExitWait
open Transition

/-- `NPROC`. -/
def nproc : Nat := 16

/-- The error codes of `waitpid`. -/
def eChild : Int := -10
def eAgain : Int := -11

/-- `proc::state_t`. -/
inductive ProcState
  | blank | runnable | blocked | broken
  deriving DecidableEq, Repr

/-- The arguments and local variables of one `sys_waitpid` call. -/
structure Wait where
  childPid : Nat
  nohang : Bool
  toReap : Nat := 0
  exitStatus : Int := 0
  deriving DecidableEq, Repr

/-- Positions in the kernel's code.  `texit` tells the `process_exit` called by
`sys_texit`, which is followed by another `wake_all`, from that of `sys_exit`.
In `k : Option Nat`, the scan goes on at slot `i` (`some i`) or is left by its
`break` (`none`). -/
inductive Pc
  | user
  -- SYSCALL_TEXIT
  | texitLock (status : Int)
  | texitCount (status : Int) (i r : Nat)
  | texitStatus (status : Int)
  -- process_exit
  | exitStatus (texit : Bool) (status : Int)
  | exitLock (texit : Bool)
  | exitCount (texit : Bool) (i r : Nat)
  | exitMark (texit : Bool) (i : Nat)
  | exitPrepare (texit : Bool)
  | exitCaught (texit : Bool)
  | exitPredicate (texit : Bool) (i : Nat)
  | exitPredicateBlocked (texit : Bool) (i : Nat)
  | exitPredicateWake (texit : Bool)
  | exitBlockUnlock (texit : Bool)
  | exitBlock (texit : Bool)
  | exitBlocked (texit : Bool)
  | exitRelock (texit : Bool)
  | exitClear (texit : Bool)
  | exitUnlock (texit : Bool)
  | exitParentLock (texit : Bool)
  | exitParent (texit : Bool)
  | exitReparent (texit : Bool)
  | exitParentUnlock (texit : Bool)
  | exitWake (texit : Bool)
  | caughtClear
  | setBroken (thenWake : Bool)
  | lastWake
  | yieldNoreturn
  | dead
  -- SYSCALL_WAITPID
  | waitParentLock (w : Wait)
  | waitParent (w : Wait)
  | waitCheck (w : Wait) (parentOfChild : Nat)
  | waitLock (w : Wait)
  | waitPrepare (w : Wait)
  | waitStart (w : Wait)
  | waitAny (w : Wait) (rest : List Nat)
  | waitScan (w : Wait) (i : Nat)
  | reapLock (w : Wait) (k : Option Nat) (i : Nat)
  | reap (w : Wait) (k : Option Nat) (i : Nat)
  | reapUnlock (w : Wait) (k : Option Nat)
  | reapWake (w : Wait) (k : Option Nat)
  | waitRelock (w : Wait) (k : Option Nat)
  | waitThreads (w : Wait)
  | waitBlock (w : Wait)
  | waitBlocked (w : Wait)
  | waitClear (w : Wait)
  | waitReturn (w : Wait)
  deriving DecidableEq, Repr

/-- `struct proc`; its `pid_` is its index in `ptable`.  `main` says that
`true_ptable[pid_]` points to it too, which it does for every task but those
`sys_clone` made.  `rax` and `rcx` are what the last system call returned. -/
structure Proc where
  truePid : Nat
  ppid : Nat
  main : Bool
  cpu : Nat
  state : ProcState
  exitStatus : Int := 0
  interrupted : Bool := false
  exiting : Bool := false
  children : List Nat := []
  rax : Int := 0
  rcx : Int := 0
  pc : Pc
  deriving DecidableEq, Repr

/-- Where a CPU is: on the current task's code, at the test in `schedule` whether
to resume `current_`, or at the section of `schedule` under `runq_lock_`. -/
inductive Phase
  | run
  | check (yieldingFrom : Option (Option Nat))
  | swap
  deriving DecidableEq, Repr

/-- `struct cpustate`.  In `current` and `runq`, `none` is the CPU's idle task,
which is always runnable. -/
structure Cpu where
  current : Option Nat
  runq : List (Option Nat)
  phase : Phase
  deriving DecidableEq, Repr

/-- The kernel: `ptable`, the CPUs, the tasks whose waiter is linked in
`waitpid_wq`, the holder of `ptable_lock`, and the `true_pid_`s whose page table
and descriptor table `process_reap` has deleted. -/
structure State where
  procs : Nat → Option Proc
  cpus : Nat → Cpu
  waitq : List Nat
  ptableLock : Option Nat
  deleted : List Nat

/-! ## Operations on shared data -/

/-- A process is set, or freed. -/
def State.setProc (s : State) (i : Nat) (p : Option Proc) : State :=
  { s with procs := fun j => if j = i then p else s.procs j }

/-- A CPU is set. -/
def State.setCpu (s : State) (c : Nat) (cpu : Cpu) : State :=
  { s with cpus := fun d => if d = c then cpu else s.cpus d }

/-- `cpustate::enqueue`.  A task is only ever linked in the run queue of its own
CPU, so `runq_link_.is_linked()` is membership there. -/
def Cpu.enqueue (cpu : Cpu) (i : Option Nat) : Cpu :=
  if cpu.current ≠ i ∧ i ∉ cpu.runq then { cpu with runq := cpu.runq ++ [i] } else cpu

/-- `proc::wake`. -/
def State.wake (s : State) (i : Nat) : State :=
  match s.procs i with
  | none => s
  | some p =>
    if p.state = .blocked then
      (s.setProc i (some { p with state := .runnable })).setCpu p.cpu
        ((s.cpus p.cpu).enqueue (some i))
    else s

/-- `wait_queue::wake_all`: pop every waiter and wake its task. -/
def State.wakeAll (s : State) : State :=
  { s.waitq.foldl State.wake s with waitq := [] }

/-- The tasks of process `truePid` still in the table, as `process_reap` counts
them: the states it lists are all but `blank`. -/
def State.nthreads (s : State) (truePid : Nat) : Nat :=
  (List.range nproc).countP fun i =>
    match s.procs i with
    | some p => p.truePid = truePid ∧ p.state ≠ .blank
    | none => false

/-- The tests `active_threads` makes of slot `i`. -/
def State.active (s : State) (truePid i : Nat) : Bool :=
  match s.procs i with
  | some p => p.truePid = truePid ∧ (p.state = .runnable ∨ p.state = .blocked)
  | none => false

/-- Slot `i` holds another task of the process that is not broken yet. -/
def State.otherThread (s : State) (truePid pid i : Nat) : Bool :=
  match s.procs i with
  | some p => p.truePid = truePid ∧ i ≠ pid ∧ p.state ≠ .broken
  | none => false

/-- Slot `i` holds a task of process `childPid`. -/
def State.threadOf (s : State) (childPid i : Nat) : Bool :=
  match s.procs i with
  | some p => p.truePid = childPid
  | none => false

/-- What a step does to shared data. -/
inductive Act
  | skip
  | lock
  | unlock
  | prepare
  | clear
  | wakeAll
  | wake (i : Nat)
  | interrupt (i : Nat)
  | setExiting (i : Nat)
  | setStatus (status : Int)
  | setBroken
  | reparent
  | free (i : Nat)
  | yield
  | ret (rax : Int) (rcx : Option Int)
  deriving DecidableEq, Repr

/-- `child->ppid_ = 1`. -/
def State.adopt (s : State) (child : Nat) : State :=
  match s.procs child with
  | some q => s.setProc child (some { q with ppid := 1 })
  | none => s

/-- Move the children of `t` to process 1.  Process 1 itself would move them round
its own list for ever. -/
def State.reparent (s : State) (t : Nat) (p : Proc) : Option State :=
  if p.children = [] then some s
  else if t = 1 then none
  else
    let s := p.children.foldl State.adopt (s.setProc t (some { p with children := [] }))
    match s.procs 1 with
    | some q => some (s.setProc 1 (some { q with children := q.children ++ p.children }))
    | none => none

/-- The part of `process_reap` under `ptable_lock`. -/
def State.free (s : State) (i : Nat) : Option State :=
  match s.procs i with
  | none => none
  | some p =>
    match s.procs p.ppid with
    | none => none
    | some q =>
      if q.main then
        let nthr := s.nthreads p.truePid
        let s := s.setProc p.ppid (some { q with children := q.children.erase i })
        some { s.setProc i none with
          deleted := if nthr = 1 then p.truePid :: s.deleted else s.deleted }
      else none

/-- Carry out `a` for the task `t`, whose descriptor is `p`, on CPU `c`. -/
def State.perform (s : State) (c t : Nat) (p : Proc) : Act → Option State
  | .skip => some s
  | .lock => if s.ptableLock = none then some { s with ptableLock := some t } else none
  | .unlock => some { s with ptableLock := none }
  | .prepare =>
    some { s.setProc t (some { p with state := .blocked }) with waitq := s.waitq ++ [t] }
  | .clear =>
    some { s.setProc t (some { p with state := .runnable }) with waitq := s.waitq.erase t }
  | .wakeAll => some s.wakeAll
  | .wake i => some (s.wake i)
  | .interrupt i =>
    match s.procs i with
    | some q => some ((s.setProc i (some { q with interrupted := true })).wake i)
    | none => none
  | .setExiting i =>
    match s.procs i with
    | some q => some (s.setProc i (some { q with exiting := true }))
    | none => none
  | .setStatus status => some (s.setProc t (some { p with exitStatus := status }))
  | .setBroken => some (s.setProc t (some { p with state := .broken }))
  | .reparent => s.reparent t p
  | .free i => s.free i
  | .yield => some (s.setCpu c { s.cpus c with phase := .check (some (some t)) })
  | .ret rax rcx => some (s.setProc t (some { p with rax := rax, rcx := rcx.getD p.rcx }))

/-! ## The code -/

/-- `process_exit`, from its first line to `state_ = broken`, and the rest of the
system call it was made from. -/
def nextExit (s : State) (t : Nat) (p : Proc) : Pc → Option (Act × Pc)
  | .texitLock status => some (.lock, .texitCount status 0 0)
  | .texitCount status i r =>
    if i < nproc then
      some (.skip, .texitCount status (i + 1) (if s.active p.truePid i then r + 1 else r))
    else if r = 1 then
      some (.unlock, .exitStatus true status)
    else
      some (.unlock, .texitStatus status)
  | .texitStatus status => some (.setStatus status, .setBroken true)
  | .exitStatus texit status => some (.setStatus status, .exitLock texit)
  | .exitLock texit => some (.lock, .exitCount texit 0 0)
  | .exitCount texit i r =>
    if i < nproc then
      some (.skip, .exitCount texit (i + 1) (if s.active p.truePid i then r + 1 else r))
    else if r > 1 then
      some (.skip, .exitMark texit 0)
    else
      some (.skip, .exitUnlock texit)
  | .exitMark texit i =>
    if i < nproc then
      some (if s.otherThread p.truePid t i then .setExiting i else .skip, .exitMark texit (i + 1))
    else
      some (.skip, .exitPrepare texit)
  | .exitPrepare texit => some (.prepare, .exitCaught texit)
  | .exitCaught texit =>
    if p.exiting then some (.unlock, .caughtClear) else some (.skip, .exitPredicate texit 0)
  | .exitPredicate texit i =>
    if i < nproc then
      if s.otherThread p.truePid t i then
        some (.setExiting i, .exitPredicateBlocked texit i)
      else
        some (.skip, .exitPredicate texit (i + 1))
    else
      some (.skip, .exitClear texit)
  | .exitPredicateBlocked texit i =>
    match s.procs i with
    | none => none
    | some q =>
      if q.state = .blocked then
        some (.wake i, .exitPredicateWake texit)
      else
        some (.skip, .exitBlockUnlock texit)
  | .exitPredicateWake texit => some (.wakeAll, .exitBlockUnlock texit)
  | .exitBlockUnlock texit => some (.unlock, .exitBlock texit)
  | .exitBlock texit => some (.yield, .exitBlocked texit)
  | .exitBlocked texit => some (.clear, .exitRelock texit)
  | .exitRelock texit => some (.lock, .exitPrepare texit)
  | .exitClear texit => some (.clear, .exitUnlock texit)
  | .exitUnlock texit => some (.unlock, .exitParentLock texit)
  | .exitParentLock texit => some (.lock, .exitParent texit)
  | .exitParent texit =>
    match s.procs p.ppid with
    | some daddy =>
      some (if daddy.state = .blocked then .interrupt p.ppid else .skip, .exitReparent texit)
    | none => some (.skip, .exitReparent texit)
  | .exitReparent texit => some (.reparent, .exitParentUnlock texit)
  | .exitParentUnlock texit => some (.unlock, .exitWake texit)
  | .exitWake texit => some (.wakeAll, .setBroken texit)
  -- the end of `waiter::block_until` for a thread that was told to exit
  | .caughtClear => some (.clear, .setBroken true)
  | .setBroken thenWake => some (.setBroken, if thenWake then .lastWake else .yieldNoreturn)
  | .lastWake => some (.wakeAll, .yieldNoreturn)
  | .yieldNoreturn => some (.yield, .dead)
  | _ => none

/-- `SYSCALL_WAITPID`, with the `process_reap` it calls. -/
def nextWait (s : State) (t : Nat) (p : Proc) : Pc → Option (Act × Pc)
  | .waitParentLock w => some (.lock, .waitParent w)
  | .waitParent w =>
    some (.unlock, .waitCheck w (match s.procs w.childPid with | some q => q.ppid | none => 0))
  | .waitCheck w parentOfChild =>
    if (w.childPid ≠ 0 ∧ t ≠ parentOfChild) ∨ (w.childPid = 0 ∧ p.children = []) then
      some (.ret eChild none, .user)
    else
      some (.skip, .waitLock w)
  | .waitLock w => some (.lock, .waitPrepare w)
  | .waitPrepare w => some (.prepare, .waitStart w)
  | .waitStart w =>
    some (.skip, if w.childPid = 0 then .waitAny w p.children else .waitScan w 0)
  | .waitAny w [] => some (.skip, .waitThreads w)
  | .waitAny w (i :: rest) =>
    match s.procs i with
    | none => none
    | some q =>
      if q.state = .broken then
        some (.unlock, .reapLock { w with toReap := q.truePid } none i)
      else
        some (.skip, .waitAny w rest)
  | .waitScan w i =>
    if i < nproc then
      match s.procs i with
      | none => some (.skip, .waitScan w (i + 1))
      | some q =>
        if q.truePid = w.childPid ∧ q.state = .broken then
          some (.unlock, .reapLock { w with toReap := q.truePid } (some (i + 1)) i)
        else
          some (.skip, .waitScan w (i + 1))
    else
      some (.skip, .waitThreads w)
  | .reapLock w k i => some (.lock, .reap w k i)
  | .reap w k i =>
    match s.procs i with
    | none => none
    | some q =>
      some (.free i,
        .reapUnlock (if q.exitStatus ≠ 0 then { w with exitStatus := q.exitStatus } else w) k)
  | .reapUnlock w k => some (.unlock, .reapWake w k)
  | .reapWake w k => some (.wakeAll, .waitRelock w k)
  | .waitRelock w none => some (.lock, .waitThreads w)
  | .waitRelock w (some i) => some (.lock, .waitScan w i)
  | .waitThreads w =>
    let noThreadsLeft := (List.range nproc).all fun i => !s.threadOf w.childPid i
    if (w.toReap ≠ 0 ∧ noThreadsLeft) ∨ w.nohang then
      some (.unlock, .waitClear w)
    else
      some (.unlock, .waitBlock w)
  | .waitBlock w => some (.yield, .waitBlocked w)
  | .waitBlocked w => some (.clear, .waitLock w)
  | .waitClear w => some (.clear, .waitReturn w)
  | .waitReturn w =>
    if w.toReap = 0 ∧ w.nohang then
      some (.ret eAgain none, .user)
    else
      some (.ret w.toReap (some w.exitStatus), .user)
  | _ => none

/-- What a task does next, and where it goes. -/
def next (s : State) (t : Nat) (p : Proc) : Option (Act × Pc) :=
  (nextExit s t p p.pc).or (nextWait s t p p.pc)

/-- One step of the task `t` that CPU `c` runs. -/
def State.taskStep (s : State) (c t : Nat) : Option State := do
  let p ← s.procs t
  let (a, pc) ← next s t p
  let s' ← s.perform c t p a
  let p' ← s'.procs t
  some (s'.setProc t (some { p' with pc := pc }))

/-! ## The scheduler -/

/-- The `state_` of a task; reading that of a freed one is a fault. -/
def State.stateOf (s : State) : Option Nat → Option ProcState
  | none => some .runnable
  | some i => (s.procs i).map Proc.state

/-- The head of the loop in `cpustate::schedule`. -/
def State.schedCheck (s : State) (c : Nat) (yieldingFrom : Option (Option Nat)) :
    Option State := do
  let cpu := s.cpus c
  let st ← s.stateOf cpu.current
  if st = .runnable ∧ some cpu.current ≠ yieldingFrom then
    some (s.setCpu c { cpu with phase := .run })
  else
    some (s.setCpu c { cpu with phase := .swap })

/-- The run queue once `current_`, which is in state `st`, has been put back.
`current_` is null by then. -/
def Cpu.putBack (cpu : Cpu) (st : ProcState) : List (Option Nat) :=
  if st = .runnable ∧ cpu.current ∉ cpu.runq then cpu.runq ++ [cpu.current] else cpu.runq

/-- The rest of the loop: put `current_` back if it is runnable, and take the next
task, or the idle task if there is none. -/
def State.schedSwap (s : State) (c : Nat) : Option State := do
  let st ← s.stateOf (s.cpus c).current
  match (s.cpus c).putBack st with
  | [] => some (s.setCpu c { current := none, runq := [], phase := .check none })
  | i :: rest => some (s.setCpu c { current := i, runq := rest, phase := .check none })

/-! ## The machine -/

/-- A system call a user program makes. -/
inductive Syscall
  | exit (status : Int)
  | texit (status : Int)
  | waitpid (childPid : Nat) (nohang : Bool)
  deriving DecidableEq, Repr

/-- The first position of a system call; `sys_waitpid` asserts its argument's
range. -/
def Syscall.entry : Syscall → Option Pc
  | .exit status => some (.exitStatus false status)
  | .texit status => some (.texitLock status)
  | .waitpid childPid nohang =>
    if childPid < nproc then some (.waitParentLock { childPid, nohang }) else none

/-- Where the kernel runs with interrupts enabled: in user mode, and for one
instruction of `proc::yield`. -/
def Pc.interruptible : Pc → Bool
  | .user | .exitBlock _ | .waitBlock _ => true
  | _ => false

/-- What happens next: the next step of a CPU, a timer interrupt there, or a
system call by the program it runs. -/
inductive Label
  | cpu (c : Nat)
  | timer (c : Nat)
  | syscall (c : Nat) (call : Syscall)
  deriving DecidableEq, Repr

/-- One step of one CPU. -/
def step (s : State) : Label → Option State
  | .cpu c =>
    match (s.cpus c).phase, (s.cpus c).current with
    | .run, none => none
    | .run, some t => s.taskStep c t
    | .check yieldingFrom, _ => s.schedCheck c yieldingFrom
    | .swap, _ => s.schedSwap c
  | .timer c =>
    match (s.cpus c).phase, (s.cpus c).current with
    | .run, none => some (s.setCpu c { s.cpus c with phase := .check (some none) })
    | .run, some t => do
      let p ← s.procs t
      if p.pc.interruptible then
        some (s.setCpu c { s.cpus c with phase := .check (some (some t)) })
      else none
    | _, _ => none
  | .syscall c call =>
    match (s.cpus c).phase, (s.cpus c).current with
    | .run, some t => do
      let p ← s.procs t
      let pc ← call.entry
      if p.pc = .user then some (s.setProc t (some { p with pc := pc })) else none
    | _, _ => none

/-- The start: every task is in user mode and runnable, and is either the current
task or in the run queue of its own CPU; nobody waits and nobody holds
`ptable_lock`.  The process tree is arbitrary. -/
structure Started (s : State) : Prop where
  user : ∀ i p, s.procs i = some p → p.pc = .user ∧ p.state = .runnable
  current : ∀ c i, (s.cpus c).current = some i → ∃ p, s.procs i = some p ∧ p.cpu = c
  runq : ∀ c i, some i ∈ (s.cpus c).runq → ∃ p, s.procs i = some p ∧ p.cpu = c
  disjoint : ∀ c, (s.cpus c).current ∉ (s.cpus c).runq
  nodup : ∀ c, (s.cpus c).runq.Nodup
  waitq : s.waitq = []
  unlocked : s.ptableLock = none

/-- The kernel's tasks on its CPUs. -/
def kernel : Machine State Label where
  init := Started
  step := step

end PugOS.ExitWait
