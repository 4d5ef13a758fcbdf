import PugOS.ProcTree

/-! # What `sys_waitpid` returns

A parent calls `sys_waitpid` any number of times while its children, which may have
several threads, terminate in any order.  The parent's steps are those of `ExitWait`;
it may go on at any time after it blocked, so every order of wake-ups is covered.  The
other tasks clone and terminate.

The call for any child returns after it has reaped one thread, because its test for
remaining threads looks for `true_pid_ == 0`, and so does a call with `W_NOHANG`
whatever its test says.  The status is the last one of a reaped thread that is not 0.
In every run in which no call for any child reaps a thread that is not the last of its
process, no scan with `W_NOHANG` leaves a thread behind of the process it reaps, no status is
replaced by that of another thread and nobody waits for itself, each child is waited for once
(`child_waited_once`).  A child with two threads is returned twice to a parent that
waits for any child (`two_threads_returned_twice`).
-/
namespace PugOS.ExitWait
open Transition

/-- How a thread ends: it has run `process_exit` for `sys_exit`, it has left by
`sys_texit` without, or it was caught in `block_until`. -/
inductive Ending
  | exit (status : Int)
  | texit (status : Int)
  | killed
  deriving DecidableEq, Repr

/-- A call that has returned: whether the parent had no child when it began, and what it
returned in `%rax` and `%ecx`.  Only a successful call sets `%ecx`. -/
structure Return where
  childless : Bool
  rax : Int
  rcx : Option Int
  deriving DecidableEq, Repr

/-- The tasks, the status each process has passed to `sys_exit`, whether the parent had no
child when the call under way began, and the calls that have returned. -/
structure Waiting where
  kernel : State
  passed : Nat → Option Int
  childless : Bool
  returns : List Return

/-- What happens next: the parent calls `sys_waitpid` or takes a step in it, or another
task terminates or makes a thread. -/
inductive WaitLabel
  | call (childPid : Nat) (nohang : Bool)
  | step
  | terminate (j : Nat) (e : Ending)
  | clone (j : Nat) (exitStatus : Int)
  deriving DecidableEq, Repr

/-- Task `t` has no child. -/
def State.childless (s : State) (t : Nat) : Bool :=
  (List.range nproc).all fun i =>
    match s.procs i with
    | some q => if i = t then q.children = [] else q.ppid ≠ t
    | none => true

/-- The call that the parent's next step ends. -/
def Waiting.returning (s : Waiting) (t : Nat) : List Return :=
  match s.kernel.procs t with
  | some p =>
    match next s.kernel t p with
    | some (.ret rax rcx, _) => [⟨s.childless, rax, rcx⟩]
    | _ => []
  | none => []

/-- All other threads of the process of `j` are broken; `process_exit` waits for that. -/
def State.alone (s : State) (truePid j : Nat) : Bool :=
  (List.range nproc).all fun i => !s.otherThread truePid j i

/-- Task `j` ends. -/
def Waiting.terminate (s : Waiting) (j : Nat) (q : Proc) : Ending → Option Waiting
  | .exit status =>
    if s.kernel.alone q.truePid j then
      some { s with
        kernel := s.kernel.setProc j (some { q with state := .broken, exitStatus := status })
        passed := fun i => if i = q.truePid then some status else s.passed i }
    else none
  | .texit status =>
    some { s with
      kernel := s.kernel.setProc j (some { q with state := .broken, exitStatus := status }) }
  | .killed => some { s with kernel := s.kernel.setProc j (some { q with state := .broken }) }

def waitStep (ncpu t : Nat) (s : Waiting) : WaitLabel → Option Waiting
  | .call childPid nohang =>
    match s.kernel.procs t with
    | some p =>
      if p.pc = .user then
        (Syscall.waitpid childPid nohang).entry.map fun pc =>
          { s with
            kernel := s.kernel.setProc t (some { p with pc := pc })
            childless := s.kernel.childless t }
      else none
    | none => none
  | .step =>
    (s.kernel.taskStep 0 t).map fun kernel =>
      { s with kernel := kernel, returns := s.returns ++ s.returning t }
  | .terminate j e =>
    match s.kernel.procs j with
    | some q => if j ≠ t ∧ q.state ≠ .broken then s.terminate j q e else none
    | none => none
  | .clone j exitStatus =>
    match s.kernel.procs j with
    | some q =>
      if j ≠ t ∧ q.state ≠ .broken ∧ s.kernel.ptableLock = none then
        (s.kernel.sysClone ncpu j exitStatus).map fun kernel => { s with kernel := kernel }
      else none
    | none => none

/-- The parent is in user mode, its list holds its children, and nobody has terminated
yet. -/
structure WaitStarted (t : Nat) (s : Waiting) : Prop where
  parent : ∃ p, s.kernel.procs t = some p ∧ p.pc = .user ∧ p.children.Nodup
  positive : 0 < t
  slots : ∀ j q, s.kernel.procs j = some q → j < nproc ∧ q.truePid ≠ 0
  live : ∀ j q, s.kernel.procs j = some q → q.state = .runnable
  kids : ∀ p, s.kernel.procs t = some p → ∀ j, j ∈ p.children ↔
    j ≠ t ∧ ∃ q, s.kernel.procs j = some q ∧ q.ppid = t
  passed : ∀ truePid, s.passed truePid = none
  returns : s.returns = []

/-- The parent `t` and its children. -/
def waiting (ncpu t : Nat) : Machine Waiting WaitLabel where
  init := WaitStarted t
  step := waitStep ncpu t

/-! ## The condition -/

/-- The task `i` that the step reaps is not the last thread of its process, though the call
is for any child; or the call has `W_NOHANG`, and its scan has passed another thread of the
process; or the status of `i` is neither 0 nor the one the process passed to `sys_exit`. -/
def Waiting.reapsEarly (s : Waiting) (w : Wait) (i : Nat) : Bool :=
  match s.kernel.procs i with
  | some q =>
    (w.childPid = 0 ∧ (List.range nproc).any fun j =>
      decide (j ≠ i) && s.kernel.threadOf q.truePid j) ∨
      (w.nohang ∧ (List.range i).any (s.kernel.threadOf q.truePid)) ∨
      (q.exitStatus ≠ 0 ∧ s.passed q.truePid ≠ some q.exitStatus)
  | none => false

/-- The scan of a `W_NOHANG` call that has reaped a thread comes to one of the same process
that is not broken. -/
def Waiting.passesLive (s : Waiting) (w : Wait) (i : Nat) : Bool :=
  match s.kernel.procs i with
  | some q => w.nohang ∧ w.toReap ≠ 0 ∧ q.truePid = w.toReap ∧ q.state ≠ .broken
  | none => false

/-- The step reaps a thread early, passes one of the process that it reaps, or starts to
wait for the parent itself. -/
def shortWait (t : Nat) (s : Waiting) : WaitLabel → Bool
  | .call childPid _ => childPid = t
  | .step =>
    match s.kernel.procs t with
    | some p =>
      match p.pc with
      | .reap w _ i => s.reapsEarly w i
      | .waitScan w i => s.passesLive w i
      | _ => false
    | none => false
  | _ => false

/-! ## What the parent knows -/

variable {s s' : State} {t i j truePid : Nat} {p q : Proc} {a : Act} {pc : Pc}

/-- No thread of the process is left. -/
def Left (s : State) (truePid : Nat) : Prop := ∀ j q, s.procs j = some q → q.truePid ≠ truePid

/-- A scan that has come to task `k` still has a thread of the process before it, if any is
left. -/
def Ahead (s : State) (truePid k : Nat) : Prop :=
  Left s truePid ∨ ∃ j q, s.procs j = some q ∧ q.truePid = truePid ∧ k ≤ j

/-- The call has returned this process. -/
def Waiting.Returned (s : Waiting) (truePid : Nat) : Prop :=
  ∃ r ∈ s.returns, r.rcx ≠ none ∧ r.rax = truePid

/-- What holds of the local variables of a call under way. -/
structure Wait.Ok (s : Waiting) (w : Wait) : Prop where
  idle : w.toReap = 0 → w.exitStatus = 0
  status : w.toReap ≠ 0 → w.exitStatus = 0 ∨ s.passed w.toReap = some w.exitStatus
  new : w.toReap ≠ 0 → ¬ s.Returned w.toReap
  given : w.childPid ≠ 0 → w.toReap = 0 ∨ w.toReap = w.childPid

/-- What holds at each position of the call. -/
def Pc.At (s : Waiting) : Pc → Prop
  | .user => True
  | .waitParentLock w | .waitParent w | .waitCheck w _ => w.toReap = 0 ∧ w.exitStatus = 0
  | .waitLock w | .waitPrepare w | .waitStart w | .waitBlock w | .waitBlocked w =>
    w.Ok s ∧ (w.childPid = 0 → w.toReap = 0)
  | .waitAny w _ => w.Ok s ∧ w.childPid = 0 ∧ w.toReap = 0
  | .waitScan w k => w.Ok s ∧ w.childPid ≠ 0 ∧ (w.nohang → w.toReap ≠ 0 → Ahead s.kernel w.toReap k)
  | .reapLock w k i | .reap w k i => w.Ok s ∧ w.toReap ≠ 0 ∧
    (k = none ∧ w.childPid = 0 ∨ k = some (i + 1) ∧ w.childPid ≠ 0) ∧
    ∃ q, s.kernel.procs i = some q ∧ q.truePid = w.toReap ∧ q.state = .broken
  | .reapUnlock w k | .reapWake w k | .waitRelock w k => w.Ok s ∧ w.toReap ≠ 0 ∧
    (k = none ∧ w.childPid = 0 ∧ Left s.kernel w.toReap ∨
      ∃ i, k = some i ∧ w.childPid ≠ 0 ∧ (w.nohang → Ahead s.kernel w.toReap i))
  | .waitThreads w =>
    w.Ok s ∧ (w.childPid = 0 ∨ w.nohang → w.toReap ≠ 0 → Left s.kernel w.toReap)
  | .waitClear w | .waitReturn w => w.Ok s ∧ (w.toReap ≠ 0 → Left s.kernel w.toReap) ∧
    (w.toReap = 0 → w.nohang = true)
  | _ => False

/-- The local variables of the call. -/
def Pc.call : Pc → Option Wait
  | .waitParentLock w | .waitParent w | .waitCheck w _ | .waitLock w | .waitPrepare w | .waitStart w
  | .waitAny w _ | .waitScan w _ | .reapLock w _ _ | .reap w _ _ | .reapUnlock w _ | .reapWake w _
  | .waitRelock w _ | .waitThreads w | .waitBlock w | .waitBlocked w | .waitClear w
  | .waitReturn w => some w
  | _ => none

/-- The call has not found out yet that the parent has no child. -/
def Pc.unanswered (t : Nat) : Pc → Prop
  | .waitParentLock w | .waitParent w => w.childPid ≠ t
  | .waitCheck w parentOfChild => w.childPid ≠ 0 → parentOfChild ≠ t
  | _ => False

/-- Nobody but the parent itself has it as its parent. -/
def NoChild (s : State) (t : Nat) : Prop :=
  (∀ p, s.procs t = some p → p.children = []) ∧ ∀ j q, s.procs j = some q → j ≠ t → q.ppid ≠ t

/-- What the steps of others, and most steps of the parent, leave as it is. -/
structure Env (s s' : Waiting) : Prop where
  left : ∀ truePid, Left s.kernel truePid → Left s'.kernel truePid
  stays : ∀ j q, s.kernel.procs j = some q → ∃ q', s'.kernel.procs j = some q' ∧
    q'.truePid = q.truePid
  broken : ∀ j q, s.kernel.procs j = some q → q.state = .broken →
    ∃ q', s'.kernel.procs j = some q' ∧ q'.truePid = q.truePid ∧ q'.state = .broken ∧
    q'.exitStatus = q.exitStatus
  passed : ∀ truePid v, s.passed truePid = some v → s'.passed truePid = some v
  returns : s'.returns = s.returns

theorem Wait.Ok.env {s s' : Waiting} {w : Wait} (h : w.Ok s) (he : Env s s') : w.Ok s' := by
  refine ⟨h.idle, fun hne => (h.status hne).imp_right (he.passed _ _), ?_, h.given⟩
  intro hne
  unfold Waiting.Returned
  rw [he.returns]
  exact h.new hne

theorem Ahead.env {s s' : Waiting} {k : Nat} (h : Ahead s.kernel truePid k) (he : Env s s') :
    Ahead s'.kernel truePid k := by
  rcases h with hl | ⟨j, q, hq, htrue, hj⟩
  · exact .inl (he.left _ hl)
  · obtain ⟨q', hq', htrue'⟩ := he.stays j q hq
    exact .inr ⟨j, q', hq', htrue'.trans htrue, hj⟩

theorem ahead_zero (s : State) (truePid : Nat) : Ahead s truePid 0 := by
  by_contra h
  exact h (.inl fun j q hq htrue => h (.inr ⟨j, q, hq, htrue, Nat.zero_le j⟩))

/-- The scan goes on from a slot without a thread of the process. -/
theorem Ahead.succ {k : Nat} (h : Ahead s truePid k)
    (hk : ∀ q, s.procs k = some q → q.truePid ≠ truePid) : Ahead s truePid (k + 1) := by
  refine h.imp_right ?_
  rintro ⟨j, q, hq, htrue, hj⟩
  refine ⟨j, q, hq, htrue, Nat.lt_of_le_of_ne hj ?_⟩
  rintro rfl
  exact hk q hq htrue

/-- At its end the scan has nothing before it. -/
theorem Ahead.left {k : Nat} (h : Ahead s truePid k)
    (hslots : ∀ j q, s.procs j = some q → j < nproc ∧ q.truePid ≠ 0)
    (hk : nproc ≤ k) : Left s truePid := by
  refine h.resolve_right ?_
  rintro ⟨j, q, hq, -, hj⟩
  exact absurd (hslots j q hq).1 (Nat.not_lt.mpr (Nat.le_trans hk hj))

theorem Pc.At.env {s s' : Waiting} (h : pc.At s) (he : Env s s') : pc.At s' := by
  cases pc with
  | user => trivial
  | waitParentLock w | waitParent w | waitCheck w _ => exact h
  | waitLock w | waitPrepare w | waitStart w | waitBlock w | waitBlocked w =>
    exact ⟨h.1.env he, h.2⟩
  | waitAny w _ => exact ⟨h.1.env he, h.2⟩
  | waitScan w _ => exact ⟨h.1.env he, h.2.1, fun hno hne => (h.2.2 hno hne).env he⟩
  | reapLock w k i | reap w k i =>
    obtain ⟨hok, hne, hk, q, hq, htrue, hb⟩ := h
    obtain ⟨q', hq', htrue', hb', -⟩ := he.broken i q hq hb
    exact ⟨hok.env he, hne, hk, q', hq', htrue'.trans htrue, hb'⟩
  | reapUnlock w k | reapWake w k | waitRelock w k =>
    obtain ⟨hok, hne, ⟨hk, h0, hleft⟩ | ⟨i, hk, h0, hahead⟩⟩ := h
    · exact ⟨hok.env he, hne, .inl ⟨hk, h0, he.left _ hleft⟩⟩
    · exact ⟨hok.env he, hne, .inr ⟨i, hk, h0, fun hno => (hahead hno).env he⟩⟩
  | waitThreads w => exact ⟨h.1.env he, fun h0 hne => he.left _ (h.2 h0 hne)⟩
  | waitClear w | waitReturn w =>
    obtain ⟨hok, hleft, hno⟩ := h
    exact ⟨hok.env he, fun hne => he.left _ (hleft hne), hno⟩
  | _ => exact h.elim

/-! ## The parent's steps -/

/-- The operations of `sys_waitpid` other than `process_reap`. -/
def Act.quiet : Act → Bool
  | .skip | .lock | .unlock | .prepare | .clear | .wakeAll | .yield | .ret .. => true
  | _ => false

/-- **What one step of the call does.** -/
structure WaitNext (s : Waiting) (t : Nat) (p : Proc) (a : Act) (pc : Pc) : Prop where
  act : a.quiet ∨ ∃ w k i q, p.pc = .reap w k i ∧ s.kernel.procs i = some q ∧ a = .free i ∧
    pc = .reapUnlock (if q.exitStatus ≠ 0 then { w with exitStatus := q.exitStatus } else w) k
  at_ : a.quiet → pc.At s
  call : a.quiet → (∀ rax rcx, a ≠ .ret rax rcx) → ∀ w, p.pc.call = some w → w.toReap ≠ 0 →
    ∃ w', pc.call = some w' ∧ w'.toReap = w.toReap ∧ w'.exitStatus = w.exitStatus
  ret : ∀ rax rcx, a = .ret rax rcx →
    pc = .user ∧ ((rcx = none ∧ ∀ w, p.pc.call = some w → w.toReap = 0) ∨
    ∃ w, p.pc = .waitReturn w ∧ w.toReap ≠ 0 ∧ rax = w.toReap ∧ rcx = some w.exitStatus)
  unanswered : p.pc.unanswered t → NoChild s.kernel t →
    a = .ret eChild none ∨ (pc.unanswered t ∧ ∀ rax rcx, a ≠ .ret rax rcx)

attribute [local simp] Act.quiet Pc.call Pc.unanswered

/-- A step that goes on with the same call. -/
theorem WaitNext.goOn {s : Waiting} {w w' : Wait} (hq : a.quiet) (hr : ∀ rax rcx, a ≠ .ret rax rcx)
    (hw : p.pc.call = some w) (hw' : pc.call = some w')
    (hsame : w.toReap ≠ 0 → w'.toReap = w.toReap ∧ w'.exitStatus = w.exitStatus) (hat : pc.At s)
    (hun : p.pc.unanswered t → NoChild s.kernel t → pc.unanswered t) : WaitNext s t p a pc := by
  refine ⟨.inl hq, fun _ => hat, ?_, ?_, ?_⟩
  · intro _ _ w₀ hw₀ hne
    rw [hw] at hw₀
    cases hw₀
    exact ⟨w', hw', hsame hne⟩
  · exact fun rax rcx ha => absurd ha (hr rax rcx)
  · exact fun h hno => .inr ⟨hun h hno, hr⟩

theorem Left.of_threads {s : State} (hslots : ∀ j q, s.procs j = some q → j < nproc ∧ q.truePid ≠ 0)
    (h : ((List.range nproc).all fun i => !s.threadOf truePid i) = true) : Left s truePid := by
  intro j q hq htrue
  rw [List.all_eq_true] at h
  have hj := h j (List.mem_range.mpr (hslots j q hq).1)
  rw [State.threadOf, hq] at hj
  simp [htrue] at hj

/-- What a scan finds is to be reaped. -/
theorem Wait.Ok.found {s : Waiting} {w : Wait} (hw : w.Ok s) (hne : q.truePid ≠ 0)
    (hnew : ¬ s.Returned q.truePid) (hgiven : w.childPid ≠ 0 → q.truePid = w.childPid)
    (hany : w.childPid = 0 → w.toReap = 0) : Wait.Ok s { w with toReap := q.truePid } := by
  refine ⟨fun h0 => absurd h0 hne, fun _ => ?_, fun _ => hnew, fun hc => .inr (hgiven hc)⟩
  by_cases h0 : w.toReap = 0
  · exact .inl (hw.idle h0)
  · have hc : w.childPid ≠ 0 := fun hc => h0 (hany hc)
    have heq : q.truePid = w.toReap := (hgiven hc).trans ((hw.given hc).resolve_left h0).symm
    change _ ∨ s.passed q.truePid = _
    rw [heq]
    exact hw.status h0

section Steps
variable {s : Waiting} {w : Wait}

/-- A step of a call that is past its check. -/
theorem WaitNext.checked {w' : Wait} (hq : a.quiet) (hr : ∀ rax rcx, a ≠ .ret rax rcx)
    (hw : p.pc.call = some w) (hun : ¬ p.pc.unanswered t) (hw' : pc.call = some w')
    (hsame : w.toReap ≠ 0 → w'.toReap = w.toReap ∧ w'.exitStatus = w.exitStatus) (hat : pc.At s) :
    WaitNext s t p a pc :=
  .goOn hq hr hw hw' hsame hat fun h _ => absurd h hun

/-- The check for children: with none left it fails. -/
theorem waitCheck_waiting {parentOfChild : Nat} (hp : s.kernel.procs t = some p)
    (hpc : p.pc = .waitCheck w parentOfChild) (hat : p.pc.At s)
    (h : nextWait s.kernel t p (.waitCheck w parentOfChild) = some (a, pc)) :
    WaitNext s t p a pc := by
  rw [hpc] at hat
  simp only [nextWait] at h
  split at h
  · cases h
    refine ⟨.inl rfl, fun _ => trivial, fun _ hr => absurd rfl (hr _ _), ?_, fun _ _ => .inl rfl⟩
    intro rax rcx ha
    cases ha
    refine ⟨rfl, .inl ⟨rfl, ?_⟩⟩
    intro w' hw'
    rw [hpc] at hw'
    cases hw'
    exact hat.1
  · rename_i hno
    cases h
    have hw : w.Ok s := by
      refine ⟨fun _ => hat.2, ?_, ?_, fun _ => .inl hat.1⟩ <;> exact fun hne => absurd hat.1 hne
    refine .goOn rfl (by rintro _ _ ⟨⟩) (by rw [hpc]; rfl) rfl (fun _ => ⟨rfl, rfl⟩)
      ⟨hw, fun _ => hat.1⟩ ?_
    intro hun hnochild
    rw [hpc] at hun
    refine absurd ?_ hno
    by_cases h0 : w.childPid = 0
    · exact .inr ⟨h0, hnochild.1 p hp⟩
    · exact .inl ⟨h0, Ne.symm (hun h0)⟩

section Scan
variable (hslots : ∀ j q, s.kernel.procs j = some q → j < nproc ∧ q.truePid ≠ 0)
include hslots

/-- The search of the list of children. -/
theorem waitAny_waiting {rest : List Nat}
    (hreturned : ∀ j q, s.kernel.procs j = some q → ¬ s.Returned q.truePid)
    (hpc : p.pc = .waitAny w rest) (hat : p.pc.At s)
    (h : nextWait s.kernel t p (.waitAny w rest) = some (a, pc)) : WaitNext s t p a pc := by
  have hw₀ : p.pc.call = some w := by rw [hpc]; rfl
  have hun : ¬ p.pc.unanswered t := by rw [hpc]; exact id
  rw [hpc] at hat
  obtain ⟨hw, h0, hidle⟩ := hat
  cases rest with
  | nil =>
    cases h
    exact .checked rfl (by rintro _ _ ⟨⟩) hw₀ hun rfl (fun _ => ⟨rfl, rfl⟩)
      ⟨hw, fun _ hne => absurd hidle hne⟩
  | cons i rest =>
    simp only [nextWait] at h
    split at h
    · cases h
    rename_i q hq
    split at h
    · rename_i hb
      cases h
      refine .checked rfl (by rintro _ _ ⟨⟩) hw₀ hun rfl (fun hne => absurd hidle hne) ?_
      exact ⟨hw.found (hslots i q hq).2 (hreturned i q hq) (fun hc => absurd h0 hc)
        (fun _ => hidle), (hslots i q hq).2, .inl ⟨rfl, h0⟩, q, hq, rfl, hb⟩
    · cases h
      exact .checked rfl (by rintro _ _ ⟨⟩) hw₀ hun rfl (fun _ => ⟨rfl, rfl⟩) ⟨hw, h0, hidle⟩

/-- The search of the table. -/
theorem waitScan_waiting (hreturned : ∀ j q, s.kernel.procs j = some q → ¬ s.Returned q.truePid)
    (hok : s.passesLive w i = false) (hpc : p.pc = .waitScan w i) (hat : p.pc.At s)
    (h : nextWait s.kernel t p (.waitScan w i) = some (a, pc)) : WaitNext s t p a pc := by
  have hw₀ : p.pc.call = some w := by rw [hpc]; rfl
  have hun : ¬ p.pc.unanswered t := by rw [hpc]; exact id
  rw [hpc] at hat
  obtain ⟨hw, h0, hahead⟩ := hat
  simp only [nextWait] at h
  split at h
  · split at h
    · rename_i hnone
      cases h
      refine .checked rfl (by rintro _ _ ⟨⟩) hw₀ hun rfl (fun _ => ⟨rfl, rfl⟩) ⟨hw, h0,
        fun hno hne => ?_⟩
      exact (hahead hno hne).succ fun q hq => by rw [hnone] at hq; cases hq
    · rename_i q hq
      split at h
      · rename_i hb
        cases h
        refine .checked rfl (by rintro _ _ ⟨⟩) hw₀ hun rfl ?_ ?_
        · exact fun hne => ⟨hb.1.trans ((hw.given h0).resolve_left hne).symm, rfl⟩
        · exact ⟨hw.found (hslots i q hq).2 (hreturned i q hq) (fun _ => hb.1)
            (fun hc => absurd hc h0), (hslots i q hq).2, .inr ⟨rfl, h0⟩, q, hq, rfl, hb.2⟩
      · rename_i hother
        cases h
        refine .checked rfl (by rintro _ _ ⟨⟩) hw₀ hun rfl (fun _ => ⟨rfl, rfl⟩) ⟨hw, h0,
          fun hno hne => ?_⟩
        refine (hahead hno hne).succ fun q' hq' htrue => ?_
        -- the thread is not broken, since it is not reaped: the call passes it
        obtain rfl := Option.some.inj (hq.symm.trans hq')
        unfold Waiting.passesLive at hok
        rw [hq] at hok
        refine of_decide_eq_false hok ⟨hno, hne, htrue, fun hb => hother ⟨?_, hb⟩⟩
        exact htrue.trans ((hw.given h0).resolve_left hne)
  · rename_i hend
    cases h
    refine .checked rfl (by rintro _ _ ⟨⟩) hw₀ hun rfl (fun _ => ⟨rfl, rfl⟩) ⟨hw, fun hc hne => ?_⟩
    exact (hahead (hc.resolve_left h0) hne).left hslots (Nat.not_lt.mp hend)

/-- The test for threads that are left. -/
theorem waitThreads_waiting (hpc : p.pc = .waitThreads w) (hat : p.pc.At s)
    (h : nextWait s.kernel t p (.waitThreads w) = some (a, pc)) : WaitNext s t p a pc := by
  have hw₀ : p.pc.call = some w := by rw [hpc]; rfl
  have hun : ¬ p.pc.unanswered t := by rw [hpc]; exact id
  rw [hpc] at hat
  obtain ⟨hw, hleft⟩ := hat
  simp only [nextWait] at h
  split at h
  · rename_i hend
    cases h
    refine .checked rfl (by rintro _ _ ⟨⟩) hw₀ hun rfl (fun _ => ⟨rfl, rfl⟩) ⟨hw, fun hne => ?_, ?_⟩
    · by_cases h0 : w.childPid = 0
      · exact hleft (.inl h0) hne
      · rcases hend with ⟨-, hnone⟩ | hno
        · rw [(hw.given h0).resolve_left hne]
          exact .of_threads hslots hnone
        · exact hleft (.inr hno) hne
    · exact fun h0 => hend.resolve_left (fun h => h.1 h0)
  · rename_i hend
    cases h
    refine .checked rfl (by rintro _ _ ⟨⟩) hw₀ hun rfl (fun _ => ⟨rfl, rfl⟩) ⟨hw, fun h0 => ?_⟩
    -- the test of a call for any child finds no thread of process 0
    by_contra hne
    refine hend (.inl ⟨hne, List.all_eq_true.mpr fun i _ => ?_⟩)
    rw [h0, State.threadOf]
    split
    · rename_i q hq
      simp [(hslots i q hq).2]
    · rfl

end Scan

/-- The end of the call. -/
theorem waitReturn_waiting (hpc : p.pc = .waitReturn w) (hat : p.pc.At s)
    (h : nextWait s.kernel t p (.waitReturn w) = some (a, pc)) : WaitNext s t p a pc := by
  have hun : ¬ p.pc.unanswered t := by rw [hpc]; exact id
  rw [hpc] at hat
  obtain ⟨hw, hleft, hno⟩ := hat
  simp only [nextWait] at h
  split at h
  all_goals
    rename_i hagain
    cases h
    refine ⟨.inl rfl, fun _ => trivial, fun _ hr => absurd rfl (hr _ _), ?_,
      fun h _ => absurd h hun⟩
    intro rax rcx ha
    cases ha
  · refine ⟨rfl, .inl ⟨rfl, ?_⟩⟩
    intro w' hw'
    rw [hpc] at hw'
    cases hw'
    exact hagain.1
  · exact ⟨rfl, .inr ⟨w, hpc, fun h0 => hagain ⟨h0, hno h0⟩, rfl, rfl⟩⟩

/-- `process_reap` is all that is not quiet. -/
theorem reap_waiting {k : Option Nat} (hpc : p.pc = .reap w k i)
    (h : nextWait s.kernel t p (.reap w k i) = some (a, pc)) : WaitNext s t p a pc := by
  simp only [nextWait] at h
  split at h
  · cases h
  · rename_i q hq
    cases h
    refine ⟨.inr ⟨w, k, i, q, hpc, hq, rfl, rfl⟩, ?_, ?_, ?_, by rw [hpc]; exact fun h => h.elim⟩
    · rintro ⟨⟩
    · rintro ⟨⟩
    · rintro _ _ ⟨⟩

/-- **Every step of the call** does what `WaitNext` says. -/
theorem nextWait_waiting (hp : s.kernel.procs t = some p) (hpos : 0 < t)
    (hslots : ∀ j q, s.kernel.procs j = some q → j < nproc ∧ q.truePid ≠ 0)
    (hreturned : ∀ j q, s.kernel.procs j = some q → ¬ s.Returned q.truePid)
    (hok : shortWait t s .step = false) (hat : p.pc.At s)
    (h : nextWait s.kernel t p p.pc = some (a, pc)) : WaitNext s t p a pc := by
  have hat₀ := hat
  cases hpc : p.pc
  all_goals rw [hpc] at h hat
  case waitParentLock w =>
    cases h
    exact .goOn rfl (by rintro _ _ ⟨⟩) (by rw [hpc]; rfl) rfl (fun _ => ⟨rfl, rfl⟩) hat
      (fun h _ => by rw [hpc] at h; exact h)
  case waitParent w =>
    cases h
    refine .goOn rfl (by rintro _ _ ⟨⟩) (by rw [hpc]; rfl) rfl (fun _ => ⟨rfl, rfl⟩) hat ?_
    intro hne hno _
    rw [hpc] at hne
    split
    · rename_i q hq
      exact hno.2 _ q hq hne
    · omega
  case waitCheck w parentOfChild => exact waitCheck_waiting hp hpc hat₀ h
  case waitLock w | waitPrepare w | waitBlock w | waitBlocked w | waitClear w =>
    cases h
    exact .checked rfl (by rintro _ _ ⟨⟩) (by rw [hpc]; rfl) (by rw [hpc]; exact id) rfl
      (fun _ => ⟨rfl, rfl⟩) hat
  case waitStart w =>
    cases h
    obtain ⟨hw, hany⟩ := hat
    by_cases h0 : w.childPid = 0
    · rw [if_pos h0]
      exact .checked rfl (by rintro _ _ ⟨⟩) (by rw [hpc]; rfl) (by rw [hpc]; exact id) rfl
        (fun _ => ⟨rfl, rfl⟩) ⟨hw, h0, hany h0⟩
    · rw [if_neg h0]
      exact .checked rfl (by rintro _ _ ⟨⟩) (by rw [hpc]; rfl) (by rw [hpc]; exact id) rfl
        (fun _ => ⟨rfl, rfl⟩) ⟨hw, h0, fun _ _ => ahead_zero _ _⟩
  case waitAny w rest => exact waitAny_waiting hslots hreturned hpc hat₀ h
  case waitScan w i =>
    exact waitScan_waiting hslots hreturned (by simpa [shortWait, hp, hpc] using hok) hpc hat₀ h
  case reapLock w k i =>
    cases h
    exact .checked rfl (by rintro _ _ ⟨⟩) (by rw [hpc]; rfl) (by rw [hpc]; exact id) rfl
      (fun _ => ⟨rfl, rfl⟩) hat
  case reap w k i => exact reap_waiting hpc h
  case reapUnlock w k | reapWake w k =>
    cases h
    exact .checked rfl (by rintro _ _ ⟨⟩) (by rw [hpc]; rfl) (by rw [hpc]; exact id) rfl
      (fun _ => ⟨rfl, rfl⟩) hat
  case waitRelock w k =>
    obtain ⟨hw, hne, ⟨rfl, h0, hleft⟩ | ⟨i, rfl, h0, hahead⟩⟩ := hat
    · cases h
      exact .checked rfl (by rintro _ _ ⟨⟩) (by rw [hpc]; rfl) (by rw [hpc]; exact id) rfl
        (fun _ => ⟨rfl, rfl⟩) ⟨hw, fun _ _ => hleft⟩
    · cases h
      exact .checked rfl (by rintro _ _ ⟨⟩) (by rw [hpc]; rfl) (by rw [hpc]; exact id) rfl
        (fun _ => ⟨rfl, rfl⟩) ⟨hw, h0, fun hno _ => hahead hno⟩
  case waitThreads w => exact waitThreads_waiting hslots hpc hat₀ h
  case waitReturn w => exact waitReturn_waiting hpc hat₀ h
  all_goals first
    | exact hat.elim
    | simp [nextWait] at h

end Steps

/-! ## The invariant -/

/-- Everything about a task but where it is and whether it runs. -/
def Proc.fate (p : Proc) : Links × Int × Bool := (p.links, p.exitStatus, p.state = .broken)

theorem Proc.woken_fate (p : Proc) : p.woken.fate = p.fate := by
  unfold Proc.woken
  split
  · rename_i h
    simp [Proc.fate, Proc.links, h]
  · rfl

theorem fate_setProc (hp : s.procs i = some p) (h : q.fate = p.fate) (j : Nat) :
    ((s.setProc i (some q)).procs j).map Proc.fate = (s.procs j).map Proc.fate := by
  by_cases hj : j = i
  · rw [hj, setProc_procs_self, hp, Option.map_some, Option.map_some, h]
  · rw [setProc_procs_ne _ _ hj]

/-- The quiet operations leave every task its fate. -/
theorem perform_fate {c : Nat} {s₁ : State} (hp : s.procs t = some p) (hb : p.state ≠ .broken)
    (ha : a.quiet) (h : s.perform c t p a = some s₁) (j : Nat) :
    (s₁.procs j).map Proc.fate = (s.procs j).map Proc.fate := by
  cases a with
  | skip | unlock | yield => cases h; rfl
  | lock =>
    simp only [State.perform] at h
    split at h
    · cases h; rfl
    · cases h
  | prepare | clear =>
    cases h
    exact fate_setProc hp (by simp [Proc.fate, Proc.links, hb]) j
  | ret rax rcx =>
    cases h
    refine fate_setProc hp ?_ j
    rfl
  | wakeAll =>
    cases h
    rw [wakeAll_procs]
    split
    · cases s.procs j with
      | none => rfl
      | some q => exact congrArg some q.woken_fate
    · rfl
  | _ => simp at ha

/-- What the fates of the tasks alone decide. -/
structure TableInv (t : Nat) (s : Waiting) : Prop where
  slots : ∀ j q, s.kernel.procs j = some q → j < nproc ∧ q.truePid ≠ 0
  kids : ∀ p, s.kernel.procs t = some p → ∀ j, j ∈ p.children ↔
    j ≠ t ∧ ∃ q, s.kernel.procs j = some q ∧ q.ppid = t
  dead : ∀ truePid v, s.passed truePid = some v → truePid ≠ 0 ∧
    ∀ j q, s.kernel.procs j = some q → q.truePid = truePid → q.state = .broken

/-- What the calls that have returned have in common: no thread of a child they returned is
left, and its status is the one it passed to `sys_exit`; no child was returned twice; who
had no child was told so. -/
structure ReturnsInv (s : Waiting) : Prop where
  gone : ∀ truePid, s.Returned truePid → Left s.kernel truePid
  status : ∀ r ∈ s.returns, ∀ st, r.rcx = some st → ∃ truePid : Nat, r.rax = truePid ∧ truePid ≠ 0 ∧
    ∀ v, s.passed truePid = some v → st = v
  nodup : ((s.returns.filter fun r => r.rcx.isSome).map Return.rax).Nodup
  answered : ∀ r ∈ s.returns, r.childless = true → r.rax = eChild ∧ r.rcx = none

/-- Who has passed a status to `sys_exit` has been returned, is being reaped, or is still
in the table with that status. -/
def Waiting.Accounts (s : Waiting) (pc : Pc) : Prop :=
  ∀ truePid v, s.passed truePid = some v → s.Returned truePid ∨
    (∃ w, pc.call = some w ∧ w.toReap = truePid ∧ (v ≠ 0 → w.exitStatus = v)) ∨
    ∃ j q, s.kernel.procs j = some q ∧ q.truePid = truePid ∧ q.state = .broken ∧ q.exitStatus = v

/-- The invariant behind `child_waited_once`. -/
structure WaitInv (t : Nat) (s : Waiting) : Prop where
  positive : 0 < t
  parent : ∃ p, s.kernel.procs t = some p ∧ p.state ≠ .broken ∧ p.pc.At s ∧ p.children.Nodup ∧
    s.Accounts p.pc ∧ (s.childless = true → p.pc = .user ∨ (NoChild s.kernel t ∧ p.pc.unanswered t))
  table : TableInv t s
  blank : ∀ j q, s.kernel.procs j = some q → q.state ≠ .blank
  returns : ReturnsInv s

section Fate
variable {s s' : Waiting} {p' : Proc}

/-- The same tasks with the same fate. -/
theorem fate_cases (h : ∀ j, (s'.kernel.procs j).map Proc.fate = (s.kernel.procs j).map Proc.fate)
    (hq : s.kernel.procs j = some q) : ∃ q', s'.kernel.procs j = some q' ∧ q'.truePid = q.truePid ∧
      q'.ppid = q.ppid ∧ q'.children = q.children ∧ q'.exitStatus = q.exitStatus ∧
      (q'.state = .broken ↔ q.state = .broken) := by
  have hj := h j
  rw [hq, Option.map_some] at hj
  obtain ⟨q', hq', hfate⟩ := Option.map_eq_some_iff.mp hj
  have hlinks : q'.links = q.links := congrArg Prod.fst hfate
  have hstatus : q'.exitStatus = q.exitStatus := congrArg (fun f => f.2.1) hfate
  have hbroken : decide (q'.state = .broken) = decide (q.state = .broken) :=
    congrArg (fun f => f.2.2) hfate
  refine ⟨q', hq', congrArg Links.truePid hlinks, congrArg Links.ppid hlinks,
    congrArg Links.children hlinks, hstatus, decide_eq_decide.mp hbroken⟩

variable (h : ∀ j, (s'.kernel.procs j).map Proc.fate = (s.kernel.procs j).map Proc.fate)
include h

theorem fate_back {q' : Proc} (hq' : s'.kernel.procs j = some q') : ∃ q, s.kernel.procs j = some q ∧
    q'.truePid = q.truePid ∧ q'.ppid = q.ppid ∧ q'.children = q.children ∧
    (q'.state = .broken ↔ q.state = .broken) := by
  have hj := h j
  rw [hq', Option.map_some] at hj
  obtain ⟨q, hq, -⟩ := Option.map_eq_some_iff.mp hj.symm
  obtain ⟨q₁, hq₁, htrue, hppid, hchildren, -, hb⟩ := fate_cases h hq
  rw [hq'] at hq₁
  cases hq₁
  exact ⟨q, hq, htrue, hppid, hchildren, hb⟩

theorem left_of_fate (truePid : Nat) (hl : Left s.kernel truePid) : Left s'.kernel truePid := by
  intro j q' hq'
  obtain ⟨q, hq, htrue, -⟩ := fate_back h hq'
  rw [htrue]
  exact hl j q hq

theorem noChild_of_fate (hno : NoChild s.kernel t) : NoChild s'.kernel t := by
  refine ⟨?_, ?_⟩
  · intro p' hp'
    obtain ⟨p, hp, -, -, hchildren, -⟩ := fate_back h hp'
    rw [hchildren]
    exact hno.1 p hp
  · intro j q' hq' hj
    obtain ⟨q, hq, -, hppid, -⟩ := fate_back h hq'
    rw [hppid]
    exact hno.2 j q hq hj

/-- A step that leaves the fates does not disturb the call. -/
theorem Env.of_fate (hpassed : s'.passed = s.passed) (hreturns : s'.returns = s.returns) :
    Env s s' := by
  refine ⟨left_of_fate h, ?_, ?_, fun _ _ h => by rwa [hpassed], hreturns⟩
  · intro j q hq
    obtain ⟨q', hq', htrue, -⟩ := fate_cases h hq
    exact ⟨q', hq', htrue⟩
  · intro j q hq hb
    obtain ⟨q', hq', htrue, -, -, hst, hb'⟩ := fate_cases h hq
    exact ⟨q', hq', htrue, hb'.mpr hb, hst⟩

end Fate

section Quiet
variable {s : Waiting} {s₁ : State} {p₁ : Proc}

/-- The parent's state after a step other than `process_reap`. -/
theorem quiet_fate (hp : s.kernel.procs t = some p) (hb : p.state ≠ .broken) (ha : a.quiet)
    (hs₁ : s.kernel.perform 0 t p a = some s₁) (hp₁ : s₁.procs t = some p₁) (j : Nat) :
    ((s₁.setProc t (some { p₁ with pc := pc })).procs j).map Proc.fate =
      (s.kernel.procs j).map Proc.fate := by
  have hset : ((s₁.setProc t (some { p₁ with pc := pc })).procs j).map Proc.fate =
      (s₁.procs j).map Proc.fate := by
    refine fate_setProc hp₁ ?_ j
    rfl
  exact hset.trans (perform_fate hp hb ha hs₁ j)

end Quiet

theorem TableInv.fate {s s' : Waiting} (hi : TableInv t s)
    (h : ∀ j, (s'.kernel.procs j).map Proc.fate = (s.kernel.procs j).map Proc.fate)
    (hpassed : s'.passed = s.passed) : TableInv t s' := by
  refine ⟨?_, ?_, ?_⟩
  · intro j q' hq'
    obtain ⟨q, hq, htrue, -⟩ := fate_back h hq'
    rw [htrue]
    exact hi.slots j q hq
  · intro p' hp' j
    obtain ⟨p, hp, -, -, hchildren, -⟩ := fate_back h hp'
    rw [hchildren, hi.kids p hp j]
    refine and_congr_right fun _ => ⟨?_, ?_⟩
    · rintro ⟨q, hq, hppid⟩
      obtain ⟨q', hq', -, hppid', -⟩ := fate_cases h hq
      exact ⟨q', hq', hppid'.trans hppid⟩
    · rintro ⟨q', hq', hppid⟩
      obtain ⟨q, hq, -, hppid', -⟩ := fate_back h hq'
      exact ⟨q, hq, hppid'.symm.trans hppid⟩
  · intro truePid v hv
    rw [hpassed] at hv
    obtain ⟨hne, hdead⟩ := hi.dead truePid v hv
    refine ⟨hne, fun j q' hq' htrue => ?_⟩
    obtain ⟨q, hq, htrue', -, -, hb⟩ := fate_back h hq'
    exact hb.mpr (hdead j q hq (htrue'.symm.trans htrue))

theorem ReturnsInv.env {s s' : Waiting} (hi : ReturnsInv s) (he : Env s s')
    (hpassed : ∀ truePid, s.Returned truePid → s'.passed truePid = s.passed truePid) :
    ReturnsInv s' := by
  have hret : ∀ truePid, s'.Returned truePid ↔ s.Returned truePid := by
    intro truePid
    unfold Waiting.Returned
    rw [he.returns]
  refine ⟨fun truePid h => he.left _ (hi.gone truePid ((hret truePid).mp h)), ?_, ?_, ?_⟩
  · intro r hr st hst
    rw [he.returns] at hr
    obtain ⟨truePid, hrax, hne, hv⟩ := hi.status r hr st hst
    refine ⟨truePid, hrax, hne, fun v hpass => hv v ?_⟩
    rwa [hpassed truePid ⟨r, hr, by rw [hst]; exact nofun, hrax⟩] at hpass
  · rw [he.returns]
    exact hi.nodup
  · rw [he.returns]
    exact hi.answered

/-- A successful call returns a child that no call has returned. -/
theorem ReturnsInv.push {s s' : Waiting} (hi : ReturnsInv s) {r : Return}
    (hleft : ∀ truePid, Left s.kernel truePid → Left s'.kernel truePid)
    (hpassed : s'.passed = s.passed) (hreturns : s'.returns = s.returns ++ [r])
    (hr : ∀ st, r.rcx = some st → ∃ truePid : Nat, r.rax = truePid ∧ truePid ≠ 0 ∧
      ¬ s.Returned truePid ∧ Left s.kernel truePid ∧ ∀ v, s.passed truePid = some v → st = v)
    (hans : r.childless = true → r.rax = eChild ∧ r.rcx = none) : ReturnsInv s' := by
  refine ⟨?_, ?_, ?_, ?_⟩
  · rintro truePid ⟨x, hx, hsome, hrax⟩
    rw [hreturns] at hx
    refine hleft _ ?_
    rcases List.mem_append.mp hx with hx | hx
    · exact hi.gone truePid ⟨x, hx, hsome, hrax⟩
    · obtain rfl := List.mem_singleton.mp hx
      obtain ⟨st, hst⟩ := Option.ne_none_iff_exists'.mp hsome
      obtain ⟨P, hP, -, -, hl, -⟩ := hr st hst
      have heq : truePid = P := Int.ofNat.inj (hrax.symm.trans hP)
      rw [heq]
      exact hl
  · intro x hx st hst
    rw [hreturns] at hx
    rw [hpassed]
    rcases List.mem_append.mp hx with hx | hx
    · exact hi.status x hx st hst
    · obtain rfl := List.mem_singleton.mp hx
      obtain ⟨P, hP, hne, -, -, hv⟩ := hr st hst
      exact ⟨P, hP, hne, hv⟩
  · rw [hreturns, List.filter_append, List.map_append]
    cases hrcx : r.rcx with
    | none => simpa [hrcx] using hi.nodup
    | some st =>
      obtain ⟨P, hP, -, hnew, -⟩ := hr st hrcx
      have hfilter : ([r].filter fun r => r.rcx.isSome).map Return.rax = [(P : Int)] := by
        simp [hrcx, hP]
      rw [hfilter, ← List.concat_eq_append]
      refine hi.nodup.concat fun hmem => ?_
      obtain ⟨x, hx, hrax⟩ := List.mem_map.mp hmem
      obtain ⟨hx, hsome⟩ := List.mem_filter.mp hx
      exact hnew ⟨x, hx, Option.isSome_iff_ne_none.mp hsome, hrax⟩
  · intro x hx hc
    rw [hreturns] at hx
    rcases List.mem_append.mp hx with hx | hx
    · exact hi.answered x hx hc
    · obtain rfl := List.mem_singleton.mp hx
      exact hans hc

theorem not_returned {s : Waiting} (hi : ReturnsInv s) (hq : s.kernel.procs j = some q) :
    ¬ s.Returned q.truePid :=
  fun h => hi.gone q.truePid h j q hq rfl

/-- What a step of the parent other than `process_reap` keeps, whatever it returns. -/
structure Quiet (t : Nat) (s s' : Waiting) (p : Proc) (pc : Pc) : Prop where
  fate : ∀ j, (s'.kernel.procs j).map Proc.fate = (s.kernel.procs j).map Proc.fate
  passed : s'.passed = s.passed
  blank : ∀ j q, s'.kernel.procs j = some q → q.state ≠ .blank
  before : s.kernel.procs t = some p
  after : ∃ p', s'.kernel.procs t = some p' ∧ p'.pc = pc

theorem Quiet.inv {s s' : Waiting} (hq : Quiet t s s' p pc) (hi : WaitInv t s)
    (hat : pc.At s') (hacc : s'.Accounts pc)
    (hchildless : s'.childless = true → pc = .user ∨ (NoChild s'.kernel t ∧ pc.unanswered t))
    (hreturns : ReturnsInv s') : WaitInv t s' := by
  obtain ⟨p₀, hp₀, hb, -, hnodup, -, -⟩ := hi.parent
  rw [hq.before] at hp₀
  cases hp₀
  obtain ⟨p', hp', hpc⟩ := hq.after
  obtain ⟨p₁, hp₁, -, -, hchildren, hb₁⟩ := fate_back hq.fate hp'
  rw [hq.before] at hp₁
  cases hp₁
  refine ⟨hi.positive, ⟨p', hp', fun h => hb (hb₁.mp h), hpc ▸ hat, hchildren ▸ hnodup,
    hpc ▸ hacc, ?_⟩, hi.table.fate hq.fate hq.passed, hq.blank, hreturns⟩
  rw [hpc]
  exact hchildless

theorem accounts_fate {s s' : Waiting}
    (h : ∀ j, (s'.kernel.procs j).map Proc.fate = (s.kernel.procs j).map Proc.fate) {v : Int}
    (hc : ∃ j q, s.kernel.procs j = some q ∧ q.truePid = truePid ∧ q.state = .broken ∧
      q.exitStatus = v) :
    ∃ j q, s'.kernel.procs j = some q ∧ q.truePid = truePid ∧ q.state = .broken ∧
      q.exitStatus = v := by
  obtain ⟨j, q, hq, htrue, hb, hst⟩ := hc
  obtain ⟨q', hq', htrue', -, -, hst', hb'⟩ := fate_cases h hq
  exact ⟨j, q', hq', htrue'.trans htrue, hb'.mpr hb, hst'.trans hst⟩

/-- A step that goes on with the call. -/
theorem Quiet.goOn {s s' : Waiting} (hq : Quiet t s s' p pc) (hi : WaitInv t s)
    (hnext : WaitNext s t p a pc) (ha : a.quiet) (hr : ∀ rax rcx, a ≠ .ret rax rcx)
    (hu : p.pc ≠ .user) (hreturns : s'.returns = s.returns) (hcl : s'.childless = s.childless) :
    WaitInv t s' := by
  obtain ⟨p₀, hp₀, -, -, -, hacc, hchildless⟩ := hi.parent
  rw [hq.before] at hp₀
  cases hp₀
  have he : Env s s' := .of_fate hq.fate hq.passed hreturns
  refine hq.inv hi ((hnext.at_ ha).env he) ?_ ?_ (hi.returns.env he fun _ _ => by rw [hq.passed])
  · intro truePid v hv
    rw [hq.passed] at hv
    rcases hacc truePid v hv with h | ⟨w, hw, htrue, hst⟩ | h
    · exact .inl (by unfold Waiting.Returned; rwa [hreturns])
    · obtain ⟨w', hw', htrue', hst'⟩ := hnext.call ha hr w hw
        (by rw [htrue]; exact (hi.table.dead truePid v hv).1)
      exact .inr (.inl ⟨w', hw', htrue'.trans htrue, fun hne => hst'.trans (hst hne)⟩)
    · exact .inr (.inr (accounts_fate hq.fate h))
  · intro hc
    rcases hchildless (hcl.symm.trans hc) with h | ⟨hno, hun⟩
    · exact absurd h hu
    · rcases hnext.unanswered hun hno with h | ⟨h, -⟩
      · exact absurd h (hr _ _)
      · exact .inr ⟨noChild_of_fate hq.fate hno, h⟩

/-- A step that returns from the call. -/
theorem Quiet.ret {s s' : Waiting} {rax : Int} {rcx : Option Int} (hq : Quiet t s s' p pc)
    (hi : WaitInv t s) (hnext : WaitNext s t p (.ret rax rcx) pc) (hu : p.pc ≠ .user)
    (hreturns : s'.returns = s.returns ++ [⟨s.childless, rax, rcx⟩]) : WaitInv t s' := by
  obtain ⟨p₀, hp₀, -, hat, -, hacc, hchildless⟩ := hi.parent
  rw [hq.before] at hp₀
  cases hp₀
  obtain ⟨hpc, hret⟩ := hnext.ret rax rcx rfl
  refine hq.inv hi (by rw [hpc]; trivial) ?_ (fun _ => .inl hpc) ?_
  · intro truePid v hv
    rw [hq.passed] at hv
    have hne := (hi.table.dead truePid v hv).1
    rcases hacc truePid v hv with ⟨r, hr, h⟩ | ⟨w, hw, htrue, -⟩ | h
    · refine .inl ⟨r, ?_, h⟩
      rw [hreturns]
      exact List.mem_append_left _ hr
    · rcases hret with ⟨-, hidle⟩ | ⟨w', hw', -, hrax, hrcx⟩
      · exact absurd ((hidle w hw).symm.trans htrue) (Ne.symm hne)
      · rw [hw'] at hw
        cases hw
        refine .inl ⟨⟨s.childless, rax, rcx⟩, ?_, by rw [hrcx]; exact nofun, by rw [hrax, htrue]⟩
        rw [hreturns]
        exact List.mem_append_right _ (List.mem_singleton.mpr rfl)
    · exact .inr (.inr (accounts_fate hq.fate h))
  · refine hi.returns.push (left_of_fate hq.fate) hq.passed hreturns ?_ ?_
    · intro st hst
      rcases hret with ⟨hnone, -⟩ | ⟨w, hw, hne, hrax, hrcx⟩
      · rw [hnone] at hst
        cases hst
      · obtain rfl : w.exitStatus = st := Option.some.inj (hrcx.symm.trans hst)
        rw [hw] at hat
        obtain ⟨hwok, hleft, -⟩ := hat
        refine ⟨w.toReap, hrax, hne, hwok.new hne, hleft hne, ?_⟩
        -- the status of the thread that called `sys_exit` has been seen
        intro v hv
        by_cases hv0 : v = 0
        · rcases hwok.status hne with h0 | hsome
          · rw [h0, hv0]
          · rw [hv] at hsome
            exact (Option.some.inj hsome).symm
        · rcases hacc w.toReap v hv with h | ⟨w', hw', -, hst'⟩ | ⟨j, q, hqj, htrue, -⟩
          · exact absurd h (hwok.new hne)
          · rw [hw] at hw'
            cases hw'
            exact hst' hv0
          · exact absurd htrue (hleft hne j q hqj)
    · intro hc
      rcases hchildless hc with h | ⟨hno, hun⟩
      · exact absurd h hu
      · rcases hnext.unanswered hun hno with h | ⟨-, h⟩
        · cases h
          exact ⟨rfl, rfl⟩
        · exact absurd rfl (h rax rcx)

theorem WaitInv.call {s : Waiting} {childPid : Nat} {nohang : Bool} (hi : WaitInv t s)
    (hp : s.kernel.procs t = some p) (hu : p.pc = .user) (hne : childPid ≠ t) :
    WaitInv t { s with
      kernel := s.kernel.setProc t (some { p with pc := .waitParentLock { childPid, nohang } })
      childless := s.kernel.childless t } := by
  obtain ⟨p₀, hp₀, -, -, -, hacc, -⟩ := hi.parent
  rw [hp] at hp₀
  cases hp₀
  have hfate : ∀ j, ((s.kernel.setProc t (some
      { p with pc := .waitParentLock { childPid, nohang } })).procs j).map Proc.fate =
      (s.kernel.procs j).map Proc.fate := by
    intro j
    refine fate_setProc hp ?_ j
    rfl
  have hq : Quiet t s { s with
      kernel := s.kernel.setProc t (some { p with pc := .waitParentLock { childPid, nohang } })
      childless := s.kernel.childless t } p (.waitParentLock { childPid, nohang }) := by
    refine ⟨hfate, rfl, ?_, hp, ⟨_, setProc_procs_self .., rfl⟩⟩
    intro j q hq
    change (s.kernel.setProc t _).procs j = some q at hq
    by_cases hj : j = t
    · rw [hj, setProc_procs_self] at hq
      cases hq
      exact hi.blank t p hp
    · rw [setProc_procs_ne _ _ hj] at hq
      exact hi.blank j q hq
  refine hq.inv hi ⟨rfl, rfl⟩ ?_ ?_ ?_
  · intro truePid v hv
    rcases hacc truePid v hv with h | ⟨w, hw, -⟩ | h
    · exact .inl h
    · rw [hu] at hw
      cases hw
    · exact .inr (.inr (accounts_fate hq.fate h))
  · intro hc
    refine .inr ⟨noChild_of_fate hq.fate ?_, hne⟩
    have hall := List.all_eq_true.mp hc
    refine ⟨?_, ?_⟩
    · intro p' hp'
      have ht := hall t (List.mem_range.mpr (hi.table.slots t p' hp').1)
      rw [hp'] at ht
      simpa using ht
    · intro j q hqj hj
      have ht := hall j (List.mem_range.mpr (hi.table.slots j q hqj).1)
      rw [hqj] at ht
      simpa [hj] using ht
  · exact hi.returns.env (.of_fate hq.fate rfl rfl) (fun _ _ => rfl)

/-- A step of another task. -/
theorem WaitInv.other {s s' : Waiting} (hi : WaitInv t s) (he : Env s s') (htable : TableInv t s')
    (hblank : ∀ j q, s'.kernel.procs j = some q → q.state ≠ .blank)
    (hparent : ∀ p, s.kernel.procs t = some p → ∃ p', s'.kernel.procs t = some p' ∧ p'.pc = p.pc ∧
      p'.state = p.state ∧ (p.children.Nodup → p'.children.Nodup))
    (hno : NoChild s.kernel t → NoChild s'.kernel t) (hcl : s'.childless = s.childless)
    (hpassed : ∀ truePid, s.Returned truePid → s'.passed truePid = s.passed truePid)
    (hnew : ∀ truePid v, s'.passed truePid = some v → s.passed truePid = some v ∨
      ∃ j q, s'.kernel.procs j = some q ∧ q.truePid = truePid ∧ q.state = .broken ∧
      q.exitStatus = v) :
    WaitInv t s' := by
  obtain ⟨p, hp, hb, hat, hnodup, hacc, hchildless⟩ := hi.parent
  obtain ⟨p', hp', hpc, hst, hchildren⟩ := hparent p hp
  refine ⟨hi.positive, ⟨p', hp', hst ▸ hb, hpc ▸ hat.env he, hchildren hnodup, ?_, ?_⟩,
    htable, hblank, hi.returns.env he hpassed⟩
  · intro truePid v hv
    rw [hpc]
    rcases hnew truePid v hv with hv | h
    · rcases hacc truePid v hv with h | h | ⟨j, q, hq, htrue, hbr, hv'⟩
      · exact .inl (by unfold Waiting.Returned; rwa [he.returns])
      · exact .inr (.inl h)
      · obtain ⟨q', hq', htrue', hb', hst'⟩ := he.broken j q hq hbr
        exact .inr (.inr ⟨j, q', hq', htrue'.trans htrue, hb', hst'.trans hv'⟩)
    · exact .inr (.inr h)
  · rw [hcl, hpc]
    exact fun hc => (hchildless hc).imp_right (fun h => ⟨hno h.1, h.2⟩)

/-- Task `j`, which was `q`, has ended as `q'`; if it was the last of its process to do so, the
process may have passed its status to `sys_exit`. -/
structure Ended (j : Nat) (q q' : Proc) (s s' : Waiting) : Prop where
  was : s.kernel.procs j = some q
  running : q.state ≠ .broken
  now : s'.kernel.procs j = some q'
  other : ∀ k, k ≠ j → s'.kernel.procs k = s.kernel.procs k
  truePid : q'.truePid = q.truePid
  ppid : q'.ppid = q.ppid
  broken : q'.state = .broken
  returns : s'.returns = s.returns
  passed : s'.passed = s.passed ∨ (s.kernel.alone q.truePid j = true ∧
    s'.passed = fun i => if i = q.truePid then some q'.exitStatus else s.passed i)

section Ended
variable {s s' : Waiting} {q' : Proc} (h : Ended j q q' s s')
include h

theorem Ended.back {k : Nat} {r' : Proc} (hr' : s'.kernel.procs k = some r') : ∃ r,
    s.kernel.procs k = some r ∧ r'.truePid = r.truePid ∧ r'.ppid = r.ppid ∧
      (r'.state = r.state ∨ r'.state = .broken) := by
  by_cases hkj : k = j
  · rw [hkj, h.now] at hr'
    cases hr'
    exact ⟨q, hkj ▸ h.was, h.truePid, h.ppid, .inr h.broken⟩
  · rw [h.other k hkj] at hr'
    exact ⟨r', hr', rfl, rfl, .inl rfl⟩

theorem Ended.forth {k : Nat} {r : Proc} (hr : s.kernel.procs k = some r) : ∃ r',
    s'.kernel.procs k = some r' ∧ r'.truePid = r.truePid ∧ r'.ppid = r.ppid := by
  by_cases hkj : k = j
  · rw [hkj, h.was] at hr
    cases hr
    exact ⟨q', hkj ▸ h.now, h.truePid, h.ppid⟩
  · exact ⟨r, (h.other k hkj).trans hr, rfl, rfl⟩

theorem Ended.keeps (hne : truePid ≠ q.truePid) : s'.passed truePid = s.passed truePid := by
  rcases h.passed with h | ⟨-, h⟩
  · rw [h]
  · rw [h]
    exact if_neg hne

/-- The process had not passed a status before: one of its threads was not broken. -/
theorem Ended.unpassed (hi : TableInv t s) : s.passed q.truePid = none := by
  rw [Option.eq_none_iff_forall_ne_some]
  intro v hv
  exact h.running ((hi.dead q.truePid v hv).2 j q h.was rfl)

theorem Ended.env (hi : TableInv t s) : Env s s' := by
  refine ⟨?_, ?_, ?_, ?_, h.returns⟩
  · intro truePid hl k r' hr'
    obtain ⟨r, hr, htr, -⟩ := h.back hr'
    rw [htr]
    exact hl k r hr
  · intro k r hr
    obtain ⟨r', hr', htr, -⟩ := h.forth hr
    exact ⟨r', hr', htr⟩
  · intro k r hr hbr
    have hkj : k ≠ j := by
      rintro rfl
      rw [h.was] at hr
      cases hr
      exact h.running hbr
    exact ⟨r, (h.other k hkj).trans hr, rfl, hbr, rfl⟩
  · intro truePid v hv
    rw [h.keeps (by rintro rfl; rw [h.unpassed hi] at hv; cases hv)]
    exact hv

/-- A process that has passed its status has no thread that is not broken. -/
theorem Ended.dead (hi : TableInv t s) {v : Int} (hv : s'.passed truePid = some v) {k : Nat}
    {r' : Proc} (hr' : s'.kernel.procs k = some r') (htr' : r'.truePid = truePid) :
    r'.state = .broken := by
  by_cases heq : truePid = q.truePid
  · subst heq
    rcases h.passed with hsame | ⟨halone, -⟩
    · rw [hsame, h.unpassed hi] at hv
      cases hv
    · by_cases hkj : k = j
      · rw [hkj, h.now] at hr'
        cases hr'
        exact h.broken
      · rw [h.other k hkj] at hr'
        have hk := List.all_eq_true.mp halone k (List.mem_range.mpr (hi.slots k r' hr').1)
        rw [State.otherThread, hr'] at hk
        by_contra hnb
        simp [htr', hkj, hnb] at hk
  · rw [h.keeps heq] at hv
    obtain ⟨r, hr, htr, -, hst⟩ := h.back hr'
    exact hst.elim (fun h => h.trans ((hi.dead truePid v hv).2 k r hr (htr.symm.trans htr'))) id

theorem Ended.tableInv (hi : TableInv t s) (hj : j ≠ t) : TableInv t s' := by
  refine ⟨?_, ?_, ?_⟩
  · intro k r' hr'
    obtain ⟨r, hr, htr, -⟩ := h.back hr'
    rw [htr]
    exact hi.slots k r hr
  · intro p hp k
    rw [h.other t (Ne.symm hj)] at hp
    rw [hi.kids p hp k]
    refine and_congr_right fun _ => ⟨?_, ?_⟩
    · rintro ⟨r, hr, hrp⟩
      obtain ⟨r', hr', -, hp'⟩ := h.forth hr
      exact ⟨r', hr', hp'.trans hrp⟩
    · rintro ⟨r', hr', hrp⟩
      obtain ⟨r, hr, -, hp', -⟩ := h.back hr'
      exact ⟨r, hr, hp'.symm.trans hrp⟩
  · intro truePid v hv
    refine ⟨?_, fun k r' hr' htr' => h.dead hi hv hr' htr'⟩
    by_cases heq : truePid = q.truePid
    · rw [heq]
      exact (hi.slots j q h.was).2
    · rw [h.keeps heq] at hv
      exact (hi.dead truePid v hv).1

/-- A status that is new is that of the task that ended. -/
theorem Ended.new {v : Int} (hv : s'.passed truePid = some v) : s.passed truePid = some v ∨
    ∃ j q, s'.kernel.procs j = some q ∧ q.truePid = truePid ∧ q.state = .broken ∧
      q.exitStatus = v := by
  by_cases heq : truePid = q.truePid
  · subst heq
    rcases h.passed with hsame | ⟨-, hnew⟩
    · rw [hsame] at hv
      exact .inl hv
    · rw [hnew] at hv
      have hv' : some q'.exitStatus = some v := (if_pos rfl).symm.trans hv
      exact .inr ⟨j, q', h.now, h.truePid, h.broken, Option.some.inj hv'⟩
  · rw [h.keeps heq] at hv
    exact .inl hv

end Ended

/-- Another task becomes broken; if it has run `process_exit`, its process has passed its
status to `sys_exit`. -/
theorem WaitInv.broken {s s' : Waiting} {q' : Proc} (hi : WaitInv t s) (h : Ended j q q' s s')
    (hj : j ≠ t) (hcl : s'.childless = s.childless) : WaitInv t s' := by
  have hparent : s'.kernel.procs t = s.kernel.procs t := h.other t (Ne.symm hj)
  refine hi.other (h.env hi.table) (h.tableInv hi.table hj) ?_ ?_ ?_ hcl ?_ (fun _ _ => h.new)
  · intro k r' hr'
    obtain ⟨r, hr, -, -, hst⟩ := h.back hr'
    rcases hst with hst | hst
    · rw [hst]
      exact hi.blank k r hr
    · rw [hst]
      exact nofun
  · intro p hp
    exact ⟨p, hparent.trans hp, rfl, rfl, id⟩
  · rintro ⟨h₁, h₂⟩
    refine ⟨fun p hp => h₁ p (hparent.symm.trans hp), fun k r' hr' hkt => ?_⟩
    obtain ⟨r, hr, -, hrp, -⟩ := h.back hr'
    rw [hrp]
    exact h₂ k r hr hkt
  · intro truePid hreturned
    refine h.keeps ?_
    rintro rfl
    exact not_returned hi.returns h.was hreturned

theorem WaitInv.terminate {s s' : Waiting} {e : Ending} (hi : WaitInv t s)
    (hq : s.kernel.procs j = some q) (hj : j ≠ t) (hb : q.state ≠ .broken)
    (h : s.terminate j q e = some s') : WaitInv t s' := by
  cases e with
  | exit status =>
    unfold Waiting.terminate at h
    dsimp only at h
    split at h
    · rename_i halone
      cases h
      exact hi.broken ⟨hq, hb, setProc_procs_self .., fun _ => setProc_procs_ne _ _, rfl, rfl, rfl,
        rfl, .inr ⟨halone, rfl⟩⟩ hj rfl
    · cases h
  | texit status =>
    cases h
    exact hi.broken ⟨hq, hb, setProc_procs_self .., fun _ => setProc_procs_ne _ _, rfl, rfl, rfl,
      rfl, .inl rfl⟩ hj rfl
  | killed =>
    cases h
    exact hi.broken ⟨hq, hb, setProc_procs_self .., fun _ => setProc_procs_ne _ _, rfl, rfl, rfl,
      rfl, .inl rfl⟩ hj rfl

theorem setRax_procs (s : State) (t : Nat) (rax : Int) (k : Nat) : (s.setRax t rax).procs k =
    (s.procs k).map fun r => { r with rax := if k = t then rax else r.rax } := by
  have hsame : ∀ x : Option Proc, x = x.map fun r => { r with rax := r.rax } := by
    intro x
    cases x <;> rfl
  unfold State.setRax
  split
  · rename_i p hp
    by_cases hk : k = t
    · subst hk
      rw [setProc_procs_self, hp]
      simp
    · rw [setProc_procs_ne _ _ hk]
      simp only [if_neg hk]
      exact hsame _
  · rename_i hn
    by_cases hk : k = t
    · rw [hk, hn]
      rfl
    · simp only [if_neg hk]
      exact hsame _

theorem pushChild_procs (s : State) (o i k : Nat) : (s.pushChild o i).procs k =
    (s.procs k).map fun r =>
    { r with children := if k = o then r.children ++ [i] else r.children } := by
  have hsame : ∀ x : Option Proc, x = x.map fun r => { r with children := r.children } := by
    intro x
    cases x <;> rfl
  unfold State.pushChild
  split
  · rename_i p hp
    by_cases hk : k = o
    · subst hk
      rw [setProc_procs_self, hp]
      simp
    · rw [setProc_procs_ne _ _ hk]
      simp only [if_neg hk]
      exact hsame _
  · rename_i hn
    by_cases hk : k = o
    · rw [hk, hn]
      rfl
    · simp only [if_neg hk]
      exact hsame _

/-- What `sys_clone` does: nothing but a return value, or a new thread in an empty slot,
last in the list of the parent of its process. -/
theorem sysClone_cases {ncpu : Nat} {exitStatus : Int}
    (hblank : ∀ k r, s.procs k = some r → r.state ≠ .blank) (hq : s.procs j = some q)
    (h : s.sysClone ncpu j exitStatus = some s') :
    (∃ rax, s' = s.setRax j rax) ∨ ∃ i r, i < nproc ∧ s.procs i = none ∧ s'.procs i = some r ∧
      r.truePid = q.truePid ∧ r.ppid = q.ppid ∧ r.state = .runnable ∧
      ∀ k, k ≠ i → ∃ rax : Proc → Int, s'.procs k = (s.procs k).map fun r => { r with
        children := if k = q.ppid then r.children ++ [i] else r.children, rax := rax r } := by
  unfold State.sysClone at h
  obtain ⟨q', hq', h⟩ := Option.bind_eq_some_iff.mp h
  rw [hq] at hq'
  cases hq'
  split at h
  · exact .inl ⟨_, (Option.some.inj h).symm⟩
  · rename_i i hslot
    obtain ⟨r, -, h⟩ := Option.bind_eq_some_iff.mp h
    split at h
    · have hmem := List.mem_of_find?_eq_some hslot
      have hlt : i < nproc := by
        rw [List.mem_range'_1] at hmem
        exact hmem.2
      have hnone : s.procs i = none := by
        have hfree := List.find?_some hslot
        split at hfree
        · rename_i x hx
          exact absurd (of_decide_eq_true hfree) (hblank i x hx)
        · assumption
      cases h
      let r : Proc :=
        { truePid := q.truePid, ppid := q.ppid, main := false, cpu := i % ncpu, state := .runnable,
          exitStatus := exitStatus, children := if i = q.ppid then [] ++ [i] else [],
          rax := if i = j then i else 0, pc := .user }
      refine .inr ⟨i, r, hlt, hnone, ?_, rfl, rfl, rfl, ?_⟩
      · rw [setRax_procs]
        change ((State.pushChild _ q.ppid i).procs i).map _ = _
        rw [pushChild_procs, setProc_procs_self]
        rfl
      · refine fun k hk => ⟨fun r => if k = j then i else r.rax, ?_⟩
        rw [setRax_procs]
        change ((State.pushChild _ q.ppid i).procs k).map _ = _
        rw [pushChild_procs, setProc_procs_ne _ _ hk, Option.map_map]
        rfl
    · cases h

/-- A thread of the process of `q` has been made in the free slot `i`, and is one more child of
the parent of `q`. -/
structure Cloned (i : Nat) (q : Proc) (s s' : Waiting) : Prop where
  lt : i < nproc
  free : s.kernel.procs i = none
  forth : ∀ k x, s.kernel.procs k = some x → ∃ x', s'.kernel.procs k = some x' ∧
    x'.truePid = x.truePid ∧ x'.ppid = x.ppid ∧ x'.state = x.state ∧ x'.pc = x.pc ∧
    x'.exitStatus = x.exitStatus ∧
    x'.children = if k = q.ppid then x.children ++ [i] else x.children
  new : ∃ r, s'.kernel.procs i = some r ∧ r.truePid = q.truePid ∧ r.ppid = q.ppid ∧
    r.state = .runnable
  back : ∀ k x', s'.kernel.procs k = some x' →
    (k = i ∧ x'.truePid = q.truePid ∧ x'.ppid = q.ppid ∧ x'.state = .runnable) ∨
    ∃ x, s.kernel.procs k = some x ∧ x'.truePid = x.truePid ∧ x'.ppid = x.ppid ∧
      x'.state = x.state
  passed : s'.passed = s.passed
  returns : s'.returns = s.returns

section Cloned
variable {s s' : Waiting} (h : Cloned i q s s') (hq : s.kernel.procs j = some q)
include h

theorem Cloned.ne {k : Nat} {x : Proc} (hx : s.kernel.procs k = some x) : k ≠ i := by
  rintro rfl
  rw [h.free] at hx
  cases hx

/-- The children of the waiting task, with the new thread if it is one. -/
theorem Cloned.mem_children {p p' : Proc} (hp : s.kernel.procs t = some p)
    (hp' : s'.kernel.procs t = some p') (k : Nat) :
    k ∈ p'.children ↔ k ∈ p.children ∨ (t = q.ppid ∧ k = i) := by
  obtain ⟨p₁, hp₁, -, -, -, -, -, hchildren⟩ := h.forth t p hp
  rw [hp'] at hp₁
  cases hp₁
  rw [hchildren]
  by_cases ht : t = q.ppid
  · rw [if_pos ht, List.mem_append, List.mem_singleton]
    exact or_congr_right ⟨fun h => ⟨ht, h⟩, fun h => h.2⟩
  · rw [if_neg ht]
    exact ⟨.inl, fun h => h.resolve_right (fun h => ht h.1)⟩

theorem Cloned.kids (hi : TableInv t s) {p p' : Proc} (hp : s.kernel.procs t = some p)
    (hp' : s'.kernel.procs t = some p') (k : Nat) :
    k ∈ p'.children ↔ k ≠ t ∧ ∃ x, s'.kernel.procs k = some x ∧ x.ppid = t := by
  rw [h.mem_children hp hp' k, hi.kids p hp k]
  constructor
  · rintro (⟨hkt, x, hx, hxp⟩ | ⟨ht, rfl⟩)
    · obtain ⟨x', hx', -, hxp', -⟩ := h.forth k x hx
      exact ⟨hkt, x', hx', hxp'.trans hxp⟩
    · obtain ⟨r, hr, -, hppid, -⟩ := h.new
      exact ⟨Ne.symm (h.ne hp), r, hr, hppid.trans ht.symm⟩
  · rintro ⟨hkt, x', hx', hxp⟩
    rcases h.back k x' hx' with ⟨hki, -, hppid, -⟩ | ⟨x, hx, -, hxp', -⟩
    · exact .inr ⟨hxp.symm.trans hppid, hki⟩
    · exact .inl ⟨hkt, x, hx, hxp'.symm.trans hxp⟩

include hq

theorem Cloned.env : Env s s' := by
  refine ⟨?_, ?_, ?_, fun _ _ hv => by rwa [h.passed], h.returns⟩
  · intro truePid hl k x' hx'
    rcases h.back k x' hx' with ⟨-, htr, -⟩ | ⟨x, hx, htr, -⟩
    · rw [htr]
      exact hl j q hq
    · rw [htr]
      exact hl k x hx
  · intro k x hx
    obtain ⟨x', hx', htr, -⟩ := h.forth k x hx
    exact ⟨x', hx', htr⟩
  · intro k x hx hbx
    obtain ⟨x', hx', htr, -, hstx, -, hex, -⟩ := h.forth k x hx
    exact ⟨x', hx', htr, hstx.trans hbx, hex⟩

theorem Cloned.tableInv (hi : TableInv t s) (hp : s.kernel.procs t = some p)
    (hb : q.state ≠ .broken) : TableInv t s' := by
  refine ⟨?_, fun p' hp' k => h.kids hi hp hp' k, ?_⟩
  · intro k x' hx'
    rcases h.back k x' hx' with ⟨rfl, htr, -⟩ | ⟨x, hx, htr, -⟩
    · rw [htr]
      exact ⟨h.lt, (hi.slots j q hq).2⟩
    · rw [htr]
      exact hi.slots k x hx
  · intro truePid v hv
    rw [h.passed] at hv
    obtain ⟨hne, hdead⟩ := hi.dead truePid v hv
    refine ⟨hne, fun k x' hx' htr' => ?_⟩
    rcases h.back k x' hx' with ⟨-, htr, -⟩ | ⟨x, hx, htr, -, hstx⟩
    · -- the thread that clones is not broken, so its process has not passed a status
      exact absurd (hdead j q hq (htr.symm.trans htr')) hb
    · rw [hstx]
      exact hdead k x hx (htr.symm.trans htr')

theorem Cloned.noChild (hj : j ≠ t) (hp : s.kernel.procs t = some p)
    (hno : NoChild s.kernel t) : NoChild s'.kernel t := by
  obtain ⟨h₁, h₂⟩ := hno
  have hqp := h₂ j q hq hj
  refine ⟨?_, ?_⟩
  · intro p' hp'
    rw [List.eq_nil_iff_forall_not_mem]
    intro k hk
    rcases (h.mem_children hp hp' k).mp hk with hk | ⟨ht, -⟩
    · rw [h₁ p hp] at hk
      cases hk
    · exact hqp ht.symm
  · intro k x' hx' hkt
    rcases h.back k x' hx' with ⟨-, -, hppid, -⟩ | ⟨x, hx, -, hxp, -⟩
    · rw [hppid]
      exact hqp
    · rw [hxp]
      exact h₂ k x hx hkt

end Cloned

/-- A task other than the waiting one starts a thread. -/
theorem WaitInv.cloned {s s' : Waiting} (hi : WaitInv t s) (h : Cloned i q s s')
    (hq : s.kernel.procs j = some q) (hj : j ≠ t) (hb : q.state ≠ .broken)
    (hcl : s'.childless = s.childless) : WaitInv t s' := by
  obtain ⟨p₀, hp₀, -⟩ := hi.parent
  refine hi.other (h.env hq) (h.tableInv hq hi.table hp₀ hb) ?_ ?_
    (h.noChild hq hj hp₀) hcl (fun _ _ => by rw [h.passed])
    (fun _ _ hv => .inl (by rwa [h.passed] at hv))
  · intro k x' hx'
    rcases h.back k x' hx' with ⟨-, -, -, hst⟩ | ⟨x, hx, -, -, hst⟩
    · rw [hst]
      exact nofun
    · rw [hst]
      exact hi.blank k x hx
  · intro p hp
    obtain ⟨p', hp', -, -, hst, hpc, -, hchildren⟩ := h.forth t p hp
    refine ⟨p', hp', hpc, hst, fun hnodup => ?_⟩
    rw [hchildren]
    split
    · rw [← List.concat_eq_append]
      refine hnodup.concat fun hmem => ?_
      obtain ⟨-, x, hx, -⟩ := (hi.table.kids p hp i).mp hmem
      exact h.ne hx rfl
    · exact hnodup

theorem WaitInv.clone {s s' : Waiting} {ncpu : Nat} {exitStatus : Int} (hi : WaitInv t s)
    (hq : s.kernel.procs j = some q) (hj : j ≠ t) (hb : q.state ≠ .broken)
    (h : s.kernel.sysClone ncpu j exitStatus = some s'.kernel) (hpassed : s'.passed = s.passed)
    (hcl : s'.childless = s.childless) (hret : s'.returns = s.returns) : WaitInv t s' := by
  rcases sysClone_cases hi.blank hq h with ⟨rax, hk⟩ | ⟨i, r, hlt, hnone, hr, htrue, hppid,
    hst, hold⟩
  · have hfate : ∀ k, (s'.kernel.procs k).map Proc.fate = (s.kernel.procs k).map Proc.fate := by
      intro k
      rw [hk, setRax_procs, Option.map_map]
      rfl
    refine hi.other (.of_fate hfate hpassed hret) (hi.table.fate hfate hpassed) ?_ ?_
      (noChild_of_fate hfate) hcl (fun _ _ => by rw [hpassed])
      (fun _ _ h => .inl (by rwa [hpassed] at h))
    · intro k x' hx'
      rw [hk, setRax_procs] at hx'
      obtain ⟨x, hx, rfl⟩ := Option.map_eq_some_iff.mp hx'
      exact hi.blank k x hx
    · intro p hp
      rw [hk, setRax_procs, hp]
      exact ⟨_, rfl, rfl, rfl, id⟩
  · refine hi.cloned ⟨hlt, hnone, ?_, ⟨r, hr, htrue, hppid, hst⟩, ?_, hpassed, hret⟩ hq hj hb hcl
    · intro k x hx
      have hki : k ≠ i := by
        rintro rfl
        rw [hnone] at hx
        cases hx
      obtain ⟨rax, hk⟩ := hold k hki
      rw [hx, Option.map_some] at hk
      exact ⟨_, hk, rfl, rfl, rfl, rfl, rfl, rfl⟩
    · intro k x' hx'
      by_cases hki : k = i
      · rw [hki, hr] at hx'
        cases hx'
        exact .inl ⟨hki, htrue, hppid, hst⟩
      · obtain ⟨rax, hk⟩ := hold k hki
        rw [hk] at hx'
        obtain ⟨x, hx, rfl⟩ := Option.map_eq_some_iff.mp hx'
        exact .inr ⟨x, hx, rfl, rfl, rfl⟩

/-- What `process_reap` of task `i`, which is `q`, leaves: the parent goes on at `pc`, and has one
child less. -/
structure Reaped (t i : Nat) (q : Proc) (pc : Pc) (s s' : Waiting) : Prop where
  ne : i ≠ t
  gone : s'.kernel.procs i = none
  forth : ∀ j x, s.kernel.procs j = some x → j ≠ i → ∃ x', s'.kernel.procs j = some x' ∧
    x'.truePid = x.truePid ∧ x'.ppid = x.ppid ∧ x'.state = x.state ∧ x'.exitStatus = x.exitStatus ∧
    x'.pc = (if j = t then pc else x.pc) ∧
    x'.children = if j = q.ppid then x.children.erase i else x.children
  back : ∀ j x', s'.kernel.procs j = some x' → j ≠ i ∧ ∃ x, s.kernel.procs j = some x ∧
    x'.truePid = x.truePid ∧ x'.ppid = x.ppid ∧ x'.state = x.state
  passed : s'.passed = s.passed
  returns : s'.returns = s.returns

theorem reaped_of_free {s s' : Waiting} {s₁ : State} {p₁ : Proc} (hp : s.kernel.procs t = some p)
    (hit : i ≠ t) (hq : s.kernel.procs i = some q) (hs₁ : s.kernel.free i = some s₁)
    (hp₁ : s₁.procs t = some p₁) (hk : s'.kernel = s₁.setProc t (some { p₁ with pc := pc }))
    (hpassed : s'.passed = s.passed) (hret : s'.returns = s.returns) : Reaped t i q pc s s' := by
  obtain ⟨q₁, o, hq₁, ho, -, -, hnone, hrest⟩ := free_inv hs₁
  rw [hq] at hq₁
  cases hq₁
  have hgone : s'.kernel.procs i = none := by rw [hk, setProc_procs_ne _ _ hit, hnone]
  have hforth : ∀ j x, s.kernel.procs j = some x → j ≠ i → ∃ x', s'.kernel.procs j = some x' ∧
      x'.truePid = x.truePid ∧ x'.ppid = x.ppid ∧ x'.state = x.state ∧
      x'.exitStatus = x.exitStatus ∧ x'.pc = (if j = t then pc else x.pc) ∧
      x'.children = if j = q.ppid then x.children.erase i else x.children := by
    intro j x hx hji
    have hj := hrest j hji
    by_cases hjp : j = q.ppid
    · rw [if_pos hjp] at hj
      rw [← hjp, hx] at ho
      cases ho
      by_cases hjt : j = t
      · subst hjt
        rw [hj] at hp₁
        cases hp₁
        rw [hk, setProc_procs_self]
        exact ⟨_, rfl, rfl, rfl, rfl, rfl, (if_pos rfl).symm, (if_pos hjp).symm⟩
      · rw [hk, setProc_procs_ne _ _ hjt, hj]
        exact ⟨_, rfl, rfl, rfl, rfl, rfl, (if_neg hjt).symm, (if_pos hjp).symm⟩
    · rw [if_neg hjp, hx] at hj
      by_cases hjt : j = t
      · subst hjt
        rw [hj] at hp₁
        cases hp₁
        rw [hk, setProc_procs_self]
        exact ⟨_, rfl, rfl, rfl, rfl, rfl, (if_pos rfl).symm, (if_neg hjp).symm⟩
      · rw [hk, setProc_procs_ne _ _ hjt, hj]
        exact ⟨_, rfl, rfl, rfl, rfl, rfl, (if_neg hjt).symm, (if_neg hjp).symm⟩
  refine ⟨hit, hgone, hforth, fun j x' hx' => ?_, hpassed, hret⟩
  have hji : j ≠ i := by
    rintro rfl
    rw [hgone] at hx'
    cases hx'
  have hex : ∃ x, s.kernel.procs j = some x := by
    by_cases hjt : j = t
    · exact ⟨p, hjt ▸ hp⟩
    · rw [hk, setProc_procs_ne _ _ hjt, hrest j hji] at hx'
      split at hx'
      · rename_i hjp
        exact ⟨o, hjp ▸ ho⟩
      · exact ⟨x', hx'⟩
  obtain ⟨x, hx⟩ := hex
  obtain ⟨x₁, hx₁, htr, hpp, hst, -⟩ := hforth j x hx hji
  rw [hx'] at hx₁
  cases hx₁
  exact ⟨hji, x, hx, htr, hpp, hst⟩

section Reaped
variable {s s' : Waiting} (h : Reaped t i q pc s s')
include h

theorem Reaped.returned (truePid : Nat) : s'.Returned truePid ↔ s.Returned truePid := by
  unfold Waiting.Returned
  rw [h.returns]

theorem Reaped.returnsInv (hi : ReturnsInv s) : ReturnsInv s' := by
  refine ⟨fun truePid hret j x' hx' => ?_, ?_, ?_, ?_⟩
  · obtain ⟨-, x, hx, htr, -⟩ := h.back j x' hx'
    rw [htr]
    exact hi.gone truePid ((h.returned truePid).mp hret) j x hx
  · rw [h.returns, h.passed]
    exact hi.status
  · rw [h.returns]
    exact hi.nodup
  · rw [h.returns]
    exact hi.answered

/-- The task is no longer a child. -/
theorem Reaped.tableInv (hi : TableInv t s) (hp : s.kernel.procs t = some p)
    (hq : s.kernel.procs i = some q) (hnodup : p.children.Nodup) : TableInv t s' := by
  refine ⟨fun j x' hx' => ?_, fun p' hp' j => ?_, fun truePid v hv => ?_⟩
  · obtain ⟨-, x, hx, htr, -⟩ := h.back j x' hx'
    rw [htr]
    exact hi.slots j x hx
  · obtain ⟨p₂, hp₂, -, -, -, -, -, hch⟩ := h.forth t p hp (Ne.symm h.ne)
    rw [hp'] at hp₂
    cases hp₂
    have hkids := hi.kids p hp
    have hmem : j ∈ p'.children ↔ j ∈ p.children ∧ j ≠ i := by
      rw [hch]
      split
      · rw [hnodup.mem_erase_iff]
        exact and_comm
      · rename_i hqp
        refine ⟨fun hj => ⟨hj, ?_⟩, fun hj => hj.1⟩
        rintro rfl
        obtain ⟨-, x, hx, hxp⟩ := (hkids j).mp hj
        rw [hq] at hx
        cases hx
        exact hqp hxp.symm
    rw [hmem, hkids j]
    constructor
    · rintro ⟨⟨hjt, x, hx, hxp⟩, hji⟩
      obtain ⟨x', hx', -, hxp', -⟩ := h.forth j x hx hji
      exact ⟨hjt, x', hx', hxp'.trans hxp⟩
    · rintro ⟨hjt, x', hx', hxp⟩
      obtain ⟨hji, x, hx, -, hxp', -⟩ := h.back j x' hx'
      exact ⟨⟨hjt, x, hx, hxp'.symm.trans hxp⟩, hji⟩
  · rw [h.passed] at hv
    obtain ⟨hne, hdead⟩ := hi.dead truePid v hv
    refine ⟨hne, fun j x' hx' htr' => ?_⟩
    obtain ⟨-, x, hx, htr, -, hstx⟩ := h.back j x' hx'
    rw [hstx]
    exact hdead j x hx (htr.symm.trans htr')

end Reaped

/-- The call's local variables once the status of the reaped task has been looked at. -/
def Wait.seen (w : Wait) (q : Proc) : Wait :=
  if q.exitStatus ≠ 0 then { w with exitStatus := q.exitStatus } else w

theorem Wait.seen_same (w : Wait) (q : Proc) : (w.seen q).toReap = w.toReap ∧
    (w.seen q).childPid = w.childPid ∧ (w.seen q).nohang = w.nohang ∧
    (w.seen q).exitStatus = if q.exitStatus ≠ 0 then q.exitStatus else w.exitStatus := by
  unfold Wait.seen
  split <;> exact ⟨rfl, rfl, rfl, rfl⟩

section Seen
variable {s s' : Waiting} {w : Wait} (h : Reaped t i q pc s s') (htrue : q.truePid = w.toReap)
  (hstatus : q.exitStatus ≠ 0 → s.passed w.toReap = some q.exitStatus)
include h htrue hstatus

omit htrue in
theorem Reaped.ok (hw : w.Ok s) (hne : w.toReap ≠ 0) : (w.seen q).Ok s' := by
  obtain ⟨hreap, hchild, -, hnew⟩ := w.seen_same q
  refine ⟨?_, ?_, ?_, ?_⟩
  · rw [hreap]
    exact fun h0 => absurd h0 hne
  · intro _
    rw [hreap, h.passed, hnew]
    split
    · rename_i h0
      exact .inr (hstatus h0)
    · exact hw.status hne
  · intro _
    rw [hreap, h.returned]
    exact hw.new hne
  · rw [hreap, hchild]
    exact hw.given

/-- The status that the process has passed is the call's now, if it was that of the reaped task. -/
theorem Reaped.accounts {pc' : Pc} (hacc : s.Accounts pc') (hpc' : pc'.call = some w)
    (hq : s.kernel.procs i = some q) (hpc : pc.call = some (w.seen q)) : s'.Accounts pc := by
  obtain ⟨hreap, -, -, hnew⟩ := w.seen_same q
  intro truePid v hv
  rw [h.passed] at hv
  rcases hacc truePid v hv with hret | ⟨w₀, hw₀, htr, hst⟩ | ⟨j, x, hx, htr, hbx, hst⟩
  · exact .inl ((h.returned truePid).mpr hret)
  · rw [hpc'] at hw₀
    cases hw₀
    refine .inr (.inl ⟨_, hpc, hreap.trans htr, fun hv0 => ?_⟩)
    rw [hnew]
    split
    · rename_i h0
      have hs := hstatus h0
      rw [htr, hv] at hs
      exact (Option.some.inj hs).symm
    · exact hst hv0
  · by_cases hji : j = i
    · rw [hji, hq] at hx
      cases hx
      refine .inr (.inl ⟨_, hpc, hreap.trans (htrue.symm.trans htr), fun hv0 => ?_⟩)
      rw [hnew, if_pos (by rw [hst]; exact hv0)]
      exact hst
    · obtain ⟨x', hx', htr', -, hst', hex', -⟩ := h.forth j x hx hji
      exact .inr (.inr ⟨j, x', hx', htr'.trans htr, hst'.trans hbx, hex'.trans hst⟩)

end Seen

/-- What the condition says of a task that is reaped: for any child it is the last thread, a
scan with `W_NOHANG` has left none behind, and its status is the one that was passed. -/
theorem reapsEarly_eq_false {s : Waiting} {w : Wait}
    (hslots : ∀ j q, s.kernel.procs j = some q → j < nproc ∧ q.truePid ≠ 0)
    (hq : s.kernel.procs i = some q) (h : s.reapsEarly w i = false) :
    (w.childPid = 0 → ∀ j x, s.kernel.procs j = some x → x.truePid = q.truePid → j = i) ∧
      (w.nohang → ∀ j x, s.kernel.procs j = some x → x.truePid = q.truePid → i ≤ j) ∧
      (q.exitStatus ≠ 0 → s.passed q.truePid = some q.exitStatus) := by
  unfold Waiting.reapsEarly at h
  rw [hq] at h
  have h := of_decide_eq_false h
  rw [not_or, not_or] at h
  obtain ⟨hlast, hbehind, hstatus⟩ := h
  refine ⟨fun h0 j x hx htr => ?_, fun hno j x hx htr => ?_, fun h0 => by_contra fun hne =>
    hstatus ⟨h0, hne⟩⟩
  · by_contra hji
    refine hlast ⟨h0, List.any_eq_true.mpr ⟨j, List.mem_range.mpr (hslots j x hx).1, ?_⟩⟩
    rw [State.threadOf, hx]
    simp [hji, htr]
  · by_contra hji
    refine hbehind ⟨hno, List.any_eq_true.mpr ⟨j, List.mem_range.mpr (Nat.not_le.mp hji), ?_⟩⟩
    rw [State.threadOf, hx]
    simp [htr]

/-- `process_reap` of a thread that the call has found. -/
theorem WaitInv.reap {s s' : Waiting} {w : Wait} {k : Option Nat} {s₁ : State} {p₁ : Proc}
    (hi : WaitInv t s) (hok : shortWait t s .step = false) (hp : s.kernel.procs t = some p)
    (hpc : p.pc = .reap w k i) (hq : s.kernel.procs i = some q) (hs₁ : s.kernel.free i = some s₁)
    (hp₁ : s₁.procs t = some p₁)
    (hk : s'.kernel = s₁.setProc t (some { p₁ with pc := .reapUnlock (w.seen q) k }))
    (hpassed : s'.passed = s.passed) (hcl : s'.childless = s.childless)
    (hret : s'.returns = s.returns) : WaitInv t s' := by
  obtain ⟨p₀, hp₀, hb, hat, hnodup, hacc, hchildless⟩ := hi.parent
  rw [hp] at hp₀
  cases hp₀
  rw [hpc] at hat
  obtain ⟨hwok, hne, hkk, q₀, hq₀, htrue, hbq⟩ := hat
  rw [hq] at hq₀
  cases hq₀
  have hit : i ≠ t := by
    rintro rfl
    rw [hp] at hq
    cases hq
    exact hb hbq
  have hreaped := reaped_of_free hp hit hq hs₁ hp₁ hk hpassed hret
  obtain ⟨hlast, hbehind, hstatus⟩ := reapsEarly_eq_false hi.table.slots hq
    (show s.reapsEarly w i = false by simpa [shortWait, hp, hpc] using hok)
  rw [htrue] at hlast hbehind hstatus
  obtain ⟨hreap, hchild, hnohang, -⟩ := w.seen_same q
  obtain ⟨p', hp', -, -, hst', -, hpc₁, hch'⟩ := hreaped.forth t p hp (Ne.symm hit)
  rw [if_pos rfl] at hpc₁
  refine ⟨hi.positive, ⟨p', hp', hst' ▸ hb, ?_, ?_, ?_, ?_⟩, hreaped.tableInv hi.table hp hq hnodup,
    ?_, hreaped.returnsInv hi.returns⟩
  · rw [hpc₁]
    refine ⟨hreaped.ok hstatus hwok hne, by rwa [hreap], ?_⟩
    rw [hreap, hchild, hnohang]
    rcases hkk with ⟨hk, h0⟩ | ⟨hk, h0⟩
    · refine .inl ⟨hk, h0, fun j x' hx' htr' => ?_⟩
      obtain ⟨hji, x, hx, htr, -⟩ := hreaped.back j x' hx'
      exact hji (hlast h0 j x hx (htr.symm.trans htr'))
    · -- what is left of the process is after `i`
      refine .inr ⟨i + 1, hk, h0, fun hno => ?_⟩
      by_contra hnot
      refine hnot (.inl fun j x' hx' htr' => hnot (.inr ⟨j, x', hx', htr', ?_⟩))
      obtain ⟨hji, x, hx, htr, -⟩ := hreaped.back j x' hx'
      exact Nat.lt_of_le_of_ne (hbehind hno j x hx (htr.symm.trans htr')) (Ne.symm hji)
  · rw [hch']
    split
    · exact hnodup.erase i
    · exact hnodup
  · rw [hpc₁]
    exact hreaped.accounts htrue hstatus hacc (by rw [hpc]; rfl) hq rfl
  · rw [hcl]
    intro hc
    rcases hchildless hc with h | ⟨-, h⟩ <;> rw [hpc] at h
    · cases h
    · exact h.elim
  · intro j x' hx'
    obtain ⟨-, x, hx, -, -, hstx⟩ := hreaped.back j x' hx'
    rw [hstx]
    exact hi.blank j x hx

/-! ## Runs -/

/-- The parent is never in the exit code. -/
theorem At.not_exit {s : Waiting} {k : State} (hat : p.pc.At s) : nextExit k t p p.pc = none := by
  cases hpc : p.pc <;> rw [hpc] at hat
  all_goals first
    | rfl
    | exact hat.elim

theorem returning_ret {s : Waiting} {rax : Int} {rcx : Option Int} (hp : s.kernel.procs t = some p)
    (hn : next s.kernel t p = some (.ret rax rcx, pc)) :
    s.returning t = [⟨s.childless, rax, rcx⟩] := by
  unfold Waiting.returning
  rw [hp]
  dsimp only
  rw [hn]

theorem returning_none {s : Waiting} (hp : s.kernel.procs t = some p)
    (hn : next s.kernel t p = some (a, pc)) (hr : ∀ rax rcx, a ≠ .ret rax rcx) :
    s.returning t = [] := by
  unfold Waiting.returning
  rw [hp]
  dsimp only
  rw [hn]
  cases a with
  | ret rax rcx => exact absurd rfl (hr rax rcx)
  | _ => rfl

theorem WaitInv.step {s s' : Waiting} {ncpu : Nat} (hi : WaitInv t s)
    (hok : shortWait t s .step = false) (h : waitStep ncpu t s .step = some s') : WaitInv t s' := by
  obtain ⟨k, hk, rfl⟩ := Option.map_eq_some_iff.mp h
  obtain ⟨p, a, pc, s₁, p₁, hp, hn, hs₁, hp₁, rfl⟩ := taskStep_inv hk
  obtain ⟨p₀, hp₀, hb, hat, -⟩ := hi.parent
  rw [hp] at hp₀
  cases hp₀
  have hwait : nextWait s.kernel t p p.pc = some (a, pc) := by
    rcases next_cases hn with h | h
    · rw [At.not_exit hat] at h
      cases h
    · exact h
  have hu : p.pc ≠ .user := by
    intro hu
    rw [hu] at hwait
    cases hwait
  have hnext := nextWait_waiting hp hi.positive hi.table.slots (fun _ _ => not_returned hi.returns)
    hok hat hwait
  rcases hnext.act with ha | ⟨w, kk, i, q, hpc, hq, rfl, hpc'⟩
  · have hquiet : Quiet t s { s with
        kernel := s₁.setProc t (some { p₁ with pc := pc }),
        returns := s.returns ++ s.returning t } p pc := by
      refine ⟨quiet_fate hp hb ha hs₁ hp₁, rfl, ?_, hp, ⟨_, setProc_procs_self .., rfl⟩⟩
      intro j q' hq'
      obtain ⟨q, hq, -, -, -, hm, -⟩ := taskStep_kept hp hs₁ hp₁ hq'
      exact hm.ne_blank (hi.blank j q hq)
    cases a with
    | ret rax rcx => exact hquiet.ret hi hnext hu (by rw [returning_ret hp hn])
    | _ =>
      refine hquiet.goOn hi hnext ha nofun hu ?_ rfl
      rw [returning_none hp hn nofun, List.append_nil]
  · subst hpc'
    refine hi.reap hok hp hpc hq hs₁ hp₁ rfl rfl rfl ?_
    rw [returning_none hp hn nofun, List.append_nil]

theorem WaitInv.waitStep {s s' : Waiting} {ncpu : Nat} {l : WaitLabel} (hi : WaitInv t s)
    (hok : shortWait t s l = false) (h : waitStep ncpu t s l = some s') : WaitInv t s' := by
  cases l with
  | call childPid nohang =>
    unfold ExitWait.waitStep at h
    dsimp only at h
    split at h
    · rename_i p hp
      split at h
      · rename_i hu
        obtain ⟨pc, hpc, rfl⟩ := Option.map_eq_some_iff.mp h
        unfold Syscall.entry at hpc
        dsimp only at hpc
        split at hpc
        · cases hpc
          exact hi.call hp hu (of_decide_eq_false hok)
        · cases hpc
      · cases h
    · cases h
  | step => exact hi.step hok h
  | terminate j e =>
    unfold ExitWait.waitStep at h
    dsimp only at h
    split at h
    · rename_i q hq
      split at h
      · rename_i hj
        exact hi.terminate hq hj.1 hj.2 h
      · cases h
    · cases h
  | clone j exitStatus =>
    unfold ExitWait.waitStep at h
    dsimp only at h
    split at h
    · rename_i q hq
      split at h
      · rename_i hj
        obtain ⟨k, hk, rfl⟩ := Option.map_eq_some_iff.mp h
        exact hi.clone hq hj.1 hj.2.1 hk rfl rfl rfl
      · cases h
    · cases h

theorem WaitInv.started {s : Waiting} (h : WaitStarted t s) : WaitInv t s := by
  obtain ⟨p, hp, hu, hnodup⟩ := h.parent
  have hnone : ∀ truePid, ¬ s.Returned truePid := by
    rintro truePid ⟨r, hr, -⟩
    rw [h.returns] at hr
    cases hr
  refine ⟨h.positive, ⟨p, hp, ?_, by rw [hu]; trivial, hnodup, ?_, fun _ => .inl hu⟩,
    ⟨h.slots, h.kids, ?_⟩, ?_, ?_, ?_, ?_, ?_⟩
  · rw [h.live t p hp]
    exact nofun
  · intro truePid v hv
    rw [h.passed] at hv
    cases hv
  · intro truePid v hv
    rw [h.passed] at hv
    cases hv
  · intro j q hq
    rw [h.live j q hq]
    exact nofun
  · exact fun truePid h => absurd h (hnone truePid)
  · rw [h.returns]
    exact List.forall_mem_nil _
  · rw [h.returns]
    exact List.nodup_nil
  · rw [h.returns]
    exact List.forall_mem_nil _

/-- **Each child is waited for once in every run in which no step is a short wait**: no child is
returned by two successful calls, a child that was returned has no thread left and its status is the
one it passed to `sys_exit`, and a call that begins when no child is left returns `E_CHILD`.  The
children have any number of threads and terminate in any order. -/
theorem child_waited_once {ncpu : Nat} {s : Waiting}
    (h : (waiting ncpu t).ReachWhen (fun s l => shortWait t s l = false) s) :
    ((s.returns.filter fun r => r.rcx.isSome).map Return.rax).Nodup ∧
      (∀ r ∈ s.returns, ∀ st, r.rcx = some st → ∃ truePid : Nat, r.rax = truePid ∧ truePid ≠ 0 ∧
        Left s.kernel truePid ∧ ∀ v, s.passed truePid = some v → st = v) ∧
      ∀ r ∈ s.returns, r.childless = true → r.rax = eChild := by
  have hi : WaitInv t s := h.invariant (WaitInv t) (fun _ => WaitInv.started)
    (fun _ _ _ hi hok hstep => hi.waitStep hok hstep)
  refine ⟨hi.returns.nodup, ?_, fun r hr hc => (hi.returns.answered r hr hc).1⟩
  intro r hr st hst
  obtain ⟨truePid, hrax, hne, hv⟩ := hi.returns.status r hr st hst
  exact ⟨truePid, hrax, hne, hi.returns.gone truePid ⟨r, hr, by rw [hst]; exact nofun, hrax⟩, hv⟩

/-- Process 2 with one child, process 3, which has two threads. -/
def brood : Waiting where
  kernel :=
    { procs := fun i =>
        if i = 2 then some { truePid := 2, ppid := 1, main := true, cpu := 0, state := .runnable,
                             children := [3, 4], pc := .user }
        else if i = 3 then some { truePid := 3, ppid := 2, main := true, cpu := 0,
                                  state := .runnable, pc := .user }
        else if i = 4 then some { truePid := 3, ppid := 2, main := false, cpu := 0,
                                  state := .runnable, pc := .user }
        else none
      cpus := fun _ => { current := none, runq := [], phase := .run }
      waitq := []
      ptableLock := none
      deleted := [] }
  passed := fun _ => none
  childless := false
  returns := []

theorem brood_procs {j : Nat} {q : Proc} (h : brood.kernel.procs j = some q) :
    j = 2 ∨ j = 3 ∨ j = 4 := by
  by_contra hne
  rw [not_or, not_or] at hne
  simp [brood, hne.1, hne.2.1, hne.2.2] at h

theorem brood_started : WaitStarted 2 brood := by
  refine ⟨⟨_, rfl, rfl, by decide⟩, by decide, ?_, ?_, ?_, fun _ => rfl, rfl⟩
  · intro j q hq
    obtain rfl | rfl | rfl := brood_procs hq
    all_goals
      cases hq
      exact ⟨by decide, nofun⟩
  · intro j q hq
    obtain rfl | rfl | rfl := brood_procs hq
    all_goals
      cases hq
      rfl
  · intro p hp j
    cases hp
    constructor
    · intro hj
      obtain rfl | rfl : j = 3 ∨ j = 4 := by simpa using hj
      · exact ⟨by decide, _, rfl, rfl⟩
      · exact ⟨by decide, _, rfl, rfl⟩
    · rintro ⟨hne, q, hq, -⟩
      obtain rfl | rfl | rfl := brood_procs hq
      · exact absurd rfl hne
      · decide
      · decide

/-- Both threads break, and the parent waits for process 3. -/
def givenRun : List WaitLabel :=
  [WaitLabel.terminate 4 .killed, .terminate 3 (.exit 5), .call 3 false] ++
    List.replicate 36 WaitLabel.step

theorem child_waited_once_threads : ∃ s,
    (waiting 1 2).ReachWhen (fun s l => shortWait 2 s l = false) s ∧ Left s.kernel 3 ∧
      s.returns = [⟨false, 3, some 5⟩] := by
  have hrun :
      ((waiting 1 2).runWhen (fun s l => shortWait 2 s l = false) brood givenRun).isSome := by
    decide +kernel
  obtain ⟨s, hs⟩ := Option.isSome_iff_exists.mp hrun
  have h : ((waiting 1 2).runWhen (fun s l => shortWait 2 s l = false) brood givenRun).map
      Waiting.returns = some [⟨false, 3, some 5⟩] := by
    decide +kernel
  rw [hs, Option.map_some, Option.some.injEq] at h
  have hreach := Machine.ReachWhen.runWhen (.init brood_started) hs
  have hr : (⟨false, 3, some 5⟩ : Return) ∈ s.returns := by
    rw [h]
    exact List.mem_singleton_self _
  obtain ⟨truePid, hrax, -, hleft, -⟩ := (child_waited_once hreach).2.1 _ hr 5 rfl
  obtain rfl : 3 = truePid := Int.ofNat.inj hrax
  exact ⟨s, hreach, hleft, h⟩

/-- Both threads break, and the parent waits twice for any child. -/
def anyRun : List WaitLabel :=
  [WaitLabel.terminate 4 .killed, .terminate 3 (.exit 5), .call 0 false] ++
    List.replicate 15 WaitLabel.step ++ [WaitLabel.call 0 false] ++ List.replicate 15 WaitLabel.step

/-- Process 3 is returned by two successful calls, and the second one reports status 0. -/
theorem two_threads_returned_twice : ∃ s, (waiting 1 2).Reach s ∧
    s.returns = [⟨false, 3, some 5⟩, ⟨false, 3, some 0⟩] ∧ s.passed 3 = some 5 ∧
    ¬ ((s.returns.filter fun r => r.rcx.isSome).map Return.rax).Nodup := by
  have hrun : ((waiting 1 2).run brood anyRun).isSome := by decide +kernel
  obtain ⟨s, hs⟩ := Option.isSome_iff_exists.mp hrun
  have h : ((waiting 1 2).run brood anyRun).map (fun s => (s.returns, s.passed 3)) =
      some ([⟨false, 3, some 5⟩, ⟨false, 3, some 0⟩], some 5) := by
    decide +kernel
  rw [hs, Option.map_some, Option.some.injEq, Prod.mk.injEq] at h
  refine ⟨s, Machine.Reach.run (.init brood_started) hs, h.1, h.2, ?_⟩
  rw [h.1]
  decide

end PugOS.ExitWait
