import PugOS.ExitWaitInv
import Mathlib.Data.List.Count

/-! # The process tree

`sys_fork` and `sys_clone` beside the exits and waits of `ExitWait`, and the tree
that `ppid_` and `children_` make of the process table.  `sys_clone` links the new
thread into the list of `true_ptable[ppid_]`, `sys_fork` links the new process into
the list of the thread that called it, an exiting task hands its own list to
process 1, and `process_reap` unlinks through `true_ptable[ppid_]`.

The tree is well formed in every run in which only main threads fork and no task is
reaped that still has children (`process_tree_wellformed`).  A thread made by
`sys_clone` is not in `true_ptable`, so what it forks hangs on a list that
`process_reap` does not find (`thread_fork_dangles`).
-/
namespace PugOS.ExitWait
open Transition

/-- The error codes of `fork`. -/
def eMfile : Int := -24
def eNomem : Int := -12

/-! ## Creating tasks -/

/-- `get_proc_slot`, and the same loop in `process_fork`. -/
def State.procSlot (s : State) : Option Nat :=
  (List.range' 1 (nproc - 1)).find? fun i =>
    match s.procs i with
    | some p => p.state = .blank
    | none => true

/-- `children_.push_back` on the list of task `o`. -/
def State.pushChild (s : State) (o i : Nat) : State :=
  match s.procs o with
  | some q => s.setProc o (some { q with children := q.children ++ [i] })
  | none => s

/-- The return value of a system call of task `t`. -/
def State.setRax (s : State) (t : Nat) (rax : Int) : State :=
  match s.procs t with
  | some p => s.setProc t (some { p with rax := rax })
  | none => s

/-- A process is put in the queue of a CPU. -/
def State.enqueue (s : State) (c i : Nat) : State :=
  s.setCpu c ((s.cpus c).enqueue (some i))

/-- `SYSCALL_CLONE` by task `t`.  The constructor of `proc` leaves `exit_status_` as it finds it.
When `kalloc_proc` has no memory the code writes through null, and there is no step. -/
def State.sysClone (s : State) (ncpu t : Nat) (exitStatus : Int) : Option State := do
  let p ← s.procs t
  match s.procSlot with
  | none => some (s.setRax t (-1))
  | some i =>
    let s := s.setProc i (some
      { truePid := p.truePid, ppid := p.ppid, main := false, cpu := i % ncpu,
        state := .runnable, exitStatus := exitStatus, pc := .user })
    let q ← s.procs p.ppid
    if q.main then
      some (((s.pushChild p.ppid i).enqueue (i % ncpu) i).setRax t i)
    else none

/-- How far `process_fork` gets before it runs out of memory.  Without memory for the `fdtable` it
leaves `true_ptable[fpid]` pointing at the `proc` it has freed; that pointer is followed only for a
task whose `ppid_` is `fpid`. -/
inductive ForkEnd
  | noProc | noPagetable | noFdtable | noPage | done
  deriving DecidableEq, Repr

/-- `process_fork` has set up the new process in slot `i` and linked it. -/
def State.linkFork (s : State) (ncpu t i : Nat) (exitStatus : Int) : State :=
  (s.setProc i (some
    { truePid := i, ppid := t, main := true, cpu := i % ncpu, state := .runnable,
      exitStatus := exitStatus, pc := .user })).pushChild t i

/-- `SYSCALL_FORK` by task `t`. -/
def State.sysFork (s : State) (ncpu t : Nat) (e : ForkEnd) (exitStatus : Int) : Option State :=
  match s.procSlot with
  | none => some (s.setRax t eMfile)
  | some i =>
    match e with
    | .noProc | .noPagetable | .noFdtable => some ((s.setProc i none).setRax t eNomem)
    -- a page could not be copied: `process_reap` of the new process
    | .noPage => ((s.linkFork ncpu t i exitStatus).free i).map fun s => s.wakeAll.setRax t eNomem
    | .done => some (((s.linkFork ncpu t i exitStatus).enqueue (i % ncpu) i).setRax t i)

/-- What happens next, with `sys_fork` and `sys_clone` among the system calls. -/
inductive TreeLabel
  | kernel (l : Label)
  | fork (c : Nat) (e : ForkEnd) (exitStatus : Int)
  | clone (c : Nat) (exitStatus : Int)
  deriving DecidableEq, Repr

/-- The task in user mode on CPU `c`. -/
def State.userTask (s : State) (c : Nat) : Option (Nat × Proc) :=
  match (s.cpus c).phase, (s.cpus c).current with
  | .run, some t =>
    match s.procs t with
    | some p => if p.pc = .user then some (t, p) else none
    | none => none
  | _, _ => none

/-- A step.  `sys_fork` and `sys_clone` are one step each.  `sys_clone` links the new thread under
`ptable_lock`; `process_fork` has given the lock back by then, and the step takes in what it does
without it. -/
def treeStep (ncpu : Nat) (s : State) : TreeLabel → Option State
  | .kernel l => step s l
  | .fork c e exitStatus =>
    match s.userTask c with
    | some (t, _) => if s.ptableLock = none then s.sysFork ncpu t e exitStatus else none
    | none => none
  | .clone c exitStatus =>
    match s.userTask c with
    | some (t, _) => if s.ptableLock = none then s.sysClone ncpu t exitStatus else none
    | none => none

/-! ## The tree -/

/-- What a task says about its place in the tree. -/
structure Links where
  truePid : Nat
  ppid : Nat
  main : Bool
  children : List Nat
  deriving DecidableEq, Repr

/-- The fields by which processes are linked. -/
def Proc.links (p : Proc) : Links := ⟨p.truePid, p.ppid, p.main, p.children⟩

/-- The links of process `i`. -/
def State.links (s : State) (i : Nat) : Option Links := (s.procs i).map Proc.links

/-- Every task but 1 is in the list of its parent, which is a main thread, and a list
holds only tasks of that parent, each of them once. -/
structure Tree (f : Nat → Option Links) : Prop where
  root : ∃ r, f 1 = some r ∧ r.main ∧ r.truePid = 1 ∧ r.ppid = 1
  parent : ∀ i p, f i = some p → i ≠ 1 → ∃ q, f p.ppid = some q ∧ q.main ∧ i ∈ q.children
  child : ∀ o q i, f o = some q → i ∈ q.children → i ≠ 1 ∧ ∃ p, f i = some p ∧ p.ppid = o
  nodup : ∀ o q, f o = some q → q.children.Nodup

variable {f g : Nat → Option Links} {p q : Links} {i j o t : Nat}

/-- The root is always there. -/
theorem Tree.ne_root (h : Tree f) (hi : f i = none) : i ≠ 1 := by
  rintro rfl
  obtain ⟨r, hr, -⟩ := h.root
  rw [hi] at hr
  cases hr

/-- A new task without children, last in the list of a main thread. -/
theorem Tree.insert (h : Tree f) (hi : f i = none) (ho : f o = some q) (hq : q.main)
    (hp : p.ppid = o) (hpc : p.children = [])
    (hg : ∀ j, g j = if j = o then some { q with children := q.children ++ [i] }
      else if j = i then some p else f j) : Tree g := by
  have hio : i ≠ o := by
    rintro rfl
    rw [hi] at ho
    cases ho
  have hi1 := h.ne_root hi
  have hgi : g i = some p := by rw [hg, if_neg hio, if_pos rfl]
  have hgo : g o = some { q with children := q.children ++ [i] } := by rw [hg, if_pos rfl]
  have hgj : ∀ {j}, j ≠ o → j ≠ i → g j = f j := fun hjo hji => by rw [hg, if_neg hjo, if_neg hji]
  -- a task that was there before has lost no child
  have hold : ∀ {j r}, f j = some r → ∃ r', g j = some r' ∧ r'.main = r.main ∧
      r'.ppid = r.ppid ∧ r'.truePid = r.truePid ∧ r.children ⊆ r'.children := by
    intro j r hr
    by_cases hjo : j = o
    · subst hjo
      rw [ho] at hr
      cases hr
      exact ⟨_, hgo, rfl, rfl, rfl, List.subset_append_left ..⟩
    · have hji : j ≠ i := by
        rintro rfl
        rw [hi] at hr
        cases hr
      exact ⟨r, (hgj hjo hji).trans hr, rfl, rfl, rfl, List.Subset.refl _⟩
  refine ⟨?_, ?_, ?_, ?_⟩
  · obtain ⟨r, hr, hmain, htrue, hppid⟩ := h.root
    obtain ⟨r', hr', h₁, h₂, h₃, -⟩ := hold hr
    exact ⟨r', hr', h₁.trans hmain, h₃.trans htrue, h₂.trans hppid⟩
  · intro j r hr hj1
    by_cases hji : j = i
    · subst hji
      rw [hgi] at hr
      cases hr
      refine ⟨{ q with children := q.children ++ [j] }, hp ▸ hgo, hq, ?_⟩
      exact List.mem_append_right _ (List.mem_singleton.mpr rfl)
    · obtain ⟨r₀, hr₀, hrp⟩ : ∃ r₀, f j = some r₀ ∧ r.ppid = r₀.ppid := by
        by_cases hjo : j = o
        · subst hjo
          rw [hgo] at hr
          cases hr
          exact ⟨q, ho, rfl⟩
        · rw [hgj hjo hji] at hr
          exact ⟨r, hr, rfl⟩
      obtain ⟨x, hx, hmain, hmem⟩ := h.parent j r₀ hr₀ hj1
      obtain ⟨x', hx', h₁, -, -, hsub⟩ := hold hx
      exact ⟨x', hrp ▸ hx', h₁.trans hmain, hsub hmem⟩
  · intro k r j hr hj
    have hcases : (k = o ∧ j = i) ∨ ∃ r₀, f k = some r₀ ∧ j ∈ r₀.children := by
      by_cases hko : k = o
      · subst hko
        rw [hgo] at hr
        cases hr
        rcases List.mem_append.mp hj with hj | hj
        · exact .inr ⟨q, ho, hj⟩
        · exact .inl ⟨rfl, List.mem_singleton.mp hj⟩
      · by_cases hki : k = i
        · subst hki
          rw [hgi] at hr
          cases hr
          rw [hpc] at hj
          cases hj
        · rw [hgj hko hki] at hr
          exact .inr ⟨r, hr, hj⟩
    rcases hcases with ⟨rfl, rfl⟩ | ⟨r₀, hr₀, hj⟩
    · exact ⟨hi1, p, hgi, hp⟩
    · obtain ⟨hj1, x, hx, hxp⟩ := h.child k r₀ j hr₀ hj
      obtain ⟨x', hx', -, h₂, -⟩ := hold hx
      exact ⟨hj1, x', hx', h₂.trans hxp⟩
  · intro k r hr
    by_cases hko : k = o
    · subst hko
      rw [hgo] at hr
      cases hr
      have hnew : i ∉ q.children := by
        intro hmem
        obtain ⟨-, x, hx, -⟩ := h.child k q i ho hmem
        rw [hi] at hx
        cases hx
      rw [← List.concat_eq_append]
      exact (h.nodup k q ho).concat hnew
    · by_cases hki : k = i
      · subst hki
        rw [hgi] at hr
        cases hr
        rw [hpc]
        exact List.nodup_nil
      · rw [hgj hko hki] at hr
        exact h.nodup k r hr

/-- A task without children is unlinked from its parent and removed. -/
theorem Tree.erase (h : Tree f) (hi : f i = some p) (hi1 : i ≠ 1) (hpc : p.children = [])
    (hgi : g i = none)
    (hg : ∀ j, j ≠ i → g j = if j = p.ppid then
      (f j).map fun q => { q with children := q.children.erase i } else f j) : Tree g := by
  -- what is still there is what was there before, but for `i` in the list of its parent
  have hnew : ∀ {j r'}, g j = some r' → j ≠ i ∧ ∃ r, f j = some r ∧ r'.main = r.main ∧
      r'.ppid = r.ppid ∧ r'.truePid = r.truePid ∧
      r'.children = if j = p.ppid then r.children.erase i else r.children := by
    intro j r' hr'
    have hji : j ≠ i := by
      rintro rfl
      rw [hgi] at hr'
      cases hr'
    rw [hg j hji] at hr'
    refine ⟨hji, ?_⟩
    split at hr'
    · rename_i hjp
      obtain ⟨r, hr, rfl⟩ := Option.map_eq_some_iff.mp hr'
      exact ⟨r, hr, rfl, rfl, rfl, (if_pos hjp).symm⟩
    · rename_i hjp
      exact ⟨r', hr', rfl, rfl, rfl, (if_neg hjp).symm⟩
  have hold : ∀ {j r}, f j = some r → j ≠ i → ∃ r', g j = some r' ∧ r'.main = r.main ∧
      r'.ppid = r.ppid ∧ r'.truePid = r.truePid ∧ ∀ k ∈ r.children, k ≠ i → k ∈ r'.children := by
    intro j r hr hji
    by_cases hjp : j = p.ppid
    · refine ⟨{ r with children := r.children.erase i }, ?_, rfl, rfl, rfl, ?_⟩
      · rw [hg j hji, if_pos hjp, hr]
        rfl
      · exact fun k hk hki => (List.mem_erase_of_ne hki).mpr hk
    · exact ⟨r, by rw [hg j hji, if_neg hjp, hr], rfl, rfl, rfl, fun k hk _ => hk⟩
  refine ⟨?_, ?_, ?_, ?_⟩
  · obtain ⟨r, hr, hmain, htrue, hppid⟩ := h.root
    obtain ⟨r', hr', h₁, h₂, h₃, -⟩ := hold hr (Ne.symm hi1)
    exact ⟨r', hr', h₁.trans hmain, h₃.trans htrue, h₂.trans hppid⟩
  · intro j r' hr' hj1
    obtain ⟨hji, r, hr, -, hrp, -⟩ := hnew hr'
    obtain ⟨q, hq, hmain, hmem⟩ := h.parent j r hr hj1
    have hpi : r.ppid ≠ i := by
      intro heq
      rw [heq, hi] at hq
      cases hq
      rw [hpc] at hmem
      cases hmem
    obtain ⟨q', hq', h₁, -, -, hsub⟩ := hold hq hpi
    exact ⟨q', hrp ▸ hq', h₁.trans hmain, hsub j hmem hji⟩
  · intro o q' j hq' hj
    obtain ⟨-, q, hq, -, -, -, hchildren⟩ := hnew hq'
    have hmem : j ∈ q.children := by
      rw [hchildren] at hj
      split at hj
      · exact List.mem_of_mem_erase hj
      · exact hj
    obtain ⟨hj1, r, hr, hro⟩ := h.child o q j hq hmem
    -- `i` was in its parent's list only, and only once
    have hji : j ≠ i := by
      rintro rfl
      rw [hi] at hr
      cases hr
      rw [hchildren, if_pos hro.symm] at hj
      exact ((h.nodup o q hq).mem_erase_iff.mp hj).1 rfl
    obtain ⟨r', hr', -, h₂, -⟩ := hold hr hji
    exact ⟨hj1, r', hr', h₂.trans hro⟩
  · intro o q' hq'
    obtain ⟨-, q, hq, -, -, -, hchildren⟩ := hnew hq'
    rw [hchildren]
    split
    · exact (h.nodup o q hq).erase i
    · exact h.nodup o q hq

/-- The children of a task other than 1 move to the end of the list of task 1. -/
theorem Tree.adopt (h : Tree f) (ht : f t = some p) (ht1 : t ≠ 1)
    (hroot : g 1 = (f 1).map fun r => { r with children := r.children ++ p.children })
    (hg : ∀ j, j ≠ 1 → g j = (f j).map fun q =>
      { q with ppid := if j ∈ p.children then 1 else q.ppid,
               children := if j = t then [] else q.children }) : Tree g := by
  obtain ⟨r₁, hr₁, hmain₁, htrue₁, hppid₁⟩ := h.root
  have hg₁ : g 1 = some { r₁ with children := r₁.children ++ p.children } := by
    rw [hroot, hr₁]
    rfl
  have hnew : ∀ {j q'}, g j = some q' → j ≠ 1 → ∃ q, f j = some q ∧ q'.main = q.main ∧
      q'.ppid = (if j ∈ p.children then 1 else q.ppid) ∧
      q'.children = if j = t then [] else q.children := by
    intro j q' hq' hj1
    rw [hg j hj1] at hq'
    obtain ⟨q, hq, rfl⟩ := Option.map_eq_some_iff.mp hq'
    exact ⟨q, hq, rfl, rfl, rfl⟩
  have hold : ∀ {j q}, f j = some q → j ≠ 1 → ∃ q', g j = some q' ∧ q'.main = q.main ∧
      q'.ppid = (if j ∈ p.children then 1 else q.ppid) ∧
      q'.children = if j = t then [] else q.children := by
    intro j q hq hj1
    rw [hg j hj1, hq]
    exact ⟨_, rfl, rfl, rfl, rfl⟩
  refine ⟨⟨_, hg₁, hmain₁, htrue₁, hppid₁⟩, ?_, ?_, ?_⟩
  · intro j q' hq' hj1
    obtain ⟨q, hq, -, hppid, -⟩ := hnew hq' hj1
    by_cases hj : j ∈ p.children
    · rw [hppid, if_pos hj]
      exact ⟨_, hg₁, hmain₁, List.mem_append_right _ hj⟩
    · rw [hppid, if_neg hj]
      obtain ⟨o, ho, hmain, hmem⟩ := h.parent j q hq hj1
      by_cases hp1 : q.ppid = 1
      · rw [hp1] at ho ⊢
        rw [hr₁] at ho
        cases ho
        exact ⟨_, hg₁, hmain, List.mem_append_left _ hmem⟩
      · obtain ⟨o', ho', h₁, -, h₃⟩ := hold ho hp1
        have hpt : q.ppid ≠ t := by
          intro heq
          rw [heq, ht] at ho
          cases ho
          exact hj hmem
        rw [if_neg hpt] at h₃
        exact ⟨o', ho', h₁.trans hmain, h₃ ▸ hmem⟩
  · intro o q' j hq' hj
    by_cases ho1 : o = 1
    · subst ho1
      rw [hg₁] at hq'
      cases hq'
      rcases List.mem_append.mp hj with hj | hj
      · obtain ⟨hj1, r, hr, hrp⟩ := h.child 1 r₁ j hr₁ hj
        obtain ⟨r', hr', -, h₂, -⟩ := hold hr hj1
        refine ⟨hj1, r', hr', ?_⟩
        rw [h₂, hrp, ite_self]
      · obtain ⟨hj1, r, hr, -⟩ := h.child t p j ht hj
        obtain ⟨r', hr', -, h₂, -⟩ := hold hr hj1
        exact ⟨hj1, r', hr', h₂.trans (if_pos hj)⟩
    · obtain ⟨q, hq, -, -, hchildren⟩ := hnew hq' ho1
      have hot : o ≠ t := by
        intro heq
        rw [hchildren, if_pos heq] at hj
        cases hj
      rw [hchildren, if_neg hot] at hj
      obtain ⟨hj1, r, hr, hro⟩ := h.child o q j hq hj
      have hjp : j ∉ p.children := by
        intro hmem
        obtain ⟨-, r', hr', hrt⟩ := h.child t p j ht hmem
        rw [hr] at hr'
        cases hr'
        exact hot (hro.symm.trans hrt)
      obtain ⟨r', hr', -, h₂, -⟩ := hold hr hj1
      exact ⟨hj1, r', hr', by rw [h₂, if_neg hjp, hro]⟩
  · intro o q' hq'
    by_cases ho1 : o = 1
    · subst ho1
      rw [hg₁] at hq'
      cases hq'
      refine (h.nodup 1 r₁ hr₁).append (h.nodup t p ht) ?_
      intro j hj₁ hjt
      obtain ⟨-, r, hr, hrp⟩ := h.child 1 r₁ j hr₁ hj₁
      obtain ⟨-, r', hr', hrt⟩ := h.child t p j ht hjt
      rw [hr] at hr'
      cases hr'
      exact ht1 (hrt.symm.trans hrp)
    · obtain ⟨q, hq, -, -, hchildren⟩ := hnew hq' ho1
      rw [hchildren]
      split
      · exact List.nodup_nil
      · exact h.nodup o q hq

/-! ## The tree of a state -/

section Links
variable {s s' s₁ : State} {c t i j o : Nat} {p q q₁ : Proc} {a : Act} {pc : Pc}

theorem links_of_procs (h : s.procs i = some p) : s.links i = some p.links := by
  rw [State.links, h]
  rfl

theorem procs_of_links {l : Links} (h : s.links i = some l) : ∃ p, s.procs i = some p ∧
    p.links = l :=
  Option.map_eq_some_iff.mp h

/-- The links of one process change with its record. -/
theorem links_setProc (s : State) (i j : Nat) (p : Option Proc) :
    (s.setProc i p).links j = if j = i then p.map Proc.links else s.links j := by
  unfold State.links
  by_cases hj : j = i
  · rw [hj, setProc_procs_self, if_pos rfl]
  · rw [setProc_procs_ne s p hj, if_neg hj]

/-- The tree is the same in both states. -/
def SameLinks (s s' : State) : Prop := ∀ j, s'.links j = s.links j

theorem SameLinks.trans {s₂ : State} (h₁ : SameLinks s s₁) (h₂ : SameLinks s₁ s₂) :
    SameLinks s s₂ :=
  fun j => (h₂ j).trans (h₁ j)

/-- The tree is a matter of the links. -/
theorem SameLinks.tree (h : SameLinks s s') (ht : Tree s.links) : Tree s'.links := by
  have heq : s'.links = s.links := funext h
  rw [heq]
  exact ht

/-- A write to a process that keeps its links. -/
theorem sameLinks_setProc (hp : s.procs i = some p) (h : q.links = p.links) :
    SameLinks s (s.setProc i (some q)) := by
  intro j
  rw [links_setProc]
  split
  · rename_i hj
    rw [hj, links_of_procs hp, ← h]
    rfl
  · rfl

theorem Proc.woken_links (p : Proc) : p.woken.links = p.links := by
  unfold Proc.woken
  split <;> rfl

/-- Waking any number of processes keeps the links. -/
theorem sameLinks_wakes (s : State) (l : List Nat) : SameLinks s (l.foldl State.wake s) := by
  intro j
  unfold State.links
  rw [wakes_procs]
  split
  · cases s.procs j with
    | none => rfl
    | some p => exact congrArg some p.woken_links
  · rfl

/-- So does returning a value. -/
theorem sameLinks_setRax (s : State) (t : Nat) (rax : Int) : SameLinks s (s.setRax t rax) := by
  unfold State.setRax
  split
  · rename_i p hp
    exact sameLinks_setProc hp rfl
  · exact fun _ => rfl

/-- A new child changes the links of its parent alone. -/
theorem links_pushChild (hq : s.procs o = some q) (j : Nat) : (s.pushChild o i).links j =
    if j = o then some { q.links with children := q.children ++ [i] } else s.links j := by
  unfold State.pushChild
  rw [hq]
  exact links_setProc ..

/-- Only an exit and a reap change the tree. -/
theorem perform_links (hp : s.procs t = some p) (h : s.perform c t p a = some s₁)
    (hre : a ≠ .reparent) (hfree : ∀ i, a ≠ .free i) : SameLinks s s₁ := by
  cases a with
  | skip | unlock | yield => cases h; exact fun _ => rfl
  | lock =>
    simp only [State.perform] at h
    split at h
    · cases h; exact fun _ => rfl
    · cases h
  | prepare | clear | setStatus | setBroken | ret => cases h; exact sameLinks_setProc hp rfl
  | wakeAll => cases h; exact sameLinks_wakes s s.waitq
  | wake i => cases h; exact sameLinks_wakes s [i]
  | interrupt i =>
    simp only [State.perform] at h
    split at h
    · rename_i r hr
      cases h
      have hset : SameLinks s (s.setProc i (some { r with interrupted := true })) :=
        sameLinks_setProc hr rfl
      exact hset.trans (sameLinks_wakes _ [i])
    · cases h
  | setExiting i =>
    simp only [State.perform] at h
    split at h
    · rename_i r hr
      cases h
      exact sameLinks_setProc hr rfl
    · cases h
  | reparent => exact absurd rfl hre
  | free i => exact absurd rfl (hfree i)

/-- The children of an exiting process, all moved to process 1. -/
theorem adopts_links (l : List Nat) : ∀ (s : State) (j : Nat), (l.foldl State.adopt s).links j =
    (s.links j).map fun q => { q with ppid := if j ∈ l then 1 else q.ppid } := by
  have hsame : ∀ x : Option Links, x = x.map fun q => { q with ppid := q.ppid } := by
    intro x
    cases x <;> rfl
  induction l with
  | nil =>
    intro s j
    simp only [List.not_mem_nil, if_false]
    exact hsame _
  | cons i l ih =>
    intro s j
    rw [List.foldl_cons, ih]
    have hadopt : (s.adopt i).links j =
        (s.links j).map fun q => { q with ppid := if j = i then 1 else q.ppid } := by
      unfold State.adopt
      split
      · rename_i q hq
        rw [links_setProc]
        split
        · rename_i hj
          rw [hj, links_of_procs hq]
          rfl
        · exact hsame _
      · rename_i hn
        by_cases hj : j = i
        · rw [hj, State.links, hn]
          rfl
        · simp only [hj, if_false]
          exact hsame _
    rw [hadopt, Option.map_map]
    congr 1
    funext q
    by_cases hl : j ∈ l <;> by_cases hi : j = i <;> simp [hl, hi]

/-- An exiting task hands its children to process 1. -/
theorem Tree.reparent (htree : Tree s.links) (hp : s.procs t = some p)
    (h : s.reparent t p = some s₁) : Tree s₁.links := by
  unfold State.reparent at h
  split at h
  · cases h
    exact htree
  split at h
  · cases h
  rename_i ht1
  dsimp only at h
  split at h
  · rename_i r hr
    cases h
    have hadopted : ∀ j, (p.children.foldl State.adopt
        (s.setProc t (some { p with children := [] }))).links j =
        (s.links j).map fun q => { q with
          ppid := if j ∈ p.children then 1 else q.ppid,
          children := if j = t then [] else q.children } := by
      intro j
      rw [adopts_links, links_setProc]
      by_cases hj : j = t
      · rw [if_pos hj, hj, links_of_procs hp]
        simp [Proc.links]
      · simp only [if_neg hj]
    refine htree.adopt (links_of_procs hp) ht1 ?_ ?_
    · have h1 := hadopted 1
      have hnot : 1 ∉ p.children :=
        fun hmem => (htree.child t p.links 1 (links_of_procs hp) hmem).1 rfl
      rw [links_of_procs hr] at h1
      simp only [hnot, if_false, Ne.symm ht1] at h1
      rw [links_setProc, if_pos rfl]
      obtain ⟨r₁, hr₁, heq⟩ := Option.map_eq_some_iff.mp h1.symm
      rw [hr₁]
      change r₁ = r.links at heq
      rw [heq]
      rfl
    · intro j hj
      rw [links_setProc, if_neg hj]
      exact hadopted j
  · cases h

/-- `process_reap` of a task that has no children. -/
theorem Tree.free (htree : Tree s.links) (hi1 : i ≠ 1) (hp : s.procs i = some p)
    (hpc : p.children = []) (h : s.free i = some s₁) : Tree s₁.links := by
  obtain ⟨p', q, hp', hq, -, -, hi, hj⟩ := free_inv h
  rw [hp] at hp'
  cases hp'
  refine htree.erase (links_of_procs hp) hi1 hpc ?_ ?_
  · rw [State.links, hi]
    rfl
  · intro j hji
    change s₁.links j = if j = p.ppid then _ else _
    rw [State.links, hj j hji]
    split
    · rename_i hjp
      rw [hjp, links_of_procs hq]
      rfl
    · rfl

/-- In a tree `process_reap` finds the list to unlink from. -/
theorem Tree.free_isSome (htree : Tree s.links) (hi1 : i ≠ 1) (hp : s.procs i = some p) :
    (s.free i).isSome := by
  obtain ⟨l, hl, hmain, -⟩ := htree.parent i p.links (links_of_procs hp) hi1
  obtain ⟨q, hq, rfl⟩ := procs_of_links hl
  have hq' : s.procs p.ppid = some q := hq
  have hm : q.main = true := hmain
  unfold State.free
  rw [hp]
  dsimp only
  rw [hq']
  dsimp only
  rw [if_pos hm]
  rfl

/-- A new task in an empty slot, last in the list of a main thread. -/
theorem Tree.push (htree : Tree s.links) (hi : s.procs i = none)
    (hq : (s.setProc i (some p)).procs p.ppid = some q) (hm : q.main) (hpc : p.children = [])
    (hne : p.ppid ≠ i) : Tree ((s.setProc i (some p)).pushChild p.ppid i).links := by
  rw [setProc_procs_ne _ _ hne] at hq
  refine htree.insert (i := i) (o := p.ppid) (q := q.links) (p := p.links) ?_ (links_of_procs hq) hm
    rfl hpc ?_
  · rw [State.links, hi]
    rfl
  · intro j
    rw [links_pushChild (by rwa [setProc_procs_ne _ _ hne]), links_setProc]
    rfl

/-! ## Where tasks break, and whom they reap -/

/-- The task at this position will not reap task 1. -/
def Pc.SparesRoot (t : Nat) : Pc → Prop
  | .waitCheck w parentOfChild => w.childPid = 1 → parentOfChild = 1
  | .waitAny w rest => (w.childPid = 1 → t = 1) ∧ 1 ∉ rest
  | .reapLock w _ i | .reap w _ i => (w.childPid = 1 → t = 1) ∧ i ≠ 1
  | .waitLock w | .waitPrepare w | .waitStart w | .waitScan w _ | .reapUnlock w _ | .reapWake w _
  | .waitRelock w _ | .waitThreads w | .waitBlock w | .waitBlocked w => w.childPid = 1 → t = 1
  | _ => True

/-- The slot the next step of `process_reap` frees. -/
def Pc.frees : Pc → Option Nat
  | .reap _ _ i => some i
  | _ => none

/-- What holds of a task whatever the others do. -/
structure Proc.Sane (t : Nat) (p : Proc) : Prop where
  blank : p.state ≠ .blank
  broken : p.state = .broken → p.pc.pastBroken
  spares : p.pc.SparesRoot t

/-- What the code makes of the facts above. -/
structure Course (t : Nat) (p : Proc) (a : Act) (pc : Pc) : Prop where
  pastBroken : p.pc.pastBroken → pc.pastBroken
  setBroken : a = .setBroken → pc.pastBroken
  frees : ∀ i, a = .free i → p.pc.frees = some i
  spares : pc.SparesRoot t

attribute [local simp] Pc.pastBroken Pc.frees Pc.SparesRoot

/-- The actions of an exiting process keep to the course. -/
theorem nextExit_course (h : nextExit s t p p.pc = some (a, pc)) : Course t p a pc := by
  cases hpc : p.pc
  all_goals rw [hpc] at h
  case setBroken thenWake => cases thenWake <;> cases h <;> constructor <;> simp [hpc]
  all_goals simp only [nextExit] at h
  all_goals first
    | cases h
    | (try split at h) <;> (try split at h) <;> cases h
  all_goals constructor <;> simp [hpc]

/-- A waiting task that comes upon task 1 in its scan would be task 1 itself, and
broken. -/
theorem Tree.scan_ne_root (htree : Tree s.links) (hp : s.procs t = some p) (hsane : p.Sane t)
    {w : Wait} (hpc : p.pc = .waitScan w i) (hq : s.procs i = some q)
    (hb : q.truePid = w.childPid ∧ q.state = .broken) : i ≠ 1 := by
  rintro rfl
  obtain ⟨l, hl, -, htrue, -⟩ := htree.root
  obtain ⟨r, hr, rfl⟩ := procs_of_links hl
  rw [hq] at hr
  cases hr
  have hspares := hsane.spares
  rw [hpc] at hspares
  obtain rfl : t = 1 := hspares (hb.1.symm.trans htrue)
  rw [hp] at hq
  cases hq
  have hpast := hsane.broken hb.2
  rw [hpc] at hpast
  cases hpast

/-- So do those of a waiting one; the tree and the sane records say that it never frees the root. -/
theorem nextWait_course (htree : Tree s.links) (hp : s.procs t = some p) (hsane : p.Sane t)
    (h : nextWait s t p p.pc = some (a, pc)) : Course t p a pc := by
  have hspares := hsane.spares
  cases hpc : p.pc
  all_goals rw [hpc] at h hspares
  case waitParent w =>
    cases h
    refine ⟨by simp [hpc], by simp, by simp, ?_⟩
    intro h1
    obtain ⟨l, hl, -, -, hppid⟩ := htree.root
    obtain ⟨r, hr, rfl⟩ := procs_of_links hl
    rw [h1, hr]
    exact hppid
  case waitCheck w parentOfChild =>
    simp only [nextWait] at h
    split at h
    · cases h
      constructor <;> simp [hpc]
    · rename_i hno
      cases h
      refine ⟨by simp [hpc], by simp, by simp, ?_⟩
      intro h1
      have heq : t = parentOfChild := by
        by_contra hne
        exact hno (.inl ⟨by omega, hne⟩)
      exact heq.trans (hspares h1)
  case waitStart w =>
    cases h
    have hnot : 1 ∉ p.children :=
      fun hmem => (htree.child t p.links 1 (links_of_procs hp) hmem).1 rfl
    by_cases h0 : w.childPid = 0 <;> constructor <;> simp [h0, hpc]
    · exact hnot
    · exact hspares
  case waitAny w rest =>
    cases rest with
    | nil =>
      cases h
      exact ⟨by simp [hpc], by simp, by simp, hspares.1⟩
    | cons i rest =>
      obtain ⟨hone, hrest⟩ := hspares
      simp only [nextWait] at h
      split at h
      · cases h
      split at h
      all_goals cases h
      · exact ⟨by simp [hpc], by simp, by simp, hone, fun hi => hrest (hi ▸ List.mem_cons_self ..)⟩
      · exact ⟨by simp [hpc], by simp, by simp, hone, fun hr => hrest (List.mem_cons_of_mem _ hr)⟩
  case waitScan w i =>
    simp only [nextWait] at h
    split at h
    · split at h
      · cases h
        exact ⟨by simp [hpc], by simp, by simp, hspares⟩
      · rename_i q hq
        split at h
        all_goals cases h
        · rename_i hb
          exact ⟨by simp [hpc], by simp, by simp, hspares, htree.scan_ne_root hp hsane hpc hq hb⟩
        · exact ⟨by simp [hpc], by simp, by simp, hspares⟩
    · cases h
      exact ⟨by simp [hpc], by simp, by simp, hspares⟩
  case reap w k i =>
    simp only [nextWait] at h
    split at h
    · cases h
    · cases h
      refine ⟨by simp [hpc], by simp, by simp [hpc], ?_⟩
      split <;> exact hspares.1
  case waitRelock w k =>
    cases k
    all_goals cases h
    all_goals exact ⟨by simp [hpc], by simp, by simp, hspares⟩
  all_goals simp only [nextWait] at h
  all_goals first
    | cases h
    | split at h <;> cases h
  all_goals first
    | exact ⟨by simp [hpc], by simp, by simp, hspares⟩
    | (constructor <;> simp [hpc])

/-- The two together. -/
theorem next_course (htree : Tree s.links) (hp : s.procs t = some p) (hsane : p.Sane t)
    (h : next s t p = some (a, pc)) : Course t p a pc :=
  (next_cases h).elim nextExit_course (nextWait_course htree hp hsane)

/-! ## Runs -/

/-- No process becomes blank again. -/
theorem Moves.ne_blank {own : Prop} {st st' : ProcState} (h : Moves a own st st')
    (hst : st ≠ .blank) : st' ≠ .blank := by
  cases h with
  | same => exact hst
  | woken | prepare | clear | broken => exact nofun

/-- A process that is broken was so before, or its own exit has just broken it. -/
theorem Moves.to_broken {own : Prop} {st : ProcState} (h : Moves a own st .broken) :
    st = .broken ∨ (a = .setBroken ∧ own) := by
  cases h with
  | same => exact .inl rfl
  | broken _ ha ho => exact .inr ⟨ha, ho⟩

/-- The invariant behind `process_tree_wellformed`. -/
structure TreeInv (s : State) : Prop where
  tree : Tree s.links
  sane : ∀ i p, s.procs i = some p → p.Sane i

/-- The task that the next step frees. -/
def reapOf (s : State) : Label → Option Proc
  | .cpu c => do
    let t ← (s.cpus c).current
    let p ← s.procs t
    let i ← p.pc.frees
    let q ← s.procs i
    if (s.cpus c).phase = .run then some q else none
  | _ => none

/-- The step frees a task that has children, or forks from a thread that is not in
`true_ptable`. -/
def orphans (s : State) : TreeLabel → Bool
  | .kernel l =>
    match reapOf s l with
    | some q => q.children ≠ []
    | none => false
  | .fork c _ _ =>
    match s.userTask c with
    | some (_, p) => !p.main
    | none => false
  | .clone _ _ => false

/-- A step that moves no process keeps every one sane. -/
theorem sane_of_still (h : Still s s') (hs : ∀ i p, s.procs i = some p → p.Sane i) :
    ∀ i p, s'.procs i = some p → p.Sane i := by
  intro i p' hp'
  obtain ⟨p, hp, hpc, -, -, hst⟩ := h i p' hp'
  obtain ⟨hblank, hbroken, hspares⟩ := hs i p hp
  exact ⟨hst ▸ hblank, by rw [hst, hpc]; exact hbroken, hpc ▸ hspares⟩

/-- A new task, or an empty slot. -/
theorem sane_setProc {r : Option Proc} (hs : ∀ i p, s.procs i = some p → p.Sane i)
    (hr : ∀ p, r = some p → p.Sane i) : ∀ j p, (s.setProc i r).procs j = some p → p.Sane j := by
  intro j p hp
  by_cases hj : j = i
  · subst hj
    rw [setProc_procs_self] at hp
    exact hr p hp
  · rw [setProc_procs_ne s r hj] at hp
    exact hs j p hp

theorem sane_wakeAll (hs : ∀ i p, s.procs i = some p → p.Sane i) :
    ∀ i p, s.wakeAll.procs i = some p → p.Sane i := by
  intro i p' hp'
  obtain ⟨p, hp, hk⟩ : ∃ p, s.procs i = some p ∧ Kept .skip False p p' := Kept.of_wakeAll hp'
  obtain ⟨hblank, hbroken, hspares⟩ := hs i p hp
  refine ⟨hk.state.ne_blank hblank, fun hb => ?_, hk.pc ▸ hspares⟩
  have hm := hk.state
  rw [hb] at hm
  rw [hk.pc]
  exact hbroken (hm.to_broken.resolve_right (fun h => h.2))

/-- A step of a task, by the action it takes. -/
theorem TreeInv.taskStep (hi : TreeInv s) (hph : (s.cpus c).phase = .run)
    (hc : (s.cpus c).current = some t) (hok : orphans s (.kernel (.cpu c)) = false)
    (h : s.taskStep c t = some s') : TreeInv s' := by
  obtain ⟨p, a, pc, s₁, p₁, hp, hn, hs₁, hp₁, rfl⟩ := taskStep_inv h
  have hcourse := next_course hi.tree hp (hi.sane t p hp) hn
  have hpc : SameLinks s₁ (s₁.setProc t (some { p₁ with pc := pc })) := sameLinks_setProc hp₁ rfl
  refine ⟨?_, ?_⟩
  · refine hpc.tree ?_
    by_cases hre : a = .reparent
    · subst hre
      exact hi.tree.reparent hp hs₁
    by_cases hfree : ∃ i, a = .free i
    · obtain ⟨i, rfl⟩ := hfree
      have hfrees := hcourse.frees i rfl
      obtain ⟨q, -, hq, -⟩ := free_inv hs₁
      have hi1 : i ≠ 1 := by
        have hspares := (hi.sane t p hp).spares
        cases hpc' : p.pc <;> rw [hpc'] at hfrees hspares <;> cases hfrees
        exact hspares.2
      have hchildren : q.children = [] := by
        have hreap : reapOf s (.cpu c) = some q := by
          simp only [reapOf, hc, hp, hfrees, hq, hph, Option.bind_eq_bind, Option.bind_some,
            if_true]
        simpa [orphans, hreap] using hok
      exact hi.tree.free hi1 hq hchildren hs₁
    · exact (perform_links hp hs₁ hre (fun i ha => hfree ⟨i, ha⟩)).tree hi.tree
  · intro j q₁ hq₁
    obtain ⟨q, hq, hqpc, -, -, hm, -⟩ := taskStep_kept hp hs₁ hp₁ hq₁
    obtain ⟨hblank, hbroken, hspares⟩ := hi.sane j q hq
    refine ⟨hm.ne_blank hblank, ?_, ?_⟩
    · intro hb
      rw [hb] at hm
      by_cases hj : j = t
      · subst hj
        rw [hp] at hq
        cases hq
        rw [hqpc, if_pos rfl]
        rcases hm.to_broken with hb | ⟨ha, -⟩
        · exact hcourse.pastBroken (hbroken hb)
        · exact hcourse.setBroken ha
      · rw [hqpc, if_neg hj]
        exact hbroken (hm.to_broken.resolve_right (fun h => hj h.2))
    · rw [hqpc]
      split
      · rename_i hj
        exact hj ▸ hcourse.spares
      · exact hspares

/-- Entering a system call changes nothing but the place in the code. -/
theorem TreeInv.syscall (hi : TreeInv s) {call : Syscall} (hp : s.procs t = some p)
    (hu : p.pc = .user) (hpc : call.entry = some pc) :
    TreeInv (s.setProc t (some { p with pc := pc })) := by
  have hentry : pc.SparesRoot t := by
    cases call with
    | exit status | texit status => cases hpc; trivial
    | waitpid childPid nohang =>
      simp only [Syscall.entry] at hpc
      split at hpc
      · cases hpc; trivial
      · cases hpc
  have hlinks : SameLinks s (s.setProc t (some { p with pc := pc })) := sameLinks_setProc hp rfl
  refine ⟨hlinks.tree hi.tree, sane_setProc hi.sane ?_⟩
  intro q hq
  cases hq
  obtain ⟨hblank, hbroken, -⟩ := hi.sane t p hp
  refine ⟨hblank, fun hb => ?_, hentry⟩
  have hpast := hbroken hb
  rw [hu] at hpast
  cases hpast

/-- Every step of the kernel. -/
theorem TreeInv.step {l : Label} (hi : TreeInv s) (hok : orphans s (.kernel l) = false)
    (h : step s l = some s') : TreeInv s' := by
  rcases step_cases h with ⟨c, t, rfl, hph, hc, h⟩ | ⟨c, h⟩ | ⟨t, p, call, pc, hp, hu, hpc, rfl⟩
  · exact hi.taskStep hph hc hok h
  · obtain ⟨cpu, rfl, -⟩ := sched_inv h
    exact ⟨hi.tree, hi.sane⟩
  · exact hi.syscall hp hu hpc

/-- The slot found is empty. -/
theorem TreeInv.procSlot (hi : TreeInv s) (h : s.procSlot = some i) : s.procs i = none := by
  have hfree := List.find?_some h
  split at hfree
  · rename_i p hp
    exact absurd (of_decide_eq_true hfree) (hi.sane i p hp).blank
  · assumption

theorem still_setRax (s : State) (t : Nat) (rax : Int) : Still s (s.setRax t rax) := by
  unfold State.setRax
  split
  · rename_i p hp
    exact .setProc hp ⟨rfl, rfl, rfl, rfl⟩
  · exact .refl s

theorem still_pushChild (s : State) (o i : Nat) : Still s (s.pushChild o i) := by
  unfold State.pushChild
  split
  · rename_i q hq
    exact .setProc hq ⟨rfl, rfl, rfl, rfl⟩
  · exact .refl s

theorem TreeInv.setRax (hi : TreeInv s) (t : Nat) (rax : Int) : TreeInv (s.setRax t rax) :=
  ⟨(sameLinks_setRax s t rax).tree hi.tree, sane_of_still (still_setRax s t rax) hi.sane⟩

/-- A new task in user mode, last in the list of a main thread. -/
theorem TreeInv.push (hi : TreeInv s) (hslot : s.procs i = none)
    (hq : (s.setProc i (some p)).procs p.ppid = some q) (hm : q.main) (hpc : p.children = [])
    (hne : p.ppid ≠ i) (hst : p.state = .runnable) (hu : p.pc = .user) :
    TreeInv ((s.setProc i (some p)).pushChild p.ppid i) := by
  refine ⟨hi.tree.push hslot hq hm hpc hne, sane_of_still (still_pushChild _ _ _) ?_⟩
  refine sane_setProc hi.sane fun r hr => ?_
  cases hr
  exact ⟨by rw [hst]; exact nofun, by rw [hst]; exact nofun, by rw [hu]; trivial⟩

/-- A clone adds a thread, which has no place in the tree. -/
theorem TreeInv.sysClone (hi : TreeInv s) {ncpu : Nat} {exitStatus : Int}
    (h : s.sysClone ncpu t exitStatus = some s') : TreeInv s' := by
  unfold State.sysClone at h
  obtain ⟨p, hp, h⟩ := Option.bind_eq_some_iff.mp h
  split at h
  · cases h
    exact hi.setRax t _
  · rename_i i hslot
    obtain ⟨q, hq, h⟩ := Option.bind_eq_some_iff.mp h
    split at h
    · rename_i hm
      cases h
      have hne : p.ppid ≠ i := by
        intro heq
        rw [heq, setProc_procs_self] at hq
        cases hq
        cases hm
      have hpush := hi.push (hi.procSlot hslot) hq hm rfl hne rfl rfl
      exact (⟨hpush.tree, hpush.sane⟩ : TreeInv (State.enqueue _ (i % ncpu) i)).setRax t _
    · cases h

/-- Linking a new process adds a leaf below the process that forks. -/
theorem TreeInv.linkFork (hi : TreeInv s) (hp : s.procs t = some p) (hm : p.main)
    (hslot : s.procs i = none) (ncpu : Nat) (exitStatus : Int) :
    TreeInv (s.linkFork ncpu t i exitStatus) := by
  have hne : t ≠ i := by
    rintro rfl
    rw [hp] at hslot
    cases hslot
  unfold State.linkFork
  exact hi.push hslot (q := p) (by rwa [setProc_procs_ne _ _ hne]) hm rfl hne rfl rfl

/-- The record of the new process. -/
theorem linkFork_procs (hne : t ≠ i) (ncpu : Nat) (exitStatus : Int) :
    (s.linkFork ncpu t i exitStatus).procs i = some
      { truePid := i, ppid := t, main := true, cpu := i % ncpu, state := .runnable,
        exitStatus := exitStatus, pc := .user } := by
  unfold State.linkFork State.pushChild
  split
  · rw [setProc_procs_ne _ _ (Ne.symm hne), setProc_procs_self]
  · rw [setProc_procs_self]

/-- A process without children can be taken out of the table. -/
theorem TreeInv.free (hi : TreeInv s) (hi1 : i ≠ 1) (hp : s.procs i = some p)
    (hpc : p.children = []) (h : s.free i = some s₁) : TreeInv s₁ := by
  refine ⟨hi.tree.free hi1 hp hpc h, ?_⟩
  obtain ⟨p', q, hp', hq, -, -, hnone, hj⟩ := free_inv h
  have hstill : Still s s₁ := by
    intro j q₁ hq₁
    by_cases hji : j = i
    · rw [hji, hnone] at hq₁
      cases hq₁
    · rw [hj j hji] at hq₁
      split at hq₁
      · rename_i hjp
        cases hq₁
        exact ⟨q, hjp ▸ hq, rfl, rfl, rfl, rfl⟩
      · exact ⟨q₁, hq₁, rfl, rfl, rfl, rfl⟩
  exact sane_of_still hstill hi.sane

/-- A fork by each of its ends: the child is linked, or linked and freed again. -/
theorem TreeInv.sysFork (hi : TreeInv s) (hp : s.procs t = some p) (hm : p.main) {ncpu : Nat}
    {e : ForkEnd} {exitStatus : Int} (h : s.sysFork ncpu t e exitStatus = some s') :
    TreeInv s' := by
  unfold State.sysFork at h
  split at h
  · cases h
    exact hi.setRax t _
  rename_i i hslot
  have hnone := hi.procSlot hslot
  have hne : t ≠ i := by
    rintro rfl
    rw [hp] at hnone
    cases hnone
  have hlink := hi.linkFork hp hm hnone ncpu exitStatus
  -- the slot stays empty when the fork fails early
  have hempty : TreeInv (s.setProc i none) := by
    have hsame : SameLinks s (s.setProc i none) := by
      intro j
      rw [links_setProc]
      split
      · rename_i hj
        rw [hj, State.links, hnone]
      · rfl
    exact ⟨hsame.tree hi.tree, sane_setProc hi.sane (fun _ h => by cases h)⟩
  split at h
  · cases h
    exact hempty.setRax t _
  · cases h
    exact hempty.setRax t _
  · cases h
    exact hempty.setRax t _
  · obtain ⟨s₁, hs₁, rfl⟩ := Option.map_eq_some_iff.mp h
    have hi1 := hi.tree.ne_root (i := i) (by rw [State.links, hnone]; rfl)
    have hfreed := hlink.free hi1 (linkFork_procs hne ncpu exitStatus) rfl hs₁
    have hwoken : TreeInv s₁.wakeAll :=
      ⟨(sameLinks_wakes s₁ s₁.waitq : SameLinks s₁ s₁.wakeAll).tree hfreed.tree,
        sane_wakeAll hfreed.sane⟩
    exact hwoken.setRax t _
  · cases h
    exact (⟨hlink.tree, hlink.sane⟩ : TreeInv (State.enqueue _ (i % ncpu) i)).setRax t _

theorem userTask_some (h : s.userTask c = some (t, p)) : s.procs t = some p := by
  unfold State.userTask at h
  split at h
  · split at h
    · rename_i q hq
      split at h
      · cases h
        exact hq
      · cases h
    · cases h
  · cases h

/-- Every step of the kernel with fork and clone. -/
theorem TreeInv.treeStep {ncpu : Nat} {l : TreeLabel} (hi : TreeInv s) (hok : orphans s l = false)
    (h : treeStep ncpu s l = some s') : TreeInv s' := by
  cases l with
  | kernel l => exact hi.step hok h
  | fork c e exitStatus =>
    unfold ExitWait.treeStep at h
    dsimp only at h
    split at h
    · rename_i t p hu
      split at h
      · have hm : p.main = true := by simpa [orphans, hu] using hok
        exact hi.sysFork (userTask_some hu) hm h
      · cases h
    · cases h
  | clone c exitStatus =>
    unfold ExitWait.treeStep at h
    dsimp only at h
    split at h
    · split at h
      · exact hi.sysClone h
      · cases h
    · cases h

end Links

/-- Every task is in user mode, and the process tree is well formed with process 1 at
its root, as it is after `process_setup`. -/
structure Rooted (s : State) : Prop extends Started s where
  tree : Tree s.links

/-- The kernel's tasks on its CPUs, with tasks created as they run. -/
def forking (ncpu : Nat) : Machine State TreeLabel where
  init := Rooted
  step := treeStep ncpu

variable {s : State}

/-- The tree at boot. -/
theorem TreeInv.rooted (h : Rooted s) : TreeInv s := by
  refine ⟨h.tree, ?_⟩
  intro i p hp
  obtain ⟨hu, hr⟩ := h.user i p hp
  exact ⟨by rw [hr]; exact nofun, by rw [hr]; exact nofun, by rw [hu]; trivial⟩

/-- Every task but 1 is on exactly one list of children, once, and that list is the one
of `true_ptable[ppid_]`, which is not null. -/
def WellFormed (s : State) : Prop :=
  ∀ i p, s.procs i = some p → i ≠ 1 → ∃ q, s.procs p.ppid = some q ∧ q.main ∧
    q.children.count i = 1 ∧ ∀ o r, s.procs o = some r → o ≠ p.ppid → i ∉ r.children

/-- In a tree every task but the root is on the list of its parent and on no other. -/
theorem Tree.wellFormed (h : Tree s.links) : WellFormed s := by
  intro i p hp hi1
  obtain ⟨l, hl, hm, hmem⟩ := h.parent i p.links (links_of_procs hp) hi1
  obtain ⟨q, hq, rfl⟩ := procs_of_links hl
  have hnodup : q.children.Nodup := h.nodup p.ppid q.links hl
  refine ⟨q, hq, hm, List.count_eq_one_of_mem hnodup hmem, ?_⟩
  intro o r hr hne hin
  obtain ⟨-, l', hl', hppid⟩ := h.child o r.links i (links_of_procs hr) hin
  rw [links_of_procs hp] at hl'
  cases hl'
  exact hne hppid.symm

/-- **The process tree is well formed in every run in which only main threads fork and
no task is reaped that still has children**: every task but 1 is on exactly one list,
that of its parent's main thread, and `process_reap` never dereferences a null parent.
The tasks run on any number of CPUs, and the system calls interleave. -/
theorem process_tree_wellformed {ncpu : Nat}
    (h : (forking ncpu).ReachWhen (fun s l => orphans s l = false) s) :
    WellFormed s ∧ ∀ i p, s.procs i = some p → i ≠ 1 → (s.free i).isSome := by
  have hi : TreeInv s := h.invariant TreeInv (fun _ => TreeInv.rooted)
    (fun _ _ _ hi hok hstep => hi.treeStep hok hstep)
  exact ⟨hi.tree.wellFormed, fun i p hp hi1 => hi.tree.free_isSome hi1 hp⟩

theorem family_rooted : Rooted family := by
  refine ⟨family_started, ?_⟩
  have h1 : family.links 1 = some ⟨1, 1, true, [2]⟩ := rfl
  have h2 : family.links 2 = some ⟨2, 1, true, []⟩ := rfl
  have hcases : ∀ {i l}, family.links i = some l → i = 1 ∨ i = 2 := by
    intro i l hl
    by_contra hno
    have hnone : family.links i = none := by
      simp only [State.links, family]
      rw [if_neg (fun h => hno (.inl h)), if_neg (fun h => hno (.inr h))]
      rfl
    rw [hnone] at hl
    cases hl
  refine ⟨⟨_, h1, rfl, rfl, rfl⟩, ?_, ?_, ?_⟩
  · intro i l hl hi1
    obtain rfl := (hcases hl).resolve_left hi1
    rw [h2] at hl
    cases hl
    exact ⟨_, h1, rfl, List.mem_singleton.mpr rfl⟩
  · intro o l i hl hi
    rcases hcases hl with rfl | rfl
    · rw [h1] at hl
      cases hl
      obtain rfl := List.mem_singleton.mp hi
      exact ⟨by decide, _, h2, rfl⟩
    · rw [h2] at hl
      cases hl
      cases hi
  · intro o l hl
    rcases hcases hl with rfl | rfl
    · rw [h1] at hl
      cases hl
      exact List.nodup_singleton 2
    · rw [h2] at hl
      cases hl
      exact List.nodup_nil

/-- Process 2 forks process 3 and exits. -/
def forkRun : List TreeLabel :=
  TreeLabel.fork 0 .done 0 :: TreeLabel.kernel (.syscall 0 (.exit 0)) :: List.replicate 25
    (TreeLabel.kernel (.cpu 0))

theorem process_tree_wellformed_reparented : ∃ s p,
    (forking 2).ReachWhen (fun s l => orphans s l = false) s ∧ s.procs 3 = some p ∧ p.ppid = 1 ∧
      WellFormed s ∧ (s.free 3).isSome := by
  have hrun : ((forking 2).runWhen (fun s l => orphans s l = false) family forkRun).isSome := by
    decide +kernel
  obtain ⟨s, hs⟩ := Option.isSome_iff_exists.mp hrun
  have h₃ : (((forking 2).runWhen (fun s l => orphans s l = false) family forkRun).bind
      (fun s => s.procs 3)).map Proc.ppid = some 1 := by
    decide +kernel
  rw [hs, Option.bind_some] at h₃
  obtain ⟨p, hp, hppid⟩ := Option.map_eq_some_iff.mp h₃
  have hreach := Machine.ReachWhen.runWhen (.init family_rooted) hs
  obtain ⟨hwell, hfree⟩ := process_tree_wellformed hreach
  exact ⟨s, p, hreach, hp, hppid, hwell, hfree 3 p hp (by decide)⟩

/-- Process 2 makes a thread, 3, which forks. -/
def threadForkRun : List TreeLabel :=
  [.clone 0 0, .kernel (.timer 1), .kernel (.cpu 1), .kernel (.cpu 1), .kernel (.cpu 1),
    .fork 1 .done 0]

/-- The process that a thread has forked hangs on the list of the thread, and
`process_reap` of it dereferences a null pointer. -/
theorem thread_fork_dangles : ∃ s, (forking 2).Reach s ∧ ¬ WellFormed s ∧
    (∃ p, s.procs 4 = some p) ∧ s.free 4 = none := by
  have hrun : ((forking 2).run family threadForkRun).isSome := by decide +kernel
  obtain ⟨s, hs⟩ := Option.isSome_iff_exists.mp hrun
  have h₃ : (((forking 2).run family threadForkRun).bind (fun s => s.procs 3)).map Proc.main =
      some false := by decide +kernel
  have h₄ : (((forking 2).run family threadForkRun).bind (fun s => s.procs 4)).map Proc.ppid =
      some 3 := by decide +kernel
  rw [hs, Option.bind_some] at h₃ h₄
  obtain ⟨q, hq, hmain⟩ := Option.map_eq_some_iff.mp h₃
  obtain ⟨p, hp, hppid⟩ := Option.map_eq_some_iff.mp h₄
  refine ⟨s, Machine.Reach.run (.init family_rooted) hs, ?_, ⟨p, hp⟩, ?_⟩
  · intro hwell
    obtain ⟨q', hq', hm, -⟩ := hwell 4 p hp (by decide)
    rw [hppid, hq] at hq'
    cases hq'
    rw [hmain] at hm
    cases hm
  · unfold State.free
    rw [hp]
    dsimp only
    rw [hppid, hq]
    dsimp only
    rw [hmain]
    rfl

end PugOS.ExitWait
