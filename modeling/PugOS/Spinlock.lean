import PugOS.Transition
import Mathlib

/-! # Spinlocks

Any number of processors take and release spinlocks, and are interrupted whenever their interrupts
are on.  The functions of `spinlock` and `irqstate` are cut where another processor or an interrupt
can come in between: `lock` reads the flags, turns interrupts off, tries the flag of the lock until
it was clear, and counts; `unlock` counts, clears the flag and restores the flags.

A lock has at most one holder, its flag is set exactly while it has one, and a processor counts the
flags it has saved (`mutual_exclusion`).  If saved flags are restored in order, then no code that is
interrupted holds a lock (`orderly_interrupts`), and a processor that holds none has the interrupts
that it began with (`interrupts_restored`).
-/
namespace PugOS.Spinlock
open Transition

variable {C L : Type}

/-! ## Processors -/

/-- Where code is in a function of `spinlock`, with the flags that it has read. -/
inductive Pc (L : Type) where
  | run
  /-- `cli()` comes next, in `lock` (`wait`) or `trylock`. -/
  | cli (l : L) (saved wait : Bool)
  /-- In the loop of `lock_noirq`, on behalf of `lock` if there are flags. -/
  | spin (l : L) (saved : Option Bool)
  /-- `trylock_noirq()` comes next, in `trylock`. -/
  | attempt (l : L) (saved : Bool)
  /-- The lock is held, and has to be counted. -/
  | got (saved : Bool)
  /-- `unlock_noirq()` comes next, in `unlock`. -/
  | drop (l : L) (saved : Bool)
  /-- `irqs.restore()` comes next. -/
  | put (saved : Bool)
  deriving DecidableEq

/-- A piece of code that runs on a processor: a task, or a handler of an interrupt.  It has the
locks that it holds, and the `irqstate`s that it has got from them, the last one first. -/
structure Activity (L : Type) where
  pc : Pc L
  locks : List L
  irqs : List Bool
  deriving DecidableEq

/-- An activity that begins. -/
def Activity.start : Activity L := ⟨.run, [], []⟩

/-- A processor: whether its interrupts are on, its `spinlock_depth_`, what it runs, and what has
been interrupted. -/
structure Cpu (L : Type) where
  irq : Bool
  depth : Nat
  cur : Activity L
  interrupted : List (Activity L)

/-- The locks that code on the processor holds. -/
def Cpu.owned (p : Cpu L) : List L := p.cur.locks ++ p.interrupted.flatMap Activity.locks

/-- How many `irqstate`s there are on the processor. -/
def Cpu.saves (p : Cpu L) : Nat :=
  p.cur.irqs.length + (p.interrupted.map fun a => a.irqs.length).sum

/-- What a CPU may do. -/
inductive Action (L : Type) where
  | lock (l : L)
  | trylock (l : L)
  | lockNoirq (l : L)
  | unlockNoirq (l : L)
  /-- `l.unlock(irqs)`, with one of the `irqstate`s. -/
  | unlock (l : L) (k : Nat)
  /-- The function that is being executed goes on. -/
  | next
  | interrupt
  | iret

section Steps
variable [DecidableEq L]

/-- What comes next in a function, with the flags `f` of the locks. -/
def Cpu.next (f : L → Bool) (p : Cpu L) : Option ((L → Bool) × Cpu L) :=
  match p.cur.pc with
  | .run => none
  | .cli l saved wait =>
    some (f,
      { p with irq := false, cur.pc := if wait then .spin l (some saved) else .attempt l saved })
  | .spin l saved =>
    if f l then some (f, p)
    else some (Function.update f l true,
      { p with cur.locks := l :: p.cur.locks, cur.pc := (saved.map .got).getD .run })
  | .attempt l saved =>
    -- `irqs.clear()`: the flags are not restored
    if f l then some (f, { p with cur.pc := .run })
    else some (Function.update f l true,
      { p with cur.locks := l :: p.cur.locks, cur.pc := .got saved })
  | .got saved =>
    some (f, { p with depth := p.depth + 1, cur.irqs := saved :: p.cur.irqs, cur.pc := .run })
  | .drop l saved =>
    some (Function.update f l false,
      { p with cur.locks := p.cur.locks.erase l, cur.pc := .put saved })
  | .put saved => some (f, { p with irq := saved, cur.pc := .run })

/-- A step of a processor. -/
def Cpu.step (f : L → Bool) (p : Cpu L) : Action L → Option ((L → Bool) × Cpu L)
  | .lock l => if p.cur.pc = .run then some (f, { p with cur.pc := .cli l p.irq true }) else none
  | .trylock l =>
    if p.cur.pc = .run then some (f, { p with cur.pc := .cli l p.irq false }) else none
  | .lockNoirq l => if p.cur.pc = .run then some (f, { p with cur.pc := .spin l none }) else none
  | .unlockNoirq l =>
    if p.cur.pc = .run ∧ l ∈ p.cur.locks then
      some (Function.update f l false, { p with cur.locks := p.cur.locks.erase l })
    else none
  | .unlock l k =>
    if p.cur.pc = .run ∧ l ∈ p.cur.locks then
      p.cur.irqs[k]?.map fun saved =>
        (f,
          { p with
            depth := p.depth - 1
            cur.irqs := p.cur.irqs.eraseIdx k
            cur.pc := .drop l saved })
    else none
  | .next => p.next f
  | .interrupt =>
    if p.irq then some (f,
      { p with irq := false, cur := .start, interrupted := p.cur :: p.interrupted }) else none
  | .iret =>
    match p.interrupted with
    | [] => none
    | a :: rest =>
      if p.cur = .start then some (f, { p with irq := true, cur := a, interrupted := rest })
        else none

end Steps

/-! ## The machine -/

/-- The flags of the locks, and the processors. -/
structure State (C L : Type) where
  f : L → Bool
  cpu : C → Cpu L

variable [DecidableEq C] [DecidableEq L]

/-- All locks are free, and `on` says which processors begin with interrupts on. -/
def machine (on : C → Bool) : Machine (State C L) (C × Action L) where
  init s := s.f = (fun _ => false) ∧ s.cpu = fun c => ⟨on c, 0, .start, []⟩
  step s a := ((s.cpu a.1).step s.f a.2).map fun r => ⟨r.1, Function.update s.cpu a.1 r.2⟩

/-! ## Mutual exclusion -/

/-- The depth is right, and a lock that is about to be freed is held. -/
structure Cpu.Counted (p : Cpu L) : Prop where
  depth : p.depth = p.saves
  drop : ∀ a ∈ p.cur :: p.interrupted, ∀ l saved, a.pc = .drop l saved → l ∈ a.locks

/-- What a step does to the locks: nothing, or it takes one that is free, or it frees one. -/
inductive Effect (f : L → Bool) (p : Cpu L) (f' : L → Bool) (p' : Cpu L) : Prop
  | none (hf : f' = f) (howned : p'.owned = p.owned)
  | take (l : L) (hfree : f l = false) (hf : f' = Function.update f l true)
      (howned : p'.owned = l :: p.owned)
  | free (l : L) (hheld : l ∈ p.owned) (hf : f' = Function.update f l false)
      (howned : p'.owned = p.owned.erase l)

section Effect
variable {f f' : L → Bool} {p p' : Cpu L} {a : Activity L}

omit [DecidableEq L] in
/-- The current code is somewhere else. -/
theorem Cpu.Counted.goto (h : p.Counted) {q : Cpu L} (hdepth : q.depth = q.saves)
    (hint : q.interrupted = p.interrupted)
    (hpc : ∀ l saved, q.cur.pc = .drop l saved → l ∈ q.cur.locks) : q.Counted := by
  refine ⟨hdepth, fun a ha => ?_⟩
  rcases List.mem_cons.mp ha with rfl | ha
  · exact hpc
  · exact h.drop a (List.mem_cons_of_mem _ (hint ▸ ha))

theorem erase_owned {l : L} (h : l ∈ p.cur.locks) :
    p.cur.locks.erase l ++ p.interrupted.flatMap Activity.locks = p.owned.erase l :=
  (List.erase_append_left _ h).symm

theorem Cpu.next_effect (h : p.Counted) (hstep : p.next f = some (f', p')) : p'.Counted ∧
    Effect f p f' p' := by
  have hdepth := h.depth
  unfold Cpu.next at hstep
  cases hpc : p.cur.pc with
  | run =>
    rw [hpc] at hstep
    cases hstep
  | cli l saved wait =>
    rw [hpc] at hstep
    cases hstep
    refine ⟨h.goto hdepth rfl fun l' saved' heq => ?_, .none rfl rfl⟩
    dsimp only at heq
    split at heq <;> cases heq
  | spin l saved =>
    rw [hpc] at hstep
    dsimp only at hstep
    split at hstep
    · cases hstep
      exact ⟨h, .none rfl rfl⟩
    · rename_i hfree
      cases hstep
      refine ⟨h.goto hdepth rfl fun l' saved' heq => ?_,
        .take l ((Bool.not_eq_true _).mp hfree) rfl rfl⟩
      dsimp only at heq
      cases saved <;> cases heq
  | attempt l saved =>
    rw [hpc] at hstep
    dsimp only at hstep
    split at hstep
    · cases hstep
      exact ⟨h.goto hdepth rfl fun l' saved' heq => (by cases heq), .none rfl rfl⟩
    · rename_i hfree
      cases hstep
      exact ⟨h.goto hdepth rfl fun l' saved' heq => (by cases heq),
        .take l ((Bool.not_eq_true _).mp hfree) rfl rfl⟩
  | got saved =>
    rw [hpc] at hstep
    cases hstep
    refine ⟨h.goto ?_ rfl fun l' saved' heq => (by cases heq), .none rfl rfl⟩
    unfold Cpu.saves at hdepth ⊢
    dsimp only
    rw [hdepth, List.length_cons]
    omega
  | drop l saved =>
    have hheld := h.drop p.cur List.mem_cons_self l saved hpc
    rw [hpc] at hstep
    cases hstep
    exact ⟨h.goto hdepth rfl fun l' saved' heq => (by cases heq),
      .free l (List.mem_append_left _ hheld) rfl (erase_owned hheld)⟩
  | put saved =>
    rw [hpc] at hstep
    cases hstep
    exact ⟨h.goto hdepth rfl fun l' saved' heq => (by cases heq), .none rfl rfl⟩

/-- **A step of a processor.** -/
theorem Cpu.step_effect {act : Action L} (h : p.Counted) (hstep : p.step f act = some (f', p')) :
    p'.Counted ∧ Effect f p f' p' := by
  have hdepth := h.depth
  cases act with
  | lock l | trylock l | lockNoirq l =>
    unfold Cpu.step at hstep
    dsimp only at hstep
    split at hstep
    · cases hstep
      exact ⟨h.goto hdepth rfl fun l' saved' heq => (by cases heq), .none rfl rfl⟩
    · cases hstep
  | unlockNoirq l =>
    unfold Cpu.step at hstep
    dsimp only at hstep
    split at hstep
    · rename_i hrun
      cases hstep
      refine ⟨h.goto hdepth rfl fun l' saved' heq => ?_,
        .free l (List.mem_append_left _ hrun.2) rfl (erase_owned hrun.2)⟩
      rw [hrun.1] at heq
      cases heq
    · cases hstep
  | unlock l k =>
    unfold Cpu.step at hstep
    dsimp only at hstep
    split at hstep
    · rename_i hrun
      obtain ⟨saved, hk, heq⟩ := Option.map_eq_some_iff.mp hstep
      cases heq
      refine ⟨h.goto ?_ rfl fun l' saved' heq => ?_, .none rfl rfl⟩
      · have hlt := (List.getElem?_eq_some_iff.mp hk).1
        unfold Cpu.saves at hdepth ⊢
        dsimp only
        rw [hdepth, List.length_eraseIdx_of_lt hlt]
        omega
      · cases heq
        exact hrun.2
    · cases hstep
  | next => exact Cpu.next_effect h hstep
  | interrupt =>
    unfold Cpu.step at hstep
    dsimp only at hstep
    split at hstep
    · cases hstep
      refine ⟨⟨?_, fun a ha => ?_⟩, .none rfl rfl⟩
      · unfold Cpu.saves at hdepth ⊢
        simpa [Activity.start] using hdepth
      · rcases List.mem_cons.mp ha with rfl | ha
        · intro l saved heq
          cases heq
        · exact h.drop a ha
    · cases hstep
  | iret =>
    unfold Cpu.step at hstep
    dsimp only at hstep
    cases hint : p.interrupted with
    | nil =>
      rw [hint] at hstep
      cases hstep
    | cons a rest =>
      rw [hint] at hstep
      dsimp only at hstep
      split at hstep
      · rename_i hcur
        cases hstep
        have hdrop := h.drop
        rw [hint] at hdrop
        refine ⟨⟨?_, fun b hb => hdrop b (List.mem_cons_of_mem _ hb)⟩, .none rfl ?_⟩
        · unfold Cpu.saves at hdepth ⊢
          rw [hint, hcur] at hdepth
          simpa [Activity.start] using hdepth
        · unfold Cpu.owned
          rw [hint, hcur]
          rfl
      · cases hstep

end Effect

/-- No lock is held twice, and a lock is held exactly if its flag is set. -/
structure Exclusive (s : State C L) : Prop where
  counted : ∀ c, (s.cpu c).Counted
  once : ∀ c, (s.cpu c).owned.Nodup
  apart : ∀ c c' l, l ∈ (s.cpu c).owned → l ∈ (s.cpu c').owned → c = c'
  flag : ∀ l, s.f l = true ↔ ∃ c, l ∈ (s.cpu c).owned

section Exclusive
variable {on : C → Bool} {s s' : State C L}

theorem Exclusive.init (h : (machine on : Machine (State C L) _).init s) : Exclusive s := by
  obtain ⟨hf, hcpu⟩ := h
  refine ⟨fun c => ?_, fun c => ?_, fun c c' l hl => ?_, fun l => ?_⟩
  · rw [hcpu]
    refine ⟨rfl, fun a ha l saved heq => ?_⟩
    obtain rfl := List.mem_singleton.mp ha
    cases heq
  · rw [hcpu]
    exact List.nodup_nil
  · rw [hcpu] at hl
    cases hl
  · rw [hf, hcpu]
    exact iff_of_false Bool.false_ne_true fun ⟨_, hl⟩ => by cases hl

/-- **The step lemma.** -/
theorem Exclusive.step {a : C × Action L} (h : Exclusive s)
    (hstep : (machine on).step s a = some s') : Exclusive s' := by
  obtain ⟨c, act⟩ := a
  obtain ⟨⟨f', p'⟩, hcpu, rfl⟩ := Option.map_eq_some_iff.mp hstep
  obtain ⟨hcounted, heff⟩ := Cpu.step_effect (h.counted c) hcpu
  -- the other processors are as they were
  have hother : ∀ d, d ≠ c → Function.update s.cpu c p' d = s.cpu d :=
    fun d hd => Function.update_of_ne hd _ _
  have hself : Function.update s.cpu c p' c = p' := Function.update_self c p' s.cpu
  have hall : ∀ P : Cpu L → Prop, P p' → (∀ d, P (s.cpu d)) →
      ∀ d, P (Function.update s.cpu c p' d) := by
    intro P hp hs d
    by_cases hd : d = c
    · subst hd
      rwa [hself]
    · rw [hother d hd]
      exact hs d
  have hcounted' := hall Cpu.Counted hcounted h.counted
  cases heff with
  | none hf howned =>
    -- every processor has the locks that it had
    have hsame : ∀ d, (Function.update s.cpu c p' d).owned = (s.cpu d).owned := by
      intro d
      by_cases hd : d = c
      · subst hd
        rw [hself, howned]
      · rw [hother d hd]
    refine ⟨hcounted', fun d => ?_, fun d d' l => ?_, fun l => ?_⟩
    · rw [hsame]
      exact h.once d
    · rw [hsame, hsame]
      exact h.apart d d' l
    · subst hf
      simp only [hsame]
      exact h.flag l
  | take l hfree hf howned =>
    have hnot : ∀ d, l ∉ (s.cpu d).owned := fun d hd => by
      rw [(h.flag l).mpr ⟨d, hd⟩] at hfree
      cases hfree
    have hmem : ∀ d l', l' ∈ (Function.update s.cpu c p' d).owned ↔
        (d = c ∧ l' = l) ∨ l' ∈ (s.cpu d).owned := by
      intro d l'
      by_cases hd : d = c
      · subst hd
        rw [hself, howned, List.mem_cons]
        simp
      · rw [hother d hd]
        simp [hd]
    refine ⟨hcounted', hall (fun p => p.owned.Nodup) ?_ h.once, fun d d' l' hl hl' => ?_,
      fun l' => ?_⟩
    · rw [howned]
      exact List.nodup_cons.mpr ⟨hnot c, h.once c⟩
    · rcases (hmem d l').mp hl with ⟨hd, hll⟩ | hold <;>
        rcases (hmem d' l').mp hl' with ⟨hd', hll'⟩ | hold'
      · rw [hd, hd']
      · exact absurd (hll ▸ hold') (hnot d')
      · exact absurd (hll' ▸ hold) (hnot d)
      · exact h.apart d d' l' hold hold'
    · subst hf
      simp only [hmem]
      by_cases hl : l' = l
      · subst hl
        rw [Function.update_self]
        exact iff_of_true rfl ⟨c, .inl ⟨rfl, rfl⟩⟩
      · rw [Function.update_of_ne hl, h.flag l']
        simp [hl]
  | free l hheld hf howned =>
    have hmem : ∀ d l', l' ∈ (Function.update s.cpu c p' d).owned ↔
        l' ≠ l ∧ l' ∈ (s.cpu d).owned := by
      intro d l'
      by_cases hd : d = c
      · subst hd
        rw [hself, howned, (h.once d).mem_erase_iff]
      · rw [hother d hd]
        refine ⟨fun hl => ⟨?_, hl⟩, fun hl => hl.2⟩
        rintro rfl
        exact hd (h.apart d c l' hl hheld)
    refine ⟨hcounted', hall (fun p => p.owned.Nodup) ?_ h.once, fun d d' l' hl hl' => ?_,
      fun l' => ?_⟩
    · rw [howned]
      exact (h.once c).erase l
    · exact h.apart d d' l' ((hmem d l').mp hl).2 ((hmem d' l').mp hl').2
    · subst hf
      simp only [hmem]
      by_cases hl : l' = l
      · subst hl
        rw [Function.update_self]
        exact iff_of_false Bool.false_ne_true fun ⟨_, hne, _⟩ => hne rfl
      · rw [Function.update_of_ne hl, h.flag l']
        simp [hl]

/-- **Mutual exclusion**, with any number of processors, however their steps and interrupts
interleave: a lock is held at most once, its flag is set exactly while it is held, and
`spinlock_depth_` is the number of `irqstate`s on the processor. -/
theorem mutual_exclusion (h : (machine on).Reach s) :
    (∀ c, (s.cpu c).owned.Nodup) ∧ (∀ c c' l, l ∈ (s.cpu c).owned → l ∈ (s.cpu c').owned → c = c') ∧
      (∀ l, s.f l = true ↔ ∃ c, l ∈ (s.cpu c).owned) ∧ ∀ c, (s.cpu c).depth = (s.cpu c).saves := by
  have hex : Exclusive s := h.invariant Exclusive (fun _ => .init) fun _ _ _ => .step
  exact ⟨hex.once, hex.apart, hex.flag, fun c => (hex.counted c).depth⟩

end Exclusive

/-! ## Interrupts -/

/-- `lock_noirq` is called with interrupts off, `unlock` restores the last flags, and flags that
turn interrupts on are restored with the last lock. -/
def Cpu.Orderly (p : Cpu L) : Action L → Prop
  | .lockNoirq _ => p.irq = false
  | .unlock l k => k = 0 ∧ (p.cur.irqs = [true] → p.cur.locks = [l])
  | _ => True

instance (p : Cpu L) (act : Action L) : Decidable (p.Orderly act) :=
  match act with
  | .lockNoirq _ => inferInstanceAs (Decidable (p.irq = false))
  | .unlock l k => inferInstanceAs (Decidable (k = 0 ∧ (p.cur.irqs = [true] → p.cur.locks = [l])))
  | .lock _ | .trylock _ | .unlockNoirq _ | .next | .interrupt | .iret =>
    inferInstanceAs (Decidable True)

/-- A `trylock` fails. -/
def Cpu.fails (f : L → Bool) (p : Cpu L) (act : Action L) : Bool :=
  match act, p.cur.pc with
  | .next, .attempt l _ => f l
  | _, _ => false

/-- The step is an orderly one. -/
def Orderly (s : State C L) (a : C × Action L) : Prop := (s.cpu a.1).Orderly a.2

/-- An orderly step, in which no `trylock` fails. -/
def Succeeds (s : State C L) (a : C × Action L) : Prop :=
  Orderly s a ∧ (s.cpu a.1).fails s.f a.2 = false

instance (s : State C L) (a : C × Action L) : Decidable (Orderly s a) :=
  inferInstanceAs (Decidable ((s.cpu a.1).Orderly a.2))

instance (s : State C L) (a : C × Action L) : Decidable (Succeeds s a) :=
  inferInstanceAs (Decidable (_ ∧ _))

/-- The flags that a function has read and not yet handed on. -/
def Pc.saved : Pc L → Option Bool
  | .run => none
  | .cli _ saved _ | .attempt _ saved | .got saved | .drop _ saved | .put saved => some saved
  | .spin _ saved => saved

/-- The code can be interrupted where it is. -/
def Activity.Outside (a : Activity L) : Prop := a.pc = .run ∨ ∃ l wait, a.pc = .cli l true wait

/-- Interrupts are on only where no lock is held, and a handler is not interrupted. -/
structure Cpu.Calm (p : Cpu L) : Prop where
  on : p.irq = true → p.cur.locks = [] ∧ p.cur.irqs = [] ∧ p.interrupted = [] ∧ p.cur.Outside
  cli : ∀ l saved wait, p.cur.pc = .cli l saved wait → saved = p.irq
  saved : p.cur.pc.saved = some true → p.cur.irqs = [] ∧ p.interrupted = []
  inner : ∀ b ∈ p.cur.irqs.dropLast, b = false
  outer : true ∈ p.cur.irqs → p.interrupted = []
  drop : ∀ l, p.cur.pc = .drop l true → p.cur.locks = [l]
  put : p.cur.pc = .put true → p.cur.locks = []
  single : p.interrupted.length ≤ 1
  interrupted : ∀ a ∈ p.interrupted, a.locks = [] ∧ a.irqs = [] ∧ a.Outside

section Calm
variable {f f' : L → Bool} {p p' : Cpu L} {on : C → Bool} {s s' : State C L}

omit [DecidableEq L] in
/-- In the middle of a function interrupts are off. -/
theorem Cpu.Calm.off (h : p.Calm) (hout : ¬p.cur.Outside) : p.irq = false :=
  (Bool.not_eq_true _).mp fun hon => hout (h.on hon).2.2.2

omit [DecidableEq L] in
/-- With a lock held interrupts are off. -/
theorem Cpu.Calm.off_of_mem {l : L} (h : p.Calm) (hl : l ∈ p.cur.locks) : p.irq = false := by
  refine (Bool.not_eq_true _).mp fun hon => ?_
  rw [(h.on hon).1] at hl
  cases hl

omit [DecidableEq L] in
/-- Code that goes on with interrupts off. -/
theorem Cpu.Calm.goOn (h : p.Calm) {q : Cpu L} (hirq : q.irq = false)
    (hirqs : q.cur.irqs = p.cur.irqs) (hint : q.interrupted = p.interrupted)
    (hcli : ∀ l saved wait, q.cur.pc ≠ .cli l saved wait)
    (hsaved : q.cur.pc.saved = some true → p.cur.pc.saved = some true)
    (hdrop : ∀ l, q.cur.pc ≠ .drop l true) (hput : q.cur.pc = .put true → q.cur.locks = []) :
    q.Calm where
  on hon := absurd (hirq.symm.trans hon) Bool.false_ne_true
  cli l saved wait hpc := absurd hpc (hcli l saved wait)
  saved hs := by
    rw [hirqs, hint]
    exact h.saved (hsaved hs)
  inner := hirqs ▸ h.inner
  outer := by
    rw [hirqs, hint]
    exact h.outer
  drop l hpc := absurd hpc (hdrop l)
  put := hput
  single := hint ▸ h.single
  interrupted := hint ▸ h.interrupted

theorem Cpu.Calm.next (h : p.Calm) (hstep : p.next f = some (f', p')) : p'.Calm := by
  unfold Cpu.next at hstep
  cases hpc : p.cur.pc with
  | run =>
    rw [hpc] at hstep
    cases hstep
  | cli l saved wait =>
    rw [hpc] at hstep
    cases hstep
    refine h.goOn rfl rfl rfl (fun l' saved' wait' heq => ?_) (fun hs => ?_) (fun l' heq => ?_)
      fun heq => ?_
    · cases wait <;> cases heq
    · rw [hpc]
      cases wait <;> exact hs
    · cases wait <;> cases heq
    · cases wait <;> cases heq
  | spin l saved =>
    have hoff := h.off (by simp [Activity.Outside, hpc])
    rw [hpc] at hstep
    dsimp only at hstep
    split at hstep
    · cases hstep
      exact h
    · cases hstep
      refine h.goOn hoff rfl rfl (fun l' saved' wait' heq => ?_) (fun hs => ?_) (fun l' heq => ?_)
        fun heq => ?_
      · cases saved <;> cases heq
      · rw [hpc]
        cases saved with
        | none => cases hs
        | some b => exact hs
      · cases saved <;> cases heq
      · cases saved <;> cases heq
  | attempt l saved =>
    have hoff := h.off (by simp [Activity.Outside, hpc])
    rw [hpc] at hstep
    dsimp only at hstep
    split at hstep
    · cases hstep
      exact h.goOn hoff rfl rfl (by simp) (fun hs => by cases hs) (by simp) (by simp)
    · cases hstep
      exact h.goOn hoff rfl rfl (by simp) (fun hs => by rw [hpc]; exact hs) (by simp) (by simp)
  | got saved =>
    have hoff := h.off (by simp [Activity.Outside, hpc])
    have hsaved := h.saved
    rw [hpc] at hstep hsaved
    cases hstep
    refine ⟨fun hon => absurd (hoff.symm.trans hon) Bool.false_ne_true, by simp,
      fun hs => (by cases hs), fun b hb => ?_, fun hmem => ?_,
      by simp, by simp, h.single, h.interrupted⟩
    · -- flags that were on are the only ones
      cases saved with
      | true =>
        dsimp only at hb
        rw [(hsaved rfl).1] at hb
        cases hb
      | false =>
        cases hirqs : p.cur.irqs with
        | nil =>
          dsimp only at hb
          rw [hirqs] at hb
          cases hb
        | cons x l =>
          dsimp only at hb
          rw [List.dropLast_cons_of_ne_nil (by rw [hirqs]; exact List.cons_ne_nil x l)] at hb
          rcases List.mem_cons.mp hb with rfl | hb
          · rfl
          · exact h.inner b hb
    · rcases List.mem_cons.mp hmem with rfl | hmem
      · exact (hsaved rfl).2
      · exact h.outer hmem
  | drop l saved =>
    have hoff := h.off (by simp [Activity.Outside, hpc])
    rw [hpc] at hstep
    cases hstep
    refine h.goOn hoff rfl rfl (by simp) (fun hs => by rw [hpc]; exact hs) (by simp) fun heq => ?_
    cases heq
    change p.cur.locks.erase l = []
    rw [h.drop l hpc, List.erase_cons_head]
  | put saved =>
    have hsaved := h.saved
    have hput := h.put
    rw [hpc] at hstep hsaved hput
    cases hstep
    refine ⟨fun hon => ?_, by simp, fun hs => (by cases hs), h.inner, h.outer, by simp, by simp,
      h.single, h.interrupted⟩
    cases hon
    obtain ⟨hirqs, hint⟩ := hsaved rfl
    exact ⟨hput rfl, hirqs, hint, .inl rfl⟩

/-- **An orderly step.** -/
theorem Cpu.Calm.step {act : Action L} (h : p.Calm) (hok : p.Orderly act)
    (hstep : p.step f act = some (f', p')) : p'.Calm := by
  unfold Cpu.step at hstep
  cases act with
  | lock l | trylock l =>
    dsimp only at hstep
    split at hstep
    · rename_i hrun
      cases hstep
      refine ⟨fun hon => ?_, fun l' saved wait heq => ?_, fun hs => ?_, h.inner, h.outer, by simp,
        by simp, h.single, h.interrupted⟩
      · obtain ⟨hlocks, hirqs, hint, -⟩ := h.on hon
        exact ⟨hlocks, hirqs, hint, .inr ⟨l, _, congrArg (Pc.cli l · _) hon⟩⟩
      · cases heq
        rfl
      · obtain ⟨-, hirqs, hint, -⟩ := h.on (Option.some.inj hs)
        exact ⟨hirqs, hint⟩
    · cases hstep
  | lockNoirq l =>
    dsimp only at hstep
    split at hstep
    · cases hstep
      exact h.goOn hok rfl rfl (by simp) (fun hs => by cases hs) (by simp) (by simp)
    · cases hstep
  | unlockNoirq l =>
    dsimp only at hstep
    split at hstep
    · rename_i hrun
      cases hstep
      refine h.goOn (h.off_of_mem hrun.2) rfl rfl ?_ (fun hs => hs) ?_ ?_
      all_goals
        dsimp only
        rw [hrun.1]
        simp
    · cases hstep
  | unlock l k =>
    obtain ⟨rfl, hlast⟩ := hok
    dsimp only at hstep
    split at hstep
    · rename_i hrun
      obtain ⟨saved, hk, heq⟩ := Option.map_eq_some_iff.mp hstep
      cases heq
      have hoff := h.off_of_mem hrun.2
      cases hirqs : p.cur.irqs with
      | nil =>
        rw [hirqs] at hk
        cases hk
      | cons x rest =>
        have hinner := h.inner
        have houter := h.outer
        rw [hirqs] at hk hinner houter hlast
        obtain rfl : x = saved := Option.some.inj hk
        -- the flags that turn interrupts on are the last
        have hrest : x = true → rest = [] := by
          rintro rfl
          by_contra hne
          rw [List.dropLast_cons_of_ne_nil hne] at hinner
          exact absurd (hinner true List.mem_cons_self) (by decide)
        refine ⟨fun hon => absurd (hoff.symm.trans hon) Bool.false_ne_true, by simp, fun hs => ?_,
          fun b hb => ?_, fun hmem => ?_, fun l' heq => ?_, by simp, h.single, h.interrupted⟩
        · obtain rfl : x = true := Option.some.inj hs
          exact ⟨hrest rfl, houter List.mem_cons_self⟩
        · change b ∈ rest.dropLast at hb
          cases rest with
          | nil => cases hb
          | cons y rest =>
            rw [List.dropLast_cons_of_ne_nil (List.cons_ne_nil y rest)] at hinner
            exact hinner b (List.mem_cons_of_mem _ hb)
        · exact houter (List.mem_cons_of_mem _ hmem)
        · cases heq
          exact hlast (by rw [hrest rfl])
    · cases hstep
  | next => exact h.next hstep
  | interrupt =>
    dsimp only at hstep
    split at hstep
    · rename_i hon
      cases hstep
      obtain ⟨hlocks, hirqs, hint, hout⟩ := h.on hon
      refine ⟨by simp, by simp [Activity.start], by simp [Activity.start, Pc.saved],
        by simp [Activity.start], by simp [Activity.start],
        by simp [Activity.start], by simp [Activity.start], by simp [hint], fun a ha => ?_⟩
      dsimp only at ha
      rw [hint] at ha
      obtain rfl := List.mem_singleton.mp ha
      exact ⟨hlocks, hirqs, hout⟩
    · cases hstep
  | iret =>
    dsimp only at hstep
    cases hint : p.interrupted with
    | nil =>
      rw [hint] at hstep
      cases hstep
    | cons a rest =>
      have hsingle := h.single
      rw [hint] at hstep hsingle
      obtain rfl : rest = [] :=
        List.eq_nil_of_length_eq_zero (by rw [List.length_cons] at hsingle; omega)
      dsimp only at hstep
      split at hstep
      · cases hstep
        obtain ⟨hlocks, hirqs, hout⟩ := h.interrupted a (hint ▸ List.mem_singleton_self a)
        refine ⟨fun _ => ⟨hlocks, hirqs, rfl, hout⟩, fun l saved wait heq => ?_,
          fun _ => ⟨hirqs, rfl⟩, by simp [hirqs], fun _ => rfl,
          fun l heq => ?_, fun _ => hlocks, Nat.zero_le 1, by simp⟩
        · rcases hout with hpc | ⟨l', wait', hpc⟩
          · rw [hpc] at heq
            cases heq
          · rw [hpc] at heq
            cases heq
            rfl
        · rcases hout with hpc | ⟨l', wait', hpc⟩ <;> rw [hpc] at heq <;> cases heq
      · cases hstep

theorem calm_init (h : (machine on : Machine (State C L) _).init s) (c : C) : (s.cpu c).Calm := by
  rw [h.2]
  exact ⟨fun _ => ⟨rfl, rfl, rfl, .inl rfl⟩, by simp [Activity.start],
    by simp [Activity.start, Pc.saved], by simp [Activity.start],
    by simp [Activity.start], by simp [Activity.start], by simp [Activity.start], by simp, by simp⟩

theorem calm_step {a : C × Action L} (h : ∀ c, (s.cpu c).Calm) (hok : Orderly s a)
    (hstep : (machine on).step s a = some s') : ∀ c, (s'.cpu c).Calm := by
  obtain ⟨c, act⟩ := a
  obtain ⟨⟨f', p'⟩, hcpu, rfl⟩ := Option.map_eq_some_iff.mp hstep
  intro d
  by_cases hd : d = c
  · subst hd
    dsimp only
    rw [Function.update_self]
    exact (h d).step hok hcpu
  · dsimp only
    rw [Function.update_of_ne hd]
    exact h d

/-- **Interrupts are off while a lock is held.**  In every run of orderly steps, a processor that
holds a lock has interrupts off, a handler is not interrupted, the code that it has interrupted
holds no lock and no flags, and a lock that is held is held by code that is running. -/
theorem orderly_interrupts (h : (machine on).ReachWhen Orderly s) :
    (∀ c, (s.cpu c).irq = true → (s.cpu c).owned = []) ∧
      (∀ c, (s.cpu c).interrupted.length ≤ 1 ∧ ∀ a ∈ (s.cpu c).interrupted, a.locks = [] ∧
        a.irqs = []) ∧
      ∀ l, s.f l = true → ∃ c, l ∈ (s.cpu c).cur.locks := by
  have hcalm : ∀ c, (s.cpu c).Calm :=
    h.invariant (fun s => ∀ c, (s.cpu c).Calm) (fun _ => calm_init) fun _ _ _ => calm_step
  have hex : Exclusive s := h.invariant Exclusive (fun _ => .init) fun _ _ _ hs _ => hs.step
  -- what has been interrupted holds nothing
  have howned : ∀ c, (s.cpu c).owned = (s.cpu c).cur.locks := by
    intro c
    have hnone : (s.cpu c).interrupted.flatMap Activity.locks = [] :=
      List.flatMap_eq_nil_iff.mpr fun a ha => ((hcalm c).interrupted a ha).1
    unfold Cpu.owned
    rw [hnone, List.append_nil]
  refine ⟨fun c hon => ?_, fun c => ⟨(hcalm c).single, fun a ha => ?_⟩, fun l hl => ?_⟩
  · rw [howned]
    exact ((hcalm c).on hon).1
  · obtain ⟨hlocks, hirqs, -⟩ := (hcalm c).interrupted a ha
    exact ⟨hlocks, hirqs⟩
  · obtain ⟨c, hc⟩ := (hex.flag l).mp hl
    exact ⟨c, howned c ▸ hc⟩

end Calm

/-! ## What interrupts come back to -/

/-- What the interrupts of a processor will be when it has restored all flags. -/
def Cpu.base (p : Cpu L) : Bool :=
  if p.interrupted = [] then (p.cur.irqs.getLast?.or p.cur.pc.saved).getD p.irq else true

section Base
variable {f f' : L → Bool} {p p' : Cpu L} {on : C → Bool} {s s' : State C L}

theorem Cpu.next_base (hok : p.fails f .next = false) (hstep : p.next f = some (f', p')) :
    p'.base = p.base := by
  unfold Cpu.next at hstep
  unfold Cpu.base
  cases hpc : p.cur.pc with
  | run =>
    rw [hpc] at hstep
    cases hstep
  | cli l saved wait =>
    rw [hpc] at hstep
    cases hstep
    cases wait <;> cases p.cur.irqs.getLast? <;> rfl
  | spin l saved =>
    rw [hpc] at hstep
    dsimp only at hstep
    split at hstep
    · cases hstep
      rw [hpc]
    · cases hstep
      cases saved <;> rfl
  | attempt l saved =>
    rw [hpc] at hstep
    dsimp only at hstep
    have hfree : f l = false := by
      unfold Cpu.fails at hok
      rwa [hpc] at hok
    rw [hfree, if_neg Bool.false_ne_true] at hstep
    cases hstep
    rfl
  | got saved =>
    rw [hpc] at hstep
    cases hstep
    cases hirqs : p.cur.irqs with
    | nil => rfl
    | cons x rest =>
      dsimp only
      rw [List.getLast?_cons_cons, List.getLast?_cons]
      rfl
  | drop l saved =>
    rw [hpc] at hstep
    cases hstep
    rfl
  | put saved =>
    rw [hpc] at hstep
    cases hstep
    dsimp only
    cases p.cur.irqs.getLast? <;> rfl

theorem Cpu.step_base {act : Action L} (h : p.Calm) (hok : p.Orderly act)
    (hsucceeds : p.fails f act = false) (hstep : p.step f act = some (f', p')) :
    p'.base = p.base := by
  unfold Cpu.step at hstep
  cases act with
  | lock l | trylock l | lockNoirq l =>
    dsimp only at hstep
    split at hstep
    · rename_i hrun
      cases hstep
      unfold Cpu.base
      dsimp only
      rw [hrun]
      cases p.cur.irqs.getLast? <;> rfl
    · cases hstep
  | unlockNoirq l =>
    dsimp only at hstep
    split at hstep
    · cases hstep
      rfl
    · cases hstep
  | unlock l k =>
    obtain ⟨rfl, -⟩ := hok
    dsimp only at hstep
    split at hstep
    · obtain ⟨saved, hk, heq⟩ := Option.map_eq_some_iff.mp hstep
      cases heq
      unfold Cpu.base
      cases hirqs : p.cur.irqs with
      | nil =>
        rw [hirqs] at hk
        cases hk
      | cons x rest =>
        rw [hirqs] at hk
        obtain rfl : x = saved := Option.some.inj hk
        cases rest with
        | nil => rfl
        | cons y rest =>
          dsimp only
          rw [List.eraseIdx_cons_zero, List.getLast?_cons_cons, List.getLast?_cons]
          rfl
    · cases hstep
  | next => exact Cpu.next_base hsucceeds hstep
  | interrupt =>
    dsimp only at hstep
    split at hstep
    · rename_i hon
      cases hstep
      obtain ⟨-, hirqs, hint, hout⟩ := h.on hon
      unfold Cpu.base
      rw [if_neg (List.cons_ne_nil _ _), if_pos hint, hirqs]
      rcases hout with hpc | ⟨l, wait, hpc⟩
      · rw [hpc, hon]
        rfl
      · rw [hpc]
        rfl
    · cases hstep
  | iret =>
    dsimp only at hstep
    cases hint : p.interrupted with
    | nil =>
      rw [hint] at hstep
      cases hstep
    | cons a rest =>
      have hsingle := h.single
      rw [hint] at hstep hsingle
      obtain rfl : rest = [] :=
        List.eq_nil_of_length_eq_zero (by rw [List.length_cons] at hsingle; omega)
      dsimp only at hstep
      split at hstep
      · cases hstep
        obtain ⟨-, hirqs, hout⟩ := h.interrupted a (hint ▸ List.mem_singleton_self a)
        unfold Cpu.base
        rw [if_pos rfl, hirqs, hint, if_neg (List.cons_ne_nil _ _)]
        rcases hout with hpc | ⟨l, wait, hpc⟩ <;> rw [hpc] <;> rfl
      · cases hstep

/-- **Interrupts are restored.**  In every run of orderly steps in which no `trylock` fails, a
processor that has no flags saved and is in no function has the interrupts that it began with. -/
theorem interrupts_restored (h : (machine on).ReachWhen Succeeds s) {c : C}
    (hint : (s.cpu c).interrupted = []) (hrun : (s.cpu c).cur.pc = .run)
    (hirqs : (s.cpu c).cur.irqs = []) : (s.cpu c).irq = on c := by
  have hbase : (∀ c, (s.cpu c).Calm) ∧ ∀ c, (s.cpu c).base = on c := by
    refine h.invariant (fun s => (∀ c, (s.cpu c).Calm) ∧ ∀ c, (s.cpu c).base = on c)
      (fun s hs => ⟨calm_init hs, fun c => ?_⟩) ?_
    · rw [hs.2]
      rfl
    · rintro s ⟨c, act⟩ s' ⟨hcalm, hbase⟩ ⟨hok, hsucceeds⟩ hstep
      refine ⟨calm_step hcalm hok hstep, fun d => ?_⟩
      obtain ⟨⟨f', p'⟩, hcpu, rfl⟩ := Option.map_eq_some_iff.mp hstep
      dsimp only
      by_cases hd : d = c
      · subst hd
        rw [Function.update_self, Cpu.step_base (hcalm d) hok hsucceeds hcpu]
        exact hbase d
      · rw [Function.update_of_ne hd]
        exact hbase d
  have hc := hbase.2 c
  unfold Cpu.base at hc
  rw [if_pos hint, hrun, hirqs] at hc
  exact hc

end Base

/-! ## Two processors -/

/-- Two processors, with interrupts on. -/
def atRest : State Bool Bool := ⟨fun _ => false, fun _ => ⟨true, 0, .start, []⟩⟩

theorem atRest_init : (machine (fun _ : Bool => true)).init atRest := ⟨rfl, rfl⟩

/-- One processor holds a lock, for which the other waits. -/
def waiting : List (Bool × Action Bool) :=
  [(false, .lock true), (false, .next), (false, .next), (true, .lock true), (false, .next),
    (true, .interrupt), (true, .iret), (true, .next), (true, .next)]

theorem mutual_exclusion_waiting : ∃ s, (machine (fun _ : Bool => true)).run atRest waiting =
    some s ∧ (s.cpu true).cur.pc = .spin true (some true) ∧
    s.f true = true ∧ (s.cpu false).depth = (s.cpu false).saves := by
  have heval : ((machine (fun _ : Bool => true)).run atRest waiting).map
      (fun s => ((s.cpu true).cur.pc, s.f true)) = some (.spin true (some true), true) := by decide
  obtain ⟨s, hrun, heq⟩ := Option.map_eq_some_iff.mp heval
  obtain ⟨hpc, hf⟩ := Prod.mk.inj heq
  obtain ⟨-, -, -, hdepth⟩ := mutual_exclusion ((Machine.Reach.init atRest_init).run hrun)
  exact ⟨s, hrun, hpc, hf, hdepth false⟩

theorem orderly_interrupts_waiting :
    ∃ s, (machine (fun _ : Bool => true)).runWhen Orderly atRest waiting = some s ∧
    ∃ c, true ∈ (s.cpu c).cur.locks := by
  have heval : ((machine (fun _ : Bool => true)).runWhen Orderly atRest waiting).map
      (fun s => s.f true) = some true := by decide
  obtain ⟨s, hrun, hf⟩ := Option.map_eq_some_iff.mp heval
  obtain ⟨-, -, hheld⟩ := orderly_interrupts (Machine.ReachWhen.runWhen (.init atRest_init) hrun)
  exact ⟨s, hrun, hheld true hf⟩

/-- A lock is taken and released, with another one inside. -/
def nested : List (Bool × Action Bool) :=
  [(true, .lock true), (true, .next), (true, .next), (true, .next), (true, .lockNoirq false),
    (true, .next), (true, .unlockNoirq true), (true, .unlock false 0), (true, .next), (true, .next)]

theorem interrupts_restored_nested :
    ∃ s, (machine (fun _ : Bool => true)).runWhen Succeeds atRest nested = some s ∧
      (s.cpu true).irq = true := by
  have heval : ((machine (fun _ : Bool => true)).runWhen Succeeds atRest nested).map
      (fun s => ((s.cpu true).interrupted, (s.cpu true).cur)) = some ([], .start) := by decide
  obtain ⟨s, hrun, heq⟩ := Option.map_eq_some_iff.mp heval
  obtain ⟨hint, hcur⟩ := Prod.mk.inj heq
  exact ⟨s, hrun, interrupts_restored (Machine.ReachWhen.runWhen (.init atRest_init) hrun) hint
    (by rw [hcur]; rfl) (by rw [hcur]; rfl)⟩

end PugOS.Spinlock
