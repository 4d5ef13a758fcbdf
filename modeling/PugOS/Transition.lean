import Mathlib.Data.List.Basic

/-! # Runs of a machine with labelled steps

A machine has initial states and a step function; the label of a step resolves
every choice its environment makes, and a step that is not enabled gives
`none`.  A run may be restricted to steps that meet a condition in the state
they are taken from (`ReachWhen`); `Reach` is the unrestricted case.  A safety
property is an invariant: it holds initially and every enabled step keeps it.
-/
namespace Transition

/-- A machine given by its initial states and its enabled steps. -/
structure Machine (State Label : Type) where
  init : State → Prop
  step : State → Label → Option State

namespace Machine
variable {State Label : Type} (M : Machine State Label)

/-- The states reached by runs every step of which meets `ok` in the state it is
taken from. -/
inductive ReachWhen (ok : State → Label → Prop) : State → Prop
  | init {s : State} (h : M.init s) : ReachWhen ok s
  | step {s s' : State} {a : Label} (hs : ReachWhen ok s) (ha : ok s a)
      (h : M.step s a = some s') : ReachWhen ok s'

/-- The states reached by any run. -/
def Reach : State → Prop := M.ReachWhen (fun _ _ => True)

variable {M}

/-- **The invariant rule.**  What holds initially and is kept by every step that
meets the condition holds in every state such a run reaches. -/
theorem ReachWhen.invariant {ok : State → Label → Prop} (Inv : State → Prop)
    (hinit : ∀ s, M.init s → Inv s)
    (hstep : ∀ s a s', Inv s → ok s a → M.step s a = some s' → Inv s')
    {s : State} (h : M.ReachWhen ok s) : Inv s := by
  induction h with
  | init h => exact hinit _ h
  | step _ ha h ih => exact hstep _ _ _ ih ha h

/-- The invariant rule for unrestricted runs. -/
theorem Reach.invariant (Inv : State → Prop) (hinit : ∀ s, M.init s → Inv s)
    (hstep : ∀ s a s', Inv s → M.step s a = some s' → Inv s')
    {s : State} (h : M.Reach s) : Inv s :=
  ReachWhen.invariant Inv hinit (fun s a s' hs _ => hstep s a s' hs) h

theorem Reach.init {s : State} (h : M.init s) : M.Reach s := ReachWhen.init h

theorem Reach.step {s s' : State} {a : Label} (hs : M.Reach s)
    (h : M.step s a = some s') : M.Reach s' := ReachWhen.step hs trivial h

variable (M)

/-- Execute the labels in order. -/
def run (s : State) : List Label → Option State
  | [] => some s
  | a :: l => (M.step s a).bind (fun s' => run s' l)

variable {M}

/-- An execution of labels that meet the condition in every state. -/
theorem ReachWhen.run {ok : State → Label → Prop} {l : List Label} (hok : ∀ a ∈ l, ∀ s, ok s a) :
    ∀ {s s' : State}, M.ReachWhen ok s → M.run s l = some s' → M.ReachWhen ok s' := by
  induction l with
  | nil =>
    intro s s' hs h
    exact Option.some.inj h ▸ hs
  | cons a l ih =>
    intro s s' hs h
    obtain ⟨ha, hl⟩ := List.forall_mem_cons.mp hok
    obtain ⟨t, ht, h⟩ := Option.bind_eq_some_iff.mp h
    exact ih hl (hs.step (ha s) ht) h

/-- An execution from a reachable state ends in a reachable state. -/
theorem Reach.run {l : List Label} {s s' : State} (hs : M.Reach s) (h : M.run s l = some s') :
    M.Reach s' :=
  ReachWhen.run (fun _ _ _ => trivial) hs h

variable (M)

/-- Execute the labels in order as long as every step meets `ok`. -/
def runWhen (ok : State → Label → Prop) [∀ s a, Decidable (ok s a)] (s : State) :
    List Label → Option State
  | [] => some s
  | a :: l => if ok s a then (M.step s a).bind (fun s' => runWhen ok s' l) else none

variable {M}

/-- An execution whose steps all meet the condition stays within `ReachWhen`. -/
theorem ReachWhen.runWhen {ok : State → Label → Prop} [∀ s a, Decidable (ok s a)]
    {l : List Label} : ∀ {s s' : State}, M.ReachWhen ok s →
    M.runWhen ok s l = some s' → M.ReachWhen ok s' := by
  induction l with
  | nil =>
    intro s s' hs h
    exact Option.some.inj h ▸ hs
  | cons a l ih =>
    intro s s' hs h
    unfold Machine.runWhen at h
    split at h
    · rename_i ha
      obtain ⟨t, ht, h⟩ := Option.bind_eq_some_iff.mp h
      exact ih (hs.step ha ht) h
    · cases h

/-- An execution under a condition is an execution. -/
theorem run_of_runWhen {ok : State → Label → Prop} [∀ s a, Decidable (ok s a)] {l : List Label} :
    ∀ {s s' : State}, M.runWhen ok s l = some s' → M.run s l = some s' := by
  induction l with
  | nil => exact fun h => h
  | cons a l ih =>
    intro s s' h
    unfold Machine.runWhen at h
    split at h
    · obtain ⟨t, ht, h⟩ := Option.bind_eq_some_iff.mp h
      exact Option.bind_eq_some_iff.mpr ⟨t, ht, ih h⟩
    · cases h

end Machine
end Transition
