import PugOS.BlockProg

/-! # Running programs on a cache

An interpretation says what the calls of a program do to a cache of blocks.  Taking a
reference is up to the environment as well, so each `load` consumes one of the choices the
program is run with, and may be refused.  A failed assertion has no result.

`Triple P p Q` is partial correctness: from a state with `P`, every run of `p` that has a
result ends in a state with `Q`.  There is a rule for each call and one for sequences; what
every call keeps is kept by every program (`exec_invariant`).
-/
namespace BlockProg
open Bytes Ring

/-- What the calls do. -/
structure Interp (σ C : Type) where
  load : σ → Nat → C → Option (Bool × σ)
  put : σ → Nat → Option σ
  sully : σ → Nat → Option σ
  mem : σ → Mem
  setMem : σ → Mem → σ

variable {α β σ C : Type} {I : Interp σ C}

/-- The result, the state and the choices that are left. -/
def exec (I : Interp σ C) : Prog α → σ → List C → Option (α × σ × List C)
  | .pure a, s, cs => some (a, s, cs)
  | .fail, _, _ => none
  | .load _ _, _, [] => none
  | .load bn k, s, c :: cs => (I.load s bn c).bind fun r => exec I (k r.1) r.2 cs
  | .put bn k, s, cs => (I.put s bn).bind fun s => exec I k s cs
  | .sully bn k, s, cs => (I.sully s bn).bind fun s => exec I k s cs
  | .peek a n k, s, cs => exec I (k (getLE (I.mem s) a n)) s cs
  | .store a bytes k, s, cs => exec I k (I.setMem s (store (I.mem s) a bytes)) cs

theorem exec_bind (p : Prog α) (f : α → Prog β) (s : σ) (cs : List C) :
    exec I (p >>= f) s cs = (exec I p s cs).bind fun r => exec I (f r.1) r.2.1 r.2.2 := by
  change exec I (p.bind f) s cs = _
  induction p generalizing s cs with
  | pure a => rfl
  | fail => rfl
  | load bn k ih =>
    cases cs with
    | nil => rfl
    | cons c cs =>
      show ((I.load s bn c).bind fun r => exec I ((k r.1).bind f) r.2 cs) =
        ((I.load s bn c).bind fun r => exec I (k r.1) r.2 cs).bind _
      rw [Option.bind_assoc]
      congr 1
      funext r
      exact ih r.1 r.2 cs
  | put bn k ih =>
    show ((I.put s bn).bind fun s => exec I (k.bind f) s cs) =
      ((I.put s bn).bind fun s => exec I k s cs).bind _
    rw [Option.bind_assoc]
    congr 1
    funext s
    exact ih s cs
  | sully bn k ih =>
    show ((I.sully s bn).bind fun s => exec I (k.bind f) s cs) =
      ((I.sully s bn).bind fun s => exec I k s cs).bind _
    rw [Option.bind_assoc]
    congr 1
    funext s
    exact ih s cs
  | peek a n k ih => exact ih _ s cs
  | store a bytes k ih => exact ih _ cs

/-- What holds before every call, and is kept by each, is kept by every program. -/
theorem exec_invariant (Inv : σ → Prop)
    (hload : ∀ s bn c r, Inv s → I.load s bn c = some r → Inv r.2)
    (hput : ∀ s bn s', Inv s → I.put s bn = some s' → Inv s')
    (hsully : ∀ s bn s', Inv s → I.sully s bn = some s' → Inv s')
    (hmem : ∀ s m, Inv s → Inv (I.setMem s m)) (p : Prog α) : ∀ {s : σ} {cs : List C} {r}, Inv s →
    exec I p s cs = some r → Inv r.2.1 := by
  induction p with
  | pure a =>
    intro s cs r hs h
    rw [← Option.some.inj h]
    exact hs
  | fail => exact fun _ h => nomatch h
  | load bn k ih =>
    intro s cs r hs h
    cases cs with
    | nil => cases h
    | cons c cs =>
      obtain ⟨r', hr', h⟩ := Option.bind_eq_some_iff.mp h
      exact ih r'.1 (hload s bn c r' hs hr') h
  | put bn k ih =>
    intro s cs r hs h
    obtain ⟨s', hs', h⟩ := Option.bind_eq_some_iff.mp h
    exact ih (hput s bn s' hs hs') h
  | sully bn k ih =>
    intro s cs r hs h
    obtain ⟨s', hs', h⟩ := Option.bind_eq_some_iff.mp h
    exact ih (hsully s bn s' hs hs') h
  | peek a n k ih => exact fun hs h => ih _ hs h
  | store a bytes k ih => exact fun hs h => ih (hmem _ _ hs) h

/-! ## What a program can return -/

/-- The results a program has for some answers to its calls, whatever the blocks hold and whoever
changes them. -/
def Prog.Can : Prog α → α → Prop
  | .pure a, b => b = a
  | .fail, _ => False
  | .load _ k, b => ∃ c, (k c).Can b
  | .put _ k, b => k.Can b
  | .sully _ k, b => k.Can b
  | .peek _ _ k, b => ∃ v, (k v).Can b
  | .store _ _ k, b => k.Can b

theorem Prog.can_bind {p : Prog α} {f : α → Prog β} {b : β} : (p >>= f).Can b ↔ ∃ a, p.Can a ∧
    (f a).Can b := by
  change (p.bind f).Can b ↔ _
  induction p with
  | pure a =>
    constructor
    · exact fun h => ⟨a, rfl, h⟩
    · rintro ⟨a', rfl, h⟩
      exact h
  | fail => exact ⟨fun h => h.elim, fun h => h.elim fun _ h => h.1.elim⟩
  | load bn k ih =>
    constructor
    · rintro ⟨c, h⟩
      obtain ⟨a, ha, hb⟩ := (ih c).mp h
      exact ⟨a, ⟨c, ha⟩, hb⟩
    · rintro ⟨a, ⟨c, ha⟩, hb⟩
      exact ⟨c, (ih c).mpr ⟨a, ha, hb⟩⟩
  | put bn k ih => exact ih
  | sully bn k ih => exact ih
  | peek a n k ih =>
    constructor
    · rintro ⟨v, h⟩
      obtain ⟨a, ha, hb⟩ := (ih v).mp h
      exact ⟨a, ⟨v, ha⟩, hb⟩
    · rintro ⟨a, ⟨v, ha⟩, hb⟩
      exact ⟨v, (ih v).mpr ⟨a, ha, hb⟩⟩
  | store a bytes k ih => exact ih

/-! ## Pre- and postconditions -/

/-- From a state with `P` and with choices that all meet `ok`, every result of `p` has `Q`. -/
def Triple (I : Interp σ C) (ok : C → Prop) (P : σ → Prop) (p : Prog α) (Q : α → σ → Prop) : Prop :=
  ∀ s cs r, P s → (∀ c ∈ cs, ok c) → exec I p s cs = some r → Q r.1 r.2.1 ∧ ∀ c ∈ r.2.2, ok c

namespace Triple
variable {ok : C → Prop} {P P' : σ → Prop} {Q Q' : α → σ → Prop} {R : β → σ → Prop}

theorem result {p : Prog α} (h : Triple I ok P p Q) {s : σ} {cs : List C} {r : α × σ × List C}
    (hs : P s) (hcs : ∀ c ∈ cs, ok c) (hr : exec I p s cs = some r) :
    Q r.1 r.2.1 := (h s cs r hs hcs hr).1

theorem mono {p : Prog α} (h : Triple I ok P p Q) (hP : ∀ s, P' s → P s)
    (hQ : ∀ a s, Q a s → Q' a s) :
    Triple I ok P' p Q' := by
  intro s cs r hs hcs hr
  obtain ⟨hq, hok⟩ := h s cs r (hP s hs) hcs hr
  exact ⟨hQ _ _ hq, hok⟩

theorem post {p : Prog α} (h : Triple I ok P p Q) (hQ : ∀ a s, Q a s → Q' a s) :
    Triple I ok P p Q' :=
  h.mono (fun _ hs => hs) hQ

theorem pure {a : α} (h : ∀ s, P s → Q a s) : Triple I ok P (pure a) Q := by
  intro s cs r hs hcs hr
  obtain rfl := Option.some.inj hr
  exact ⟨h s hs, hcs⟩

theorem fail : Triple I ok P (Prog.fail : Prog α) Q := fun _ _ _ _ _ hr => nomatch hr

theorem bind {p : Prog α} {f : α → Prog β} (hp : Triple I ok P p Q)
    (hf : ∀ a, Triple I ok (Q a) (f a) R) : Triple I ok P (p >>= f) R := by
  intro s cs r hs hcs hr
  rw [exec_bind] at hr
  obtain ⟨r', hr', hr⟩ := Option.bind_eq_some_iff.mp hr
  obtain ⟨hq, hok⟩ := hp s cs r' hs hcs hr'
  exact hf r'.1 _ _ r hq hok hr

theorem ite {c : Prop} [Decidable c] {p q : Prog α} (hp : c → Triple I ok P p Q)
    (hq : ¬c → Triple I ok P q Q) : Triple I ok P (if c then p else q) Q := by
  split
  · rename_i hc
    exact hp hc
  · rename_i hc
    exact hq hc

theorem assert {c : Bool} {Q : Unit → σ → Prop} (h : ∀ s, P s → c = true → Q () s) :
    Triple I ok P (assert c) Q := by
  unfold BlockProg.assert
  refine ite (fun hc => ?_) fun _ => fail
  exact pure fun s hs => h s hs hc

theorem getEntry {bn : Nat} {Q : Option Nat → σ → Prop}
    (h : ∀ s c b s', P s → ok c → I.load s bn c = some (b, s') →
      Q (if b then some bn else none) s') :
    Triple I ok P (getEntry bn) Q := by
  intro s cs r hs hcs hr
  cases cs with
  | nil => cases hr
  | cons c cs =>
    obtain ⟨⟨b, s'⟩, hr', hr⟩ := Option.bind_eq_some_iff.mp hr
    obtain rfl := Option.some.inj hr
    obtain ⟨hc, hcs⟩ := List.forall_mem_cons.mp hcs
    exact ⟨h s c b s' hs hc hr', hcs⟩

theorem putEntry {bn : Nat} {Q : Unit → σ → Prop}
    (h : ∀ s s', P s → I.put s bn = some s' → Q () s') : Triple I ok P (putEntry bn) Q := by
  intro s cs r hs hcs hr
  obtain ⟨s', hs', hr⟩ := Option.bind_eq_some_iff.mp hr
  obtain rfl := Option.some.inj hr
  exact ⟨h s s' hs hs', hcs⟩

theorem sully {bn : Nat} {Q : Unit → σ → Prop}
    (h : ∀ s s', P s → I.sully s bn = some s' → Q () s') : Triple I ok P (sully bn) Q := by
  intro s cs r hs hcs hr
  obtain ⟨s', hs', hr⟩ := Option.bind_eq_some_iff.mp hr
  obtain rfl := Option.some.inj hr
  exact ⟨h s s' hs hs', hcs⟩

theorem peek {a n : Nat} {Q : Nat → σ → Prop} (h : ∀ s, P s → Q (getLE (I.mem s) a n) s) :
    Triple I ok P (peek a n) Q := by
  intro s cs r hs hcs hr
  obtain rfl := Option.some.inj hr
  exact ⟨h s hs, hcs⟩

theorem storeBytes {a : Nat} {bytes : List UInt8} {Q : Unit → σ → Prop}
    (h : ∀ s, P s → Q () (I.setMem s (store (I.mem s) a bytes))) :
    Triple I ok P (storeBytes a bytes) Q := by
  intro s cs r hs hcs hr
  obtain rfl := Option.some.inj hr
  exact ⟨h s hs, hcs⟩

end Triple
end BlockProg
