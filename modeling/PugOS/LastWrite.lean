import Mathlib.Data.List.Basic

/-! # The last write to each key

A log is a list of entries, each with a key; only `live` entries count.  The last
live entry of each key can be found by one pass from the end that marks, for every
live entry not marked itself, all earlier entries of its key (`Settled.step`).
What is left unmarked among the live entries is `lastOnly`, which has exactly the
last live entry of each key (`lastOnly_filter_key`).
-/
namespace LastWrite
variable {α β : Type} (key : α → β) (live : α → Bool)

section Last
variable [DecidableEq β]

/-- The live entries no later live entry has the key of. -/
def lastOnly : List α → List α
  | [] => []
  | x :: l =>
    if live x && !l.any (fun e => live e && key e = key x) then x :: lastOnly l else lastOnly l

/-- The last entry that meets `p`. -/
def last? (p : α → Bool) (l : List α) : Option α := l.reverse.find? p

theorem last?_cons (p : α → Bool) (x : α) (l : List α) :
    last? p (x :: l) = (last? p l).or (if p x then some x else none) := by
  unfold last?
  rw [List.reverse_cons, List.find?_append]
  cases h : p x <;> simp [h]

theorem last?_isSome (p : α → Bool) (l : List α) : (last? p l).isSome = l.any p := by
  unfold last?
  rw [Bool.eq_iff_iff, List.find?_isSome, List.any_eq_true]
  simp only [List.mem_reverse]

theorem mem_of_last? {p : α → Bool} {l : List α} {x : α} (h : last? p l = some x) : x ∈ l :=
  List.mem_reverse.mp (List.mem_of_find?_eq_some h)

theorem last?_congr {p q : α → Bool} {l : List α} (h : ∀ x ∈ l, p x = q x) :
    last? p l = last? q l := by
  induction l with
  | nil => rfl
  | cons x l ih =>
    rw [last?_cons, last?_cons, ih fun y hy => h y (List.mem_cons_of_mem x hy),
      h x List.mem_cons_self]

theorem lastOnly_subset (l : List α) : lastOnly key live l ⊆ l := by
  induction l with
  | nil => exact List.Subset.refl []
  | cons x l ih =>
    unfold lastOnly
    split
    · exact List.cons_subset_cons x ih
    · exact List.subset_cons_of_subset x ih

/-- **Each key is left with its last live entry.** -/
theorem lastOnly_filter_key (k : β) (l : List α) :
    (lastOnly key live l).filter (fun e => key e = k) =
      (last? (fun e => live e && key e = k) l).toList := by
  induction l with
  | nil => rfl
  | cons x l ih =>
    rw [last?_cons, lastOnly]
    by_cases hk : key x = k
    · subst hk
      have hany := last?_isSome (fun e => live e && decide (key e = key x)) l
      cases hl : last? (fun e => live e && decide (key e = key x)) l with
      | none =>
        rw [hl] at ih hany
        cases live x <;> simp [← hany, ih]
      | some e =>
        rw [hl] at ih hany
        simp [← hany, ih]
    · have hdec : decide (key x = k) = false := decide_eq_false hk
      rw [hdec, Bool.and_false, if_neg Bool.false_ne_true, Option.or_none, ← ih]
      split
      · rw [List.filter_cons_of_neg (by simpa using hk)]
      · rfl

end Last

/-! ## Marking from the end -/

variable {key live}

/-- The pass has gone through `done`, and `pre` is before it: an entry is marked when
a live entry behind it, among those gone through, has its key. -/
structure Settled (key : α → β) (live : α → Bool) (pre done : List α) (marked : α → Bool) :
    Prop where
  before : ∀ x ∈ pre, marked x = true ↔ ∃ e ∈ done, live e ∧ key e = key x
  after : ∀ l₁ x l₂, done = l₁ ++ x :: l₂ →
    (marked x = true ↔ ∃ e ∈ l₂, live e ∧ key e = key x)

variable {pre done l : List α} {marked marked' : α → Bool} {e : α}

theorem Settled.start (h : ∀ x ∈ l, marked x = false) : Settled key live l [] marked := by
  refine ⟨fun x hx => ?_, fun l₁ x l₂ h => ?_⟩
  · simp [h x hx]
  · simp at h

/-- **One entry of the pass.**  A live entry that is not marked marks the earlier
entries of its key; one that is marked has nothing left to do, since what marked it
marked them too. -/
theorem Settled.step (h : Settled key live (pre ++ [e]) done marked)
    (hnodup : (pre ++ e :: done).Nodup)
    (hmark : ∀ x, marked' x = true ↔
      marked x = true ∨ (live e = true ∧ marked e = false ∧ x ∈ pre ∧ key x = key e)) :
    Settled key live pre (e :: done) marked' := by
  obtain ⟨-, hdone, hdisj⟩ := List.nodup_append.mp hnodup
  have hme := h.before e (by simp)
  refine ⟨?_, ?_⟩
  · intro x hx
    rw [hmark, h.before x (by simp [hx])]
    constructor
    · rintro (⟨e', he', hl, hk⟩ | ⟨hl, -, -, hk⟩)
      · exact ⟨e', List.mem_cons_of_mem _ he', hl, hk⟩
      · exact ⟨e, List.mem_cons_self, hl, hk.symm⟩
    · rintro ⟨e', he', hl, hk⟩
      rcases List.mem_cons.mp he' with rfl | he'
      · cases hm : marked e' with
        | false => exact .inr ⟨hl, rfl, hx, hk.symm⟩
        | true =>
          obtain ⟨e₁, he₁, hl₁, hk₁⟩ := hme.mp hm
          exact .inl ⟨e₁, he₁, hl₁, hk₁.trans hk⟩
      · exact .inl ⟨e', he', hl, hk⟩
  · intro l₁ x l₂ heq
    have hxpre : x ∉ pre := by
      intro hx
      exact hdisj x hx x (heq ▸ by simp) rfl
    have hsame : marked' x = true ↔ marked x = true := by
      rw [hmark]
      exact or_iff_left fun hx => hxpre hx.2.2.1
    rw [hsame]
    cases l₁ with
    | nil =>
      obtain ⟨rfl, rfl⟩ := List.cons.inj heq
      exact hme
    | cons y l₁ =>
      obtain ⟨rfl, rfl⟩ := List.cons.inj heq
      exact h.after l₁ x l₂ rfl

/-- When the pass is through, the unmarked live entries are the last ones. -/
theorem Settled.filter_eq_lastOnly [DecidableEq β] (h : Settled key live [] l marked) :
    l.filter (fun x => live x && !marked x) = lastOnly key live l := by
  have hafter := h.after
  clear h
  induction l with
  | nil => rfl
  | cons x l ih =>
    have hx : marked x = l.any (fun e => live e && key e = key x) := by
      rw [Bool.eq_iff_iff, hafter [] x l rfl, List.any_eq_true]
      simp
    have hl := ih fun l₁ y l₂ heq => hafter (x :: l₁) y l₂ (by rw [heq]; rfl)
    rw [lastOnly, ← hx, ← hl, List.filter_cons]

end LastWrite
