import PugOS.BlockExec

/-! # Loads that are refused

Programs run on the contents of the blocks alone, with a choice for each load.  While no load is
refused (`granted`) a program does what it does in `view` (`view_of_granted`).
-/
namespace BlockProg
open Bytes Ring

variable {α β : Type} {m m₁ : Mem} {cs cs₁ : List Bool}

/-- A load is granted or refused as the choice says, and changes nothing. -/
def failing : Interp Mem Bool where
  load m _ c := some (c, m)
  put m _ := some m
  sully m _ := some m
  mem m := m
  setMem _ m := m

/-- No load of the run is refused. -/
def granted : Prog α → Mem → List Bool → Bool
  | .pure _, _, _ => true
  | .fail, _, _ => true
  | .load _ _, _, [] => true
  | .load _ k, m, c :: cs => c && granted (k true) m cs
  | .put _ k, m, cs => granted k m cs
  | .sully _ k, m, cs => granted k m cs
  | .peek a n k, m, cs => granted (k (getLE m a n)) m cs
  | .store a bytes k, m, cs => granted k (store m a bytes) cs

/-- The contents where a run ends, which may be in a failed assertion. -/
def final : Prog α → Mem → List Bool → Mem
  | .pure _, m, _ => m
  | .fail, m, _ => m
  | .load _ _, m, [] => m
  | .load _ k, m, c :: cs => final (k c) m cs
  | .put _ k, m, cs => final k m cs
  | .sully _ k, m, cs => final k m cs
  | .peek a n k, m, cs => final (k (getLE m a n)) m cs
  | .store a bytes k, m, cs => final k (store m a bytes) cs

/-- The program stores nothing. -/
def Quiet : Prog α → Prop
  | .pure _ => True
  | .fail => True
  | .load _ k => ∀ c, Quiet (k c)
  | .put _ k => Quiet k
  | .sully _ k => Quiet k
  | .peek _ _ k => ∀ v, Quiet (k v)
  | .store _ _ _ => False

/-- A program that ends has ended its parts. -/
theorem exec_bind_some {p : Prog α} {f : α → Prog β} {r : β × Mem × List Bool}
    (h : exec failing (p >>= f) m cs = some r) :
    ∃ a m₁ cs₁, exec failing p m cs = some (a, m₁, cs₁) ∧ exec failing (f a) m₁ cs₁ = some r := by
  rw [exec_bind] at h
  obtain ⟨⟨a, m₁, cs₁⟩, hp, hf⟩ := Option.bind_eq_some_iff.mp h
  exact ⟨a, m₁, cs₁, hp, hf⟩

/-- All loads are granted if those of both parts are. -/
theorem granted_bind {p : Prog α} {f : α → Prog β} {a : α}
    (h : exec failing p m cs = some (a, m₁, cs₁)) :
    granted (p >>= f) m cs = (granted p m cs && granted (f a) m₁ cs₁) := by
  change granted (p.bind f) m cs = _
  induction p generalizing m cs with
  | pure b =>
    obtain ⟨rfl, rfl, rfl⟩ : b = a ∧ m = m₁ ∧ cs = cs₁ := by
      simpa [exec] using h
    rfl
  | fail => cases h
  | load bn k ih =>
    cases cs with
    | nil => cases h
    | cons c cs =>
      cases c with
      | false => rfl
      | true => exact ih true h
  | put bn k ih => exact ih h
  | sully bn k ih => exact ih h
  | peek a n k ih => exact ih _ h
  | store a bytes k ih => exact ih h

/-- **A run without refused loads** is that of `view`. -/
theorem view_of_granted {p : Prog α} {a : α} (h : exec failing p m cs = some (a, m₁, cs₁))
    (hg : granted p m cs = true) : view p m = some (a, m₁) := by
  induction p generalizing m cs with
  | pure b =>
    obtain ⟨rfl, rfl, rfl⟩ : b = a ∧ m = m₁ ∧ cs = cs₁ := by
      simpa [exec] using h
    rfl
  | fail => cases h
  | load bn k ih =>
    cases cs with
    | nil => cases h
    | cons c cs =>
      cases c with
      | false => cases hg
      | true => exact ih true h hg
  | put bn k ih => exact ih h hg
  | sully bn k ih => exact ih h hg
  | peek a n k ih => exact ih _ h hg
  | store a bytes k ih => exact ih h hg

/-- What the blocks hold at the end of a run. -/
theorem final_of_exec {p : Prog α} {a : α} (h : exec failing p m cs = some (a, m₁, cs₁)) :
    final p m cs = m₁ := by
  induction p generalizing m cs with
  | pure b =>
    obtain ⟨rfl, rfl, rfl⟩ : b = a ∧ m = m₁ ∧ cs = cs₁ := by
      simpa [exec] using h
    rfl
  | fail => cases h
  | load bn k ih =>
    cases cs with
    | nil => cases h
    | cons c cs => exact ih c h
  | put bn k ih => exact ih h
  | sully bn k ih => exact ih h
  | peek a n k ih => exact ih _ h
  | store a bytes k ih => exact ih h

/-- A run ends in its first part or goes on with the second. -/
theorem final_bind (p : Prog α) (f : α → Prog β) (m : Mem) (cs : List Bool) : final (p >>= f) m cs =
    match exec failing p m cs with
    | some (a, m₁, cs₁) => final (f a) m₁ cs₁
    | none => final p m cs := by
  change final (p.bind f) m cs = _
  induction p generalizing m cs with
  | pure a => rfl
  | fail => rfl
  | load bn k ih =>
    cases cs with
    | nil => rfl
    | cons c cs => exact ih c m cs
  | put bn k ih => exact ih m cs
  | sully bn k ih => exact ih m cs
  | peek a n k ih => exact ih _ m cs
  | store a bytes k ih => exact ih _ cs

/-- After the first part it is what the second one leaves. -/
theorem final_bind_some {p : Prog α} {f : α → Prog β} {a : α}
    (h : exec failing p m cs = some (a, m₁, cs₁)) : final (p >>= f) m cs = final (f a) m₁ cs₁ := by
  rw [final_bind, h]

/-- If the first part fails, it is what that leaves. -/
theorem final_bind_none {p : Prog α} {f : α → Prog β} (h : exec failing p m cs = none) :
    final (p >>= f) m cs = final p m cs := by
  rw [final_bind, h]

/-! ## Programs that store nothing -/

/-- A program that writes nothing leaves the blocks. -/
theorem Quiet.final {p : Prog α} (h : Quiet p) (m : Mem) (cs : List Bool) : final p m cs = m := by
  induction p generalizing cs with
  | pure a => rfl
  | fail => rfl
  | load bn k ih =>
    cases cs with
    | nil => rfl
    | cons c cs => exact ih c (h c) cs
  | put bn k ih => exact ih h cs
  | sully bn k ih => exact ih h cs
  | peek a n k ih => exact ih _ (h _) cs
  | store a bytes k ih => exact h.elim

theorem Quiet.mem {p : Prog α} (hq : Quiet p) {a : α}
    (h : exec failing p m cs = some (a, m₁, cs₁)) : m₁ = m :=
  (final_of_exec h).symm.trans (hq.final m cs)

/-- What follows stores nothing. -/
theorem final_bind_quiet {p : Prog α} {f : α → Prog β} (hf : ∀ a, Quiet (f a)) :
    final (p >>= f) m cs = final p m cs := by
  cases h : exec failing p m cs with
  | none => exact final_bind_none h
  | some r =>
    obtain ⟨a, m₁, cs₁⟩ := r
    rw [final_bind_some h, final_of_exec h, (hf a).final]

/-- Two programs that write nothing, one after the other. -/
theorem Quiet.bind {p : Prog α} {f : α → Prog β} (hp : Quiet p) (hf : ∀ a, Quiet (f a)) :
    Quiet (p >>= f) := by
  change Quiet (p.bind f)
  induction p with
  | pure a => exact hf a
  | fail => trivial
  | load bn k ih => exact fun c => ih c (hp c)
  | put bn k ih => exact ih hp
  | sully bn k ih => exact ih hp
  | peek a n k ih => exact fun v => ih v (hp v)
  | store a bytes k ih => exact hp.elim

theorem Quiet.pure (a : α) : Quiet (pure a) := trivial

theorem Quiet.getEntry (bn : Nat) : Quiet (getEntry bn) := fun _ => trivial

theorem Quiet.putEntry (bn : Nat) : Quiet (putEntry bn) := trivial

theorem Quiet.peek (a n : Nat) : Quiet (peek a n) := fun _ => trivial

theorem Quiet.assert (c : Bool) : Quiet (assert c) := by
  cases c <;> trivial

section Calls
variable (m : Mem) (cs : List Bool)

@[simp] theorem exec_pure (a : α) : exec failing (pure a) m cs = some (a, m, cs) := rfl

@[simp] theorem exec_getEntry (bn : Nat) (c : Bool) :
    exec failing (getEntry bn) m (c :: cs) = some (if c then some bn else none, m, cs) := rfl

@[simp] theorem exec_putEntry (bn : Nat) : exec failing (putEntry bn) m cs = some ((), m, cs) := rfl

@[simp] theorem exec_sully (bn : Nat) : exec failing (sully bn) m cs = some ((), m, cs) := rfl

@[simp] theorem exec_peek (a n : Nat) : exec failing (peek a n) m cs = some (getLE m a n, m, cs) :=
  rfl

@[simp] theorem exec_storeBytes (a : Nat) (bytes : List UInt8) :
    exec failing (storeBytes a bytes) m cs = some ((), store m a bytes, cs) := rfl

@[simp] theorem exec_poke (a n v : Nat) :
    exec failing (poke a n v) m cs = some ((), putLE m a n v, cs) := by
  rw [poke, exec_storeBytes, store_toLE]

@[simp] theorem granted_pure (a : α) : granted (pure a : Prog α) m cs = true := rfl

end Calls

/-- What an assertion lets through. -/
theorem exec_assert {c : Bool} {r : Unit × Mem × List Bool}
    (h : exec failing (assert c) m cs = some r) : c = true ∧ r = ((), m, cs) := by
  cases c with
  | false => cases h
  | true => exact ⟨rfl, (Option.some.inj h).symm⟩


/-! ## Runs with every load answered -/

/-- Run with the choices; every load after the last of them is granted. -/
def attempt : Prog α → Mem → List Bool → Option (α × Mem × List Bool)
  | .pure a, m, cs => some (a, m, cs)
  | .fail, _, _ => none
  | .load _ k, m, cs => attempt (k (cs.headD true)) m cs.tail
  | .put _ k, m, cs => attempt k m cs
  | .sully _ k, m, cs => attempt k m cs
  | .peek a n k, m, cs => attempt (k (getLE m a n)) m cs
  | .store a bytes k, m, cs => attempt k (store m a bytes) cs

/-- Some load of such a run is refused. -/
def refused : Prog α → Mem → List Bool → Bool
  | .pure _, _, _ => false
  | .fail, _, _ => false
  | .load _ k, m, cs => !cs.headD true || refused (k (cs.headD true)) m cs.tail
  | .put _ k, m, cs => refused k m cs
  | .sully _ k, m, cs => refused k m cs
  | .peek a n k, m, cs => refused (k (getLE m a n)) m cs
  | .store a bytes k, m, cs => refused k (store m a bytes) cs

/-- A program is attempted part by part. -/
theorem attempt_bind (p : Prog α) (f : α → Prog β) (m : Mem) (cs : List Bool) :
    attempt (p >>= f) m cs = (attempt p m cs).bind fun r => attempt (f r.1) r.2.1 r.2.2 := by
  change attempt (p.bind f) m cs = _
  induction p generalizing m cs with
  | pure a => rfl
  | fail => rfl
  | load bn k ih => exact ih _ m cs.tail
  | put bn k ih => exact ih m cs
  | sully bn k ih => exact ih m cs
  | peek a n k ih => exact ih _ m cs
  | store a bytes k ih => exact ih _ cs

/-- If it ends, its parts have. -/
theorem attempt_bind_some {p : Prog α} {f : α → Prog β} {r : β × Mem × List Bool}
    (h : attempt (p >>= f) m cs = some r) : ∃ a m₁ cs₁, attempt p m cs = some (a, m₁, cs₁) ∧
    attempt (f a) m₁ cs₁ = some r := by
  rw [attempt_bind] at h
  obtain ⟨⟨a, m₁, cs₁⟩, hp, hf⟩ := Option.bind_eq_some_iff.mp h
  exact ⟨a, m₁, cs₁, hp, hf⟩

/-- A load is refused in one of the parts. -/
theorem refused_bind {p : Prog α} {f : α → Prog β} {a : α}
    (h : attempt p m cs = some (a, m₁, cs₁)) :
    refused (p >>= f) m cs = (refused p m cs || refused (f a) m₁ cs₁) := by
  change refused (p.bind f) m cs = _
  induction p generalizing m cs with
  | pure b =>
    obtain ⟨rfl, rfl, rfl⟩ : b = a ∧ m = m₁ ∧ cs = cs₁ := by
      simpa [attempt] using h
    rfl
  | fail => cases h
  | load bn k ih =>
    change (!cs.headD true || refused ((k (cs.headD true)).bind f) m cs.tail) = _
    rw [ih _ h, ← Bool.or_assoc]
    rfl
  | put bn k ih => exact ih h
  | sully bn k ih => exact ih h
  | peek a n k ih => exact ih _ h
  | store a bytes k ih => exact ih h

/-- **A run in which no load is refused** is that of `view`. -/
theorem attempt_granted {p : Prog α} (h : refused p m cs = false) :
    (attempt p m cs).map (fun r => (r.1, r.2.1)) = view p m := by
  induction p generalizing m cs with
  | pure a => rfl
  | fail => rfl
  | load bn k ih =>
    obtain ⟨hc, hrest⟩ := Bool.or_eq_false_iff.mp h
    have htrue : cs.headD true = true := by simpa using hc
    change (attempt (k (cs.headD true)) m cs.tail).map _ = _
    rw [ih _ hrest, htrue]
    rfl
  | put bn k ih => exact ih h
  | sully bn k ih => exact ih h
  | peek a n k ih => exact ih _ h
  | store a bytes k ih => exact ih h

/-- A program that writes nothing leaves the blocks, whatever is refused. -/
theorem Quiet.attempt {p : Prog α} (hq : Quiet p) {a : α}
    (h : BlockProg.attempt p m cs = some (a, m₁, cs₁)) : m₁ = m := by
  induction p generalizing cs with
  | pure b =>
    cases h
    rfl
  | fail => cases h
  | load bn k ih => exact ih _ (hq _) h
  | put bn k ih => exact ih hq h
  | sully bn k ih => exact ih hq h
  | peek a n k ih => exact ih _ (hq _) h
  | store a bytes k ih => exact hq.elim

/-- A run in which a load is refused has only results that `bad` describes. -/
def Fragile (p : Prog α) (bad : α → Prop) : Prop :=
  ∀ m cs r, refused p m cs = true → attempt p m cs = some r → bad r.1

/-- In sequence: what the results of the first part all have can be used in the second. -/
theorem Fragile.bind_of {p : Prog α} {f : α → Prog β} {bad : α → Prop} {bad' : β → Prop}
    (good : α → Prop) (hp : Fragile p bad) (hgood : ∀ m cs r, attempt p m cs = some r → good r.1)
    (hbad : ∀ a, bad a → ∀ m cs r, attempt (f a) m cs = some r → bad' r.1)
    (hf : ∀ a, good a → Fragile (f a) bad') : Fragile (p >>= f) bad' := by
  intro m cs r href h
  obtain ⟨a, m₁, cs₁, hrun, hrest⟩ := attempt_bind_some h
  rw [refused_bind hrun, Bool.or_eq_true] at href
  rcases href with href | href
  · exact hbad a (hp m cs _ href hrun) m₁ cs₁ r hrest
  · exact hf a (hgood m cs _ hrun) m₁ cs₁ r href hrest

/-- What follows a part that has failed is to fail as well. -/
theorem Fragile.bind {p : Prog α} {f : α → Prog β} {bad : α → Prop} {bad' : β → Prop}
    (hp : Fragile p bad) (hbad : ∀ a, bad a → ∀ m cs r, attempt (f a) m cs = some r → bad' r.1)
    (hf : ∀ a, Fragile (f a) bad') : Fragile (p >>= f) bad' :=
  Fragile.bind_of (fun _ => True) hp (fun _ _ _ _ => trivial) hbad fun a _ => hf a

/-- A first part whose runs with a refused load have no result. -/
theorem Fragile.seq {p : Prog α} {f : α → Prog β} {bad : β → Prop} (hp : Fragile p fun _ => False)
    (hf : ∀ a, Fragile (f a) bad) : Fragile (p >>= f) bad := hp.bind (fun _ h => h.elim) hf

theorem Fragile.pure {bad : α → Prop} (a : α) : Fragile (pure a : Prog α) bad := by
  rintro m cs r ⟨⟩

theorem Fragile.fail {bad : α → Prop} : Fragile (Prog.fail : Prog α) bad := by
  rintro m cs r ⟨⟩

theorem Fragile.peek {bad : Nat → Prop} (a n : Nat) : Fragile (peek a n) bad := by
  rintro m cs r ⟨⟩

theorem Fragile.putEntry {bad : Unit → Prop} (bn : Nat) : Fragile (putEntry bn) bad := by
  rintro m cs r ⟨⟩

theorem Fragile.sully {bad : Unit → Prop} (bn : Nat) : Fragile (sully bn) bad := by
  rintro m cs r ⟨⟩

theorem Fragile.storeBytes {bad : Unit → Prop} (a : Nat) (bytes : List UInt8) :
    Fragile (storeBytes a bytes) bad := by
  rintro m cs r ⟨⟩

/-- A load that is refused has no entry. -/
theorem Fragile.getEntry (bn : Nat) : Fragile (getEntry bn) fun e => e = none := by
  intro m cs r href h
  cases Option.some.inj h
  have hfalse : cs.headD true = false := by simpa [BlockProg.getEntry, refused] using href
  show (if cs.headD true then some bn else none) = none
  rw [hfalse]
  rfl

/-- Both branches are to fail. -/
theorem Fragile.ite {c : Prop} [Decidable c] {p q : Prog α} {bad : α → Prop} (hp : Fragile p bad)
    (hq : Fragile q bad) : Fragile (if c then p else q) bad := by
  split
  · exact hp
  · exact hq

end BlockProg
