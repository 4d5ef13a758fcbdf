import PugOS.MemRange
import PugOS.Transition
import Mathlib.Data.Option.Basic
import Mathlib.Logic.Function.Basic

/-! # Setting the types of address ranges

`memrangeset::set` assigns a type to `[first, last)`: it merges the range with its
neighbours of the same type, splits the ranges it starts and ends inside of, and moves
the boundaries that are left together.  A set is thereby a map from the addresses below
its limit to types (`typeAt`), which `set` changes on `[first, last)` and nowhere else
(`set_spec`).

Ranges of length zero do not exist: a set of at most `maxsize` ranges is valid only if
`maxsize` and its limit are positive.
-/
namespace PugOS.MemRangeSet

/-! ## The operations

A failed assertion is `none`. -/

/-- `memmove(&r_[dst], &r_[src], cnt * sizeof(memrange))`. -/
def move (r : Nat → MemRange) (dst src cnt : Nat) : Nat → MemRange :=
  fun k => if dst ≤ k ∧ k < dst + cnt then r (k - dst + src) else r k

/-- The constructor. -/
def ofLimit (limit : Nat) : MemRangeSet where
  n := 1
  r := fun k => if k = 0 then ⟨0, 0⟩ else ⟨limit, 0⟩

section Ops
variable (maxsize : Nat) (m : MemRangeSet)

/-- The loop of `find`: skip the ranges that end at or before `addr`, `fuel` at most. -/
def skip (addr : Nat) : Nat → Nat → Nat
  | 0, i => i
  | fuel + 1, i => if i < m.n ∧ addr ≥ m.first (i + 1) then skip addr fuel (i + 1) else i

/-- `find`: the index of the range. -/
def find (addr : Nat) : Nat := m.skip addr m.n 0

/-- `type(addr)`. -/
def typeAt (addr : Nat) : Option Int :=
  if m.find addr = m.n then none else some (m.type (m.find addr))

/-- The first loop of `set`, which has no bound; `none` when it leaves the array. -/
def lower (first : Nat) : Nat → Nat → Option Nat
  | 0, _ => none
  | fuel + 1, i => if first ≥ m.first (i + 1) then lower first fuel (i + 1) else some i

/-- What `split` makes. -/
def inserted (i addr : Nat) : MemRangeSet where
  n := m.n + 1
  r := Function.update (move m.r (i + 2) (i + 1) (m.n - i)) (i + 1) ⟨addr, m.type i⟩

def split (i addr : Nat) : Option MemRangeSet :=
  if i < m.n ∧ m.n + 1 ≤ maxsize ∧ m.first i < addr ∧ m.first (i + 1) > addr then
    some (m.inserted i addr)
  else none

/-- `set` tries to consolidate the range with the one before: the index and the new
start. -/
def consolidate (first : Nat) (type : Int) (i : Nat) : Nat × Nat :=
  let i := if first = m.first i ∧ i > 0 ∧ m.type (i - 1) = type then i - 1 else i
  (i, if m.type i = type then m.first i else first)

/-- `set` moves the boundary `j`, or merges the range with the one after: the set, the
index and the new end. -/
def extend (first last : Nat) (type : Int) (i j : Nat) : MemRangeSet × Nat × Nat :=
  if j < m.n ∧ m.type j = type then (m, j + 1, m.first (j + 1))
  else if j > i ∧ first = m.first i then
    ({ m with r := Function.update m.r j ⟨last, m.type j⟩ }, j, last)
  else (m, j, last)

/-- `set` assigns the new range and removes the boundaries inside it. -/
def assign (type : Int) (i j : Nat) : MemRangeSet :=
  let r := Function.update m.r i ⟨m.first i, type⟩
  if i + 1 < j then { n := m.n - (j - (i + 1)), r := move r (i + 1) j (m.n + 1 - j) }
  else { m with r := r }

/-- `set` splits the range at left, where it has to: the set and the new indices. -/
def splitLeft (first i j : Nat) : Option (MemRangeSet × Nat × Nat) :=
  if first ≠ m.first i then (m.split maxsize i first).map fun m => (m, i + 1, j + 1)
  else some (m, i, j)

/-- `set` splits the range at right, where it has to: the set and the new index. -/
def splitRight (last j : Nat) : Option (MemRangeSet × Nat) :=
  if last ≠ m.first j then (m.split maxsize j last).map fun m => (m, j + 1) else some (m, j)

/-- `set` splits the range at left and right, and assigns the new range. -/
def place (first last : Nat) (type : Int) (i j : Nat) : Option (Bool × MemRangeSet) :=
  if m.n + (if first ≠ m.first i then 1 else 0) + (if last ≠ m.first j then 1 else 0) > maxsize then
    some (false, m)
  else do
    let (m, i, j) ← m.splitLeft maxsize first i j
    let (m, j) ← m.splitRight maxsize last j
    guard (m.first i = first ∧ m.first j = last)
    return (true, m.assign type i j)

/-- `set(first, last, type)`. -/
def set (first last : Nat) (type : Int) : Option (Bool × MemRangeSet) := do
  guard (first ≤ last ∧ last ≤ m.first m.n)
  if first = last then return (true, m)
  let i ← m.lower first m.n 0
  guard (i < m.n ∧ first ≥ m.first i ∧ first < m.first (i + 1))
  let (i, first) := m.consolidate first type i
  let j := m.skip last m.n i
  guard (j ≤ m.n ∧ last ≥ m.first j ∧ (j = m.n ∨ last < m.first (j + 1)))
  let (m, j, last) := m.extend first last type i j
  m.place maxsize first last type i j

/-- `validate()`. -/
structure Validate : Prop where
  pos : 0 < m.n
  le : m.n ≤ maxsize
  valid : m.Valid
  adjacent : ∀ i, 0 < i → i < m.n → m.type i ≠ m.type (i - 1)

end Ops

variable {maxsize : Nat} {m : MemRangeSet} {i j first last addr a : Nat} {type : Int}

/-! ## The map -/

theorem Valid.lt (h : m.Valid) {i j : Nat} (hij : i < j) (hj : j ≤ m.n) : m.first i < m.first j :=
  Nat.lt_of_lt_of_le (h.first_lt_last i (by omega)) (h.last_le_first hij hj)

theorem Valid.le (h : m.Valid) {i j : Nat} (hij : i ≤ j) (hj : j ≤ m.n) :
    m.first i ≤ m.first j := by
  rcases Nat.lt_or_eq_of_le hij with hlt | rfl
  · exact Nat.le_of_lt (h.lt hlt hj)
  · exact Nat.le_refl _

/-- Every address below the limit is in a range. -/
theorem Valid.cover (h : m.Valid) (ha : a < m.limit) :
    ∃ i < m.n, m.first i ≤ a ∧ a < m.first (i + 1) := by
  have key : ∀ k ≤ m.n, a < m.first k → ∃ i < k, m.first i ≤ a ∧ a < m.first (i + 1) := by
    intro k
    induction k with
    | zero =>
      intro _ hk
      rw [h.first_zero] at hk
      omega
    | succ k ih =>
      intro hk hlt
      by_cases hka : a < m.first k
      · obtain ⟨i, hi, hia⟩ := ih (by omega) hka
        exact ⟨i, by omega, hia⟩
      · exact ⟨k, by omega, by omega, hlt⟩
  obtain ⟨i, hi, hia⟩ := key m.n (Nat.le_refl _) ha
  exact ⟨i, hi, hia⟩

/-- The loop stops at the range that holds the address. -/
theorem Valid.skip_eq (h : m.Valid) {k fuel : Nat} (hi : i ≤ k) (hk : k ≤ m.n)
    (h₁ : m.first k ≤ addr) (h₂ : k < m.n → addr < m.first (k + 1)) (hfuel : k ≤ i + fuel) :
    m.skip addr fuel i = k := by
  induction fuel generalizing i with
  | zero => exact Nat.le_antisymm hi hfuel
  | succ fuel ih =>
    unfold skip
    by_cases hik : i = k
    · subst hik
      rw [if_neg]
      rintro ⟨hlt, hge⟩
      have := h₂ hlt
      omega
    · have hge : addr ≥ m.first (i + 1) := Nat.le_trans (h.le (by omega) hk) h₁
      rw [if_pos ⟨by omega, hge⟩]
      exact ih (by omega) (by omega)

/-- **The type of an address** is that of the range that holds it. -/
theorem Valid.typeAt_eq (h : m.Valid) (hi : i < m.n) (h₁ : m.first i ≤ a)
    (h₂ : a < m.first (i + 1)) : m.typeAt a = some (m.type i) := by
  have hfind : m.find a = i :=
    h.skip_eq (Nat.zero_le _) (Nat.le_of_lt hi) h₁ (fun _ => h₂) (by omega)
  unfold typeAt
  rw [hfind, if_neg (Nat.ne_of_lt hi)]

theorem Valid.typeAt_of (h : m.Valid) (hi : i < m.n) {x y : MemRange} (hx : m.r i = x)
    (hy : m.r (i + 1) = y) (h₁ : x.addr ≤ a) (h₂ : a < y.addr) : m.typeAt a = some x.type := by
  subst hx hy
  exact h.typeAt_eq hi h₁ h₂

theorem Valid.lower_eq (h : m.Valid) {k fuel : Nat} (hi : i ≤ k) (hk : k < m.n)
    (h₁ : m.first k ≤ first) (h₂ : first < m.first (k + 1)) (hfuel : k < i + fuel) :
    m.lower first fuel i = some k := by
  induction fuel generalizing i with
  | zero => omega
  | succ fuel ih =>
    unfold lower
    by_cases hik : i = k
    · subst hik
      rw [if_neg (by omega)]
    · have hge : first ≥ m.first (i + 1) := Nat.le_trans (h.le (by omega) (Nat.le_of_lt hk)) h₁
      rw [if_pos hge]
      exact ih (by omega) (by omega)

/-! ## Splitting a range -/

theorem inserted_low {k : Nat} (hk : k ≤ i) : (m.inserted i addr).r k = m.r k := by
  unfold inserted move
  dsimp only
  rw [Function.update_of_ne (by omega), if_neg (by omega)]

theorem inserted_mid : (m.inserted i addr).r (i + 1) = ⟨addr, m.type i⟩ := Function.update_self ..

theorem inserted_high {k : Nat} (hk : i + 1 ≤ k) (hn : k ≤ m.n) :
    (m.inserted i addr).r (k + 1) = m.r k := by
  unfold inserted move
  dsimp only
  rw [Function.update_of_ne (by omega), if_pos (by omega)]
  congr 1
  omega

theorem inserted_type {k : Nat} (hk : i ≤ k) (hn : k ≤ m.n) :
    (m.inserted i addr).type (k + 1) = m.type k := by
  unfold MemRangeSet.type
  rcases Nat.lt_or_eq_of_le hk with hlt | rfl
  · rw [inserted_high hlt hn]
  · rw [inserted_mid]
    rfl

section Split
variable (h : m.Valid) (hi : i < m.n) (h₁ : m.first i < addr) (h₂ : addr < m.first (i + 1))
include h hi h₁ h₂

theorem inserted_valid : (m.inserted i addr).Valid := by
  refine ⟨?_, fun k hk => ?_⟩
  · unfold MemRangeSet.first
    rw [inserted_low (Nat.zero_le _)]
    exact h.first_zero
  · have hk : k < m.n + 1 := hk
    unfold MemRangeSet.first MemRangeSet.last at *
    rcases Nat.lt_trichotomy k i with hlt | rfl | hgt
    · rw [inserted_low (Nat.le_of_lt hlt), inserted_low hlt]
      exact h.first_lt_last k (by omega)
    · rw [inserted_low (Nat.le_refl _), inserted_mid]
      exact h₁
    · obtain ⟨k, rfl⟩ := Nat.exists_eq_add_one_of_ne_zero (Nat.ne_of_gt (Nat.zero_lt_of_lt hgt))
      have hnext : (m.inserted i addr).r (k + 1 + 1) = m.r (k + 1) :=
        inserted_high (by omega) (by omega)
      rw [hnext]
      rcases Nat.lt_or_eq_of_le (Nat.le_of_lt_succ hgt) with hlt | rfl
      · rw [inserted_high hlt (by omega)]
        exact h.first_lt_last k (by omega)
      · rw [inserted_mid]
        exact h₂

omit h h₁ h₂ in
theorem inserted_limit : (m.inserted i addr).limit = m.limit := by
  unfold limit MemRangeSet.first
  exact congrArg MemRange.addr (inserted_high hi (Nat.le_refl _))

/-- A split changes no type. -/
theorem inserted_typeAt (ha : a < m.limit) : (m.inserted i addr).typeAt a = m.typeAt a := by
  have hv := inserted_valid h hi h₁ h₂
  have hn : (m.inserted i addr).n = m.n + 1 := rfl
  obtain ⟨k, hk, hk₁, hk₂⟩ := h.cover ha
  rw [h.typeAt_eq hk hk₁ hk₂]
  rcases Nat.lt_trichotomy k i with hlt | rfl | hgt
  · exact hv.typeAt_of (by omega) (inserted_low (Nat.le_of_lt hlt)) (inserted_low hlt) hk₁ hk₂
  · by_cases hlt : a < addr
    · exact hv.typeAt_of (by omega) (inserted_low (Nat.le_refl _)) inserted_mid hk₁ hlt
    · have := hv.typeAt_of (by omega) inserted_mid (inserted_high (Nat.le_refl _) (by omega))
        (Nat.not_lt.mp hlt) hk₂
      exact this
  · exact hv.typeAt_of (by omega) (inserted_high hgt (by omega))
      (inserted_high (by omega) (by omega)) hk₁ hk₂

end Split

/-! ## Assigning a range -/

theorem assign_n : (m.assign type i j).n = m.n - (j - (i + 1)) := by
  unfold assign
  dsimp only
  split
  · rfl
  · have : j - (i + 1) = 0 := by omega
    rw [this]
    rfl

theorem assign_low {k : Nat} (hk : k < i) : (m.assign type i j).r k = m.r k := by
  unfold assign move
  dsimp only
  split
  · dsimp only
    rw [if_neg (by omega), Function.update_of_ne (by omega)]
  · exact Function.update_of_ne (by omega) ..

theorem assign_mid : (m.assign type i j).r i = ⟨m.first i, type⟩ := by
  unfold assign move
  dsimp only
  split
  · dsimp only
    rw [if_neg (by omega), Function.update_self]
  · exact Function.update_self ..

/-- The boundaries from `j` on come after the new range. -/
theorem assign_high {k : Nat} (hij : i < j) (hk : i < k) (hn : k + (j - (i + 1)) ≤ m.n) :
    (m.assign type i j).r k = m.r (k + (j - (i + 1))) := by
  unfold assign move
  dsimp only
  split
  · dsimp only
    rw [if_pos (by omega), Function.update_of_ne (by omega)]
    congr 1
    omega
  · rw [show k + (j - (i + 1)) = k by omega]
    exact Function.update_of_ne (by omega) ..

section Assign
variable (h : m.Valid) (hij : i < j) (hj : j ≤ m.n)
include h hij hj

theorem assign_valid : (m.assign type i j).Valid := by
  have hn : (m.assign type i j).n = m.n - (j - (i + 1)) := assign_n
  refine ⟨?_, fun k hk => ?_⟩
  · unfold MemRangeSet.first
    rcases Nat.eq_zero_or_pos i with rfl | hpos
    · rw [assign_mid]
      exact h.first_zero
    · rw [assign_low hpos]
      exact h.first_zero
  · have hlow : ∀ k < i, (m.assign type i j).r k = m.r k := fun k hk => assign_low hk
    have hhigh : ∀ k, i < k → k + (j - (i + 1)) ≤ m.n →
        (m.assign type i j).r k = m.r (k + (j - (i + 1))) := fun k => assign_high hij
    unfold MemRangeSet.first MemRangeSet.last
    rcases Nat.lt_trichotomy k i with hlt | rfl | hgt
    · rw [hlow k hlt]
      rcases Nat.lt_or_eq_of_le (Nat.succ_le_of_lt hlt) with hlt' | rfl
      · rw [hlow (k + 1) hlt']
        exact h.first_lt_last k (by omega)
      · rw [assign_mid]
        exact h.first_lt_last k (by omega)
    · rw [assign_mid, hhigh (k + 1) (by omega) (by omega)]
      exact h.lt (by omega) (by omega)
    · rw [hhigh k hgt (by omega), hhigh (k + 1) (by omega) (by omega)]
      exact h.lt (by omega) (by omega)

omit h in
theorem assign_limit : (m.assign type i j).limit = m.limit := by
  unfold limit MemRangeSet.first
  rw [assign_n, assign_high hij (by omega) (by omega)]
  congr 2
  omega

/-- **The new range** has its type, and the others keep theirs. -/
theorem assign_typeAt (ha : a < m.limit) : (m.assign type i j).typeAt a =
    if m.first i ≤ a ∧ a < m.first j then some type else m.typeAt a := by
  have hv : (m.assign type i j).Valid := assign_valid h hij hj
  have hn : (m.assign type i j).n = m.n - (j - (i + 1)) := assign_n
  obtain ⟨k, hk, hk₁, hk₂⟩ := h.cover ha
  by_cases hin : m.first i ≤ a ∧ a < m.first j
  · have hnext : (m.assign type i j).r (i + 1) = m.r j := by
      rw [assign_high hij (by omega) (by omega)]
      congr 1
      omega
    rw [if_pos hin]
    have := hv.typeAt_of (by omega) (assign_mid) hnext hin.1 hin.2
    exact this
  · rw [if_neg hin, h.typeAt_eq hk hk₁ hk₂]
    rcases Nat.lt_or_ge k i with hlt | hge
    · have hlow : (m.assign type i j).r k = m.r k := assign_low hlt
      rcases Nat.lt_or_eq_of_le (Nat.succ_le_of_lt hlt) with hlt' | rfl
      · exact hv.typeAt_of (by omega) hlow (assign_low hlt') hk₁ hk₂
      · exact hv.typeAt_of (by omega) hlow (assign_mid) hk₁ hk₂
    · -- the address is at or after `first j`, as it is not before `first i`
      have hjk : j ≤ k := by
        by_contra hc
        have h₁ := h.le hge (by omega)
        have h₂ := h.le (show k + 1 ≤ j by omega) hj
        exact hin ⟨by omega, by omega⟩
      have hhigh : ∀ l, j ≤ l → l ≤ m.n → (m.assign type i j).r (l - (j - (i + 1))) = m.r l := by
        intro l h₁ h₂
        rw [assign_high hij (by omega) (by omega)]
        congr 1
        omega
      have hnext := hhigh (k + 1) (by omega) (by omega)
      rw [show k + 1 - (j - (i + 1)) = k - (j - (i + 1)) + 1 by omega] at hnext
      exact hv.typeAt_of (by omega) (hhigh k hjk (by omega)) hnext hk₁ hk₂

end Assign

/-! ## Moving a boundary -/

/-- Moving the boundary `j` up inside its range gives the addresses it passes to the
range before. -/
theorem moved_valid (h : m.Valid) (hj : 0 < j) (hn : j < m.n) (h₁ : m.first j ≤ last)
    (h₂ : last < m.first (j + 1)) :
    MemRangeSet.Valid { m with r := Function.update m.r j ⟨last, m.type j⟩ } := by
  have hne : ∀ l, l ≠ j → Function.update m.r j ⟨last, m.type j⟩ l = m.r l :=
    fun l hl => Function.update_of_ne hl ..
  refine ⟨?_, fun k hk => ?_⟩
  · unfold MemRangeSet.first
    dsimp only
    rw [hne 0 (by omega)]
    exact h.first_zero
  · have hlt := h.first_lt_last k hk
    unfold MemRangeSet.first MemRangeSet.last at *
    dsimp only
    rcases Nat.lt_trichotomy k j with hkj | rfl | hkj
    · rw [hne k (by omega)]
      by_cases hkj' : k + 1 = j
      · subst hkj'
        rw [Function.update_self]
        exact Nat.lt_of_lt_of_le hlt h₁
      · rw [hne (k + 1) hkj']
        exact hlt
    · rw [Function.update_self, hne (k + 1) (by omega)]
      exact h₂
    · rw [hne k (by omega), hne (k + 1) (by omega)]
      exact hlt

/-- Behind the boundary nothing changes. -/
theorem moved_typeAt (h : m.Valid) (hj : 0 < j) (hn : j < m.n) (h₁ : m.first j ≤ last)
    (h₂ : last < m.first (j + 1)) (ha : a < m.limit) (hout : a < m.first j ∨ last ≤ a) :
    typeAt { m with r := Function.update m.r j ⟨last, m.type j⟩ } a = m.typeAt a := by
  have hv := moved_valid h hj hn h₁ h₂
  obtain ⟨k, hk, hk₁, hk₂⟩ := h.cover ha
  have hne : ∀ l, l ≠ j → Function.update m.r j ⟨last, m.type j⟩ l = m.r l :=
    fun l hl => Function.update_of_ne hl ..
  rw [h.typeAt_eq hk hk₁ hk₂]
  by_cases hkj : k = j
  · subst hkj
    have := hv.typeAt_of hk (Function.update_self ..) (hne (k + 1) (by omega))
      (show last ≤ a by omega) hk₂
    exact this
  · by_cases hkj' : k + 1 = j
    · subst hkj'
      exact hv.typeAt_of hk (hne k hkj) (Function.update_self ..) hk₁ (by dsimp only; omega)
    · exact hv.typeAt_of hk (hne k hkj) (hne (k + 1) hkj') hk₁ hk₂

/-! ## `set` -/

/-- The new range `[first, last)` starts in range `i` and ends in range `j`, or at the
start of it, and the ranges around it differ in type from it and from one another. -/
structure Framed (m : MemRangeSet) (first last : Nat) (type : Int) (i j : Nat) : Prop where
  valid : m.Valid
  lt : first < last
  i_lt : i < m.n
  le_j : i ≤ j
  j_le : j ≤ m.n
  first_le : m.first i ≤ first
  first_lt : first < m.first (i + 1)
  le_last : m.first j ≤ last
  last_lt : j < m.n → last < m.first (j + 1)
  last_eq : j = m.n → last = m.first j
  before : ∀ k, 0 < k → k < i → m.type k ≠ m.type (k - 1)
  here : first = m.first i → 0 < i → m.type (i - 1) ≠ type
  inside : first ≠ m.first i → m.type i ≠ type ∧ (0 < i → m.type i ≠ m.type (i - 1))
  behind : j < m.n → m.type j ≠ type
  after : ∀ k, j < k → k < m.n → m.type k ≠ m.type (k - 1)

/-- Splitting range `i` at `first`. -/
theorem Framed.splitFirst (h : m.Framed first last type i j) (hne : first ≠ m.first i) :
    (m.inserted i first).Framed first last type (i + 1) (j + 1) ∧
      first = (m.inserted i first).first (i + 1) := by
  have hlt : m.first i < first := Nat.lt_of_le_of_ne h.first_le (Ne.symm hne)
  have hn : (m.inserted i first).n = m.n + 1 := rfl
  have hi := h.i_lt
  have hj := h.j_le
  have hij := h.le_j
  have hmid : (m.inserted i first).first (i + 1) = first := congrArg MemRange.addr inserted_mid
  have hhigh : ∀ k, i < k → k ≤ m.n → (m.inserted i first).first (k + 1) = m.first k :=
    fun k h₁ h₂ => congrArg MemRange.addr (inserted_high h₁ h₂)
  have hlow : ∀ k ≤ i, (m.inserted i first).type k = m.type k :=
    fun k hk => congrArg MemRange.type (inserted_low hk)
  have htype : ∀ k, i ≤ k → k ≤ m.n → (m.inserted i first).type (k + 1) = m.type k :=
    fun k h₁ h₂ => inserted_type h₁ h₂
  obtain ⟨hinside, hprev⟩ := h.inside hne
  refine ⟨⟨inserted_valid h.valid hi hlt h.first_lt, h.lt, by omega, by omega, by omega, ?_, ?_, ?_,
    ?_, ?_, ?_, ?_, ?_, ?_, ?_⟩, hmid.symm⟩
  · rw [hmid]
  · rw [hhigh (i + 1) (by omega) hi]
    exact h.first_lt
  · rcases Nat.lt_or_eq_of_le hij with hlt' | rfl
    · rw [hhigh j hlt' hj]
      exact h.le_last
    · rw [hmid]
      exact Nat.le_of_lt h.lt
  · intro hlt'
    rw [hhigh (j + 1) (by omega) (by omega)]
    exact h.last_lt (by omega)
  · intro heq
    rw [hhigh j (by omega) hj]
    exact h.last_eq (by omega)
  · intro k h₁ h₂
    rw [hlow k (by omega), hlow (k - 1) (by omega)]
    by_cases hki : k = i
    · subst hki
      exact hprev h₁
    · exact h.before k h₁ (by omega)
  · intro _ _
    rw [Nat.add_sub_cancel, hlow i (Nat.le_refl _)]
    exact hinside
  · exact fun hc => absurd hmid.symm hc
  · intro hlt'
    rw [htype j hij hj]
    exact h.behind (by omega)
  · intro k h₁ h₂
    obtain ⟨k, rfl⟩ := Nat.exists_eq_add_one_of_ne_zero (show k ≠ 0 by omega)
    have hk := htype (k - 1) (by omega) (by omega)
    rw [Nat.sub_add_cancel (by omega)] at hk
    rw [htype k (by omega) (by omega), Nat.add_sub_cancel, hk]
    exact h.after k (by omega) (by omega)

/-- Splitting range `j` at `last`. -/
theorem Framed.splitLast (h : m.Framed first last type i j) (hfirst : first = m.first i)
    (hne : last ≠ m.first j) : j < m.n ∧ (m.inserted j last).Framed first last type i (j + 1) ∧
      first = (m.inserted j last).first i ∧ last = (m.inserted j last).first (j + 1) := by
  have hj : j < m.n := by
    refine Nat.lt_of_le_of_ne h.j_le fun hc => hne (h.last_eq hc)
  have hlt : m.first j < last := Nat.lt_of_le_of_ne h.le_last (Ne.symm hne)
  have hn : (m.inserted j last).n = m.n + 1 := rfl
  have hij := h.le_j
  have hmid : (m.inserted j last).first (j + 1) = last := congrArg MemRange.addr inserted_mid
  have hfirst' : ∀ k ≤ j, (m.inserted j last).first k = m.first k :=
    fun k hk => congrArg MemRange.addr (inserted_low hk)
  have hlow : ∀ k ≤ j, (m.inserted j last).type k = m.type k :=
    fun k hk => congrArg MemRange.type (inserted_low hk)
  have htype : ∀ k, j ≤ k → k ≤ m.n → (m.inserted j last).type (k + 1) = m.type k :=
    fun k h₁ h₂ => inserted_type h₁ h₂
  have heq : first = (m.inserted j last).first i := by rw [hfirst' i hij, hfirst]
  refine ⟨hj, ⟨inserted_valid h.valid hj hlt (h.last_lt hj), h.lt, by omega, by omega,
    by omega, ?_, ?_, ?_, ?_, ?_, ?_, ?_, ?_, ?_, ?_⟩, heq, hmid.symm⟩
  · exact Nat.le_of_eq heq.symm
  · rcases Nat.lt_or_eq_of_le hij with hlt' | rfl
    · rw [hfirst' (i + 1) hlt']
      exact h.first_lt
    · rw [hmid]
      exact h.lt
  · exact Nat.le_of_eq hmid
  · intro hlt'
    have hhigh : (m.inserted j last).first (j + 1 + 1) = m.first (j + 1) :=
      congrArg MemRange.addr (inserted_high (Nat.le_refl _) (by omega))
    rw [hhigh]
    exact h.last_lt hj
  · exact fun _ => hmid.symm
  · intro k h₁ h₂
    rw [hlow k (by omega), hlow (k - 1) (by omega)]
    exact h.before k h₁ h₂
  · intro _ hi
    rw [hlow (i - 1) (by omega)]
    exact h.here hfirst hi
  · exact fun hc => absurd heq hc
  · intro hlt'
    rw [htype j (Nat.le_refl _) (by omega)]
    exact h.behind hj
  · intro k h₁ h₂
    obtain ⟨k, rfl⟩ := Nat.exists_eq_add_one_of_ne_zero (show k ≠ 0 by omega)
    have hk := htype (k - 1) (by omega) (by omega)
    rw [Nat.sub_add_cancel (by omega)] at hk
    rw [htype k (by omega) (by omega), Nat.add_sub_cancel, hk]
    exact h.after k (by omega) (by omega)

/-- **Assigning** a range whose ends are boundaries gives a valid set. -/
theorem Framed.assign (h : m.Framed first last type i j) (hfirst : first = m.first i)
    (hlast : last = m.first j) (hsize : m.n ≤ maxsize) :
    i < j ∧ (m.assign type i j).Validate maxsize := by
  have hij : i < j := by
    refine Nat.lt_of_le_of_ne h.le_j ?_
    rintro rfl
    have := h.lt
    omega
  have hj := h.j_le
  have hn : (m.assign type i j).n = m.n - (j - (i + 1)) := assign_n
  have hlow : ∀ k < i, (m.assign type i j).type k = m.type k :=
    fun k hk => congrArg MemRange.type (assign_low hk)
  have hmid : (m.assign type i j).type i = type := congrArg MemRange.type assign_mid
  have hhigh : ∀ k, i < k → k + (j - (i + 1)) ≤ m.n →
      (m.assign type i j).type k = m.type (k + (j - (i + 1))) :=
    fun k h₁ h₂ => congrArg MemRange.type (assign_high hij h₁ h₂)
  refine ⟨hij, by omega, by omega, assign_valid h.valid hij hj, fun k h₁ h₂ => ?_⟩
  rcases Nat.lt_trichotomy k i with hlt | rfl | hgt
  · rw [hlow k hlt, hlow (k - 1) (by omega)]
    exact h.before k h₁ hlt
  · rw [hmid, hlow (k - 1) (by omega)]
    exact (h.here hfirst h₁).symm
  · rw [hhigh k hgt (by omega)]
    by_cases hki : k = i + 1
    · subst hki
      rw [Nat.add_sub_cancel, hmid, show i + 1 + (j - (i + 1)) = j by omega]
      exact h.behind (by omega)
    · rw [hhigh (k - 1) (by omega) (by omega),
        show k - 1 + (j - (i + 1)) = k + (j - (i + 1)) - 1 by omega]
      exact h.after _ (by omega) (by omega)

/-- `m'` maps the addresses as `m` does. -/
structure SameMap (m m' : MemRangeSet) : Prop where
  limit : m'.limit = m.limit
  typeAt : ∀ a < m.limit, m'.typeAt a = m.typeAt a

theorem inserted_sameMap (h : m.Valid) (hi : i < m.n) (h₁ : m.first i < addr)
    (h₂ : addr < m.first (i + 1)) : m.SameMap (m.inserted i addr) :=
  ⟨inserted_limit hi, fun _ ha => inserted_typeAt h hi h₁ h₂ ha⟩

theorem split_eq (hi : i < m.n) (hsize : m.n + 1 ≤ maxsize) (h₁ : m.first i < addr)
    (h₂ : addr < m.first (i + 1)) : m.split maxsize i addr = some (m.inserted i addr) :=
  if_pos ⟨hi, hsize, h₁, h₂⟩

/-- The left split, if there is one to make. -/
theorem Framed.left (h : m.Framed first last type i j)
    (hsize : m.n + (if first ≠ m.first i then 1 else 0) ≤ maxsize) :
    ∃ m' i' j', m.splitLeft maxsize first i j = some (m', i', j') ∧
      m'.Framed first last type i' j' ∧ first = m'.first i' ∧
      m'.n = m.n + (if first ≠ m.first i then 1 else 0) ∧ m.SameMap m' ∧
      (last ≠ m'.first j' ↔ last ≠ m.first j) := by
  by_cases hne : first ≠ m.first i
  · rw [if_pos hne] at hsize
    have hlt : m.first i < first := Nat.lt_of_le_of_ne h.first_le (Ne.symm hne)
    obtain ⟨hframed, heq⟩ := h.splitFirst hne
    refine ⟨m.inserted i first, i + 1, j + 1, ?_, hframed, heq, ?_,
      inserted_sameMap h.valid h.i_lt hlt h.first_lt, ?_⟩
    · rw [splitLeft, if_pos hne, split_eq h.i_lt hsize hlt h.first_lt]
      rfl
    · rw [if_pos hne]
      rfl
    · rcases Nat.lt_or_eq_of_le h.le_j with hlt' | rfl
      · have hfirst : (m.inserted i first).first (j + 1) = m.first j :=
          congrArg MemRange.addr (inserted_high hlt' h.j_le)
        rw [hfirst]
      · have h₁ := h.lt
        have h₂ := h.first_le
        have hmid : (m.inserted i first).first (i + 1) = first := heq.symm
        rw [hmid]
        omega
  · exact ⟨m, i, j, if_neg hne, h, Decidable.not_not.mp hne, by rw [if_neg hne, Nat.add_zero],
      ⟨rfl, fun _ _ => rfl⟩, Iff.rfl⟩

/-- The right split, if there is one to make. -/
theorem Framed.right (h : m.Framed first last type i j) (hfirst : first = m.first i)
    (hsize : m.n + (if last ≠ m.first j then 1 else 0) ≤ maxsize) :
    ∃ m' j', m.splitRight maxsize last j = some (m', j') ∧
      m'.Framed first last type i j' ∧ first = m'.first i ∧ last = m'.first j' ∧
      m'.n ≤ maxsize ∧ m.SameMap m' := by
  by_cases hne : last ≠ m.first j
  · rw [if_pos hne] at hsize
    have hlt : m.first j < last := Nat.lt_of_le_of_ne h.le_last (Ne.symm hne)
    obtain ⟨hj, hframed, heq, heq'⟩ := h.splitLast hfirst hne
    refine ⟨m.inserted j last, j + 1, ?_, hframed, heq, heq', hsize,
      inserted_sameMap h.valid hj hlt (h.last_lt hj)⟩
    rw [splitRight, if_pos hne, split_eq hj hsize hlt (h.last_lt hj)]
    rfl
  · rw [if_neg hne] at hsize
    exact ⟨m, j, if_neg hne, h, hfirst, Decidable.not_not.mp hne, hsize, ⟨rfl, fun _ _ => rfl⟩⟩

/-- **Placing the range** fails for want of room, and changes nothing then, or gives a
valid set in which the range has its type. -/
theorem Framed.place (h : m.Framed first last type i j) (hsize : m.n ≤ maxsize) :
    (m.place maxsize first last type i j = some (false, m) ∧
      (first ≠ m.first i ∨ last ≠ m.first j)) ∨
    ∃ m', m.place maxsize first last type i j = some (true, m') ∧ m'.Validate maxsize ∧
      m'.limit = m.limit ∧ ∀ a < m.limit, m'.typeAt a =
        if first ≤ a ∧ a < last then some type else m.typeAt a := by
  unfold MemRangeSet.place
  by_cases hroom : m.n + (if first ≠ m.first i then 1 else 0) +
      (if last ≠ m.first j then 1 else 0) > maxsize
  · rw [if_pos hroom]
    refine .inl ⟨rfl, ?_⟩
    by_contra hc
    rw [not_or, not_not, not_not] at hc
    rw [if_neg (not_not.mpr hc.1), if_neg (not_not.mpr hc.2)] at hroom
    omega
  · rw [if_neg hroom]
    have hsize₀ : m.n + (if first ≠ m.first i then 1 else 0) ≤ maxsize := by omega
    obtain ⟨m₁, i₁, j₁, hleft, h₁, hfirst₁, hn₁, hmap₁, hlast₁⟩ := h.left hsize₀
    have hsize₁ : m₁.n + (if last ≠ m₁.first j₁ then 1 else 0) ≤ maxsize := by
      simp only [hlast₁]
      omega
    obtain ⟨m₂, j₂, hright, h₂, hfirst₂, hlast₂, hn₂, hmap₂⟩ := h₁.right hfirst₁ hsize₁
    obtain ⟨hij, hvalid⟩ := h₂.assign hfirst₂ hlast₂ hn₂
    refine .inr ⟨m₂.assign type i₁ j₂, ?_, hvalid, ?_, fun a ha => ?_⟩
    · simp only [hleft, Option.bind_eq_bind, Option.bind_some, hright, ← hfirst₂, ← hlast₂,
        and_self, guard_true]
      rfl
    · rw [assign_limit hij h₂.j_le, hmap₂.limit, hmap₁.limit]
    · have ha₁ : a < m₁.limit := by rw [hmap₁.limit]; exact ha
      have ha₂ : a < m₂.limit := by rw [hmap₂.limit]; exact ha₁
      rw [assign_typeAt h₂.valid hij h₂.j_le ha₂, ← hfirst₂, ← hlast₂, hmap₂.typeAt a ha₁,
        hmap₁.typeAt a ha]

/-- Moving the boundary `j` to the end of the range. -/
theorem Framed.moved (h : m.Framed first last type i j) (hij : i < j) (hj : j < m.n)
    (hfirst : first = m.first i) :
    Framed { m with r := Function.update m.r j ⟨last, m.type j⟩ } first last type i j ∧
      limit { m with r := Function.update m.r j ⟨last, m.type j⟩ } = m.limit := by
  have hvalid := moved_valid h.valid (by omega) hj h.le_last (h.last_lt hj)
  generalize hm : ({ m with r := Function.update m.r j ⟨last, m.type j⟩ } : MemRangeSet) = m'
    at hvalid ⊢
  have hn : m'.n = m.n := by rw [← hm]
  have hother : ∀ k, k ≠ j → m'.first k = m.first k := by
    intro k hk
    rw [← hm]
    exact congrArg MemRange.addr (Function.update_of_ne hk ..)
  have hself : m'.first j = last := by
    rw [← hm]
    exact congrArg MemRange.addr (Function.update_self j _ m.r)
  have htype : ∀ k, m'.type k = m.type k := by
    intro k
    rw [← hm]
    by_cases hk : k = j
    · subst hk
      have := congrArg MemRange.type (Function.update_self k ⟨last, m.type k⟩ m.r)
      exact this
    · exact congrArg MemRange.type (Function.update_of_ne hk ..)
  have hi : m'.first i = m.first i := hother i (by omega)
  refine ⟨⟨hvalid, h.lt, by omega, h.le_j, by omega, by rw [hi]; exact h.first_le, ?_,
    Nat.le_of_eq hself, ?_, fun hc => by omega, ?_, ?_, ?_, ?_, ?_⟩, ?_⟩
  · by_cases hnext : i + 1 = j
    · rw [hnext, hself]
      exact h.lt
    · rw [hother (i + 1) hnext]
      exact h.first_lt
  · intro _
    rw [hother (j + 1) (by omega)]
    exact h.last_lt hj
  · intro k h₁ h₂
    rw [htype, htype]
    exact h.before k h₁ h₂
  · intro _ hpos
    rw [htype]
    exact h.here hfirst hpos
  · intro hc
    exact absurd (hfirst.trans hi.symm) hc
  · intro _
    rw [htype]
    exact h.behind hj
  · intro k h₁ h₂
    rw [htype, htype]
    exact h.after k h₁ (by omega)
  · unfold limit
    rw [hn, hother m.n (by omega)]

/-- Consolidating the range with the one before keeps every type. -/
theorem consolidate_spec (h : m.Validate maxsize) (hi : i < m.n) (h₁ : m.first i ≤ first)
    (h₂ : first < m.first (i + 1)) :
    ∃ i' first', m.consolidate first type i = (i', first') ∧ i' < m.n ∧ m.first i' ≤ first' ∧
      first' < m.first (i' + 1) ∧ first' ≤ first ∧
      (∀ a, first' ≤ a → a < first → m.typeAt a = some type) ∧
      (first' = m.first i' → 0 < i' → m.type (i' - 1) ≠ type) ∧
      (first' ≠ m.first i' → m.type i' ≠ type) := by
  have hv := h.valid
  unfold consolidate
  by_cases hprev : first = m.first i ∧ i > 0 ∧ m.type (i - 1) = type
  · -- the range before has the type and ends where the new one starts
    obtain ⟨heq, hpos, htype⟩ := hprev
    have hlt : m.first (i - 1) < m.first i := hv.lt (by omega) (Nat.le_of_lt hi)
    have hnext : i - 1 + 1 = i := by omega
    simp only [heq, hpos, htype, and_self, if_true]
    refine ⟨i - 1, m.first (i - 1), rfl, by omega, Nat.le_refl _, hnext.symm ▸ hlt,
      Nat.le_of_lt hlt, ?_, ?_, fun hc => absurd rfl hc⟩
    · intro a ha₁ ha₂
      rw [hv.typeAt_eq (by omega) ha₁ (hnext.symm ▸ ha₂), htype]
    · intro _ hpos'
      rw [← htype]
      exact (h.adjacent (i - 1) hpos' (by omega)).symm
  · rw [if_neg hprev]
    dsimp only
    by_cases htype : m.type i = type
    · rw [if_pos htype]
      refine ⟨i, m.first i, rfl, hi, Nat.le_refl _, hv.lt (Nat.lt_succ_self i) hi, h₁, ?_, ?_,
        fun hc => absurd rfl hc⟩
      · intro a ha₁ ha₂
        rw [hv.typeAt_eq hi ha₁ (by omega), htype]
      · intro _ hpos
        rw [← htype]
        exact (h.adjacent i hpos hi).symm
    · rw [if_neg htype]
      refine ⟨i, first, rfl, hi, h₁, h₂, Nat.le_refl _, fun a ha₁ ha₂ => by omega, ?_,
        fun _ => htype⟩
      intro heq hpos hc
      exact hprev ⟨heq, hpos, hc⟩

/-- The end of the range is merged with the range after, or moved to, or left. -/
theorem extend_spec (h : m.Validate maxsize) (hlt : first < last) (hi : i < m.n)
    (h₁ : m.first i ≤ first) (h₂ : first < m.first (i + 1)) (hij : i ≤ j) (hj : j ≤ m.n)
    (h₃ : m.first j ≤ last) (h₄ : j < m.n → last < m.first (j + 1))
    (h₅ : j = m.n → last = m.first j) (hhere : first = m.first i → 0 < i → m.type (i - 1) ≠ type)
    (hinside : first ≠ m.first i → m.type i ≠ type) :
    ∃ m' j' last', m.extend first last type i j = (m', j', last') ∧
      m'.Framed first last' type i j' ∧ m'.n = m.n ∧ m'.limit = m.limit ∧ last ≤ last' ∧
      (∀ a, last ≤ a → a < last' → m.typeAt a = some type) ∧
      (∀ a < m.limit, ¬ (first ≤ a ∧ a < last') → m'.typeAt a = m.typeAt a) ∧
      (m' = m ∨ first = m'.first i ∧ last' = m'.first j') := by
  have hv := h.valid
  have hprev : first ≠ m.first i → m.type i ≠ type ∧ (0 < i → m.type i ≠ m.type (i - 1)) :=
    fun hc => ⟨hinside hc, fun hpos => h.adjacent i hpos hi⟩
  unfold extend
  by_cases hmerge : j < m.n ∧ m.type j = type
  · obtain ⟨hjn, htype⟩ := hmerge
    rw [if_pos ⟨hjn, htype⟩]
    have hlt' := h₄ hjn
    refine ⟨m, j + 1, m.first (j + 1), rfl, ⟨hv, by omega, hi, by omega, hjn, h₁, h₂, Nat.le_refl _,
      fun hlt => hv.lt (Nat.lt_succ_self _) hlt, fun _ => rfl, fun k hk₁ hk₂ =>
      h.adjacent k hk₁ (by omega), hhere, hprev, ?_, fun k hk₁ hk₂ => h.adjacent k (by omega) hk₂⟩,
      rfl, rfl, Nat.le_of_lt hlt', ?_, fun _ _ _ => rfl, .inl rfl⟩
    · intro hlt
      rw [← htype]
      exact h.adjacent (j + 1) (by omega) hlt
    · intro a ha₁ ha₂
      rw [hv.typeAt_eq hjn (by omega) ha₂, htype]
  · rw [if_neg hmerge]
    have hbehind : j < m.n → m.type j ≠ type := fun hjn hc => hmerge ⟨hjn, hc⟩
    have hframed : m.Framed first last type i j :=
      ⟨hv, hlt, hi, hij, hj, h₁, h₂, h₃, h₄, h₅, fun k hk₁ hk₂ => h.adjacent k hk₁ (by omega),
        hhere, hprev, hbehind, fun k hk₁ hk₂ => h.adjacent k (by omega) hk₂⟩
    by_cases hmove : j > i ∧ first = m.first i
    · obtain ⟨hij', hfirst⟩ := hmove
      rw [if_pos ⟨hij', hfirst⟩]
      rcases Nat.lt_or_eq_of_le hj with hjn | hjn
      · obtain ⟨hframed', hlimit⟩ := hframed.moved hij' hjn hfirst
        refine ⟨_, j, last, rfl, hframed', rfl, hlimit, Nat.le_refl _, fun a ha₁ ha₂ => by omega,
          ?_, .inr ⟨?_, ?_⟩⟩
        · intro a ha hout
          refine moved_typeAt hv (by omega) hjn h₃ (h₄ hjn) ha ?_
          have := hv.le hij hj
          omega
        · rw [hfirst]
          exact congrArg MemRange.addr (Function.update_of_ne (by omega) ..).symm
        · exact congrArg MemRange.addr (Function.update_self j ⟨last, m.type j⟩ m.r).symm
      · -- the range ends at the limit, which is the boundary already
        have hsame : (⟨last, m.type j⟩ : MemRange) = m.r j := by rw [h₅ hjn]; rfl
        rw [hsame, Function.update_eq_self]
        exact ⟨m, j, last, rfl, hframed, rfl, rfl, Nat.le_refl _, fun a ha₁ ha₂ => by omega,
          fun _ _ _ => rfl, .inl rfl⟩
    · rw [if_neg hmove]
      exact ⟨m, j, last, rfl, hframed, rfl, rfl, Nat.le_refl _, fun a ha₁ ha₂ => by omega,
        fun _ _ _ => rfl, .inl rfl⟩

theorem guard_some {p : Prop} [Decidable p] (h : p) : (guard p : Option Unit) = some () := if_pos h

/-- What `set` is for: the types of `[first, last)` are set, or nothing is. -/
structure Sets (maxsize first last : Nat) (type : Int) (m : MemRangeSet) (ok : Bool)
    (m' : MemRangeSet) : Prop where
  types : ∀ a < m.limit, m'.typeAt a =
    if ok = true ∧ first ≤ a ∧ a < last then some type else m.typeAt a
  validate : m'.Validate maxsize
  limit : m'.limit = m.limit

/-- **`set` meets its specification**, and none of its assertions fails. -/
theorem set_spec (h : m.Validate maxsize) (hle : first ≤ last) (hlimit : last ≤ m.limit) :
    ∃ ok m', m.set maxsize first last type = some (ok, m') ∧
      Sets maxsize first last type m ok m' := by
  have hv := h.valid
  by_cases heq : first = last
  · refine ⟨true, m, ?_, ⟨fun a _ => ?_, h, rfl⟩⟩
    · have hg : first ≤ last ∧ last ≤ m.first m.n := ⟨hle, hlimit⟩
      rw [MemRangeSet.set, guard_some hg]
      exact if_pos heq
    · rw [if_neg (by omega)]
  · obtain ⟨i₀, hi₀, h₁, h₂⟩ := hv.cover (show first < m.limit by omega)
    obtain ⟨i, first', hcons, hi, hi₁, hi₂, hle', hbefore, hhere, hinside⟩ :=
      @consolidate_spec maxsize m i₀ first type h hi₀ h₁ h₂
    -- where the range ends
    have hend : ∃ k, k ≤ m.n ∧ m.first k ≤ last ∧ (k < m.n → last < m.first (k + 1)) ∧
        (k = m.n → last = m.first k) := by
      rcases Nat.lt_or_eq_of_le hlimit with hlt | hlt
      · obtain ⟨k, hk, hk₁, hk₂⟩ := hv.cover hlt
        exact ⟨k, Nat.le_of_lt hk, hk₁, fun _ => hk₂, fun hc => by omega⟩
      · exact ⟨m.n, Nat.le_refl _, Nat.le_of_eq hlt.symm, fun hc => by omega, fun _ => hlt⟩
    obtain ⟨j, hj, hj₁, hj₂, hj₃⟩ := hend
    have hij : i ≤ j := by
      by_contra hc
      have := hv.le (show j + 1 ≤ i by omega) (Nat.le_of_lt hi)
      have := hj₂ (by omega)
      omega
    have hskip : m.skip last m.n i = j := hv.skip_eq hij hj hj₁ hj₂ (by omega)
    obtain ⟨m₁, j', last', hext, hframed, hn, hlimit', hle'', hafter, hsame, hmoved⟩ :=
      extend_spec h (show first' < last by omega) hi hi₁ hi₂ hij hj hj₁ hj₂ hj₃ hhere hinside
    have hset : m.set maxsize first last type = m₁.place maxsize first' last' type i j' := by
      rw [MemRangeSet.set, guard_some ⟨hle, hlimit⟩, Option.bind_eq_bind, Option.bind_some,
        if_neg heq, hv.lower_eq (Nat.zero_le _) hi₀ h₁ h₂ (by omega), Option.bind_eq_bind,
        Option.bind_some, guard_some ⟨hi₀, h₁, h₂⟩, Option.bind_some, hcons]
      dsimp only
      rw [hskip, guard_some ⟨hj, hj₁, (Nat.lt_or_eq_of_le hj).symm.imp id hj₂⟩, Option.bind_some,
        hext]
    have hsize : m₁.n ≤ maxsize := hn ▸ h.le
    rcases hframed.place hsize with
      ⟨hplace, hne⟩ | ⟨m', hplace, hvalid, hlim, htypes⟩
    · -- there is no room: the set has not been changed
      have hm₁ : m₁ = m := by
        rcases hmoved with hm | ⟨h₁, h₂⟩
        · exact hm
        · exact absurd hne (by simp [← h₁, ← h₂])
      subst hm₁
      refine ⟨false, m₁, hset.trans hplace, fun a _ => ?_, h, rfl⟩
      rw [if_neg (by simp)]
    · refine ⟨true, m', hset.trans hplace, fun a ha => ?_, hvalid, hlim.trans hlimit'⟩
      rw [htypes a (by rw [hlimit']; exact ha)]
      by_cases hin : first ≤ a ∧ a < last
      · rw [if_pos (by omega), if_pos ⟨rfl, hin⟩]
      · rw [if_neg (fun hc : true = true ∧ first ≤ a ∧ a < last => hin hc.2)]
        by_cases hin' : first' ≤ a ∧ a < last'
        · -- the addresses the range was extended by had the type already
          rw [if_pos hin']
          by_cases hlt : a < first
          · exact (hbefore a hin'.1 hlt).symm
          · exact (hafter a (by omega) hin'.2).symm
        · rw [if_neg hin', hsame a ha hin']

/-! ## Every set -/

/-- The sets `set` calls make of `memrangeset<maxsize>(limit)`. -/
def machine (maxsize limit : Nat) : Transition.Machine MemRangeSet (Nat × Nat × Int) where
  init m := m = ofLimit limit
  step m c := (m.set maxsize c.1 c.2.1 c.2.2).map Prod.snd

theorem ofLimit_validate {limit : Nat} (hmax : 0 < maxsize) (hlimit : 0 < limit) :
    (ofLimit limit).Validate maxsize := by
  refine ⟨Nat.one_pos, hmax, ⟨rfl, fun i hi => ?_⟩, fun i h₁ h₂ => ?_⟩
  · have hi : i < 1 := hi
    obtain rfl : i = 0 := by omega
    exact hlimit
  · have h₂ : i < 1 := h₂
    omega

theorem reach_validate {limit : Nat} (hmax : 0 < maxsize) (hlimit : 0 < limit)
    (hm : (machine maxsize limit).Reach m) : m.Validate maxsize ∧ m.limit = limit := by
  refine hm.invariant (fun m => m.Validate maxsize ∧ m.limit = limit) ?_ ?_
  · rintro _ rfl
    exact ⟨ofLimit_validate hmax hlimit, rfl⟩
  · rintro m ⟨first, last, type⟩ m' ⟨hvalid, hlim⟩ hstep
    obtain ⟨⟨ok, m''⟩, hset, rfl⟩ := Option.map_eq_some_iff.mp hstep
    -- a call that returns has met the first assertion
    have hargs : first ≤ last ∧ last ≤ m.limit := by
      by_contra hc
      have hnone : m.set maxsize first last type = none := by
        have hg : (guard (first ≤ last ∧ last ≤ m.first m.n) : Option Unit) = none := if_neg hc
        rw [MemRangeSet.set, hg]
        rfl
      rw [hnone] at hset
      cases hset
    obtain ⟨ok', m₁, hset', hsets⟩ := set_spec hvalid hargs.1 hargs.2
    rw [hset'] at hset
    cases hset
    exact ⟨hsets.validate, hsets.limit.trans hlim⟩

theorem Validate.typeAt_isSome (h : m.Validate maxsize) (ha : a < m.limit) :
    (m.typeAt a).isSome := by
  obtain ⟨i, hi, h₁, h₂⟩ := h.valid.cover ha
  rw [h.valid.typeAt_eq hi h₁ h₂]
  rfl

/-- **A `memrangeset` is a map from addresses to types.**  In every set made by `set`
calls, every address below the limit has a type; a further call returns, sets the types
of its range or none at all, and leaves a valid set with the same limit. -/
theorem set_refines_map {limit : Nat} (hmax : 0 < maxsize) (hlimit : 0 < limit)
    (hm : (machine maxsize limit).Reach m) (hle : first ≤ last) (hlast : last ≤ m.limit) :
    (∀ a < m.limit, (m.typeAt a).isSome) ∧
      ∃ ok m', m.set maxsize first last type = some (ok, m') ∧
        Sets maxsize first last type m ok m' := by
  obtain ⟨hvalid, -⟩ := reach_validate hmax hlimit hm
  exact ⟨fun a ha => hvalid.typeAt_isSome ha, set_spec hvalid hle hlast⟩

/-- The first call of `init_physical_ranges`. -/
theorem set_refines_map_physical :
    ∃ ok m', (ofLimit 0x100000000).set 16 0 memsizePhysical memAvailable =
    some (ok, m') ∧ Sets 16 0 memsizePhysical memAvailable (ofLimit 0x100000000) ok m' :=
  (set_refines_map (by decide) (by decide) (Transition.Machine.Reach.init rfl) (by decide)
    (by decide)).2

/-- Over no addresses there is no valid set. -/
theorem empty_set_invalid :
    ¬ ∀ (maxsize limit : Nat) (m : MemRangeSet) (first last : Nat) (type : Int),
    (machine maxsize limit).Reach m → first ≤ last → last ≤ m.limit →
      ∃ ok m', m.set maxsize first last type = some (ok, m') ∧
        Sets maxsize first last type m ok m' := by
  intro h
  obtain ⟨ok, m', hset, hsets⟩ := h 1 0 (ofLimit 0) 0 0 1 (Transition.Machine.Reach.init rfl)
    (Nat.le_refl 0) (Nat.le_refl 0)
  cases hset
  exact absurd (hsets.validate.valid.first_lt_last 0 Nat.one_pos) (by decide)

end PugOS.MemRangeSet
