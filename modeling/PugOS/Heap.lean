import Mathlib.Algebra.BigOperators.Group.Finset.Basic
import Mathlib.Algebra.GroupWithZero.Nat
import Mathlib.Algebra.Order.BigOperators.Group.Finset
import Mathlib.Data.Finset.Basic
import Mathlib.Logic.Function.Basic

/-! # Objects at addresses

A heap holds finitely many objects, each at an address.  `Heap.sum` adds a weight over
the objects that are there, and says what it is after an object is put at an address,
changed or taken away: with the weight one or zero, it counts the objects that have a
property.
-/

/-- Finitely many objects at addresses. -/
structure Heap (α : Type) where
  get : Nat → Option α
  dom : Finset Nat
  mem_dom : ∀ a, a ∈ dom ↔ get a ≠ none

namespace Heap
variable {α : Type} {h : Heap α} {a b : Nat} {x y : α} {w w' : α → Nat}

def empty : Heap α := ⟨fun _ => none, ∅, fun _ => by simp⟩

/-- Put `x` at address `a`. -/
def set (h : Heap α) (a : Nat) (x : α) : Heap α where
  get := Function.update h.get a (some x)
  dom := insert a h.dom
  mem_dom b := by
    rw [Finset.mem_insert, h.mem_dom]
    by_cases hb : b = a
    · subst hb
      simp
    · simp [hb]

/-- Take the object at address `a` away. -/
def erase (h : Heap α) (a : Nat) : Heap α where
  get := Function.update h.get a none
  dom := h.dom.erase a
  mem_dom b := by
    rw [Finset.mem_erase, h.mem_dom]
    by_cases hb : b = a
    · subst hb
      simp
    · simp [hb]

/-- The weight of the objects that are there. -/
def sum (h : Heap α) (w : α → Nat) : Nat := ∑ a ∈ h.dom, (h.get a).elim 0 w

/-- One reference to `a`, where `b` is `a`. -/
def one (a b : Nat) : Nat := if b = a then 1 else 0

@[simp] theorem one_self (a : Nat) : one a a = 1 := if_pos rfl

theorem one_ne (h : b ≠ a) : one a b = 0 := if_neg h

theorem one_le {n : Nat → Nat} (hpos : 0 < n a) (b : Nat) : one b a ≤ n b := by
  by_cases hb : a = b
  · rw [← hb, one_self]
    exact hpos
  · rw [one_ne hb]
    exact Nat.zero_le _

@[simp] theorem get_empty (a : Nat) : (empty : Heap α).get a = none := rfl

@[simp] theorem get_set_self : (h.set a x).get a = some x := Function.update_self ..

@[simp] theorem get_set_ne (hb : b ≠ a) : (h.set a x).get b = h.get b := Function.update_of_ne hb ..

@[simp] theorem get_erase_self : (h.erase a).get a = none := Function.update_self ..

@[simp] theorem get_erase_ne (hb : b ≠ a) : (h.erase a).get b = h.get b :=
  Function.update_of_ne hb ..

theorem ext_get {h h' : Heap α} (hget : ∀ a, h.get a = h'.get a) : h = h' := by
  obtain ⟨g, d, hd⟩ := h
  obtain ⟨g', d', hd'⟩ := h'
  obtain rfl : g = g' := funext hget
  have hdom : d = d' := Finset.ext fun a => by rw [hd, hd']
  subst hdom
  rfl

theorem erase_set (ha : h.get a = none) : (h.set a x).erase a = h := by
  apply ext_get
  intro b
  by_cases hb : b = a
  · rw [hb, get_erase_self, ha]
  · rw [get_erase_ne hb, get_set_ne hb]

theorem erase_none (ha : h.get a = none) : h.erase a = h := by
  refine ext_get fun b => ?_
  by_cases hb : b = a
  · rw [hb, get_erase_self, ha]
  · rw [get_erase_ne hb]

@[simp] theorem sum_empty (w : α → Nat) : (empty : Heap α).sum w = 0 := rfl

/-- The weight is that of one object and of the rest. -/
theorem sum_split (ha : h.get a = some x) : h.sum w = w x + ∑ b ∈ h.dom.erase a,
    (h.get b).elim 0 w := by
  have hmem : a ∈ h.dom := (h.mem_dom a).mpr (by simp [ha])
  unfold sum
  rw [← Finset.add_sum_erase _ _ hmem, ha]
  rfl

theorem sum_set_fresh (ha : h.get a = none) : (h.set a x).sum w = w x + h.sum w := by
  have hmem : a ∉ h.dom := fun hc => (h.mem_dom a).mp hc ha
  have hrest : (h.set a x).dom.erase a = h.dom := Finset.erase_insert hmem
  rw [sum_split get_set_self, hrest]
  congr 1
  refine Finset.sum_congr rfl fun b hb => ?_
  have hne : b ≠ a := by
    rintro rfl
    exact hmem hb
  rw [get_set_ne hne]

theorem sum_erase (ha : h.get a = some x) : (h.erase a).sum w + w x = h.sum w := by
  rw [sum_split ha, Nat.add_comm]
  congr 1
  refine Finset.sum_congr rfl fun b hb => ?_
  rw [get_erase_ne (Finset.ne_of_mem_erase hb)]

theorem sum_set (ha : h.get a = some y) : (h.set a x).sum w + w y = h.sum w + w x := by
  have hrest : (h.set a x).dom.erase a = h.dom.erase a := Finset.erase_insert_eq_erase ..
  have hsum : ∑ b ∈ (h.set a x).dom.erase a, ((h.set a x).get b).elim 0 w =
      ∑ b ∈ h.dom.erase a, (h.get b).elim 0 w := by
    rw [hrest]
    refine Finset.sum_congr rfl fun b hb => ?_
    rw [get_set_ne (Finset.ne_of_mem_erase hb)]
  rw [sum_split ha, sum_split get_set_self, hsum]
  omega

theorem le_sum (ha : h.get a = some x) : w x ≤ h.sum w := by
  rw [sum_split ha]
  exact Nat.le_add_right _ _

theorem sum_eq_zero : h.sum w = 0 ↔ ∀ a x, h.get a = some x → w x = 0 := by
  constructor
  · intro hz a x ha
    have := le_sum (w := w) ha
    omega
  · intro hall
    refine Finset.sum_eq_zero fun a ha => ?_
    obtain ⟨x, hx⟩ := Option.ne_none_iff_exists'.mp ((h.mem_dom a).mp ha)
    rw [hx]
    exact hall a x hx

theorem sum_mono (hw : ∀ x, w x ≤ w' x) : h.sum w ≤ h.sum w' := by
  refine Finset.sum_le_sum fun a _ => ?_
  cases h.get a with
  | none => exact Nat.le_refl _
  | some x => exact hw x

/-- Where the weight is positive there is an object that has some of it. -/
theorem exists_of_sum_pos (hpos : 0 < h.sum w) : ∃ a x, h.get a = some x ∧ 0 < w x := by
  by_contra hc
  push Not at hc
  have hz : h.sum w = 0 := sum_eq_zero.mpr fun a x ha => by
    have := hc a x ha
    omega
  omega

/-- The weight, added up along a list of addresses that has every object once. -/
theorem sum_eq_list {l : List Nat} (hl : l.Nodup) (hmem : ∀ a, h.get a ≠ none → a ∈ l) :
    h.sum w = (l.map fun a => (h.get a).elim 0 w).sum := by
  rw [← List.sum_toFinset _ hl]
  refine Finset.sum_subset (fun a ha => List.mem_toFinset.mpr (hmem a ((h.mem_dom a).mp ha))) ?_
  intro a _ ha
  have hnone : h.get a = none := by
    by_contra hc
    exact ha ((h.mem_dom a).mpr hc)
  rw [hnone]
  rfl

/-- Every object that is there counts the references `n` to its address, and an address
nothing is at has none. -/
structure Counted (refs : α → Int) (h : Heap α) (n : Nat → Nat) : Prop where
  refs_eq : ∀ a x, h.get a = some x → refs x = n a
  pos : ∀ a x, h.get a = some x → 0 < n a
  dead : ∀ a, h.get a = none → n a = 0

namespace Counted
variable {refs : α → Int} {n n' : Nat → Nat}

theorem empty : Counted refs (Heap.empty : Heap α) fun _ => 0 where
  refs_eq := nofun
  pos := nofun
  dead := fun _ _ => rfl

theorem live (hc : Counted refs h n) (hpos : 0 < n a) : ∃ x, h.get a = some x := by
  cases hx : h.get a with
  | some x => exact ⟨x, rfl⟩
  | none =>
    have := hc.dead a hx
    omega

theorem congr (hc : Counted refs h n) (hn : ∀ b, n' b = n b) : Counted refs h n' := by
  obtain rfl : n' = n := funext hn
  exact hc

/-- An object changes together with the number of its references. -/
theorem set (hc : Counted refs h n) (hx : refs x = n' a) (hpos : 0 < n' a)
    (hrest : ∀ b, b ≠ a → n' b = n b) : Counted refs (h.set a x) n' where
  refs_eq b y hy := by
    by_cases hb : b = a
    · subst hb
      rw [get_set_self, Option.some.injEq] at hy
      rw [← hy, hx]
    · rw [get_set_ne hb] at hy
      rw [hrest b hb, hc.refs_eq b y hy]
  pos b y hy := by
    by_cases hb : b = a
    · exact hb ▸ hpos
    · rw [get_set_ne hb] at hy
      rw [hrest b hb]
      exact hc.pos b y hy
  dead b hd := by
    by_cases hb : b = a
    · subst hb
      rw [get_set_self] at hd
      cases hd
    · rw [get_set_ne hb] at hd
      rw [hrest b hb, hc.dead b hd]

/-- An object goes away together with its last reference. -/
theorem erase (hc : Counted refs h n) (hz : n' a = 0) (hrest : ∀ b, b ≠ a → n' b = n b) :
    Counted refs (h.erase a) n' where
  refs_eq b y hy := by
    by_cases hb : b = a
    · subst hb
      rw [get_erase_self] at hy
      cases hy
    · rw [get_erase_ne hb] at hy
      rw [hrest b hb, hc.refs_eq b y hy]
  pos b y hy := by
    by_cases hb : b = a
    · subst hb
      rw [get_erase_self] at hy
      cases hy
    · rw [get_erase_ne hb] at hy
      rw [hrest b hb]
      exact hc.pos b y hy
  dead b hd := by
    by_cases hb : b = a
    · exact hb ▸ hz
    · rw [get_erase_ne hb] at hd
      rw [hrest b hb, hc.dead b hd]

end Counted
end Heap
