import Mathlib.Algebra.Order.Group.Nat

/-! # Physical memory ranges

`memrangeset` (`k-memrange.hh`) keeps an array of boundaries: range `i` goes from
`r_[i].addr_` to `r_[i + 1].addr_` and has type `r_[i].type_`; the boundary after
the last range is `limit()`.  The kernel's only set is `physical_ranges`, over
`[0, 0x100000000)`.
-/
namespace PugOS

/-- `PAGESIZE`. -/
def pageSize : Nat := 2 ^ 12

/-- `MEMSIZE_PHYSICAL`. -/
def memsizePhysical : Nat := 30 * 1024 * 1024

/-- `mem_available`, one of the `memtype_t` constants a range's `int` type takes. -/
def memAvailable : Int := 1

/-- `class memrange`: a boundary and the type of the range that starts there. -/
structure MemRange where
  addr : Nat
  type : Int

/-- `class memrangeset`: the ranges `r 0, …, r (n - 1)`, and the limit at `r n`. -/
structure MemRangeSet where
  n : Nat
  r : Nat → MemRange

namespace MemRangeSet
variable (m : MemRangeSet)

/-- `memrange::first`, of range `i`. -/
def first (i : Nat) : Nat := (m.r i).addr

/-- `memrange::last`, of range `i`. -/
def last (i : Nat) : Nat := (m.r (i + 1)).addr

/-- `memrange::type`, of range `i`. -/
def type (i : Nat) : Int := (m.r i).type

/-- `memrangeset::limit`. -/
def limit : Nat := m.first m.n

/-- What every `memrangeset` keeps of `memrangeset::validate`: it starts at `0` and
its boundaries strictly increase. -/
structure Valid : Prop where
  first_zero : m.first 0 = 0
  first_lt_last : ∀ i < m.n, m.first i < m.last i

/-- Address `a` lies in a range of type `mem_available`. -/
def Available (a : Nat) : Prop :=
  ∃ i < m.n, m.type i = memAvailable ∧ m.first i ≤ a ∧ a < m.last i

/-- Some range begins in physical memory and ends past it. -/
def Crosses : Prop := ∃ i < m.n, m.first i < memsizePhysical ∧ memsizePhysical < m.last i

variable {m}

theorem Valid.last_le_first (h : m.Valid) {i j : Nat} (hij : i < j) (hj : j ≤ m.n) :
    m.last i ≤ m.first j := by
  obtain ⟨d, rfl⟩ := Nat.exists_eq_add_of_lt hij
  clear hij
  induction d with
  | zero => exact Nat.le_refl _
  | succ d ih =>
    have hlt := h.first_lt_last (i + d + 1) (by omega)
    exact (ih (by omega)).trans hlt.le

/-- Inside range `i`, availability is the type of range `i`. -/
theorem Valid.available_iff (h : m.Valid) {i a : Nat} (hi : i < m.n) (h1 : m.first i ≤ a)
    (h2 : a < m.last i) : m.Available a ↔ m.type i = memAvailable := by
  constructor
  · rintro ⟨j, hj, ht, hj1, hj2⟩
    rcases Nat.lt_trichotomy i j with hlt | rfl | hlt
    · have := h.last_le_first hlt hj.le
      omega
    · exact ht
    · have := h.last_le_first hlt hi.le
      omega
  · intro ht
    exact ⟨i, hi, ht, h1, h2⟩

/-- With a boundary at the end of physical memory no range crosses it. -/
theorem Valid.not_crosses (hm : m.Valid) (h : ∃ i < m.n, m.last i = memsizePhysical) :
    ¬ m.Crosses := by
  rintro ⟨j, hj, hfirst, hlast⟩
  obtain ⟨i, hi, he⟩ := h
  rcases Nat.lt_trichotomy i j with hlt | rfl | hlt
  · have := hm.last_le_first hlt hj.le
    omega
  · omega
  · have := hm.last_le_first hlt hi.le
    have := hm.first_lt_last i hi
    omega

end MemRangeSet

/-- `physical_ranges`: a valid set over `[0, 0x100000000)` whose available ranges are
made of whole pages of physical memory. -/
structure PhysicalRanges extends MemRangeSet where
  valid : toMemRangeSet.Valid
  limit_eq : toMemRangeSet.limit = 0x100000000
  available_pages : ∀ i < n, toMemRangeSet.type i = memAvailable →
    pageSize ∣ toMemRangeSet.first i ∧ pageSize ∣ toMemRangeSet.last i ∧
      toMemRangeSet.last i ≤ memsizePhysical

end PugOS
