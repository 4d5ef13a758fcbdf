import Mathlib.Data.Nat.Bits
import Mathlib.Tactic.IntervalCases

/-! # Page tables and `vmiter`

The pages of a page table are found by their physical address.  `vmiter` walks down from the level 4
page for an address it is moved to, or from the page it is in if the address is in that page's
range.  Where it stops does not depend on which (`find_eq`), so an iterator is always where a walk
from the level 4 page ends (`history_independent`).
-/
namespace PugOS.PageTable

/-- The low twelve bits of an entry, or of `perm_`. -/
abbrev Perm := BitVec 12

/-- The flags of an entry. -/
def pteP : Perm := 1#12
def pteW : Perm := 2#12
def pteU : Perm := 4#12
def ptePS : Perm := 0x80#12

/-- `PTE_P | PTE_W | PTE_U`. -/
def ptePWU : Perm := 7#12

/-- `initial_perm`. -/
def initialPerm : Perm := 0xFFF#12

/-- `PAGESIZE`. -/
def pageSize : Nat := 4096

/-- One past `PTE_PAMASK`. -/
def paEnd : Nat := 2 ^ 51

/-- `x86_64_pageentry_t`: the bits of `PTE_PAMASK`, and the flags below them.  Nothing reads the
bits above. -/
structure Entry where
  pa : Nat
  flags : Perm
  deriving DecidableEq

namespace Entry

/-- The entry that is not present. -/
def zero : Entry := ⟨0, 0#12⟩

/-- `*pep_ & PTE_P`. -/
def present (e : Entry) : Bool := e.flags &&& pteP ≠ 0#12

/-- The page that an entry above the lowest level points to. -/
def next (e : Entry) : Option Nat := if e.flags &&& (pteP ||| ptePS) = pteP then some e.pa else none

end Entry

/-- The entries in the pages of memory that are page tables. -/
abbrev Tables := Nat → Nat → Entry

/-- `pageoffmask(level) + 1`, the size of what an entry of a page at this level is for. -/
def span (level : Nat) : Nat := 2 ^ (12 + 9 * level)

/-- `pageindex`. -/
def pageindex (va level : Nat) : Nat := va / span level % 512

/-- `level_`, `pep_`, which is an entry of a page, and `perm_`. -/
structure Place where
  level : Nat
  page : Nat
  index : Nat
  perm : Perm
  deriving DecidableEq

/-- `down`, from entry `index` of a page. -/
def down (t : Tables) (va : Nat) : (level page index : Nat) → Perm → Place
  | 0, page, index, perm => ⟨0, page, index, perm⟩
  | level + 1, page, index, perm =>
    match (t page index).next with
    | some pa => down t va level pa (pageindex va level) (perm &&& (t page index).flags)
    | none => ⟨level + 1, page, index, perm⟩

/-- Where a walk from the level 4 page ends. -/
def locate (t : Tables) (pt va : Nat) : Place := down t va 3 pt (pageindex va 3) initialPerm

/-- `uintptr_t` arithmetic. -/
def wrap64 (va : Int) : Nat := (va % 2 ^ 64).toNat

theorem wrap64_eq {n : Nat} (h : n < 2 ^ 64) : wrap64 n = n := by
  unfold wrap64
  omega

/-- A `vmiter`. -/
structure Vmiter where
  pt : Nat
  va : Nat
  place : Place
  deriving DecidableEq

namespace Vmiter
variable (t : Tables)

/-- `*pep_`. -/
def entry (it : Vmiter) : Entry := t it.place.page it.place.index

/-- `real_find(va)`. -/
def find (it : Vmiter) (va : Nat) : Vmiter :=
  let p := it.place
  let p : Place :=
    if it.va / span (p.level + 1) ≠ va / span (p.level + 1) then ⟨3, it.pt, pageindex va 3,
      initialPerm⟩
    else { p with index := p.index + pageindex va p.level - p.index }
  { it with va := va, place := down t va p.level p.page p.index p.perm }

/-- `vmiter(pt, va)`. -/
def mk' (pt va : Nat) : Vmiter := find t ⟨pt, 0, ⟨3, pt, 0, initialPerm⟩⟩ va

/-- `last_va()`. -/
def lastVa (it : Vmiter) : Nat := wrap64 ((it.va / span it.place.level + 1) * span it.place.level)

/-- `present()`. -/
def present (it : Vmiter) : Bool := (it.entry t).present

/-- `pa()`, `none` for -1. -/
def pa (it : Vmiter) : Option Nat :=
  let e := it.entry t
  if e.present then
    -- the lowest bit of a large page's address is another flag
    some ((if it.place.level > 0 then e.pa - e.pa % 8192 else e.pa) + it.va % span it.place.level)
  else none

/-- `perm()`. -/
def perm (it : Vmiter) : Perm :=
  if (it.entry t).present then (it.entry t).flags &&& it.place.perm else 0#12

/-- `perm(p)`. -/
def permits (it : Vmiter) (p : Perm) : Bool := (it.entry t).flags &&& it.place.perm &&& p = p

/-- `next()`. -/
def next (it : Vmiter) : Vmiter :=
  let level := if it.place.level > 0 ∧ it.perm t = 0#12 then it.place.level else 0
  it.find t (wrap64 ((it.va / span level + 1) * span level))

/-- `step()`. -/
def step (it : Vmiter) : Vmiter := it.find t it.lastVa

/-- `it += delta`. -/
def add (it : Vmiter) (delta : Int) : Vmiter := it.find t (wrap64 (it.va + delta))

/-- `it -= delta`. -/
def sub (it : Vmiter) (delta : Int) : Vmiter := it.find t (wrap64 (it.va - delta))

end Vmiter

/-! ## Walks -/

section Walk
variable {t t' : Tables} {pt va va' level level' page index : Nat} {perm : Perm}

theorem span_pos (level : Nat) : 0 < span level := Nat.two_pow_pos _

theorem span_succ (level : Nat) : span (level + 1) = span level * 512 := by
  unfold span
  rw [Nat.mul_succ, ← Nat.add_assoc, Nat.pow_add]

theorem div_span_succ (va level : Nat) : va / span (level + 1) = va / span level / 512 := by
  rw [span_succ, Nat.div_div_eq_div_mul]

theorem div_span_mono (h : va / span level = va' / span level) (hle : level ≤ level') :
    va / span level' = va' / span level' := by
  induction level', hle using Nat.le_induction with
  | base => exact h
  | succ level' _ ih => rw [div_span_succ, div_span_succ, ih]

theorem pageindex_congr (h : va / span level = va' / span level) :
    pageindex va level = pageindex va' level := by
  unfold pageindex
  rw [h]

/-- Addresses with one index in one page's range are in one entry's range. -/
theorem div_span_of_index {x : Nat} (h : x / span (level + 1) = va / span (level + 1))
    (hindex : pageindex x level = pageindex va level) : x / span level = va / span level := by
  rw [div_span_succ, div_span_succ] at h
  unfold pageindex at hindex
  rw [← Nat.div_add_mod (x / span level) 512, ← Nat.div_add_mod (va / span level) 512, h, hindex]

theorem down_next {pa : Nat} (h : (t page index).next = some pa) :
    down t va (level + 1) page index perm = down t va level pa (pageindex va level)
      (perm &&& (t page index).flags) := by
  rw [down, h]

theorem down_stop (h : (t page index).next = none) :
    down t va (level + 1) page index perm = ⟨level + 1, page, index, perm⟩ := by
  rw [down, h]

theorem down_level_le :
    ∀ (level page index : Nat) (perm : Perm), (down t va level page index perm).level ≤ level := by
  intro level
  induction level with
  | zero => exact fun _ _ _ => Nat.le_refl 0
  | succ level ih =>
    intro page index perm
    cases hnext : (t page index).next with
    | none => rw [down_stop hnext]
    | some pa =>
      rw [down_next hnext]
      exact Nat.le_succ_of_le (ih _ _ _)

/-- The entry is the one for the address. -/
theorem down_index :
    ∀ {level page : Nat} {perm : Perm}, (down t va level page (pageindex va level) perm).index =
    pageindex va (down t va level page (pageindex va level) perm).level := by
  intro level
  induction level with
  | zero => exact fun {_ _} => rfl
  | succ level ih =>
    intro page perm
    cases hnext : (t page (pageindex va (level + 1))).next with
    | none => rw [down_stop hnext]
    | some pa =>
      rw [down_next hnext]
      exact ih

/-- A walk to another address in the range of the page where a walk has ended goes on from there. -/
theorem down_down : ∀ {level page : Nat} {perm : Perm} {p : Place}, down t va level page
    (pageindex va level) perm = p → va / span (p.level + 1) = va' / span (p.level + 1) →
    down t va' p.level p.page (pageindex va' p.level) p.perm = down t va' level page
    (pageindex va' level) perm := by
  intro level
  induction level with
  | zero =>
    rintro page perm p rfl -
    rfl
  | succ level ih =>
    intro page perm p hp h
    cases hnext : (t page (pageindex va (level + 1))).next with
    | none =>
      rw [down_stop hnext] at hp
      subst hp
      rfl
    | some pa =>
      rw [down_next hnext] at hp
      have hle : p.level ≤ level := hp ▸ down_level_le level pa _ _
      have hindex : pageindex va (level + 1) = pageindex va' (level + 1) :=
        pageindex_congr (div_span_mono h (Nat.succ_le_succ hle))
      rw [ih hp h, hindex]
      rw [hindex] at hnext
      exact (down_next hnext).symm

theorem locate_level_le (t : Tables) (pt va : Nat) : (locate t pt va).level ≤ 3 :=
  down_level_le 3 pt _ _

@[simp] theorem locate_index (t : Tables) (pt va : Nat) :
    (locate t pt va).index = pageindex va (locate t pt va).level :=
  down_index

/-! ## The iterator's history -/

/-- The iterator is where a walk from the level 4 page ends. -/
def Vmiter.Fresh (t : Tables) (it : Vmiter) : Prop := it.place = locate t it.pt it.va

theorem mk'_eq (t : Tables) (pt va : Nat) : Vmiter.mk' t pt va = ⟨pt, va, locate t pt va⟩ := by
  unfold Vmiter.mk' Vmiter.find locate
  refine congrArg (Vmiter.mk pt va) ?_
  dsimp only
  split
  · rfl
  · rw [Nat.zero_add, Nat.sub_zero]

/-- **`find` does not depend on where the iterator has been.** -/
theorem find_eq {it : Vmiter} (h : it.Fresh t) (va : Nat) :
    it.find t va = ⟨it.pt, va, locate t it.pt va⟩ := by
  unfold Vmiter.Fresh at h
  unfold Vmiter.find
  refine congrArg (Vmiter.mk it.pt va) ?_
  split
  · rfl
  · rename_i hsame
    rw [Decidable.not_not] at hsame
    rw [Nat.add_sub_cancel_left]
    exact down_down (p := it.place) h.symm hsame

/-- The ways to move an iterator. -/
inductive Move
  | find (va : Nat)
  | add (delta : Int)
  | sub (delta : Int)
  | next
  | step

/-- A move of the iterator. -/
def Move.apply (t : Tables) (it : Vmiter) : Move → Vmiter
  | .find va => it.find t va
  | .add delta => it.add t delta
  | .sub delta => it.sub t delta
  | .next => it.next t
  | .step => it.step t

/-- However it is moved, the iterator is found again. -/
theorem Move.apply_eq {it : Vmiter} (h : it.Fresh t) (m : Move) :
    ∃ va, m.apply t it = ⟨it.pt, va, locate t it.pt va⟩ := by
  cases m with
  | find va => exact ⟨va, find_eq h va⟩
  | add delta => exact ⟨_, find_eq h _⟩
  | sub delta => exact ⟨_, find_eq h _⟩
  | next => exact ⟨_, find_eq h _⟩
  | step => exact ⟨_, find_eq h _⟩

theorem foldl_apply_eq (t : Tables) (moves : List Move) : ∀ {it : Vmiter}, it.Fresh t →
    (moves.foldl (Move.apply t) it).pt = it.pt ∧ (moves.foldl (Move.apply t) it).Fresh t := by
  induction moves with
  | nil => exact fun h => ⟨rfl, h⟩
  | cons m moves ih =>
    intro it h
    obtain ⟨va, hm⟩ := m.apply_eq h
    rw [List.foldl_cons, hm]
    exact ih rfl

/-- **After any moves the iterator is the one that `vmiter(pt, va())` makes**, at the place where a
walk from the level 4 page ends. -/
theorem history_independent (t : Tables) (pt va : Nat) (moves : List Move) :
    let it := moves.foldl (Move.apply t) (Vmiter.mk' t pt va)
    it = Vmiter.mk' t pt it.va ∧ it.place = locate t pt it.va := by
  intro it
  have hfresh : (Vmiter.mk' t pt va).Fresh t := by
    rw [mk'_eq]
    rfl
  obtain ⟨hpt, hplace⟩ := foldl_apply_eq t moves hfresh
  have hpt : it.pt = pt := by
    rw [hpt, mk'_eq]
  have hplace : it.place = locate t pt it.va := by
    rw [← hpt]
    exact hplace
  refine ⟨?_, hplace⟩
  rw [mk'_eq, ← hplace, ← hpt]

end Walk
end PugOS.PageTable
