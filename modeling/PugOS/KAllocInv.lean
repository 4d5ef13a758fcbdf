import Mathlib.Data.Set.Insert
import Mathlib.Data.List.Nodup
import Mathlib.Tactic.Ring
import PugOS.KAlloc
import PugOS.Transition

/-! # The buddy allocator's invariant

Three layers describe an allocator state.  `Blocks` is the geometry: heads have a
legal order and alignment and no two blocks overlap.  `Lists` ties the free lists
to the page array, except for a set of heads that are in the middle of an
operation.  `Covered` says which pages belong to free blocks and to blocks handed
out.  Every statement of `kalloc` and `kfree` is one of a few moves on these
layers: a page gets a new `pagestate` (`Blocks.setPage`), is cleared
(`Blocks.clear`), or is linked or unlinked (`Lists.pushBack`, `Lists.remove`).
-/
namespace PugOS.KAlloc
open Transition

namespace State

/-- Page `p` is the head of a block. -/
def Head (s : State) (p : Nat) : Prop := (s.pages p).order ≠ 0

instance (s : State) (p : Nat) : Decidable (s.Head p) :=
  inferInstanceAs (Decidable ((s.pages p).order ≠ 0))

/-- The number of pages of the block headed by `p`. -/
def size (s : State) (p : Nat) : Nat := 2 ^ ((s.pages p).order - minOrder)

/-- Page `p` heads a block that is not allocated. -/
def FreeHead (s : State) (p : Nat) : Prop := s.Head p ∧ (s.pages p).allocated = false

/-- Page `x` lies in the block headed by `p`, which is free or handed out. -/
def Owns (s : State) (live : List Nat) (p x : Nat) : Prop :=
  s.Head p ∧ p ≤ x ∧ x < p + s.size p ∧
    ((s.pages p).allocated = false ∨ p * pageSize ∈ live)

/-- Page `x` lies in a block that is free or handed out. -/
def Covered (s : State) (live : List Nat) (x : Nat) : Prop := ∃ p, s.Owns live p x

@[simp] theorem setPage_pages_same (s : State) (p : Nat) (g : PageState) :
    (s.setPage p g).pages p = g := Function.update_self ..

theorem storePage_of_lt (s : State) {p : Nat} (g : PageState) (h : p < npages) :
    s.storePage p g = some (s.setPage p g) := if_pos h

theorem storePage_eq {s t : State} {p : Nat} {g : PageState} (h : s.storePage p g = some t) :
    t = s.setPage p g := by
  unfold storePage at h
  split at h
  · exact (Option.some.inj h).symm
  · cases h

theorem setPage_pages_ne (s : State) {p q : Nat} (g : PageState) (h : q ≠ p) :
    (s.setPage p g).pages q = s.pages q := Function.update_of_ne h ..

@[simp] theorem setPage_freeBlocks (s : State) (p : Nat) (g : PageState) :
    (s.setPage p g).freeBlocks = s.freeBlocks := rfl

@[simp] theorem setFree_pages (s : State) (k : Nat) (l : List Nat) :
    (s.setFree k l).pages = s.pages := rfl

@[simp] theorem setFree_freeBlocks_same (s : State) (k : Nat) (l : List Nat) :
    (s.setFree k l).freeBlocks k = l := Function.update_self ..

theorem setFree_freeBlocks_ne (s : State) {k j : Nat} (l : List Nat) (h : j ≠ k) :
    (s.setFree k l).freeBlocks j = s.freeBlocks j := Function.update_of_ne h ..

theorem size_pos (s : State) (p : Nat) : 0 < s.size p := Nat.two_pow_pos _

/-- Free blocks lie in the pages there are. -/
def FreeInside (s : State) : Prop := ∀ x, s.Covered [] x → x < npages

end State

open State

/-! ## Geometry -/

/-- Every head is in the array and has a legal order, its own index and an aligned
position, blocks do not overlap, and a page that heads no block is cleared.  A block
that is never free may reach past the array. -/
structure Blocks (s : State) : Prop where
  cleared : ∀ p, ¬ s.Head p → s.pages p = PageState.zero
  inside : ∀ p, s.Head p → p < npages
  order_ge : ∀ p, s.Head p → minOrder ≤ (s.pages p).order
  order_le : ∀ p, s.Head p → (s.pages p).order ≤ maxOrder
  pindex_eq : ∀ p, s.Head p → (s.pages p).pindex = p
  aligned : ∀ p, s.Head p → s.size p ∣ p
  apart : ∀ p q, s.Head p → s.Head q → p < q → p + s.size p ≤ q

theorem Blocks.congr {s t : State} (h : Blocks s) (he : t.pages = s.pages) : Blocks t := by
  have hh : ∀ p, t.Head p ↔ s.Head p := fun p => by simp [Head, he]
  have hz : ∀ p, t.size p = s.size p := fun p => by simp [size, he]
  constructor <;> intro p
  · rw [hh, he]; exact h.cleared p
  · rw [hh]; exact h.inside p
  · rw [hh, he]; exact h.order_ge p
  · rw [hh, he]; exact h.order_le p
  · rw [hh, he]; exact h.pindex_eq p
  · rw [hh, hz]; exact h.aligned p
  · intro q; rw [hh, hh, hz]; exact h.apart p q

/-- **Writing one page state.**  The new block must be legal and disjoint from every
other block. -/
theorem Blocks.setPage {s : State} (h : Blocks s) {p : Nat} {g : PageState}
    (hin : p < npages) (hge : minOrder ≤ g.order) (hle : g.order ≤ maxOrder) (hp : g.pindex = p)
    (ha : 2 ^ (g.order - minOrder) ∣ p)
    (hd : ∀ q, q ≠ p → s.Head q → (q < p → q + s.size q ≤ p) ∧
      (p < q → p + 2 ^ (g.order - minOrder) ≤ q)) :
    Blocks (s.setPage p g) := by
  have hne : ∀ q, q ≠ p → ((s.setPage p g).Head q ↔ s.Head q) ∧
      (s.setPage p g).size q = s.size q ∧ (s.setPage p g).pages q = s.pages q := by
    intro q hq
    simp [Head, size, setPage_pages_ne s g hq]
  have hsize : (s.setPage p g).size p = 2 ^ (g.order - minOrder) := by simp [size]
  refine ⟨fun q hq => ?_, fun q hq => ?_, fun q hq => ?_, fun q hq => ?_, fun q hq => ?_,
    fun q hq => ?_, fun q r hq hr hlt => ?_⟩
  · by_cases hqp : q = p
    · subst hqp
      exact absurd hq
        (by simp only [Head, setPage_pages_same, not_not]; unfold minOrder at hge; omega)
    · rw [(hne q hqp).2.2]; exact h.cleared q (fun hh => hq ((hne q hqp).1.mpr hh))
  · by_cases hqp : q = p
    · subst hqp; exact hin
    · exact h.inside q ((hne q hqp).1.mp hq)
  · by_cases hqp : q = p
    · subst hqp; simpa using hge
    · rw [(hne q hqp).2.2]; exact h.order_ge q ((hne q hqp).1.mp hq)
  · by_cases hqp : q = p
    · subst hqp; simpa using hle
    · rw [(hne q hqp).2.2]; exact h.order_le q ((hne q hqp).1.mp hq)
  · by_cases hqp : q = p
    · subst hqp; simpa using hp
    · rw [(hne q hqp).2.2]; exact h.pindex_eq q ((hne q hqp).1.mp hq)
  · by_cases hqp : q = p
    · subst hqp; rw [hsize]; exact ha
    · rw [(hne q hqp).2.1]; exact h.aligned q ((hne q hqp).1.mp hq)
  · by_cases hqp : q = p
    · subst hqp
      rw [hsize]
      exact (hd r (by omega) ((hne r (by omega)).1.mp hr)).2 hlt
    · rw [(hne q hqp).2.1]
      by_cases hrp : r = p
      · subst hrp
        exact (hd q hqp ((hne q hqp).1.mp hq)).1 hlt
      · exact h.apart q r ((hne q hqp).1.mp hq) ((hne r hrp).1.mp hr) hlt

/-- **Clearing one page state** keeps the geometry. -/
theorem Blocks.clear {s : State} (h : Blocks s) (p : Nat) :
    Blocks (s.setPage p PageState.zero) := by
  have hnp : ¬ (s.setPage p PageState.zero).Head p := by simp [Head, PageState.zero]
  have hne : ∀ q, (s.setPage p PageState.zero).Head q → q ≠ p ∧ s.Head q := by
    intro q hq
    have hqp : q ≠ p := fun he => hnp (he ▸ hq)
    exact ⟨hqp, by simpa [Head, setPage_pages_ne s PageState.zero hqp] using hq⟩
  have hz : ∀ q, q ≠ p → (s.setPage p PageState.zero).size q = s.size q ∧
      (s.setPage p PageState.zero).pages q = s.pages q := by
    intro q hq
    simp [size, setPage_pages_ne s PageState.zero hq]
  refine ⟨fun q hq => ?_, fun q hq => ?_, fun q hq => ?_, fun q hq => ?_, fun q hq => ?_,
    fun q hq => ?_, fun q r hq hr hlt => ?_⟩
  · by_cases hqp : q = p
    · subst hqp; simp
    · rw [(hz q hqp).2]
      exact h.cleared q fun hh => hq (by simpa [Head, (hz q hqp).2] using hh)
  · exact h.inside q (hne q hq).2
  · obtain ⟨hqp, hq⟩ := hne q hq
    rw [(hz q hqp).2]; exact h.order_ge q hq
  · obtain ⟨hqp, hq⟩ := hne q hq
    rw [(hz q hqp).2]; exact h.order_le q hq
  · obtain ⟨hqp, hq⟩ := hne q hq
    rw [(hz q hqp).2]; exact h.pindex_eq q hq
  · obtain ⟨hqp, hq⟩ := hne q hq
    rw [(hz q hqp).1]; exact h.aligned q hq
  · obtain ⟨hqp, hq⟩ := hne q hq
    rw [(hz q hqp).1]; exact h.apart q r hq (hne r hr).2 hlt

/-- No block but the one it is in has a page in common with page `x`. -/
theorem Blocks.head_unique {s : State} (h : Blocks s) {p q x : Nat} (hp : s.Head p)
    (hq : s.Head q) (hpx : p ≤ x) (hpx' : x < p + s.size p) (hqx : q ≤ x)
    (hqx' : x < q + s.size q) : p = q := by
  rcases Nat.lt_trichotomy p q with hlt | he | hlt
  · have := h.apart p q hp hq hlt
    omega
  · exact he
  · have := h.apart q p hq hp hlt
    omega

/-! ## Free lists -/

/-- The free lists hold each free head once, in the list of its order, except for the
heads in `limbo`. -/
structure Lists (s : State) (limbo : Set Nat) : Prop where
  mem_iff : ∀ k p, p ∈ s.freeBlocks k ↔ s.FreeHead p ∧ (s.pages p).order = k ∧ p ∉ limbo
  nodup : ∀ k, (s.freeBlocks k).Nodup

theorem Lists.linked_iff {s : State} {limbo : Set Nat} (hb : Blocks s) (h : Lists s limbo)
    (p : Nat) : s.linked p = true ↔ s.FreeHead p ∧ p ∉ limbo := by
  simp only [linked, List.any_eq_true, decide_eq_true_eq, List.mem_range'_1]
  constructor
  · rintro ⟨k, -, hk⟩
    have := (h.mem_iff k p).mp hk
    exact ⟨this.1, this.2.2⟩
  · rintro ⟨hf, hl⟩
    refine ⟨(s.pages p).order, ?_, (h.mem_iff _ p).mpr ⟨hf, rfl, hl⟩⟩
    have h1 := hb.order_ge p hf.1
    have h2 := hb.order_le p hf.1
    simp only [norders, minOrder, maxOrder] at *
    omega

/-- A page that is on no list may be written; it is then in limbo. -/
theorem Lists.setPage {s : State} {limbo : Set Nat} (h : Lists s limbo) {p : Nat}
    (g : PageState) (hp : ¬ s.FreeHead p ∨ p ∈ limbo) :
    Lists (s.setPage p g) (insert p limbo) := by
  refine ⟨fun k q => ?_, h.nodup⟩
  rw [setPage_freeBlocks, h.mem_iff]
  by_cases hq : q = p
  · subst hq
    simp only [Set.mem_insert_iff, true_or, not_true, and_false, iff_false]
    rintro ⟨h1, -, h3⟩
    exact hp.elim (fun hn => hn h1) h3
  · simp [FreeHead, Head, setPage_pages_ne s g hq, hq]

/-- A page that heads no free block need not be in limbo. -/
theorem Lists.settle {s : State} {limbo : Set Nat} {p : Nat} (h : Lists s (insert p limbo))
    (hp : ¬ s.FreeHead p) : Lists s limbo := by
  refine ⟨fun k q => ?_, h.nodup⟩
  rw [h.mem_iff]
  by_cases hq : q = p
  · subst hq
    exact ⟨fun hc => absurd hc.1 hp, fun hc => absurd hc.1 hp⟩
  · simp [hq]

theorem Lists.congr {s t : State} {limbo : Set Nat} (h : Lists s limbo)
    (hp : t.pages = s.pages) (hf : t.freeBlocks = s.freeBlocks) : Lists t limbo := by
  refine ⟨fun k p => ?_, fun k => by rw [hf]; exact h.nodup k⟩
  simp only [hf, h.mem_iff, FreeHead, Head, hp]

/-- **Linking a head** on the list of its order takes it out of limbo. -/
theorem Lists.pushBack {s : State} {limbo : Set Nat} {p : Nat} (hb : Blocks s)
    (h : Lists s (insert p limbo)) (hp : s.FreeHead p) (hl : p ∉ limbo) :
    s.pushBack (s.pages p).order p =
        some (s.setFree (s.pages p).order (s.freeBlocks (s.pages p).order ++ [p])) ∧
      Lists (s.setFree (s.pages p).order (s.freeBlocks (s.pages p).order ++ [p])) limbo := by
  have hnl : s.linked p = false := by
    rw [← Bool.not_eq_true, h.linked_iff hb]
    simp
  refine ⟨if_pos ⟨hb.order_ge p hp.1, hb.order_le p hp.1, hnl⟩, fun k q => ?_, fun k => ?_⟩
  · by_cases hk : k = (s.pages p).order
    · subst hk
      rw [setFree_freeBlocks_same, List.mem_append, List.mem_singleton, h.mem_iff]
      by_cases hq : q = p
      · subst hq
        simpa using ⟨hp, hl⟩
      · simp [hq, FreeHead, Head]
    · rw [setFree_freeBlocks_ne _ _ hk, h.mem_iff]
      by_cases hq : q = p
      · subst hq
        simpa using fun _ he => absurd he.symm hk
      · simp [hq, FreeHead, Head]
  · by_cases hk : k = (s.pages p).order
    · subst hk
      rw [setFree_freeBlocks_same]
      refine List.nodup_append.mpr ⟨h.nodup _, List.nodup_singleton p, ?_⟩
      rintro a ha b hb' rfl
      rw [List.mem_singleton] at hb'
      subst hb'
      exact ((h.mem_iff _ _).mp ha).2.2 (Set.mem_insert _ _)
    · rw [setFree_freeBlocks_ne _ _ hk]
      exact h.nodup k

/-- **Unlinking a head** puts it in limbo. -/
theorem Lists.remove {s : State} {limbo : Set Nat} (h : Lists s limbo) {k p : Nat}
    (hp : p ∈ s.freeBlocks k) :
    Lists (s.setFree k ((s.freeBlocks k).erase p)) (insert p limbo) := by
  have hpk := (h.mem_iff k p).mp hp
  refine ⟨fun j q => ?_, fun j => ?_⟩
  · by_cases hj : j = k
    · subst hj
      rw [setFree_freeBlocks_same, (h.nodup j).mem_erase_iff, h.mem_iff]
      simp only [Set.mem_insert_iff, not_or, FreeHead, Head, setFree_pages]
      tauto
    · rw [setFree_freeBlocks_ne _ _ hj, h.mem_iff]
      by_cases hq : q = p
      · subst hq
        simpa [FreeHead, Head] using fun _ _ he => absurd (he.symm.trans hpk.2.1) hj
      · simp [hq, FreeHead, Head]
  · by_cases hj : j = k
    · subst hj
      rw [setFree_freeBlocks_same]
      exact (h.nodup j).erase p
    · rw [setFree_freeBlocks_ne _ _ hj]
      exact h.nodup j

/-- `pop_front` unlinks the first free block of a non-empty list. -/
theorem Lists.popFront {s : State} {limbo : Set Nat} {k : Nat} (hb : Blocks s)
    (h : Lists s limbo) (hne : s.freeBlocks k ≠ []) :
    ∃ p, p ∈ s.freeBlocks k ∧ s.popFront k = some (s.setFree k ((s.freeBlocks k).erase p), p) ∧
      Lists (s.setFree k ((s.freeBlocks k).erase p)) (insert p limbo) := by
  obtain ⟨p, l, hl⟩ := List.exists_cons_of_ne_nil hne
  have hmem : p ∈ s.freeBlocks k := by rw [hl]; exact List.mem_cons_self ..
  refine ⟨p, hmem, ?_, h.remove hmem⟩
  obtain ⟨hf, hk, -⟩ := (h.mem_iff k p).mp hmem
  have h1 := hb.order_ge p hf.1
  have h2 := hb.order_le p hf.1
  rw [hk] at h1 h2
  rw [State.popFront, hl]
  simp [h1, h2]

/-! ## What an operation preserves -/

theorem Owns_congr {s t : State} {q : Nat} (h : t.pages q = s.pages q) (live : List Nat)
    (x : Nat) : t.Owns live q x ↔ s.Owns live q x := by
  simp only [Owns, Head, size, h]

/-- Block `p` owns exactly its own pages when it is free. -/
theorem Owns_of_free {s : State} {p : Nat} (h : s.FreeHead p) (live : List Nat) (x : Nat) :
    s.Owns live p x ↔ p ≤ x ∧ x < p + s.size p := by
  simp only [Owns, h.1, h.2, true_and, true_or, and_true]

/-- Two states with the same covered pages and the same allocated blocks, both
well-formed but for the heads in limbo. -/
structure Reshaped (s t : State) (limbo : Set Nat) : Prop where
  blocks : Blocks t
  lists : Lists t limbo
  covered : ∀ live x, t.Covered live x ↔ s.Covered live x
  allocated : ∀ p, (s.pages p).allocated = true → t.pages p = s.pages p
  mem : t.mem = s.mem

theorem Reshaped.trans {s t u : State} {l l' : Set Nat} (h : Reshaped s t l)
    (h' : Reshaped t u l') : Reshaped s u l' where
  blocks := h'.blocks
  lists := h'.lists
  covered live x := (h'.covered live x).trans (h.covered live x)
  allocated p hp := by
    have he := h.allocated p hp
    rw [h'.allocated p (by rw [he]; exact hp), he]
  mem := h'.mem.trans h.mem

/-- Pages that were free before are free after. -/
theorem Reshaped.freeInside {s t : State} {limbo : Set Nat} (h : Reshaped s t limbo)
    (hs : s.FreeInside) : t.FreeInside := fun x hx => hs x ((h.covered [] x).mp hx)

/-- Replace one free block by two that tile it. -/
theorem covered_split {s t : State} {p q : Nat} (hp : s.FreeHead p) (hq : ¬ s.Head q)
    (hpt : t.FreeHead p) (hqt : t.FreeHead q) (hmid : q = p + t.size p)
    (hend : q + t.size q = p + s.size p) (hrest : ∀ r, r ≠ p → r ≠ q → t.pages r = s.pages r)
    (live : List Nat) (x : Nat) : t.Covered live x ↔ s.Covered live x := by
  constructor
  · rintro ⟨r, hr⟩
    by_cases hrp : r = p
    · subst hrp
      have := (Owns_of_free hpt live x).mp hr
      exact ⟨r, (Owns_of_free hp live x).mpr ⟨this.1, by omega⟩⟩
    · by_cases hrq : r = q
      · subst hrq
        have := (Owns_of_free hqt live x).mp hr
        exact ⟨p, (Owns_of_free hp live x).mpr ⟨by omega, by omega⟩⟩
      · exact ⟨r, (Owns_congr (hrest r hrp hrq) live x).mp hr⟩
  · rintro ⟨r, hr⟩
    by_cases hrp : r = p
    · subst hrp
      have := (Owns_of_free hp live x).mp hr
      rcases Nat.lt_or_ge x q with hx | hx
      · exact ⟨r, (Owns_of_free hpt live x).mpr ⟨this.1, by omega⟩⟩
      · exact ⟨q, (Owns_of_free hqt live x).mpr ⟨hx, by omega⟩⟩
    · have hrq : r ≠ q := fun he => hq (he ▸ hr.1)
      exact ⟨r, (Owns_congr (hrest r hrp hrq) live x).mpr hr⟩

theorem two_pow_sub_succ {k : Nat} (h : minOrder < k) :
    2 ^ (k - minOrder) = 2 ^ (k - 1 - minOrder) + 2 ^ (k - 1 - minOrder) := by
  rw [show k - minOrder = (k - 1 - minOrder) + 1 from by unfold minOrder at *; omega, pow_succ]
  omega

theorem orderOf_pageSize : orderOf pageSize = minOrder := by decide

/-! ## `kalloc` -/

theorem minLargerOrder_eq_some {s : State} {order k : Nat} :
    minLargerOrder s order = some k ↔ order ≤ k ∧ k ≤ maxOrder ∧ s.freeBlocks k ≠ [] ∧
      ∀ j, order ≤ j → j < k → s.freeBlocks j = [] := by
  simp only [minLargerOrder, List.find?_range'_eq_some, List.mem_range'_1]
  simp
  constructor
  · rintro ⟨h1, ⟨h2, h3⟩, h4⟩
    exact ⟨h2, by omega, h1, h4⟩
  · rintro ⟨h1, h2, h3, h4⟩
    exact ⟨h3, ⟨h1, by omega⟩, h4⟩

/-- **Breaking a block in half.** -/
theorem split_spec {s : State} {larger : Nat} (hb : Blocks s) (hl : Lists s ∅)
    (hin : s.FreeInside) (hk : minOrder < larger) (hne : s.freeBlocks larger ≠ []) :
    ∃ t, split s larger = some t ∧ Reshaped s t ∅ ∧ t.freeBlocks (larger - 1) ≠ [] ∧
      ∀ j, j < larger - 1 → t.freeBlocks j = s.freeBlocks j := by
  obtain ⟨p, hp, hpop, hl1⟩ := hl.popFront hb hne
  obtain ⟨hf, hord, -⟩ := (hl.mem_iff larger p).mp hp
  have hle := hb.order_le p hf.1
  rw [hord] at hle
  have hpi := hb.pindex_eq p hf.1
  have hhalf := two_pow_sub_succ hk
  have hsz : s.size p = 2 ^ (larger - minOrder) := by rw [size, hord]
  generalize hh : 2 ^ (larger - 1 - minOrder) = h at hhalf
  have hh0 : 0 < h := by rw [← hh]; exact Nat.two_pow_pos _
  -- the target, one order smaller
  set s1 := s.setFree larger ((s.freeBlocks larger).erase p) with hs1
  have hb1 : Blocks s1 := hb.congr rfl
  set s2 := s1.setPage p { s1.pages p with order := larger - 1 } with hs2
  have hsz2 : s2.size p = h := by simp [hs2, size, hh]
  have hf2 : s2.FreeHead p := by
    refine ⟨?_, by simpa [hs2, hs1] using hf.2⟩
    simp only [Head, hs2, setPage_pages_same]
    unfold minOrder at hk
    omega
  have hb2 : Blocks s2 := by
    refine hb1.setPage (hb.inside p hf.1) (by show minOrder ≤ larger - 1; omega)
      (by show larger - 1 ≤ maxOrder; omega) hpi ?_ ?_
    · show 2 ^ (larger - 1 - minOrder) ∣ p
      exact (Nat.pow_dvd_pow 2 (by omega)).trans (hsz ▸ hb.aligned p hf.1)
    · intro q hqp hq
      refine ⟨fun hlt => hb1.apart q p hq hf.1 hlt, fun hlt => ?_⟩
      have := hb.apart p q hf.1 hq hlt
      show p + 2 ^ (larger - 1 - minOrder) ≤ q
      omega
  have hl2 : Lists s2 (insert p ∅) := by
    have := hl1.setPage { s1.pages p with order := larger - 1 } (Or.inr (Set.mem_insert p ∅))
    rwa [Set.insert_eq_of_mem (Set.mem_insert p ∅)] at this
  obtain ⟨hpush, hl3⟩ := hl2.pushBack hb2 hf2 (Set.notMem_empty p)
  have hord2 : (s2.pages p).order = larger - 1 := by simp [hs2]
  rw [hord2] at hpush hl3
  set s3 := s2.setFree (larger - 1) (s2.freeBlocks (larger - 1) ++ [p]) with hs3
  have hb3 : Blocks s3 := hb2.congr rfl
  -- the second half headed no block, because it lay inside the target
  have hnew : ¬ s.Head (p + h) := fun hn => by
    have := hb.apart p (p + h) hf.1 hn (by omega)
    omega
  have hne_new : p + h ≠ p := by omega
  have hin_new : p + h < npages :=
    hin (p + h) ⟨p, (Owns_of_free hf [] _).mpr ⟨by omega, by omega⟩⟩
  have hp3 : ∀ q, q ≠ p → s3.pages q = s.pages q := fun q hq => setPage_pages_ne s1 _ hq
  have hnew3 : ¬ s3.Head (p + h) := by simpa [Head, hp3 _ hne_new] using hnew
  set s4 := s3.setPage (p + h) ⟨larger - 1, p + h, false⟩ with hs4
  have hf4 : s4.FreeHead (p + h) := by
    refine ⟨?_, by simp [hs4]⟩
    simp only [Head, hs4, setPage_pages_same]
    unfold minOrder at hk
    omega
  have hb4 : Blocks s4 := by
    refine hb3.setPage hin_new (by show minOrder ≤ larger - 1; omega)
      (by show larger - 1 ≤ maxOrder; omega) rfl ?_ ?_
    · show 2 ^ (larger - 1 - minOrder) ∣ p + h
      rw [hh]
      exact Nat.dvd_add (hsz2 ▸ hb2.aligned p hf2.1) (Nat.dvd_refl h)
    · intro q hqn hq
      show (q < p + h → q + s3.size q ≤ p + h) ∧
        (p + h < q → p + h + 2 ^ (larger - 1 - minOrder) ≤ q)
      rw [hh]
      by_cases hqp : q = p
      · subst hqp
        refine ⟨fun _ => ?_, fun hlt => by omega⟩
        show q + s2.size q ≤ q + h
        omega
      · have hq' : s.Head q := by simpa [Head, hp3 q hqp] using hq
        have hqs : s3.size q = s.size q := by simp [size, hp3 q hqp]
        rw [hqs]
        rcases Nat.lt_or_ge q p with hlt | hge
        · have := hb.apart q p hq' hf.1 hlt
          exact ⟨fun _ => by omega, fun _ => by omega⟩
        · have := hb.apart p q hf.1 hq' (by omega)
          exact ⟨fun _ => by omega, fun _ => by omega⟩
  have hl4 : Lists s4 (insert (p + h) ∅) := hl3.setPage _ (Or.inl fun hc => hnew3 hc.1)
  obtain ⟨hpush', hl5⟩ := hl4.pushBack hb4 hf4 (Set.notMem_empty _)
  have hord4 : (s4.pages (p + h)).order = larger - 1 := by simp [hs4]
  rw [hord4] at hpush' hl5
  set s5 := s4.setFree (larger - 1) (s4.freeBlocks (larger - 1) ++ [p + h]) with hs5
  have hp4 : s4.pages p = s2.pages p := setPage_pages_ne s3 _ hne_new.symm
  refine ⟨s5, ?_, ⟨hb4.congr rfl, hl5, ?_, ?_, rfl⟩, ?_, ?_⟩
  · have hidx : (s3.pages p).pindex + 2 ^ (larger - 1 - orderOf pageSize) = p + h := by
      rw [orderOf_pageSize, hh]
      exact congrArg (· + h) (by simpa [hs3, hs2, hs1] using hpi)
    have ho1 : (s1.pages p).order = larger := hord
    simp only [split, hpop, Option.bind_eq_bind, Option.bind_some, ho1]
    rw [← hs2, hpush, Option.bind_some, hidx, storePage_of_lt _ _ hin_new, Option.bind_some]
    exact hpush'
  · refine covered_split hf hnew ?_ hf4 ?_ ?_ ?_
    · simpa [hs5, FreeHead, Head, hp4] using hf2
    · show p + h = p + s4.size p
      rw [size, hp4, ← size, hsz2]
    · show p + h + s4.size (p + h) = p + s.size p
      have : s4.size (p + h) = h := by simp [hs4, size, hh]
      omega
    · intro r hrp hrn
      exact (setPage_pages_ne s3 _ hrn).trans (hp3 r hrp)
  · intro r hr
    have hrp : r ≠ p := fun he => by rw [he, hf.2] at hr; cases hr
    have hrn : r ≠ p + h := fun he => by
      rw [he, hb.cleared _ hnew] at hr
      cases hr
    exact (setPage_pages_ne s3 _ hrn).trans (hp3 r hrp)
  · simp [hs5]
  · intro j hj
    have h1 : s5.freeBlocks j = s4.freeBlocks j := setFree_freeBlocks_ne _ _ (by omega)
    have h3 : s3.freeBlocks j = s2.freeBlocks j := setFree_freeBlocks_ne _ _ (by omega)
    have h4 : s1.freeBlocks j = s.freeBlocks j := setFree_freeBlocks_ne _ _ (by omega)
    exact h1.trans (h3.trans h4)

/-- **The split loop** ends with a free block of the wanted order.  Each round lowers
the smallest order that has a free block by one. -/
theorem splitLoop_spec {order : Nat} (hmin : minOrder ≤ order) : ∀ (fuel : Nat) (s : State)
    (larger : Nat), Blocks s → Lists s ∅ → s.FreeInside → minLargerOrder s order = some larger →
    larger - order < fuel →
    ∃ t, splitLoop order fuel s = some t ∧ Reshaped s t ∅ ∧ t.freeBlocks order ≠ [] := by
  intro fuel
  induction fuel with
  | zero => intro s larger _ _ _ _ hf; omega
  | succ fuel ih =>
    intro s larger hb hl hin hlarge hf
    obtain ⟨hge, hle, hne, hmin'⟩ := minLargerOrder_eq_some.mp hlarge
    rw [splitLoop]
    by_cases he : s.freeBlocks order = []
    · rw [if_pos (by simp [he]), hlarge, Option.bind_some]
      have hlt : order < larger := lt_of_le_of_ne hge fun h => hne (h ▸ he)
      obtain ⟨t, hsplit, hr, hnext, hsame⟩ := split_spec hb hl hin (lt_of_le_of_lt hmin hlt) hne
      have hlarge' : minLargerOrder t order = some (larger - 1) :=
        minLargerOrder_eq_some.mpr ⟨by omega, by omega, hnext, fun j h1 h2 => by
          rw [hsame j h2]; exact hmin' j h1 (by omega)⟩
      obtain ⟨u, hrun, hr', hu⟩ := ih t (larger - 1) hr.blocks hr.lists (hr.freeInside hin)
        hlarge' (by omega)
      exact ⟨u, by rw [hsplit, Option.bind_some, hrun], hr.trans hr', hu⟩
    · rw [if_neg (by simpa using he)]
      exact ⟨s, rfl, ⟨hb, hl, fun _ _ => Iff.rfl, fun _ _ => rfl, rfl⟩, he⟩

/-- The allocator's invariant: `avail` are the pages it manages, all of them in the array,
and `live` the addresses of the blocks it has handed out. -/
structure Inv (avail : Nat → Prop) (s : State) (live : List Nat) : Prop where
  blocks : Blocks s
  lists : Lists s ∅
  bound : ∀ x, avail x → x < npages
  cover : ∀ x, avail x ↔ s.Covered live x
  live_head : ∀ pa ∈ live, ∃ p, pa = p * pageSize ∧ s.Head p ∧ (s.pages p).allocated = true
  live_nodup : live.Nodup

theorem pageSize_pos : 0 < pageSize := Nat.two_pow_pos _

theorem mul_pageSize_inj {p q : Nat} : p * pageSize = q * pageSize ↔ p = q :=
  Nat.mul_left_inj (Nat.ne_of_gt pageSize_pos)

/-- Every page in a block that is free or handed out is in the array. -/
theorem Inv.lt_npages {avail : Nat → Prop} {s : State} {live : List Nat}
    (h : Inv avail s live) (x : Nat) (hx : s.Covered live x) : x < npages :=
  h.bound x ((h.cover x).mpr hx)

theorem Inv.freeInside {avail : Nat → Prop} {s : State} {live : List Nat}
    (h : Inv avail s live) : s.FreeInside := by
  rintro x ⟨p, hp, hle, hlt, hfree⟩
  exact h.lt_npages x ⟨p, hp, hle, hlt, Or.inl (hfree.resolve_right (by simp))⟩

theorem Inv.reshaped {avail : Nat → Prop} {s t : State} {live : List Nat}
    (h : Inv avail s live) (hr : Reshaped s t ∅) : Inv avail t live where
  blocks := hr.blocks
  lists := hr.lists
  bound := h.bound
  cover x := (h.cover x).trans (hr.covered live x).symm
  live_head pa hpa := by
    obtain ⟨p, rfl, hp, ha⟩ := h.live_head pa hpa
    have he := hr.allocated p ha
    exact ⟨p, rfl, by simpa [Head, he] using hp, by rw [he]; exact ha⟩
  live_nodup := h.live_nodup

/-- Changing only the `allocated` flag of a head keeps the geometry. -/
theorem Blocks.setAllocated {s : State} (h : Blocks s) {p : Nat} (hp : s.Head p) (a : Bool) :
    Blocks (s.setPage p { s.pages p with allocated := a }) :=
  h.setPage (h.inside p hp) (h.order_ge p hp) (h.order_le p hp) (h.pindex_eq p hp)
    (h.aligned p hp) fun q _ hq =>
    ⟨fun hlt => h.apart q p hq hp hlt, fun hlt => h.apart p q hp hq hlt⟩

/-- Moving a block between the free ones and the ones handed out covers the same
pages. -/
theorem covered_setAllocated {s : State} {p : Nat} {a : Bool} {live live' : List Nat}
    (hold : (s.pages p).allocated = false ∨ p * pageSize ∈ live)
    (hnew : a = false ∨ p * pageSize ∈ live')
    (hrest : ∀ q, q ≠ p → (q * pageSize ∈ live' ↔ q * pageSize ∈ live)) (x : Nat) :
    (s.setPage p { s.pages p with allocated := a }).Covered live' x ↔ s.Covered live x := by
  refine exists_congr fun q => ?_
  by_cases hq : q = p
  · subst hq
    simp only [Owns, Head, size, setPage_pages_same, hold, hnew, and_true]
  · simp only [Owns, Head, size, setPage_pages_ne s _ hq, hrest q hq]

theorem requestOrder_ge (sz : Nat) : minOrder ≤ requestOrder sz := by
  unfold requestOrder
  dsimp only
  split <;> omega

/-- **`kalloc` keeps the invariant**, and the block it returns joins the blocks handed
out. -/
theorem kalloc_inv {avail : Nat → Prop} {s : State} {live : List Nat}
    (h : Inv avail s live) (sz : Nat) :
    ∃ t r, kalloc s sz = some (t, r) ∧ Inv avail t (r.toList ++ live) := by
  unfold kalloc
  by_cases h0 : sz = 0
  · exact ⟨s, none, by rw [if_pos h0], h⟩
  · rw [if_neg h0]
    dsimp only
    by_cases hbig : requestOrder sz > maxOrder
    · exact ⟨s, none, by rw [if_pos hbig], h⟩
    · rw [if_neg hbig]
      by_cases hnone : minLargerOrder s (requestOrder sz) = none
      · exact ⟨s, none, by rw [if_pos hnone], h⟩
      · rw [if_neg hnone]
        obtain ⟨larger, hlarge⟩ := Option.ne_none_iff_exists'.mp hnone
        have hle := (minLargerOrder_eq_some.mp hlarge).2.1
        have hge := requestOrder_ge sz
        generalize requestOrder sz = order at *
        obtain ⟨t, hloop, hr, hne⟩ := splitLoop_spec hge norders s larger h.blocks h.lists
          h.freeInside hlarge (by simp only [norders, minOrder, maxOrder] at *; omega)
        have ht := h.reshaped hr
        obtain ⟨p, hp, hpop, hl⟩ := ht.lists.popFront ht.blocks hne
        obtain ⟨hf, -, -⟩ := (ht.lists.mem_iff order p).mp hp
        set u := t.setFree order ((t.freeBlocks order).erase p) with hu
        have hbu : Blocks u := ht.blocks.congr rfl
        have hl' := hl.setPage { u.pages p with allocated := true } (Or.inr (Set.mem_insert p ∅))
        rw [Set.insert_eq_of_mem (Set.mem_insert p ∅)] at hl'
        have hnl : p * pageSize ∉ live := by
          intro hm
          obtain ⟨q, hq, -, ha⟩ := ht.live_head _ hm
          obtain rfl := mul_pageSize_inj.mp hq
          rw [hf.2] at ha
          cases ha
        refine ⟨u.setPage p { u.pages p with allocated := true }, some (p * pageSize), ?_, ?_⟩
        · simp only [hloop, hpop, Option.bind_eq_bind, Option.bind_some, setPage_pages_same]
          rw [hbu.pindex_eq p hf.1]
        · refine ⟨hbu.setAllocated hf.1 true, hl'.settle (by simp [FreeHead]), ht.bound,
            fun x => ?_, ?_, ?_⟩
          · rw [ht.cover x]
            refine (covered_setAllocated (Or.inl hf.2) (Or.inr (by simp)) (fun q hq => ?_) x).symm
            simp only [Option.toList_some, List.singleton_append, List.mem_cons, mul_pageSize_inj,
              hq, false_or]
          · intro pa hpa
            rcases List.mem_append.mp hpa with hpa | hpa
            · obtain rfl : pa = p * pageSize := by simpa using hpa
              exact ⟨p, rfl, by simpa [hu, Head] using hf.1, by simp⟩
            · obtain ⟨q, rfl, hq, ha⟩ := ht.live_head pa hpa
              have hqp : q ≠ p := fun he => hnl (he ▸ hpa)
              exact ⟨q, rfl, by simpa [hu, Head, setPage_pages_ne _ _ hqp] using hq,
                by rw [setPage_pages_ne _ _ hqp]; exact ha⟩
          · exact List.nodup_cons.mpr ⟨hnl, ht.live_nodup⟩

/-! ## `kfree` -/

/-- **The buddy of an aligned block** is the other half of the aligned block of twice
the size. -/
theorem buddyPindex_cases {p k : Nat} (hk : minOrder ≤ k) (ha : 2 ^ (k - minOrder) ∣ p) :
    (buddyPindex p k = p + 2 ^ (k - minOrder) ∧ 2 ^ (k + 1 - minOrder) ∣ p) ∨
    (buddyPindex p k + 2 ^ (k - minOrder) = p ∧ 2 ^ (k + 1 - minOrder) ∣ buddyPindex p k) := by
  obtain ⟨j, rfl⟩ := Nat.exists_eq_add_of_le hk
  rw [show minOrder + j - minOrder = j from by omega] at ha ⊢
  rw [show minOrder + j + 1 - minOrder = j + 1 from by omega]
  have hj : 2 ^ (minOrder + j) = 2 ^ j * pageSize := by
    rw [pow_add, Nat.mul_comm]; rfl
  have hj1 : 2 ^ (minOrder + j + 1) = 2 ^ (j + 1) * pageSize := by
    rw [pow_succ, hj, pow_succ]; ring
  obtain ⟨c, rfl⟩ := ha
  have hpow : 2 ^ (j + 1) = 2 ^ j * 2 := pow_succ 2 j
  have hpos : 0 < 2 ^ j := Nat.two_pow_pos j
  unfold buddyPindex
  rw [hj1, hj, Nat.mul_mod_mul_right, ← Nat.add_mul, ← Nat.sub_mul,
    Nat.mul_div_cancel _ pageSize_pos, Nat.mul_div_cancel _ pageSize_pos, hpow,
    Nat.mul_mod_mul_left]
  by_cases hc : c % 2 = 0
  · refine Or.inl ⟨?_, Nat.mul_dvd_mul_left _ (Nat.dvd_of_mod_eq_zero hc)⟩
    rw [if_pos (by rw [hc]; simp)]
  · have hne : 2 ^ j * (c % 2) * pageSize ≠ 0 := by
      rw [show c % 2 = 1 from by omega]
      exact Nat.mul_ne_zero (by omega) (Nat.ne_of_gt pageSize_pos)
    rw [if_neg hne]
    obtain ⟨d, rfl⟩ : ∃ d, c = 2 * d + 1 := ⟨c / 2, by omega⟩
    have he : 2 ^ j * (2 * d + 1) - 2 ^ j = 2 ^ j * 2 * d := by
      rw [Nat.mul_add, Nat.mul_one, Nat.add_sub_cancel, Nat.mul_assoc]
    refine Or.inr ⟨?_, ?_⟩
    · rw [he]; ring
    · rw [he]; exact Nat.dvd_mul_right _ _

/-- **Merging two halves.**  `lo` and `lo + size` are free blocks of one order, both in
limbo: the upper one is cleared and the lower one takes its pages. -/
theorem mergeHalves {s : State} {lo hi : Nat} (hb : Blocks s) (hl : Lists s {lo, hi})
    (hlo : s.FreeHead lo) (hhi : s.FreeHead hi) (hord : (s.pages hi).order = (s.pages lo).order)
    (hmid : hi = lo + s.size lo) (hmax : (s.pages lo).order < maxOrder)
    (ha : 2 ^ ((s.pages lo).order + 1 - minOrder) ∣ lo) :
    Reshaped s ((s.setPage hi PageState.zero).setPage lo
      { s.pages lo with order := (s.pages lo).order + 1 }) {lo} := by
  have hge := hb.order_ge lo hlo.1
  have hdouble : 2 ^ ((s.pages lo).order + 1 - minOrder) = s.size lo + s.size lo :=
    two_pow_sub_succ (show minOrder < (s.pages lo).order + 1 by omega)
  have hszhi : s.size hi = s.size lo := by rw [size, hord, size]
  have hpos := s.size_pos lo
  set t := s.setPage hi PageState.zero with ht
  have hne : lo ≠ hi := by omega
  have hlot : t.pages lo = s.pages lo := setPage_pages_ne s _ hne
  have hbt : Blocks t := hb.clear hi
  have hheads : ∀ q, t.Head q → q ≠ hi ∧ s.Head q ∧ t.size q = s.size q := by
    intro q hq
    have hqh : q ≠ hi := by
      rintro rfl
      exact hq (by simp [ht, PageState.zero])
    exact ⟨hqh, by simpa [Head, ht, setPage_pages_ne s _ hqh] using hq,
      by simp [size, ht, setPage_pages_ne s _ hqh]⟩
  refine ⟨?_, ?_, fun live x => ?_, fun p hp => ?_, rfl⟩
  · refine hbt.setPage (hb.inside lo hlo.1) (by show minOrder ≤ _ + 1; omega) hmax
      (hb.pindex_eq lo hlo.1) ha ?_
    intro q hql hq
    obtain ⟨hqh, hq', hqs⟩ := hheads q hq
    refine ⟨fun hlt => ?_, fun hlt => ?_⟩
    · rw [hqs]; exact hb.apart q lo hq' hlo.1 hlt
    · -- past the lower half comes the upper one, which is cleared
      have h1 := hb.apart lo q hlo.1 hq' hlt
      have h2 := hb.apart hi q hhi.1 hq' (by omega)
      show lo + 2 ^ ((s.pages lo).order + 1 - minOrder) ≤ q
      omega
  · have h1 : Lists t {lo} := by
      have h := hl.setPage PageState.zero (Or.inr (show hi ∈ ({lo, hi} : Set Nat) by simp))
      rw [Set.insert_eq_of_mem (by simp), Set.pair_comm] at h
      exact h.settle (fun hf => hf.1 (by simp [PageState.zero]))
    have h2 := h1.setPage { s.pages lo with order := (s.pages lo).order + 1 }
      (Or.inr (Set.mem_singleton lo))
    rwa [Set.insert_eq_of_mem (Set.mem_singleton lo)] at h2
  · refine (covered_split ?_ ?_ hlo hhi hmid ?_ ?_ live x).symm
    · exact ⟨by simp [Head], by simpa using hlo.2⟩
    · intro hh
      rw [Head, setPage_pages_ne _ _ hne.symm] at hh
      exact (hheads hi hh).1 rfl
    · have : ((t.setPage lo { s.pages lo with order := (s.pages lo).order + 1 }).size lo) =
          s.size lo + s.size lo := by
        simp only [size, setPage_pages_same]
        exact hdouble
      omega
    · intro r hrl hrh
      rw [setPage_pages_ne _ _ hrl, ht, setPage_pages_ne _ _ hrh]
  · have hpl : p ≠ lo := fun he => by rw [he, hlo.2] at hp; cases hp
    have hph : p ≠ hi := fun he => by rw [he, hhi.2] at hp; cases hp
    rw [setPage_pages_ne _ _ hpl, ht, setPage_pages_ne _ _ hph]

/-- **One round of coalescing.** -/
theorem merge_spec {s : State} {p : Nat} (hb : Blocks s) (hl : Lists s {p})
    (hp : s.FreeHead p) (hm : mergeable s p = true) :
    ∃ t q, merge s p = some (t, q) ∧ Reshaped s t {q} ∧ t.FreeHead q ∧
      (t.pages q).order = (s.pages p).order + 1 := by
  simp only [mergeable, Bool.and_eq_true, decide_eq_true_eq, Bool.not_eq_true'] at hm
  obtain ⟨⟨⟨-, hba⟩, hbo⟩, hmax⟩ := hm
  have hge := hb.order_ge p hp.1
  have hle := hb.order_le p hp.1
  have hcases := buddyPindex_cases hge (hb.aligned p hp.1)
  have hmerge : merge s p = (s.erase (s.pages (buddyPindex p (s.pages p).order)).order
      (buddyPindex p (s.pages p).order)).bind fun s' =>
      let s1 := s'.setPage (max p (buddyPindex p (s.pages p).order)) PageState.zero
      let lo := min p (buddyPindex p (s.pages p).order)
      some (s1.setPage lo { s1.pages lo with order := (s1.pages lo).order + 1 }, lo) := rfl
  generalize buddyPindex p (s.pages p).order = b at *
  have hbf : s.FreeHead b := ⟨by rw [Head, hbo]; exact hp.1, hba⟩
  have hpos := s.size_pos p
  change (b = p + s.size p ∧ _) ∨ (b + s.size p = p ∧ _) at hcases
  have hbp : b ≠ p := by omega
  have hmem : b ∈ s.freeBlocks (s.pages p).order :=
    (hl.mem_iff _ b).mpr ⟨hbf, hbo, by simpa using hbp⟩
  set s' := s.setFree (s.pages p).order ((s.freeBlocks (s.pages p).order).erase b) with hs'
  have hb' : Blocks s' := hb.congr rfl
  have hl' : Lists s' {b, p} := hl.remove hmem
  have herase : s.erase (s.pages b).order b = some s' := by
    rw [hbo]; exact if_pos ⟨hge, hle, hmem⟩
  -- whichever of the two is lower, the merged block is headed by it
  have key : ∀ lo hi, s.FreeHead lo → s.FreeHead hi → max p b = hi → min p b = lo →
      ({b, p} : Set Nat) = {lo, hi} → (s.pages lo).order = (s.pages p).order →
      (s.pages hi).order = (s.pages p).order → hi = lo + s.size lo →
      2 ^ ((s.pages p).order + 1 - minOrder) ∣ lo →
      ∃ t q, merge s p = some (t, q) ∧ Reshaped s t {q} ∧ t.FreeHead q ∧
        (t.pages q).order = (s.pages p).order + 1 := by
    intro lo hi hlo hhi hmx hmn hset holo hohi hmid hal
    have hpos' := s.size_pos lo
    have hr := mergeHalves hb' (hset ▸ hl') hlo hhi (hohi.trans holo.symm) hmid
      (show (s.pages lo).order < maxOrder by omega) (holo.symm ▸ hal)
    refine ⟨_, lo, ?_, ⟨hr.blocks, hr.lists, hr.covered, hr.allocated, hr.mem⟩, ?_, ?_⟩
    · rw [hmerge, herase, Option.bind_some, hmx, hmn]
      dsimp only
      rw [setPage_pages_ne _ _ (show lo ≠ hi by omega)]
    · exact ⟨by simp [Head], by simpa [hs'] using hlo.2⟩
    · rw [setPage_pages_same]
      exact congrArg (· + 1) holo
  rcases hcases with ⟨hup, hal⟩ | ⟨hdown, hal⟩
  · exact key p b hp hbf (by omega) (by omega) (Set.pair_comm b p) rfl hbo hup hal
  · refine key b p hbf hp (by omega) (by omega) rfl hbo rfl ?_ hal
    rw [size, hbo]
    exact hdown.symm

/-- **The coalescing loop** links the freed block, merged with as many buddies as it
can be. -/
theorem coalesce_spec : ∀ (fuel : Nat) (s : State) (p : Nat), Blocks s → Lists s {p} →
    s.FreeHead p → maxOrder - (s.pages p).order < fuel →
    ∃ t, coalesce fuel s p = some t ∧ Reshaped s t ∅ := by
  intro fuel
  induction fuel with
  | zero => intro s p _ _ _ hf; omega
  | succ fuel ih =>
    intro s p hb hl hp hf
    rw [coalesce]
    by_cases hm : mergeable s p = true
    · rw [if_pos hm]
      obtain ⟨t, q, hmerge, hr, hq, hord⟩ := merge_spec hb hl hp hm
      have hle := hr.blocks.order_le q hq.1
      obtain ⟨u, hrun, hr'⟩ := ih t q hr.blocks hr.lists hq (by omega)
      exact ⟨u, by rw [hmerge, Option.bind_some]; exact hrun, hr.trans hr'⟩
    · rw [if_neg hm]
      have hl0 : Lists s (insert p ∅) := by rwa [insert_empty_eq]
      obtain ⟨hpush, hl'⟩ := hl0.pushBack hb hp (Set.notMem_empty p)
      exact ⟨_, hpush, hb.congr rfl, hl', fun live x => Iff.rfl, fun _ _ => rfl, rfl⟩

/-- Block `p` taken back and cleared, before it is merged. -/
def State.freed (s : State) (p : Nat) : State :=
  { s.setPage p { s.pages p with allocated := false } with
    mem := clearMem s.mem (p * pageSize) (2 ^ (s.pages p).order) }

theorem freed_pages_ne (s : State) {p q : Nat} (h : q ≠ p) : (s.freed p).pages q = s.pages q :=
  setPage_pages_ne s _ h

/-- What `kfree` merges is a free block that is on no list. -/
theorem freed_spec {s : State} {p : Nat} (hb : Blocks s) (hl : Lists s ∅) (hp : s.Head p)
    (ha : (s.pages p).allocated = true) :
    Blocks (s.freed p) ∧ Lists (s.freed p) {p} ∧ (s.freed p).FreeHead p ∧
      kfree s (some (p * pageSize)) = coalesce norders (s.freed p) p := by
  have hlists : Lists (s.setPage p { s.pages p with allocated := false }) {p} := by
    have hn : ¬ s.FreeHead p := fun hf => by rw [hf.2] at ha; cases ha
    have := hl.setPage { s.pages p with allocated := false } (Or.inl hn)
    rwa [insert_empty_eq] at this
  refine ⟨(hb.setAllocated hp false).congr rfl, hlists.congr rfl rfl, ?_, ?_⟩
  · exact ⟨by simpa [State.freed, Head] using hp, by simp [State.freed]⟩
  · have hin : ¬ npages ≤ p := Nat.not_le_of_lt (hb.inside p hp)
    simp only [kfree, Nat.mul_mod_left, Nat.mul_div_cancel _ pageSize_pos, hin, ha,
      setPage_pages_same]
    rfl

/-- The loop has fuel enough. -/
theorem coalesce_freed {s : State} {p : Nat} (hb : Blocks s) (hl : Lists s {p})
    (hp : s.FreeHead p) : ∃ t, coalesce norders s p = some t ∧ Reshaped s t ∅ := by
  have hge := hb.order_ge p hp.1
  refine coalesce_spec norders s p hb hl hp ?_
  simp only [norders, minOrder, maxOrder] at *
  omega

/-- **`kfree` keeps the invariant** when it is given a block handed out, which it takes
back. -/
theorem kfree_inv {avail : Nat → Prop} {s : State} {live : List Nat} {pa : Nat}
    (h : Inv avail s live) (hpa : pa ∈ live) :
    ∃ t, kfree s (some pa) = some t ∧ Inv avail t (live.erase pa) := by
  obtain ⟨p, rfl, hp, ha⟩ := h.live_head pa hpa
  obtain ⟨hb, hl, hf, hkfree⟩ := freed_spec h.blocks h.lists hp ha
  obtain ⟨t, hrun, hr⟩ := coalesce_freed hb hl hf
  have hne : ∀ q, q ≠ p →
      (q * pageSize ∈ live.erase (p * pageSize) ↔ q * pageSize ∈ live) := by
    intro q hq
    rw [h.live_nodup.mem_erase_iff]
    exact and_iff_right fun he => hq (mul_pageSize_inj.mp he)
  refine ⟨t, hkfree.trans hrun, hr.blocks, hr.lists, h.bound, fun x => ?_, fun pa' hpa' => ?_,
    h.live_nodup.erase _⟩
  · rw [h.cover x, hr.covered]
    exact (covered_setAllocated (Or.inr hpa) (Or.inl rfl) hne x).symm
  · obtain ⟨q, rfl, hq, hqa⟩ := h.live_head pa' (List.mem_of_mem_erase hpa')
    have hqp : q ≠ p := fun he => by
      subst he
      exact ((h.live_nodup.mem_erase_iff).mp hpa').1 rfl
    have he₁ := freed_pages_ne s hqp
    have he : t.pages q = s.pages q := (hr.allocated q (by rw [he₁]; exact hqa)).trans he₁
    exact ⟨q, rfl, by simpa [Head, he] using hq, by rw [he]; exact hqa⟩

/-! ## `init_kalloc` -/

theorem mem_ordersDown {k : Nat} : k ∈ ordersDown ↔ minOrder ≤ k ∧ k ≤ maxOrder := by
  simp only [ordersDown, List.mem_reverse, List.mem_range'_1, norders, minOrder, maxOrder]
  omega

theorem findMaxOrder_some {start last k : Nat} (h : findMaxOrder start last = some k) :
    minOrder ≤ k ∧ k ≤ maxOrder ∧ 2 ^ k ∣ start ∧ start + 2 ^ k ≤ last := by
  have hk := mem_ordersDown.mp (List.mem_of_find?_eq_some h)
  have hp := List.find?_some h
  simp only [Bool.and_eq_true, decide_eq_true_eq] at hp
  exact ⟨hk.1, hk.2, Nat.dvd_of_mod_eq_zero hp.1, hp.2⟩

/-- Whole pages always leave room for a chunk. -/
theorem findMaxOrder_isSome {start last : Nat} (hs : pageSize ∣ start) (hl : pageSize ∣ last)
    (hlt : start < last) : ∃ k, findMaxOrder start last = some k := by
  refine Option.ne_none_iff_exists'.mp fun hn => ?_
  have h := List.find?_eq_none.mp hn minOrder (mem_ordersDown.mpr ⟨Nat.le_refl _, by decide⟩)
  simp only [Bool.and_eq_true, decide_eq_true_eq, not_and] at h
  refine h (Nat.mod_eq_zero_of_dvd hs) ?_
  obtain ⟨a, rfl⟩ := hs
  obtain ⟨b, rfl⟩ := hl
  have hab : a + 1 ≤ b := Nat.lt_of_mul_lt_mul_left hlt
  calc pageSize * a + 2 ^ minOrder = pageSize * (a + 1) := by rw [Nat.mul_succ]; rfl
    _ ≤ pageSize * b := Nat.mul_le_mul_left _ hab

/-- What `init_kalloc` has established once it has passed the addresses below `hi`. -/
structure InitInv (m : MemRangeSet) (s : State) (hi : Nat) : Prop where
  blocks : Blocks s
  lists : Lists s ∅
  below : ∀ p, s.Head p → (p + s.size p) * pageSize ≤ hi
  cover : ∀ x, s.Covered [] x ↔ m.Available (x * pageSize) ∧ x * pageSize < hi

theorem InitInv.extend {m : MemRangeSet} {s : State} {hi hi' : Nat} (h : InitInv m s hi)
    (hle : hi ≤ hi')
    (hgap : ∀ x, hi ≤ x * pageSize → x * pageSize < hi' → ¬ m.Available (x * pageSize)) :
    InitInv m s hi' where
  blocks := h.blocks
  lists := h.lists
  below p hp := (h.below p hp).trans hle
  cover x := by
    rw [h.cover]
    refine and_congr_right fun ha => ⟨fun hx => by omega, fun hx => ?_⟩
    exact Nat.lt_of_not_le fun hx' => hgap x hx' hx ha

theorem page_lt_npages {addr : Nat} (h : addr < memsizePhysical) : addr / pageSize < npages := by
  unfold npages memsizePhysical pageSize at *
  omega

/-- **One chunk.**  A chunk of physical memory past everything made so far, inside range
`i`. -/
theorem initChunk_spec {m : MemRangeSet} (hm : m.Valid) {s : State} {i addr k : Nat}
    (hi : i < m.n) (hin : addr < memsizePhysical) (h : InitInv m s addr) (hfirst : m.first i ≤ addr)
    (hk : minOrder ≤ k) (hk' : k ≤ maxOrder) (hal : 2 ^ k ∣ addr) (hend : addr + 2 ^ k ≤ m.last i) :
    ∃ t, initChunk s (decide (m.type i = memAvailable)) addr k = some t ∧
      InitInv m t (addr + 2 ^ k) := by
  have hpow : 2 ^ k = 2 ^ (k - minOrder) * pageSize := by
    rw [show pageSize = 2 ^ minOrder from rfl, ← pow_add, Nat.sub_add_cancel hk]
  obtain ⟨c, rfl⟩ := hal
  have haddr : 2 ^ k * c = 2 ^ (k - minOrder) * c * pageSize := by rw [hpow]; ring
  have hp : 2 ^ k * c / pageSize = 2 ^ (k - minOrder) * c := by
    rw [haddr, Nat.mul_div_cancel _ pageSize_pos]
  have hin := page_lt_npages hin
  unfold initChunk
  dsimp only
  rw [storePage_of_lt _ _ hin, Option.bind_some]
  rw [hp] at hin ⊢
  have hsum : 2 ^ k * c + 2 ^ k = (2 ^ (k - minOrder) * c + 2 ^ (k - minOrder)) * pageSize := by
    rw [haddr, Nat.add_mul, ← hpow]
  have hdvd : 2 ^ (k - minOrder) ∣ 2 ^ (k - minOrder) * c := Nat.dvd_mul_right _ _
  rw [haddr] at hfirst h
  rw [hsum] at hend ⊢
  have hzpos : 0 < 2 ^ (k - minOrder) := Nat.two_pow_pos _
  generalize 2 ^ (k - minOrder) * c = p at *
  generalize hz : 2 ^ (k - minOrder) = z at *
  -- every block made so far ends at or before the new head
  have hbefore : ∀ q, s.Head q → q + s.size q ≤ p := fun q hq =>
    Nat.le_of_mul_le_mul_right (h.below q hq) pageSize_pos
  have hnp : ¬ s.Head p := fun hh => by
    have := hbefore p hh
    have := s.size_pos p
    omega
  set a := decide (m.type i = memAvailable) with ha
  set t := s.setPage p ⟨k, p, !a⟩ with ht
  have hbt : Blocks t := by
    refine h.blocks.setPage hin hk hk' rfl (hz.symm ▸ hdvd)
      fun q _ hq => ⟨fun _ => hbefore q hq, ?_⟩
    intro hlt
    have := hbefore q hq
    omega
  have hlt : Lists t (insert p ∅) := h.lists.setPage _ (Or.inl fun hf => hnp hf.1)
  have hheadp : t.Head p := by
    simp only [Head, ht, setPage_pages_same]
    unfold minOrder at hk
    omega
  have hzp : t.size p = z := by simp [ht, size, hz]
  have hbelow : ∀ q, t.Head q → (q + t.size q) * pageSize ≤ (p + z) * pageSize := by
    intro q hq
    refine Nat.mul_le_mul_right _ ?_
    by_cases hqp : q = p
    · rw [hqp, hzp]
    · have hq' : s.Head q := by simpa [Head, ht, setPage_pages_ne s _ hqp] using hq
      have := hbefore q hq'
      have : t.size q = s.size q := by simp [size, ht, setPage_pages_ne s _ hqp]
      omega
  -- the pages of the chunk are available iff the range is
  have hpages : ∀ x, p ≤ x → x < p + z → (m.Available (x * pageSize) ↔ a = true) := by
    intro x hx hx'
    have h1 := Nat.mul_le_mul_right pageSize hx
    have h2 := Nat.mul_lt_mul_of_pos_right hx' pageSize_pos
    rw [hm.available_iff hi (by omega) (by omega), ha, decide_eq_true_eq]
  have howns : ∀ q x, q ≠ p → (t.Owns [] q x ↔ s.Owns [] q x) := fun q x hqp =>
    Owns_congr (setPage_pages_ne s _ hqp) [] x
  have hcover : ∀ x, t.Covered [] x ↔
      m.Available (x * pageSize) ∧ x * pageSize < (p + z) * pageSize := by
    intro x
    have hbase := h.cover x
    rw [Nat.mul_lt_mul_right pageSize_pos] at hbase ⊢
    constructor
    · rintro ⟨q, hq⟩
      by_cases hqp : q = p
      · subst hqp
        rw [Owns, hzp] at hq
        have hfree : a = true := by simpa [ht] using hq.2.2.2
        exact ⟨(hpages x hq.2.1 hq.2.2.1).mpr hfree, hq.2.2.1⟩
      · have := hbase.mp ⟨q, (howns q x hqp).mp hq⟩
        exact ⟨this.1, by omega⟩
    · rintro ⟨hav, hx⟩
      rcases Nat.lt_or_ge x p with hlt' | hge
      · obtain ⟨q, hq⟩ := hbase.mpr ⟨hav, hlt'⟩
        have hqp : q ≠ p := fun he => hnp (he ▸ hq.1)
        exact ⟨q, (howns q x hqp).mpr hq⟩
      · refine ⟨p, hheadp, hge, by rw [hzp]; exact hx, Or.inl ?_⟩
        simp [ht, (hpages x hge hx).mp hav]
  cases hcase : a with
  | true =>
    have hf : t.FreeHead p := ⟨hheadp, by simp [ht, hcase]⟩
    obtain ⟨hpush, hl⟩ := hlt.pushBack hbt hf (Set.notMem_empty p)
    have hord : (t.pages p).order = k := by simp [ht]
    rw [hord] at hpush hl
    exact ⟨t.setFree k (t.freeBlocks k ++ [p]), by simpa [ht, hcase] using hpush,
      hbt.congr rfl, hl, hbelow, hcover⟩
  | false =>
    refine ⟨t, by simp [ht, hcase], hbt, hlt.settle ?_, hbelow, hcover⟩
    rintro ⟨-, hf⟩
    simp [ht, hcase] at hf

/-- A chunk past physical memory is written past the end of `pages`. -/
theorem initChunk_outside (s : State) (a : Bool) {addr : Nat} (k : Nat)
    (h : memsizePhysical ≤ addr) : initChunk s a addr k = none := by
  have hout : ¬ addr / pageSize < npages := by
    unfold npages memsizePhysical pageSize at *
    omega
  unfold initChunk storePage
  dsimp only
  rw [if_neg hout, Option.bind_none]

/-- **One range.**  It is cut into chunks up to its end, unless that is past physical
memory. -/
theorem initRange_spec {m : MemRangeSet} (hm : m.Valid) {i : Nat} (hi : i < m.n)
    (hpages : m.type i = memAvailable → pageSize ∣ m.first i ∧ pageSize ∣ m.last i) :
    ∀ (fuel addr : Nat) (s : State), InitInv m s addr → m.first i ≤ addr → addr ≤ m.last i →
      (m.type i = memAvailable → pageSize ∣ addr) → m.last i - addr < fuel →
      (∃ t, initRange (decide (m.type i = memAvailable)) (m.last i) fuel addr s = some t ∧
        InitInv m t (m.last i)) ∨
      (initRange (decide (m.type i = memAvailable)) (m.last i) fuel addr s = none ∧
        memsizePhysical < m.last i) := by
  intro fuel
  induction fuel with
  | zero => intro addr s _ _ _ _ hf; omega
  | succ fuel ih =>
    intro addr s h hfirst hlast hal hf
    rw [initRange]
    by_cases hlt : addr < m.last i
    · rw [if_pos hlt]
      cases hmax : findMaxOrder addr (m.last i) with
      | some k =>
        dsimp only
        by_cases hin : addr < memsizePhysical
        · obtain ⟨hk, hk', hdvd, hend⟩ := findMaxOrder_some hmax
          obtain ⟨t, hchunk, ht⟩ := initChunk_spec hm hi hin h hfirst hk hk' hdvd hend
          have hpos : 0 < 2 ^ k := Nat.two_pow_pos k
          rw [hchunk, Option.bind_some]
          exact ih (addr + 2 ^ k) t ht (by omega) hend
            (fun ha => Nat.dvd_add (hal ha) (Nat.pow_dvd_pow 2 hk)) (by omega)
        · rw [initChunk_outside _ _ _ (Nat.le_of_not_lt hin), Option.bind_none]
          exact Or.inr ⟨rfl, by omega⟩
      | none =>
        -- only a range that is not available can stop short of its end
        have hna : m.type i ≠ memAvailable := fun ha => by
          obtain ⟨k, hk⟩ := findMaxOrder_isSome (hal ha) (hpages ha).2 hlt
          rw [hk] at hmax
          cases hmax
        refine Or.inl ⟨s, rfl, h.extend hlast fun x h1 h2 hav => hna ?_⟩
        exact (hm.available_iff hi (hfirst.trans h1) h2).mp hav
    · rw [if_neg hlt]
      obtain rfl : addr = m.last i := by omega
      exact Or.inl ⟨s, rfl, h⟩

/-- A range that has been cut into chunks. -/
theorem initRange_inv {m : MemRangeSet} (hm : m.Valid) {i : Nat} (hi : i < m.n)
    (hpages : m.type i = memAvailable → pageSize ∣ m.first i ∧ pageSize ∣ m.last i)
    {s t : State} (h : InitInv m s (m.first i)) (hlast : m.first i ≤ m.last i)
    (hrun : initRange (decide (m.type i = memAvailable)) (m.last i) (m.last i - m.first i + 1)
      (m.first i) s = some t) : InitInv m t (m.last i) := by
  rcases initRange_spec hm hi hpages (m.last i - m.first i + 1) (m.first i) s h (Nat.le_refl _)
    hlast (fun ha => (hpages ha).1) (by omega) with ⟨u, hu, hinv⟩ | ⟨hnone, -⟩
  · obtain rfl : u = t := Option.some.inj (hu.symm.trans hrun)
    exact hinv
  · rw [hnone] at hrun
    cases hrun

theorem initRanges_spec (m : PhysicalRanges) : ∀ (fuel i : Nat) (s : State),
    InitInv m.toMemRangeSet s (m.first i) → i ≤ m.n → m.n - i < fuel →
    (∃ t, initRanges m.toMemRangeSet fuel i s = some t ∧
      Inv (fun x => m.Available (x * pageSize)) t []) ∨
    (initRanges m.toMemRangeSet fuel i s = none ∧ m.Crosses) := by
  intro fuel
  induction fuel with
  | zero => intro i s _ _ hf; omega
  | succ fuel ih =>
    intro i s h hi hf
    rw [initRanges]
    by_cases hlt : m.first i < memsizePhysical
    · rw [if_pos hlt]
      -- the limit is past physical memory, so the loop stops before the sentinel
      have hin : i < m.n := lt_of_le_of_ne hi fun he => by
        have hlim := m.limit_eq
        rw [MemRangeSet.limit, ← he] at hlim
        rw [hlim] at hlt
        exact absurd hlt (by decide)
      have hfl := m.valid.first_lt_last i hin
      rcases initRange_spec m.valid hin
        (fun ha => ⟨(m.available_pages i hin ha).1, (m.available_pages i hin ha).2.1⟩)
        (m.last i - m.first i + 1) (m.first i) s h (Nat.le_refl _) hfl.le
        (fun ha => (m.available_pages i hin ha).1) (by omega) with ⟨t, hrun, ht⟩ | ⟨hnone, hcross⟩
      · rw [hrun, Option.bind_some]
        exact ih (i + 1) t ht hin (by omega)
      · rw [hnone, Option.bind_none]
        exact Or.inr ⟨rfl, i, hin, hlt, hcross⟩
    · rw [if_neg hlt]
      refine Or.inl ⟨s, rfl, h.blocks, h.lists, ?_, fun x => ?_, by simp, List.nodup_nil⟩
      · rintro x ⟨j, hj, htype, -, hx⟩
        have := (m.available_pages j hj htype).2.2
        exact Nat.lt_of_mul_lt_mul_right (lt_of_lt_of_le hx this)
      · rw [h.cover]
        refine ⟨fun ha => ⟨ha, ?_⟩, fun ha => ha.1⟩
        obtain ⟨j, hj, htype, -, hx⟩ := ha
        have := (m.available_pages j hj htype).2.2
        omega

/-- The allocator that has been cleared, and no range passed. -/
theorem initInv_zero (m : MemRangeSet) (mem : Nat → UInt8) :
    InitInv m ⟨fun _ => PageState.zero, fun _ => [], mem⟩ 0 := by
  have hhead : ∀ p, ¬ (⟨fun _ => PageState.zero, fun _ => [], mem⟩ : State).Head p :=
    fun p => by simp [Head, PageState.zero]
  refine ⟨?_, ?_, fun p hp => absurd hp (hhead p), fun x => ?_⟩
  · exact ⟨fun _ _ => rfl, fun p hp => absurd hp (hhead p), fun p hp => absurd hp (hhead p),
      fun p hp => absurd hp (hhead p), fun p hp => absurd hp (hhead p),
      fun p hp => absurd hp (hhead p), fun p _ hp => absurd hp (hhead p)⟩
  · exact ⟨fun k p => ⟨fun h => absurd h (by simp), fun h => absurd h.1.1 (hhead p)⟩,
      fun _ => List.nodup_nil⟩
  · exact ⟨fun ⟨p, hp⟩ => absurd hp.1 (hhead p), fun ⟨_, h⟩ => absurd h (by omega)⟩

/-- **`init_kalloc` establishes the invariant**: exactly the available pages are in
free blocks, and nothing is handed out.  Otherwise it has left the array. -/
theorem initKalloc_spec (m : PhysicalRanges) (mem : Nat → UInt8) :
    (∃ s, initKalloc m.toMemRangeSet mem = some s ∧
      Inv (fun x => m.Available (x * pageSize)) s []) ∨
    (initKalloc m.toMemRangeSet mem = none ∧ m.Crosses) := by
  refine initRanges_spec m (m.n + 1) 0 _ ?_ (Nat.zero_le _) (by omega)
  rw [m.valid.first_zero]
  exact initInv_zero _ mem

theorem initKalloc_inv {m : PhysicalRanges} {mem : Nat → UInt8} {s : State}
    (h : initKalloc m.toMemRangeSet mem = some s) :
    Inv (fun x => m.Available (x * pageSize)) s [] := by
  rcases initKalloc_spec m mem with ⟨t, ht, hinv⟩ | ⟨hnone, -⟩
  · obtain rfl : t = s := Option.some.inj (ht.symm.trans h)
    exact hinv
  · rw [hnone] at h
    cases h

theorem initKalloc_some (m : PhysicalRanges) (h : ¬ m.Crosses)
    (mem : Nat → UInt8) : ∃ s, initKalloc m.toMemRangeSet mem = some s := by
  rcases initKalloc_spec m mem with ⟨s, hs, -⟩ | ⟨-, hcross⟩
  · exact ⟨s, hs⟩
  · exact absurd hcross h

/-! ## Runs of the allocator -/

/-- A call. -/
inductive Op
  | kalloc (sz : Nat)
  | kfree (pa : Nat)

/-- The allocator and the addresses of the blocks its clients hold. -/
structure Heap where
  alloc : State
  live : List Nat

/-- The largest request the clients make. -/
def maxRequest : Nat := 2 ^ 24

/-- One call.  A client asks for between `1` and `maxRequest` bytes, and frees only a
block it holds. -/
def heapStep (h : Heap) : Op → Option Heap
  | .kalloc sz =>
    if 0 < sz ∧ sz ≤ maxRequest then
      (kalloc h.alloc sz).map fun (s, r) => ⟨s, r.toList ++ h.live⟩
    else none
  | .kfree pa =>
    if pa ∈ h.live then (kfree h.alloc (some pa)).map fun s => ⟨s, h.live.erase pa⟩ else none

/-- The allocator from `init_kalloc` on, over the ranges `m` and any initial contents
of memory. -/
def heap (m : PhysicalRanges) : Machine Heap Op where
  init h := (∃ mem, initKalloc m.toMemRangeSet mem = some h.alloc) ∧ h.live = []
  step := heapStep

theorem heapStep_inv {avail : Nat → Prop} {h h' : Heap} {op : Op}
    (hi : Inv avail h.alloc h.live) (hstep : heapStep h op = some h') :
    Inv avail h'.alloc h'.live := by
  cases op with
  | kalloc sz =>
    simp only [heapStep] at hstep
    split at hstep
    · obtain ⟨t, r, hrun, ht⟩ := kalloc_inv hi sz
      rw [hrun, Option.map_some] at hstep
      obtain rfl := Option.some.inj hstep
      exact ht
    · cases hstep
  | kfree pa =>
    simp only [heapStep] at hstep
    split at hstep
    · rename_i hpa
      obtain ⟨t, hrun, ht⟩ := kfree_inv hi hpa
      rw [hrun, Option.map_some] at hstep
      obtain rfl := Option.some.inj hstep
      exact ht
    · cases hstep

/-- The invariant holds in every state of every run. -/
theorem heap_inv {m : PhysicalRanges} {h : Heap} (hr : (heap m).Reach h) :
    Inv (fun x => m.Available (x * pageSize)) h.alloc h.live := by
  refine Machine.Reach.invariant (fun h => Inv _ h.alloc h.live) ?_
    (fun _ _ _ hi hstep => heapStep_inv hi hstep) hr
  rintro ⟨s, live⟩ ⟨⟨mem, hinit⟩, rfl⟩
  exact initKalloc_inv hinit

/-- The available addresses are whole pages. -/
theorem available_page (m : PhysicalRanges) (a : Nat) :
    m.Available a ↔ m.Available (a / pageSize * pageSize) := by
  have hle : a / pageSize * pageSize ≤ a := Nat.div_mul_le_self a pageSize
  have hlt : a < (a / pageSize + 1) * pageSize := by
    rw [Nat.mul_comm]; exact Nat.lt_mul_div_succ a pageSize_pos
  refine exists_congr fun i => and_congr_right fun hi => and_congr_right fun ht => ?_
  obtain ⟨⟨b, hb⟩, ⟨c, hc⟩, -⟩ := m.available_pages i hi ht
  rw [hb, hc, Nat.mul_comm pageSize b, Nat.mul_comm pageSize c]
  constructor
  · rintro ⟨h1, h2⟩
    exact ⟨Nat.mul_le_mul_right _ ((Nat.le_div_iff_mul_le pageSize_pos).mpr h1), by omega⟩
  · rintro ⟨h1, h2⟩
    have := Nat.lt_of_mul_lt_mul_right h2
    exact ⟨by omega, lt_of_lt_of_le hlt (Nat.mul_le_mul_right _ this)⟩

/-- Byte address `a` lies in the block headed by `p`. -/
def State.InBlock (s : State) (p a : Nat) : Prop :=
  p * pageSize ≤ a ∧ a < p * pageSize + 2 ^ (s.pages p).order

theorem inBlock_iff {s : State} (hb : Blocks s) {p : Nat} (hp : s.Head p) (a : Nat) :
    s.InBlock p a ↔ p ≤ a / pageSize ∧ a / pageSize < p + s.size p := by
  have hpow : 2 ^ (s.pages p).order = s.size p * pageSize := by
    rw [size, show pageSize = 2 ^ minOrder from rfl, ← pow_add,
      Nat.sub_add_cancel (hb.order_ge p hp)]
  rw [State.InBlock, hpow, ← Nat.add_mul, Nat.le_div_iff_mul_le pageSize_pos,
    Nat.div_lt_iff_lt_mul pageSize_pos]

/-- **The buddy allocator's invariant.**  `init_kalloc` succeeds over ranges with a boundary at the
end of physical memory, and in every state reached from it by `kalloc` and by `kfree` of blocks
handed out:

1. every head has a legal order, its own index and an address aligned to its size;
2. no two blocks overlap;
3. a page is on the list of order `k` exactly once if it heads a free block of order
   `k`, and not at all otherwise;
4. the free blocks and the blocks handed out, which are allocated heads, cover exactly
   the available addresses;

and no call fails an assertion. -/
theorem buddy_invariant (m : PhysicalRanges) :
    ((∃ i < m.n, m.last i = memsizePhysical) →
      ∀ mem, ∃ s, initKalloc m.toMemRangeSet mem = some s) ∧
    ∀ h, (heap m).Reach h →
      (∀ p, h.alloc.Head p → minOrder ≤ (h.alloc.pages p).order ∧
        (h.alloc.pages p).order ≤ maxOrder ∧ (h.alloc.pages p).pindex = p ∧
        p * pageSize % 2 ^ (h.alloc.pages p).order = 0) ∧
      (∀ p q a, h.alloc.Head p → h.alloc.Head q → h.alloc.InBlock p a → h.alloc.InBlock q a →
        p = q) ∧
      (∀ k p, (h.alloc.freeBlocks k).count p =
        if h.alloc.Head p ∧ (h.alloc.pages p).allocated = false ∧ (h.alloc.pages p).order = k
        then 1 else 0) ∧
      (∀ pa ∈ h.live, ∃ p, pa = p * pageSize ∧ h.alloc.Head p ∧
        (h.alloc.pages p).allocated = true) ∧
      (∀ a, m.Available a ↔ ∃ p, h.alloc.Head p ∧ h.alloc.InBlock p a ∧
        ((h.alloc.pages p).allocated = false ∨ p * pageSize ∈ h.live)) ∧
      (∀ sz, (kalloc h.alloc sz).isSome = true) ∧
      (∀ pa ∈ h.live, (kfree h.alloc (some pa)).isSome = true) := by
  refine ⟨fun hend => initKalloc_some m (m.valid.not_crosses hend), fun h hr => ?_⟩
  have hi := heap_inv hr
  refine ⟨fun p hp => ?_, fun p q a hp hq hpa hqa => ?_, fun k p => ?_, hi.live_head, fun a => ?_,
    fun sz => ?_, fun pa hpa => ?_⟩
  · have hge := hi.blocks.order_ge p hp
    refine ⟨hge, hi.blocks.order_le p hp, hi.blocks.pindex_eq p hp, Nat.mod_eq_zero_of_dvd ?_⟩
    rw [← Nat.sub_add_cancel hge, pow_add]
    exact Nat.mul_dvd_mul (hi.blocks.aligned p hp) (Nat.dvd_refl _)
  · rw [inBlock_iff hi.blocks hp] at hpa
    rw [inBlock_iff hi.blocks hq] at hqa
    exact hi.blocks.head_unique hp hq hpa.1 hpa.2 hqa.1 hqa.2
  · rw [(hi.lists.nodup k).count]
    refine if_congr ?_ rfl rfl
    rw [hi.lists.mem_iff]
    simp only [FreeHead, Set.mem_empty_iff_false, not_false_iff, and_true, and_assoc]
  · rw [available_page, hi.cover]
    refine exists_congr fun p => and_congr_right fun hp => ?_
    rw [inBlock_iff hi.blocks hp, and_assoc]
  · obtain ⟨t, r, hrun, -⟩ := kalloc_inv hi sz
    rw [hrun]; rfl
  · obtain ⟨t, hrun, -⟩ := kfree_inv hi hpa
    rw [hrun]; rfl

/-- Memory with a reserved page `0` and a hole for devices, and then one range that does
not end with physical memory. -/
def crossingRanges : PhysicalRanges where
  n := 5
  r i := match i with
    | 0 => ⟨0, 3⟩
    | 1 => ⟨0x1000, 1⟩
    | 2 => ⟨0x8000, 3⟩
    | 3 => ⟨0xa000, 1⟩
    | 4 => ⟨0x10000, 0⟩
    | _ => ⟨0x100000000, 0⟩
  valid := ⟨rfl, by decide⟩
  limit_eq := rfl
  available_pages := by decide

/-- The last range is cut into blocks to its end: the block at `0x2000000` has its page
state past the end of `pages`. -/
theorem initKalloc_crossing : initKalloc crossingRanges.toMemRangeSet (fun _ => 0) = none := rfl

/-- The same memory with a boundary where physical memory ends. -/
def smallRanges : PhysicalRanges where
  n := 6
  r i := match i with
    | 0 => ⟨0, 3⟩
    | 1 => ⟨0x1000, 1⟩
    | 2 => ⟨0x8000, 3⟩
    | 3 => ⟨0xa000, 1⟩
    | 4 => ⟨0x10000, 3⟩
    | 5 => ⟨0x1e00000, 0⟩
    | _ => ⟨0x100000000, 0⟩
  valid := ⟨rfl, by decide⟩
  limit_eq := rfl
  available_pages := by decide

theorem smallRanges_end : ∃ i < smallRanges.n, smallRanges.last i = memsizePhysical :=
  ⟨4, by decide, rfl⟩

/-- After a request that splits a block, the block handed out and the free blocks cover
the available addresses. -/
theorem buddy_invariant_small : ∃ h, (heap smallRanges).Reach h ∧ h.live = [0x2000] ∧
    ∀ a, smallRanges.Available a ↔ ∃ p, h.alloc.Head p ∧ h.alloc.InBlock p a ∧
      ((h.alloc.pages p).allocated = false ∨ p * pageSize ∈ h.live) := by
  obtain ⟨s, hs⟩ := (buddy_invariant smallRanges).1 smallRanges_end (fun _ => 0)
  have hrun : ((heap smallRanges).run ⟨s, []⟩ [.kalloc 1, .kalloc 1, .kfree 0x1000]).map
      Heap.live = some [0x2000] := by
    have : ((initKalloc smallRanges.toMemRangeSet fun _ => 0).bind fun s =>
        (heap smallRanges).run ⟨s, []⟩ [.kalloc 1, .kalloc 1, .kfree 0x1000]).map
        Heap.live = some [0x2000] := by decide +kernel
    rwa [hs] at this
  obtain ⟨h, hh, hlive⟩ := Option.map_eq_some_iff.mp hrun
  have hreach : (heap smallRanges).Reach h :=
    Machine.Reach.run (Machine.Reach.init ⟨⟨_, hs⟩, rfl⟩) hh
  exact ⟨h, hreach, hlive, ((buddy_invariant smallRanges).2 h hreach).2.2.2.2.1⟩

end PugOS.KAlloc
