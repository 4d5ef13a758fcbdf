import Mathlib.Tactic.IntervalCases
import PugOS.KAllocExact

/-! # Merging is complete

No state has two free blocks that are halves of one block (`Coalesced`).  `init_kalloc` makes the
largest block that fits each time, so no two of its blocks can be put together; `kalloc` breaks
up one block and hands out the lowest part, which separates the other parts; and `kfree` goes on
until the buddy is not free.

A coalesced allocator has one block over every aligned region that is free (`exists_over`), so its
free blocks depend on the free pages alone.  It also follows when `kfree` looks past the end of
`pages`: it does if the last two megabytes of memory become one block.
-/
namespace PugOS.KAlloc
open Transition State

/-- Block `q` is the upper half, and block `p` the lower half, of a block twice as large. -/
structure Halves (s : State) (p q : Nat) : Prop where
  order : (s.pages q).order = (s.pages p).order
  next : q = p + s.size p
  aligned : 2 * s.size p ∣ p

/-- No two free blocks can be put together, but for those in `limbo`. -/
def CoalescedBut (s : State) (limbo : Set Nat) : Prop :=
  ∀ p q, s.FreeHead p → s.FreeHead q → p ∉ limbo → q ∉ limbo → (s.pages p).order < maxOrder →
    ¬ Halves s p q

def Coalesced (s : State) : Prop := CoalescedBut s ∅

section Halves
variable {s t : State} {p q k : Nat} {limbo limbo' : Set Nat}

theorem double_size (hb : Blocks s) (hp : s.Head p) : 2 ^ ((s.pages p).order + 1 - minOrder) = 2 *
    s.size p := by
  have hge := hb.order_ge p hp
  rw [Nat.sub_add_comm hge, pow_succ, Nat.mul_comm]
  rfl

/-- Two halves are buddies of each other. -/
theorem Halves.buddy (hb : Blocks s) (hp : s.Head p) (hq : s.Head q) (h : Halves s p q) :
    buddyPindex p (s.pages p).order = q ∧ buddyPindex q (s.pages q).order = p := by
  have hpos := s.size_pos p
  have hsize : s.size q = s.size p := by rw [size, h.order, size]
  have hnext := h.next
  constructor
  · rcases buddyPindex_cases (hb.order_ge p hp) (hb.aligned p hp) with ⟨he, -⟩ | ⟨he, hdvd⟩
    · rw [he, hnext]
      rfl
    · rw [double_size hb hp] at hdvd
      have he : buddyPindex p (s.pages p).order + s.size p = p := he
      have hd : 2 * s.size p ∣ s.size p := by
        refine (Nat.dvd_add_right hdvd).mp ?_
        rw [he]
        exact h.aligned
      exact absurd (Nat.le_of_dvd hpos hd) (by omega)
  · rcases buddyPindex_cases (hb.order_ge q hq) (hb.aligned q hq) with ⟨-, hdvd⟩ | ⟨he, -⟩
    · rw [double_size hb hq, hsize] at hdvd
      have hd : 2 * s.size p ∣ s.size p := (Nat.dvd_add_right h.aligned).mp (hnext ▸ hdvd)
      exact absurd (Nat.le_of_dvd hpos hd) (by omega)
    · have he : buddyPindex q (s.pages q).order + s.size q = q := he
      rw [hsize] at he
      omega

/-- A buddy of the same order is the other half. -/
theorem halves_of_buddy (hb : Blocks s) (hp : s.Head p)
    (ho : (s.pages q).order = (s.pages p).order) (h : q = buddyPindex p (s.pages p).order) :
    Halves s p q ∨ Halves s q p := by
  have hsize : s.size q = s.size p := by rw [size, ho, size]
  rcases buddyPindex_cases (hb.order_ge p hp) (hb.aligned p hp) with ⟨he, hdvd⟩ | ⟨he, hdvd⟩
  · rw [double_size hb hp] at hdvd
    exact .inl ⟨ho, h.trans he, hdvd⟩
  · rw [double_size hb hp, ← h] at hdvd
    rw [← h] at he
    refine .inr ⟨ho.symm, ?_, ?_⟩
    · rw [hsize]
      exact he.symm
    · rwa [hsize]

theorem CoalescedBut.mono (h : CoalescedBut s limbo)
    (hsame : ∀ p, t.FreeHead p → p ∉ limbo' → p ∉ limbo ∧ t.pages p = s.pages p) :
    CoalescedBut t limbo' := by
  intro p q hp hq hpl hql hmax hh
  obtain ⟨hpl', hpe⟩ := hsame p hp hpl
  obtain ⟨hql', hqe⟩ := hsame q hq hql
  refine h p q ?_ ?_ hpl' hql' (hpe ▸ hmax) ?_
  · rwa [FreeHead, Head, ← hpe]
  · rwa [FreeHead, Head, ← hqe]
  · have hsz : s.size p = t.size p := by rw [size, size, hpe]
    exact ⟨by rw [← hqe, ← hpe]; exact hh.order, by rw [hsz]; exact hh.next,
      by rw [hsz]; exact hh.aligned⟩

end Halves
/-! ## `kalloc` -/

section Kalloc
variable {avail : Nat → Prop} {s t : State} {live rest : List Nat} {p j k : Nat} {r : Option Nat}

/-- The parts of the block that has been broken up are apart. -/
theorem Served.coalesced (h : Served s t p k j rest) (hb : Blocks s) (hc : Candidate s p k j rest)
    (hk : minOrder ≤ k) (hs : Coalesced s) : Coalesced t := by
  have hp : ¬ t.FreeHead p := by
    rintro ⟨-, ha⟩
    rw [h.result] at ha
    cases ha
  -- a free block is one of the parts or was free
  have hcases : ∀ q, t.FreeHead q →
      (∃ i, k ≤ i ∧ i < j ∧ q = p + 2 ^ (i - minOrder) ∧ (t.pages q).order = i) ∨
      t.pages q = s.pages q := by
    intro q hq
    by_cases hpart : ∃ i, k ≤ i ∧ i < j ∧ q = p + 2 ^ (i - minOrder)
    · obtain ⟨i, hi, hij, rfl⟩ := hpart
      exact .inl ⟨i, hi, hij, rfl, by rw [h.pieces i hi hij]⟩
    · refine .inr (h.pages q (fun he => hp (he ▸ hq)) fun i hi hij he => hpart ⟨i, hi, hij, he⟩)
  intro a b ha hb' _ _ hmax hh
  have hpos := t.size_pos a
  rcases hcases a ha with ⟨i, hi, hij, hai, hao⟩ | hae
  · -- the part begins in the middle of a block of twice its size
    have hsize : t.size a = 2 ^ (i - minOrder) := by rw [size, hao]
    have hdvd : 2 * 2 ^ (i - minOrder) ∣ p := by
      rw [← pow_succ', ← Nat.sub_add_comm (hk.trans hi)]
      have hal := hb.aligned p hc.free.1
      rw [size, hc.order] at hal
      exact (Nat.pow_dvd_pow 2 (by omega)).trans hal
    have hal := hh.aligned
    rw [hsize, hai] at hal
    have hd := (Nat.dvd_add_right hdvd).mp hal
    rw [hsize] at hpos
    exact absurd (Nat.le_of_dvd hpos hd) (by omega)
  · rcases hcases b hb' with ⟨i, hi, hij, hbi, hbo⟩ | hbe
    · have hsize : t.size a = 2 ^ (i - minOrder) := by rw [size, ← hh.order, hbo]
      have hnext := hh.next
      rw [hsize, hbi] at hnext
      obtain rfl := Nat.add_right_cancel hnext
      exact hp ha
    · refine hs a b ?_ ?_ (Set.notMem_empty a) (Set.notMem_empty b) (hae ▸ hmax) ?_
      · rwa [FreeHead, Head, ← hae]
      · rwa [FreeHead, Head, ← hbe]
      · have hsz : s.size a = t.size a := by rw [size, size, hae]
        exact ⟨by rw [← hbe, ← hae]; exact hh.order, by rw [hsz]; exact hh.next,
          by rw [hsz]; exact hh.aligned⟩

theorem kalloc_coalesced (hi : Inv avail s live) (hs : Coalesced s) {sz : Nat}
    (h : kalloc s sz = some (t, r)) : Coalesced t := by
  by_cases hsz : sz = 0
  · rw [kalloc, if_pos hsz] at h
    cases h
    exact hs
  · rcases kalloc_cases hi hsz with ⟨hrun, -⟩ | ⟨-, t', p, j, rest, hrun, hc, ht⟩
    · rw [h] at hrun
      cases hrun
      exact hs
    · rw [h] at hrun
      cases hrun
      exact ht.coalesced hi.blocks hc (requestOrder_ge sz) hs

end Kalloc
/-! ## `kfree` -/

section Kfree
variable {s t : State} {p q fuel : Nat}

/-- What a round of merging changes: the two halves. -/
theorem merge_pages (h : merge s p = some (t, q)) (hne : buddyPindex p (s.pages p).order ≠ p) :
    q = min p (buddyPindex p (s.pages p).order) ∧ ∀ r, r ≠ q → t.FreeHead r →
      r ≠ p ∧ t.pages r = s.pages r := by
  unfold merge at h
  dsimp only at h
  generalize buddyPindex p (s.pages p).order = b at *
  obtain ⟨s₁, herase, h⟩ := Option.bind_eq_some_iff.mp h
  have hpages : s₁.pages = s.pages := by
    unfold State.erase at herase
    split at herase
    · cases herase
      rfl
    · cases herase
  obtain ⟨rfl, rfl⟩ := Prod.mk.inj (Option.some.inj h)
  refine ⟨rfl, fun r hr hfree => ?_⟩
  have hmax : r ≠ max p b := by
    rintro rfl
    refine hfree.1 ?_
    rw [setPage_pages_ne _ _ hr, setPage_pages_same]
    rfl
  refine ⟨fun he => ?_, ?_⟩
  · rcases Nat.lt_or_gt_of_ne hne with hlt | hlt <;> omega
  · rw [setPage_pages_ne _ _ hr, setPage_pages_ne _ _ hmax, hpages]

theorem buddy_ne (hb : Blocks s) (hp : s.Head p) : buddyPindex p (s.pages p).order ≠ p := by
  have hpos := s.size_pos p
  unfold size at hpos
  rcases buddyPindex_cases (hb.order_ge p hp) (hb.aligned p hp) with ⟨he, -⟩ | ⟨he, -⟩ <;> omega

/-- The block that is linked in the end cannot be put together with another. -/
theorem coalesced_of_not_mergeable (hb : Blocks s) (hin : ∀ q, s.FreeHead q → q < npages)
    (hp : s.FreeHead p) (hs : CoalescedBut s {p}) (hm : mergeable s p = false) : Coalesced s := by
  -- a free buddy of the same order below the maximum would have been merged
  have hno : ∀ q, s.FreeHead q → (s.pages q).order = (s.pages p).order →
      (s.pages p).order < maxOrder → buddyPindex p (s.pages p).order ≠ q := by
    rintro q hq ho hmax rfl
    have hlt := hin _ hq
    have : mergeable s p = true := by
      unfold mergeable
      dsimp only
      rw [hq.2, ho, decide_eq_true hlt, decide_eq_true rfl, decide_eq_true (Nat.ne_of_lt hmax)]
      rfl
    rw [hm] at this
    cases this
  intro a b ha hb' _ _ hmax hh
  obtain ⟨hab, hba⟩ := hh.buddy hb ha.1 hb'.1
  by_cases hap : a = p
  · subst hap
    exact hno b hb' hh.order hmax hab
  · by_cases hbp : b = p
    · subst hbp
      exact hno a ha hh.order.symm (hh.order ▸ hmax) hba
    · exact hs a b ha hb' hap hbp hmax hh

end Kfree
/-! ## The rounds of the loop -/

/-- The loop of `kfree` gets from block `p` to block `q`. -/
inductive Rounds : State → Nat → State → Nat → Prop
  | refl (s : State) (p : Nat) : Rounds s p s p
  | round {s t u : State} {p q r : Nat} (hm : mergeable s p = true) (h : merge s p = some (t, q))
      (hrest : Rounds t q u r) : Rounds s p u r

/-- The indices of `pages` the loop reads or writes. -/
def coalesceIndices : Nat → State → Nat → List Nat
  | 0, _, _ => []
  | fuel + 1, s, p =>
    [p, buddyPindex p (s.pages p).order] ++
      if mergeable s p then
        match merge s p with
        | some (s, p) => coalesceIndices fuel s p
        | none => []
      else []

/-- What the rounds have done: the block has grown, and the other free blocks are as they were. -/
structure Grown (s : State) (p : Nat) (t : State) (q : Nat) : Prop where
  reshaped : Reshaped s t {q}
  free : t.FreeHead q
  first : q ≤ p
  last : p + s.size p ≤ q + t.size q
  others : ∀ r, r ≠ q → t.FreeHead r → r ≠ p ∧ t.pages r = s.pages r

section Rounds
variable {s t u : State} {p q fuel i : Nat}

theorem Grown.refl (hb : Blocks s) (hl : Lists s {p}) (hp : s.FreeHead p) : Grown s p s p :=
  ⟨⟨hb, hl, fun _ _ => Iff.rfl, fun _ _ => rfl, rfl⟩, hp, Nat.le_refl p, Nat.le_refl _,
    fun _ hr _ => ⟨hr, rfl⟩⟩

theorem merge_grown (hb : Blocks s) (hl : Lists s {p}) (hp : s.FreeHead p)
    (hm : mergeable s p = true) (h : merge s p = some (t, q)) : Grown s p t q := by
  obtain ⟨t', q', hmerge, hr, hfree, horder⟩ := merge_spec hb hl hp hm
  rw [h] at hmerge
  cases hmerge
  obtain ⟨hq, hothers⟩ := merge_pages h (buddy_ne hb hp.1)
  have hsize : t.size q = 2 * s.size p := by rw [size, horder, double_size hb hp.1]
  have hbuddy := buddyPindex_cases (hb.order_ge p hp.1) (hb.aligned p hp.1)
  change (_ = p + s.size p ∧ _) ∨ (_ + s.size p = p ∧ _) at hbuddy
  exact ⟨hr, hfree, by omega, by omega, hothers⟩

theorem Grown.trans {r : Nat} (h : Grown s p t q) (h' : Grown t q u r) : Grown s p u r := by
  have hpos := s.size_pos p
  have hfirst := h.first
  have hlast := h.last
  have hfirst' := h'.first
  have hlast' := h'.last
  refine ⟨h.reshaped.trans h'.reshaped, h'.free, by omega, by omega, fun x hx hxf => ?_⟩
  obtain ⟨hxq, hxe⟩ := h'.others x hx hxf
  obtain ⟨hxp, hxe'⟩ := h.others x hxq (by rwa [FreeHead, Head, ← hxe])
  exact ⟨hxp, hxe.trans hxe'⟩

theorem Rounds.grown (h : Rounds s p t q) : Blocks s → Lists s {p} → s.FreeHead p →
    Grown s p t q := by
  induction h with
  | refl s p => exact Grown.refl
  | round hm h _ ih =>
    intro hb hl hp
    have hgrown := merge_grown hb hl hp hm h
    exact hgrown.trans (ih hgrown.reshaped.blocks hgrown.reshaped.lists hgrown.free)

/-- The loop ends after some rounds, and links the block. -/
theorem coalesce_rounds : ∀ {fuel : Nat} {s : State} {p : Nat}, coalesce fuel s p = some t →
    ∃ u q, Rounds s p u q ∧ mergeable u q = false ∧ t.pages = u.pages := by
  intro fuel
  induction fuel with
  | zero => exact fun h => nomatch h
  | succ fuel ih =>
    intro s p h
    rw [coalesce] at h
    by_cases hm : mergeable s p = true
    · rw [if_pos hm] at h
      obtain ⟨⟨s', p'⟩, hmerge, h⟩ := Option.bind_eq_some_iff.mp h
      obtain ⟨u, q, hrounds, hend, hpages⟩ := ih h
      exact ⟨u, q, .round hm hmerge hrounds, hend, hpages⟩
    · rw [if_neg hm] at h
      exact ⟨s, p, .refl s p, Bool.eq_false_iff.mpr hm, pushBack_pages h⟩

theorem rounds_of_index : ∀ {fuel : Nat} {s : State} {p : Nat}, i ∈ coalesceIndices fuel s p →
    ∃ u q, Rounds s p u q ∧ (i = q ∨ i = buddyPindex q (u.pages q).order) := by
  intro fuel
  induction fuel with
  | zero => exact fun h => nomatch h
  | succ fuel ih =>
    intro s p h
    rw [coalesceIndices] at h
    rcases List.mem_append.mp h with h | h
    · rw [List.mem_pair] at h
      exact ⟨s, p, .refl s p, h⟩
    · split at h
      · rename_i hm
        cases hmerge : merge s p with
        | none =>
          rw [hmerge] at h
          cases h
        | some r =>
          rw [hmerge] at h
          obtain ⟨u, q, hrounds, hi⟩ := ih h
          exact ⟨u, q, .round hm hmerge hrounds, hi⟩
      · cases h

/-- The loop looks at the buddy in every round. -/
theorem index_of_rounds (h : Rounds s p u q) : ∀ {fuel : Nat}, coalesce fuel s p = some t →
    buddyPindex q (u.pages q).order ∈ coalesceIndices fuel s p := by
  induction h with
  | refl s p =>
    intro fuel hrun
    cases fuel with
    | zero => cases hrun
    | succ fuel =>
      rw [coalesceIndices]
      exact List.mem_append_left _ (List.mem_cons_of_mem _ List.mem_cons_self)
  | round hm hmerge _ ih =>
    intro fuel hrun
    cases fuel with
    | zero => cases hrun
    | succ fuel =>
      rw [coalesce, if_pos hm, hmerge] at hrun
      rw [coalesceIndices, if_pos hm, hmerge]
      exact List.mem_append_right _ (ih hrun)

theorem Coalesced.congr (h : Coalesced s) (hpages : t.pages = s.pages) : Coalesced t :=
  CoalescedBut.mono h fun p _ _ => ⟨Set.notMem_empty p, by rw [hpages]⟩

/-- **Merging ends with no two halves.** -/
theorem coalesce_coalesced (hb : Blocks s) (hl : Lists s {p}) (hp : s.FreeHead p)
    (hin : ∀ x, s.Covered [] x → x < npages) (hs : CoalescedBut s {p})
    (h : coalesce fuel s p = some t) :
    Coalesced t := by
  obtain ⟨u, q, hrounds, hend, hpages⟩ := coalesce_rounds h
  have hgrown := hrounds.grown hb hl hp
  have hu : CoalescedBut u {q} := hs.mono fun r hr hrq => hgrown.others r hrq hr
  refine Coalesced.congr
    (coalesced_of_not_mergeable hgrown.reshaped.blocks (fun r hr => hin r ?_) hgrown.free hu hend)
    hpages
  have hpos := u.size_pos r
  exact (hgrown.reshaped.covered [] r).mp ⟨r, (Owns_of_free hr [] r).mpr ⟨Nat.le_refl r, by omega⟩⟩

end Rounds
/-! ## `init_kalloc` -/

/-- `physical_ranges`, whose neighbouring ranges have different types. -/
structure ValidRanges extends PhysicalRanges where
  adjacent : ∀ i < n, 0 < i → toMemRangeSet.type i ≠ toMemRangeSet.type (i - 1)

/-- Every free block is the largest one that begins where it does and fits in its range. -/
def Greedy (m : MemRangeSet) (s : State) : Prop :=
  ∀ p, s.FreeHead p → ∃ i < m.n, m.type i = memAvailable ∧ m.first i ≤ p * pageSize ∧
    findMaxOrder (p * pageSize) (m.last i) = some (s.pages p).order

section Init
variable {m : MemRangeSet} {s t : State} {i addr k j start last : Nat} {a : Bool}

theorem findMaxOrder_max (h : findMaxOrder start last = some k) (hkj : k < j) (hj : j ≤ maxOrder)
    (hdvd : 2 ^ j ∣ start) : last < start + 2 ^ j := by
  by_contra hfit
  obtain ⟨hk, -⟩ := findMaxOrder_some h
  obtain ⟨-, before, after, hlist, hbefore⟩ := List.find?_eq_some_iff_append.mp h
  have hsorted : ordersDown.Pairwise (· > ·) := by decide
  have hmem : j ∈ ordersDown := mem_ordersDown.mpr ⟨by omega, hj⟩
  rw [hlist] at hsorted hmem
  obtain ⟨-, hafter, -⟩ := List.pairwise_append.mp hsorted
  rcases List.mem_append.mp hmem with hmem | hmem
  · have hno := hbefore j hmem
    rw [decide_eq_true (Nat.mod_eq_zero_of_dvd hdvd), decide_eq_true (by omega)] at hno
    cases hno
  · rcases List.mem_cons.mp hmem with rfl | hmem
    · exact Nat.lt_irrefl _ hkj
    · have := (List.pairwise_cons.mp hafter).1 j hmem
      omega

theorem initChunk_greedy (hi : i < m.n) (hfirst : m.first i ≤ addr)
    (hmax : findMaxOrder addr (m.last i) = some k) (hs : Greedy m s)
    (h : initChunk s (decide (m.type i = memAvailable)) addr k = some t) : Greedy m t := by
  have hpages := initChunk_pages h
  intro p hp
  by_cases hpa : p = addr / pageSize
  · obtain ⟨hk, -, hdvd, -⟩ := findMaxOrder_some hmax
    have haddr : p * pageSize = addr := by
      rw [hpa]
      exact Nat.div_mul_cancel ((Nat.pow_dvd_pow 2 hk).trans hdvd)
    have hpage : t.pages p = ⟨k, p, !decide (m.type i = memAvailable)⟩ := by
      rw [hpages, hpa, setPage_pages_same]
    have havail := hp.2
    rw [hpage, Bool.not_eq_false'] at havail
    exact ⟨i, hi, of_decide_eq_true havail, haddr ▸ hfirst, by rw [haddr, hpage]; exact hmax⟩
  · have hpage : t.pages p = s.pages p := by rw [hpages, setPage_pages_ne _ _ hpa]
    rw [hpage]
    exact hs p (by rwa [FreeHead, Head, ← hpage])

theorem initRange_greedy (hi : i < m.n) : ∀ {fuel addr : Nat} {s : State}, m.first i ≤ addr →
    Greedy m s → initRange (decide (m.type i = memAvailable)) (m.last i) fuel addr s = some t →
    Greedy m t := by
  intro fuel
  induction fuel with
  | zero => exact fun _ _ h => nomatch h
  | succ fuel ih =>
    intro addr s hfirst hs h
    unfold initRange at h
    split at h
    · split at h
      · rename_i k hmax
        obtain ⟨t₁, hchunk, h⟩ := Option.bind_eq_some_iff.mp h
        exact ih (hfirst.trans (Nat.le_add_right _ _)) (initChunk_greedy hi hfirst hmax hs hchunk) h
      · cases h
        exact hs
    · cases h
      exact hs

theorem initRanges_greedy (m : PhysicalRanges) : ∀ {fuel i : Nat} {s : State}, i ≤ m.n →
    Greedy m.toMemRangeSet s → initRanges m.toMemRangeSet fuel i s = some t →
    Greedy m.toMemRangeSet t := by
  intro fuel
  induction fuel with
  | zero => exact fun _ _ h => nomatch h
  | succ fuel ih =>
    intro i s hi hs h
    rw [initRanges] at h
    split at h
    · rename_i hlt
      have hin : i < m.n := lt_of_le_of_ne hi fun he => by
        have hlim := m.limit_eq
        rw [MemRangeSet.limit, ← he] at hlim
        rw [hlim] at hlt
        exact absurd hlt (by decide)
      obtain ⟨t₁, hrange, h⟩ := Option.bind_eq_some_iff.mp h
      exact ih hin (initRange_greedy hin (Nat.le_refl _) hs hrange) h
    · cases h
      exact hs

/-- Two halves would have been made as one block. -/
theorem Greedy.coalesced {m : ValidRanges} (hb : Blocks s) (h : Greedy m.toMemRangeSet s) :
    Coalesced s := by
  intro p q hp hq _ _ hmax hh
  obtain ⟨i, hi, hti, hfi, hpi⟩ := h p hp
  obtain ⟨j, hj, htj, hfj, hqj⟩ := h q hq
  obtain ⟨hk, -, -, hpl⟩ := findMaxOrder_some hpi
  obtain ⟨-, -, -, hql⟩ := findMaxOrder_some hqj
  have hpow := two_pow_order hk
  have hqp : q * pageSize = p * pageSize + 2 ^ (s.pages p).order := by
    rw [hh.next, Nat.add_mul, hpow]
    rfl
  rw [hh.order] at hql
  have hpos := Nat.two_pow_pos (s.pages p).order
  rcases Nat.lt_trichotomy i j with hij | rfl | hij
  · -- the ranges are neighbours of one type
    have hle := m.valid.last_le_first hij (Nat.le_of_lt hj)
    have hnext : j = i + 1 := by
      by_contra hne
      have := m.valid.last_le_first (show i + 1 < j by omega) (Nat.le_of_lt hj)
      have := m.valid.first_lt_last (i + 1) (by omega)
      have hlast : m.last i = m.first (i + 1) := rfl
      omega
    subst hnext
    exact m.adjacent (i + 1) hj (Nat.succ_pos i) (htj.trans hti.symm)
  · have hdvd : 2 ^ ((s.pages p).order + 1) ∣ p * pageSize := by
      rw [two_pow_order (Nat.le_succ_of_le hk), double_size hb hp.1]
      exact Nat.mul_dvd_mul_right hh.aligned pageSize
    have hfull := findMaxOrder_max hpi (Nat.lt_succ_self _) hmax hdvd
    rw [pow_succ] at hfull
    omega
  · have hle := m.valid.last_le_first hij (Nat.le_of_lt hi)
    omega

/-- **`init_kalloc` leaves nothing to merge.** -/
theorem initKalloc_coalesced {m : ValidRanges} {mem : Nat → UInt8} (hb : Blocks s)
    (h : initKalloc m.toMemRangeSet mem = some s) : Coalesced s := by
  refine Greedy.coalesced hb (initRanges_greedy m.toPhysicalRanges (Nat.zero_le _) ?_ h)
  rintro p ⟨hp, -⟩
  exact absurd rfl hp

end Init
/-! ## Runs -/

section Runs
variable {m : ValidRanges} {h : Heap} {s t : State} {a n : Nat}

/-- The pages that are free once a block handed out has been taken back. -/
theorem freed_covered {live : List Nat} {p x : Nat} (hx : (s.freed p).Covered [] x)
    (hp : p * pageSize ∈ live) :
    s.Covered live x := by
  obtain ⟨q, hq, hle, hlt, hfree⟩ := hx
  by_cases hqp : q = p
  · subst hqp
    refine ⟨q, ?_, hle, ?_, .inr hp⟩
    · simpa [Head, State.freed] using hq
    · simpa [size, State.freed] using hlt
  · have he := freed_pages_ne s hqp
    refine ⟨q, by rwa [Head, ← he], hle, by rwa [size, ← he], .inl ?_⟩
    rw [← he]
    exact hfree.resolve_right (List.not_mem_nil)

theorem CoalescedBut.freed {p : Nat} (hs : Coalesced s) : CoalescedBut (s.freed p) {p} :=
  hs.mono fun q _ hq => ⟨Set.notMem_empty q, freed_pages_ne s hq⟩

theorem callStep_coalesced {m : PhysicalRanges} {h h' : Heap} {op : Op}
    (hi : Inv (fun x => m.Available (x * pageSize)) h.alloc h.live) (hs : Coalesced h.alloc)
    (hstep : callStep h op = some h') : Coalesced h'.alloc := by
  cases op with
  | kalloc sz =>
    simp only [callStep] at hstep
    obtain ⟨⟨t, r⟩, hrun, rfl⟩ := Option.map_eq_some_iff.mp hstep
    exact kalloc_coalesced hi hs hrun
  | kfree pa =>
    simp only [callStep] at hstep
    split at hstep
    · rename_i hpa
      obtain ⟨t, hrun, rfl⟩ := Option.map_eq_some_iff.mp hstep
      obtain ⟨p, rfl, hp, ha⟩ := hi.live_head pa hpa
      obtain ⟨hb, hl, hf, hkfree⟩ := freed_spec hi.blocks hi.lists hp ha
      rw [hkfree] at hrun
      exact coalesce_coalesced hb hl hf (fun x hx => hi.lt_npages x (freed_covered hx hpa))
        (.freed hs) hrun
    · cases hstep

theorem requests_coalesced (hr : (requests m.toPhysicalRanges).Reach h) : Coalesced h.alloc := by
  suffices hinv : Inv (fun x => m.Available (x * pageSize)) h.alloc h.live ∧
      Coalesced h.alloc from hinv.2
  refine hr.invariant (fun h => Inv (fun x => m.Available (x * pageSize)) h.alloc h.live ∧
    Coalesced h.alloc) ?_ ?_
  · intro h hinit
    have hi := heap_inv (m := m.toPhysicalRanges) (.init hinit)
    obtain ⟨mem, hrun⟩ := hinit.1
    exact ⟨hi, initKalloc_coalesced hi.blocks hrun⟩
  · rintro h op h' ⟨hi, hs⟩ hstep
    exact ⟨(callStep_tiled hi hstep).1, callStep_coalesced hi hs hstep⟩

/-- A block that has a page of an aligned region of its size or less has all of it. -/
theorem aligned_region {p : Nat} (hb : Blocks s) (hp : s.Head p) (hle : p ≤ a)
    (hlt : a < p + s.size p) (hn : 2 ^ n ≤ s.size p) (ha : 2 ^ n ∣ a) :
    a + 2 ^ n ≤ p + s.size p := by
  obtain ⟨c, rfl⟩ := ha
  have hdvd : 2 ^ n ∣ s.size p :=
    Nat.pow_dvd_pow 2 ((Nat.pow_le_pow_iff_right Nat.one_lt_two).mp hn)
  obtain ⟨d, hd⟩ := Nat.dvd_add (hdvd.trans (hb.aligned p hp)) hdvd
  rw [hd] at hlt ⊢
  have hcd : c < d := Nat.lt_of_mul_lt_mul_left hlt
  calc 2 ^ n * c + 2 ^ n = 2 ^ n * (c + 1) := (Nat.mul_succ _ _).symm
    _ ≤ 2 ^ n * d := Nat.mul_le_mul_left _ hcd

theorem order_of_size {p : Nat} (hb : Blocks s) (hp : s.Head p) (hn : 2 ^ n ≤ s.size p)
    (hn' : ¬ 2 ^ (n + 1) ≤ s.size p) : (s.pages p).order = n + minOrder := by
  have hge := hb.order_ge p hp
  unfold size at hn hn'
  rw [Nat.pow_le_pow_iff_right Nat.one_lt_two] at hn hn'
  omega

/-- **One block is over an aligned region that is free.** -/
theorem exists_over (hb : Blocks s) (hs : Coalesced s) : ∀ {n a : Nat}, n ≤ maxOrder - minOrder →
    2 ^ n ∣ a → (∀ x, a ≤ x → x < a + 2 ^ n → s.Covered [] x) → ∃ p, s.FreeHead p ∧ p ≤ a ∧
    a + 2 ^ n ≤ p + s.size p := by
  intro n
  induction n with
  | zero =>
    intro a _ _ hcover
    obtain ⟨p, hp, hle, hlt, hfree⟩ := hcover a (Nat.le_refl a) (by omega)
    exact ⟨p, ⟨hp, hfree.resolve_right List.not_mem_nil⟩, hle, hlt⟩
  | succ n ih =>
    intro a hn ha hcover
    have hpow : 2 ^ (n + 1) = 2 ^ n + 2 ^ n := by
      rw [pow_succ]
      omega
    have hpos := Nat.two_pow_pos n
    have han : 2 ^ n ∣ a := (Nat.pow_dvd_pow 2 (Nat.le_succ n)).trans ha
    obtain ⟨p, hp, hpa, hap⟩ := ih (by omega) han fun x hx hx' => hcover x hx (by omega)
    obtain ⟨q, hq, hqa, haq⟩ := ih (by omega) (Nat.dvd_add han (Nat.dvd_refl _))
      fun x hx hx' => hcover x (by omega) (by omega)
    by_cases hbig : 2 ^ (n + 1) ≤ s.size p
    · exact ⟨p, hp, hpa, aligned_region hb hp.1 hpa (by omega) hbig ha⟩
    · by_cases hbig' : 2 ^ (n + 1) ≤ s.size q
      · -- a block that begins at a multiple of its size does not begin at the upper half
        refine ⟨q, hq, ?_, by omega⟩
        have hdvd : 2 ^ (n + 1) ∣ q :=
          (Nat.pow_dvd_pow 2 ((Nat.pow_le_pow_iff_right Nat.one_lt_two).mp hbig')).trans
            (hb.aligned q hq.1)
        obtain ⟨c, rfl⟩ := hdvd
        obtain ⟨d, rfl⟩ := ha
        have hcd : c < d + 1 := Nat.lt_of_mul_lt_mul_left (a := 2 ^ (n + 1)) (by
          rw [Nat.mul_succ]
          omega)
        exact Nat.mul_le_mul_left _ (Nat.le_of_lt_succ hcd)
      · have hpo := order_of_size hb hp.1 (by omega) hbig
        have hqo := order_of_size hb hq.1 (by omega) hbig'
        have hpsize : s.size p = 2 ^ n := by rw [size, hpo, Nat.add_sub_cancel]
        have hqsize : s.size q = 2 ^ n := by rw [size, hqo, Nat.add_sub_cancel]
        obtain rfl : p = a := by omega
        have hh : Halves s p q := ⟨hqo.trans hpo.symm, by omega, by rwa [hpsize, ← pow_succ']⟩
        refine absurd hh (hs p q hp hq (Set.notMem_empty p) (Set.notMem_empty q) ?_)
        unfold minOrder maxOrder at *
        omega

/-- The free pages decide the free blocks. -/
theorem coalesced_unique (hb : Blocks s) (hs : Coalesced s) (hb' : Blocks t) (hs' : Coalesced t)
    (hcover : ∀ x, s.Covered [] x ↔ t.Covered [] x) {p : Nat} (hp : s.FreeHead p) :
    t.FreeHead p ∧ (t.pages p).order = (s.pages p).order := by
  have hle := hb.order_le p hp.1
  have hge := hb.order_ge p hp.1
  have hpos := s.size_pos p
  obtain ⟨q, hq, hqp, hpq⟩ := exists_over hb' hs' (Nat.sub_le_sub_right hle minOrder)
    (hb.aligned p hp.1) fun x hx hx' => (hcover x).mp ⟨p, (Owns_of_free hp [] x).mpr ⟨hx, hx'⟩⟩
  have hle' := hb'.order_le q hq.1
  have hge' := hb'.order_ge q hq.1
  obtain ⟨r, hr, hrq, hqr⟩ := exists_over hb hs (Nat.sub_le_sub_right hle' minOrder)
    (hb'.aligned q hq.1) fun x hx hx' => (hcover x).mpr ⟨q, (Owns_of_free hq [] x).mpr ⟨hx, hx'⟩⟩
  change p + s.size p ≤ q + t.size q at hpq
  change q + t.size q ≤ r + s.size r at hqr
  -- the block over the block over `p` is `p` itself
  obtain rfl := hb.head_unique hp.1 hr.1 (Nat.le_refl p) (by omega) (by omega) (by omega)
  obtain rfl : q = p := by omega
  have hsize : t.size q = s.size q := by omega
  have := Nat.pow_right_injective (Nat.le_refl 2) hsize
  exact ⟨hq, by omega⟩

/-- No two free blocks of one order are buddies. -/
theorem no_free_buddies (hr : (requests m.toPhysicalRanges).Reach h) {p q : Nat}
    (hp : h.alloc.FreeHead p) (hq : h.alloc.FreeHead q)
    (ho : (h.alloc.pages q).order = (h.alloc.pages p).order)
    (hmax : (h.alloc.pages p).order < maxOrder) : q ≠ buddyPindex p (h.alloc.pages p).order := by
  have hs := requests_coalesced hr
  intro hbuddy
  rcases halves_of_buddy (requests_inv hr).blocks hp.1 ho hbuddy with hh | hh
  · exact hs p q hp hq (Set.notMem_empty p) (Set.notMem_empty q) hmax hh
  · exact hs q p hq hp (Set.notMem_empty q) (Set.notMem_empty p) (ho ▸ hmax) hh

/-- Two states in which nothing is handed out have the same free blocks. -/
theorem same_free_blocks {h₀ : Heap} (hr : (requests m.toPhysicalRanges).Reach h)
    (hlive : h.live = []) (hr₀ : (requests m.toPhysicalRanges).Reach h₀) (hlive₀ : h₀.live = [])
    (k p : Nat) : p ∈ h.alloc.freeBlocks k ↔ p ∈ h₀.alloc.freeBlocks k := by
  have hi := requests_inv hr
  have hi₀ := requests_inv hr₀
  have hs := requests_coalesced hr
  have hs₀ := requests_coalesced hr₀
  have hcover : ∀ x, h.alloc.Covered [] x ↔ h₀.alloc.Covered [] x := by
    intro x
    rw [hlive] at hi
    rw [hlive₀] at hi₀
    exact (hi.cover x).symm.trans (hi₀.cover x)
  rw [hi.lists.mem_iff, hi₀.lists.mem_iff]
  constructor
  · rintro ⟨hp, ho, hno⟩
    obtain ⟨hp₀, ho₀⟩ := coalesced_unique hi.blocks hs hi₀.blocks hs₀ hcover hp
    exact ⟨hp₀, ho₀.trans ho, hno⟩
  · rintro ⟨hp, ho, hno⟩
    obtain ⟨hp₀, ho₀⟩ := coalesced_unique hi₀.blocks hs₀ hi.blocks hs (fun x => (hcover x).symm) hp
    exact ⟨hp₀, ho₀.trans ho, hno⟩

/-- **Coalescing is complete and does not depend on the order of frees.**  `init_kalloc` succeeds
over ranges with a boundary at the end of physical memory.  In every state reached by requests and
frees of blocks handed out, no two free blocks of one order below `MAX_ORDER` are buddies; and
when everything has been freed, the free blocks are those `init_kalloc` made. -/
theorem coalescing_complete (m : ValidRanges) :
    ((∃ i < m.n, m.last i = memsizePhysical) →
    ∀ mem, ∃ s, initKalloc m.toMemRangeSet mem = some s) ∧
    ∀ h, (requests m.toPhysicalRanges).Reach h →
      (∀ p q, h.alloc.FreeHead p → h.alloc.FreeHead q →
        (h.alloc.pages q).order = (h.alloc.pages p).order →
        (h.alloc.pages p).order < maxOrder → q ≠ buddyPindex p (h.alloc.pages p).order) ∧
      (h.live = [] → ∀ h₀, (requests m.toPhysicalRanges).init h₀ →
        ∀ k p, p ∈ h.alloc.freeBlocks k ↔ p ∈ h₀.alloc.freeBlocks k) := by
  refine ⟨fun hend => initKalloc_some m.toPhysicalRanges (m.valid.not_crosses hend),
    fun h hr => ⟨?_, ?_⟩⟩
  · intro p q hp hq ho hmax
    exact no_free_buddies hr hp hq ho hmax
  · intro hlive h₀ hinit
    exact same_free_blocks hr hlive (.init hinit) hinit.2

/-- The ranges that cross the end of physical memory, whose neighbours have different types. -/
def crossingValid : ValidRanges where
  toPhysicalRanges := crossingRanges
  adjacent := by decide

/-- Over them there is no state right after `init_kalloc`. -/
theorem coalescing_crossing : ¬∃ h, (requests crossingValid.toPhysicalRanges).init h := by
  rintro ⟨h, ⟨mem, hinit⟩, -⟩
  have hnone : initKalloc crossingValid.toMemRangeSet mem = none := rfl
  rw [hnone] at hinit
  cases hinit

/-- The small ranges, whose neighbours have different types. -/
def smallValid : ValidRanges where
  toPhysicalRanges := smallRanges
  adjacent := by decide

/-- Two pages and a block of two pages, freed in the order they were handed out. -/
theorem coalescing_complete_small : ∃ h₀ h, (requests smallRanges).init h₀ ∧
    (requests smallRanges).run h₀ [.kalloc 1, .kalloc 1, .kalloc 5000, .kfree 0x1000, .kfree 0x2000,
      .kfree 0xa000] = some h ∧ ∀ k p, p ∈ h.alloc.freeBlocks k ↔ p ∈ h₀.alloc.freeBlocks k := by
  obtain ⟨s, hs⟩ : ∃ s, initKalloc smallRanges.toMemRangeSet (fun _ => 0) = some s :=
    (coalescing_complete smallValid).1 smallRanges_end fun _ => 0
  have hlive : ((requests smallRanges).run ⟨s, []⟩
      [.kalloc 1, .kalloc 1, .kalloc 5000, .kfree 0x1000, .kfree 0x2000, .kfree 0xa000]).map
      Heap.live = some [] := by
    have : ((initKalloc smallRanges.toMemRangeSet fun _ => 0).bind fun s =>
        (requests smallRanges).run ⟨s, []⟩
        [.kalloc 1, .kalloc 1, .kalloc 5000, .kfree 0x1000, .kfree 0x2000, .kfree 0xa000]).map
        Heap.live =
          some [] := by decide +kernel
    rwa [hs] at this
  obtain ⟨h, hrun, hlive⟩ := Option.map_eq_some_iff.mp hlive
  have hinit : (requests smallRanges).init ⟨s, []⟩ := ⟨⟨_, hs⟩, rfl⟩
  exact ⟨_, h, hinit, hrun, ((coalescing_complete smallValid).2 h (.run (.init hinit) hrun)).2 hlive
    _ hinit⟩

end Runs
/-! ## The buddy past the end -/

/-- The indices of `pages` that `kfree` of a block handed out reads or writes. -/
def kfreeIndices (s : State) (pa : Nat) : List Nat :=
  pa / pageSize :: coalesceIndices norders (s.freed (pa / pageSize)) (pa / pageSize)

/-- The first page of the last two megabytes. -/
def lastRegion : Nat := npages - 2 ^ 9

section Indices
variable {m : ValidRanges} {h : Heap} {s : State} {p n : Nat}

/-- A block whose buddy is past the end is the last two megabytes. -/
theorem buddy_past_end (hb : Blocks s) (hp : s.Head p) (hend : p + s.size p ≤ npages)
    (hbuddy : npages ≤ buddyPindex p (s.pages p).order) : p = lastRegion ∧
    p + s.size p = npages := by
  have hge := hb.order_ge p hp
  have hle := hb.order_le p hp
  have hn : npages = 7680 := rfl
  have hr : lastRegion = 7168 := rfl
  rcases buddyPindex_cases hge (hb.aligned p hp) with ⟨he, hdvd⟩ | ⟨he, -⟩
  · rw [double_size hb hp] at hdvd
    obtain ⟨c, hc⟩ := hdvd
    have hexp : (s.pages p).order - minOrder ≤ 12 := by
      unfold minOrder maxOrder at *
      omega
    unfold size at *
    generalize (s.pages p).order - minOrder = k at *
    have hsum : p + 2 ^ k = 7680 := by omega
    -- of the powers of two only `2 ^ 9` fits between an even multiple of it and the end
    interval_cases k <;> omega
  · have hpos := s.size_pos p
    unfold size at *
    omega

/-- The block over the last two megabytes has its buddy past the end. -/
theorem over_lastRegion (hb : Blocks s) (hp : s.Head p) (hend : p + s.size p ≤ npages)
    (hle : p ≤ lastRegion) (hover : npages ≤ p + s.size p) :
    npages ≤ buddyPindex p (s.pages p).order := by
  have hge := hb.order_ge p hp
  have hmax := hb.order_le p hp
  have hn : npages = 7680 := rfl
  have hr : lastRegion = 7168 := rfl
  obtain ⟨c, hc⟩ := hb.aligned p hp
  rcases buddyPindex_cases hge (hb.aligned p hp) with ⟨he, -⟩ | ⟨he, hdvd⟩
  · unfold size at *
    omega
  · rw [double_size hb hp] at hdvd
    obtain ⟨d, hd⟩ := hdvd
    have hexp : (s.pages p).order - minOrder ≤ 12 := by
      unfold minOrder maxOrder at *
      omega
    unfold size at *
    generalize (s.pages p).order - minOrder = k at *
    have hsum : p + 2 ^ k = 7680 := by omega
    interval_cases k <;> omega

/-- **`kfree` of a block handed out stays inside `pages`, exactly unless** the block is in the last
two megabytes and everything else there is free: then these become one block, whose buddy would
begin where memory ends. -/
theorem kfree_inside_iff (hr : (requests m.toPhysicalRanges).Reach h) {pa : Nat}
    (hpa : pa ∈ h.live) : (∀ i ∈ kfreeIndices h.alloc pa, i < npages) ↔
      ¬ (lastRegion ≤ pa / pageSize ∧ ∀ x, lastRegion ≤ x → x < npages →
        h.alloc.Covered [pa] x) := by
  have hi := requests_inv hr
  have hs := requests_coalesced hr
  obtain ⟨p, rfl, hp, ha⟩ := hi.live_head pa hpa
  obtain ⟨hb, hl, hf, -⟩ := freed_spec hi.blocks hi.lists hp ha
  obtain ⟨t, hrun, hreshaped⟩ := coalesce_freed hb hl hf
  have hin : ∀ x, (h.alloc.freed p).Covered [] x → x < npages :=
    fun x hx => hi.lt_npages x (freed_covered hx hpa)
  -- the pages that are free after the block has been taken back
  have hcover : ∀ x, (h.alloc.freed p).Covered [] x ↔ h.alloc.Covered [p * pageSize] x := by
    intro x
    refine covered_setAllocated (.inr List.mem_cons_self) (.inl rfl) (fun q hq => ?_) x
    rw [List.mem_singleton, mul_pageSize_inj]
    exact iff_of_false List.not_mem_nil hq
  have hends : ∀ {u q}, Reshaped (h.alloc.freed p) u ∅ ∨ Reshaped (h.alloc.freed p) u {q} →
      u.FreeHead q → q + u.size q ≤ npages := by
    intro u q hu hq
    have hpos := u.size_pos q
    have hlast : u.Covered [] (q + u.size q - 1) := ⟨q, (Owns_of_free hq [] _).mpr (by omega)⟩
    have :=
      hin _ (hu.elim (fun hu => (hu.covered [] _).mp hlast) fun hu => (hu.covered [] _).mp hlast)
    omega
  have hpos := (h.alloc.freed p).size_pos p
  have hp_lt : p < npages := hin p ⟨p, (Owns_of_free hf [] p).mpr (by omega)⟩
  unfold kfreeIndices
  rw [Nat.mul_div_cancel _ pageSize_pos]
  constructor
  · rintro hindices ⟨hregion, hfree⟩
    have ht := coalesce_coalesced hb hl hf hin (.freed hs) hrun
    obtain ⟨r, hrf, hrle, hrover⟩ := exists_over hreshaped.blocks ht (n := 9) (a := lastRegion)
      (by decide) (by decide) fun x hx hx' => (hreshaped.covered [] x).mpr
      ((hcover x).mpr (hfree x hx hx'))
    have hrend := hends (.inl hreshaped) hrf
    obtain ⟨u, q, hrounds, -, hpages⟩ := coalesce_rounds hrun
    have hgrown := hrounds.grown hb hl hf
    have hru : u.FreeHead r := by rwa [FreeHead, Head, ← hpages]
    by_cases hrq : r = q
    · subst hrq
      have hlt := hindices _ (List.mem_cons_of_mem _ (index_of_rounds hrounds hrun))
      rw [← hpages] at hlt
      exact absurd (over_lastRegion hreshaped.blocks hrf.1 hrend hrle hrover) (Nat.not_le.mpr hlt)
    · -- then the block was there before, and `p` is in it
      obtain ⟨hrp, hre⟩ := hgrown.others r hrq hru
      have hhead : (h.alloc.freed p).Head r := by
        rw [Head, ← hre]
        exact hru.1
      have hsize : (h.alloc.freed p).size r = t.size r := by rw [size, size, ← hre, hpages]
      exact hrp (hb.head_unique hhead hf.1 (hrle.trans hregion) (by
        rw [hsize]
        exact Nat.lt_of_lt_of_le hp_lt hrover) (Nat.le_refl p) (by omega))
  · intro hno i hmem
    by_contra hge
    have hge := Nat.le_of_not_lt hge
    rcases List.mem_cons.mp hmem with rfl | hmem
    · omega
    · obtain ⟨u, q, hrounds, hi⟩ := rounds_of_index hmem
      have hgrown := hrounds.grown hb hl hf
      have hend := hends (.inr hgrown.reshaped) hgrown.free
      have hqpos := u.size_pos q
      rcases hi with rfl | rfl
      · omega
      · obtain ⟨hq, hlast⟩ := buddy_past_end hgrown.reshaped.blocks hgrown.free.1 hend hge
        have hfirst := hgrown.first
        refine hno ⟨by omega, fun x hx hx' =>
          (hcover x).mp ((hgrown.reshaped.covered [] x).mp ⟨q, ?_⟩)⟩
        exact (Owns_of_free hgrown.free [] x).mpr (by omega)

/-- Low memory, the devices and the kernel in the first two megabytes, and nothing else. -/
def plainRanges : ValidRanges where
  n := 3
  r i := match i with
    | 0 => ⟨0, 3⟩
    | 1 => ⟨0x200000, 1⟩
    | 2 => ⟨0x1e00000, 0⟩
    | _ => ⟨0x100000000, 0⟩
  valid := ⟨rfl, by decide⟩
  limit_eq := rfl
  available_pages := by decide
  adjacent := by decide

/-- Of two requests for two megabytes the first is served at the low end of memory, where the
buddy is. -/
theorem kfree_inside_low : ∃ h, (requests plainRanges.toPhysicalRanges).Reach h ∧
    h.live = [0x1c00000, 0x200000] ∧ ∀ i ∈ kfreeIndices h.alloc 0x200000, i < npages := by
  have hrun : ((initKalloc plainRanges.toMemRangeSet fun _ => 0).bind fun s =>
      (requests plainRanges.toPhysicalRanges).run ⟨s, []⟩ [.kalloc (2 ^ 21), .kalloc (2 ^ 21)]).map
        Heap.live = some [0x1c00000, 0x200000] := by decide +kernel
  obtain ⟨h, hh, hlive⟩ := Option.map_eq_some_iff.mp hrun
  refine ⟨h, requests_run hh, hlive,
    (kfree_inside_iff (requests_run hh) (by rw [hlive]; decide)).mpr ?_⟩
  rintro ⟨hregion, -⟩
  exact absurd hregion (by decide)

/-- The second has the last two megabytes: when they are freed, `kfree` reads `pages[NPAGES]`. -/
theorem kfree_past_end : ∃ h, (requests plainRanges.toPhysicalRanges).Reach h ∧
    h.live = [0x1c00000, 0x200000] ∧ npages ∈ kfreeIndices h.alloc 0x1c00000 := by
  have hrun : ((initKalloc plainRanges.toMemRangeSet fun _ => 0).bind fun s =>
      (requests plainRanges.toPhysicalRanges).run ⟨s, []⟩ [.kalloc (2 ^ 21), .kalloc (2 ^ 21)]).map
        (fun h => (h.live, decide (npages ∈ kfreeIndices h.alloc 0x1c00000))) =
          some ([0x1c00000, 0x200000], true) := by decide +kernel
  obtain ⟨h, hh, he⟩ := Option.map_eq_some_iff.mp hrun
  obtain ⟨hlive, hmem⟩ := Prod.mk.inj he
  exact ⟨h, requests_run hh, hlive, of_decide_eq_true hmem⟩

end Indices
end PugOS.KAlloc
