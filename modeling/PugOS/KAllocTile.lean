import PugOS.InitRanges
import PugOS.KAllocInv

/-! # Block heads tile physical memory

`check_pages_invariants` (`k-alloc.cc`) steps from block to block through all of physical
memory.  It succeeds if and only if every page is in some block (`check_iff`), and `kalloc`
and `kfree` keep the pages that are in blocks, whatever they split and merge.

`init_kalloc` leaves a range as soon as no block fits, so a page is in a block only if some
range has all of it.  The screen memory ends inside a page; unless the kernel owns that page,
no block covers it, nor any page of the range after (`heads_tile_iff`).
-/
namespace PugOS.KAlloc
open Transition State

/-- The loop of `check_pages_invariants` from `addr` on, `fuel` rounds at most. -/
def checkPages (s : State) : Nat → Nat → Bool
  | 0, _ => false
  | fuel + 1, addr =>
    if addr < memsizePhysical then
      let page := s.pages (addr / pageSize)
      decide (minOrder ≤ page.order) && decide (page.order ≤ maxOrder) &&
        decide (page.pindex = addr / pageSize) && decide (addr % 2 ^ page.order = 0) &&
        checkPages s fuel (addr + 2 ^ page.order)
    else true

/-- `check_pages_invariants`: whether no assertion fails. -/
def checkPagesInvariants (s : State) : Bool := checkPages s (npages + 1) 0

/-- The page is in a block, free or not. -/
def State.Tiled (s : State) (x : Nat) : Prop := ∃ p, s.Head p ∧ p ≤ x ∧ x < p + s.size p

section Check
variable {s t : State} {p x fuel : Nat}

theorem two_pow_order {k : Nat} (hk : minOrder ≤ k) : 2 ^ k = 2 ^ (k - minOrder) * pageSize := by
  rw [show pageSize = 2 ^ minOrder from rfl, ← pow_add, Nat.sub_add_cancel hk]

theorem checkPages_page (hb : Blocks s) (hp : p < npages) :
    checkPages s (fuel + 1) (p * pageSize) = true ↔
      s.Head p ∧ checkPages s fuel ((p + s.size p) * pageSize) = true := by
  have hlt : p * pageSize < memsizePhysical := by
    unfold npages memsizePhysical pageSize at *
    omega
  rw [checkPages, if_pos hlt]
  dsimp only
  rw [Nat.mul_div_cancel _ pageSize_pos]
  constructor
  · intro h
    rw [Bool.and_eq_true, Bool.and_eq_true, Bool.and_eq_true, Bool.and_eq_true] at h
    obtain ⟨⟨⟨⟨hge, -⟩, -⟩, -⟩, h⟩ := h
    have hge := of_decide_eq_true hge
    refine ⟨?_, ?_⟩
    · unfold Head minOrder at *
      omega
    · rw [Nat.add_mul, size, ← two_pow_order hge]
      exact h
  · rintro ⟨hhead, h⟩
    have hge := hb.order_ge p hhead
    obtain ⟨c, hc⟩ := hb.aligned p hhead
    have hmod : p * pageSize % 2 ^ (s.pages p).order = 0 := by
      have he : p * pageSize = 2 ^ (s.pages p).order * c := by
        rw [two_pow_order hge]
        calc p * pageSize = s.size p * c * pageSize := by rw [← hc]
          _ = 2 ^ ((s.pages p).order - minOrder) * pageSize * c := by rw [size]; ring
      rw [he, Nat.mul_mod_right]
    rw [Nat.add_mul, size, ← two_pow_order hge] at h
    rw [decide_eq_true hge, decide_eq_true (hb.order_le p hhead),
      decide_eq_true (hb.pindex_eq p hhead), decide_eq_true hmod, h]
    rfl

theorem checkPages_past (h : npages ≤ p) : checkPages s (fuel + 1) (p * pageSize) = true := by
  have hge : ¬ p * pageSize < memsizePhysical := by
    unfold npages memsizePhysical pageSize at *
    omega
  rw [checkPages, if_neg hge]

theorem tiled_of_check (hb : Blocks s) : ∀ {fuel p : Nat}, checkPages s fuel (p * pageSize) = true →
    ∀ x, p ≤ x → x < npages → s.Tiled x := by
  intro fuel
  induction fuel with
  | zero => exact fun h => nomatch h
  | succ fuel ih =>
    intro p h x hpx hx
    obtain ⟨hhead, h⟩ := (checkPages_page hb (Nat.lt_of_le_of_lt hpx hx)).mp h
    by_cases hlt : x < p + s.size p
    · exact ⟨p, hhead, hpx, hlt⟩
    · exact ih h x (by omega) hx

theorem check_of_tiled (hb : Blocks s) (htiled : ∀ x < npages, s.Tiled x) : ∀ {fuel p : Nat},
    npages - p < fuel → (∀ q, s.Head q → q < p → q + s.size q ≤ p) →
    checkPages s fuel (p * pageSize) = true := by
  intro fuel
  induction fuel with
  | zero => exact fun h => absurd h (Nat.not_lt_zero _)
  | succ fuel ih =>
    intro p hfuel hends
    by_cases hp : p < npages
    · -- the block that has the page `p` cannot begin before it
      obtain ⟨q, hq, hle, hlt⟩ := htiled p hp
      obtain rfl : q = p := by
        by_contra hne
        have := hends q hq (by omega)
        omega
      have hpos := s.size_pos q
      refine (checkPages_page hb hp).mpr ⟨hq, ih (by omega) fun r hr hlt' => ?_⟩
      rcases Nat.lt_trichotomy r q with h | rfl | h
      · have := hends r hr h
        omega
      · exact Nat.le_refl _
      · have := hb.apart q r hq hr h
        omega
    · exact checkPages_past (by omega)

/-- The check succeeds if and only if every page is in a block. -/
theorem check_iff (hb : Blocks s) : checkPagesInvariants s = true ↔ ∀ x < npages, s.Tiled x := by
  have hzero : checkPagesInvariants s = checkPages s (npages + 1) (0 * pageSize) := by
    rw [Nat.zero_mul]
    rfl
  rw [hzero]
  constructor
  · exact fun h x hx => tiled_of_check hb h x (Nat.zero_le x) hx
  · exact fun h => check_of_tiled hb h (by omega) (fun q _ hlt => absurd hlt (Nat.not_lt_zero q))

end Check

/-! ## Splits and merges keep the tiled pages -/

section Tiled
variable {s t u : State} {p x sz : Nat} {r : Option Nat} {limbo : Set Nat}

theorem tiled_congr (h : ∀ p, (t.pages p).order = (s.pages p).order) : t.Tiled x ↔ s.Tiled x := by
  refine exists_congr fun p => ?_
  simp only [Head, size, h p]

theorem Reshaped.tiled (h : Reshaped s t limbo) : t.Tiled x ↔ s.Tiled x := by
  -- whatever block has the page counts as handed out
  constructor
  · rintro ⟨p, hp, hle, hlt⟩
    obtain ⟨q, hq, hq', hq'', -⟩ :=
      (h.covered [p * pageSize] x).mp ⟨p, hp, hle, hlt, .inr (by simp)⟩
    exact ⟨q, hq, hq', hq''⟩
  · rintro ⟨p, hp, hle, hlt⟩
    obtain ⟨q, hq, hq', hq'', -⟩ :=
      (h.covered [p * pageSize] x).mpr ⟨p, hp, hle, hlt, .inr (by simp)⟩
    exact ⟨q, hq, hq', hq''⟩

theorem tiled_setAllocated (s : State) (p : Nat) (a : Bool) :
    (s.setPage p { s.pages p with allocated := a }).Tiled x ↔ s.Tiled x := by
  refine tiled_congr fun q => ?_
  by_cases hq : q = p
  · rw [hq, setPage_pages_same]
  · rw [setPage_pages_ne _ _ hq]

theorem kalloc_tiled (hb : Blocks s) (hl : Lists s ∅) (hin : s.FreeInside)
    (h : kalloc s sz = some (t, r)) : t.Tiled x ↔ s.Tiled x := by
  unfold kalloc at h
  dsimp only at h
  split at h
  · cases h
    exact Iff.rfl
  · split at h
    · cases h
      exact Iff.rfl
    · rename_i hbig
      split at h
      · cases h
        exact Iff.rfl
      · rename_i hnone
        obtain ⟨larger, hlarge⟩ := Option.ne_none_iff_exists'.mp hnone
        have hle := (minLargerOrder_eq_some.mp hlarge).2.1
        have hge := requestOrder_ge sz
        generalize requestOrder sz = order at *
        obtain ⟨t', hloop, hr, hne⟩ := splitLoop_spec hge norders s larger hb hl hin hlarge
          (by simp only [norders, minOrder, maxOrder] at *; omega)
        obtain ⟨p, -, hpop, -⟩ := hr.lists.popFront hr.blocks hne
        simp only [hloop, hpop, Option.bind_eq_bind, Option.bind_some, Option.some.injEq,
          Prod.mk.injEq] at h
        obtain ⟨rfl, -⟩ := h
        rw [tiled_setAllocated, ← hr.tiled]
        exact tiled_congr fun _ => rfl

theorem kfree_tiled (hb : Blocks s) (hl : Lists s ∅) (hp : s.Head p)
    (ha : (s.pages p).allocated = true) (h : kfree s (some (p * pageSize)) = some t) : t.Tiled x ↔
    s.Tiled x := by
  obtain ⟨hb₁, hl₁, hf₁, hkfree⟩ := freed_spec hb hl hp ha
  obtain ⟨t', hrun, hr⟩ := coalesce_freed hb₁ hl₁ hf₁
  rw [hkfree, hrun] at h
  cases h
  rw [hr.tiled, ← tiled_setAllocated s p false]
  exact tiled_congr fun _ => rfl

end Tiled
/-! ## What `init_kalloc` tiles -/

section Init
variable {m : MemRangeSet} {s t : State} {a : Bool} {addr k x i : Nat}

theorem pushBack_pages {p : Nat} (h : s.pushBack k p = some t) : t.pages = s.pages := by
  unfold State.pushBack at h
  split at h
  · cases h
    rfl
  · cases h

theorem initChunk_pages (h : initChunk s a addr k = some t) :
    t.pages = (s.setPage (addr / pageSize) ⟨k, addr / pageSize, !a⟩).pages := by
  unfold initChunk at h
  dsimp only at h
  obtain ⟨u, hstore, h⟩ := Option.bind_eq_some_iff.mp h
  rw [← storePage_eq hstore]
  split at h
  · exact pushBack_pages h
  · cases h
    rfl

/-- A chunk adds its own pages. -/
theorem initChunk_tiled (h : initChunk s a addr k = some t) (hk : minOrder ≤ k)
    (hnew : ¬ s.Head (addr / pageSize)) : t.Tiled x ↔
      s.Tiled x ∨ (addr / pageSize ≤ x ∧ x < addr / pageSize + 2 ^ (k - minOrder)) := by
  have hpages := initChunk_pages h
  have hother : ∀ p, p ≠ addr / pageSize → t.pages p = s.pages p := fun p hp => by
    rw [hpages, setPage_pages_ne _ _ hp]
  have hhead : t.Head (addr / pageSize) := by
    rw [Head, hpages, setPage_pages_same]
    dsimp only
    unfold minOrder at hk
    omega
  have hsize : t.size (addr / pageSize) = 2 ^ (k - minOrder) := by
    rw [size, hpages, setPage_pages_same]
  constructor
  · rintro ⟨p, hp, hle, hlt⟩
    by_cases hpa : p = addr / pageSize
    · rw [hpa] at hle hlt
      rw [hsize] at hlt
      exact .inr ⟨hle, hlt⟩
    · refine .inl ⟨p, ?_, hle, ?_⟩
      · rwa [Head, hother p hpa] at hp
      · rwa [size, hother p hpa] at hlt
  · rintro (⟨p, hp, hle, hlt⟩ | ⟨hle, hlt⟩)
    · have hpa : p ≠ addr / pageSize := fun he => hnew (he ▸ hp)
      refine ⟨p, ?_, hle, ?_⟩
      · rwa [Head, hother p hpa]
      · rwa [size, hother p hpa]
    · exact ⟨_, hhead, hle, by rwa [hsize]⟩

/-- What one range adds: whole pages of it, and all of them if the range is aligned. -/
structure RangeTiled (s t : State) (first last : Nat) : Prop where
  old : ∀ x, s.Tiled x → t.Tiled x
  whole : ∀ x, t.Tiled x → s.Tiled x ∨ (first ≤ x * pageSize ∧ (x + 1) * pageSize ≤ last)
  all : pageSize ∣ first → pageSize ∣ last → ∀ x, first ≤ x * pageSize → x * pageSize < last →
    t.Tiled x

theorem initRange_tiled (hm : m.Valid) (hi : i < m.n) :
    ∀ {fuel addr : Nat} {s t : State}, InitInv m s addr →
    m.first i ≤ addr → initRange (decide (m.type i = memAvailable)) (m.last i) fuel addr s =
    some t → RangeTiled s t addr (m.last i) := by
  intro fuel
  induction fuel with
  | zero => exact fun _ _ h => nomatch h
  | succ fuel ih =>
    intro addr s t hinv hfirst h
    rw [initRange] at h
    split at h
    · rename_i hlt
      cases hmax : findMaxOrder addr (m.last i) with
      | some k =>
        obtain ⟨hk, hk', hdvd, hend⟩ := findMaxOrder_some hmax
        rw [hmax] at h
        dsimp only at h
        have hinside : addr < memsizePhysical := by
          by_contra hge
          rw [initChunk_outside _ _ _ (Nat.le_of_not_lt hge)] at h
          cases h
        obtain ⟨t₁, hchunk, hinv₁⟩ := initChunk_spec hm hi hinside hinv hfirst hk hk' hdvd hend
        have hrun : initRange (decide (m.type i = memAvailable)) (m.last i) fuel (addr + 2 ^ k) t₁ =
            some t := by
          rwa [hchunk] at h
        have hrest := ih hinv₁ (by omega) hrun
        -- the address of the chunk is that of its first page
        obtain ⟨p, rfl⟩ : ∃ p, addr = p * pageSize := by
          obtain ⟨c, hc⟩ := (Nat.pow_dvd_pow 2 hk).trans hdvd
          exact ⟨c, by rw [hc, Nat.mul_comm]; rfl⟩
        have hpow := two_pow_order hk
        have hnew : ¬ s.Head (p * pageSize / pageSize) := by
          rw [Nat.mul_div_cancel _ pageSize_pos]
          intro hhead
          have := Nat.le_of_mul_le_mul_right (hinv.below p hhead) pageSize_pos
          have := s.size_pos p
          omega
        have hadd : ∀ x, t₁.Tiled x ↔ s.Tiled x ∨ (p ≤ x ∧ x < p + 2 ^ (k - minOrder)) := by
          intro x
          have := initChunk_tiled (x := x) hchunk hk hnew
          rwa [Nat.mul_div_cancel _ pageSize_pos] at this
        have hsum : p * pageSize + 2 ^ k = (p + 2 ^ (k - minOrder)) * pageSize := by
          rw [Nat.add_mul, ← hpow]
        rw [hsum] at hend hrest
        refine ⟨fun x hx => hrest.old x ((hadd x).mpr (.inl hx)), fun x hx => ?_,
          fun _ hlast x hx hx' => ?_⟩
        · rcases hrest.whole x hx with hx | ⟨hx, hx'⟩
          · rcases (hadd x).mp hx with hx | ⟨hx, hx'⟩
            · exact .inl hx
            · exact .inr ⟨Nat.mul_le_mul_right _ hx, (Nat.mul_le_mul_right _ hx').trans hend⟩
          · refine .inr ⟨(Nat.mul_le_mul_right _ (Nat.le_add_right p _)).trans hx, hx'⟩
        · by_cases hin : x < p + 2 ^ (k - minOrder)
          · exact hrest.old x
              ((hadd x).mpr (.inr ⟨Nat.le_of_mul_le_mul_right hx pageSize_pos, hin⟩))
          · exact hrest.all (Nat.dvd_mul_left _ _) hlast x (Nat.mul_le_mul_right _ (by omega)) hx'
      | none =>
        have hst : s = t := by
          rw [hmax] at h
          exact Option.some.inj h
        subst hst
        refine ⟨fun _ hx => hx, fun _ hx => .inl hx, fun hs hl => ?_⟩
        obtain ⟨k, hk⟩ := findMaxOrder_isSome hs hl hlt
        rw [hk] at hmax
        cases hmax
    · rename_i hge
      cases h
      exact ⟨fun _ hx => hx, fun _ hx => .inl hx, fun _ _ x hx hx' => by omega⟩

/-- What `init_kalloc` has tiled from range `i` on. -/
theorem initRanges_tiled (m : PhysicalRanges) : ∀ {fuel i : Nat} {s t : State},
    InitInv m.toMemRangeSet s (m.first i) → i ≤ m.n → initRanges m.toMemRangeSet fuel i s = some t →
    (∀ x, s.Tiled x → t.Tiled x) ∧
      (∀ x, t.Tiled x → s.Tiled x ∨ ∃ j < m.n, m.first j ≤ x * pageSize ∧
        (x + 1) * pageSize ≤ m.last j) ∧
      ((∀ j < m.n, pageSize ∣ m.first j) → ∀ x < npages, m.first i ≤ x * pageSize → t.Tiled x) := by
  intro fuel
  induction fuel with
  | zero => exact fun _ _ h => nomatch h
  | succ fuel ih =>
    intro i s t hinv hi h
    rw [initRanges] at h
    split at h
    · rename_i hlt
      have hin : i < m.n := lt_of_le_of_ne hi fun he => by
        have hlim := m.limit_eq
        rw [MemRangeSet.limit, ← he] at hlim
        rw [hlim] at hlt
        exact absurd hlt (by decide)
      have hfl := m.valid.first_lt_last i hin
      obtain ⟨t₁, hrun, h⟩ := Option.bind_eq_some_iff.mp h
      have hinv₁ := initRange_inv m.valid hin
        (fun ha => ⟨(m.available_pages i hin ha).1, (m.available_pages i hin ha).2.1⟩) hinv
        hfl.le hrun
      obtain ⟨hold, hwhole, hall⟩ := ih hinv₁ hin h
      have hrange := initRange_tiled m.valid hin hinv (Nat.le_refl _) hrun
      refine ⟨fun x hx => hold x (hrange.old x hx), fun x hx => ?_, fun halign x hx hfirst => ?_⟩
      · rcases hwhole x hx with hx | hx
        · rcases hrange.whole x hx with hx | hx
          · exact .inl hx
          · exact .inr ⟨i, hin, hx⟩
        · exact .inr hx
      · by_cases hlast : x * pageSize < m.last i
        · have hdvd : pageSize ∣ m.last i := by
            rcases Nat.lt_or_eq_of_le hin with hn | hn
            · exact halign (i + 1) hn
            · have hlim : m.last i = 0x100000000 := by
                rw [← m.limit_eq, MemRangeSet.limit, ← hn]
                rfl
              rw [hlim]
              decide
          exact hold x (hrange.all (halign i hin) hdvd x hfirst hlast)
        · exact hall halign x hx (Nat.le_of_not_lt hlast)
    · rename_i hge
      cases h
      refine ⟨fun _ hx => hx, fun _ hx => .inl hx, fun _ x hx hfirst => ?_⟩
      unfold npages memsizePhysical pageSize at *
      omega

end Init

/-! ## Runs -/

/-- One call of `kalloc`, for any size, or of `kfree`, for a block that is handed out. -/
def callStep (h : Heap) : Op → Option Heap
  | .kalloc sz => (kalloc h.alloc sz).map fun (s, r) => ⟨s, r.toList ++ h.live⟩
  | .kfree pa =>
    if pa ∈ h.live then (kfree h.alloc (some pa)).map fun s => ⟨s, h.live.erase pa⟩ else none

/-- The allocator from `init_kalloc` on, after `init_physical_ranges`. -/
def calls (p : Placement) : Machine Heap Op where
  init h := (∃ m mem, initPhysicalRanges p = some m ∧ initKalloc m mem = some h.alloc) ∧ h.live = []
  step := callStep

theorem callStep_tiled {avail : Nat → Prop} {h h' : Heap} {op : Op} (hi : Inv avail h.alloc h.live)
    (hstep : callStep h op = some h') :
    Inv avail h'.alloc h'.live ∧ ∀ x, h'.alloc.Tiled x ↔ h.alloc.Tiled x := by
  cases op with
  | kalloc sz =>
    simp only [callStep] at hstep
    obtain ⟨t, r, hrun, ht⟩ := kalloc_inv hi sz
    rw [hrun, Option.map_some] at hstep
    obtain rfl := Option.some.inj hstep
    exact ⟨ht, fun x => kalloc_tiled hi.blocks hi.lists hi.freeInside hrun⟩
  | kfree pa =>
    simp only [callStep] at hstep
    split at hstep
    · rename_i hpa
      obtain ⟨t, hrun, ht⟩ := kfree_inv hi hpa
      rw [hrun, Option.map_some] at hstep
      obtain rfl := Option.some.inj hstep
      obtain ⟨q, rfl, hq, hqa⟩ := hi.live_head pa hpa
      exact ⟨ht, fun x => kfree_tiled hi.blocks hi.lists hq hqa hrun⟩
    · cases hstep

/-- The pages in blocks are those `init_kalloc` has put in blocks. -/
theorem calls_tiled {p : Placement} {h : Heap} (hr : (calls p).Reach h) : Blocks h.alloc ∧
    ((∀ x < npages, h.alloc.Tiled x) ∨ ¬ p.Owns (screenMemBase + screenMemSize)) ∧
    (h.alloc.Tiled screenEndPage → p.Owns (screenMemBase + screenMemSize)) := by
  obtain ⟨m, hm, hinitial⟩ := initial p
  suffices hinv : Inv (fun x => hinitial.physical.Available (x * pageSize)) h.alloc h.live ∧
      ((∀ x < npages, h.alloc.Tiled x) ∨ ¬ p.Owns (screenMemBase + screenMemSize)) ∧
      (h.alloc.Tiled screenEndPage → p.Owns (screenMemBase + screenMemSize)) from
    ⟨hinv.1.blocks, hinv.2⟩
  refine hr.invariant
    (fun h => Inv (fun x => hinitial.physical.Available (x * pageSize)) h.alloc h.live ∧
    ((∀ x < npages, h.alloc.Tiled x) ∨ ¬ p.Owns (screenMemBase + screenMemSize)) ∧
    (h.alloc.Tiled screenEndPage → p.Owns (screenMemBase + screenMemSize))) ?_ ?_
  · rintro ⟨s, live⟩ ⟨⟨m', mem, hm', hinit⟩, rfl⟩
    rw [hm] at hm'
    cases hm'
    have hinv := initKalloc_inv (m := hinitial.physical) hinit
    have hstart : InitInv m ⟨fun _ => PageState.zero, fun _ => [], mem⟩ (m.first 0) := by
      rw [hinitial.validate.valid.first_zero]
      exact initInv_zero m mem
    obtain ⟨-, hwhole, hall⟩ := initRanges_tiled hinitial.physical hstart (Nat.zero_le _) hinit
    refine ⟨hinv, ?_, fun hx => ?_⟩
    · by_cases howns : p.Owns (screenMemBase + screenMemSize)
      · have hzero : m.first 0 = 0 := hinitial.validate.valid.first_zero
        exact .inl fun x hx =>
          hall (fun j hj => hinitial.aligned howns hj) x hx (hzero.trans_le (Nat.zero_le _))
      · exact .inr howns
    · by_contra howns
      rcases hwhole screenEndPage hx with ⟨q, hq, -⟩ | ⟨j, hj, hfirst, hlast⟩
      · exact hq rfl
      · exact absurd hlast (Nat.not_le.mpr (hinitial.broken howns hj hfirst))
  · rintro h op h' ⟨hi, hall, hscreen⟩ hstep
    obtain ⟨hi', htiled⟩ := callStep_tiled hi hstep
    refine ⟨hi', hall.imp_left fun hall x hx => (htiled x).mpr (hall x hx), fun hx => ?_⟩
    exact hscreen ((htiled _).mp hx)

/-- `init_physical_ranges` and `init_kalloc` succeed. -/
theorem calls_start (p : Placement) : ∃ h, (calls p).init h := by
  obtain ⟨m, hm, hinitial⟩ := initial p
  obtain ⟨s, hs⟩ := initKalloc_some hinitial.physical hinitial.not_crosses fun _ => 0
  exact ⟨⟨s, []⟩, ⟨m, fun _ => 0, hm, hs⟩, rfl⟩

/-- **Block heads tile physical memory exactly when the kernel owns the page the screen
memory ends in**: for every placement and after every sequence of calls, the check succeeds
if and only if the low data, the kernel image or the symbol table has that page. -/
theorem heads_tile_iff {p : Placement} {h : Heap} (hr : (calls p).Reach h) :
    checkPagesInvariants h.alloc = true ↔ p.Owns (screenMemBase + screenMemSize) := by
  obtain ⟨hb, hall, hscreen⟩ := calls_tiled hr
  rw [check_iff hb]
  constructor
  · exact fun htiled => hscreen (htiled screenEndPage (by decide))
  · exact fun howns => hall.resolve_right fun hno => hno howns

/-- A kernel image that has the page. -/
def overScreen : Placement where
  lowStart := 0x4000
  lowEnd := 0x5000
  kernelStart := 0xA0000
  kernelEnd := 0x120000
  sym := 0
  symSize := 0
  low := by decide
  kernel := by decide
  symtab := by decide

theorem heads_tile_overScreen : ∃ h, (calls overScreen).Reach h ∧
    checkPagesInvariants h.alloc = true := by
  obtain ⟨h, hinit⟩ := calls_start overScreen
  have hr : (calls overScreen).Reach h := .init hinit
  exact ⟨h, hr, (heads_tile_iff hr).mpr (by decide)⟩

/-- The usual places: the low data at 0x4000, the kernel at 1 MiB and its symbols after it. -/
def usual : Placement where
  lowStart := 0x4000
  lowEnd := 0x5000
  kernelStart := 0x100000
  kernelEnd := 0x180000
  sym := 0x180000
  symSize := 0x20000
  low := by decide
  kernel := by decide
  symtab := by decide

/-- Nothing owns the page 0xAF, and no block head tiles it. -/
theorem heads_leave_gap : ∃ h, (calls usual).Reach h ∧ checkPagesInvariants h.alloc = false := by
  obtain ⟨h, hinit⟩ := calls_start usual
  have hr : (calls usual).Reach h := .init hinit
  obtain ⟨hb, -, hscreen⟩ := calls_tiled hr
  refine ⟨h, hr, Bool.eq_false_iff.mpr fun hcheck => ?_⟩
  exact absurd (hscreen ((check_iff hb).mp hcheck screenEndPage (by decide))) (by decide)

end PugOS.KAlloc
