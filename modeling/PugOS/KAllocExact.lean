import PugOS.KAllocTile

/-! # What `kalloc` does exactly

The loop of `kalloc` takes the first block of the smallest order there is one of and breaks it
in half until it has the wanted order.  Every round puts the halves on a list that was empty, so
the next round breaks the lower half again: the block `kalloc` returns is the lowest part of one
free block, and the rest of that block is one free block of each order in between (`Served`).

A size is cut to 32 bits before its order is taken (`orderOf_le_iff`), so from `2 ^ 32` on the
order can be too small for the size.
-/
namespace PugOS.KAlloc
open Transition State

/-- The allocator from `init_kalloc` on, with requests of any size. -/
def requests (m : PhysicalRanges) : Machine Heap Op where
  init := (heap m).init
  step := callStep

theorem requests_inv {m : PhysicalRanges} {h : Heap} (hr : (requests m).Reach h) :
    Inv (fun x => m.Available (x * pageSize)) h.alloc h.live := by
  refine hr.invariant (fun h => Inv (fun x => m.Available (x * pageSize)) h.alloc h.live) ?_ ?_
  · exact fun h hinit => heap_inv (.init hinit)
  · exact fun h op h' hi hstep => (callStep_tiled hi hstep).1

/-! ## The order of a request -/

section Order
variable {n k sz : Nat}

theorem msb_le_iff : msb n ≤ k ↔ n % 2 ^ 32 < 2 ^ k := by
  unfold msb
  split
  · rename_i h
    rw [h]
    exact ⟨fun _ => Nat.two_pow_pos k, fun _ => Nat.zero_le k⟩
  · rename_i h
    rw [Nat.add_one_le_iff]
    exact Nat.log2_lt h

/-- The order is the least one that has room for the size, cut to 32 bits. -/
theorem orderOf_le_iff : orderOf n ≤ k ↔ n % 2 ^ 32 ≤ 2 ^ k := by
  unfold orderOf
  split
  · rename_i h
    rw [h]
    exact ⟨fun _ => Nat.zero_le _, fun _ => Nat.zero_le k⟩
  · rename_i h
    rw [msb_le_iff, Nat.mod_eq_of_lt (by omega)]
    omega

theorem requestOrder_le_iff (hk : minOrder ≤ k) : requestOrder sz ≤ k ↔
    max sz (2 ^ minOrder) % 2 ^ 32 ≤ 2 ^ k := by
  have hle := orderOf_le_iff (n := max sz (2 ^ minOrder)) (k := k)
  rw [← hle]
  unfold requestOrder
  dsimp only
  split
  · rename_i hlt
    exact ⟨fun _ => by omega, fun _ => hk⟩
  · exact Iff.rfl

/-- A request of up to `2 ^ 24` bytes is served with the least order that has room for it. -/
theorem requestOrder_eq (h : sz ≤ maxRequest) : requestOrder sz = max minOrder (Nat.clog 2 sz) := by
  have hmod : max sz (2 ^ minOrder) % 2 ^ 32 = max sz (2 ^ minOrder) := by
    refine Nat.mod_eq_of_lt ?_
    unfold maxRequest minOrder at *
    omega
  have hiff : ∀ k, minOrder ≤ k → (requestOrder sz ≤ k ↔ Nat.clog 2 sz ≤ k) := by
    intro k hk
    rw [requestOrder_le_iff hk, hmod, Nat.clog_le_iff_le_pow Nat.one_lt_two, Nat.max_le]
    exact and_iff_left (Nat.pow_le_pow_right Nat.two_pos hk)
  apply Nat.le_antisymm
  · exact (hiff _ (Nat.le_max_left _ _)).mpr (Nat.le_max_right _ _)
  · exact Nat.max_le.mpr ⟨requestOrder_ge sz, (hiff _ (requestOrder_ge sz)).mp (Nat.le_refl _)⟩

end Order
/-! ## Breaking up a block -/

section Split
variable {s t : State} {p k j : Nat} {rest : List Nat}

theorem pushBack_eq (h : s.pushBack k p = some t) : t = s.setFree k (s.freeBlocks k ++ [p]) := by
  unfold State.pushBack at h
  split at h
  · exact (Option.some.inj h).symm
  · cases h

/-- The upper half of the first block of order `j`, whose lower half stays at `p`. -/
theorem split_eq (hlist : s.freeBlocks j = p :: rest) (hempty : s.freeBlocks (j - 1) = [])
    (hj : 0 < j) (ho : (s.pages p).order = j) (hp : (s.pages p).pindex = p)
    (h : split s j = some t) :
    t.pages = Function.update
    (Function.update s.pages p ⟨j - 1, (s.pages p).pindex, (s.pages p).allocated⟩)
        (p + 2 ^ (j - 1 - minOrder)) ⟨j - 1, p + 2 ^ (j - 1 - minOrder), false⟩ ∧
      t.freeBlocks = Function.update (Function.update s.freeBlocks j rest) (j - 1)
        [p, p + 2 ^ (j - 1 - minOrder)] ∧
      t.mem = s.mem := by
  unfold split at h
  obtain ⟨⟨s₁, target⟩, hpop, h⟩ := Option.bind_eq_some_iff.mp h
  obtain ⟨rfl, rfl⟩ : target = p ∧ s₁ = s.setFree j rest := by
    unfold State.popFront at hpop
    rw [hlist] at hpop
    dsimp only at hpop
    split at hpop
    · cases hpop
      exact ⟨rfl, rfl⟩
    · cases hpop
  obtain ⟨s₂, hlow, h⟩ := Option.bind_eq_some_iff.mp h
  have hs₂ := pushBack_eq hlow
  dsimp only at h
  obtain ⟨s₃, hstore, h⟩ := Option.bind_eq_some_iff.mp h
  have ht := pushBack_eq h
  rw [storePage_eq hstore] at ht
  dsimp only at hs₂ ht
  rw [setFree_pages, ho] at hs₂ ht
  have hidx : (s₂.pages target).pindex = target := by
    rw [hs₂, setFree_pages, setPage_pages_same]
    exact hp
  rw [hidx, orderOf_pageSize] at ht
  have hne : (s.setFree j rest).freeBlocks (j - 1) = [] := by
    rw [setFree_freeBlocks_ne _ _ (by omega), hempty]
  refine ⟨?_, ?_, ?_⟩
  · rw [ht, hs₂]
    rfl
  · rw [ht, hs₂]
    unfold State.setFree at hne ⊢
    unfold State.setPage
    dsimp only at hne ⊢
    rw [hne, Function.update_idem, Function.update_self]
    rfl
  · rw [ht, hs₂]
    rfl

/-- The list of order `i` once the block at `p` of order `j` has been broken up and its lowest
part, of order `k`, is taken off. -/
def leftList (s : State) (p k j : Nat) (rest : List Nat) (i : Nat) : List Nat :=
  if k ≤ i ∧ i < j then [p + 2 ^ (i - minOrder)] else if i = j then rest else s.freeBlocks i

/-- The block at `p` of order `j` has been broken up until its lowest part has order `k`. -/
structure Broken (s t : State) (p k j : Nat) (rest : List Nat) : Prop where
  target : t.pages p = ⟨k, (s.pages p).pindex, (s.pages p).allocated⟩
  pieces : ∀ i, k ≤ i → i < j →
    t.pages (p + 2 ^ (i - minOrder)) = ⟨i, p + 2 ^ (i - minOrder), false⟩
  pages : ∀ q, q ≠ p → (∀ i, k ≤ i → i < j → q ≠ p + 2 ^ (i - minOrder)) → t.pages q = s.pages q
  lists : ∀ i, t.freeBlocks i = if i = k then p :: leftList s p k j rest i
    else leftList s p k j rest i
  mem : t.mem = s.mem

theorem two_pow_ne {i : Nat} (hi : minOrder ≤ i) (hij : i < j) :
    2 ^ (j - minOrder) ≠ 2 ^ (i - minOrder) := by
  intro h
  have := Nat.pow_right_injective (Nat.le_refl 2) h
  omega

/-- One more round before the others. -/
theorem Broken.split {s₁ : State} (hk : minOrder ≤ k) (hkj : k < j)
    (hlist : s.freeBlocks j = p :: rest) (hempty : ∀ i, k ≤ i → i < j → s.freeBlocks i = [])
    (ho : (s.pages p).order = j) (hp : (s.pages p).pindex = p) (hsplit : split s j = some s₁)
    (h : Broken s₁ t p k (j - 1) [p + 2 ^ (j - 1 - minOrder)]) : Broken s t p k j rest := by
  obtain ⟨hpages, hlists, hmem⟩ :=
    split_eq hlist (hempty (j - 1) (by omega) (by omega)) (by omega) ho hp hsplit
  have hpos := Nat.two_pow_pos (j - 1 - minOrder)
  have hhalf : s₁.pages (p + 2 ^ (j - 1 - minOrder)) =
      ⟨j - 1, p + 2 ^ (j - 1 - minOrder), false⟩ := by
    rw [hpages, Function.update_self]
  have htarget : s₁.pages p = ⟨j - 1, (s.pages p).pindex, (s.pages p).allocated⟩ := by
    rw [hpages, Function.update_of_ne (by omega), Function.update_self]
  refine ⟨?_, fun i hi hij => ?_, fun q hq hpieces => ?_, fun i => ?_, h.mem.trans hmem⟩
  · rw [h.target, htarget]
  · rcases Nat.lt_or_ge i (j - 1) with hlt | hge
    · exact h.pieces i hi hlt
    · obtain rfl : i = j - 1 := by omega
      rw [h.pages _ (by omega), hhalf]
      intro i' hi' hlt he
      exact two_pow_ne (hk.trans hi') hlt (Nat.add_left_cancel he)
  · have hqh := hpieces (j - 1) (by omega) (by omega)
    rw [h.pages q hq fun i hi hlt => hpieces i hi (by omega), hpages, Function.update_of_ne hqh,
      Function.update_of_ne hq]
  · rw [h.lists i]
    have hleft : leftList s₁ p k (j - 1) [p + 2 ^ (j - 1 - minOrder)] i =
        leftList s p k j rest i := by
      unfold leftList
      rw [hlists]
      by_cases hlow : k ≤ i ∧ i < j - 1
      · rw [if_pos hlow, if_pos ⟨hlow.1, by omega⟩]
      · rw [if_neg hlow]
        by_cases hi : i = j - 1
        · rw [if_pos hi, if_pos (by omega), hi]
        · rw [if_neg hi, if_neg (by omega), Function.update_of_ne hi]
          by_cases hij : i = j
          · rw [if_pos hij, hij, Function.update_self]
          · rw [if_neg hij, Function.update_of_ne hij]
    rw [hleft]

/-- **The split loop breaks up one block**, the first of the smallest order there is one of. -/
theorem splitLoop_broken (hk : minOrder ≤ k) :
    ∀ {fuel j : Nat} {s : State} {rest : List Nat}, Blocks s →
    Lists s ∅ → s.FreeInside → k ≤ j → s.freeBlocks j = p :: rest →
    (∀ i, k ≤ i → i < j → s.freeBlocks i = []) → j - k < fuel → ∃ t, splitLoop k fuel s = some t ∧
    Reshaped s t ∅ ∧ Broken s t p k j rest := by
  intro fuel
  induction fuel with
  | zero => exact fun _ _ _ _ _ _ h => absurd h (Nat.not_lt_zero _)
  | succ fuel ih =>
    intro j s rest hb hl hin hkj hlist hempty hfuel
    obtain ⟨hfree, ho, -⟩ := (hl.mem_iff j p).mp (by rw [hlist]; exact List.mem_cons_self)
    have hp := hb.pindex_eq p hfree.1
    rw [splitLoop]
    rcases Nat.lt_or_eq_of_le hkj with hlt | rfl
    · have hne : s.freeBlocks j ≠ [] := by
        rw [hlist]
        exact List.cons_ne_nil _ _
      have hle : j ≤ maxOrder := ho ▸ hb.order_le p hfree.1
      have hlarge : minLargerOrder s k = some j :=
        minLargerOrder_eq_some.mpr ⟨hkj, hle, hne, hempty⟩
      obtain ⟨s₁, hsplit, hr, -, hlow⟩ := split_spec hb hl hin (Nat.lt_of_le_of_lt hk hlt) hne
      obtain ⟨-, hlists, -⟩ :=
        split_eq hlist (hempty (j - 1) (by omega) (by omega)) (by omega) ho hp hsplit
      have hlist₁ : s₁.freeBlocks (j - 1) = [p, p + 2 ^ (j - 1 - minOrder)] := by
        rw [hlists, Function.update_self]
      obtain ⟨t, hrun, hr', ht⟩ := ih hr.blocks hr.lists (hr.freeInside hin) (by omega) hlist₁
        (fun i hi hlt' => by rw [hlow i hlt']; exact hempty i hi (by omega)) (by omega)
      refine ⟨t, ?_, hr.trans hr', ht.split hk hlt hlist hempty ho hp hsplit⟩
      rw [if_pos (by rw [hempty k (Nat.le_refl k) hlt]; rfl), hlarge, Option.bind_some, hsplit,
        Option.bind_some]
      exact hrun
    · rw [if_neg (by rw [hlist]; exact Bool.false_ne_true)]
      refine ⟨s, rfl, ⟨hb, hl, fun _ _ => Iff.rfl, fun _ _ => rfl, rfl⟩, ?_⟩
      refine ⟨by rw [← ho], fun i _ _ => by omega, fun _ _ _ => rfl, fun i => ?_, rfl⟩
      unfold leftList
      by_cases hi : i = k
      · rw [if_pos hi, if_neg (by omega), if_pos hi, hi, hlist]
      · rw [if_neg hi, if_neg (by omega), if_neg hi]

end Split
/-! ## `kalloc` -/

section Kalloc
variable {avail : Nat → Prop} {s t : State} {live : List Nat} {p k j sz : Nat} {rest : List Nat}

/-- `kalloc` has taken the lowest part, of order `k`, of the free block at `p` of order `j`. -/
structure Served (s t : State) (p k j : Nat) (rest : List Nat) : Prop where
  result : t.pages p = ⟨k, p, true⟩
  pieces : ∀ i, k ≤ i → i < j →
    t.pages (p + 2 ^ (i - minOrder)) = ⟨i, p + 2 ^ (i - minOrder), false⟩
  pages : ∀ q, q ≠ p → (∀ i, k ≤ i → i < j → q ≠ p + 2 ^ (i - minOrder)) → t.pages q = s.pages q
  lists : ∀ i, t.freeBlocks i = leftList s p k j rest i
  mem : t.mem = s.mem

/-- The first block of the smallest order from `k` on there is one of. -/
structure Candidate (s : State) (p k j : Nat) (rest : List Nat) : Prop where
  free : s.FreeHead p
  order : (s.pages p).order = j
  le : k ≤ j
  list : s.freeBlocks j = p :: rest
  smallest : ∀ i, k ≤ i → i < j → s.freeBlocks i = []

theorem minLargerOrder_none (hb : Blocks s) (hl : Lists s ∅) :
    minLargerOrder s k = none ↔ ¬ ∃ q, s.FreeHead q ∧ k ≤ (s.pages q).order := by
  constructor
  · rintro hnone ⟨q, hq, hle⟩
    have hmem : q ∈ s.freeBlocks (s.pages q).order :=
      (hl.mem_iff _ q).mpr ⟨hq, rfl, Set.notMem_empty q⟩
    have hmax := hb.order_le q hq.1
    have := List.find?_eq_none.mp hnone (s.pages q).order (List.mem_range'_1.mpr ⟨hle, by omega⟩)
    rw [Bool.not_eq_true, Bool.not_eq_false'] at this
    rw [List.isEmpty_iff.mp this] at hmem
    cases hmem
  · intro hno
    by_contra hsome
    obtain ⟨j, hj⟩ := Option.ne_none_iff_exists'.mp hsome
    obtain ⟨hkj, -, hne, -⟩ := minLargerOrder_eq_some.mp hj
    obtain ⟨q, l, hlist⟩ := List.exists_cons_of_ne_nil hne
    obtain ⟨hq, ho, -⟩ := (hl.mem_iff j q).mp (by rw [hlist]; exact List.mem_cons_self)
    exact hno ⟨q, hq, ho ▸ hkj⟩

theorem exists_candidate (hl : Lists s ∅) (h : minLargerOrder s k ≠ none) :
    ∃ p j rest, Candidate s p k j rest := by
  obtain ⟨j, hj⟩ := Option.ne_none_iff_exists'.mp h
  obtain ⟨hkj, -, hne, hsmall⟩ := minLargerOrder_eq_some.mp hj
  obtain ⟨p, rest, hlist⟩ := List.exists_cons_of_ne_nil hne
  obtain ⟨hp, ho, -⟩ := (hl.mem_iff j p).mp (by rw [hlist]; exact List.mem_cons_self)
  exact ⟨p, j, rest, hp, ho, hkj, hlist, hsmall⟩

/-- `kalloc` takes the candidate, if there is one. -/
theorem kalloc_candidate (h : Inv avail s live) (hsz : sz ≠ 0) (hmax : requestOrder sz ≤ maxOrder)
    (hc : Candidate s p (requestOrder sz) j rest) :
    ∃ t, kalloc s sz = some (t, some (p * pageSize)) ∧ Served s t p (requestOrder sz) j rest := by
  have hge := requestOrder_ge sz
  have hsome : minLargerOrder s (requestOrder sz) ≠ none := fun hn =>
    (minLargerOrder_none h.blocks h.lists).mp hn ⟨p, hc.free, hc.order ▸ hc.le⟩
  have hle : j ≤ maxOrder := hc.order ▸ h.blocks.order_le p hc.free.1
  unfold kalloc
  rw [if_neg hsz]
  dsimp only
  rw [if_neg (Nat.not_lt.mpr hmax), if_neg hsome]
  generalize requestOrder sz = k at *
  obtain ⟨t, hrun, -, ht⟩ := splitLoop_broken hge h.blocks h.lists h.freeInside hc.le hc.list
    hc.smallest (show j - k < norders by simp only [norders, minOrder, maxOrder] at *; omega)
  have hlist : t.freeBlocks k = p :: leftList s p k j rest k := by rw [ht.lists, if_pos rfl]
  have hpop : t.popFront k = some (t.setFree k (leftList s p k j rest k), p) := by
    unfold State.popFront
    rw [hlist]
    exact if_pos ⟨hge, hmax⟩
  have hpages : t.pages p = ⟨k, p, false⟩ := by
    rw [ht.target, h.blocks.pindex_eq p hc.free.1, hc.free.2]
  refine ⟨(t.setFree k (leftList s p k j rest k)).setPage p ⟨k, p, true⟩, ?_, ?_⟩
  · rw [hrun, Option.bind_eq_bind, Option.bind_some, hpop, Option.bind_eq_bind, Option.bind_some]
    dsimp only
    rw [setPage_pages_same, setFree_pages, hpages]
  · refine ⟨?_, fun i hi hij => ?_, fun q hq hpieces => ?_, fun i => ?_, ht.mem⟩
    · rw [setPage_pages_same]
    · have hpos := Nat.two_pow_pos (i - minOrder)
      rw [setPage_pages_ne _ _ (by omega)]
      exact ht.pieces i hi hij
    · rw [setPage_pages_ne _ _ hq]
      exact ht.pages q hq hpieces
    · rw [setPage_freeBlocks]
      by_cases hi : i = k
      · rw [hi, setFree_freeBlocks_same]
      · rw [setFree_freeBlocks_ne _ _ hi, ht.lists, if_neg hi]

/-- What a request comes to. -/
theorem kalloc_cases (h : Inv avail s live) (hsz : sz ≠ 0) :
    (kalloc s sz = some (s, none) ∧
      (maxOrder < requestOrder sz ∨ ¬ ∃ q, s.FreeHead q ∧ requestOrder sz ≤ (s.pages q).order)) ∨
    (requestOrder sz ≤ maxOrder ∧ ∃ t p j rest, kalloc s sz = some (t, some (p * pageSize)) ∧
      Candidate s p (requestOrder sz) j rest ∧ Served s t p (requestOrder sz) j rest) := by
  by_cases hmax : requestOrder sz ≤ maxOrder
  · by_cases hnone : minLargerOrder s (requestOrder sz) = none
    · refine .inl ⟨?_, .inr ((minLargerOrder_none h.blocks h.lists).mp hnone)⟩
      unfold kalloc
      rw [if_neg hsz]
      dsimp only
      rw [if_neg (Nat.not_lt.mpr hmax), if_pos hnone]
    · obtain ⟨p, j, rest, hc⟩ := exists_candidate h.lists hnone
      obtain ⟨t, hrun, ht⟩ := kalloc_candidate h hsz hmax hc
      exact .inr ⟨hmax, t, p, j, rest, hrun, hc, ht⟩
  · refine .inl ⟨?_, .inl (Nat.not_le.mp hmax)⟩
    unfold kalloc
    rw [if_neg hsz]
    dsimp only
    rw [if_pos (Nat.not_le.mp hmax)]

end Kalloc

section Requests
variable {m : PhysicalRanges} {h : Heap} {sz : Nat}

/-- **`kalloc` is complete and exact**: a request of up to `2 ^ 24` bytes succeeds if and only if
some free block has at least the order `k` of the request.  If it does, the result is the lowest
part, of order `k`, of one free block, whose rest is a free block of each order from `k` to its
own minus one; no other block changes.  If it does not, nothing changes. -/
theorem kalloc_exact (hr : (requests m).Reach h) (hpos : 0 < sz) (hle : sz ≤ maxRequest) :
    ((∃ t pa, kalloc h.alloc sz = some (t, some pa)) ↔
      ∃ q, h.alloc.FreeHead q ∧ max minOrder (Nat.clog 2 sz) ≤ (h.alloc.pages q).order) ∧
    (∀ t pa, kalloc h.alloc sz = some (t, some pa) → ∃ p j rest, pa = p * pageSize ∧
      Candidate h.alloc p (max minOrder (Nat.clog 2 sz)) j rest ∧
      Served h.alloc t p (max minOrder (Nat.clog 2 sz)) j rest) ∧
    (∀ t, kalloc h.alloc sz = some (t, none) → t = h.alloc) ∧
    (kalloc h.alloc sz).isSome := by
  have hmax : requestOrder sz ≤ maxOrder := by
    rw [requestOrder_le_iff (by decide), Nat.mod_eq_of_lt]
    · exact Nat.max_le.mpr ⟨hle, by decide⟩
    · unfold maxRequest minOrder at *
      omega
  rw [← requestOrder_eq hle]
  rcases kalloc_cases (requests_inv hr) (Nat.ne_of_gt hpos) with ⟨hrun, hno⟩ |
    ⟨-, t, p, j, rest, hrun, hc, ht⟩
  · have hno := hno.resolve_left (Nat.not_lt.mpr hmax)
    rw [hrun]
    refine ⟨⟨fun hsome => ?_, fun hq => absurd hq hno⟩, fun t pa he => ?_, fun t he => ?_, rfl⟩
    · obtain ⟨t, pa, he⟩ := hsome
      cases he
    · cases he
    · cases he
      rfl
  · rw [hrun]
    refine ⟨⟨fun _ => ⟨p, hc.free, hc.order ▸ hc.le⟩, fun _ => ⟨t, _, rfl⟩⟩, fun t' pa he => ?_,
      fun t' he => ?_, rfl⟩
    · cases he
      exact ⟨p, j, rest, rfl, hc, ht⟩
    · cases he

/-- A run from `init_kalloc` on is a run to a reachable state. -/
theorem requests_run {ops : List Op} {h : Heap}
    (h₀ : ((initKalloc m.toMemRangeSet fun _ => 0).bind fun s =>
    (requests m).run ⟨s, []⟩ ops) = some h) : (requests m).Reach h := by
  obtain ⟨s, hs, hrun⟩ := Option.bind_eq_some_iff.mp h₀
  exact Machine.Reach.run (.init ⟨⟨_, hs⟩, rfl⟩) hrun

/-- The second request for a page breaks up the block of two pages. -/
theorem kalloc_exact_page : ∃ h t rest, (requests smallRanges).Reach h ∧
    kalloc h.alloc 1 = some (t, some 0x2000) ∧ Served h.alloc t 2 12 13 rest := by
  have hrun : (((initKalloc smallRanges.toMemRangeSet fun _ => 0).bind fun s =>
      (requests smallRanges).run ⟨s, []⟩ [.kalloc 1]).bind fun h => (kalloc h.alloc 1).map fun r =>
        (r.2, (h.alloc.pages 2).order)) = some (some 0x2000, 13) := by decide +kernel
  obtain ⟨h, hh, hrun⟩ := Option.bind_eq_some_iff.mp hrun
  obtain ⟨⟨t, r⟩, hkalloc, he⟩ := Option.map_eq_some_iff.mp hrun
  obtain ⟨rfl, horder⟩ := Prod.mk.inj he
  obtain ⟨-, hserved, -, -⟩ := kalloc_exact (requests_run hh) (show 0 < 1 by decide) (by decide)
  obtain ⟨p, j, rest, hp, hc, ht⟩ := hserved t _ hkalloc
  obtain rfl : 2 = p := mul_pageSize_inj.mp hp
  have hj : j = 13 := by rw [← hc.order, horder]
  have hk : max minOrder (Nat.clog 2 1) = 12 := by decide
  rw [hk, hj] at ht
  exact ⟨h, t, rest, requests_run hh, hkalloc, ht⟩

/-- **`kalloc` returns no block that is too small, exactly if** the size is below `2 ^ 32`, or what
is left of it in 32 bits is above `2 ^ 24`, or no free block has the order of what is left. -/
theorem kalloc_fits_iff (hr : (requests m).Reach h) (hpos : 0 < sz) :
    (∀ t pa, kalloc h.alloc sz = some (t, some pa) → ∃ p, pa = p * pageSize ∧ t.Head p ∧
      (t.pages p).allocated = true ∧ sz ≤ 2 ^ (t.pages p).order) ↔
    sz < 2 ^ 32 ∨ maxRequest < sz % 2 ^ 32 ∨
      ∀ q, h.alloc.FreeHead q → (h.alloc.pages q).order < requestOrder sz := by
  have hle_iff : ∀ k, minOrder ≤ k →
      (requestOrder sz ≤ k ↔ max sz (2 ^ minOrder) % 2 ^ 32 ≤ 2 ^ k) :=
    fun _ => requestOrder_le_iff
  rcases kalloc_cases (requests_inv hr) (Nat.ne_of_gt hpos) with ⟨hrun, hno⟩ | ⟨hmax, t, p, j, rest,
    hrun, hc, ht⟩
  · rw [hrun]
    refine iff_of_true (fun t pa he => by cases he) ?_
    rcases hno with hbig | hno
    · refine or_iff_not_imp_left.mpr fun hsz => .inl ?_
      have hbig := Nat.not_le.mpr hbig
      rw [hle_iff maxOrder (by decide)] at hbig
      unfold maxRequest
      unfold minOrder maxOrder at hbig
      omega
    · exact .inr (.inr fun q hq => Nat.not_le.mp fun hle => hno ⟨q, hq, hle⟩)
  · have hge := requestOrder_ge sz
    have hroom := (hle_iff _ hge).mp (Nat.le_refl _)
    rw [hrun]
    constructor
    · intro hfits
      obtain ⟨q, hq, -, -, hsz⟩ := hfits t _ rfl
      obtain rfl := mul_pageSize_inj.mp hq
      refine .inl (Nat.lt_of_le_of_lt hsz ?_)
      rw [ht.result]
      exact Nat.pow_lt_pow_right Nat.one_lt_two (Nat.lt_of_le_of_lt hmax (by decide))
    · intro hwhen t' pa he
      cases he
      refine ⟨p, rfl, ?_, ?_, ?_⟩
      · rw [Head, ht.result]
        dsimp only
        unfold minOrder at hge
        omega
      · rw [ht.result]
      · rw [ht.result]
        dsimp only
        rcases hwhen with hsz | hbig | hno
        · rw [Nat.mod_eq_of_lt (by unfold minOrder; omega)] at hroom
          exact (Nat.le_max_left _ _).trans hroom
        · have hmax := (hle_iff maxOrder (by decide)).mp hmax
          unfold maxRequest at hbig
          unfold minOrder maxOrder at hmax
          omega
        · have := hno p hc.free
          rw [hc.order] at this
          exact absurd hc.le (by omega)

/-- A page. -/
theorem kalloc_fits_page : ∃ h, (requests smallRanges).Reach h ∧ ∀ t pa,
    kalloc h.alloc 4096 = some (t, some pa) → ∃ p, pa = p * pageSize ∧ t.Head p ∧
      (t.pages p).allocated = true ∧ 4096 ≤ 2 ^ (t.pages p).order := by
  obtain ⟨s, hs⟩ := initKalloc_some smallRanges (smallRanges.valid.not_crosses smallRanges_end)
    fun _ => 0
  have hr : (requests smallRanges).Reach ⟨s, []⟩ := .init ⟨⟨_, hs⟩, rfl⟩
  exact ⟨_, hr, (kalloc_fits_iff hr (by decide)).mpr (.inl (by decide))⟩

/-- A request of `2 ^ 32` bytes is served with one page. -/
theorem kalloc_too_small : ∃ h t, (requests smallRanges).Reach h ∧
    kalloc h.alloc (2 ^ 32) = some (t, some 0x1000) ∧ 2 ^ (t.pages 1).order < 2 ^ 32 := by
  have hrun : (((initKalloc smallRanges.toMemRangeSet fun _ => 0).bind fun s =>
      (requests smallRanges).run ⟨s, []⟩ []).bind fun h => (kalloc h.alloc (2 ^ 32)).map fun r =>
        (r.2, (r.1.pages 1).order)) = some (some 0x1000, 12) := by decide +kernel
  obtain ⟨h, hh, hrun⟩ := Option.bind_eq_some_iff.mp hrun
  obtain ⟨⟨t, r⟩, hkalloc, he⟩ := Option.map_eq_some_iff.mp hrun
  obtain ⟨rfl, horder⟩ := Prod.mk.inj he
  refine ⟨h, t, requests_run hh, hkalloc, ?_⟩
  rw [horder]
  decide

/-- **A bad free is harmless**: of an available page that is not the start of a block handed out,
`kfree` changes nothing. -/
theorem bad_kfree (hr : (requests m).Reach h) {pa : Nat} (hpage : pageSize ∣ pa)
    (havail : m.Available pa) (hlive : pa ∉ h.live) : kfree h.alloc (some pa) = some h.alloc := by
  have hi := requests_inv hr
  obtain ⟨x, rfl⟩ := hpage
  rw [Nat.mul_comm] at havail hlive ⊢
  have hinside : ¬ npages ≤ x := Nat.not_le_of_lt (hi.bound x havail)
  have hflag : (h.alloc.pages x).allocated = false := by
    by_contra ha
    rw [Bool.not_eq_false] at ha
    -- the flag is set on heads only
    have hhead : h.alloc.Head x := by
      by_contra hno
      rw [hi.blocks.cleared x hno] at ha
      cases ha
    have hpos := h.alloc.size_pos x
    obtain ⟨p, hp, hpx, hxp, howner⟩ := (hi.cover x).mp havail
    obtain rfl := hi.blocks.head_unique hp hhead hpx hxp (Nat.le_refl x) (by omega)
    rcases howner with hfree | hmem
    · rw [ha] at hfree
      cases hfree
    · exact hlive hmem
  unfold kfree
  dsimp only
  rw [if_neg (not_not.mpr (Nat.mul_mod_left x pageSize)), Nat.mul_div_cancel _ pageSize_pos,
    if_neg hinside, if_pos hflag]

/-- The second page of a block of two that has been handed out. -/
theorem bad_kfree_interior : ∃ h, (requests smallRanges).Reach h ∧ h.live = [0x2000] ∧
    kfree h.alloc (some 0x3000) = some h.alloc := by
  have hrun : ((initKalloc smallRanges.toMemRangeSet fun _ => 0).bind fun s =>
      (requests smallRanges).run ⟨s, []⟩ [.kalloc 5000]).map Heap.live =
        some [0x2000] := by decide +kernel
  obtain ⟨h, hh, hlive⟩ := Option.map_eq_some_iff.mp hrun
  refine ⟨h, requests_run hh, hlive, bad_kfree (requests_run hh) (by decide) ?_ ?_⟩
  · exact ⟨1, by decide, by decide, by decide, by decide⟩
  · rw [hlive]
    decide

end Requests
end PugOS.KAlloc
