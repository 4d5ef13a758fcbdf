import PugOS.PageMap

/-! # `ptiter`

`ptiter` goes through the pages of a page table below the top one.  A page stands for a range
of addresses; the pages come in the order in which their ranges end, and of those that end
together the lowest first (`After`), so a page comes after all pages below it.

`down` finds the first page that is still to come (`downLoop_skip`).  To leave a page it starts
from the top page again and follows the address it is at to the entry for that page.  The
entries it reads are in pages that are still to come themselves, or in the top page, so the
body of the loop may do what it likes with the pages that have come (`visit_postorder`).
-/
namespace PugOS.PageTable

/-- `VA_LOWMAX + 1`. -/
def vaLowEnd : Nat := 2 ^ 47

/-- `va_`, `level_`, and the entry `pep_` is of a page. -/
structure PtIter where
  pt : Nat
  va : Nat
  level : Nat
  page : Nat
  index : Nat
  deriving DecidableEq

namespace PtIter

/-- The loop of `down`. -/
def downLoop (t : Tables) : (fuel stop : Nat) → (skip : Bool) → PtIter → Option PtIter
  | 0, _, _, _ => none
  | fuel + 1, stop, skip, it =>
    match (t it.page it.index).next, skip with
    | some pa, false =>
      if it.level = stop then some it
      else downLoop t fuel stop false
        { it with level := it.level - 1, page := pa, index := pageindex it.va (it.level - 1) }
    | _, _ =>
      let va := wrap64 ((it.va / span it.level + 1) * span it.level)
      if va / span (it.level + 1) ≠ it.va / span (it.level + 1) then
        -- up one level
        if it.level = 3 then some { it with va := vaEnd }
        else downLoop t fuel (it.level + 1) false
          { it with level := 3, page := it.pt, index := pageindex it.va 3 }
      else downLoop t fuel stop false { it with index := it.index + 1, va := va }

/-- More rounds than any of the loops here can have. -/
def rounds : Nat := 2 ^ 51

/-- `ptiter(pt, va)`. -/
def mk' (t : Tables) (pt va : Nat) : Option PtIter :=
  downLoop t rounds 1 false ⟨pt, va, 3, pt, pageindex va 3⟩

/-- `next()`. -/
def next (t : Tables) (it : PtIter) : Option PtIter := downLoop t rounds 1 true it

/-- `low()`. -/
def low (it : PtIter) : Bool := it.va < vaLowEnd

/-- `ptp_pa()`. -/
def ptpPa (t : Tables) (it : PtIter) : Nat := (t it.page it.index).pa

/-- What the body of the loop does to the page it is at: nothing, or what `kfree` does. -/
def body (free : Bool) (t : Tables) (pa : Nat) : Tables :=
  if free then Function.update t pa fun _ => .zero else t

/-- The loop, with `level()` and `ptp_pa()` of every page it comes by. -/
def visitLoop (free : Bool) : (fuel : Nat) → Tables → PtIter → Option (Tables × List (Nat × Nat))
  | 0, _, _ => none
  | fuel + 1, t, it =>
    if it.low then
      let pa := it.ptpPa t
      let t' := body free t pa
      (it.next t').bind fun it' =>
        (visitLoop free fuel t' it').map fun r => (r.1, (it.level - 1, pa) :: r.2)
    else some (t, [])

/-- `for (ptiter it(pt, 0); it.low(); it.next())`. -/
def visit (free : Bool) (t : Tables) (pt : Nat) : Option (Tables × List (Nat × Nat)) :=
  (mk' t pt 0).bind (visitLoop free rounds t)

/-! ## The order of the pages -/

/-- There is a page of level `m` for the `j`th range of its size. -/
def IsPage (t : Tables) (pt m j : Nat) : Prop :=
  m < 3 ∧ (j + 1) * span (m + 1) ≤ vaEnd ∧ (table t pt m (j * span (m + 1))).isSome = true

/-- The range ends behind address `a`, or at it and is of a level above `k`. -/
def After (a k m j : Nat) : Prop :=
  a < (j + 1) * span (m + 1) ∨ (a = (j + 1) * span (m + 1) ∧ k < m)

/-- The iterator is at an entry of a page of the page table. -/
structure At (t : Tables) (pt : Nat) (it : PtIter) : Prop where
  pt_eq : it.pt = pt
  pos : 1 ≤ it.level
  le : it.level ≤ 3
  va_lt : it.va < vaEnd
  page : table t pt it.level it.va = some it.page
  index : it.index = pageindex it.va it.level

/-- The iterator is at the entry for the first page after `a` and `k`, or has come to the end. -/
inductive Found (t : Tables) (pt a k : Nat) (it : PtIter) : Prop
  | page (m : Nat) (at_ : At t pt it) (level : it.level = m + 1)
      (found : IsPage t pt m (it.va / span (m + 1))) (after : After a k m (it.va / span (m + 1)))
      (first : ∀ m' j', IsPage t pt m' j' → After a k m' j' →
        ¬ After ((j' + 1) * span (m' + 1)) m' m (it.va / span (m + 1)))
  | done (va : it.va = vaEnd) (none : ∀ m j, IsPage t pt m j → ¬ After a k m j)

variable {t t' : Tables} {pt a k m j n level fuel stop : Nat} {it : PtIter}

theorem span_dvd {l l' : Nat} (h : l ≤ l') : span l ∣ span l' := Nat.pow_dvd_pow 2 (by omega)

/-- A number of ranges that is not before is one more. -/
theorem next_mul_le {s x : Nat} (hdvd : s ∣ x) (h : n * s < x) : (n + 1) * s ≤ x := by
  obtain ⟨c, rfl⟩ := hdvd
  rw [Nat.mul_comm s c] at h ⊢
  exact Nat.mul_le_mul_right s (Nat.lt_of_mul_lt_mul_right h)

/-- The page of an address is the page of its range. -/
theorem table_range {va : Nat} (hm : m ≤ 3) (h : va / span (m + 1) = j) :
    table t pt m va = table t pt m (j * span (m + 1)) := by
  refine table_congr hm ?_
  rw [Nat.mul_div_cancel _ (span_pos _), h]

/-- A page's range lies in a range of each higher level, which has a page too. -/
theorem IsPage.up (h : IsPage t pt m j) {l : Nat} (hl : m ≤ l) (hl3 : l < 3) :
    IsPage t pt l (j * span (m + 1) / span (l + 1)) ∧
      (j + 1) * span (m + 1) ≤ (j * span (m + 1) / span (l + 1) + 1) * span (l + 1) := by
  obtain ⟨hm, hend, hpage⟩ := h
  have hdvd : span (m + 1) ∣ (j * span (m + 1) / span (l + 1) + 1) * span (l + 1) :=
    Dvd.dvd.mul_left (span_dvd (Nat.succ_le_succ hl)) _
  have hlt : j * span (m + 1) < (j * span (m + 1) / span (l + 1) + 1) * span (l + 1) := by
    rw [Nat.mul_comm _ (span (l + 1))]
    exact Nat.lt_mul_div_succ _ (span_pos _)
  have hle := next_mul_le hdvd hlt
  refine ⟨⟨hl3, ?_, ?_⟩, hle⟩
  · have hva : j * span (m + 1) < vaEnd := by
      have := span_pos (m + 1)
      rw [Nat.succ_mul] at hend
      omega
    have hdvd' : span (l + 1) ∣ vaEnd := Nat.pow_dvd_pow 2 (by omega)
    refine next_mul_le hdvd' ?_
    exact Nat.lt_of_le_of_lt (Nat.div_mul_le_self _ _) hva
  · cases habove : table t pt l (j * span (m + 1) / span (l + 1) * span (l + 1)) with
    | some _ => rfl
    | none =>
      rw [← table_range (Nat.le_of_lt hl3) rfl] at habove
      rw [table_none hl (Nat.le_of_lt hl3) habove] at hpage
      cases hpage

/-! ## `down` -/

/-- The entry leads to the page of its range. -/
theorem At.next_eq (h : At t pt it) :
    (t it.page it.index).next = table t pt (it.level - 1) it.va := by
  obtain ⟨l, hl⟩ := Nat.exists_eq_add_of_le' h.pos
  have hlt : l < 3 := by
    have := h.le
    omega
  have hpage := h.page
  rw [hl] at hpage
  rw [h.index, hl, Nat.add_sub_cancel, table_succ hlt, hpage]
  rfl

/-- Down one level, to the entry for the same address. -/
theorem At.down {pa : Nat} (h : At t pt it) (hpos : 2 ≤ it.level)
    (hnext : (t it.page it.index).next = some pa) :
    At t pt
      { it with level := it.level - 1, page := pa, index := pageindex it.va (it.level - 1) } := by
  have hle := h.le
  refine ⟨h.pt_eq, ?_, ?_, h.va_lt, ?_, rfl⟩
  · change 1 ≤ it.level - 1
    omega
  · change it.level - 1 ≤ 3
    omega
  · exact h.next_eq.symm.trans hnext

/-- Back to the top page. -/
theorem At.top (h : At t pt it) :
    At t pt { it with level := 3, page := it.pt, index := pageindex it.va 3 } :=
  ⟨h.pt_eq, Nat.le_of_ble_eq_true rfl, Nat.le_refl 3, h.va_lt, congrArg some h.pt_eq.symm, rfl⟩

/-- **The way back up**: from the top page `down` comes to the entry of level `stop` for the
address, if that leads to a page. -/
theorem downLoop_stop {pa : Nat} (hstop : 1 ≤ stop) : ∀ {k fuel : Nat} {it : PtIter}, k < fuel →
    it.level = stop + k → At t pt it → table t pt (stop - 1) it.va = some pa →
    ∃ it', downLoop t fuel stop false it = some it' ∧ At t pt it' ∧ it'.level = stop ∧
    it'.va = it.va := by
  intro k
  induction k with
  | zero =>
    intro fuel it hfuel hlevel hat hpage
    obtain ⟨fuel, rfl⟩ := Nat.exists_eq_succ_of_ne_zero (Nat.ne_of_gt hfuel)
    have hlevel : it.level = stop := hlevel
    have hnext := hat.next_eq
    rw [hlevel, hpage] at hnext
    refine ⟨it, ?_, hat, hlevel, rfl⟩
    unfold downLoop
    rw [hnext]
    exact if_pos hlevel
  | succ k ih =>
    intro fuel it hfuel hlevel hat hpage
    obtain ⟨fuel, rfl⟩ := Nat.exists_eq_succ_of_ne_zero (Nat.ne_of_gt (Nat.zero_lt_of_lt hfuel))
    have hle := hat.le
    -- a page is there, so there is one at every level above it
    obtain ⟨pa', hnext⟩ : ∃ pa', table t pt (it.level - 1) it.va = some pa' := by
      cases hnone : table t pt (it.level - 1) it.va with
      | some pa' => exact ⟨pa', rfl⟩
      | none =>
        rw [@table_none _ _ _ _ (stop - 1) (by omega) (by omega) hnone] at hpage
        cases hpage
    rw [← hat.next_eq] at hnext
    have hdown := hat.down (by omega) hnext
    obtain ⟨it', hrun, hat', hlevel', hva'⟩ := ih (Nat.lt_of_succ_lt_succ hfuel)
      (show it.level - 1 = stop + k by omega) hdown hpage
    refine ⟨it', ?_, hat', hlevel', hva'⟩
    unfold downLoop
    rw [hnext]
    exact (if_neg (by omega)).trans hrun

/-- A range of a page that ends behind the start of a range without a page, and is not of a
higher level, ends behind it. -/
theorem IsPage.past {l : Nat} (h : IsPage t pt m j) (hml : m ≤ l) (hl : l < 3)
    (hnone : table t pt l (n * span (l + 1)) = none)
    (hlt : n * span (l + 1) < (j + 1) * span (m + 1)) :
    (n + 1) * span (l + 1) < (j + 1) * span (m + 1) := by
  obtain ⟨⟨-, -, hpage⟩, hend⟩ := h.up hml hl
  by_contra hc
  have hle : (j + 1) * span (m + 1) ≤ (n + 1) * span (l + 1) := Nat.le_of_not_lt hc
  have hpos := span_pos (m + 1)
  rw [Nat.succ_mul] at hle hlt
  -- the range is in the range without a page
  have hdvd : span (m + 1) ∣ n * span (l + 1) :=
    Dvd.dvd.mul_left (span_dvd (Nat.succ_le_succ hml)) n
  have hstart : n * span (l + 1) ≤ j * span (m + 1) := by
    by_contra hgt
    have := next_mul_le hdvd (Nat.lt_of_not_le hgt)
    rw [Nat.succ_mul] at this
    omega
  have hn : j * span (m + 1) / span (l + 1) = n := by
    refine Nat.div_eq_of_lt_le hstart ?_
    omega
  rw [hn, hnone] at hpage
  cases hpage

/-- Without a page for the range, what comes after its start comes after its end. -/
theorem after_none {l : Nat} (h : IsPage t pt m j) (hl : l < 3)
    (hnone : table t pt l (n * span (l + 1)) = none) :
    After (n * span (l + 1)) 3 m j ↔ After ((n + 1) * span (l + 1)) l m j := by
  have hm := h.1
  have hstep : n * span (l + 1) < (n + 1) * span (l + 1) := by
    rw [Nat.succ_mul]
    exact Nat.lt_add_of_pos_right (span_pos _)
  unfold After
  constructor
  · rintro (hlt | ⟨-, h3⟩)
    · rcases Nat.lt_or_ge l m with hml | hml
      · have hdvd : span (l + 1) ∣ (j + 1) * span (m + 1) :=
          Dvd.dvd.mul_left (span_dvd (by omega)) _
        have := next_mul_le hdvd hlt
        omega
      · exact .inl (h.past hml hl hnone hlt)
    · omega
  · rintro (hlt | ⟨heq, -⟩)
    · exact .inl (Nat.lt_trans hstep hlt)
    · exact .inl (heq ▸ hstep)

/-- What ends where the next range of the page starts is of no higher level. -/
theorem after_step {l : Nat} (hm : m < 3) (hn : (n + 1) % 512 ≠ 0) :
    After ((n + 1) * span (l + 1)) l m j ↔ After ((n + 1) * span (l + 1)) 3 m j := by
  unfold After
  refine or_congr_right (iff_of_false ?_ fun h => by omega)
  rintro ⟨heq, hlt⟩
  have hdvd : span (l + 2) ∣ (n + 1) * span (l + 1) :=
    heq ▸ Dvd.dvd.mul_left (span_dvd (by omega)) _
  rw [span_succ, Nat.mul_comm] at hdvd
  exact hn (Nat.mod_eq_zero_of_dvd (Nat.dvd_of_mul_dvd_mul_right (span_pos _) hdvd))

theorem Found.congr {a' k' : Nat} (h : Found t pt a k it)
    (hafter : ∀ m j, IsPage t pt m j → (After a k m j ↔ After a' k' m j)) :
    Found t pt a' k' it := by
  cases h with
  | page m hat hlevel hfound hin hfirst =>
    exact .page m hat hlevel hfound ((hafter _ _ hfound).mp hin)
      fun m' j' hpage h => hfirst m' j' hpage ((hafter m' j' hpage).mpr h)
  | done hva hnone => exact .done hva fun m j hpage h => hnone m j hpage ((hafter m j hpage).mpr h)

theorem next_range (h : At t pt it) :
    wrap64 ((it.va / span it.level + 1) * span it.level) = (it.va / span it.level + 1) *
      span it.level ∧ (it.va / span it.level + 1) * span it.level ≤ vaEnd := by
  have hdvd : span it.level ∣ vaEnd := Nat.pow_dvd_pow 2 (by have := h.le; omega)
  have hle :=
    next_mul_le hdvd (Nat.lt_of_le_of_lt (Nat.div_mul_le_self it.va (span it.level)) h.va_lt)
  exact ⟨wrap64_eq (Nat.lt_of_le_of_lt hle (by decide)), hle⟩

/-- The next range is one of the same page unless the index is the last. -/
theorem crosses_iff (n l : Nat) :
    (n + 1) * span l / span (l + 1) ≠ n * span l / span (l + 1) ↔ (n + 1) % 512 = 0 := by
  rw [div_span_succ, div_span_succ, Nat.mul_div_cancel _ (span_pos l),
    Nat.mul_div_cancel _ (span_pos l)]
  omega

theorem div_span_up (va l : Nat) : va / span l * span l / span (l + 1) = va / span (l + 1) := by
  rw [div_span_succ, div_span_succ, Nat.mul_div_cancel _ (span_pos l)]

/-- From here on `down` finds the first page whose range ends behind the address. -/
def Finds (t : Tables) (pt fuel : Nat) : Prop :=
  ∀ it : PtIter, At t pt it → it.va % span it.level = 0 →
    4 * (vaEnd - it.va) + it.level + 4 < fuel → ∃ it', downLoop t fuel 1 false it = some it' ∧
    Found t pt it.va 3 it'

/-- The entry is left: for the next one, or for the one that leads to its page. -/
theorem leave_found (ih : Finds t pt fuel) (h : At t pt it) {skip : Bool}
    (hskip : (t it.page it.index).next = none ∨ skip = true)
    (hfuel : 4 * (vaEnd - it.va) + it.level + 4 < fuel + 1) :
    ∃ it', downLoop t (fuel + 1) 1 skip it = some it' ∧
      Found t pt ((it.va / span it.level + 1) * span it.level) (it.level - 1) it' := by
  obtain ⟨hwrap, hend⟩ := next_range h
  obtain ⟨l, hl⟩ := Nat.exists_eq_add_of_le' h.pos
  have hle := h.le
  have hva := h.va_lt
  have hspan := span_pos it.level
  have hmore : it.va < (it.va / span it.level + 1) * span it.level := by
    rw [Nat.mul_comm]
    exact Nat.lt_mul_div_succ _ hspan
  have hrun : downLoop t (fuel + 1) 1 skip it =
      if (it.va / span it.level + 1) * span it.level / span (it.level + 1) ≠ it.va /
        span (it.level + 1) then
        if it.level = 3 then some { it with va := vaEnd }
        else downLoop t fuel (it.level + 1) false
          { it with level := 3, page := it.pt, index := pageindex it.va 3 }
      else downLoop t fuel 1 false
        { it with index := it.index + 1, va := (it.va / span it.level + 1) * span it.level } := by
    conv_lhs => unfold downLoop
    split
    · rename_i _ hnext
      rcases hskip with hnone | hskip
      · rw [hnone] at hnext
        cases hnext
      · cases hskip
    · dsimp only
      rw [hwrap]
  have hcross := crosses_iff (it.va / span it.level) it.level
  rw [div_span_up] at hcross
  rw [hrun]
  split
  · rename_i hne
    rw [hcross] at hne
    split
    · -- the last entry of the top page
      rename_i htop
      refine ⟨_, rfl, .done rfl fun m j hpage => ?_⟩
      have hlast : (it.va / span it.level + 1) * span it.level = vaEnd := by
        rw [htop] at hne hend ⊢
        unfold vaEnd span at *
        omega
      obtain ⟨hm, hin, -⟩ := hpage
      rw [hlast, htop]
      unfold After
      omega
    · rename_i htop
      have hlt : it.level < 3 := by omega
      obtain ⟨it', hstop, hat, hlevel, hsame⟩ := @downLoop_stop _ _ (it.level + 1) _
        (Nat.succ_pos _) (3 - (it.level + 1)) fuel _ (by omega)
        (show 3 = it.level + 1 + (3 - (it.level + 1)) by omega) h.top h.page
      have hup : (it.va / span (it.level + 1) + 1) * span (it.level + 1) =
          (it.va / span it.level + 1) * span it.level := by
        have hn : it.va / span it.level + 1 = (it.va / span (it.level + 1) + 1) * 512 := by
          rw [div_span_succ]
          omega
        rw [hn, span_succ, Nat.mul_comm (span it.level), Nat.mul_assoc]
      refine ⟨it', hstop, .page it.level hat hlevel ⟨hlt, ?_, ?_⟩ ?_ ?_⟩
      · rw [hsame]
        exact hup ▸ hend
      · rw [hsame, ← table_range (Nat.le_of_lt hlt) rfl, h.page]
        rfl
      · rw [hsame]
        exact .inr ⟨hup.symm, by omega⟩
      · intro m' j' _ hafter
        rw [hsame]
        unfold After at hafter ⊢
        rw [hup]
        omega
  · -- the next entry of the page
    rename_i hsame
    rw [hcross] at hsame
    have hdiv : it.va / span (it.level + 1) =
        (it.va / span it.level + 1) * span it.level / span (it.level + 1) := by
      by_contra hne
      exact hsame (hcross.mp (Ne.symm hne))
    have hlt : (it.va / span it.level + 1) * span it.level < vaEnd := by
      refine Nat.lt_of_le_of_ne hend fun heq => ?_
      rw [heq] at hdiv
      have hdvd : span (it.level + 1) ∣ vaEnd := Nat.pow_dvd_pow 2 (by omega)
      have hlt := Nat.div_lt_div_of_lt_of_dvd hdvd hva
      omega
    have hat : At t pt
        { it with index := it.index + 1, va := (it.va / span it.level + 1) * span it.level } := by
      refine ⟨h.pt_eq, h.pos, hle, hlt, ?_, ?_⟩
      · exact (table_congr hle hdiv.symm).trans h.page
      · have hindex := h.index
        unfold pageindex at hindex ⊢
        dsimp only
        rw [Nat.mul_div_cancel _ hspan, hindex]
        omega
    obtain ⟨it', hfind, hfound⟩ := ih _ hat (Nat.mul_mod_left _ _) (by dsimp only; omega)
    refine ⟨it', hfind, hfound.congr fun m j hpage => ?_⟩
    have hsucc : it.level - 1 + 1 = it.level := by omega
    have hstep := after_step (l := it.level - 1) (j := j) hpage.1 hsame
    rw [hsucc] at hstep
    exact hstep.symm

theorem finds : ∀ fuel, Finds t pt fuel := by
  intro fuel
  induction fuel with
  | zero => exact fun _ _ _ h => absurd h (Nat.not_lt_zero _)
  | succ fuel ih =>
    intro it h halign hfuel
    have hle := h.le
    have hpos := h.pos
    have hspan := span_pos it.level
    have hstart : it.va / span it.level * span it.level = it.va :=
      Nat.div_mul_cancel (Nat.dvd_of_mod_eq_zero halign)
    have hsucc : it.level - 1 + 1 = it.level := by omega
    have hnext := h.next_eq
    cases hpage : table t pt (it.level - 1) it.va with
    | none =>
      rw [hpage] at hnext
      obtain ⟨it', hrun, hfound⟩ := @leave_found _ _ _ _ ih h false (.inl hnext) hfuel
      refine ⟨it', hrun, hfound.congr fun m j hin => ?_⟩
      have hnone := after_none (l := it.level - 1) (n := it.va / span it.level) (j := j) hin
          (by omega)
        (by rw [hsucc, hstart]; exact hpage)
      rw [hsucc, hstart] at hnone
      exact hnone.symm
    | some pa =>
      rw [hpage] at hnext
      by_cases hone : it.level = 1
      · have hrun : downLoop t (fuel + 1) 1 false it = some it := by
          unfold downLoop
          rw [hnext]
          exact if_pos hone
        have hend := (next_range h).2
        rw [hone] at hend hpage hstart
        refine ⟨it, hrun, .page 0 h hone ⟨by decide, hend, ?_⟩ ?_ ?_⟩
        · rw [hstart, hpage]
          rfl
        · left
          rw [Nat.succ_mul, hstart]
          exact Nat.lt_add_of_pos_right (span_pos 1)
        · intro m' j' hin hafter
          have hm := hin.1
          have hlt : it.va / span 1 * span 1 < (j' + 1) * span (m' + 1) := by
            unfold After at hafter
            omega
          have hle := next_mul_le (Dvd.dvd.mul_left (span_dvd (by omega)) _) hlt
          unfold After
          rw [Nat.zero_add]
          omega
      · have hrun : downLoop t (fuel + 1) 1 false it = downLoop t fuel 1 false
            { it with
              level := it.level - 1
              page := pa
              index := pageindex it.va (it.level - 1) } := by
          conv_lhs => unfold downLoop
          rw [hnext]
          exact if_neg hone
        rw [hrun]
        refine ih _ (h.down (by omega) hnext) ?_ (by dsimp only; omega)
        exact Nat.mod_eq_zero_of_dvd
          (Nat.dvd_trans (span_dvd (Nat.sub_le _ 1)) (Nat.dvd_of_mod_eq_zero halign))

/-- **`next()` finds the first page after the one it is at.** -/
theorem next_found (h : At t pt it) :
    ∃ it', it.next t = some it' ∧
      Found t pt ((it.va / span it.level + 1) * span it.level) (it.level - 1) it' := by
  have hle := h.le
  have hfuel : 4 * (vaEnd - it.va) + it.level + 4 < rounds := by
    unfold vaEnd rounds
    omega
  exact leave_found (finds (rounds - 1)) h (.inr rfl) hfuel

/-- **`ptiter(pt, 0)` finds the first page.** -/
theorem mk'_found (t : Tables) (pt : Nat) : ∃ it', mk' t pt 0 = some it' ∧ Found t pt 0 3 it' := by
  have hat : At t pt ⟨pt, 0, 3, pt, pageindex 0 3⟩ :=
    ⟨rfl, Nat.succ_pos 2, Nat.le_refl 3, Nat.two_pow_pos 48, rfl, rfl⟩
  refine finds rounds _ hat (Nat.zero_mod _) ?_
  dsimp only
  unfold vaEnd rounds
  omega

/-! ## The loop -/

/-- A page with addresses in the low half. -/
def LowPage (t : Tables) (pt : Nat) (x : Nat × Nat) : Prop :=
  x.1 < 3 ∧ x.2 * span (x.1 + 1) < vaLowEnd ∧ (table t pt x.1 (x.2 * span (x.1 + 1))).isSome = true

/-- The address of the page. -/
def pageOf (t : Tables) (pt : Nat) (x : Nat × Nat) : Nat :=
  (table t pt x.1 (x.2 * span (x.1 + 1))).getD 0

/-- The first page comes before the second. -/
def Before (x y : Nat × Nat) : Prop := After ((x.2 + 1) * span (x.1 + 1)) x.1 y.1 y.2

/-- The pages that are still to come are where they were. -/
def Rest (t₀ t : Tables) (pt a k : Nat) : Prop :=
  ∀ m j, m < 3 → j * span (m + 1) < vaLowEnd → After a k m j →
    table t pt m (j * span (m + 1)) = table t₀ pt m (j * span (m + 1))

theorem After.trans {m' j' : Nat} (h : After a k m j) (h' : Before (m, j) (m', j')) :
    After a k m' j' := by
  unfold Before After at *
  dsimp only at h'
  omega

theorem range_end_le {l : Nat} (hl : l ≤ 3) {j : Nat} (h : j * span l < vaLowEnd) :
    (j + 1) * span l ≤ vaLowEnd :=
  next_mul_le (Nat.pow_dvd_pow 2 (by omega)) h

theorem LowPage.isPage {x : Nat × Nat} (h : LowPage t pt x) : IsPage t pt x.1 x.2 :=
  ⟨h.1, Nat.le_trans (range_end_le h.1 h.2.1) (Nat.pow_le_pow_right (by decide) (by decide)), h.2.2⟩

theorem Rest.lowPage {t₀ : Tables} (h : Rest t₀ t pt a k) {x : Nat × Nat} (hx : After a k x.1 x.2) :
    LowPage t pt x ↔ LowPage t₀ pt x := by
  unfold LowPage
  refine and_congr_right fun hm => and_congr_right fun hlow => ?_
  rw [h x.1 x.2 hm hlow hx]

theorem next_pa {e : Entry} {page : Nat} (h : e.next = some page) : e.pa = page := by
  unfold Entry.next at h
  split at h
  · exact Option.some.inj h
  · cases h

theorem body_other {free : Bool} {pa page : Nat} (h : page ≠ pa) (t : Tables) :
    body free t pa page = t page := by
  unfold body
  split
  · exact Function.update_of_ne h _ _
  · rfl

/-- The page for an address, of which the range comes after a page that has come, is another
page, and so is the top page. -/
theorem other_page {t₀ : Tables} (htree : Tree t₀ pt vaLowEnd) (hrest : Rest t₀ t pt a k)
    {x : Nat × Nat} (hx : LowPage t₀ pt x) (hafter : After a k x.1 x.2) {l va page : Nat}
    (hl3 : l ≤ 3) (hva : va < vaLowEnd) (hbefore : l < 3 → Before x (l, va / span (l + 1)))
    (hpage : table t pt l va = some page) : page ≠ pageOf t₀ pt x := by
  obtain ⟨hm, hlow, hsome⟩ := hx
  obtain ⟨pa, hpa⟩ := Option.isSome_iff_exists.mp hsome
  have hof : pageOf t₀ pt x = pa := by rw [pageOf, hpa, Option.getD_some]
  rw [hof]
  rintro rfl
  -- in the first page table the page was in the same place
  have hpage₀ : table t₀ pt l va = some page := by
    rcases Nat.lt_or_ge l 3 with hlt | hge
    · have hstart := Nat.div_mul_le_self va (span (l + 1))
      rw [table_range hl3 rfl] at hpage ⊢
      rw [← hrest l _ hlt (Nat.lt_of_le_of_lt hstart hva) (hafter.trans (hbefore hlt))]
      exact hpage
    · obtain rfl : l = 3 := Nat.le_antisymm hl3 hge
      exact hpage
  obtain ⟨rfl, hj⟩ := htree l hl3 x.1 (Nat.le_of_lt hm) va hva _ hlow page hpage₀ hpa
  have hself := hbefore hm
  rw [hj, Nat.mul_div_cancel _ (span_pos _)] at hself
  unfold Before After at hself
  dsimp only at hself
  omega

/-- A range of a higher level that a range is in comes after it. -/
theorem before_up {l va : Nat} (hl : m < l) :
    Before (m, va / span (m + 1)) (l, va / span (l + 1)) := by
  have hlt : va / span (m + 1) * span (m + 1) < (va / span (l + 1) + 1) * span (l + 1) := by
    refine Nat.lt_of_le_of_lt (Nat.div_mul_le_self _ _) ?_
    rw [Nat.mul_comm _ (span (l + 1))]
    exact Nat.lt_mul_div_succ _ (span_pos _)
  have hend := next_mul_le (Dvd.dvd.mul_left (span_dvd (l := m + 1) (by omega)) _) hlt
  unfold Before After
  dsimp only
  omega

/-- What the body does to the page that has come moves no page that is to come. -/
theorem Rest.body {t₀ : Tables} (htree : Tree t₀ pt vaLowEnd) (h : Rest t₀ t pt a k) {x : Nat × Nat}
    (hx : LowPage t₀ pt x) (hafter : After a k x.1 x.2) (free : Bool) :
    Rest t₀ (body free t (pageOf t₀ pt x)) pt ((x.2 + 1) * span (x.1 + 1)) x.1 := by
  intro m j hm hlow hin
  rw [← h m j hm hlow (hafter.trans hin)]
  refine table_same (fun l hl hl3 page hpage => ?_) (Nat.le_of_lt hm)
  have hup := @before_up _ _ (j * span (m + 1)) hl
  rw [Nat.mul_div_cancel _ (span_pos _)] at hup
  rw [body_other (other_page htree h hx hafter hl3 hlow (fun _ => After.trans hin hup) hpage)]

/-- The iterator is still at the entry. -/
theorem At.body {t₀ : Tables} (htree : Tree t₀ pt vaLowEnd) (h : Rest t₀ t pt a k)
    (hat : At t pt it) (hlevel : it.level = m + 1) (hva : it.va < vaLowEnd)
    (hx : LowPage t₀ pt (m, it.va / span (m + 1))) (hafter : After a k m (it.va / span (m + 1)))
    (free : Bool) : At (PtIter.body free t (pageOf t₀ pt (m, it.va / span (m + 1)))) pt it := by
  refine ⟨hat.pt_eq, hat.pos, hat.le, hat.va_lt, ?_, hat.index⟩
  rw [← hat.page]
  refine table_same (fun l hl hl3 page hpage => ?_) hat.le
  rw [body_other (other_page htree h hx hafter hl3 hva (fun _ => before_up (by omega)) hpage)]

/-- The page the loop comes by is that of the range. -/
theorem ptpPa_eq {t₀ : Tables} (h : Rest t₀ t pt a k) (hat : At t pt it) (hlevel : it.level = m + 1)
    (hm : m < 3) (hva : it.va < vaLowEnd) (hafter : After a k m (it.va / span (m + 1)))
    (hpage : LowPage t₀ pt (m, it.va / span (m + 1))) :
    it.ptpPa t = pageOf t₀ pt (m, it.va / span (m + 1)) := by
  have hnext := hat.next_eq
  have hstart := Nat.div_mul_le_self it.va (span (m + 1))
  obtain ⟨pa, hpa⟩ := Option.isSome_iff_exists.mp hpage.2.2
  rw [hlevel, Nat.add_sub_cancel, table_range (Nat.le_of_lt hm) rfl,
    h m _ hm (Nat.lt_of_le_of_lt hstart hva) hafter, hpa] at hnext
  rw [PtIter.ptpPa, next_pa hnext, pageOf, hpa, Option.getD_some]

/-- The pages that come are those of the first page table after `a` and `k`, in order. -/
def InOrder (t₀ : Tables) (pt a k : Nat) (l : List (Nat × Nat)) : Prop :=
  ∃ q : List (Nat × Nat), l = q.map (fun x => (x.1, pageOf t₀ pt x)) ∧ q.Pairwise Before ∧
    ∀ x, x ∈ q ↔ LowPage t₀ pt x ∧ After a k x.1 x.2

theorem InOrder.nil {t₀ : Tables} (h : ∀ x, LowPage t₀ pt x → ¬ After a k x.1 x.2) :
    InOrder t₀ pt a k [] :=
  ⟨[], rfl, .nil, fun x => ⟨fun hx => absurd hx List.not_mem_nil, fun hx => absurd hx.2 (h x hx.1)⟩⟩

theorem InOrder.cons {t₀ : Tables} {x : Nat × Nat} {l : List (Nat × Nat)}
    (h : InOrder t₀ pt ((x.2 + 1) * span (x.1 + 1)) x.1 l) (hx : LowPage t₀ pt x)
    (hafter : After a k x.1 x.2)
    (hfirst : ∀ y, LowPage t₀ pt y → After a k y.1 y.2 → ¬ Before y x) :
    InOrder t₀ pt a k ((x.1, pageOf t₀ pt x) :: l) := by
  obtain ⟨q, rfl, hq, hmem⟩ := h
  refine ⟨x :: q, rfl, List.pairwise_cons.mpr ⟨fun y hy => ((hmem y).mp hy).2, hq⟩, fun y => ?_⟩
  rw [List.mem_cons, hmem]
  constructor
  · rintro (rfl | ⟨hy, hin⟩)
    · exact ⟨hx, hafter⟩
    · exact ⟨hy, hafter.trans hin⟩
  · rintro ⟨hy, hin⟩
    have hle := hfirst y hy hin
    obtain ⟨m, n⟩ := x
    obtain ⟨m', j⟩ := y
    unfold Before After at hle
    unfold After
    dsimp only at hle ⊢
    by_cases hkey : (j + 1) * span (m' + 1) = (n + 1) * span (m + 1) ∧ m' = m
    · obtain ⟨heq, rfl⟩ := hkey
      have hj := Nat.eq_of_mul_eq_mul_right (span_pos _) heq
      obtain rfl : j = n := by omega
      exact .inl rfl
    · refine .inr ⟨hy, ?_⟩
      omega

/-- **The loop comes by the pages that are still to come, in order.** -/
theorem visitLoop_inOrder {t₀ : Tables} (htree : Tree t₀ pt vaLowEnd) (free : Bool) :
    ∀ {fuel a k : Nat} {t : Tables} {it : PtIter}, Rest t₀ t pt a k → Found t pt a k it →
    4 * (vaEnd - a) + (3 - k) < fuel → ∃ t' l, visitLoop free fuel t it = some (t', l) ∧
    InOrder t₀ pt a k l := by
  intro fuel
  induction fuel with
  | zero => exact fun {_ _ _ _} _ _ h => absurd h (Nat.not_lt_zero _)
  | succ fuel ih =>
    intro a k t it hrest hfound hfuel
    unfold visitLoop low
    by_cases hlow : it.va < vaLowEnd
    · rw [if_pos (decide_eq_true hlow)]
      cases hfound with
      | done hva _ =>
        rw [hva] at hlow
        unfold vaEnd vaLowEnd at hlow
        omega
      | page m hat hlevel hpage hafter hfirst =>
        have hstart := Nat.div_mul_le_self it.va (span (m + 1))
        have hx : LowPage t₀ pt (m, it.va / span (m + 1)) :=
          (hrest.lowPage (x := (m, it.va / span (m + 1))) hafter).mp
            ⟨hpage.1, Nat.lt_of_le_of_lt hstart hlow, hpage.2.2⟩
        dsimp only
        rw [ptpPa_eq hrest hat hlevel hpage.1 hlow hafter hx]
        obtain ⟨it', hnext, hfound'⟩ := next_found (hat.body htree hrest hlevel hlow hx hafter free)
        rw [hlevel, Nat.add_sub_cancel] at hfound'
        have hm := hpage.1
        have hend := hpage.2.1
        obtain ⟨t', l, hrun, hl⟩ := ih (hrest.body htree hx hafter free) hfound' (by
          unfold After at hafter
          dsimp only
          omega)
        rw [hnext, Option.bind_some, hrun, hlevel, Nat.add_sub_cancel]
        refine ⟨t', _, rfl, hl.cons hx hafter fun y hy hin => ?_⟩
        exact hfirst y.1 y.2 ((hrest.lowPage (x := y) hin).mpr hy).isPage hin
    · rw [if_neg (by simpa using hlow)]
      refine ⟨t, [], rfl, .nil fun x hx hin => ?_⟩
      have hx' := (hrest.lowPage (x := x) hin).mpr hx
      cases hfound with
      | done _ hnone => exact hnone x.1 x.2 hx'.isPage hin
      | page m _ _ _ _ hfirst =>
        -- the page found ends above the low half
        refine hfirst x.1 x.2 hx'.isPage hin (.inl ?_)
        have hend : (x.2 + 1) * span (x.1 + 1) ≤ vaLowEnd := range_end_le hx.1 hx.2.1
        have hmore : it.va < (it.va / span (m + 1) + 1) * span (m + 1) := by
          rw [Nat.mul_comm _ (span (m + 1))]
          exact Nat.lt_mul_div_succ _ (span_pos _)
        omega

/-- `y` is a page below `x`. -/
def Below (t : Tables) (pt : Nat) (x y : Nat × Nat) : Prop :=
  y.1 < x.1 ∧ ∃ va < vaLowEnd, table t pt x.1 va = some x.2 ∧ table t pt y.1 va = some y.2

theorem pageOf_spec {x : Nat × Nat} (h : LowPage t pt x) :
    table t pt x.1 (x.2 * span (x.1 + 1)) = some (pageOf t pt x) := by
  obtain ⟨pa, hpa⟩ := Option.isSome_iff_exists.mp h.2.2
  rw [pageOf, hpa, Option.getD_some]

/-- **The loop comes by every page of the low half once, after all pages below it**, whether or not
the pages are freed on the way. -/
theorem visit_postorder (free : Bool) (htree : Tree t pt vaLowEnd) :
    ∃ t' l, visit free t pt = some (t', l) ∧
    (∀ m page, (m, page) ∈ l ↔ m < 3 ∧ ∃ va < vaLowEnd, table t pt m va = some page) ∧
    (l.map Prod.snd).Nodup ∧ l.Pairwise fun x y => ¬ Below t pt x y := by
  obtain ⟨it, hmk, hfound⟩ := mk'_found t pt
  obtain ⟨t', l, hrun, q, rfl, hq, hmem⟩ := @visitLoop_inOrder _ _ htree free rounds _ _ _ _
    (fun _ _ _ _ _ => rfl) hfound (by unfold vaEnd rounds; omega)
  have hall : ∀ x, x ∈ q ↔ LowPage t pt x := by
    intro x
    rw [hmem]
    refine and_iff_left_of_imp fun _ => .inl ?_
    exact Nat.mul_pos (Nat.succ_pos _) (span_pos _)
  -- a page of `q` is found at the addresses of its range only
  have hplace : ∀ x ∈ q, ∀ m ≤ 3, ∀ va < vaLowEnd, table t pt m va = some (pageOf t pt x) →
      m = x.1 ∧ va / span (m + 1) = x.2 := by
    intro x hx m hm va hva hpage
    have hlow := (hall x).mp hx
    obtain ⟨rfl, hdiv⟩ :=
      htree m hm x.1 (Nat.le_of_lt hlow.1) va hva _ hlow.2.1 _ hpage (pageOf_spec hlow)
    rw [Nat.mul_div_cancel _ (span_pos _)] at hdiv
    exact ⟨rfl, hdiv⟩
  refine ⟨t', _, by rw [visit, hmk, Option.bind_some, hrun], ?_, ?_, ?_⟩
  · intro m page
    rw [List.mem_map]
    constructor
    · rintro ⟨x, hx, heq⟩
      obtain ⟨rfl, rfl⟩ := Prod.mk.inj heq
      have hlow := (hall x).mp hx
      exact ⟨hlow.1, _, hlow.2.1, pageOf_spec hlow⟩
    · rintro ⟨hm, va, hva, hpage⟩
      have hstart := Nat.div_mul_le_self va (span (m + 1))
      have hrange := @table_range t pt _ _ _ (Nat.le_of_lt hm) (rfl : va / span (m + 1) = _)
      rw [hpage] at hrange
      refine ⟨(m, va / span (m + 1)), (hall _).mpr ⟨hm, Nat.lt_of_le_of_lt hstart hva, ?_⟩, ?_⟩
      · dsimp only
        rw [← hrange]
        rfl
      · rw [pageOf]
        dsimp only
        rw [← hrange, Option.getD_some]
  · rw [List.map_map, List.nodup_map_iff_inj_on]
    · intro x hx y hy heq
      have heq : pageOf t pt x = pageOf t pt y := heq
      have hlow := (hall x).mp hx
      obtain ⟨hm, hj⟩ := hplace y hy x.1 (Nat.le_of_lt hlow.1) _ hlow.2.1 (heq ▸ pageOf_spec hlow)
      rw [Nat.mul_div_cancel _ (span_pos _)] at hj
      exact Prod.ext hm hj
    · refine hq.imp fun hbefore heq => ?_
      subst heq
      unfold Before After at hbefore
      omega
  · refine List.pairwise_map.mpr (hq.imp_of_mem fun {x y} hx hy hbefore hbelow => ?_)
    obtain ⟨hm, va, hva, hpx, hpy⟩ := hbelow
    have hjx := (hplace x hx x.1 (Nat.le_of_lt ((hall x).mp hx).1) va hva hpx).2
    have hjy := (hplace y hy y.1 (Nat.le_of_lt ((hall y).mp hy).1) va hva hpy).2
    have hup := @before_up _ _ va hm
    rw [hjx, hjy] at hup
    have hself : After ((x.2 + 1) * span (x.1 + 1)) x.1 x.1 x.2 := After.trans hbefore hup
    unfold After at hself
    omega

/-- One page is mapped, through three pages of the table: the lowest of them comes first. -/
theorem visit_postorder_oneUserPage : ∃ t' l, visit true oneUserPage 0x1000 = some (t', l) ∧
    l = [(0, 0x5000), (1, 0x4000), (2, 0x3000)] ∧
    (∀ m page, (m, page) ∈ l ↔ m < 3 ∧ ∃ va < vaLowEnd, table oneUserPage 0x1000 m va = some page) ∧
    (l.map Prod.snd).Nodup ∧ l.Pairwise fun x y => ¬ Below oneUserPage 0x1000 x y := by
  obtain ⟨t', l, hrun, hpost⟩ :=
    visit_postorder true (oneUserPage_spec (by decide : vaLowEnd ≤ vaEnd) (by decide)).1.tree
  have hlist : (visit true oneUserPage 0x1000).map Prod.snd =
      some [(0, 0x5000), (1, 0x4000), (2, 0x3000)] := by
    decide +kernel
  rw [hrun, Option.map_some, Option.some.injEq] at hlist
  exact ⟨t', l, hrun, hlist, hpost⟩

end PtIter
end PugOS.PageTable
