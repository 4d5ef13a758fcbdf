import PugOS.Bytes
import PugOS.PtIter
import PugOS.UserMemory

/-! # Pages of addresses

What `vmiter` says of an address it says of the whole page the address is in (`translation_offset`),
and `next` skips only addresses that are not mapped (`next_mk'`).  A new page table maps no low
address (`kallocPagetable_spec`).
-/
namespace PugOS.PageTable
open Bytes

/-- The page an address is in. -/
def pageBase (a : Nat) : Nat := a / pageSize * pageSize

/-- `-HIGHMEM_BASE`, what `pa2ka` asserts its argument is below. -/
def kaEnd : Nat := 2 ^ 47

/-- The page becomes a page table with the upper half of that of page `early`. -/
def newTable (early : Nat) (t : Tables) (pt : Nat) : Tables :=
  Function.update t pt fun i => if i < 256 then .zero else t early i

section Defs
variable {σ : Type} (kallocpage : σ → Option (σ × Option Nat))

/-- `kalloc_pagetable()`. -/
def kallocPagetable (early : Nat) (t : Tables) (s : σ) : Option (Tables × σ × Option Nat) :=
  (kallocpage s).map fun (s, r) =>
    match r with
    | none => (t, s, none)
    | some pt => (newTable early t pt, s, some pt)

/-- `low()`. -/
def Vmiter.low (it : Vmiter) : Bool := it.va < vaLowEnd

/-- `user()`. -/
def Vmiter.user (t : Tables) (it : Vmiter) : Bool := it.permits t (pteP ||| pteU)

/-- `writable()`. -/
def Vmiter.writable (t : Tables) (it : Vmiter) : Bool := it.permits t (pteP ||| pteW)

end Defs

/-! ## Pages -/

section Pages
variable {m : Mem} {va x pa npage : Nat}

theorem pageBase_add {o : Nat} (hpa : pa % pageSize = 0) (ho : o < pageSize) :
    pageBase (pa + o) = pa := by
  unfold pageBase pageSize at *
  omega

theorem pageBase_add_mod (x : Nat) : pageBase x + x % pageSize = x := by
  unfold pageBase pageSize
  omega

@[simp] theorem pageBase_pageBase (x : Nat) : pageBase (pageBase x) = pageBase x := by
  unfold pageBase pageSize
  omega

theorem pageBase_mod (x : Nat) : pageBase x % pageSize = 0 := Nat.mul_mod_left _ _

theorem pageBase_eq_iff : pageBase x = pageBase va ↔ x / pageSize = va / pageSize := by
  unfold pageBase pageSize
  omega

/-- `memcpy` of `n` bytes from `a` to `d`. -/
theorem store_slice {d a n o : Nat} (ho : o < n) :
    Ring.store m d (Ring.slice m a n) (d + o) = m (a + o) := by
  rw [Ring.store_getElem m d (k := o) (by rwa [Ring.slice_length])]
  unfold Ring.slice
  rw [List.getElem_map, List.getElem_range]

/-- A page is written, and no other. -/
theorem store_page {bytes : List UInt8} {a : Nat} (hpa : npage % pageSize = 0)
    (hlen : bytes.length = pageSize) (hne : pageBase a ≠ npage) :
    Ring.store m npage bytes a = m a := by
  refine Ring.store_of_not_mem m bytes fun ha => hne ?_
  rw [hlen] at ha
  have ho := pageBase_add (o := a - npage) hpa (by omega)
  rwa [Nat.add_sub_cancel' ha.1] at ho

end Pages

/-! ## Permissions -/

/-- The address is mapped for the user. -/
def User (perm : Perm) : Prop := perm &&& (pteP ||| pteU) = pteP ||| pteU

/-- The address is mapped writable. -/
def Writable (perm : Perm) : Prop := perm &&& (pteP ||| pteW) = pteP ||| pteW

instance (perm : Perm) : Decidable (User perm) := inferInstanceAs (Decidable (_ = _))

instance (perm : Perm) : Decidable (Writable perm) := inferInstanceAs (Decidable (_ = _))

theorem not_user_zero : ¬ User 0#12 := by decide

theorem User.present {p : Perm} (h : User p) : p &&& pteP = pteP := by
  calc p &&& pteP = p &&& (pteP ||| pteU) &&& pteP := by
        rw [BitVec.and_assoc]
        rfl
    _ = pteP := by
        rw [h]
        rfl

/-- The entries above take away nothing from the permissions. -/
theorem perm_and_path {p r : Perm} (h : p &&& ptePWU &&& r = p &&& ptePWU) :
    p &&& r &&& ptePWU = p &&& ptePWU := by
  rw [BitVec.and_assoc, BitVec.and_comm r, ← BitVec.and_assoc, h]

theorem user_congr {p q : Perm} (h : p &&& ptePWU = q &&& ptePWU) : User p ↔ User q := by
  have hsplit : ∀ r : Perm, r &&& (pteP ||| pteU) = r &&& ptePWU &&& (pteP ||| pteU) := by
    intro r
    rw [BitVec.and_assoc]
    rfl
  unfold User
  rw [hsplit p, hsplit q, h]

/-! ## The walk -/

section Walk
variable {t t' : Tables} {pt va x : Nat} {perms : Perm}

theorem present_of_and {p : Perm} {e : Entry} (hp : perms &&& pteP = pteP)
    (h : e.flags &&& p &&& perms = perms) : e.present = true := by
  have hflags : e.flags &&& pteP = pteP := by
    have hperms := (UserMemory.and_and_eq.mp h).1
    calc e.flags &&& pteP = e.flags &&& (perms &&& pteP) := by rw [hp]
      _ = pteP := by rw [← BitVec.and_assoc, hperms, hp]
  unfold Entry.present
  rw [hflags]
  rfl

/-- What `perm(p)` says is what `perm()` has. -/
theorem permits_iff (hp : perms &&& pteP = pteP) :
    (Vmiter.mk' t pt va).permits t perms = true ↔ (translation t pt va).2.1 &&& perms = perms := by
  have hne : (0#12 : Perm) &&& perms ≠ perms := by
    intro h
    rw [BitVec.zero_and] at h
    rw [← h] at hp
    exact absurd hp (by decide)
  unfold Vmiter.permits translation Vmiter.perm
  rw [decide_eq_true_iff]
  dsimp only
  by_cases hpresent : ((Vmiter.mk' t pt va).entry t).present = true
  · rw [if_pos hpresent]
  · rw [if_neg hpresent]
    exact iff_of_false (fun h => hpresent (present_of_and hp h)) hne

theorem user_iff : (Vmiter.mk' t pt va).user t = true ↔ User (translation t pt va).2.1 :=
  permits_iff (by decide)

theorem writable_iff : (Vmiter.mk' t pt va).writable t = true ↔
    Writable (translation t pt va).2.1 :=
  permits_iff (by decide)

theorem translation_offset (t : Tables) (pt x : Nat) : translation t pt x =
    ((translation t pt (pageBase x)).1.map (· + x % pageSize),
      (translation t pt (pageBase x)).2) := by
  have hsame : x / span (locate t pt (pageBase x)).level = pageBase x /
      span (locate t pt (pageBase x)).level := by
    refine @div_span_mono _ _ 0 _ ?_ (Nat.zero_le _)
    exact (Nat.mul_div_cancel _ (span_pos 0)).symm
  rw [translation_eq (locate_eq_of_stop rfl hsame) rfl, translation_eq rfl rfl]
  have hmod : x % span (locate t pt (pageBase x)).level = pageBase x %
      span (locate t pt (pageBase x)).level + x % pageSize := by
    have hspan : span (locate t pt (pageBase x)).level = pageSize *
        512 ^ (locate t pt (pageBase x)).level := by
      unfold span pageSize
      rw [Nat.pow_add, Nat.pow_mul]
    rw [hspan, Nat.mod_mul, pageBase, Nat.mul_comm (x / pageSize), Nat.mul_mod_mul_left,
      Nat.add_comm]
  split
  · rw [hmod, ← Nat.add_assoc]
    rfl
  · rfl

/-- Every entry a walk has followed is present. -/
theorem down_perm : ∀ {level page index : Nat} {perm : Perm}, perm &&& pteP = pteP →
    (down t va level page index perm).perm &&& pteP = pteP := by
  intro level
  induction level with
  | zero => exact fun {_ _ _} h => h
  | succ level ih =>
    intro page index perm h
    cases hnext : (t page index).next with
    | none =>
      rw [down_stop hnext]
      exact h
    | some pa =>
      rw [down_next hnext]
      refine ih ?_
      have hflags : (t page index).flags &&& pteP = pteP := by
        have hfollow : (t page index).flags &&& (pteP ||| ptePS) = pteP := by
          by_contra hne
          unfold Entry.next at hnext
          rw [if_neg hne] at hnext
          cases hnext
        calc (t page index).flags &&& pteP = (t page index).flags &&& (pteP ||| ptePS) &&&
          pteP := by
              rw [BitVec.and_assoc]
              rfl
          _ = pteP := by
              rw [hfollow]
              rfl
      rw [BitVec.and_assoc, hflags, h]

/-- An entry without permissions is absent. -/
theorem absent_of_perm (h : (Vmiter.mk' t pt va).perm t = 0#12) :
    (Vmiter.mk' t pt va).present t = false := by
  refine Bool.eq_false_iff.mpr fun hpresent => ?_
  unfold Vmiter.perm at h
  unfold Vmiter.present at hpresent
  rw [if_pos hpresent] at h
  have hpath : (Vmiter.mk' t pt va).place.perm &&& pteP = pteP := by
    rw [mk'_eq]
    exact down_perm (by decide)
  have hflags : ((Vmiter.mk' t pt va).entry t).flags &&& pteP = 0#12 := by
    calc ((Vmiter.mk' t pt va).entry t).flags &&& pteP
        = ((Vmiter.mk' t pt va).entry t).flags &&& (Vmiter.mk' t pt va).place.perm &&& pteP := by
          rw [BitVec.and_assoc, hpath]
      _ = 0#12 := by rw [h, BitVec.zero_and]
  unfold Entry.present at hpresent
  rw [hflags] at hpresent
  exact absurd hpresent (by decide)

/-- **`next` skips only addresses that are not mapped.** -/
theorem next_mk' (hva : va < vaLowEnd) (halign : va % pageSize = 0) :
    ∃ va', (Vmiter.mk' t pt va).next t = Vmiter.mk' t pt va' ∧
    va < va' ∧ va' ≤ vaLowEnd ∧ va' % pageSize = 0 ∧
    ∀ b, va ≤ b → b < va' → pageBase b = va ∨ translation t pt b = (none, 0#12, false) := by
  have hfresh : (Vmiter.mk pt va (locate t pt va)).Fresh t := rfl
  obtain ⟨level, hle, hlevel⟩ : ∃ level ≤ 3, (Vmiter.mk' t pt va).next t =
      (Vmiter.mk' t pt va).find t (wrap64 ((va / span level + 1) * span level : Nat)) ∧
      ∀ b, b / span level = va / span level →
      pageBase b = va ∨ translation t pt b = (none, 0#12, false) := by
    by_cases hskip : (locate t pt va).level > 0 ∧ (Vmiter.mk' t pt va).perm t = 0#12
    · refine ⟨(locate t pt va).level, locate_level_le t pt va, ?_, fun b hb => .inr ?_⟩
      · unfold Vmiter.next
        rw [mk'_eq] at hskip ⊢
        rw [if_pos hskip]
        push_cast
        rfl
      · have habsent := absent_of_perm hskip.2
        rw [mk'_eq] at habsent
        rw [translation_eq (locate_eq_of_stop rfl hb) rfl]
        exact if_neg (Bool.eq_false_iff.mp habsent)
    · refine ⟨0, Nat.zero_le 3, ?_, fun b hb => .inl ?_⟩
      · unfold Vmiter.next
        rw [mk'_eq] at hskip ⊢
        rw [if_neg hskip]
        push_cast
        rfl
      · change b / pageSize = va / pageSize at hb
        rw [pageBase, hb]
        exact Nat.div_mul_cancel (Nat.dvd_of_mod_eq_zero halign)
  obtain ⟨hnext, hskipped⟩ := hlevel
  have hend := UserMemory.next_span_le hle hva
  refine ⟨(va / span level + 1) * span level, ?_, UserMemory.lt_next_span, hend, ?_,
    fun b hb hb' => ?_⟩
  · rw [hnext, mk'_eq, mk'_eq, find_eq hfresh, wrap64_eq (Nat.lt_of_le_of_lt hend (by decide))]
  · exact Nat.mod_eq_zero_of_dvd ((PtIter.span_dvd (Nat.zero_le level)).mul_left _)
  · exact hskipped b (UserMemory.div_span_eq hb hb')

end Walk

/-! ## The new page table -/

/-- **A new page table** maps no low address, and has no page but its own. -/
theorem kallocPagetable_spec {σ : Type} {source : PageSource σ} {t t' : Tables} {s s' : σ}
    {early fpt : Nat} (hvalid : source.Valid s)
    (h : kallocPagetable source.kallocpage early t s = some (t', s', some fpt)) :
    Space source t' fpt vaLowEnd s' ∧ ¬ source.InUse s fpt ∧
      (∀ pg, source.InUse s' pg ↔ pg = fpt ∨ source.InUse s pg) ∧
      (∀ pg, pg ≠ fpt → t' pg = t pg) ∧ (∀ pg, TablePage t' fpt vaLowEnd pg → pg = fpt) ∧
      ∀ x < vaLowEnd, translation t' fpt x = (none, 0#12, false) := by
  obtain ⟨s₁, r, hrun, hvalid', hinUse, hnew⟩ := source.spec s hvalid
  unfold kallocPagetable at h
  rw [hrun, Option.map_some] at h
  cases r with
  | none => cases h
  | some page =>
    cases h
    have hlow : ∀ x < vaLowEnd, newTable early t fpt fpt (pageindex x 3) = .zero := by
      intro x hx
      unfold newTable
      rw [Function.update_self]
      refine if_pos ?_
      unfold pageindex span
      unfold vaLowEnd at hx
      omega
    have hbelow : ∀ x < vaLowEnd, ∀ l < 3, table (newTable early t fpt) fpt l x = none := by
      intro x hx l hl
      refine table_none (Nat.le_of_lt_succ hl) (by decide) ?_
      rw [table_succ (by decide), table_three, Option.bind_some, hlow x hx]
      rfl
    have hpage : ∀ l ≤ 3, ∀ x < vaLowEnd, ∀ pg, table (newTable early t fpt) fpt l x = some pg →
        l = 3 ∧ pg = fpt := by
      intro l hl x hx pg hpg
      by_cases hlt : l < 3
      · rw [hbelow x hx l hlt] at hpg
        cases hpg
      · obtain rfl : l = 3 := Nat.le_antisymm hl (Nat.le_of_not_lt hlt)
        exact ⟨rfl, (Option.some.inj hpg).symm⟩
    have htop : ∀ pg, TablePage (newTable early t fpt) fpt vaLowEnd pg → pg = fpt := by
      rintro pg ⟨l, hl, x, hx, hpg⟩
      exact (hpage l hl x hx pg hpg).2
    refine ⟨⟨hvalid', ?_, fun pg hpg => ?_⟩, hnew fpt rfl, fun pg => ?_,
      fun pg hne => Function.update_of_ne hne _ _, htop, fun x hx => ?_⟩
    · intro l hl l' hl' x hx x' hx' pg hpg hpg'
      obtain ⟨rfl, -⟩ := hpage l hl x hx pg hpg
      obtain ⟨rfl, -⟩ := hpage l' hl' x' hx' pg hpg'
      have hone : ∀ y < vaLowEnd, y / span 4 = 0 :=
        fun y hy => Nat.div_eq_of_lt (Nat.lt_trans hy (by decide))
      exact ⟨rfl, (hone x hx).trans (hone x' hx').symm⟩
    · rw [htop pg hpg, hinUse]
      exact .inl rfl
    · rw [hinUse, Option.some_inj, eq_comm]
    · have hstop : locate (newTable early t fpt) fpt x =
          ⟨3, fpt, pageindex x 3, initialPerm⟩ := down_stop (by rw [hlow x hx]; rfl)
      rw [translation_eq hstop (hlow x hx)]
      rfl

end PugOS.PageTable
