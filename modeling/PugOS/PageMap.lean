import Mathlib.Logic.Function.Basic
import PugOS.KAllocInv
import PugOS.PageTable

/-! # `vmiter::map`

`map` sets the entry for an address, and on the way allocates, clears and links the pages of the
page table that are missing.  The pages of a page table are those its entries lead to (`table`).  If
no page is in two places (`Tree`), a new page changes the translation of no address, and an entry of
a lowest page changes that of its own addresses only.
-/
namespace PugOS.PageTable

/-- `pa | perm`, as an entry. -/
def Entry.make (pa : Nat) (perm : Perm) : Entry :=
  ⟨pa / pageSize * pageSize % paEnd, BitVec.ofNat 12 pa ||| perm⟩

/-- `pt[page].entry[i] = e`. -/
def setEntry (t : Tables) (page i : Nat) (e : Entry) : Tables :=
  Function.update t page (Function.update (t page) i e)

/-- The page table with one page more, which `page` has become: it is cleared, and an entry points
to it. -/
def addTable (t : Tables) (parent i page : Nat) : Tables :=
  setEntry (Function.update t page fun _ => .zero) parent i ⟨page, ptePWU⟩

/-- The loop of `map`, and the entry after it: the page tables, the allocator, and whether 0 is
returned. No result is a failed assertion. -/
def mapLoop {σ : Type} (kallocpage : σ → Option (σ × Option Nat)) (pa : Nat) (perm : Perm) :
    (fuel : Nat) → Vmiter → Tables → σ → Option (Tables × σ × Bool)
  | 0, _, _, _ => none
  | fuel + 1, it, t, s =>
    if it.place.level > 0 ∧ perm ≠ 0#12 then
      if it.present t then none
      else
        (kallocpage s).bind fun (s, r) =>
          match r with
          | none => some (t, s, false)
          | some page =>
            let p := it.place
            let t := addTable t p.page p.index page
            mapLoop kallocpage pa perm fuel
              { it with place := down t it.va p.level p.page p.index p.perm } t s
    else if it.place.level = 0 then some (setEntry t it.place.page it.place.index (.make pa perm),
      s, true)
    else some (t, s, true)

/-- `it.map(pa, perm)`. -/
def map {σ : Type} (kallocpage : σ → Option (σ × Option Nat)) (t : Tables) (s : σ) (it : Vmiter)
    (pa : Nat) (perm : Perm) : Option (Tables × σ × Bool) :=
  if it.va % pageSize = 0 ∧ (if perm &&& pteP ≠ 0#12 then pa % pageSize = 0 ∧ pa < paEnd
      else pa % 2 = 0) ∧ perm &&& ~~~it.place.perm &&& ptePWU = 0#12 then mapLoop kallocpage pa perm
      4 it t s
  else none

/-- `pa()`, `perm()` and `present()` of a fresh walk. -/
def translation (t : Tables) (pt va : Nat) : Option Nat × Perm × Bool :=
  let it := Vmiter.mk' t pt va
  (it.pa t, it.perm t, it.present t)

/-- The address is covered by a large page. -/
def LargePage (t : Tables) (pt va : Nat) : Prop :=
  (locate t pt va).level > 0 ∧ (Vmiter.mk' t pt va).present t = true

/-- One past the addresses that differ for a page table. -/
def vaEnd : Nat := 2 ^ 48

/-! ## The pages of a page table -/

section Table
variable {t t' : Tables} {pt va va' level level' page : Nat} {perm : Perm}

/-- The page at a level whose range has the address, if the walk gets there. -/
def tableAt (t : Tables) (pt va : Nat) : (depth : Nat) → Option Nat
  | 0 => some pt
  | depth + 1 => (tableAt t pt va depth).bind fun page => (t page (pageindex va (3 - depth))).next

/-- The page of level `level`, from 3 for the top page to 0 for those whose entries are for pages of
4096 bytes. -/
def table (t : Tables) (pt level va : Nat) : Option Nat := tableAt t pt va (3 - level)

@[simp] theorem table_three : table t pt 3 va = some pt := rfl

theorem table_succ (h : level < 3) :
    table t pt level va = (table t pt (level + 1) va).bind fun page =>
      (t page (pageindex va (level + 1))).next := by
  interval_cases level <;> rfl

theorem table_congr (hle : level ≤ 3) (h : va / span (level + 1) = va' / span (level + 1)) :
    table t pt level va = table t pt level va' := by
  obtain ⟨depth, hdepth⟩ : ∃ depth, level = 3 - depth ∧ depth ≤ 3 := ⟨3 - level, by omega, by omega⟩
  induction depth generalizing level with
  | zero =>
    obtain ⟨rfl, -⟩ := hdepth
    rfl
  | succ depth ih =>
    have hlt : level < 3 := by omega
    have hnext : level + 1 = 3 - depth ∧ depth ≤ 3 := by omega
    rw [table_succ hlt, table_succ hlt, ih hlt (div_span_mono h (Nat.le_succ _)) hnext,
      pageindex_congr h]

/-- Below a page that is not there is nothing. -/
theorem table_none (hle : level' ≤ level) (hlevel : level ≤ 3) (h : table t pt level va = none) :
    table t pt level' va = none := by
  induction level, hle using Nat.le_induction with
  | base => exact h
  | succ level _ ih =>
    refine ih (Nat.le_of_succ_le hlevel) ?_
    rw [table_succ hlevel, h]
    rfl

/-- The entries above a level decide where its pages are. -/
theorem table_same (h : ∀ l, level < l → l ≤ 3 → ∀ page, table t pt l va = some page →
    t' page (pageindex va l) = t page (pageindex va l)) (hle : level ≤ 3) :
    table t' pt level va = table t pt level va := by
  obtain ⟨depth, hdepth⟩ : ∃ depth, level = 3 - depth ∧ depth ≤ 3 := ⟨3 - level, by omega, by omega⟩
  induction depth generalizing level with
  | zero =>
    obtain ⟨rfl, -⟩ := hdepth
    rfl
  | succ depth ih =>
    have hlt : level < 3 := by omega
    rw [table_succ hlt, table_succ hlt, ih (fun l hl => h l (Nat.lt_of_succ_lt hl)) hlt (by omega)]
    cases hpage : table t pt (level + 1) va with
    | none => rfl
    | some page =>
      change (t' page _).next = (t page _).next
      rw [h (level + 1) (Nat.lt_succ_self level) hlt page hpage]

/-- Where a walk ends. -/
structure Stops (t : Tables) (pt va : Nat) (p : Place) : Prop where
  level : p.level ≤ 3
  page : table t pt p.level va = some p.page
  index : p.index = pageindex va p.level
  stop : p.level ≠ 0 → (t p.page p.index).next = none

theorem stops_down : ∀ {level page : Nat} {perm : Perm}, level ≤ 3 →
    table t pt level va = some page →
    Stops t pt va (down t va level page (pageindex va level) perm) := by
  intro level
  induction level with
  | zero => exact fun {_ _} hle hpage => ⟨hle, hpage, rfl, fun hne => absurd rfl hne⟩
  | succ level ih =>
    intro page perm hle hpage
    cases hnext : (t page (pageindex va (level + 1))).next with
    | none =>
      rw [down_stop hnext]
      exact ⟨hle, hpage, rfl, fun _ => hnext⟩
    | some pa =>
      rw [down_next hnext]
      refine ih (Nat.le_of_succ_le hle) ?_
      rw [table_succ hle, hpage]
      exact hnext

theorem stops (t : Tables) (pt va : Nat) : Stops t pt va (locate t pt va) :=
  stops_down (Nat.le_refl 3) rfl

/-- If the entries above the place where a walk ends are as they were, the walk comes by there. -/
theorem down_resume : ∀ {level page : Nat} {perm : Perm} {p : Place}, level ≤ 3 →
    table t pt level va = some page → down t va level page (pageindex va level) perm = p →
    (∀ l, p.level < l → l ≤ 3 → ∀ pg, table t pt l va = some pg →
      t' pg (pageindex va l) = t pg (pageindex va l)) →
    down t' va level page (pageindex va level) perm = down t' va p.level p.page p.index p.perm := by
  intro level
  induction level with
  | zero =>
    rintro page perm p - - rfl -
    rfl
  | succ level ih =>
    intro page perm p hle hpage hp h
    cases hnext : (t page (pageindex va (level + 1))).next with
    | none =>
      rw [down_stop hnext] at hp
      subst hp
      rfl
    | some pa =>
      rw [down_next hnext] at hp
      have hlt : p.level < level + 1 := Nat.lt_succ_of_le (hp ▸ down_level_le level pa _ _)
      have hentry := h (level + 1) hlt hle page hpage
      have hchild : table t pt level va = some pa := by
        rw [table_succ hle, hpage]
        exact hnext
      rw [down_next (show (t' page (pageindex va (level + 1))).next =
        some pa by rw [hentry]; exact hnext), hentry]
      exact ih (Nat.le_of_succ_le hle) hchild hp h

theorem locate_resume {p : Place} (hp : locate t pt va = p)
    (h : ∀ l, p.level < l → l ≤ 3 → ∀ pg, table t pt l va = some pg →
      t' pg (pageindex va l) = t pg (pageindex va l)) :
    locate t' pt va = down t' va p.level p.page p.index p.perm :=
  down_resume (Nat.le_refl 3) rfl hp h

/-- A walk that comes by nothing that has changed. -/
theorem locate_same
    (h : ∀ l ≤ 3, ∀ pg, table t pt l va = some pg →
    t' pg (pageindex va l) = t pg (pageindex va l)) : locate t' pt va = locate t pt va := by
  have hstop := stops t pt va
  rw [locate_resume rfl fun l _ => h l]
  obtain ⟨⟨level, page, index, perm⟩, hp⟩ : ∃ p, locate t pt va = p := ⟨_, rfl⟩
  rw [hp] at hstop ⊢
  cases level with
  | zero => rfl
  | succ level =>
    have hnext := hstop.stop (Nat.succ_ne_zero level)
    have hindex := hstop.index
    dsimp only at hnext hindex
    subst hindex
    refine down_stop ?_
    rw [h (level + 1) hstop.level page hstop.page]
    exact hnext

theorem translation_same
    (h : ∀ l ≤ 3, ∀ pg, table t pt l va = some pg →
      t' pg (pageindex va l) = t pg (pageindex va l)) :
    translation t' pt va = translation t pt va := by
  have hstop := stops t pt va
  have hentry := h _ hstop.level _ hstop.page
  rw [← hstop.index] at hentry
  unfold translation Vmiter.pa Vmiter.perm Vmiter.present Vmiter.entry
  rw [mk'_eq, mk'_eq, locate_same h]
  dsimp only
  rw [hentry]

/-- Where a walk ends above the lowest level, all walks to addresses of that entry end. -/
theorem locate_eq_of_stop {p : Place} (hp : locate t pt va = p)
    (h : va' / span p.level = va / span p.level) : locate t pt va' = p := by
  have hstop := stops t pt va
  rw [hp] at hstop
  have hgo := @down_down _ _ va' _ _ _ _ hp (div_span_mono h.symm (Nat.le_succ _))
  rw [pageindex_congr h, ← hstop.index] at hgo
  refine hgo.symm.trans ?_
  obtain ⟨level, page, index, perm⟩ := p
  cases level with
  | zero => rfl
  | succ level => exact down_stop (hstop.stop (Nat.succ_ne_zero level))

/-- The translation of an address, from the place where the walk ends. -/
theorem translation_eq {p : Place} {e : Entry} (hp : locate t pt va = p)
    (he : t p.page p.index = e) : translation t pt va = if e.present then
      (some ((if p.level > 0 then e.pa - e.pa % 8192 else e.pa) + va % span p.level),
        e.flags &&& p.perm, true)
    else (none, 0#12, false) := by
  unfold translation Vmiter.pa Vmiter.perm Vmiter.present Vmiter.entry
  rw [mk'_eq, hp]
  dsimp only
  rw [he]
  cases e.present with
  | true => rfl
  | false => rfl

/-! ## Addresses beyond 48 bits -/

theorem pageindex_mod (hle : level ≤ 3) : pageindex (va % vaEnd) level = pageindex va level := by
  unfold pageindex vaEnd span
  interval_cases level <;> omega

theorem down_mod : ∀ {level page index : Nat} {perm : Perm}, level ≤ 3 →
    down t (va % vaEnd) level page index perm = down t va level page index perm := by
  intro level
  induction level with
  | zero => exact fun {_ _ _} _ => rfl
  | succ level ih =>
    intro page index perm hle
    unfold down
    cases (t page index).next with
    | none => rfl
    | some pa =>
      dsimp only
      rw [pageindex_mod (Nat.le_of_succ_le hle)]
      exact ih (Nat.le_of_succ_le hle)

theorem locate_mod (t : Tables) (pt va : Nat) : locate t pt (va % vaEnd) = locate t pt va := by
  unfold locate
  rw [pageindex_mod (Nat.le_refl 3)]
  exact down_mod (Nat.le_refl 3)

theorem mod_span (hle : level ≤ 3) : va % vaEnd % span level = va % span level := by
  refine Nat.mod_mod_of_dvd va ?_
  exact Nat.pow_dvd_pow 2 (by omega)

theorem translation_mod (t : Tables) (pt va : Nat) :
    translation t pt (va % vaEnd) = translation t pt va := by
  rw [translation_eq (locate_mod t pt va) rfl, translation_eq rfl rfl,
    mod_span (locate_level_le t pt va)]

/-! ## Changing entries -/

/-- No page is in two places of the page table. -/
def Tree (t : Tables) (pt top : Nat) : Prop :=
  ∀ level ≤ 3, ∀ level' ≤ 3, ∀ va < top, ∀ va' < top, ∀ page, table t pt level va = some page →
    table t pt level' va' = some page → level = level' ∧
    va / span (level + 1) = va' / span (level + 1)

/-- `page` is one of the pages of the page table. -/
def TablePage (t : Tables) (pt top page : Nat) : Prop :=
  ∃ level ≤ 3, ∃ va < top, table t pt level va = some page

theorem absent_next {e : Entry} (h : e.present = false) : e.next = none := by
  unfold Entry.present at h
  rw [decide_eq_false_iff_not, Decidable.not_not] at h
  unfold Entry.next
  refine if_neg fun hps => ?_
  have hp : e.flags &&& (pteP ||| ptePS) &&& pteP = pteP := by
    rw [hps]
    rfl
  rw [BitVec.and_assoc] at hp
  exact absurd (h.symm.trans hp) (by decide)

theorem next_linked (page : Nat) : (Entry.mk page ptePWU).next = some page :=
  if_pos (show ptePWU &&& (pteP ||| ptePS) = pteP by decide)

section AddTable
variable {top parent : Nat} (htree : Tree t pt top) (hlevel : level < 3) (hva : va < top)
    (hparent : table t pt (level + 1) va = some parent)
    (habsent : (t parent (pageindex va (level + 1))).next = none)
    (hfresh : ¬ TablePage t pt top page)
include htree hlevel hva hparent habsent hfresh

theorem addTable_entry {l x pg : Nat} (hl : l ≤ 3) (hx : x < top) (hpg : table t pt l x = some pg)
    (hne : ¬ (l = level + 1 ∧ x / span (level + 1) = va / span (level + 1))) :
    addTable t parent (pageindex va (level + 1)) page pg (pageindex x l) =
      t pg (pageindex x l) := by
  have hpage : pg ≠ page := fun h => hfresh ⟨l, hl, x, hx, h ▸ hpg⟩
  unfold addTable setEntry
  by_cases hpar : pg = parent
  · subst hpar
    obtain ⟨rfl, hdiv⟩ := htree l hl (level + 1) hlevel x hx va hva pg hpg hparent
    have hindex : pageindex x (level + 1) ≠ pageindex va (level + 1) :=
      fun h => hne ⟨rfl, div_span_of_index hdiv h⟩
    rw [Function.update_self, Function.update_of_ne hindex, Function.update_of_ne hpage]
  · rw [Function.update_of_ne hpar, Function.update_of_ne hpage]

omit htree hlevel habsent in
theorem new_ne_parent (hlevel : level < 3) : page ≠ parent :=
  fun h => hfresh ⟨level + 1, hlevel, va, hva, h ▸ hparent⟩

omit htree hlevel hva hparent habsent hfresh in
theorem addTable_parent (t : Tables) (parent i page : Nat) :
    addTable t parent i page parent i = ⟨page, ptePWU⟩ := by
  unfold addTable setEntry
  rw [Function.update_self, Function.update_self]

omit htree habsent in
theorem addTable_new (i : Nat) :
    addTable t parent (pageindex va (level + 1)) page page i = .zero := by
  unfold addTable setEntry
  rw [Function.update_of_ne (new_ne_parent hva hparent hfresh hlevel), Function.update_self]

omit htree hva hfresh in
theorem absent_below {x : Nat} (h : x / span (level + 1) = va / span (level + 1)) {l : Nat}
    (hl : l ≤ level) : table t pt l x = none := by
  refine table_none hl (Nat.le_of_lt hlevel) ?_
  rw [table_succ hlevel, table_congr hlevel (div_span_mono h (Nat.le_succ _)), hparent]
  change (t parent (pageindex x (level + 1))).next = none
  rw [pageindex_congr h, habsent]

/-- **The new page is the only change.** -/
theorem table_addTable {l x : Nat} (hl : l ≤ 3) (hx : x < top) :
    table (addTable t parent (pageindex va (level + 1)) page) pt l x =
      if l = level ∧ x / span (level + 1) = va / span (level + 1) then some page
        else table t pt l x := by
  obtain ⟨depth, hdepth⟩ : ∃ depth, l = 3 - depth ∧ depth ≤ 3 := ⟨3 - l, by omega, by omega⟩
  induction depth generalizing l with
  | zero =>
    obtain rfl : l = 3 := by omega
    rw [if_neg (by omega)]
    rfl
  | succ depth ih =>
    have hlt : l < 3 := by omega
    rw [table_succ hlt, ih hlt (by omega)]
    by_cases hregion : x / span (level + 1) = va / span (level + 1)
    · by_cases hup : l + 1 = level
      · -- below the new page there is nothing yet
        rw [if_pos ⟨hup, hregion⟩, if_neg (by omega),
          absent_below hlevel hparent habsent hregion (by omega)]
        change (addTable t parent _ page page _).next = none
        rw [addTable_new hlevel hva hparent hfresh]
        rfl
      · rw [if_neg (fun h => hup h.1)]
        by_cases hhere : l = level
        · subst hhere
          rw [if_pos ⟨rfl, hregion⟩, table_congr hlt (div_span_mono hregion (Nat.le_succ _)),
            hparent]
          change (addTable t parent _ page parent _).next = some page
          rw [pageindex_congr hregion, addTable_parent, next_linked]
        · rw [if_neg (fun h => hhere h.1), table_succ hlt]
          cases hpg : table t pt (l + 1) x with
          | none => rfl
          | some pg =>
            change (addTable t parent _ page pg _).next = (t pg _).next
            rw [addTable_entry htree hlevel hva hparent habsent hfresh hlt hx hpg (by omega)]
    · rw [if_neg (fun h => hregion h.2), if_neg (fun h => hregion h.2), table_succ hlt]
      cases hpg : table t pt (l + 1) x with
      | none => rfl
      | some pg =>
        change (addTable t parent _ page pg _).next = (t pg _).next
        rw [addTable_entry htree hlevel hva hparent habsent hfresh hlt hx hpg
          (fun h => hregion h.2)]

theorem tablePage_addTable {pg : Nat}
    (h : TablePage (addTable t parent (pageindex va (level + 1)) page) pt top pg) :
    TablePage t pt top pg ∨ pg = page := by
  obtain ⟨l, hl, x, hx, hpg⟩ := h
  rw [table_addTable htree hlevel hva hparent habsent hfresh hl hx] at hpg
  split at hpg
  · exact .inr (Option.some.inj hpg).symm
  · exact .inl ⟨l, hl, x, hx, hpg⟩

theorem tree_addTable : Tree (addTable t parent (pageindex va (level + 1)) page) pt top := by
  intro l hl l' hl' x hx x' hx' pg hpg hpg'
  rw [table_addTable htree hlevel hva hparent habsent hfresh hl hx] at hpg
  rw [table_addTable htree hlevel hva hparent habsent hfresh hl' hx'] at hpg'
  split at hpg
  · rename_i hnew
    cases hpg
    split at hpg'
    · rename_i hnew'
      obtain ⟨rfl, hdiv⟩ := hnew
      obtain ⟨rfl, hdiv'⟩ := hnew'
      exact ⟨rfl, hdiv.trans hdiv'.symm⟩
    · exact absurd ⟨l', hl', x', hx', hpg'⟩ hfresh
  · split at hpg'
    · cases hpg'
      exact absurd ⟨l, hl, x, hx, hpg⟩ hfresh
    · exact htree l hl l' hl' x hx x' hx' pg hpg hpg'

end AddTable

section AddTable
variable {top parent : Nat} (htree : Tree t pt top) (hva : va < top)
    (hplace : locate t pt va = ⟨level + 1, parent, pageindex va (level + 1), perm⟩)
    (habsent : (t parent (pageindex va (level + 1))).present = false)
    (hfresh : ¬ TablePage t pt top page)
include htree hva hplace habsent hfresh

/-- The walk goes on into the new page, and ends there. -/
theorem locate_addTable {x : Nat} (hx : x < top)
    (hregion : x / span (level + 1) = va / span (level + 1)) :
    locate (addTable t parent (pageindex va (level + 1)) page) pt x =
      ⟨level, page, pageindex x level, perm &&& ptePWU⟩ := by
  have hstop := stops t pt va
  rw [hplace] at hstop
  have hlevel : level < 3 := hstop.level
  have hstop' := locate_eq_of_stop hplace hregion
  have hnext := absent_next habsent
  have hparent := addTable_parent t parent (pageindex va (level + 1)) page
  have hnew := addTable_new (t := t) hlevel hva hstop.page hfresh
  rw [locate_resume hstop' fun l hl hl' pg hpg =>
    addTable_entry htree hlevel hva hstop.page hnext hfresh hl' hx hpg
    fun h => absurd h.1 (Nat.ne_of_gt hl),
      @down_next _ _ _ _ _ _ page (by rw [hparent, next_linked]), hparent]
  cases level with
  | zero => rfl
  | succ level => exact down_stop (by rw [hnew]; rfl)

/-- **A new page changes no translation.** -/
theorem translation_addTable {x : Nat} (hx : x < top) :
    translation (addTable t parent (pageindex va (level + 1)) page) pt x = translation t pt x := by
  have hstop := stops t pt va
  rw [hplace] at hstop
  have hlevel : level < 3 := hstop.level
  by_cases hregion : x / span (level + 1) = va / span (level + 1)
  · have hnew := addTable_new (t := t) hlevel hva hstop.page hfresh (pageindex x level)
    rw [translation_eq (locate_addTable htree hva hplace habsent hfresh hx hregion) hnew,
      translation_eq (locate_eq_of_stop hplace hregion) rfl, habsent]
    rfl
  · refine translation_same fun l hl pg hpg => ?_
    exact addTable_entry htree hlevel hva hstop.page (absent_next habsent) hfresh hl hx hpg
      fun h => hregion h.2

end AddTable

section SetLeaf
variable {top : Nat} (htree : Tree t pt top) (hva : va < top) (hpage : table t pt 0 va = some page)
  (e : Entry)
include htree hva hpage

theorem setLeaf_entry {l x pg : Nat} (hl : l ≤ 3) (hx : x < top) (hpg : table t pt l x = some pg)
    (hne : ¬ (l = 0 ∧ x / span 0 = va / span 0)) :
    setEntry t page (pageindex va 0) e pg (pageindex x l) = t pg (pageindex x l) := by
  unfold setEntry
  by_cases hpar : pg = page
  · subst hpar
    obtain ⟨rfl, hdiv⟩ := htree l hl 0 (Nat.zero_le 3) x hx va hva pg hpg hpage
    have hindex : pageindex x 0 ≠ pageindex va 0 := fun h => hne ⟨rfl, div_span_of_index hdiv h⟩
    rw [Function.update_self, Function.update_of_ne hindex]
  · rw [Function.update_of_ne hpar]

/-- An entry of a lowest page does not move the pages of the page table. -/
theorem table_setLeaf {l x : Nat} (hl : l ≤ 3) (hx : x < top) :
    table (setEntry t page (pageindex va 0) e) pt l x = table t pt l x :=
  table_same (fun _ hpos hl' _ hpg =>
    setLeaf_entry htree hva hpage e hl' hx hpg fun h =>
      absurd h.1 (Nat.ne_of_gt (Nat.zero_lt_of_lt hpos))) hl

theorem tree_setLeaf : Tree (setEntry t page (pageindex va 0) e) pt top := by
  intro l hl l' hl' x hx x' hx' pg hpg hpg'
  rw [table_setLeaf htree hva hpage e hl hx] at hpg
  rw [table_setLeaf htree hva hpage e hl' hx'] at hpg'
  exact htree l hl l' hl' x hx x' hx' pg hpg hpg'

omit hpage in
/-- **One page of addresses is translated otherwise.** -/
theorem translation_setLeaf (hplace : locate t pt va = ⟨0, page, pageindex va 0, perm⟩) {x : Nat}
    (hx : x < top) : translation (setEntry t page (pageindex va 0) e) pt x =
      if x / span 0 = va / span 0 then
        if e.present then (some (e.pa + x % span 0), e.flags &&& perm, true)
          else (none, 0#12, false)
      else translation t pt x := by
  have hstop := stops t pt va
  rw [hplace] at hstop
  by_cases hsame : x / span 0 = va / span 0
  · have hhere : setEntry t page (pageindex va 0) e page (pageindex va 0) = e := by
      unfold setEntry
      rw [Function.update_self, Function.update_self]
    have hlocate : locate (setEntry t page (pageindex va 0) e) pt x =
        ⟨0, page, pageindex va 0, perm⟩ :=
      locate_resume (locate_eq_of_stop hplace hsame) fun l hl hl' pg hpg =>
        setLeaf_entry htree hva hstop.page e hl' hx hpg fun h => absurd h.1 (Nat.ne_of_gt hl)
    rw [if_pos hsame, translation_eq hlocate hhere]
    rfl
  · rw [if_neg hsame]
    exact translation_same fun l hl pg hpg => setLeaf_entry htree hva hstop.page e hl hx hpg
      fun h => hsame h.2

end SetLeaf

/-! ## The loop -/

/-- What `map` asks of `kallocpage`: a page it returns is not in use. -/
structure PageSource (σ : Type) where
  kallocpage : σ → Option (σ × Option Nat)
  Valid : σ → Prop
  InUse : σ → Nat → Prop
  spec : ∀ s, Valid s → ∃ s' r, kallocpage s = some (s', r) ∧ Valid s' ∧
    (∀ page, InUse s' page ↔ r = some page ∨ InUse s page) ∧ ∀ page, r = some page → ¬ InUse s page

variable {σ : Type} {source : PageSource σ} {top pa : Nat} {s s' : σ}

/-- The pages of the page table are a tree of pages in use. -/
structure Space (source : PageSource σ) (t : Tables) (pt top : Nat) (s : σ) : Prop where
  valid : source.Valid s
  tree : Tree t pt top
  inUse : ∀ page, TablePage t pt top page → source.InUse s page

/-- What a page table becomes when pages are added to it: the pages it has stay where they are, the
new ones were not in use, and no other page in use is written to. -/
structure Grows (source : PageSource σ) (pt top : Nat) (t : Tables) (s : σ) (t' : Tables) (s' : σ) :
    Prop where
  space : Space source t' pt top s'
  inUse : ∀ pg, source.InUse s pg → source.InUse s' pg
  tables : ∀ l ≤ 3, ∀ x < top, ∀ pg, table t pt l x = some pg → table t' pt l x = some pg
  fresh : ∀ pg, TablePage t' pt top pg → TablePage t pt top pg ∨ ¬ source.InUse s pg
  frame : ∀ pg, source.InUse s pg → ¬ TablePage t pt top pg → t' pg = t pg

/-- The allocator may go on by itself. -/
theorem Space.alloc (hs : Space source t pt top s) (hvalid : source.Valid s')
    (hmore : ∀ pg, source.InUse s pg → source.InUse s' pg) : Grows source pt top t s t s' :=
  ⟨⟨hvalid, hs.tree, fun pg hpg => hmore pg (hs.inUse pg hpg)⟩, hmore, fun _ _ _ _ _ h =>
    h, fun _ h => .inl h, fun _ _ _ => rfl⟩

theorem Grows.trans {t₁ : Tables} {s₁ : σ} (h₁ : Grows source pt top t s t₁ s₁)
    (h₂ : Grows source pt top t₁ s₁ t' s') : Grows source pt top t s t' s' where
  space := h₂.space
  inUse pg h := h₂.inUse pg (h₁.inUse pg h)
  tables l hl x hx pg h := h₂.tables l hl x hx pg (h₁.tables l hl x hx pg h)
  fresh pg h := by
    rcases h₂.fresh pg h with h | h
    · exact h₁.fresh pg h
    · exact .inr fun hin => h (h₁.inUse pg hin)
  frame pg hin hno := by
    have hno₁ : ¬ TablePage t₁ pt top pg := fun h => (h₁.fresh pg h).elim hno fun h => h hin
    rw [h₂.frame pg (h₁.inUse pg hin) hno₁, h₁.frame pg hin hno]

theorem Space.addTable (hs : Space source t pt top s) (hva : va < top) {parent : Nat}
    (hplace : locate t pt va = ⟨level + 1, parent, pageindex va (level + 1), perm⟩)
    (habsent : (t parent (pageindex va (level + 1))).present = false) (hvalid : source.Valid s')
    (hinUse : ∀ pg, source.InUse s' pg ↔ some page = some pg ∨ source.InUse s pg)
    (hnew : ¬ source.InUse s page) :
    Grows source pt top t s (addTable t parent (pageindex va (level + 1)) page) s' := by
  have hstop := stops t pt va
  rw [hplace] at hstop
  have hfresh : ¬ TablePage t pt top page := fun h => hnew (hs.inUse page h)
  have hnext := absent_next habsent
  have hparent : TablePage t pt top parent := ⟨level + 1, hstop.level, va, hva, hstop.page⟩
  refine ⟨⟨hvalid, tree_addTable hs.tree hstop.level hva hstop.page hnext hfresh, fun pg hpg => ?_⟩,
    fun pg h => (hinUse pg).mpr (.inr h), fun l hl x hx pg hpg => ?_, fun pg hpg => ?_,
    fun pg hin hno => ?_⟩
  · rw [hinUse]
    rcases tablePage_addTable hs.tree hstop.level hva hstop.page hnext hfresh hpg with hpg | rfl
    · exact .inr (hs.inUse pg hpg)
    · exact .inl rfl
  · rw [table_addTable hs.tree hstop.level hva hstop.page hnext hfresh hl hx, if_neg ?_, hpg]
    rintro ⟨hl', hregion⟩
    rw [absent_below hstop.level hstop.page hnext hregion (Nat.le_of_eq hl')] at hpg
    cases hpg
  · rcases tablePage_addTable hs.tree hstop.level hva hstop.page hnext hfresh hpg with hpg | rfl
    · exact .inl hpg
    · exact .inr hnew
  · have hpage : pg ≠ page := fun h => hnew (h ▸ hin)
    have hpar : pg ≠ parent := fun h => hno (h ▸ hparent)
    unfold PageTable.addTable setEntry
    rw [Function.update_of_ne hpar, Function.update_of_ne hpage]

theorem Space.setLeaf (hs : Space source t pt top s) (hva : va < top)
    (hpage : table t pt 0 va = some page) (e : Entry) :
    Grows source pt top t s (setEntry t page (pageindex va 0) e) s := by
  have htables : ∀ pg, TablePage (setEntry t page (pageindex va 0) e) pt top pg →
      TablePage t pt top pg := by
    rintro pg ⟨l, hl, x, hx, hpg⟩
    rw [table_setLeaf hs.tree hva hpage e hl hx] at hpg
    exact ⟨l, hl, x, hx, hpg⟩
  refine ⟨⟨hs.valid, tree_setLeaf hs.tree hva hpage e, fun pg hpg => hs.inUse pg (htables pg hpg)⟩,
    fun _ h => h, fun l hl x hx pg hpg => ?_, fun pg hpg => .inl (htables pg hpg),
    fun pg _ hno => ?_⟩
  · rw [table_setLeaf hs.tree hva hpage e hl hx, hpg]
  · have hne : pg ≠ page := by
      rintro rfl
      exact hno ⟨0, Nat.zero_le 3, va, hva, hpage⟩
    unfold setEntry
    rw [Function.update_of_ne hne]

/-- The translation of one page of addresses is another one. -/
def Mapped (t t' : Tables) (pt top va pa : Nat) (perm : Perm) : Prop :=
  ∀ x < top, translation t' pt x =
    if x / pageSize = va / pageSize then (some (pa + x % pageSize), perm, true)
      else translation t pt x

theorem Entry.make_eq (hpa : pa % pageSize = 0) (hlt : pa < paEnd) (perm : Perm) :
    Entry.make pa perm = ⟨pa, perm⟩ := by
  have hlow : BitVec.ofNat 12 pa = 0#12 := by
    apply BitVec.eq_of_toNat_eq
    rw [BitVec.toNat_ofNat]
    exact hpa
  unfold Entry.make
  rw [Nat.div_mul_cancel (Nat.dvd_of_mod_eq_zero hpa), Nat.mod_eq_of_lt hlt, hlow, BitVec.zero_or]

theorem present_of_perm (hp : perm &&& pteP = pteP) : (Entry.mk pa perm).present = true := by
  unfold Entry.present
  rw [hp]
  rfl

/-- **The loop of `map`**, from where the walk to the address ends.  The entries above the new one
do not take away the permissions it is called with. -/
theorem mapLoop_spec (hp : perm &&& pteP = pteP) (hpa : pa % pageSize = 0)
    (hlt : pa < paEnd) (hva : va < top) :
    ∀ {level fuel page : Nat} {q : Perm} {t : Tables} {s : σ}, level < fuel →
    Space source t pt top s → locate t pt va = ⟨level, page, pageindex va level, q⟩ →
    (level ≠ 0 → (t page (pageindex va level)).present = false) →
    perm &&& ptePWU &&& q = perm &&& ptePWU →
    ∃ t' s' ok, mapLoop source.kallocpage pa perm fuel
    ⟨pt, va, ⟨level, page, pageindex va level, q⟩⟩ t s = some (t', s', ok) ∧
      Grows source pt top t s t' s' ∧
      if ok = true then (∃ r, perm &&& ptePWU &&& r = perm &&& ptePWU ∧
          Mapped t t' pt top va pa (perm &&& r)) ∧ ∃ pg, table t' pt 0 va = some pg
        else ∀ x < top, translation t' pt x = translation t pt x := by
  have hne : perm ≠ 0#12 := by
    rintro rfl
    exact absurd hp (by decide)
  intro level
  induction level with
  | zero =>
    intro fuel page q t s hfuel hs hplace _ hq
    obtain ⟨fuel, rfl⟩ := Nat.exists_eq_succ_of_ne_zero (Nat.ne_of_gt hfuel)
    have hstop := stops t pt va
    rw [hplace] at hstop
    unfold mapLoop
    rw [if_neg (fun h => Nat.lt_irrefl 0 h.1), if_pos rfl]
    refine ⟨_, s, true, rfl, hs.setLeaf hva hstop.page _, ?_⟩
    rw [if_pos rfl]
    refine ⟨⟨q, hq, fun x hx => ?_⟩, page, ?_⟩
    · dsimp only
      rw [Entry.make_eq hpa hlt, translation_setLeaf hs.tree hva _ hplace hx,
        if_pos (present_of_perm hp)]
      rfl
    · exact (table_setLeaf hs.tree hva hstop.page _ (Nat.zero_le 3) hva).trans hstop.page
  | succ level ih =>
    intro fuel parent q t s hfuel hs hplace habsent hq
    obtain ⟨fuel, rfl⟩ :=
      Nat.exists_eq_succ_of_ne_zero (Nat.ne_of_gt (Nat.lt_of_le_of_lt (Nat.zero_le _) hfuel))
    have habsent := habsent (Nat.succ_ne_zero level)
    have hpresent : (Vmiter.mk pt va ⟨level + 1, parent, pageindex va (level + 1), q⟩).present t =
        false := habsent
    obtain ⟨s₁, r, hrun, hvalid, hinUse, hnew⟩ := source.spec s hs.valid
    unfold mapLoop
    rw [if_pos ⟨Nat.succ_pos level, hne⟩, hpresent, if_neg Bool.false_ne_true, hrun,
      Option.bind_some]
    cases r with
    | none =>
      have hmore : ∀ pg, source.InUse s pg → source.InUse s₁ pg :=
        fun pg h => (hinUse pg).mpr (.inr h)
      refine ⟨t, s₁, false, rfl, hs.alloc hvalid hmore, ?_⟩
      · rw [if_neg Bool.false_ne_true]
        exact fun _ _ => rfl
    | some page =>
      have hfresh : ¬ TablePage t pt top page := fun h => hnew page rfl (hs.inUse page h)
      have hs₁ := hs.addTable hva hplace habsent hvalid hinUse (hnew page rfl)
      have hstop := stops t pt va
      rw [hplace] at hstop
      have hplace₁ := locate_addTable hs.tree hva hplace habsent hfresh hva rfl
      have hcleared := addTable_new (t := t) hstop.level hva hstop.page hfresh (pageindex va level)
      have hparent := addTable_parent t parent (pageindex va (level + 1)) page
      have hdown : down (addTable t parent (pageindex va (level + 1)) page) va (level + 1) parent
          (pageindex va (level + 1)) q = ⟨level, page, pageindex va level, q &&& ptePWU⟩ := by
        rw [@down_next _ _ _ _ _ _ page (by rw [hparent, next_linked]), hparent]
        cases level with
        | zero => rfl
        | succ level => exact down_stop (by rw [hcleared]; rfl)
      have hq₁ : perm &&& ptePWU &&& (q &&& ptePWU) = perm &&& ptePWU := by
        rw [← BitVec.and_assoc, hq, BitVec.and_assoc, BitVec.and_self]
      dsimp only
      rw [hdown]
      obtain ⟨t', s', ok, hloop, hs', htrans⟩ := ih (Nat.lt_of_succ_lt_succ hfuel) hs₁.space hplace₁
        (fun _ => by rw [hcleared]; rfl) hq₁
      refine ⟨t', s', ok, hloop, hs₁.trans hs', ?_⟩
      -- the new page has changed no translation
      have hsame :=
        fun x (hx : x < top) => translation_addTable hs.tree hva hplace habsent hfresh hx
      cases ok with
      | false => exact fun x hx => (htrans x hx).trans (hsame x hx)
      | true =>
        obtain ⟨⟨r, hr, hmapped⟩, htable⟩ := htrans
        refine ⟨⟨r, hr, fun x hx => ?_⟩, htable⟩
        rw [hmapped x hx, hsame x hx]

/-- The loop needs the low 48 bits of the address only. -/
theorem mapLoop_mod (kallocpage : σ → Option (σ × Option Nat)) (pa : Nat) (perm : Perm)
    (pt va : Nat) : ∀ (fuel : Nat) {p : Place} (t : Tables) (s : σ), p.level ≤ 3 →
      mapLoop kallocpage pa perm fuel ⟨pt, va % vaEnd, p⟩ t s = mapLoop kallocpage pa perm fuel
      ⟨pt, va, p⟩ t s := by
  intro fuel
  induction fuel with
  | zero => exact fun {_} _ _ _ => rfl
  | succ fuel ih =>
    intro p t s hle
    have hpresent : (Vmiter.mk pt (va % vaEnd) p).present t = (Vmiter.mk pt va p).present t := rfl
    unfold mapLoop
    rw [hpresent]
    refine if_congr Iff.rfl (if_congr Iff.rfl rfl ?_) rfl
    congr 1
    funext r
    obtain ⟨s₁, _ | page⟩ := r
    · rfl
    · dsimp only
      rw [down_mod hle]
      exact ih _ _ (Nat.le_trans (down_level_le _ _ _ _) hle)

/-- What the last assertion of `map` is for. -/
theorem perm_le_path {q : Perm} (h : perm &&& ~~~q &&& ptePWU = 0#12) :
    perm &&& ptePWU &&& q = perm &&& ptePWU := by
  have hnot : perm &&& ptePWU &&& ~~~q = 0#12 := by
    rw [BitVec.and_assoc, BitVec.and_comm ptePWU, ← BitVec.and_assoc]
    exact h
  calc perm &&& ptePWU &&& q = perm &&& ptePWU &&& q ||| perm &&& ptePWU &&& ~~~q := by
        rw [hnot, BitVec.or_zero]
    _ = perm &&& ptePWU := by
      rw [← BitVec.and_or_distrib_left, BitVec.or_not_self, BitVec.and_allOnes]

/-- **A call of `map` that no assertion stops.** -/
theorem map_spec {ok : Bool} (hs : Space source t pt top s) (hva : va < top)
    (hp : perm &&& pteP = pteP)
    (h : map source.kallocpage t s (Vmiter.mk' t pt va) pa perm = some (t', s', ok)) :
    pa % pageSize = 0 ∧ Grows source pt top t s t' s' ∧
      if ok = true then (∃ r, perm &&& ptePWU &&& r = perm &&& ptePWU ∧
        Mapped t t' pt top va pa (perm &&& r)) ∧ ∃ pg, table t' pt 0 va = some pg
      else ∀ x < top, translation t' pt x = translation t pt x := by
  obtain ⟨⟨level, page, index, q⟩, hplace⟩ : ∃ p, locate t pt va = p := ⟨_, rfl⟩
  have hstop := stops t pt va
  rw [hplace] at hstop
  obtain rfl : index = pageindex va level := hstop.index
  unfold map at h
  rw [mk'_eq, hplace] at h
  by_cases hassert : va % pageSize = 0 ∧
      (if perm &&& pteP ≠ 0#12 then pa % pageSize = 0 ∧ pa < paEnd else pa % 2 = 0) ∧
      perm &&& ~~~q &&& ptePWU = 0#12
  · rw [if_pos hassert] at h
    obtain ⟨-, hpa, hpath⟩ := hassert
    have hpos : perm &&& pteP ≠ 0#12 := by
      rw [hp]
      decide
    rw [if_pos hpos] at hpa
    have hne : perm ≠ 0#12 := by
      rintro rfl
      exact absurd hp (by decide)
    have habsent : level ≠ 0 → (t page (pageindex va level)).present = false := by
      intro hlevel
      refine Bool.eq_false_iff.mpr fun hpresent => ?_
      have hpresent : (Vmiter.mk pt va ⟨level, page, pageindex va level, q⟩).present t = true :=
        hpresent
      unfold mapLoop at h
      rw [if_pos ⟨Nat.pos_of_ne_zero hlevel, hne⟩, if_pos hpresent] at h
      cases h
    obtain ⟨t₁, s₁, ok₁, hrun, hspec⟩ := mapLoop_spec hp hpa.1 hpa.2 hva
      (Nat.lt_succ_of_le hstop.level) hs hplace habsent (perm_le_path hpath)
    obtain ⟨rfl, rfl, rfl⟩ : t₁ = t' ∧ s₁ = s' ∧ ok₁ = ok := by
      rw [h] at hrun
      cases hrun
      exact ⟨rfl, rfl, rfl⟩
    exact ⟨hpa.1, hspec⟩
  · rw [if_neg hassert] at h
    cases h

/-- **`vmiter(pt, va).map(pa, perm)` changes one translation**: if it returns 0, that of the page of
addresses it is called for; else none. -/
theorem map_changes_one (source : PageSource σ) {t : Tables} {s : σ} {pt va pa : Nat} {perm : Perm}
    (hs : Space source t pt vaEnd s) (halign : va % pageSize = 0) (hlarge : ¬ LargePage t pt va)
    (hpa : pa % pageSize = 0) (hp : perm &&& pteP = pteP) (hpwu : perm &&& ptePWU = perm)
    (hlt : pa < paEnd) (hpath : perm &&& ~~~(locate t pt va).perm &&& ptePWU = 0#12) :
    ∃ t' s' ok, map source.kallocpage t s (Vmiter.mk' t pt va) pa perm = some (t', s', ok) ∧
      if ok = true then
        ∀ x, translation t' pt x = if x % vaEnd / pageSize = va % vaEnd /
          pageSize then (some (pa + x % pageSize), perm, true)
          else translation t pt x
      else ∀ x, translation t' pt x = translation t pt x := by
  obtain ⟨⟨level, page, index, q⟩, hplace⟩ : ∃ p, locate t pt va = p := ⟨_, rfl⟩
  have hva : va % vaEnd < vaEnd := Nat.mod_lt _ (Nat.two_pow_pos 48)
  have hstop := stops t pt (va % vaEnd)
  rw [locate_mod, hplace] at hstop
  obtain rfl : index = pageindex (va % vaEnd) level := hstop.index
  have hplace' : locate t pt (va % vaEnd) = _ := (locate_mod t pt va).trans hplace
  have habsent : level ≠ 0 → (t page (pageindex (va % vaEnd) level)).present = false := by
    intro hne
    refine Bool.eq_false_iff.mpr fun hpresent => hlarge ⟨?_, ?_⟩
    · rw [hplace]
      exact Nat.pos_of_ne_zero hne
    · rw [mk'_eq, hplace]
      exact hpresent
  have hperm : perm &&& pteP ≠ 0#12 := by
    rw [hp]
    decide
  have hassert : va % pageSize = 0 ∧ (if perm &&& pteP ≠ 0#12 then pa % pageSize = 0 ∧ pa < paEnd
      else pa % 2 = 0) ∧ perm &&& ~~~q &&& ptePWU = 0#12 := by
    rw [if_pos hperm]
    rw [hplace] at hpath
    exact ⟨halign, ⟨hpa, hlt⟩, hpath⟩
  obtain ⟨t', s', ok, hloop, -, htrans⟩ := mapLoop_spec hp hpa hlt hva
    (Nat.lt_succ_of_le hstop.level) hs hplace' habsent (perm_le_path hassert.2.2)
  refine ⟨t', s', ok, ?_, ?_⟩
  · unfold map
    rw [mk'_eq, hplace, if_pos hassert, ← mapLoop_mod _ _ _ _ _ _ _ _ hstop.level]
    exact hloop
  · cases ok with
    | false =>
      intro x
      rw [← translation_mod t', ← translation_mod t]
      exact htrans _ (Nat.mod_lt _ (Nat.two_pow_pos 48))
    | true =>
      obtain ⟨⟨r, hr, hmapped⟩, -⟩ := htrans
      rw [hpwu] at hr
      rw [hr] at hmapped
      intro x
      have hmod : x % vaEnd % pageSize = x % pageSize := mod_span (Nat.zero_le 3)
      rw [← translation_mod t', ← translation_mod t, hmapped _ (Nat.mod_lt _ (Nat.two_pow_pos 48)),
        hmod]

/-- Pages in the order of their addresses. -/
def pagesFrom : PageSource Nat where
  kallocpage n := some (n + 1, some ((n + 1) * pageSize))
  Valid _ := True
  InUse n page := ∃ i ≤ n, page = i * pageSize
  spec n _ := by
    refine ⟨n + 1, _, rfl, trivial, fun page => ⟨?_, ?_⟩, ?_⟩
    · rintro ⟨i, hi, rfl⟩
      rcases Nat.le_succ_iff.mp hi with hi | rfl
      · exact .inr ⟨i, hi, rfl⟩
      · exact .inl rfl
    · rintro (hpage | ⟨i, hi, rfl⟩)
      · exact ⟨n + 1, Nat.le_refl _, (Option.some.inj hpage).symm⟩
      · exact ⟨i, Nat.le_succ_of_le hi, rfl⟩
    · rintro page hpage ⟨i, hi, rfl⟩
      have heq : n + 1 = i := Nat.eq_of_mul_eq_mul_right (by decide) (Option.some.inj hpage)
      exact absurd hi (heq ▸ Nat.not_succ_le_self n)

/-- In an empty page table there is the top page only. -/
theorem table_empty (h : table (fun _ _ => .zero) pt level va = some page) (hle : level ≤ 3) :
    level = 3 ∧ page = pt := by
  by_cases hlt : level < 3
  · have hnone : table (fun _ _ => .zero) pt 2 va = none := by
      rw [table_succ (by decide)]
      rfl
    rw [table_none (Nat.le_of_lt_succ hlt) (by decide) hnone] at h
    cases h
  · obtain rfl : level = 3 := Nat.le_antisymm hle (Nat.le_of_not_lt hlt)
    exact ⟨rfl, (Option.some.inj h).symm⟩

theorem tree_empty (pt : Nat) {top : Nat} (htop : top ≤ vaEnd) :
    Tree (fun _ _ => .zero) pt top := by
  intro level hle level' hle' va hva va' hva' page hpage hpage'
  obtain ⟨rfl, rfl⟩ := table_empty hpage hle
  obtain ⟨rfl, -⟩ := table_empty hpage' hle'
  have hone : ∀ x < top, x / span 4 = 0 := fun x hx => Nat.div_eq_of_lt (Nat.lt_of_lt_of_le hx htop)
  exact ⟨rfl, (hone va hva).trans (hone va' hva').symm⟩

/-- A page table with one page mapped, and the pages it takes. -/
def oneUserPage : Tables :=
  setEntry (addTable (addTable (addTable (fun _ _ => .zero) 0x1000 0 0x3000) 0x3000 0 0x4000) 0x4000
    0 0x5000) 0x5000 3 ⟨0x2000, ptePWU⟩

theorem map_oneUserPage :
    map pagesFrom.kallocpage (fun _ _ => .zero) 2 (Vmiter.mk' (fun _ _ => .zero) 0x1000 0x3000)
      0x2000 ptePWU = some (oneUserPage, 5, true) := rfl

theorem oneUserPage_spec (htop : top ≤ vaEnd) (hva : 0x3000 < top) :
    Space pagesFrom oneUserPage 0x1000 top 5 ∧
    ∃ r, Mapped (fun _ _ => .zero) oneUserPage 0x1000 top 0x3000 0x2000 r := by
  have hspace : Space pagesFrom (fun _ _ => .zero) 0x1000 top 2 := by
    refine ⟨trivial, tree_empty 0x1000 htop, ?_⟩
    rintro page ⟨level, hle, va, -, hpage⟩
    obtain ⟨-, rfl⟩ := table_empty hpage hle
    exact ⟨1, by decide, rfl⟩
  obtain ⟨-, hg, ⟨r, -, hmapped⟩, -⟩ := map_spec hspace hva (by decide) map_oneUserPage
  exact ⟨hg.space, _, hmapped⟩

/-- The page after the one that is mapped, in the same page of the table. -/
theorem map_changes_one_beside : ∃ t' s' ok,
    map pagesFrom.kallocpage oneUserPage 5 (Vmiter.mk' oneUserPage 0x1000 0x4000) 0x7000 ptePWU =
    some (t', s', ok) ∧
      if ok = true then
        ∀ x, translation t' 0x1000 x = if x % vaEnd / pageSize = 0x4000 % vaEnd / pageSize then
          (some (0x7000 + x % pageSize), ptePWU, true) else translation oneUserPage 0x1000 x
      else ∀ x, translation t' 0x1000 x = translation oneUserPage 0x1000 x :=
  map_changes_one pagesFrom (oneUserPage_spec (Nat.le_refl vaEnd) (by decide)).1 (by decide)
    (fun h => absurd h.2 (by decide)) (by decide) (by decide) (by decide) (by decide) (by decide)

end Table

/-- An allocator with `kfree`: the pages it has given out are in use, and can be freed. -/
structure Allocator (σ : Type) extends PageSource σ where
  kfree : σ → Nat → Option σ
  Live : σ → Nat → Prop
  live_inUse : ∀ s page, Live s page → InUse s page
  live_alloc : ∀ s s' r, Valid s → kallocpage s = some (s', r) → ∀ page, Live s' page ↔
    r = some page ∨ Live s page
  kfree_spec : ∀ s page, Valid s → Live s page → ∃ s', kfree s page = some s' ∧ Valid s' ∧
    (∀ pg, InUse s' pg ↔ InUse s pg ∧ pg ≠ page) ∧ ∀ pg, Live s' pg ↔ Live s pg ∧ pg ≠ page

/-- A page that is handed out is one the allocator manages. -/
theorem avail_of_live {avail : Nat → Prop} {s : KAlloc.State} {live : List Nat} {page : Nat}
    (h : KAlloc.Inv avail s live) (hmem : page ∈ live) : avail (page / pageSize) := by
  obtain ⟨p, rfl, hhead, -⟩ := h.live_head page hmem
  have hdiv : p * PugOS.pageSize / pageSize = p := Nat.mul_div_cancel p KAlloc.pageSize_pos
  rw [hdiv]
  exact (h.cover p).mpr ⟨p, hhead, Nat.le_refl p,
    Nat.lt_add_of_pos_right (KAlloc.State.size_pos s p), .inr hmem⟩

/-- The allocator of the kernel.  Pages it does not manage, such as the console's, are in use. -/
def heapSource (avail : Nat → Prop) : PageSource KAlloc.Heap where
  kallocpage h := (KAlloc.kalloc h.alloc pageSize).map fun r => (⟨r.1, r.2.toList ++ h.live⟩, r.2)
  Valid h := KAlloc.Inv avail h.alloc h.live
  InUse h page := page ∈ h.live ∨ ¬ avail (page / pageSize)
  spec h hinv := by
    obtain ⟨t, r, hrun, hinv'⟩ := KAlloc.kalloc_inv hinv pageSize
    refine ⟨⟨t, r.toList ++ h.live⟩, r, by rw [hrun]; rfl, hinv', fun page => ?_,
      fun page hpage hin => ?_⟩
    · rw [List.mem_append, Option.mem_toList, or_assoc]
    · have hnodup := hinv'.live_nodup
      have hmem : page ∈ r.toList ++ h.live := by
        rw [hpage]
        exact List.mem_cons_self
      rcases hin with hin | hout
      · rw [hpage] at hnodup
        exact (List.nodup_cons.mp hnodup).1 hin
      · exact hout (avail_of_live hinv' hmem)

def heapAllocator (avail : Nat → Prop) : Allocator KAlloc.Heap where
  toPageSource := heapSource avail
  kfree h page := (KAlloc.kfree h.alloc (some page)).map fun t => ⟨t, h.live.erase page⟩
  Live h page := page ∈ h.live
  live_inUse _ _ h := .inl h
  live_alloc h h' r _ hrun page := by
    obtain ⟨⟨t, r'⟩, -, heq⟩ := Option.map_eq_some_iff.mp hrun
    cases heq
    rw [List.mem_append, Option.mem_toList]
  kfree_spec h page hinv hlive := by
    obtain ⟨t, hrun, hinv'⟩ := KAlloc.kfree_inv hinv hlive
    have hmem : ∀ pg, pg ∈ h.live.erase page ↔ pg ∈ h.live ∧ pg ≠ page := fun pg => by
      rw [hinv.live_nodup.mem_erase_iff, and_comm]
    refine ⟨⟨t, h.live.erase page⟩, by rw [hrun]; rfl, hinv', fun pg => ?_, hmem⟩
    change pg ∈ h.live.erase page ∨ ¬ avail (pg / pageSize) ↔
      (pg ∈ h.live ∨ ¬ avail (pg / pageSize)) ∧ pg ≠ page
    rw [hmem, or_and_right]
    refine or_congr_right (iff_self_and.mpr fun hout heq => hout ?_)
    rw [heq]
    exact avail_of_live hinv hlive

end PugOS.PageTable
