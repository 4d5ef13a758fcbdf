import Mathlib.Algebra.Group.Nat.Defs
import Mathlib.Data.List.Sort

/-! # Symbol lookup

`elf_info::sort_symtab` of the build tool sorts the symbol table, and the kernel's `lookup_symbol`
bisects it.

The tool's order has the special symbols first, at whatever addresses they are, and a symbol of size
zero counts up to its successor.  The bisection compares addresses only.  So it is led to a symbol
just where every midpoint on the way points there (`Guided`), and then it returns the symbol
(`lookupSymbol_iff`).  Where the symbols that are not special do not overlap, only the symbols of
size 0 on the way can mislead it (`clear_iff`), and in a table of functions nothing does
(`lookup_functions`).
-/
namespace PugOS.Symtab

/-- What the lookup and the order use of an `elf_symbol`; `name` is the string at `st_name`. -/
structure Sym where
  name : List UInt8
  info : Nat
  value : Nat
  size : Nat
  deriving DecidableEq

/-- `ELF_STT_FUNC`. -/
def sttFunc : Nat := 2

/-- `(st_info & ELF_STT_MASK) > ELF_STT_FUNC`. -/
def Sym.special (s : Sym) : Bool := sttFunc < s.info % 16

def symbolLess (a b : Sym) : Bool :=
  if a.special ∨ b.special then a.special ∧ ¬b.special
  else a.value < b.value ∨ a.value = b.value ∧ a.size < b.size

/-- The search of `sort_symtab` for a symbol that is less than the one before it. -/
def inOrder : List Sym → Bool
  | a :: b :: rest => ¬symbolLess b a ∧ inOrder (b :: rest)
  | _ => true

/-- `sort_symtab`: the first symbol stays where it is. -/
def sortSymtab : List Sym → List Sym
  | [] => []
  | first :: rest =>
    first :: if inOrder rest then rest else rest.mergeSort fun a b => ¬symbolLess b a

section Lookup
variable (syms : Array Sym) (addr : Nat)

/-- The test on the symbol at a midpoint. -/
def hits (m : Nat) (sym : Sym) : Bool :=
  sym.value ≤ addr ∧
    if sym.size ≠ 0 then addr < (sym.value + sym.size) % 2 ^ 64
    else m + 1 = syms.size ∨ ∀ next ∈ syms[m + 1]?, addr < next.value

/-- The loop of `lookup_symbol`: the place of the symbol it finds. -/
def lookupLoop : Nat → Nat → Nat → Option Nat
  | 0, _, _ => none
  | fuel + 1, l, r =>
    if l < r then
      let m := l + (r - l) / 2
      match syms[m]? with
      | none => none
      | some sym =>
        if hits syms addr m sym then some m
        else if sym.value < addr then lookupLoop fuel (m + 1) r
        else lookupLoop fuel l m
    else none

/-- `lookup_symbol`: the name and the start address. -/
def lookupSymbol : Option (List UInt8 × Nat) :=
  (lookupLoop syms addr (syms.size + 1) 0 syms.size).bind fun m => syms[m]?.map fun sym =>
    (sym.name, sym.value)

end Lookup

/-! ## The way to a symbol -/

/-- The midpoints of the bisection of `[l, r)` on the way to `k`. -/
def midpoints (k : Nat) : Nat → Nat → Nat → List Nat
  | 0, _, _ => []
  | fuel + 1, l, r =>
    let m := l + (r - l) / 2
    if m = k then []
    else if m < k then m :: midpoints k fuel (m + 1) r
    else m :: midpoints k fuel l m

section Guided
variable (syms : Array Sym) (addr : Nat)

/-- The symbol at `m` does not end the search and sends it to the side of `k`. -/
def PointsTo (k m : Nat) : Prop :=
  ∀ sym ∈ syms[m]?, hits syms addr m sym = false ∧ (sym.value < addr ↔ m < k)

/-- Every midpoint before `k` points there. -/
def Clear (k : Nat) : Prop := ∀ m ∈ midpoints k (syms.size + 1) 0 syms.size, PointsTo syms addr k m

/-- The address is in the symbol at `k`, as the lookup reads it, and the way there is clear. -/
def Guided (k : Nat) : Prop := (∃ sym ∈ syms[k]?, hits syms addr k sym = true) ∧ Clear syms addr k

end Guided

section Search
variable {syms : Array Sym} {addr : Nat}

/-- The search stays in its range. -/
theorem lookupLoop_bounds : ∀ {fuel l r m : Nat}, lookupLoop syms addr fuel l r = some m →
    l ≤ m ∧ m < r := by
  intro fuel
  induction fuel with
  | zero => exact fun h => by cases h
  | succ fuel ih =>
    intro l r m h
    rw [lookupLoop] at h
    by_cases hlr : l < r
    · rw [if_pos hlr] at h
      dsimp only at h
      split at h
      · cases h
      · split_ifs at h with hhit hless
        · cases h
          omega
        · have := ih h
          omega
        · have := ih h
          omega
    · rw [if_neg hlr] at h
      cases h

/-- The search of a range in which `k` is finds it just if it is guided there. -/
theorem lookupLoop_iff {k : Nat} {sym : Sym} (hsym : syms[k]? = some sym) :
    ∀ {fuel l r : Nat}, l ≤ k → k < r → r ≤ syms.size → r - l ≤ fuel →
    (lookupLoop syms addr fuel l r = some k ↔
      hits syms addr k sym = true ∧ ∀ m ∈ midpoints k fuel l r, PointsTo syms addr k m) := by
  intro fuel
  induction fuel with
  | zero => intro l r hl hr _ hfuel; omega
  | succ fuel ih =>
    intro l r hl hr hsize hfuel
    obtain ⟨s, hs⟩ : ∃ s, syms[l + (r - l) / 2]? = some s :=
      ⟨_, Array.getElem?_eq_getElem (by omega)⟩
    rw [lookupLoop, if_pos (by omega), midpoints]
    dsimp only
    rw [hs]
    dsimp only
    by_cases hmid : l + (r - l) / 2 = k
    · -- the midpoint is the symbol
      rw [hmid, hsym] at hs
      cases hs
      rw [if_pos hmid, hmid]
      by_cases hhit : hits syms addr k sym = true
      · rw [if_pos hhit]
        exact ⟨fun _ => ⟨hhit, fun m hm => absurd hm List.not_mem_nil⟩, fun _ => rfl⟩
      · rw [if_neg hhit]
        refine iff_of_false (fun h => ?_) (fun h => hhit h.1)
        split at h
        · have := lookupLoop_bounds h
          omega
        · have := lookupLoop_bounds h
          omega
    rw [if_neg hmid]
    by_cases hhit : hits syms addr (l + (r - l) / 2) s = true
    · -- the search ends at another symbol
      rw [if_pos hhit]
      refine iff_of_false (fun h => hmid (Option.some.inj h)) (fun h => ?_)
      have hpoints : PointsTo syms addr k (l + (r - l) / 2) := by
        refine h.2 _ ?_
        split <;> exact List.mem_cons_self
      exact Bool.false_ne_true ((hpoints s hs).1.symm.trans hhit)
    rw [if_neg hhit]
    have hpoints : (s.value < addr ↔ l + (r - l) / 2 < k) →
        PointsTo syms addr k (l + (r - l) / 2) := by
      intro hside s' hs'
      rw [hs] at hs'
      cases hs'
      exact ⟨Bool.eq_false_iff.mpr hhit, hside⟩
    by_cases hless : s.value < addr
    · rw [if_pos hless]
      by_cases hside : l + (r - l) / 2 < k
      · rw [if_pos hside, ih (by omega) hr hsize (by omega), List.forall_mem_cons]
        have := hpoints (iff_of_true hless hside)
        tauto
      · rw [if_neg hside]
        refine iff_of_false (fun h => ?_) (fun h => ?_)
        · have := lookupLoop_bounds h
          omega
        · exact hside (((h.2 _ List.mem_cons_self) s hs).2.mp hless)
    · rw [if_neg hless]
      by_cases hside : l + (r - l) / 2 < k
      · rw [if_pos hside]
        refine iff_of_false (fun h => ?_) (fun h => ?_)
        · have := lookupLoop_bounds h
          omega
        · exact hless (((h.2 _ List.mem_cons_self) s hs).2.mpr hside)
      · rw [if_neg hside, ih hl (by omega) (by omega) (by omega), List.forall_mem_cons]
        have := hpoints (iff_of_false hless hside)
        tauto

/-- The search finds a symbol just if it is guided there. -/
theorem search_iff {k : Nat} : lookupLoop syms addr (syms.size + 1) 0 syms.size = some k ↔
    Guided syms addr k := by
  by_cases hk : k < syms.size
  · have hsym : syms[k]? = some syms[k] := Array.getElem?_eq_getElem hk
    rw [lookupLoop_iff hsym (Nat.zero_le k) hk (le_refl _) (by omega), Guided, Clear, hsym]
    simp
  · refine iff_of_false (fun h => hk (lookupLoop_bounds h).2) (fun h => ?_)
    obtain ⟨⟨sym, hsym, -⟩, -⟩ := h
    rw [Array.getElem?_eq_none (by omega)] at hsym
    cases hsym

theorem lookupSymbol_eq_iff {name : List UInt8} {start : Nat} :
    lookupSymbol syms addr = some (name, start) ↔ ∃ k sym, syms[k]? = some sym ∧ sym.name = name ∧
    sym.value = start ∧ Guided syms addr k := by
  rw [lookupSymbol, Option.bind_eq_some_iff]
  constructor
  · rintro ⟨k, hk, hfound⟩
    obtain ⟨sym, hsym, heq⟩ := Option.map_eq_some_iff.mp hfound
    cases heq
    exact ⟨k, sym, hsym, rfl, rfl, search_iff.mp hk⟩
  · rintro ⟨k, sym, hsym, rfl, rfl, hguided⟩
    exact ⟨k, search_iff.mpr hguided, by rw [hsym, Option.map_some]⟩

end Search

/-- The address is in `[st_value, st_value + st_size)`, for a size other than 0. -/
def Sym.covers (s : Sym) (addr : Nat) : Bool :=
  s.size ≠ 0 ∧ s.value ≤ addr ∧ addr < s.value + s.size

/-- A symbol of size 0 that the lookup takes for `sym`: it has the name and the start address, and
its successor, if there is one, is above the address. -/
def Stand (syms : Array Sym) (addr : Nat) (sym : Sym) (j : Nat) : Prop :=
  ∃ s ∈ syms[j]?, s.name = sym.name ∧ s.value = sym.value ∧ s.size = 0 ∧
    (j + 1 = syms.size ∨ ∀ next ∈ syms[j + 1]?, addr < next.value)

/-- **The lookup finds the covering symbol** of an address that is in one symbol of the sorted
table, with its name and start address, if and only if the way to the symbol is clear and the symbol
does not end past the last address, or the way to a symbol of size 0 that stands for it is clear. -/
theorem lookupSymbol_iff {table : List Sym} {addr : Nat} {sym : Sym}
    (hone : (sortSymtab table).filter (·.covers addr) = [sym]) :
    lookupSymbol (sortSymtab table).toArray addr = some (sym.name, sym.value) ↔
      (∃ k, (sortSymtab table)[k]? = some sym ∧ addr < (sym.value + sym.size) % 2 ^ 64 ∧
        Clear (sortSymtab table).toArray addr k) ∨
      ∃ j, Stand (sortSymtab table).toArray addr sym j ∧
      Clear (sortSymtab table).toArray addr j := by
  have hmem : sym ∈ (sortSymtab table).filter (·.covers addr) := by
    rw [hone]
    exact List.mem_singleton_self sym
  have hsym := (List.mem_filter.mp hmem).2
  obtain ⟨hsize, hlo, -⟩ := of_decide_eq_true hsym
  rw [lookupSymbol_eq_iff]
  constructor
  · rintro ⟨j, s, hs, hname, hvalue, ⟨s', hs', hhit⟩, hclear⟩
    rw [hs] at hs'
    cases hs'
    obtain ⟨hstart, hend⟩ := of_decide_eq_true hhit
    by_cases hzero : s.size = 0
    · rw [if_neg (not_not.mpr hzero)] at hend
      exact Or.inr ⟨j, ⟨s, hs, hname, hvalue, hzero, hend⟩, hclear⟩
    · -- a symbol with a size covers the address, and there is one only
      rw [if_pos hzero] at hend
      have hmod := Nat.mod_le (s.value + s.size) (2 ^ 64)
      have hcovers : s.covers addr = true := decide_eq_true ⟨hzero, hstart, by omega⟩
      rw [List.getElem?_toArray] at hs
      have hmem : s ∈ (sortSymtab table).filter (·.covers addr) :=
        List.mem_filter.mpr ⟨List.mem_of_getElem? hs, hcovers⟩
      rw [hone, List.mem_singleton] at hmem
      subst hmem
      exact Or.inl ⟨j, hs, hend, hclear⟩
  · rintro (⟨k, hk, hend, hclear⟩ | ⟨j, ⟨s, hs, hname, hvalue, hzero, hend⟩, hclear⟩)
    · have hk' : (sortSymtab table).toArray[k]? = some sym := by rw [List.getElem?_toArray, hk]
      refine ⟨k, sym, hk', rfl, rfl, ⟨sym, hk', decide_eq_true ⟨hlo, ?_⟩⟩, hclear⟩
      rw [if_pos hsize]
      exact hend
    · refine ⟨j, s, hs, hname, hvalue, ⟨s, hs, decide_eq_true ⟨by omega, ?_⟩⟩, hclear⟩
      rw [if_neg (not_not.mpr hzero)]
      exact hend

/-- A null symbol and the functions `f` at 0x1000 and `g` at 0x2000. -/
def twoFunctions : List Sym := [⟨[], 0, 0, 0⟩, ⟨[102], 2, 0x1000, 0x100⟩, ⟨[103], 2, 0x2000, 0x100⟩]

/-- The lookup of an address of `g` finds it: the one midpoint before is `f`'s, and `f` is below. -/
theorem lookupSymbol_iff_twoFunctions : lookupSymbol (sortSymtab twoFunctions).toArray 0x2010 =
    some ([103], 0x2000) := by
  have hsorted : sortSymtab twoFunctions = twoFunctions := rfl
  refine (@lookupSymbol_iff twoFunctions 0x2010 ⟨[103], 2, 0x2000, 0x100⟩ rfl).mpr
    (Or.inl ⟨2, rfl, by decide, ?_⟩)
  rw [hsorted]
  intro m hm sym hsym
  have hpath : m ∈ [1] := hm
  rw [List.mem_singleton] at hpath
  subst hpath
  cases hsym
  decide

/-- The sections `.text` at 0x1000 and `.data` at 0x8000, whose symbols come first, and the
functions `f` at 0x2000 and `g` at 0x3000. -/
def withSections : List Sym :=
  [⟨[], 0, 0, 0⟩, ⟨[46, 116], 3, 0x1000, 0⟩, ⟨[46, 100], 3, 0x8000, 0⟩, ⟨[102], 2, 0x2000, 0x100⟩,
    ⟨[103], 2, 0x3000, 0x100⟩]

/-- The table is in the tool's order and 0x2010 is in `f` only, and the lookup returns `.text`. -/
theorem lookup_withSections : sortSymtab withSections = withSections ∧
    (sortSymtab withSections).filter (·.covers 0x2010) = [⟨[102], 2, 0x2000, 0x100⟩] ∧
    lookupSymbol (sortSymtab withSections).toArray 0x2010 = some ([46, 116], 0x1000) := by
  decide

/-! ## Tables in the tool's order -/

theorem symbolLess_functions {a b : Sym} (ha : a.special = false) (hb : b.special = false) :
    symbolLess a b = true ↔ a.value < b.value ∨ a.value = b.value ∧ a.size < b.size := by
  unfold symbolLess
  rw [if_neg (by simp [ha, hb]), decide_eq_true_iff]

/-- `symbol_less` orders. -/
theorem not_symbolLess_trans {a b c : Sym} (h₁ : ¬symbolLess b a = true)
    (h₂ : ¬symbolLess c b = true) : ¬symbolLess c a = true := by
  unfold symbolLess at *
  cases ha : a.special <;> cases hb : b.special <;> cases hc : c.special <;>
    simp [ha, hb, hc] at h₁ h₂ ⊢
  omega

theorem not_symbolLess_total (a b : Sym) : ¬symbolLess b a = true ∨ ¬symbolLess a b = true := by
  unfold symbolLess
  cases a.special <;> cases b.special <;> simp
  omega

theorem inOrder_pairwise : ∀ {l : List Sym}, inOrder l = true → l.Pairwise fun a b =>
    ¬symbolLess b a = true := by
  intro l
  induction l with
  | nil => exact fun _ => .nil
  | cons a l ih =>
    intro h
    cases l with
    | nil => exact List.pairwise_singleton _ _
    | cons b l =>
      obtain ⟨hab, hrest⟩ := of_decide_eq_true h
      have hsorted := ih hrest
      refine List.pairwise_cons.mpr ⟨fun c hc => ?_, hsorted⟩
      rcases List.mem_cons.mp hc with rfl | hc
      · exact hab
      · exact not_symbolLess_trans hab ((List.pairwise_cons.mp hsorted).1 c hc)

/-- The symbols after the first are in order. -/
theorem sortSymtab_sorted (first : Sym) (rest : List Sym) :
    ∃ l, sortSymtab (first :: rest) = first :: l ∧ l.Perm rest ∧ l.Pairwise fun a b =>
      ¬symbolLess b a = true := by
  rw [sortSymtab]
  by_cases h : inOrder rest = true
  · rw [if_pos h]
    exact ⟨rest, rfl, .refl _, inOrder_pairwise h⟩
  · rw [if_neg h]
    refine ⟨_, rfl, List.mergeSort_perm _ _, ?_⟩
    have hsorted := @List.pairwise_mergeSort _ (fun a b => decide ¬symbolLess b a = true)
      (fun a b c h₁ h₂ =>
        decide_eq_true (not_symbolLess_trans (of_decide_eq_true h₁) (of_decide_eq_true h₂)))
      (fun a b => by simpa using not_symbolLess_total a b) rest
    exact hsorted.imp fun h => of_decide_eq_true h

/-- A table with a null symbol, special symbols of size 0, and other symbols that do not overlap. -/
structure Apart (first : Sym) (rest : List Sym) : Prop where
  null : first.value = 0 ∧ first.size = 0
  special : ∀ s ∈ rest, s.special = true → s.size = 0
  bounded : ∀ s ∈ rest, s.value + s.size < 2 ^ 64
  apart : rest.Pairwise fun a b =>
    a.special = true ∨ b.special = true ∨ a.value + a.size ≤ b.value ∨ b.value + b.size ≤ a.value

theorem Apart.perm {first : Sym} {rest l : List Sym} (h : Apart first rest) (hl : l.Perm rest) :
    Apart first l where
  null := h.null
  special s hs := h.special s (hl.mem_iff.mp hs)
  bounded s hs := h.bounded s (hl.mem_iff.mp hs)
  apart := (hl.pairwise_iff fun {_ _} h => by tauto).mpr h.apart

/-- Every symbol of size 0 on the way to `k`, before it, is below the address, and its successor is
not above. -/
def Below (syms : Array Sym) (addr k : Nat) : Prop :=
  ∀ m ∈ midpoints k (syms.size + 1) 0 syms.size, m < k → ∀ s ∈ syms[m]?, s.size = 0 →
    s.value < addr ∧ ∀ next ∈ syms[m + 1]?, next.value ≤ addr

theorem midpoints_ne {k : Nat} : ∀ {fuel l r m : Nat}, m ∈ midpoints k fuel l r → m ≠ k := by
  intro fuel
  induction fuel with
  | zero => exact fun h => absurd h List.not_mem_nil
  | succ fuel ih =>
    intro l r m h
    rw [midpoints] at h
    split_ifs at h with hmid hside
    · exact absurd h List.not_mem_nil
    · rcases List.mem_cons.mp h with rfl | h
      · exact hmid
      · exact ih h
    · rcases List.mem_cons.mp h with rfl | h
      · exact hmid
      · exact ih h

section Order
variable {first : Sym} {l : List Sym} {addr i j k : Nat}

/-- The special symbols come first. -/
theorem special_first (hsorted : l.Pairwise fun a b => ¬symbolLess b a = true) (hij : i < j)
    (hi : i < l.length) (hj : j < l.length) (hplain : l[i].special = false) :
    l[j].special = false := by
  have hless := List.pairwise_iff_getElem.mp hsorted i j hi hj hij
  rw [Bool.eq_false_iff]
  intro hspecial
  refine hless ?_
  rw [symbolLess, if_pos (Or.inl hspecial), decide_eq_true_iff, hplain]
  exact ⟨hspecial, Bool.false_ne_true⟩

/-- In order, a symbol that is not special ends before the next ones start. -/
theorem Apart.before (h : Apart first l) (hsorted : l.Pairwise fun a b => ¬symbolLess b a = true)
    (hij : i < j) (hi : i < l.length) (hj : j < l.length) (hplain : l[i].special = false) :
    l[i].value + l[i].size ≤ l[j].value := by
  have hless := List.pairwise_iff_getElem.mp hsorted i j hi hj hij
  have hapart := List.pairwise_iff_getElem.mp h.apart i j hi hj hij
  have hplain' := special_first hsorted hij hi hj hplain
  rw [symbolLess_functions hplain' hplain] at hless
  rw [hplain, hplain'] at hapart
  rcases hapart with hapart | hapart | hapart | hapart
  · cases hapart
  · cases hapart
  · exact hapart
  · omega

/-- A symbol with a size does not match an address that it does not cover. -/
theorem hits_eq_false {syms : Array Sym} {m : Nat} {s : Sym} (hsize : s.size ≠ 0)
    (hbound : s.value + s.size < 2 ^ 64) (hout : addr < s.value ∨ s.value + s.size ≤ addr) :
    hits syms addr m s = false := by
  refine decide_eq_false fun hhit => ?_
  obtain ⟨hlo, hhi⟩ := hhit
  rw [if_pos hsize, Nat.mod_eq_of_lt hbound] at hhi
  omega

/-- A symbol of size 0 with a successor matches the addresses from it on that are below the
successor. -/
theorem hits_empty {syms : Array Sym} {m : Nat} {s next : Sym} (hsize : s.size = 0)
    (hnext : syms[m + 1]? = some next) :
    hits syms addr m s = false ↔ (s.value ≤ addr → next.value ≤ addr) := by
  have hlt := (Array.getElem?_eq_some_iff.mp hnext).1
  rw [hits, decide_eq_false_iff_not, if_neg (not_not.mpr hsize), hnext, not_and]
  simp only [Option.mem_some_iff, forall_eq', not_or, Nat.not_lt]
  exact imp_congr_right fun _ => and_iff_right (by omega)

/-- **The way to a symbol that covers the address is clear** just if the symbols of size 0 on it, up
to the symbol, are below the address, each with its successor. -/
theorem clear_iff (h : Apart first l) (hsorted : l.Pairwise fun a b => ¬symbolLess b a = true)
    (hk : k < l.length) (hcovers : l[k].covers addr = true) :
    Clear (first :: l).toArray addr (k + 1) ↔ Below (first :: l).toArray addr (k + 1) := by
  obtain ⟨hsize, hlo, hhi⟩ := of_decide_eq_true hcovers
  have hplain : l[k].special = false :=
    Bool.eq_false_iff.mpr fun hspecial => hsize (h.special _ (List.getElem_mem hk) hspecial)
  refine forall₂_congr fun m hm => ?_
  have hne := midpoints_ne hm
  rcases Nat.lt_or_gt_of_ne hne with hlt | hgt
  · have hlen : (first :: l).toArray.size = l.length + 1 := rfl
    obtain ⟨s, hs⟩ : ∃ s, (first :: l).toArray[m]? = some s :=
      ⟨_, Array.getElem?_eq_getElem (by omega)⟩
    obtain ⟨next, hnext⟩ : ∃ next, (first :: l).toArray[m + 1]? = some next :=
      ⟨_, Array.getElem?_eq_getElem (by omega)⟩
    rw [PointsTo, hs, hnext]
    simp only [Option.mem_some_iff, forall_eq', hlt, true_imp_iff, iff_true]
    by_cases hzero : s.size = 0
    · rw [hits_empty hzero hnext]
      constructor
      · rintro ⟨hhit, hless⟩ -
        exact ⟨hless, hhit (Nat.le_of_lt hless)⟩
      · intro hbelow
        exact ⟨fun _ => (hbelow hzero).2, (hbelow hzero).1⟩
    · -- a symbol with a size, before this one
      refine iff_of_true ?_ fun hz => absurd hz hzero
      cases m with
      | zero =>
        cases hs
        exact absurd h.null.2 hzero
      | succ m =>
        rw [List.getElem?_toArray, List.getElem?_cons_succ] at hs
        obtain ⟨hm, rfl⟩ := List.getElem?_eq_some_iff.mp hs
        have hends := h.before hsorted (Nat.lt_of_succ_lt_succ hlt) hm hk
          (Bool.eq_false_iff.mpr fun hspecial => hzero (h.special _ (List.getElem_mem hm) hspecial))
        refine ⟨hits_eq_false hzero (h.bounded _ (List.getElem_mem hm)) (Or.inr (by omega)),
          by omega⟩
  · -- behind this symbol all is above the address
    refine iff_of_true (fun s hs => ?_) fun hlt => absurd hlt (Nat.lt_asymm hgt)
    obtain ⟨m, rfl⟩ := Nat.exists_eq_succ_of_ne_zero (Nat.ne_zero_of_lt hgt)
    rw [List.getElem?_toArray, List.getElem?_cons_succ] at hs
    obtain ⟨hm, rfl⟩ := List.getElem?_eq_some_iff.mp hs
    have hstarts := h.before hsorted (Nat.lt_of_succ_lt_succ hgt) hk hm hplain
    exact ⟨decide_eq_false fun hhit => by have := hhit.1; omega, by omega⟩

end Order

/-- In such a table, an address leads to the symbol that covers it if no symbol of size 0 is in the
way. -/
theorem lookup_apart {first : Sym} {rest : List Sym} {addr k : Nat} {sym : Sym}
    (h : Apart first rest) (hk : (sortSymtab (first :: rest))[k + 1]? = some sym)
    (hcovers : sym.covers addr = true)
    (hbelow : Below (sortSymtab (first :: rest)).toArray addr (k + 1)) :
    lookupSymbol (sortSymtab (first :: rest)).toArray addr = some (sym.name, sym.value) := by
  obtain ⟨l, hl, hperm, hsorted⟩ := sortSymtab_sorted first rest
  rw [hl] at hk hbelow ⊢
  have hl' := h.perm hperm
  obtain ⟨hsize, hlo, hhi⟩ := of_decide_eq_true hcovers
  have hsym : (first :: l).toArray[k + 1]? = some sym := by rw [List.getElem?_toArray, hk]
  rw [List.getElem?_cons_succ] at hk
  obtain ⟨hlt, rfl⟩ := List.getElem?_eq_some_iff.mp hk
  rw [lookupSymbol_eq_iff]
  refine ⟨k + 1, l[k], hsym, rfl, rfl, ⟨l[k], hsym, decide_eq_true ⟨hlo, ?_⟩⟩,
    (clear_iff hl' hsorted hlt hcovers).mpr hbelow⟩
  rw [if_pos hsize, Nat.mod_eq_of_lt (hl'.bounded _ (List.getElem_mem hlt))]
  exact hhi

/-- A table with a null symbol and functions that do not overlap. -/
structure Functions (first : Sym) (rest : List Sym) : Prop extends Apart first rest where
  sized : ∀ s ∈ rest, s.size ≠ 0

/-- In a table of functions, every address of a function but 0 leads to it. -/
theorem lookup_functions {first : Sym} {rest : List Sym} {addr : Nat} {sym : Sym}
    (h : Functions first rest) (haddr : 0 < addr) (hmem : sym ∈ rest)
    (hcovers : sym.covers addr = true) : lookupSymbol (sortSymtab (first :: rest)).toArray addr =
    some (sym.name, sym.value) := by
  obtain ⟨l, hl, hperm, hsorted⟩ := sortSymtab_sorted first rest
  obtain ⟨k, hk, rfl⟩ := List.getElem_of_mem (hperm.mem_iff.mpr hmem)
  refine @lookup_apart first rest addr k _ h.toApart ?_ hcovers ?_
  · rw [hl, List.getElem?_cons_succ, List.getElem?_eq_getElem hk]
  obtain ⟨-, hlo, -⟩ := of_decide_eq_true hcovers
  rw [hl]
  intro m _ hlt s hs hzero
  rw [List.getElem?_toArray] at hs
  cases m with
  | zero =>
    -- the null symbol, and the function after it
    cases hs
    refine ⟨by rw [h.null.1]; exact haddr, fun next hnext => ?_⟩
    rw [List.getElem?_toArray, List.getElem?_cons_succ] at hnext
    obtain ⟨hfirst, rfl⟩ := List.getElem?_eq_some_iff.mp hnext
    rcases Nat.eq_zero_or_pos k with rfl | hpos
    · exact hlo
    · have hplain : l[0].special = false := Bool.eq_false_iff.mpr fun hspecial =>
        h.sized _ (hperm.mem_iff.mp (List.getElem_mem hfirst))
          (h.special _ (hperm.mem_iff.mp (List.getElem_mem hfirst)) hspecial)
      have := (h.toApart.perm hperm).before hsorted hpos hfirst hk hplain
      omega
  | succ m =>
    rw [List.getElem?_cons_succ] at hs
    exact absurd hzero (h.sized _ (hperm.mem_iff.mp (List.mem_of_getElem? hs)))

end PugOS.Symtab
