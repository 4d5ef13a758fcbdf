import PugOS.MemRangeSet

/-! # The physical ranges the kernel starts with

`init_physical_ranges` (`k-init.cc`) sets the types of `physical_ranges` for the memory, the
devices and what the kernel itself occupies.  All of these begin and end at page boundaries
but one: the screen memory is 64000 bytes long, and its end is not rounded.

The sets all succeed (`initPhysicalRanges_spec`), and the type of an address depends on its
page alone, except inside the page the screen memory ends in (`typeOf_page`).
-/
namespace PugOS
open MemRangeSet

/-- `mem_kernel`, `mem_reserved` and `mem_console`. -/
def memKernel : Int := 2

/-- Types of memory. -/
def memReserved : Int := 3
def memConsole : Int := 4

/-- The ranges of device memory. -/
def paIoLowMin : Nat := 0xA0000
def paIoLowEnd : Nat := 0x100000
def paIoHighMin : Nat := 0xC0000000
def paIoHighEnd : Nat := 0x100000000

/-- `ktext2pa(console)`. -/
def consolePa : Nat := 0xB8000

/-- The start of the screen's memory. -/
def screenMemBase : Nat := 0xA0000

/-- `SCREEN_MEMSIZE`: the width times the height times the depth in bits, over 8. -/
def screenMemSize : Nat := 320 * 200 * 8 / 8

/-- `ROUNDDOWN(a, PAGESIZE)`. -/
def roundDown (a : Nat) : Nat := a / pageSize * pageSize

/-- `ROUNDUP(a, PAGESIZE)`. -/
def roundUp (a : Nat) : Nat := roundDown (a + pageSize - 1)

/-- Where the low data, the kernel image and the symbol table are in physical memory.  There
is no symbol table if its size is 0. -/
structure Placement where
  lowStart : Nat
  lowEnd : Nat
  kernelStart : Nat
  kernelEnd : Nat
  sym : Nat
  symSize : Nat
  low : lowStart ≤ lowEnd ∧ lowEnd ≤ memsizePhysical
  kernel : kernelStart ≤ kernelEnd ∧ kernelEnd ≤ memsizePhysical
  symtab : sym + symSize ≤ memsizePhysical

/-- A call of `physical_ranges.set`. -/
structure SetCall where
  first : Nat
  last : Nat
  type : Int

/-- The calls that do not depend on where the kernel is. -/
def deviceCalls : List SetCall :=
  [⟨0, memsizePhysical, memAvailable⟩,
   ⟨0, pageSize, memReserved⟩,
   ⟨paIoLowMin, paIoLowEnd, memReserved⟩,
   ⟨paIoHighMin, paIoHighEnd, memReserved⟩,
   ⟨consolePa, consolePa + pageSize, memConsole⟩,
   ⟨screenMemBase, screenMemBase + screenMemSize, memConsole⟩]

/-- The calls for what the kernel owns. -/
def Placement.kernelCalls (p : Placement) : List SetCall :=
  [⟨roundDown p.lowStart, roundUp p.lowEnd, memKernel⟩,
   ⟨roundDown p.kernelStart, roundUp p.kernelEnd, memKernel⟩] ++
    if p.symSize ≠ 0 then [⟨roundDown p.sym, roundUp (p.sym + p.symSize), memKernel⟩] else []

/-- The calls in order, whose results nobody looks at. -/
def MemRangeSet.setAll (m : MemRangeSet) : List SetCall → Option MemRangeSet
  | [] => some m
  | c :: l => (m.set 16 c.first c.last c.type).bind fun r => r.2.setAll l

/-- `init_physical_ranges`. -/
def initPhysicalRanges (p : Placement) : Option MemRangeSet :=
  (ofLimit 0x100000000).setAll (deviceCalls ++ p.kernelCalls)

/-! ## The sets succeed -/

section Sets
variable {m m' : MemRangeSet} {maxsize first last i j : Nat} {type : Int} {ok : Bool}

theorem split_n {addr : Nat} (h : m.split maxsize i addr = some m') : m'.n = m.n + 1 := by
  unfold MemRangeSet.split at h
  split at h
  · cases h
    rfl
  · cases h

theorem assign_n_le : (m.assign type i j).n ≤ m.n := by
  unfold MemRangeSet.assign
  dsimp only
  split
  · exact Nat.sub_le _ _
  · exact Nat.le_refl _

theorem extend_n : (m.extend first last type i j).1.n = m.n := by
  unfold MemRangeSet.extend
  split
  · rfl
  · split
    · rfl
    · rfl

theorem splitLeft_n {r : MemRangeSet × Nat × Nat} (h : m.splitLeft maxsize first i j = some r) :
    r.1.n ≤ m.n + 1 := by
  unfold MemRangeSet.splitLeft at h
  split at h
  · obtain ⟨m₁, hm₁, rfl⟩ := Option.map_eq_some_iff.mp h
    exact Nat.le_of_eq (split_n hm₁)
  · cases h
    exact Nat.le_succ _

theorem splitRight_n {r : MemRangeSet × Nat} (h : m.splitRight maxsize last j = some r) :
    r.1.n ≤ m.n + 1 := by
  unfold MemRangeSet.splitRight at h
  split at h
  · obtain ⟨m₁, hm₁, rfl⟩ := Option.map_eq_some_iff.mp h
    exact Nat.le_of_eq (split_n hm₁)
  · cases h
    exact Nat.le_succ _

theorem place_grows (h : m.place maxsize first last type i j = some (ok, m')) :
    m'.n ≤ m.n + 2 ∧ (m.n + 2 ≤ maxsize → ok = true) := by
  unfold MemRangeSet.place at h
  by_cases hfull : m.n + (if first ≠ m.first i then 1 else 0) + (if last ≠ m.first j then 1
    else 0) > maxsize
  · rw [if_pos hfull] at h
    cases h
    refine ⟨by omega, fun hroom => ?_⟩
    split at hfull <;> split at hfull <;> omega
  · rw [if_neg hfull] at h
    obtain ⟨⟨m₁, i₁, j₁⟩, h₁, h⟩ := Option.bind_eq_some_iff.mp h
    obtain ⟨⟨m₂, j₂⟩, h₂, h⟩ := Option.bind_eq_some_iff.mp h
    obtain ⟨-, -, h⟩ := Option.bind_eq_some_iff.mp h
    cases h
    have hn₁ := splitLeft_n h₁
    have hn₂ := splitRight_n h₂
    have hn : (m₂.assign type i₁ j₂).n ≤ m₂.n := assign_n_le
    dsimp only at hn₁ hn₂
    exact ⟨by omega, fun _ => rfl⟩

/-- A call adds two ranges at most, and has room if there is room for two. -/
theorem set_grows (h : m.set maxsize first last type = some (ok, m')) :
    m'.n ≤ m.n + 2 ∧ (m.n + 2 ≤ maxsize → ok = true) := by
  unfold MemRangeSet.set at h
  obtain ⟨-, -, h⟩ := Option.bind_eq_some_iff.mp h
  by_cases hempty : first = last
  · rw [if_pos hempty] at h
    cases h
    exact ⟨Nat.le_add_right _ _, fun _ => rfl⟩
  · rw [if_neg hempty] at h
    obtain ⟨i, -, h⟩ := Option.bind_eq_some_iff.mp h
    obtain ⟨-, -, h⟩ := Option.bind_eq_some_iff.mp h
    obtain ⟨-, -, h⟩ := Option.bind_eq_some_iff.mp h
    dsimp only at h
    have hgrow := place_grows h
    rwa [extend_n] at hgrow

end Sets
/-- The type of an address after the calls. -/
def typeAfter (l : List SetCall) (a : Nat) (t : Int) : Int :=
  l.foldl (fun t c => if c.first ≤ a ∧ a < c.last then c.type else t) t

theorem setAll_append (m : MemRangeSet) (l l' : List SetCall) :
    m.setAll (l ++ l') = (m.setAll l).bind fun m => m.setAll l' := by
  induction l generalizing m with
  | nil => rfl
  | cons c l ih =>
    rw [List.cons_append, MemRangeSet.setAll, MemRangeSet.setAll, Option.bind_assoc]
    exact congrArg _ (funext fun r => ih r.2)

/-- Calls for which there is room all set the types of their addresses. -/
theorem setAll_spec {l : List SetCall} : ∀ {m : MemRangeSet}, m.Validate 16 →
    (∀ c ∈ l, c.first ≤ c.last ∧ c.last ≤ m.limit) → m.n + 2 * l.length ≤ 16 →
    ∃ m', m.setAll l = some m' ∧ m'.Validate 16 ∧ m'.limit = m.limit ∧
      ∀ a < m.limit, ∀ t, m.typeAt a = some t → m'.typeAt a = some (typeAfter l a t) := by
  induction l with
  | nil => exact fun hv _ _ => ⟨_, rfl, hv, rfl, fun _ _ _ h => h⟩
  | cons c l ih =>
    intro m hv hargs hroom
    rw [List.length_cons] at hroom
    obtain ⟨hle, hlast⟩ := hargs c List.mem_cons_self
    obtain ⟨ok, m₁, hset, hsets⟩ : ∃ ok m₁, m.set 16 c.first c.last c.type = some (ok, m₁) ∧
        Sets 16 c.first c.last c.type m ok m₁ := set_spec hv hle hlast
    obtain ⟨hn, hok⟩ := set_grows hset
    obtain rfl : ok = true := hok (by omega)
    obtain ⟨m', hall, hv', hlim, htypes⟩ := ih hsets.validate
      (fun d hd => by rw [hsets.limit]; exact hargs d (List.mem_cons_of_mem c hd)) (by omega)
    refine ⟨m', ?_, hv', hlim.trans hsets.limit, fun a ha t ht => ?_⟩
    · rw [MemRangeSet.setAll, hset]
      exact hall
    · refine htypes a (by rw [hsets.limit]; exact ha) _ ?_
      rw [hsets.types a ha, ht]
      split
      · rename_i h
        exact (congrArg some (if_pos h.2)).symm
      · rename_i h
        exact (congrArg some (if_neg fun hc => h ⟨rfl, hc⟩)).symm

section Rounding
variable {a b : Nat}

theorem dvd_roundDown (a : Nat) : pageSize ∣ roundDown a := Nat.dvd_mul_left _ _

theorem roundDown_le (a : Nat) : roundDown a ≤ a := Nat.div_mul_le_self a pageSize

theorem le_roundUp (a : Nat) : a ≤ roundUp a := by
  unfold roundUp roundDown pageSize
  omega

theorem roundUp_le (h : a ≤ memsizePhysical) : roundUp a ≤ memsizePhysical := by
  unfold roundUp roundDown pageSize
  unfold memsizePhysical at *
  omega

end Rounding

namespace Placement
variable (p : Placement)

/-- What the kernel owns is inside physical memory, in whole pages. -/
structure KernelCall (c : SetCall) : Prop where
  le : c.first ≤ c.last
  last : c.last ≤ memsizePhysical
  pages : pageSize ∣ c.first ∧ pageSize ∣ c.last
  type : c.type = memKernel

theorem kernelCalls_spec : ∀ c ∈ p.kernelCalls, KernelCall c := by
  have hcall : ∀ a b, a ≤ b → b ≤ memsizePhysical →
      KernelCall ⟨roundDown a, roundUp b, memKernel⟩ :=
    fun a b hab hb => ⟨(roundDown_le a).trans (hab.trans (le_roundUp b)), roundUp_le hb,
      ⟨dvd_roundDown a, dvd_roundDown _⟩, rfl⟩
  intro c hc
  rcases List.mem_append.mp hc with hc | hc
  · rcases List.mem_cons.mp hc with rfl | hc
    · exact hcall _ _ p.low.1 p.low.2
    · rw [List.mem_singleton.mp hc]
      exact hcall _ _ p.kernel.1 p.kernel.2
  · split at hc
    · rw [List.mem_singleton.mp hc]
      exact hcall _ _ (Nat.le_add_right _ _) p.symtab
    · cases hc

theorem kernelCalls_length : p.kernelCalls.length ≤ 3 := by
  unfold kernelCalls
  split
  · exact Nat.le_refl _
  · exact Nat.le_succ _

/-- The type of an address. -/
def typeOf (a : Nat) : Int := typeAfter (deviceCalls ++ p.kernelCalls) a 0

/-- The address is in a page of the kernel. -/
def Owns (a : Nat) : Prop := ∃ c ∈ p.kernelCalls, c.first ≤ a ∧ a < c.last

instance (a : Nat) : Decidable (p.Owns a) :=
  inferInstanceAs (Decidable (∃ c ∈ p.kernelCalls, c.first ≤ a ∧ a < c.last))

end Placement

/-- The device sets make nine ranges. -/
theorem deviceRanges_n : ((ofLimit 0x100000000).setAll deviceCalls).map MemRangeSet.n = some 9 := by
  decide +kernel

theorem initPhysicalRanges_spec (p : Placement) : ∃ m, initPhysicalRanges p = some m ∧
    m.Validate 16 ∧ m.limit = 0x100000000 ∧ ∀ a < 0x100000000, m.typeAt a = some (p.typeOf a) := by
  have hv : (ofLimit 0x100000000).Validate 16 := ofLimit_validate (by decide) (by decide)
  obtain ⟨m₁, hm₁, hv₁, hlim₁, htypes₁⟩ := setAll_spec hv
    (show ∀ c ∈ deviceCalls, c.first ≤ c.last ∧ c.last ≤ 0x100000000 by decide) (by decide)
  have hn₁ : m₁.n = 9 := by
    have := deviceRanges_n
    rw [hm₁] at this
    exact Option.some.inj this
  have hlim₁ : m₁.limit = 0x100000000 := hlim₁
  have hlen := p.kernelCalls_length
  have hargs : ∀ c ∈ p.kernelCalls, c.first ≤ c.last ∧ c.last ≤ m₁.limit := by
    intro c hc
    have h := p.kernelCalls_spec c hc
    refine ⟨h.le, h.last.trans ?_⟩
    rw [hlim₁]
    decide
  obtain ⟨m, hm, hvm, hlim, htypes⟩ := setAll_spec hv₁ hargs (by omega)
  refine ⟨m, ?_, hvm, hlim.trans hlim₁, fun a ha => ?_⟩
  · rw [initPhysicalRanges, setAll_append, hm₁]
    exact hm
  · have hzero : (ofLimit 0x100000000).typeAt a = some 0 :=
      hv.valid.typeAt_eq Nat.one_pos (Nat.zero_le a) ha
    rw [htypes a (by rw [hlim₁]; exact ha) _ (htypes₁ a ha 0 hzero), Placement.typeOf, typeAfter,
      typeAfter, typeAfter, List.foldl_append]

/-! ## Types by page -/

/-- The page the screen memory ends in. -/
def screenEndPage : Nat := (screenMemBase + screenMemSize) / pageSize

section Types
variable {p : Placement} {a b : Nat} {t : Int} {l : List SetCall}

theorem typeAfter_congr (h : ∀ c ∈ l, (c.first ≤ a ∧ a < c.last ↔ c.first ≤ b ∧ b < c.last)) :
    typeAfter l a t = typeAfter l b t := by
  induction l generalizing t with
  | nil => rfl
  | cons c l ih =>
    rw [typeAfter, typeAfter, List.foldl_cons, List.foldl_cons,
      if_congr (h c List.mem_cons_self) rfl rfl]
    exact ih fun d hd => h d (List.mem_cons_of_mem c hd)

/-- A call for whole pages does the same to the addresses of one page. -/
theorem whole_pages {c : SetCall} (h : pageSize ∣ c.first ∧ pageSize ∣ c.last)
    (hab : a / pageSize = b / pageSize) : c.first ≤ a ∧ a < c.last ↔ c.first ≤ b ∧ b < c.last := by
  obtain ⟨⟨f, hf⟩, ⟨e, he⟩⟩ := h
  rw [hf, he]
  unfold pageSize at *
  omega

theorem typeAfter_kernel (h : ∀ c ∈ l, c.type = memKernel) :
    typeAfter l a t = if ∃ c ∈ l, c.first ≤ a ∧ a < c.last then memKernel else t := by
  induction l generalizing t with
  | nil => rfl
  | cons c l ih =>
    have ih' : ∀ t, typeAfter l a t = if ∃ c ∈ l, c.first ≤ a ∧ a < c.last then memKernel else t :=
      fun t => ih fun d hd => h d (List.mem_cons_of_mem c hd)
    rw [typeAfter, List.foldl_cons]
    rw [show List.foldl _ _ l = typeAfter l a (if c.first ≤ a ∧ a < c.last then c.type
      else t) from rfl, ih', h c List.mem_cons_self]
    by_cases hl : ∃ c ∈ l, c.first ≤ a ∧ a < c.last
    · rw [if_pos hl, if_pos ⟨hl.choose, List.mem_cons_of_mem c hl.choose_spec.1, hl.choose_spec.2⟩]
    · rw [if_neg hl]
      by_cases hc : c.first ≤ a ∧ a < c.last
      · rw [if_pos hc, if_pos ⟨c, List.mem_cons_self, hc⟩]
      · rw [if_neg hc, if_neg]
        rintro ⟨d, hd, hin⟩
        rcases List.mem_cons.mp hd with rfl | hd
        · exact hc hin
        · exact hl ⟨d, hd, hin⟩

theorem typeOf_eq (p : Placement) (a : Nat) :
    p.typeOf a = if p.Owns a then memKernel else typeAfter deviceCalls a 0 := by
  rw [Placement.typeOf, typeAfter, List.foldl_append]
  exact typeAfter_kernel fun c hc => (p.kernelCalls_spec c hc).type

theorem owns_page (hab : a / pageSize = b / pageSize) : p.Owns a ↔ p.Owns b :=
  exists_congr fun c => and_congr_right fun hc => whole_pages (p.kernelCalls_spec c hc).pages hab

theorem deviceType_page (hab : a / pageSize = b / pageSize) (hne : a / pageSize ≠ screenEndPage) :
    typeAfter deviceCalls a 0 = typeAfter deviceCalls b 0 := by
  refine typeAfter_congr fun c hc => ?_
  have hscreen : screenMemBase ≤ a ∧ a < screenMemBase + screenMemSize ↔
      screenMemBase ≤ b ∧ b < screenMemBase + screenMemSize := by
    unfold screenEndPage screenMemBase screenMemSize pageSize at *
    omega
  simp only [deviceCalls, List.mem_cons, List.not_mem_nil, or_false] at hc
  rcases hc with rfl | rfl | rfl | rfl | rfl | rfl
  · exact whole_pages (by decide) hab
  · exact whole_pages (by decide) hab
  · exact whole_pages (by decide) hab
  · exact whole_pages (by decide) hab
  · exact whole_pages (by decide) hab
  · exact hscreen

/-- The type of an address is that of its page, unless the screen memory ends in the page and
the kernel does not own it. -/
theorem typeOf_page (hab : a / pageSize = b / pageSize)
    (hne : a / pageSize ≠ screenEndPage ∨ p.Owns (screenMemBase + screenMemSize)) :
    p.typeOf a = p.typeOf b := by
  rw [typeOf_eq, typeOf_eq]
  by_cases hpage : a / pageSize = screenEndPage
  · have howns := hne.resolve_left fun h => h hpage
    rw [if_pos ((owns_page hpage).mpr howns), if_pos ((owns_page (hab ▸ hpage)).mpr howns)]
  · rw [deviceType_page hab hpage, if_congr (owns_page hab) rfl rfl]

/-- In the page the screen memory ends in. -/
theorem deviceType_screen (h : a / pageSize = screenEndPage) :
    typeAfter deviceCalls a 0 = if a < screenMemBase + screenMemSize then memConsole
      else memReserved := by
  have hlo : 0xAF000 ≤ a := by
    unfold screenEndPage screenMemBase screenMemSize pageSize at h
    omega
  have hhi : a < 0xB0000 := by
    unfold screenEndPage screenMemBase screenMemSize pageSize at h
    omega
  simp only [typeAfter, deviceCalls, List.foldl_cons, List.foldl_nil]
  rw [if_congr (show screenMemBase ≤ a ∧ a < screenMemBase + screenMemSize ↔
    a < screenMemBase + screenMemSize from and_iff_right (by unfold screenMemBase; omega)) rfl rfl]
  by_cases hscreen : a < screenMemBase + screenMemSize
  · rw [if_pos hscreen, if_pos hscreen]
  · rw [if_neg hscreen, if_neg hscreen, if_neg (by unfold consolePa; omega),
      if_neg (by unfold paIoHighMin; omega), if_pos (by unfold paIoLowMin paIoLowEnd; omega)]

/-- Available memory is physical memory. -/
theorem lt_of_available (h : p.typeOf a = memAvailable) : a < memsizePhysical := by
  rw [typeOf_eq] at h
  split at h
  · cases h
  · by_contra hge
    simp only [typeAfter, deviceCalls, List.foldl_cons, List.foldl_nil] at h
    rw [if_neg (show ¬ (0 ≤ a ∧ a < memsizePhysical) from fun hc => hge hc.2)] at h
    split at h
    · cases h
    · split at h
      · cases h
      · split at h
        · cases h
        · split at h
          · cases h
          · split at h
            · cases h
            · cases h

/-- Two addresses of one page are both available or neither is. -/
theorem available_page_iff (hab : a / pageSize = b / pageSize) :
    p.typeOf a = memAvailable ↔ p.typeOf b = memAvailable := by
  by_cases hpage : a / pageSize = screenEndPage
  · have hno : ∀ c, c / pageSize = screenEndPage → p.typeOf c ≠ memAvailable := by
      intro c hc h
      rw [typeOf_eq, deviceType_screen hc] at h
      split at h
      · cases h
      · split at h
        · cases h
        · cases h
    exact ⟨fun h => absurd h (hno a hpage), fun h => absurd h (hno b (hab ▸ hpage))⟩
  · rw [typeOf_page hab (.inl hpage)]

end Types

/-! ## The ranges -/

section Ranges
variable {p : Placement} {m : MemRangeSet} {i : Nat}

/-- `physical_ranges` after `init_physical_ranges`. -/
structure Initial (p : Placement) (m : MemRangeSet) : Prop where
  validate : m.Validate 16
  limit : m.limit = 0x100000000
  types : ∀ a < 0x100000000, m.typeAt a = some (p.typeOf a)

/-- The types on the two sides of a boundary. -/
theorem Initial.boundary (h : Initial p m) (hi : 0 < i) (hn : i < m.n) :
    p.typeOf (m.first i) = m.type i ∧ p.typeOf (m.first i - 1) = m.type (i - 1) ∧
      0 < m.first i ∧ m.type i ≠ m.type (i - 1) := by
  have hv := h.validate.valid
  have hlt : m.first (i - 1) < m.first i := hv.lt (by omega) (by omega)
  have hlim : m.first i < 0x100000000 := by
    rw [← h.limit]
    exact hv.lt hn (Nat.le_refl _)
  have hat : m.typeAt (m.first i) = some (m.type i) :=
    hv.typeAt_eq hn (Nat.le_refl _) (hv.lt (Nat.lt_succ_self i) hn)
  have hbefore : m.typeAt (m.first i - 1) = some (m.type (i - 1)) :=
    hv.typeAt_eq (by omega) (by omega) (by rw [Nat.sub_add_cancel hi]; omega)
  rw [h.types _ hlim] at hat
  rw [h.types _ (by omega)] at hbefore
  exact ⟨Option.some.inj hat, Option.some.inj hbefore, by omega, h.validate.adjacent i hi hn⟩

theorem page_of_pred {a : Nat} (h : ¬ pageSize ∣ a) : (a - 1) / pageSize = a / pageSize := by
  rw [Nat.dvd_iff_mod_eq_zero] at h
  unfold pageSize at *
  omega

/-- The boundaries of available ranges are page boundaries. -/
theorem Initial.available_aligned (h : Initial p m) (hi : 0 < i) (hn : i < m.n)
    (ht : m.type i = memAvailable ∨ m.type (i - 1) = memAvailable) : pageSize ∣ m.first i := by
  by_contra hdvd
  obtain ⟨hat, hbefore, -, hne⟩ := h.boundary hi hn
  have hpage := available_page_iff (p := p) (page_of_pred hdvd)
  rw [hat, hbefore] at hpage
  rcases ht with ht | ht
  · exact hne (ht.trans (hpage.mpr ht).symm)
  · exact hne ((hpage.mp ht).trans ht.symm)

theorem Initial.available_last (h : Initial p m) (hn : i < m.n) (ht : m.type i = memAvailable) :
    m.last i ≤ memsizePhysical := by
  have hv := h.validate.valid
  have hlt : m.first i < m.last i := hv.first_lt_last i hn
  have hlim : m.last i ≤ 0x100000000 := by
    rw [← h.limit]
    exact hv.le hn (Nat.le_refl _)
  have hat : m.typeAt (m.last i - 1) = some (m.type i) :=
    hv.typeAt_eq hn (by omega) (show m.last i - 1 < m.last i by omega)
  rw [h.types _ (by omega), ht] at hat
  have := lt_of_available (Option.some.inj hat)
  omega

/-- The available ranges are whole pages of physical memory. -/
def Initial.physical (h : Initial p m) : PhysicalRanges where
  toMemRangeSet := m
  valid := h.validate.valid
  limit_eq := h.limit
  available_pages := by
    intro i hn ht
    have hlast := h.available_last hn ht
    refine ⟨?_, ?_, hlast⟩
    · rcases Nat.eq_zero_or_pos i with rfl | hi
      · rw [h.validate.valid.first_zero]
        exact Nat.dvd_zero _
      · exact h.available_aligned hi hn (.inl ht)
    · have hne : i + 1 ≠ m.n := by
        intro he
        have hlim : m.last i = 0x100000000 := by
          rw [← h.limit, MemRangeSet.limit, ← he]
          rfl
        rw [hlim] at hlast
        exact absurd hlast (by decide)
      exact h.available_aligned (Nat.succ_pos i) (by omega) (.inr ht)

/-- The type of an address changes where physical memory ends, so a range ends there. -/
theorem Initial.not_crosses (h : Initial p m) : ¬ m.Crosses := by
  rintro ⟨i, hn, hfirst, hlast⟩
  have hv := h.validate.valid
  have hat : ∀ a, m.first i ≤ a → a < m.last i → a < 0x100000000 → p.typeOf a = m.type i := by
    intro a ha ha' hlim
    have htype := hv.typeAt_eq hn ha ha'
    rw [h.types a hlim] at htype
    exact Option.some.inj htype
  have hbefore := hat (memsizePhysical - 1) (by omega) (by omega) (by decide)
  have hafter := hat memsizePhysical hfirst.le hlast (by decide)
  have hno : ¬ p.Owns memsizePhysical := by
    rintro ⟨c, hc, -, hlt⟩
    exact absurd hlt (Nat.not_lt.mpr (p.kernelCalls_spec c hc).last)
  rw [typeOf_eq, if_neg hno] at hafter
  rw [typeOf_eq, ← hafter] at hbefore
  split at hbefore
  · exact absurd hbefore (by decide)
  · exact absurd hbefore (by decide)

theorem initial (p : Placement) : ∃ m, initPhysicalRanges p = some m ∧ Initial p m := by
  obtain ⟨m, hm, hv, hlim, htypes⟩ := initPhysicalRanges_spec p
  exact ⟨m, hm, hv, hlim, htypes⟩

/-- Every boundary below the devices is a page boundary if the kernel owns the page the screen
memory ends in. -/
theorem Initial.aligned (h : Initial p m) (howns : p.Owns (screenMemBase + screenMemSize))
    (hn : i < m.n) : pageSize ∣ m.first i := by
  rcases Nat.eq_zero_or_pos i with rfl | hi
  · rw [h.validate.valid.first_zero]
    exact Nat.dvd_zero _
  · by_contra hdvd
    obtain ⟨hat, hbefore, -, hne⟩ := h.boundary hi hn
    rw [← hat, ← hbefore] at hne
    exact hne (typeOf_page (page_of_pred hdvd) (.inr howns)).symm

/-- Otherwise no range has all of that page. -/
theorem Initial.broken (h : Initial p m) (howns : ¬ p.Owns (screenMemBase + screenMemSize))
    (hn : i < m.n) (hfirst : m.first i ≤ screenEndPage * pageSize) :
    m.last i < (screenEndPage + 1) * pageSize := by
  by_contra hge
  have hv := h.validate.valid
  have htype : ∀ a, screenEndPage * pageSize ≤ a → a < (screenEndPage + 1) * pageSize →
      (if a < screenMemBase + screenMemSize then memConsole else memReserved) = m.type i := by
    intro a ha ha'
    have hpage : a / pageSize = screenEndPage := by
      unfold pageSize at *
      omega
    have hat : m.typeAt a = some (m.type i) :=
      hv.typeAt_eq hn (by omega) (show a < m.last i by omega)
    have hlim : a < 0x100000000 := by
      refine Nat.lt_of_lt_of_le (show a < m.last i by omega) ?_
      rw [← h.limit]
      exact hv.le hn (Nat.le_refl _)
    rw [h.types a hlim, typeOf_eq, if_neg fun ho => howns ((owns_page hpage).mp ho),
      deviceType_screen hpage] at hat
    exact Option.some.inj hat
  have h₁ := htype 0xAF000 (by decide) (by decide)
  have h₂ := htype 0xAFFFF (by decide) (by decide)
  rw [if_pos (by decide)] at h₁
  rw [if_neg (by decide)] at h₂
  rw [← h₁] at h₂
  exact absurd h₂ (by decide)

end Ranges
end PugOS
