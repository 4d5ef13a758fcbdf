import Mathlib.Data.List.GetD
import PugOS.PageWalk

/-! # Loading a program

`proc::load` maps and fills the segments of an ELF file one after the other.  `load_segment`
allocates a page for every page its segment meets, whether or not the page is mapped already, so a
segment takes the place of what earlier segments have in its pages.  The image is the one the file
describes, whatever new pages hold, if and only if no segment has a page that an earlier one has a
byte in (`load_image_iff`).
-/
namespace PugOS.PageTable
open Bytes

namespace Elf

/-- The error codes of `load`. -/
def E_NOENT : Int := -2
def E_NOEXEC : Int := -8
def E_NOMEM : Int := -12

/-! ## The file -/

/-- The number in the `n` bytes at `i`. -/
def field (bytes : List UInt8) (i n : Nat) : Nat := getLE (fun a => bytes.getD a 0) i n

/-- `elf_header`, as far as it is read. -/
structure Header where
  e_magic : Nat
  e_type : Nat
  e_entry : Nat
  e_phoff : Nat
  e_phentsize : Nat
  e_phnum : Nat
  e_shentsize : Nat

/-- The header at the start of the bytes. -/
def Header.read (bytes : List UInt8) : Header where
  e_magic := field bytes 0 4
  e_type := field bytes 0x10 2
  e_entry := field bytes 0x18 8
  e_phoff := field bytes 0x20 8
  e_phentsize := field bytes 0x36 2
  e_phnum := field bytes 0x38 2
  e_shentsize := field bytes 0x3a 2

/-- `elf_program`, as far as it is read. -/
structure Program where
  p_type : Nat
  p_offset : Nat
  p_va : Nat
  p_filesz : Nat
  p_memsz : Nat
  deriving DecidableEq

/-- The program header at `i`. -/
def Program.read (bytes : List UInt8) (i : Nat) : Program where
  p_type := field bytes i 4
  p_offset := field bytes (i + 0x08) 8
  p_va := field bytes (i + 0x10) 8
  p_filesz := field bytes (i + 0x20) 8
  p_memsz := field bytes (i + 0x28) 8

/-- The constants that `load` compares with. -/
def ELF_MAGIC : Nat := 0x464C457F
def ELF_ET_EXEC : Nat := 2
def ELF_PTYPE_LOAD : Nat := 1

/-- `sizeof(elf_header)`, `sizeof(elf_program)` and `sizeof(elf_section)`. -/
def headerSize : Nat := 64
def programSize : Nat := 56
def sectionSize : Nat := 64

/-- The header is one that `load` accepts, of a file of which `len` bytes can be read at once. -/
def Header.Accepted (eh : Header) (len : Nat) : Prop :=
  ¬ (eh.e_magic ≠ ELF_MAGIC ∨ eh.e_type ≠ ELF_ET_EXEC ∨ eh.e_phentsize ≠ programSize ∨
    eh.e_shentsize ≠ sectionSize ∨ eh.e_phoff > pageSize ∨ eh.e_phoff > len ∨ eh.e_phnum = 0 ∨
    eh.e_phnum > (pageSize - eh.e_phoff) / programSize ∨
    eh.e_phnum > (len - eh.e_phoff) / programSize)

instance (eh : Header) (len : Nat) : Decidable (eh.Accepted len) :=
  inferInstanceAs (Decidable (¬ _))

/-- The program headers. -/
def programs (bytes : List UInt8) : List Program :=
  (List.range (Header.read bytes).e_phnum).map fun i =>
    Program.read bytes ((Header.read bytes).e_phoff + i * programSize)

/-- The `PT_LOAD` segments. -/
def segments (bytes : List UInt8) : List Program :=
  (programs bytes).filter fun ph => ph.p_type = ELF_PTYPE_LOAD

/-! ## Loaders -/

section Loader
variable {σ : Type}

/-- A `loader`: `get_page` gives bytes of the file from an offset on, or an error.  The pages it is
given to load them into are its own, and it has given them back by `put_page`. -/
structure Loader (source : PageSource σ) where
  data : List UInt8
  getPage : σ → Nat → σ × Except Int (List UInt8)
  page : ∀ s off bytes, (getPage s off).2 = .ok bytes → bytes <+: data.drop off
  negative : ∀ s off e, (getPage s off).2 = .error e → e < 0
  valid : ∀ s off, source.Valid s → source.Valid (getPage s off).1
  inUse : ∀ s off page, source.InUse (getPage s off).1 page ↔ source.InUse s page

/-- `memfile_loader`.  There may be no file. -/
def memfileLoader (source : PageSource σ) (mf : Option (List UInt8)) : Loader source where
  data := mf.getD []
  getPage s off := (s,
    match mf with
    | none => .error E_NOENT
    | some data => if off ≥ data.length then .ok [] else .ok (data.drop off))
  page s off bytes h := by
    cases mf with
    | none => cases h
    | some data =>
      dsimp only at h
      split at h
      · cases h
        exact List.nil_prefix
      · cases h
        exact List.prefix_refl _
  negative s off e h := by
    cases mf with
    | none =>
      cases h
      decide
    | some data =>
      dsimp only at h
      split at h
      · cases h
      · cases h
  valid _ _ h := h
  inUse _ _ _ := Iff.rfl

/-- `disk_loader`, with what `chickadeefs_read_file_data` reads of the file.  A block that is not
loaded ends the read. -/
def diskLoader (source : PageSource σ) (data : List UInt8) (readFileData : σ → Nat → σ × List UInt8)
    (hread : ∀ s off, (readFileData s off).2 <+: (data.drop off).take pageSize)
    (hvalid : ∀ s off, source.Valid s → source.Valid (readFileData s off).1)
    (hinUse : ∀ s off page, source.InUse (readFileData s off).1 page ↔ source.InUse s page) :
    Loader source where
  data := data
  getPage s off := ((readFileData s off).1, .ok (readFileData s off).2)
  page s off bytes h := by
    cases h
    exact (hread s off).trans (List.take_prefix _ _)
  negative s off e h := by cases h
  valid := hvalid
  inUse := hinUse

/-- `disk_loader`, where every block is loaded.  A name that the directory does not have reads as no
bytes. -/
def fileOnDisk (source : PageSource σ) (data : List UInt8) : Loader source :=
  diskLoader source data (fun s off => (s, (data.drop off).take pageSize))
    (fun _ _ => List.prefix_refl _) (fun _ _ h => h) (fun _ _ _ => Iff.rfl)

/-! ## `load` -/

/-- The page tables, the memory and the allocator. -/
structure State (σ : Type) where
  tables : Tables
  mem : Mem
  heap : σ

/-- `it.ka()`, as a physical address. -/
def ka (t : Tables) (it : Vmiter) : Option Nat :=
  (it.pa t).bind fun pa => if pa < kaEnd then some pa else none

variable {source : PageSource σ}

/-- The loop that allocates memory. -/
def allocate (source : PageSource σ) (endMem : Nat) : (fuel : Nat) → Vmiter → State σ →
    Option (State σ × Bool)
  | 0, _, _ => none
  | fuel + 1, it, k =>
    if it.va < endMem then
      (source.kallocpage k.heap).bind fun (s, r) =>
        match r with
        | none => some ({ k with heap := s }, false)
        | some pg =>
          (map source.kallocpage k.tables s it pg ptePWU).bind fun (t, s, ok) =>
            let k := { k with tables := t, heap := s }
            if ok then
              -- `map` has moved the iterator down
              allocate source endMem fuel ((Vmiter.mk' t it.pt it.va).add t pageSize) k
            else some (k, false)
    else some (k, true)

/-- The loop that loads data.  There is an error code if it fails. -/
def loadData (ld : Loader source) (endFile : Nat) : (fuel : Nat) → Vmiter → (off : Nat) → State σ →
    Option (State σ × Option Int)
  | 0, _, _, _ => none
  | fuel + 1, it, off, k =>
    if it.va < endFile then
      let (s, r) := ld.getPage k.heap (pageBase off)
      let k := { k with heap := s }
      match r with
      | .error e => some (k, some e)
      | .ok datapg =>
        let lastOff := pageBase off + datapg.length
        if lastOff ≤ off then some (k, some E_NOEXEC)
        else
          let sz := min (lastOff - off) (min it.lastVa endFile - it.va)
          (ka k.tables it).bind fun pa =>
            loadData ld endFile fuel (it.add k.tables sz) (off + sz)
              { k with mem := Ring.store k.mem pa ((datapg.drop (off % pageSize)).take sz) }
    else some (k, none)

/-- The loop that sets the rest to zero. -/
def zeroRest (endMem : Nat) : (fuel : Nat) → Vmiter → State σ → Option (State σ)
  | 0, _, _ => none
  | fuel + 1, it, k =>
    if it.va < endMem then
      let sz := min it.lastVa endMem - it.va
      (ka k.tables it).bind fun pa =>
        zeroRest endMem fuel (it.add k.tables sz)
          { k with mem := Ring.store k.mem pa (List.replicate sz 0) }
    else some k

/-- `load_segment`. -/
def loadSegment (ld : Loader source) (pt : Nat) (ph : Program) (k : State σ) :
    Option (State σ × Int) :=
  let va := ph.p_va
  let endFile := wrap64 (va + ph.p_filesz)
  let endMem := wrap64 (va + ph.p_memsz)
  if va > vaLowEnd ∨ vaLowEnd - va < ph.p_memsz ∨ ph.p_memsz < ph.p_filesz then some (k, E_NOEXEC)
  else
    (allocate source endMem PtIter.rounds (Vmiter.mk' k.tables pt (pageBase va))
      k).bind fun (k, ok) =>
      if ok then
        (loadData ld endFile PtIter.rounds (Vmiter.mk' k.tables pt va) ph.p_offset
          k).bind fun (k, e) =>
          match e with
          | some e => some (k, e)
          | none =>
            (zeroRest endMem PtIter.rounds (Vmiter.mk' k.tables pt endFile) k).map fun k => (k, 0)
      else some (k, E_NOMEM)

/-- The loop of `load` over the program headers. -/
def loadPrograms (ld : Loader source) (pt : Nat) : List Program → State σ → Option (State σ × Int)
  | [], k => some (k, 0)
  | ph :: phs, k =>
    if ph.p_type = ELF_PTYPE_LOAD then
      (loadSegment ld pt ph k).bind fun (k, r) => if r < 0 then some (k, r)
        else loadPrograms ld pt phs k
    else loadPrograms ld pt phs k

/-- `load`, for the page table `pagetable_`.  If it does not fail there is an entry point. -/
def load (ld : Loader source) (pt : Nat) (k : State σ) : Option (State σ × Except Int Nat) :=
  let (s, r) := ld.getPage k.heap 0
  let k := { k with heap := s }
  match r with
  | .error e => some (k, .error e)
  | .ok headerpg =>
    if headerpg.length < headerSize then some (k, .error E_NOEXEC)
    else if (Header.read headerpg).Accepted headerpg.length then
      (loadPrograms ld pt (programs headerpg) k).map fun (k, r) =>
        (k, if r < 0 then .error r else .ok (Header.read headerpg).e_entry)
    else some (k, .error E_NOEXEC)

end Loader

/-! ## Frames -/

section Frames
variable {t t' : Tables} {m : Mem} {pt lo hi va x y : Nat} {P Q : Nat → Prop}

/-- The pages of the addresses from `lo` on that begin before `hi` are in different frames, for
which `P` holds. -/
structure Framed (P : Nat → Prop) (t : Tables) (pt lo hi : Nat) : Prop where
  mapped : ∀ x, lo ≤ x → pageBase x < hi → ∃ f, (translation t pt x).1 = some (f + x % pageSize) ∧
    f % pageSize = 0 ∧ P f
  table : ∀ x, lo ≤ x → pageBase x < hi → ∃ pg, table t pt 0 x = some pg
  inj : ∀ x y f, lo ≤ x → pageBase x < hi → lo ≤ y → pageBase y < hi →
    (translation t pt x).1 = some (f + x % pageSize) →
    (translation t pt y).1 = some (f + y % pageSize) → pageBase x = pageBase y

theorem Framed.mono {hi' : Nat} (h : Framed P t pt lo hi) (hle : hi' ≤ hi) (hPQ : ∀ f, P f → Q f) :
    Framed Q t pt lo hi' where
  mapped x hx hlt := by
    obtain ⟨f, hf, halign, hP⟩ := h.mapped x hx (Nat.lt_of_lt_of_le hlt hle)
    exact ⟨f, hf, halign, hPQ f hP⟩
  table x hx hlt := h.table x hx (Nat.lt_of_lt_of_le hlt hle)
  inj x y f hx hx' hy hy' :=
    h.inj x y f hx (Nat.lt_of_lt_of_le hx' hle) hy (Nat.lt_of_lt_of_le hy' hle)

/-- Where there is a lowest page, a walk ends in it. -/
theorem level_zero {pg : Nat} (h : PageTable.table t pt 0 x = some pg) :
    (locate t pt x).level = 0 := by
  have hstop := stops t pt x
  by_contra hne
  obtain ⟨level, hlevel⟩ := Nat.exists_eq_succ_of_ne_zero hne
  have hnext := hstop.stop hne
  have hpage := hstop.page
  have hle := hstop.level
  rw [hstop.index, hlevel] at hnext
  rw [hlevel] at hpage hle
  have hnone : PageTable.table t pt level x = none := by
    rw [table_succ hle, hpage]
    exact hnext
  rw [table_none (Nat.zero_le level) (Nat.le_of_succ_le hle) hnone] at h
  cases h

/-- `last_va()` is the end of the page. -/
theorem Framed.lastVa (h : Framed P t pt lo hi) (hx : lo ≤ x) (hlt : pageBase x < hi)
    (hlow : x < vaLowEnd) : (Vmiter.mk' t pt x).lastVa = pageBase x + pageSize := by
  obtain ⟨pg, hpg⟩ := h.table x hx hlt
  have hend := UserMemory.next_span_le (Nat.zero_le 3) hlow
  rw [mk'_eq]
  unfold Vmiter.lastVa
  dsimp only
  rw [level_zero hpg]
  have hcast : wrap64 ((x / span 0 + 1) * span 0) = wrap64 ((x / span 0 + 1) * span 0 : Nat) := by
    push_cast
    rfl
  rw [hcast, wrap64_eq (Nat.lt_of_le_of_lt hend (by decide)), Nat.succ_mul]
  rfl

theorem add_mk' {n : Nat} (h : va + n < 2 ^ 64) :
    (Vmiter.mk' t pt va).add t n = Vmiter.mk' t pt (va + n) := by
  have hfresh : (Vmiter.mk pt va (locate t pt va)).Fresh t := rfl
  have hwrap : wrap64 (va + n) = va + n := wrap64_eq h
  rw [mk'_eq, mk'_eq]
  unfold Vmiter.add
  rw [find_eq hfresh]
  dsimp only
  rw [hwrap]

/-- **A chunk is written to one page**, and the bytes at other addresses are not. -/
theorem Framed.store (h : Framed P t pt lo hi) (hva : lo ≤ va) (hlt : pageBase va < hi)
    {pa px : Nat} {chunk : List UInt8} (hpa : (translation t pt va).1 = some pa)
    (hchunk : va + chunk.length ≤ pageBase va + pageSize) (hx : lo ≤ x)
    (hx' : pageBase x < hi) (hpx : (translation t pt x).1 = some px) :
    Ring.store m pa chunk px =
      if va ≤ x ∧ x < va + chunk.length then chunk.getD (x - va) 0 else m px := by
  obtain ⟨f, hf, halign, -⟩ := h.mapped va hva hlt
  obtain ⟨g, hg, halign', -⟩ := h.mapped x hx hx'
  rw [hf] at hpa
  rw [hg] at hpx
  cases hpa
  cases hpx
  by_cases hsame : pageBase x = pageBase va
  · have hfg : f = g := by
      rw [translation_offset, ← hsame] at hf
      rw [translation_offset] at hg
      cases hbase : (translation t pt (pageBase x)).1 with
      | none =>
        rw [hbase] at hg
        cases hg
      | some a =>
        rw [hbase] at hf hg
        have hf : a + va % pageSize = f + va % pageSize := Option.some.inj hf
        have hg : a + x % pageSize = g + x % pageSize := Option.some.inj hg
        omega
    subst hfg
    by_cases hin : va ≤ x ∧ x < va + chunk.length
    · have hk : x - va < chunk.length := by omega
      have hplace : f + x % pageSize = f + va % pageSize + (x - va) := by
        unfold pageBase pageSize at *
        omega
      rw [if_pos hin, hplace, Ring.store_getElem m _ hk, List.getD_eq_getElem _ _ hk]
    · rw [if_neg hin, Ring.store_of_not_mem]
      unfold pageBase pageSize at *
      omega
  · have hfg : f ≠ g := by
      rintro rfl
      exact hsame (h.inj x va f hx hx' hva hlt hg hf)
    have hin : ¬ (va ≤ x ∧ x < va + chunk.length) := by
      unfold pageBase pageSize at *
      omega
    rw [if_neg hin, Ring.store_of_not_mem]
    unfold pageBase pageSize at *
    omega

/-- A chunk is written to a frame. -/
theorem Framed.store_other (h : Framed P t pt lo hi) (hva : lo ≤ va) (hlt : pageBase va < hi)
    {pa a : Nat} {chunk : List UInt8} (hpa : (translation t pt va).1 = some pa)
    (hchunk : va + chunk.length ≤ pageBase va + pageSize) (ha : ¬ P (pageBase a)) :
    Ring.store m pa chunk a = m a := by
  obtain ⟨f, hf, halign, hP⟩ := h.mapped va hva hlt
  rw [hf] at hpa
  cases hpa
  refine Ring.store_of_not_mem m chunk fun hin => ha ?_
  have hbase : pageBase a = f := by
    unfold pageBase pageSize at *
    omega
  rw [hbase]
  exact hP

end Frames

/-! ## Allocating the pages -/

section Allocate
variable {σ : Type} {source : PageSource σ} {t t' t₀ : Tables} {s s' s₀ s₁ : σ}
  {pt lo va endMem : Nat}

/-- The pages from `lo` to `va` have been allocated, and nothing else is mapped otherwise. -/
structure Allocated (source : PageSource σ) (pt lo va : Nat) (t₀ : Tables) (s₀ : σ) (t : Tables)
    (s : σ) : Prop where
  grows : Grows source pt vaLowEnd t₀ s₀ t s
  framed : Framed (fun f => ¬ source.InUse s₀ f ∧ source.InUse s f) t pt lo va
  other : ∀ x < vaLowEnd, ¬ (lo ≤ x ∧ pageBase x < va) → translation t pt x = translation t₀ pt x

theorem Allocated.start (hs : Space source t₀ pt vaLowEnd s₀) (hlo : lo % pageSize = 0) :
    Allocated source pt lo lo t₀ s₀ t₀ s₀ := by
  have hempty : ∀ x, lo ≤ x → ¬ pageBase x < lo := by
    intro x hx
    unfold pageBase pageSize at *
    omega
  refine ⟨hs.alloc hs.valid fun _ h => h,
    ⟨fun x hx hlt => absurd hlt (hempty x hx), fun x hx hlt => absurd hlt (hempty x hx), ?_⟩,
    fun _ _ _ => rfl⟩
  exact fun x y f hx hlt => absurd hlt (hempty x hx)

/-- One page more. -/
theorem Allocated.step {pg : Nat} (h : Allocated source pt lo va t₀ s₀ t s) (hlo : lo ≤ va)
    (halign : va % pageSize = 0) (hva : va < vaLowEnd)
    (halloc : source.kallocpage s = some (s₁, some pg))
    (hmap : map source.kallocpage t s₁ (Vmiter.mk' t pt va) pg ptePWU = some (t', s', true)) :
    Allocated source pt lo (va + pageSize) t₀ s₀ t' s' := by
  obtain ⟨s₁', r, hrun, hvalid, hinUse, hnew⟩ := source.spec s h.grows.space.valid
  rw [halloc] at hrun
  cases hrun
  have hmore : ∀ p, source.InUse s p → source.InUse s₁ p := fun p hp => (hinUse p).mpr (.inr hp)
  have hg₁ := h.grows.space.alloc hvalid hmore
  obtain ⟨hpg, hg, ⟨r, -, hmapped⟩, pg₀, hpg₀⟩ := map_spec hg₁.space hva (by decide) hmap
  have hbase : pageBase va = va := Nat.div_mul_cancel (Nat.dvd_of_mod_eq_zero halign)
  have hall : ∀ p, source.InUse s p → source.InUse s' p := fun p hp => hg.inUse p (hmore p hp)
  -- an address is in the new page or was there before
  have hhere : ∀ x, pageBase x = va →
      translation t' pt x = (some (pg + x % pageSize), ptePWU &&& r, true) := by
    intro x hx
    have hlow : x < vaLowEnd := by
      unfold pageBase pageSize vaLowEnd at *
      omega
    rw [hmapped x hlow, if_pos (pageBase_eq_iff.mp (hx.trans hbase.symm))]
  have hthere : ∀ x < vaLowEnd, pageBase x ≠ va → translation t' pt x = translation t pt x := by
    intro x hx hne
    rw [hmapped x hx, if_neg fun heq => hne ((pageBase_eq_iff.mpr heq).trans hbase)]
  have hcases : ∀ x, lo ≤ x → pageBase x < va + pageSize →
      pageBase x = va ∨ (pageBase x < va ∧ x < vaLowEnd) := by
    intro x _ hlt
    unfold pageBase pageSize vaLowEnd at *
    omega
  refine ⟨h.grows.trans (hg₁.trans hg),
    ⟨fun x hx hlt => ?_, fun x hx hlt => ?_, fun x y f hx hlt hy hlt' hfx hfy => ?_⟩,
    fun x hx hnot => ?_⟩
  · rcases hcases x hx hlt with hx' | ⟨hx', hlow⟩
    · rw [hhere x hx']
      refine ⟨pg, rfl, hpg, fun hin => hnew pg rfl (h.grows.inUse pg hin),
        hg.inUse pg ((hinUse pg).mpr (.inl rfl))⟩
    · rw [hthere x hlow (Nat.ne_of_lt hx')]
      obtain ⟨f, hf, halign', hfresh, hin⟩ := h.framed.mapped x hx hx'
      exact ⟨f, hf, halign', hfresh, hall f hin⟩
  · rcases hcases x hx hlt with hx' | ⟨hx', hlow⟩
    · refine ⟨pg₀, ?_⟩
      rw [← hpg₀]
      exact table_congr (Nat.zero_le 3)
        (@div_span_mono _ _ 0 _ (pageBase_eq_iff.mp (hx'.trans hbase.symm)) (Nat.zero_le 1))
    · obtain ⟨pg', hpg'⟩ := h.framed.table x hx hx'
      exact ⟨pg', hg.tables 0 (Nat.zero_le 3) x hlow pg' hpg'⟩
  · -- the frame of the new page is no frame of the others
    have hother : ∀ z, lo ≤ z → pageBase z < va → z < vaLowEnd →
        (translation t pt z).1 = some (f + z % pageSize) → f ≠ pg := by
      rintro z hz hz' hlow hfz rfl
      obtain ⟨g, hg', halign', -, hin⟩ := h.framed.mapped z hz hz'
      rw [hfz] at hg'
      have heq : f + z % pageSize = g + z % pageSize := Option.some.inj hg'
      obtain rfl : f = g := by omega
      exact hnew f rfl hin
    have hnewFrame : ∀ z, pageBase z = va → (translation t' pt z).1 = some (f + z % pageSize) →
        f = pg := by
      intro z hz hfz
      rw [hhere z hz] at hfz
      have heq : pg + z % pageSize = f + z % pageSize := Option.some.inj hfz
      omega
    rcases hcases x hx hlt with hx' | ⟨hx', hlow⟩
    · rcases hcases y hy hlt' with hy' | ⟨hy', hlow'⟩
      · exact hx'.trans hy'.symm
      · rw [hthere y hlow' (Nat.ne_of_lt hy')] at hfy
        exact absurd (hnewFrame x hx' hfx) (hother y hy hy' hlow' hfy)
    · rw [hthere x hlow (Nat.ne_of_lt hx')] at hfx
      rcases hcases y hy hlt' with hy' | ⟨hy', hlow'⟩
      · exact absurd (hnewFrame y hy' hfy) (hother x hx hx' hlow hfx)
      · rw [hthere y hlow' (Nat.ne_of_lt hy')] at hfy
        exact h.framed.inj x y f hx hx' hy hy' hfx hfy
  · have hne : pageBase x ≠ va := by
      intro heq
      refine hnot ⟨?_, ?_⟩
      · unfold pageBase pageSize at *
        omega
      · rw [heq]
        exact Nat.lt_add_of_pos_right (by decide)
    rw [hthere x hx hne]
    refine h.other x hx fun hin => hnot ⟨hin.1, ?_⟩
    exact Nat.lt_trans hin.2 (Nat.lt_add_of_pos_right (by decide))

/-- The loop has allocated the pages that begin before `endMem`. -/
theorem Allocated.stop (h : Allocated source pt lo va t₀ s₀ t s) (halign : va % pageSize = 0)
    (hend : va = lo ∨ va < endMem + pageSize) (hle : endMem ≤ va) :
    Allocated source pt lo endMem t₀ s₀ t s where
  grows := h.grows
  framed := h.framed.mono hle fun _ hP => hP
  other x hx hnot := by
    refine h.other x hx fun hin => hnot ⟨hin.1, ?_⟩
    unfold pageBase pageSize at *
    omega

/-- **The loop that allocates memory.** -/
theorem allocate_spec (hlow : endMem ≤ vaLowEnd) : ∀ {fuel va : Nat} {k k' : State σ},
    Allocated source pt lo va t₀ s₀ k.tables k.heap → lo ≤ va → va % pageSize = 0 →
    (va = lo ∨ va < endMem + pageSize) → allocate source endMem fuel (Vmiter.mk' k.tables pt va) k =
    some (k', true) → Allocated source pt lo endMem t₀ s₀ k'.tables k'.heap ∧ k'.mem = k.mem := by
  intro fuel
  induction fuel with
  | zero =>
    intro va k k' _ _ _ _ hrun
    cases hrun
  | succ fuel ih =>
    intro va k k' h hlo halign hend hrun
    have hmk : (Vmiter.mk' k.tables pt va).va = va := by rw [mk'_eq]
    have hpt : (Vmiter.mk' k.tables pt va).pt = pt := by rw [mk'_eq]
    unfold allocate at hrun
    rw [hmk, hpt] at hrun
    by_cases hlt : va < endMem
    · rw [if_pos hlt] at hrun
      obtain ⟨⟨s₁, r⟩, halloc, hrun⟩ := Option.bind_eq_some_iff.mp hrun
      cases r with
      | none => cases hrun
      | some pg =>
        obtain ⟨⟨t₂, s₂, ok⟩, hmap, hrun⟩ := Option.bind_eq_some_iff.mp hrun
        cases ok with
        | false => cases hrun
        | true =>
          have hva := Nat.lt_of_lt_of_le hlt hlow
          have hnext := h.step hlo halign hva halloc hmap
          have hadd : (Vmiter.mk' t₂ pt va).add t₂ pageSize = Vmiter.mk' t₂ pt (va + pageSize) := by
            refine add_mk' ?_
            unfold vaLowEnd pageSize at *
            omega
          dsimp only at hrun
          rw [if_pos rfl, hadd] at hrun
          refine ih (k := { k with tables := t₂, heap := s₂ }) hnext (Nat.le_add_right_of_le hlo) ?_
            (.inr ?_) hrun
          · rw [Nat.add_mod_right]
            exact halign
          · exact Nat.add_lt_add_right hlt pageSize
    · rw [if_neg hlt] at hrun
      cases hrun
      exact ⟨h.stop halign hend (Nat.le_of_not_lt hlt), rfl⟩

end Allocate

/-! ## Filling the pages -/

section Fill
variable {σ : Type} {source : PageSource σ} {ld : Loader source} {t : Tables} {m m' : Mem}
  {pt lo hi va va₀ off endFile endMem n : Nat} {P : Nat → Prop}

/-- What the memory of the segment is after the bytes from `va` to `stop` have been written: the
byte at `x` is `value x`.  Nothing but its frames is written to. -/
structure Filled (P : Nat → Prop) (t : Tables) (pt lo hi va stop : Nat) (value : Nat → Option UInt8)
    (m m' : Mem) : Prop where
  here : ∀ x, lo ≤ x → pageBase x < hi → va ≤ x → x < stop →
    ∀ px, (translation t pt x).1 = some px → value x = some (m' px)
  there : ∀ x, lo ≤ x → pageBase x < hi → ¬ (va ≤ x ∧ x < stop) →
    ∀ px, (translation t pt x).1 = some px → m' px = m px
  other : ∀ a, ¬ P (pageBase a) → m' a = m a

theorem Filled.refl {value : Nat → Option UInt8} : Filled P t pt lo hi va va value m m where
  here _ _ _ hle hlt := absurd hlt (Nat.not_lt_of_le hle)
  there _ _ _ _ _ _ := rfl
  other _ _ := rfl

/-- **A chunk, and what is written after it.** -/
theorem Filled.chunk {value : Nat → Option UInt8} {pa stop : Nat} {chunk : List UInt8}
    (hf : Framed P t pt lo hi) (hva : lo ≤ va) (hlt : pageBase va < hi)
    (hpa : (translation t pt va).1 = some pa) (hchunk : va + chunk.length ≤ pageBase va + pageSize)
    (hvalue : ∀ i, i < chunk.length → value (va + i) = some (chunk.getD i 0))
    (hstop : va + chunk.length ≤ stop)
    (h : Filled P t pt lo hi (va + chunk.length) stop value (Ring.store m pa chunk) m') :
    Filled P t pt lo hi va stop value m m' where
  here x hx hx' hle hlt' px hpx := by
    rcases Nat.lt_or_ge x (va + chunk.length) with hin | hout
    · rw [h.there x hx hx' (by omega) px hpx, hf.store hva hlt hpa hchunk hx hx' hpx,
        if_pos ⟨hle, hin⟩]
      have hval := hvalue (x - va) (by omega)
      rwa [Nat.add_sub_cancel' hle] at hval
    · exact h.here x hx hx' hout hlt' px hpx
  there x hx hx' hnot px hpx := by
    rw [h.there x hx hx' (by omega) px hpx, hf.store hva hlt hpa hchunk hx hx' hpx,
      if_neg (by omega)]
  other a ha := by
    rw [h.other a ha, hf.store_other hva hlt hpa hchunk ha]

theorem ka_some {pa : Nat} (h : ka t (Vmiter.mk' t pt va) = some pa) :
    (translation t pt va).1 = some pa := by
  obtain ⟨pa', hpa, h⟩ := Option.bind_eq_some_iff.mp h
  split at h
  · cases h
    exact hpa
  · cases h

theorem lt_page_end (x : Nat) : x < pageBase x + pageSize := by
  have hmod : x % pageSize < pageSize := Nat.mod_lt x (by decide)
  have hsum := pageBase_add_mod x
  omega

/-- What is copied of a page of the file. -/
theorem Loader.chunk {s : σ} {datapg : List UInt8}
    (h : (ld.getPage s (pageBase off)).2 = .ok datapg)
    (hn : off + n ≤ pageBase off + datapg.length) :
    ((datapg.drop (off % pageSize)).take n).length = n ∧
      ∀ i < n, ld.data[off + i]? = some (((datapg.drop (off % pageSize)).take n).getD i 0) := by
  have hoff := pageBase_add_mod off
  have hpage := ld.page s _ _ h
  refine ⟨?_, fun i hi => ?_⟩
  · rw [List.length_take, List.length_drop]
    omega
  · have hlt : off % pageSize + i < datapg.length := by omega
    have hdata := List.prefix_iff_getElem?.mp hpage _ hlt
    rw [List.getElem?_drop, ← Nat.add_assoc, hoff] at hdata
    rw [hdata, List.getD_eq_getElem?_getD, List.getElem?_take_of_lt hi, List.getElem?_drop,
      List.getElem?_eq_getElem hlt, Option.getD_some]

/-- **The loop that loads data.** -/
theorem loadData_spec {off₀ : Nat} (hf : Framed P t pt lo hi)
    (hrange : ∀ x, va₀ ≤ x → x < endFile → lo ≤ x ∧ pageBase x < hi)
    (hlow : endFile ≤ vaLowEnd) : ∀ {fuel va : Nat} {k k' : State σ}, va₀ ≤ va → va ≤ endFile →
    k.tables = t → loadData ld endFile fuel (Vmiter.mk' t pt va) (off₀ + (va - va₀)) k =
    some (k', none) → k'.tables = t ∧ (source.Valid k.heap → source.Valid k'.heap) ∧
    (∀ p, source.InUse k'.heap p ↔ source.InUse k.heap p) ∧
      Filled P t pt lo hi va endFile (fun x => ld.data[off₀ + (x - va₀)]?) k.mem k'.mem := by
  intro fuel
  induction fuel with
  | zero =>
    intro va k k' _ _ _ hrun
    cases hrun
  | succ fuel ih =>
    intro va k k' hva₀ hva htables hrun
    have hmk : (Vmiter.mk' t pt va).va = va := by rw [mk'_eq]
    unfold loadData at hrun
    rw [hmk] at hrun
    by_cases hlt : va < endFile
    · rw [if_pos hlt] at hrun
      obtain ⟨hlo, hhi⟩ := hrange va hva₀ hlt
      have hlast := hf.lastVa hlo hhi (Nat.lt_of_lt_of_le hlt hlow)
      have hinUse := ld.inUse k.heap (pageBase (off₀ + (va - va₀)))
      have hvalid := ld.valid k.heap (pageBase (off₀ + (va - va₀)))
      dsimp only at hrun
      rw [hlast] at hrun
      cases hpage : (ld.getPage k.heap (pageBase (off₀ + (va - va₀)))).2 with
      | error e =>
        rw [hpage] at hrun
        cases hrun
      | ok datapg =>
        rw [hpage] at hrun
        dsimp only at hrun
        by_cases hend : pageBase (off₀ + (va - va₀)) + datapg.length ≤ off₀ + (va - va₀)
        · rw [if_pos hend] at hrun
          cases hrun
        · rw [if_neg hend, htables] at hrun
          obtain ⟨pa, hpa, hrun⟩ := Option.bind_eq_some_iff.mp hrun
          have hpa := ka_some hpa
          obtain ⟨sz, hsz⟩ :
              ∃ sz, sz = min (pageBase (off₀ + (va - va₀)) + datapg.length - (off₀ + (va - va₀)))
              (min (pageBase va + pageSize) endFile - va) := ⟨_, rfl⟩
          rw [← hsz] at hrun
          have hin := lt_page_end va
          have hbound : va + sz ≤ endFile ∧ va + sz ≤ pageBase va + pageSize ∧
              off₀ + (va - va₀) + sz ≤ pageBase (off₀ + (va - va₀)) + datapg.length := by omega
          obtain ⟨hlen, hbytes⟩ := ld.chunk hpage hbound.2.2
          have hadd : (Vmiter.mk' t pt va).add t sz = Vmiter.mk' t pt (va + sz) := by
            refine add_mk' ?_
            unfold vaLowEnd at hlow
            omega
          have hoff : off₀ + (va - va₀) + sz = off₀ + (va + sz - va₀) := by omega
          rw [hadd, hoff] at hrun
          obtain ⟨htables', hvalid', hinUse', hfilled⟩ := ih (by omega) hbound.1 rfl hrun
          refine ⟨htables', fun h => hvalid' (hvalid h), fun p => (hinUse' p).trans (hinUse p), ?_⟩
          refine .chunk hf hlo hhi hpa (by rw [hlen]; exact hbound.2.1) (fun i hi => ?_)
            (by rw [hlen]; exact hbound.1) (by rw [hlen]; exact hfilled)
          rw [hlen] at hi
          have heq : off₀ + (va + i - va₀) = off₀ + (va - va₀) + i := by omega
          rw [heq]
          exact hbytes i hi
    · rw [if_neg hlt] at hrun
      cases hrun
      obtain rfl : va = endFile := Nat.le_antisymm hva (Nat.le_of_not_lt hlt)
      exact ⟨htables, fun h => h, fun _ => Iff.rfl, .refl⟩

/-- **The loop that sets the rest to zero.** -/
theorem zeroRest_spec (hf : Framed P t pt lo hi)
    (hrange : ∀ x, va₀ ≤ x → x < endMem → lo ≤ x ∧ pageBase x < hi)
    (hlow : endMem ≤ vaLowEnd) : ∀ {fuel va : Nat} {k k' : State σ}, va₀ ≤ va → va ≤ endMem →
    k.tables = t → zeroRest endMem fuel (Vmiter.mk' t pt va) k = some k' →
    k'.tables = t ∧ k'.heap = k.heap ∧
    Filled P t pt lo hi va endMem (fun _ => some 0) k.mem k'.mem := by
  intro fuel
  induction fuel with
  | zero =>
    intro va k k' _ _ _ hrun
    cases hrun
  | succ fuel ih =>
    intro va k k' hva₀ hva htables hrun
    have hmk : (Vmiter.mk' t pt va).va = va := by rw [mk'_eq]
    unfold zeroRest at hrun
    rw [hmk] at hrun
    by_cases hlt : va < endMem
    · rw [if_pos hlt] at hrun
      obtain ⟨hlo, hhi⟩ := hrange va hva₀ hlt
      have hlast := hf.lastVa hlo hhi (Nat.lt_of_lt_of_le hlt hlow)
      dsimp only at hrun
      rw [hlast, htables] at hrun
      obtain ⟨pa, hpa, hrun⟩ := Option.bind_eq_some_iff.mp hrun
      have hpa := ka_some hpa
      obtain ⟨sz, hsz⟩ : ∃ sz, sz = min (pageBase va + pageSize) endMem - va := ⟨_, rfl⟩
      rw [← hsz] at hrun
      have hin := lt_page_end va
      have hbound : va + sz ≤ endMem ∧ va + sz ≤ pageBase va + pageSize := by omega
      have hadd : (Vmiter.mk' t pt va).add t sz = Vmiter.mk' t pt (va + sz) := by
        refine add_mk' ?_
        unfold vaLowEnd at hlow
        omega
      rw [hadd] at hrun
      obtain ⟨htables', hheap, hfilled⟩ := ih (by omega) hbound.1 rfl hrun
      have hlen : (List.replicate sz (0 : UInt8)).length = sz := List.length_replicate
      refine ⟨htables', hheap, .chunk hf hlo hhi hpa (by rw [hlen]; exact hbound.2) (fun i hi => ?_)
        (by rw [hlen]; exact hbound.1) (by rw [hlen]; exact hfilled)⟩
      rw [hlen] at hi
      rw [List.getD_eq_getElem?_getD, List.getElem?_replicate_of_lt hi, Option.getD_some]
    · rw [if_neg hlt] at hrun
      cases hrun
      obtain rfl : va = endMem := Nat.le_antisymm hva (Nat.le_of_not_lt hlt)
      exact ⟨htables, rfl, .refl⟩

end Fill

/-! ## A segment -/

/-- The byte the file specifies for the `i`th address of a segment. -/
def Program.byte (data : List UInt8) (ph : Program) (i : Nat) : Option UInt8 :=
  if i < ph.p_filesz then data[ph.p_offset + i]? else some 0

/-- The address is in a page of the segment. -/
def Program.Covers (ph : Program) (x : Nat) : Prop :=
  pageBase ph.p_va ≤ x ∧ pageBase x < ph.p_va + ph.p_memsz

/-- The address is in the segment. -/
def Program.Has (ph : Program) (x : Nat) : Prop := ph.p_va ≤ x ∧ x < ph.p_va + ph.p_memsz

instance (ph : Program) (x : Nat) : Decidable (ph.Covers x) := inferInstanceAs (Decidable (_ ∧ _))

instance (ph : Program) (x : Nat) : Decidable (ph.Has x) := inferInstanceAs (Decidable (_ ∧ _))

theorem pageBase_le (x : Nat) : pageBase x ≤ x := Nat.div_mul_le_self x pageSize

theorem Program.Has.covers {ph : Program} {x : Nat} (h : ph.Has x) : ph.Covers x :=
  ⟨Nat.le_trans (pageBase_le _) h.1, Nat.lt_of_le_of_lt (pageBase_le _) h.2⟩

section Segment
variable {σ : Type} {source : PageSource σ} {ld : Loader source} {k k' : State σ} {pt x : Nat}
  {ph : Program}

/-- What a segment has become: its pages are new, and hold what the file says where the segment is
and what they held before elsewhere; other addresses are mapped as before, and pages that were in
use are as they were. -/
structure Loaded (source : PageSource σ) (pt : Nat) (data : List UInt8) (ph : Program)
    (k k' : State σ) : Prop where
  bound : ph.p_va + ph.p_memsz ≤ vaLowEnd
  grows : Grows source pt vaLowEnd k.tables k.heap k'.tables k'.heap
  covered : ∀ x, ph.Covers x → ∃ pa, (translation k'.tables pt x).1 = some pa ∧
    ¬ source.InUse k.heap (pageBase pa) ∧ source.InUse k'.heap (pageBase pa) ∧
    if ph.Has x then ph.byte data (x - ph.p_va) = some (k'.mem pa) else k'.mem pa = k.mem pa
  other : ∀ x < vaLowEnd, ¬ ph.Covers x → translation k'.tables pt x = translation k.tables pt x
  memory : ∀ a, ¬ (¬ source.InUse k.heap (pageBase a) ∧ source.InUse k'.heap (pageBase a)) →
    k'.mem a = k.mem a

/-- Only errors are reported as such. -/
theorem loadData_error {endFile : Nat} {e : Int} : ∀ {fuel off : Nat} {it : Vmiter} {k : State σ},
    loadData ld endFile fuel it off k = some (k', some e) → e < 0 := by
  intro fuel
  induction fuel with
  | zero =>
    intro off it k h
    cases h
  | succ fuel ih =>
    intro off it k h
    unfold loadData at h
    split at h
    · dsimp only at h
      split at h
      · rename_i e' hpage
        cases h
        exact ld.negative _ _ _ hpage
      · split at h
        · cases h
          decide
        · obtain ⟨pa, -, h⟩ := Option.bind_eq_some_iff.mp h
          exact ih h
    · cases h

/-- **`load_segment`** fails, or the segment is loaded. -/
theorem loadSegment_spec {r : Int} (hs : Space source k.tables pt vaLowEnd k.heap) (hr : ¬ r < 0)
    (h : loadSegment ld pt ph k = some (k', r)) : Loaded source pt ld.data ph k k' := by
  unfold loadSegment at h
  dsimp only at h
  by_cases hcheck : ph.p_va > vaLowEnd ∨ vaLowEnd - ph.p_va < ph.p_memsz ∨ ph.p_memsz < ph.p_filesz
  · rw [if_pos hcheck] at h
    cases h
    exact absurd (by decide) hr
  · rw [if_neg hcheck] at h
    have hbound : ph.p_va + ph.p_memsz ≤ vaLowEnd ∧
        ph.p_va + ph.p_filesz ≤ ph.p_va + ph.p_memsz := by omega
    have hmem : wrap64 (ph.p_va + ph.p_memsz) = ph.p_va + ph.p_memsz :=
      wrap64_eq (Nat.lt_of_le_of_lt hbound.1 (by decide))
    have hfile : wrap64 (ph.p_va + ph.p_filesz) = ph.p_va + ph.p_filesz :=
      wrap64_eq (Nat.lt_of_le_of_lt (Nat.le_trans hbound.2 hbound.1) (by decide))
    rw [hmem, hfile] at h
    obtain ⟨⟨k₁, ok⟩, hallocate, h⟩ := Option.bind_eq_some_iff.mp h
    cases ok with
    | false =>
      cases h
      exact absurd (by decide) hr
    | true =>
      obtain ⟨⟨k₂, e⟩, hload, h⟩ := Option.bind_eq_some_iff.mp h
      cases e with
      | some e =>
        cases h
        exact absurd (loadData_error hload) hr
      | none =>
        obtain ⟨k₃, hzero, heq⟩ := Option.map_eq_some_iff.mp h
        cases heq
        obtain ⟨halloc, hmem₁⟩ := allocate_spec hbound.1 (.start hs (pageBase_mod _))
          (Nat.le_refl _) (pageBase_mod _) (.inl rfl) hallocate
        have hrange : ∀ y, ph.p_va ≤ y → y < ph.p_va + ph.p_memsz → pageBase ph.p_va ≤ y ∧
            pageBase y < ph.p_va + ph.p_memsz :=
          fun y hy hlt => Program.Has.covers ⟨hy, hlt⟩
        obtain ⟨htables, hvalid, hinUse, hdata⟩ := @loadData_spec _ _ _ _ _ _ _ _ _ _ ph.p_offset
          halloc.framed (fun y hy hlt => hrange y hy (Nat.lt_of_lt_of_le hlt hbound.2))
          (Nat.le_trans hbound.2 hbound.1) _ _ _ _ (Nat.le_refl _) (Nat.le_add_right _ _) rfl
          (by rw [Nat.sub_self, Nat.add_zero]; exact hload)
        obtain ⟨htables', hheap, hzeros⟩ := zeroRest_spec halloc.framed
          (fun y hy hlt => hrange y (by omega) hlt) hbound.1
          (Nat.le_refl _) hbound.2 htables (by rw [← htables]; exact hzero)
        have hgrows : Grows source pt vaLowEnd k.tables k.heap k₁.tables k'.heap := by
          rw [hheap]
          refine halloc.grows.trans (halloc.grows.space.alloc (hvalid halloc.grows.space.valid)
            fun p hp => ?_)
          exact (hinUse p).mpr hp
        refine ⟨hbound.1, htables' ▸ hgrows, fun x hx => ?_, fun x hx hnot => ?_, fun a ha => ?_⟩
        · obtain ⟨f, hf, halign, hfresh, hin⟩ := halloc.framed.mapped x hx.1 hx.2
          have hbase : pageBase (f + x % pageSize) = f :=
            pageBase_add halign (Nat.mod_lt _ (by decide))
          refine ⟨f + x % pageSize, by rw [htables']; exact hf, by rw [hbase]; exact hfresh, ?_, ?_⟩
          · rw [hbase, hheap]
            exact (hinUse f).mpr hin
          · -- the byte is written by the second loop, by the third, or by none
            by_cases hhas : ph.Has x
            · rw [if_pos hhas]
              unfold Program.Has at hhas
              unfold Program.byte
              by_cases hfilesz : x < ph.p_va + ph.p_filesz
              · rw [if_pos (by omega), hzeros.there x hx.1 hx.2 (by omega) _ hf]
                exact hdata.here x hx.1 hx.2 hhas.1 hfilesz _ hf
              · rw [if_neg (by omega)]
                exact hzeros.here x hx.1 hx.2 (by omega) hhas.2 _ hf
            · rw [if_neg hhas]
              unfold Program.Has at hhas
              rw [hzeros.there x hx.1 hx.2 (by omega) _ hf, hdata.there x hx.1 hx.2 (by omega) _ hf,
                hmem₁]
        · rw [htables']
          exact halloc.other x hx hnot
        · have hnew : ¬ (¬ source.InUse k.heap (pageBase a) ∧
              source.InUse k₁.heap (pageBase a)) := fun hc =>
            ha ⟨hc.1, by rw [hheap]; exact (hinUse _).mpr hc.2⟩
          rw [hzeros.other a hnew, hdata.other a hnew, hmem₁]

end Segment

/-! ## The image -/

section Image
variable {σ : Type} {source : PageSource σ} {ld : Loader source} {k k' : State σ} {pt : Nat}
  {ph : Program} {data : List UInt8} {done : List Program} {m₀ : Mem}

/-- The segments that are loaded, the last one first: an address has what the last segment that has
its page gives it, or what the new page held. -/
structure ImageInv (source : PageSource σ) (pt : Nat) (data : List UInt8) (m₀ : Mem)
    (done : List Program) (k : State σ) : Prop where
  space : Space source k.tables pt vaLowEnd k.heap
  bound : ∀ ph ∈ done, ph.p_va + ph.p_memsz ≤ vaLowEnd
  unused : ∀ a, ¬ source.InUse k.heap (pageBase a) → k.mem a = m₀ a
  owned : ∀ x ph, done.find? (fun ph => ph.Covers x) = some ph →
    ∃ pa, (translation k.tables pt x).1 = some pa ∧ source.InUse k.heap (pageBase pa) ∧
    if ph.Has x then ph.byte data (x - ph.p_va) = some (k.mem pa) else k.mem pa = m₀ pa

theorem ImageInv.cons (h : ImageInv source pt data m₀ done k) (hl : Loaded source pt data ph k k') :
    ImageInv source pt data m₀ (ph :: done) k' where
  space := hl.grows.space
  bound := List.forall_mem_cons.mpr ⟨hl.bound, h.bound⟩
  unused a ha := by
    rw [hl.memory a fun hc => ha hc.2]
    exact h.unused a fun hin => ha (hl.grows.inUse _ hin)
  owned x c hc := by
    rw [List.find?_cons] at hc
    by_cases hcovers : ph.Covers x
    · rw [decide_eq_true hcovers] at hc
      cases hc
      obtain ⟨pa, hpa, hfresh, hin, hbyte⟩ := hl.covered x hcovers
      refine ⟨pa, hpa, hin, ?_⟩
      by_cases hhas : ph.Has x
      · rw [if_pos hhas] at hbyte ⊢
        exact hbyte
      · rw [if_neg hhas] at hbyte ⊢
        rw [hbyte, h.unused pa hfresh]
    · rw [decide_eq_false hcovers] at hc
      have hc : done.find? (fun ph => ph.Covers x) = some c := hc
      have hbound := h.bound c (List.mem_of_find?_eq_some hc)
      have hcc : c.Covers x :=
        of_decide_eq_true (List.find?_some (p := fun ph : Program => decide (ph.Covers x)) hc)
      have hlow : x < vaLowEnd := by
        unfold Program.Covers pageBase pageSize vaLowEnd at *
        omega
      obtain ⟨pa, hpa, hin, hbyte⟩ := h.owned x c hc
      refine ⟨pa, by rw [hl.other x hlow hcovers, hpa], hl.grows.inUse _ hin, ?_⟩
      rw [hl.memory pa fun hc => hc.1 hin]
      exact hbyte

/-- **The loop over the program headers.** -/
theorem loadPrograms_spec {r : Int} (hr : ¬ r < 0) : ∀ {phs done : List Program} {k : State σ},
    ImageInv source pt ld.data m₀ done k → loadPrograms ld pt phs k = some (k', r) →
    ImageInv source pt ld.data m₀
    ((phs.filter fun ph => ph.p_type = ELF_PTYPE_LOAD).reverse ++ done) k' := by
  intro phs
  induction phs with
  | nil =>
    intro done k h hrun
    cases hrun
    exact h
  | cons ph phs ih =>
    intro done k h hrun
    unfold loadPrograms at hrun
    by_cases hload : ph.p_type = ELF_PTYPE_LOAD
    · rw [if_pos hload] at hrun
      obtain ⟨⟨k₁, r₁⟩, hseg, hrun⟩ := Option.bind_eq_some_iff.mp hrun
      by_cases hneg : r₁ < 0
      · dsimp only at hrun
        rw [if_pos hneg] at hrun
        cases hrun
        exact absurd hneg hr
      · dsimp only at hrun
        rw [if_neg hneg] at hrun
        have hnext := ih (h.cons (loadSegment_spec h.space hneg hseg)) hrun
        rw [List.filter_cons_of_pos (by simpa using hload), List.reverse_cons, List.append_assoc]
        exact hnext
    · rw [if_neg hload] at hrun
      rw [List.filter_cons_of_neg (by simpa using hload)]
      exact ih h hrun

/-! ## The headers -/

section Headers
variable {bytes : List UInt8} (hpre : bytes <+: data)
include hpre

theorem field_cut {i n : Nat} (h : i + n ≤ bytes.length) : field bytes i n = field data i n := by
  refine getLE_congr fun x _ hx => ?_
  have hx : x < bytes.length := by omega
  rw [List.getD_eq_getElem?_getD, List.getD_eq_getElem?_getD, List.prefix_iff_getElem?.mp hpre x hx,
    List.getElem?_eq_getElem hx]

theorem header_prefix (h : headerSize ≤ bytes.length) : Header.read bytes = Header.read data := by
  unfold headerSize at h
  unfold Header.read
  rw [field_cut hpre (by omega), field_cut hpre (by omega), field_cut hpre (by omega),
    field_cut hpre (by omega), field_cut hpre (by omega), field_cut hpre (by omega),
    field_cut hpre (by omega)]

theorem program_prefix {i : Nat} (h : i + programSize ≤ bytes.length) :
    Program.read bytes i = Program.read data i := by
  unfold programSize at h
  unfold Program.read
  rw [field_cut hpre (by omega), field_cut hpre (by omega), field_cut hpre (by omega),
    field_cut hpre (by omega), field_cut hpre (by omega)]

/-- The program headers are in the bytes that `load` has read. -/
theorem programs_cut (h : headerSize ≤ bytes.length)
    (hacc : (Header.read bytes).Accepted bytes.length) : programs bytes = programs data := by
  have heq := header_prefix hpre h
  unfold programs
  rw [← heq]
  refine List.map_congr_left fun i hi => program_prefix hpre ?_
  have hi := List.mem_range.mp hi
  unfold Header.Accepted at hacc
  simp only [not_or, Nat.not_lt, not_not] at hacc
  have hphoff : (Header.read bytes).e_phoff ≤ bytes.length := by omega
  have hnum : (Header.read bytes).e_phnum ≤ (bytes.length - (Header.read bytes).e_phoff) /
      programSize := by omega
  have hmul := Nat.mul_le_of_le_div _ _ _ hnum
  have hi' := Nat.mul_le_mul_right programSize hi
  rw [Nat.succ_mul] at hi'
  omega

end Headers

theorem load_spec {entry : Nat} (hs : Space source k.tables pt vaLowEnd k.heap)
    (h : load ld pt k = some (k', .ok entry)) :
    ImageInv source pt ld.data k.mem (segments ld.data).reverse k' := by
  unfold load at h
  dsimp only at h
  have hspace :=
    (hs.alloc (ld.valid k.heap 0 hs.valid) fun p hp => (ld.inUse k.heap 0 p).mpr hp).space
  cases hpage : (ld.getPage k.heap 0).2 with
  | error e =>
    rw [hpage] at h
    cases h
  | ok headerpg =>
    rw [hpage] at h
    dsimp only at h
    have hpre : headerpg <+: ld.data := ld.page _ _ _ hpage
    by_cases hlen : headerpg.length < headerSize
    · rw [if_pos hlen] at h
      cases h
    · rw [if_neg hlen] at h
      by_cases hacc : (Header.read headerpg).Accepted headerpg.length
      · rw [if_pos hacc] at h
        obtain ⟨⟨k₁, r⟩, hrun, heq⟩ := Option.map_eq_some_iff.mp h
        have hr : ¬ r < 0 := by
          intro hneg
          dsimp only at heq
          rw [if_pos hneg] at heq
          cases heq
        obtain rfl : k₁ = k' := (Prod.mk.inj heq).1
        have hstart : ImageInv source pt ld.data k.mem []
            ⟨k.tables, k.mem, (ld.getPage k.heap 0).1⟩ :=
          ⟨hspace, fun ph hph => absurd hph List.not_mem_nil, fun _ _ => rfl, fun x ph hph =>
            absurd hph (by simp)⟩
        have hinv := loadPrograms_spec hr hstart hrun
        rw [programs_cut hpre (Nat.le_of_not_lt hlen) hacc, List.append_nil] at hinv
        exact hinv
      · rw [if_neg hacc] at h
        cases h

end Image

/-! ## What a load leaves alone -/

section Leaves
variable {σ : Type} {source : PageSource σ} {ld : Loader source} {pt : Nat} {ph : Program}

theorem allocate_grows {endMem : Nat} {ok : Bool} (hlow : endMem ≤ vaLowEnd) :
    ∀ {fuel va : Nat} {k k' : State σ}, Space source k.tables pt vaLowEnd k.heap →
    allocate source endMem fuel (Vmiter.mk' k.tables pt va) k = some (k', ok) →
    Grows source pt vaLowEnd k.tables k.heap k'.tables k'.heap := by
  intro fuel
  induction fuel with
  | zero =>
    intro va k k' _ hrun
    cases hrun
  | succ fuel ih =>
    intro va k k' hs hrun
    have hmk : (Vmiter.mk' k.tables pt va).va = va := by rw [mk'_eq]
    have hpt : (Vmiter.mk' k.tables pt va).pt = pt := by rw [mk'_eq]
    unfold allocate at hrun
    rw [hmk, hpt] at hrun
    by_cases hlt : va < endMem
    · rw [if_pos hlt] at hrun
      have hva := Nat.lt_of_lt_of_le hlt hlow
      obtain ⟨s₁, r, halloc, hvalid, hinUse, -⟩ := source.spec k.heap hs.valid
      rw [halloc, Option.bind_some] at hrun
      have hg₁ := hs.alloc hvalid fun p hp => (hinUse p).mpr (.inr hp)
      cases r with
      | none =>
        cases hrun
        exact hg₁
      | some pg =>
        obtain ⟨⟨t₂, s₂, ok'⟩, hmap, hrun⟩ := Option.bind_eq_some_iff.mp hrun
        have hg₂ := hg₁.trans (map_spec hg₁.space hva (by decide) hmap).2.1
        dsimp only at hrun
        cases ok' with
        | false =>
          cases hrun
          exact hg₂
        | true =>
          have hadd : (Vmiter.mk' t₂ pt va).add t₂ pageSize = Vmiter.mk' t₂ pt (va + pageSize) := by
            refine add_mk' ?_
            unfold vaLowEnd pageSize at *
            omega
          rw [if_pos rfl, hadd] at hrun
          exact hg₂.trans
            (@ih (va + pageSize) { k with tables := t₂, heap := s₂ } k' hg₂.space hrun)
    · rw [if_neg hlt] at hrun
      cases hrun
      exact hs.alloc hs.valid fun _ h => h

theorem loadData_leaves {endFile : Nat} {e : Option Int} :
    ∀ {fuel off : Nat} {it : Vmiter} {k k' : State σ},
    loadData ld endFile fuel it off k = some (k', e) →
    k'.tables = k.tables ∧ (source.Valid k.heap → source.Valid k'.heap) ∧
    ∀ p, source.InUse k'.heap p ↔ source.InUse k.heap p := by
  intro fuel
  induction fuel with
  | zero =>
    intro off it k k' h
    cases h
  | succ fuel ih =>
    intro off it k k' h
    have hvalid := ld.valid k.heap (pageBase off)
    have hinUse := ld.inUse k.heap (pageBase off)
    unfold loadData at h
    split at h
    · dsimp only at h
      split at h
      · cases h
        exact ⟨rfl, hvalid, hinUse⟩
      · split at h
        · cases h
          exact ⟨rfl, hvalid, hinUse⟩
        · obtain ⟨pa, -, h⟩ := Option.bind_eq_some_iff.mp h
          obtain ⟨htables, hvalid', hinUse'⟩ := ih h
          exact ⟨htables, fun hv => hvalid' (hvalid hv), fun p => (hinUse' p).trans (hinUse p)⟩
    · cases h
      exact ⟨rfl, fun hv => hv, fun _ => Iff.rfl⟩

theorem zeroRest_leaves {endMem : Nat} :
    ∀ {fuel : Nat} {it : Vmiter} {k k' : State σ}, zeroRest endMem fuel it k = some k' →
    k'.tables = k.tables ∧ k'.heap = k.heap := by
  intro fuel
  induction fuel with
  | zero =>
    intro it k k' h
    cases h
  | succ fuel ih =>
    intro it k k' h
    unfold zeroRest at h
    split at h
    · obtain ⟨pa, -, h⟩ := Option.bind_eq_some_iff.mp h
      obtain ⟨htables, hheap⟩ := ih h
      exact ⟨htables, hheap⟩
    · cases h
      exact ⟨rfl, rfl⟩

theorem loadSegment_grows {k k' : State σ} {r : Int} (hs : Space source k.tables pt vaLowEnd k.heap)
    (h : loadSegment ld pt ph k = some (k', r)) :
    Grows source pt vaLowEnd k.tables k.heap k'.tables k'.heap := by
  unfold loadSegment at h
  dsimp only at h
  by_cases hcheck : ph.p_va > vaLowEnd ∨ vaLowEnd - ph.p_va < ph.p_memsz ∨ ph.p_memsz < ph.p_filesz
  · rw [if_pos hcheck] at h
    cases h
    exact hs.alloc hs.valid fun _ h => h
  · rw [if_neg hcheck] at h
    have hbound : ph.p_va + ph.p_memsz ≤ vaLowEnd := by omega
    have hmem : wrap64 (ph.p_va + ph.p_memsz) = ph.p_va + ph.p_memsz :=
      wrap64_eq (Nat.lt_of_le_of_lt hbound (by decide))
    rw [hmem] at h
    obtain ⟨⟨k₁, ok⟩, hallocate, h⟩ := Option.bind_eq_some_iff.mp h
    have hg := allocate_grows hbound hs hallocate
    cases ok with
    | false =>
      cases h
      exact hg
    | true =>
      obtain ⟨⟨k₂, e⟩, hload, h⟩ := Option.bind_eq_some_iff.mp h
      obtain ⟨htables, hvalid, hinUse⟩ := loadData_leaves hload
      dsimp only at htables hvalid hinUse
      have hg₂ : Grows source pt vaLowEnd k.tables k.heap k₂.tables k₂.heap := by
        rw [htables]
        exact hg.trans (hg.space.alloc (hvalid hg.space.valid) fun p hp => (hinUse p).mpr hp)
      cases e with
      | some e =>
        cases h
        exact hg₂
      | none =>
        obtain ⟨k₃, hzero, heq⟩ := Option.map_eq_some_iff.mp h
        cases heq
        obtain ⟨htables', hheap⟩ := zeroRest_leaves hzero
        rw [htables', hheap]
        exact hg₂

theorem loadPrograms_grows {r : Int} :
    ∀ {phs : List Program} {k k' : State σ}, Space source k.tables pt vaLowEnd k.heap →
    loadPrograms ld pt phs k = some (k', r) →
    Grows source pt vaLowEnd k.tables k.heap k'.tables k'.heap := by
  intro phs
  induction phs with
  | nil =>
    intro k k' hs h
    cases h
    exact hs.alloc hs.valid fun _ h => h
  | cons ph phs ih =>
    intro k k' hs h
    unfold loadPrograms at h
    split at h
    · obtain ⟨⟨k₁, r₁⟩, hseg, h⟩ := Option.bind_eq_some_iff.mp h
      have hg := loadSegment_grows hs hseg
      dsimp only at h
      split at h
      · cases h
        exact hg
      · exact hg.trans (ih hg.space h)
    · exact ih hs h

/-- **However `load` ends**, the page table has grown: every page that was in use is. -/
theorem load_grows {k k' : State σ} {r : Except Int Nat}
    (hs : Space source k.tables pt vaLowEnd k.heap) (h : load ld pt k = some (k', r)) :
    Grows source pt vaLowEnd k.tables k.heap k'.tables k'.heap := by
  have hg := hs.alloc (ld.valid k.heap 0 hs.valid) fun p hp => (ld.inUse k.heap 0 p).mpr hp
  unfold load at h
  dsimp only at h
  split at h
  · cases h
    exact hg
  · split at h
    · cases h
      exact hg
    · split at h
      · obtain ⟨⟨k₁, r₁⟩, hrun, heq⟩ := Option.map_eq_some_iff.mp h
        cases heq
        exact hg.trans (loadPrograms_grows hg.space hrun)
      · cases h
        exact hg

theorem loadPrograms_memory {r : Int} (hr : ¬ r < 0) {a : Nat} :
    ∀ {phs : List Program} {k k' : State σ}, Space source k.tables pt vaLowEnd k.heap →
    source.InUse k.heap (pageBase a) → loadPrograms ld pt phs k = some (k', r) →
    k'.mem a = k.mem a := by
  intro phs
  induction phs with
  | nil =>
    intro k k' _ _ h
    cases h
    rfl
  | cons ph phs ih =>
    intro k k' hs ha h
    unfold loadPrograms at h
    split at h
    · obtain ⟨⟨k₁, r₁⟩, hseg, h⟩ := Option.bind_eq_some_iff.mp h
      dsimp only at h
      split at h
      · rename_i hneg
        cases h
        exact absurd hneg hr
      · rename_i hpos
        have hl := loadSegment_spec hs hpos hseg
        rw [ih hl.grows.space (hl.grows.inUse _ ha) h, hl.memory a fun hc => hc.1 ha]
    · exact ih hs ha h

/-- A program that is loaded is loaded into new pages. -/
theorem load_memory {k k' : State σ} {entry a : Nat} (hs : Space source k.tables pt vaLowEnd k.heap)
    (ha : source.InUse k.heap (pageBase a)) (h : load ld pt k = some (k', .ok entry)) :
    k'.mem a = k.mem a := by
  have hg := hs.alloc (ld.valid k.heap 0 hs.valid) fun p hp => (ld.inUse k.heap 0 p).mpr hp
  unfold load at h
  dsimp only at h
  split at h
  · cases h
  · split at h
    · cases h
    · split at h
      · obtain ⟨⟨k₁, r⟩, hrun, heq⟩ := Option.map_eq_some_iff.mp h
        have hr : ¬ r < 0 := by
          intro hneg
          dsimp only at heq
          rw [if_pos hneg] at heq
          cases heq
        obtain rfl : k₁ = k' := (Prod.mk.inj heq).1
        exact (loadPrograms_memory hr hg.space (hg.inUse _ ha) hrun :)
      · cases h

end Leaves

/-! ## What the memory holds decides nothing -/

section Memory
variable {σ : Type} {source : PageSource σ} {ld : Loader source} {k' : State σ} {pt : Nat}

theorem allocate_mem {endMem : Nat} {ok : Bool} (m : Mem) :
    ∀ {fuel : Nat} {it : Vmiter} {k : State σ}, allocate source endMem fuel it k = some (k', ok) →
    ∃ m', allocate source endMem fuel it { k with mem := m } =
    some ({ k' with mem := m' }, ok) := by
  intro fuel
  induction fuel with
  | zero =>
    intro it k h
    cases h
  | succ fuel ih =>
    intro it k h
    unfold allocate at h ⊢
    split at h
    · rename_i hlt
      rw [if_pos hlt]
      obtain ⟨⟨s, r⟩, halloc, h⟩ := Option.bind_eq_some_iff.mp h
      dsimp only
      rw [halloc, Option.bind_some]
      cases r with
      | none =>
        cases h
        exact ⟨m, rfl⟩
      | some pg =>
        obtain ⟨⟨t, s, ok'⟩, hmap, h⟩ := Option.bind_eq_some_iff.mp h
        dsimp only at h ⊢
        rw [hmap, Option.bind_some]
        cases ok' with
        | false =>
          cases h
          exact ⟨m, rfl⟩
        | true => exact ih h
    · rename_i hlt
      cases h
      rw [if_neg hlt]
      exact ⟨m, rfl⟩

theorem loadData_mem {endFile : Nat} {e : Option Int} :
    ∀ {fuel off : Nat} {it : Vmiter} {k : State σ} (m : Mem),
    loadData ld endFile fuel it off k = some (k', e) →
    ∃ m', loadData ld endFile fuel it off { k with mem := m } =
    some ({ k' with mem := m' }, e) := by
  intro fuel
  induction fuel with
  | zero =>
    intro off it k m h
    cases h
  | succ fuel ih =>
    intro off it k m h
    unfold loadData at h ⊢
    split at h
    · rename_i hlt
      rw [if_pos hlt]
      dsimp only at h ⊢
      cases hpage : (ld.getPage k.heap (pageBase off)).2 with
      | error e =>
        rw [hpage] at h
        cases h
        exact ⟨m, rfl⟩
      | ok datapg =>
        rw [hpage] at h
        dsimp only at h ⊢
        split at h
        · rename_i hend
          cases h
          rw [if_pos hend]
          exact ⟨m, rfl⟩
        · rename_i hend
          obtain ⟨pa, hka, h⟩ := Option.bind_eq_some_iff.mp h
          rw [if_neg hend, hka, Option.bind_some]
          exact ih _ h
    · rename_i hlt
      cases h
      rw [if_neg hlt]
      exact ⟨m, rfl⟩

theorem zeroRest_mem {endMem : Nat} : ∀ {fuel : Nat} {it : Vmiter} {k : State σ} (m : Mem),
    zeroRest endMem fuel it k = some k' → ∃ m', zeroRest endMem fuel it { k with mem := m } =
    some { k' with mem := m' } := by
  intro fuel
  induction fuel with
  | zero =>
    intro it k m h
    cases h
  | succ fuel ih =>
    intro it k m h
    unfold zeroRest at h ⊢
    split at h
    · rename_i hlt
      rw [if_pos hlt]
      obtain ⟨pa, hka, h⟩ := Option.bind_eq_some_iff.mp h
      obtain ⟨m', hrest⟩ := ih (Ring.store m pa (List.replicate (min it.lastVa endMem - it.va) 0)) h
      dsimp only
      rw [hka, Option.bind_some]
      exact ⟨m', hrest⟩
    · rename_i hlt
      cases h
      rw [if_neg hlt]
      exact ⟨m, rfl⟩

theorem loadSegment_mem {ph : Program} {k : State σ} {r : Int} (m : Mem)
    (h : loadSegment ld pt ph k = some (k', r)) : ∃ m', loadSegment ld pt ph { k with mem := m } =
    some ({ k' with mem := m' }, r) := by
  unfold loadSegment at h ⊢
  dsimp only at h ⊢
  split at h
  · rename_i hcheck
    cases h
    rw [if_pos hcheck]
    exact ⟨m, rfl⟩
  · rename_i hcheck
    rw [if_neg hcheck]
    obtain ⟨⟨k₁, ok⟩, hallocate, h⟩ := Option.bind_eq_some_iff.mp h
    obtain ⟨m₁, hallocate⟩ := allocate_mem m hallocate
    rw [hallocate, Option.bind_some]
    cases ok with
    | false =>
      cases h
      exact ⟨m₁, rfl⟩
    | true =>
      obtain ⟨⟨k₂, e⟩, hload, h⟩ := Option.bind_eq_some_iff.mp h
      obtain ⟨m₂, hload⟩ := loadData_mem m₁ hload
      dsimp only at hload ⊢
      rw [if_pos rfl, hload, Option.bind_some]
      cases e with
      | some e =>
        cases h
        exact ⟨m₂, rfl⟩
      | none =>
        obtain ⟨k₃, hzero, heq⟩ := Option.map_eq_some_iff.mp h
        obtain ⟨m₃, hzero⟩ := zeroRest_mem m₂ hzero
        cases heq
        dsimp only at hzero ⊢
        rw [hzero]
        exact ⟨m₃, rfl⟩

theorem loadPrograms_mem {r : Int} :
    ∀ {phs : List Program} {k : State σ} (m : Mem), loadPrograms ld pt phs k = some (k', r) →
    ∃ m', loadPrograms ld pt phs { k with mem := m } = some ({ k' with mem := m' }, r) := by
  intro phs
  induction phs with
  | nil =>
    intro k m h
    cases h
    exact ⟨m, rfl⟩
  | cons ph phs ih =>
    intro k m h
    unfold loadPrograms at h ⊢
    split at h
    · rename_i hload
      rw [if_pos hload]
      obtain ⟨⟨k₁, r₁⟩, hseg, h⟩ := Option.bind_eq_some_iff.mp h
      obtain ⟨m₁, hseg⟩ := loadSegment_mem m hseg
      rw [hseg, Option.bind_some]
      dsimp only at h ⊢
      split at h
      · rename_i hneg
        cases h
        rw [if_pos hneg]
        exact ⟨m₁, rfl⟩
      · rename_i hneg
        rw [if_neg hneg]
        exact ih m₁ h
    · rename_i hload
      rw [if_neg hload]
      exact ih m h

theorem load_mem {k : State σ} {r : Except Int Nat} (m : Mem) (h : load ld pt k = some (k', r)) :
    ∃ m', load ld pt { k with mem := m } = some ({ k' with mem := m' }, r) := by
  unfold load at h ⊢
  dsimp only at h ⊢
  cases hpage : (ld.getPage k.heap 0).2 with
  | error e =>
    rw [hpage] at h
    cases h
    exact ⟨m, rfl⟩
  | ok headerpg =>
    rw [hpage] at h
    dsimp only at h ⊢
    split at h
    · rename_i hlen
      cases h
      rw [if_pos hlen]
      exact ⟨m, rfl⟩
    · rename_i hlen
      rw [if_neg hlen]
      split at h
      · rename_i hacc
        rw [if_pos hacc]
        obtain ⟨⟨k₁, r₁⟩, hrun, heq⟩ := Option.map_eq_some_iff.mp h
        obtain ⟨m₁, hrun⟩ := loadPrograms_mem m hrun
        cases heq
        dsimp only at hrun
        rw [hrun]
        exact ⟨m₁, rfl⟩
      · rename_i hacc
        cases h
        rw [if_neg hacc]
        exact ⟨m, rfl⟩

end Memory

/-! ## When the image is right -/

/-- The segments are in disjoint ranges. -/
def Disjoint (data : List UInt8) : Prop :=
  (segments data).Pairwise fun a b => ∀ x, ¬ (a.Has x ∧ b.Has x)

/-- No segment has a page that an earlier one has a byte in. -/
def Apart (data : List UInt8) : Prop := (segments data).Pairwise fun a b => ∀ x, a.Has x →
    ¬ b.Covers x

/-- Every byte of every segment has the value the file specifies. -/
def Image {σ : Type} (data : List UInt8) (pt : Nat) (k : State σ) : Prop :=
  ∀ ph ∈ segments data, ∀ x, ph.Has x → ∃ pa, (translation k.tables pt x).1 = some pa ∧
    ph.byte data (x - ph.p_va) = some (k.mem pa)

section Main
variable {σ : Type} {source : PageSource σ} {ld : Loader source} {k k' : State σ} {pt x : Nat}
  {a : Program} {l pre post : List Program}

/-- The last segment that has the page of an address. -/
theorem find_reverse (h : a.Covers x) (hpost : ∀ b ∈ post, ¬ b.Covers x) :
    (pre ++ a :: post).reverse.find? (fun ph => ph.Covers x) = some a := by
  have hnone : post.reverse.find? (fun ph => ph.Covers x) = none := by
    rw [List.find?_eq_none]
    intro b hb
    simpa using hpost b (List.mem_reverse.mp hb)
  rw [List.reverse_append, List.reverse_cons, List.append_assoc, List.find?_append, hnone,
    Option.none_or, List.singleton_append, List.find?_cons_of_pos (by simpa using h)]

theorem find_reverse_later {b : Program} (hb : b ∈ post) (h : b.Covers x) :
    ∃ c ∈ post, (pre ++ a :: post).reverse.find? (fun ph => ph.Covers x) = some c := by
  have hsome : (post.reverse.find? fun ph => ph.Covers x).isSome = true := by
    rw [List.find?_isSome]
    exact ⟨b, List.mem_reverse.mpr hb, by simpa using h⟩
  obtain ⟨c, hc⟩ := Option.isSome_iff_exists.mp hsome
  refine ⟨c, List.mem_reverse.mp (List.mem_of_find?_eq_some hc), ?_⟩
  rw [List.reverse_append, List.reverse_cons, List.append_assoc, List.find?_append, hc,
    Option.some_or]

theorem pairwise_iff_split {R : Program → Program → Prop} :
    l.Pairwise R ↔ ∀ pre a post, l = pre ++ a :: post → ∀ b ∈ post, R a b := by
  constructor
  · rintro h pre a post rfl b hb
    exact (List.pairwise_cons.mp (List.pairwise_append.mp h).2.1).1 b hb
  · intro h
    induction l with
    | nil => exact List.Pairwise.nil
    | cons a l ih =>
      refine List.pairwise_cons.mpr ⟨h [] a l rfl, ih fun pre b post hl => ?_⟩
      exact h (a :: pre) b post (by rw [hl]; rfl)

/-- **The image is the one the file describes, exactly when** no segment has a page that an earlier
one has a byte in. -/
theorem load_image_iff (ld : Loader source) {entry : Nat}
    (hs : Space source k.tables pt vaLowEnd k.heap) (hdisjoint : Disjoint ld.data)
    (hrun : load ld pt k = some (k', .ok entry)) :
    (∀ m k', load ld pt { k with mem := m } = some (k', .ok entry) → Image ld.data pt k') ↔
    Apart ld.data := by
  constructor
  · intro h
    refine pairwise_iff_split.mpr fun pre a post hl b hb x hhas hcovers => ?_
    obtain ⟨c, hc, hfind⟩ := @find_reverse_later _ a pre _ _ hb hcovers
    have hnot : ¬ c.Has x :=
      fun hchas => pairwise_iff_split.mp hdisjoint pre a post hl c hc x ⟨hhas, hchas⟩
    have hmem : a ∈ segments ld.data := by
      rw [hl]
      exact List.mem_append_right _ List.mem_cons_self
    -- a byte the file does not specify for the address
    obtain ⟨u, hu⟩ : ∃ u : UInt8, a.byte ld.data (x - a.p_va) ≠ some u := by
      by_cases hzero : a.byte ld.data (x - a.p_va) = some 0
      · exact ⟨1, by rw [hzero]; decide⟩
      · exact ⟨0, hzero⟩
    obtain ⟨m', hrun'⟩ := load_mem (fun _ => u) hrun
    obtain ⟨pa, hpa, hbyte⟩ := h _ _ hrun' a hmem x hhas
    obtain ⟨pa', hpa', -, hgarbage⟩ :=
      (load_spec (k := { k with mem := fun _ => u }) hs hrun').owned x c (by rw [hl]; exact hfind)
    rw [if_neg hnot] at hgarbage
    rw [hpa] at hpa'
    cases hpa'
    rw [hgarbage] at hbyte
    exact hu hbyte
  · intro h m k'' hrun' a ha x hhas
    obtain ⟨pre, post, hl⟩ := List.append_of_mem ha
    have hfind := @find_reverse _ _ pre _ hhas.covers fun b hb =>
        pairwise_iff_split.mp h pre a post hl b hb x hhas
    obtain ⟨pa, hpa, -, hbyte⟩ :=
      (load_spec (k := { k with mem := m }) hs hrun').owned x a (by rw [hl]; exact hfind)
    rw [if_pos hhas] at hbyte
    exact ⟨pa, hpa, hbyte⟩

end Main

/-! ## Two files -/

/-- A program header, as bytes. -/
def Program.bytes (ph : Program) : List UInt8 :=
  toLE 4 ph.p_type ++ toLE 4 0 ++ toLE 8 ph.p_offset ++ toLE 8 ph.p_va ++ toLE 8 0 ++
    toLE 8 ph.p_filesz ++ toLE 8 ph.p_memsz ++ toLE 8 0

/-- A file of a header and two program headers. -/
def twoSegments (a b : Program) : List UInt8 :=
  toLE 4 ELF_MAGIC ++ List.replicate 12 0 ++ toLE 2 ELF_ET_EXEC ++ List.replicate 6 0 ++
    toLE 8 a.p_va ++ toLE 8 headerSize ++ List.replicate 14 0 ++ toLE 2 programSize ++ toLE 2 2 ++
    toLE 2 sectionSize ++ List.replicate 4 0 ++ a.bytes ++ b.bytes

/-- Before a program is loaded into a page table without low mappings. -/
def beforeLoad : State Nat := ⟨fun _ _ => .zero, fun _ => 0xCC, 1⟩

theorem space_beforeLoad : Space pagesFrom beforeLoad.tables 0x1000 vaLowEnd beforeLoad.heap := by
  refine ⟨trivial, tree_empty 0x1000 (by decide), ?_⟩
  rintro page ⟨level, hle, va, -, hpage⟩
  obtain ⟨-, rfl⟩ := table_empty hpage hle
  exact ⟨1, by decide, rfl⟩

/-- Two segments with no page in common. -/
def apartFile : List UInt8 :=
  twoSegments ⟨ELF_PTYPE_LOAD, 0, 0x100000, 176, 0x1800⟩ ⟨ELF_PTYPE_LOAD, 8, 0x102010, 16, 32⟩

/-- Two segments in one page. -/
def sharedFile : List UInt8 :=
  twoSegments ⟨ELF_PTYPE_LOAD, 0, 0x100000, 4, 4⟩ ⟨ELF_PTYPE_LOAD, 0, 0x100010, 4, 4⟩

theorem load_image_iff_apartFile :
    ∃ k', load (memfileLoader pagesFrom (some apartFile)) 0x1000 beforeLoad =
    some (k', .ok 0x100000) ∧
    ((∀ m k', load (memfileLoader pagesFrom (some apartFile)) 0x1000 { beforeLoad with mem := m } =
    some (k', .ok 0x100000) →
      Image apartFile 0x1000 k') ↔ Apart apartFile) := by
  have hsegments : segments apartFile =
      [⟨ELF_PTYPE_LOAD, 0, 0x100000, 176, 0x1800⟩, ⟨ELF_PTYPE_LOAD, 8, 0x102010, 16, 32⟩] := by
        decide +kernel
  have hdisjoint : Disjoint apartFile := by
    unfold Disjoint Program.Has
    rw [hsegments, List.pairwise_pair]
    dsimp only
    omega
  have hrun : (load (memfileLoader pagesFrom (some apartFile)) 0x1000 beforeLoad).map
      (fun r => r.2.toOption) = some (some 0x100000) := by decide +kernel
  obtain ⟨⟨k', r⟩, hrun, hr⟩ := Option.map_eq_some_iff.mp hrun
  cases r with
  | error e => cases hr
  | ok entry =>
    cases hr
    exact ⟨k', hrun, load_image_iff _ space_beforeLoad hdisjoint hrun⟩

/-- The second segment takes the first one's page. -/
theorem load_overwrites : ∃ k', load (memfileLoader pagesFrom (some sharedFile)) 0x1000 beforeLoad =
    some (k', .ok 0x100000) ∧ Disjoint sharedFile ∧ ¬ Image sharedFile 0x1000 k' := by
  have hsegments : segments sharedFile =
      [⟨ELF_PTYPE_LOAD, 0, 0x100000, 4, 4⟩, ⟨ELF_PTYPE_LOAD, 0, 0x100010, 4, 4⟩] := by
    decide +kernel
  have hrun : (load (memfileLoader pagesFrom (some sharedFile)) 0x1000 beforeLoad).map (fun r =>
      (r.2.toOption, (translation r.1.tables 0x1000 0x100000).1.map r.1.mem)) =
        some (some 0x100000, some 0xCC) := by
    decide +kernel
  obtain ⟨⟨k', r⟩, hrun, hr⟩ := Option.map_eq_some_iff.mp hrun
  obtain ⟨hentry, hbyte⟩ := Prod.mk.inj hr
  cases r with
  | error e => cases hentry
  | ok entry =>
    cases hentry
    refine ⟨k', hrun, ?_, fun himage => ?_⟩
    · unfold Disjoint Program.Has
      rw [hsegments, List.pairwise_pair]
      dsimp only
      omega
    · obtain ⟨pa, hpa, hval⟩ :=
        himage _ (by rw [hsegments]; exact List.mem_cons_self) 0x100000 ⟨Nat.le_refl _, by decide⟩
      rw [hpa] at hbyte
      have hmem : k'.mem pa = 0xCC := Option.some.inj hbyte
      rw [hmem] at hval
      exact absurd hval (by decide +kernel)

end Elf
end PugOS.PageTable
