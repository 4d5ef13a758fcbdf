import PugOS.ChkFSMap
import PugOS.Transition

/-! # Allocating blocks side by side

Any number of calls of `allocate_block`, with a step for each test of a bit: the write reference of
the bitmap's entry (`get_write`) is what keeps them apart.  A file system has as many bitmap blocks
as `mkchickadeefs` lays out for its number of blocks, and a call has the buffer of the first.

In every run in which a search finds a bit in that buffer or the file system has no other bitmap
block, the calls return what they would have returned one after another (`allocations_serial`).
-/
namespace PugOS.BlockAlloc
open Bytes ChkFS
open Journal (blocksize)

/-! ## The geometry -/

/-- The options of `mkchickadeefs`, 0 if not given. -/
structure Options where
  blocks : Nat
  inodes : Nat
  swap : Nat
  journal : Nat
  firstData : Nat

/-- What `parse_uint32` accepts. -/
def Options.Ok (o : Options) : Prop :=
  o.blocks < 2 ^ 31 ∧ o.inodes < 2 ^ 31 ∧ o.swap < 2 ^ 31 ∧ o.journal < 2 ^ 31 ∧
    o.firstData < 2 ^ 31

/-- What the bitmap depends on, of the superblock. -/
structure Superblock where
  nblocks : Nat
  nswap : Nat
  ninodes : Nat
  njournal : Nat
  swapBn : Nat
  fbbBn : Nat
  inodeBn : Nat
  dataBn : Nat
  journalBn : Nat
  deriving DecidableEq

/-- `chkfs::inodesize`. -/
def inodesize : Nat := 64

/-- The number of bitmap blocks. -/
def nfbb (nblocks : Nat) : Nat := (nblocks + bitsperblock - 1) / bitsperblock

/-- An `inum_t` as a `size_t`. -/
def signExtend (n : Nat) : Nat := if n < 2 ^ 31 then n else n + (2 ^ 64 - 2 ^ 32)

/-- The number of inodes if none is asked for. -/
def defaultInodes (o : Options) (inodeBn : Nat) : Nat :=
  let inodesPerBlock := blocksize / inodesize
  if o.firstData ≠ 0 ∧ o.firstData > inodeBn then (o.firstData - inodeBn) * inodesPerBlock % 2 ^ 32
  else if inodeBn ≤ 3 then (16 - inodeBn) * inodesPerBlock
  else 16 * inodesPerBlock

/-- `main` of `mkchickadeefs`, as far as the superblock; none if it gives up. -/
def layout (o : Options) : Option Superblock :=
  let nblocks := if o.blocks = 0 then 1024 else o.blocks
  let fbbBn := (1 + o.swap) % 2 ^ 32
  let inodeBn := (fbbBn + nfbb nblocks) % 2 ^ 32
  let ninodes := if o.inodes = 0 then defaultInodes o inodeBn else o.inodes
  let ninodeb := (signExtend ninodes * inodesize + blocksize - 1) % 2 ^ 64 / blocksize
  let dataBn := (inodeBn + ninodeb) % 2 ^ 32
  if (dataBn + o.journal) % 2 ^ 32 > nblocks ∨ o.firstData ≠ 0 ∧ o.firstData ≠ dataBn then none
  else some ⟨nblocks, o.swap, ninodes, o.journal, 1, fbbBn, inodeBn, dataBn,
    (nblocks + 2 ^ 32 - o.journal) % 2 ^ 32⟩

theorem layout_nblocks {o : Options} {sb : Superblock} (ho : o.Ok) (h : layout o = some sb) :
    0 < sb.nblocks ∧ sb.nblocks < 2 ^ 31 := by
  have hb : o.blocks < 2 ^ 31 := ho.1
  have hn : sb.nblocks = if o.blocks = 0 then 1024 else o.blocks := by
    unfold layout at h
    dsimp only at h
    generalize (if o.blocks = 0 then 1024 else o.blocks) = nblocks at h ⊢
    obtain ⟨-, h⟩ := Option.ite_none_left_eq_some.mp h
    rw [← Option.some.inj h]
  rw [hn]
  split <;> omega

/-! ## The machine -/

/-- Where the bitmap blocks are kept: block `fbb_bn + i` at `base i`, and no two of them in one
place. -/
structure Buffers where
  base : Nat → Nat
  apart : ∀ i j, i ≠ j → base i + blocksize ≤ base j ∨ base j + blocksize ≤ base i

/-- Where a call is.  The number is its `bn`. -/
inductive Pc where
  | out
  /-- it has the superblock -/
  | super
  /-- it has the entry of the first bitmap block -/
  | entry
  /-- before the loop's test -/
  | scan (bn : Nat)
  /-- the bit has been found and not been cleared -/
  | clear (bn : Nat)
  /-- the loop is over -/
  | unlock (bn : Nat)
  | done (bn : Nat)
  | returned (v : Nat)
  /-- the entry was null -/
  | fault
  deriving DecidableEq

/-- The buffers of the bitmap, and where each call has got to. -/
structure State where
  mem : Mem
  /-- `write_ref_` of the bitmap's entry -/
  writeRef : Nat
  /-- the calls, each with a number of its own -/
  pc : Nat → Pc

/-- A step of one call. -/
inductive Label where
  | call (c : Nat)
  /-- `get_disk_entry(sb->fbb_bn)`, which may be null -/
  | entry (c : Nat) (found : Bool)
  | getWrite (c : Nat)
  /-- a round of the loop, up to its test -/
  | scan (c : Nat)
  | clear (c : Nat)
  | putWrite (c : Nat)
  | ret (c : Nat)

section Machine
variable (sb : Superblock) (bufs : Buffers)

/-- The byte `fbb[bn / 8]`. -/
def fbbAddr (bn : Nat) : Nat := bufs.base 0 + bn / 8

/-- What `allocate_block` returns. -/
def result (bn : Nat) : Nat := if bn < sb.nblocks then bn else E_NOSPC

/-- A call goes on at `p`. -/
def State.goto (s : State) (c : Nat) (p : Pc) : State := { s with pc := Function.update s.pc c p }

/-- A step of `allocate_block`; `get_write` waits until `write_ref_` is 0. -/
def step (s : State) : Label → Option State
  | .call c => if s.pc c = .out then some (s.goto c .super) else none
  | .entry c found =>
    if s.pc c = .super then some (s.goto c (if found then .entry else .fault)) else none
  | .getWrite c =>
    if s.pc c = .entry ∧
      s.writeRef = 0 then some ({ s with writeRef := s.writeRef + 1 }.goto c (.scan 0)) else none
  | .scan c =>
    match s.pc c with
    | .scan bn =>
      if bn < sb.nblocks then
        if bitSet (s.mem (fbbAddr bufs bn)).toNat bn then some (s.goto c (.clear bn))
          else some (s.goto c (.scan (bn + 1)))
      else some (s.goto c (.unlock bn))
    | _ => none
  | .clear c =>
    match s.pc c with
    | .clear bn =>
      let byte := clearBit (s.mem (fbbAddr bufs bn)).toNat bn
      some ({ s with mem := Function.update s.mem (fbbAddr bufs bn) (UInt8.ofNat byte) }.goto c
        (.unlock bn))
    | _ => none
  | .putWrite c =>
    match s.pc c with
    | .unlock bn => some ({ s with writeRef := s.writeRef - 1 }.goto c (.done bn))
    | _ => none
  | .ret c =>
    match s.pc c with
    | .done bn => some (s.goto c (.returned (result sb bn)))
    | _ => none

/-- The byte that a call reads, or reads and writes, in its next step. -/
def access (s : State) (c : Nat) : Option Nat :=
  match s.pc c with
  | .scan bn => if bn < sb.nblocks then some (fbbAddr bufs bn) else none
  | .clear bn => some (fbbAddr bufs bn)
  | _ => none

/-- Any number of calls at once. -/
def machine (mem : Mem) : Transition.Machine State Label where
  init s := s = ⟨mem, 0, fun _ => .out⟩
  step := step sb bufs

/-- The free bit of block `bn`, in whichever bitmap block it is. -/
def free (mem : Mem) (bn : Nat) : Bool :=
  bitSet (mem (bufs.base (bn / bitsperblock) + bn % bitsperblock / 8)).toNat bn

/-- The address is in one of the bitmap blocks. -/
def InBitmap (a : Nat) : Prop :=
  ∃ i < nfbb sb.nblocks, bufs.base i ≤ a ∧ a < bufs.base i + blocksize

/-- The search stays within the first bitmap block: there is no other, or it has a bit that is set.
-/
def Within (f : Nat → Bool) : Prop :=
  sb.nblocks ≤ bitsperblock ∨ ∃ b < bitsperblock, b < sb.nblocks ∧ f b = true

/-- The bitmap's entry is there, and the search stays within its block. -/
def Fits (s : State) : Label → Prop
  | .entry _ found => found = true
  | .getWrite _ => Within sb (free bufs s.mem)
  | _ => True

end Machine

/-! ## Calls one after another -/

/-- What calls return that are made one after another, and the free bits before and after them: each
takes the lowest block below `n` that is free, and there is no space if none is. -/
inductive Serial (n : Nat) (f : Nat → Bool) : List Nat → (Nat → Bool) → Prop
  | nil : Serial n f [] f
  | taken {l : List Nat} {f' : Nat → Bool} {b : Nat} (h : Serial n f l f') (hb : b < n)
      (hfree : f' b = true)
    (hlow : ∀ c < b, f' c = false) : Serial n f (l ++ [b]) (Function.update f' b false)
  | full {l : List Nat} {f' : Nat → Bool} (h : Serial n f l f') (hnone : ∀ b < n, f' b = false) :
    Serial n f (l ++ [E_NOSPC]) f'

/-! ## The bitmap -/

variable {sb : Superblock} {bufs : Buffers} {mem mem₀ : Mem} {s s' : State} {l : Label}
  {c bn b : Nat}

theorem free_eq (hb : b < bitsperblock) :
    free bufs mem b = bitSet (mem (fbbAddr bufs b)).toNat b := by
  unfold free fbbAddr
  rw [Nat.div_eq_of_lt hb, Nat.mod_eq_of_lt hb]

/-- Clearing a bit in the first bitmap block clears that of one block. -/
theorem free_clear (hbn : bn < bitsperblock) :
    free bufs
      (Function.update mem (fbbAddr bufs bn)
      (UInt8.ofNat (clearBit (mem (fbbAddr bufs bn)).toNat bn))) =
      Function.update (free bufs mem) bn false := by
  have hbyte : (UInt8.ofNat (clearBit (mem (fbbAddr bufs bn)).toNat bn)).toNat =
      clearBit (mem (fbbAddr bufs bn)).toNat bn := by
    rw [UInt8.toNat_ofNat']
    exact Nat.mod_eq_of_lt (clearBit_lt _ _)
  funext b
  by_cases hb : b = bn
  · subst hb
    rw [Function.update_self, free_eq hbn, Function.update_self, hbyte, bitSet_clearBit]
    simp
  · rw [Function.update_of_ne hb]
    unfold free
    by_cases haddr : bufs.base (b / bitsperblock) + b % bitsperblock / 8 = fbbAddr bufs bn
    · rw [haddr, Function.update_self, hbyte, bitSet_clearBit]
      -- the byte is in one bitmap block, so the block's bit is another one of it
      have hzero : b / bitsperblock = 0 := by
        by_contra hne
        have hapart := bufs.apart _ _ hne
        unfold fbbAddr at haddr
        unfold bitsperblock blocksize at *
        omega
      rw [hzero] at haddr
      have hmod : b % 8 ≠ bn % 8 := by
        unfold fbbAddr at haddr
        unfold bitsperblock blocksize at *
        omega
      rw [decide_eq_true hmod, Bool.and_true]
    · rw [Function.update_of_ne haddr]

theorem inBitmap_fbbAddr (hn : 0 < sb.nblocks) (hbn : bn < bitsperblock) :
    InBitmap sb bufs (fbbAddr bufs bn) := by
  refine ⟨0, ?_, Nat.le_add_right _ _, ?_⟩
  · unfold nfbb bitsperblock blocksize
    omega
  · unfold fbbAddr bitsperblock at *
    omega

/-- A search that stays within the first bitmap block has not come to the end of it. -/
theorem Within.lt (h : Within sb (free bufs mem)) (hbn : bn < sb.nblocks)
    (hlow : ∀ b < bn, free bufs mem b = false) : bn < bitsperblock := by
  rcases h with hone | ⟨b, hb, -, hfree⟩
  · exact hbn.trans_le hone
  · by_contra hge
    have hzero := hlow b (by omega)
    exact absurd (hfree.symm.trans hzero) Bool.true_eq_false.mp

/-! ## The invariant -/

/-- The call has the write reference. -/
def Pc.critical : Pc → Bool
  | .scan _ => true
  | .clear _ => true
  | .unlock _ => true
  | _ => false

/-- What a call returns, once its search is over. -/
def Pc.answer (sb : Superblock) : Pc → Option Nat
  | .unlock bn => some (result sb bn)
  | .done bn => some (result sb bn)
  | .returned v => some v
  | _ => none

/-- What a call has found out. -/
def Pc.Ok (sb : Superblock) (f : Nat → Bool) : Pc → Prop
  | .scan bn => bn ≤ sb.nblocks ∧ (∀ b < bn, f b = false) ∧ Within sb f
  | .clear bn => bn < sb.nblocks ∧ bn < bitsperblock ∧ f bn = true ∧ ∀ b < bn, f b = false
  | .fault => False
  | _ => True

/-- The write reference is had by one call at most. -/
def Exclusive (writeRef : Nat) (critical : Nat → Bool) : Prop :=
  writeRef = 0 ∧ (∀ c, critical c = false) ∨
    writeRef = 1 ∧ ∃ c, critical c = true ∧ ∀ c', critical c' = true → c' = c

/-- The invariant: one call at most may write to the bitmap, and what has been given out is taken.
-/
structure Inv (sb : Superblock) (bufs : Buffers) (mem₀ : Mem) (s : State) : Prop where
  ref : Exclusive s.writeRef fun c => (s.pc c).critical
  ok : ∀ c, (s.pc c).Ok sb (free bufs s.mem)
  taken : ∀ c b, (s.pc c).answer sb = some b → b < sb.nblocks → free bufs s.mem b = false
  distinct : ∀ c c' b, (s.pc c).answer sb = some b → (s.pc c').answer sb = some b → b < sb.nblocks →
    c = c'
  serial : ∃ order : List Nat, order.Nodup ∧ (∀ c, c ∈ order ↔ (s.pc c).answer sb ≠ none) ∧
    Serial sb.nblocks (free bufs mem₀) (order.filterMap fun c => (s.pc c).answer sb)
    (free bufs s.mem)
  frame : ∀ a, ¬InBitmap sb bufs a → s.mem a = mem₀ a

theorem Exclusive.alone {r c' : Nat} {critical : Nat → Bool} (h : Exclusive r critical)
    (hc : critical c = true) (hc' : critical c' = true) : c = c' := by
  rcases h with ⟨-, hnone⟩ | ⟨-, c₁, -, hone⟩
  · exact absurd ((hnone c).symm.trans hc) Bool.false_ne_true
  · exact (hone c hc).trans (hone c' hc').symm

theorem Exclusive.lock {critical : Nat → Bool} (h : Exclusive 0 critical) (c : Nat) :
    Exclusive 1 (Function.update critical c true) := by
  rcases h with ⟨-, hnone⟩ | ⟨hr, -⟩
  · refine .inr ⟨rfl, c, Function.update_self .., fun c' hc' => ?_⟩
    by_contra hne
    rw [Function.update_of_ne hne, hnone] at hc'
    cases hc'
  · cases hr

theorem Exclusive.unlock {r : Nat} {critical : Nat → Bool} (h : Exclusive r critical)
    (hc : critical c = true) : Exclusive (r - 1) (Function.update critical c false) := by
  rcases h with ⟨-, hnone⟩ | ⟨rfl, c₁, hc₁, hone⟩
  · exact absurd ((hnone c).symm.trans hc) Bool.false_ne_true
  · refine .inl ⟨rfl, fun c' => ?_⟩
    by_cases hne : c' = c
    · rw [hne, Function.update_self]
    · rw [Function.update_of_ne hne]
      by_contra hc'
      exact hne ((hone c' (Bool.not_eq_false _ ▸ hc')).trans (hone c hc).symm)

theorem critical_goto (s : State) (c : Nat) (p : Pc) :
    (fun c' => ((s.goto c p).pc c').critical) = Function.update (fun c' => (s.pc c').critical) c
      p.critical := by
  funext c'
  by_cases hne : c' = c
  · rw [hne, Function.update_self]
    exact congrArg Pc.critical (Function.update_self ..)
  · rw [Function.update_of_ne hne]
    exact congrArg Pc.critical (Function.update_of_ne hne ..)

theorem goto_self (s : State) (c : Nat) (p : Pc) : (s.goto c p).pc c = p := Function.update_self ..

theorem goto_ne (s : State) {c c' : Nat} (p : Pc) (h : c' ≠ c) : (s.goto c p).pc c' = s.pc c' :=
  Function.update_of_ne h ..

/-- What the other calls have found out stays true, as they are not searching. -/
theorem Pc.Ok.other {p : Pc} {f : Nat → Bool} (f' : Nat → Bool) (h : p.Ok sb f)
    (hc : p.critical = false) : p.Ok sb f' := by
  cases p with
  | scan bn => cases hc
  | clear bn => cases hc
  | fault => exact h.elim
  | _ => trivial

/-- A call goes on, with the bitmap as it was. -/
theorem Inv.goto {p : Pc} {r : Nat} (h : Inv sb bufs mem₀ s)
    (href : Exclusive r (Function.update (fun c' => (s.pc c').critical) c p.critical))
    (hok : p.Ok sb (free bufs s.mem)) (hanswer : p.answer sb = (s.pc c).answer sb) :
    Inv sb bufs mem₀ ({ s with writeRef := r }.goto c p) := by
  have hsame : ∀ c', (({ s with writeRef := r }.goto c p).pc c').answer sb =
      (s.pc c').answer sb := by
    intro c'
    by_cases hne : c' = c
    · rw [hne, goto_self, hanswer]
    · rw [goto_ne _ _ hne]
  refine ⟨?_, fun c' => ?_, fun c' b hb => ?_, fun c' c'' b hb hb' => ?_, ?_, h.frame⟩
  · rw [critical_goto]
    exact href
  · by_cases hne : c' = c
    · rw [hne, goto_self]
      exact hok
    · rw [goto_ne _ _ hne]
      exact h.ok c'
  · rw [hsame] at hb
    exact h.taken c' b hb
  · rw [hsame] at hb hb'
    exact h.distinct c' c'' b hb hb'
  · simp only [hsame]
    exact h.serial

/-- A call goes on with or without the write reference, as before. -/
theorem Inv.go {p : Pc} (h : Inv sb bufs mem₀ s) (hcritical : p.critical = (s.pc c).critical)
    (hok : p.Ok sb (free bufs s.mem)) (hanswer : p.answer sb = (s.pc c).answer sb) :
    Inv sb bufs mem₀ (s.goto c p) := by
  refine h.goto (r := s.writeRef) ?_ hok hanswer
  rw [hcritical, Function.update_eq_self]
  exact h.ref

/-- The search of a call is over. -/
theorem Inv.answered {mem' : Mem} {v : Nat} (h : Inv sb bufs mem₀ s) (hc : (s.pc c).critical = true)
    (hnone : (s.pc c).answer sb = none) (hv : result sb bn = v)
    (hserial : ∀ l, Serial sb.nblocks (free bufs mem₀) l (free bufs s.mem) →
      Serial sb.nblocks (free bufs mem₀) (l ++ [v]) (free bufs mem'))
    (hless : ∀ b, free bufs s.mem b = false → free bufs mem' b = false)
    (htaken : v < sb.nblocks → free bufs s.mem v = true ∧ free bufs mem' v = false)
    (hframe : ∀ a, ¬InBitmap sb bufs a → mem' a = s.mem a) :
    Inv sb bufs mem₀ ({ s with mem := mem' }.goto c (.unlock bn)) := by
  have hself : (({ s with mem := mem' }.goto c (.unlock bn)).pc c).answer sb = some v := by
    rw [goto_self, ← hv]
    rfl
  have hother : ∀ c', c' ≠ c → ({ s with mem := mem' }.goto c (.unlock bn)).pc c' = s.pc c' :=
    fun c' hne => goto_ne _ _ hne
  -- the block had been free, so no other call has taken it
  have hnew : ∀ c', c' ≠ c → v < sb.nblocks → (s.pc c').answer sb ≠ some v := by
    intro c' _ hlt hb
    exact absurd ((h.taken c' v hb hlt).symm.trans (htaken hlt).1) Bool.false_ne_true
  refine ⟨?_, fun c' => ?_, fun c' b hb hlt => ?_, fun c' c'' b hb hb' hlt => ?_, ?_,
    fun a ha => ?_⟩
  · rw [critical_goto]
    show Exclusive s.writeRef (Function.update (fun c' => (s.pc c').critical) c true)
    have href := h.ref
    rwa [← Function.update_eq_self c fun c' => (s.pc c').critical, hc] at href
  · by_cases hne : c' = c
    · rw [hne, goto_self]
      trivial
    · rw [hother c' hne]
      refine (h.ok c').other _ ?_
      by_contra hc'
      exact hne (h.ref.alone (Bool.not_eq_false _ ▸ hc') hc)
  · by_cases hne : c' = c
    · rw [hne, hself] at hb
      cases Option.some.inj hb
      exact (htaken hlt).2
    · rw [hother c' hne] at hb
      exact hless b (h.taken c' b hb hlt)
  · by_cases hne : c' = c
    · by_cases hne' : c'' = c
      · rw [hne, hne']
      · rw [hne, hself] at hb
        cases Option.some.inj hb
        rw [hother c'' hne'] at hb'
        exact absurd hb' (hnew c'' hne' hlt)
    · rw [hother c' hne] at hb
      by_cases hne' : c'' = c
      · rw [hne', hself] at hb'
        cases Option.some.inj hb'
        exact absurd hb (hnew c' hne hlt)
      · rw [hother c'' hne'] at hb'
        exact h.distinct c' c'' b hb hb' hlt
  · obtain ⟨order, hnodup, hmem, hs⟩ := h.serial
    have hout : c ∉ order := fun hin => (hmem c).mp hin hnone
    refine ⟨order ++ [c], ?_, fun c' => ?_, ?_⟩
    · rw [List.nodup_append]
      refine ⟨hnodup, List.nodup_singleton c, ?_⟩
      rintro a ha b hb rfl
      exact hout (List.mem_singleton.mp hb ▸ ha)
    · rw [List.mem_append, List.mem_singleton]
      by_cases hne : c' = c
      · rw [hne, hself]
        exact ⟨fun _ => Option.some_ne_none v, fun _ => .inr rfl⟩
      · rw [hother c' hne, ← hmem c']
        exact ⟨fun hin => hin.resolve_right hne, .inl⟩
    · have hold :
          order.filterMap
          (fun c' => (({ s with mem := mem' }.goto c (.unlock bn)).pc c').answer sb) =
          order.filterMap fun c' => (s.pc c').answer sb := by
        refine List.filterMap_congr fun c' hin => ?_
        rw [hother c' fun heq => hout (heq ▸ hin)]
      have hlast :
          [c].filterMap (fun c' => (({ s with mem := mem' }.goto c (.unlock bn)).pc c').answer sb)
            = [v] := by
        rw [List.filterMap_cons, hself]
        rfl
      rw [List.filterMap_append, hold, hlast]
      exact hserial _ hs
  · exact (hframe a ha).trans (h.frame a ha)

/-! ## Steps and runs -/

theorem step_inv (hn : 0 < sb.nblocks ∧ sb.nblocks < 2 ^ 31) (h : Inv sb bufs mem₀ s)
    (hfits : Fits sb bufs s l) (hstep : step sb bufs s l = some s') : Inv sb bufs mem₀ s' := by
  cases l with
  | call c =>
    obtain ⟨hpc, heq⟩ := Option.ite_none_right_eq_some.mp hstep
    rw [← Option.some.inj heq]
    exact h.go (by rw [hpc]; rfl) trivial (by rw [hpc]; rfl)
  | entry c found =>
    obtain ⟨hpc, heq⟩ := Option.ite_none_right_eq_some.mp hstep
    change found = true at hfits
    rw [← Option.some.inj heq, if_pos hfits]
    exact h.go (by rw [hpc]; rfl) trivial (by rw [hpc]; rfl)
  | getWrite c =>
    obtain ⟨⟨hpc, hzero⟩, heq⟩ := Option.ite_none_right_eq_some.mp hstep
    rw [← Option.some.inj heq]
    refine h.goto ?_ ⟨Nat.zero_le _, fun b hb => absurd hb (Nat.not_lt_zero b), hfits⟩
      (by rw [hpc]; rfl)
    rw [hzero]
    exact Exclusive.lock (hzero ▸ h.ref) c
  | scan c =>
    unfold step at hstep
    dsimp only at hstep
    split at hstep
    · rename_i bn hpc
      have hok := h.ok c
      rw [hpc] at hok
      obtain ⟨hle, hlow, hwithin⟩ := hok
      split at hstep
      · rename_i hlt
        have hin := hwithin.lt hlt hlow
        split at hstep
        · rename_i hbit
          rw [← Option.some.inj hstep]
          exact h.go (by rw [hpc]; rfl) ⟨hlt, hin, (free_eq hin).trans hbit, hlow⟩
            (by rw [hpc]; rfl)
        · rename_i hbit
          rw [← Option.some.inj hstep]
          refine h.go (by rw [hpc]; rfl) ⟨hlt, fun b hb => ?_, hwithin⟩ (by rw [hpc]; rfl)
          rcases Nat.lt_succ_iff_lt_or_eq.mp hb with hb | rfl
          · exact hlow b hb
          · exact (free_eq hin).trans (Bool.not_eq_true _ ▸ hbit)
      · rename_i hge
        rw [← Option.some.inj hstep]
        refine h.answered (v := E_NOSPC) (by rw [hpc]; rfl) (by rw [hpc]; rfl) (if_neg hge)
          (fun l hl => ?_) (fun _ hb => hb) (fun hlt => ?_) fun _ _ => rfl
        · exact .full hl fun b hb => hlow b (by omega)
        · unfold E_NOSPC at hlt
          omega
    · cases hstep
  | clear c =>
    unfold step at hstep
    dsimp only at hstep
    split at hstep
    · rename_i bn hpc
      have hok := h.ok c
      rw [hpc] at hok
      obtain ⟨hlt, hin, hfree, hlow⟩ := hok
      rw [← Option.some.inj hstep]
      refine h.answered (v := bn) (by rw [hpc]; rfl) (by rw [hpc]; rfl) (if_pos hlt)
        (fun l hl => ?_) (fun b hb => ?_) (fun _ => ⟨hfree, ?_⟩) fun a ha => ?_
      · rw [free_clear hin]
        exact .taken hl hlt hfree hlow
      · rw [free_clear hin]
        by_cases hne : b = bn
        · rw [hne, Function.update_self]
        · rw [Function.update_of_ne hne, hb]
      · rw [free_clear hin, Function.update_self]
      · refine Function.update_of_ne ?_ ..
        rintro rfl
        exact ha (inBitmap_fbbAddr hn.1 hin)
    · cases hstep
  | putWrite c =>
    unfold step at hstep
    dsimp only at hstep
    split at hstep
    · rename_i bn hpc
      rw [← Option.some.inj hstep]
      exact h.goto (h.ref.unlock (by rw [hpc]; rfl)) trivial (by rw [hpc]; rfl)
    · cases hstep
  | ret c =>
    unfold step at hstep
    dsimp only at hstep
    split at hstep
    · rename_i bn hpc
      rw [← Option.some.inj hstep]
      exact h.go (by rw [hpc]; rfl) trivial (by rw [hpc]; rfl)
    · cases hstep

theorem init_inv (sb : Superblock) (bufs : Buffers) (mem : Mem) :
    Inv sb bufs mem ⟨mem, 0, fun _ => .out⟩ := by
  refine ⟨.inl ⟨rfl, fun _ => rfl⟩, fun _ => trivial, nofun, nofun,
    ⟨[], List.nodup_nil, fun c => ?_, .nil⟩, fun _ _ => rfl⟩
  exact ⟨nofun, fun hne => absurd rfl hne⟩


theorem reach_inv {o : Options} (ho : o.Ok) (hsb : layout o = some sb)
    (h : (machine sb bufs mem₀).ReachWhen (Fits sb bufs) s) : Inv sb bufs mem₀ s := by
  refine h.invariant (Inv sb bufs mem₀) ?_ ?_
  · rintro s rfl
    exact init_inv sb bufs mem₀
  · exact fun s l s' hs hfits hstep => step_inv (layout_nblocks ho hsb) hs hfits hstep

theorem Inv.inBitmap (hn : 0 < sb.nblocks) (h : Inv sb bufs mem₀ s) {a : Nat}
    (ha : access sb bufs s c = some a) :
    InBitmap sb bufs a := by
  have hok := h.ok c
  unfold access at ha
  split at ha
  · rename_i bn hpc
    rw [hpc] at hok
    obtain ⟨hlt, heq⟩ := Option.ite_none_right_eq_some.mp ha
    rw [← Option.some.inj heq]
    exact inBitmap_fbbAddr hn (hok.2.2.lt hlt hok.2.1)
  · rename_i bn hpc
    rw [hpc] at hok
    rw [← Option.some.inj ha]
    exact inBitmap_fbbAddr hn hok.2.1
  · cases ha

/-- The step begins a call. -/
def Label.begins : Label → Bool
  | .call _ => true
  | _ => false

/-- While a call is under way, some call can go on. -/
theorem Inv.goes_on (h : Inv sb bufs mem₀ s) (hout : s.pc c ≠ .out)
    (hret : ∀ v, s.pc c ≠ .returned v) : ∃ l s', l.begins = false ∧ step sb bufs s l = some s' := by
  rcases h.ref with ⟨hzero, hnone⟩ | ⟨-, c₁, hc₁, -⟩
  · have hc : (s.pc c).critical = false := hnone c
    have hok := h.ok c
    cases hpc : s.pc c with
    | out => exact absurd hpc hout
    | super => exact ⟨.entry c true, _, rfl, if_pos hpc⟩
    | entry => exact ⟨.getWrite c, _, rfl, if_pos ⟨hpc, hzero⟩⟩
    | done bn => exact ⟨.ret c, s.goto c (.returned (result sb bn)), rfl, by simp [step, hpc]⟩
    | returned v => exact absurd hpc (hret v)
    | fault =>
      rw [hpc] at hok
      exact hok.elim
    | scan bn =>
      rw [hpc] at hc
      cases hc
    | clear bn =>
      rw [hpc] at hc
      cases hc
    | unlock bn =>
      rw [hpc] at hc
      cases hc
  · cases hpc : s.pc c₁ with
    | scan bn =>
      by_cases hlt : bn < sb.nblocks
      · cases hbit : bitSet (s.mem (fbbAddr bufs bn)).toNat bn with
        | true => exact ⟨.scan c₁, s.goto c₁ (.clear bn), rfl, by simp [step, hpc, hlt, hbit]⟩
        | false => exact ⟨.scan c₁, s.goto c₁ (.scan (bn + 1)), rfl, by simp [step, hpc, hlt, hbit]⟩
      · exact ⟨.scan c₁, s.goto c₁ (.unlock bn), rfl, by simp [step, hpc, hlt]⟩
    | clear bn =>
      have hstep : (step sb bufs s (.clear c₁)).isSome := by simp [step, hpc]
      obtain ⟨s', hs'⟩ := Option.isSome_iff_exists.mp hstep
      exact ⟨.clear c₁, s', rfl, hs'⟩
    | unlock bn =>
      have hstep : (step sb bufs s (.putWrite c₁)).isSome := by simp [step, hpc]
      obtain ⟨s', hs'⟩ := Option.isSome_iff_exists.mp hstep
      exact ⟨.putWrite c₁, s', rfl, hs'⟩
    | _ =>
      change (s.pc c₁).critical = true at hc₁
      rw [hpc] at hc₁
      cases hc₁

/-- **Calls of `allocate_block` side by side return what they would one after another**, in every
run in which the bitmap's entry is there and each search stays within the first bitmap block: in
some order, each takes the lowest block that is free, and there is no space if none is.  No block is
returned twice, nothing but the bitmap is read or written in the loop, and while a call is under way
some call can go on. -/
theorem allocations_serial {o : Options} (ho : o.Ok) (hsb : layout o = some sb)
    (h : (machine sb bufs mem₀).ReachWhen (Fits sb bufs) s) :
    (∃ order : List Nat, order.Nodup ∧ (∀ c, c ∈ order ↔ (s.pc c).answer sb ≠ none) ∧
      Serial sb.nblocks (free bufs mem₀) (order.filterMap fun c => (s.pc c).answer sb)
      (free bufs s.mem)) ∧
    (∀ c c' b, s.pc c = .returned b → s.pc c' = .returned b → b < sb.nblocks → c = c') ∧
    (∀ c a, access sb bufs s c = some a → InBitmap sb bufs a) ∧
    (∀ a, ¬InBitmap sb bufs a → s.mem a = mem₀ a) ∧ ∀ c, s.pc c ≠ .fault ∧
    (s.pc c ≠ .out → (∀ v, s.pc c ≠ .returned v) → ∃ l s', l.begins = false ∧
      step sb bufs s l = some s') := by
  have hinv := reach_inv ho hsb h
  refine ⟨hinv.serial, fun c c' b hc hc' hb => ?_, fun c a ha => ?_, hinv.frame,
    fun c => ⟨fun hpc => ?_, ?_⟩⟩
  · exact hinv.distinct c c' b (by rw [hc]; rfl) (by rw [hc']; rfl) hb
  · exact hinv.inBitmap (layout_nblocks ho hsb).1 ha
  · have hok := hinv.ok c
    rw [hpc] at hok
    exact hok
  · exact fun hout hret => hinv.goes_on hout hret

/-- The default geometry, and buffers a block apart. -/
def defaults : Options := ⟨0, 0, 0, 0, 0⟩

/-- Buffers in every second place. -/
def everySecond : Buffers := ⟨fun i => 2 * blocksize * i, fun i j hij => by unfold blocksize; omega⟩

/-- Two calls: the second one gets its entry while the first has the write reference, and searches
before the first returns. -/
def twoCalls : List Label :=
  [.call 0, .call 1, .entry 0 true, .getWrite 0, .scan 0, .entry 1 true, .clear 0, .putWrite 0,
    .getWrite 1, .scan 1, .ret 0, .scan 1, .clear 1, .putWrite 1, .ret 1]

/-- All blocks are free: one call gets block 0 and the other block 1. -/
theorem allocations_serial_two : ∃ sb s, layout defaults = some sb ∧
    (machine sb everySecond fun _ => 255).run ⟨fun _ => 255, 0, fun _ => .out⟩ twoCalls = some s ∧
    s.pc 0 = .returned 0 ∧ s.pc 1 = .returned 1 ∧ ∃ order : List Nat, order.Nodup ∧
      (∀ c, c ∈ order ↔ (s.pc c).answer sb ≠ none) ∧
        Serial sb.nblocks (free everySecond fun _ => 255) (order.filterMap fun c =>
        (s.pc c).answer sb) (free everySecond s.mem) := by
  have hok : defaults.Ok := ⟨by decide, by decide, by decide, by decide, by decide⟩
  obtain ⟨sb, s, hsb, hn, hrun, hfirst, hsecond⟩ : ∃ sb s, layout defaults = some sb ∧
      sb.nblocks = 1024 ∧ (machine sb everySecond fun _ => 255).run ⟨fun _ => 255, 0, fun _ => .out⟩
      twoCalls = some s ∧ s.pc 0 = .returned 0 ∧ s.pc 1 = .returned 1 :=
    ⟨⟨1024, 0, 896, 0, 1, 1, 2, 16, 1024⟩, _, by decide +kernel, rfl, rfl, rfl, rfl⟩
  have hwithin : ∀ f, Within sb f := fun f => .inl (by rw [hn]; decide)
  have hreach : (machine sb everySecond fun _ => 255).ReachWhen (Fits sb everySecond) s :=
    .run (by simp [twoCalls, Fits, hwithin]) (.init rfl) hrun
  exact ⟨sb, s, hsb, hrun, hfirst, hsecond, (allocations_serial hok hsb hreach).1⟩

/-- A search that finds no bit. -/
theorem scans (hclear : ∀ a, mem₀ a = 0) (n : Nat) (hn : n ≤ sb.nblocks) :
    ∃ s, (machine sb bufs mem₀).Reach s ∧ s.mem = mem₀ ∧ s.pc 0 = .scan n := by
  induction n with
  | zero =>
    exact ⟨_, .run (l := [.call 0, .entry 0 true, .getWrite 0]) (.init rfl) rfl, rfl, rfl⟩
  | succ n ih =>
    obtain ⟨s, hs, hmem, hpc⟩ := ih (by omega)
    have hbit : bitSet (s.mem (fbbAddr bufs n)).toNat n = false := by
      rw [hmem, hclear]
      exact Nat.zero_testBit _
    have hstep : step sb bufs s (.scan 0) = some (s.goto 0 (.scan (n + 1))) := by
      simp [step, hpc, hbit, Nat.lt_of_succ_le hn]
    exact ⟨_, hs.step (a := .scan 0) hstep, hmem, goto_self ..⟩

/-- With 32769 blocks there are two bitmap blocks; the first has no bit set, and the search goes on
behind its buffer. -/
theorem search_leaves_bitmap :
    ¬ ∀ (o : Options) (sb : Superblock) (bufs : Buffers) (mem₀ : Mem) (s : State), o.Ok →
    layout o = some sb → (machine sb bufs mem₀).Reach s → ∀ c a, access sb bufs s c = some a →
    InBitmap sb bufs a := by
  intro h
  have hlayout : ∃ sb, layout ⟨32769, 0, 0, 0, 0⟩ = some sb ∧ sb.nblocks = 32769 := ⟨_, rfl, rfl⟩
  obtain ⟨sb, hsb, hn⟩ := hlayout
  obtain ⟨s, hs, -, hpc⟩ :=
    @scans sb everySecond (fun _ => 0) (fun _ => rfl) bitsperblock (by rw [hn]; decide)
  have haccess : access sb everySecond s 0 = some (fbbAddr everySecond bitsperblock) := by
    unfold access
    rw [hpc]
    exact if_pos (by rw [hn]; decide)
  have hok : Options.Ok ⟨32769, 0, 0, 0, 0⟩ :=
    ⟨by decide, by decide, by decide, by decide, by decide⟩
  obtain ⟨i, -, hge, hlt⟩ := h _ sb everySecond _ s hok hsb hs 0 _ haccess
  have haddr : fbbAddr everySecond bitsperblock = 4096 := rfl
  rw [haddr] at hge hlt
  change 2 * 4096 * i ≤ 4096 at hge
  change 4096 < 2 * 4096 * i + 4096 at hlt
  omega

end PugOS.BlockAlloc
