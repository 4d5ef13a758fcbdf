import PugOS.Transition
import Mathlib.Algebra.Group.Nat.Defs
import Mathlib.Data.Finset.Card
import Mathlib.Data.Finset.Range

/-! # Disk commands

The disk takes commands in up to 32 slots.  `read_or_write` and its nonblocking variant
issue a command into a slot that is not outstanding; the interrupt handler acknowledges the
commands that the device no longer has as active, and after an error all others.  Each of
these runs under the disk's lock, so it is one step; what the handler reads from the
device's registers is arbitrary.

A failed assertion is `none`.  The command tables and registers that only the device reads
are left out.  `log` is not in the source: it is the history of the commands, the latest
first.
-/
namespace PugOS.Ahci
open Transition

/-- `sectorsize`, and the two statuses of a command that is not done. -/
def sectorsize : Nat := 512
def eAgain : Int := -11
def eIO : Int := -5

/-- A request as `read_or_write` and `push_buffer` ask for it, with the address of the cell
for its status. -/
structure Request where
  write : Bool
  pa : Nat
  sz : Nat
  off : Nat
  status : Nat
  aligned : sz % sectorsize = 0 ∧ off % sectorsize = 0
  buffer : pa % 2 = 0 ∧ 0 < sz ∧ sz ≤ 2 ^ 16 ∧ pa ≤ 2 ^ 32 ∧ (pa ^^^ (pa + sz - 1)) < 2 ^ 16

/-- A command is issued into a slot with a status cell, or acknowledged with a result. -/
inductive Event where
  | issue (slot cell : Nat)
  | ack (slot cell : Nat) (result : Int)
  deriving DecidableEq

/-- The fields of `ahcistate` that the commands use, and what has been issued and acknowledged. -/
structure Disk where
  nslots : Nat
  nslotsAvailable : Nat
  slotsOutstandingMask : BitVec 32
  slotStatus : Nat → Option Nat
  nbuf : Nat → Nat
  bufBytePos : Nat → Nat
  /-- The cells for the statuses of commands. -/
  cells : Nat → Int
  /-- `panic` has stopped the kernel. -/
  panicked : Bool
  log : List Event

/-- `1U << slot`. -/
def bit (slot : Nat) : BitVec 32 := 1#32 <<< slot

/-- `slots_outstanding_mask_ & (1U << slot)`. -/
def Disk.outstanding (d : Disk) (slot : Nat) : Bool := d.slotsOutstandingMask &&& bit slot ≠ 0

/-! ## Commands -/

/-- `clear_slot`. -/
def clear (slot : Nat) (d : Disk) : Option Disk :=
  if slot < d.nslots then
    some
      { d with
        nbuf := Function.update d.nbuf slot 0
        bufBytePos := Function.update d.bufBytePos slot 0 }
  else none

/-- `push_buffer`, with its assertions. -/
def pushBuffer (slot pa sz : Nat) (d : Disk) : Option Disk :=
  if pa % 2 = 0 ∧ sz % 2 = 0 ∧ (0 < sz ∧ sz ≤ 2 ^ 16) ∧ pa ≤ 2 ^ 32 ∧
      (pa ^^^ (pa + sz - 1)) < 2 ^ 16 ∧ slot < d.nslots ∧ d.nbuf slot < 16 then
    some { d with
      nbuf := Function.update d.nbuf slot (d.nbuf slot + 1)
      bufBytePos := Function.update d.bufBytePos slot (d.bufBytePos slot + sz) }
  else none

/-- `issue_ncq`, for a read or write command of normal priority. -/
def issueNcq (slot : Nat) (d : Disk) : Option Disk :=
  if slot < d.nslots ∧ d.outstanding slot = false ∧ 0 < d.bufBytePos slot then
    some { d with
      bufBytePos := Function.update d.bufBytePos slot 0
      slotsOutstandingMask := d.slotsOutstandingMask ||| bit slot
      nslotsAvailable := (d.nslotsAvailable + 2 ^ 32 - 1) % 2 ^ 32 }
  else none

/-- `acknowledge`. -/
def acknowledge (slot : Nat) (result : Int) (d : Disk) : Option Disk :=
  if slot < d.nslots ∧ d.outstanding slot = true then
    let d := { d with
      slotsOutstandingMask := d.slotsOutstandingMask ^^^ bit slot
      nslotsAvailable := (d.nslotsAvailable + 1) % 2 ^ 32 }
    match d.slotStatus slot with
    | some cell => some { d with
        cells := Function.update d.cells cell result
        slotStatus := Function.update d.slotStatus slot none
        log := .ack slot cell result :: d.log }
    | none => some d
  else none

/-- The search for an open slot. -/
def findSlot (d : Disk) : Option Nat := (List.range d.nslots).find? fun i => !d.outstanding i

/-- Send the command, record buffer and status storage. -/
def send (req : Request) (slot : Nat) (d : Disk) : Option Disk :=
  (clear slot { d with cells := Function.update d.cells req.status eAgain }).bind fun d =>
  (pushBuffer slot req.pa req.sz d).bind fun d =>
  (issueNcq slot d).map fun d =>
    { d with
      slotStatus := Function.update d.slotStatus slot (some req.status)
      log := .issue slot req.status :: d.log }

/-- The first part of `read_or_write`, under the lock: the task blocks as long as no slot is
available. -/
def readOrWrite (req : Request) (d : Disk) : Option Disk :=
  if req.sz % sectorsize = 0 ∧ req.off % sectorsize = 0 then
    if d.nslotsAvailable > 0 then
      match findSlot d with
      | some slot => send req slot d
      | none => none
    else some d
  else none

/-- `read_or_write_nonblocking`. -/
def readOrWriteNonblocking (req : Request) (d : Disk) : Option Disk :=
  if req.sz % sectorsize = 0 ∧ req.off % sectorsize = 0 then
    match findSlot d with
    | some slot => send req slot d
    | none => some d
  else none

/-! ## Interrupts -/

/-- The loop that acknowledges completed commands.  After 32 shifts `acks` is zero. -/
def acknowledgeCompleted : Nat → Nat → BitVec 32 → Disk → Option Disk
  | 0, _, _, d => some d
  | fuel + 1, slot, acks, d =>
    if acks ≠ 0 then
      (if acks.getLsbD 0 then acknowledge slot 0 d else some d).bind
        (acknowledgeCompleted fuel (slot + 1) (acks >>> 1))
    else some d

/-- `handle_error_interrupt`: every outstanding command is acknowledged with an error. -/
def handleErrorInterrupt (d : Disk) : Option Disk :=
  ((List.range 32).foldlM (fun (d : Disk) slot =>
    if d.outstanding slot then acknowledge slot eIO d else some d) d).map
      fun d => { d with panicked := true }

/-- `handle_interrupt`, given what it reads of the device. -/
def handleInterrupt (isError : Bool) (ncqActiveMask : BitVec 32) (d : Disk) : Option Disk :=
  (acknowledgeCompleted 32 0 (d.slotsOutstandingMask &&& ~~~ncqActiveMask) d).bind fun d =>
    if isError then handleErrorInterrupt d else some d

/-! ## The machine -/

/-- A call or an interrupt. -/
inductive Label where
  | readOrWrite (req : Request)
  | readOrWriteNonblocking (req : Request)
  | interrupt (isError : Bool) (ncqActiveMask : BitVec 32)

/-- A step; `none` is a failed assertion. -/
def step (d : Disk) (a : Label) : Option Disk :=
  if d.panicked then some d
  else
    match a with
    | .readOrWrite req => readOrWrite req d
    | .readOrWriteNonblocking req => readOrWriteNonblocking req d
    | .interrupt isError ncqActiveMask => handleInterrupt isError ncqActiveMask d

/-- The disk as its constructor leaves it. -/
structure Start (d : Disk) : Prop where
  slots : d.nslots ≤ 32
  available : d.nslotsAvailable = d.nslots
  mask : d.slotsOutstandingMask = 0
  status : ∀ slot, d.slotStatus slot = none
  log : d.log = []

/-- The driver, with any calls and interrupts. -/
def machine : Machine Disk Label where
  init := Start
  step := step

/-! ## The account of the slots -/

/-- `popcount(slots_outstanding_mask_)`. -/
def popcount (m : BitVec 32) : Nat := ((Finset.range 32).filter fun i => m.getLsbD i).card

/-- The slot of an event. -/
def Event.slot : Event → Nat
  | .issue slot _ | .ack slot _ _ => slot

/-- The history of a slot, the latest event first, ends with a command on the given cell, or
with none: commands and acknowledges take turns, and an acknowledge is on the cell of the
command before it and has a result. -/
def History : List Event → Option Nat → Prop
  | [], pending => pending = none
  | .issue _ cell :: log, pending => pending = some cell ∧ History log none
  | .ack _ cell result :: log, pending => pending = none ∧ result ≠ eAgain ∧ History log (some cell)

/-- What the last event on a cell has stored there. -/
def lastStored (cell : Nat) : List Event → Option Int
  | [] => none
  | .issue _ c :: log => if c = cell then some eAgain else lastStored cell log
  | .ack _ c result :: log => if c = cell then some result else lastStored cell log

/-- The slots are accounted for. -/
structure Accounted (d : Disk) : Prop where
  below : ∀ i, d.slotsOutstandingMask.getLsbD i = true → i < d.nslots
  count : d.nslotsAvailable + popcount d.slotsOutstandingMask = d.nslots
  status : ∀ i, d.slotStatus i ≠ none ↔ d.slotsOutstandingMask.getLsbD i = true
  history : ∀ i, History (d.log.filter fun e => e.slot = i) (d.slotStatus i)
  stored : ∀ cell v, lastStored cell d.log = some v → d.cells cell = v

variable {d d' : Disk} {slot : Nat} {m : BitVec 32}

theorem getLsbD_bit {slot : Nat} (h : slot < 32) (i : Nat) :
    (bit slot).getLsbD i = decide (i = slot) := by
  unfold bit
  rw [← BitVec.twoPow_eq, BitVec.getLsbD_twoPow]
  by_cases hi : i = slot
  · simp [hi, h]
  · simp [hi, Ne.symm hi]

theorem outstanding_eq (d : Disk) {slot : Nat} (h : slot < 32) :
    d.outstanding slot = d.slotsOutstandingMask.getLsbD slot := by
  unfold Disk.outstanding
  rw [Bool.eq_iff_iff, decide_eq_true_iff]
  constructor
  · intro hne
    by_contra hc
    refine hne (BitVec.eq_of_getLsbD_eq fun i hi => ?_)
    rw [BitVec.getLsbD_and, getLsbD_bit h]
    by_cases his : i = slot
    · rw [his, Bool.not_eq_true _ |>.mp hc]
      simp
    · simp [his]
  · intro hbit hz
    have := congrArg (fun m => BitVec.getLsbD m slot) hz
    simp [BitVec.getLsbD_and, getLsbD_bit h, hbit] at this

theorem popcount_or (h : slot < 32) (hclear : m.getLsbD slot = false) :
    popcount (m ||| bit slot) = popcount m + 1 := by
  unfold popcount
  rw [← Finset.card_insert_of_notMem (a := slot) (by simp [hclear])]
  congr 1
  ext i
  simp only [Finset.mem_filter, Finset.mem_range, Finset.mem_insert, BitVec.getLsbD_or,
    getLsbD_bit h, Bool.or_eq_true, decide_eq_true_eq]
  constructor
  · rintro ⟨hi, hm | rfl⟩
    · exact .inr ⟨hi, hm⟩
    · exact .inl rfl
  · rintro (rfl | ⟨hi, hm⟩)
    · exact ⟨h, .inr rfl⟩
    · exact ⟨hi, .inl hm⟩

theorem popcount_xor (h : slot < 32) (hset : m.getLsbD slot = true) :
    popcount (m ^^^ bit slot) + 1 = popcount m := by
  unfold popcount
  rw [← Finset.card_erase_add_one (s := (Finset.range 32).filter fun i => m.getLsbD i) (a := slot)
    (by simp [h, hset])]
  congr 2
  ext i
  simp only [Finset.mem_filter, Finset.mem_range, Finset.mem_erase, BitVec.getLsbD_xor,
    getLsbD_bit h]
  by_cases hi : i = slot
  · simp [hi, hset]
  · simp [hi]

theorem popcount_le {n : Nat} (h : ∀ i, m.getLsbD i = true → i < n) : popcount m ≤ n := by
  rw [← Finset.card_range n]
  refine Finset.card_le_card fun i hi => ?_
  exact Finset.mem_range.mpr (h i (Finset.mem_filter.mp hi).2)

theorem popcount_zero : popcount 0 = 0 := by
  simp [popcount]

/-- The events of another slot are not in a slot's history. -/
theorem filter_slot_ne {e : Event} {i : Nat} (log : List Event) (h : e.slot ≠ i) :
    (e :: log).filter (fun e => e.slot = i) = log.filter fun e => e.slot = i :=
  List.filter_cons_of_neg (by simpa using h)

theorem filter_slot_self {e : Event} {i : Nat} (log : List Event) (h : e.slot = i) :
    (e :: log).filter (fun e => e.slot = i) = e :: log.filter fun e => e.slot = i :=
  List.filter_cons_of_pos (by simpa using h)

/-- The invariant: the slots are accounted for, and there are at most 32. -/
structure Inv (d : Disk) : Prop extends Accounted d where
  slots : d.nslots ≤ 32

theorem Inv.acknowledge (h : Inv d) (hbit : d.slotsOutstandingMask.getLsbD slot = true)
    {result : Int} (hresult : result ≠ eAgain) :
    ∃ d', acknowledge slot result d = some d' ∧ Inv d' ∧
      d'.slotsOutstandingMask = d.slotsOutstandingMask ^^^ bit slot := by
  have hslot := h.below slot hbit
  have hslots := h.slots
  have h32 : slot < 32 := by omega
  obtain ⟨cell, hcell⟩ := Option.ne_none_iff_exists'.mp ((h.status slot).mpr hbit)
  have hcount := h.count
  have hpop := popcount_xor h32 hbit
  have hxor : ∀ i, (d.slotsOutstandingMask ^^^ bit slot).getLsbD i = true ↔
      i ≠ slot ∧ d.slotsOutstandingMask.getLsbD i = true := by
    intro i
    rw [BitVec.getLsbD_xor, getLsbD_bit h32]
    by_cases hi : i = slot
    · simp [hi, hbit]
    · simp [hi]
  unfold Ahci.acknowledge
  rw [if_pos ⟨hslot, by rw [outstanding_eq d h32, hbit]⟩]
  dsimp only
  rw [hcell]
  refine ⟨_, rfl, ⟨⟨?_, ?_, ?_, ?_, ?_⟩, hslots⟩, rfl⟩
  · exact fun i hi => h.below i ((hxor i).mp hi).2
  · dsimp only
    omega
  · intro i
    dsimp only
    rw [hxor i]
    by_cases hi : i = slot
    · simp [hi]
    · rw [Function.update_of_ne hi, h.status i]
      simp [hi]
  · intro i
    dsimp only
    by_cases hi : i = slot
    · subst hi
      rw [Function.update_self,
        filter_slot_self _ (show (Event.ack i cell result).slot = i from rfl)]
      refine ⟨rfl, hresult, ?_⟩
      have := h.history i
      rw [hcell] at this
      exact this
    · rw [Function.update_of_ne hi, filter_slot_ne _ (Ne.symm hi)]
      exact h.history i
  · intro c v hv
    dsimp only
    rw [lastStored] at hv
    by_cases hc : c = cell
    · rw [if_pos hc.symm] at hv
      rw [hc, Function.update_self]
      exact Option.some.inj hv
    · rw [if_neg (Ne.symm hc)] at hv
      rw [Function.update_of_ne hc]
      exact h.stored c v hv

/-- A command goes into an open slot. -/
theorem Inv.send (h : Inv d) (hslot : slot < d.nslots)
    (hbit : d.slotsOutstandingMask.getLsbD slot = false)
    (req : Request) : ∃ d', send req slot d = some d' ∧ Inv d' := by
  have hslots := h.slots
  have h32 : slot < 32 := by omega
  have hcount := h.count
  have hpop := popcount_or h32 hbit
  have hnone : d.slotStatus slot = none := by
    by_contra hc
    rw [(h.status slot).mp hc] at hbit
    cases hbit
  have hopen : d.outstanding slot = false := by rw [outstanding_eq d h32, hbit]
  have hor : ∀ i, (d.slotsOutstandingMask ||| bit slot).getLsbD i = true ↔
      i = slot ∨ d.slotsOutstandingMask.getLsbD i = true := by
    intro i
    rw [BitVec.getLsbD_or, getLsbD_bit h32, Bool.or_eq_true, decide_eq_true_eq, or_comm]
  have hbelow : ∀ i, (d.slotsOutstandingMask ||| bit slot).getLsbD i = true → i < d.nslots := by
    intro i hi
    rcases (hor i).mp hi with rfl | hi
    · exact hslot
    · exact h.below i hi
  have hle := popcount_le hbelow
  obtain ⟨hpa, hpos, hsz, hlow, hin⟩ := req.buffer
  have heven : req.sz % 2 = 0 := by
    have := req.aligned.1
    unfold sectorsize at this
    omega
  unfold Ahci.send clear pushBuffer issueNcq
  rw [if_pos hslot, Option.bind_some, if_pos, Option.bind_some, if_pos, Option.map_some]
  · refine ⟨_, rfl, ⟨⟨hbelow, ?_, ?_, ?_, ?_⟩, hslots⟩⟩
    · dsimp only
      omega
    · intro i
      dsimp only
      rw [hor i]
      by_cases hi : i = slot
      · simp [hi]
      · rw [Function.update_of_ne hi, h.status i]
        simp [hi]
    · intro i
      dsimp only
      by_cases hi : i = slot
      · subst hi
        rw [Function.update_self,
          filter_slot_self _ (show (Event.issue i req.status).slot = i from rfl)]
        refine ⟨rfl, ?_⟩
        have := h.history i
        rw [hnone] at this
        exact this
      · rw [Function.update_of_ne hi, filter_slot_ne _ (Ne.symm hi)]
        exact h.history i
    · intro c v hv
      dsimp only
      rw [lastStored] at hv
      by_cases hc : c = req.status
      · rw [if_pos hc.symm] at hv
        rw [hc, Function.update_self]
        exact Option.some.inj hv
      · rw [if_neg (Ne.symm hc)] at hv
        rw [Function.update_of_ne hc]
        exact h.stored c v hv
  · -- what `issue_ncq` asserts
    refine ⟨hslot, hopen, ?_⟩
    dsimp only
    rw [Function.update_self, Function.update_self]
    omega
  · -- what `push_buffer` asserts
    refine ⟨hpa, heven, ⟨hpos, hsz⟩, hlow, hin, hslot, ?_⟩
    dsimp only
    rw [Function.update_self]
    omega

theorem findSlot_some (h : findSlot d = some slot) (hslots : d.nslots ≤ 32) :
    slot < d.nslots ∧ d.slotsOutstandingMask.getLsbD slot = false := by
  unfold findSlot at h
  have hslot : slot < d.nslots := List.mem_range.mp (List.mem_of_find?_eq_some h)
  have hopen := List.find?_some h
  rw [outstanding_eq d (by omega), Bool.not_eq_true'] at hopen
  exact ⟨hslot, hopen⟩

/-- A slot is open when one is available. -/
theorem Inv.findSlot (h : Inv d) (havail : 0 < d.nslotsAvailable) :
    ∃ slot, findSlot d = some slot := by
  by_contra hc
  have hnone : Ahci.findSlot d = none := by
    cases hf : Ahci.findSlot d with
    | none => rfl
    | some slot => exact absurd ⟨slot, hf⟩ hc
  have hslots := h.slots
  have hall : ∀ i < d.nslots, d.slotsOutstandingMask.getLsbD i = true := by
    intro i hi
    have := List.find?_eq_none.mp hnone i (List.mem_range.mpr hi)
    rw [outstanding_eq d (by omega)] at this
    simpa using this
  have hle : d.nslots ≤ popcount d.slotsOutstandingMask := by
    rw [← Finset.card_range d.nslots]
    refine Finset.card_le_card fun i hi => ?_
    have hi := Finset.mem_range.mp hi
    exact Finset.mem_filter.mpr ⟨Finset.mem_range.mpr (by omega), hall i hi⟩
  have := h.count
  omega

theorem Inv.readOrWrite (h : Inv d) (req : Request) : ∃ d', readOrWrite req d = some d' ∧
    Inv d' := by
  unfold Ahci.readOrWrite
  rw [if_pos req.aligned]
  split
  · rename_i havail
    obtain ⟨slot, hslot⟩ := h.findSlot havail
    obtain ⟨hlt, hbit⟩ := findSlot_some hslot h.slots
    rw [hslot]
    exact h.send hlt hbit req
  · exact ⟨d, rfl, h⟩

theorem Inv.readOrWriteNonblocking (h : Inv d) (req : Request) :
    ∃ d', readOrWriteNonblocking req d = some d' ∧ Inv d' := by
  unfold Ahci.readOrWriteNonblocking
  rw [if_pos req.aligned]
  cases hslot : Ahci.findSlot d with
  | none => exact ⟨d, rfl, h⟩
  | some slot =>
    obtain ⟨hlt, hbit⟩ := findSlot_some hslot h.slots
    exact h.send hlt hbit req

/-- The completed commands are acknowledged one by one: those of the slots from `slot` on that
are in `acks` are still outstanding. -/
theorem Inv.acknowledgeCompleted :
    ∀ (fuel : Nat) {slot : Nat} {acks : BitVec 32} {d : Disk}, Inv d →
    (∀ i, acks.getLsbD i = true → d.slotsOutstandingMask.getLsbD (slot + i) = true) →
      ∃ d', acknowledgeCompleted fuel slot acks d = some d' ∧ Inv d' := by
  intro fuel
  induction fuel with
  | zero => exact fun h _ => ⟨_, rfl, h⟩
  | succ fuel ih =>
    intro slot acks d h hacks
    have hshift : ∀ i, (acks >>> 1).getLsbD i = acks.getLsbD (i + 1) := by
      intro i
      rw [BitVec.getLsbD_ushiftRight, Nat.add_comm]
    unfold Ahci.acknowledgeCompleted
    split
    · by_cases hbit : acks.getLsbD 0 = true
      · have hslot : d.slotsOutstandingMask.getLsbD slot = true := hacks 0 hbit
        have h32 : slot < 32 := by
          have := h.below slot hslot
          have := h.slots
          omega
        obtain ⟨d₁, hd₁, h₁, hmask⟩ := h.acknowledge hslot (show (0 : Int) ≠ eAgain by decide)
        rw [if_pos hbit, hd₁, Option.bind_some]
        refine ih h₁ fun i hi => ?_
        rw [hshift] at hi
        have hi := hacks (i + 1) hi
        rw [hmask, BitVec.getLsbD_xor, getLsbD_bit h32, show slot + 1 + i = slot + (i + 1) by omega,
          hi]
        simp
      · rw [if_neg hbit, Option.bind_some]
        refine ih h fun i hi => ?_
        rw [hshift] at hi
        rw [show slot + 1 + i = slot + (i + 1) by omega]
        exact hacks (i + 1) hi
    · exact ⟨d, rfl, h⟩

theorem Inv.acknowledgeErrored : ∀ (l : List Nat) {d : Disk}, (∀ slot ∈ l, slot < 32) → Inv d →
    ∃ d', l.foldlM (fun (d : Disk) slot =>
      if d.outstanding slot then Ahci.acknowledge slot eIO d else some d) d = some d' ∧ Inv d' := by
  intro l
  induction l with
  | nil => exact fun _ h => ⟨_, rfl, h⟩
  | cons slot l ih =>
    intro d hl h
    obtain ⟨hslot, hl⟩ := List.forall_mem_cons.mp hl
    rw [List.foldlM_cons]
    by_cases hout : d.outstanding slot = true
    · rw [outstanding_eq d hslot] at hout
      obtain ⟨d₁, hd₁, h₁, -⟩ := h.acknowledge hout (show eIO ≠ eAgain by decide)
      rw [outstanding_eq d hslot, if_pos hout, hd₁]
      exact ih hl h₁
    · rw [if_neg hout]
      exact ih hl h

theorem Inv.handleInterrupt (h : Inv d) (isError : Bool) (ncqActiveMask : BitVec 32) :
    ∃ d', handleInterrupt isError ncqActiveMask d = some d' ∧ Inv d' := by
  have hacks : ∀ i, (d.slotsOutstandingMask &&& ~~~ncqActiveMask).getLsbD i = true →
      d.slotsOutstandingMask.getLsbD (0 + i) = true := by
    intro i hi
    rw [BitVec.getLsbD_and, Bool.and_eq_true] at hi
    rw [Nat.zero_add]
    exact hi.1
  obtain ⟨d₁, hd₁, h₁⟩ := Inv.acknowledgeCompleted 32 h hacks
  unfold Ahci.handleInterrupt
  rw [hd₁, Option.bind_some]
  cases isError with
  | false => exact ⟨d₁, rfl, h₁⟩
  | true =>
    obtain ⟨d₂, hd₂, h₂⟩ := Inv.acknowledgeErrored (List.range 32) (fun _ => List.mem_range.mp) h₁
    rw [if_pos rfl, handleErrorInterrupt, hd₂]
    exact ⟨_, rfl, ⟨h₂.below, h₂.count, h₂.status, h₂.history, h₂.stored⟩, h₂.slots⟩

/-- No assertion fails, and the account is kept. -/
theorem Inv.step (h : Inv d) (a : Label) : ∃ d', step d a = some d' ∧ Inv d' := by
  unfold Ahci.step
  split
  · exact ⟨d, rfl, h⟩
  · cases a with
    | readOrWrite req => exact h.readOrWrite req
    | readOrWriteNonblocking req => exact h.readOrWriteNonblocking req
    | interrupt isError ncqActiveMask => exact h.handleInterrupt isError ncqActiveMask

theorem Start.inv (h : Start d) : Inv d := by
  refine ⟨⟨?_, ?_, ?_, ?_, ?_⟩, h.slots⟩
  · intro i hi
    rw [h.mask] at hi
    simp at hi
  · rw [h.available, h.mask, popcount_zero, Nat.add_zero]
  · intro i
    rw [h.mask, h.status i]
    simp
  · intro i
    rw [h.log, h.status i]
    rfl
  · intro cell v hv
    rw [h.log] at hv
    cases hv

/-- **The slots are accounted for** in every reachable state, and no assertion fails in the
next step, whatever it is. -/
theorem slots_accounted (h : machine.Reach d) : Accounted d ∧ ∀ a, step d a ≠ none := by
  have hinv : Inv d := by
    refine h.invariant Inv ?_ ?_
    · exact fun d hd => Start.inv hd
    · intro d a d' hd hstep
      obtain ⟨d₁, hd₁, h₁⟩ := hd.step a
      rw [show machine.step d a = some d₁ from hd₁] at hstep
      exact Option.some.inj hstep ▸ h₁
  refine ⟨hinv.toAccounted, fun a ha => ?_⟩
  obtain ⟨d₁, hd₁, -⟩ := hinv.step a
  rw [ha] at hd₁
  cases hd₁

/-- A disk with two slots. -/
def twoSlots : Disk where
  nslots := 2
  nslotsAvailable := 2
  slotsOutstandingMask := 0
  slotStatus := fun _ => none
  nbuf := fun _ => 0
  bufBytePos := fun _ => 0
  cells := fun _ => 0
  panicked := false
  log := []

/-- A read of one block. -/
def oneBlock : Request where
  write := false
  pa := 0x8000
  sz := 4096
  off := 8192
  status := 7
  aligned := by decide
  buffer := by decide

theorem slots_accounted_read :
    ∃ d, machine.run twoSlots [.readOrWrite oneBlock, .interrupt false 0] = some d ∧
    d.cells 7 = 0 ∧ d.log = [.ack 0 7 0, .issue 0 7] ∧ Accounted d ∧ ∀ a, step d a ≠ none := by
  obtain ⟨d, hrun, hcell, hlog⟩ :
      ∃ d, machine.run twoSlots [.readOrWrite oneBlock, .interrupt false 0] = some d ∧
      d.cells 7 = 0 ∧ d.log = [.ack 0 7 0, .issue 0 7] := ⟨_, rfl, rfl, rfl⟩
  have hstart : Start twoSlots := ⟨by decide, rfl, rfl, fun _ => rfl, rfl⟩
  exact ⟨d, hrun, hcell, hlog, slots_accounted ((Machine.Reach.init hstart).run hrun)⟩

end PugOS.Ahci
