import PugOS.ChkFSIndex
import PugOS.InodeLock

/-! # Two reads with one offset

`sys_read` calls `vnode_inode::read` with the offset of the `file` by reference, after it has
given the file's lock back, and the loop only holds the inode's lock for reading.  Two calls on
descriptors that share the `file` take steps in any order, a step being a statement of the loop (two
for `off += ncopy`).  As long as a call works out how much to copy, copies it and advances the
offset without the other doing the same, and the offset does not leave the block that was looked
up, each position is delivered once (`reads_share_offset`).
-/
namespace PugOS.SharedOffset
open ChkFS Bytes Transition
open Journal (blocksize)

/-- Where a call is in `vnode_inode::read`, with the local values of the iteration. -/
inductive Pc where
  /-- Before `lock_read`. -/
  | start
  | loop
  /-- `blockoff` is known. -/
  | located (blockoff : Nat)
  /-- `get_data_block` has returned `data`. -/
  | found (blockoff : Nat) (data : Option Nat)
  | bounded (blockoff data blockEnd : Nat)
  | sized (blockoff data ncopy : Nat)
  | clipped (blockoff data ncopy : Nat)
  | copied (ncopy : Nat)
  /-- `off += ncopy` has loaded the offset. -/
  | adding (ncopy off : Nat)
  /-- After the loop. -/
  | unlock
  | returned
  deriving DecidableEq

/-- A call of `vnode_inode::read`.  Beside what the code has there are the positions of the bytes
in `buf`, by the offset they were copied for. -/
structure Call where
  sz : Nat
  nread : Nat
  /-- A byte from outside the block is `none`. -/
  buf : List (Option UInt8)
  positions : List Nat
  pc : Pc
  deriving DecidableEq

structure State where
  /-- `off_` of the file. -/
  off : Nat
  mlock : Nat
  calls : Bool → Call

/-- The call that takes a step.  If it is `get_data_block`, the buffer cache has a slot if `loaded`
says so. -/
structure Label where
  call : Bool
  loaded : Bool

/-- Subtraction of `size_t`s. -/
def sub64 (a b : Nat) : Nat := (a + 2 ^ 64 - b) % 2 ^ 64

theorem sub64_of_le {a b : Nat} (hb : b ≤ a) (ha : a < 2 ^ 64) : sub64 a b = a - b := by
  unfold sub64
  omega

/-- What `unlock_read` leaves in `mlock`. -/
def unlockRead (mlock : Nat) : Nat := (mlock + 2 ^ 32 - 1) % 2 ^ 32

section Code
variable (m : Mem) (ino : Nat)

/-- `memcpy` of `n` bytes from `data + (off - blockoff)`. -/
def copy (blockoff data off n : Nat) : List (Option UInt8) :=
  (List.range n).map fun i =>
    let j := sub64 off blockoff + i
    if j < blocksize then some (m (data * blocksize + j)) else none

/-- A step of a call: the offset and `mlock` after it, and the call. -/
def next (loaded : Bool) (off mlock : Nat) (c : Call) : Option (Nat × Nat × Call) :=
  match c.pc with
  | .start =>
    if mlock = InodeLock.writeLocked then none
    else some (off, (mlock + 1) % 2 ^ 32, { c with pc := .loop })
  | .loop =>
    some (off, mlock,
      { c with pc := if c.sz = 0 then .unlock else .located (off / blocksize * blocksize) })
  | .located blockoff =>
    match checkedGetDataBlock m ino blockoff with
    | .error _ => none
    | .ok bn =>
      some (off, mlock, { c with pc := .found blockoff (if loaded then entryOf bn else none) })
  | .found blockoff data =>
    match data with
    | none => some (off, mlock, { c with pc := .unlock })
    | some data =>
      some (off, mlock,
        { c with
          pc := .bounded blockoff data ((off / blocksize * blocksize + blocksize) % 2 ^ 64) })
  | .bounded blockoff data blockEnd =>
    let ncopy := if (off + c.sz) % 2 ^ 64 > blockEnd then blocksize - off % blocksize else c.sz
    some (off, mlock, { c with pc := .sized blockoff data ncopy })
  | .sized blockoff data ncopy =>
    let left := sub64 (fileSize m ino) off
    some (off, mlock,
      { c with pc := .clipped blockoff data (if ncopy > left then left else ncopy) })
  | .clipped blockoff data ncopy =>
    some (off, mlock, { c with
      buf := c.buf.take c.nread ++ copy m blockoff data off ncopy
      positions := c.positions.take c.nread ++ List.range' off ncopy
      pc := .copied ncopy })
  | .copied ncopy =>
    some (off, mlock, { c with pc := if ncopy = 0 then .unlock else .adding ncopy off })
  | .adding ncopy old =>
    some ((old + ncopy) % 2 ^ 64, mlock,
      { c with nread := c.nread + ncopy, sz := sub64 c.sz ncopy, pc := .loop })
  | .unlock => some (off, unlockRead mlock, { c with pc := .returned })
  | .returned => none

def State.step (s : State) (a : Label) : Option State :=
  (next m ino a.loaded s.off s.mlock (s.calls a.call)).map fun r =>
    { off := r.1, mlock := r.2.1, calls := Function.update s.calls a.call r.2.2 }

/-- A call with a buffer of `sz` bytes. -/
def Call.new (sz : Nat) : Call := { sz := sz, nread := 0, buf := [], positions := [], pc := .start }

/-- Both calls start at offset `start`, whoever else holds the inode's lock.  `sys_read` has checked
that the buffers are below `VA_LOWEND`. -/
def machine (start : Nat) : Machine State Label where
  init s := s.off = start ∧ ∀ i, ∃ sz ≤ 2 ^ 47, s.calls i = Call.new sz
  step := State.step m ino

end Code

/-- The call is between its look at the offset for `ncopy` and the end of `off += ncopy`. -/
def Pc.copying : Pc → Bool
  | .bounded .. | .sized .. | .clipped .. | .copied _ | .adding .. => true
  | _ => false

/-- When a call goes on to work out `ncopy`, the other does not do this or copy, and the offset is
still in the block that was looked up, and not past the end of the file. -/
def Undisturbed (m : Mem) (ino : Nat) (s : State) (a : Label) : Prop :=
  match (s.calls a.call).pc with
  | .found blockoff (some _) =>
    (s.calls !a.call).pc.copying = false ∧ s.off / blocksize * blocksize = blockoff ∧
      s.off ≤ fileSize m ino
  | _ => True

instance (m : Mem) (ino : Nat) (s : State) (a : Label) : Decidable (Undisturbed m ino s a) := by
  unfold Undisturbed
  split <;> infer_instance

/-- What two calls have done that have returned `n₁` and `n₂`: they have the next `n₁ + n₂` bytes of
the file, each of them in one place, and the offset is behind them. -/
structure Shared (m : Mem) (ino start : Nat) (s : State) : Prop where
  lengths : ∀ i, (s.calls i).buf.length = (s.calls i).nread
  bytes : ∀ i, (s.calls i).buf = (s.calls i).positions.map (fileByte m ino)
  once : ((s.calls false).positions ++ (s.calls true).positions).Perm
    (List.range' start ((s.calls false).nread + (s.calls true).nread))
  inFile : ∀ i, ∀ x ∈ (s.calls i).positions, x < fileSize m ino
  offset : s.off = start + ((s.calls false).nread + (s.calls true).nread)

/-! ## One step -/

section Step
variable {m : Mem} {ino off off' mlock mlock' : Nat} {loaded : Bool} {c c' : Call}

/-- The bytes that are copied but that the offset is not behind. -/
def Call.pending (c : Call) : Nat :=
  match c.pc with
  | .copied n | .adding n _ => n
  | _ => 0

/-- `data` is the block of the offset, and the offset is not past the end of the file. -/
structure InBlock (m : Mem) (ino off blockoff data : Nat) : Prop where
  start : blockoff = off / blocksize * blocksize
  block : data = dataVal m ino (off / blocksize)
  mapped : data ≠ 0
  inFile : off ≤ fileSize m ino

/-- What the local values say at each place. -/
def Call.Fits (m : Mem) (ino off : Nat) (c : Call) : Prop :=
  match c.pc with
  | .found blockoff (some data) => checkedGetDataBlock m ino blockoff = .ok data ∧ data ≠ 0
  | .bounded blockoff data blockEnd =>
    InBlock m ino off blockoff data ∧ blockEnd = blockoff + blocksize
  | .sized blockoff data n =>
    InBlock m ino off blockoff data ∧ n ≤ c.sz ∧ off % blocksize + n ≤ blocksize
  | .clipped blockoff data n =>
    InBlock m ino off blockoff data ∧ n ≤ c.sz ∧ off % blocksize + n ≤ blocksize ∧
      off + n ≤ fileSize m ino
  | .copied n => n ≤ c.sz ∧ off + n ≤ fileSize m ino
  | .adding n old => old = off ∧ n ≤ c.sz ∧ off + n ≤ fileSize m ino
  | _ => True

/-- A call that does not copy does not mind where the offset is. -/
theorem Call.Fits.other (h : c.Fits m ino off) (hpc : c.pc.copying = false) (off' : Nat) :
    c.Fits m ino off' := by
  obtain ⟨sz, nread, buf, positions, pc⟩ := c
  cases pc with
  | found blockoff data => cases data <;> exact h
  | bounded => cases hpc
  | sized => cases hpc
  | clipped => cases hpc
  | copied => cases hpc
  | adding => cases hpc
  | _ => trivial

/-- The bytes a call has are those of the file at their positions. -/
structure Call.Kept (m : Mem) (ino : Nat) (c : Call) : Prop where
  small : c.sz ≤ 2 ^ 47
  length : c.positions.length = c.nread + c.pending
  bytes : c.buf = c.positions.map (fileByte m ino)
  inFile : ∀ x ∈ c.positions, x < fileSize m ino

/-- What a step of a call does: it copies `k` bytes from the first position on that no call has
copied, or moves the offset behind bytes that are copied. -/
structure Moved (m : Mem) (ino off off' : Nat) (c c' : Call) : Prop where
  grown : ∃ k, c'.positions = c.positions ++ List.range' (off + c.pending) k ∧
    off' + c'.pending = off + c.pending + k ∧ (k ≠ 0 ∨ off' ≠ off → c.pc.copying = true)
  started : c'.pc.copying = true → c.pc.copying = true ∨ ∃ b e, c.pc = .found b (some e)
  fits : c'.Fits m ino off'
  kept : c'.Kept m ino

/-- A step that does not touch the bytes or the offset. -/
theorem Moved.quiet (hkept : c.Kept m ino) {pc : Pc}
    (hpend : ({ c with pc := pc } : Call).pending = c.pending)
    (hstarted : pc.copying = true → c.pc.copying = true ∨ ∃ b e, c.pc = .found b (some e))
    (hfits : ({ c with pc := pc } : Call).Fits m ino off) :
    Moved m ino off off c { c with pc := pc } where
  grown := ⟨0, (List.append_nil _).symm, by rw [hpend, Nat.add_zero], fun h => absurd h (by simp)⟩
  started := hstarted
  fits := hfits
  kept := ⟨hkept.small, by rw [hpend]; exact hkept.length, hkept.bytes, hkept.inFile⟩

/-- The block of an offset that is not past the end of the file. -/
theorem InBlock.of_found {blockoff data : Nat} (h : checkedGetDataBlock m ino blockoff = .ok data)
    (hne : data ≠ 0) (hblock : off / blocksize * blocksize = blockoff)
    (hoff : off ≤ fileSize m ino) :
    InBlock m ino off blockoff data := by
  subst hblock
  have hmax := div_lt_max (Nat.lt_of_le_of_lt hoff (fileSize_lt m ino))
  have hmod : off / blocksize % 2 ^ 32 = off / blocksize := by
    rw [nmax_eq] at hmax
    exact Nat.mod_eq_of_lt (by omega)
  rw [checkedGetDataBlock_eq (Nat.mul_mod_left (off / blocksize) blocksize)
    (by rw [div_mul_div, hmod]; exact hmax), div_mul_div, hmod, walk_eq] at h
  exact ⟨rfl, (Except.ok.inj h).symm, hne, hoff⟩

theorem InBlock.copy_eq {blockoff data n : Nat} (h : InBlock m ino off blockoff data)
    (hn : off % blocksize + n ≤ blocksize) :
    copy m blockoff data off n = (List.range' off n).map (fileByte m ino) := by
  have hsize := fileSize_lt m ino
  have hoff := h.inFile
  have hdiv := Nat.div_add_mod' off blocksize
  have hsub : sub64 off blockoff = off % blocksize := by
    rw [sub64_of_le (by rw [h.start]; omega) (by omega), h.start]
    omega
  unfold copy
  rw [List.range'_eq_map_range, List.map_map, hsub]
  refine List.map_congr_left fun i hi => ?_
  have hi := List.mem_range.mp hi
  have hblock : (off + i) / blocksize = off / blocksize := by
    unfold blocksize at *
    omega
  have hmod : (off + i) % blocksize = off % blocksize + i := by
    unfold blocksize at *
    omega
  have hmapped := h.mapped
  rw [h.block] at hmapped
  rw [Function.comp_apply, fileByte_eq (by rwa [hblock]), hblock, hmod, ← h.block]
  exact if_pos (by omega)

theorem next_some {a b a' b' : Nat} (h : some (a, b, c) = some (a', b', c')) : a' = a ∧ b' = b ∧
    c' = c := by
  simp only [Option.some.injEq, Prod.mk.injEq] at h
  exact ⟨h.1.symm, h.2.1.symm, h.2.2.symm⟩

/-- **A step of a call** that the other does not disturb. -/
theorem next_spec (hfits : c.Fits m ino off) (hkept : c.Kept m ino)
    (hok : ∀ b e, c.pc = .found b (some e) → off / blocksize * blocksize = b ∧ off ≤ fileSize m ino)
    (h : next m ino loaded off mlock c = some (off', mlock', c')) : Moved m ino off off' c c' := by
  have hsize := fileSize_lt m ino
  obtain ⟨sz, nread, buf, positions, pc⟩ := c
  cases pc with
  | start =>
    simp only [next] at h
    split at h
    · cases h
    · cases h
      exact .quiet hkept rfl (fun hc => by cases hc) trivial
  | loop =>
    cases h
    by_cases hz : sz = 0
    · rw [if_pos hz]
      exact .quiet hkept rfl (fun hc => by cases hc) trivial
    · rw [if_neg hz]
      exact .quiet hkept rfl (fun hc => by cases hc) trivial
  | located blockoff =>
    simp only [next] at h
    split at h
    · cases h
    · rename_i bn hbn
      cases h
      cases hdata : if loaded then entryOf bn else none with
      | none => exact .quiet hkept rfl (fun hc => by cases hc) trivial
      | some data =>
        refine .quiet hkept rfl (fun hc => by cases hc) ?_
        by_cases hz : bn = 0
        · rw [hz, entryOf_zero, ite_self] at hdata
          cases hdata
        · rw [entryOf_some hz] at hdata
          obtain ⟨-, hdata⟩ := Option.ite_none_right_eq_some.mp hdata
          cases hdata
          exact ⟨hbn, hz⟩
  | found blockoff data =>
    cases data with
    | none =>
      cases h
      exact .quiet hkept rfl (fun hc => by cases hc) trivial
    | some data =>
      cases h
      obtain ⟨hblock, hoff⟩ := hok blockoff data rfl
      have hend : (off / blocksize * blocksize + blocksize) % 2 ^ 64 = blockoff + blocksize := by
        rw [← hblock]
        have := Nat.div_mul_le_self off blocksize
        unfold blocksize at *
        omega
      exact .quiet hkept rfl (fun _ => .inr ⟨_, _, rfl⟩) ⟨.of_found hfits.1 hfits.2 hblock hoff,
        hend⟩
  | bounded blockoff data blockEnd =>
    cases h
    obtain ⟨hin, rfl⟩ := hfits
    have hmod := Nat.div_add_mod' off blocksize
    have hlt : off % blocksize < blocksize := Nat.mod_lt _ (by decide)
    have hblockoff := hin.start
    have hoff := hin.inFile
    have hsmall := hkept.small
    have hsum : (off + sz) % 2 ^ 64 = off + sz := Nat.mod_eq_of_lt (by dsimp only at hsmall; omega)
    refine .quiet hkept rfl (fun _ => .inl rfl) ⟨hin, ?_, ?_⟩
    · dsimp only
      rw [hsum]
      split <;> omega
    · dsimp only
      rw [hsum]
      split <;> omega
  | sized blockoff data n =>
    cases h
    obtain ⟨hin, hsz, hblock⟩ := hfits
    have hoff := hin.inFile
    have hleft : sub64 (fileSize m ino) off = fileSize m ino - off := sub64_of_le hoff (by omega)
    refine .quiet hkept rfl (fun _ => .inl rfl) ⟨hin, ?_, ?_, ?_⟩
    all_goals
      dsimp only at hsz ⊢
      rw [hleft]
      split <;> omega
  | clipped blockoff data n =>
    cases h
    obtain ⟨hin, hsz, hblock, hfile⟩ := hfits
    obtain ⟨hsmall, hlen, hbytes, hinFile⟩ := hkept
    dsimp only [Call.pending, Nat.add_zero] at hlen hbytes hinFile
    subst hbytes
    have htake : positions.take nread = positions := List.take_of_length_le (Nat.le_of_eq hlen)
    have htake' : (positions.map (fileByte m ino)).take nread = positions.map (fileByte m ino) := by
      rw [← List.map_take, htake]
    dsimp only
    rw [htake, htake', hin.copy_eq hblock, ← List.map_append]
    refine ⟨⟨n, rfl, rfl, fun _ => rfl⟩, fun _ => .inl rfl, ⟨hsz, hfile⟩, hsmall, ?_, rfl, ?_⟩
    · dsimp only [Call.pending]
      rw [List.length_append, List.length_range', hlen]
    · intro x hx
      rcases List.mem_append.mp hx with hx | hx
      · exact hinFile x hx
      · have := List.mem_range'_1.mp hx
        omega
  | copied n =>
    cases h
    by_cases hz : n = 0
    · rw [if_pos hz]
      subst hz
      exact .quiet hkept rfl (fun hc => by cases hc) trivial
    · rw [if_neg hz]
      exact .quiet hkept rfl (fun _ => .inl rfl) ⟨rfl, hfits⟩
  | adding n old =>
    obtain ⟨rfl, -, rfl⟩ := next_some h
    obtain ⟨rfl, hsz, hfile⟩ := hfits
    obtain ⟨hsmall, hlen, hbytes, hinFile⟩ := hkept
    dsimp only [Call.pending] at hsmall hlen hbytes hinFile hsz
    have hadd : (old + n) % 2 ^ 64 = old + n := Nat.mod_eq_of_lt (by omega)
    have hleft : sub64 sz n = sz - n := sub64_of_le hsz (Nat.lt_of_le_of_lt hsmall (by decide))
    rw [hadd, hleft]
    refine ⟨⟨0, ?_, rfl, fun _ => rfl⟩, fun hc => (by cases hc), trivial, ?_, hlen, hbytes, hinFile⟩
    · rw [List.range'_zero, List.append_nil]
    · exact Nat.le_trans (Nat.sub_le sz n) hsmall
  | unlock =>
    obtain ⟨rfl, -, rfl⟩ := next_some h
    exact .quiet hkept rfl (fun hc => by cases hc) trivial
  | returned => cases h

end Step

/-! ## Runs -/

section Run
variable {m : Mem} {ino start : Nat} {s s' : State}

/-- The positions that have been copied are those from the start to the offset, or to where it will
be once what is copied has been added. -/
structure State.Inv (m : Mem) (ino start : Nat) (s : State) : Prop where
  fits : ∀ i, (s.calls i).Fits m ino s.off
  kept : ∀ i, (s.calls i).Kept m ino
  /-- Only one call copies at a time. -/
  alone : ∀ i, (s.calls i).pc.copying = true → (s.calls !i).pc.copying = false
  once : ∃ k, ((s.calls false).positions ++ (s.calls true).positions).Perm (List.range' start k) ∧
    start + k = s.off + ((s.calls false).pending + (s.calls true).pending)

theorem Call.pending_zero {c : Call} (h : c.pc.copying = false) : c.pending = 0 := by
  obtain ⟨sz, nread, buf, positions, pc⟩ := c
  cases pc with
  | copied => cases h
  | adding => cases h
  | _ => rfl

/-- The same for either order of the calls. -/
theorem once_iff {k : Nat} (i : Bool) :
    (((s.calls false).positions ++ (s.calls true).positions).Perm (List.range' start k) ∧
        start + k = s.off + ((s.calls false).pending + (s.calls true).pending)) ↔
      ((s.calls i).positions ++ (s.calls !i).positions).Perm (List.range' start k) ∧
        start + k = s.off + ((s.calls i).pending + (s.calls !i).pending) := by
  cases i with
  | false => exact Iff.rfl
  | true =>
    rw [Nat.add_comm (s.calls true).pending]
    exact and_congr_left fun _ => ⟨List.perm_append_comm.trans, List.perm_append_comm.trans⟩

theorem State.Inv.init (h : (machine m ino start).init s) : s.Inv m ino start := by
  obtain ⟨hoff, hcalls⟩ := h
  have hnew : ∀ i, ∃ sz ≤ 2 ^ 47, s.calls i = Call.new sz := hcalls
  refine ⟨fun i => ?_, fun i => ?_, fun i hc => ?_, 0, ?_⟩
  · obtain ⟨sz, -, hi⟩ := hnew i
    rw [hi]
    trivial
  · obtain ⟨sz, hsz, hi⟩ := hnew i
    rw [hi]
    exact ⟨hsz, rfl, rfl, fun x hx => absurd hx List.not_mem_nil⟩
  · obtain ⟨sz, -, hi⟩ := hnew i
    rw [hi] at hc
    cases hc
  · obtain ⟨sz, -, hfalse⟩ := hnew false
    obtain ⟨sz', -, htrue⟩ := hnew true
    rw [hfalse, htrue, hoff]
    exact ⟨.refl _, rfl⟩

/-- **A step that the other call does not disturb** keeps the invariant. -/
theorem State.Inv.step (hinv : s.Inv m ino start) {a : Label} (hok : Undisturbed m ino s a)
    (h : s.step m ino a = some s') : s'.Inv m ino start := by
  obtain ⟨i, loaded⟩ := a
  obtain ⟨⟨off', mlock', c'⟩, hnext, rfl⟩ := Option.map_eq_some_iff.mp h
  change ({ off := off', mlock := mlock', calls := Function.update s.calls i c' } : State).Inv m
    ino start
  have hfound : ∀ b e, (s.calls i).pc = .found b (some e) → (s.calls !i).pc.copying = false ∧
      s.off / blocksize * blocksize = b ∧ s.off ≤ fileSize m ino := by
    intro b e hpc
    unfold Undisturbed at hok
    dsimp only at hok
    rwa [hpc] at hok
  have hmoved := next_spec (hinv.fits i) (hinv.kept i) (fun b e hpc => (hfound b e hpc).2) hnext
  obtain ⟨k, hpos, hoff, hcopying⟩ := hmoved.grown
  have hother : Function.update s.calls i c' (!i) = s.calls !i :=
    Function.update_of_ne (by simp) _ _
  have hself : Function.update s.calls i c' i = c' := Function.update_self i c' s.calls
  -- when the offset moves or bytes are copied, the other call stands still
  have hstill : k ≠ 0 ∨ off' ≠ s.off → (s.calls !i).pc.copying = false :=
    fun hk => hinv.alone i (hcopying hk)
  have hstart : c'.pc.copying = true → (s.calls !i).pc.copying = false := by
    intro hc
    rcases hmoved.started hc with hc | ⟨b, e, hpc⟩
    · exact hinv.alone i hc
    · exact (hfound b e hpc).1
  refine ⟨fun j => ?_, fun j => ?_, fun j hj => ?_, ?_⟩
  · dsimp only
    by_cases hj : j = i
    · subst hj
      rw [hself]
      exact hmoved.fits
    · obtain rfl : j = !i := Bool.eq_not.mpr hj
      rw [hother]
      by_cases hsame : off' = s.off
      · rw [hsame]
        exact hinv.fits _
      · exact (hinv.fits _).other (hstill (.inr hsame)) off'
  · dsimp only
    by_cases hj : j = i
    · subst hj
      rw [hself]
      exact hmoved.kept
    · rw [Function.update_of_ne hj]
      exact hinv.kept j
  · dsimp only at hj ⊢
    by_cases hji : j = i
    · subst hji
      rw [hself] at hj
      rw [hother]
      exact hstart hj
    · obtain rfl : j = !i := Bool.eq_not.mpr hji
      rw [hother] at hj
      rw [Bool.not_not, hself]
      by_contra hc
      rw [hstart (Bool.eq_true_of_not_eq_false hc)] at hj
      cases hj
  · obtain ⟨n, hn⟩ := hinv.once
    obtain ⟨hperm, hend⟩ := (once_iff i).mp hn
    refine ⟨n + k, (once_iff i).mpr ?_⟩
    dsimp only
    rw [hself, hother, hpos]
    refine ⟨?_, by omega⟩
    by_cases hk : k = 0
    · rw [hk, List.range'_zero, List.append_nil]
      exact hperm
    · have hzero := Call.pending_zero (hstill (.inl hk))
      have hnextPos : s.off + (s.calls i).pending = start + n := by omega
      rw [hnextPos, ← List.range'_append_1, List.append_assoc]
      exact (List.perm_append_comm.append_left _).trans
        (by rw [← List.append_assoc]; exact hperm.append_right _)

/-- **Two reads share one offset** as long as they do not disturb each other: when both have
returned, each has the bytes at its positions, the positions are those from the start on, each once,
and the offset is behind them. -/
theorem reads_share_offset (h : (machine m ino start).ReachWhen (Undisturbed m ino) s)
    (hret : ∀ i, (s.calls i).pc = .returned) : Shared m ino start s := by
  have hinv : s.Inv m ino start :=
    h.invariant (State.Inv m ino start) (fun _ hs => .init hs) fun _ _ _ hs hok hstep =>
      hs.step hok hstep
  have hpend : ∀ i, (s.calls i).pending = 0 := fun i => Call.pending_zero (by rw [hret i]; rfl)
  have hlen : ∀ i, (s.calls i).positions.length = (s.calls i).nread := by
    intro i
    have hlen := (hinv.kept i).length
    rwa [hpend i] at hlen
  obtain ⟨k, hperm, hend⟩ := hinv.once
  have hk : k = (s.calls false).nread + (s.calls true).nread := by
    have hlength := hperm.length_eq
    rwa [List.length_append, List.length_range', hlen, hlen, eq_comm] at hlength
  subst hk
  rw [hpend, hpend] at hend
  refine ⟨fun i => ?_, fun i => (hinv.kept i).bytes, hperm, fun i => (hinv.kept i).inFile,
    hend.symm⟩
  rw [(hinv.kept i).bytes, List.length_map, hlen]

/-- Two calls for two bytes. -/
def twoReads : State := { off := 0, mlock := 0, calls := fun _ => Call.new 2 }

/-- `n` steps of call `i`. -/
def steps (i : Bool) (n : Nat) : List Label := List.replicate n { call := i, loaded := true }

/-- A file that begins with `abcd`, whose inode is in block 4 and whose data are in block 7. -/
def abcdFile : Mem :=
  image [(sizeAddr 0x4040, 4, 100), (directAddr 0x4040 0, 4, 7), (7 * blocksize, 4, 0x64636261)]

theorem twoReads_init : (machine abcdFile 0x4040 0).init twoReads :=
  ⟨rfl, fun _ => ⟨2, by decide, rfl⟩⟩

/-- Both calls look up the block, then one copies and after it the other. -/
theorem reads_share_two : ∃ s, Shared abcdFile 0x4040 0 s ∧
    (s.calls false).buf = [some 97, some 98] ∧ (s.calls true).buf = [some 99, some 100] := by
  have hrun : ((machine abcdFile 0x4040 0).runWhen (Undisturbed abcdFile 0x4040) twoReads
      (steps false 3 ++ steps true 3 ++ steps false 8 ++ steps true 8)).map
      (fun s => ((s.calls false).pc, (s.calls true).pc, (s.calls false).buf, (s.calls true).buf)) =
      some (.returned, .returned, [some 97, some 98], [some 99, some 100]) := by decide +kernel
  obtain ⟨s, hs, hfields⟩ := Option.map_eq_some_iff.mp hrun
  simp only [Prod.mk.injEq] at hfields
  obtain ⟨hfalse, htrue, hbuf⟩ := hfields
  refine ⟨s, reads_share_offset (.runWhen (.init twoReads_init) hs) (fun i => ?_), hbuf⟩
  cases i
  · exact hfalse
  · exact htrue

/-- One call has copied but not yet moved the offset when the other copies: both return the first
two bytes, and the offset is behind two that neither has. -/
theorem reads_repeat : ∃ s, (machine abcdFile 0x4040 0).Reach s ∧
    (∀ i, (s.calls i).pc = .returned) ∧ (∀ i, (s.calls i).buf = [some 97, some 98]) ∧ s.off = 4 ∧
    ¬ Shared abcdFile 0x4040 0 s := by
  have hrun :
      ((machine abcdFile 0x4040 0).run twoReads
      (steps false 7 ++ steps true 11 ++ steps false 4)).map
      (fun s => (s.off, s.calls false, s.calls true)) = some (4,
        { sz := 0, nread := 2, buf := [some 97, some 98], positions := [0, 1], pc := .returned },
        { sz := 0, nread := 2, buf := [some 97, some 98], positions := [0, 1], pc := .returned }) :=
    by decide +kernel
  obtain ⟨s, hs, hfields⟩ := Option.map_eq_some_iff.mp hrun
  simp only [Prod.mk.injEq] at hfields
  obtain ⟨hoff, hfalse, htrue⟩ := hfields
  refine ⟨s, .run (.init twoReads_init) hs, fun i => ?_, fun i => ?_, hoff, fun hshared => ?_⟩
  · cases i
    · rw [hfalse]
    · rw [htrue]
  · cases i
    · rw [hfalse]
    · rw [htrue]
  · have honce := hshared.once
    rw [hfalse, htrue] at honce
    exact absurd honce (by decide)

end Run
end PugOS.SharedOffset
