import PugOS.Transition
import PugOS.Ring

/-! # Pipes

`vnode_pipe::read` and `vnode_pipe::write` move bytes through a `bbuffer`: a
ring of `BBUFFER_SIZE` bytes under `bb_->lock_`.  A call first blocks until it
can make progress and then runs to its end with the lock held, so a pipe is a
machine whose steps are whole calls, in any order and by any readers and
writers, and the closings of its two ends (`file::~file`).

`Traffic` adds the history a reader and a writer see: the bytes writes accepted
and the bytes reads returned.  The ring refines that history at every point of
every run (`pipe_is_fifo`).
-/
namespace PugOS.Pipe
open Transition Ring

/-- `BBUFFER_SIZE`. -/
def bbufferSize : Nat := 128

/-- `struct bbuffer`, without its lock and wait queues.  Only the cells of `buf`
below `bbufferSize` exist in the source. -/
structure BBuffer where
  buf : Nat → UInt8
  pos : Nat
  len : Nat
  readClosed : Bool
  writeClosed : Bool

/-- The constructor `bbuffer()`. -/
def BBuffer.new : BBuffer where
  buf := fun _ => 0
  pos := 0
  len := 0
  readClosed := false
  writeClosed := false

/-- The buffered bytes, oldest first. -/
def BBuffer.contents (bb : BBuffer) : List UInt8 := window bb.buf bbufferSize bb.pos bb.len

/-- `return -1`, as the `size_t` the caller sees. -/
def minusOne : Nat := 2 ^ 64 - 1

/-- `return E_PIPE`, as the `size_t` the caller sees. -/
def ePipe : Nat := 2 ^ 64 - 32

/-- The three-way minimum both loops compute before a copy: what is left of the
request, what is left before the end of the array from `index` on, and `avail`. -/
def ncopy (left index avail : Nat) : Nat :=
  let n := if left > bbufferSize - index then bbufferSize - index else left
  if n > avail then avail else n

/-- The copy loop of `vnode_pipe::read`; `out` is what has been copied so far, so
`input_pos` is its length. -/
def readLoop (sz : Nat) : Nat → BBuffer → List UInt8 → Option (BBuffer × List UInt8)
  | 0, _, _ => none
  | fuel + 1, bb, out =>
    if out.length < sz ∧ bb.len > 0 then
      let n := ncopy (sz - out.length) bb.pos bb.len
      readLoop sz fuel
        { bb with pos := (bb.pos + n) % bbufferSize, len := bb.len - n }
        (out ++ slice bb.buf bb.pos n)
    else
      some (bb, out)

/-- The predicate `vnode_pipe::read` blocks on; it is only tested when the buffer
is empty. -/
def readReady (bb : BBuffer) (sz : Nat) : Bool :=
  if bb.len = 0 then decide (sz = 0) || decide (bb.len > 0) || bb.writeClosed else true

/-- `vnode_pipe::read`, once unblocked: the buffer, the bytes copied to the
caller and the return value. -/
def read (bb : BBuffer) (sz : Nat) : Option (BBuffer × List UInt8 × Nat) :=
  if bb.writeClosed ∧ bb.len = 0 then
    some (bb, [], 0)
  else
    (readLoop sz (bb.len + 1) bb []).map fun (bb', out) =>
      (bb', out, if out.length = 0 ∧ sz > 0 then minusOne else out.length)

/-- The copy loop of `vnode_pipe::write`. -/
def writeLoop (data : List UInt8) : Nat → BBuffer → Nat → Option (BBuffer × Nat)
  | 0, _, _ => none
  | fuel + 1, bb, inputPos =>
    if inputPos < data.length ∧ bb.len < bbufferSize then
      let bbIndex := (bb.pos + bb.len) % bbufferSize
      let n := ncopy (data.length - inputPos) bbIndex (bbufferSize - bb.len)
      writeLoop data fuel
        { bb with buf := store bb.buf bbIndex ((data.drop inputPos).take n), len := bb.len + n }
        (inputPos + n)
    else
      some (bb, inputPos)

/-- The predicate `vnode_pipe::write` blocks on; it is only tested when the buffer
is full. -/
def writeReady (bb : BBuffer) (sz : Nat) : Bool :=
  if bb.len = bbufferSize then
    decide (sz = 0) || decide (bb.len < bbufferSize) || bb.readClosed
  else true

/-- `vnode_pipe::write`, once unblocked: the buffer, how many bytes it accepted and
the return value. -/
def write (bb : BBuffer) (data : List UInt8) : Option (BBuffer × Nat × Nat) :=
  if bb.readClosed then
    some (bb, 0, ePipe)
  else
    (writeLoop data (bbufferSize - bb.len + 1) bb 0).map fun (bb', n) =>
      (bb', n, if n = 0 ∧ data.length > 0 then minusOne else n)

/-! ## What one call does -/

/-- The bounds the ring's indices keep. -/
structure BBuffer.InBounds (bb : BBuffer) : Prop where
  pos_lt : bb.pos < bbufferSize
  len_le : bb.len ≤ bbufferSize

theorem ncopy_le_left (left index avail : Nat) : ncopy left index avail ≤ left := by
  unfold ncopy; dsimp only; split <;> split <;> omega

theorem ncopy_le_avail (left index avail : Nat) : ncopy left index avail ≤ avail := by
  unfold ncopy; dsimp only; split <;> split <;> omega

/-- A copy never runs past the end of the array. -/
theorem index_add_ncopy_le (left : Nat) {index : Nat} (avail : Nat) (h : index ≤ bbufferSize) :
    index + ncopy left index avail ≤ bbufferSize := by
  unfold ncopy; dsimp only; split <;> split <;> omega

theorem ncopy_pos {left index avail : Nat} (hl : 0 < left) (hi : index < bbufferSize)
    (ha : 0 < avail) : 0 < ncopy left index avail := by
  unfold ncopy; dsimp only; split <;> split <;> omega

/-- **The read loop** returns a prefix of the buffered bytes, leaves the rest
buffered, and makes progress when there is something to copy. -/
theorem readLoop_spec (sz : Nat) : ∀ (fuel : Nat) (bb : BBuffer) (out : List UInt8),
    bb.InBounds → bb.len < fuel → ∃ bb' taken,
      readLoop sz fuel bb out = some (bb', out ++ taken) ∧ bb'.InBounds ∧
      bb.contents = taken ++ bb'.contents ∧
      bb'.readClosed = bb.readClosed ∧ bb'.writeClosed = bb.writeClosed ∧
      (out.length ≤ sz → (out ++ taken).length ≤ sz) ∧
      (out.length < sz → 0 < bb.len → taken ≠ []) := by
  intro fuel
  induction fuel with
  | zero => intro bb out _ hf; omega
  | succ fuel ih =>
    intro bb out hb hf
    rw [readLoop]
    by_cases hc : out.length < sz ∧ bb.len > 0
    · rw [if_pos hc]
      dsimp only
      have hend := index_add_ncopy_le (sz - out.length) bb.len hb.pos_lt.le
      have hleft := ncopy_le_left (sz - out.length) bb.pos bb.len
      have hav := ncopy_le_avail (sz - out.length) bb.pos bb.len
      have hpos := ncopy_pos (Nat.sub_pos_of_lt hc.1) hb.pos_lt hc.2
      generalize ncopy (sz - out.length) bb.pos bb.len = n at hend hleft hav hpos ⊢
      obtain ⟨bb', taken, hrun, hb', hcont, hr, hw, hsz, -⟩ :=
        ih { bb with pos := (bb.pos + n) % bbufferSize, len := bb.len - n }
          (out ++ slice bb.buf bb.pos n)
          ⟨Nat.mod_lt _ (by decide), (by have := hb.len_le; show bb.len - n ≤ _; omega)⟩
          (by show bb.len - n < fuel; omega)
      refine ⟨bb', slice bb.buf bb.pos n ++ taken, ?_, hb', ?_, hr, hw, ?_, ?_⟩
      · rw [hrun, List.append_assoc]
      · have hsplit := window_add bb.buf bbufferSize bb.pos n (bb.len - n)
        rw [Nat.add_sub_cancel' hav, window_eq_slice _ hend] at hsplit
        rw [List.append_assoc, ← hcont]
        exact hsplit
      · intro _
        rw [← List.append_assoc]
        exact hsz (by rw [List.length_append, slice_length]; omega)
      · intro _ _ hnil
        have := congrArg List.length hnil
        simp only [List.length_append, slice_length, List.length_nil] at this
        omega
    · rw [if_neg hc]
      refine ⟨bb, [], by rw [List.append_nil], hb, rfl, rfl, rfl, by simp, ?_⟩
      intro h1 h2
      exact absurd ⟨h1, h2⟩ hc

/-- **The write loop** appends to the buffered bytes the part of the data it
counts as accepted, and makes progress when there is room. -/
theorem writeLoop_spec (data : List UInt8) : ∀ (fuel : Nat) (bb : BBuffer) (inputPos : Nat),
    bb.InBounds → bbufferSize - bb.len < fuel → inputPos ≤ data.length → ∃ bb' n,
      writeLoop data fuel bb inputPos = some (bb', inputPos + n) ∧ bb'.InBounds ∧
      inputPos + n ≤ data.length ∧
      bb'.contents = bb.contents ++ (data.drop inputPos).take n ∧
      bb'.readClosed = bb.readClosed ∧ bb'.writeClosed = bb.writeClosed ∧
      (inputPos < data.length → bb.len < bbufferSize → 0 < n) := by
  intro fuel
  induction fuel with
  | zero => intro bb inputPos _ hf; omega
  | succ fuel ih =>
    intro bb inputPos hb hf hle
    rw [writeLoop]
    by_cases hc : inputPos < data.length ∧ bb.len < bbufferSize
    · rw [if_pos hc]
      dsimp only
      have hi : (bb.pos + bb.len) % bbufferSize < bbufferSize := Nat.mod_lt _ (by decide)
      have hend := index_add_ncopy_le (data.length - inputPos) (bbufferSize - bb.len) hi.le
      have hleft := ncopy_le_left (data.length - inputPos) ((bb.pos + bb.len) % bbufferSize)
        (bbufferSize - bb.len)
      have hav := ncopy_le_avail (data.length - inputPos) ((bb.pos + bb.len) % bbufferSize)
        (bbufferSize - bb.len)
      have hpos := ncopy_pos (Nat.sub_pos_of_lt hc.1) hi (Nat.sub_pos_of_lt hc.2)
      generalize ncopy (data.length - inputPos) ((bb.pos + bb.len) % bbufferSize)
        (bbufferSize - bb.len) = n at hend hleft hav hpos ⊢
      have hlen : ((data.drop inputPos).take n).length = n := by
        rw [List.length_take, List.length_drop]; omega
      obtain ⟨bb', m, hrun, hb', hm, hcont, hr, hw, -⟩ :=
        ih { bb with
              buf := store bb.buf ((bb.pos + bb.len) % bbufferSize) ((data.drop inputPos).take n)
              len := bb.len + n } (inputPos + n)
          ⟨hb.pos_lt, by show bb.len + n ≤ _; omega⟩
          (by show bbufferSize - (bb.len + n) < fuel; omega) (by omega)
      refine ⟨bb', n + m, ?_, hb', by omega, ?_, hr, hw, fun _ _ => by omega⟩
      · rw [hrun, Nat.add_assoc]
      · have happ := window_store bb.buf bbufferSize bb.pos bb.len
          ((data.drop inputPos).take n) (by omega) (by omega)
        rw [hlen] at happ
        rw [hcont, List.take_add, List.drop_drop, ← List.append_assoc]
        exact congrArg (· ++ (data.drop (inputPos + n)).take m) happ
    · rw [if_neg hc]
      refine ⟨bb, 0, rfl, hb, by omega, by simp, rfl, rfl, ?_⟩
      intro h1 h2
      exact absurd ⟨h1, h2⟩ hc

theorem contents_length (bb : BBuffer) : bb.contents.length = bb.len := window_length ..

theorem contents_eq_nil {bb : BBuffer} (h : bb.len = 0) : bb.contents = [] := by
  rw [BBuffer.contents, h, window_zero]

/-- **One read.**  An unblocked read hands over the oldest buffered bytes, as many as
it returns and no more than it was asked for; a positive request that returns `0`
found the write end closed and the buffer empty. -/
theorem read_spec {bb : BBuffer} {sz : Nat} (hb : bb.InBounds) (hready : readReady bb sz = true) :
    ∃ bb' out, read bb sz = some (bb', out, out.length) ∧ bb'.InBounds ∧
      bb.contents = out ++ bb'.contents ∧ out.length ≤ sz ∧
      bb'.readClosed = bb.readClosed ∧ bb'.writeClosed = bb.writeClosed ∧
      (0 < sz → out.length = 0 → bb.writeClosed = true ∧ bb.contents = []) := by
  unfold read
  by_cases heof : bb.writeClosed = true ∧ bb.len = 0
  · rw [if_pos heof]
    exact ⟨bb, [], rfl, hb, rfl, Nat.zero_le _, rfl, rfl,
      fun _ _ => ⟨heof.1, contents_eq_nil heof.2⟩⟩
  · rw [if_neg heof]
    obtain ⟨bb', out, hrun, hb', hcont, hr, hw, hsz, hprog⟩ :=
      readLoop_spec sz (bb.len + 1) bb [] hb (Nat.lt_succ_self _)
    rw [List.nil_append] at hrun
    -- a positive request that is not at end of file finds bytes to copy
    have hlen : 0 < sz → out.length ≠ 0 := by
      intro h0 hl
      have hne : bb.len ≠ 0 := by
        intro hz
        have hwc : bb.writeClosed = false := by simpa [hz] using heof
        have hsz0 : sz = 0 := by simpa [readReady, hz, hwc] using hready
        omega
      exact hprog h0 (by omega) (List.length_eq_zero_iff.mp hl)
    refine ⟨bb', out, ?_, hb', hcont, by simpa using hsz, hr, hw, fun h0 hl => absurd hl (hlen h0)⟩
    rw [hrun, Option.map_some]
    dsimp only
    rw [if_neg (fun h => hlen h.2 h.1)]

/-- **One write.**  An unblocked write fails with `E_PIPE` when the read end is
closed; otherwise it appends to the buffered bytes the first bytes of its data, as
many as it returns, and at least one of a non-empty request. -/
theorem write_spec {bb : BBuffer} {data : List UInt8} (hb : bb.InBounds)
    (hready : writeReady bb data.length = true) :
    ∃ bb' n r, write bb data = some (bb', n, r) ∧ bb'.InBounds ∧
      bb'.contents = bb.contents ++ data.take n ∧ n ≤ data.length ∧ n ≤ bbufferSize ∧
      bb'.readClosed = bb.readClosed ∧ bb'.writeClosed = bb.writeClosed ∧
      (bb.readClosed = true → n = 0 ∧ r = ePipe) ∧
      (bb.readClosed = false → r = n ∧ (0 < data.length → 0 < n)) := by
  unfold write
  by_cases hrc : bb.readClosed = true
  · rw [if_pos hrc]
    exact ⟨bb, 0, ePipe, rfl, hb, by simp, by omega, by omega, rfl, rfl,
      fun _ => ⟨rfl, rfl⟩, fun h => absurd hrc (by simp [h])⟩
  · rw [if_neg hrc]
    obtain ⟨bb', n, hrun, hb', hn, hcont, hr, hw, hprog⟩ :=
      writeLoop_spec data (bbufferSize - bb.len + 1) bb 0 hb (Nat.lt_succ_self _) (Nat.zero_le _)
    rw [Nat.zero_add] at hrun hn
    rw [List.drop_zero] at hcont
    have hroom : n ≤ bbufferSize := by
      have hl := congrArg List.length hcont
      rw [List.length_append, contents_length, contents_length, List.length_take] at hl
      have := hb'.len_le
      omega
    -- a non-empty request that is not refused finds room
    have hpos : 0 < data.length → 0 < n := by
      intro h0
      refine hprog h0 (lt_of_le_of_ne hb.len_le fun hfull => ?_)
      have hrc' : bb.readClosed = false := by simpa using hrc
      have h00 : data.length = 0 := by simpa [writeReady, hfull, hrc'] using hready
      omega
    refine ⟨bb', n, n, ?_, hb', hcont, hn, hroom, hr, hw, fun h => absurd h hrc,
      fun _ => ⟨rfl, hpos⟩⟩
    rw [hrun, Option.map_some]
    dsimp only
    rw [if_neg (fun h => by have := hpos h.2; omega)]

/-! ## Runs -/

/-- What can happen to a pipe: a call, in full once it is unblocked, or the end of
the last descriptor of one of its ends. -/
inductive Call
  | read (sz : Nat)
  | write (data : List UInt8)
  | closeRead
  | closeWrite

/-- A pipe with the history of what its writes accepted and its reads returned. -/
structure Traffic where
  bb : BBuffer
  accepted : List UInt8
  returned : List UInt8

/-- The bytes a write accepted, judged by its return value alone. -/
def acceptedBy (data : List UInt8) (r : Nat) : List UInt8 :=
  if r = ePipe ∨ r = minusOne then [] else data.take r

/-- One call.  A blocked call is not enabled, and neither is one that the assertions
`!bb_->read_closed_` and `!bb_->write_closed_` stop. -/
def step (s : Traffic) : Call → Option Traffic
  | .read sz =>
    if s.bb.readClosed = false ∧ readReady s.bb sz = true then
      (read s.bb sz).map fun (bb, out, r) =>
        { s with bb := bb, returned := s.returned ++ out.take r }
    else none
  | .write data =>
    if s.bb.writeClosed = false ∧ writeReady s.bb data.length = true then
      (write s.bb data).map fun (bb, _, r) =>
        { s with bb := bb, accepted := s.accepted ++ acceptedBy data r }
    else none
  | .closeRead => some { s with bb := { s.bb with readClosed := true } }
  | .closeWrite => some { s with bb := { s.bb with writeClosed := true } }

/-- A pipe from its creation by `sys_pipe` on. -/
def pipe : Machine Traffic Call where
  init s := s = ⟨BBuffer.new, [], []⟩
  step := step

/-- The history the ring stands for. -/
structure Traffic.Fifo (s : Traffic) : Prop where
  bounds : s.bb.InBounds
  history : s.returned ++ s.bb.contents = s.accepted

theorem acceptedBy_of_le {data : List UInt8} {n : Nat} (h : n ≤ bbufferSize) :
    acceptedBy data n = data.take n := by
  refine if_neg ?_
  have : bbufferSize < ePipe := by decide
  have : bbufferSize < minusOne := by decide
  omega

theorem step_fifo {s s' : Traffic} {c : Call} (hs : s.Fifo) (h : step s c = some s') :
    s'.Fifo := by
  cases c with
  | read sz =>
    simp only [step] at h
    split at h
    · rename_i hen
      obtain ⟨bb', out, hrun, hb', hcont, -⟩ := read_spec hs.bounds hen.2
      rw [hrun, Option.map_some, List.take_length] at h
      obtain rfl := Option.some.inj h
      refine ⟨hb', ?_⟩
      show (s.returned ++ out) ++ bb'.contents = s.accepted
      rw [List.append_assoc, ← hcont, hs.history]
    · cases h
  | write data =>
    simp only [step] at h
    split at h
    · rename_i hen
      obtain ⟨bb', n, r, hrun, hb', hcont, -, hroom, -, -, hrefused, haccepted⟩ :=
        write_spec hs.bounds hen.2
      rw [hrun, Option.map_some] at h
      obtain rfl := Option.some.inj h
      refine ⟨hb', ?_⟩
      show s.returned ++ bb'.contents = s.accepted ++ acceptedBy data r
      have hr : acceptedBy data r = data.take n := by
        cases hrc : s.bb.readClosed with
        | true =>
          obtain ⟨rfl, rfl⟩ := hrefused hrc
          simp [acceptedBy]
        | false => rw [(haccepted hrc).1, acceptedBy_of_le hroom]
      rw [hcont, hr, ← List.append_assoc, hs.history]
    · cases h
  | closeRead =>
    obtain rfl := Option.some.inj h
    exact ⟨⟨hs.bounds.pos_lt, hs.bounds.len_le⟩, hs.history⟩
  | closeWrite =>
    obtain rfl := Option.some.inj h
    exact ⟨⟨hs.bounds.pos_lt, hs.bounds.len_le⟩, hs.history⟩

theorem reach_fifo {s : Traffic} (h : pipe.Reach s) : s.Fifo := by
  refine Machine.Reach.invariant Traffic.Fifo ?_ (fun _ _ _ hs hstep => step_fifo hs hstep) h
  rintro s rfl
  exact ⟨⟨by decide, by decide⟩, rfl⟩

/-- **A pipe is a FIFO byte queue.**  In every state of every run, the bytes reads
have returned followed by the buffered bytes are the bytes writes have accepted, and
the ring's indices are in bounds.  Every unblocked call finishes; none with a positive
size returns `-1`; and a read with a positive size returns `0` only when the write end
is closed and every accepted byte has been read. -/
theorem pipe_is_fifo {s : Traffic} (h : pipe.Reach s) :
    s.returned ++ s.bb.contents = s.accepted ∧
    s.bb.pos < bbufferSize ∧ s.bb.len ≤ bbufferSize ∧
    (∀ sz, s.bb.readClosed = false → readReady s.bb sz = true →
      ∃ bb' out r, read s.bb sz = some (bb', out, r) ∧ r = out.length ∧ r ≤ sz ∧
        (0 < sz → r ≠ minusOne ∧
          (r = 0 → s.bb.writeClosed = true ∧ s.returned = s.accepted))) ∧
    (∀ data, s.bb.writeClosed = false → writeReady s.bb data.length = true →
      ∃ bb' n r, write s.bb data = some (bb', n, r) ∧
        (s.bb.readClosed = true → n = 0 ∧ r = ePipe) ∧
        (s.bb.readClosed = false → r = n ∧ n ≤ data.length) ∧
        (0 < data.length → r ≠ minusOne)) := by
  have hs := reach_fifo h
  refine ⟨hs.history, hs.bounds.pos_lt, hs.bounds.len_le, ?_, ?_⟩
  · intro sz _ hready
    obtain ⟨bb', out, hrun, hb', hcont, hsz, -, -, heof⟩ := read_spec hs.bounds hready
    refine ⟨bb', out, out.length, hrun, rfl, hsz, fun h0 => ⟨?_, fun hr => ?_⟩⟩
    · have hl := congrArg List.length hcont
      rw [List.length_append, contents_length, contents_length] at hl
      have := hs.bounds.len_le
      have : bbufferSize < minusOne := by decide
      omega
    · obtain ⟨hw, hnil⟩ := heof h0 hr
      exact ⟨hw, by rw [← hs.history, hnil, List.append_nil]⟩
  · intro data _ hready
    obtain ⟨bb', n, r, hrun, -, -, hn, hroom, -, -, hrefused, haccepted⟩ :=
      write_spec hs.bounds hready
    refine ⟨bb', n, r, hrun, hrefused, fun hrc => ⟨(haccepted hrc).1, hn⟩, fun h0 => ?_⟩
    cases hrc : s.bb.readClosed with
    | true => rw [(hrefused hrc).2]; decide
    | false =>
      have : bbufferSize < minusOne := by decide
      rw [(haccepted hrc).1]
      omega

/-- A run that wraps: 100 bytes in, 90 out, 60 in, and the write end closed. -/
def wrappingRun : List Call :=
  [.write (List.replicate 100 1), .read 90, .write (List.replicate 60 2), .closeWrite]

theorem pipe_is_fifo_wrapping :
    ∃ s, pipe.Reach s ∧ s.bb.pos = 90 ∧ s.bb.len = 70 ∧
      s.returned ++ s.bb.contents = s.accepted := by
  have hrun : (pipe.run ⟨BBuffer.new, [], []⟩ wrappingRun).isSome = true := by decide
  obtain ⟨s, hs⟩ := Option.isSome_iff_exists.mp hrun
  have hpos : (pipe.run ⟨BBuffer.new, [], []⟩ wrappingRun).map
      (fun s => (s.bb.pos, s.bb.len)) = some (90, 70) := by decide
  rw [hs, Option.map_some] at hpos
  have hreach : pipe.Reach s := Machine.Reach.run (Machine.Reach.init rfl) hs
  exact ⟨s, hreach, congrArg Prod.fst (Option.some.inj hpos),
    congrArg Prod.snd (Option.some.inj hpos), (pipe_is_fifo hreach).1⟩

end PugOS.Pipe
