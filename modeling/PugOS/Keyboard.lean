import PugOS.Ring
import Mathlib.Data.List.TakeWhile

/-! # The keyboard buffer

`keyboardstate` collects the characters of keyboard interrupts in an array of 256 `int`s,
and `vnode_kbc::read` takes them out.  Positions and the capacity are computed with
`sizeof(buf_)`, which counts bytes.  An index the array does not have, a failed assertion
and `poweroff` all end a run (`Stop`).

What the buffer is for is a queue of at most 256 characters (`Fifo`).  It is one as long as
no more than 256 characters arrive, counting those already read: the next one is stored
outside the array.

Echoing a character and waking `wq_`, on which no reader waits, are left out.
-/
namespace PugOS.Keyboard
open Ring

/-! ## The code -/

/-- The elements of `buf_`. -/
def bufSize : Nat := 256

/-- `sizeof(buf_)`, for elements of four bytes. -/
def sizeofBuf : Nat := bufSize * 4

/-- `state_` of the keyboard. -/
inductive KbdState where
  | boot
  | input
  | fail
  deriving DecidableEq

/-- `keyboardstate`. -/
structure Kbd where
  buf : Nat → Nat
  pos : Nat
  len : Nat
  eol : Nat
  state : KbdState

/-- What ends a run: the machine is turned off, an access out of range, a failed assertion. -/
inductive Stop where
  | poweroff
  | outOfRange
  | assertion
  deriving DecidableEq

/-- The code at `normal_char`. -/
def normalChar (k : Kbd) (ch : Nat) (wantEol : Bool) : Except Stop Kbd :=
  if k.len < sizeofBuf then
    let slot := (k.pos + k.len) % sizeofBuf
    if slot < bufSize then
      .ok { k with
        buf := store k.buf slot [ch]
        len := k.len + 1
        eol := if wantEol then k.len + 1 else k.eol }
    else .error .outOfRange
  else .ok k

/-- The character of one round of the loop in `handle_interrupt`.  `want_eol` is true from
the start. -/
def receive (k : Kbd) (ch : Nat) : Except Stop Kbd :=
  if ch = 0 then .ok k
  else if ch = 0x08 then
    if k.eol < k.len then .ok { k with len := k.len - 1 } else .ok k
  else if ch = 0x11 then .error .poweroff
  else if ch = 0x03 ∨ ch = 113 then
    if k.state ≠ .input then .error .poweroff else normalChar k ch true
  else if ch = 13 then normalChar k 10 true
  else normalChar k ch true

/-- `handle_interrupt`, for the characters that `keyboard_readc` returns. -/
def handleInterrupt (k : Kbd) (chars : List Nat) : Except Stop Kbd := chars.foldlM receive k

/-- `consume`. -/
def consume (k : Kbd) (n : Nat) : Except Stop Kbd :=
  if n ≤ k.len then
    .ok { k with
      pos := (k.pos + n) % sizeofBuf
      len := k.len - n
      eol := (k.eol + 2 ^ 32 - n) % 2 ^ 32 }
  else .error .assertion

/-- The loop of `vnode_kbc::read`, with `left` characters still wanted: `first` says that
none has been read yet. -/
def readLoop : Nat → Bool → Kbd → Except Stop (Kbd × List Nat)
  | 0, _, k => .ok (k, [])
  | left + 1, first, k =>
    if k.eol ≠ 0 then
      if k.pos < bufSize then
        if k.buf k.pos = 0x04 then
          if first then (consume k 1).map fun k => (k, []) else .ok (k, [])
        else do
          let (k', chars) ← readLoop left false (← consume k 1)
          return (k', k.buf k.pos :: chars)
      else .error .outOfRange
    else .ok (k, [])

/-- `vnode_kbc::read`: the characters stored in the reader's buffer. -/
def read (k : Kbd) (sz : Nat) : Except Stop (Kbd × List Nat) :=
  readLoop sz true { k with state := if k.state = .boot then .input else k.state }

/-- The keyboard before the first key. -/
def boot : Kbd where
  buf := fun _ => 0
  pos := 0
  len := 0
  eol := 0
  state := .boot

/-! ## Runs -/

/-- An interrupt with the characters it finds, or a read. -/
inductive Op where
  | interrupt (chars : List Nat)
  | read (sz : Nat)

/-- The buffer and all that has been returned by reads. -/
structure Session where
  kbd : Kbd
  returned : List Nat

/-- One interrupt or read. -/
def Session.exec (s : Session) : Op → Except Stop Session
  | .interrupt chars => do return { s with kbd := ← handleInterrupt s.kbd chars }
  | .read sz => do
    let (k, chars) ← Keyboard.read s.kbd sz
    return ⟨k, s.returned ++ chars⟩

/-- A sequence of them. -/
def run (s : Session) (ops : List Op) : Except Stop Session := ops.foldlM Session.exec s

/-! ## A queue of characters -/

/-- What a character is for: nothing, the end of the run, or the buffer.  `q` and Ctrl-C turn
the machine off as long as nobody has read. -/
inductive Key where
  | nothing
  | poweroff
  | char (ch : Nat)

/-- What the interrupt handler makes of a character. -/
def key (reading : Bool) (ch : Nat) : Key :=
  if ch = 0 ∨ ch = 0x08 then .nothing
  else if ch = 0x11 ∨ (¬reading ∧ (ch = 0x03 ∨ ch = 113)) then .poweroff
  else .char (if ch = 13 then 10 else ch)

/-- The characters of an interrupt that are for the buffer, and whether the machine is
turned off after them. -/
def offers (reading : Bool) : List Nat → List Nat × Bool
  | [] => ([], false)
  | ch :: chars =>
    match key reading ch with
    | .nothing => offers reading chars
    | .poweroff => ([], true)
    | .char c => (c :: (offers reading chars).1, (offers reading chars).2)

/-- The characters that arrive for the buffer, until the machine is turned off. -/
def arrivals : Bool → List Op → List Nat
  | _, [] => []
  | reading, .interrupt chars :: ops =>
    (offers reading chars).1 ++ if (offers reading chars).2 then [] else arrivals reading ops
  | _, .read _ :: ops => arrivals true ops

/-- A queue of at most 256 characters, with all it has accepted and returned. -/
structure Fifo where
  accepted : List Nat
  pending : List Nat
  returned : List Nat
  reading : Bool

namespace Fifo

/-- The queue before the first key. -/
def empty : Fifo := ⟨[], [], [], false⟩

/-- A character is dropped when the queue is full. -/
def offer (q : Fifo) (ch : Nat) : Fifo :=
  if q.pending.length < bufSize then
    { q with accepted := q.accepted ++ [ch], pending := q.pending ++ [ch] }
  else q

/-- At most `sz` characters, up to the next Ctrl-D.  A Ctrl-D at the front is taken out and
nothing is returned. -/
def take (q : Fifo) (sz : Nat) : Fifo :=
  let chars := (q.pending.take sz).takeWhile (· ≠ 0x04)
  if (q.pending.take sz).head? =
    some 0x04 then { q with pending := q.pending.tail, reading := true }
  else
    { q with
      pending := q.pending.drop chars.length
      returned := q.returned ++ chars
      reading := true }

/-- An interrupt offers its characters, and a read takes some. -/
def exec (q : Fifo) : Op → Fifo
  | .interrupt chars => (offers q.reading chars).1.foldl offer q
  | .read sz => q.take sz

def run (q : Fifo) (ops : List Op) : Fifo := ops.foldl exec q

end Fifo

/-- The characters in the buffer. -/
def Kbd.contents (k : Kbd) : List Nat := window k.buf bufSize k.pos k.len

/-- After the run, every index has been in the array, and the buffer is the queue: what has
been read are the accepted characters in order, less the Ctrl-Ds, and what is pending are
the rest. -/
def BoundedFifo (ops : List Op) : Prop :=
  match run ⟨boot, []⟩ ops with
  | .error .poweroff => True
  | .error _ => False
  | .ok s => s.kbd.len ≤ bufSize ∧ s.kbd.eol ≤ s.kbd.len ∧
      ∃ consumed, (Fifo.empty.run ops).accepted = consumed ++ s.kbd.contents ∧
        s.returned = consumed.filter (· ≠ 0x04)

/-! ## Characters in the array -/

/-- The buffer holds `pending` at the end of the first `a` elements. -/
structure Holds (k : Kbd) (a : Nat) (pending : List Nat) : Prop where
  bound : a ≤ bufSize
  pos : k.pos + k.len = a
  eol : k.eol = k.len
  pending : slice k.buf k.pos k.len = pending

variable {k k' : Kbd} {a : Nat} {pending : List Nat}

theorem Holds.length (h : Holds k a pending) : pending.length = k.len := by
  rw [← h.pending, slice_length]

theorem slice_succ (f : Nat → Nat) (i n : Nat) : slice f i (n + 1) = f i :: slice f (i + 1) n := by
  unfold slice
  rw [List.range_succ_eq_map, List.map_cons, List.map_map]
  refine congrArg (f (i + 0) :: ·) (List.map_congr_left fun j _ => ?_)
  show f (i + (j + 1)) = f (i + 1 + j)
  rw [Nat.add_assoc, Nat.add_comm 1 j]

/-- A buffer that is not empty has a first character. -/
theorem Holds.cons (h : Holds k a pending) (hlen : k.len ≠ 0) :
    ∃ rest, pending = k.buf k.pos :: rest ∧ slice k.buf (k.pos + 1) (k.len - 1) = rest := by
  refine ⟨_, ?_, rfl⟩
  rw [← h.pending, ← slice_succ]
  exact congrArg (slice k.buf k.pos) (by omega)

theorem Holds.normalChar (h : Holds k a pending) (c : Nat) :
    if a < bufSize then ∃ k', normalChar k c true = .ok k' ∧ Holds k' (a + 1) (pending ++ [c]) ∧
        k'.state = k.state
      else normalChar k c true = .error .outOfRange := by
  obtain ⟨hbound, hpos, heol, hpending⟩ := h
  have hcap : sizeofBuf = 1024 := rfl
  have hsize : bufSize = 256 := rfl
  have hslot : (k.pos + k.len) % sizeofBuf = a := by
    rw [hpos]
    exact Nat.mod_eq_of_lt (by omega)
  have hrun : Keyboard.normalChar k c true = if a < bufSize then
      .ok { k with buf := store k.buf a [c], len := k.len + 1, eol := k.len + 1 }
      else .error .outOfRange := by
    unfold Keyboard.normalChar
    rw [if_pos (show k.len < sizeofBuf by omega), hslot]
    rfl
  rw [hrun]
  split
  · rename_i hlt
    refine ⟨_, rfl, ⟨by omega, ?_, rfl, ?_⟩, rfl⟩
    · dsimp only
      omega
    · -- the new character is the last of the slice
      have hold : window (store k.buf a [c]) (a + 1) k.pos (k.len + 1) =
          window k.buf (a + 1) k.pos k.len ++ [c] := by
        have hmod : (k.pos + k.len) % (a + 1) = a := by
          rw [hpos]
          exact Nat.mod_eq_of_lt (by omega)
        have := window_store k.buf (a + 1) k.pos k.len [c] (by simp; omega) (by rw [hmod]; simp)
        rwa [hmod] at this
      rw [window_eq_slice _ (by omega), window_eq_slice _ (by omega), hpending] at hold
      exact hold
  · rfl

/-- What a character is for. -/
theorem receive_eq {reading : Bool} (heol : k.eol = k.len)
    (hstate : k.state = if reading then .input else .boot) (ch : Nat) :
    receive k ch = match key reading ch with
      | .nothing => .ok k
      | .poweroff => .error .poweroff
      | .char c => normalChar k c true := by
  have hinput : k.state = .input ↔ reading = true := by
    rw [hstate]
    cases reading <;> simp
  unfold receive key
  by_cases h₀ : ch = 0
  · simp [h₀]
  by_cases h₈ : ch = 0x08
  · simp [h₈, heol]
  by_cases h₁ : ch = 0x11
  · simp [h₁]
  by_cases hq : ch = 0x03 ∨ ch = 113
  · have hcr : ch ≠ 13 := by omega
    cases reading <;> simp [h₀, h₈, h₁, hq, hinput, hcr]
  · by_cases hcr : ch = 13
    · simp [hcr]
    · simp [h₀, h₈, h₁, hq, hcr]

theorem Holds.consume (h : Holds k a pending) (hlen : k.len ≠ 0) :
    ∃ k', consume k 1 = .ok k' ∧ Holds k' a pending.tail ∧ k'.state = k.state ∧
      k'.len + 1 = k.len := by
  obtain ⟨rest, hcons, hrest⟩ := h.cons hlen
  obtain ⟨hbound, hpos, heol, hpending⟩ := h
  have hcap : sizeofBuf = 1024 := rfl
  have hsize : bufSize = 256 := rfl
  have hnext : (k.pos + 1) % sizeofBuf = k.pos + 1 := Nat.mod_eq_of_lt (by omega)
  unfold Keyboard.consume
  rw [if_pos (by omega), hnext]
  refine ⟨_, rfl, ⟨hbound, ?_, ?_, ?_⟩, rfl, ?_⟩
  · dsimp only
    omega
  · dsimp only
    omega
  · rw [hcons, List.tail_cons]
    exact hrest
  · dsimp only
    omega

/-- Reading, once a character has been read. -/
theorem readLoop_spec : ∀ (left : Nat) {k : Kbd} {pending : List Nat}, Holds k a pending →
    ∃ k', readLoop left false k = .ok (k', (pending.take left).takeWhile (· ≠ 0x04)) ∧
      Holds k' a (pending.drop ((pending.take left).takeWhile (· ≠ 0x04)).length) ∧
        k'.state = k.state := by
  intro left
  induction left with
  | zero =>
    intro k pending h
    exact ⟨k, rfl, by simpa using h, rfl⟩
  | succ left ih =>
    intro k pending h
    have hsize : bufSize = 256 := rfl
    have hpos := h.pos
    have hbound := h.bound
    unfold readLoop
    by_cases hlen : k.len = 0
    · have hnil : pending = [] := List.length_eq_zero_iff.mp (h.length.trans hlen)
      rw [if_neg (by rw [h.eol, hlen]; exact not_not.mpr rfl)]
      subst hnil
      exact ⟨k, rfl, h, rfl⟩
    · obtain ⟨rest, rfl, -⟩ := h.cons hlen
      rw [if_pos (by rw [h.eol]; exact hlen), if_pos (by omega)]
      by_cases hd : k.buf k.pos = 0x04
      · rw [if_pos hd, List.take_succ_cons, List.takeWhile_cons_of_neg (by simpa using hd)]
        exact ⟨k, rfl, h, rfl⟩
      · obtain ⟨k₁, hk₁, h₁, hstate₁, -⟩ := h.consume hlen
        obtain ⟨k', hk', h', hstate'⟩ := ih h₁
        rw [if_neg hd, hk₁, List.take_succ_cons, List.takeWhile_cons_of_pos (by simpa using hd)]
        refine ⟨k', ?_, h', hstate'.trans hstate₁⟩
        rw [List.tail_cons] at hk'
        simp only [bind, Except.bind, hk', pure, Except.pure]

/-- Without a Ctrl-D in front, the first character is read as any other. -/
theorem readLoop_first (h : Holds k a pending) {sz : Nat}
    (hd : (pending.take sz).head? ≠ some 0x04) : readLoop sz true k = readLoop sz false k := by
  cases sz with
  | zero => rfl
  | succ left =>
    unfold readLoop
    by_cases hlen : k.len = 0
    · have heol : ¬k.eol ≠ 0 := by
        rw [h.eol]
        exact not_not.mpr hlen
      rw [if_neg heol, if_neg heol]
    · obtain ⟨rest, rfl, -⟩ := h.cons hlen
      rw [List.take_succ_cons, List.head?_cons] at hd
      have hne : k.buf k.pos ≠ 0x04 := fun hc => hd (congrArg some hc)
      simp only [if_neg hne]

theorem read_spec (h : Holds k a pending) (sz : Nat) :
    ∃ k', read k sz = .ok (k', if (pending.take sz).head? = some 0x04 then []
        else (pending.take sz).takeWhile (· ≠ 0x04)) ∧
      Holds k' a (if (pending.take sz).head? = some 0x04 then pending.tail
        else pending.drop ((pending.take sz).takeWhile (· ≠ 0x04)).length) ∧
      k'.state = if k.state = .boot then .input else k.state := by
  have hsize : bufSize = 256 := rfl
  have hpos := h.pos
  have hbound := h.bound
  have h₀ : Holds { k with state := if k.state = .boot then .input else k.state } a pending :=
    ⟨h.bound, h.pos, h.eol, h.pending⟩
  by_cases hd : (pending.take sz).head? = some 0x04
  · -- the first character is a Ctrl-D, and is taken out
    rw [if_pos hd, if_pos hd]
    obtain ⟨left, rfl⟩ : ∃ left, sz = left + 1 := by
      cases sz with
      | zero => simp at hd
      | succ left => exact ⟨left, rfl⟩
    have hlen : k.len ≠ 0 := by
      intro hz
      rw [List.length_eq_zero_iff.mp (h.length.trans hz)] at hd
      simp at hd
    obtain ⟨rest, rfl, -⟩ := h.cons hlen
    rw [List.take_succ_cons, List.head?_cons] at hd
    obtain ⟨k', hk', h', hstate, -⟩ := h₀.consume hlen
    refine ⟨k', ?_, h', hstate⟩
    unfold read readLoop
    rw [if_pos (by rw [h₀.eol]; exact hlen), if_pos (show k.pos < bufSize by omega),
      if_pos (Option.some.inj hd), if_pos rfl, hk']
    rfl
  · rw [if_neg hd, if_neg hd]
    obtain ⟨k', hk', h', hstate⟩ := readLoop_spec sz h₀
    refine ⟨k', ?_, h', hstate⟩
    rw [← hk']
    exact readLoop_first h₀ hd

/-! ## The buffer is a queue -/

/-- The buffer and the queue agree, when `a` characters have arrived. -/
structure Sim (s : Session) (q : Fifo) (a : Nat) : Prop where
  holds : Holds s.kbd a q.pending
  returned : s.returned = q.returned
  state : s.kbd.state = if q.reading then .input else .boot
  order : ∃ consumed, q.accepted = consumed ++ q.pending ∧ q.returned = consumed.filter (· ≠ 0x04)

variable {s s' : Session} {q : Fifo}

theorem Fifo.offer_reading (q : Fifo) (c : Nat) : (q.offer c).reading = q.reading := by
  unfold Fifo.offer
  split <;> rfl

/-- The interrupt handler stores what it is offered, or runs into the end of the array. -/
theorem handleInterrupt_sim : ∀ (chars : List Nat) {s : Session} {q : Fifo} {a : Nat}, Sim s q a →
    if bufSize < a + (offers q.reading chars).1.length then
      handleInterrupt s.kbd chars = .error .outOfRange
    else if (offers q.reading chars).2 then handleInterrupt s.kbd chars = .error .poweroff
    else ∃ k', handleInterrupt s.kbd chars = .ok k' ∧
      Sim ⟨k', s.returned⟩ ((offers q.reading chars).1.foldl Fifo.offer q)
        (a + (offers q.reading chars).1.length) := by
  intro chars
  induction chars with
  | nil =>
    intro s q a h
    have hbound := h.holds.bound
    rw [offers, if_neg (by simpa using hbound), if_neg Bool.false_ne_true]
    exact ⟨s.kbd, rfl, h⟩
  | cons ch chars ih =>
    intro s q a h
    have hreceive := receive_eq h.holds.eol h.state ch
    have hstep : handleInterrupt s.kbd (ch :: chars) =
        (receive s.kbd ch).bind fun k => handleInterrupt k chars := rfl
    rw [hstep, hreceive, offers]
    cases hkey : key q.reading ch with
    | nothing => exact ih h
    | poweroff =>
      have hbound := h.holds.bound
      dsimp only
      rw [if_neg (by simpa using hbound), if_pos rfl]
      rfl
    | char c =>
      have hnormal := h.holds.normalChar c
      dsimp only
      split at hnormal
      · rename_i hlt
        obtain ⟨k₁, hk₁, h₁, hstate₁⟩ := hnormal
        have hlen : q.pending.length < bufSize := by
          have := h.holds.length
          have := h.holds.pos
          omega
        have hoffer : q.offer c =
            { q with accepted := q.accepted ++ [c], pending := q.pending ++ [c] } := if_pos hlen
        have hsim : Sim ⟨k₁, s.returned⟩ (q.offer c) (a + 1) := by
          rw [hoffer]
          obtain ⟨consumed, hacc, hret⟩ := h.order
          refine ⟨h₁, h.returned, hstate₁.trans h.state, consumed, ?_, hret⟩
          dsimp only
          rw [hacc, List.append_assoc]
        have hrest := ih hsim
        rw [Fifo.offer_reading] at hrest
        rw [hk₁, List.length_cons, List.foldl_cons, show ∀ n, a + (n + 1) = a + 1 + n by omega]
        exact hrest
      · rename_i hlt
        rw [hnormal, if_pos (by rw [List.length_cons]; omega)]
        rfl

theorem read_sim (h : Sim s q a) (sz : Nat) :
    ∃ s', s.exec (.read sz) = .ok s' ∧ Sim s' (q.take sz) a := by
  obtain ⟨k', hk', hholds, hstate⟩ := read_spec h.holds sz
  obtain ⟨consumed, hacc, hret⟩ := h.order
  have hstate' : k'.state = .input := by
    rw [hstate, h.state]
    cases q.reading <;> rfl
  refine ⟨_, by rw [Session.exec, hk']; rfl, ?_⟩
  unfold Fifo.take
  dsimp only
  split
  · rename_i hd
    rw [if_pos hd] at hholds
    refine ⟨hholds, ?_, hstate', consumed ++ [0x04], ?_, ?_⟩
    · dsimp only
      rw [List.append_nil]
      exact h.returned
    · obtain ⟨rest, hrest⟩ : ∃ rest, q.pending = 0x04 :: rest := by
        cases hp : q.pending with
        | nil => simp [hp] at hd
        | cons c rest =>
          cases sz with
          | zero => simp at hd
          | succ n =>
            rw [hp, List.take_succ_cons, List.head?_cons] at hd
            exact ⟨rest, by rw [Option.some.inj hd]⟩
      dsimp only
      rw [hacc, hrest, List.tail_cons, List.append_assoc, List.singleton_append]
    · dsimp only
      rw [hret]
      simp
  · rename_i hd
    rw [if_neg hd] at hholds
    refine ⟨hholds, ?_, hstate', consumed ++ (q.pending.take sz).takeWhile (· ≠ 0x04), ?_, ?_⟩
    · dsimp only
      rw [h.returned]
    · have htaken : (q.pending.take sz).takeWhile (· ≠ 0x04) <+: q.pending :=
        (List.takeWhile_prefix _).trans (List.take_prefix sz _)
      dsimp only
      rw [hacc, List.append_assoc, List.prefix_iff_eq_append.mp htaken]
    · dsimp only
      rw [hret, List.filter_append]
      have hall : ((q.pending.take sz).takeWhile (· ≠ 0x04)).filter (· ≠ 0x04) =
          (q.pending.take sz).takeWhile (· ≠ 0x04) := by
        refine List.filter_eq_self.mpr fun c hc => ?_
        have hp := List.mem_takeWhile_imp (p := fun c => decide (c ≠ 0x04)) hc
        exact hp
      rw [hall]

theorem Fifo.foldl_offer_reading (l : List Nat) :
    ∀ q : Fifo, (l.foldl offer q).reading = q.reading := by
  induction l with
  | nil => exact fun q => rfl
  | cons c l ih => exact fun q => (ih (q.offer c)).trans (q.offer_reading c)

theorem Fifo.take_reading (q : Fifo) (sz : Nat) : (q.take sz).reading = true := by
  unfold Fifo.take
  dsimp only
  split <;> rfl

/-- A run stores what arrives, or runs into the end of the array. -/
theorem run_sim : ∀ (ops : List Op) {s : Session} {q : Fifo} {a : Nat}, Sim s q a →
    if bufSize < a + (arrivals q.reading ops).length then run s ops = .error .outOfRange
    else run s ops = .error .poweroff ∨
      ∃ s' a', run s ops = .ok s' ∧ Sim s' (q.run ops) a' := by
  intro ops
  induction ops with
  | nil =>
    intro s q a h
    have hbound := h.holds.bound
    rw [arrivals, if_neg (by simpa using hbound)]
    exact .inr ⟨s, a, rfl, h⟩
  | cons op ops ih =>
    intro s q a h
    have hstep : run s (op :: ops) = (s.exec op).bind fun s => run s ops := rfl
    rw [hstep]
    cases op with
    | interrupt chars =>
      have hint := handleInterrupt_sim chars h
      rw [arrivals, List.length_append]
      split at hint
      · rw [if_pos (by omega), Session.exec, hint]
        rfl
      · rename_i hfit
        split at hint
        · rename_i hoff
          rw [hoff, if_pos rfl, if_neg (by simpa using hfit), Session.exec, hint]
          exact .inl rfl
        · rename_i hon
          obtain ⟨k', hk', hsim⟩ := hint
          have hrest := ih hsim
          rw [Fifo.foldl_offer_reading] at hrest
          rw [if_neg hon, ← Nat.add_assoc, Session.exec, hk']
          exact hrest
    | read sz =>
      obtain ⟨s', hs', hsim⟩ := read_sim h sz
      have hrest := ih hsim
      rw [Fifo.take_reading] at hrest
      rw [arrivals, hs']
      exact hrest

theorem boot_sim : Sim ⟨boot, []⟩ Fifo.empty 0 :=
  ⟨⟨Nat.zero_le _, rfl, rfl, rfl⟩, rfl, rfl, [], rfl, rfl⟩

/-- One character too many is stored outside the array. -/
theorem run_overruns {ops : List Op} (h : bufSize < (arrivals false ops).length) :
    run ⟨boot, []⟩ ops = .error .outOfRange := by
  have hrun := run_sim ops boot_sim
  rw [Nat.zero_add, show Fifo.empty.reading = false from rfl, if_pos h] at hrun
  exact hrun

/-- **The keyboard buffer is a bounded queue** inside its array as long as no more than 256
characters arrive, those that have been read included. -/
theorem keyboard_fifo_iff (ops : List Op) : BoundedFifo ops ↔
    (arrivals false ops).length ≤ bufSize := by
  unfold BoundedFifo
  constructor
  · intro h
    by_contra hlong
    rw [run_overruns (by omega)] at h
    exact h
  · intro hshort
    have hrun := run_sim ops boot_sim
    rw [Nat.zero_add, show Fifo.empty.reading = false from rfl, if_neg (by omega)] at hrun
    rcases hrun with hoff | ⟨s', a', hs', hsim⟩
    · rw [hoff]
      trivial
    · rw [hs']
      obtain ⟨consumed, hacc, hret⟩ := hsim.order
      have hpos := hsim.holds.pos
      have hbound := hsim.holds.bound
      refine ⟨by omega, by rw [hsim.holds.eol], consumed, ?_, hsim.returned.trans hret⟩
      rw [Kbd.contents, window_eq_slice _ (by omega), hsim.holds.pending]
      exact hacc

theorem offers_replicate (n : Nat) :
    offers false (List.replicate n 97) = (List.replicate n 97, false) := by
  induction n with
  | zero => rfl
  | succ n ih =>
    rw [List.replicate_succ, offers, ih]
    rfl

/-- One character more than the array has elements, none of them read. -/
theorem full_buffer_overruns : ¬BoundedFifo [.interrupt (List.replicate 257 97)] := by
  have harrive : (arrivals false [.interrupt (List.replicate 257 97)]).length = 257 := by
    rw [arrivals, offers_replicate, if_neg Bool.false_ne_true, arrivals, List.append_nil,
      List.length_replicate]
  have hlong : bufSize < (arrivals false [.interrupt (List.replicate 257 97)]).length := by
    rw [harrive]
    decide
  unfold BoundedFifo
  rw [run_overruns hlong]
  exact id

end PugOS.Keyboard
