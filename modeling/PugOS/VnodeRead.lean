import PugOS.Keyboard
import PugOS.Pipe
import PugOS.ChkFSCalls

/-! # What a read does to the reader's memory

The four implementations of `vnode::read`, with the memory they copy to: `vnode_kbc` stores one
character at a time, `vnode_pipe` parts of its ring, `vnode_memfile` one byte at a time and
`vnode_inode` parts of blocks.

Each stores at `buf` and up from there, and counts what it stores.  A character of the keyboard is
stored as an `int`, so that three bytes after it are written too: a read writes only what it
returns, exactly unless it is one of the keyboard that has a character to give (`read_framed_iff`).
-/
namespace PugOS.VnodeRead
open Bytes Ring BlockProg
open Journal (blocksize)

/-! ## The code -/

section Kbc
open Keyboard

/-- The loop of `vnode_kbc::read`, with `left` characters still wanted: `first` says that none has
been read yet. -/
def kbcLoop : Nat → Bool → Kbd → Mem → Nat → Except Stop (Kbd × Mem × Nat)
  | 0, _, k, mem, _ => .ok (k, mem, 0)
  | left + 1, first, k, mem, buf =>
    if k.eol ≠ 0 then
      if k.pos < bufSize then
        if k.buf k.pos = 0x04 then
          if first then (consume k 1).map fun k => (k, mem, 0) else .ok (k, mem, 0)
        else do
          -- `*reinterpret_cast<int*>(buf) = kbd.buf_[kbd.pos_]`
          let (k', mem', n) ← kbcLoop left false (← consume k 1) (putLE mem buf 4 (k.buf k.pos))
              (buf + 1)
          return (k', mem', n + 1)
      else .error .outOfRange
    else .ok (k, mem, 0)

/-- `vnode_kbc::read`. -/
def kbcRead (k : Kbd) (mem : Mem) (buf sz : Nat) : Except Stop (Kbd × Mem × Nat) :=
  kbcLoop sz true { k with state := if k.state = .boot then .input else k.state } mem buf

end Kbc

section Pipe
open Pipe

/-- The copy loop of `vnode_pipe::read`. -/
def pipeLoop (buf sz : Nat) : Nat → BBuffer → Mem → Nat → Option (BBuffer × Mem × Nat)
  | 0, _, _, _ => none
  | fuel + 1, bb, mem, inputPos =>
    if inputPos < sz ∧ bb.len > 0 then
      let n := ncopy (sz - inputPos) bb.pos bb.len
      pipeLoop buf sz fuel { bb with pos := (bb.pos + n) % bbufferSize, len := bb.len - n }
        (store mem (buf + inputPos) (slice bb.buf bb.pos n)) (inputPos + n)
    else some (bb, mem, inputPos)

/-- `vnode_pipe::read`, once unblocked. -/
def pipeRead (bb : BBuffer) (mem : Mem) (buf sz : Nat) : Option (BBuffer × Mem × Nat) :=
  if bb.readClosed then none
  else if bb.writeClosed ∧ bb.len = 0 then some (bb, mem, 0)
  else (pipeLoop buf sz (bb.len + 1) bb mem 0).map fun (bb, mem, n) =>
    (bb, mem, if n = 0 ∧ sz > 0 then minusOne else n)

end Pipe

/-- `memfile`, as far as it is read. -/
structure MemFile where
  data : Nat → UInt8
  len : Nat

/-- The loop of `vnode_memfile::read`, with `left` bytes still wanted. -/
def memfileLoop (f : MemFile) (off : Nat) : Nat → Mem → Nat → Nat → Mem × Nat
  | 0, mem, _, n => (mem, n)
  | left + 1, mem, buf, n =>
    if n + off < f.len then memfileLoop f off left (store mem buf [f.data (n + off)]) (buf + 1)
      (n + 1) else (mem, n)

/-- `vnode_memfile::read`: the memory, the result and the offset. -/
def memfileRead (f : MemFile) (mem : Mem) (buf sz off : Nat) : Mem × Nat × Nat :=
  let (mem, n) := memfileLoop f off sz mem buf 0
  (mem, n, off + n)

section Inode
open ChkFS

/-- The loop of `vnode_inode::read`, with `sz` bytes to go: the memory, the result and the offset.
-/
def inodeLoop (ino buf : Nat) : Nat → Mem → Nat → Nat → Nat → Prog (Mem × Nat × Nat)
  | 0, mem, _, off, nread => return (mem, nread, off)
  | fuel + 1, mem, sz, off, nread => do
    if sz = 0 then return (mem, nread, off)
    let blockoff := off / blocksize * blocksize
    match ← getDataBlock ino blockoff with
    | none => return (mem, nread, off)
    | some data =>
      let ncopy :=
        if (off + sz) % 2 ^ 64 > blockoff + blocksize then blocksize - off % blocksize else sz
      let size ← peek (sizeAddr ino) 4
      let ncopy := min ncopy ((size + 2 ^ 64 - off) % 2 ^ 64)
      let bytes ← peekBytes (data * blocksize + (off - blockoff)) ncopy
      putEntry data
      if ncopy = 0 then return (mem, nread, off)
      inodeLoop ino buf fuel (store mem (buf + nread) bytes) (sz - ncopy) (off + ncopy)
        (nread + ncopy)

/-- `vnode_inode::read`. -/
def inodeRead (ino : Nat) (mem : Mem) (buf sz off : Nat) : Prog (Mem × Nat × Nat) :=
  inodeLoop ino buf sz mem sz off 0

end Inode

/-- A vnode and what it reads from; a disk file reads the blocks of the file system. -/
inductive Vnode where
  | kbc (k : Keyboard.Kbd)
  | pipe (bb : Pipe.BBuffer) (h : bb.InBounds)
  | memfile (f : MemFile)
  | inode (ino : Nat)

/-- `v->read(buf, sz, off)` returns `n`, which is not an error, with `mem'` as the memory. -/
def Returns (v : Vnode) (mem : Mem) (buf sz off n : Nat) (mem' : Mem) : Prop :=
  match v with
  | .kbc k => ∃ k', kbcRead k mem buf sz = .ok (k', mem', n)
  | .pipe bb _ => (∃ bb', pipeRead bb mem buf sz = some (bb', mem', n)) ∧ n ≠ Pipe.minusOne
  | .memfile f => ∃ off', memfileRead f mem buf sz off = (mem', n, off')
  | .inode ino => ∃ off', (inodeRead ino mem buf sz off).Can (mem', n, off')

/-- Nothing but `n` bytes at `buf` has changed. -/
def Framed (mem mem' : Mem) (buf n : Nat) : Prop := ∀ x, x < buf ∨ buf + n ≤ x → mem' x = mem x

/-- Every such call returns at most `sz` and changes only what it returns. -/
def WritesOnlyResult (v : Vnode) (buf sz off : Nat) : Prop :=
  ∀ mem n mem', Returns v mem buf sz off n mem' → n ≤ sz ∧ Framed mem mem' buf n

/-- A read of the keyboard that has a character to give: there is a line, and it does not begin with
Ctrl-D. -/
def Types (v : Vnode) (sz : Nat) : Prop :=
  match v with
  | .kbc k => k.eol ≠ 0 ∧ sz ≠ 0 ∧ k.buf k.pos ≠ 0x04
  | _ => False

/-! ## What is stored -/

section Frame
variable {mem mem' mem'' : Mem} {buf sz off n pos : Nat} {bytes : List UInt8}

theorem Framed.refl (mem : Mem) (buf n : Nat) : Framed mem mem buf n := fun _ _ => rfl

/-- A store at the end of what has been stored, and what comes after it. -/
theorem Framed.store (h : Framed (store mem buf bytes) mem' (buf + bytes.length) n) :
    Framed mem mem' buf (bytes.length + n) := by
  intro x hx
  rw [h x (by omega), store_of_not_mem]
  omega

/-- **A memory file.** -/
theorem memfileLoop_framed (f : MemFile) (off : Nat) :
    ∀ (left : Nat) (mem : Mem) (buf n : Nat), ∃ d ≤ left,
    (memfileLoop f off left mem buf n).2 = n + d ∧
    Framed mem (memfileLoop f off left mem buf n).1 buf d := by
  intro left
  induction left with
  | zero => exact fun mem buf n => ⟨0, Nat.le_refl 0, rfl, .refl mem buf 0⟩
  | succ left ih =>
    intro mem buf n
    unfold memfileLoop
    split
    · obtain ⟨d, hd, hn, hframe⟩ := ih (Ring.store mem buf [f.data (n + off)]) (buf + 1) (n + 1)
      refine ⟨1 + d, by omega, by omega, ?_⟩
      exact @Framed.store _ _ _ _ [f.data (n + off)] hframe
    · exact ⟨0, Nat.zero_le _, rfl, .refl mem buf 0⟩

theorem memfile_writes (f : MemFile) (buf sz off : Nat) :
    WritesOnlyResult (.memfile f) buf sz off := by
  rintro mem n mem' ⟨off', h⟩
  obtain ⟨d, hd, hn, hframe⟩ := memfileLoop_framed f off sz mem buf 0
  rw [Nat.zero_add] at hn
  unfold memfileRead at h
  dsimp only at h
  obtain ⟨rfl, hrest⟩ := Prod.mk.inj h
  obtain ⟨rfl, -⟩ := Prod.mk.inj hrest
  exact ⟨hn ▸ hd, hn.symm ▸ hframe⟩

section Pipe
open Pipe

/-- **A pipe.** -/
theorem pipeLoop_framed {buf sz : Nat} :
    ∀ {fuel : Nat} {bb bb' : BBuffer} {mem mem' : Mem} {pos n : Nat}, pos ≤ sz →
    pipeLoop buf sz fuel bb mem pos = some (bb', mem', n) → ∃ d, n = pos + d ∧ n ≤ sz ∧
    Framed mem mem' (buf + pos) d := by
  intro fuel
  induction fuel with
  | zero => exact fun _ h => nomatch h
  | succ fuel ih =>
    intro bb bb' mem mem' pos n hpos h
    unfold pipeLoop at h
    split at h
    · have hle := ncopy_le_left (sz - pos) bb.pos bb.len
      dsimp only at h
      generalize ncopy (sz - pos) bb.pos bb.len = k at h hle
      obtain ⟨d, rfl, hsz, hframe⟩ := ih (by omega) h
      refine ⟨k + d, Nat.add_assoc pos k d, hsz, ?_⟩
      have hlen : (slice bb.buf bb.pos k).length = k := slice_length _ _ _
      rw [← hlen]
      refine Framed.store ?_
      rwa [hlen, Nat.add_assoc]
    · obtain ⟨-, h⟩ := Prod.mk.inj (Option.some.inj h)
      obtain ⟨rfl, rfl⟩ := Prod.mk.inj h
      exact ⟨0, rfl, hpos, .refl mem _ 0⟩

theorem pipe_writes (bb : BBuffer) (h : bb.InBounds) (buf sz off : Nat) :
    WritesOnlyResult (.pipe bb h) buf sz off := by
  rintro mem n mem' ⟨⟨bb', hrun⟩, herr⟩
  unfold pipeRead at hrun
  obtain ⟨-, hrun⟩ := Option.ite_none_left_eq_some.mp hrun
  split at hrun
  · cases hrun
    exact ⟨Nat.zero_le sz, .refl mem buf 0⟩
  · obtain ⟨⟨b, mem₁, k⟩, hloop, heq⟩ := Option.map_eq_some_iff.mp hrun
    obtain ⟨d, hd, hsz, hframe⟩ := pipeLoop_framed (Nat.zero_le sz) hloop
    rw [Nat.zero_add] at hd
    cases heq
    split at herr
    · exact absurd rfl herr
    · rename_i hc
      rw [if_neg hc, hd]
      exact ⟨hd ▸ hsz, hframe⟩

end Pipe

section Inode
open ChkFS

theorem can_peekBytes {a n : Nat} {bytes : List UInt8} (h : (peekBytes a n).Can bytes) :
    bytes.length = n := by
  induction n generalizing a bytes with
  | zero =>
    cases h
    rfl
  | succ n ih =>
    unfold peekBytes at h
    obtain ⟨b, -, h⟩ := Prog.can_bind.mp h
    obtain ⟨rest, hrest, h⟩ := Prog.can_bind.mp h
    cases h
    rw [List.length_cons, ih hrest]

/-- What a round copies is no more than is left. -/
theorem round_le (sz off size : Nat) :
    min (if (off + sz) % 2 ^ 64 > off / blocksize * blocksize + blocksize then blocksize - off %
      blocksize else sz) ((size + 2 ^ 64 - off) % 2 ^ 64) ≤ sz := by
  refine Nat.le_trans (Nat.min_le_left _ _) ?_
  split
  · rename_i hnext
    have hwrap := Nat.mod_le (off + sz) (2 ^ 64)
    have hmod := Nat.div_add_mod' off blocksize
    omega
  · exact Nat.le_refl sz

/-- **A disk file**, whatever the blocks hold and whichever of them are there. -/
theorem inodeLoop_framed {ino buf : Nat} : ∀ {fuel sz off nread n off' : Nat} {mem mem' : Mem},
    (inodeLoop ino buf fuel mem sz off nread).Can (mem', n, off') →
    ∃ d ≤ sz, n = nread + d ∧ Framed mem mem' (buf + nread) d := by
  intro fuel
  induction fuel with
  | zero =>
    intro sz off nread n off' mem mem' h
    cases h
    exact ⟨0, Nat.zero_le sz, rfl, .refl mem _ 0⟩
  | succ fuel ih =>
    intro sz off nread n off' mem mem' h
    have hstop : ∀ {r : Mem × Nat × Nat}, r = (mem, nread, off) → r = (mem', n, off') →
        ∃ d ≤ sz, n = nread + d ∧ Framed mem mem' (buf + nread) d := by
      rintro r rfl hr
      cases hr
      exact ⟨0, Nat.zero_le sz, rfl, .refl mem _ 0⟩
    unfold inodeLoop at h
    by_cases hz : sz = 0
    · rw [if_pos hz] at h
      exact hstop rfl h.symm
    · rw [if_neg hz] at h
      obtain ⟨data, -, h⟩ := Prog.can_bind.mp h
      cases data with
      | none => exact hstop rfl h.symm
      | some data =>
        obtain ⟨size, -, h⟩ := Prog.can_bind.mp h
        have hle := round_le sz off size
        dsimp only at h
        generalize (min _ _ : Nat) = k at h hle
        obtain ⟨bytes, hbytes, h⟩ := Prog.can_bind.mp h
        have hlen := can_peekBytes hbytes
        obtain ⟨u, -, h⟩ := Prog.can_bind.mp h
        by_cases hk : k = 0
        · rw [if_pos hk] at h
          exact hstop rfl h.symm
        · rw [if_neg hk] at h
          obtain ⟨d, hd, rfl, hframe⟩ := ih h
          refine ⟨k + d, by omega, Nat.add_assoc nread k d, ?_⟩
          rw [← hlen]
          refine Framed.store ?_
          rwa [hlen, Nat.add_assoc]

theorem inode_writes (ino buf sz off : Nat) : WritesOnlyResult (.inode ino) buf sz off := by
  rintro mem n mem' ⟨off', h⟩
  obtain ⟨d, hd, rfl, hframe⟩ := inodeLoop_framed h
  rw [Nat.zero_add]
  exact ⟨hd, hframe⟩

end Inode

/-! ## The keyboard -/

section Kbc
open Keyboard

/-- The characters, each stored as an `int`. -/
def putChars (mem : Mem) (buf : Nat) : List Nat → Mem
  | [] => mem
  | c :: l => putChars (putLE mem buf 4 c) (buf + 1) l

/-- What the loop stores is what it takes out of the buffer. -/
theorem kbcLoop_eq :
    ∀ (left : Nat) (first : Bool) (k : Kbd) (mem : Mem) (buf : Nat), kbcLoop left first k mem buf =
    (Keyboard.readLoop left first k).map fun r => (r.1, putChars mem buf r.2, r.2.length) := by
  intro left
  induction left with
  | zero => exact fun first k mem buf => rfl
  | succ left ih =>
    intro first k mem buf
    unfold kbcLoop Keyboard.readLoop
    split
    · split
      · split
        · cases first with
          | false => rfl
          | true =>
            rw [if_pos rfl, if_pos rfl]
            cases consume k 1 <;> rfl
        · cases hc : consume k 1 with
          | error e => rfl
          | ok k₁ =>
            change (kbcLoop left false k₁ (putLE mem buf 4 (k.buf k.pos)) (buf + 1)).bind _ =
              ((Keyboard.readLoop left false k₁).bind _).map _
            rw [ih]
            cases Keyboard.readLoop left false k₁ <;> rfl
      · rfl
    · rfl

/-- **`vnode_kbc::read`** with the reader's memory. -/
theorem kbcRead_eq (k : Kbd) (mem : Mem) (buf sz : Nat) :
    kbcRead k mem buf sz = (Keyboard.read k sz).map fun r =>
      (r.1, putChars mem buf r.2, r.2.length) := kbcLoop_eq _ _ _ _ _

/-- The byte after the characters is one of the last of them. -/
theorem putChars_past (mem : Mem) : ∀ (chars : List Nat) (buf : Nat) (c : Nat),
    putChars mem buf (chars ++ [c]) (buf + (chars.length + 1)) = UInt8.ofNat (c / 256) := by
  intro chars
  induction chars generalizing mem with
  | nil =>
    intro buf c
    change putLE mem buf 4 c (buf + 1) = _
    unfold putLE
    rw [if_pos (by omega), Nat.add_sub_cancel_left, Nat.pow_one]
  | cons a chars ih =>
    intro buf c
    have hrest := ih (putLE mem buf 4 a) (buf + 1) c
    rw [List.length_cons, Nat.add_comm chars.length 1, Nat.add_assoc, ← Nat.add_assoc]
    exact (congrArg _ (by omega)).trans hrest

/-- How many characters the loop takes, and when it takes any. -/
theorem readLoop_length : ∀ {left : Nat} {first : Bool} {k k' : Kbd} {chars : List Nat},
    Keyboard.readLoop left first k = .ok (k', chars) → chars.length ≤ left ∧
      (chars ≠ [] ↔ k.eol ≠ 0 ∧ left ≠ 0 ∧ k.buf k.pos ≠ 0x04) := by
  intro left
  induction left with
  | zero =>
    intro first k k' chars h
    cases h
    exact ⟨Nat.le_refl 0, fun hne => absurd rfl hne, fun hc => absurd rfl hc.2.1⟩
  | succ left ih =>
    intro first k k' chars h
    unfold Keyboard.readLoop at h
    split at h
    · rename_i heol
      split at h
      · split at h
        · rename_i hend
          have hnil : chars = [] := by
            cases first with
            | false =>
              cases h
              rfl
            | true =>
              rw [if_pos rfl] at h
              cases hc : consume k 1 with
              | error e =>
                rw [hc] at h
                cases h
              | ok k₁ =>
                rw [hc] at h
                cases h
                rfl
          subst hnil
          exact ⟨Nat.zero_le _, fun hne => absurd rfl hne, fun hc => absurd hend hc.2.2⟩
        · rename_i hend
          cases hc : consume k 1 with
          | error e =>
            rw [hc] at h
            cases h
          | ok k₁ =>
            rw [hc] at h
            change (Keyboard.readLoop left false k₁).bind _ = _ at h
            cases hrest : Keyboard.readLoop left false k₁ with
            | error e =>
              rw [hrest] at h
              cases h
            | ok r =>
              rw [hrest] at h
              obtain ⟨hle, -⟩ := ih hrest
              cases h
              exact ⟨Nat.succ_le_succ hle, fun _ => ⟨heol, Nat.succ_ne_zero left, hend⟩,
                fun _ => List.cons_ne_nil _ _⟩
      · cases h
    · rename_i heol
      cases h
      exact ⟨Nat.zero_le _, fun hne => absurd rfl hne, fun hc => absurd hc.1 heol⟩

/-- A call of `vnode_kbc::read` that returns. -/
theorem kbc_returns {k : Kbd} (h : Returns (.kbc k) mem buf sz off n mem') :
    ∃ k' chars, Keyboard.read k sz = .ok (k', chars) ∧
    n = chars.length ∧ mem' = putChars mem buf chars ∧ chars.length ≤ sz ∧
    (chars ≠ [] ↔ Types (.kbc k) sz) := by
  obtain ⟨k', h⟩ := h
  rw [kbcRead_eq] at h
  cases hrun : Keyboard.read k sz with
  | error e =>
    rw [hrun] at h
    cases h
  | ok r =>
    rw [hrun] at h
    cases h
    obtain ⟨hle, hiff⟩ := readLoop_length hrun
    exact ⟨r.1, r.2, rfl, rfl, rfl, hle, hiff⟩

/-- **The keyboard**: a character that is given spoils the bytes after it. -/
theorem kbc_writes_iff {k : Kbd} (h : ∃ mem n mem', Returns (.kbc k) mem buf sz off n mem') :
    WritesOnlyResult (.kbc k) buf sz off ↔ ¬ Types (.kbc k) sz := by
  obtain ⟨mem₀, n₀, mem₀', hret⟩ := h
  constructor
  · intro hframe htypes
    obtain ⟨k', chars, hrun, rfl, rfl, -, hiff⟩ := kbc_returns hret
    obtain ⟨rest, c, rfl⟩ : ∃ rest c, chars = rest ++ [c] :=
      ⟨_, _, (List.dropLast_concat_getLast (hiff.mpr htypes)).symm⟩
    have hpast := fun mem => putChars_past mem rest buf c
    have hlen : (rest ++ [c]).length = rest.length + 1 := List.length_append
    -- a memory that has something else there
    have hother : Returns (.kbc k) (fun _ => UInt8.ofNat (c / 256) + 1) buf sz off (rest.length + 1)
        (putChars (fun _ => UInt8.ofNat (c / 256) + 1) buf (rest ++ [c])) := by
      refine ⟨k', ?_⟩
      rw [kbcRead_eq, hrun, ← hlen]
      rfl
    have hsame := (hframe _ _ _ hother).2 (buf + (rest.length + 1)) (.inr (Nat.le_refl _))
    rw [hpast] at hsame
    have hone : (UInt8.ofNat (c / 256)) + 0 = UInt8.ofNat (c / 256) + 1 :=
      (UInt8.add_zero _).trans hsame
    exact absurd (UInt8.add_right_inj _ |>.mp hone) (by decide)
  · intro hno mem n mem' h
    obtain ⟨k', chars, -, rfl, rfl, hle, hiff⟩ := kbc_returns h
    obtain rfl : chars = [] := by
      by_contra hne
      exact hno (hiff.mp hne)
    exact ⟨hle, .refl mem buf _⟩

end Kbc

/-- **A read returns at most `sz` and changes only the bytes it returns, exactly unless** it is one
of the keyboard that has a character to give. -/
theorem read_framed_iff {v : Vnode} (h : ∃ mem n mem', Returns v mem buf sz off n mem') :
    WritesOnlyResult v buf sz off ↔ ¬ Types v sz := by
  cases v with
  | kbc k => exact kbc_writes_iff h
  | pipe bb hb => exact iff_of_true (pipe_writes bb hb buf sz off) id
  | memfile f => exact iff_of_true (memfile_writes f buf sz off) id
  | inode ino => exact iff_of_true (inode_writes ino buf sz off) id

/-- Seven bytes are asked of a file of three. -/
theorem read_framed_memfile : WritesOnlyResult (.memfile ⟨fun _ => 97, 3⟩) 0x1000 7 0 := by
  have hret : Returns (.memfile ⟨fun _ => 97, 3⟩) (fun _ => 0) 0x1000 7 0 3
      (memfileRead ⟨fun _ => 97, 3⟩ (fun _ => 0) 0x1000 7 0).1 := ⟨3, rfl⟩
  exact (read_framed_iff ⟨_, _, _, hret⟩).mpr id

/-- The line that has been typed is `a`. -/
def typedLine : Keyboard.Kbd := ⟨fun i => if i = 0 then 97 else 10, 0, 2, 2, .input⟩

/-- One character is asked for, and four bytes are written. -/
theorem read_spoils_memory : ¬ WritesOnlyResult (.kbc typedLine) 0x1000 1 0 := by
  intro h
  have hret : Returns (.kbc typedLine) (fun _ => 255) 0x1000 1 0 1
      (putChars (fun _ => 255) 0x1000 [97]) := ⟨_, rfl⟩
  have hsame := (h _ _ _ hret).2 0x1001 (.inr (Nat.le_refl _))
  exact absurd hsame (by decide)

end Frame
end PugOS.VnodeRead
