import PugOS.ChkFSHold

/-! # File-system calls balance their references

`Takes p before after` is the balance sheet of a program: it is run with the references
`before` and ends with `after`, of its result, whatever else is held.  Every function of the
file system has one.  The steps of a call keep `Holding` with the references its `Pc` stands
for (`Pc.holds`), unless a step of the source forgets one.
-/
namespace PugOS.ChkFS
open Bytes BlockProg Ring
open Journal (blocksize)
open BufCache (ne emptyblock decRef)

variable {α β : Type} {s s' : Cache} {k bn ino : Nat} {base : Base} {held before b : Nat → Nat}

structure Takes (p : Prog α) (before : Nat → Nat) (after : α → Nat → Nat) : Prop where
  triple : ∀ base held, Triple Cache.interp Choice.Ok (Holding base (held + before)) p
    fun a => Holding base (held + after a)

namespace Takes
variable {p : Prog α} {f : α → Prog β} {after mid : α → Nat → Nat} {last : β → Nat → Nat}

theorem pure {a : α} (h : after a = before) : Takes (pure a) before after :=
  ⟨fun _ _ => .pure fun _ hs => h ▸ hs⟩

theorem fail : Takes (Prog.fail : Prog α) before after := ⟨fun _ _ => .fail⟩

/-- The references that the first program leaves are those that the second one starts with. -/
theorem bind (hp : Takes p before mid) (hf : ∀ a, Takes (f a) (mid a) last) :
    Takes (p >>= f) before last :=
  ⟨fun base held => (hp.triple base held).bind fun a => (hf a).triple base held⟩

/-- Other references stay. -/
theorem frame (hp : Takes p before after) (b : Nat → Nat) : Takes p (before + b) fun a =>
    after a + b := by
  refine ⟨fun base held => (hp.triple base (held + b)).mono ?_ ?_⟩
  · intro s hs
    rw [add_right_comm, add_assoc]
    exact hs
  · intro a s hs
    rw [add_right_comm, add_assoc] at hs
    exact hs

/-- A program that starts with nothing goes on with what it has taken. -/
theorem bind_frame (hp : Takes p 0 mid) (hf : ∀ a, Takes (f a) (mid a + b) last) :
    Takes (p >>= f) b last := by
  have h := hp.frame b
  rw [zero_add] at h
  exact h.bind hf

/-- A program that keeps the references may go before any other. -/
theorem keep_bind (hp : Takes p 0 fun _ => 0) (hf : ∀ a, Takes (f a) b last) :
    Takes (p >>= f) b last := by
  refine hp.bind_frame fun a => ?_
  rw [zero_add]
  exact hf a

/-- Each branch is to take what the other one takes. -/
theorem ite {c : Prop} [Decidable c] {q : Prog α} (hp : c → Takes p before after)
    (hq : ¬c → Takes q before after) : Takes (if c then p else q) before after :=
  ⟨fun base held => .ite (fun hc => (hp hc).triple base held) fun hc => (hq hc).triple base held⟩

theorem assert (c : Bool) : Takes (assert c) 0 fun _ => 0 := ⟨fun _ _ => .assert fun _ hs _ => hs⟩

/-- A load takes a reference to its block, if it is granted. -/
theorem getEntry (bn : Nat) : Takes (getEntry bn) 0 refTo :=
  ⟨fun _ _ => .getEntry fun _ _ _ _ hs hc h => Holding.getDiskEntry hs hc h⟩

/-- `put_entry` gives one back. -/
theorem putEntry (bn : Nat) : Takes (putEntry bn) (refTo (some bn)) fun _ => 0 :=
  ⟨fun _ _ => .putEntry fun _ _ hs h => Holding.putEntry hs h⟩

/-- What is put first is not there for the rest. -/
theorem put_bind {f : Unit → Prog β} (hf : Takes (f ()) b last) :
    Takes (BlockProg.putEntry bn >>= f) (refTo (some bn) + b) last := by
  refine ((putEntry bn).frame b).bind fun _ => ?_
  rw [zero_add]
  exact hf

theorem sully (bn : Nat) : Takes (sully bn) 0 fun _ => 0 :=
  ⟨fun _ _ => .sully fun _ _ hs h => hs.congr (Cache.sameRefs_sully h)⟩

theorem peek (a n : Nat) : Takes (peek a n) 0 fun _ => 0 := ⟨fun _ _ => .peek fun _ hs => hs⟩

theorem storeBytes (a : Nat) (bytes : List UInt8) : Takes (storeBytes a bytes) 0 fun _ => 0 :=
  ⟨fun _ _ => .storeBytes fun _ hs => hs.congr ⟨rfl, fun _ => ⟨rfl, rfl, rfl⟩⟩⟩

theorem poke (a n v : Nat) : Takes (poke a n v) 0 fun _ => 0 := storeBytes a _

end Takes

/-! ## Blocks -/

/-- A pointer that is followed takes its block. -/
theorem takes_loadPtr (ptr : Nat) : Takes (loadPtr ptr) 0 refTo := by
  refine .keep_bind (.peek ..) fun bn => ?_
  exact .ite (fun _ => .getEntry bn) fun _ => .pure rfl

/-- The indirect block that is passed through is put. -/
theorem takes_getIndirectBlock (iptr bi : Nat) : Takes (getIndirectBlock iptr bi) 0 refTo := by
  refine .bind (takes_loadPtr iptr) fun ie => ?_
  cases ie with
  | none => exact .pure rfl
  | some ie =>
    refine .keep_bind (.assert _) fun _ => ?_
    refine .bind_frame (takes_loadPtr _) fun de => ?_
    rw [add_comm]
    exact .put_bind (.pure rfl)

/-- So are the pointer blocks on the way to a data block. -/
theorem takes_getDataBlock (ino off : Nat) : Takes (getDataBlock ino off) 0 refTo := by
  refine .keep_bind (.assert _) fun _ => ?_
  refine .ite (fun _ => ?_) fun _ => .ite (fun _ => takes_getIndirectBlock ..)
    fun _ => takes_loadPtr _
  refine .bind (takes_loadPtr _) fun i2e => ?_
  cases i2e with
  | none => exact .pure rfl
  | some i2e =>
    refine .keep_bind (.assert _) fun _ => ?_
    refine .bind_frame (takes_getIndirectBlock ..) fun de => ?_
    rw [add_comm]
    exact .put_bind (.pure rfl)

/-- The search of the bitmap takes nothing. -/
theorem takes_allocateFrom (fbb nblocks : Nat) :
    ∀ fuel bn, Takes (allocateFrom fbb nblocks fuel bn) 0 fun _ => 0 := by
  intro fuel
  induction fuel with
  | zero => exact fun bn => .pure rfl
  | succ fuel ih =>
    intro bn
    refine .ite (fun _ => ?_) fun _ => .pure rfl
    refine .keep_bind (.peek ..) fun byte => ?_
    refine .ite (fun _ => ?_) fun _ => ih (bn + 1)
    exact .keep_bind (.poke ..) fun _ => .pure rfl

/-- The superblock and the bitmap are put. -/
theorem takes_allocateBlock : Takes allocateBlock 0 fun _ => 0 := by
  refine .bind (.getEntry 0) fun sb => ?_
  cases sb with
  | none => exact .fail
  | some sb =>
    refine .keep_bind (.peek ..) fun fbbBn => ?_
    refine .bind_frame (.getEntry fbbBn) fun fbb => ?_
    cases fbb with
    | none => exact .fail
    | some fbb =>
      refine .keep_bind (.sully fbb) fun _ => ?_
      refine .keep_bind (.peek ..) fun nblocks => ?_
      refine .keep_bind (takes_allocateFrom ..) fun bn => ?_
      rw [add_comm]
      refine .put_bind ?_
      rw [← add_zero (refTo (some fbb))]
      exact .put_bind (.pure rfl)

/-! ## The file iterator -/

/-- The references an iterator holds. -/
def FileIter.refs (it : FileIter) : Nat → Nat := refTo it.indirect + refTo it.indirect2

namespace FileIter
variable {it : FileIter}

/-- An iterator that drops its indirect block puts it. -/
theorem takes_clearIndirect (it : FileIter) (bi : Nat) :
    Takes (it.clearIndirect bi) it.refs refs := by
  unfold clearIndirect
  split
  · rename_i e he
    refine .ite (fun _ => ?_) fun _ => .pure rfl
    unfold refs
    rw [he]
    exact .put_bind (.pure (zero_add _))
  · exact .pure rfl

/-- It has the doubly indirect block that it has loaded. -/
theorem takes_loadIndirect2 (it : FileIter) (bi : Nat) :
    Takes (it.loadIndirect2 bi) it.refs refs := by
  refine .ite (fun hc => ?_) fun _ => .pure rfl
  refine .bind_frame (takes_loadPtr _) fun r => .pure ?_
  unfold refs
  rw [hc.2, show refTo none = 0 from rfl, add_zero, add_comm]

/-- It has the indirect block that it has loaded. -/
theorem takes_loadIndirect (it : FileIter) (bi : Nat) :
    Takes (it.loadIndirect bi) it.refs refs := by
  refine .ite (fun hc => ?_) fun _ => .pure rfl
  split
  · exact .fail
  · refine .bind_frame (takes_loadPtr _) fun r => .pure ?_
    unfold refs
    rw [hc.2, show refTo none = 0 from rfl, zero_add]

/-- **`find` leaves the iterator with what it says it has.** -/
theorem takes_find (it : FileIter) (off : Nat) : Takes (it.find off) it.refs refs := by
  refine .bind (takes_clearIndirect it _) fun it => ?_
  refine .bind (takes_loadIndirect2 { it with off := off, dptr := none } _) fun it => ?_
  refine .ite (fun _ => .pure rfl) fun _ => ?_
  refine .bind (takes_loadIndirect it _) fun it => ?_
  refine .ite (fun _ => .pure rfl) fun _ => ?_
  exact .keep_bind (.assert _) fun _ => .pure rfl

/-- A pointer block that could not be had leaves no reference. -/
theorem takes_allocateMetablockEntry :
    Takes allocateMetablockEntry 0 fun r => if r.1 ≥ E_MINERROR then 0 else refTo r.2 := by
  refine .bind takes_allocateBlock fun bn => ?_
  refine .ite (fun hbn => .pure (if_pos hbn)) fun hbn => ?_
  refine .bind (.getEntry bn) fun e => ?_
  cases e with
  | none => exact .pure (ite_self _)
  | some e =>
    refine .keep_bind (.sully e) fun _ => ?_
    refine .keep_bind (.storeBytes ..) fun _ => .pure (if_neg hbn)

/-- The references of an iterator that may have been changed. -/
def refsOf (it : FileIter) : Except Nat FileIter → Nat → Nat
  | .error _ => it.refs
  | .ok it' => it'.refs

/-- A new doubly indirect block is the iterator's. -/
theorem takes_mapIndirect2 (it : FileIter) (bi : Nat) :
    Takes (it.mapIndirect2 bi) it.refs (refsOf it) := by
  refine .ite (fun hc => ?_) fun _ => .pure rfl
  refine .bind_frame takes_allocateMetablockEntry fun r => ?_
  refine .ite (fun hr => ?_) fun hr => ?_
  · rw [if_pos hr, zero_add]
    exact .pure rfl
  · rw [if_neg hr]
    refine .keep_bind (.sully _) fun _ => ?_
    refine .keep_bind (.poke ..) fun _ => .pure ?_
    unfold refsOf refs
    rw [hc.2, show refTo none = 0 from rfl, add_zero, add_comm]

/-- A new indirect block is the iterator's. -/
theorem takes_mapIndirect (it : FileIter) (bi : Nat) :
    Takes (it.mapIndirect bi) it.refs (refsOf it) := by
  refine .ite (fun hc => ?_) fun _ => .pure rfl
  refine .bind_frame takes_allocateMetablockEntry fun r => ?_
  refine .ite (fun hr => ?_) fun hr => ?_
  · rw [if_pos hr, zero_add]
    exact .pure rfl
  · rw [if_neg hr]
    split
    · refine .keep_bind (.sully _) fun _ => ?_
      refine .keep_bind (.poke ..) fun _ => .pure ?_
      unfold refsOf refs
      rw [hc.2, show refTo none = 0 from rfl, zero_add]
    · exact .fail

/-- A pointer is written in a block that the iterator has. -/
theorem takes_mapData (it : FileIter) (bi bn : Nat) : Takes (it.mapData bi bn) it.refs refs := by
  unfold mapData
  split
  · refine .keep_bind (.sully _) fun _ => ?_
    exact .keep_bind (.poke ..) fun _ => .pure rfl
  · exact .fail

/-- **`map` too, whatever it fails at.** -/
theorem takes_map (it : FileIter) (bn : Nat) : Takes (it.map bn) it.refs fun r => r.2.refs := by
  refine .ite (fun _ => .pure rfl) fun _ => ?_
  refine .ite (fun _ => .pure rfl) fun _ => ?_
  refine .bind (takes_mapIndirect2 it _) fun r => ?_
  cases r with
  | error e => exact .pure rfl
  | ok it =>
    refine .bind (takes_mapIndirect it _) fun r => ?_
    cases r with
    | error e => exact .pure rfl
    | ok it => exact .bind (takes_mapData it _ bn) fun _ => .pure rfl

theorem takes_putOpt (r : Option Nat) : Takes (match r with
    | some e => putEntry e
    | none => pure ()) (refTo r) fun _ => 0 := by
  cases r with
  | none => exact .pure rfl
  | some e => exact .putEntry e

/-- The destructor puts both. -/
theorem takes_release (it : FileIter) : Takes it.release it.refs fun _ => 0 := by
  unfold release refs
  cases it.indirect with
  | none =>
    rw [show refTo none = 0 from rfl, zero_add]
    exact takes_putOpt it.indirect2
  | some e => exact .put_bind (takes_putOpt it.indirect2)

theorem takes_blocknum (it : FileIter) : Takes it.blocknum 0 fun _ => 0 := by
  unfold blocknum
  split
  · exact .pure rfl
  · exact .peek ..

/-- The block an iterator has found is taken beside its own. -/
theorem takes_findEntry (it : FileIter) (off : Nat) :
    Takes (it.findEntry off) it.refs fun r => refTo r.2 + r.1.refs := by
  refine .bind (takes_find it off) fun it => ?_
  refine .keep_bind (takes_blocknum it) fun bn => ?_
  refine .ite (fun _ => ?_) fun _ => .pure (zero_add _)
  exact .bind_frame (.getEntry bn) fun e => .pure rfl

end FileIter

/-! ## Inodes and directories -/

/-- The superblock is put when its fields have been read. -/
theorem takes_inodeArea : Takes inodeArea 0 fun _ => 0 := by
  refine .bind (.getEntry 0) fun sb => ?_
  cases sb with
  | none => exact .fail
  | some sb =>
    refine .keep_bind (.peek ..) fun _ => ?_
    refine .keep_bind (.peek ..) fun _ => ?_
    rw [← add_zero (refTo (some sb))]
    exact .put_bind (.pure rfl)

/-- The reference that comes with an inode. -/
def inoRef (ino : Option Nat) : Nat → Nat := refTo (ino.map inoEntry)

/-- An inode is in the block it is an offset into. -/
theorem inoEntry_add (e : Nat) {o : Nat} (h : o < blocksize) :
    inoEntry (e * blocksize + o) = e := by
  unfold inoEntry
  rw [Nat.add_comm, Nat.add_mul_div_right _ _ (by decide), Nat.div_eq_of_lt h, Nat.zero_add]

/-- The offset of an inode is in the block. -/
theorem inode_offset_lt (i : Nat) : i % inodesperblock * inodesize < blocksize := by
  have : i % inodesperblock < inodesperblock := Nat.mod_lt _ (by decide)
  unfold inodesperblock inodesize blocksize at *
  omega

/-- `get_inode` keeps the block of the inode. -/
theorem takes_getInode (inum : Int) : Takes (getInode inum) 0 inoRef := by
  refine .bind takes_inodeArea fun r => ?_
  refine .ite (fun _ => ?_) fun _ => .pure rfl
  refine .bind (.getEntry _) fun e => ?_
  cases e with
  | none => exact .pure rfl
  | some e =>
    refine .pure ?_
    rw [inoRef, Option.map_some, inoEntry_add e (inode_offset_lt _)]

theorem takes_strEq (l : List UInt8) : ∀ a, Takes (strEq a l) 0 fun _ => 0 := by
  induction l with
  | nil => exact fun a => .keep_bind (.peek ..) fun _ => .pure rfl
  | cons c l ih =>
    intro a
    refine .keep_bind (.peek ..) fun v => ?_
    exact .ite (fun _ => ih (a + 1)) fun _ => .pure rfl

/-- The search of a directory block takes nothing. -/
theorem takes_searchBlock (e bsz : Nat) (name : List UInt8) : ∀ fuel o,
    Takes (searchBlock e bsz name fuel o) 0 fun _ => 0 := by
  intro fuel
  induction fuel with
  | zero => exact fun o => .pure rfl
  | succ fuel ih =>
    intro o
    refine .ite (fun _ => ?_) fun _ => .pure rfl
    refine .keep_bind (.peek ..) fun inum => ?_
    refine .ite (fun _ => ?_) fun _ => ih _
    refine .keep_bind (takes_strEq ..) fun same => ?_
    exact .ite (fun _ => .pure rfl) fun _ => ih _

/-- Each block of the directory is put after its search. -/
theorem takes_lookupLoop (dirino : Nat) (name : List UInt8) : ∀ fuel it diroff,
    Takes (lookupLoop dirino name fuel it diroff) it.refs fun r => r.1.refs := by
  intro fuel
  induction fuel with
  | zero => exact fun it _ => .pure rfl
  | succ fuel ih =>
    intro it diroff
    refine .bind (it.takes_findEntry diroff) fun r => ?_
    obtain ⟨it, e⟩ := r
    cases e with
    | none => exact .pure (zero_add _).symm
    | some e =>
      refine .keep_bind (.peek ..) fun size => ?_
      refine .keep_bind (takes_searchBlock ..) fun inum => ?_
      refine .put_bind ?_
      exact .ite (fun _ => .pure rfl) fun _ => ih it _

/-- **`lookup_inode` keeps the block of the inode it has found**, and nothing else. -/
theorem takes_lookupInode (dirino : Nat) (name : List UInt8) :
    Takes (lookupInode dirino name) 0 inoRef := by
  refine .bind (takes_lookupLoop dirino name _ _ _) fun r => ?_
  refine .bind_frame (takes_getInode _) fun ino => ?_
  rw [add_comm]
  refine .bind (r.1.takes_release.frame _) fun _ => ?_
  rw [zero_add]
  exact .pure rfl

/-- The scan of an inode block takes nothing. -/
theorem takes_scanInodes (ninodes : Int) (e : Nat) :
    ∀ fuel inum, Takes (scanInodes ninodes e fuel inum) 0 fun _ => 0 := by
  intro fuel
  induction fuel with
  | zero => exact fun inum => .pure rfl
  | succ fuel ih =>
    intro inum
    refine .ite (fun _ => ?_) fun _ => .pure rfl
    refine .ite (fun _ => ih _) fun _ => ?_
    refine .keep_bind (.peek ..) fun type => ?_
    exact .ite (fun _ => .pure rfl) fun _ => ih _

/-- The entry of an inode block without an empty inode is kept. -/
def keptBlock : Except (Nat × Nat) Nat → Nat → Nat
  | .ok _ => 0
  | .error r => refTo (some r.2)

/-- The block of an inode that is empty stays taken, as in the source. -/
theorem takes_findInBlock (inodeBn : Nat) (ninodes : Int) (inum : Nat) :
    Takes (findInBlock inodeBn ninodes inum) 0 keptBlock := by
  refine .bind (.getEntry _) fun e => ?_
  cases e with
  | none => exact .fail
  | some e =>
    refine .keep_bind (takes_scanInodes ..) fun r => ?_
    cases r with
    | ok inum =>
      refine .keep_bind (.sully e) fun _ => ?_
      rw [← add_zero (refTo (some e))]
      exact .put_bind (.pure rfl)
    | error inum => exact .pure rfl

theorem takes_searchEmpty (e bsz : Nat) : ∀ fuel o, Takes (searchEmpty e bsz fuel o) 0
    fun _ => 0 := by
  intro fuel
  induction fuel with
  | zero => exact fun o => .pure rfl
  | succ fuel ih =>
    intro o
    refine .ite (fun _ => ?_) fun _ => .pure rfl
    refine .keep_bind (.peek ..) fun inum => ?_
    exact .ite (fun _ => .pure rfl) fun _ => ih _

/-- Each block of the directory is put, whether or not it has an empty entry. -/
theorem takes_findEmptyDirentLoop (dirino : Nat) : ∀ fuel it diroff,
    Takes (findEmptyDirentLoop dirino fuel it diroff) it.refs fun r => r.1.refs := by
  intro fuel
  induction fuel with
  | zero => exact fun it _ => .pure rfl
  | succ fuel ih =>
    intro it diroff
    refine .bind (it.takes_findEntry diroff) fun r => ?_
    obtain ⟨it, e⟩ := r
    cases e with
    | none => exact .pure (zero_add _).symm
    | some e =>
      refine .keep_bind (.sully e) fun _ => ?_
      refine .keep_bind (.peek ..) fun size => ?_
      refine .keep_bind (takes_searchEmpty ..) fun d => ?_
      refine .put_bind ?_
      cases d with
      | none => exact ih it _
      | some d => exact .pure rfl

theorem takes_findEmptyDirentry (dirino : Nat) : Takes (findEmptyDirentry dirino) 0 fun _ => 0 := by
  refine .bind (takes_findEmptyDirentLoop dirino _ _ _) fun r => ?_
  exact .bind r.1.takes_release fun _ => .pure rfl

/-- An entry is written in a block that is put before it. -/
theorem takes_linkInode (dir inum : Nat) (path : List UInt8) : Takes (linkInode dir inum path) 0
    fun _ => 0 := by
  refine .keep_bind (.sully _) fun _ => ?_
  refine .bind (takes_findEmptyDirentry dir) fun d => ?_
  cases d with
  | none => exact .fail
  | some d => exact .keep_bind (.storeBytes ..) fun _ => .poke ..

/-- The new inode is filled in, and the iterator released. -/
theorem takes_initInode (ino : Nat) : Takes (initInode ino) 0 fun _ => 0 := by
  refine .keep_bind (.sully _) fun _ => ?_
  refine .keep_bind (.poke ..) fun _ => ?_
  refine .keep_bind (.poke ..) fun _ => ?_
  refine .keep_bind (.poke ..) fun _ => ?_
  refine .bind takes_allocateBlock fun bn => ?_
  exact .bind ((FileIter.mk' ino).takes_map bn) fun r => r.2.takes_release

/-! ## Reading and writing -/

theorem takes_peekBytes (n : Nat) : ∀ a, Takes (peekBytes a n) 0 fun _ => 0 := by
  induction n with
  | zero => exact fun a => .pure rfl
  | succ n ih =>
    intro a
    refine .keep_bind (.peek ..) fun b => ?_
    exact .keep_bind (ih _) fun _ => .pure rfl

/-- Each data block is put when its bytes have been copied. -/
theorem takes_readLoop (ino : Nat) : ∀ fuel sz off, Takes (readLoop ino fuel sz off) 0
    fun _ => 0 := by
  intro fuel
  induction fuel with
  | zero => exact fun sz off => .pure rfl
  | succ fuel ih =>
    intro sz off
    refine .ite (fun _ => .pure rfl) fun _ => ?_
    refine .bind (takes_getDataBlock ..) fun data => ?_
    cases data with
    | none => exact .pure rfl
    | some data =>
      refine .keep_bind (.peek ..) fun size => ?_
      refine .keep_bind (takes_peekBytes ..) fun bytes => ?_
      rw [← add_zero (refTo (some data))]
      refine .put_bind ?_
      refine .ite (fun _ => .pure rfl) fun _ => ?_
      exact .bind (ih _ _) fun r => .pure rfl

/-- In the same way with an iterator. -/
theorem takes_readFileLoop (ino : Nat) : ∀ fuel it sz off,
    Takes (readFileLoop ino fuel it sz off) it.refs fun r => r.1.refs := by
  intro fuel
  induction fuel with
  | zero => exact fun it _ _ => .pure rfl
  | succ fuel ih =>
    intro it sz off
    refine .ite (fun _ => .pure rfl) fun _ => ?_
    refine .bind (it.takes_findEntry off) fun r => ?_
    obtain ⟨it, e⟩ := r
    cases e with
    | none => exact .pure (zero_add _).symm
    | some e =>
      refine .keep_bind (.peek ..) fun size => ?_
      refine .keep_bind (takes_peekBytes ..) fun bytes => ?_
      refine .put_bind ?_
      refine .ite (fun _ => .pure rfl) fun _ => ?_
      exact .bind (ih it _ _) fun r => .pure rfl

/-- **Reading a file keeps nothing.** -/
theorem takes_readFileData (ino sz off : Nat) : Takes (readFileData ino sz off) 0 fun _ => 0 := by
  refine .bind (takes_readFileLoop ino _ _ _ _) fun r => ?_
  exact .bind r.1.takes_release fun _ => .pure rfl

/-- The iterator is moved to a block, which is mapped if need be. -/
theorem takes_extend (blockEnd : Nat) (it : FileIter) :
    Takes (extend blockEnd it) it.refs FileIter.refs := by
  refine .bind (it.takes_find blockEnd) fun it => ?_
  refine .keep_bind takes_allocateBlock fun newB => ?_
  refine .keep_bind (.assert _) fun _ => ?_
  refine .bind (it.takes_map newB) fun r => ?_
  exact .keep_bind (.assert _) fun _ => .pure rfl

theorem takes_growSize (ino off : Nat) : Takes (growSize ino off) 0 fun _ => 0 := by
  refine .keep_bind (.peek ..) fun size => ?_
  exact .ite (fun _ => .poke ..) fun _ => .pure rfl

/-- The data block of a round is put after it. -/
theorem takes_copyRound (ino data : Nat) (buf : List UInt8) (off : Nat) :
    Takes (copyRound ino data buf off) (refTo (some data)) fun _ => 0 := by
  refine .keep_bind (.sully _) fun _ => ?_
  refine .keep_bind (.storeBytes ..) fun _ => ?_
  rw [← add_zero (refTo (some data))]
  exact .put_bind (takes_growSize ..)

theorem takes_truncate (ino : Nat) : Takes (truncate ino) 0 fun _ => 0 :=
  .keep_bind (.sully _) fun _ => .poke ..

/-! ## Calls -/

/-- The references of a call, where it is. -/
def Pc.holds : Pc → Nat → Nat
  | .idle => 0
  | .lookup _ dir => inoRef (some dir)
  | .create _ dir => inoRef (some dir)
  | .findInode _ dir _ _ _ e => inoRef (some dir) + refTo e
  | .createInode _ dir _ => inoRef (some dir)
  | .link _ dir ino _ => inoRef (some dir) + inoRef (some ino)
  | .putNew _ dir ino => inoRef (some dir) + inoRef (some ino)
  | .putDir _ dir ino created => (if created then 0 else inoRef ino) + inoRef (some dir)
  | .install _ ino created => if created then 0 else inoRef (some ino)
  | .giveUp ino created => if created then 0 else inoRef (some ino)
  | .readFile ino _ _ => inoRef (some ino)
  | .putFile ino => inoRef (some ino)
  | .writeGet w => w.it.refs
  | .writeProbe w data => w.it.refs + refTo (some data)
  | .writeMap w data next => w.it.refs + refTo (some data) + refTo next
  | .writeCopy w data => w.it.refs + refTo (some data)
  | .writeEnd w => w.it.refs

/-- The call that creates a file. -/
def Pc.creator : Pc → Option Call
  | .create c _ => some c
  | .findInode c .. => some c
  | .createInode c .. => some c
  | .link c .. => some c
  | .putNew c .. => some c
  | .putDir c _ _ true => some c
  | _ => none

/-- An inode that the call has created and given to `put_inode`. -/
def Pc.created : Pc → Option Nat
  | .putDir _ _ ino true => ino
  | .install _ ino true => some ino
  | .giveUp ino true => some ino
  | _ => none

/-- What the steps keep: the counts, and what is needed to see that an inode that has been
created is not given back twice. -/
structure Balanced (base : Base) (s : State) : Prop where
  holding : Holding base s.pc.holds s.cache
  opens : ∀ c, s.pc.creator = some c → ∃ pid path flags, c = .open pid path flags
  unused : ∀ ino, s.pc.created = some ino → s.cache.mref ino = 0

section Steps
variable {s s' : State} {cs : List Choice}

/-- **A program that takes references leaves them taken**, when no count has wrapped. -/
theorem Takes.exec {p : Prog α} {after : α → Nat → Nat} {a : α} {c c' : Cache}
    (hp : Takes p 0 after) (hs : Holding base held c) (hcs : ∀ c ∈ cs, c.Ok)
    (h : ∃ l, BlockProg.exec Cache.interp p c cs = some (a, c', l)) :
    Holding base (held + after a) c' := by
  obtain ⟨l, h⟩ := h
  have := hp.triple base held
  rw [add_zero] at this
  exact this.result hs hcs h

/-- A program that changes the references of the call. -/
theorem Takes.exec_all {p : Prog α} {after : α → Nat → Nat} {a : α} {c c' : Cache}
    (hp : Takes p held after) (hs : Holding base held c) (hcs : ∀ c ∈ cs, c.Ok)
    (h : ∃ l, BlockProg.exec Cache.interp p c cs = some (a, c', l)) :
    Holding base (after a) c' := by
  obtain ⟨l, h⟩ := h
  have := hp.triple base 0
  rw [zero_add] at this
  have hr := this.result hs hcs h
  rwa [zero_add] at hr

/-- `inode::ref` is no reference of the cache. -/
theorem Holding.refInode {c : Cache} (hs : Holding base held c) (r : Option Nat) :
    Holding base held (c.refInode r) := by
  cases r with
  | none => exact hs
  | some ino => exact hs.congr ⟨rfl, fun _ => ⟨rfl, rfl, rfl⟩⟩

/-- A call that creates nothing. -/
theorem Balanced.plain (h : Holding base s.pc.holds s.cache) (hc : s.pc.creator = none)
    (hu : s.pc.created = none) :
    Balanced base s := by
  refine ⟨h, ?_, ?_⟩
  · intro c hc'
    rw [hc] at hc'
    cases hc'
  · intro ino hi
    rw [hu] at hi
    cases hi

/-- A call on its way to create a file. -/
theorem Balanced.creating {c : Call} (h : Holding base s.pc.holds s.cache)
    (hc : s.pc.creator = some c) (hopen : ∃ pid path flags, c = .open pid path flags)
    (hu : s.pc.created = none) : Balanced base s := by
  refine ⟨h, ?_, ?_⟩
  · intro c' hc'
    rw [hc] at hc'
    cases hc'
    exact hopen
  · intro ino hi
    rw [hu] at hi
    cases hi

/-- The root directory is taken for the lookup. -/
theorem balanced_begin {c : Call} (hs : Balanced base s) (hcs : ∀ c ∈ cs, c.Ok)
    (h : beginLookup s c cs = some s') :
    Balanced base s' := by
  unfold beginLookup at h
  split at h
  · rename_i hpc _
    obtain ⟨r, cache, hr, h⟩ := State.run_some h
    have hh := hs.holding
    rw [hpc] at hh
    have := (takes_getInode 1).exec hh hcs hr
    cases r with
    | none => cases h
    | some dir =>
      obtain rfl := Option.some.inj h
      refine .plain ?_ rfl rfl
      rw [show (Pc.idle.holds + inoRef (some dir)) = inoRef (some dir) from zero_add _] at this
      exact this.refInode (some dir)
  · cases h

/-- The file is, and the directory is still to be put. -/
theorem balanced_lookup (hs : Balanced base s) (hcs : ∀ c ∈ cs, c.Ok)
    (h : finishLookup s cs = some s') :
    Balanced base s' := by
  unfold finishLookup at h
  split at h
  · rename_i c dir hpc
    obtain ⟨r, cache, hr, h⟩ := State.run_some h
    have hh := hs.holding
    rw [hpc] at hh
    have := (takes_lookupInode dir c.name).exec hh hcs hr
    cases r with
    | none =>
      have hcache : Holding base (inoRef (some dir)) cache := this
      by_cases hcr : c.creates
      · rw [if_pos hcr] at h
        obtain rfl := Option.some.inj h
        refine .creating hcache rfl ?_ rfl
        cases c with
        | «open» pid path flags => exact ⟨pid, path, flags, rfl⟩
        | readdiskfile filename sz off => cases hcr
      · rw [if_neg hcr] at h
        obtain rfl := Option.some.inj h
        rw [← zero_add (inoRef (some dir))] at hcache
        exact .plain hcache rfl rfl
    | some ino =>
      obtain rfl := Option.some.inj h
      rw [add_comm] at this
      exact .plain (this.refInode (some ino)) rfl rfl
  · cases h

/-- The superblock is put. -/
theorem balanced_create (hs : Balanced base s) (hcs : ∀ c ∈ cs, c.Ok)
    (h : beginFind s cs = some s') :
    Balanced base s' := by
  unfold beginFind at h
  split at h
  · rename_i c dir hpc
    obtain ⟨r, cache, hr, h⟩ := State.run_some h
    obtain rfl := Option.some.inj h
    have hh := hs.holding
    rw [hpc] at hh
    exact .creating (takes_inodeArea.exec hh hcs hr) rfl (hs.opens c (by rw [hpc]; rfl)) rfl
  · cases h

/-- The search for an empty inode goes on in a second inode block: the reference to the
first one is forgotten. -/
def PassesBlock (s : State) : Label → Prop
  | .findInode _ =>
    ∃ c dir inodeBn ninodes inum e, s.pc = .findInode c dir inodeBn ninodes inum (some e)
  | _ => False

/-- An inode block that is passed over is put, unless an inode of it is beyond the last. -/
theorem balanced_findInode (hs : Balanced base s) (hok : ¬PassesBlock s (.findInode cs))
    (hcs : ∀ c ∈ cs, c.Ok) (h : stepFindInode s cs = some s') : Balanced base s' := by
  unfold stepFindInode at h
  split at h
  · rename_i c dir inodeBn ninodes inum e hpc
    have hopen := hs.opens c (by rw [hpc]; rfl)
    have hh := hs.holding
    rw [hpc] at hh
    cases e with
    | some e => exact absurd ⟨c, dir, inodeBn, ninodes, inum, e, hpc⟩ hok
    | none =>
      have hh : Holding base (inoRef (some dir)) s.cache := hh
      split at h
      · obtain ⟨r, cache, hr, h⟩ := State.run_some h
        have := (takes_findInBlock inodeBn ninodes inum).exec hh hcs hr
        cases r with
        | ok inum =>
          obtain rfl := Option.some.inj h
          exact .creating this rfl hopen rfl
        | error r =>
          obtain rfl := Option.some.inj h
          exact .creating this rfl hopen rfl
      · obtain rfl := Option.some.inj h
        exact .creating hh rfl hopen rfl
  · cases h

/-- The new inode is taken. -/
theorem balanced_createInode {cs' : List Choice} (hs : Balanced base s) (hcs : ∀ c ∈ cs, c.Ok)
    (hcs' : ∀ c ∈ cs', c.Ok) (h : stepCreateInode s cs cs' = some s') : Balanced base s' := by
  unfold stepCreateInode at h
  split at h
  · rename_i c dir inum hpc
    have hopen := hs.opens c (by rw [hpc]; rfl)
    have hh := hs.holding
    rw [hpc] at hh
    obtain ⟨r, cache, hr, h⟩ := State.run_some h
    have := (takes_getInode inum).exec hh hcs hr
    cases r with
    | none => cases h
    | some ino =>
      obtain ⟨_, cache', hr', h⟩ := State.run_some h
      obtain rfl := Option.some.inj h
      have hlast := (takes_initInode ino).exec (this.refInode (some ino)) hcs' hr'
      exact .creating hlast rfl hopen rfl
  · cases h

/-- The directory entry keeps nothing. -/
theorem balanced_link (hs : Balanced base s) (hcs : ∀ c ∈ cs, c.Ok) (h : stepLink s cs = some s') :
    Balanced base s' := by
  unfold stepLink at h
  split at h
  · rename_i c dir ino inum hpc
    have hopen := hs.opens c (by rw [hpc]; rfl)
    have hh := hs.holding
    rw [hpc] at hh
    obtain ⟨r, cache, hr, h⟩ := State.run_some h
    obtain rfl := Option.some.inj h
    exact .creating ((takes_linkInode dir inum c.name).exec hh hcs hr) rfl hopen rfl
  · cases h

/-- `put_inode` on an inode that the call has a reference to. -/
def Pc.owes : Pc → Bool
  | .giveUp _ created => !created
  | _ => true

/-- `put_inode` does not give the reference of the call back, because the count of the inode
says that there are others. -/
def KeepsInode (s : State) : Label → Prop
  | .put => s.pc.owes ∧ ∃ ino pc, s.pc.put = some (ino, pc) ∧ s.cache.mref ino ≠ 1
  | _ => False

/-- An inode's count is not the cache's. -/
theorem Cache.putEntry_mref {c c' : Cache} (h : c.putEntry bn = some c') : c'.mref = c.mref := by
  unfold Cache.putEntry at h
  obtain ⟨k, -, h⟩ := Option.bind_eq_some_iff.mp h
  split at h
  · rw [← Option.some.inj h]
    rfl
  · rw [← Option.some.inj h]

/-- `put_inode` by the only user of an inode. -/
theorem Holding.putInode {c c' : Cache} (hs : Holding base (held + inoRef (some ino)) c)
    (hm : c.mref ino = 1) (h : c.putInode ino = some c') : Holding base held c' ∧
    c'.mref = Function.update c.mref ino 0 := by
  unfold Cache.putInode at h
  dsimp only at h
  rw [hm, show decRef 1 = 0 from rfl, if_pos rfl] at h
  have hs' : Holding base (held + refTo (some (inoEntry ino)))
      { c with mref := Function.update c.mref ino 0 } := hs.congr ⟨rfl, fun _ => ⟨rfl, rfl, rfl⟩⟩
  exact ⟨hs'.putEntry h, Cache.putEntry_mref h⟩

/-- `put_inode` on an inode that nobody uses. -/
theorem Holding.putUnused {c c' : Cache} (hs : Holding base held c) (hm : c.mref ino = 0)
    (h : c.putInode ino = some c') : Holding base held c' := by
  unfold Cache.putInode at h
  dsimp only at h
  rw [hm, if_neg (by decide)] at h
  rw [← Option.some.inj h]
  exact hs.congr ⟨rfl, fun _ => ⟨rfl, rfl, rfl⟩⟩

/-- **An inode that is put loses its block**, unless others still have it. -/
theorem balanced_put (hs : Balanced base s) (hok : ¬KeepsInode s .put) (h : stepPut s = some s') :
    Balanced base s' := by
  unfold stepPut at h
  obtain ⟨⟨ino, pc⟩, hput, h⟩ := Option.bind_eq_some_iff.mp h
  obtain ⟨cache, hcache, h⟩ := Option.bind_eq_some_iff.mp h
  obtain rfl := Option.some.inj h
  have hm : s.pc.owes = true → s.cache.mref ino = 1 := by
    intro ho
    by_contra hm
    exact hok ⟨ho, ino, pc, hput, hm⟩
  have hh := hs.holding
  cases hpc : s.pc with
  | putNew c dir ino' =>
    rw [hpc] at hput hh hm
    cases hput
    obtain ⟨hc, hmref⟩ := hh.putInode (hm rfl) hcache
    refine ⟨?_, ?_, ?_⟩
    · rw [← zero_add (inoRef (some dir))] at hc
      exact hc
    · intro c' hc'
      cases hc'
      exact hs.opens c (by rw [hpc]; rfl)
    · intro i hi
      cases hi
      show cache.mref ino = 0
      rw [hmref, Function.update_self]
  | putDir c dir r created =>
    rw [hpc] at hput hh hm
    cases hput
    have hone := hm rfl
    obtain ⟨hc, hmref⟩ := hh.putInode hone hcache
    cases r with
    | none =>
      have hidle : afterDir c none created = .idle := by cases c <;> rfl
      refine .plain ?_ ?_ ?_ <;> simp only [State.goto, hidle]
      · cases created with
        | false => exact hc
        | true => exact hc
      · rfl
      · rfl
    | some i =>
      cases created with
      | false =>
        cases c with
        | «open» pid path flags => exact .plain hc rfl rfl
        | readdiskfile filename sz off => exact .plain hc rfl rfl
      | true =>
        obtain ⟨pid, path, flags, rfl⟩ := hs.opens c (by rw [hpc]; rfl)
        refine ⟨hc, nofun, ?_⟩
        intro j hj
        cases hj
        have hz := hs.unused i (by rw [hpc]; rfl)
        have hne : i ≠ ino := by
          rintro rfl
          rw [hz] at hone
          cases hone
        show cache.mref i = 0
        rw [hmref, Function.update_of_ne hne]
        exact hz
  | giveUp ino' created =>
    rw [hpc] at hput hh hm
    cases hput
    cases created with
    | false =>
      have hc :=
        (show Holding base (0 + inoRef (some ino)) s.cache by rw [zero_add]; exact hh).putInode
          (hm rfl) hcache
      exact .plain hc.1 rfl rfl
    | true =>
      exact .plain (Holding.putUnused hh (hs.unused ino (by rw [hpc]; rfl)) hcache) rfl rfl
  | putFile ino' =>
    rw [hpc] at hput hh hm
    cases hput
    have hc :=
      (show Holding base (0 + inoRef (some ino)) s.cache by rw [zero_add]; exact hh).putInode
        (hm rfl) hcache
    exact .plain hc.1 rfl rfl
  | _ =>
    rw [hpc] at hput
    cases hput

/-- A descriptor is opened for a file that exists already: the reference that comes with its
inode is never given back. -/
def KeepsFile (s : State) : Label → Prop
  | .install file vnode =>
    file = true ∧ vnode = true ∧
      ∃ pid path flags ino, s.pc = .install (.open pid path flags) ino false ∧
      ∃ fd < NFDS, s.fds pid fd = none
  | _ => False

/-- The descriptor has the inode that `sys_open` has found, unless there is none for it. -/
theorem balanced_install {file vnode : Bool} (hs : Balanced base s)
    (hok : ¬KeepsFile s (.install file vnode)) (h : stepInstall s file vnode = some s') :
    Balanced base s' := by
  unfold stepInstall at h
  split at h
  · rename_i pid path flags ino created hpc
    have hh := hs.holding
    rw [hpc] at hh
    split at h
    · rename_i fd hfd
      cases created with
      | false =>
        refine absurd ⟨rfl, rfl, pid, path, flags, ino, hpc, fd, ?_, ?_⟩ hok
        · exact List.mem_range.mp (List.mem_of_find?_eq_some hfd)
        · exact of_decide_eq_true
            (List.find?_some (p := fun fd => decide (s.fds pid fd = none)) hfd)
      | true =>
        dsimp only at h
        split at h
        · obtain ⟨_, cache, hr, h⟩ := State.run_some h
          obtain rfl := Option.some.inj h
          exact .plain ((takes_truncate ino).exec hh (List.forall_mem_nil _) hr) rfl rfl
        · obtain rfl := Option.some.inj h
          exact .plain hh rfl rfl
    · obtain rfl := Option.some.inj h
      refine ⟨hh, nofun, ?_⟩
      intro i hi
      cases created with
      | false => cases hi
      | true =>
        cases hi
        exact hs.unused ino (by rw [hpc]; rfl)
    · cases h
  · cases h

/-- A read takes nothing. -/
theorem balanced_readFile (hs : Balanced base s) (hcs : ∀ c ∈ cs, c.Ok)
    (h : stepReadFile s cs = some s') :
    Balanced base s' := by
  unfold stepReadFile at h
  split at h
  · rename_i ino sz off hpc
    have hh := hs.holding
    rw [hpc] at hh
    obtain ⟨_, cache, hr, h⟩ := State.run_some h
    obtain rfl := Option.some.inj h
    exact .plain ((takes_readFileData ino sz off).exec hh hcs hr) rfl rfl
  · cases h

/-- Nor does one of a descriptor. -/
theorem balanced_read {pid fd sz : Nat} (hs : Balanced base s) (hcs : ∀ c ∈ cs, c.Ok)
    (h : sysRead s pid fd sz cs = some s') : Balanced base s' := by
  unfold sysRead at h
  split at h
  · rename_i d hpc _
    split at h
    · have hh := hs.holding
      rw [hpc] at hh
      obtain ⟨_, cache, hr, h⟩ := State.run_some h
      obtain rfl := Option.some.inj h
      exact .plain ((takes_readLoop d.ino sz sz d.off).exec hh hcs hr) rfl rfl
    · cases h
  · cases h

/-- A write begins with an iterator that has nothing. -/
theorem balanced_write {pid fd : Nat} {buf : List UInt8} (hs : Balanced base s)
    (h : sysWrite s pid fd buf = some s') : Balanced base s' := by
  unfold sysWrite at h
  split at h
  · rename_i d hpc _
    split at h
    · have hh := hs.holding
      rw [hpc] at hh
      obtain ⟨_, cache, hr, h⟩ := State.run_some h
      obtain rfl := Option.some.inj h
      exact .plain ((Takes.sully (inoEntry d.ino)).exec hh (List.forall_mem_nil _) hr) rfl rfl
    · cases h
  · cases h

/-- It takes the block that it writes to. -/
theorem balanced_writeGet (hs : Balanced base s) (hcs : ∀ c ∈ cs, c.Ok)
    (h : stepWriteGet s cs = some s') :
    Balanced base s' := by
  unfold stepWriteGet at h
  split at h
  · rename_i w hpc
    obtain ⟨-, h⟩ := BufCache.of_guard h
    have hh := hs.holding
    rw [hpc] at hh
    split at h
    · obtain rfl := Option.some.inj h
      exact .plain hh rfl rfl
    · obtain ⟨r, cache, hr, h⟩ := State.run_some h
      have := (takes_getDataBlock w.ino (w.off / blocksize * blocksize)).exec hh hcs hr
      cases r with
      | none =>
        obtain rfl := Option.some.inj h
        exact .plain this rfl rfl
      | some data =>
        obtain rfl := Option.some.inj h
        exact .plain this rfl rfl
  · cases h

/-- It takes the next one, if it is there. -/
theorem balanced_writeProbe (hs : Balanced base s) (hcs : ∀ c ∈ cs, c.Ok)
    (h : stepWriteProbe s cs = some s') :
    Balanced base s' := by
  unfold stepWriteProbe at h
  split at h
  · rename_i w data hpc
    obtain ⟨-, h⟩ := BufCache.of_guard h
    have hh := hs.holding
    rw [hpc] at hh
    split at h
    · obtain ⟨next, cache, hr, h⟩ := State.run_some h
      obtain rfl := Option.some.inj h
      exact .plain ((takes_getDataBlock w.ino (blockEnd w.off)).exec hh hcs hr) rfl rfl
    · obtain rfl := Option.some.inj h
      exact .plain hh rfl rfl
  · cases h

/-- The block after the one that is written is there already: the reference that
`get_data_block` took to see that is forgotten. -/
def KeepsNext (s : State) : Label → Prop
  | .writeMap _ => ∃ w data next, s.pc = .writeMap w data (some next)
  | _ => False

/-- The iterator takes what it maps with. -/
theorem balanced_writeMap (hs : Balanced base s) (hok : ¬KeepsNext s (.writeMap cs))
    (hcs : ∀ c ∈ cs, c.Ok) (h : stepWriteMap s cs = some s') : Balanced base s' := by
  unfold stepWriteMap at h
  split at h
  · rename_i w data next hpc
    exact absurd ⟨w, data, next, hpc⟩ hok
  · rename_i w data hpc
    obtain ⟨-, h⟩ := BufCache.of_guard h
    have hh := hs.holding
    rw [hpc] at hh
    have hh : Holding base (w.it.refs + refTo (some data)) s.cache := hh
    obtain ⟨it, cache, hr, h⟩ := State.run_some h
    obtain rfl := Option.some.inj h
    exact .plain (((takes_extend (blockEnd w.off) w.it).frame (refTo (some data))).exec_all hh hcs
      hr) rfl rfl
  · cases h

/-- The block is put after the copy. -/
theorem balanced_writeCopy (hs : Balanced base s) (h : stepWriteCopy s = some s') :
    Balanced base s' := by
  unfold stepWriteCopy at h
  split at h
  · rename_i w data hpc
    obtain ⟨-, h⟩ := BufCache.of_guard h
    have hh := hs.holding
    rw [hpc] at hh
    have hh : Holding base (refTo (some data) + w.it.refs) s.cache := by
      rw [add_comm]
      exact hh
    obtain ⟨_, cache, hr, h⟩ := State.run_some h
    obtain rfl := Option.some.inj h
    have :=
      ((takes_copyRound w.ino data w.buf w.off).frame w.it.refs).exec_all hh
        (List.forall_mem_nil _) hr
    rw [zero_add] at this
    exact .plain this rfl rfl
  · cases h

/-- The iterator is released. -/
theorem balanced_writeEnd (hs : Balanced base s) (h : stepWriteEnd s = some s') :
    Balanced base s' := by
  unfold stepWriteEnd at h
  split at h
  · rename_i w hpc
    have hh := hs.holding
    rw [hpc] at hh
    obtain ⟨_, cache, hr, h⟩ := State.run_some h
    obtain rfl := Option.some.inj h
    exact .plain (w.it.takes_release.exec_all hh (List.forall_mem_nil _) hr) rfl rfl
  · cases h

theorem balanced_lseek {pid fd : Nat} {off : Int} {origin : Origin} (hs : Balanced base s)
    (h : sysLseek s pid fd off origin = some s') : Balanced base s' := by
  unfold sysLseek at h
  split at h
  · obtain ⟨-, h⟩ := BufCache.of_guard h
    obtain rfl := Option.some.inj h
    exact ⟨hs.holding, hs.opens, hs.unused⟩
  · cases h

/-- A descriptor that is closed keeps its inode. -/
theorem balanced_close {pid fd : Nat} (hs : Balanced base s) (h : sysClose s pid fd = some s') :
    Balanced base s' := by
  unfold sysClose at h
  split at h
  · obtain rfl := Option.some.inj h
    exact ⟨hs.holding, hs.opens, hs.unused⟩
  · cases h

/-- No count wraps in `sync`. -/
theorem Cache.sync_wraps (c : Cache) (drop : Bool) : (c.sync drop).wraps = c.wraps := by
  have hf := (Cache.sameRefs_flush c).wraps
  unfold Cache.sync
  split
  · exact hf
  · exact hf

/-- `sync` puts what it takes. -/
theorem Holding.sync {c : Cache} (hs : Holding base 0 c) (drop : Bool) :
    Holding base 0 (c.sync drop) := by
  have hwraps := c.sync_wraps drop
  refine ⟨hs.wf.sync drop, ⟨rfl, rfl⟩, hs.since.trans hwraps.ge,
    fun _ _ h => absurd h (Nat.lt_irrefl 0), ?_⟩
  intro hw k hk
  have hf := ((Cache.sameRefs_flush c).entry k).2.1
  have hc := hs.count (hwraps.symm.trans hw) k hk
  unfold Cache.sync
  split
  · have he : (c.flush.dropUnused.e k).ref = (c.flush.e k).ref := by
      unfold Cache.dropUnused
      dsimp only
      split <;> rfl
    rw [he, hf]
    exact hc
  · rw [hf]
    exact hc

theorem balanced_sync {drop : Bool} (hs : Balanced base s) (h : sysSync s drop = some s') :
    Balanced base s' := by
  unfold sysSync at h
  split at h
  · rename_i hpc
    have hh := hs.holding
    rw [hpc] at hh
    obtain rfl := Option.some.inj h
    refine ⟨?_, hs.opens, ?_⟩
    · show Holding base s.pc.holds (s.cache.sync drop)
      rw [hpc]
      exact hh.sync drop
    · intro ino hi
      rw [show s.pc.created = none by rw [hpc]; rfl] at hi
      cases hi
  · cases h

/-! ## Runs -/

/-- The choices a step is given. -/
def Label.choices : Label → List Choice
  | .begin _ cs => cs
  | .lookup cs => cs
  | .create cs => cs
  | .findInode cs => cs
  | .createInode cs cs' => cs ++ cs'
  | .link cs => cs
  | .readFile cs => cs
  | .read _ _ _ cs => cs
  | .writeGet cs => cs
  | .writeProbe cs => cs
  | .writeMap cs => cs
  | _ => []

/-- In the step a reference is taken to an entry whose count has no room for it: `++ref_`
comes to 0. -/
def WrapsRef (s : State) (l : Label) : Prop :=
  ∃ s', step s l = some s' ∧ s'.cache.wraps ≠ s.cache.wraps

/-- A step that forgets no reference, and in which no count wraps. -/
structure Tidy (s : State) (l : Label) : Prop where
  choices : ∀ c ∈ l.choices, c.Ok
  passesBlock : ¬PassesBlock s l
  keepsInode : ¬KeepsInode s l
  keepsFile : ¬KeepsFile s l
  keepsNext : ¬KeepsNext s l
  wrapsRef : ¬WrapsRef s l

/-- **A tidy step leaves the references accounted for.** -/
theorem step_balanced {l : Label} (hs : Balanced base s) (hl : Tidy s l) (h : step s l = some s') :
    Balanced base s' := by
  have hcs := hl.choices
  cases l with
  | begin c cs => exact balanced_begin hs hcs h
  | lookup cs => exact balanced_lookup hs hcs h
  | create cs => exact balanced_create hs hcs h
  | findInode cs => exact balanced_findInode hs hl.passesBlock hcs h
  | createInode cs cs' =>
    obtain ⟨hcs, hcs'⟩ := List.forall_mem_append.mp hcs
    exact balanced_createInode hs hcs hcs' h
  | link cs => exact balanced_link hs hcs h
  | put => exact balanced_put hs hl.keepsInode h
  | install file vnode => exact balanced_install hs hl.keepsFile h
  | readFile cs => exact balanced_readFile hs hcs h
  | read pid fd sz cs => exact balanced_read hs hcs h
  | write pid fd buf => exact balanced_write hs h
  | writeGet cs => exact balanced_writeGet hs hcs h
  | writeProbe cs => exact balanced_writeProbe hs hcs h
  | writeMap cs => exact balanced_writeMap hs hl.keepsNext hcs h
  | writeCopy => exact balanced_writeCopy hs h
  | writeEnd => exact balanced_writeEnd hs h
  | lseek pid fd off origin => exact balanced_lseek hs h
  | close pid fd => exact balanced_close hs h
  | sync drop => exact balanced_sync hs h

/-- Every step, tidy or not, leaves the slots in order. -/
theorem step_wf {l : Label} (hs : s.cache.WF) (h : step s l = some s') : s'.cache.WF := by
  have hkept : Stable Cache.WF :=
    { program := fun _ _ _ _ hc h => hc.exec h
      refInode := fun _ r hc => hc.refInode r
      putInode := fun _ _ _ hc h => hc.putInode h
      sync := fun _ drop hc => hc.sync drop }
  exact hkept.step hs h

/-- At the boot the superblock alone is loaded. -/
theorem boot_wf (disk : Mem) : (Cache.boot disk).WF := by
  have he : ∀ k, k ≠ 0 → (Cache.boot disk).e k = ⟨emptyblock, 0, false, false⟩ :=
    fun k hk => by simp [Cache.boot, hk]
  refine ⟨?_, rfl, rfl, Nat.one_pos⟩
  intro i j _ _ heq hne
  have hz : ∀ k, ((Cache.boot disk).e k).bn ≠ emptyblock → k = 0 := by
    intro k hk
    by_contra hk0
    rw [he k hk0] at hk
    exact hk rfl
  rw [hz i hne, hz j fun hc => hne (heq.trans hc)]

/-- In a run of tidy steps no count wraps. -/
theorem reach_wraps {s₀ : State} (h : (machineFrom s₀).ReachWhen Tidy s) :
    s.cache.wraps = s₀.cache.wraps := by
  refine h.invariant (fun s => s.cache.wraps = s₀.cache.wraps) ?_ fun s l s' hs hl hstep => ?_
  · rintro s rfl
    rfl
  · by_contra hne
    exact hl.wrapsRef ⟨s', hstep, fun he => hne (he.trans hs)⟩

/-- The slots are in order in every state. -/
theorem reach_wf (h : machine.Reach s) : s.cache.WF := by
  refine h.invariant (fun s => s.cache.WF) ?_ fun s l s' => step_wf
  rintro s ⟨disk, rfl⟩
  exact boot_wf disk

/-- **References balance.**  When calls that forget none, and in which no count wraps, have
been made from a reachable state, and the last one has returned, every entry has the
references it had. -/
theorem refs_balance {s₀ s : State} (h₀ : machine.Reach s₀) (hidle₀ : s₀.pc = .idle)
    (h : (machineFrom s₀).ReachWhen Tidy s) (hidle : s.pc = .idle) {k : Nat} (hk : k < ne) :
    (s.cache.e k).ref = (s₀.cache.e k).ref := by
  have hwf := reach_wf h₀
  have hinv : Balanced ⟨fun k => (s₀.cache.e k).ref, s₀.cache.wraps⟩ s := by
    refine h.invariant (Balanced ⟨fun k => (s₀.cache.e k).ref, s₀.cache.wraps⟩) ?_
      fun s l s' => step_balanced
    rintro s rfl
    refine .plain ?_ (by rw [hidle₀]; rfl) (by rw [hidle₀]; rfl)
    rw [hidle₀]
    exact ⟨hwf, ⟨rfl, rfl⟩, Nat.le_refl _, fun _ _ h => absurd h (Nat.lt_irrefl 0),
      fun _ _ _ => rfl⟩
  have hc := hinv.holding.count (reach_wraps h) k hk
  rw [hidle] at hc
  exact hc

/-- A file system with one file, `a`, without data: its inode has number 2. -/
def oneFile : Mem :=
  image [(ninodesAddr, 4, 8), (inodeBnAddr, 4, 2), (8256, 4, 2), (8260, 4, 128), (8276, 4, 3),
  (8320, 4, 1), (12288, 4, 2), (12292, 1, 97)]

/-- A block that is read into slot `k`. -/
def intoSlot (k : Nat) : Choice := ⟨false, some k, .ok, []⟩

theorem intoSlot_ok (k : Nat) : (intoSlot k).Ok := ⟨nofun, List.forall_mem_nil _⟩

/-- A step that leaves the number of wraps wraps no count. -/
theorem not_wrapsRef {l : Label} (h : step s l = some s') (hw : s'.cache.wraps = s.cache.wraps) :
    ¬WrapsRef s l := by
  rintro ⟨t, ht, hne⟩
  obtain rfl := Option.some.inj (h.symm.trans ht)
  exact hne hw

/-- `a` is read without being opened. -/
theorem refs_balance_read : ∃ s, (machineFrom (boot oneFile)).ReachWhen Tidy s ∧ s.pc = .idle ∧
    (s.cache.e 1).bn = 2 ∧ (s.cache.e 1).ref = ((boot oneFile).cache.e 1).ref := by
  have hrun : ∃ s₁, step (boot oneFile) (.begin (.readdiskfile [97] 1 0) [intoSlot 0, intoSlot 1]) =
      some s₁ ∧ s₁.cache.wraps = 0 ∧ ∃ s₂, step s₁ (.lookup [intoSlot 2, intoSlot 0, intoSlot 1]) =
      some s₂ ∧ s₂.cache.wraps = 0 ∧ s₂.pc.put = some (8256, .readFile 8320 1 0) ∧
      s₂.cache.mref 8256 = 1 ∧ ∃ s₃, step s₂ .put = some s₃ ∧ s₃.cache.wraps = 0 ∧
      ∃ s₄, step s₃ (.readFile []) = some s₄ ∧ s₄.cache.wraps = 0 ∧
      s₄.pc.put = some (8320, .idle) ∧ s₄.cache.mref 8320 = 1 ∧
      ∃ s₅, step s₄ .put = some s₅ ∧ s₅.cache.wraps = 0 ∧ s₅.pc = .idle ∧ (s₅.cache.e 1).bn = 2 :=
    ⟨_, rfl, rfl, _, rfl, rfl, rfl, Nat.eq_of_beq_eq_true rfl, _, rfl, rfl, _, rfl, rfl, rfl,
      Nat.eq_of_beq_eq_true rfl, _, rfl, rfl, rfl, rfl⟩
  obtain ⟨s₁, h₁, hw₁, s₂, h₂, hw₂, hdir, hm, s₃, h₃, hw₃, s₄, h₄, hw₄, hfile, hm', s₅, h₅, hw₅,
    hidle, hbn⟩ := hrun
  have hbegin : Tidy (boot oneFile) (.begin (.readdiskfile [97] 1 0) [intoSlot 0, intoSlot 1]) := by
    refine ⟨?_, id, id, id, id, not_wrapsRef h₁ hw₁⟩
    exact List.forall_mem_cons.mpr ⟨intoSlot_ok 0, List.forall_mem_singleton.mpr (intoSlot_ok 1)⟩
  have hlookup : Tidy s₁ (.lookup [intoSlot 2, intoSlot 0, intoSlot 1]) := by
    refine ⟨?_, id, id, id, id, not_wrapsRef h₂ (hw₂.trans hw₁.symm)⟩
    refine List.forall_mem_cons.mpr ⟨intoSlot_ok 2, ?_⟩
    exact List.forall_mem_cons.mpr ⟨intoSlot_ok 0, List.forall_mem_singleton.mpr (intoSlot_ok 1)⟩
  have hread : Tidy s₃ (.readFile []) :=
    ⟨List.forall_mem_nil _, id, id, id, id, not_wrapsRef h₄ (hw₄.trans hw₃.symm)⟩
  have hput : ∀ {s s' : State} {ino : Nat} {pc : Pc}, s.pc.put = some (ino, pc) →
      s.cache.mref ino = 1 → step s .put = some s' → s'.cache.wraps = s.cache.wraps →
      Tidy s .put := by
    intro s s' ino pc hput hm hstep hw
    refine ⟨List.forall_mem_nil _, id, ?_, id, id, not_wrapsRef hstep hw⟩
    rintro ⟨-, ino', pc', hput', hne⟩
    rw [hput] at hput'
    cases hput'
    exact hne hm
  have hputDir := hput hdir hm h₃ (hw₃.trans hw₂.symm)
  have hputFile := hput hfile hm' h₅ (hw₅.trans hw₄.symm)
  have hreach : (machineFrom (boot oneFile)).ReachWhen Tidy s₅ :=
    .step (.step (.step (.step (.step (.init rfl) hbegin h₁) hlookup h₂) hputDir h₃) hread h₄)
      hputFile h₅
  exact ⟨s₅, hreach, hidle, hbn, refs_balance (.init ⟨oneFile, rfl⟩) rfl hreach hidle (by decide)⟩

/-- A descriptor that is opened and closed is as before. -/
theorem setFd_close {pid fd : Nat} {d : Option Descriptor} (h : s.fds pid fd = none) :
    ((s.setFd pid fd d).setFd pid fd none).fds = s.fds := by
  unfold State.setFd
  simp only [Function.update_self, Function.update_idem]
  rw [← h, Function.update_eq_self, Function.update_eq_self]

/-- `a` is opened and closed, and the block of its inode keeps a reference. -/
theorem open_close_pins : ∃ s, (machineFrom (boot oneFile)).Reach s ∧ s.pc = .idle ∧
    (∀ pid fd, s.fds pid fd = none) ∧ (s.cache.e 1).ref ≠ ((boot oneFile).cache.e 1).ref := by
  have hrun : ∃ s, (machineFrom (boot oneFile)).run (boot oneFile)
        [.begin (.open 1 [97] ⟨true, false, false, false⟩) [intoSlot 0, intoSlot 1],
          .lookup [intoSlot 2, intoSlot 0, intoSlot 1], .put, .install true true, .close 1 0] =
          some s ∧
      s.pc = .idle ∧ (s.cache.e 1).ref = 1 ∧
      ∃ d, s.fds = (((boot oneFile).setFd 1 0 d).setFd 1 0 none).fds :=
    ⟨_, rfl, rfl, rfl, _, rfl⟩
  obtain ⟨s, hs, hpc, hr, d, hfds⟩ := hrun
  refine ⟨s, Transition.Machine.Reach.run (Transition.Machine.Reach.init rfl) hs, hpc, ?_, ?_⟩
  · intro pid fd
    rw [hfds, setFd_close rfl]
    rfl
  · rw [hr]
    exact Nat.one_ne_zero

end Steps

end PugOS.ChkFS
