import PugOS.Bytes

/-! # Journal replay

`journalreplayer` finds the metablocks of a journal of `nb` blocks in memory,
sorts them by sequence number, checks that the transactions in the committable
region are whole, marks every reference that a later committed one overwrites,
and writes the rest back.  The analysis works in place: it sets `jf_error` in
the `flags` of a metablock it rejects and `jbf_overwritten` in the `bflags` of a
reference, and the replay restores the magic number of an escaped block, so
every step here takes and returns the memory.

The host is little-endian (`from_le` and `to_le` are the identity).  Memory is
total: a rejected metablock with more than `ref_size` references is read past
its block, as the source does.  `message` and `error` do nothing in
`journalreplayer` and are left out.
-/
namespace PugOS.Journal
open Bytes Ring

/-! ## The checksum -/

/-- One step of the division by the reflected Castagnoli polynomial. -/
def crcShift (c : Nat) : Nat :=
  if c % 2 = 1 then (c >>> 1) ^^^ 0x82F63B78 else c >>> 1

/-- A byte is divided. -/
def crcShift8 (c : Nat) : Nat :=
  crcShift (crcShift (crcShift (crcShift (crcShift (crcShift (crcShift (crcShift c)))))))

/-- `crc32c_lookup[k][i]`: the remainder of the byte `i` followed by `k` zero bytes. -/
def crc32cLookup : Nat → Nat → Nat
  | 0, i => crcShift8 i
  | k + 1, i => crcShift8 (crc32cLookup k i)

/-- One four-byte slice. -/
def crc32cSlice (crc0 : Nat) (a b c d : UInt8) : Nat :=
  let crc1 := crc0 ^^^ (a.toNat + 256 * b.toNat + 65536 * c.toNat + 16777216 * d.toNat)
  crc32cLookup 0 ((crc1 >>> 24) &&& 0xFF) ^^^ crc32cLookup 1 ((crc1 >>> 16) &&& 0xFF)
    ^^^ crc32cLookup 2 ((crc1 >>> 8) &&& 0xFF) ^^^ crc32cLookup 3 (crc1 &&& 0xFF)

/-- One of the final bytes. -/
def crc32cByte (crc0 : Nat) (a : UInt8) : Nat :=
  (crc0 >>> 8) ^^^ crc32cLookup 0 ((crc0 &&& 0xFF) ^^^ a.toNat)

/-- Four bytes at a time, and then byte by byte. -/
def crc32cLoop : Nat → List UInt8 → Nat
  | crc0, a :: b :: c :: d :: rest => crc32cLoop (crc32cSlice crc0 a b c d) rest
  | crc0, rest => rest.foldl crc32cByte crc0

/-- `crc32c(buf, len)`, for a buffer whose address is a multiple of four. -/
def crc32c (buf : List UInt8) : Nat := crc32cLoop 0xFFFFFFFF buf ^^^ 0xFFFFFFFF

/-! ## The journal's layout -/

/-- `chkfs::blocksize`, `chkfs::journalmagic` and `chkfs::nochecksum`. -/
def blocksize : Nat := 4096
def journalmagic : Nat := 0xFBBFBB009EEBCEED
def nochecksum : Nat := 0x82600A5F

/-- `ref_size`: `(nindirect - 7) / 3` with 1024 block numbers in an indirect block. -/
def refSize : Nat := 339

/-- The flags of a metablock and of a reference. -/
def jfMeta : Nat := 0x01
def jfError : Nat := 0x02
def jfCorrupt : Nat := 0x04
def jfStart : Nat := 0x10
def jfCommit : Nat := 0x20
def jfComplete : Nat := 0x40
def jbfEscaped : Nat := 0x100
def jbfNonjournaled : Nat := 0x200
def jbfOverwritten : Nat := 0x400

/-- `flags & mask`, as a condition. -/
def has (flags mask : Nat) : Bool := flags &&& mask ≠ 0

section Layout
variable (m : Mem) (bi r : Nat)

/-- The fields of the `jmetablock` in block `bi`. -/
def magic : Nat := getLE m (bi * blocksize) 8
def checksum : Nat := getLE m (bi * blocksize + 8) 4
def seq : Nat := getLE m (bi * blocksize + 16) 2
def tid : Nat := getLE m (bi * blocksize + 18) 2
def commitBoundary : Nat := getLE m (bi * blocksize + 20) 2
def completeBoundary : Nat := getLE m (bi * blocksize + 22) 2
def flags : Nat := getLE m (bi * blocksize + 24) 2
def nref : Nat := getLE m (bi * blocksize + 26) 2

/-- The address of `ref[r]`. -/
def refAddr : Nat := bi * blocksize + 28 + 12 * r

/-- The fields of the `jblockref` at `ref[r]`. -/
def bn : Nat := getLE m (refAddr bi r) 4
def bchecksum : Nat := getLE m (refAddr bi r + 4) 4
def bflags : Nat := getLE m (refAddr bi r + 8) 2

/-- The data of block `bi`. -/
def block : List UInt8 := slice m (bi * blocksize) blocksize

/-- `is_potential_metablock`. -/
def isPotentialMetablock : Bool :=
  magic m bi = journalmagic ∧
    (checksum m bi = nochecksum ∨
      checksum m bi = crc32c (slice m (bi * blocksize + 16) (blocksize - 16)))

/-- `jmb->flags |= jf_error`. -/
def markError : Mem := putLE m (bi * blocksize + 24) 2 (flags m bi ||| jfError)

/-- `jmb->flags |= jf_error` when a check has failed. -/
def markErrorIf (failed : Bool) : Mem := if failed then markError m bi else m

/-- `ref[r].bflags |= jbf_overwritten`. -/
def markOverwritten : Mem := putLE m (refAddr bi r + 8) 2 (bflags m bi r ||| jbfOverwritten)

end Layout

/-- `tiddiff_t(x - y)` as the residue it is converted from: at least `2 ^ 15` when
negative. -/
def tidDiff (x y : Nat) : Nat := (x + 2 ^ 16 - y) % 2 ^ 16

/-- `tiddiff_t(x - y) < 0`, `>= 0` and `> 0`. -/
def tidLt (x y : Nat) : Bool := 2 ^ 15 ≤ tidDiff x y
def tidGe (x y : Nat) : Bool := tidDiff x y < 2 ^ 15
def tidGt (x y : Nat) : Bool := 0 < tidDiff x y ∧ tidDiff x y < 2 ^ 15

/-! ## Analysis -/

/-- `journalreplayer`: the journal, its length, the accepted metablocks in order
(`mr_`, of which `b` is the block `bi`), and whether the journal is sound so far. -/
structure Replayer where
  jd : Mem
  nb : Nat
  mr : List Nat
  ok : Bool

/-- The data block `dbi` of a reference is rejected: it looks like a metablock, or its
checksum is wrong. -/
def badData (m : Mem) (bi refi dbi : Nat) : Bool :=
  isPotentialMetablock m dbi ||
    (bchecksum m bi refi != nochecksum && bchecksum m bi refi != crc32c (block m dbi))

/-- `analyze_block_reference`, with the `delta` it returns. -/
def analyzeBlockReference (bi : Nat) (x : Replayer × Nat) (refi : Nat) : Replayer × Nat :=
  let (s, delta) := x
  if has (bflags s.jd bi refi) jbfNonjournaled then (s, delta)
  else
    let dbi := (bi + delta) % 2 ^ 32 % s.nb
    ({ s with
        jd := markErrorIf s.jd bi (badData s.jd bi refi dbi)
        ok := s.ok && decide (delta < s.nb) }, delta + 1)

/-- The checks of the flags and of the number of references. -/
def checkFlags (m : Mem) (bi : Nat) : Mem :=
  let m := markErrorIf m bi (has (flags m bi) (jfError ||| jfCorrupt))
  let m := markErrorIf m bi (!has (flags m bi) jfMeta)
  markErrorIf m bi (nref m bi > refSize)

/-- Insert a metablock into the list, after every one whose sequence number is not
larger. -/
def insertMeta (m : Mem) (bi : Nat) : List Nat → List Nat
  | [] => [bi]
  | x :: mr => if seq m x ≤ seq m bi then x :: insertMeta m bi mr else bi :: x :: mr

/-- `analyze_block`. -/
def analyzeBlock (s : Replayer) (bi : Nat) : Replayer :=
  if isPotentialMetablock s.jd bi then
    let s := { s with jd := checkFlags s.jd bi }
    let s := ((List.range (nref s.jd bi)).foldl (analyzeBlockReference bi) (s, 1)).1
    if has (flags s.jd bi) jfError then s
    else { s with mr := insertMeta s.jd bi s.mr }
  else s

/-- The checks `analyze` makes of two neighbours in the list. -/
def checkPair (m : Mem) (last cur : Nat) : Bool :=
  seq m cur ≠ seq m last &&
  !tidLt (commitBoundary m cur) (commitBoundary m last) &&
  !tidLt (completeBoundary m cur) (completeBoundary m last) &&
  !(nref m cur ≠ 0 && tidLt (tid m cur) (commitBoundary m last))

/-- The checks `analyze` makes of one metablock. -/
def checkMeta (m : Mem) (cur : Nat) : Bool :=
  !tidGt (completeBoundary m cur) (commitBoundary m cur) &&
  !(nref m cur ≠ 0 && tidLt (tid m cur) (completeBoundary m cur)) &&
  !(has (flags m cur) jfComplete && tidGe (tid m cur) (completeBoundary m cur)) &&
  !(has (flags m cur) jfCommit && tidGe (tid m cur) (commitBoundary m cur))

/-- The metablock invariants, from the first metablock on. -/
def checkMetas (m : Mem) : List Nat → Bool
  | [] => true
  | [cur] => checkMeta m cur
  | last :: cur :: mr => checkMeta m last && checkPair m last cur && checkMetas m (cur :: mr)

/-- The flags a metablock contributes by its boundaries. -/
def boundaryFlags (m : Mem) (bi t : Nat) : Nat :=
  (if tidGt (commitBoundary m bi) t then jfCommit else 0) |||
    (if tidGt (completeBoundary m bi) t then jfComplete else 0)

/-- A sequence number is missing before `cur`, in a transaction that has begun and is
not committed. -/
def seqMissing (m : Mem) (fl : Nat) (last : Option Nat) (cur : Nat) : Bool :=
  match last with
  | none => false
  | some last => fl != 0 && seq m cur != (seq m last + 1) % 2 ^ 16 && !has fl jfCommit

/-- The loop of `analyze_tid`: the flags collected so far, the previous metablock,
and whether the transaction is sound so far. -/
def analyzeTidLoop (m : Mem) (t : Nat) : Nat → Option Nat → Bool → List Nat → Nat × Bool
  | fl, _, ok, [] => (fl, ok)
  | fl, last, ok, cur :: mr =>
    -- the boundaries seen here are only used in the branch below, which computes
    -- them again
    let ok := ok && !seqMissing m fl last cur
    if tid m cur = t then
      let tidFlags := flags m cur ||| boundaryFlags m cur t
      let ok := ok && (has tidFlags jfStart == (fl == 0)) &&
        !(has fl jfCommit && nref m cur != 0) && !has fl jfComplete && !has tidFlags jfComplete
      analyzeTidLoop m t (fl ||| tidFlags) (some cur) ok mr
    else analyzeTidLoop m t fl (some cur) ok mr

/-- `analyze_tid`. -/
def analyzeTid (m : Mem) (mr : List Nat) (t : Nat) : Bool :=
  let (fl, ok) := analyzeTidLoop m t 0 none true mr
  ok && has fl jfCommit

/-- The references of a metablock below index `n`, from the last one down. -/
def markRefs (target bi : Nat) : Nat → Mem → Mem
  | 0, m => m
  | r + 1, m => markRefs target bi r (if bn m bi r = target then markOverwritten m bi r else m)

/-- `mark_overwritten_block`, on the metablocks `mr_[mx - 1], …, mr_[0]`; after the
first one `refx` is `unsigned(-1)`. -/
def markOverwrittenBlock (target : Nat) : List Nat → Nat → Mem → Mem
  | [], _, m => m
  | bi :: rest, refx, m =>
    markOverwrittenBlock target rest (2 ^ 32 - 1)
      (markRefs target bi (if refx > nref m bi then nref m bi else refx) m)

/-- `analyze_overwritten_blocks`, on the metablocks `mr_[mx - 1] = bi, …, mr_[0]`. -/
def analyzeOverwrittenBlocks (bi : Nat) (rest : List Nat) : Nat → Mem → Mem
  | 0, m => m
  | refx + 1, m =>
    analyzeOverwrittenBlocks bi rest refx
      (if has (bflags m bi refx) jbfOverwritten then m
        else markOverwrittenBlock (bn m bi refx) (bi :: rest) refx m)

/-- The transaction of block `bi` is in the committable region. -/
def committable (m : Mem) (complete commit bi : Nat) : Bool :=
  tidGe (tid m bi) complete ∧ tidLt (tid m bi) commit

/-- The last loop of `analyze`, over the metablocks from the last one down. -/
def markAll (complete commit : Nat) : List Nat → Mem → Mem
  | [], m => m
  | bi :: rest, m =>
    markAll complete commit rest
      (if committable m complete commit bi then
        analyzeOverwrittenBlocks bi rest (nref m bi) m else m)

/-- The tids from `complete` up to `commit`, modulo `2 ^ 16`. -/
def tidRange (complete commit : Nat) : List Nat :=
  (List.range (tidDiff commit complete)).map fun k => (complete + k) % 2 ^ 16

/-- `analyze`, once every block has been looked at. -/
def analyzeMetas (s : Replayer) : Replayer × Bool :=
  match s.ok, s.mr.getLast? with
  | false, _ => (s, false)
  | true, none => (s, false)
  | true, some last =>
    if checkMetas s.jd s.mr then
      let complete := completeBoundary s.jd last
      let commit := commitBoundary s.jd last
      let ok := (tidRange complete commit).all (analyzeTid s.jd s.mr)
      ({ s with jd := markAll complete commit s.mr.reverse s.jd, ok := ok }, ok)
    else ({ s with ok := false }, false)

/-- `analyze`: the replayer it leaves and its result. -/
def analyze (jd : Mem) (nb : Nat) : Replayer × Bool :=
  analyzeMetas ((List.range nb).foldl analyzeBlock { jd := jd, nb := nb, mr := [], ok := true })

/-! ## Replay -/

/-- A call of `write_block`. -/
structure Write where
  tid : Nat
  bn : Nat
  buf : List UInt8
  deriving DecidableEq

/-- The journal, the calls made so far, and `delta`. -/
structure RunState where
  jd : Mem
  writes : List Write
  delta : Nat

/-- `memcpy(djd, &magic, sizeof(magic))`. -/
def unescape (m : Mem) (dbi : Nat) : Mem := putLE m (dbi * blocksize) 8 journalmagic

/-- The body of the inner loop of `run`. -/
def runRef (nb bi : Nat) (s : RunState) (refi : Nat) : RunState :=
  let fl := bflags s.jd bi refi
  if has fl jbfNonjournaled then s
  else if has fl jbfOverwritten then { s with delta := s.delta + 1 }
  else
    let dbi := (bi + s.delta) % 2 ^ 32 % nb
    let jd := if has fl jbfEscaped then unescape s.jd dbi else s.jd
    { jd := jd
      writes := s.writes ++ [⟨tid jd bi, bn jd bi refi, block jd dbi⟩]
      delta := s.delta + 1 }

/-- The body of the outer loop of `run`. -/
def runMeta (nb complete commit : Nat) (s : RunState) (bi : Nat) : RunState :=
  if committable s.jd complete commit bi then
    (List.range (nref s.jd bi)).foldl (runRef nb bi) { s with delta := 1 }
  else s

/-- `run`: the calls of `write_block` it makes. -/
def run (s : Replayer) : List Write :=
  match s.mr.getLast? with
  | none => []
  | some last =>
    (s.mr.foldl (runMeta s.nb (completeBoundary s.jd last) (commitBoundary s.jd last))
      { jd := s.jd, writes := [], delta := 1 }).writes

end PugOS.Journal
