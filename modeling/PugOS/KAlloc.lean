import Mathlib.Data.Nat.Log
import PugOS.MemRange

/-! # The buddy allocator

`k-alloc.cc` keeps a `pagestate` for every physical page and one list of free
blocks for every order between `MIN_ORDER` and `MAX_ORDER`.  A block is named by
the index of its first page, its *head*; the `pagestate` of a page that heads no
block is all zero.

The functions below follow the source statement by statement.  `none` is an
assertion that fails, or an access to `pages` past its end; the intrusive lists are
sequences of page indices, and linking an element that is already linked, or unlinking
one that is not, is the failed assertion it is in `k-list.hh`.
-/
namespace PugOS.KAlloc

/-- `NPAGES`. -/
def npages : Nat := memsizePhysical / pageSize

/-- `MIN_ORDER`. -/
def minOrder : Nat := 12

/-- `MAX_ORDER`. -/
def maxOrder : Nat := 24

/-- `NORDERS`. -/
def norders : Nat := maxOrder - minOrder + 1

/-- `struct pagestate`, without its links. -/
structure PageState where
  order : Nat
  pindex : Nat
  allocated : Bool

/-- A `pagestate` cleared by `memset`. -/
def PageState.zero : PageState := ⟨0, 0, false⟩

/-- The allocator: `pages`, the lists behind `free_blocks`, and the physical memory
`kfree` clears.  Only the entries below `npages` exist: an operation that would get at
another one fails, and the pages on the lists are pages of the array. -/
structure State where
  pages : Nat → PageState
  freeBlocks : Nat → List Nat
  mem : Nat → UInt8

namespace State

/-- `pages[p]` after an assignment to it. -/
def setPage (s : State) (p : Nat) (g : PageState) : State :=
  { s with pages := Function.update s.pages p g }

/-- `pages[p] = g`, of an index computed from an address; `none` past the end of the
array. -/
def storePage (s : State) (p : Nat) (g : PageState) : Option State :=
  if p < npages then some (s.setPage p g) else none

/-- The list of order `k` after an operation on it. -/
def setFree (s : State) (k : Nat) (l : List Nat) : State :=
  { s with freeBlocks := Function.update s.freeBlocks k l }

/-- `link_.is_linked()` of page `p`: it is on some list. -/
def linked (s : State) (p : Nat) : Bool :=
  (List.range' minOrder norders).any fun k => decide (p ∈ s.freeBlocks k)

/-- `free_blocks(k)->push_back(&pages[p])`. -/
def pushBack (s : State) (k p : Nat) : Option State :=
  if minOrder ≤ k ∧ k ≤ maxOrder ∧ s.linked p = false then
    some (s.setFree k (s.freeBlocks k ++ [p]))
  else none

/-- `free_blocks(k)->pop_front()`; `none` where the source goes on with a null
pointer. -/
def popFront (s : State) (k : Nat) : Option (State × Nat) :=
  match s.freeBlocks k with
  | [] => none
  | p :: l => if minOrder ≤ k ∧ k ≤ maxOrder then some (s.setFree k l, p) else none

/-- `free_blocks(k)->erase(&pages[p])`. -/
def erase (s : State) (k p : Nat) : Option State :=
  if minOrder ≤ k ∧ k ≤ maxOrder ∧ p ∈ s.freeBlocks k then
    some (s.setFree k ((s.freeBlocks k).erase p))
  else none

end State

/-- `msb`, of an `int`: the index of the most significant one bit, plus one. -/
def msb (x : Nat) : Nat := if x % 2 ^ 32 = 0 then 0 else Nat.log2 (x % 2 ^ 32) + 1

/-- `order_of`.  Its parameter is an `int`, so a size is cut to 32 bits. -/
def orderOf (n : Nat) : Nat :=
  if n % 2 ^ 32 = 0 then 0 else msb (n % 2 ^ 32 - 1)

/-- The orders from `MAX_ORDER` down to `MIN_ORDER`. -/
def ordersDown : List Nat := (List.range' minOrder norders).reverse

/-- `find_max_order`; `none` is its `-1`. -/
def findMaxOrder (start last : Nat) : Option Nat :=
  ordersDown.find? fun k => decide (start % 2 ^ k = 0) && decide (start + 2 ^ k ≤ last)

/-- The chunk `init_kalloc` makes at `addr`, in a range that is available or not. -/
def initChunk (s : State) (available : Bool) (addr order : Nat) : Option State :=
  let pindex := addr / pageSize
  (s.storePage pindex ⟨order, pindex, !available⟩).bind fun s =>
    if available then s.pushBack order pindex else some s

/-- The inner loop of `init_kalloc`, from `addr` to the end of a range. -/
def initRange (available : Bool) (last : Nat) : Nat → Nat → State → Option State
  | 0, _, _ => none
  | fuel + 1, addr, s =>
    if addr < last then
      match findMaxOrder addr last with
      | some order =>
        (initChunk s available addr order).bind (initRange available last fuel (addr + 2 ^ order))
      | none => some s
    else some s

/-- The outer loop of `init_kalloc`, from range `i` on. -/
def initRanges (m : MemRangeSet) : Nat → Nat → State → Option State
  | 0, _, _ => none
  | fuel + 1, i, s =>
    if m.first i < memsizePhysical then
      (initRange (decide (m.type i = memAvailable)) (m.last i) (m.last i - m.first i + 1)
        (m.first i) s).bind (initRanges m fuel (i + 1))
    else some s

/-- `init_kalloc`, with the physical memory it finds. -/
def initKalloc (m : MemRangeSet) (mem : Nat → UInt8) : Option State :=
  initRanges m (m.n + 1) 0 ⟨fun _ => PageState.zero, fun _ => [], mem⟩

/-- `min_larger_order`; `none` is its `-1`. -/
def minLargerOrder (s : State) (order : Nat) : Option Nat :=
  (List.range' order (maxOrder + 1 - order)).find? fun k => !(s.freeBlocks k).isEmpty

/-- Break the first block of order `larger` in half. -/
def split (s : State) (larger : Nat) : Option State := do
  let (s, target) ← s.popFront larger
  let order := (s.pages target).order - 1
  let s := s.setPage target { s.pages target with order := order }
  let s ← s.pushBack (larger - 1) target
  let newPindex := (s.pages target).pindex + 2 ^ (order - orderOf pageSize)
  let s ← s.storePage newPindex ⟨order, newPindex, false⟩
  s.pushBack order newPindex

/-- The loop of `kalloc` that breaks up blocks until one of the wanted order is
free. -/
def splitLoop (order : Nat) : Nat → State → Option State
  | 0, _ => none
  | fuel + 1, s =>
    if (s.freeBlocks order).isEmpty then
      (minLargerOrder s order).bind fun larger => (split s larger).bind (splitLoop order fuel)
    else some s

/-- The order `kalloc` serves a request of `sz` bytes with. -/
def requestOrder (sz : Nat) : Nat :=
  let sz := max sz (2 ^ minOrder)
  if orderOf sz < minOrder then minOrder else orderOf sz

/-- `kalloc`: the physical address of the block, or `none` for a null pointer. -/
def kalloc (s : State) (sz : Nat) : Option (State × Option Nat) :=
  if sz = 0 then some (s, none)
  else
    let order := requestOrder sz
    if order > maxOrder then some (s, none)
    else if minLargerOrder s order = none then some (s, none)
    else do
      let s ← splitLoop order norders s
      let (s, p) ← s.popFront order
      let s := s.setPage p { s.pages p with allocated := true }
      some (s, some ((s.pages p).pindex * pageSize))

/-- `buddy_pindex`.  The head of a block is aligned to its size, so the subtraction
does not go below `0`. -/
def buddyPindex (p order : Nat) : Nat :=
  if p * pageSize % 2 ^ (order + 1) = 0 then (p * pageSize + 2 ^ order) / pageSize
  else (p * pageSize - 2 ^ order) / pageSize

/-- Whether `kfree` merges block `p` with its buddy.  A buddy index outside the array
counts as not free. -/
def mergeable (s : State) (p : Nat) : Bool :=
  let b := buddyPindex p (s.pages p).order
  decide (b < npages) && !(s.pages b).allocated &&
    decide ((s.pages b).order = (s.pages p).order) && decide ((s.pages p).order ≠ maxOrder)

/-- Merge block `p` with its buddy; the merged block's head is the lower one. -/
def merge (s : State) (p : Nat) : Option (State × Nat) := do
  let b := buddyPindex p (s.pages p).order
  let toMerge := max p b
  let mergeBase := min p b
  let s ← s.erase (s.pages b).order b
  let s := s.setPage toMerge PageState.zero
  let s := s.setPage mergeBase { s.pages mergeBase with order := (s.pages mergeBase).order + 1 }
  some (s, mergeBase)

/-- The coalescing loop of `kfree`, and the `push_back` after it. -/
def coalesce : Nat → State → Nat → Option State
  | 0, _, _ => none
  | fuel + 1, s, p =>
    if mergeable s p then (merge s p).bind fun (s, p) => coalesce fuel s p
    else s.pushBack (s.pages p).order p

/-- `memset(ptr, 0, len)` on physical memory. -/
def clearMem (mem : Nat → UInt8) (pa len : Nat) : Nat → UInt8 :=
  fun a => if pa ≤ a ∧ a < pa + len then 0 else mem a

/-- `kfree`, of a physical address or of a null pointer. -/
def kfree (s : State) : Option Nat → Option State
  | none => some s
  | some pa =>
    if pa % pageSize ≠ 0 then none
    else
      let pindex := pa / pageSize
      if npages ≤ pindex then none
      else if (s.pages pindex).allocated = false then some s
      else
        let s := s.setPage pindex { s.pages pindex with allocated := false }
        let s := { s with mem := clearMem s.mem pa (2 ^ (s.pages pindex).order) }
        coalesce norders s pindex

end PugOS.KAlloc
