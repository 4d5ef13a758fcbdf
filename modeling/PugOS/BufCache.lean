import PugOS.Heap
import PugOS.Transition
import Mathlib.Data.Option.Basic

/-! # The buffer cache and the disk's command slots

`bufcache` has `ne` entries, which tasks share.  A task inside `get_disk_entry` looks for
its block under `lock_`, gives the lock up, has the block loaded, looks for the blocks it
prefetches in the same way, and waits for the disk.  A step here is one section that runs
under a lock, so tasks interleave between any two of them: `lock_` is given up between the
search and the load, between marking an entry `f_loading` and queueing its command, and
inside `get_bufentry_slot`, when a dirty entry has to be written first.  A failed assertion
has no successor.

The lock a writer holds on an entry (`write_ref_`) is left out: any task that holds a
reference may mark an entry dirty at any time.
-/
namespace PugOS
namespace BufCache

/-- `bufcache::ne`, `nprefetch`, and the block number of an empty slot. -/
def ne : Nat := 100
def nPrefetch : Nat := ne / 5
def emptyblock : Nat := 2 ^ 32 - 1

/-- The values of `fetch_status_`: 0, `E_AGAIN` and `E_IO`. -/
inductive Status
  | done
  | again
  | io
  deriving DecidableEq, Repr

/-- `bufentry`. -/
structure Entry where
  bn : Nat
  ref : Nat
  loaded : Bool
  loading : Bool
  dirty : Bool
  buf : Option Nat
  fetchStatus : Status
  prefetched : Bool
  deriving DecidableEq, Repr

namespace Entry

/-- An entry of an empty slot. -/
def empty : Entry := ⟨emptyblock, 0, false, false, false, none, .done, false⟩

/-- The block is loaded or being loaded. -/
def loadeding (x : Entry) : Bool := x.loaded || x.loading

/-- `clear`, past its assertion. -/
def clear (x : Entry) : Entry :=
  { x with
    bn := emptyblock, loaded := false, loading := false, dirty := false, buf := none
    prefetched := false }

end Entry

/-- A command the disk has not acknowledged: the entry that holds its status, its buffer
and its block. -/
structure Cmd where
  entry : Nat
  buf : Nat
  bn : Nat
  write : Bool
  deriving DecidableEq, Repr

/-- What a slot is wanted for: the block of `get_disk_entry(bn)`, or the `n`th block after
it while slot `i` has `bn`. -/
inductive Job
  | main (bn : Nat)
  | ahead (bn i n : Nat)
  deriving DecidableEq, Repr

/-- The block the call is about. -/
def Job.block : Job → Nat
  | .main bn => bn
  | .ahead bn _ n => (bn + n) % 2 ^ 32

/-- Where a task is. -/
inductive Pc
  /-- in `get_bufentry_slot`, with `lock_` given up for `sync(false)` -/
  | flush (j : Job)
  /-- slot `k` taken, `load_disk_block` not begun -/
  | load (j : Job) (k : Nat) (prefetching : Bool)
  /-- `f_loading` set, the command not queued -/
  | queue (j : Job) (k : Nat) (prefetching : Bool)
  /-- before round `n` of the prefetch loop -/
  | next (bn i n : Nat)
  /-- waiting for `fetch_status_` -/
  | wait (i : Nat)
  /-- `get_disk_entry` has returned entry `i` -/
  | hold (i : Nat)
  /-- in `sync`, with a write of entry `k` under way -/
  | writing (k : Nat)
  deriving DecidableEq, Repr

/-- The slots, the lists of the cache, `lock_`, the lines of waiting tasks, the device, and the
tasks. -/
structure State where
  e : Nat → Entry
  eList : List Nat
  prefList : List Nat
  /-- the entries linked by `dirty_link_` -/
  dirtyList : List Nat
  /-- the buffers allocated and not freed -/
  live : Finset Nat
  cmds : Heap Cmd
  tasks : Heap Pc

namespace State

/-- The entry of a slot is changed. -/
def modify (s : State) (k : Nat) (f : Entry → Entry) : State :=
  { s with e := Function.update s.e k (f (s.e k)) }

/-- A task goes on at `pc`. -/
def goto (s : State) (τ : Nat) (pc : Pc) : State := { s with tasks := s.tasks.set τ pc }

/-- The task returns. -/
def leave (s : State) (τ : Nat) : State := { s with tasks := s.tasks.erase τ }

/-- Entry `k` is in one of the two lists that use `entry_link_`. -/
def linked (s : State) (k : Nat) : Bool := k ∈ s.eList ∨ k ∈ s.prefList

/-- `erase`, from whichever list has the entry. -/
def unlink (s : State) (k : Nat) : Option State := do
  guard (s.linked k)
  return { s with eList := s.eList.erase k, prefList := s.prefList.erase k }

end State

/-! ### Finding a slot -/

/-- The first loop of `get_bufentry_slot`. -/
def findBlock (e : Nat → Entry) (bn : Nat) : Option Nat :=
  (List.range ne).find? fun k => (e k).bn = bn

/-- What `find_empty_slot` finds. -/
inductive Free
  | slot (k : Nat)
  | flush
  | full

/-- The second loop, over the indices that are left. -/
def findFree (e : Nat → Entry) : List Nat → Free
  | [] => .full
  | k :: l =>
    if (e k).bn = emptyblock then .slot k
    else if (e k).dirty && (e k).ref = 0 then .flush
    else findFree e l

/-- The first slot of `eList` with no reference that need not be written back. -/
def lruVictim (s : State) : Option Nat :=
  s.eList.find? fun k => (s.e k).ref = 0 && !(s.e k).dirty

/-- The first slot of the prefetched ones whose read is over. -/
def prefVictim (s : State) : Option Nat :=
  s.prefList.find? fun k =>
    (s.e k).prefetched && (s.e k).fetchStatus ≠ .again && !(s.e k).dirty

/-- The entry that is evicted when no slot is free. -/
def victim (s : State) : Option Nat := (lruVictim s).or (prefVictim s)

/-- `kfree(b->buf_); b->clear();` -/
def release (s : State) (k : Nat) : State :=
  ({ s with live := match (s.e k).buf with
      | none => s.live
      | some b => s.live.erase b }).modify k Entry.clear

/-- The slot is taken off its list and released. -/
def evict (s : State) (k : Nat) : Option State := do
  let s ← s.unlink k
  guard ((s.e k).ref = 0)
  return release s k

/-- `e_[k].bn_ = bn; e_list_.push_back(&e_[k]);` -/
def take (s : State) (k bn : Nat) : Option State := do
  guard ¬s.linked k
  return ({ s with eList := s.eList ++ [k] }).modify k fun x => { x with bn := bn }

/-- How a section of `get_bufentry_slot` ends. -/
inductive Got
  | slot (k : Nat) (s : State)
  | flush
  | full

/-- `get_bufentry_slot` from the second loop on, with the indices `l` to go. -/
def freeSlot (s : State) (bn : Nat) (l : List Nat) : Option Got :=
  match findFree s.e l with
  | .slot k => do
    let s ← take s k bn
    return .slot k s
  | .flush => some .flush
  | .full =>
    match victim s with
    | none => some .full
    | some k => do
      let s ← evict s k
      let s ← take s k bn
      return .slot k s

/-- `get_bufentry_slot`, up to where it gives `lock_` up or returns. -/
def getBufentrySlot (s : State) (bn : Nat) : Option Got :=
  match findBlock s.e bn with
  | some k => do
    let s ← s.unlink k
    let s ← take s k bn
    return .slot k s
  | none => freeSlot s bn (List.range ne)

/-- `get_bufentry_slot` once it has `lock_` again: `i = 0`, and the loop goes on with
`++i`. -/
def resumeSlot (s : State) (bn : Nat) : Option Got := freeSlot s bn (List.range ne).tail

/-! ### `get_disk_entry` -/

/-- `++ref_`, on an unsigned. -/
def incRef (r : Nat) : Nat := if r = 2 ^ 32 - 1 then 0 else r + 1

/-- `++e_[i].ref_`, except for the superblock. -/
def addRef (s : State) (k bn : Nat) : State :=
  if bn ≠ 0 then s.modify k fun x => { x with ref := incRef x.ref } else s

/-- A slot without references goes to the prefetch list. -/
def movePrefetch (s : State) (k : Nat) : Option State :=
  if (s.e k).ref = 0 then do
    let s ← s.unlink k
    return ({ s with prefList := k :: s.prefList }).modify k fun x => { x with prefetched := true }
  else some s

/-- The rest of a section that called `get_bufentry_slot` for `j`. -/
def enter (s : State) (τ : Nat) (j : Job) : Got → Option State
  | .flush => some (s.goto τ (.flush j))
  | .full =>
    match j with
    | .main _ => some (s.leave τ)
    | .ahead _ i _ => some (s.goto τ (.wait i))
  | .slot k s =>
    match j with
    | .main bn =>
      let prefetching := bn ≠ 0 && !(s.e k).loadeding
      some ((addRef s k bn).goto τ (.load j k prefetching))
    | .ahead _ _ _ => do
      let s ← movePrefetch s k
      return s.goto τ (.load j k false)

/-- Where `load_disk_block` returns to. -/
def loaded (s : State) (τ : Nat) (j : Job) (k : Nat) (prefetching ok : Bool) : State :=
  match j, ok with
  | .main bn, true => s.goto τ (if prefetching then .next bn k 1 else .wait k)
  | .main _, false => s.leave τ
  | .ahead bn i n, true => s.goto τ (.next bn i (n + 1))
  | .ahead _ i _, false => s.goto τ (.wait i)

/-- `get_disk_entry(bn)`, its first section. -/
def getDiskEntry (s : State) (τ bn : Nat) : Option State := do
  guard (s.tasks.get τ = none)
  guard (bn < 2 ^ 32)
  let r ← getBufentrySlot s bn
  enter s τ (.main bn) r

/-- The section after `sync(false)`. -/
def resume (s : State) (τ : Nat) : Option State :=
  match s.tasks.get τ with
  | some (.flush j) => do
    let r ← resumeSlot s j.block
    enter s τ j r
  | _ => none

/-- `--ref_`, on an unsigned. -/
def decRef (r : Nat) : Nat := if r = 0 then 2 ^ 32 - 1 else r - 1

/-- The section of `load_disk_block` under the entry's lock; `buf` is what `kalloc`
returns if it is called. -/
def loadDiskBlock (s : State) (τ : Nat) (buf : Option Nat) : Option State :=
  match s.tasks.get τ with
  | some (.load j k prefetching) =>
    if (s.e k).loadeding then some (loaded s τ j k prefetching true)
    else
      match (s.e k).buf, buf with
      | some _, _ =>
        some ((s.modify k fun x => { x with loading := true }).goto τ (.queue j k prefetching))
      | none, some b => do
        guard (b ∉ s.live)
        return (({ s with live := insert b s.live }).modify k
          fun x => { x with buf := some b, loading := true }).goto τ (.queue j k prefetching)
      | none, none =>
        some (loaded (s.modify k fun x => { x with ref := decRef x.ref })
          τ j k prefetching false)
  | _ => none

/-- The first command slot that is open, of `nslots`. -/
def openSlot (nslots : Nat) (s : State) : Option Nat :=
  (List.range nslots).find? fun q => s.cmds.get q = none

/-- `*status = E_AGAIN`, and the command is issued. -/
def issue (s : State) (q : Nat) (c : Cmd) : State :=
  ({ s with cmds := s.cmds.set q c }).modify c.entry fun x => { x with fetchStatus := .again }

/-- The end of `load_disk_block`: `read_or_write_nonblocking`. -/
def queueRead (nslots : Nat) (s : State) (τ : Nat) : Option State :=
  match s.tasks.get τ with
  | some (.queue j k prefetching) =>
    match openSlot nslots s with
    | none =>
      some (loaded (s.modify k fun x => { x with loading := false }) τ j k prefetching false)
    | some q => do
      let b ← (s.e k).buf
      return loaded (issue s q ⟨k, b, j.block, false⟩) τ j k prefetching true
  | _ => none

/-- A round of the prefetch loop. -/
def prefetch (s : State) (τ : Nat) : Option State :=
  match s.tasks.get τ with
  | some (.next bn i n) =>
    if n ≤ nPrefetch then do
      let r ← getBufentrySlot s ((bn + n) % 2 ^ 32)
      enter s τ (.ahead bn i n) r
    else some (s.goto τ (.wait i))
  | _ => none

/-- What `get_disk_entry` does under the entry's lock when the read is done. -/
def finishLoad (s : State) (k : Nat) : Option State :=
  if (s.e k).loading then
    let s := s.modify k fun x => { x with loading := false, loaded := true }
    if (s.e k).prefetched then do
      let s ← s.unlink k
      return ({ s with eList := s.eList ++ [k] }).modify k fun x => { x with prefetched := false }
    else some s
  else some s

/-- The end of `get_disk_entry`, once `fetch_status_` is not `E_AGAIN`. -/
def finish (s : State) (τ : Nat) : Option State :=
  match s.tasks.get τ with
  | some (.wait k) => do
    guard ((s.e k).fetchStatus ≠ .again)
    let s ← finishLoad s k
    return s.goto τ (.hold k)
  | _ => none

/-- `put_entry`. -/
def putEntry (s : State) (τ : Nat) : Option State :=
  match s.tasks.get τ with
  | some (.hold k) =>
    if (s.e k).bn ≠ 0 then
      some ((s.modify k fun x => { x with ref := decRef x.ref }).leave τ)
    else some (s.leave τ)
  | _ => none

/-! ### `sync` and the disk -/

/-- `sully`. -/
def sullyEntry (s : State) (k : Nat) : Option State :=
  if (s.e k).dirty then some s
  else do
    guard (k ∉ s.dirtyList)
    return ({ s with dirtyList := k :: s.dirtyList }).modify k fun x => { x with dirty := true }

/-- A task that holds an entry writes to it. -/
def sully (s : State) (τ : Nat) : Option State :=
  match s.tasks.get τ with
  | some (.hold k) => sullyEntry s k
  | _ => none

/-- `sync` takes entry `k` from the dirty list and issues its write. -/
def writeBack (nslots : Nat) (s : State) (τ k : Nat) : Option State := do
  guard (s.tasks.get τ = none)
  guard (k ∈ s.dirtyList)
  let s ← sullyEntry { s with dirtyList := s.dirtyList.erase k } k
  let q ← openSlot nslots s
  let b ← (s.e k).buf
  return (issue s q ⟨k, b, (s.e k).bn, true⟩).goto τ (.writing k)

/-- The write is done, and `sync` marks the entry clean. -/
def markClean (s : State) (τ : Nat) : Option State :=
  match s.tasks.get τ with
  | some (.writing k) => do
    guard ((s.e k).fetchStatus ≠ .again)
    return (s.modify k fun x => { x with dirty := false }).leave τ
  | _ => none

/-- The loop of `sync(true)` that drops entries, over the indices that are left. -/
def drop : List Nat → State → Option State
  | [], s => some s
  | k :: l, s =>
    if (s.e k).bn ≠ emptyblock && (s.e k).ref = 0 then do
      let s ← s.unlink k
      drop l (release s k)
    else drop l s

/-- `acknowledge`, for a command the disk has completed. -/
def acknowledge (s : State) (q : Nat) (failed : Bool) : Option State := do
  let c ← s.cmds.get q
  return ({ s with cmds := s.cmds.erase q }).modify c.entry
    fun x => { x with fetchStatus := if failed then .io else .done }

/-- A step of a task, or an interrupt of the device. -/
inductive Label
  | get (τ bn : Nat)
  | resume (τ : Nat)
  | load (τ : Nat) (buf : Option Nat)
  | queue (τ : Nat)
  | prefetch (τ : Nat)
  | finish (τ : Nat)
  | put (τ : Nat)
  | sully (τ : Nat)
  | writeBack (τ k : Nat)
  | markClean (τ : Nat)
  | drop
  | acknowledge (q : Nat) (failed : Bool)

/-- One step. -/
def step (nslots : Nat) (s : State) : Label → Option State
  | .get τ bn => getDiskEntry s τ bn
  | .resume τ => resume s τ
  | .load τ buf => loadDiskBlock s τ buf
  | .queue τ => queueRead nslots s τ
  | .prefetch τ => prefetch s τ
  | .finish τ => finish s τ
  | .put τ => putEntry s τ
  | .sully τ => sully s τ
  | .writeBack τ k => writeBack nslots s τ k
  | .markClean τ => markClean s τ
  | .drop => drop (List.range ne) s
  | .acknowledge q failed => acknowledge s q failed

/-- After the constructor: the superblock is in slot 0, with a reference of its own. -/
def boot : State where
  e := Function.update (fun _ => .empty) 0 ⟨0, 1, true, false, false, some 0, .done, false⟩
  eList := [0]
  prefList := []
  dirtyList := []
  live := {0}
  cmds := .empty
  tasks := .empty

/-- The cache from its boot on, with any number of calls at once. -/
def machine (nslots : Nat) : Transition.Machine State Label where
  init s := s = boot
  step := step nslots

end BufCache
end PugOS
