import PugOS.Heap
import PugOS.Transition

/-! # Descriptors, files and vnodes

The system calls that change descriptor tables, over the objects they share: a
descriptor slot points to a `file`, a `file` points to a `vnode`, and both count the
pointers to them.  The addresses `knew` returns are chosen by the label of a step.  A step
that touches a destroyed object or fails an assertion has no successor; the one exception
is the increment `dup2` makes last, which writes into freed memory unnoticed.
-/
namespace PugOS
namespace Vfs

/-- The number of slots of a descriptor table. -/
def NFDS : Nat := 256

instance : NeZero NFDS := ⟨by decide⟩

/-- A descriptor table: the slots that are not null, with the files they point to. -/
structure FdTable where
  fds : Heap Nat
  lt_NFDS : ∀ i, fds.get i ≠ none → i < NFDS

namespace FdTable
variable {t : FdTable}

/-- A table with no file. -/
def empty : FdTable := ⟨.empty, fun _ h => absurd rfl h⟩

/-- A descriptor is set. -/
def set (t : FdTable) (i : Fin NFDS) (f : Nat) : FdTable where
  fds := t.fds.set i f
  lt_NFDS j hj := by
    by_cases h : j = i
    · exact h ▸ i.isLt
    · rw [Heap.get_set_ne h] at hj
      exact t.lt_NFDS j hj

/-- A descriptor is cleared. -/
def clear (t : FdTable) (i : Fin NFDS) : FdTable where
  fds := t.fds.erase i
  lt_NFDS j hj := by
    by_cases h : j = i
    · exact h ▸ i.isLt
    · rw [Heap.get_erase_ne h] at hj
      exact t.lt_NFDS j hj

/-- The null slots, in order. -/
def nulls (t : FdTable) : List (Fin NFDS) :=
  (List.finRange NFDS).filter fun i : Fin NFDS => t.fds.get i = none

/-- The files of the slots that are not null, in the order of the slots. -/
def files (t : FdTable) : List Nat := (List.finRange NFDS).filterMap fun i : Fin NFDS => t.fds.get i

end FdTable

/-- The bounds every system call checks a descriptor against. -/
def fdOf (fd : Int) : Option (Fin NFDS) :=
  if h : 0 ≤ fd ∧ fd < NFDS then some ⟨fd.toNat, by omega⟩ else none

/-- `type_` of a file. -/
inductive FileType
  | normie
  | pipe
  | directory
  | stream
  deriving DecidableEq, Repr

/-- A `file`. -/
structure File where
  type : FileType
  readable : Bool
  writeable : Bool
  vnode : Nat
  refs : Int
  deriving DecidableEq, Repr

/-- Which class derived from `vnode` an object was created as. -/
inductive VnodeKind
  | kbc
  | pipe
  | inode (ino : Nat)
  deriving DecidableEq, Repr

/-- The flags of a bounded buffer that destroying a file sets. -/
structure BBuffer where
  readClosed : Bool
  writeClosed : Bool
  deriving DecidableEq, Repr

/-- A `vnode`, with the buffer of a pipe. -/
structure Vnode where
  kind : VnodeKind
  bb : Option BBuffer
  refs : Int
  deriving DecidableEq, Repr

/-- The descriptor tables, the files and the vnodes. -/
structure State where
  /-- the tables of the live processes that have not exited -/
  procs : Heap FdTable
  files : Heap File
  vnodes : Heap Vnode
  /-- the files of the reads and writes in progress -/
  io : List Nat
  /-- the inodes `sys_open` has looked up -/
  opened : List Nat
  /-- the inodes `put_inode` has been called on for them -/
  puts : List Nat

/-- What `~file` does to the bounded buffer of a pipe. -/
def closeEnds (f : File) (v : Vnode) : Vnode :=
  if f.type = .pipe then
    { v with bb := v.bb.map fun b => ⟨b.readClosed || f.readable, b.writeClosed || f.writeable⟩ }
  else v

/-- `file::~file`.  `kdelete(vnode_)` runs the destructor of `vnode`, which is not virtual
and deletes the bounded buffer only: `put_inode` is not called. -/
def destroyFile (f : File) (vnodes : Heap Vnode) : Option (Heap Vnode) := do
  let v ← vnodes.get f.vnode
  guard (0 ≤ v.refs - 1)
  if v.refs - 1 = 0 then
    return vnodes.erase f.vnode
  else
    return vnodes.set f.vnode { closeEnds f v with refs := v.refs - 1 }

/-- `file::deref`. -/
def deref (s : State) (a : Nat) : Option State := do
  let f ← s.files.get a
  guard (0 ≤ f.refs - 1)
  if f.refs - 1 = 0 then
    let vnodes ← destroyFile f s.vnodes
    return { s with files := s.files.erase a, vnodes := vnodes }
  else
    return { s with files := s.files.set a { f with refs := f.refs - 1 } }

/-- `refs_++` through a pointer that may be stale. -/
def incref (s : State) (a : Nat) : State :=
  match s.files.get a with
  | none => s
  | some f => { s with files := s.files.set a { f with refs := f.refs + 1 } }

/-- `process_setup`: descriptors 0, 1 and 2 share one file. -/
def setup (s : State) (pid f v : Nat) : Option State := do
  guard (s.procs.get pid = none)
  guard (s.files.get f = none)
  guard (s.vnodes.get v = none)
  return { s with
    procs := s.procs.set pid (((FdTable.empty.set 0 f).set 1 f).set 2 f)
    files := s.files.set f ⟨.stream, true, true, v, 3⟩
    vnodes := s.vnodes.set v ⟨.kbc, none, 1⟩ }

/-- `kdelete(f)` on a file no field of which but `refs_` has been assigned; the memory held
`junk` before. -/
def deleteFile (f : Option Nat) (junk : File) (vnodes : Heap Vnode) : Option (Heap Vnode) :=
  match f with
  | none => some vnodes
  | some _ => destroyFile junk vnodes

/-- The memory `knew` returns holds no live object. -/
def fresh {α : Type} (h : Heap α) (a : Option Nat) : Bool :=
  match a with
  | none => true
  | some a => (h.get a).isNone

/-- `knew<vnode_inode>(ino)`, `knew<vnode_pipe>()`. -/
def newVnode (vnodes : Heap Vnode) (v : Option Nat) (x : Vnode) : Heap Vnode :=
  match v with
  | none => vnodes
  | some v => vnodes.set v x

/-- `kdelete` of a vnode, which may be null. -/
def deleteVnode (vnodes : Heap Vnode) (v : Option Nat) : Heap Vnode :=
  match v with
  | none => vnodes
  | some v => vnodes.erase v

/-- `SYSCALL_OPEN`, after the lookup that found `ino` or nothing. -/
def sysOpen (s : State) (pid : Nat) (ino : Option Nat) (readable writeable : Bool)
    (f v : Option Nat) (junk : File) : Option State := do
  let t ← s.procs.get pid
  match ino with
  | none => return s
  | some ino =>
    guard (fresh s.files f)
    guard (fresh s.vnodes v)
    let s := { s with opened := ino :: s.opened }
    match f, v, t.nulls.head? with
    | some f, some v, some fd =>
      return { s with
        procs := s.procs.set pid (t.set fd f)
        files := s.files.set f ⟨.normie, readable, writeable, v, 1⟩
        vnodes := s.vnodes.set v ⟨.inode ino, none, 1⟩ }
    | f, v, _ =>
      let vnodes ← deleteFile f junk (newVnode s.vnodes v ⟨.inode ino, none, 1⟩)
      return { s with vnodes := deleteVnode vnodes v, puts := ino :: s.puts }

/-- `SYSCALL_PIPE`; `bb` says whether the bounded buffer could be allocated. -/
def sysPipe (s : State) (pid : Nat) (rfile wfile v : Option Nat) (bb : Bool)
    (junk junk' : File) : Option State := do
  let t ← s.procs.get pid
  match t.nulls with
  | rfd :: wfd :: _ =>
    guard (fresh s.files rfile)
    guard (fresh s.files wfile)
    guard (fresh s.vnodes v)
    guard (rfile ≠ wfile ∨ rfile = none)
    match rfile, wfile, v, bb with
    | some r, some w, some v, true =>
      return { s with
        procs := s.procs.set pid ((t.set rfd r).set wfd w)
        files := (s.files.set r ⟨.pipe, true, false, v, 1⟩).set w ⟨.pipe, false, true, v, 1⟩
        vnodes := s.vnodes.set v ⟨.pipe, some ⟨false, false⟩, 2⟩ }
    | rfile, wfile, v, _ =>
      let vnodes ← deleteFile rfile junk (newVnode s.vnodes v ⟨.pipe, none, 1⟩)
      let vnodes ← deleteFile wfile junk' vnodes
      return { s with vnodes := deleteVnode vnodes v }
  | _ => return s

/-- `if (fds_[fd]) fds_[fd]->deref()`. -/
def derefSlot (s : State) (slot : Option Nat) : Option State :=
  match slot with
  | none => some s
  | some a => deref s a

/-- `SYSCALL_DUP2` past the checks: drop what `new` pointed to, store, count. -/
def replaceFd (s : State) (pid : Nat) (t : FdTable) (new : Fin NFDS) (a : Nat) : Option State := do
  let s ← derefSlot s (t.fds.get new)
  return incref { s with procs := s.procs.set pid (t.set new a) } a

/-- `SYSCALL_DUP2`. -/
def sysDup2 (s : State) (pid : Nat) (oldfd newfd : Int) : Option State := do
  let t ← s.procs.get pid
  match fdOf oldfd, fdOf newfd with
  | some old, some new =>
    match t.fds.get old with
    | none => return s
    | some a => replaceFd s pid t new a
  | _, _ => return s

/-- `SYSCALL_CLOSE`. -/
def sysClose (s : State) (pid : Nat) (fd : Int) : Option State := do
  let t ← s.procs.get pid
  match fdOf fd with
  | none => return s
  | some fd =>
    match t.fds.get fd with
    | none => return s
    | some a =>
      let s ← deref s a
      return { s with procs := s.procs.set pid (t.clear fd) }

/-- `f->refs_++` and `f->vnode_->refs_++`, for one slot. -/
def share (s : State) (a : Nat) : Option State := do
  let f ← s.files.get a
  let v ← s.vnodes.get f.vnode
  return { s with
    files := s.files.set a { f with refs := f.refs + 1 }
    vnodes := s.vnodes.set f.vnode { v with refs := v.refs + 1 } }

/-- The loop of `process_fork` that clones the table, up to the first null slot. -/
def clone (t : FdTable) : List (Fin NFDS) → State → FdTable → Option (State × FdTable)
  | [], s, c => some (s, c)
  | i :: l, s, c =>
    match t.fds.get i with
    | none => some (s, c)
    | some a => do
      let s ← share s a
      clone t l s (c.set i a)

/-- `process_fork`, where it succeeds. -/
def sysFork (s : State) (pid child : Nat) : Option State := do
  let t ← s.procs.get pid
  guard (s.procs.get child = none)
  let (s, c) ← clone t (List.finRange NFDS) s .empty
  return { s with procs := s.procs.set child c }

/-- `readable_` or `writeable_`. -/
def File.permits (f : File) (write : Bool) : Bool := if write then f.writeable else f.readable

/-- The start of `SYSCALL_READ` and `SYSCALL_WRITE`; `valid` says whether the size is not
zero and the memory range passes its checks. -/
def ioStart (s : State) (pid : Nat) (write : Bool) (fd : Int) (valid : Bool) : Option State := do
  let t ← s.procs.get pid
  match fdOf fd with
  | none => return s
  | some fd =>
    match t.fds.get fd with
    | none => return s
    | some a =>
      let f ← s.files.get a
      if f.permits write && valid then
        return { incref s a with io := a :: s.io }
      else
        return s

/-- Their end. -/
def ioEnd (s : State) (a : Nat) : Option State := do
  guard (a ∈ s.io)
  let s ← deref s a
  return { s with io := s.io.erase a }

/-- The part of `process_exit` that frees the descriptors; the slots are not cleared, but
the process is no longer live. -/
def processExit (s : State) (pid : Nat) : Option State := do
  let t ← s.procs.get pid
  let s ← t.files.foldlM deref s
  return { s with procs := s.procs.erase pid }

/-- A system call, or the end of a read or write. -/
inductive Label
  | setup (pid f v : Nat)
  | open (pid : Nat) (ino : Option Nat) (readable writeable : Bool) (f v : Option Nat) (junk : File)
  | pipe (pid : Nat) (rfile wfile v : Option Nat) (bb : Bool) (junk junk' : File)
  | dup2 (pid : Nat) (oldfd newfd : Int)
  | close (pid : Nat) (fd : Int)
  | fork (pid child : Nat)
  | ioStart (pid : Nat) (write : Bool) (fd : Int) (valid : Bool)
  | ioEnd (f : Nat)
  | exit (pid : Nat)

/-- One step. -/
def step (s : State) : Label → Option State
  | .setup pid f v => setup s pid f v
  | .open pid ino readable writeable f v junk => sysOpen s pid ino readable writeable f v junk
  | .pipe pid rfile wfile v bb junk junk' => sysPipe s pid rfile wfile v bb junk junk'
  | .dup2 pid oldfd newfd => sysDup2 s pid oldfd newfd
  | .close pid fd => sysClose s pid fd
  | .fork pid child => sysFork s pid child
  | .ioStart pid write fd valid => ioStart s pid write fd valid
  | .ioEnd f => ioEnd s f
  | .exit pid => processExit s pid

/-- The state before the first `process_setup`. -/
def boot : State := ⟨.empty, .empty, .empty, [], [], []⟩

/-- The calls of any processes, one after the other. -/
def machine : Transition.Machine State Label where
  init s := s = boot
  step := step

end Vfs
end PugOS
