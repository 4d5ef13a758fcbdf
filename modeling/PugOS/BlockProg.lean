import PugOS.Bytes

/-! # Programs over a block cache

A file system reaches its disk through a cache of blocks: it takes a reference to a
block, which may fail, reads and stores bytes of the cached blocks, marks a block as
dirty, and gives the reference back.  `Prog` is the tree of these calls.  What they do
is up to an interpretation; `view` is the one in which every reference is granted and
only the contents of the blocks matter.
-/
namespace BlockProg
open Bytes Ring

/-- A program: the calls it makes, and what it goes on with. -/
inductive Prog (α : Type) : Type where
  | pure (a : α)
  /-- A failed assertion. -/
  | fail
  /-- Take a reference to block `bn`; the answer says whether there is one. -/
  | load (bn : Nat) (k : Bool → Prog α)
  /-- Give a reference to block `bn` back. -/
  | put (bn : Nat) (k : Prog α)
  /-- Mark block `bn` as dirty. -/
  | sully (bn : Nat) (k : Prog α)
  /-- Read the `n`-byte number at address `a`. -/
  | peek (a n : Nat) (k : Nat → Prog α)
  /-- Store bytes at address `a`. -/
  | store (a : Nat) (bytes : List UInt8) (k : Prog α)

variable {α β : Type}

namespace Prog

/-- The second program goes on where the first one ends; a failed assertion ends both. -/
def bind : Prog α → (α → Prog β) → Prog β
  | pure a, f => f a
  | fail, _ => fail
  | load bn k, f => load bn fun ok => (k ok).bind f
  | put bn k, f => put bn (k.bind f)
  | sully bn k, f => sully bn (k.bind f)
  | peek a n k, f => peek a n fun v => (k v).bind f
  | store a bytes k, f => store a bytes (k.bind f)

instance : Monad Prog where
  pure := Prog.pure
  bind := Prog.bind

/-- Programs form a monad. -/
theorem bind_assoc {γ : Type} (p : Prog α) (f : α → Prog β) (g : β → Prog γ) :
    p >>= f >>= g = p >>= fun a => f a >>= g := by
  change (p.bind f).bind g = p.bind fun a => (f a).bind g
  induction p with
  | pure a => rfl
  | fail => rfl
  | load bn k ih => exact congrArg (load bn) (funext fun ok => ih ok)
  | put bn k ih => exact congrArg (put bn) ih
  | sully bn k ih => exact congrArg (sully bn) ih
  | peek a n k ih => exact congrArg (peek a n) (funext fun v => ih v)
  | store a bytes k ih => exact congrArg (store a bytes) ih

end Prog

/-! ## Calls -/

/-- Take a reference to block `bn`: the block, if there is one. -/
def getEntry (bn : Nat) : Prog (Option Nat) :=
  .load bn fun ok => .pure (if ok then some bn else none)

/-- `put_entry`, of the entry of block `bn`. -/
def putEntry (bn : Nat) : Prog Unit := .put bn (.pure ())

/-- The block is to be written back: the lists of dirty entries, and `dirty`. -/
def sully (bn : Nat) : Prog Unit := .sully bn (.pure ())

/-- The number of `n` bytes at `a`. -/
def peek (a n : Nat) : Prog Nat := .peek a n .pure

/-- The bytes are written from `a` on. -/
def storeBytes (a : Nat) (bytes : List UInt8) : Prog Unit := .store a bytes (.pure ())

/-- A number of `n` bytes is written at `a`. -/
def poke (a n v : Nat) : Prog Unit := storeBytes a (toLE n v)

/-- `assert`. -/
def assert (c : Bool) : Prog Unit := if c then .pure () else .fail

/-! ## The contents alone -/

/-- Run a program on the contents of the blocks, with every reference granted. -/
def view : Prog α → Mem → Option (α × Mem)
  | .pure a, m => some (a, m)
  | .fail, _ => none
  | .load _ k, m => view (k true) m
  | .put _ k, m => view k m
  | .sully _ k, m => view k m
  | .peek a n k, m => view (k (getLE m a n)) m
  | .store a bytes k, m => view k (store m a bytes)

section View
variable (m : Mem)

/-- A program that does nothing has its result and leaves the blocks. -/
@[simp] theorem view_pure (a : α) : view (pure a) m = some (a, m) := rfl

/-- A program is followed by another one on the blocks it leaves. -/
@[simp] theorem view_bind (p : Prog α) (f : α → Prog β) :
    view (p >>= f) m = (view p m).bind fun x => view (f x.1) x.2 := by
  change view (p.bind f) m = _
  induction p generalizing m with
  | pure a => rfl
  | fail => rfl
  | load bn k ih => exact ih true m
  | put bn k ih => exact ih m
  | sully bn k ih => exact ih m
  | peek a n k ih => exact ih _ m
  | store a bytes k ih => exact ih _

/-- Where every load is granted, an entry is the number of its block. -/
@[simp] theorem view_getEntry (bn : Nat) : view (getEntry bn) m = some (some bn, m) := rfl

/-- References are not seen in the blocks. -/
@[simp] theorem view_putEntry (bn : Nat) : view (putEntry bn) m = some ((), m) := rfl

/-- Nor is what is to be written back. -/
@[simp] theorem view_sully (bn : Nat) : view (sully bn) m = some ((), m) := rfl

/-- What is read is what the blocks hold. -/
@[simp] theorem view_peek (a n : Nat) : view (peek a n) m = some (getLE m a n, m) := rfl

/-- What is written is there afterwards. -/
@[simp] theorem view_storeBytes (a : Nat) (bytes : List UInt8) :
    view (storeBytes a bytes) m = some ((), store m a bytes) := rfl

/-- A number is written as its bytes. -/
@[simp] theorem view_poke (a n v : Nat) : view (poke a n v) m = some ((), putLE m a n v) := by
  rw [poke, view_storeBytes, store_toLE]

/-- An assertion that holds does nothing. -/
theorem view_assert {c : Bool} (h : c = true) : view (assert c) m = some ((), m) := by
  rw [assert, if_pos h]
  rfl

end View

end BlockProg
