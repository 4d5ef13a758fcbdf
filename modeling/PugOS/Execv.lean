import PugOS.ElfLoad
import PugOS.InitRanges

/-! # `sys_execv`

The checks of the name and of `argv`, the allocation of a page table and a stack page, `load`, the
copy of the arguments to the top of the stack page, and the registers the program starts with.

The loop over `argv` leaves itself when it finds something wrong, not the call.  What comes after it
reads the strings it has not accepted.
-/
namespace PugOS.PageTable
open Bytes UserMemory

namespace Exec
open Elf

/-- An argument is not valid. -/
def E_INVAL : Int := -22

/-- `memfile::namesize`. -/
def namesize : Nat := 64

/-- `MEMSIZE_VIRTUAL`. -/
def memsizeVirtual : Nat := 30 * 1024 * 1024

/-! ## User memory -/

section Read
variable (t : Tables) (pt : Nat) (m : Mem)

/-- A byte of the address space.  No result is a page fault. -/
def readByte (v : Nat) : Option UInt8 := (translation t pt v).1.map m

/-- `n` bytes from `v` on, as the process has them mapped. -/
def readBytes (v : Nat) : Nat → Option (List UInt8)
  | 0 => some []
  | n + 1 => (readByte t pt m v).bind fun b => (readBytes (v + 1) n).map (b :: ·)

/-- The pointer at `v`. -/
def readWord (v : Nat) : Option Nat := (readBytes t pt m v 8).map fun bytes => field bytes 0 8

/-- More characters than there are addresses. -/
def strlenRounds : Nat := 2 ^ 64

/-- The loop of `strlen`. -/
def strlenLoop : (rounds : Nat) → (v : Nat) → Option Nat
  | 0, _ => none
  | rounds + 1, v =>
    (readByte t pt m v).bind fun c => if c = 0 then some 0
      else (strlenLoop rounds (v + 1)).map (· + 1)

/-- `strlen`. -/
def strlen (v : Nat) : Option Nat := strlenLoop t pt m strlenRounds v

/-- The loop of `check_string_termination`, with the rounds it has left. -/
def stringLoop (str : Nat) : (rounds : Nat) → (i : Nat) → Option Int
  | 0, _ => some E_INVAL
  | rounds + 1, i =>
    (validateMemory t pt (wrap64 (str + i)) 1 (pteP ||| pteU)).bind fun ok =>
      if ok then
        (readByte t pt m (wrap64 (str + i))).bind fun c => if c = 0 then some i
          else stringLoop str rounds (i + 1)
      else some E_FAULT

/-- `check_string_termination(str, max_len)`. -/
def checkStringTermination (str maxLen : Nat) : Option Int :=
  if str = 0 then some E_FAULT else stringLoop t pt m str maxLen 0

/-! ## The checks -/

/-- How the checks end.  They pass with the index the loop over `argv` has come to, or they read an
entry of `argv` that has not been validated, or the loop does not end. -/
inductive Checked
  | fails (r : Int)
  | passes (i : Nat)
  | unvalidated
  | diverges
  deriving DecidableEq

/-- The rounds before the index, of 32 bits, is 0 again. -/
def indexRounds : Nat := 2 ^ 32

/-- The loop over `argv`, of which `valid` bytes have been validated. -/
def argvLoop (argv argc valid : Nat) : (rounds : Nat) → (i : Nat) → Option Checked
  -- the index is 0 again, and nothing has changed
  | 0, _ => some .diverges
  | rounds + 1, i =>
    if i < wrap64 (argc + 1) then
      if 8 * i + 8 ≤ valid then
        (readWord t pt m (wrap64 (argv + 8 * i))).bind fun p =>
          if i = argc then
            if p ≠ 0 then some (.passes i) else argvLoop argv argc valid rounds (i + 1)
          else
            (checkStringTermination t pt m p namesize).bind fun r =>
              -- the `break` is one of this loop
              if r < 0 then some (.passes i) else argvLoop argv argc valid rounds (i + 1)
      else some .unvalidated
    else some (.passes i)

/-- The checks of the name and of `argv`. -/
def checks (name argv argc : Nat) : Option Checked :=
  (checkStringTermination t pt m name namesize).bind fun r =>
    if r < 0 then some (.fails r)
    else if argc < 1 then some (.fails E_INVAL)
    else
      let valid := wrap64 ((argc + 1) * 8)
      (validateMemory t pt argv valid (pteP ||| pteU)).bind fun ok =>
        if ok then
          if 8 ≤ valid then
            (readWord t pt m argv).bind fun p =>
              if p = 0 then some (.fails E_INVAL) else argvLoop t pt m argv argc valid indexRounds 0
          else some .unvalidated
        else some (.fails E_FAULT)

/-! ## The arguments -/

/-- The loop that adds up the lengths of the strings, from the `i`th on. -/
def argvLen (argv : Nat) : (n : Nat) → (i : Nat) → Option Nat
  | 0, _ => some 0
  | n + 1, i =>
    (readWord t pt m (argv + 8 * i)).bind fun p =>
      (strlen t pt m p).bind fun len => (argvLen argv n (i + 1)).map (len + 1 + ·)

end Read

/-- The memory, and what has been written of it while the arguments are copied: where, as a physical
address, and how much. Below physical address 0 the kernel has no memory. -/
structure Copy where
  mem : Mem
  log : List (Int × Nat)

/-- Bytes are written, and the write is logged; below address 0 there is no memory. -/
def Copy.write (c : Copy) (a : Int) (bytes : List UInt8) : Option Copy :=
  if 0 ≤ a then some ⟨Ring.store c.mem a.toNat bytes, c.log ++ [(a, bytes.length)]⟩ else none

/-- The loop that copies the strings, and the pointers to them, to below `stkpg_top`. -/
def copyLoop (t : Tables) (pt argv stkpgTop memDiff szPtrs : Nat) : (n : Nat) → (i argLen : Nat) →
    Copy → Option Copy
  | 0, _, _, c => some c
  | n + 1, i, argLen, c =>
    (readWord t pt c.mem (argv + 8 * i)).bind fun p =>
      (strlen t pt c.mem p).bind fun len =>
        (readBytes t pt c.mem p (len + 1)).bind fun bytes =>
          (c.write (stkpgTop - memDiff + szPtrs + argLen) bytes).bind fun c =>
            (c.write (stkpgTop - memDiff + 8 * i)
              (toLE 8 (wrap64 (memsizeVirtual - memDiff + szPtrs + argLen)))).bind fun c =>
              (readWord t pt c.mem (argv + 8 * i)).bind fun p =>
                (strlen t pt c.mem p).bind fun len =>
                  copyLoop t pt argv stkpgTop memDiff szPtrs n (i + 1) (argLen + (len + 1)) c

/-- `mem_diff`, for the sum of the lengths of the strings. -/
def memDiff (argvLen argc : Nat) : Nat :=
  (if argvLen % 8 ≠ 0 then (argvLen / 8 + 1) * 8 else argvLen) + 8 * (argc + 1)

/-- The arguments, copied to the stack page. -/
def copyArgs (t : Tables) (pt argv argc stkpg : Nat) (m : Mem) : Option (Nat × Copy) :=
  (argvLen t pt m argv argc 0).bind fun len =>
    let diff := memDiff len argc
    let szPtrs := 8 * (argc + 1)
    let stkpgTop := stkpg + pageSize
    (copyLoop t pt argv stkpgTop diff szPtrs argc 0 0 ⟨m, []⟩).bind fun c =>
      (c.write (stkpgTop - diff + szPtrs - 8) (toLE 8 0)).map fun c => (diff, c)

/-- The registers that `sys_execv` sets. -/
structure Regs where
  rip : Nat
  rdi : Nat
  rsi : Nat
  rsp : Nat
  rbp : Nat
  deriving DecidableEq

/-- `%rsp`, below the arguments. -/
def stackPointer (diff : Nat) : Nat :=
  let belowArgv := wrap64 (memsizeVirtual - diff - 8)
  if belowArgv % 16 ≠ 0 then wrap64 (((belowArgv / 16 : Nat) - 1) * 16) else belowArgv

/-! ## The call -/

/-- How the call ends: it returns, or reads what has not been validated, or does not end, or a
program starts to run, with a page table, a stack page and registers. -/
inductive Outcome (σ : Type)
  | returns (r : Int) (k : State σ)
  | unvalidated
  | diverges
  | runs (npt stkpg : Nat) (log : List (Int × Nat)) (regs : Regs) (k : State σ)

section Call
variable {σ : Type}

/-- `kdelete`. -/
def kdelete (al : Allocator σ) (s : σ) : Option Nat → Option σ
  | none => some s
  | some page => al.kfree s page

/-- The copy of the arguments, and the new address space and registers. -/
def start (al : Allocator σ) (pt argv argc npt stkpg entry : Nat) (k : State σ) :
    Option (Outcome σ) :=
  (copyArgs k.tables pt argv argc stkpg k.mem).bind fun (diff, c) =>
    (map al.kallocpage k.tables k.heap (Vmiter.mk' k.tables npt (memsizeVirtual - pageSize)) stkpg
      ptePWU).bind fun (t, s, ok) =>
      if ok then
        (map al.kallocpage t s (Vmiter.mk' t npt consolePa) consolePa ptePWU).bind fun (t, s, ok) =>
          if ok then
            some (.runs npt stkpg c.log
              ⟨entry, argc, wrap64 (memsizeVirtual - diff), stackPointer diff, stackPointer diff⟩
              ⟨t, c.mem, s⟩)
          else none
      else none

/-- `sys_execv` of a process with page table `pt`, up to where the old page table is freed.  No
result is a panic. -/
def sysExecv (al : Allocator σ) (dl : Loader al.toPageSource) (early pt name argv argc : Nat)
    (k : State σ) : Option (Outcome σ) :=
  (checks k.tables pt k.mem name argv argc).bind fun c =>
    match c with
    | .fails r => some (.returns r k)
    | .unvalidated => some .unvalidated
    | .diverges => some .diverges
    | .passes i =>
      (kallocPagetable al.kallocpage early k.tables k.heap).bind fun (t, s, npt) =>
        (al.kallocpage s).bind fun (s, stkpg) =>
          match npt, stkpg with
          | some npt, some stkpg =>
            (load dl npt { k with tables := t, heap := s }).bind fun (k, r) =>
              match r with
              | .error e => some (.returns e k)
              | .ok entry =>
                -- the sum of the lengths reads every string
                if i < argc then some .unvalidated else start al pt argv argc npt stkpg entry k
          | npt, stkpg =>
            (kdelete al s npt).bind fun s =>
              (kdelete al s stkpg).map fun s => .returns E_NOMEM { k with tables := t, heap := s }

end Call

end Exec
end PugOS.PageTable
