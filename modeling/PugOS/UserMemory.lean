import PugOS.PageMap

/-! # User memory in system calls

Before `sys_read` and `sys_write` go on to the vnode they check that the process may access the
memory it names.  `check_range` looks at one address of every entry the range meets.  What it is for
is said of every byte: `Allowed` asks each entry of a walk for the permissions.
-/
namespace PugOS.UserMemory
open PageTable

/-- `VA_LOWEND`. -/
def lowEnd : Nat := 2 ^ 47

/-- `VA_HIGHMAX`. -/
def highMax : Nat := 2 ^ 64 - 1

/-- The loop of `check_range`, up to address `stop`. -/
def checkLoop (t : Tables) (perms : Perm) (stop : Nat) : (fuel : Nat) → Vmiter → Option Bool
  | 0, _ => none
  | fuel + 1, it =>
    if it.va < stop then
      if it.permits t perms then checkLoop t perms stop fuel (it.step t) else some false
    else some true

/-- `it.check_range(sz, perms)`, given up after more rounds than the range has bytes. -/
def checkRange (t : Tables) (it : Vmiter) (sz : Nat) (perms : Perm) : Option Bool :=
  checkLoop t perms (wrap64 (it.va + sz)) (sz + 1) it

/-- `validate_memory(addr, sz, perms)` in a process with the page table. -/
def validateMemory (t : Tables) (pt addr sz : Nat) (perms : Perm) : Option Bool :=
  if addr = 0 ∨ wrap64 (addr + sz) > lowEnd ∨ addr > highMax - sz then some false
  else if sz > 0 then checkRange t (Vmiter.mk' t pt addr) sz perms
  else some true

/-- `sys_read` and `sys_write`. -/
inductive Call
  | read
  | write
  deriving DecidableEq

/-- `readable_` and `writeable_` of an open file. -/
structure Mode where
  readable : Bool
  writeable : Bool

/-- The call returns, or goes on to the file. -/
inductive Outcome
  | returns (r : Int)
  | proceeds
  deriving DecidableEq

/-- The error codes of the two. -/
def E_BADF : Int := -9
def E_FAULT : Int := -14

/-- `NFDS`. -/
def nfds : Nat := 256

/-- The permissions a call needs. -/
def Call.perms : Call → Perm
  | .read => pteP ||| pteU ||| pteW
  | .write => pteP ||| pteU

/-- The mode a call needs. -/
def Call.allows (c : Call) (m : Mode) : Bool :=
  match c with
  | .read => m.readable
  | .write => m.writeable

/-- `sys_read` and `sys_write`, up to the call of the vnode. -/
def sysReadWrite (c : Call) (fds : Nat → Option Mode) (t : Tables) (pt : Nat) (fd : Int)
    (addr sz : Nat) : Option Outcome :=
  if fd < 0 ∨ fd ≥ nfds then some (.returns E_BADF)
  else
    match fds fd.toNat with
    | none => some (.returns E_BADF)
    | some f =>
      if ¬ c.allows f then some (.returns E_BADF)
      else if sz = 0 then some (.returns 0)
      else if wrap64 (addr + sz) > lowEnd ∨ addr > highMax - sz then some (.returns E_FAULT)
      else
        (checkRange t (Vmiter.mk' t pt addr) sz c.perms).map fun ok => if ok then .proceeds
          else .returns E_FAULT

/-! ## Permissions of a byte -/

/-- The entries a walk to an address looks at, from a page on. -/
def walk (t : Tables) (va : Nat) : (level page : Nat) → List Entry
  | 0, page => [t page (pageindex va 0)]
  | level + 1, page =>
    t page (pageindex va (level + 1)) ::
      match (t page (pageindex va (level + 1))).next with
      | some pa => walk t va level pa
      | none => []

/-- The byte at the address is mapped with the permissions at every level of the walk. -/
def Allowed (t : Tables) (pt va : Nat) (perms : Perm) : Prop :=
  ∀ e ∈ walk t va 3 pt, e.flags &&& perms = perms

/-- The memory is in the low half, and every byte of it is mapped with the permissions. -/
structure Accessible (t : Tables) (pt addr sz : Nat) (perms : Perm) : Prop where
  noWrap : addr + sz < 2 ^ 64
  low : addr + sz ≤ lowEnd
  allowed : ∀ b, addr ≤ b → b < addr + sz → Allowed t pt b perms

section
variable {t : Tables} {pt addr sz a n : Nat} {perms : Perm}

theorem Accessible.part (h : Accessible t pt addr sz perms) (hle : addr ≤ a)
    (hend : a + n ≤ addr + sz) : Accessible t pt a n perms where
  noWrap := Nat.lt_of_le_of_lt hend h.noWrap
  low := Nat.le_trans hend h.low
  allowed b hb hlt := h.allowed b (Nat.le_trans hle hb) (Nat.lt_of_lt_of_le hlt hend)

theorem Accessible.append (h : Accessible t pt addr sz perms)
    (h' : Accessible t pt (addr + sz) n perms) : Accessible t pt addr (sz + n) perms where
  noWrap := by
    rw [← Nat.add_assoc]
    exact h'.noWrap
  low := by
    rw [← Nat.add_assoc]
    exact h'.low
  allowed b hb hlt := by
    rcases Nat.lt_or_ge b (addr + sz) with hin | hout
    · exact h.allowed b hb hin
    · exact h'.allowed b hout (by omega)

end

section
variable {t : Tables} {pt va level page : Nat} {perm perms : Perm}

theorem and_and_eq {a b c : Perm} : a &&& b &&& c = c ↔ a &&& c = c ∧ b &&& c = c := by
  constructor
  · intro h
    constructor
    · calc a &&& c = a &&& (a &&& b &&& c) := by rw [h]
        _ = a &&& b &&& c := by rw [← BitVec.and_assoc, ← BitVec.and_assoc, BitVec.and_self]
        _ = c := h
    · calc b &&& c = b &&& (b &&& a &&& c) := by rw [BitVec.and_comm b a, h]
        _ = b &&& a &&& c := by rw [← BitVec.and_assoc, ← BitVec.and_assoc, BitVec.and_self]
        _ = c := by rw [BitVec.and_comm b a, h]
  · rintro ⟨ha, hb⟩
    rw [BitVec.and_assoc, hb, ha]

/-- The accumulated permissions and the last entry are all entries of the walk. -/
theorem down_permits : ∀ {level page : Nat} {perm : Perm} {p : Place}, down t va level page
    (pageindex va level) perm = p → ((t p.page p.index).flags &&& p.perm &&& perms = perms ↔
      perm &&& perms = perms ∧ ∀ e ∈ walk t va level page, e.flags &&& perms = perms) := by
  intro level
  induction level with
  | zero =>
    rintro page perm p rfl
    rw [and_and_eq, and_comm]
    refine and_congr_right fun _ => ?_
    exact (List.forall_mem_singleton (p := fun e : Entry => e.flags &&& perms = perms)).symm
  | succ level ih =>
    intro page perm p hp
    unfold walk
    rw [List.forall_mem_cons]
    cases hnext : (t page (pageindex va (level + 1))).next with
    | none =>
      rw [down_stop hnext] at hp
      subst hp
      rw [and_and_eq, and_comm]
      exact and_congr_right fun _ =>
        ⟨fun h => ⟨h, fun _ he => absurd he List.not_mem_nil⟩, fun h => h.1⟩
    | some pa =>
      rw [down_next hnext] at hp
      rw [ih hp, and_and_eq, and_assoc]

theorem permits_mk' (t : Tables) (pt va : Nat) (perms : Perm) :
    (Vmiter.mk' t pt va).permits t perms = true ↔ Allowed t pt va perms := by
  unfold Vmiter.permits Vmiter.entry
  rw [mk'_eq, decide_eq_true_iff]
  have hinit : initialPerm &&& perms = perms := BitVec.allOnes_and
  exact (down_permits rfl).trans (and_iff_right hinit)

/-! ## The loop -/

theorem lt_next_span : va < (va / span level + 1) * span level := by
  rw [Nat.mul_comm]
  exact Nat.lt_mul_div_succ va (span_pos level)

theorem next_span_le (hle : level ≤ 3) (hva : va < lowEnd) :
    (va / span level + 1) * span level ≤ lowEnd := by
  unfold lowEnd span at *
  interval_cases level <;> omega

theorem div_span_eq {x : Nat} (hle : va ≤ x) (hlt : x < (va / span level + 1) * span level) :
    x / span level = va / span level := by
  apply Nat.le_antisymm
  · exact Nat.lt_succ_iff.mp ((Nat.div_lt_iff_lt_mul (span_pos level)).mpr hlt)
  · exact Nat.div_le_div_right hle

/-- **`step` skips no byte that may be otherwise than the one it leaves.** -/
theorem step_mk' (hva : va < lowEnd) : ∃ va', (Vmiter.mk' t pt va).step t = Vmiter.mk' t pt va' ∧
    va < va' ∧ ∀ b, va ≤ b → b < va' → (Allowed t pt b perms ↔ Allowed t pt va perms) := by
  have hle := locate_level_le t pt va
  have hnext := next_span_le hle hva
  refine ⟨(va / span (locate t pt va).level + 1) * span (locate t pt va).level, ?_, lt_next_span,
    fun b hb hb' => ?_⟩
  · have hfresh : (Vmiter.mk pt va (locate t pt va)).Fresh t := rfl
    rw [mk'_eq, mk'_eq]
    have hlast : (Vmiter.mk pt va (locate t pt va)).lastVa =
        (va / span (locate t pt va).level + 1) * span (locate t pt va).level :=
      wrap64_eq (Nat.lt_of_le_of_lt hnext (by decide))
    exact (find_eq hfresh _).trans (by rw [hlast])
  · have hsame : locate t pt b = locate t pt va := locate_eq_of_stop rfl (div_span_eq hb hb')
    rw [← permits_mk', ← permits_mk']
    unfold Vmiter.permits Vmiter.entry
    rw [mk'_eq, mk'_eq, hsame]

/-- **`check_range` ends, and has looked at every byte.** -/
theorem checkLoop_spec {stop : Nat} (hstop : stop ≤ lowEnd) : ∀ {fuel va : Nat}, stop - va < fuel →
    ∃ r, checkLoop t perms stop fuel (Vmiter.mk' t pt va) = some r ∧
      (r = true ↔ ∀ b, va ≤ b → b < stop → Allowed t pt b perms) := by
  intro fuel
  induction fuel with
  | zero => exact fun {_} h => absurd h (Nat.not_lt_zero _)
  | succ fuel ih =>
    intro va hfuel
    unfold checkLoop
    have hmk : (Vmiter.mk' t pt va).va = va := by rw [mk'_eq]
    rw [hmk]
    by_cases hlt : va < stop
    · rw [if_pos hlt]
      by_cases hperm : (Vmiter.mk' t pt va).permits t perms = true
      · rw [if_pos hperm]
        obtain ⟨va', hstep, hmore, hsame⟩ := @step_mk' t pt _ perms (Nat.lt_of_lt_of_le hlt hstop)
        have hpermits := (permits_mk' t pt va perms).mp hperm
        obtain ⟨r, hrun, hr⟩ := @ih va' (by omega)
        rw [hstep]
        refine ⟨r, hrun,
          hr.trans ⟨fun h b hb hb' => ?_, fun h b hb hb' =>
          h b (Nat.le_trans (Nat.le_of_lt hmore) hb) hb'⟩⟩
        rcases Nat.lt_or_ge b va' with hbefore | hafter
        · exact (hsame b hb hbefore).mpr hpermits
        · exact h b hafter hb'
      · rw [if_neg hperm]
        refine ⟨false, rfl, iff_of_false Bool.false_ne_true fun h => hperm ?_⟩
        exact (permits_mk' t pt va perms).mpr (h va (Nat.le_refl va) hlt)
    · rw [if_neg hlt]
      exact ⟨true, rfl, iff_of_true rfl fun b hb hb' => absurd (Nat.lt_of_le_of_lt hb hb') hlt⟩

/-! ## The checks -/

section Checks
variable {addr sz : Nat} (haddr : addr < 2 ^ 64) (hsz : sz < 2 ^ 64)
include haddr hsz

/-- The two comparisons before `check_range`. -/
theorem guard_iff : (wrap64 (addr + sz) > lowEnd ∨ addr > highMax - sz) ↔
    ¬ (addr + sz < 2 ^ 64 ∧ addr + sz ≤ lowEnd) := by
  unfold wrap64 lowEnd highMax
  omega

omit haddr hsz in
theorem checkRange_spec (hlow : addr + sz ≤ lowEnd) :
    ∃ r, checkRange t (Vmiter.mk' t pt addr) sz perms = some r ∧
    (r = true ↔ ∀ b, addr ≤ b → b < addr + sz → Allowed t pt b perms) := by
  unfold checkRange
  have hmk : (Vmiter.mk' t pt addr).va = addr := by rw [mk'_eq]
  have hwrap : wrap64 (addr + sz) = addr + sz := wrap64_eq (Nat.lt_of_le_of_lt hlow (by decide))
  rw [hmk, hwrap]
  exact checkLoop_spec hlow (by omega)

/-- What the checks with `check_range` together say. -/
theorem checks_spec : ∃ r, (if wrap64 (addr + sz) > lowEnd ∨ addr > highMax - sz then some false
      else checkRange t (Vmiter.mk' t pt addr) sz perms) = some r ∧
        (r = true ↔ Accessible t pt addr sz perms) := by
  by_cases hguard : wrap64 (addr + sz) > lowEnd ∨ addr > highMax - sz
  · rw [if_pos hguard]
    refine ⟨false, rfl, iff_of_false Bool.false_ne_true fun h => ?_⟩
    exact (guard_iff haddr hsz).mp hguard ⟨h.noWrap, h.low⟩
  · rw [if_neg hguard]
    obtain ⟨hwrap, hlow⟩ := Decidable.not_not.mp (mt (guard_iff haddr hsz).mpr hguard)
    obtain ⟨r, hrun, hr⟩ := @checkRange_spec t pt _ _ _ hlow
    exact ⟨r, hrun, hr.trans ⟨fun h => ⟨hwrap, hlow, h⟩, fun h => h.allowed⟩⟩

/-- **`validate_memory`** looks at every byte, and at whether the address is null. -/
theorem validateMemory_spec : ∃ r, validateMemory t pt addr sz perms = some r ∧
    (r = true ↔ addr ≠ 0 ∧ Accessible t pt addr sz perms) := by
  unfold validateMemory
  by_cases hzero : addr = 0
  · rw [if_pos (.inl hzero)]
    exact ⟨false, rfl, iff_of_false Bool.false_ne_true fun h => h.1 hzero⟩
  · rw [if_congr (or_iff_right hzero) rfl rfl]
    obtain ⟨r, hrun, hr⟩ := @checks_spec t pt perms addr sz haddr hsz
    by_cases hpos : sz > 0
    · rw [if_pos hpos]
      exact ⟨r, hrun, hr.trans (and_iff_right hzero).symm⟩
    · rw [if_neg hpos]
      obtain rfl : sz = 0 := Nat.eq_zero_of_not_pos hpos
      by_cases hguard : wrap64 (addr + (0 : Nat)) > lowEnd ∨ addr > highMax - 0
      · rw [if_pos hguard]
        refine ⟨false, rfl, iff_of_false Bool.false_ne_true fun h => ?_⟩
        exact (guard_iff haddr hsz).mp hguard ⟨h.2.noWrap, h.2.low⟩
      · rw [if_neg hguard]
        obtain ⟨hwrap, hlow⟩ := Decidable.not_not.mp (mt (guard_iff haddr hsz).mpr hguard)
        exact ⟨true, rfl,
          iff_of_true rfl ⟨hzero, hwrap, hlow, fun b hb hb' => absurd hb' (Nat.not_lt_of_le hb)⟩⟩

end Checks

/-- **A system call touches only memory the process may access**: `sys_read` and `sys_write` on a
descriptor of the right mode go on to the vnode if all the memory is accessible, else they return
`E_FAULT`; `validate_memory` accepts the same memory but for address 0; and `check_range` ends in
either. -/
theorem sysReadWrite_iff (c : Call) {fds : Nat → Option Mode} (t : Tables) (pt : Nat) {fd : Int}
    {m : Mode} {addr sz : Nat} (hfd : 0 ≤ fd) (hnfds : fd < nfds) (hfile : fds fd.toNat = some m)
    (hmode : c.allows m = true) (haddr : addr < 2 ^ 64) (hsz : sz < 2 ^ 64) (hpos : 0 < sz)
    (perms : Perm) : (sysReadWrite c fds t pt fd addr sz = some .proceeds ↔
    Accessible t pt addr sz c.perms) ∧
      (sysReadWrite c fds t pt fd addr sz = some (.returns E_FAULT) ↔
        ¬ Accessible t pt addr sz c.perms) ∧
      ∃ r, validateMemory t pt addr sz perms = some r ∧
      (r = true ↔ addr ≠ 0 ∧ Accessible t pt addr sz perms) := by
  obtain ⟨r, hrun, hr⟩ := @checks_spec t pt c.perms _ _ haddr hsz
  have hcall : sysReadWrite c fds t pt fd addr sz = some (if r then .proceeds
      else .returns E_FAULT) := by
    unfold sysReadWrite
    rw [if_neg (by omega), hfile]
    dsimp only
    rw [if_neg (not_not.mpr hmode), if_neg (Nat.ne_of_gt hpos)]
    split at hrun
    · rename_i hguard
      rw [if_pos hguard, ← Option.some.inj hrun]
      rfl
    · rename_i hguard
      rw [if_neg hguard, hrun]
      rfl
  refine ⟨?_, ?_, ?_⟩
  · rw [hcall, ← hr]
    cases r with
    | false => simp
    | true => simp
  · rw [hcall, ← hr]
    cases r with
    | false => simp
    | true => simp
  · exact validateMemory_spec haddr hsz

/-- All addresses are mapped to one page. -/
theorem sysReadWrite_iff_twoPages :
    let t : Tables :=
      fun page _ => if page = 0x4000 then ⟨0x9000, ptePWU⟩ else ⟨page + 0x1000, ptePWU⟩
    let fds : Nat → Option Mode := fun fd => if fd = 0 then some ⟨true, false⟩ else none
    (sysReadWrite .read fds t 0x1000 0 0x1ff0 0x20 = some .proceeds ↔
      Accessible t 0x1000 0x1ff0 0x20 Call.read.perms) ∧
      (sysReadWrite .read fds t 0x1000 0 0x1ff0 0x20 = some (.returns E_FAULT) ↔
        ¬ Accessible t 0x1000 0x1ff0 0x20 Call.read.perms) ∧
      ∃ r, validateMemory t 0x1000 0x1ff0 0x20 ptePWU = some r ∧
        (r = true ↔ 0x1ff0 ≠ 0 ∧ Accessible t 0x1000 0x1ff0 0x20 ptePWU) := by
  intro t fds
  exact @sysReadWrite_iff .read fds t 0x1000 _ ⟨true, false⟩ _ _ (by decide) (by decide) rfl rfl
    (by decide) (by decide) (by decide) ptePWU

end
end PugOS.UserMemory
