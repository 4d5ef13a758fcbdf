import PugOS.Execv

/-! # What `sys_execv` checks

A string is checked byte by byte, so what `check_string_termination` accepts is a string of the
process (`checkStringTermination_spec`).  The loop over `argv` stops at the first entry that has
none, which it may have validated or not, and it never stops if the end of `argv` is beyond its
index (`checks_spec`).
-/
namespace PugOS.PageTable
open Bytes UserMemory

namespace Exec
open Elf

/-! ## Arguments -/

section Defs
variable (t : Tables) (pt : Nat) (m : Mem)

/-- A string of the process: fewer than `namesize` characters that are not null, and a null, which
the process may read. -/
structure UserString (v : Nat) (s : List UInt8) : Prop where
  nonnull : v ≠ 0
  accessible : Accessible t pt v (s.length + 1) (pteP ||| pteU)
  bytes : readBytes t pt m v (s.length + 1) = some (s ++ [0])
  nonzero : 0 ∉ s
  short : s.length < namesize

/-- The arguments at `argv`: a pointer to each of the strings, and a null pointer. -/
structure Args (argv : Nat) (args : List (List UInt8)) : Prop where
  nonnull : argv ≠ 0
  accessible : Accessible t pt argv (8 * (args.length + 1)) (pteP ||| pteU)
  strings : ∀ i s, args[i]? = some s → ∃ p, readWord t pt m (argv + 8 * i) = some p ∧
    UserString t pt m p s
  null : readWord t pt m (argv + 8 * args.length) = some 0

/-- The `j`th entry of `argv` points to a string. -/
def HasString (argv j : Nat) : Prop :=
  ∃ p s, readWord t pt m (argv + 8 * j) = some p ∧ UserString t pt m p s

/-- The name, or `argv` as a whole, is refused. -/
def Refused (name argv argc : Nat) : Prop :=
  (¬ ∃ s, UserString t pt m name s) ∨ argc = 0 ∨
    ¬ (argv ≠ 0 ∧ Accessible t pt argv (wrap64 ((argc + 1) * 8)) (pteP ||| pteU)) ∨
    (8 ≤ wrap64 ((argc + 1) * 8) ∧ readWord t pt m argv = some 0)

/-- The loop over `argv` ends: it comes to the end of `argv`, or to an entry that points to no
string, and has read nothing but the `valid` bytes. -/
def Ends (argv argc valid : Nat) : Prop :=
  ∃ b ≤ argc, b < indexRounds ∧ 8 * b + 8 ≤ valid ∧ (∀ j < b, HasString t pt m argv j) ∧
    (b < argc → ¬ HasString t pt m argv b) ∧
    (b = argc → readWord t pt m (argv + 8 * argc) = some 0 → argc + 1 < indexRounds)

end Defs

/-! ## Reading -/

section Read
variable {t : Tables} {pt : Nat} {m : Mem} {v n k : Nat}

/-- A byte the process may read is mapped. -/
theorem readByte_of_allowed (h : Allowed t pt v (pteP ||| pteU)) :
    ∃ c, readByte t pt m v = some c := by
  have hperm := (permits_iff (by decide)).mp ((permits_mk' t pt v _).mpr h)
  unfold readByte
  cases hpa : (translation t pt v).1 with
  | some pa => exact ⟨m pa, rfl⟩
  | none =>
    rw [translation_eq rfl rfl] at hpa hperm
    split at hpa
    · cases hpa
    · rename_i habsent
      rw [if_neg habsent] at hperm
      exact absurd hperm not_user_zero

theorem readBytes_of_allowed :
    ∀ {n v : Nat}, (∀ b, v ≤ b → b < v + n → Allowed t pt b (pteP ||| pteU)) →
    ∃ bytes, readBytes t pt m v n = some bytes ∧ bytes.length = n := by
  intro n
  induction n with
  | zero => exact fun {_} _ => ⟨[], rfl, rfl⟩
  | succ n ih =>
    intro v h
    obtain ⟨c, hc⟩ := @readByte_of_allowed t pt m v (h v (Nat.le_refl v) (by omega))
    obtain ⟨bytes, hbytes, hlen⟩ := @ih (v + 1) fun b hb hlt => h b (by omega) (by omega)
    refine ⟨c :: bytes, ?_, by rw [List.length_cons, hlen]⟩
    unfold readBytes
    rw [hc, Option.bind_some, hbytes]
    rfl

theorem readWord_of_accessible (h : Accessible t pt v 8 (pteP ||| pteU)) :
    ∃ p, readWord t pt m v = some p ∧ p < 2 ^ 64 := by
  obtain ⟨bytes, hbytes, -⟩ := @readBytes_of_allowed t pt m 8 v h.allowed
  refine ⟨field bytes 0 8, ?_, getLE_lt _ 0 8⟩
  unfold readWord
  rw [hbytes]
  rfl

theorem readBytes_append : ∀ {a v : Nat}, readBytes t pt m v (a + k) =
    (readBytes t pt m v a).bind fun x => (readBytes t pt m (v + a) k).map (x ++ ·) := by
  intro a
  induction a with
  | zero =>
    intro v
    rw [Nat.zero_add, readBytes, Option.bind_some]
    exact Option.map_id'.symm
  | succ a ih =>
    intro v
    rw [Nat.succ_add, readBytes, readBytes, ih, Nat.add_assoc, Nat.add_comm 1 a]
    cases readByte t pt m v with
    | none => rfl
    | some c =>
      cases readBytes t pt m (v + 1) a with
      | none => rfl
      | some x =>
        cases readBytes t pt m (v + (a + 1)) k with
        | none => rfl
        | some y => rfl

theorem readBytes_length : ∀ {n v : Nat} {bytes : List UInt8}, readBytes t pt m v n = some bytes →
    bytes.length = n := by
  intro n
  induction n with
  | zero =>
    intro v bytes h
    cases h
    rfl
  | succ n ih =>
    intro v bytes h
    obtain ⟨c, -, h⟩ := Option.bind_eq_some_iff.mp h
    obtain ⟨rest, hrest, rfl⟩ := Option.map_eq_some_iff.mp h
    rw [List.length_cons, ih hrest]

/-- What is read first. -/
theorem readBytes_prefix {bytes pre : List UInt8} (h : readBytes t pt m v n = some bytes)
    (hk : k ≤ n) (hpre : readBytes t pt m v k = some pre) : pre <+: bytes := by
  obtain ⟨j, rfl⟩ := Nat.exists_eq_add_of_le hk
  rw [readBytes_append, hpre, Option.bind_some] at h
  obtain ⟨rest, -, rfl⟩ := Option.map_eq_some_iff.mp h
  exact List.prefix_append pre rest

theorem readBytes_snoc {pre : List UInt8} {c : UInt8} (hpre : readBytes t pt m v n = some pre)
    (hc : readByte t pt m (v + n) = some c) : readBytes t pt m v (n + 1) = some (pre ++ [c]) := by
  rw [readBytes_append, hpre, Option.bind_some]
  unfold readBytes
  rw [hc]
  rfl

end Read

/-! ## The checks -/

section Checks
variable {t : Tables} {pt : Nat} {m : Mem} {v name argv argc valid : Nat}

/-- A string is no longer than the bytes before its null. -/
theorem UserString.not_before {s pre : List UInt8} {n : Nat} (h : UserString t pt m v s)
    (hpre : readBytes t pt m v n = some pre) (hnull : 0 ∉ pre) : n ≤ s.length := by
  by_contra hlt
  have hle : s.length + 1 ≤ n := Nat.not_le.mp hlt
  have hbytes := readBytes_prefix hpre hle h.bytes
  exact hnull (hbytes.subset (List.mem_append_right _ List.mem_cons_self))

theorem stringLoop_spec (hv : v ≠ 0) : ∀ {rounds i : Nat} {pre : List UInt8}, i + rounds =
    namesize → v + i < 2 ^ 64 → (0 < i → Accessible t pt v i (pteP ||| pteU)) →
    readBytes t pt m v i = some pre → 0 ∉ pre → ∃ r, stringLoop t pt m v rounds i = some r ∧
    (¬ r < 0 ↔ ∃ s, UserString t pt m v s) := by
  intro rounds
  induction rounds with
  | zero =>
    intro i pre hrounds hlt hacc hpre hnull
    refine ⟨E_INVAL, rfl, iff_of_false (by decide) ?_⟩
    rintro ⟨s, hs⟩
    have hle := hs.not_before hpre hnull
    have hshort := hs.short
    omega
  | succ rounds ih =>
    intro i pre hrounds hlt hacc hpre hnull
    have hwrap : wrap64 ((v : Int) + (i : Int)) = v + i := by
      rw [← Nat.cast_add]
      exact wrap64_eq hlt
    obtain ⟨ok, hrun, hok⟩ := @validateMemory_spec t pt (pteP ||| pteU) (v + i) 1 hlt (by decide)
    unfold stringLoop
    rw [hwrap, hrun, Option.bind_some]
    by_cases h : ok = true
    · rw [if_pos h]
      have hone := (hok.mp h).2
      have hnext : Accessible t pt v (i + 1) (pteP ||| pteU) := by
        rcases Nat.eq_zero_or_pos i with rfl | hpos
        · exact hone
        · exact Accessible.append (hacc hpos) hone
      obtain ⟨c, hc⟩ :=
        @readByte_of_allowed t pt m (v + i) (hone.allowed _ (Nat.le_refl _) (Nat.lt_succ_self _))
      have hbytes := readBytes_snoc hpre hc
      rw [hc, Option.bind_some]
      by_cases hzero : c = 0
      · rw [if_pos hzero]
        have hlen : pre.length = i := readBytes_length hpre
        refine ⟨i, rfl, iff_of_true (Int.not_lt.mpr (Int.natCast_nonneg i)) ⟨pre, hv, ?_, ?_,
          hnull, ?_⟩⟩
        · rw [hlen]
          exact hnext
        · rw [hlen, hbytes, hzero]
        · omega
      · rw [if_neg hzero]
        refine ih (by omega) ?_ (fun _ => hnext) hbytes ?_
        · exact hnext.noWrap
        · rw [List.mem_append, List.mem_singleton]
          rintro (hin | heq)
          · exact hnull hin
          · exact hzero heq.symm
    · rw [if_neg h]
      refine ⟨E_FAULT, rfl, iff_of_false (by decide) ?_⟩
      rintro ⟨s, hs⟩
      have hle := hs.not_before hpre hnull
      exact h (hok.mpr ⟨by omega, hs.accessible.part (Nat.le_add_right v i) (by omega)⟩)

/-- **`check_string_termination`** accepts the strings of the process. -/
theorem checkStringTermination_spec (hlt : v < 2 ^ 64) :
    ∃ r, checkStringTermination t pt m v namesize = some r ∧
      (¬ r < 0 ↔ ∃ s, UserString t pt m v s) := by
  unfold checkStringTermination
  by_cases hv : v = 0
  · rw [if_pos hv]
    refine ⟨E_FAULT, rfl, iff_of_false (by decide) ?_⟩
    rintro ⟨s, hs⟩
    exact hs.nonnull hv
  · rw [if_neg hv]
    exact stringLoop_spec hv (Nat.zero_add _) hlt (fun h => absurd h (Nat.lt_irrefl 0)) rfl
      List.not_mem_nil

/-- **The loop over `argv`**, from an entry on before which all have strings. -/
theorem argvLoop_spec (hacc : Accessible t pt argv valid (pteP ||| pteU))
    (hargc : argc + 1 < 2 ^ 64) : ∀ {rounds i : Nat}, i + rounds = indexRounds → i ≤ argc →
    (∀ j < i, HasString t pt m argv j) → ∃ c, argvLoop t pt m argv argc valid rounds i = some c ∧
    (∀ r, c ≠ .fails r) ∧
      ((∃ n, c = .passes n) ↔ Ends t pt m argv argc valid) ∧ ∀ n, c = .passes n → n < argc →
      ¬ HasString t pt m argv n := by
  intro rounds
  induction rounds with
  | zero =>
    intro i hrounds hle hstrings
    refine ⟨.diverges, rfl, nofun, iff_of_false nofun ?_, nofun⟩
    rintro ⟨b, hb, hindex, -, -, hno, -⟩
    have hlt : b < i := Nat.lt_of_lt_of_le hindex (Nat.le_of_eq hrounds.symm)
    exact hno (Nat.lt_of_lt_of_le hlt hle) (hstrings b hlt)
  | succ rounds ih =>
    intro i hrounds hle hstrings
    have hwrap : wrap64 ((argc : Int) + 1) = argc + 1 := by
      rw [← Nat.cast_succ]
      exact wrap64_eq hargc
    unfold argvLoop
    rw [hwrap, if_pos (Nat.lt_succ_of_le hle)]
    by_cases hvalid : 8 * i + 8 ≤ valid
    · rw [if_pos hvalid]
      have hword :=
        hacc.part (Nat.le_add_right argv (8 * i)) (show argv + 8 * i + 8 ≤ argv + valid by omega)
      have hplace : wrap64 ((argv : Int) + 8 * (i : Int)) = argv + 8 * i := by
        have hcast : (argv : Int) + 8 * (i : Int) = ((argv + 8 * i : Nat) : Int) := by
          push_cast
          rfl
        rw [hcast]
        exact wrap64_eq (Nat.lt_of_le_of_lt (Nat.le_add_right _ _) hword.noWrap)
      obtain ⟨p, hp, hlt⟩ := @readWord_of_accessible t pt m _ hword
      rw [hplace, hp, Option.bind_some]
      by_cases hend : i = argc
      · subst hend
        rw [if_pos rfl]
        by_cases hnull : p = 0
        · rw [if_neg (not_not.mpr hnull)]
          cases rounds with
          | zero =>
            -- the index is 0 again
            refine ⟨.diverges, rfl, nofun, iff_of_false nofun ?_, nofun⟩
            rintro ⟨b, hb, -, -, -, hno, hlast⟩
            rcases Nat.lt_or_eq_of_le hb with hlt | rfl
            · exact hno hlt (hstrings b hlt)
            · have hfits := hlast rfl (by rw [hp, hnull])
              omega
          | succ rounds =>
            unfold argvLoop
            rw [hwrap, if_neg (Nat.lt_irrefl _)]
            refine ⟨.passes (i + 1), rfl, nofun, iff_of_true ⟨i + 1, rfl⟩ ?_, ?_⟩
            · exact ⟨i, Nat.le_refl i, by omega, hvalid, hstrings,
                fun h => absurd h (Nat.lt_irrefl i), fun _ _ => by omega⟩
            · rintro n hn hlt
              cases hn
              omega
        · rw [if_pos hnull]
          refine ⟨.passes i, rfl, nofun, iff_of_true ⟨i, rfl⟩ ?_, ?_⟩
          · refine ⟨i, Nat.le_refl i, by omega, hvalid, hstrings,
              fun h => absurd h (Nat.lt_irrefl i), fun _ hzero => ?_⟩
            rw [hp] at hzero
            exact absurd (Option.some.inj hzero) hnull
          · rintro n hn hlt
            cases hn
            exact absurd hlt (Nat.lt_irrefl i)
      · rw [if_neg hend]
        have hlt' : i < argc := Nat.lt_of_le_of_ne hle hend
        obtain ⟨r, hrun, hr⟩ := @checkStringTermination_spec t pt m p hlt
        rw [hrun, Option.bind_some]
        by_cases hneg : r < 0
        · rw [if_pos hneg]
          have hno : ¬ HasString t pt m argv i := by
            rintro ⟨q, s, hq, hs⟩
            rw [hp] at hq
            cases hq
            exact hr.mpr ⟨s, hs⟩ hneg
          refine ⟨.passes i, rfl, nofun, iff_of_true ⟨i, rfl⟩ ?_, ?_⟩
          · exact ⟨i, hle, by omega, hvalid, hstrings, fun _ => hno, fun h => absurd h hend⟩
          · rintro n hn -
            cases hn
            exact hno
        · rw [if_neg hneg]
          obtain ⟨s, hs⟩ := hr.mp hneg
          refine ih (by omega) hlt' fun j hj => ?_
          rcases Nat.lt_succ_iff_lt_or_eq.mp hj with hj | rfl
          · exact hstrings j hj
          · exact ⟨p, s, hp, hs⟩
    · rw [if_neg hvalid]
      refine ⟨.unvalidated, rfl, nofun, iff_of_false nofun ?_, nofun⟩
      rintro ⟨b, hb, -, hend, -, hno, -⟩
      have hlt : b < i := by omega
      exact hno (Nat.lt_of_lt_of_le hlt hle) (hstrings b hlt)

/-- **The checks** fail on what is refused, and pass where the loop over `argv` ends. -/
theorem checks_spec (hname : name < 2 ^ 64) (hargv : argv < 2 ^ 64) (hargc : argc < 2 ^ 64) :
    ∃ c, checks t pt m name argv argc = some c ∧ (∀ r, c = .fails r → r < 0) ∧
      ((∃ r, c = .fails r) ↔ Refused t pt m name argv argc) ∧
      ((∃ n, c = .passes n) ↔ ¬ Refused t pt m name argv argc ∧
        Ends t pt m argv argc (wrap64 ((argc + 1) * 8))) ∧
      ∀ n, c = .passes n → n < argc → ¬ HasString t pt m argv n := by
  -- what is refused fails with an error
  have hrefused : ∀ r : Int, r < 0 → Refused t pt m name argv argc →
      ∃ c, some (Checked.fails r) = some c ∧ (∀ r, c = .fails r → r < 0) ∧
      ((∃ r, c = .fails r) ↔ Refused t pt m name argv argc) ∧
      ((∃ n, c = .passes n) ↔ ¬ Refused t pt m name argv argc ∧
        Ends t pt m argv argc (wrap64 ((argc + 1) * 8))) ∧
      ∀ n, c = .passes n → n < argc → ¬ HasString t pt m argv n := by
    intro r hneg h
    refine ⟨.fails r, rfl, fun r' hr' => ?_, iff_of_true ⟨r, rfl⟩ h, iff_of_false nofun fun hc =>
      hc.1 h, nofun⟩
    cases hr'
    exact hneg
  obtain ⟨r, hrun, hr⟩ := @checkStringTermination_spec t pt m name hname
  unfold checks
  rw [hrun, Option.bind_some]
  by_cases hneg : r < 0
  · rw [if_pos hneg]
    exact hrefused r hneg (.inl fun hs => hr.mpr hs hneg)
  · rw [if_neg hneg]
    by_cases hone : argc < 1
    · rw [if_pos hone]
      exact hrefused E_INVAL (by decide) (.inr (.inl (Nat.lt_one_iff.mp hone)))
    · rw [if_neg hone]
      dsimp only
      have hsize : wrap64 (((argc : Int) + 1) * 8) = (argc + 1) * 8 % 2 ^ 64 := by
        unfold wrap64
        omega
      have hlt : wrap64 (((argc : Int) + 1) * 8) < 2 ^ 64 := by
        rw [hsize]
        exact Nat.mod_lt _ (Nat.two_pow_pos 64)
      obtain ⟨ok, hvalidate, hok⟩ := @validateMemory_spec t pt (pteP ||| pteU) argv _ hargv hlt
      rw [hvalidate, Option.bind_some]
      by_cases h : ok = true
      · rw [if_pos h]
        have hacc := (hok.mp h).2
        by_cases height : 8 ≤ wrap64 (((argc : Int) + 1) * 8)
        · rw [if_pos height]
          have hword := hacc.part (Nat.le_refl argv) (Nat.add_le_add_left height argv)
          obtain ⟨p, hp, -⟩ := @readWord_of_accessible t pt m _ hword
          rw [hp, Option.bind_some]
          by_cases hnull : p = 0
          · rw [if_pos hnull]
            exact hrefused E_INVAL (by decide) (.inr (.inr (.inr ⟨height, by rw [hp, hnull]⟩)))
          · rw [if_neg hnull]
            have hnot : ¬ Refused t pt m name argv argc := by
              rintro (hno | hzero | hno | ⟨-, hzero⟩)
              · exact hno (hr.mp hneg)
              · omega
              · exact hno (hok.mp h)
              · rw [hp] at hzero
                exact hnull (Option.some.inj hzero)
            obtain ⟨c, hloop, hfails, hends, hpasses⟩ := @argvLoop_spec t pt m argv argc _ hacc
              (by omega) indexRounds 0 (Nat.zero_add _) (Nat.zero_le _) fun j hj =>
              absurd hj (Nat.not_lt_zero j)
            refine ⟨c, hloop, fun r hc => absurd hc (hfails r),
              iff_of_false (fun ⟨r, hc⟩ => hfails r hc) hnot, ?_, hpasses⟩
            rw [hends, and_iff_right hnot]
        · rw [if_neg height]
          refine ⟨.unvalidated, rfl, nofun, iff_of_false nofun ?_, iff_of_false nofun ?_, nofun⟩
          · rintro (hno | hzero | hno | ⟨height', -⟩)
            · exact hno (hr.mp hneg)
            · omega
            · exact hno (hok.mp h)
            · exact height height'
          · rintro ⟨-, b, -, -, hend, -⟩
            omega
      · rw [if_neg h]
        exact hrefused E_FAULT (by decide) (.inr (.inr (.inl fun hc => h (hok.mpr hc))))

/-- Arguments pass the checks, unless they are too many for the index. -/
theorem checks_of_args {args : List (List UInt8)} {s : List UInt8}
    (hname : UserString t pt m name s) (hargs : Args t pt m argv args)
    (hpos : 1 ≤ args.length) (hlt : args.length + 1 < indexRounds) :
    ∃ n, args.length ≤ n ∧ checks t pt m name argv args.length = some (.passes n) := by
  have hstring : ∀ j < args.length, HasString t pt m argv j := by
    intro j hj
    obtain ⟨p, hp, hs⟩ := hargs.strings j _ (List.getElem?_eq_getElem hj)
    exact ⟨p, _, hp, hs⟩
  have hsize : wrap64 (((args.length : Int) + 1) * 8) = 8 * (args.length + 1) := by
    have hindex : indexRounds = 2 ^ 32 := rfl
    unfold wrap64
    omega
  obtain ⟨c, hrun, -, -, hpasses, hwrong⟩ := @checks_spec t pt m name argv args.length
    (Nat.lt_of_le_of_lt (Nat.le_add_right _ _) hname.accessible.noWrap)
    (Nat.lt_of_le_of_lt (Nat.le_add_right _ _) hargs.accessible.noWrap)
    (Nat.lt_trans (Nat.lt_succ_self _) (Nat.lt_trans hlt (by decide)))
  have hnot : ¬ Refused t pt m name argv args.length := by
    rintro (hno | hzero | hno | ⟨-, hnull⟩)
    · exact hno ⟨s, hname⟩
    · omega
    · refine hno ⟨hargs.nonnull, ?_⟩
      rw [hsize]
      exact hargs.accessible
    · obtain ⟨p, s', hp, hs'⟩ := hstring 0 hpos
      rw [mul_zero, add_zero, hnull] at hp
      exact hs'.nonnull (Option.some.inj hp).symm
  obtain ⟨n, rfl⟩ := hpasses.mpr ⟨hnot, args.length, Nat.le_refl _,
    Nat.lt_trans (Nat.lt_succ_self _) hlt, by rw [hsize]; omega, hstring,
    fun h => absurd h (Nat.lt_irrefl _), fun _ _ => hlt⟩
  refine ⟨n, Nat.le_of_not_lt fun hlt' => ?_, hrun⟩
  exact hwrong n rfl hlt' (hstring n hlt')

end Checks

/-! ## A small process -/

/-- Pages in the order of their addresses, and those that have been freed. -/
def freePages : Allocator (Nat × List Nat) where
  kallocpage s := some ((s.1 + 1, s.2), some ((s.1 + 1) * pageSize))
  Valid s := ∀ page ∈ s.2, page ≤ s.1 * pageSize
  InUse s page := (∃ i ≤ s.1, page = i * pageSize) ∧ page ∉ s.2
  Live s page := (∃ i ≤ s.1, page = i * pageSize) ∧ page ∉ s.2
  kfree s page := some (s.1, page :: s.2)
  spec s hvalid := by
    have hfresh : (s.1 + 1) * pageSize ∉ s.2 := by
      intro hmem
      have hle := hvalid _ hmem
      unfold pageSize at hle
      omega
    refine ⟨_, _, rfl, fun page hpage => ?_, fun page => ⟨?_, ?_⟩, fun page hpage hin => ?_⟩
    · exact Nat.le_trans (hvalid page hpage) (Nat.mul_le_mul_right _ (Nat.le_succ _))
    · rintro ⟨⟨i, hi, rfl⟩, hno⟩
      rcases Nat.le_succ_iff.mp hi with hi | rfl
      · exact .inr ⟨⟨i, hi, rfl⟩, hno⟩
      · exact .inl rfl
    · rintro (hpage | ⟨⟨i, hi, rfl⟩, hno⟩)
      · cases hpage
        exact ⟨⟨_, Nat.le_refl _, rfl⟩, hfresh⟩
      · exact ⟨⟨i, Nat.le_succ_of_le hi, rfl⟩, hno⟩
    · cases hpage
      obtain ⟨⟨i, hi, heq⟩, -⟩ := hin
      unfold pageSize at heq
      omega
  live_inUse _ _ h := h
  live_alloc s s' r hvalid h page := by
    cases h
    constructor
    · rintro ⟨⟨i, hi, rfl⟩, hno⟩
      rcases Nat.le_succ_iff.mp hi with hi | rfl
      · exact .inr ⟨⟨i, hi, rfl⟩, hno⟩
      · exact .inl rfl
    · rintro (hpage | ⟨⟨i, hi, rfl⟩, hno⟩)
      · cases hpage
        refine ⟨⟨_, Nat.le_refl _, rfl⟩, fun hmem => ?_⟩
        have hle := hvalid _ hmem
        unfold pageSize at hle
        omega
      · exact ⟨⟨i, Nat.le_succ_of_le hi, rfl⟩, hno⟩
  kfree_spec s page hvalid hlive := by
    obtain ⟨⟨i, hi, rfl⟩, -⟩ := hlive
    have hiff : ∀ pg, ((∃ i ≤ s.1, pg = i * pageSize) ∧ pg ∉ i * pageSize :: s.2) ↔
        ((∃ i ≤ s.1, pg = i * pageSize) ∧ pg ∉ s.2) ∧ pg ≠ i * pageSize := by
      intro pg
      rw [List.mem_cons, not_or, and_assoc, and_comm (a := pg ∉ s.2)]
    refine ⟨_, rfl, fun pg hpg => ?_, hiff, hiff⟩
    rcases List.mem_cons.mp hpg with rfl | hpg
    · exact Nat.mul_le_mul_right _ hi
    · exact hvalid pg hpg

/-- All addresses are mapped to one page. -/
def onePage : Tables :=
  fun page _ => if page = 0x4000 then ⟨0x9000, ptePWU⟩ else ⟨page + 0x1000, ptePWU⟩

theorem onePage_of_ne {page : Nat} (h : page ≠ 0x4000) (i : Nat) :
    onePage page i = ⟨page + 0x1000, ptePWU⟩ := if_neg h

theorem next_onePage {page : Nat} (h : page ≠ 0x4000) (i : Nat) :
    (onePage page i).next = some (page + 0x1000) := by
  rw [onePage_of_ne h, next_linked]

theorem table_onePage {x level : Nat} (hle : level ≤ 3) :
    table onePage 0x1000 level x = some ((4 - level) * pageSize) := by
  have htwo : table onePage 0x1000 2 x = some 0x2000 := by
    rw [table_succ (by decide), table_three]
    exact next_onePage (by decide) _
  have hone : table onePage 0x1000 1 x = some 0x3000 := by
    rw [table_succ (by decide), htwo]
    exact next_onePage (by decide) _
  interval_cases level
  · rw [table_succ (by decide), hone]
    exact next_onePage (by decide) _
  · exact hone
  · exact htwo
  · rfl

theorem translation_onePage (x : Nat) :
    translation onePage 0x1000 x = (some (0x9000 + x % pageSize), ptePWU, true) := by
  have hlocate : locate onePage 0x1000 x = ⟨0, 0x4000, pageindex x 0, ptePWU⟩ := by
    unfold locate
    rw [down_next (next_onePage (by decide) _), down_next (next_onePage (by decide) _),
      down_next (next_onePage (by decide) _), onePage_of_ne (by decide), onePage_of_ne (by decide),
      onePage_of_ne (by decide)]
    rfl
  have hentry : onePage 0x4000 (pageindex x 0) = ⟨0x9000, ptePWU⟩ := if_pos rfl
  rw [translation_eq hlocate hentry, if_pos (by decide)]
  dsimp only
  rw [if_neg (Nat.lt_irrefl 0), BitVec.and_self]
  rfl

theorem accessible_onePage {v n : Nat} (h : v + n ≤ lowEnd) :
    Accessible onePage 0x1000 v n (pteP ||| pteU) where
  noWrap := Nat.lt_of_le_of_lt h (by decide)
  low := h
  allowed b _ _ := by
    rw [← permits_mk', permits_iff (by decide), translation_onePage]
    exact (by decide : ptePWU &&& (pteP ||| pteU) = pteP ||| pteU)

/-- A file with a program header of no segment. -/
def emptyFile : List UInt8 :=
  toLE 4 ELF_MAGIC ++ List.replicate 12 0 ++ toLE 2 ELF_ET_EXEC ++ List.replicate 6 0 ++
    toLE 8 0x100000 ++ toLE 8 headerSize ++ List.replicate 14 0 ++ toLE 2 programSize ++ toLE 2 1 ++
    toLE 2 sectionSize ++ List.replicate 60 0

/-- A process with the strings `a` at address `0x200` and `bc` at `0x208`, and an `argv` of the two
at `0x100`. -/
def twoStrings : State (Nat × List Nat) :=
  ⟨onePage, fun a => if a = 0x9101 ∨ a = 0x9109 then 2 else if a = 0x9108 then 8
    else if a = 0x9200 then 97
    else if a = 0x9208 then 98 else if a = 0x9209 then 99 else 0, 9, []⟩

theorem inUse_onePage (h : TablePage onePage 0x1000 vaLowEnd v) : freePages.InUse (9, []) v := by
  obtain ⟨l, hl, x, -, hv⟩ := h
  rw [table_onePage hl] at hv
  cases hv
  exact ⟨⟨4 - l, by omega, rfl⟩, List.not_mem_nil⟩

theorem frame_onePage {x pa : Nat} (h : (translation onePage 0x1000 x).1 = some pa) :
    freePages.InUse (9, []) (pageBase pa) := by
  rw [translation_onePage] at h
  cases h
  exact ⟨⟨9, Nat.le_refl 9, pageBase_add rfl (Nat.mod_lt _ (by decide))⟩, List.not_mem_nil⟩

theorem userString_first : UserString onePage 0x1000 twoStrings.mem 0x200 [97] where
  nonnull := by decide
  accessible := accessible_onePage (by decide)
  bytes := by decide +kernel
  nonzero := by decide
  short := by decide

theorem userString_second : UserString onePage 0x1000 twoStrings.mem 0x208 [98, 99] where
  nonnull := by decide
  accessible := accessible_onePage (by decide)
  bytes := by decide +kernel
  nonzero := by decide
  short := by decide

theorem args_twoStrings : Args onePage 0x1000 twoStrings.mem 0x100 [[97], [98, 99]] where
  nonnull := by decide
  accessible := accessible_onePage (by decide)
  strings i s h := by
    match i with
    | 0 =>
      cases h
      exact ⟨0x200, by decide +kernel, userString_first⟩
    | 1 =>
      cases h
      exact ⟨0x208, by decide +kernel, userString_second⟩
    | i + 2 => cases h
  null := by decide +kernel

end Exec
end PugOS.PageTable
