import PugOS.ExecChecks

/-! # `sys_execv` that fails

A call that returns before it allocates has changed nothing, and what it allocates is freed again if
there is no page for the page table or the stack.  A program that cannot be loaded keeps both, and
what was loaded of it; an entry of `argv` that is no string is found and read all the same
(`execv_rejects_iff`).
-/
namespace PugOS.PageTable
open Bytes UserMemory

namespace Exec
open Elf

section Defs
variable {σ : Type} (al : Allocator σ) (dl : Loader al.toPageSource) (early pt name argv argc : Nat)
  (k k' : State σ)

/-- The same pages are in use, and hold what they held. -/
structure Unchanged : Prop where
  inUse : ∀ page, al.InUse k'.heap page ↔ al.InUse k.heap page
  tables : ∀ page, al.InUse k.heap page → k'.tables page = k.tables page
  memory : ∀ a, al.InUse k.heap (pageBase a) → k'.mem a = k.mem a

/-- The call returns an error, and has no effect. -/
def Rejected : Prop := ∃ r k', sysExecv al dl early pt name argv argc k = some (.returns r k') ∧
    r < 0 ∧ Unchanged al k k'

/-- There is no page for the page table, or none for the stack. -/
def Starved : Prop :=
  ∀ t s npt s' stkpg, kallocPagetable al.kallocpage early k.tables k.heap = some (t, s, some npt) →
  al.kallocpage s ≠ some (s', some stkpg)

/-- The program cannot be loaded. -/
def Unloadable : Prop :=
  ∀ t s npt s' stkpg, kallocPagetable al.kallocpage early k.tables k.heap = some (t, s, some npt) →
  al.kallocpage s = some (s', some stkpg) → ∃ k' e, load dl npt ⟨t, k.mem, s'⟩ = some (k', .error e)

/-- There are not `argc` strings at `argv`, with a null pointer after them, or the program cannot be
loaded. -/
def Bad : Prop := (¬ ∃ args, args.length = argc ∧ Args k.tables pt k.mem argv args) ∨
    Unloadable al dl early k

end Defs

section Fail
variable {σ : Type} {al : Allocator σ} {dl : Loader al.toPageSource} {early pt name argv argc : Nat}
  {k k' : State σ} {t t' : Tables} {s s₁ s₂ : σ} {r r₁ r₂ : Option Nat}

theorem Unchanged.refl : Unchanged al k k := ⟨fun _ => Iff.rfl, fun _ _ => rfl, fun _ _ => rfl⟩

/-- `kdelete` frees a page, if there is one. -/
theorem kdelete_spec (hvalid : al.Valid s) (hlive : ∀ page, r = some page → al.Live s page) :
    ∃ s', kdelete al s r = some s' ∧ al.Valid s' ∧
      (∀ page, al.InUse s' page ↔ al.InUse s page ∧ r ≠ some page) ∧
      ∀ page, al.Live s' page ↔ al.Live s page ∧ r ≠ some page := by
  cases r with
  | none =>
    exact ⟨s, rfl, hvalid, fun _ => (and_iff_left nofun).symm, fun _ => (and_iff_left nofun).symm⟩
  | some freed =>
    obtain ⟨s', hrun, hvalid', hinUse, hlive'⟩ := al.kfree_spec s freed hvalid (hlive freed rfl)
    have hne : ∀ page, some freed ≠ some page ↔ page ≠ freed :=
      fun page => by rw [ne_eq, Option.some_inj, eq_comm]
    refine ⟨s', hrun, hvalid', fun page => ?_, fun page => ?_⟩
    · rw [hinUse, hne]
    · rw [hlive', hne]

theorem kallocPagetable_frame (h : kallocPagetable al.kallocpage early t s = some (t', s₁, r)) :
    al.kallocpage s = some (s₁, r) ∧ ∀ page, r ≠ some page → t' page = t page := by
  obtain ⟨⟨s', r'⟩, halloc, heq⟩ := Option.map_eq_some_iff.mp h
  cases r' with
  | none =>
    cases heq
    exact ⟨halloc, fun _ _ => rfl⟩
  | some pt =>
    cases heq
    exact ⟨halloc, fun page hne =>
      Function.update_of_ne (fun heq => hne (congrArg some heq.symm)) _ _⟩

/-- **What has been allocated in vain is freed.** -/
theorem kdelete_both (hvalid : al.Valid s) (halloc₁ : al.kallocpage s = some (s₁, r₁))
    (halloc₂ : al.kallocpage s₁ = some (s₂, r₂)) : ∃ s₃ s₄, kdelete al s₂ r₁ = some s₃ ∧
    kdelete al s₃ r₂ = some s₄ ∧ (∀ page, al.InUse s₄ page ↔ al.InUse s page) ∧
      ∀ page, r₁ = some page → ¬ al.InUse s page := by
  obtain ⟨s₁', r₁', hrun₁, hvalid₁, hinUse₁, hnew₁⟩ := al.spec s hvalid
  rw [halloc₁] at hrun₁
  cases hrun₁
  obtain ⟨s₂', r₂', hrun₂, hvalid₂, hinUse₂, hnew₂⟩ := al.spec s₁ hvalid₁
  rw [halloc₂] at hrun₂
  cases hrun₂
  have hlive₁ := al.live_alloc s s₁ r₁ hvalid halloc₁
  have hlive₂ := al.live_alloc s₁ s₂ r₂ hvalid₁ halloc₂
  have hne : ∀ page, r₂ = some page → r₁ ≠ some page :=
    fun page h₂ h₁ => hnew₂ page h₂ ((hinUse₁ page).mpr (.inl h₁))
  obtain ⟨s₃, hrun₃, hvalid₃, hinUse₃, hlive₃⟩ := @kdelete_spec σ al s₂ r₁ hvalid₂ fun page hpage =>
    (hlive₂ page).mpr (.inr ((hlive₁ page).mpr (.inl hpage)))
  obtain ⟨s₄, hrun₄, -, hinUse₄, -⟩ := @kdelete_spec σ al s₃ r₂ hvalid₃ fun page hpage =>
    (hlive₃ page).mpr ⟨(hlive₂ page).mpr (.inl hpage), hne page hpage⟩
  refine ⟨s₃, s₄, hrun₃, hrun₄, fun page => ?_, hnew₁⟩
  rw [hinUse₄, hinUse₃, hinUse₂, hinUse₁]
  constructor
  · rintro ⟨⟨h₂ | h₁ | hin, hno₁⟩, hno₂⟩
    · exact absurd h₂ hno₂
    · exact absurd h₁ hno₁
    · exact hin
  · intro hin
    exact ⟨⟨.inr (.inr hin), fun h => hnew₁ page h hin⟩,
      fun h => hnew₂ page h ((hinUse₁ page).mpr (.inr hin))⟩

/-- A call that passes the checks and finds no pages. -/
theorem rejected_of_starved {n : Nat} (hvalid : al.Valid k.heap)
    (hchecks : checks k.tables pt k.mem name argv argc = some (.passes n))
    (hstarved : Starved al early k) : Rejected al dl early pt name argv argc k := by
  obtain ⟨s₁, r₁, halloc₁, hvalid₁, -, -⟩ := al.spec k.heap hvalid
  obtain ⟨s₂, r₂, halloc₂, -, -, -⟩ := al.spec s₁ hvalid₁
  obtain ⟨t, htable⟩ : ∃ t, kallocPagetable al.kallocpage early k.tables k.heap =
    some (t, s₁, r₁) := by
    unfold kallocPagetable
    rw [halloc₁]
    cases r₁ with
    | none => exact ⟨_, rfl⟩
    | some pt => exact ⟨_, rfl⟩
  obtain ⟨-, hframe⟩ := kallocPagetable_frame htable
  obtain ⟨s₃, s₄, hdelete₁, hdelete₂, hinUse, hnew⟩ := kdelete_both hvalid halloc₁ halloc₂
  refine ⟨E_NOMEM, { k with tables := t, heap := s₄ }, ?_, by decide, hinUse, fun page hpage => ?_,
    fun _ _ => rfl⟩
  · unfold sysExecv
    rw [hchecks, Option.bind_some]
    dsimp only
    rw [htable, Option.bind_some]
    dsimp only
    rw [halloc₂, Option.bind_some]
    dsimp only
    have hdelete : (kdelete al s₂ r₁).bind (fun s => (kdelete al s r₂).map fun s =>
        Outcome.returns E_NOMEM { k with tables := t, heap := s }) =
          some (.returns E_NOMEM { k with tables := t, heap := s₄ }) := by
      rw [hdelete₁, Option.bind_some, hdelete₂]
      rfl
    cases r₁ with
    | none => exact hdelete
    | some npt =>
      cases r₂ with
      | none => exact hdelete
      | some stkpg => exact absurd halloc₂ (hstarved t s₁ npt s₂ stkpg htable)
  · exact hframe page fun h => hnew page h hpage

/-- A call that passes the checks and returns has found no pages, or leaves pages in use. -/
theorem starved_of_returns {n : Nat} {r : Int} (hvalid : al.Valid k.heap)
    (hchecks : checks k.tables pt k.mem name argv argc = some (.passes n))
    (hrun : sysExecv al dl early pt name argv argc k = some (.returns r k'))
    (hsame : Unchanged al k k') : Starved al early k := by
  intro t s npt s' stkpg htable halloc
  unfold sysExecv at hrun
  rw [hchecks, Option.bind_some] at hrun
  dsimp only at hrun
  rw [htable, Option.bind_some] at hrun
  dsimp only at hrun
  rw [halloc, Option.bind_some] at hrun
  obtain ⟨⟨k₁, res⟩, hload, hrun⟩ := Option.bind_eq_some_iff.mp hrun
  cases res with
  | error e =>
    cases hrun
    obtain ⟨hspace, hnew, hinUse, -, -, -⟩ :=
      @kallocPagetable_spec σ al.toPageSource _ _ _ _ _ _ hvalid htable
    obtain ⟨s₁, r₁, hrun₁, hvalid₁, hinUse₁, -⟩ := al.spec s hspace.valid
    rw [halloc] at hrun₁
    cases hrun₁
    have hmore : ∀ pg, al.InUse s pg → al.InUse s' pg := fun pg hpg => (hinUse₁ pg).mpr (.inr hpg)
    have hg :=
      @load_grows σ al.toPageSource dl npt ⟨t, k.mem, s'⟩ _ _
        (hspace.alloc hvalid₁ hmore).space hload
    -- the page table is in use
    exact hnew ((hsame.inUse npt).mp (hg.inUse npt (hmore npt ((hinUse npt).mpr (.inl rfl)))))
  | ok entry =>
    dsimp only at hrun
    split at hrun
    · cases hrun
    · obtain ⟨⟨diff, c⟩, -, hrun⟩ := Option.bind_eq_some_iff.mp hrun
      obtain ⟨⟨t₂, s₂, ok⟩, -, hrun⟩ := Option.bind_eq_some_iff.mp hrun
      cases ok with
      | false => cases hrun
      | true =>
        obtain ⟨⟨t₃, s₃, ok⟩, -, hrun⟩ := Option.bind_eq_some_iff.mp hrun
        cases ok with
        | false => cases hrun
        | true => cases hrun

/-- **Bad arguments and failed loads are rejected without an effect exactly when** the name or
`argv` as a whole is refused, or the loop over `argv` ends and there are no pages for the page table
and the stack. -/
theorem execv_rejects_iff (al : Allocator σ) (dl : Loader al.toPageSource)
    (hvalid : al.Valid k.heap) (hname : name < 2 ^ 64)
    (hargv : argv < 2 ^ 64) (hargc : argc < 2 ^ 64) :
    (Bad al dl early pt argv argc k → Rejected al dl early pt name argv argc k) ↔
      (Bad al dl early pt argv argc k → Refused k.tables pt k.mem name argv argc ∨
        (Ends k.tables pt k.mem argv argc (wrap64 ((argc + 1) * 8)) ∧ Starved al early k)) := by
  obtain ⟨c, hchecks, hneg, hfails, hpasses, -⟩ :=
    @checks_spec k.tables pt k.mem name argv argc hname hargv hargc
  refine imp_congr_right fun _ => ⟨?_, ?_⟩
  · rintro ⟨r, k', hrun, -, hsame⟩
    cases c with
    | fails r => exact .inl (hfails.mp ⟨r, rfl⟩)
    | unvalidated =>
      unfold sysExecv at hrun
      rw [hchecks] at hrun
      cases hrun
    | diverges =>
      unfold sysExecv at hrun
      rw [hchecks] at hrun
      cases hrun
    | passes n => exact .inr ⟨(hpasses.mp ⟨n, rfl⟩).2, starved_of_returns hvalid hchecks hrun hsame⟩
  · intro h
    by_cases hrefused : Refused k.tables pt k.mem name argv argc
    · obtain ⟨r, rfl⟩ := hfails.mpr hrefused
      refine ⟨r, k, ?_, hneg r rfl, .refl⟩
      unfold sysExecv
      rw [hchecks]
      rfl
    · obtain ⟨hends, hstarved⟩ := h.resolve_left hrefused
      obtain ⟨n, rfl⟩ := hpasses.mpr ⟨hrefused, hends⟩
      exact rejected_of_starved hvalid hchecks hstarved

end Fail

/-! ## A program that is not there, and a string without an end -/

theorem bad_noFile : Bad freePages (fileOnDisk _ []) 0 0x1000 0x100 2 twoStrings := by
  refine .inr fun t s npt s' stkpg _ _ => ?_
  exact ⟨⟨t, twoStrings.mem, s'⟩, E_NOEXEC, rfl⟩

theorem execv_rejects_iff_noFile : Bad freePages (fileOnDisk _ []) 0 0x1000 0x100 2 twoStrings ∧
    ((Bad freePages (fileOnDisk _ []) 0 0x1000 0x100 2 twoStrings →
        Rejected freePages (fileOnDisk _ []) 0 0x1000 0x200 0x100 2 twoStrings) ↔
      (Bad freePages (fileOnDisk _ []) 0 0x1000 0x100 2 twoStrings →
        Refused onePage 0x1000 twoStrings.mem 0x200 0x100 2 ∨
        (Ends onePage 0x1000 twoStrings.mem 0x100 2 (wrap64 ((2 + 1) * 8)) ∧
          Starved freePages 0 twoStrings))) :=
  ⟨bad_noFile, execv_rejects_iff freePages (fileOnDisk _ []) (fun _ h => absurd h List.not_mem_nil)
    (by decide) (by decide) (by decide)⟩

/-- A process with 257 characters at address `0x200`, an `argv` of one pointer to them at `0x100`,
and a name at `0x300`. -/
def longString : State (Nat × List Nat) :=
  ⟨onePage, fun a => if a = 0x9101 then 2 else if 0x9200 ≤ a ∧ a < 0x9301 then 97 else 0, 9, []⟩

theorem bad_longString (dl : Loader freePages.toPageSource) :
    Bad freePages dl 0 0x1000 0x100 1 longString := by
  refine .inl ?_
  rintro ⟨args, hlen, hargs⟩
  obtain ⟨p, hp, hstring⟩ := hargs.strings 0 _ (List.getElem?_eq_getElem (by omega))
  have hword : readWord onePage 0x1000 longString.mem 0x100 = some 0x200 := by decide +kernel
  have hbytes : readBytes onePage 0x1000 longString.mem 0x200 namesize =
      some (List.replicate 64 97) := by decide +kernel
  obtain rfl : 0x200 = p := Option.some.inj (hword.symm.trans hp)
  exact absurd hstring.short (Nat.not_lt.mpr (hstring.not_before hbytes (by decide)))

/-- The pages stay allocated, and the string is read beyond what has been validated. -/
theorem execv_leaks : (Bad freePages (fileOnDisk _ []) 0 0x1000 0x100 2 twoStrings ∧
      ¬ Rejected freePages (fileOnDisk _ []) 0 0x1000 0x200 0x100 2 twoStrings) ∧
    Bad freePages (fileOnDisk _ emptyFile) 0 0x1000 0x100 1 longString ∧
      sysExecv freePages (fileOnDisk _ emptyFile) 0 0x1000 0x300 0x100 1 longString =
      some .unvalidated := by
  refine ⟨⟨bad_noFile, ?_⟩, bad_longString _, ?_⟩
  · rintro ⟨r, k', hrun, -, hsame⟩
    have hheap : (sysExecv freePages (fileOnDisk _ []) 0 0x1000 0x200 0x100 2 twoStrings).map
        (fun o => match o with
          | .returns _ k => k.heap
          | _ => (0, [])) = some (11, []) := by decide +kernel
    rw [hrun] at hheap
    have hheap : k'.heap = (11, []) := Option.some.inj hheap
    have hin : freePages.InUse k'.heap 0xA000 := by
      rw [hheap]
      exact ⟨⟨10, by decide, rfl⟩, List.not_mem_nil⟩
    obtain ⟨⟨i, hi, heq⟩, -⟩ := (hsame.inUse _).mp hin
    have hi : i ≤ 9 := hi
    unfold pageSize at heq
    omega
  · have hrun : (sysExecv freePages (fileOnDisk _ emptyFile) 0 0x1000 0x300 0x100 1 longString).map
        (fun o => match o with
          | .unvalidated => true
          | _ => false) = some true := by decide +kernel
    obtain ⟨o, hrun, ho⟩ := Option.map_eq_some_iff.mp hrun
    cases o with
    | unvalidated => exact hrun
    | returns r k => cases ho
    | diverges => cases ho
    | runs npt stkpg log regs k => cases ho

end Exec
end PugOS.PageTable
