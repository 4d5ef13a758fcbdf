import PugOS.InitRanges
import PugOS.PageWalk

/-! # `process_fork` copies the memory

The third step of `process_fork` walks the low addresses of the parent with `next`, which skips what
an absent entry covers, and maps every user page in the new page table: a new page with the same
contents if the page is writable and not the console, else the page itself.  `kallocpage` returns no
page that is in use, so the new pages are in no other mapping and the walk never meets what it
writes (`fork_copies`).
-/
namespace PugOS.PageTable
open Bytes

section Defs
variable {σ : Type} (kallocpage : σ → Option (σ × Option Nat))

/-- How the copy ends.  If there is no memory for an address, there may be a page to free. -/
inductive CopyEnd
  | done
  | noMemory (va : Nat) (npage : Option Nat)
  deriving DecidableEq

/-- The loop that copies the memory of the parent, which `source` iterates over.  No result is a
failed assertion. -/
def copyLoop (fpt : Nat) : (fuel : Nat) → Vmiter → Tables → Mem → σ →
    Option (CopyEnd × Tables × Mem × σ)
  | 0, _, _, _, _ => none
  | fuel + 1, source, t, m, s =>
    if source.low then
      if source.user t ∧ source.writable t ∧ source.pa t ≠ some consolePa then
        (kallocpage s).bind fun (s, r) =>
          match r with
          | none => some (.noMemory source.va none, t, m, s)
          | some npage =>
            (source.pa t).bind fun pa =>
              if pa < kaEnd then
                let m := Ring.store m npage (Ring.slice m pa pageSize)
                (map kallocpage t s (Vmiter.mk' t fpt source.va) npage
                  (source.perm t)).bind fun (t, s, ok) =>
                  if ok then copyLoop fpt fuel (source.next t) t m s
                    else some (.noMemory source.va (some npage), t, m, s)
              else none
      else if source.user t then
        (source.pa t).bind fun pa =>
          (map kallocpage t s (Vmiter.mk' t fpt source.va) pa
            (source.perm t)).bind fun (t, s, ok) =>
            if ok then copyLoop fpt fuel (source.next t) t m s
              else some (.noMemory source.va none, t, m, s)
      else copyLoop fpt fuel (source.next t) t m s
    else some (.done, t, m, s)

/-- How far `process_fork` gets, with what it has allocated: the process, its page table and its
descriptor table. -/
inductive ForkStop
  | noProc
  | noPagetable (fproc : Nat)
  | noFdtable (fproc fpt : Nat)
  | copied (fproc fpt fdtable : Nat) (result : CopyEnd)
  deriving DecidableEq

/-- What `process_fork` allocates and copies for the child of a process with page table `pt`.  A
`proc` and a descriptor table take a page each. -/
def forkMemory (early pt : Nat) (t : Tables) (m : Mem) (s : σ) :
    Option (ForkStop × Tables × Mem × σ) :=
  (kallocpage s).bind fun (s, r) =>
    match r with
    | none => some (.noProc, t, m, s)
    | some fproc =>
      (kallocPagetable kallocpage early t s).bind fun (t, s, r) =>
        match r with
        | none => some (.noPagetable fproc, t, m, s)
        | some fpt =>
          (kallocpage s).bind fun (s, r) =>
            match r with
            | none => some (.noFdtable fproc fpt, t, m, s)
            | some fdtable =>
              (copyLoop kallocpage fpt PtIter.rounds (Vmiter.mk' t pt 0) t m s).map fun (e, r) =>
                (.copied fproc fpt fdtable e, r)

end Defs

/-! ## The copy -/

section Copy
variable {σ : Type} {source : PageSource σ} {t t' t₀ t₁ : Tables} {m m' m₀ m₁ : Mem}
  {s s' s₀ s₁ : σ} {early pt fpt va va' x pa npage : Nat}

/-- What the child has at an address: nothing for the user where the parent has nothing, else the
same permissions and the same contents, in a page that was not in use before if the parent's is
writable and not the console, and in the parent's page if not. -/
structure CopiedAt (Old : Nat → Prop) (t₀ : Tables) (m₀ : Mem) (t : Tables) (m : Mem)
    (pt fpt x : Nat) : Prop where
  user : User (translation t fpt x).2.1 ↔ User (translation t₀ pt x).2.1
  perms : User (translation t₀ pt x).2.1 →
    (translation t fpt x).2.1 &&& ptePWU = (translation t₀ pt x).2.1 &&& ptePWU
  page : User (translation t₀ pt x).2.1 → ∃ pa pa', (translation t₀ pt x).1 = some pa ∧
    (translation t fpt x).1 = some pa' ∧ m pa' = m₀ pa ∧
    if Writable (translation t₀ pt x).2.1 ∧ (translation t₀ pt (pageBase x)).1 ≠ some consolePa
      then ¬ Old (pageBase pa')
    else pa' = pa

/-- The pages of the parent are among the old ones, those of the child are not. -/
structure ForkStart (source : PageSource σ) (Old : Nat → Prop) (t₀ : Tables) (s₀ : σ)
    (pt fpt : Nat) : Prop where
  space : Space source t₀ fpt vaLowEnd s₀
  inUse : ∀ pg, Old pg → source.InUse s₀ pg
  parent : ∀ pg, TablePage t₀ pt vaLowEnd pg → Old pg
  child : ∀ pg, TablePage t₀ fpt vaLowEnd pg → ¬ Old pg
  frames : ∀ x < vaLowEnd, ∀ pa, (translation t₀ pt x).1 = some pa → Old (pageBase pa)
  empty : ∀ x < vaLowEnd, translation t₀ fpt x = (none, 0#12, false)

/-- The addresses below `va` have been copied, and the others are not mapped in the child. -/
structure CopyInv (source : PageSource σ) (Old : Nat → Prop) (t₀ : Tables) (m₀ : Mem) (s₀ : σ)
    (pt fpt va : Nat) (t : Tables) (m : Mem) (s : σ) : Prop where
  grows : Grows source fpt vaLowEnd t₀ s₀ t s
  memory : ∀ a, Old (pageBase a) → m a = m₀ a
  frames : ∀ x < vaLowEnd, ∀ pa, (translation t fpt x).1 = some pa → source.InUse s (pageBase pa)
  alone : ∀ x < vaLowEnd, ∀ y < vaLowEnd, ∀ pa pb, (translation t fpt x).1 = some pa →
    (translation t fpt y).1 = some pb → pageBase pa = pageBase pb → ¬ Old (pageBase pa) →
    pageBase x = pageBase y
  done : ∀ x < va, CopiedAt Old t₀ m₀ t m pt fpt x
  todo : ∀ x, va ≤ x → x < vaLowEnd → translation t fpt x = (none, 0#12, false)

theorem CopiedAt.absent {Old : Nat → Prop} (hparent : ¬ User (translation t₀ pt x).2.1)
    (hchild : ¬ User (translation t fpt x).2.1) :
    CopiedAt Old t₀ m₀ t m pt fpt x :=
  ⟨iff_of_false hchild hparent, fun hu => absurd hu hparent, fun hu => absurd hu hparent⟩

/-! ## The rounds -/

/-- What a round of the loop does. -/
inductive CopyRound (source : PageSource σ) (pt fpt fuel va : Nat) (t : Tables) (m : Mem) (s : σ) :
    CopyEnd × Tables × Mem × σ → Prop
  | skip {res : CopyEnd × Tables × Mem × σ} (notUser : ¬ User (translation t pt va).2.1)
      (rest : copyLoop source.kallocpage fpt fuel ((Vmiter.mk' t pt va).next t) t m s = some res) :
      CopyRound source pt fpt fuel va t m s res
  | noPage {s₁ : σ} (user : User (translation t pt va).2.1)
      (writable : Writable (translation t pt va).2.1)
      (notConsole : (translation t pt va).1 ≠ some consolePa)
      (alloc : source.kallocpage s = some (s₁, none)) :
      CopyRound source pt fpt fuel va t m s (.noMemory va none, t, m, s₁)
  | noMap {s₁ s₂ : σ} {npage pa : Nat} {t₂ : Tables} (user : User (translation t pt va).2.1)
      (writable : Writable (translation t pt va).2.1)
      (notConsole : (translation t pt va).1 ≠ some consolePa)
      (alloc : source.kallocpage s = some (s₁, some npage))
      (pa_eq : (translation t pt va).1 = some pa)
      (map_eq : map source.kallocpage t s₁ (Vmiter.mk' t fpt va) npage (translation t pt va).2.1 =
        some (t₂, s₂, false)) :
      CopyRound source pt fpt fuel va t m s
        (.noMemory va (some npage), t₂, Ring.store m npage (Ring.slice m pa pageSize), s₂)
  | copied {s₁ s₂ : σ} {npage pa : Nat} {t₂ : Tables} {res : CopyEnd × Tables × Mem × σ}
      (user : User (translation t pt va).2.1) (writable : Writable (translation t pt va).2.1)
      (notConsole : (translation t pt va).1 ≠ some consolePa)
      (alloc : source.kallocpage s = some (s₁, some npage))
      (pa_eq : (translation t pt va).1 = some pa)
      (map_eq : map source.kallocpage t s₁ (Vmiter.mk' t fpt va) npage (translation t pt va).2.1 =
        some (t₂, s₂, true))
      (rest : copyLoop source.kallocpage fpt fuel ((Vmiter.mk' t pt va).next t₂) t₂
        (Ring.store m npage (Ring.slice m pa pageSize)) s₂ = some res) :
      CopyRound source pt fpt fuel va t m s res
  | noShare {s₂ : σ} {pa : Nat} {t₂ : Tables} (user : User (translation t pt va).2.1)
      (notCopied :
        ¬ (Writable (translation t pt va).2.1 ∧ (translation t pt va).1 ≠ some consolePa))
      (pa_eq : (translation t pt va).1 = some pa)
      (map_eq : map source.kallocpage t s (Vmiter.mk' t fpt va) pa (translation t pt va).2.1 =
        some (t₂, s₂, false)) :
      CopyRound source pt fpt fuel va t m s (.noMemory va none, t₂, m, s₂)
  | shared {s₂ : σ} {pa : Nat} {t₂ : Tables} {res : CopyEnd × Tables × Mem × σ}
      (user : User (translation t pt va).2.1)
      (notCopied :
      ¬ (Writable (translation t pt va).2.1 ∧ (translation t pt va).1 ≠ some consolePa))
      (pa_eq : (translation t pt va).1 = some pa)
      (map_eq : map source.kallocpage t s (Vmiter.mk' t fpt va) pa (translation t pt va).2.1 =
        some (t₂, s₂, true))
      (rest : copyLoop source.kallocpage fpt fuel ((Vmiter.mk' t pt va).next t₂) t₂ m s₂ =
        some res) :
      CopyRound source pt fpt fuel va t m s res

theorem copyLoop_round {fuel : Nat} {res : CopyEnd × Tables × Mem × σ} (hva : va < vaLowEnd)
    (h : copyLoop source.kallocpage fpt (fuel + 1) (Vmiter.mk' t pt va) t m s = some res) :
    CopyRound source pt fpt fuel va t m s res := by
  have hmk : (Vmiter.mk' t pt va).va = va := by rw [mk'_eq]
  have hlow : (Vmiter.mk' t pt va).low = true := by
    unfold Vmiter.low
    rw [hmk, decide_eq_true hva]
  unfold copyLoop at h
  rw [if_pos hlow, hmk] at h
  by_cases huser : (Vmiter.mk' t pt va).user t = true
  · have huser' := user_iff.mp huser
    by_cases hcopy : (Vmiter.mk' t pt va).writable t = true ∧
      (Vmiter.mk' t pt va).pa t ≠ some consolePa
    · rw [if_pos ⟨huser, hcopy⟩] at h
      obtain ⟨⟨s₁, r⟩, halloc, h⟩ := Option.bind_eq_some_iff.mp h
      cases r with
      | none =>
        cases h
        exact .noPage huser' (writable_iff.mp hcopy.1) hcopy.2 halloc
      | some npage =>
        obtain ⟨pa, hpa, h⟩ := Option.bind_eq_some_iff.mp h
        by_cases hka : pa < kaEnd
        · rw [if_pos hka] at h
          obtain ⟨⟨t₂, s₂, ok⟩, hmap, h⟩ := Option.bind_eq_some_iff.mp h
          cases ok with
          | false =>
            cases h
            exact .noMap huser' (writable_iff.mp hcopy.1) hcopy.2 halloc hpa hmap
          | true => exact .copied huser' (writable_iff.mp hcopy.1) hcopy.2 halloc hpa hmap h
        · rw [if_neg hka] at h
          cases h
    · rw [if_neg fun hc => hcopy hc.2, if_pos huser] at h
      have hcopy' : ¬ (Writable (translation t pt va).2.1 ∧
          (translation t pt va).1 ≠ some consolePa) := fun hc =>
        hcopy ⟨writable_iff.mpr hc.1, hc.2⟩
      obtain ⟨pa, hpa, h⟩ := Option.bind_eq_some_iff.mp h
      obtain ⟨⟨t₂, s₂, ok⟩, hmap, h⟩ := Option.bind_eq_some_iff.mp h
      cases ok with
      | false =>
        cases h
        exact .noShare huser' hcopy' hpa hmap
      | true => exact .shared huser' hcopy' hpa hmap h
  · rw [if_neg fun hc => huser hc.1, if_neg huser] at h
    exact .skip (fun hc => huser (user_iff.mpr hc)) h

/-! ## What a round keeps -/

section
variable {Old : Nat → Prop} (hstart : ForkStart source Old t₀ s₀ pt fpt)
include hstart

theorem ForkStart.copyInv : CopyInv source Old t₀ m₀ s₀ pt fpt 0 t₀ m₀ s₀ where
  grows := hstart.space.alloc hstart.space.valid fun _ h => h
  memory _ _ := rfl
  frames x hx pa hpa := by
    rw [hstart.empty x hx] at hpa
    cases hpa
  alone x hx y _ pa pb hpa := by
    rw [hstart.empty x hx] at hpa
    cases hpa
  done x hx := absurd hx (Nat.not_lt_zero x)
  todo x _ hx := hstart.empty x hx

/-- The page table of the parent is not written to. -/
theorem ForkStart.parent_same (hg : Grows source fpt vaLowEnd t₀ s₀ t s) (hx : x < vaLowEnd)
    {l pg : Nat} (hl : l ≤ 3) (hpg : table t₀ pt l x = some pg) : t pg = t₀ pg := by
  have hold := hstart.parent pg ⟨l, hl, x, hx, hpg⟩
  exact hg.frame pg (hstart.inUse pg hold) fun h => hstart.child pg h hold

theorem ForkStart.translation_parent (hg : Grows source fpt vaLowEnd t₀ s₀ t s)
    (hx : x < vaLowEnd) : translation t pt x = translation t₀ pt x :=
  translation_same fun l hl pg hpg => by rw [hstart.parent_same hg hx hl hpg]

theorem ForkStart.mk'_parent (hg : Grows source fpt vaLowEnd t₀ s₀ t s) (hx : x < vaLowEnd) :
    Vmiter.mk' t pt x = Vmiter.mk' t₀ pt x := by
  rw [mk'_eq, mk'_eq, locate_same fun l hl pg hpg => by rw [hstart.parent_same hg hx hl hpg]]

omit hstart in
/-- The walk goes past addresses where the parent has nothing for the user. -/
theorem CopyInv.skip (h : CopyInv source Old t₀ m₀ s₀ pt fpt va t m s)
    (hnot : ¬ User (translation t₀ pt va).2.1) (hmore : va ≤ va') (hle : va' ≤ vaLowEnd)
    (hskip : ∀ b, va ≤ b → b < va' → pageBase b = va ∨ translation t₀ pt b = (none, 0#12, false)) :
    CopyInv source Old t₀ m₀ s₀ pt fpt va' t m s := by
  refine { h with done := fun x hx => ?_, todo := fun x hx hlt => ?_ }
  · rcases Nat.lt_or_ge x va with hlt | hge
    · exact h.done x hlt
    · have hparent : ¬ User (translation t₀ pt x).2.1 := by
        rcases hskip x hge hx with hsame | habsent
        · rw [translation_offset, hsame]
          exact hnot
        · rw [habsent]
          exact not_user_zero
      have hchild : ¬ User (translation t fpt x).2.1 := by
        rw [h.todo x hge (Nat.lt_of_lt_of_le hx hle)]
        exact not_user_zero
      exact .absent hparent hchild
  · exact h.todo x (Nat.le_trans hmore hx) hlt

omit hstart in
theorem CopyInv.alone_of_mapped {perm : Perm} (h : CopyInv source Old t₀ m₀ s₀ pt fpt va t m s)
    (hmapped : Mapped t t' fpt vaLowEnd va pa perm) (hpa : pa % pageSize = 0)
    (hnew : ¬ Old pa → ∀ x < vaLowEnd, ∀ pb, (translation t fpt x).1 = some pb → pageBase pb ≠ pa) :
    ∀ x < vaLowEnd, ∀ y < vaLowEnd, ∀ pb pc, (translation t' fpt x).1 = some pb →
      (translation t' fpt y).1 = some pc → pageBase pb = pageBase pc → ¬ Old (pageBase pb) →
      pageBase x = pageBase y := by
  have hhere : ∀ x < vaLowEnd, ∀ pb, (translation t' fpt x).1 = some pb →
      (x / pageSize = va / pageSize ∧ pageBase pb = pa) ∨ (translation t fpt x).1 = some pb := by
    intro x hx pb hpb
    rw [hmapped x hx] at hpb
    split at hpb
    · rename_i hsame
      cases hpb
      exact .inl ⟨hsame, pageBase_add hpa (Nat.mod_lt _ (by decide))⟩
    · exact .inr hpb
  intro x hx y hy pb pc hpb hpc heq hold
  rcases hhere x hx pb hpb with ⟨hxva, hbase⟩ | hpb
  · rcases hhere y hy pc hpc with ⟨hyva, -⟩ | hpc
    · exact pageBase_eq_iff.mpr (hxva.trans hyva.symm)
    · rw [hbase] at heq hold
      exact absurd heq.symm (hnew hold y hy pc hpc)
  · rcases hhere y hy pc hpc with ⟨-, hbase⟩ | hpc
    · rw [heq, hbase] at hold
      exact absurd (heq.trans hbase) (hnew hold x hx pb hpb)
    · exact h.alone x hx y hy pb pc hpb hpc heq hold

omit hstart in
/-- A page that is not in use is written. -/
theorem CopyInv.alloc {bytes : List UInt8} (h : CopyInv source Old t₀ m₀ s₀ pt fpt va t m s)
    (hstart : ForkStart source Old t₀ s₀ pt fpt) (hva : va ≤ vaLowEnd) (hvalid : source.Valid s')
    (hmore : ∀ pg, source.InUse s pg → source.InUse s' pg)
    (hnew : ¬ source.InUse s npage) (hpage : npage % pageSize = 0)
    (hlen : bytes.length = pageSize) :
    CopyInv source Old t₀ m₀ s₀ pt fpt va t (Ring.store m npage bytes) s' := by
  have hother : ∀ a, source.InUse s (pageBase a) → Ring.store m npage bytes a = m a := fun a ha =>
    store_page hpage hlen fun heq => hnew (heq ▸ ha)
  refine ⟨h.grows.trans (h.grows.space.alloc hvalid hmore), fun a ha => ?_, fun x hx pa hpa =>
    hmore _ (h.frames x hx pa hpa), h.alone, fun x hx =>
    ⟨(h.done x hx).user, (h.done x hx).perms, fun huser => ?_⟩, h.todo⟩
  · rw [hother a (h.grows.inUse _ (hstart.inUse _ ha))]
    exact h.memory a ha
  · obtain ⟨pa, pa', hpa, hpa', hcontents, hkind⟩ := (h.done x hx).page huser
    refine ⟨pa, pa', hpa, hpa', ?_, hkind⟩
    rw [hother pa' (h.frames x (Nat.lt_of_lt_of_le hx hva) pa' hpa'), hcontents]

omit hstart in
/-- A page of the parent is mapped in the child. -/
theorem CopyInv.map {perm : Perm} (h : CopyInv source Old t₀ m₀ s₀ pt fpt va t m s)
    (halign : va % pageSize = 0) {pa₀ : Nat} (hpa₀ : (translation t₀ pt va).1 = some pa₀)
    (hpa : pa % pageSize = 0) (hg : Grows source fpt vaLowEnd t s t' s')
    (hmapped : Mapped t t' fpt vaLowEnd va pa perm)
    (hperm : perm &&& ptePWU = (translation t₀ pt va).2.1 &&& ptePWU) (hinUse : source.InUse s pa)
    (hcontents : ∀ o < pageSize, m (pa + o) = m₀ (pa₀ + o))
    (hkind : if Writable (translation t₀ pt va).2.1 ∧ (translation t₀ pt va).1 ≠ some consolePa then
      ¬ Old pa ∧ ∀ x < vaLowEnd, ∀ pb, (translation t fpt x).1 = some pb → pageBase pb ≠ pa
        else pa = pa₀ ∧ Old pa)
    (hmore : va + pageSize ≤ va') (hle : va' ≤ vaLowEnd)
    (hskip : ∀ b, va ≤ b → b < va' → pageBase b = va ∨ translation t₀ pt b = (none, 0#12, false)) :
    CopyInv source Old t₀ m₀ s₀ pt fpt va' t' m s' := by
  have hbase : pageBase va = va := Nat.div_mul_cancel (Nat.dvd_of_mod_eq_zero halign)
  have hsame : ∀ x, x / pageSize = va / pageSize ↔ pageBase x = va := by
    intro x
    rw [← pageBase_eq_iff, hbase]
  refine ⟨h.grows.trans hg, h.memory, fun x hx pb hpb => ?_, h.alone_of_mapped hmapped hpa
    fun hold => ?_, fun x hx => ?_, fun x hx hlt => ?_⟩
  · rw [hmapped x hx] at hpb
    split at hpb
    · cases hpb
      rw [pageBase_add hpa (Nat.mod_lt _ (by decide))]
      exact hg.inUse pa hinUse
    · exact hg.inUse _ (h.frames x hx pb hpb)
  · split at hkind
    · exact hkind.2
    · exact absurd hkind.2 hold
  · have hlow : x < vaLowEnd := Nat.lt_of_lt_of_le hx hle
    by_cases hx' : pageBase x = va
    · have hparent : translation t₀ pt x =
          (some (pa₀ + x % pageSize), (translation t₀ pt va).2) := by
        rw [translation_offset, hx', hpa₀]
        rfl
      have hchild : translation t' fpt x = (some (pa + x % pageSize), perm, true) := by
        rw [hmapped x hlow, if_pos ((hsame x).mpr hx')]
      have ho : x % pageSize < pageSize := Nat.mod_lt _ (by decide)
      refine ⟨?_, fun _ => ?_, fun _ => ⟨_, _, by rw [hparent], by rw [hchild], hcontents _ ho, ?_⟩⟩
      · rw [hparent, hchild]
        exact user_congr hperm
      · rw [hparent, hchild]
        exact hperm
      · rw [hx', hparent]
        split at hkind
        · rename_i hfresh
          rw [if_pos hfresh, pageBase_add hpa ho]
          exact hkind.1
        · rename_i hshared
          rw [if_neg hshared, hkind.1]
    · have hchild : translation t' fpt x = translation t fpt x := by
        rw [hmapped x hlow, if_neg fun heq => hx' ((hsame x).mp heq)]
      rcases Nat.lt_or_ge x va with hlt | hge
      · have hdone := h.done x hlt
        exact ⟨by rw [hchild]; exact hdone.user, by rw [hchild]; exact hdone.perms,
          by rw [hchild]; exact hdone.page⟩
      · have habsent := (hskip x hge hx).resolve_left hx'
        refine CopiedAt.absent ?_ ?_
        · rw [habsent]
          exact not_user_zero
        · rw [hchild, h.todo x hge hlow]
          exact not_user_zero
  · have hne : pageBase x ≠ va := by
      unfold pageBase pageSize at *
      omega
    rw [hmapped x hlt, if_neg fun heq => hne ((hsame x).mp heq)]
    exact h.todo x (by omega) hlt

/-- The walk goes on from an address that has been copied. -/
theorem ForkStart.next (hg : Grows source fpt vaLowEnd t₀ s₀ t s)
    (hg' : Grows source fpt vaLowEnd t₀ s₀ t' s') (hva : va < vaLowEnd)
    (halign : va % pageSize = 0) : ∃ va', (Vmiter.mk' t pt va).next t' = Vmiter.mk' t' pt va' ∧
      va + pageSize ≤ va' ∧ va' ≤ vaLowEnd ∧ va' % pageSize = 0 ∧
      ∀ b, va ≤ b → b < va' → pageBase b = va ∨ translation t₀ pt b = (none, 0#12, false) := by
  obtain ⟨va', hnext, hmore, hle, halign', hskip⟩ := @next_mk' t' pt _ hva halign
  refine ⟨va', ?_, ?_, hle, halign', fun b hb hb' => ?_⟩
  · rw [hstart.mk'_parent hg hva, ← hstart.mk'_parent hg' hva, hnext]
  · unfold pageSize at *
    omega
  · rw [← hstart.translation_parent hg' (Nat.lt_of_lt_of_le hb' hle)]
    exact hskip b hb hb'

/-- The parent's frames are old. -/
theorem ForkStart.old_frame {o : Nat} (hva : va < vaLowEnd) (halign : va % pageSize = 0)
    (hpa : (translation t₀ pt va).1 = some pa) (ho : o < pageSize) : Old (pageBase (pa + o)) := by
  have hlow : va + o < vaLowEnd := by
    unfold vaLowEnd pageSize at *
    omega
  have hmod : (va + o) % pageSize = o := by
    unfold pageSize at *
    omega
  refine hstart.frames (va + o) hlow (pa + o) ?_
  rw [translation_offset, pageBase_add halign ho, hpa, hmod]
  rfl

/-- **The loop.** -/
theorem copyLoop_spec :
    ∀ {fuel va : Nat} {t : Tables} {m : Mem} {s : σ}, CopyInv source Old t₀ m₀ s₀ pt fpt va t m s →
    va ≤ vaLowEnd → va % pageSize = 0 →
    copyLoop source.kallocpage fpt fuel (Vmiter.mk' t pt va) t m s = some (.done, t', m', s') →
    CopyInv source Old t₀ m₀ s₀ pt fpt vaLowEnd t' m' s' := by
  intro fuel
  induction fuel with
  | zero =>
    intro va t m s _ _ _ hrun
    cases hrun
  | succ fuel ih =>
    intro va t m s h hva halign hrun
    rcases Nat.lt_or_ge va vaLowEnd with hlt | hge
    · have hparent := hstart.translation_parent h.grows hlt
      cases copyLoop_round hlt hrun with
      | skip hnot rest =>
        obtain ⟨va', hnext, hmore, hle, halign', hskip⟩ := hstart.next h.grows h.grows hlt halign
        rw [hnext] at rest
        rw [hparent] at hnot
        exact ih (h.skip hnot (by omega) hle hskip) hle halign' rest
      | @copied s₁ s₂ npage pa t₂ _ huser hwritable hconsole halloc hpa hmap rest =>
        rw [hparent] at hpa huser hwritable hconsole hmap
        obtain ⟨s₁', r, hrun', hvalid, hinUse, hnew⟩ := source.spec s h.grows.space.valid
        rw [halloc] at hrun'
        cases hrun'
        have hmore : ∀ pg, source.InUse s pg → source.InUse _ pg :=
          fun pg hpg => (hinUse pg).mpr (.inr hpg)
        have hspace := (h.grows.space.alloc hvalid hmore).space
        obtain ⟨hpage, hg, ⟨r, hr, hmapped⟩, -⟩ := map_spec hspace hlt huser.present hmap
        have halloced :=
          h.alloc hstart hva hvalid hmore (hnew _ rfl) hpage (Ring.slice_length m pa pageSize)
        obtain ⟨va', hnext, hend, hle, halign', hskip⟩ :=
          hstart.next h.grows (halloced.grows.trans hg) hlt halign
        rw [hnext] at rest
        refine ih (halloced.map halign hpa hpage hg hmapped (perm_and_path hr)
          ((hinUse _).mpr (.inl rfl)) ?_ ?_ hend hle hskip) hle halign' rest
        · intro o ho
          rw [store_slice ho]
          exact h.memory _ (hstart.old_frame hlt halign hpa ho)
        · rw [if_pos ⟨hwritable, hconsole⟩]
          refine ⟨fun hold => hnew _ rfl (h.grows.inUse _ (hstart.inUse _ hold)),
            fun x hx pb hpb heq => ?_⟩
          exact hnew _ rfl (heq ▸ h.frames x hx pb hpb)
      | shared huser hnot hpa hmap rest =>
        rw [hparent] at hpa huser hnot hmap
        obtain ⟨hpage, hg, ⟨r, hr, hmapped⟩, -⟩ := map_spec h.grows.space hlt huser.present hmap
        obtain ⟨va', hnext, hend, hle, halign', hskip⟩ :=
          hstart.next h.grows (h.grows.trans hg) hlt halign
        rw [hnext] at rest
        have hold := hstart.old_frame hlt halign hpa (show 0 < pageSize by decide)
        rw [pageBase_add hpage (by decide)] at hold
        refine ih (h.map halign hpa hpage hg hmapped (perm_and_path hr)
          (h.grows.inUse _ (hstart.inUse _ hold)) ?_ ?_ hend hle hskip) hle halign' rest
        · exact fun o ho => h.memory _ (hstart.old_frame hlt halign hpa ho)
        · rw [if_neg hnot]
          exact ⟨rfl, hold⟩
    · have hend : va = vaLowEnd := Nat.le_antisymm hva hge
      have hlow : ¬ (Vmiter.mk' t pt va).low = true := by
        rw [mk'_eq, hend]
        exact fun hc => absurd (of_decide_eq_true hc) (Nat.lt_irrefl vaLowEnd)
      unfold copyLoop at hrun
      rw [if_neg hlow] at hrun
      cases hrun
      exact hend ▸ h

end

/-- What `process_fork` has made before it copies. -/
theorem forkMemory_copied {fproc fdtable : Nat} {e : CopyEnd} (hvalid : source.Valid s)
    (hparent : ∀ pg, TablePage t pt vaLowEnd pg → source.InUse s pg)
    (hmapped : ∀ x < vaLowEnd, ∀ pa, (translation t pt x).1 = some pa →
      source.InUse s (pageBase pa))
    (h : forkMemory source.kallocpage early pt t m s =
      some (.copied fproc fpt fdtable e, t', m', s')) :
    ∃ t₀ s₀, ForkStart source (source.InUse s) t₀ s₀ pt fpt ∧
      (∀ x < vaLowEnd, translation t₀ pt x = translation t pt x) ∧
      (∀ pg, source.InUse s₀ pg ↔ pg ∈ [fproc, fpt, fdtable] ∨ source.InUse s pg) ∧
      [fproc, fpt, fdtable].Nodup ∧ (∀ pg ∈ [fproc, fpt, fdtable], ¬ source.InUse s pg) ∧
      (∀ pg, TablePage t₀ fpt vaLowEnd pg → pg = fpt) ∧
      copyLoop source.kallocpage fpt PtIter.rounds (Vmiter.mk' t₀ pt 0) t₀ m s₀ =
      some (e, t', m', s') := by
  unfold forkMemory at h
  obtain ⟨s₁, r, hproc, hvalid₁, hinUse₁, hnew₁⟩ := source.spec s hvalid
  rw [hproc, Option.bind_some] at h
  cases r with
  | none => cases h
  | some proc =>
    obtain ⟨⟨t₂, s₂, r⟩, htable, h⟩ := Option.bind_eq_some_iff.mp h
    cases r with
    | none => cases h
    | some page =>
      obtain ⟨hspace, hnew₂, hinUse₂, hother, htop, hempty⟩ := kallocPagetable_spec hvalid₁ htable
      obtain ⟨s₃, r, hfds, hvalid₃, hinUse₃, hnew₃⟩ := source.spec s₂ hspace.valid
      dsimp only at h
      rw [hfds, Option.bind_some] at h
      cases r with
      | none => cases h
      | some fds =>
        obtain ⟨⟨e', r⟩, hcopy, heq⟩ := Option.map_eq_some_iff.mp h
        cases heq
        have hold₂ : ∀ pg, source.InUse s pg → source.InUse s₂ pg := fun pg hpg =>
          (hinUse₂ pg).mpr (.inr ((hinUse₁ pg).mpr (.inr hpg)))
        have hsame : ∀ pg, source.InUse s pg → t₂ pg = t pg := fun pg hpg =>
          hother pg fun heq => hnew₂ (heq ▸ (hinUse₁ pg).mpr (.inr hpg))
        have hwalk : ∀ l ≤ 3, ∀ x < vaLowEnd, ∀ pg, table t pt l x = some pg →
            t₂ pg (pageindex x l) = t pg (pageindex x l) :=
          fun l hl x hx pg hpg => by rw [hsame pg (hparent pg ⟨l, hl, x, hx, hpg⟩)]
        have htrans : ∀ x < vaLowEnd, translation t₂ pt x = translation t pt x := fun x hx =>
          translation_same fun l hl pg hpg => hwalk l hl x hx pg hpg
        have hspace₃ := (hspace.alloc hvalid₃ fun pg hpg => (hinUse₃ pg).mpr (.inr hpg)).space
        refine ⟨t₂, s₃, ⟨hspace₃, fun pg hpg => (hinUse₃ pg).mpr (.inr (hold₂ pg hpg)), ?_, ?_, ?_,
          hempty⟩, htrans, fun pg => ?_, ?_, ?_, htop, hcopy⟩
        · rintro pg ⟨l, hl, x, hx, hpg⟩
          rw [table_same (fun l' _ hl' pg hpg => hwalk l' hl' x hx pg hpg) hl] at hpg
          exact hparent pg ⟨l, hl, x, hx, hpg⟩
        · intro pg hpg hin
          exact hnew₂ (htop pg hpg ▸ (hinUse₁ pg).mpr (.inr hin))
        · intro x hx pa hpa
          rw [htrans x hx] at hpa
          exact hmapped x hx pa hpa
        · rw [hinUse₃, hinUse₂, hinUse₁]
          simp only [Option.some_inj, List.mem_cons, List.not_mem_nil, or_false]
          constructor
          · rintro (rfl | rfl | rfl | hpg)
            · exact .inl (.inr (.inr rfl))
            · exact .inl (.inr (.inl rfl))
            · exact .inl (.inl rfl)
            · exact .inr hpg
          · rintro ((rfl | rfl | rfl) | hpg)
            · exact .inr (.inr (.inl rfl))
            · exact .inr (.inl rfl)
            · exact .inl rfl
            · exact .inr (.inr (.inr hpg))
        · have h₁ : fproc ≠ fpt := fun heq => hnew₂ (heq ▸ (hinUse₁ fproc).mpr (.inl rfl))
          have h₂ : fproc ≠ fdtable := fun heq =>
            hnew₃ fdtable rfl (heq ▸ (hinUse₂ fproc).mpr (.inr ((hinUse₁ fproc).mpr (.inl rfl))))
          have h₃ : fpt ≠ fdtable :=
            fun heq => hnew₃ fdtable rfl (heq ▸ (hinUse₂ fpt).mpr (.inl rfl))
          simp [h₁, h₂, h₃]
        · intro pg hpg hin
          have hin₁ := (hinUse₁ pg).mpr (.inr hin)
          simp only [List.mem_cons, List.not_mem_nil, or_false] at hpg
          rcases hpg with rfl | rfl | rfl
          · exact hnew₁ pg rfl hin
          · exact hnew₂ hin₁
          · exact hnew₃ pg rfl ((hinUse₂ pg).mpr (.inr hin₁))

/-- **`process_fork` copies the address space exactly.** -/
theorem fork_copies (source : PageSource σ) {fproc fdtable : Nat} (hvalid : source.Valid s)
    (hparent : ∀ pg, TablePage t pt vaLowEnd pg → source.InUse s pg)
    (hmapped : ∀ x < vaLowEnd, ∀ pa, (translation t pt x).1 = some pa →
      source.InUse s (pageBase pa))
    (h : forkMemory source.kallocpage early pt t m s =
      some (.copied fproc fpt fdtable .done, t', m', s')) :
    (∀ x < vaLowEnd, CopiedAt (source.InUse s) t m t' m' pt fpt x) ∧
      (∀ x < vaLowEnd, ∀ pa, (translation t' fpt x).1 = some pa → ¬ source.InUse s (pageBase pa) →
        ∀ q ∈ [pt, fpt], ∀ y < vaLowEnd, ∀ pb, (translation t' q y).1 = some pb →
          pageBase pb = pageBase pa → q = fpt ∧ pageBase y = pageBase x) ∧
      (∀ x < vaLowEnd, translation t' pt x = translation t pt x) ∧
      ∀ a, source.InUse s (pageBase a) → m' a = m a := by
  obtain ⟨t₀, s₀, hstart, hsame, -, -, -, -, hrun⟩ := forkMemory_copied hvalid hparent hmapped h
  have hinv := copyLoop_spec hstart hstart.copyInv (Nat.zero_le _) (Nat.zero_mod _) hrun
  have hparent' : ∀ x < vaLowEnd, translation t' pt x = translation t pt x := fun x hx => by
    rw [hstart.translation_parent hinv.grows hx, hsame x hx]
  refine ⟨fun x hx => ?_, fun x hx pa hpa hnew q hq y hy pb hpb heq => ?_, hparent', hinv.memory⟩
  · obtain ⟨huser, hperms, hpage⟩ := hinv.done x hx
    have hle : pageBase x ≤ x := Nat.div_mul_le_self x pageSize
    rw [hsame x hx] at huser hperms hpage
    rw [hsame _ (Nat.lt_of_le_of_lt hle hx)] at hpage
    exact ⟨huser, hperms, hpage⟩
  · rcases List.mem_pair.mp hq with rfl | rfl
    · rw [hparent' y hy] at hpb
      rw [← heq] at hnew
      exact absurd (hmapped y hy pb hpb) hnew
    · rw [← heq] at hnew
      exact ⟨rfl, hinv.alone y hy x hx pb pa hpb hpa heq hnew⟩

end Copy

theorem fork_copies_oneUserPage : ∃ t' m' s',
    forkMemory pagesFrom.kallocpage 0 0x1000 oneUserPage (fun a => UInt8.ofNat a) 5 =
      some (.copied 0x6000 0x7000 0x8000 .done, t', m', s') ∧
    (∀ x < vaLowEnd, CopiedAt (pagesFrom.InUse 5) oneUserPage (fun a => UInt8.ofNat a) t' m' 0x1000
      0x7000 x) ∧ (∀ x < vaLowEnd, ∀ pa, (translation t' 0x7000 x).1 = some pa →
      ¬ pagesFrom.InUse 5 (pageBase pa) →
        ∀ q ∈ [0x1000, 0x7000], ∀ y < vaLowEnd, ∀ pb, (translation t' q y).1 = some pb →
          pageBase pb = pageBase pa → q = 0x7000 ∧ pageBase y = pageBase x) ∧
      (∀ x < vaLowEnd, translation t' 0x1000 x = translation oneUserPage 0x1000 x) ∧
      ∀ a, pagesFrom.InUse 5 (pageBase a) → m' a = UInt8.ofNat a := by
  have hrun : (forkMemory pagesFrom.kallocpage 0 0x1000 oneUserPage (fun a => UInt8.ofNat a) 5).map
      Prod.fst = some (.copied 0x6000 0x7000 0x8000 .done) := by decide +kernel
  obtain ⟨⟨stop, t', m', s'⟩, hrun, rfl⟩ := Option.map_eq_some_iff.mp hrun
  obtain ⟨hspace, r, hmapped⟩ := oneUserPage_spec (by decide : vaLowEnd ≤ vaEnd) (by decide)
  refine ⟨t', m', s', hrun, fork_copies pagesFrom trivial hspace.inUse (fun x hx pa hpa => ?_) hrun⟩
  rw [hmapped x hx] at hpa
  split at hpa
  · cases hpa
    exact ⟨2, by decide, pageBase_add rfl (Nat.mod_lt _ (by decide))⟩
  · rw [translation_eq rfl rfl] at hpa
    cases hpa

end PugOS.PageTable
