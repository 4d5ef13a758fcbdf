import PugOS.Fsck
import Mathlib.Data.List.Flatten
import Mathlib.Data.List.Nodup
import Mathlib.Data.List.Perm.Subperm

/-! # The checker is sound

What a consistent image is (`Consistent`) is said over the blocks and the directory entries
of its inodes, as the image has them, with no word of the checker.

The proof follows the walk.  A part of it that reports no error has marked certain blocks,
which were not marked before, and visited the inodes of certain entries (`Walks`); the
parts compose as the lists do.  Between two inodes of the worklist the blocks marked are
those of the areas and of the inodes done so far, and the inodes visited are the root and
those their entries lead to (`Inv`).
-/
namespace PugOS.Fsck
open Bytes Ring
open Journal (blocksize)
open ChkFS (ndirect nindirect maxsize bitsperblock sizeAddr directAddr indirectAddr indirect2Addr
  entryAddr bitSet)

/-! ## Consistent images -/

section Spec
variable (sb : Superblock) (m : Mem)

/-- The bitmap says that block `b` is allocated. -/
def Allocated (b : Nat) : Prop := bitSet (m (sb.fbbBn * blocksize + b / 8)).toNat b = false

/-- The block a pointer is to, if it is not null. -/
def blockRefs (b : Nat) : List Nat := if b = 0 then [] else [b]

/-- The block of pointers `b`, if the pointer to it is not null, and what `below` says of
each of its entries. -/
def indirectRefs (below : Nat → List Nat) (b : Nat) : List Nat :=
  if b = 0 then []
  else b :: (List.range nindirect).flatMap fun i => below (getLE m (entryAddr b i) 4)

/-- The blocks an inode refers to. -/
def refs (inum : Nat) : List Nat :=
  let ino := inodeAddr sb inum
  (List.range ndirect).flatMap (fun i => blockRefs (getLE m (directAddr ino i) 4)) ++
    indirectRefs m blockRefs (getLE m (indirectAddr ino) 4) ++
      indirectRefs m (indirectRefs m blockRefs) (getLE m (indirect2Addr ino) 4)

/-- The addresses of the entries in use of a directory's data block `b`, which is block
`idx` of its file. -/
def blockEntries (inum b idx : Nat) : List Nat :=
  if b = 0 ∨ inodeType sb m inum ≠ typeDirectory then []
  else (direntAddrs b (idx * blocksize) (inodeSize sb m inum)).filter fun a => getLE m a 4 ≠ 0

/-- The entries below a block of pointers, each of which stands for `n` blocks. -/
def indirectEntries (n : Nat) (below : Nat → Nat → List Nat) (b idx : Nat) : List Nat :=
  if b = 0 then []
  else (List.range nindirect).flatMap fun i => below (getLE m (entryAddr b i) 4) (idx + i * n)

/-- The addresses of a directory's entries in use. -/
def entries (inum : Nat) : List Nat :=
  let ino := inodeAddr sb inum
  (List.range ndirect).flatMap (fun i => blockEntries sb m inum (getLE m (directAddr ino i) 4) i) ++
    indirectEntries m 1 (blockEntries sb m inum) (getLE m (indirectAddr ino) 4) ndirect ++
      indirectEntries m nindirect (indirectEntries m 1 (blockEntries sb m inum))
        (getLE m (indirect2Addr ino) 4) (ndirect + nindirect)

/-- The inode an entry refers to, and its name. -/
def entryInum (a : Nat) : Nat := getLE m a 4
def entryName (a : Nat) : Name := slice m (a + 4) (strnlen m (a + 4) (maxnamelen + 1))

/-- The inodes a directory's entries refer to. -/
def links (inum : Nat) : List Nat := (entries sb m inum).map (entryInum m)

/-- The names in a directory. -/
def names (inum : Nat) : List Name := (entries sb m inum).map (entryName m)

/-- The inodes that can be reached from the root directory. -/
inductive Reachable : Nat → Prop
  | root : Reachable 1
  | entry {d i : Nat} : Reachable d → i ∈ links sb m d → Reachable i

/-- The blocks of the superblock, swap, bitmap, inode and journal areas. -/
def areaBlocks : List Nat :=
  0 :: List.range' sb.swapBn (sb.fbbBn - sb.swapBn) ++ List.range' sb.fbbBn
    (sb.inodeBn - sb.fbbBn) ++ List.range' sb.inodeBn (sb.dataBn - sb.inodeBn) ++
      List.range' sb.journalBn (sb.nblocks - sb.journalBn)

/-- The inodes of non-zero type. -/
def liveInodes : List Nat := (List.range sb.ninodes.toNat).filter fun i => inodeType sb m i ≠ 0

/-- The blocks that are referred to, each as often as it is. -/
def allRefs : List Nat := areaBlocks sb ++ (liveInodes sb m).flatMap (refs sb m)

/-- The entries of all directories. -/
def allLinks : List Nat := (liveInodes sb m).flatMap (links sb m)

/-- A consistent image. -/
structure Consistent : Prop where
  once : (allRefs sb m).Nodup
  inside : ∀ b ∈ allRefs sb m, b < sb.nblocks ∧ Allocated sb m b
  linked : ∀ i ∈ liveInodes sb m, i = 1 ∨ ∃ d, Reachable sb m d ∧ i ∈ links sb m d
  tree : ∀ i ∈ liveInodes sb m, inodeType sb m i = typeDirectory → (allLinks sb m).count i ≤ 1
  names : ∀ d ∈ liveInodes sb m, (names sb m d).Nodup

end Spec

/-! ## Walking -/

section Walk
variable {sb : Superblock} {m : Mem} {inum : Nat} {s s' : State} {D R L A R' A' : List Nat}

/-- Blocks `R` have been marked, inodes `L` visited, and every inode visited is in `D` or in
the queue. -/
structure Linked (sb : Superblock) (m : Mem) (s : State) (D R L : List Nat) : Prop where
  data : s.data = m
  nodup : R.Nodup
  marked : ∀ b, s.blocks b ≠ .unused ↔ b ∈ R
  inside : ∀ b ∈ R, b < sb.nblocks ∧ Allocated sb m b
  visits : ∀ i, (s.inodes i).visits = L.count i % 2 ^ 32
  known : ∀ i ∈ L, 0 < i ∧ i < sb.ninodes ∧ (s.inodes i).type = kindOf (inodeType sb m i)
  tree : ∀ i ∈ L, inodeType sb m i = typeDirectory → L.count i ≤ 1
  queued : ∀ i ∈ L, i ∈ D ∨ i ∈ s.inodeq
  queue : ∀ i ∈ s.inodeq, i ∈ L

/-- Inode `inum` is being visited, and the names of entries `A` of it have been entered. -/
structure Visiting (sb : Superblock) (m : Mem) (inum : Nat) (s : State) (D R L A : List Nat) : Prop
    extends Linked sb m s D R L where
  visited : inum ∈ L
  names : inodeType sb m inum = typeDirectory → ∃ c, s.contents = some c ∧
    (A.map (entryName m)).Nodup ∧ ∀ n, n ∈ c ↔ n ∈ A.map (entryName m)

/-- If `f` reports no error, it marks blocks `R` and visits the inodes of entries `A`. -/
structure Walks (sb : Superblock) (m : Mem) (inum : Nat) (f : State → Option State)
    (R A : List Nat) : Prop where
  clean : ∀ s s', f s = some s' → s'.errors = [] → s.errors = []
  visiting : ∀ s s' D R₀ L A₀, f s = some s' → s'.errors = [] → Visiting sb m inum s D R₀ L A₀ →
    Visiting sb m inum s' D (R₀ ++ R) (L ++ A.map (entryInum m)) (A₀ ++ A)

theorem Walks.skip : Walks sb m inum some [] [] := by
  refine ⟨?_, ?_⟩
  · rintro s s' ⟨⟩ h
    exact h
  · rintro s s' D R₀ L A₀ ⟨⟩ - h
    simpa using h

/-- An error is the end of it. -/
theorem Walks.error (e : State → Error) (R A : List Nat) :
    Walks sb m inum (fun s => some (s.eprintf (e s))) R A := by
  refine ⟨?_, ?_⟩
  · rintro s s' ⟨⟩ h
    cases h
  · rintro s s' D R₀ L A₀ ⟨⟩ h
    cases h

theorem Walks.bind {f g : State → Option State} (hf : Walks sb m inum f R A)
    (hg : Walks sb m inum g R' A') :
    Walks sb m inum (fun s => (f s).bind g) (R ++ R') (A ++ A') := by
  refine ⟨?_, ?_⟩
  · intro s s' h hclean
    obtain ⟨s₁, h₁, h₂⟩ := Option.bind_eq_some_iff.mp h
    exact hf.clean s s₁ h₁ (hg.clean s₁ s' h₂ hclean)
  · intro s s' D R₀ L A₀ h hclean hs
    obtain ⟨s₁, h₁, h₂⟩ := Option.bind_eq_some_iff.mp h
    have hs₁ := hf.visiting s s₁ D R₀ L A₀ h₁ (hg.clean s₁ s' h₂ hclean) hs
    have hs' := hg.visiting s₁ s' D _ _ _ h₂ hclean hs₁
    simpa [List.append_assoc] using hs'

/-- A loop walks what its steps do. -/
theorem Walks.fold {f : Nat → State → Option State} {R A : Nat → List Nat} :
    ∀ l : List Nat, (∀ k ∈ l, Walks sb m inum (f k) (R k) (A k)) →
      Walks sb m inum (fun s => l.foldlM (fun s k => f k s) s) (l.flatMap R) (l.flatMap A) := by
  intro l
  induction l with
  | nil => exact fun _ => Walks.skip
  | cons k l ih =>
    intro h
    have hk := h k List.mem_cons_self
    have hl := ih fun k' hk' => h k' (List.mem_cons_of_mem k hk')
    exact hk.bind hl

/-- What is read of the image is what it was at the start. -/
theorem Walks.read {α : Type} {f : α → State → Option State} {R A : α → List Nat} (g : Mem → α)
    (h : ∀ v, Walks sb m inum (f v) (R v) (A v)) :
    Walks sb m inum (fun s => f (g s.data) s) (R (g m)) (A (g m)) := by
  refine ⟨fun s s' hs => (h _).clean s s' hs, ?_⟩
  intro s s' D R₀ L A₀ hs hclean hv
  have hdata := hv.data
  rw [hdata] at hs
  exact (h _).visiting s s' D R₀ L A₀ hs hclean hv

/-- What is read of the inode's `type_` is what its type in the image says. -/
theorem Walks.readType {f : BlockType → State → Option State}
    (hclean : ∀ v s s', f v s = some s' → s'.errors = [] → s.errors = [])
    (h : Walks sb m inum (f (kindOf (inodeType sb m inum))) R A) :
    Walks sb m inum (fun s => f (s.inodes inum).type s) R A := by
  refine ⟨fun s s' => hclean _ s s', ?_⟩
  intro s s' D R₀ L A₀ hs hcl hv
  have htype := (hv.known inum hv.visited).2.2
  rw [htype] at hs
  exact h.visiting s s' D R₀ L A₀ hs hcl hv

/-! ## Steps without errors -/

theorem eprintfIf_clean {c : Bool} {e : Error} (h : (s.eprintfIf c e).errors = []) :
    c = false ∧ s.eprintfIf c e = s := by
  cases c with
  | false => exact ⟨rfl, rfl⟩
  | true => cases h

theorem eprintfIf_errors {c : Bool} {e : Error} (h : (s.eprintfIf c e).errors = []) :
    s.errors = [] := by
  rw [(eprintfIf_clean h).2] at h
  exact h

/-- A block is marked for the first time, and is allocated. -/
theorem visitBlock_clean {type : BlockType} {b : Nat} (h : visitBlock sb type b s = some s')
    (hclean : s'.errors = []) : b < sb.nblocks ∧ s.blocks b = .unused ∧ Allocated sb s.data b ∧
      s' = { s with blocks := Function.update s.blocks b type } := by
  unfold visitBlock at h
  split at h
  · rename_i hb
    split at h
    · obtain rfl := Option.some.inj h
      cases hclean
    · rename_i hun
      obtain rfl := Option.some.inj h
      obtain ⟨hbit, hs⟩ := eprintfIf_clean hclean
      exact ⟨hb, not_not.mp hun, hbit, hs⟩
  · cases h

/-- An inode is visited for the first time, and gets into the queue, or it is no directory. -/
theorem visitInode_clean {i : Nat} (h : visitInode sb i s = some s') (hclean : s'.errors = []) :
    0 < i ∧ i < sb.ninodes ∧ s.errors = [] ∧
      ((((s.inodes i).visits + 1) % 2 ^ 32 = 1 ∧
          s' = (s.setInode i ⟨1, kindOf (inodeType sb s.data i)⟩).push i) ∨
        (((s.inodes i).visits + 1) % 2 ^ 32 ≠ 1 ∧ (s.inodes i).type ≠ .directory ∧
          s' = s.setInode i ⟨((s.inodes i).visits + 1) % 2 ^ 32, (s.inodes i).type⟩)) := by
  unfold visitInode at h
  split at h
  · rename_i hi
    split at h
    · obtain rfl := Option.some.inj h
      cases hclean
    · rename_i hne
      have hpos : 0 < i := Nat.pos_of_ne_zero hne
      dsimp only at h
      split at h
      · rename_i hone
        obtain rfl := Option.some.inj h
        obtain ⟨-, hs⟩ := eprintfIf_clean (s := s.setInode i _) hclean
        rw [hs] at hclean ⊢
        rw [hone]
        exact ⟨hpos, hi, hclean, .inl ⟨rfl, rfl⟩⟩
      · rename_i hone
        obtain rfl := Option.some.inj h
        obtain ⟨htype, hs⟩ := eprintfIf_clean hclean
        rw [hs] at hclean ⊢
        exact ⟨hpos, hi, hclean, .inr ⟨hone, of_decide_eq_false htype, rfl⟩⟩
  · cases h

theorem checkName_clean {a : Nat} (h : (checkName a s).errors = []) : checkName a s = s := by
  unfold checkName at *
  dsimp only at *
  split at h
  · cases h
  · split at h
    · cases h
    · rename_i h₁ h₂
      rw [if_neg h₁, if_neg h₂]

theorem addName_clean {a : Nat} {name : Name} (h : addName a name s = some s')
    (hclean : s'.errors = []) : ∃ c, s.contents = some c ∧ name ∉ c ∧
    s' = { s with contents := some (name :: c) } := by
  unfold addName at h
  cases hc : s.contents with
  | none =>
    rw [hc] at h
    cases h
  | some c =>
    rw [hc] at h
    obtain rfl := Option.some.inj h
    refine ⟨c, rfl, ?_⟩
    split at hclean
    · cases hclean
    · rename_i hn
      exact ⟨hn, if_neg hn⟩

/-! ## What the steps mark -/

theorem Linked.visitBlock (hs : Linked sb m s D R L) {type : BlockType} {b : Nat}
    (htype : type ≠ .unused) (h : visitBlock sb type b s = some s') (hclean : s'.errors = []) :
    Linked sb m s' D (R ++ [b]) L := by
  obtain ⟨hb, hun, halloc, rfl⟩ := visitBlock_clean h hclean
  have hnew : b ∉ R := fun hR => (hs.marked b).mpr hR hun
  refine ⟨hs.data, ?_, ?_, ?_, hs.visits, hs.known, hs.tree, hs.queued, hs.queue⟩
  · rw [List.nodup_append]
    refine ⟨hs.nodup, List.nodup_singleton b, ?_⟩
    rintro x hx y hy rfl
    exact hnew (List.mem_singleton.mp hy ▸ hx)
  · intro x
    dsimp only
    rw [List.mem_append, List.mem_singleton]
    by_cases hx : x = b
    · rw [hx, Function.update_self]
      simp [htype]
    · rw [Function.update_of_ne hx, hs.marked x]
      simp [hx]
  · intro x hx
    rcases List.mem_append.mp hx with hx | hx
    · exact hs.inside x hx
    · rw [List.mem_singleton.mp hx]
      exact ⟨hb, hs.data ▸ halloc⟩

theorem setInode_self (s : State) (i : Nat) (info : InodeInfo) :
    (s.setInode i info).inodes i = info :=
  Function.update_self ..

theorem setInode_ne {i j : Nat} (s : State) (info : InodeInfo) (h : j ≠ i) :
    (s.setInode i info).inodes j = s.inodes j := Function.update_of_ne h ..

/-- An inode that counts no visits has had none, or `2 ^ 32` of them. -/
theorem Linked.mem_of_visits {i : Nat} (hs : Linked sb m s D R L)
    (h : ((s.inodes i).visits + 1) % 2 ^ 32 ≠ 1) : i ∈ L := by
  by_contra hn
  rw [hs.visits i, List.count_eq_zero_of_not_mem hn] at h
  exact h rfl

theorem count_visit {i j : Nat} (L : List Nat) :
    (L ++ [i]).count j = L.count j + if j = i then 1 else 0 := by
  rw [List.count_append, List.count_singleton]
  by_cases h : j = i
  · rw [if_pos h, h, beq_self_eq_true, if_pos rfl]
  · rw [if_neg h, if_neg]
    simpa using Ne.symm h

/-- The visit counts after a visit of inode `i`. -/
theorem Linked.visits_setInode {i : Nat} {τ : BlockType} (hs : Linked sb m s D R L) (j : Nat) :
    ((s.setInode i ⟨((s.inodes i).visits + 1) % 2 ^ 32, τ⟩).inodes j).visits =
      (L ++ [i]).count j % 2 ^ 32 := by
  rw [count_visit]
  by_cases hj : j = i
  · rw [hj, setInode_self, if_pos rfl, hs.visits i]
    exact Nat.mod_add_mod ..
  · rw [setInode_ne s _ hj, if_neg hj]
    exact hs.visits j

theorem Linked.visitInode {i : Nat} (hs : Linked sb m s D R L) (h : visitInode sb i s = some s')
    (hclean : s'.errors = []) : Linked sb m s' D R (L ++ [i]) := by
  obtain ⟨hpos, hi, -, ⟨hone, rfl⟩ | ⟨hone, htype, rfl⟩⟩ := visitInode_clean h hclean
  · have hvisits :=
      fun j => @Linked.visits_setInode _ _ _ _ _ _ i (kindOf (inodeType sb s.data i)) hs j
    rw [hone] at hvisits
    refine ⟨hs.data, hs.nodup, hs.marked, hs.inside, hvisits, ?_, ?_, ?_, ?_⟩
    · intro j hj
      change _ ∧ _ ∧ ((s.setInode i _).inodes j).type = _
      by_cases hji : j = i
      · subst hji
        rw [setInode_self, hs.data]
        exact ⟨hpos, hi, rfl⟩
      · rw [setInode_ne s _ hji]
        exact hs.known j (by simpa [hji] using hj)
    · intro j hj hdir
      rw [count_visit]
      by_cases hji : j = i
      · -- a directory is visited for the first time: its count cannot have wrapped
        subst hji
        rw [if_pos rfl]
        rw [hs.visits j] at hone
        by_cases hjL : j ∈ L
        · have := hs.tree j hjL hdir
          have := List.count_pos_iff.mpr hjL
          omega
        · rw [List.count_eq_zero_of_not_mem hjL]
      · rw [if_neg hji]
        exact hs.tree j (by simpa [hji] using hj) hdir
    · intro j hj
      change j ∈ D ∨ j ∈ s.inodeq ++ [i]
      rcases List.mem_append.mp hj with hj | hj
      · rcases hs.queued j hj with hD | hq
        · exact .inl hD
        · exact .inr (List.mem_append_left _ hq)
      · exact .inr (List.mem_append_right _ hj)
    · intro j hj
      have hj : j ∈ s.inodeq ++ [i] := hj
      rcases List.mem_append.mp hj with hj | hj
      · exact List.mem_append_left _ (hs.queue j hj)
      · exact List.mem_append_right _ hj
  · have hmem := hs.mem_of_visits hone
    have hsub : ∀ j ∈ L ++ [i], j ∈ L := by
      intro j hj
      rcases List.mem_append.mp hj with hj | hj
      · exact hj
      · rw [List.mem_singleton.mp hj]
        exact hmem
    have hkind := (hs.known i hmem).2.2
    refine ⟨hs.data, hs.nodup, hs.marked, hs.inside, hs.visits_setInode, ?_, ?_, ?_, ?_⟩
    · intro j hj
      have hknown := hs.known j (hsub j hj)
      by_cases hji : j = i
      · subst hji
        rw [setInode_self]
        exact hknown
      · rw [setInode_ne s _ hji]
        exact hknown
    · intro j hj hdir
      have hji : j ≠ i := by
        rintro rfl
        rw [hkind, kindOf, if_pos hdir] at htype
        exact htype rfl
      rw [count_visit, if_neg hji]
      exact hs.tree j (hsub j hj) hdir
    · exact fun j hj => hs.queued j (hsub j hj)
    · exact fun j hj => List.mem_append_left _ (hs.queue j hj)

/-! ## What the parts of the walk mark -/

theorem visitBlock_errors {type : BlockType} {b : Nat} (h : visitBlock sb type b s = some s')
    (hclean : s'.errors = []) : s.errors = [] := by
  obtain ⟨-, -, -, rfl⟩ := visitBlock_clean h hclean
  exact hclean

theorem walks_visitBlock {type : BlockType} (htype : type ≠ .unused) (b : Nat) :
    Walks sb m inum (visitBlock sb type b) [b] [] := by
  refine ⟨fun s s' => visitBlock_errors, ?_⟩
  intro s s' D R₀ L A₀ h hclean hs
  have hlinked := hs.toLinked.visitBlock htype h hclean
  obtain ⟨-, -, -, rfl⟩ := visitBlock_clean h hclean
  rw [List.map_nil, List.append_nil, List.append_nil]
  exact ⟨hlinked, hs.visited, hs.names⟩

/-- An entry in use that is no error has a new name and a valid inode number. -/
theorem visitDirent_clean {a : Nat} (h : visitDirent sb a s = some s') (hclean : s'.errors = []) :
    (getLE s.data a 4 = 0 ∧ s' = s) ∨ (getLE s.data a 4 ≠ 0 ∧ s.errors = [] ∧
      ∃ c, s.contents = some c ∧ entryName s.data a ∉ c ∧
        visitInode sb (getLE s.data a 4)
        { s with contents := some (entryName s.data a :: c) } = some s') := by
  unfold visitDirent at h
  dsimp only at h
  split at h
  · rename_i hne
    right
    obtain ⟨s₁, h₁, h₂⟩ := Option.bind_eq_some_iff.mp h
    split at h₂
    · rename_i hlt
      split at h₂
      · rename_i hnn
        have hcl₁ := (visitInode_clean h₂ hclean).2.2.1
        obtain ⟨c, hc, hnew, rfl⟩ := addName_clean h₁ hcl₁
        obtain ⟨-, hs₂⟩ := eprintfIf_clean (s := checkName a s) hcl₁
        rw [hs₂] at hc hcl₁ h₂
        have hs := checkName_clean hcl₁
        rw [hs] at hc hnew hcl₁ h₂
        have hinum : (toInt32 (getLE s.data a 4)).toNat = getLE s.data a 4 := by
          unfold toInt32 at hnn ⊢
          have := getLE_lt s.data a 4
          split at hnn
          · rw [if_pos (by assumption)]
            rfl
          · omega
        rw [hinum] at h₂
        refine ⟨?_, hcl₁, c, hc, hnew, h₂⟩
        intro hz
        rw [hz] at hne
        exact hne rfl
      · cases h₂
    · obtain rfl := Option.some.inj h₂
      cases hclean
  · rename_i hz
    left
    obtain rfl := Option.some.inj h
    refine ⟨?_, rfl⟩
    have := getLE_lt s.data a 4
    rw [not_not] at hz
    unfold toInt32 at hz
    split at hz <;> omega

theorem walks_visitDirent (hdir : inodeType sb m inum = typeDirectory) (a : Nat) :
    Walks sb m inum (visitDirent sb a) [] (if getLE m a 4 ≠ 0 then [a] else []) := by
  refine ⟨?_, ?_⟩
  · intro s s' h hclean
    obtain ⟨-, rfl⟩ | ⟨-, hs, -⟩ := visitDirent_clean h hclean
    · exact hclean
    · exact hs
  · intro s s' D R₀ L A₀ h hclean hs
    obtain rfl := hs.data
    obtain ⟨hz, rfl⟩ | ⟨hne, -, c, hc, hnew, hvisit⟩ := visitDirent_clean h hclean
    · rw [if_neg (not_not.mpr hz)]
      simpa using hs
    · rw [if_pos hne, List.append_nil]
      have hadd : Linked sb s.data { s with contents := some (entryName s.data a :: c) } D R₀ L :=
        ⟨rfl, hs.nodup, hs.marked, hs.inside, hs.visits, hs.known, hs.tree, hs.queued, hs.queue⟩
      have hlinked := hadd.visitInode hvisit hclean
      refine ⟨hlinked, List.mem_append_left _ hs.visited, fun _ => ?_⟩
      obtain ⟨c', hc', hnodup, hmem⟩ := hs.names hdir
      obtain rfl : c' = c := Option.some.inj (hc'.symm.trans hc)
      refine ⟨entryName s.data a :: c', ?_, ?_, ?_⟩
      · obtain ⟨-, -, -, ⟨-, rfl⟩ | ⟨-, -, rfl⟩⟩ := visitInode_clean hvisit hclean
        · rfl
        · rfl
      · rw [List.map_append, List.nodup_append]
        refine ⟨hnodup, List.nodup_singleton _, ?_⟩
        rintro x hx y hy rfl
        exact hnew ((hmem _).mpr (List.mem_singleton.mp hy ▸ hx))
      · intro n
        rw [List.mem_cons, hmem n, List.map_append, List.mem_append, List.map_singleton,
          List.mem_singleton, or_comm]

theorem filter_eq_flatMap {p : Nat → Bool} (l : List Nat) :
    l.filter p = l.flatMap fun a => if p a then [a] else [] := by
  induction l with
  | nil => rfl
  | cons a l ih =>
    rw [List.filter_cons, List.flatMap_cons, ih]
    cases p a <;> rfl

theorem walks_visitDirectoryData (hdir : inodeType sb m inum = typeDirectory) {b idx : Nat}
    (hb : b ≠ 0) : Walks sb m inum (visitDirectoryData sb b (idx * blocksize) (inodeSize sb m inum))
    []
      (blockEntries sb m inum b idx) := by
  have hwalk := Walks.fold (R := fun _ => [])
    (direntAddrs b (idx * blocksize) (inodeSize sb m inum)) fun a _ => walks_visitDirent hdir a
  have hentries : blockEntries sb m inum b idx =
      (direntAddrs b (idx * blocksize) (inodeSize sb m inum)).flatMap
        fun a => if getLE m a 4 ≠ 0 then [a] else [] := by
    rw [blockEntries, if_neg (by rw [not_or, not_not]; exact ⟨hb, hdir⟩), filter_eq_flatMap]
    simp
  have hrefs : (direntAddrs b (idx * blocksize) (inodeSize sb m inum)).flatMap
      (fun _ => ([] : List Nat)) = [] := List.flatMap_eq_nil_iff.mpr fun _ _ => rfl
  rw [hrefs, ← hentries] at hwalk
  exact hwalk

theorem kindOf_ne_unused (t : Nat) : kindOf t ≠ .unused := by
  unfold kindOf
  split <;> exact BlockType.noConfusion

theorem visitDirectoryData_errors {b pos sz : Nat} (h : visitDirectoryData sb b pos sz s = some s')
    (hclean : s'.errors = []) : s.errors = [] := by
  unfold visitDirectoryData at h
  generalize direntAddrs b pos sz = l at h
  induction l generalizing s with
  | nil =>
    obtain rfl := Option.some.inj h
    exact hclean
  | cons a l ih =>
    obtain ⟨s₁, h₁, h₂⟩ := Option.bind_eq_some_iff.mp h
    obtain ⟨-, rfl⟩ | ⟨-, hs, -⟩ := visitDirent_clean h₁ (ih h₂)
    · exact ih h₂
    · exact hs

theorem walks_visitData (b idx : Nat) :
    Walks sb m inum (visitData sb inum b idx (inodeSize sb m inum)) (blockRefs b)
      (blockEntries sb m inum b idx) := by
  unfold visitData blockRefs
  by_cases hb : b = 0
  · have hempty : blockEntries sb m inum b idx = [] := if_pos (.inl hb)
    rw [hempty]
    simpa [hb] using Walks.skip
  · simp only [ne_eq, hb, not_false_eq_true, if_true, if_false]
    by_cases hlt : b < sb.nblocks
    · simp only [hlt, if_true]
      have hmark : Walks sb m inum (fun s => visitBlock sb (s.inodes inum).type b s) [b] [] := by
        refine Walks.readType (f := fun type => visitBlock sb type b) ?_ ?_
        · exact fun _ _ _ => visitBlock_errors
        · exact walks_visitBlock (kindOf_ne_unused _) b
      suffices hdata : Walks sb m inum (fun s => if (s.inodes inum).type = .directory then
          visitDirectoryData sb b (idx * blocksize) (inodeSize sb m inum) s else some s) []
          (blockEntries sb m inum b idx) from hmark.bind hdata
      refine Walks.readType (f := fun type s => if type = .directory then
        visitDirectoryData sb b (idx * blocksize) (inodeSize sb m inum) s else some s) ?_ ?_
      · intro type s s' h hclean
        split at h
        · exact visitDirectoryData_errors h hclean
        · obtain rfl := Option.some.inj h
          exact hclean
      · by_cases hdir : inodeType sb m inum = typeDirectory
        · simpa [kindOf, hdir] using walks_visitDirectoryData hdir hb
        · have hempty : blockEntries sb m inum b idx = [] := if_pos (.inr hdir)
          rw [hempty]
          simpa [kindOf, hdir] using Walks.skip
    · simp only [hlt, if_false]
      exact Walks.error _ _ _

/-- A block of pointers: the block, and what its entries lead to. -/
theorem walks_indirect {type : BlockType} (htype : type ≠ .unused) (step : Nat)
    {visit : Nat → Nat → State → Option State} {R : Nat → List Nat} {A : Nat → Nat → List Nat}
    (h : ∀ b idx, Walks sb m inum (visit b idx) (R b) (A b idx)) (b idx : Nat) :
    Walks sb m inum (fun s => if b ≠ 0 then
        if b < sb.nblocks then
          (visitBlock sb type b s).bind fun s => (List.range nindirect).foldlM (fun s i =>
            visit (getLE s.data (entryAddr b i) 4) (idx + i * step) s) s
        else some (s.eprintf (.blockOutOfRange inum b))
      else some s)
      (indirectRefs m R b) (indirectEntries m step A b idx) := by
  unfold indirectRefs indirectEntries
  by_cases hb : b = 0
  · simpa [hb] using Walks.skip
  · simp only [ne_eq, hb, not_false_eq_true, if_true, if_false]
    by_cases hlt : b < sb.nblocks
    · simp only [hlt, if_true]
      have hentry := fun i => Walks.read (fun m => getLE m (entryAddr b i) 4) fun b =>
          h b (idx + i * step)
      have hfold := Walks.fold (List.range nindirect) fun i _ => hentry i
      have hall := (walks_visitBlock htype b).bind hfold
      rw [List.singleton_append, List.nil_append] at hall
      exact hall
    · simp only [hlt, if_false]
      exact Walks.error _ _ _

theorem walks_visitIndirect (b idx : Nat) :
    Walks sb m inum (visitIndirect sb inum b idx (inodeSize sb m inum)) (indirectRefs m blockRefs b)
      (indirectEntries m 1 (blockEntries sb m inum) b idx) := by
  have hdata : ∀ b idx, Walks sb m inum (visitData sb inum b idx (inodeSize sb m inum))
      (blockRefs b) (blockEntries sb m inum b idx) := walks_visitData
  have hwalk := walks_indirect (BlockType.noConfusion : BlockType.indirect ≠ .unused) 1 hdata b idx
  unfold visitIndirect
  simpa only [Nat.mul_one] using hwalk

theorem walks_visitIndirect2 (b idx : Nat) :
    Walks sb m inum (visitIndirect2 sb inum b idx (inodeSize sb m inum))
      (indirectRefs m (indirectRefs m blockRefs) b)
      (indirectEntries m nindirect (indirectEntries m 1 (blockEntries sb m inum)) b idx) :=
  walks_indirect BlockType.noConfusion nindirect walks_visitIndirect b idx

theorem walks_visitPointers :
    Walks sb m inum (visitPointers sb inum (inodeSize sb m inum)) (refs sb m inum)
      (entries sb m inum) := by
  unfold visitPointers refs entries
  dsimp only
  rw [List.append_assoc, List.append_assoc]
  have hdirect := fun i => Walks.read (fun m => getLE m (directAddr (inodeAddr sb inum) i) 4)
    fun b => (walks_visitData b i : Walks sb m inum _ _ _)
  have hindirect := Walks.read (fun m => getLE m (indirectAddr (inodeAddr sb inum)) 4)
    fun b => (walks_visitIndirect b ndirect : Walks sb m inum _ _ _)
  have hindirect2 := Walks.read (fun m => getLE m (indirect2Addr (inodeAddr sb inum)) 4)
    fun b => (walks_visitIndirect2 b (ndirect + nindirect) : Walks sb m inum _ _ _)
  exact (Walks.fold (List.range ndirect) fun i _ => hdirect i).bind (hindirect.bind hindirect2)

/-! ## The worklist -/

theorem startVisit_clean {sz : Nat} (h : (startVisit inum sz s).errors = []) :
    s.errors = [] ∧ startVisit inum sz s =
      if (s.inodes inum).type = .directory then { s with contents := some [] } else s := by
  unfold startVisit at *
  dsimp only at *
  have hs : s.eprintfIf (decide (maxsize < sz)) (.sizeTooBig inum) = s := by
    refine (eprintfIf_clean ?_).2
    split at h
    · have hopen := eprintfIf_errors h
      exact hopen
    · exact h
  rw [hs] at h ⊢
  split at h
  · rename_i hdir
    rw [if_pos hdir, if_pos hdir]
    have hopen := eprintfIf_errors h
    exact ⟨hopen, (eprintfIf_clean h).2⟩
  · rename_i hdir
    rw [if_neg hdir, if_neg hdir]
    exact ⟨h, rfl⟩

theorem finishVisit_errors (h : finishVisit sb inum s = some s') (hclean : s'.errors = []) :
    s.errors = [] := by
  unfold finishVisit at h
  obtain ⟨s₁, h₁, rfl⟩ := Option.map_eq_some_iff.mp h
  exact (startVisit_clean (walks_visitPointers.clean _ _ h₁ hclean)).1

/-- **A visited inode** has its blocks marked, its names are different, and the inodes its
entries lead to are visited. -/
theorem Linked.finishVisit {q : List Nat} (hs : Linked sb m s D R L) (hq : s.inodeq = inum :: q)
    (h : finishVisit sb inum { s with inodeq := q } = some s') (hclean : s'.errors = []) :
    Linked sb m s' (D ++ [inum]) (R ++ refs sb m inum) (L ++ links sb m inum) ∧
      (names sb m inum).Nodup := by
  unfold Fsck.finishVisit at h
  obtain ⟨s₁, h₁, rfl⟩ := Option.map_eq_some_iff.mp h
  have hmem : inum ∈ L := hs.queue inum (hq ▸ List.mem_cons_self)
  have htype := (hs.known inum hmem).2.2
  have hpopped : Linked sb m { s with inodeq := q } (D ++ [inum]) R L := by
    refine ⟨hs.data, hs.nodup, hs.marked, hs.inside, hs.visits, hs.known, hs.tree, ?_, ?_⟩
    · intro j hj
      rcases hs.queued j hj with hD | hj
      · exact .inl (List.mem_append_left _ hD)
      · rw [hq] at hj
        rcases List.mem_cons.mp hj with rfl | hj
        · exact .inl (List.mem_append_right _ (List.mem_singleton_self j))
        · exact .inr hj
    · exact fun j hj => hs.queue j (hq ▸ List.mem_cons_of_mem _ hj)
  have hdata : inodeSize sb s.data inum = inodeSize sb m inum := by rw [hs.data]
  dsimp only at h₁
  rw [hdata] at h₁
  have hstart := (startVisit_clean (walks_visitPointers.clean _ _ h₁ hclean)).2
  rw [hstart] at h₁
  have hvisiting : Visiting sb m inum (if (s.inodes inum).type = .directory then
      { s with inodeq := q, contents := some [] } else { s with inodeq := q }) (D ++ [inum]) R L
        [] := by
    rw [htype]
    by_cases hdir : inodeType sb m inum = typeDirectory
    · rw [kindOf, if_pos hdir, if_pos rfl]
      refine ⟨⟨hpopped.data, hpopped.nodup, hpopped.marked, hpopped.inside, hpopped.visits,
        hpopped.known, hpopped.tree, hpopped.queued, hpopped.queue⟩, hmem, fun _ => ?_⟩
      exact ⟨[], rfl, List.nodup_nil, fun _ => Iff.rfl⟩
    · rw [kindOf, if_neg hdir, if_neg BlockType.noConfusion]
      exact ⟨hpopped, hmem, fun h => absurd h hdir⟩
  have hdone := walks_visitPointers.visiting _ _ _ _ _ _ h₁ hclean hvisiting
  refine ⟨⟨hdone.data, hdone.nodup, hdone.marked, hdone.inside, hdone.visits, hdone.known,
    hdone.tree, hdone.queued, hdone.queue⟩, ?_⟩
  by_cases hdir : inodeType sb m inum = typeDirectory
  · obtain ⟨-, -, hnodup, -⟩ := hdone.names hdir
    exact hnodup
  · have hempty : entries sb m inum = [] := by
      have hblock : ∀ b idx, blockEntries sb m inum b idx = [] := fun b idx => if_pos (.inr hdir)
      simp [entries, indirectEntries, hblock]
    rw [names, hempty]
    exact List.nodup_nil

/-- What holds between two inodes of the worklist, `D` being the inodes done. -/
structure Inv (sb : Superblock) (m : Mem) (s : State) (D : List Nat) : Prop where
  linked : Linked sb m s D ((areas sb).flatMap Prod.snd ++ D.flatMap (refs sb m))
    (1 :: D.flatMap (links sb m))
  reachable : ∀ i ∈ 1 :: D.flatMap (links sb m), Reachable sb m i
  reached : ∀ d ∈ D, Reachable sb m d
  names : ∀ d ∈ D, (names sb m d).Nodup

theorem Inv.finishVisit {q : List Nat} (hs : Inv sb m s D) (hq : s.inodeq = inum :: q)
    (h : finishVisit sb inum { s with inodeq := q } = some s') (hclean : s'.errors = []) :
    Inv sb m s' (D ++ [inum]) := by
  obtain ⟨hlinked, hnames⟩ := hs.linked.finishVisit hq h hclean
  have hreach := hs.reachable inum (hs.linked.queue inum (hq ▸ List.mem_cons_self))
  have hlinks : 1 :: (D ++ [inum]).flatMap (links sb m) =
      (1 :: D.flatMap (links sb m)) ++ links sb m inum := by simp
  refine ⟨?_, ?_, ?_, ?_⟩
  · rw [hlinks, List.flatMap_append, List.flatMap_singleton, ← List.append_assoc]
    exact hlinked
  · intro i hi
    rw [hlinks] at hi
    rcases List.mem_append.mp hi with hi | hi
    · exact hs.reachable i hi
    · exact hreach.entry hi
  · intro d hd
    rcases List.mem_append.mp hd with hd | hd
    · exact hs.reached d hd
    · rw [List.mem_singleton.mp hd]
      exact hreach
  · intro d hd
    rcases List.mem_append.mp hd with hd | hd
    · exact hs.names d hd
    · rw [List.mem_singleton.mp hd]
      exact hnames

theorem clearInodeq_errors {fuel : Nat} (h : clearInodeq sb fuel s = some s')
    (hclean : s'.errors = []) : s.errors = [] := by
  induction fuel generalizing s with
  | zero =>
    rw [clearInodeq] at h
    split at h
    · obtain rfl := Option.some.inj h
      exact hclean
    · cases h
  | succ fuel ih =>
    rw [clearInodeq] at h
    split at h
    · obtain rfl := Option.some.inj h
      exact hclean
    · obtain ⟨s₁, h₁, h₂⟩ := Option.bind_eq_some_iff.mp h
      have hx := finishVisit_errors h₁ (ih h₂)
      exact hx

/-- **The worklist** is worked off with the invariant. -/
theorem Inv.clearInodeq {fuel : Nat} (hs : Inv sb m s D) (h : clearInodeq sb fuel s = some s')
    (hclean : s'.errors = []) : ∃ D', Inv sb m s' D' ∧ s'.inodeq = [] := by
  induction fuel generalizing s D with
  | zero =>
    rw [Fsck.clearInodeq] at h
    split at h
    · rename_i hq
      obtain rfl := Option.some.inj h
      exact ⟨D, hs, hq⟩
    · cases h
  | succ fuel ih =>
    rw [Fsck.clearInodeq] at h
    split at h
    · rename_i hq
      obtain rfl := Option.some.inj h
      exact ⟨D, hs, hq⟩
    · rename_i x q hq
      obtain ⟨s₁, h₁, h₂⟩ := Option.bind_eq_some_iff.mp h
      exact ih (hs.finishVisit hq h₁ (clearInodeq_errors h₂ hclean)) h₂

/-- A scan that finds no lost inode changes nothing. -/
theorem scan_clean {fuel : Nat} (h : scan sb fuel inum s = some s') (hclean : s'.errors = []) :
    s' = s ∧ ((s.inodes inum).visits = 0 → inodeType sb s.data inum = 0) := by
  unfold scan at h
  split at h
  · split at h
    · obtain ⟨s₁, h₁, h₂⟩ := Option.bind_eq_some_iff.mp h
      cases (visitInode_clean h₁ (clearInodeq_errors h₂ hclean)).2.2.1
    · rename_i htype
      obtain rfl := Option.some.inj h
      exact ⟨rfl, fun _ => not_not.mp htype⟩
  · rename_i hvisits
    obtain rfl := Option.some.inj h
    exact ⟨rfl, fun hz => absurd hz hvisits⟩

theorem scans_clean {fuel : Nat} : ∀ (l : List Nat) {s : State},
    l.foldlM (fun s inum => scan sb fuel inum s) s = some s' → s'.errors = [] →
      s' = s ∧ ∀ i ∈ l, (s.inodes i).visits = 0 → inodeType sb s.data i = 0 := by
  intro l
  induction l with
  | nil =>
    intro s h _
    exact ⟨(Option.some.inj h).symm, fun i hi => absurd hi List.not_mem_nil⟩
  | cons i l ih =>
    intro s h hclean
    obtain ⟨s₁, h₁, h₂⟩ := Option.bind_eq_some_iff.mp h
    obtain ⟨rfl, hl⟩ := ih h₂ hclean
    obtain ⟨rfl, hi⟩ := scan_clean h₁ hclean
    refine ⟨rfl, fun j hj => ?_⟩
    rcases List.mem_cons.mp hj with rfl | hj
    · exact hi
    · exact hl j hj

/-! ## The areas -/

theorem Linked.visitBlocks {type : BlockType} (htype : type ≠ .unused) :
    ∀ (l : List Nat) {s : State} {R : List Nat}, l.foldlM (fun s b => Fsck.visitBlock sb type b s)
    s = some s' → s'.errors = [] →
      s.errors = [] ∧ (Linked sb m s D R L → Linked sb m s' D (R ++ l) L) := by
  intro l
  induction l with
  | nil =>
    intro s R h hclean
    obtain rfl := Option.some.inj h
    rw [List.append_nil]
    exact ⟨hclean, id⟩
  | cons b l ih =>
    intro s R h hclean
    obtain ⟨s₁, h₁, h₂⟩ := Option.bind_eq_some_iff.mp h
    obtain ⟨hcl₁, hl⟩ := ih (R := R ++ [b]) h₂ hclean
    refine ⟨visitBlock_errors h₁ hcl₁, fun hs => ?_⟩
    rw [← List.singleton_append, ← List.append_assoc]
    exact hl (hs.visitBlock htype h₁ hcl₁)

theorem Linked.markBlocks : ∀ (l : List (BlockType × List Nat)) {s : State} {R : List Nat},
    (∀ area ∈ l, area.1 ≠ .unused) →
    l.foldlM (fun s area => area.2.foldlM (fun s b => Fsck.visitBlock sb area.1 b s) s) s =
      some s' → s'.errors = [] →
        s.errors = [] ∧ (Linked sb m s D R L → Linked sb m s' D (R ++ l.flatMap Prod.snd) L) := by
  intro l
  induction l with
  | nil =>
    intro s R _ h hclean
    obtain rfl := Option.some.inj h
    rw [List.flatMap_nil, List.append_nil]
    exact ⟨hclean, id⟩
  | cons area l ih =>
    intro s R htypes h hclean
    obtain ⟨harea, hl⟩ := List.forall_mem_cons.mp htypes
    obtain ⟨s₁, h₁, h₂⟩ := Option.bind_eq_some_iff.mp h
    obtain ⟨hcl₁, hrest⟩ := ih (R := R ++ area.2) hl h₂ hclean
    obtain ⟨hcl, hfirst⟩ := Linked.visitBlocks harea area.2 (R := R) h₁ hcl₁
    refine ⟨hcl, fun hs => ?_⟩
    rw [List.flatMap_cons, ← List.append_assoc]
    exact hrest (hfirst hs)

theorem superblockErrors_nil {size : Nat} (h : superblockErrors size sb = []) :
    ∀ c ∈ superblockChecks size sb, c.1 = true := by
  have hpass : ∀ l : List (Bool × Error),
      (l.filterMap fun c => if c.1 then none else some c.2) = [] → ∀ c ∈ l, c.1 = true := by
    intro l hl c hc
    have := List.filterMap_eq_nil_iff.mp hl c hc
    by_contra hf
    rw [if_neg hf] at this
    cases this
  unfold superblockErrors at h
  dsimp only at h
  by_cases hsize : size < blocksize
  · -- the second check fails
    rw [if_pos hsize] at h
    have hsecond := hpass _ h (decide (blocksize ≤ size), .tooSmall)
      (List.mem_cons_of_mem _ List.mem_cons_self)
    have := of_decide_eq_true hsecond
    omega
  · rw [if_neg hsize] at h
    exact hpass _ h

/-- What the checks say of the areas. -/
theorem superblock_order {size : Nat} (h : superblockErrors size sb = []) :
    sb.swapBn = 1 ∧ sb.fbbBn ≤ sb.inodeBn ∧ sb.inodeBn ≤ sb.dataBn ∧ sb.dataBn < sb.nblocks ∧
      sb.nblocks < 2 ^ 28 ∧ sb.journalBn ≤ sb.nblocks := by
  have hall := superblockErrors_nil h
  simp only [superblockChecks, List.forall_mem_cons, decide_eq_true_eq] at hall
  obtain ⟨-, -, -, hn, hswap, -, -, hinode, -, hdata, hfit, hjournal, -⟩ := hall
  exact ⟨hswap, Nat.le.intro hinode, Nat.le_of_add_right_le hdata, hfit, hn.2, hjournal.2⟩

theorem blockRange_eq {lo hi : Nat} (h : lo ≤ hi) (hhi : hi < 2 ^ 32) :
    blockRange lo hi = List.range' lo (hi - lo) := by
  have hlen : (hi + 2 ^ 32 - lo) % 2 ^ 32 = hi - lo := by omega
  rw [blockRange, hlen, List.range'_eq_map_range]
  refine List.map_congr_left fun i hi => ?_
  have := List.mem_range.mp hi
  exact Nat.mod_eq_of_lt (by omega)

theorem mem_blockRange {lo hi b : Nat} :
    b ∈ blockRange lo hi ↔ ∃ i < (hi + 2 ^ 32 - lo) % 2 ^ 32, (lo + i) % 2 ^ 32 = b := by
  simp only [blockRange, List.mem_map, List.mem_range]

theorem areas_eq {size : Nat} (h : superblockErrors size sb = [])
    (hin : ∀ b ∈ (areas sb).flatMap Prod.snd, b < sb.nblocks) :
    (areas sb).flatMap Prod.snd = areaBlocks sb := by
  obtain ⟨hswap, hfbb, hinode, hdata, hn, hjournal⟩ := superblock_order h
  have hpos : 1 ≤ sb.fbbBn := by
    by_contra hz
    -- the loop over the swap area would go on through every number
    have hlast : sb.nblocks ∈ blockRange sb.swapBn sb.fbbBn :=
      mem_blockRange.mpr ⟨sb.nblocks - 1, by omega, by omega⟩
    have hmem : sb.nblocks ∈ (areas sb).flatMap Prod.snd :=
      List.mem_flatMap.mpr ⟨_, List.mem_cons_of_mem _ List.mem_cons_self, hlast⟩
    exact absurd (hin _ hmem) (Nat.lt_irrefl _)
  simp only [areas, areaBlocks, List.flatMap_cons, List.flatMap_nil, List.append_nil,
    List.nil_append, List.append_assoc, List.cons_append]
  rw [blockRange_eq (by omega) (by omega), blockRange_eq hfbb (by omega),
    blockRange_eq hinode (by omega), blockRange_eq hjournal (by omega)]

/-! ## The end of the run -/

theorem subperm_flatMap {f : Nat → List Nat} {l₁ l₂ : List Nat} (hnodup : l₁.Nodup) (h : l₁ ⊆ l₂) :
    (l₁.flatMap f).Subperm (l₂.flatMap f) := by
  obtain ⟨l, hperm, hsub⟩ := hnodup.subperm h
  exact ⟨l.flatMap f, hperm.flatMap_right f, hsub.flatMap f⟩

/-- An empty worklist and no lost inode: the image is consistent. -/
theorem Inv.consistent (hs : Inv sb m s D) (hq : s.inodeq = [])
    (hareas : (areas sb).flatMap Prod.snd = areaBlocks sb)
    (hlost : ∀ i ∈ List.range sb.ninodes.toNat, (s.inodes i).visits = 0 → inodeType sb m i = 0) :
    Consistent sb m := by
  have hL : ∀ i ∈ liveInodes sb m, i ∈ 1 :: D.flatMap (links sb m) := by
    intro i hi
    obtain ⟨hi, htype⟩ := List.mem_filter.mp hi
    by_contra hn
    have hz := hs.linked.visits i
    rw [List.count_eq_zero_of_not_mem hn] at hz
    exact of_decide_eq_true htype (hlost i hi hz)
  have hdone : ∀ i ∈ 1 :: D.flatMap (links sb m), i ∈ D := by
    intro i hi
    rcases hs.linked.queued i hi with hD | hqi
    · exact hD
    · rw [hq] at hqi
      exact absurd hqi List.not_mem_nil
  have hlive : (liveInodes sb m).Nodup := List.nodup_range.filter _
  have hsub : liveInodes sb m ⊆ D := fun i hi => hdone i (hL i hi)
  have hrefs : (allRefs sb m).Subperm ((areas sb).flatMap Prod.snd ++ D.flatMap (refs sb m)) := by
    rw [hareas]
    exact (List.subperm_append_left _).mpr (subperm_flatMap hlive hsub)
  refine ⟨?_, ?_, ?_, ?_, ?_⟩
  · obtain ⟨l, hperm, hsublist⟩ := hrefs
    exact hperm.nodup (hs.linked.nodup.sublist hsublist)
  · exact fun b hb => hs.linked.inside b (hrefs.subset hb)
  · intro i hi
    rcases List.mem_cons.mp (hL i hi) with rfl | hmem
    · exact .inl rfl
    · obtain ⟨d, hd, hid⟩ := List.mem_flatMap.mp hmem
      exact .inr ⟨d, hs.reached d hd, hid⟩
  · intro i hi hdir
    have htree := hs.linked.tree i (hL i hi) hdir
    have hcount := (subperm_flatMap (f := links sb m) hlive hsub).count_le i
    rw [List.count_cons] at htree
    unfold allLinks
    omega
  · exact fun d hd => hs.names d (hsub hd)

theorem start_linked (m : Mem) : Linked sb m (start m []) [] [] [] := by
  refine ⟨rfl, List.nodup_nil, ?_, List.forall_mem_nil _, ?_, List.forall_mem_nil _,
    List.forall_mem_nil _, List.forall_mem_nil _, List.forall_mem_nil _⟩
  · intro b
    simp [start]
  · intro i
    rw [List.count_nil, Nat.zero_mod, start]

theorem areas_types : ∀ area ∈ areas sb, area.1 ≠ .unused := by
  simp [areas]

theorem checkInodes_consistent {size fuel : Nat} (hsb : superblockErrors size sb = [])
    (h : checkInodes sb fuel (start m []) = some s') (hclean : s'.errors = []) :
    Consistent sb m := by
  unfold checkInodes markBlocks at h
  obtain ⟨s₁, h₁, h⟩ := Option.bind_eq_some_iff.mp h
  obtain ⟨s₂, h₂, h⟩ := Option.bind_eq_some_iff.mp h
  obtain ⟨s₃, h₃, h₄⟩ := Option.bind_eq_some_iff.mp h
  obtain ⟨rfl, hlost⟩ := scans_clean _ h₄ hclean
  have hcl₂ := clearInodeq_errors h₃ hclean
  have hcl₁ := (visitInode_clean h₂ hcl₂).2.2.1
  have hmarked := (Linked.markBlocks _ areas_types h₁ hcl₁).2 (start_linked m)
  rw [List.nil_append] at hmarked
  have hroot : Inv sb m s₂ [] := by
    refine ⟨?_, ?_, List.forall_mem_nil _, List.forall_mem_nil _⟩
    · rw [List.flatMap_nil, List.flatMap_nil, List.append_nil]
      exact hmarked.visitInode h₂ hcl₂
    · rw [List.flatMap_nil]
      intro i hi
      rw [List.mem_singleton.mp hi]
      exact .root
  obtain ⟨D, hinv, hq⟩ := hroot.clearInodeq h₃ hclean
  have hareas := areas_eq hsb fun b hb => (hmarked.inside b hb).1
  refine hinv.consistent hq hareas fun i hi hv => ?_
  have hdata := hinv.linked.data
  rw [← hdata]
  exact hlost i hi hv

end Walk

/-- **The checker is sound**: an image it finds no error in is consistent. -/
theorem fsck_sound {fuel : Nat} {img : Image} {s : State} (h : fsck fuel img = some s)
    (hnerrors : s.nerrors = 0) : Consistent (superblock img.data) img.data := by
  have hclean : s.errors = [] := List.length_eq_zero_iff.mp hnerrors
  unfold fsck at h
  dsimp only at h
  split at h
  · rename_i hsb
    exact checkInodes_consistent hsb h hclean
  · rename_i hsb
    obtain rfl := Option.some.inj h
    exact absurd hclean hsb

/-- A root directory with one file, which is empty. -/
def small : Image where
  size := 20480
  data := image [(512, 8, magic), (520, 4, 5), (528, 4, 10), (536, 4, 1), (540, 4, 1), (544, 4, 2),
    (548, 4, 3), (552, 4, 5), (8256, 4, 2), (8260, 4, 128), (8276, 4, 3), (8320, 4, 1),
    (12288, 4, 2), (12292, 1, 97)]
  whole := by decide

theorem fsck_sound_small : ∃ s, fsck 3 small = some s ∧ s.nerrors = 0 ∧
    Consistent (superblock small.data) small.data := by
  have h : (fsck 3 small).map State.nerrors = some 0 := by decide +kernel
  obtain ⟨s, hs, hn⟩ := Option.map_eq_some_iff.mp h
  exact ⟨s, hs, hn, fsck_sound hs hn⟩

end PugOS.Fsck
