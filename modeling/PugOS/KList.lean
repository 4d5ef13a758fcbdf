import Mathlib.Data.List.Chain
import Mathlib.Data.List.Nodup
import Mathlib.Logic.Function.Basic

/-! # Intrusive lists

`list_links` and `list`.  A heap maps the address of each `list_links` to its two pointers, 0 for
null; a list is the address of its `head_`, and an element is an address of its own, `off` bytes
before its links.

A list with the links `zs` is a closed walk from its head through `zs` back to the head (`Circle`).
Insertion and removal change a walk at one edge (`chain_insert`, `chain_remove`), and swapping moves
the inside of a walk to another head (`chain_rehead`); where a list is empty, the neighbours that
are redirected are the head itself.  So the operations on any number of lists are those on sequences
(`lists_refine`).
-/
namespace PugOS.KList

/-- `list_links`. -/
@[ext] structure Links where
  next : Nat
  prev : Nat
  deriving DecidableEq

/-- `next_` and `prev_` are null. -/
def Links.null : Links := ⟨0, 0⟩

/-- The `list_links` at each address. -/
abbrev Heap : Type := Nat → Links

section Code
variable (m : Heap)

/-- `a->next_ = v`. -/
def setNext (a v : Nat) : Heap := Function.update m a { m a with next := v }

/-- `a->prev_ = v`. -/
def setPrev (a v : Nat) : Heap := Function.update m a { m a with prev := v }

/-- `list_links::reset`. -/
def reset (a : Nat) : Heap := Function.update m a .null

/-- `list_links::erase`; none for a failed assertion. -/
def erase (a : Nat) : Option Heap :=
  if (m a).next ≠ 0 ∧ (m a).prev ≠ 0 then
    let m₁ := setNext m (m a).prev (m a).next
    let m₂ := setPrev m₁ (m₁ a).next (m₁ a).prev
    some (reset m₂ a)
  else none

/-- `a->insert_before(position)`. -/
def insertBefore (a position : Nat) : Option Heap :=
  if (m position).next ≠ 0 ∧ (m position).prev ≠ 0 ∧ (m a).next = 0 ∧ (m a).prev = 0 then
    let m₁ := setPrev m a (m position).prev
    let m₂ := setNext m₁ a position
    let m₃ := setNext m₂ (m₂ position).prev a
    some (setPrev m₃ position a)
  else none

variable (off h : Nat)

/-- The links of the element `x`. -/
def link (x : Nat) : Nat := x + off

/-- `from_links`. -/
def fromLinks (a : Nat) : Nat := a - off

/-- `empty`. -/
def empty : Bool := (m h).next = h

/-- `front`; none for null. -/
def front : Option Nat := if empty m h then none else some (fromLinks off (m h).next)

/-- `back`; none for null. -/
def back : Option Nat := if empty m h then none else some (fromLinks off (m h).prev)

/-- `push_front`. -/
def pushFront (x : Nat) : Option Heap := insertBefore m (link off x) (m h).next

/-- `push_back`. -/
def pushBack (x : Nat) : Option Heap := insertBefore m (link off x) h

/-- `erase`. -/
def eraseElem (x : Nat) : Option Heap := erase m (link off x)

/-- `pop_front`: the element and the heap.  The source tests the element for null; an element is not
at address 0, and here one that were would count as any other. -/
def popFront : Option (Option Nat × Heap) :=
  match front m off h with
  | none => some (none, m)
  | some x => (eraseElem m off x).map fun m => (some x, m)

/-- `pop_back`. -/
def popBack : Option (Option Nat × Heap) :=
  match back m off h with
  | none => some (none, m)
  | some x => (eraseElem m off x).map fun m => (some x, m)

/-- `swap`: the neighbours of each head are redirected to the other one, and then the heads are
exchanged. -/
def swap (other : Nat) : Heap :=
  let m₁ := setPrev (setNext m (m h).prev other) (m h).next other
  let m₂ := setPrev (setNext m₁ (m₁ other).prev h) (m₁ other).next h
  Function.update (Function.update m₂ h (m₂ other)) other (m₂ h)

end Code

/-! ## Walks -/

/-- `b` is linked after `a`. -/
def Edge (m : Heap) (a b : Nat) : Prop := (m a).next = b ∧ (m b).prev = a

/-- A walk in a heap is one in another where the pointers along it are the same. -/
theorem chain_congr {m m' : Heap} {l : List Nat} (h : l.IsChain (Edge m))
    (hnext : ∀ a ∈ l.dropLast, (m' a).next = (m a).next)
    (hprev : ∀ a ∈ l.tail, (m' a).prev = (m a).prev) : l.IsChain (Edge m') := by
  induction l with
  | nil => exact .nil
  | cons a l ih =>
    cases l with
    | nil => exact .singleton a
    | cons b l =>
      obtain ⟨hedge, hrest⟩ := List.isChain_cons_cons.mp h
      rw [List.dropLast_cons_cons] at hnext
      refine List.isChain_cons_cons.mpr ⟨⟨?_, ?_⟩,
        ih hrest (fun c hc => hnext c (List.mem_cons_of_mem a hc)) fun c hc => ?_⟩
      · rw [hnext a List.mem_cons_self]
        exact hedge.1
      · rw [hprev b List.mem_cons_self]
        exact hedge.2
      · exact hprev c (List.mem_cons_of_mem b hc)

/-- The places of a walk that goes through no place twice but may end where it starts. -/
structure Simple (l : List Nat) : Prop where
  starts : l.dropLast.Nodup
  ends : l.tail.Nodup

section Walk
variable {m m' : Heap} {u v : List Nat} {p n z : Nat}

theorem dropLast_split (u v : List Nat) (p n : Nat) :
    (u ++ p :: n :: v).dropLast = u ++ p :: (n :: v).dropLast := by
  rw [List.dropLast_append_of_ne_nil (List.cons_ne_nil _ _), List.dropLast_cons_cons]

/-- On either side of an edge, the pointers along it are met nowhere else. -/
theorem Simple.apart (h : Simple (u ++ p :: n :: v)) :
    (∀ a ∈ u, a ≠ p) ∧ (∀ a ∈ (n :: v).dropLast, a ≠ p) ∧ (∀ a ∈ (u ++ [p]).tail, a ≠ n) ∧
      (∀ a ∈ v, a ≠ n) := by
  have hstarts := h.starts
  rw [dropLast_split] at hstarts
  obtain ⟨-, hright, hcross⟩ := List.nodup_append.mp hstarts
  have hends := h.ends
  refine ⟨fun a ha => hcross a ha p List.mem_cons_self, fun a ha hap => ?_, ?_⟩
  · rw [← hap] at hright
    exact (List.nodup_cons.mp hright).1 ha
  · cases u with
    | nil =>
      refine ⟨fun a ha => absurd ha List.not_mem_nil, fun a ha han => ?_⟩
      rw [← han] at hends
      exact (List.nodup_cons.mp hends).1 ha
    | cons a u =>
      have hsplit : (a :: u ++ p :: n :: v).tail = (u ++ [p]) ++ n :: v := by simp
      rw [hsplit] at hends
      obtain ⟨-, hn, hcross⟩ := List.nodup_append.mp hends
      refine ⟨fun b hb => hcross b hb n List.mem_cons_self, fun b hb hbn => ?_⟩
      rw [← hbn] at hn
      exact (List.nodup_cons.mp hn).1 hb

/-- The two sides of an edge when nothing along them changes but the pointers of the edge. -/
theorem sides_congr (hs : Simple (u ++ p :: n :: v))
    (hnext : ∀ a ∈ u ++ p :: n :: v, a ≠ p → (m' a).next = (m a).next)
    (hprev : ∀ a ∈ u ++ p :: n :: v, a ≠ n → (m' a).prev = (m a).prev)
    (hleft : (u ++ [p]).IsChain (Edge m)) (hright : (n :: v).IsChain (Edge m)) :
    (u ++ [p]).IsChain (Edge m') ∧ (n :: v).IsChain (Edge m') := by
  obtain ⟨hu, hv, hu', hv'⟩ := hs.apart
  constructor
  · refine chain_congr hleft (fun a ha => ?_) fun a ha => ?_
    · rw [List.dropLast_concat] at ha
      exact hnext a (List.mem_append_left _ ha) (hu a ha)
    · have hmem : a ∈ u ++ [p] := List.mem_of_mem_tail ha
      refine hprev a ?_ (hu' a ha)
      rw [List.mem_append, List.mem_singleton] at hmem
      rcases hmem with hmem | rfl
      · exact List.mem_append_left _ hmem
      · exact List.mem_append_right _ List.mem_cons_self
  · refine chain_congr hright (fun a ha => ?_) fun a ha => ?_
    · have hmem : a ∈ n :: v := (List.dropLast_sublist _).subset ha
      exact hnext a (List.mem_append_right _ (List.mem_cons_of_mem p hmem)) (hv a ha)
    · have hmem : a ∈ n :: v := List.mem_of_mem_tail ha
      exact hprev a (List.mem_append_right _ (List.mem_cons_of_mem p hmem)) (hv' a ha)

/-- A place put into an edge. -/
theorem chain_insert (h : (u ++ p :: n :: v).IsChain (Edge m)) (hs : Simple (u ++ p :: n :: v))
    (hnext : ∀ a ∈ u ++ p :: n :: v, (m' a).next = if a = p then z else (m a).next)
    (hprev : ∀ a ∈ u ++ p :: n :: v, (m' a).prev = if a = n then z else (m a).prev)
    (hself : m' z = ⟨n, p⟩) : (u ++ p :: z :: n :: v).IsChain (Edge m') := by
  obtain ⟨hleft, -, hright⟩ := List.isChain_append_cons_cons.mp h
  obtain ⟨hleft', hright'⟩ := sides_congr hs (fun a ha hap => by rw [hnext a ha, if_neg hap])
    (fun a ha han => by rw [hprev a ha, if_neg han]) hleft hright
  have hp : (m' p).next = z := by rw [hnext p (by simp), if_pos rfl]
  have hn : (m' n).prev = z := by rw [hprev n (by simp), if_pos rfl]
  refine List.isChain_append_cons_cons.mpr ⟨hleft', ⟨hp, by rw [hself]⟩, ?_⟩
  exact List.isChain_cons_cons.mpr ⟨⟨by rw [hself], hn⟩, hright'⟩

/-- A place taken out of a walk. -/
theorem chain_remove (h : (u ++ p :: z :: n :: v).IsChain (Edge m)) (hs : Simple (u ++ p :: n :: v))
    (hnext : ∀ a ∈ u ++ p :: n :: v, (m' a).next = if a = p then n else (m a).next)
    (hprev : ∀ a ∈ u ++ p :: n :: v, (m' a).prev = if a = n then p else (m a).prev) :
    (u ++ p :: n :: v).IsChain (Edge m') := by
  obtain ⟨hleft, -, hrest⟩ := List.isChain_append_cons_cons.mp h
  obtain ⟨-, hright⟩ := List.isChain_cons_cons.mp hrest
  obtain ⟨hleft', hright'⟩ := sides_congr hs (fun a ha hap => by rw [hnext a ha, if_neg hap])
    (fun a ha han => by rw [hprev a ha, if_neg han]) hleft hright
  have hp : (m' p).next = n := by rw [hnext p (by simp), if_pos rfl]
  have hn : (m' n).prev = p := by rw [hprev n (by simp), if_pos rfl]
  exact List.isChain_append_cons_cons.mpr ⟨hleft', ⟨hp, hn⟩, hright'⟩

/-- The ends of the inside of a walk. -/
theorem walk_ends {h x y : Nat} {zs : List Nat} (hwalk : (h :: (zs ++ [h])).IsChain (Edge m))
    (hx : zs.head? = some x) (hy : zs.getLast? = some y) : Edge m h x ∧ zs.IsChain (Edge m) ∧
    Edge m y h := by
  obtain ⟨hfirst, hrest⟩ := List.isChain_cons.mp hwalk
  obtain ⟨hzs, -, hlast⟩ := List.isChain_append.mp hrest
  refine ⟨hfirst x ?_, hzs, hlast y hy h rfl⟩
  rw [List.head?_append, hx]
  rfl

/-- The inside of a walk with the ends moved to another place. -/
theorem chain_rehead {h o x y : Nat} {zs : List Nat} (hwalk : (h :: (zs ++ [h])).IsChain (Edge m))
    (hx : zs.head? = some x) (hy : zs.getLast? = some y) (hnodup : zs.Nodup)
    (hnext : ∀ a ∈ zs, (m' a).next = if a = y then o else (m a).next)
    (hprev : ∀ a ∈ zs, (m' a).prev = if a = x then o else (m a).prev) (hself : m' o = m h) :
    (o :: (zs ++ [o])).IsChain (Edge m') := by
  obtain ⟨hfirst, hzs, hlast⟩ := walk_ends hwalk hx hy
  obtain ⟨rest, rfl⟩ : ∃ rest, zs = x :: rest := by
    cases zs with
    | nil => cases hx
    | cons a rest =>
      cases hx
      exact ⟨rest, rfl⟩
  have hymem : y ∈ x :: rest := List.mem_of_getLast? hy
  have hinside : (x :: rest).IsChain (Edge m') := by
    refine chain_congr hzs (fun a ha => ?_) fun a ha => ?_
    · have hmem : a ∈ x :: rest := (List.dropLast_sublist _).subset ha
      have hne : a ≠ y := by
        rintro rfl
        have hsplit := List.dropLast_append_getLast? a hy
        rw [← hsplit] at hnodup
        exact (List.nodup_append.mp hnodup).2.2 a ha a (List.mem_singleton_self a) rfl
      rw [hnext a hmem, if_neg hne]
    · have hmem : a ∈ x :: rest := List.mem_of_mem_tail ha
      have hne : a ≠ x := by
        rintro rfl
        exact (List.nodup_cons.mp hnodup).1 ha
      rw [hprev a hmem, if_neg hne]
  refine List.isChain_cons.mpr ⟨fun a ha => ?_,
    List.isChain_append.mpr ⟨hinside, .singleton o, fun a ha b hb => ?_⟩⟩
  · cases ha
    refine ⟨?_, by rw [hprev x List.mem_cons_self, if_pos rfl]⟩
    rw [hself]
    exact hfirst.1
  · cases hb
    rw [hy] at ha
    cases ha
    refine ⟨by rw [hnext y hymem, if_pos rfl], ?_⟩
    rw [hself]
    exact hlast.2

end Walk

/-! ## What the operations do to pointers -/

section Pointers
variable {m : Heap} {z p n : Nat}

theorem insertBefore_spec (hprev : (m n).prev = p) (hnext : (m n).next ≠ 0) (hp : p ≠ 0)
    (hz : m z = .null) (hzn : z ≠ n) (hzp : z ≠ p) : ∃ m', insertBefore m z n = some m' ∧
    m' z = ⟨n, p⟩ ∧
      (∀ a, a ≠ z → (m' a).next = if a = p then z else (m a).next) ∧
      ∀ a, a ≠ z → (m' a).prev = if a = n then z else (m a).prev := by
  have hguard : (m n).next ≠ 0 ∧ (m n).prev ≠ 0 ∧ (m z).next = 0 ∧ (m z).prev = 0 := by
    rw [hz, hprev]
    exact ⟨hnext, hp, rfl, rfl⟩
  refine ⟨_, if_pos hguard, ?_, fun a ha => ?_, fun a ha => ?_⟩
  · simp [setNext, setPrev, hprev, hzn, hzp, hzn.symm]
  · by_cases hap : a = p <;> by_cases han : a = n <;>
      simp [setNext, setPrev, hprev, hzn.symm, ha, hap, han, Function.update_apply] <;> grind
  · by_cases hap : a = p <;> by_cases han : a = n <;>
      simp [setNext, setPrev, hprev, hzn.symm, ha, hap, han, Function.update_apply] <;> grind

theorem erase_spec (hprev : (m z).prev = p) (hnext : (m z).next = n) (hp : p ≠ 0) (hn : n ≠ 0)
    (hzp : z ≠ p) (hzn : z ≠ n) : ∃ m', erase m z = some m' ∧ m' z = .null ∧
      (∀ a, a ≠ z → (m' a).next = if a = p then n else (m a).next) ∧
      ∀ a, a ≠ z → (m' a).prev = if a = n then p else (m a).prev := by
  have hguard : (m z).next ≠ 0 ∧ (m z).prev ≠ 0 := by
    rw [hnext, hprev]
    exact ⟨hn, hp⟩
  refine ⟨_, if_pos hguard, Function.update_self _ _ _, fun a ha => ?_, fun a ha => ?_⟩
  · by_cases hap : a = p <;> by_cases han : a = n <;>
      simp [setNext, setPrev, reset, hprev, hnext, hzp, ha, hap, han, Function.update_apply] <;>
        grind
  · by_cases hap : a = p <;> by_cases han : a = n <;>
      simp [setNext, setPrev, reset, hprev, hnext, hzp, ha, hap, han, Function.update_apply] <;>
        grind

end Pointers

/-! ## One list -/

/-- The list at `h` is well formed, with the links `zs`. -/
structure Circle (m : Heap) (h : Nat) (zs : List Nat) : Prop where
  walk : (h :: (zs ++ [h])).IsChain (Edge m)
  nodup : (h :: zs).Nodup
  nonnull : 0 ∉ h :: zs

theorem simple_circle {h : Nat} {zs : List Nat} (hnodup : (h :: zs).Nodup) :
    Simple (h :: (zs ++ [h])) := by
  refine ⟨?_, ?_⟩
  · rw [← List.cons_append, List.dropLast_concat]
    exact hnodup
  · rw [List.tail_cons]
    exact (List.perm_append_singleton h zs).nodup_iff.mpr hnodup

/-- The edge of a walk between two parts of the inside. -/
theorem walk_split (h : Nat) (as bs : List Nat) : ∃ u p n v, h :: as = u ++ [p] ∧
    bs ++ [h] = n :: v ∧ (h :: ((as ++ bs) ++ [h])) = u ++ p :: n :: v ∧
    (∀ z, (h :: ((as ++ z :: bs) ++ [h])) = u ++ p :: z :: n :: v) ∧
    ∀ a ∈ u ++ p :: n :: v, a ∈ h :: (as ++ bs) := by
  obtain ⟨u, p, hu⟩ : ∃ u p, h :: as = u ++ [p] := by
    obtain hnil | ⟨u, p, hu⟩ := List.eq_nil_or_concat (h :: as)
    · cases hnil
    · exact ⟨u, p, hu.trans List.concat_eq_append⟩
  obtain ⟨n, v, hv⟩ : ∃ n v, bs ++ [h] = n :: v := by
    cases bs with
    | nil => exact ⟨h, [], rfl⟩
    | cons b bs => exact ⟨b, bs ++ [h], rfl⟩
  have hwalk : (h :: ((as ++ bs) ++ [h])) = u ++ p :: n :: v := by
    rw [List.append_assoc, hv, ← List.cons_append, hu, List.append_assoc]
    rfl
  refine ⟨u, p, n, v, hu, hv, hwalk, fun z => ?_, fun a ha => ?_⟩
  · rw [List.append_assoc, List.cons_append, hv, ← List.cons_append, hu, List.append_assoc]
    rfl
  · rw [← hwalk] at ha
    simp only [List.mem_cons, List.mem_append] at ha ⊢
    tauto

section Circle
variable {m : Heap} {h z : Nat} {as bs zs : List Nat}

theorem Circle.places_mem {a : Nat} (h' : a ∈ zs ++ [h]) : a ∈ h :: zs := by
  rw [List.mem_append, List.mem_singleton] at h'
  rcases h' with h' | rfl
  · exact List.mem_cons_of_mem h h'
  · exact List.mem_cons_self

/-- Both pointers of a place of the list are to places of the list. -/
theorem Circle.links_mem (hc : Circle m h zs) {a : Nat} (ha : a ∈ h :: zs) : (m a).next ∈ h :: zs ∧
    (m a).prev ∈ h :: zs := by
  constructor
  · obtain ⟨u, v, hsplit⟩ := List.append_of_mem ha
    obtain ⟨n, v', hv⟩ : ∃ n v', v ++ [h] = n :: v' := by
      cases v with
      | nil => exact ⟨h, [], rfl⟩
      | cons b v => exact ⟨b, v ++ [h], rfl⟩
    have hwalk := hc.walk
    rw [← List.cons_append, hsplit, List.append_assoc, List.cons_append, hv] at hwalk
    rw [(List.isChain_append_cons_cons.mp hwalk).2.1.1]
    have hn : n ∈ v ++ [h] := by
      rw [hv]
      exact List.mem_cons_self
    rw [List.mem_append, List.mem_singleton] at hn
    rcases hn with hn | rfl
    · rw [hsplit]
      exact List.mem_append_right _ (List.mem_cons_of_mem a hn)
    · exact List.mem_cons_self
  · have ha' : a ∈ zs ++ [h] := by
      rw [List.mem_append, List.mem_singleton]
      exact (List.mem_cons.mp ha).symm
    obtain ⟨u, v, hsplit⟩ := List.append_of_mem ha'
    obtain ⟨u', p, hu⟩ : ∃ u' p, h :: u = u' ++ [p] := by
      obtain hnil | ⟨u', p, hu⟩ := List.eq_nil_or_concat (h :: u)
      · cases hnil
      · exact ⟨u', p, hu.trans List.concat_eq_append⟩
    have hwalk := hc.walk
    rw [hsplit, ← List.cons_append, hu, List.append_assoc] at hwalk
    rw [(List.isChain_append_cons_cons.mp hwalk).2.1.2]
    have hp : p ∈ h :: u := by
      rw [hu]
      exact List.mem_append_right _ (List.mem_singleton_self p)
    rcases List.mem_cons.mp hp with rfl | hp
    · exact List.mem_cons_self
    · refine Circle.places_mem ?_
      rw [hsplit]
      exact List.mem_append_left _ hp

theorem Circle.ne_zero (hc : Circle m h zs) {a : Nat} (ha : a ∈ h :: zs) : a ≠ 0 :=
  fun h0 => hc.nonnull (h0 ▸ ha)

/-- What has no pointers is not in a list. -/
theorem Circle.not_mem (hc : Circle m h zs) (hz : m z = .null) : z ∉ h :: zs := by
  intro hmem
  have hnext := (hc.links_mem hmem).1
  rw [hz] at hnext
  exact hc.nonnull hnext

/-- An insertion before a place of the list. -/
theorem Circle.insert (hc : Circle m h (as ++ bs)) (hz : m z = .null) (hz0 : z ≠ 0) {n : Nat}
    (hn : (bs ++ [h]).head? = some n) :
    ∃ m', insertBefore m z n = some m' ∧ Circle m' h (as ++ z :: bs) ∧
      ∀ a, a ∉ h :: (as ++ z :: bs) → m' a = m a := by
  obtain ⟨u, p, n', v, -, hv, hold, hnew, hplaces⟩ := walk_split h as bs
  rw [hv] at hn
  cases hn
  have hfresh := hc.not_mem hz
  have hp := hplaces p (by simp)
  have hn := hplaces n (by simp)
  have hwalk := hc.walk
  have hsimple := simple_circle hc.nodup
  rw [hold] at hwalk hsimple
  have hedge := (List.isChain_append_cons_cons.mp hwalk).2.1
  have hnotin : ∀ a ∈ u ++ p :: n :: v, a ≠ z := fun a ha haz => hfresh (haz ▸ hplaces a ha)
  obtain ⟨m', hrun, hself, hnext, hprev⟩ := insertBefore_spec hedge.2
    (hc.ne_zero (hc.links_mem hn).1) (hc.ne_zero hp) hz
    (fun h => hfresh (h ▸ hn)) fun h => hfresh (h ▸ hp)
  refine ⟨m', hrun, ⟨?_, ?_, ?_⟩, fun a ha => ?_⟩
  · rw [hnew z]
    exact chain_insert hwalk hsimple (fun a ha => hnext a (hnotin a ha))
      (fun a ha => hprev a (hnotin a ha)) hself
  · have hperm : (h :: (as ++ z :: bs)).Perm (z :: h :: (as ++ bs)) :=
      (List.perm_middle.cons h).trans (.swap z h _)
    exact hperm.nodup_iff.mpr (List.nodup_cons.mpr ⟨hfresh, hc.nodup⟩)
  · have hnonnull := hc.nonnull
    simp only [List.mem_cons, List.mem_append] at hnonnull ⊢
    tauto
  · have haz : a ≠ z := by
      rintro rfl
      exact ha (by simp)
    have hap : a ≠ p := by
      rintro rfl
      refine ha ?_
      simp only [List.mem_cons, List.mem_append] at hp ⊢
      tauto
    have han : a ≠ n := by
      rintro rfl
      refine ha ?_
      simp only [List.mem_cons, List.mem_append] at hn ⊢
      tauto
    ext
    · rw [hnext a haz, if_neg hap]
    · rw [hprev a haz, if_neg han]

/-- A removal. -/
theorem Circle.remove (hc : Circle m h (as ++ z :: bs)) :
    ∃ m', erase m z = some m' ∧ Circle m' h (as ++ bs) ∧ m' z = .null ∧
      ∀ a, a ∉ h :: (as ++ z :: bs) → m' a = m a := by
  obtain ⟨u, p, n, v, -, -, hnew, hold, hplaces⟩ := walk_split h as bs
  have hperm : (h :: (as ++ z :: bs)).Perm (z :: h :: (as ++ bs)) :=
    (List.perm_middle.cons h).trans (.swap z h _)
  obtain ⟨hfresh, hnodup⟩ := List.nodup_cons.mp (hperm.nodup_iff.mp hc.nodup)
  have hsub : ∀ a ∈ h :: (as ++ bs), a ∈ h :: (as ++ z :: bs) :=
    fun a ha => hperm.mem_iff.mpr (List.mem_cons_of_mem z ha)
  have hp := hplaces p (by simp)
  have hn := hplaces n (by simp)
  have hwalk := hc.walk
  have hsimple := simple_circle hnodup
  rw [hold z] at hwalk
  rw [hnew] at hsimple
  obtain ⟨-, hpz, hrest⟩ := List.isChain_append_cons_cons.mp hwalk
  have hzn := (List.isChain_cons_cons.mp hrest).1
  have hnotin : ∀ a ∈ u ++ p :: n :: v, a ≠ z := fun a ha haz => hfresh (haz ▸ hplaces a ha)
  obtain ⟨m', hrun, hself, hnext, hprev⟩ := erase_spec hpz.2 hzn.1 (hc.ne_zero (hsub p hp))
    (hc.ne_zero (hsub n hn)) (fun h => hfresh (h ▸ hp)) fun h => hfresh (h ▸ hn)
  refine ⟨m', hrun, ⟨?_, hnodup, fun h0 => hc.nonnull (hsub 0 h0)⟩, hself, fun a ha => ?_⟩
  · rw [hnew]
    exact chain_remove hwalk hsimple (fun a ha => hnext a (hnotin a ha)) fun a ha =>
      hprev a (hnotin a ha)
  · have haz : a ≠ z := by
      rintro rfl
      exact ha (by simp)
    have hap : a ≠ p := fun h => ha (hsub a (h ▸ hp))
    have han : a ≠ n := fun h => ha (hsub a (h ▸ hn))
    ext
    · rw [hnext a haz, if_neg hap]
    · rw [hprev a haz, if_neg han]

/-- The head's pointers: they are to the head itself, or to the first place and the last one, which
point back. -/
theorem Circle.head (hc : Circle m h zs) :
    (zs = [] ∧ (m h).next = h ∧ (m h).prev = h) ∨
      (zs.head? = some (m h).next ∧ zs.getLast? = some (m h).prev ∧ (m (m h).next).prev = h ∧
        (m (m h).prev).next = h) := by
  cases zs with
  | nil => exact Or.inl ⟨rfl, (List.isChain_cons_cons.mp hc.walk).1⟩
  | cons z zs =>
    have hlast := List.getLast?_eq_some_getLast (List.cons_ne_nil z zs)
    obtain ⟨⟨hnext, hback⟩, -, hforth, hprev⟩ := walk_ends hc.walk rfl hlast
    right
    rw [hnext, hprev]
    exact ⟨rfl, hlast, hback, hforth⟩

/-- A head points to itself just if the list is empty. -/
theorem Circle.next_eq_iff (hc : Circle m h zs) : ((m h).next = h ↔ zs = []) ∧
    ((m h).prev = h ↔ zs = []) := by
  have hfresh := (List.nodup_cons.mp hc.nodup).1
  rcases hc.head with ⟨rfl, hnext, hprev⟩ | ⟨hfirst, hlast, -⟩
  · exact ⟨iff_of_true hnext rfl, iff_of_true hprev rfl⟩
  · have hne : zs ≠ [] := by
      rintro rfl
      cases hfirst
    refine ⟨iff_of_false (fun heq => hfresh ?_) hne, iff_of_false (fun heq => hfresh ?_) hne⟩
    · rw [heq] at hfirst
      exact List.mem_of_head? hfirst
    · rw [heq] at hlast
      exact List.mem_of_getLast? hlast

/-- A list the pointers of which are kept. -/
theorem Circle.congr {m' : Heap} (hc : Circle m h zs) (hsame : ∀ a ∈ h :: zs, m' a = m a) :
    Circle m' h zs := by
  refine ⟨chain_congr hc.walk (fun a ha => ?_) (fun a ha => ?_), hc.nodup, hc.nonnull⟩
  · rw [← List.cons_append, List.dropLast_concat] at ha
    rw [hsame a ha]
  · rw [List.tail_cons] at ha
    rw [hsame a (Circle.places_mem ha)]

end Circle

/-! ## Swapping -/

section Swap
variable {m : Heap} {h o : Nat} {xs ys : List Nat}

/-- The heads' neighbours are apart from the other list, and a head is its own neighbour on both
sides or on none. -/
structure Heads (m : Heap) (h o : Nat) : Prop where
  ne : h ≠ o
  first : (m h).next ≠ o ∧ (m h).prev ≠ o
  second : (m o).next ≠ h ∧ (m o).prev ≠ h
  cross : (m h).next ≠ (m o).next ∧ (m h).prev ≠ (m o).prev
  alone : (m h).next = h ↔ (m h).prev = h
  alone' : (m o).next = o ↔ (m o).prev = o

theorem swap_head (hh : Heads m h o) : swap m h o h = if (m o).next = o then ⟨h, h⟩ else m o := by
  obtain ⟨hne, hfirst, hsecond, hcross, halone, halone'⟩ := hh
  ext <;> simp only [swap, setNext, setPrev, Function.update_apply] <;> grind

theorem swap_other (hh : Heads m h o) : swap m h o o = if (m h).next = h then ⟨o, o⟩ else m h := by
  obtain ⟨hne, hfirst, hsecond, hcross, halone, halone'⟩ := hh
  ext <;> simp only [swap, setNext, setPrev, Function.update_apply] <;> grind

theorem swap_next (hh : Heads m h o) {a : Nat} (hah : a ≠ h) (hao : a ≠ o) :
    (swap m h o a).next = if a = (m h).prev then o else if a = (m o).prev then h
      else (m a).next := by
  obtain ⟨hne, hfirst, hsecond, hcross, halone, halone'⟩ := hh
  simp only [swap, setNext, setPrev, Function.update_apply]
  grind

theorem swap_prev (hh : Heads m h o) {a : Nat} (hah : a ≠ h) (hao : a ≠ o) :
    (swap m h o a).prev = if a = (m h).next then o else if a = (m o).next then h
      else (m a).prev := by
  obtain ⟨hne, hfirst, hsecond, hcross, halone, halone'⟩ := hh
  simp only [swap, setNext, setPrev, Function.update_apply]
  grind

/-- The inside of the list at `o` with its ends moved to `h`. -/
theorem Circle.moved {m' : Heap} (hc : Circle m o xs) (hh : h ∉ o :: xs) (hzero : h ≠ 0)
    (hself : m' h = if (m o).next = o then ⟨h, h⟩ else m o)
    (hnext : ∀ a ∈ xs, (m' a).next = if a = (m o).prev then h else (m a).next)
    (hprev : ∀ a ∈ xs, (m' a).prev = if a = (m o).next then h else (m a).prev) :
    Circle m' h xs := by
  have hnodup := (List.nodup_cons.mp hc.nodup).2
  refine ⟨?_, List.nodup_cons.mpr ⟨fun hmem => hh (List.mem_cons_of_mem o hmem), hnodup⟩,
    fun hmem => ?_⟩
  · rcases hc.head with ⟨rfl, hloop, -⟩ | ⟨hfirst, hlast, -⟩
    · rw [if_pos hloop] at hself
      exact List.isChain_cons_cons.mpr ⟨⟨by rw [hself], by rw [hself]⟩, .singleton h⟩
    · have hne : (m o).next ≠ o := by
        rw [Ne, hc.next_eq_iff.1]
        rintro rfl
        cases hfirst
      rw [if_neg hne] at hself
      exact chain_rehead hc.walk hfirst hlast hnodup hnext hprev hself
  · rcases List.mem_cons.mp hmem with h0 | h0
    · exact hzero h0.symm
    · exact hc.nonnull (List.mem_cons_of_mem o h0)

/-- What swapping does to two lists. -/
theorem swap_spec (hx : Circle m h xs) (hy : Circle m o ys) (hapart : ∀ a ∈ h :: xs, a ∉ o :: ys) :
    Circle (swap m h o) h ys ∧ Circle (swap m h o) o xs ∧ ∀ a, a ∉ h :: xs → a ∉ o :: ys →
      swap m h o a = m a := by
  have hapart' : ∀ a ∈ o :: ys, a ∉ h :: xs := fun a ha hb => hapart a hb ha
  obtain ⟨hn, hp⟩ := hx.links_mem List.mem_cons_self
  obtain ⟨hn', hp'⟩ := hy.links_mem List.mem_cons_self
  have hne : ∀ {a b : Nat}, a ∈ h :: xs → b ∈ o :: ys → a ≠ b :=
    fun ha hb hab => hapart _ ha (hab ▸ hb)
  have hh : h ∈ h :: xs := List.mem_cons_self
  have ho : o ∈ o :: ys := List.mem_cons_self
  have heads : Heads m h o :=
    { ne := hne hh ho
      first := ⟨hne hn ho, hne hp ho⟩
      second := ⟨(hne hh hn').symm, (hne hh hp').symm⟩
      cross := ⟨hne hn hn', hne hp hp'⟩
      alone := hx.next_eq_iff.1.trans hx.next_eq_iff.2.symm
      alone' := hy.next_eq_iff.1.trans hy.next_eq_iff.2.symm }
  refine ⟨hy.moved (hapart h hh) (hx.ne_zero hh) (swap_head heads) (fun a ha => ?_)
    (fun a ha => ?_), hx.moved (hapart' o ho) (hy.ne_zero ho) (swap_other heads) (fun a ha => ?_)
    (fun a ha => ?_), fun a ha hb => ?_⟩
  · have hmem := List.mem_cons_of_mem o ha
    have hao : a ≠ o := fun h => (List.nodup_cons.mp hy.nodup).1 (h ▸ ha)
    rw [swap_next heads (hne hh hmem).symm hao, if_neg (hne hp hmem).symm]
  · have hmem := List.mem_cons_of_mem o ha
    have hao : a ≠ o := fun h => (List.nodup_cons.mp hy.nodup).1 (h ▸ ha)
    rw [swap_prev heads (hne hh hmem).symm hao, if_neg (hne hn hmem).symm]
  · have hmem := List.mem_cons_of_mem h ha
    have hah : a ≠ h := fun h => (List.nodup_cons.mp hx.nodup).1 (h ▸ ha)
    rw [swap_next heads hah (hne hmem ho)]
    rw [if_neg (hne hmem hp')]
  · have hmem := List.mem_cons_of_mem h ha
    have hah : a ≠ h := fun h => (List.nodup_cons.mp hx.nodup).1 (h ▸ ha)
    rw [swap_prev heads hah (hne hmem ho)]
    rw [if_neg (hne hmem hn')]
  · have hah : a ≠ h := fun heq => ha (heq ▸ hh)
    have hao : a ≠ o := fun heq => hb (heq ▸ ho)
    have houtside : a ≠ (m h).next ∧ a ≠ (m h).prev ∧ a ≠ (m o).next ∧ a ≠ (m o).prev :=
      ⟨fun heq => ha (heq ▸ hn), fun heq => ha (heq ▸ hp), fun heq => hb (heq ▸ hn'),
        fun heq => hb (heq ▸ hp')⟩
    ext
    · rw [swap_next heads hah hao, if_neg houtside.2.1, if_neg houtside.2.2.2]
    · rw [swap_prev heads hah hao, if_neg houtside.1, if_neg houtside.2.2.1]

/-- Swapping a list with itself changes nothing. -/
theorem swap_self (hc : Circle m h xs) : swap m h h = m := by
  have hkeep : setPrev (setNext m (m h).prev h) (m h).next h = m := by
    have hback : (m (m h).next).prev = h ∧ (m (m h).prev).next = h := by
      rcases hc.head with ⟨-, hnext, hprev⟩ | ⟨-, -, hback, hforth⟩
      · exact ⟨by rw [hnext, hprev], by rw [hprev, hnext]⟩
      · exact ⟨hback, hforth⟩
    have hset : setNext m (m h).prev h = m :=
      Function.update_eq_self_iff.mpr (Links.ext hback.2.symm rfl)
    rw [hset]
    exact Function.update_eq_self_iff.mpr (Links.ext rfl hback.1.symm)
  unfold swap
  dsimp only
  rw [hkeep, hkeep, Function.update_eq_self, Function.update_eq_self]

end Swap

/-! ## Any number of lists -/

/-- The lists at the heads in the domain of `lists`, whose elements are the sequences. -/
structure Rep (off : Nat) (m : Heap) (lists : Nat → Option (List Nat)) : Prop where
  circle : ∀ {h xs}, lists h = some xs → Circle m h (xs.map (link off))
  apart : ∀ {h xs h' xs'}, lists h = some xs → lists h' = some xs' → h ≠ h' →
    ∀ a ∈ h :: xs.map (link off), a ∉ h' :: xs'.map (link off)

section Rep
variable {off : Nat} {m m' : Heap} {lists : Nat → Option (List Nat)} {h : Nat} {xs xs' : List Nat}

/-- One list is changed, and no other. -/
theorem Rep.change (hr : Rep off m lists) (hc : Circle m' h (xs'.map (link off)))
    (hothers : ∀ {h' ys}, lists h' = some ys → h' ≠ h → ∀ a ∈ h' :: ys.map (link off),
      m' a = m a ∧ a ∉ h :: xs'.map (link off)) :
    Rep off m' (Function.update lists h (some xs')) := by
  have hget : ∀ {h' ys}, Function.update lists h (some xs') h' = some ys →
      (h' = h ∧ ys = xs') ∨ (h' ≠ h ∧ lists h' = some ys) := by
    intro h' ys hys
    by_cases hne : h' = h
    · subst hne
      rw [Function.update_self] at hys
      exact Or.inl ⟨rfl, (Option.some.inj hys).symm⟩
    · rw [Function.update_of_ne hne] at hys
      exact Or.inr ⟨hne, hys⟩
  constructor
  · intro h' ys hys
    rcases hget hys with ⟨rfl, rfl⟩ | ⟨hne, hys⟩
    · exact hc
    · exact (hr.circle hys).congr fun a ha => (hothers hys hne a ha).1
  · intro h₁ ys₁ h₂ ys₂ h₁s h₂s hne a ha hb
    rcases hget h₁s with ⟨rfl, rfl⟩ | ⟨hne₁, hold₁⟩
    · rcases hget h₂s with ⟨rfl, rfl⟩ | ⟨hne₂, hold₂⟩
      · exact hne rfl
      · exact (hothers hold₂ hne₂ a hb).2 ha
    · rcases hget h₂s with ⟨rfl, rfl⟩ | ⟨hne₂, hold₂⟩
      · exact (hothers hold₁ hne₁ a ha).2 hb
      · exact hr.apart hold₁ hold₂ hne a ha hb

/-- An unlinked element put between two parts of a list. -/
theorem Rep.insert (hr : Rep off m lists) {as bs : List Nat} (hh : lists h = some (as ++ bs))
    {x n : Nat} (hx : m (link off x) = .null) (hx0 : link off x ≠ 0)
    (hn : (bs.map (link off) ++ [h]).head? = some n) :
    ∃ m', insertBefore m (link off x) n = some m' ∧
      Rep off m' (Function.update lists h (some (as ++ x :: bs))) := by
  have hc := hr.circle hh
  rw [List.map_append] at hc
  obtain ⟨m', hrun, hcircle, hframe⟩ := hc.insert hx hx0 hn
  refine ⟨m', hrun, hr.change (by rw [List.map_append]; exact hcircle)
    fun {h' ys} hys hne a ha => ?_⟩
  have hfresh : a ∉ h :: (as ++ x :: bs).map (link off) := by
    intro hmem
    have hold := hr.apart hys hh hne a ha
    rw [List.map_append] at hmem hold
    simp only [List.map_cons, List.mem_cons, List.mem_append] at hmem hold
    have hax : a = link off x := by tauto
    exact (hr.circle hys).not_mem hx (hax ▸ ha)
  rw [List.map_append, List.map_cons] at hfresh
  refine ⟨hframe a hfresh, ?_⟩
  rw [List.map_append]
  exact hfresh

/-- An element taken out from between two parts of a list. -/
theorem Rep.remove (hr : Rep off m lists) {as bs : List Nat} {x : Nat}
    (hh : lists h = some (as ++ x :: bs)) : ∃ m', eraseElem m off x = some m' ∧
    Rep off m' (Function.update lists h (some (as ++ bs))) ∧ m' (link off x) = .null := by
  have hc := hr.circle hh
  rw [List.map_append] at hc
  obtain ⟨m', hrun, hcircle, hnull, hframe⟩ := hc.remove
  refine ⟨m', hrun, hr.change (by rw [List.map_append]; exact hcircle)
    (fun {h' ys} hys hne a ha => ?_), hnull⟩
  have hold := hr.apart hys hh hne a ha
  rw [List.map_append] at hold
  refine ⟨hframe a hold, fun hmem => hold ?_⟩
  rw [List.map_append] at hmem
  simp only [List.map_cons, List.mem_cons, List.mem_append] at hmem ⊢
  tauto

theorem Rep.pushFront (hr : Rep off m lists) (hh : lists h = some xs) {x : Nat}
    (hx : m (link off x) = .null) (hx0 : link off x ≠ 0) :
    ∃ m', pushFront m off h x = some m' ∧
      Rep off m' (Function.update lists h (some (x :: xs))) := by
  have hfirst : (xs.map (link off) ++ [h]).head? = some (m h).next := by
    rcases (hr.circle hh).head with ⟨hnil, hnext, -⟩ | ⟨hfirst, -⟩
    · rw [hnil, hnext]
      rfl
    · rw [List.head?_append, hfirst]
      rfl
  exact @Rep.insert off m lists h hr [] xs hh x _ hx hx0 hfirst

theorem Rep.pushBack (hr : Rep off m lists) (hh : lists h = some xs) {x : Nat}
    (hx : m (link off x) = .null) (hx0 : link off x ≠ 0) :
    ∃ m', pushBack m off h x = some m' ∧
      Rep off m' (Function.update lists h (some (xs ++ [x]))) := by
  rw [← List.append_nil xs] at hh
  exact hr.insert hh hx hx0 rfl

theorem Rep.erase (hr : Rep off m lists) (hh : lists h = some xs) {x : Nat} (hx : x ∈ xs) :
    ∃ m', eraseElem m off x = some m' ∧ Rep off m' (Function.update lists h (some (xs.erase x))) ∧
      m' (link off x) = .null := by
  obtain ⟨as, bs, rfl⟩ := List.append_of_mem hx
  have hnodup := (List.nodup_cons.mp (hr.circle hh).nodup).2.of_map
  have hnotin : x ∉ as :=
    fun hmem => (List.nodup_append.mp hnodup).2.2 x hmem x List.mem_cons_self rfl
  rw [List.erase_append_right _ hnotin, List.erase_cons_head]
  exact hr.remove hh

theorem fromLinks_link (x : Nat) : fromLinks off (link off x) = x := Nat.add_sub_cancel x off

/-- What `front` and `back` return. -/
theorem Rep.ends (hr : Rep off m lists) (hh : lists h = some xs) : front m off h = xs.head? ∧
    back m off h = xs.getLast? := by
  have hc := hr.circle hh
  unfold front back KList.empty
  rcases hc.head with ⟨hnil, hnext, -⟩ | ⟨hfirst, hlast, -⟩
  · obtain rfl := List.map_eq_nil_iff.mp hnil
    rw [if_pos (decide_eq_true hnext), if_pos (decide_eq_true hnext)]
    exact ⟨rfl, rfl⟩
  · have hne : ¬(m h).next = h := by
      rw [hc.next_eq_iff.1]
      intro hnil
      rw [hnil] at hfirst
      cases hfirst
    rw [if_neg (by simpa using hne), if_neg (by simpa using hne)]
    rw [List.head?_map] at hfirst
    rw [List.getLast?_map] at hlast
    obtain ⟨x, hx, hxf⟩ := Option.map_eq_some_iff.mp hfirst
    obtain ⟨y, hy, hyl⟩ := Option.map_eq_some_iff.mp hlast
    rw [← hxf, ← hyl, fromLinks_link, fromLinks_link, hx, hy]
    exact ⟨rfl, rfl⟩

/-- Removing the element that `front` or `back` returns. -/
theorem Rep.pop (hr : Rep off m lists) (hh : lists h = some xs) {first : Option Nat}
    {rest : List Nat}
    (hcases : (first = none ∧ rest = xs) ∨ ∃ as x bs, xs = as ++ x :: bs ∧ first = some x ∧
    rest = as ++ bs) : ∃ m', (match first with
        | none => some (none, m)
        | some x => (eraseElem m off x).map fun m => (some x, m)) = some (first, m') ∧
      Rep off m' (Function.update lists h (some rest)) ∧ ∀ x ∈ first, m' (link off x) = .null := by
  rcases hcases with ⟨rfl, rfl⟩ | ⟨as, x, bs, rfl, rfl, rfl⟩
  · refine ⟨m, rfl, ?_, nofun⟩
    rw [← hh, Function.update_eq_self]
    exact hr
  · obtain ⟨m', hrun, hrep, hnull⟩ := hr.remove hh
    refine ⟨m', by dsimp only; rw [hrun]; rfl, hrep, fun y hy => ?_⟩
    cases hy
    exact hnull

theorem Rep.swap (hr : Rep off m lists) (hh : lists h = some xs) {o : Nat}
    (ho : lists o = some xs') :
    Rep off (swap m h o) (Function.update (Function.update lists h (some xs')) o (some xs)) := by
  by_cases hho : h = o
  · subst hho
    rw [hh] at ho
    cases ho
    rw [swap_self (hr.circle hh), Function.update_idem, ← hh, Function.update_eq_self]
    exact hr
  have hapart := hr.apart hh ho hho
  have hch := hr.circle hh
  have hco := hr.circle ho
  obtain ⟨hx, hy, hframe⟩ := swap_spec hch hco hapart
  -- the two lists with their insides exchanged are apart, and every other list is apart from both
  have hboth : ∀ a ∈ o :: xs.map (link off), a ∉ h :: xs'.map (link off) := by
    intro a ha hb
    rcases List.mem_cons.mp ha with rfl | ha
    · rcases List.mem_cons.mp hb with hoh | hb
      · exact hho hoh.symm
      · exact (List.nodup_cons.mp hco.nodup).1 hb
    · rcases List.mem_cons.mp hb with rfl | hb
      · exact (List.nodup_cons.mp hch.nodup).1 ha
      · exact hapart a (List.mem_cons_of_mem h ha) (List.mem_cons_of_mem o hb)
  have hothers : ∀ {k zs}, lists k = some zs → k ≠ h → k ≠ o → ∀ a ∈ k :: zs.map (link off),
      (a ∉ o :: xs.map (link off) ∧ a ∉ h :: xs'.map (link off)) ∧ KList.swap m h o a = m a := by
    intro k zs hk hkh hko a ha
    have hnh := hr.apart hk hh hkh a ha
    have hno := hr.apart hk ho hko a ha
    refine ⟨⟨fun hb => ?_, fun hb => ?_⟩, hframe a hnh hno⟩
    · rcases List.mem_cons.mp hb with rfl | hb
      · exact hno List.mem_cons_self
      · exact hnh (List.mem_cons_of_mem h hb)
    · rcases List.mem_cons.mp hb with rfl | hb
      · exact hnh List.mem_cons_self
      · exact hno (List.mem_cons_of_mem o hb)
  have hget : ∀ {k zs}, Function.update (Function.update lists h (some xs')) o (some xs) k =
      some zs → (k = o ∧ zs = xs) ∨ (k = h ∧ zs = xs') ∨ (k ≠ h ∧ k ≠ o ∧ lists k = some zs) := by
    intro k zs hk
    by_cases hko : k = o
    · subst hko
      rw [Function.update_self] at hk
      exact Or.inl ⟨rfl, (Option.some.inj hk).symm⟩
    rw [Function.update_of_ne hko] at hk
    by_cases hkh : k = h
    · subst hkh
      rw [Function.update_self] at hk
      exact Or.inr (Or.inl ⟨rfl, (Option.some.inj hk).symm⟩)
    · rw [Function.update_of_ne hkh] at hk
      exact Or.inr (Or.inr ⟨hkh, hko, hk⟩)
  constructor
  · intro k zs hk
    rcases hget hk with ⟨rfl, rfl⟩ | ⟨rfl, rfl⟩ | ⟨hkh, hko, hk⟩
    · exact hy
    · exact hx
    · exact (hr.circle hk).congr fun a ha => (hothers hk hkh hko a ha).2
  · intro k zs k' zs' hk hk' hne a ha hb
    rcases hget hk with ⟨rfl, rfl⟩ | ⟨rfl, rfl⟩ | ⟨hkh, hko, hold⟩
    · rcases hget hk' with ⟨rfl, rfl⟩ | ⟨rfl, rfl⟩ | ⟨hkh', hko', hold'⟩
      · exact hne rfl
      · exact hboth a ha hb
      · exact (hothers hold' hkh' hko' a hb).1.1 ha
    · rcases hget hk' with ⟨rfl, rfl⟩ | ⟨rfl, rfl⟩ | ⟨hkh', hko', hold'⟩
      · exact hboth a hb ha
      · exact hne rfl
      · exact (hothers hold' hkh' hko' a hb).1.2 ha
    · rcases hget hk' with ⟨rfl, rfl⟩ | ⟨rfl, rfl⟩ | ⟨hkh', hko', hold'⟩
      · exact (hothers hold hkh hko a ha).1.1 hb
      · exact (hothers hold hkh hko a ha).1.2 hb
      · exact hr.apart hold hold' hne a ha hb

/-- **Intrusive lists are sequences**: on a heap with any number of well-formed lists, each
operation does to its list what the operation does to a sequence, a removed element is unlinked, and
every other list stays as it was; swapping exchanges two sequences, whether they are empty or not.
-/
theorem lists_refine (hr : Rep off m lists) (hh : lists h = some xs) :
    (∀ x, m (link off x) = .null → link off x ≠ 0 → ∃ m', KList.pushFront m off h x = some m' ∧
      Rep off m' (Function.update lists h (some (x :: xs)))) ∧
    (∀ x, m (link off x) = .null → link off x ≠ 0 → ∃ m', KList.pushBack m off h x = some m' ∧
      Rep off m' (Function.update lists h (some (xs ++ [x])))) ∧
    (∃ m', popFront m off h = some (xs.head?, m') ∧
      Rep off m' (Function.update lists h (some xs.tail)) ∧
      ∀ x ∈ xs.head?, m' (link off x) = .null) ∧
    (∃ m', popBack m off h = some (xs.getLast?, m') ∧
      Rep off m' (Function.update lists h (some xs.dropLast)) ∧
      ∀ x ∈ xs.getLast?, m' (link off x) = .null) ∧
    (∀ x ∈ xs, ∃ m', eraseElem m off x = some m' ∧
      Rep off m' (Function.update lists h (some (xs.erase x))) ∧ m' (link off x) = .null) ∧
    ∀ o ys, lists o = some ys →
      Rep off (KList.swap m h o)
      (Function.update (Function.update lists h (some ys)) o (some xs)) := by
  obtain ⟨hfront, hback⟩ := hr.ends hh
  refine ⟨fun x hx hx0 => hr.pushFront hh hx hx0, fun x hx hx0 => hr.pushBack hh hx hx0, ?_, ?_,
    fun x hx => hr.erase hh hx, fun o ys ho => hr.swap hh ho⟩
  · unfold popFront
    rw [hfront]
    refine hr.pop hh ?_
    cases xs with
    | nil => exact Or.inl ⟨rfl, rfl⟩
    | cons x xs => exact Or.inr ⟨[], x, xs, rfl, rfl, rfl⟩
  · unfold popBack
    rw [hback]
    refine hr.pop hh ?_
    obtain rfl | ⟨as, x, has⟩ := List.eq_nil_or_concat xs
    · exact Or.inl ⟨rfl, rfl⟩
    · rw [List.concat_eq_append] at has
      subst has
      exact Or.inr ⟨as, x, [], rfl, List.getLast?_concat,
        by rw [List.dropLast_concat, List.append_nil]⟩

end Rep

/-- Two lists: at 16 with the element 32, whose links are 8 bytes on, and at 64 without an element.
-/
def twoLists : Heap
  | 16 => ⟨40, 40⟩
  | 40 => ⟨16, 16⟩
  | 64 => ⟨64, 64⟩
  | _ => .null

/-- A list of one element, and an empty one. -/
def twoSequences : Nat → Option (List Nat)
  | 16 => some [32]
  | 64 => some []
  | _ => none

theorem twoSequences_rep : Rep 8 twoLists twoSequences := by
  have hget : ∀ {h xs}, twoSequences h = some xs → (h = 16 ∧ xs = [32]) ∨ (h = 64 ∧ xs = []) := by
    intro h xs hxs
    unfold twoSequences at hxs
    split at hxs
    · exact Or.inl ⟨rfl, (Option.some.inj hxs).symm⟩
    · exact Or.inr ⟨rfl, (Option.some.inj hxs).symm⟩
    · cases hxs
  constructor
  · intro h xs hxs
    rcases hget hxs with ⟨rfl, rfl⟩ | ⟨rfl, rfl⟩
    · refine ⟨?_, by decide, by decide⟩
      exact .cons_cons ⟨rfl, rfl⟩ (.cons_cons ⟨rfl, rfl⟩ (.singleton 16))
    · refine ⟨?_, by decide, by decide⟩
      exact .cons_cons ⟨rfl, rfl⟩ (.singleton 64)
  · intro h xs h' xs' hxs hxs' hne
    rcases hget hxs with ⟨rfl, rfl⟩ | ⟨rfl, rfl⟩
    · rcases hget hxs' with ⟨rfl, rfl⟩ | ⟨rfl, rfl⟩
      · exact absurd rfl hne
      · decide
    · rcases hget hxs' with ⟨rfl, rfl⟩ | ⟨rfl, rfl⟩
      · decide
      · exact absurd rfl hne

/-- Swapping a list of one element with an empty one. -/
theorem lists_refine_twoLists :
    Rep 8 (swap twoLists 16 64) (Function.update (Function.update twoSequences 16 (some [])) 64
      (some [32])) :=
  (lists_refine twoSequences_rep rfl).2.2.2.2.2 64 [] rfl

end PugOS.KList
