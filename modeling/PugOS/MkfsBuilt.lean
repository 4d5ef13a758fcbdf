import PugOS.MkfsBitmap
import PugOS.MkfsFile

/-! # The images that `mkchickadeefs` builds

The files lie one after another from `data_bn` on, and the root directory after them (`Built`).
`add_file` adds one file (`addFile_spec`), and so every image that is built is like this, with the
free blocks marked in its bitmap (`mkfs_built`).
-/
namespace PugOS.Mkfs
open Bytes Ring ChkFS
open Journal (blocksize)
open BlockAlloc (Options Superblock layout nfbb)

variable {sb : Superblock} {im im' im₁ : Image} {m m' base : Mem} {p q : Placed}
  {placed : List Placed} {data name : List UInt8}
  {a b x ino lo mid hi first sz fuel inum type nlink : Nat} {atEnd : Bool}

/-! ## Adding an inode -/

theorem fillInode_spec (g : Geometry sb) (hload : Loaded im first data) (hfirst : sb.dataBn ≤ first)
    (hinum : inum < sb.ninodes)
    (hempty : ∀ a, inodeAt sb inum ≤ a → a < inodeAt sb inum + inodesize → im.mem a = 0)
    (hjournal : im.freeb ≤ sb.journalBn)
    (h : fillInode sb im (inodeAt sb inum) type data.length nlink first atEnd = some im') :
    ∃ first' ind, Added sb im im' first ⟨inum, name, data, first', ind⟩ ∧ Kept im im' ∧
      (atEnd = true → first' = first) := by
  obtain ⟨hlow, hino⟩ := g.inode_lt hinum
  have hend : inodeAt sb inum + inodesize ≤ first * blocksize :=
    Nat.le_trans hino (Nat.mul_le_mul_right _ hfirst)
  unfold fillInode at h
  dsimp only at h
  generalize hm :
    putLE (putLE (putLE im.mem (typeAddr (inodeAt sb inum)) 4 type) (sizeAddr (inodeAt sb inum)) 4
    data.length) (nlinkAddr (inodeAt sb inum)) 4 nlink = m at h
  -- the three fields are in the first 12 bytes of the inode
  have hsame : ∀ a, a < inodeAt sb inum ∨ inodeAt sb inum + 12 ≤ a → m a = im.mem a := by
    intro a ha
    rw [← hm, putLE_of_not_mem, putLE_of_not_mem, putLE_of_not_mem]
    all_goals
      simp only [typeAddr, sizeAddr, nlinkAddr]
      omega
  obtain ⟨hmax, h⟩ := Option.ite_none_left_eq_some.mp h
  have hmax := Nat.not_lt.mp hmax
  have hsize : getLE m (sizeAddr (inodeAt sb inum)) 4 = data.length := by
    rw [← hm, getLE_putLE_frame (by unfold sizeAddr nlinkAddr; omega)]
    refine getLE_putLE _ _ (Nat.lt_of_le_of_lt hmax ?_)
    decide
  have hload' : Loaded { im with mem := m } first data := by
    refine hload.with_mem fun a ha => hsame a (.inr ?_)
    unfold inodesize at hend
    omega
  have hempty' : ∀ a, inodeAt sb inum + 20 ≤ a → a < inodeAt sb inum + inodesize → m a = 0 := by
    intro a h₁ h₂
    rw [hsame a (.inr (by omega))]
    exact hempty a (by omega) h₂
  have hback : ∀ {im' : Image} {p : Placed}, p.inum = inum →
      Added sb { im with mem := m } im' first p → Added sb im im' first p := by
    intro im' p hp hadd
    refine ⟨hadd.within, hadd.laid, fun a hlt ha => (hadd.frame a hlt ha).trans (hsame a ?_),
      hadd.zero, hadd.present, hadd.journal⟩
    rw [hp] at ha
    unfold inodesize at ha
    omega
  by_cases hgt : maxdirectsize < data.length
  · rw [if_pos hgt] at h
    obtain ⟨⟨im₁, first', ind⟩, hadd, h⟩ := Option.bind_eq_some_iff.mp h
    have hfreeb : im.freeb < 2 ^ 32 := by
      have := g.le
      have := g.lt
      omega
    have hpos : 0 < first := by
      have := g.inode
      have := g.fbb
      have := g.data
      unfold blocksize at *
      omega
    obtain ⟨hind, hlt, hat⟩ := addIndirect_spec hload' hpos hend hfreeb hadd
    obtain rfl := Option.some.inj h
    exact ⟨first', ind,
      hback rfl (added_indirect g hload' hfirst hinum hsize hempty' hind hlt hgt hmax),
      ⟨hind.kept.freeinode, hind.kept.root⟩, hat⟩
  · rw [if_neg hgt] at h
    obtain rfl := Option.some.inj h
    exact ⟨first, 0,
      hback rfl (added_direct g hload' hfirst hinum hsize hempty' hjournal (Nat.not_lt.mp hgt)),
      ⟨rfl, rfl⟩, fun _ => rfl⟩

/-! ## The files in order -/

/-- The files lie one after another from block `lo` up to `hi`. -/
def Tiles : Nat → List Placed → Nat → Prop
  | lo, [], hi => lo = hi
  | lo, p :: placed, hi => ∃ mid, p.Within lo mid ∧ Tiles mid placed hi

theorem Tiles.concat (hp : p.Within mid hi) :
    ∀ {placed : List Placed} {lo : Nat}, Tiles lo placed mid → Tiles lo (placed ++ [p]) hi := by
  intro placed
  induction placed with
  | nil =>
    intro lo h
    obtain rfl : lo = mid := h
    exact ⟨hi, hp, rfl⟩
  | cons q placed ih =>
    rintro lo ⟨mid', hq, h⟩
    exact ⟨mid', hq, ih h⟩

/-- How many blocks the files have. -/
theorem Tiles.stop : ∀ {placed : List Placed} {lo : Nat}, Tiles lo placed hi →
    hi = lo + (placed.map fun p => blocksFor p.data.length).sum := by
  intro placed
  induction placed with
  | nil => exact fun h => h.symm
  | cons p placed ih =>
    rintro lo ⟨mid, hp, h⟩
    rw [ih h, hp.stop, List.map_cons, List.sum_cons, Nat.add_assoc]

theorem Tiles.le (h : Tiles lo placed hi) : lo ≤ hi := by
  rw [h.stop]
  exact Nat.le_add_right ..

theorem Tiles.mem : ∀ {placed : List Placed} {lo : Nat}, Tiles lo placed hi → p ∈ placed →
    ∃ l h, lo ≤ l ∧ h ≤ hi ∧ p.Within l h := by
  intro placed
  induction placed with
  | nil => exact fun _ hp => absurd hp List.not_mem_nil
  | cons q placed ih =>
    rintro lo ⟨mid, hq, h⟩ hp
    rcases List.mem_cons.mp hp with rfl | hp
    · exact ⟨lo, mid, Nat.le_refl _, h.le, hq⟩
    · obtain ⟨l, h', hl, hh, hw⟩ := ih h hp
      have := hq.stop
      exact ⟨l, h', by omega, hh, hw⟩

theorem Tiles.has (h : Tiles lo placed hi) (hp : p ∈ placed) (hb : p.Has b) : lo ≤ b ∧ b < hi := by
  obtain ⟨l, h', hl, hh, hw⟩ := h.mem hp
  have := hw.has hb
  omega

/-- No block is in two files. -/
theorem Tiles.pairwise : ∀ {placed : List Placed} {lo : Nat}, Tiles lo placed hi →
    placed.Pairwise fun p q => ∀ b, p.Has b → ¬q.Has b := by
  intro placed
  induction placed with
  | nil => exact fun _ => .nil
  | cons p placed ih =>
    rintro lo ⟨mid, hp, h⟩
    refine .cons (fun q hq b hb hb' => ?_) (ih h)
    have h₁ := hp.has hb
    have h₂ := h.has hq hb'
    omega

/-- What has been built: `base` has what is before the inodes. -/
structure Built (sb : Superblock) (base : Mem) (im : Image) (placed : List Placed) : Prop where
  tiles : Tiles sb.dataBn placed im.freeb
  laid : ∀ p ∈ placed, p.Laid im.mem (inodeAt sb p.inum)
  nodup : (placed.map Placed.inum).Nodup
  inums : ∀ p ∈ placed, p.inum < sb.ninodes
  low : ∀ a < sb.inodeBn * blocksize, im.mem a = base a
  empty : ∀ a, sb.inodeBn * blocksize ≤ a → a < sb.dataBn * blocksize →
    (∀ p ∈ placed, a < inodeAt sb p.inum ∨ inodeAt sb p.inum + inodesize ≤ a) → im.mem a = 0
  zero : ∀ a, im.freeb * blocksize ≤ a → im.mem a = 0
  present : ∀ b, b < im.freeb → im.present b
  journal : im.freeb ≤ sb.journalBn

/-- Two inodes are apart. -/
theorem inodeAt_apart {i j : Nat} (h : i ≠ j) :
    inodeAt sb i + inodesize ≤ inodeAt sb j ∨ inodeAt sb j + inodesize ≤ inodeAt sb i := by
  unfold inodeAt inodesize
  omega

theorem inodeAt_ge (sb : Superblock) (i : Nat) : sb.inodeBn * blocksize ≤ inodeAt sb i :=
  Nat.le_add_right ..

/-- An inode without a file is empty. -/
theorem Built.unused (g : Geometry sb) (h : Built sb base im placed) (hinum : inum < sb.ninodes)
    (hnew : inum ∉ placed.map Placed.inum) (h₁ : inodeAt sb inum ≤ a)
    (h₂ : a < inodeAt sb inum + inodesize) : im.mem a = 0 := by
  have := (g.inode_lt hinum).2
  refine h.empty a (Nat.le_trans (inodeAt_ge sb inum) h₁) (by omega) fun p hp => ?_
  have hne : p.inum ≠ inum := fun heq => hnew (List.mem_map.mpr ⟨p, hp, heq⟩)
  have := @inodeAt_apart sb _ _ hne
  omega

/-- **Adding a file keeps what has been built.** -/
theorem Built.add (g : Geometry sb) (h : Built sb base im placed)
    (hadd : Added sb im im' im.freeb p) (hinum : p.inum < sb.ninodes)
    (hnew : p.inum ∉ placed.map Placed.inum) : Built sb base im' (placed ++ [p]) := by
  obtain ⟨-, hino⟩ := g.inode_lt hinum
  have hstart : sb.dataBn * blocksize ≤ im.freeb * blocksize := Nat.mul_le_mul_right _ h.tiles.le
  have hend := hadd.within.stop
  refine ⟨h.tiles.concat hadd.within, fun q hq => ?_, ?_, fun q hq => ?_, fun a ha => ?_,
    fun a h₁ h₂ hout => ?_, hadd.zero, hadd.present, hadd.journal⟩
  · rcases List.mem_append.mp hq with hq | hq
    · have hne : q.inum ≠ p.inum := fun heq => hnew (List.mem_map.mpr ⟨q, hq, heq⟩)
      have hapart := @inodeAt_apart sb _ _ hne
      have hqino := (g.inode_lt (h.inums q hq)).2
      refine (h.laid q hq).congr (fun a h₁ h₂ => hadd.frame a (by omega) (by omega)) fun a ha => ?_
      have hblock := h.tiles.has hq ha
      have hlow : sb.dataBn * blocksize ≤ a :=
        Nat.le_trans (Nat.mul_le_mul_right _ hblock.1) (Nat.div_mul_le_self a blocksize)
      refine hadd.frame a ?_ (by omega)
      exact (Nat.div_lt_iff_lt_mul (by decide)).mp hblock.2
    · obtain rfl := List.mem_singleton.mp hq
      exact hadd.laid
  · rw [List.map_append, List.map_singleton]
    exact List.Nodup.append h.nodup (List.nodup_singleton _) (List.disjoint_singleton.mpr hnew)
  · rcases List.mem_append.mp hq with hq | hq
    · exact h.inums q hq
    · rwa [List.mem_singleton.mp hq]
  · have := inodeAt_ge sb p.inum
    rw [hadd.frame a (by omega) (.inl (by omega))]
    exact h.low a ha
  · rw [hadd.frame a (by omega) (hout p (List.mem_append_right _ (List.mem_singleton_self p)))]
    exact h.empty a h₁ h₂ fun q hq => hout q (List.mem_append_left _ hq)

/-! ## Adding a file -/

theorem addInode_some {r : Image × Nat}
    (h : addInode sb im inum type sz nlink first atEnd = some r) :
    ∃ im₀, newInum sb im inum = some (r.2, im₀) ∧ r.2 < sb.ninodes ∧
      fillInode sb im₀ (inodeAt sb r.2) type sz nlink first atEnd = some r.1 := by
  unfold addInode at h
  split at h
  · obtain ⟨⟨inum', im₀⟩, hnew, h⟩ := Option.bind_eq_some_iff.mp h
    obtain ⟨ino, hget, h⟩ := Option.bind_eq_some_iff.mp h
    obtain ⟨im', hfill, h⟩ := Option.bind_eq_some_iff.mp h
    obtain rfl := Option.some.inj h
    unfold getInode at hget
    obtain ⟨hlt, hget⟩ := Option.ite_none_right_eq_some.mp hget
    obtain rfl := Option.some.inj hget
    exact ⟨im₀, hnew, hlt, hfill⟩
  · cases h

/-- What is built does not depend on the entries of the directory. -/
theorem Built.with_root (h : Built sb base im placed) (root : List Dirent) :
    Built sb base { im with root := root } placed :=
  ⟨h.tiles, h.laid, h.nodup, h.inums, h.low, h.empty, h.zero, h.present, h.journal⟩

/-- The loop of `add_file` loads the file's data. -/
theorem readLoop_loaded {contents : List UInt8} {r : Image × Nat} (g : Geometry sb)
    (h : Built sb base im placed)
    (hread : readLoop sb (contents.length + 1) im contents 0 = some r) :
    r.2 = contents.length ∧ Kept im r.1 ∧ (∀ a < im.freeb * blocksize, r.1.mem a = im.mem a) ∧
      r.1.freeb ≤ sb.journalBn ∧
      Loaded (if r.2 % blocksize = 0 then { r.1 with freeb := r.1.freeb - 1 } else r.1) im.freeb
      contents := by
  have hpos : 0 < im.freeb := by
    have := h.tiles.le
    have := g.inode
    have := g.fbb
    have := g.data
    unfold blocksize at *
    omega
  have hstart : Reading im im.freeb 0 :=
    ⟨rfl, fun a ha => h.zero a (by rwa [Nat.add_zero] at ha), h.present⟩
  obtain ⟨hsz, hready, hkept, hmem, hjournal⟩ := readLoop_spec hpos hstart hread
  rw [Nat.zero_add] at hsz
  rw [Nat.add_zero] at hmem
  have hfree := hready.freeb
  have hfreeb : (if r.2 % blocksize = 0 then { r.1 with freeb := r.1.freeb - 1 } else r.1).freeb =
      im.freeb + dataBlocks contents.length := by
    unfold dataBlocks
    split
    · rename_i hz
      dsimp only
      unfold blocksize at *
      omega
    · rename_i hz
      unfold blocksize at *
      omega
  have hsame :
      (if r.2 % blocksize = 0 then { r.1 with freeb := r.1.freeb - 1 } else r.1).mem = r.1.mem := by
    split <;> rfl
  have hpresent : (if r.2 % blocksize = 0 then { r.1 with freeb := r.1.freeb - 1 }
      else r.1).present = r.1.present := by
    split <;> rfl
  refine ⟨hsz, hkept, fun a ha => ?_, hjournal h.journal, hfreeb, fun x hx => ?_, fun a ha => ?_,
    fun b hb => ?_⟩
  · rw [hmem, store_of_not_mem _ _ (by omega)]
  · rw [hsame, hmem, store_getElem _ _ hx]
  · rw [hfreeb] at ha
    rw [hsame]
    have hcover := le_dataBlocks contents.length
    rw [Nat.add_mul] at ha
    exact hready.zero a (by omega)
  · rw [hfreeb] at hb
    rw [hpresent]
    refine hready.present b ?_
    unfold dataBlocks blocksize at *
    omega

/-- **`add_file` adds one file.** -/
theorem addFile_spec {f : InputFile} (g : Geometry sb) (h : Built sb base im placed)
    (hnew : im.freeinode ∉ placed.map Placed.inum) (hadd : addFile sb im f atEnd = some im') :
    ∃ p, Built sb base im' (placed ++ [p]) ∧ p.inum = im.freeinode ∧ p.name = f.name ∧
      p.data = f.contents ∧ im'.freeinode = im.freeinode + 1 ∧
      im'.root = im.root ++ [⟨im.freeinode, f.name⟩] ∧ legalName f.name = true ∧
      (atEnd = true → p.first = im.freeb) := by
  unfold addFile at hadd
  obtain ⟨⟨im₁, sz⟩, hread, hadd⟩ := Option.bind_eq_some_iff.mp hadd
  obtain ⟨hsz, hkept, hlow, hjournal, hload⟩ := readLoop_loaded g h hread
  dsimp only at hsz hkept hlow hjournal hload hadd
  generalize him : (if sz % blocksize = 0 then { im₁ with freeb := im₁.freeb - 1 }
    else im₁ : Image) = im₂ at hload hadd
  have hmem : im₂.mem = im₁.mem := by
    rw [← him]
    split <;> rfl
  have hkept₂ : Kept im im₂ := by
    rw [← him]
    split <;> exact ⟨hkept.freeinode, hkept.root⟩
  have hjournal₂ : im₂.freeb ≤ sb.journalBn := by
    rw [← him]
    split
    · dsimp only
      omega
    · exact hjournal
  obtain ⟨⟨im₃, ino⟩, hinode, hadd⟩ := Option.bind_eq_some_iff.mp hadd
  obtain ⟨im₀, hnum, hlt, hfill⟩ := addInode_some hinode
  unfold newInum at hnum
  rw [if_pos rfl] at hnum
  obtain ⟨-, hnum⟩ := Option.ite_none_left_eq_some.mp hnum
  obtain ⟨hino, rfl⟩ := Prod.mk.inj (Option.some.inj hnum)
  rw [hkept₂.freeinode] at hino
  dsimp only at hino hlt hfill hadd
  subst hino
  obtain ⟨hlegal, hadd⟩ := Option.ite_none_right_eq_some.mp hadd
  obtain rfl := Option.some.inj hadd
  have hfirst := h.tiles.le
  have hload' : Loaded { im₂ with freeinode := im₂.freeinode + 1 } im.freeb f.contents :=
    ⟨hload.freeb, hload.bytes, hload.zero, hload.present⟩
  have hlow₂ : ∀ a < im.freeb * blocksize, im₂.mem a = im.mem a := by
    rw [hmem]
    exact hlow
  rw [hsz] at hfill
  obtain ⟨first', ind, hadded, hkept₃, hat⟩ := @fillInode_spec sb
    { im₂ with freeinode := im₂.freeinode + 1 } im₃ f.contents f.name
    im.freeb im.freeinode _ _ atEnd g hload' hfirst hlt
    (fun a h₁ h₂ => by
      have := (g.inode_lt hlt).2
      have hle : sb.dataBn * blocksize ≤ im.freeb * blocksize := Nat.mul_le_mul_right _ hfirst
      exact (hlow₂ a (by omega)).trans (h.unused g hlt hnew h₁ h₂))
    hjournal₂ hfill
  have hadded' : Added sb im im₃ im.freeb ⟨im.freeinode, f.name, f.contents, first', ind⟩ :=
    ⟨hadded.within, hadded.laid, fun a ha hout => (hadded.frame a ha hout).trans (hlow₂ a ha),
      hadded.zero, hadded.present, hadded.journal⟩
  refine ⟨_, (h.add g hadded' hlt hnew).with_root _, rfl, rfl, rfl, ?_, ?_, hlegal, hat⟩
  · exact hkept₃.freeinode.trans (congrArg (· + 1) hkept₂.freeinode)
  · exact congrArg (· ++ _) (hkept₃.root.trans hkept₂.root)

/-! ## The files -/

/-- The files that have been added, in their order. -/
structure FilesBuilt (sb : Superblock) (base : Mem) (firstData : Bool) (files : List InputFile)
    (im : Image) (placed : List Placed) : Prop extends Built sb base im placed where
  freeinode : im.freeinode = 2 + placed.length
  numbered : placed.map Placed.inum = List.range' 2 placed.length
  files : placed.map (fun p => (p.name, p.data)) = files.map fun f => (f.name, f.contents)
  root : im.root = placed.map fun p => ⟨p.inum, p.name⟩
  legal : ∀ p ∈ placed, legalName p.name = true
  head : firstData = true → ∀ p ∈ placed.head?, p.first = sb.dataBn

variable {firstData isFirst : Bool} {files : List InputFile} {f : InputFile}

theorem FilesBuilt.add (g : Geometry sb) (h : FilesBuilt sb base firstData files im placed)
    (hat : placed = [] → atEnd = firstData) (hadd : addFile sb im f atEnd = some im') :
    ∃ p, FilesBuilt sb base firstData (files ++ [f]) im' (placed ++ [p]) := by
  have hnew : im.freeinode ∉ placed.map Placed.inum := by
    rw [h.numbered, h.freeinode, List.mem_range'_1]
    omega
  obtain ⟨p, hbuilt, hinum, hname, hdata, hfree, hroot, hlegal, hfirst⟩ :=
    addFile_spec g h.toBuilt hnew hadd
  refine ⟨p, hbuilt, ?_, ?_, ?_, ?_, fun q hq => ?_, fun hfd q hq => ?_⟩
  · rw [hfree, h.freeinode, List.length_append]
    rfl
  · rw [List.map_append, h.numbered, List.length_append, List.map_singleton, hinum, h.freeinode,
      List.length_singleton, List.range'_concat, Nat.one_mul]
  · rw [List.map_append, List.map_append, h.files, List.map_singleton, List.map_singleton,
      hname, hdata]
  · rw [hroot, h.root, List.map_append, List.map_singleton, hinum, hname]
  · rcases List.mem_append.mp hq with hq | hq
    · exact h.legal q hq
    · rw [List.mem_singleton.mp hq, hname]
      exact hlegal
  · cases placed with
    | nil =>
      obtain rfl : p = q := Option.some.inj hq
      rw [hfirst ((hat rfl).trans hfd)]
      exact h.tiles.symm
    | cons p' placed => exact h.head hfd q hq

/-- **Every run of the loop over the files.** -/
theorem addFiles_spec (g : Geometry sb) :
    ∀ {rest : List InputFile} {isFirst : Bool} {im : Image} {files : List InputFile}
    {placed : List Placed}, FilesBuilt sb base firstData files im placed →
    (placed = [] → isFirst = firstData) → addFiles sb isFirst rest im = some im' →
    ∃ placed', FilesBuilt sb base firstData (files ++ rest) im' placed' := by
  intro rest
  induction rest with
  | nil =>
    intro isFirst im files placed h _ hadd
    obtain rfl := Option.some.inj hadd
    rw [List.append_nil]
    exact ⟨placed, h⟩
  | cons f rest ih =>
    intro isFirst im files placed h hat hadd
    obtain ⟨im₁, hfile, hadd⟩ := Option.bind_eq_some_iff.mp hadd
    obtain ⟨p, h₁⟩ := h.add g hat hfile
    obtain ⟨placed', h₂⟩ := ih h₁ (fun hnil => absurd hnil (by simp)) hadd
    rw [List.append_assoc] at h₂
    exact ⟨placed', h₂⟩

/-! ## The root directory -/

/-- How many entries the loop over `root` adds. -/
def padding (n : Nat) : Nat := if n = 0 then 32 else (32 - n % 32) % 32

theorem padRoot_eq : ∀ {fuel : Nat} {root : List Dirent}, padding root.length ≤ fuel →
    padRoot fuel root = root ++ List.replicate (padding root.length) ⟨0, []⟩ := by
  intro fuel
  induction fuel with
  | zero =>
    intro root h
    rw [Nat.le_zero.mp h]
    exact (List.append_nil root).symm
  | succ fuel ih =>
    intro root h
    have hcond : root.length * direntsize % blocksize ≠ 0 ∨ root.length = 0 ↔
        padding root.length ≠ 0 := by
      unfold padding direntsize blocksize
      split <;> omega
    unfold padRoot
    by_cases hpad : padding root.length = 0
    · rw [if_neg (fun hc => hcond.mp hc hpad), hpad]
      exact (List.append_nil root).symm
    · have hnext : padding (root ++ [(⟨0, []⟩ : Dirent)]).length + 1 = padding root.length := by
        rw [List.length_append, List.length_singleton]
        unfold padding at *
        split at hpad <;> split <;> omega
      rw [if_pos (hcond.mpr hpad), ih (by omega), ← hnext, List.replicate_succ, List.append_assoc]
      rfl

theorem padding_le (n : Nat) : padding n ≤ blocksize / direntsize := by
  have : blocksize / direntsize = 32 := rfl
  rw [this]
  unfold padding
  split <;> omega

/-- The entries of the root directory. -/
def rootEntries (root : List Dirent) : List Dirent :=
  root ++ List.replicate (padding root.length) ⟨0, []⟩

/-- The size of a directory with `n` files. -/
def rootSize (n : Nat) : Nat := (n + padding n) * direntsize

theorem bytes_length {de : Dirent} (h : de.name.length ≤ maxnamelen) :
    de.bytes.length = direntsize := by
  unfold Dirent.bytes
  rw [List.length_append, List.length_append, length_toLE, List.length_replicate]
  unfold maxnamelen direntsize at *
  omega

theorem flatMap_bytes_length : ∀ {root : List Dirent}, (∀ de ∈ root, de.name.length ≤ maxnamelen) →
    (root.flatMap Dirent.bytes).length = root.length * direntsize := by
  intro root
  induction root with
  | nil => exact fun _ => (Nat.zero_mul _).symm
  | cons de root ih =>
    intro h
    rw [List.flatMap_cons, List.length_append, bytes_length (h de List.mem_cons_self),
      ih fun d hd => h d (List.mem_cons_of_mem _ hd), List.length_cons, Nat.succ_mul, Nat.add_comm]

theorem rootEntries_length {root : List Dirent} (h : ∀ de ∈ root, de.name.length ≤ maxnamelen) :
    ((rootEntries root).flatMap Dirent.bytes).length = rootSize root.length := by
  rw [flatMap_bytes_length]
  · unfold rootEntries rootSize
    rw [List.length_append, List.length_replicate]
  · intro de hde
    rcases List.mem_append.mp hde with hde | hde
    · exact h de hde
    · rw [List.eq_of_mem_replicate hde]
      exact Nat.zero_le _

theorem rootSize_mod (n : Nat) : rootSize n % blocksize = 0 := by
  unfold rootSize padding direntsize blocksize
  split <;> omega

/-- The directory's bytes before `sz` are in its blocks. -/
structure RootState (im : Image) (first sz : Nat) (data : List UInt8) : Prop where
  freeb : im.freeb = first + sz / blocksize
  mod : sz % blocksize = 0
  le : sz ≤ data.length
  bytes : ∀ x (h : x < data.length), x < sz → im.mem (first * blocksize + x) = data[x]
  zero : ∀ a, im.freeb * blocksize ≤ a → im.mem a = 0
  present : ∀ b, b < im.freeb → im.present b

/-- A round takes one block. -/
theorem RootState.round (h : RootState im first sz data) (hlt : sz < data.length)
    (hmod : data.length % blocksize = 0) :
    RootState ({ im with freeb := im.freeb + 1 }.newBlock im.freeb fun x => data.getD (sz + x) 0)
    first (sz + blocksize) data ∧
      ∀ a < im.freeb * blocksize,
        ({ im with freeb := im.freeb + 1 }.newBlock im.freeb fun x => data.getD (sz + x) 0).mem a =
        im.mem a := by
  have hfree := h.freeb
  have hsz := h.mod
  have hdiv : sz / blocksize * blocksize = sz := Nat.div_mul_cancel (Nat.dvd_of_mod_eq_zero hsz)
  have hlow : ∀ a < im.freeb * blocksize,
      ({ im with freeb := im.freeb + 1 }.newBlock im.freeb fun x => data.getD (sz + x) 0).mem a =
      im.mem a :=
    fun a ha => if_neg (Nat.ne_of_lt (block_lt ha))
  refine ⟨⟨?_, ?_, ?_, fun x hx hlt' => ?_, fun a ha => ?_, fun b hb => ?_⟩, hlow⟩
  · change im.freeb + 1 = _
    rw [hfree, Nat.add_div_right _ (by decide), Nat.add_assoc]
  · rw [Nat.add_mod_right, hsz]
  · unfold blocksize at *
    omega
  · by_cases hold : x < sz
    · rw [hlow _ (by rw [hfree, Nat.add_mul, hdiv]; omega)]
      exact h.bytes x hx hold
    · have hblock : (first * blocksize + x) / blocksize = im.freeb := by
        rw [hfree, block_add]
        unfold blocksize at *
        omega
      have hoff : sz + (first * blocksize + x) % blocksize = x := by
        rw [Nat.add_comm (first * blocksize), Nat.add_mul_mod_self_right]
        unfold blocksize at *
        omega
      refine (if_pos hblock).trans ?_
      rw [hoff, List.getD_eq_getElem?_getD, List.getElem?_eq_getElem hx]
      rfl
  · have hgt : (im.freeb + 1) * blocksize ≤ a := ha
    refine (if_neg (Nat.ne_of_gt (le_block hgt))).trans (h.zero a ?_)
    exact Nat.le_trans (Nat.mul_le_mul_right _ (Nat.le_succ _)) hgt
  · have hb : b < im.freeb + 1 := hb
    by_cases hlast : b = im.freeb
    · rw [hlast]
      exact Function.update_self ..
    · exact (Function.update_of_ne hlast ..).trans (h.present b (by omega))

theorem rootLoop_spec (hmod : data.length % blocksize = 0) :
    ∀ {fuel : Nat} {im : Image} {sz : Nat} {r : Image × Nat},
    RootState im first sz data → rootLoop sb data fuel im sz = some r →
    r.2 = data.length ∧ Loaded r.1 first data ∧ Kept im r.1 ∧
      (∀ a < im.freeb * blocksize, r.1.mem a = im.mem a) ∧
      (im.freeb ≤ sb.journalBn → r.1.freeb ≤ sb.journalBn) := by
  intro fuel
  induction fuel with
  | zero => exact fun _ h => absurd h (by simp [rootLoop])
  | succ fuel ih =>
    intro im sz r hstate h
    unfold rootLoop at h
    by_cases hlt : sz < data.length
    · rw [if_pos hlt] at h
      obtain ⟨im₁, hadvance, h⟩ := Option.bind_eq_some_iff.mp h
      obtain ⟨hjournal, rfl⟩ := advanceBlockno_some hadvance
      obtain ⟨hnext, hlow⟩ := hstate.round hlt hmod
      obtain ⟨hsz, hload, hkept, hsame, hle⟩ := ih hnext h
      refine ⟨hsz, hload, ⟨hkept.freeinode, hkept.root⟩, fun a ha => ?_, fun _ => hle hjournal⟩
      have hlt : a < (im.freeb + 1) * blocksize :=
        Nat.lt_of_lt_of_le ha (Nat.mul_le_mul_right _ (Nat.le_succ _))
      exact (hsame a hlt).trans (hlow a ha)
    · rw [if_neg hlt] at h
      obtain rfl := Option.some.inj h
      obtain rfl : sz = data.length := Nat.le_antisymm hstate.le (Nat.not_lt.mp hlt)
      have hblocks : dataBlocks data.length = data.length / blocksize := by
        unfold dataBlocks blocksize at *
        omega
      refine ⟨rfl, ⟨?_, fun x hx => hstate.bytes x hx hx, hstate.zero, hstate.present⟩, ⟨rfl, rfl⟩,
        fun _ _ => rfl, id⟩
      rw [hblocks]
      exact hstate.freeb

/-- The entries that the files have. -/
def entries (placed : List Placed) : List Dirent := placed.map fun p => ⟨p.inum, p.name⟩

theorem legalName_length (h : legalName name = true) : name.length ≤ maxnamelen := by
  unfold legalName at h
  simp only [Bool.not_eq_true', Bool.or_eq_false_iff, decide_eq_false_iff_not] at h
  exact Nat.not_lt.mp h.2

/-- **The root directory goes after the files.** -/
theorem addRoot_spec (g : Geometry sb) (h : FilesBuilt sb base firstData files im placed)
    (hroot : addRoot sb im = some im') : ∃ q, Built sb base im' (placed ++ [q]) ∧ q.inum = 1 ∧
    q.data = (rootEntries (entries placed)).flatMap Dirent.bytes ∧
      im'.freeinode = im.freeinode := by
  have hnames : ∀ de ∈ im.root, de.name.length ≤ maxnamelen := by
    intro de hde
    rw [h.root] at hde
    obtain ⟨p, hp, rfl⟩ := List.mem_map.mp hde
    exact legalName_length (h.legal p hp)
  unfold addRoot at hroot
  dsimp only at hroot
  rw [padRoot_eq (padding_le _)] at hroot
  change (rootLoop sb ((rootEntries im.root).flatMap Dirent.bytes) _
    { im with root := rootEntries im.root } 0).bind _ = _ at hroot
  have hsize := rootEntries_length hnames
  have hentries : im.root = entries placed := h.root
  rw [← hentries]
  generalize (rootEntries im.root).flatMap Dirent.bytes = data at *
  have hmod : data.length % blocksize = 0 := by
    rw [hsize]
    exact rootSize_mod _
  obtain ⟨⟨im₁, sz⟩, hloop, hroot⟩ := Option.bind_eq_some_iff.mp hroot
  have hstart : RootState { im with root := rootEntries im.root } im.freeb 0 data :=
    ⟨rfl, rfl, Nat.zero_le _, fun x _ hx => absurd hx (Nat.not_lt_zero x), h.zero, h.present⟩
  obtain ⟨hsz, hload, hkept, hlow, hjournal⟩ := rootLoop_spec hmod hstart hloop
  obtain ⟨⟨im₂, i⟩, hinode, hroot⟩ := Option.bind_eq_some_iff.mp hroot
  obtain rfl := Option.some.inj hroot
  obtain ⟨im₀, hnum, hlt, hfill⟩ := addInode_some hinode
  obtain ⟨hi, rfl⟩ := Prod.mk.inj (Option.some.inj hnum)
  dsimp only at hi hsz hload hkept hlow hjournal hlt hfill
  subst hi hsz
  have hnew : 1 ∉ placed.map Placed.inum := by
    rw [h.numbered, List.mem_range'_1]
    omega
  have hfirst := h.tiles.le
  obtain ⟨first', ind, hadded, hkept₂, -⟩ := @fillInode_spec sb im₁ im₂ data [] im.freeb 1 _ _ false
    g hload hfirst hlt (fun a h₁ h₂ => by
      have := (g.inode_lt hlt).2
      have hle : sb.dataBn * blocksize ≤ im.freeb * blocksize := Nat.mul_le_mul_right _ hfirst
      exact (hlow a (by omega)).trans (h.unused g hlt hnew h₁ h₂))
    (hjournal h.journal) hfill
  have hadded' : Added sb im im₂ im.freeb ⟨1, [], data, first', ind⟩ :=
    ⟨hadded.within, hadded.laid, fun a ha hout => (hadded.frame a ha hout).trans (hlow a ha),
      hadded.zero, hadded.present, hadded.journal⟩
  exact ⟨_, h.toBuilt.add g hadded' hlt hnew, rfl, rfl, hkept₂.freeinode.trans hkept.freeinode⟩

/-! ## The image -/

theorem putFields_frame :
    ∀ {fields : List (Nat × Nat × Nat)} {m : Mem}, (∀ f ∈ fields, f.1 + f.2.1 ≤ x ∨ x < f.1) →
    fields.foldl (fun m f => putLE m f.1 f.2.1 f.2.2) m x = m x := by
  intro fields
  induction fields with
  | nil => exact fun _ => rfl
  | cons f fields ih =>
    intro m h
    rw [List.foldl_cons, ih fun g hg => h g (List.mem_cons_of_mem _ hg), putLE_of_not_mem]
    have := h f List.mem_cons_self
    omega

theorem superblockFields_lt (sb : Superblock) :
    ∀ f ∈ superblockFields sb, f.1 + f.2.1 ≤ blocksize := by
  unfold superblockFields blocksize
  simp

theorem bootBlock_zero {boot : Option (List UInt8)} (h : bootBlock boot = some m) (ha : 512 ≤ a) :
    m a = 0 := by
  cases boot with
  | none =>
    obtain rfl := Option.some.inj h
    rfl
  | some sector =>
    obtain ⟨hlen, h⟩ := Option.ite_none_left_eq_some.mp h
    obtain rfl := Option.some.inj h
    rw [putLE_of_not_mem (by omega), putLE_of_not_mem (by omega), store_of_not_mem]
    omega

/-- What there is at the starting point. -/
theorem start_spec {boot : Option (List UInt8)} (h : start sb boot = some im) :
    sb.dataBn ≤ sb.nblocks ∧ im.freeb = sb.dataBn ∧ (∀ a, blocksize ≤ a → im.mem a = 0) ∧
      (∃ mb, bootBlock boot = some mb ∧ im.mem = putSuperblock sb mb) ∧
      (Geometry sb → FilesBuilt sb im.mem firstData [] im []) := by
  unfold start at h
  obtain ⟨hle, h⟩ := Option.ite_none_right_eq_some.mp h
  obtain ⟨mb, hboot, h⟩ := Option.bind_eq_some_iff.mp h
  obtain rfl := Option.some.inj h
  have hzero : ∀ a, blocksize ≤ a → putSuperblock sb mb a = 0 := by
    intro a ha
    unfold putSuperblock
    rw [putFields_frame fun f hf => .inl (Nat.le_trans (superblockFields_lt sb f hf) ha)]
    exact bootBlock_zero hboot (Nat.le_trans (by decide) ha)
  refine ⟨hle, rfl, hzero, ⟨mb, hboot, rfl⟩, fun g => ?_⟩
  have hpos : 1 ≤ sb.inodeBn := by
    have := g.inode
    have := g.fbb
    omega
  have hlow : blocksize ≤ sb.inodeBn * blocksize := Nat.le_mul_of_pos_left _ hpos
  have hdata := g.data
  refine ⟨⟨rfl, ?_, .nil, ?_, fun _ _ => rfl, fun a h₁ _ _ => hzero a (Nat.le_trans hlow h₁),
    fun a ha => ?_, fun b hb => decide_eq_true hb, g.journal⟩, rfl, rfl, rfl, rfl, ?_, ?_⟩
  · exact fun p hp => absurd hp List.not_mem_nil
  · exact fun p hp => absurd hp List.not_mem_nil
  · have hge : sb.dataBn * blocksize ≤ a := ha
    exact hzero a (by omega)
  · exact fun p hp => absurd hp List.not_mem_nil
  · exact fun _ p hp => absurd hp (by simp)

/-- A change before the inodes. -/
theorem Built.with_mem (g : Geometry sb) (h : Built sb base im placed)
    (hsame : ∀ a, sb.inodeBn * blocksize ≤ a → m a = im.mem a) :
    Built sb m { im with mem := m } placed := by
  have hdata := g.data
  have hstart : sb.dataBn * blocksize ≤ im.freeb * blocksize := Nat.mul_le_mul_right _ h.tiles.le
  refine ⟨h.tiles, fun p hp => ?_, h.nodup, h.inums, fun _ _ => rfl, fun a h₁ h₂ hout => ?_,
    fun a ha => ?_, h.present, h.journal⟩
  · refine (h.laid p hp).congr (fun a h₁ _ => hsame a (Nat.le_trans (inodeAt_ge sb p.inum) h₁))
      fun a ha => hsame a ?_
    have hblock := (h.tiles.has hp ha).1
    have : sb.dataBn * blocksize ≤ a :=
      Nat.le_trans (Nat.mul_le_mul_right _ hblock) (Nat.div_mul_le_self a blocksize)
    omega
  · exact (hsame a h₁).trans (h.empty a h₁ h₂ hout)
  · have hge : im.freeb * blocksize ≤ a := ha
    exact (hsame a (by omega)).trans (h.zero a ha)

/-- An image that has been built, with the files where `placed` says and the root directory after
them. -/
structure ImageBuilt (sb : Superblock) (firstData : Bool) (files : List InputFile) (im : Image)
    (placed : List Placed) (root : Placed) : Prop where
  built : Built sb im.mem im (placed ++ [root])
  freeinode : im.freeinode = 2 + placed.length
  numbered : placed.map Placed.inum = List.range' 2 placed.length
  files : placed.map (fun p => (p.name, p.data)) = files.map fun f => (f.name, f.contents)
  legal : ∀ p ∈ placed, legalName p.name = true
  head : firstData = true → ∀ p ∈ placed.head?, p.first = sb.dataBn
  inum : root.inum = 1
  data : root.data = (rootEntries (entries placed)).flatMap Dirent.bytes

/-- The free blocks of the image have been marked, in a bitmap of zeros, and what is before it is as
at the start. -/
def Marked (sb : Superblock) (boot : Option (List UInt8)) (im : Image) : Prop :=
  ∃ mb m, bootBlock boot = some mb ∧ im.mem = markFreeBlocks sb im.freeb m ∧
    (∀ a < blocksize, m a = putSuperblock sb mb a) ∧ ∀ a, blocksize ≤ a →
    a < sb.inodeBn * blocksize → m a = 0

/-- **Every image is built like this.** -/
theorem mkfs_built {o : Options} {boot : Option (List UInt8)} (ho : o.Ok)
    (h : mkfs o boot files = some (sb, im)) : Geometry sb ∧ Marked sb boot im ∧
    ∃ placed root, ImageBuilt sb (o.firstData ≠ 0) files im placed root := by
  obtain ⟨sb', hlayout, h⟩ := Option.bind_eq_some_iff.mp h
  obtain ⟨im₀, hstart, h⟩ := Option.bind_eq_some_iff.mp h
  obtain ⟨im₁, hfiles, h⟩ := Option.bind_eq_some_iff.mp h
  obtain ⟨im₂, hroot, h⟩ := Option.bind_eq_some_iff.mp h
  obtain ⟨rfl, rfl⟩ := Prod.mk.inj (Option.some.inj h)
  obtain ⟨hle, -, hzero, ⟨mb, hboot, hmem⟩, hbuilt⟩ :=
    @start_spec sb' im₀ (o.firstData ≠ 0) boot hstart
  have g := layout_geometry ho hlayout hle
  obtain ⟨placed, h₁⟩ := addFiles_spec g (hbuilt g) (fun _ => rfl) hfiles
  obtain ⟨root, h₂, hinum, hdata, hfree⟩ := addRoot_spec g h₁ hroot
  have hend : im₂.freeb ≤ sb'.nblocks := Nat.le_trans h₂.journal g.le
  have hinode : sb'.inodeBn * blocksize = sb'.fbbBn * blocksize + nfbb sb'.nblocks * blocksize := by
    rw [g.inode, Nat.add_mul]
  have hpos : blocksize ≤ sb'.inodeBn * blocksize := by
    have := g.fbb
    rw [g.inode]
    unfold blocksize
    omega
  refine ⟨g, ⟨mb, im₂.mem, hboot, rfl, fun a ha => ?_, fun a h₃ h₄ => ?_⟩, placed, root, ?_⟩
  · rw [h₂.low a (by omega), hmem]
  · rw [h₂.low a h₄]
    exact hzero a h₃
  · refine ⟨h₂.with_mem g fun a ha => markFreeBlocks_frame hend g.le (.inr (by omega)),
      hfree.trans h₁.freeinode, h₁.numbered, h₁.files, h₁.legal, h₁.head, hinum, hdata⟩

theorem disk_eq (h : Built sb base im placed) : im.disk = im.mem := by
  funext a
  unfold Image.disk
  split
  · rfl
  · rename_i habsent
    refine (h.zero a ?_).symm
    by_contra hlt
    exact habsent (h.present _ (block_lt (Nat.not_le.mp hlt)))

/-! ## The bitmap of the image -/

/-- The number of blocks that are used before the journal, with those before the data. -/
def usedBlocks (sb : Superblock) (files : List InputFile) : Nat :=
  sb.dataBn + (files.map fun f => blocksFor f.contents.length).sum +
    blocksFor (rootSize files.length)

theorem ImageBuilt.length_eq {root : Placed} (h : ImageBuilt sb firstData files im placed root) :
    placed.length = files.length := by
  have := congrArg List.length h.files
  rwa [List.length_map, List.length_map] at this

theorem ImageBuilt.root_size {root : Placed} (h : ImageBuilt sb firstData files im placed root) :
    root.data.length = rootSize files.length := by
  rw [h.data, rootEntries_length, entries, List.length_map, h.length_eq]
  intro de hde
  obtain ⟨p, hp, rfl⟩ := List.mem_map.mp hde
  exact legalName_length (h.legal p hp)

theorem ImageBuilt.freeb {root : Placed} (h : ImageBuilt sb firstData files im placed root) :
    im.freeb = usedBlocks sb files := by
  have hsizes : (placed.map fun p => blocksFor p.data.length) = files.map fun f =>
      blocksFor f.contents.length := by
    have := congrArg (List.map fun x : List UInt8 × List UInt8 => blocksFor x.2.length) h.files
    rwa [List.map_map, List.map_map] at this
  rw [h.built.tiles.stop, List.map_append, hsizes, List.map_singleton, h.root_size, List.sum_append,
    List.sum_singleton, ← Nat.add_assoc]
  rfl

/-- The free bits are right: of the blocks, those from `freeb` to the journal are free, and nothing
past the last block is. -/
def BitmapRight (sb : Superblock) (im : Image) : Prop :=
  (∀ b < sb.nblocks, free im.disk (sb.fbbBn * blocksize) b =
    decide (im.freeb ≤ b ∧ b < sb.journalBn)) ∧ ∀ b, sb.nblocks ≤ b →
    b < nfbb sb.nblocks * bitsperblock → free im.disk (sb.fbbBn * blocksize) b = false

/-- What is in the bitmap of an image. -/
theorem free_image {o : Options} {boot : Option (List UInt8)} (ho : o.Ok)
    (h : mkfs o boot files = some (sb, im)) (hb : b < nfbb sb.nblocks * bitsperblock) :
    free im.disk (sb.fbbBn * blocksize) b =
      decide (b < sb.journalBn ∧ (im.freeb ≤ b ∨ sb.nblocks / 8 * 8 ≤ b)) := by
  obtain ⟨g, ⟨mb, m, -, hmem, -, hzero⟩, placed, root, hbuilt⟩ := mkfs_built ho h
  have hbyte : free m (sb.fbbBn * blocksize) b = false := by
    have hlow := g.inode
    have hfbb := g.fbb
    unfold free
    rw [hzero]
    · exact bitSet_zero b
    · unfold blocksize
      omega
    · rw [hlow]
      unfold bitsperblock blocksize at *
      omega
  rw [disk_eq hbuilt.built, hmem]
  exact free_markFreeBlocks hbyte (Nat.le_trans hbuilt.built.journal g.le) g.le

/-- **The bitmap is right, exactly if** the blocks that are used end before the last whole byte of
it does: the loop after it marks the others free again. -/
theorem bitmap_right_iff {o : Options} {boot : Option (List UInt8)} (ho : o.Ok)
    (h : mkfs o boot files = some (sb, im)) : BitmapRight sb im ↔
    usedBlocks sb files ≤ sb.nblocks / 8 * 8 := by
  obtain ⟨g, -, placed, root, hbuilt⟩ := mkfs_built ho h
  have hcover : sb.nblocks ≤ nfbb sb.nblocks * bitsperblock := by
    unfold nfbb bitsperblock blocksize
    omega
  have hjournal := hbuilt.built.journal
  have hle := g.le
  rw [← hbuilt.freeb]
  constructor
  · rintro ⟨hright, -⟩
    by_contra hgt
    have hb := hright (sb.nblocks / 8 * 8) (by omega)
    rw [free_image ho h (by omega)] at hb
    have := (decide_eq_decide.mp hb).mp ⟨by omega, .inr (Nat.le_refl _)⟩
    omega
  · intro hfree
    refine ⟨fun b hb => ?_, fun b hb hlt => ?_⟩
    · rw [free_image ho h (by omega)]
      exact decide_eq_decide.mpr (by omega)
    · rw [free_image ho h hlt]
      exact decide_eq_false (by omega)

/-- 64 blocks, and a file of 20 bytes. -/
theorem bitmap_right_iff_small :
    ∃ (o : Options) (files : List InputFile) (sb : Superblock) (im : Image),
    mkfs o none files = some (sb, im) ∧ usedBlocks sb files = 18 ∧ BitmapRight sb im := by
  have hok : (⟨64, 0, 0, 0, 0⟩ : Options).Ok := by
    unfold BlockAlloc.Options.Ok
    decide
  have hrun : (mkfs ⟨64, 0, 0, 0, 0⟩ none [⟨[65], List.replicate 20 7, by decide⟩]).map
      (fun r => (r.1.nblocks, r.1.dataBn)) = some (64, 16) := by decide +kernel
  obtain ⟨⟨sb, im⟩, h, hsb⟩ := Option.map_eq_some_iff.mp hrun
  obtain ⟨hn, hd⟩ := Prod.mk.inj hsb
  have hused : usedBlocks sb [⟨[65], List.replicate 20 7, by decide⟩] = 18 := by
    unfold usedBlocks
    rw [show sb.dataBn = 16 from hd]
    decide
  refine ⟨_, _, sb, im, h, hused, (bitmap_right_iff hok h).mpr ?_⟩
  rw [hused, show sb.nblocks = 64 from hn]
  decide

/-- 18 blocks, and no files: the directory has block 16, which is marked free. -/
theorem bitmap_freesRoot : ∃ (o : Options) (sb : Superblock) (im : Image), o.Ok ∧
    mkfs o none [] = some (sb, im) ∧ getLE im.disk (directAddr (inodeAt sb 1) 0) 4 = 16 ∧
    free im.disk (sb.fbbBn * blocksize) 16 = true ∧ ¬BitmapRight sb im := by
  have hok : (⟨18, 0, 0, 0, 0⟩ : Options).Ok := by
    unfold BlockAlloc.Options.Ok
    decide
  have hrun : (mkfs ⟨18, 0, 0, 0, 0⟩ none []).map (fun r => (r.1.nblocks, r.1.journalBn, r.2.freeb,
      getLE r.2.disk (directAddr (inodeAt r.1 1) 0) 4)) = some (18, 18, 17, 16) := by decide +kernel
  obtain ⟨⟨sb, im⟩, h, hsb⟩ := Option.map_eq_some_iff.mp hrun
  obtain ⟨hn, hrest⟩ := Prod.mk.inj hsb
  obtain ⟨hj, hrest⟩ := Prod.mk.inj hrest
  obtain ⟨hf, hptr⟩ := Prod.mk.inj hrest
  dsimp only at hn hj hf
  have hfree : free im.disk (sb.fbbBn * blocksize) 16 = true := by
    rw [free_image hok h (by rw [hn]; decide), hn, hj, hf]
    decide
  refine ⟨_, sb, im, hok, h, hptr, hfree, fun hright => ?_⟩
  have := hright.1 16 (by omega)
  rw [hfree, hf, hj] at this
  exact absurd this (by decide)

end PugOS.Mkfs
