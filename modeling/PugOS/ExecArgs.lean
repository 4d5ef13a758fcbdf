import PugOS.ExecChecks

/-! # The arguments on the new stack

`sys_execv` copies the strings, and pointers to them, to the end of the stack page.  How much that
is, is never compared with the size of the page.  Where it fits, with the stack pointer below it,
the program finds its arguments (`execv_layout_iff`); where it does not, the first pointer is
written before the page or the stack pointer is.
-/
namespace PugOS.PageTable
open Bytes UserMemory

namespace Exec
open Elf

/-! ## Sizes -/

/-- What the strings take, with their nulls. -/
def textSize (args : List (List UInt8)) : Nat := (args.map fun s => s.length + 1).sum

/-- What the strings before the `i`th take. -/
def textBefore (args : List (List UInt8)) (i : Nat) : Nat := textSize (args.take i)

/-- The arguments and the alignment of the stack pointer take no more than a page. -/
def Fits (args : List (List UInt8)) : Prop :=
  memDiff (textSize args) args.length + (if memDiff (textSize args) args.length % 16 = 0 then 32
    else 8) ≤ pageSize

/-- All that has been written is in the stack page. -/
def Within (stkpg : Nat) (log : List (Int × Nat)) : Prop :=
  ∀ w ∈ log, (stkpg : Int) ≤ w.1 ∧ w.1 + w.2 ≤ stkpg + pageSize

/-- The program starts with the arguments at `%rsi`, and a stack pointer below them. -/
structure Layout (t : Tables) (pt : Nat) (m : Mem) (args : List (List UInt8)) (regs : Regs) :
    Prop where
  argc : regs.rdi = args.length
  args : Args t pt m regs.rsi args
  aligned : regs.rsp % 16 = 0
  inside : memsizeVirtual - pageSize ≤ regs.rsp ∧ regs.rsp < memsizeVirtual
  below : regs.rsp < regs.rsi

section Sizes
variable {args : List (List UInt8)} {s : List UInt8} {i n diff : Nat}

theorem textBefore_succ (h : args[i]? = some s) : textBefore args (i + 1) = textBefore args i +
    (s.length + 1) := by
  unfold textBefore textSize
  rw [List.take_add_one, h, List.map_append, List.sum_append]
  rfl

@[simp] theorem textBefore_length (args : List (List UInt8)) :
    textBefore args args.length = textSize args := by
  unfold textBefore
  rw [List.take_length]

theorem textBefore_mono (h : i ≤ n) : textBefore args i ≤ textBefore args n := by
  obtain ⟨k, rfl⟩ := Nat.exists_eq_add_of_le h
  unfold textBefore textSize
  rw [List.take_add, List.map_append, List.sum_append]
  exact Nat.le_add_right _ _

theorem textBefore_le (args : List (List UInt8)) (i : Nat) : textBefore args i ≤ textSize args := by
  rcases Nat.le_total i args.length with hle | hge
  · exact (textBefore_mono hle).trans_eq (textBefore_length args)
  · unfold textBefore
    rw [List.take_of_length_le hge]

theorem lt_length (h : args[i]? = some s) : i < args.length := (List.getElem?_eq_some_iff.mp h).1

theorem memDiff_spec (len argc : Nat) : 8 * (argc + 1) + len ≤ memDiff len argc ∧
    memDiff len argc % 8 = 0 := by
  unfold memDiff
  split
  · omega
  · omega

theorem stackPointer_eq (hdiff : diff % 8 = 0) (hle : diff ≤ pageSize) :
    stackPointer diff = memsizeVirtual - (diff + if diff % 16 = 0 then 32 else 8) := by
  have hbelow : wrap64 ((memsizeVirtual : Int) - diff - 8) = memsizeVirtual - diff - 8 := by
    unfold wrap64 memsizeVirtual pageSize at *
    omega
  unfold stackPointer
  dsimp only
  rw [hbelow]
  unfold memsizeVirtual pageSize at *
  split
  · rw [if_pos (by omega)]
    unfold wrap64
    omega
  · rw [if_neg (by omega)]
    omega

end Sizes

/-! ## The strings of the process -/

section Strings
variable {t t' : Tables} {pt argv : Nat} {m m' : Mem} {args : List (List UInt8)}

theorem strlenLoop_spec : ∀ {s : List UInt8} {rounds v : Nat}, s.length < rounds →
    readBytes t pt m v (s.length + 1) = some (s ++ [0]) → 0 ∉ s →
    strlenLoop t pt m rounds v = some s.length := by
  intro s
  induction s with
  | nil =>
    intro rounds v hlt h _
    obtain ⟨rounds, rfl⟩ := Nat.exists_eq_succ_of_ne_zero (Nat.ne_of_gt hlt)
    obtain ⟨c, hc, h⟩ := Option.bind_eq_some_iff.mp h
    cases h
    unfold strlenLoop
    rw [hc, Option.bind_some, if_pos rfl]
    rfl
  | cons c s ih =>
    intro rounds v hlt h hnull
    obtain ⟨rounds, rfl⟩ :=
      Nat.exists_eq_succ_of_ne_zero (Nat.ne_of_gt (Nat.lt_of_le_of_lt (Nat.zero_le _) hlt))
    obtain ⟨c', hc, h⟩ := Option.bind_eq_some_iff.mp h
    obtain ⟨rest, hrest, heq⟩ := Option.map_eq_some_iff.mp h
    obtain ⟨rfl, rfl⟩ := List.cons.inj heq
    have hne : ¬ c' = 0 := fun hzero => hnull (hzero ▸ List.mem_cons_self)
    unfold strlenLoop
    rw [hc, Option.bind_some, if_neg hne,
      ih (Nat.lt_of_succ_lt_succ hlt) hrest fun hin => hnull (List.mem_cons_of_mem _ hin)]
    rfl

theorem readBytes_congr :
    ∀ {n v : Nat}, (∀ x, v ≤ x → x < v + n → readByte t' pt m' x = readByte t pt m x) →
    readBytes t' pt m' v n = readBytes t pt m v n := by
  intro n
  induction n with
  | zero => exact fun {_} _ => rfl
  | succ n ih =>
    intro v h
    unfold readBytes
    rw [h v (Nat.le_refl v) (by omega), ih fun x hx hlt => h x (by omega) (by omega)]

/-- What the copy reads of the arguments. -/
def Reads (t : Tables) (pt : Nat) (m : Mem) (argv : Nat) (args : List (List UInt8)) : Prop :=
  ∀ i s, args[i]? = some s → ∃ p, readWord t pt m (argv + 8 * i) = some p ∧
    strlen t pt m p = some s.length ∧ readBytes t pt m p (s.length + 1) = some (s ++ [0])

/-- The arguments can be read as long as the memory of the process is the same. -/
theorem Args.reads (h : Args t pt m argv args)
    (hsame : ∀ x < vaLowEnd, readByte t' pt m' x = readByte t pt m x) :
    Reads t' pt m' argv args := by
  intro i s hs
  obtain ⟨p, hp, hstring⟩ := h.strings i s hs
  have hargv := h.accessible.low
  have hlow := hstring.accessible.low
  have hlt := lt_length hs
  have hend : lowEnd = vaLowEnd := rfl
  have hbytes : readBytes t' pt m' p (s.length + 1) = some (s ++ [0]) := by
    rw [readBytes_congr fun x _ hx => hsame x (by omega), hstring.bytes]
  refine ⟨p, ?_, ?_, hbytes⟩
  · unfold readWord at hp ⊢
    rw [readBytes_congr fun x _ hx => hsame x (by omega), hp]
  · refine strlenLoop_spec ?_ hbytes hstring.nonzero
    exact Nat.lt_trans hstring.short (by decide)

theorem argvLen_spec (h : Reads t pt m argv args) : ∀ {n i : Nat}, i + n = args.length →
    ∃ len, argvLen t pt m argv n i = some len ∧ textBefore args i + len = textSize args := by
  intro n
  induction n with
  | zero =>
    intro i hi
    obtain rfl : i = args.length := hi
    exact ⟨0, rfl, textBefore_length args⟩
  | succ n ih =>
    intro i hi
    obtain ⟨s, hs⟩ : ∃ s, args[i]? = some s :=
      ⟨_, List.getElem?_eq_getElem (show i < args.length by omega)⟩
    obtain ⟨p, hp, hlen, -⟩ := h i s hs
    obtain ⟨len, hrest, hsum⟩ := ih (i := i + 1) (by omega)
    refine ⟨s.length + 1 + len, ?_, ?_⟩
    · unfold argvLen
      rw [hp, Option.bind_some, hlen, Option.bind_some, hrest]
      rfl
    · rw [← hsum, textBefore_succ hs]
      omega

end Strings

/-! ## The copy -/

/-- The address in the new process of the string that is `off` bytes after the first one. -/
def argAddr (diff argc off : Nat) : Nat :=
  wrap64 ((memsizeVirtual : Int) - diff + (8 * (argc + 1) : Nat) + off)

/-- The first `n` strings, and the pointers to them, have been copied to `base`, and nothing has
been written beyond the `diff` bytes from there on. -/
structure Copied (diff base : Nat) (args : List (List UInt8)) (m : Mem) (n : Nat) (c : Copy) :
    Prop where
  strings : ∀ i < n, ∀ s, args[i]? = some s →
    Ring.slice c.mem (base + 8 * (args.length + 1) + textBefore args i) (s.length + 1) = s ++ [0]
  pointers : ∀ i < n, Ring.slice c.mem (base + 8 * i) 8 =
    toLE 8 (argAddr diff args.length (textBefore args i))
  other : ∀ a, ¬ (base ≤ a ∧ a < base + diff) → c.mem a = m a
  log : ∀ w ∈ c.log, (base : Int) ≤ w.1 ∧ w.1 + w.2 ≤ base + diff

section Copy
variable {t : Tables} {pt argv diff base n k i : Nat} {m : Mem} {args : List (List UInt8)}
  {c c' : Copy}

theorem slice_store_other {d a : Nat} {bytes : List UInt8} (h : a + n ≤ d ∨ d + bytes.length ≤ a) :
    Ring.slice (Ring.store m d bytes) a n = Ring.slice m a n :=
  slice_congr fun x hx hlt => Ring.store_of_not_mem m bytes (by omega)

theorem Copied.start : Copied diff base args m 0 ⟨m, []⟩ where
  strings _ h := absurd h (Nat.not_lt_zero _)
  pointers _ h := absurd h (Nat.not_lt_zero _)
  other _ _ := rfl
  log _ h := absurd h List.not_mem_nil

/-- One string more. -/
theorem Copied.succ {s : List UInt8} (h : Copied diff base args m n c) (hs : args[n]? = some s)
    (hdiff : 8 * (args.length + 1) + textSize args ≤ diff) :
    Copied diff base args m (n + 1)
      ⟨Ring.store (Ring.store c.mem (base + 8 * (args.length + 1) + textBefore args n) (s ++ [0]))
          (base + 8 * n) (toLE 8 (argAddr diff args.length (textBefore args n))),
        c.log ++
          [(((base + 8 * (args.length + 1) + textBefore args n : Nat) : Int), (s ++ [0]).length)] ++
          [(((base + 8 * n : Nat) : Int), 8)]⟩ := by
  have hlt := lt_length hs
  have hend := textBefore_le args (n + 1)
  rw [textBefore_succ hs] at hend
  have hlen : (s ++ [0]).length = s.length + 1 := by rw [List.length_append, List.length_singleton]
  have hlen' : ∀ v, (toLE 8 v).length = 8 := length_toLE 8
  refine ⟨fun i hi s' hs' => ?_, fun i hi => ?_, fun a ha => ?_, fun w hw => ?_⟩
  · dsimp only
    rw [slice_store_other (.inr (by rw [hlen']; omega))]
    rcases Nat.lt_succ_iff_lt_or_eq.mp hi with hi | rfl
    · have hbefore := @textBefore_mono args (i + 1) n hi
      rw [textBefore_succ hs'] at hbefore
      rw [slice_store_other (.inl (by omega)), h.strings i hi s' hs']
    · rw [hs] at hs'
      cases hs'
      rw [← hlen, Ring.slice_store]
  · dsimp only
    rcases Nat.lt_succ_iff_lt_or_eq.mp hi with hi | rfl
    · rw [slice_store_other (.inl (by omega)), slice_store_other (.inl (by omega)), h.pointers i hi]
    · have hslice := Ring.slice_store
          (Ring.store c.mem (base + 8 * (args.length + 1) + textBefore args i) (s ++ [0]))
        (base + 8 * i) (toLE 8 (argAddr diff args.length (textBefore args i)))
      rwa [hlen'] at hslice
  · dsimp only
    rw [Ring.store_of_not_mem _ _ (by rw [hlen']; omega),
      Ring.store_of_not_mem _ _ (by rw [hlen]; omega), h.other a ha]
  · rw [List.mem_append, List.mem_append, List.mem_singleton, List.mem_singleton] at hw
    rcases hw with (hw | rfl) | rfl
    · exact h.log w hw
    · dsimp only
      rw [hlen]
      omega
    · dsimp only
      omega

theorem write_nat (c : Copy) (a : Nat) (bytes : List UInt8) :
    c.write a bytes = some ⟨Ring.store c.mem a bytes, c.log ++ [((a : Int), bytes.length)]⟩ :=
  if_pos (Int.natCast_nonneg a)

/-- A round of the loop. -/
theorem copyLoop_round {top szPtrs argLen p p' len len' : Nat} {bytes : List UInt8} {c₁ c₂ : Copy}
    (hp : readWord t pt c.mem (argv + 8 * i) = some p) (hlen : strlen t pt c.mem p = some len)
    (hbytes : readBytes t pt c.mem p (len + 1) = some bytes)
    (hstring : c.write ((top : Int) - diff + szPtrs + argLen) bytes = some c₁)
    (hpointer : c₁.write ((top : Int) - diff + 8 * i)
      (toLE 8 (wrap64 ((memsizeVirtual : Int) - diff + szPtrs + argLen))) = some c₂)
    (hp' : readWord t pt c₂.mem (argv + 8 * i) = some p')
    (hlen' : strlen t pt c₂.mem p' = some len') :
    copyLoop t pt argv top diff szPtrs (k + 1) i argLen c =
      copyLoop t pt argv top diff szPtrs k (i + 1) (argLen + (len' + 1)) c₂ := by
  conv_lhs => unfold copyLoop
  rw [hp, Option.bind_some, hlen, Option.bind_some, hbytes, Option.bind_some, hstring,
    Option.bind_some, hpointer, Option.bind_some, hp', Option.bind_some, hlen', Option.bind_some]

/-- **The loop that copies the strings**, where it does not write to what it reads. -/
theorem copyLoop_spec (hread : ∀ m', (∀ a, ¬ (base ≤ a ∧ a < base + diff) → m' a = m a) →
    Reads t pt m' argv args) (hdiff : 8 * (args.length + 1) + textSize args ≤ diff) :
    ∀ {k n : Nat} {c : Copy}, n + k = args.length → Copied diff base args m n c →
    ∃ c', copyLoop t pt argv (base + diff) diff (8 * (args.length + 1)) k n (textBefore args n) c =
    some c' ∧
      Copied diff base args m args.length c' := by
  intro k
  induction k with
  | zero =>
    intro n c hn h
    obtain rfl : n = args.length := hn
    exact ⟨c, rfl, h⟩
  | succ k ih =>
    intro n c hn h
    obtain ⟨s, hs⟩ : ∃ s, args[n]? = some s :=
      ⟨_, List.getElem?_eq_getElem (show n < args.length by omega)⟩
    have hnext := h.succ hs hdiff
    obtain ⟨p, hp, hlen, hbytes⟩ := hread c.mem h.other n s hs
    obtain ⟨p', hp', hlen', -⟩ := hread _ hnext.other n s hs
    obtain ⟨c', hrun, hc'⟩ := ih (by omega) hnext
    refine ⟨c', ?_, hc'⟩
    have hstring : ((base + diff : Nat) : Int) - diff + (8 * (args.length + 1) : Nat) +
        textBefore args n = (base + 8 * (args.length + 1) + textBefore args n : Nat) := by
      push_cast
      ring
    have hpointer : ((base + diff : Nat) : Int) - diff + 8 * n = (base + 8 * n : Nat) := by
      push_cast
      ring
    rw [copyLoop_round hp hlen hbytes (by rw [hstring]; exact write_nat _ _ _)
      (by rw [hpointer]; exact write_nat _ _ _) hp' hlen', ← textBefore_succ hs]
    exact hrun

/-- **The arguments are copied**, from `base` on. -/
theorem copyArgs_spec {stkpg : Nat}
    (hread : ∀ m', (∀ a, ¬ (base ≤ a ∧ a < base + memDiff (textSize args) args.length) →
      m' a = m a) → Reads t pt m' argv args)
    (htop : stkpg + pageSize = base + memDiff (textSize args) args.length) :
    ∃ c, copyArgs t pt argv args.length stkpg m = some (memDiff (textSize args) args.length, c) ∧
      Copied (memDiff (textSize args) args.length) base args m args.length c ∧
      Ring.slice c.mem (base + 8 * args.length) 8 = toLE 8 0 := by
  obtain ⟨hdiff, -⟩ := memDiff_spec (textSize args) args.length
  obtain ⟨len, hlen, hsum⟩ := argvLen_spec (hread m fun _ _ => rfl) (Nat.zero_add _)
  obtain rfl : len = textSize args := by
    rw [← hsum]
    exact (Nat.zero_add len).symm
  obtain ⟨c, hcopy, hc⟩ := copyLoop_spec hread hdiff (Nat.zero_add _) .start
  have hnull : ((base + memDiff (textSize args) args.length : Nat) : Int) -
      memDiff (textSize args) args.length + (8 * (args.length + 1) : Nat) - 8 =
      (base + 8 * args.length : Nat) := by
    push_cast
    ring
  have hzeros : (toLE 8 0).length = 8 := length_toLE 8 0
  refine ⟨⟨Ring.store c.mem (base + 8 * args.length) (toLE 8 0),
    c.log ++ [(((base + 8 * args.length : Nat) : Int), 8)]⟩, ?_,
    ⟨fun i hi s hs => ?_, fun i hi => ?_, fun a ha => ?_, fun w hw => ?_⟩, ?_⟩
  · unfold copyArgs
    rw [hlen, Option.bind_some]
    dsimp only
    rw [htop]
    have hcopy : copyLoop t pt argv (base + memDiff (textSize args) args.length)
        (memDiff (textSize args) args.length) (8 * (args.length + 1)) args.length 0 0
        ⟨m, []⟩ = some c := hcopy
    rw [hcopy, Option.bind_some, hnull, write_nat]
    rfl
  · dsimp only
    rw [slice_store_other (.inr (by rw [hzeros]; omega)), hc.strings i hi s hs]
  · dsimp only
    rw [slice_store_other (.inl (by omega)), hc.pointers i hi]
  · dsimp only
    rw [Ring.store_of_not_mem _ _ (by rw [hzeros]; omega), hc.other a ha]
  · rw [List.mem_append, List.mem_singleton] at hw
    rcases hw with hw | rfl
    · exact hc.log w hw
    · dsimp only
      omega
  · have hslice := Ring.slice_store c.mem (base + 8 * args.length) (toLE 8 0)
    rwa [hzeros] at hslice

end Copy

/-! ## What the log keeps -/

section Log
variable {t : Tables} {pt argv diff top szPtrs stkpg argc : Nat} {m : Mem} {c c' : Copy}

theorem write_log {a : Int} {bytes : List UInt8} (h : c.write a bytes = some c') :
    c'.log = c.log ++ [(a, bytes.length)] := by
  unfold Copy.write at h
  split at h
  · cases h
    rfl
  · cases h

/-- The rounds of the loop add to the log, the first one the pointer to the first string. -/
theorem copyLoop_log :
    ∀ {n i argLen : Nat} {c : Copy}, copyLoop t pt argv top diff szPtrs n i argLen c = some c' →
    (∀ w ∈ c.log, w ∈ c'.log) ∧ (0 < n → ((top : Int) - diff + 8 * i, 8) ∈ c'.log) := by
  intro n
  induction n with
  | zero =>
    intro i argLen c h
    cases h
    exact ⟨fun _ hw => hw, fun hpos => absurd hpos (Nat.lt_irrefl 0)⟩
  | succ n ih =>
    intro i argLen c h
    obtain ⟨p, -, h⟩ := Option.bind_eq_some_iff.mp h
    obtain ⟨len, -, h⟩ := Option.bind_eq_some_iff.mp h
    obtain ⟨bytes, -, h⟩ := Option.bind_eq_some_iff.mp h
    obtain ⟨c₁, hstring, h⟩ := Option.bind_eq_some_iff.mp h
    obtain ⟨c₂, hpointer, h⟩ := Option.bind_eq_some_iff.mp h
    obtain ⟨p', -, h⟩ := Option.bind_eq_some_iff.mp h
    obtain ⟨len', -, h⟩ := Option.bind_eq_some_iff.mp h
    obtain ⟨hmore, -⟩ := ih h
    have hlog := write_log hpointer
    rw [write_log hstring, length_toLE] at hlog
    refine ⟨fun w hw => hmore w ?_, fun _ => hmore _ ?_⟩
    · rw [hlog]
      exact List.mem_append_left _ (List.mem_append_left _ hw)
    · rw [hlog]
      exact List.mem_append_right _ List.mem_cons_self

theorem copyArgs_inv (h : copyArgs t pt argv argc stkpg m = some (diff, c)) :
    ∃ len, argvLen t pt m argv argc 0 = some len ∧ diff = memDiff len argc ∧
    (0 < argc → (((stkpg + pageSize : Nat) : Int) - diff, 8) ∈ c.log) := by
  obtain ⟨len, hlen, h⟩ := Option.bind_eq_some_iff.mp h
  obtain ⟨c₁, hcopy, h⟩ := Option.bind_eq_some_iff.mp h
  obtain ⟨c₂, hnull, heq⟩ := Option.map_eq_some_iff.mp h
  obtain ⟨rfl, rfl⟩ := Prod.mk.inj heq
  refine ⟨len, hlen, rfl, fun hpos => ?_⟩
  rw [write_log hnull]
  have hfirst := (copyLoop_log hcopy).2 hpos
  rw [Nat.cast_zero, mul_zero, add_zero] at hfirst
  exact List.mem_append_left _ hfirst

end Log

/-! ## The new address space -/

theorem slice_succ (m : Mem) (a n : Nat) :
    Ring.slice m a (n + 1) = m a :: Ring.slice m (a + 1) n := by
  rw [Nat.add_comm n 1, slice_add]
  rfl

theorem field_toLE {n v : Nat} (hv : v < 256 ^ n) : field (toLE n v) 0 n = v := by
  calc field (toLE n v) 0 n = getLE (putLE (fun _ => 0) 0 n v) 0 n := by
        refine getLE_congr fun x _ hx => ?_
        have hx : x < (toLE n v).length := by rwa [length_toLE, ← Nat.zero_add n]
        rw [← store_toLE, List.getD_eq_getElem _ _ hx]
        have hstore := Ring.store_getElem (fun _ => (0 : UInt8)) 0 hx
        rw [Nat.zero_add] at hstore
        exact hstore.symm
    _ = v := getLE_putLE _ 0 hv

section Stack
variable {t : Tables} {npt stkpg v : Nat} {m m₀ : Mem} {args : List (List UInt8)}
  (hstack : ∀ o < pageSize, translation t npt (memsizeVirtual - pageSize + o) =
    (some (stkpg + o), ptePWU, true))
include hstack

theorem stack_readBytes : ∀ {n o : Nat}, o + n ≤ pageSize →
    readBytes t npt m (memsizeVirtual - pageSize + o) n = some (Ring.slice m (stkpg + o) n) := by
  intro n
  induction n with
  | zero => exact fun {_} _ => rfl
  | succ n ih =>
    intro o h
    have hbyte : readByte t npt m (memsizeVirtual - pageSize + o) = some (m (stkpg + o)) := by
      unfold readByte
      rw [hstack o (by omega)]
      rfl
    unfold readBytes
    rw [hbyte, Option.bind_some, Nat.add_assoc _ o 1, ih (by omega), slice_succ]
    rfl

theorem stack_accessible {o n : Nat} (h : o + n ≤ pageSize) :
    Accessible t npt (memsizeVirtual - pageSize + o) n (pteP ||| pteU) where
  noWrap := by
    unfold memsizeVirtual pageSize at *
    omega
  low := by
    unfold memsizeVirtual pageSize lowEnd at *
    omega
  allowed b hb hlt := by
    obtain ⟨i, rfl⟩ := Nat.exists_eq_add_of_le hb
    rw [← permits_mk', permits_iff (by decide), Nat.add_assoc, hstack (o + i) (by omega)]
    exact (by decide : ptePWU &&& (pteP ||| pteU) = pteP ||| pteU)

theorem stack_readWord {o : Nat} (h : o + 8 ≤ pageSize) (hv : v < 2 ^ 64)
    (hslice : Ring.slice m (stkpg + o) 8 = toLE 8 v) :
    readWord t npt m (memsizeVirtual - pageSize + o) = some v := by
  unfold readWord
  rw [stack_readBytes hstack h, hslice]
  exact congrArg some (field_toLE hv)

/-- **The program finds its arguments.** -/
theorem stack_args {o diff : Nat} {c : Copy} (hdiff : 8 * (args.length + 1) + textSize args ≤ diff)
    (ho : o + diff = pageSize) (hc : Copied diff (stkpg + o) args m₀ args.length c)
    (hnull : Ring.slice c.mem (stkpg + o + 8 * args.length) 8 = toLE 8 0)
    (hargs : ∀ s ∈ args, 0 ∉ s ∧ s.length < namesize) :
    Args t npt c.mem (memsizeVirtual - pageSize + o) args where
  nonnull := by
    unfold memsizeVirtual pageSize
    omega
  accessible := stack_accessible hstack (by omega)
  strings i s hs := by
    have hlt := lt_length hs
    have hend := textBefore_le args (i + 1)
    rw [textBefore_succ hs] at hend
    have haddr : argAddr diff args.length (textBefore args i) =
        memsizeVirtual - pageSize + (o + 8 * (args.length + 1) + textBefore args i) := by
      unfold argAddr wrap64 memsizeVirtual pageSize at *
      omega
    have hplace : stkpg + (o + 8 * (args.length + 1) + textBefore args i) =
        stkpg + o + 8 * (args.length + 1) + textBefore args i := by omega
    obtain ⟨hnonzero, hshort⟩ := hargs s (List.mem_of_getElem? hs)
    refine ⟨argAddr diff args.length (textBefore args i), ?_, ?_, ?_, ?_, hnonzero, hshort⟩
    · rw [Nat.add_assoc]
      refine stack_readWord hstack (by omega) ?_ (by rw [← Nat.add_assoc]; exact hc.pointers i hlt)
      rw [haddr]
      unfold memsizeVirtual pageSize at *
      omega
    · rw [haddr]
      unfold memsizeVirtual pageSize
      omega
    · rw [haddr]
      exact stack_accessible hstack (by omega)
    · rw [haddr, stack_readBytes hstack (by omega), hplace, hc.strings i hlt s hs]
  null := by
    rw [Nat.add_assoc]
    exact stack_readWord hstack (by omega) (by decide) (by rw [← Nat.add_assoc]; exact hnull)

end Stack

/-! ## The call -/

section Call
variable {σ : Type} {al : Allocator σ} {dl : Loader al.toPageSource}
  {early pt name argv argc npt stkpg entry : Nat} {k k₁ k' : State σ} {t t₁ t₂ : Tables}
  {s s₁ s₂ : σ} {log : List (Int × Nat)} {regs : Regs} {args : List (List UInt8)}

/-- Before the arguments are copied: the process is as it was, and the stack page is new. -/
structure Ready (al : Allocator σ) (pt npt stkpg : Nat) (k k₁ : State σ) : Prop where
  space : Space al.toPageSource k₁.tables npt vaLowEnd k₁.heap
  parent : ∀ x < vaLowEnd, translation k₁.tables pt x = translation k.tables pt x
  memory : ∀ a, al.InUse k.heap (pageBase a) → k₁.mem a = k.mem a
  fresh : ¬ al.InUse k.heap stkpg

theorem ready_of_load (hvalid : al.Valid k.heap)
    (hparent : ∀ pg, TablePage k.tables pt vaLowEnd pg → al.InUse k.heap pg)
    (htable : kallocPagetable al.kallocpage early k.tables k.heap = some (t, s, some npt))
    (halloc : al.kallocpage s = some (s₁, some stkpg))
    (hload : load dl npt ⟨t, k.mem, s₁⟩ = some (k₁, .ok entry)) :
    Ready al pt npt stkpg k k₁ := by
  obtain ⟨hspace, hnew, hinUse, hother, htop, -⟩ :=
    @kallocPagetable_spec σ al.toPageSource _ _ _ _ _ _ hvalid htable
  obtain ⟨s₁', r, hrun, hvalid₁, hinUse₁, hfresh⟩ := al.spec s hspace.valid
  rw [halloc] at hrun
  cases hrun
  have hold : ∀ pg, al.InUse k.heap pg → al.InUse s₁ pg :=
    fun pg hpg => (hinUse₁ pg).mpr (.inr ((hinUse pg).mpr (.inr hpg)))
  have hspace₁ := (hspace.alloc hvalid₁ fun pg hpg => (hinUse₁ pg).mpr (.inr hpg)).space
  have hg := load_grows (k := ⟨t, k.mem, s₁⟩) hspace₁ hload
  refine ⟨hg.space, fun x hx => translation_same fun l hl pg hpg => ?_, fun a ha => ?_,
    fun hin => ?_⟩
  · have hin := hparent pg ⟨l, hl, x, hx, hpg⟩
    have hne : pg ≠ npt := fun heq => hnew (heq ▸ hin)
    rw [hg.frame pg (hold pg hin) fun htab => hne (htop pg htab)]
    exact congrFun (hother pg hne) _
  · exact load_memory (k := ⟨t, k.mem, s₁⟩) hspace₁ (hold _ ha) hload
  · exact hfresh stkpg rfl ((hinUse stkpg).mpr (.inr hin))

/-- The arguments can be read while something else is written. -/
theorem Ready.reads {base diff : Nat} (h : Ready al pt npt stkpg k k₁)
    (hargs : Args k.tables pt k.mem argv args)
    (hmapped : ∀ x < vaLowEnd, ∀ pa, (translation k.tables pt x).1 = some pa →
    al.InUse k.heap (pageBase pa)) (hapart : ∀ x < vaLowEnd, ∀ pa, (translation k.tables pt x).1 =
    some pa → ¬ (base ≤ pa ∧ pa < base + diff)) : ∀ m', (∀ a, ¬ (base ≤ a ∧ a < base + diff) →
    m' a = k₁.mem a) → Reads k₁.tables pt m' argv args := by
  refine fun m' hm' => hargs.reads fun x hx => ?_
  unfold readByte
  rw [h.parent x hx]
  cases hpa : (translation k.tables pt x).1 with
  | none => rfl
  | some pa =>
    change some (m' pa) = some (k.mem pa)
    rw [hm' pa (hapart x hx pa hpa), h.memory pa (hmapped x hx pa hpa)]

/-- A program that runs has been loaded. -/
theorem sysExecv_runs
    (h : sysExecv al dl early pt name argv argc k = some (.runs npt stkpg log regs k')) :
    ∃ t s s₁ k₁ entry, kallocPagetable al.kallocpage early k.tables k.heap = some (t, s, some npt) ∧
      al.kallocpage s = some (s₁, some stkpg) ∧ load dl npt ⟨t, k.mem, s₁⟩ = some (k₁, .ok entry) ∧
      start al pt argv argc npt stkpg entry k₁ = some (.runs npt stkpg log regs k') := by
  have hstart : ∀ {npt' stkpg' entry k₁}, start al pt argv argc npt' stkpg' entry k₁ =
      some (.runs npt stkpg log regs k') → npt' = npt ∧ stkpg' = stkpg := by
    intro npt' stkpg' entry k₁ h
    obtain ⟨⟨diff, c⟩, -, h⟩ := Option.bind_eq_some_iff.mp h
    obtain ⟨⟨t, s, ok⟩, -, h⟩ := Option.bind_eq_some_iff.mp h
    cases ok with
    | false => cases h
    | true =>
      obtain ⟨⟨t, s, ok⟩, -, h⟩ := Option.bind_eq_some_iff.mp h
      cases ok with
      | false => cases h
      | true =>
        cases h
        exact ⟨rfl, rfl⟩
  obtain ⟨c, -, h⟩ := Option.bind_eq_some_iff.mp h
  cases c with
  | fails r => cases h
  | unvalidated => cases h
  | diverges => cases h
  | passes i =>
    obtain ⟨⟨t, s, npt'⟩, htable, h⟩ := Option.bind_eq_some_iff.mp h
    obtain ⟨⟨s₁, stkpg'⟩, halloc, h⟩ := Option.bind_eq_some_iff.mp h
    dsimp only at h
    split at h
    · rename_i npt' stkpg'
      obtain ⟨⟨k₁, r⟩, hload, h⟩ := Option.bind_eq_some_iff.mp h
      cases r with
      | error e => cases h
      | ok entry =>
        dsimp only at h
        split at h
        · cases h
        · obtain ⟨rfl, rfl⟩ := hstart h
          exact ⟨t, s, s₁, k₁, entry, htable, halloc, hload, h⟩
    · obtain ⟨s₂, -, h⟩ := Option.bind_eq_some_iff.mp h
      obtain ⟨s₃, -, heq⟩ := Option.map_eq_some_iff.mp h
      cases heq

theorem start_runs
    (h : start al pt argv argc npt stkpg entry k₁ = some (.runs npt stkpg log regs k')) :
    ∃ diff c t s, copyArgs k₁.tables pt argv argc stkpg k₁.mem = some (diff, c) ∧
      map al.kallocpage k₁.tables k₁.heap (Vmiter.mk' k₁.tables npt (memsizeVirtual - pageSize))
      stkpg ptePWU = some (t, s, true) ∧
      map al.kallocpage t s (Vmiter.mk' t npt consolePa) consolePa ptePWU =
      some (k'.tables, k'.heap, true) ∧ log = c.log ∧
      regs = ⟨entry, argc, wrap64 (memsizeVirtual - diff), stackPointer diff, stackPointer diff⟩ ∧
      k'.mem = c.mem := by
  obtain ⟨⟨diff, c⟩, hcopy, h⟩ := Option.bind_eq_some_iff.mp h
  obtain ⟨⟨t, s, ok⟩, hstk, h⟩ := Option.bind_eq_some_iff.mp h
  cases ok with
  | false => cases h
  | true =>
    obtain ⟨⟨t', s', ok⟩, hconsole, h⟩ := Option.bind_eq_some_iff.mp h
    cases ok with
    | false => cases h
    | true =>
      cases h
      exact ⟨diff, c, t, s, hcopy, hstk, hconsole, rfl, rfl, rfl⟩

/-- The stack page is mapped where the stack is, and the console elsewhere. -/
theorem stack_mapped (hs : Space al.toPageSource t npt vaLowEnd s)
    (hstk : map al.kallocpage t s (Vmiter.mk' t npt (memsizeVirtual - pageSize)) stkpg ptePWU =
      some (t₁, s₁, true))
    (hconsole : map al.kallocpage t₁ s₁ (Vmiter.mk' t₁ npt consolePa) consolePa ptePWU =
      some (t₂, s₂, true)) :
    stkpg % pageSize = 0 ∧
      ∀ o < pageSize, translation t₂ npt (memsizeVirtual - pageSize + o) =
      (some (stkpg + o), ptePWU, true) := by
  obtain ⟨halign, hg, ⟨r, hr, hmapped⟩, -⟩ :=
    @map_spec _ _ _ _ _ σ al.toPageSource _ _ _ _ _ hs (by decide) (by decide) hstk
  obtain ⟨-, -, ⟨r', -, hmapped'⟩, -⟩ := @map_spec _ _ _ _ _ σ al.toPageSource _ _ _ _ _ hg.space
    (by decide) (by decide) hconsole
  refine ⟨halign, fun o ho => ?_⟩
  have hlow : memsizeVirtual - pageSize + o < vaLowEnd := by
    unfold memsizeVirtual pageSize vaLowEnd at *
    omega
  have hhere : (memsizeVirtual - pageSize + o) / pageSize = (memsizeVirtual - pageSize) /
      pageSize := by
    unfold memsizeVirtual pageSize at *
    omega
  have hthere : ¬ (memsizeVirtual - pageSize + o) / pageSize = consolePa / pageSize := by
    unfold memsizeVirtual pageSize consolePa at *
    omega
  have hmod : (memsizeVirtual - pageSize + o) % pageSize = o := by
    unfold memsizeVirtual pageSize at *
    omega
  rw [hmapped' _ hlow, if_neg hthere, hmapped _ hlow, if_pos hhere, hmod]
  have hperm : ptePWU &&& r = ptePWU := hr
  rw [hperm]

/-- How much is copied. -/
theorem copyArgs_diff {diff : Nat} {c : Copy} (hread : Reads t pt k.mem argv args)
    (h : copyArgs t pt argv args.length stkpg k.mem = some (diff, c)) :
    diff = memDiff (textSize args) args.length := by
  obtain ⟨len, hlen, hdiff, -⟩ := copyArgs_inv h
  obtain ⟨len', hlen', hsum⟩ := argvLen_spec hread (Nat.zero_add _)
  rw [hlen] at hlen'
  cases hlen'
  have hzero : textBefore args 0 = 0 := rfl
  rw [hdiff, ← hsum, hzero, Nat.zero_add]

/-- **`sys_execv` lays out the arguments in the stack page exactly when** they fit, with the stack
pointer below them. -/
theorem execv_layout_iff (al : Allocator σ) (dl : Loader al.toPageSource) (hvalid : al.Valid k.heap)
    (hparent : ∀ pg, TablePage k.tables pt vaLowEnd pg → al.InUse k.heap pg)
    (hmapped : ∀ x < vaLowEnd, ∀ pa, (translation k.tables pt x).1 = some pa →
      al.InUse k.heap (pageBase pa))
    (hargs : Args k.tables pt k.mem argv args) (hpos : 1 ≤ args.length)
    (hrun : sysExecv al dl early pt name argv args.length k = some (.runs npt stkpg log regs k')) :
    (Within stkpg log ∧ Layout k'.tables npt k'.mem args regs) ↔ Fits args := by
  obtain ⟨t, s, s₁, k₁, entry, htable, halloc, hload, hstart⟩ := sysExecv_runs hrun
  have hready := ready_of_load hvalid hparent htable halloc hload
  obtain ⟨diff, c, t₁, s₂, hcopy, hstk, hconsole, rfl, rfl, hmem⟩ := start_runs hstart
  obtain ⟨halign, hstack⟩ := stack_mapped hready.space hstk hconsole
  have hread := @Ready.reads σ al pt argv npt stkpg k k₁ args 0 0 hready hargs hmapped
    fun _ _ _ _ h => absurd h.2 (Nat.not_lt_zero _)
  obtain rfl := copyArgs_diff (hread k₁.mem fun _ _ => rfl) hcopy
  obtain ⟨hsize, height⟩ := memDiff_spec (textSize args) args.length
  constructor
  · rintro ⟨hwithin, hlayout⟩
    by_contra hfits
    unfold Fits at hfits
    by_cases hle : memDiff (textSize args) args.length ≤ pageSize
    · have hinside := hlayout.inside.1
      dsimp only at hinside
      rw [stackPointer_eq height hle] at hinside
      unfold memsizeVirtual pageSize at *
      omega
    · -- the pointer to the first string is before the page
      obtain ⟨len, -, -, hfirst⟩ := copyArgs_inv hcopy
      have hlow := (hwithin _ (hfirst hpos)).1
      dsimp only at hlow
      omega
  · intro hfits
    unfold Fits at hfits
    obtain ⟨diff, hdiff⟩ : ∃ diff, memDiff (textSize args) args.length = diff := ⟨_, rfl⟩
    rw [hdiff] at hfits hcopy hsize height ⊢
    have hle : diff ≤ pageSize := Nat.le_trans (Nat.le_add_right _ _) hfits
    obtain ⟨o, ho⟩ := Nat.exists_eq_add_of_le' hle
    have hapart : ∀ x < vaLowEnd, ∀ pa, (translation k.tables pt x).1 = some pa →
        ¬ (stkpg + o ≤ pa ∧ pa < stkpg + o + diff) := by
      rintro x hx pa hpa ⟨hge, hlt⟩
      have hbase := @pageBase_add stkpg (pa - stkpg) halign (by omega)
      rw [Nat.add_sub_cancel' (by omega)] at hbase
      exact hready.fresh (hbase ▸ hmapped x hx pa hpa)
    obtain ⟨c', hcopy', hcopied, hnull⟩ := @copyArgs_spec k₁.tables pt argv
      (stkpg + o) k₁.mem args stkpg (by rw [hdiff]; exact hready.reads hargs hmapped hapart)
      (by rw [hdiff]; omega)
    rw [hdiff, hcopy] at hcopy'
    cases hcopy'
    rw [hdiff] at hcopied
    have hsp := stackPointer_eq height hle
    have hsi : wrap64 ((memsizeVirtual : Int) - diff) = memsizeVirtual - pageSize + o := by
      unfold wrap64 memsizeVirtual pageSize at *
      omega
    refine ⟨fun w hw => ?_, rfl, ?_, ?_, ?_, ?_⟩
    · have hlog := hcopied.log w hw
      omega
    · dsimp only
      rw [hsi, hmem]
      refine stack_args hstack hsize ho.symm hcopied hnull fun s hs => ?_
      obtain ⟨i, hi, rfl⟩ := List.getElem_of_mem hs
      obtain ⟨p, -, hstring⟩ := hargs.strings i _ (List.getElem?_eq_getElem hi)
      exact ⟨hstring.nonzero, hstring.short⟩
    · dsimp only
      rw [hsp]
      unfold memsizeVirtual pageSize at *
      split
      · omega
      · omega
    · dsimp only
      rw [hsp]
      unfold memsizeVirtual pageSize at *
      omega
    · dsimp only
      rw [hsp, hsi]
      unfold memsizeVirtual pageSize at *
      split
      · omega
      · omega

end Call

/-! ## A few arguments, and too many -/

theorem execv_layout_iff_twoStrings : ∃ npt stkpg log regs k',
    sysExecv freePages (fileOnDisk _ emptyFile) 0 0x1000 0x200 0x100 2 twoStrings =
      some (.runs npt stkpg log regs k') ∧
      ((Within stkpg log ∧ Layout k'.tables npt k'.mem [[97], [98, 99]] regs) ↔
      Fits [[97], [98, 99]]) := by
  have hrun : (sysExecv freePages (fileOnDisk _ emptyFile) 0 0x1000 0x200 0x100 2 twoStrings).map
      (fun o => match o with
        | .runs _ _ _ _ _ => true
        | _ => false) = some true := by decide +kernel
  obtain ⟨o, hrun, ho⟩ := Option.map_eq_some_iff.mp hrun
  cases o with
  | returns r k => cases ho
  | unvalidated => cases ho
  | diverges => cases ho
  | runs npt stkpg log regs k' =>
    refine ⟨npt, stkpg, log, regs, k', hrun,
      execv_layout_iff freePages _ (fun _ h => absurd h List.not_mem_nil) (fun pg hpg => ?_)
      (fun x _ pa hpa => ?_) args_twoStrings (by decide) hrun⟩
    · exact inUse_onePage hpg
    · exact frame_onePage hpa

/-- A process with a string of 63 characters at address `0x800`, and an `argv` of 57 pointers to it
at `0x100`. -/
def manyStrings : State (Nat × List Nat) :=
  ⟨onePage, fun a => if 0x9100 ≤ a ∧ a < 0x9100 + 8 * 57 then (if a % 8 = 1 then 8 else 0)
    else if 0x9800 ≤ a ∧ a < 0x9800 + 63 then 97 else 0, 9, []⟩

def manyArgs : List (List UInt8) := List.replicate 57 (List.replicate 63 97)

theorem userString_manyStrings :
    UserString onePage 0x1000 manyStrings.mem 0x800 (List.replicate 63 97) where
  nonnull := by decide
  accessible := accessible_onePage (by decide)
  bytes := by decide +kernel
  nonzero := by decide
  short := by decide

theorem args_manyStrings : Args onePage 0x1000 manyStrings.mem 0x100 manyArgs where
  nonnull := by decide
  accessible := accessible_onePage (by decide)
  strings i s h := by
    have hwords : ∀ i < 57, readWord onePage 0x1000 manyStrings.mem (0x100 + 8 * i) =
        some 0x800 := by decide +kernel
    have hlt := lt_length h
    have hs := List.eq_of_mem_replicate (List.mem_of_getElem? h)
    rw [hs]
    exact ⟨0x800, hwords i hlt, userString_manyStrings⟩
  null := by decide +kernel

/-- Where the checks pass and the program is loaded, it starts. -/
theorem sysExecv_start {σ : Type} {al : Allocator σ} {dl : Loader al.toPageSource}
    {early pt name argv argc npt stkpg entry n : Nat} {k k₁ : State σ} {t : Tables} {s s₁ : σ}
    (hchecks : checks k.tables pt k.mem name argv argc = some (.passes n)) (hle : argc ≤ n)
    (htable : kallocPagetable al.kallocpage early k.tables k.heap = some (t, s, some npt))
    (halloc : al.kallocpage s = some (s₁, some stkpg))
    (hload : load dl npt ⟨t, k.mem, s₁⟩ = some (k₁, .ok entry)) :
    sysExecv al dl early pt name argv argc k = start al pt argv argc npt stkpg entry k₁ := by
  unfold sysExecv
  rw [hchecks, Option.bind_some]
  dsimp only
  rw [htable, Option.bind_some]
  dsimp only
  rw [halloc, Option.bind_some]
  dsimp only
  rw [hload, Option.bind_some]
  dsimp only
  rw [if_neg (Nat.not_lt.mpr hle)]

/-- The pointers begin 16 bytes before the stack page. -/
theorem execv_overflows : ∃ log regs k',
    sysExecv freePages (fileOnDisk _ emptyFile) 0 0x1000 0x800 0x100 57 manyStrings =
      some (.runs 0xA000 0xB000 log regs k') ∧
      Args onePage 0x1000 manyStrings.mem 0x100 manyArgs ∧ ¬ Within 0xB000 log := by
  have hsize : memDiff (textSize manyArgs) manyArgs.length = 4112 := by decide +kernel
  have hlen : manyArgs.length = 57 := List.length_replicate
  obtain ⟨n, hle, hchecks⟩ :=
    checks_of_args userString_manyStrings args_manyStrings (by rw [hlen]; decide)
      (by rw [hlen]; decide)
  rw [hlen] at hle hchecks
  have hfinish : ((load (fileOnDisk freePages.toPageSource emptyFile) 0xA000
      ⟨newTable 0 onePage 0xA000, manyStrings.mem, 11, []⟩).bind fun r =>
      (map freePages.kallocpage r.1.tables r.1.heap
        (Vmiter.mk' r.1.tables 0xA000 (memsizeVirtual - pageSize)) 0xB000 ptePWU).bind fun x =>
        (map freePages.kallocpage x.1 x.2.1 (Vmiter.mk' x.1 0xA000 consolePa) consolePa
          ptePWU).map fun y =>
          (r.2.toOption, x.2.2, y.2.2)) = some (some 0x100000, true, true) := by decide +kernel
  obtain ⟨⟨k₁, r⟩, hload, hfinish⟩ := Option.bind_eq_some_iff.mp hfinish
  obtain ⟨⟨t, s, ok⟩, hstk, hfinish⟩ := Option.bind_eq_some_iff.mp hfinish
  obtain ⟨⟨t', s', ok'⟩, hconsole, hfinish⟩ := Option.map_eq_some_iff.mp hfinish
  obtain ⟨hr, hoks⟩ := Prod.mk.inj hfinish
  obtain ⟨hok, hok'⟩ := Prod.mk.inj hoks
  dsimp only at hok hok' hr hstk hconsole
  subst hok hok'
  cases r with
  | error e => cases hr
  | ok entry =>
    have hvalid : freePages.Valid manyStrings.heap := fun _ h => absurd h List.not_mem_nil
    have htable : kallocPagetable freePages.kallocpage 0 manyStrings.tables manyStrings.heap =
        some (newTable 0 onePage 0xA000, (10, []), some 0xA000) := rfl
    have halloc : freePages.kallocpage (10, []) = some ((11, []), some 0xB000) := rfl
    have hrun : sysExecv freePages (fileOnDisk _ emptyFile) 0 0x1000 0x800 0x100 57 manyStrings =
        start freePages 0x1000 0x100 57 0xA000 0xB000 entry k₁ :=
          sysExecv_start hchecks hle htable halloc hload
    have hready : Ready freePages 0x1000 0xA000 0xB000 manyStrings k₁ :=
      ready_of_load hvalid (fun _ hpg => inUse_onePage hpg) htable halloc hload
    have hread := @Ready.reads _ _ _ _ _ _ _ k₁ _ 0xAFF0 4112 hready args_manyStrings
        (fun x _ pa hpa => frame_onePage hpa)
      fun x _ pa hpa => by
        have hpa : (translation onePage 0x1000 x).1 = some pa := hpa
        rw [translation_onePage] at hpa
        cases hpa
        unfold pageSize
        omega
    obtain ⟨c, hcopy, -, -⟩ := @copyArgs_spec k₁.tables 0x1000 0x100 0xAFF0 k₁.mem manyArgs 0xB000
      (by rw [hsize]; exact hread) (by rw [hsize]; rfl)
    rw [hsize, hlen] at hcopy
    refine ⟨c.log, ⟨entry, 57, wrap64 (memsizeVirtual - 4112), stackPointer 4112,
      stackPointer 4112⟩, ⟨t', c.mem, s'⟩, ?_, args_manyStrings, ?_⟩
    · rw [hrun]
      unfold start
      rw [hcopy, Option.bind_some]
      dsimp only
      rw [hstk, Option.bind_some]
      dsimp only
      rw [if_pos rfl, hconsole, Option.bind_some]
      rfl
    · intro hwithin
      obtain ⟨len, -, -, hfirst⟩ := copyArgs_inv hcopy
      have hlow := (hwithin _ (hfirst (by decide))).1
      exact absurd hlow (by decide)

end Exec
end PugOS.PageTable
