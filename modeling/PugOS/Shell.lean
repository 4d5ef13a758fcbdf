import PugOS.Strtol

/-! # The shell's command line

The loop of `process_main` over one line, in which a round reads a word and the character after it,
adds the word to the command and maybe executes it.  `s` is the list of the characters from there up
to `end`.  What the calls of the kernel return comes from an environment, for each command of the
line by its number.

The shell keeps what it needs of the status so far in `skip_status`, and clears it at an operator
that lets the next command run.  `;` is not among them while commands are being skipped, and the
redirections of a skipped command are kept for the next one that is started.  Where neither happens,
the commands that are started are the right ones, each with its own redirections (`commands_iff`).
-/
namespace PugOS.Shell
open Lib (isspace deref)

/-! ## The code -/

def ANDAND : UInt8 := 1
def OROR : UInt8 := 2

/-- The size of `words`. -/
def maxWords : Nat := 256

/-- A word of the command line. -/
abbrev Word : Type := List UInt8

/-- The descriptor that `redir_status` is for. -/
inductive Target where
  | input
  | output
  deriving DecidableEq

/-- `redir[0]` and `redir[1]`; `redir[2]` is null throughout. -/
structure Redir where
  input : Option Word := none
  output : Option Word := none
  deriving DecidableEq

/-- A file is named for the target. -/
def Redir.set (r : Redir) (file : Word) : Target → Redir
  | .input => { r with input := some file }
  | .output => { r with output := some file }

/-- What becomes of a command. -/
inductive Event where
  /-- with its redirections, the pipe it reads from, and whether it writes to one -/
  | started (words : List Word) (redir : Redir) (pipein : Nat) (pipeout : Bool)
  | forkFailed (words : List Word)
  | skipped (words : List Word)
  deriving DecidableEq

/-- What the kernel returns for the command with a number. -/
structure Env where
  fork : Nat → Int
  status : Nat → Int
  /-- the read end of a new pipe -/
  pipe : Nat → Option Nat

/-- The parser: what is left of the line, the words so far, the files, which redirection is open,
and `skip_status`. -/
structure Line where
  s : List UInt8
  words : List Word
  redir : Redir
  redirStatus : Option Target
  skipStatus : Int
  pipein : Nat
  /-- the commands of the line so far -/
  trace : List Event

/-- Why a line ends before its end. -/
inductive Halt where
  | brk
  | assertion
  deriving DecidableEq

/-- White space but for the newline. -/
def isBlank (c : UInt8) : Bool := isspace c ∧ c ≠ 10

/-- Not one of `;`, `&`, `|`, `<` and `>`, no blank and not the NUL. -/
def isWordChar (c : UInt8) : Bool :=
  c ≠ 0 ∧ ¬isspace c ∧ c ≠ 59 ∧ c ≠ 38 ∧ c ≠ 124 ∧ c ≠ 60 ∧ c ≠ 62

/-- `nextch`, and `s` after it. -/
def nextChar (s : List UInt8) : UInt8 × List UInt8 :=
  if deref s = 38 ∧ deref s.tail = 38 then (ANDAND, s.tail.tail)
  else if deref s = 124 ∧ deref s.tail = 124 then (OROR, s.tail.tail)
  else (deref s, s.tail)

/-- Add to the word list. -/
def addWord (l : Line) (word : Word) : Except Halt Line :=
  if word ≠ [] then
    match l.redirStatus with
    | some target => .ok { l with redir := l.redir.set word target, redirStatus := none }
    | none =>
      if l.words.length + 1 < maxWords then .ok { l with words := l.words ++ [word] }
        else .error .assertion
  else if l.words = [] ∧ l.redirStatus = none ∧ l.pipein = 0 then .error .brk
  else if l.words = [] ∨ l.redirStatus ≠ none then .error .assertion
  else .ok l

/-- `create_child`, in the shell. -/
def createChild (env : Env) (l : Line) (nextch : UInt8) : Except Halt Line :=
  let event := if 0 < env.fork l.trace.length then .started l.words l.redir l.pipein (nextch = 124)
      else .forkFailed l.words
  if nextch = 124 then
    match env.pipe l.trace.length with
    | none => .error .assertion
    | some fd => .ok { l with pipein := fd, trace := l.trace ++ [event] }
  else .ok { l with pipein := 0, trace := l.trace ++ [event] }

/-- `skip_status` once the child has been waited for. -/
def waitChild (env : Env) (l : Line) (nextch : UInt8) : Int :=
  if nextch ≠ 124 ∧ nextch ≠ 38 ∧ 0 < env.fork l.trace.length then
    let status := env.status l.trace.length
    if status = 0 ∧ nextch = OROR ∨ status ≠ 0 ∧ nextch = ANDAND then (if status ≠ 0 then 1 else 0)
      else l.skipStatus
  else l.skipStatus

/-- Execute the command, or skip it. -/
def execute (env : Env) (l : Line) (nextch : UInt8) : Except Halt Line :=
  if l.skipStatus < 0 then
    (createChild env l nextch).map fun l' =>
      { l' with skipStatus := waitChild env l nextch, redir := {}, words := [] }
  else
    let cleared := l.skipStatus = 0 ∧ nextch = ANDAND ∨ l.skipStatus ≠ 0 ∧ nextch = OROR
    .ok { l with
      skipStatus := if cleared then -1 else l.skipStatus
      words := []
      trace := l.trace ++ [.skipped l.words] }

/-- What the character after a word does. -/
def maybeExecute (env : Env) (l : Line) (nextch : UInt8) : Except Halt Line :=
  if nextch = 60 then .ok { l with redirStatus := some .input }
  else if nextch = 62 then .ok { l with redirStatus := some .output }
  else if ¬isspace nextch then execute env l nextch
  else .ok l

/-- One round of the loop over the line. -/
def round (env : Env) (l : Line) : Except Halt Line :=
  let s := l.s.dropWhile isBlank
  let next := nextChar (s.dropWhile isWordChar)
  (addWord { l with s := next.2 } (s.takeWhile isWordChar)).bind fun l => maybeExecute env l next.1

/-- The loop; none for a failed assertion. -/
def lineLoop (env : Env) : Nat → Line → Option Line
  | 0, _ => none
  | fuel + 1, l =>
    if l.s ≠ [] ∨ l.words ≠ [] then
      match round env l with
      | .ok l' => lineLoop env fuel l'
      | .error .brk => some l
      | .error .assertion => none
    else some l

/-- The loop over a line that has just been read. -/
def runLine (env : Env) (buf : List UInt8) : Option Line :=
  lineLoop env (2 * buf.length + 2) ⟨buf, [], {}, none, -1, 0, []⟩

/-! ## Command lines -/

/-- The operators between commands. -/
inductive Op where
  | seq
  | and
  | or
  deriving DecidableEq

/-- An operator as it is written. -/
def Op.text : Op → List UInt8
  | .seq => [59]
  | .and => [38, 38]
  | .or => [124, 124]

/-- `nextch` for it. -/
def Op.nextch : Op → UInt8
  | .seq => 59
  | .and => ANDAND
  | .or => OROR

/-- White space that ends no word and no command. -/
def Blanks (s : List UInt8) : Prop := ∀ c ∈ s, isBlank c = true

theorem blanks_single {c : UInt8} (h : isBlank c = true) : Blanks [c] :=
  fun d hd => by rwa [List.mem_singleton.mp hd]

/-- A word of a command line. -/
def IsWord (w : Word) : Prop := w ≠ [] ∧ ∀ c ∈ w, isWordChar c = true

theorem isWord_single {c : UInt8} (h : isWordChar c = true) : IsWord [c] :=
  ⟨List.cons_ne_nil _ _, fun d hd => by rwa [List.mem_singleton.mp hd]⟩

/-- The character of a redirection. -/
def Target.char : Target → UInt8
  | .input => 60
  | .output => 62

/-- A further word, or a redirection with the blanks after its sign, with the blanks before it. -/
structure Part where
  gap : List UInt8
  redirect : Option (Target × List UInt8)
  word : Word
  gap_blanks : Blanks gap
  redirect_blanks : ∀ r ∈ redirect, Blanks r.2
  /-- what separates two words -/
  separated : redirect = none → gap ≠ []
  isWord : IsWord word

/-- A part as it is written. -/
def Part.text (p : Part) : List UInt8 :=
  match p.redirect with
  | none => p.gap ++ p.word
  | some (target, blanks) => p.gap ++ target.char :: (blanks ++ p.word)

/-- The redirections with that of a part, if it is one. -/
def Redir.part (r : Redir) (p : Part) : Redir :=
  match p.redirect with
  | none => r
  | some (target, _) => r.set p.word target

/-- A simple command, with the blanks around it. -/
structure Command where
  before : List UInt8
  name : Word
  parts : List Part
  after : List UInt8
  before_blanks : Blanks before
  after_blanks : Blanks after
  isWord : IsWord name
  /-- what `words` has room for -/
  fits : (parts.filter (·.redirect = none)).length + 1 < maxWords

namespace Command
variable (c : Command)

/-- The characters after the name. -/
def partsText (parts : List Part) (t : List UInt8) : List UInt8 :=
  parts.foldr (fun p t => p.text ++ t) t

/-- The command's text before `t`. -/
def text (t : List UInt8) : List UInt8 := c.before ++ (c.name ++ partsText c.parts (c.after ++ t))

/-- The words of a command, its name first. -/
def words : List Word := c.name :: (c.parts.filter (·.redirect = none)).map Part.word

/-- The redirections, the last one for each descriptor. -/
def redir : Redir := c.parts.foldl Redir.part {}

end Command

/-- `c1 op1 c2 … cn`, maybe with a newline at the end. -/
structure CommandLine where
  first : Command
  rest : List (Op × Command)
  newline : Bool

/-- The characters from the first command's end on. -/
def restText (ending : List UInt8) : List (Op × Command) → List UInt8
  | [] => ending
  | (op, c) :: rest => op.text ++ c.text (restText ending rest)

/-- The line as it is written. -/
def CommandLine.text (line : CommandLine) : List UInt8 :=
  line.first.text (restText (if line.newline then [10] else []) line.rest)

/-! ## What is prescribed -/

/-- Whether the next command runs, by the status of the list so far. -/
def Op.runs : Op → Int → Bool
  | .seq, _ => true
  | .and, status => status = 0
  | .or, status => status ≠ 0

/-- Left-associative evaluation: what becomes of the commands from the one with number `i` on. -/
def evaluate (exit : Nat → Int) : Nat → Int → List (Op × Command) → List Event
  | _, _, [] => []
  | i, status, (op, c) :: rest =>
    if op.runs status then .started c.words c.redir 0 false :: evaluate exit (i + 1) (exit i) rest
    else .skipped c.words :: evaluate exit (i + 1) status rest

/-- What the operators prescribe for the line. -/
def CommandLine.prescribed (line : CommandLine) (exit : Nat → Int) : List Event :=
  evaluate exit 0 0 ((.seq, line.first) :: line.rest)

/-- The redirections of a command, with those of `kept` for the descriptors it has none for. -/
def Redir.over (r kept : Redir) : Redir := ⟨r.input <|> kept.input, r.output <|> kept.output⟩

/-- By the evaluation, no skipped command is followed by `;`, and no command that runs comes after
skipped ones with a redirection that it does not have.  `kept` are the redirections of the commands
skipped last. -/
def Clean (exit : Nat → Int) : Nat → Int → Redir → List (Op × Command) → Prop
  | _, _, _, [] => True
  | i, status, kept, (op, c) :: rest =>
    if op.runs status then c.redir.over kept = c.redir ∧ Clean exit (i + 1) (exit i) {} rest
    else (∀ next ∈ rest.head?, next.1 ≠ .seq) ∧ Clean exit (i + 1) status (c.redir.over kept) rest

/-- No redirection of the line is left over for a later command. -/
def CommandLine.Clean (line : CommandLine) (exit : Nat → Int) : Prop :=
  Shell.Clean exit 0 0 {} ((.seq, line.first) :: line.rest)

/-! ## Reading a word -/

/-- The rounds of the loop lead from one state to another. -/
def Leads (env : Env) (l l' : Line) : Prop :=
  ∃ n, ∀ fuel, lineLoop env (fuel + n) l = lineLoop env fuel l'

/-- Rounds of the loop compose. -/
theorem Leads.trans {env : Env} {l l' l'' : Line} (h : Leads env l l') (h' : Leads env l' l'') :
    Leads env l l'' := by
  obtain ⟨n, hn⟩ := h
  obtain ⟨m, hm⟩ := h'
  refine ⟨m + n, fun fuel => ?_⟩
  rw [← Nat.add_assoc, hn, hm]

/-- One round is a step of the loop while there is something left of the line. -/
theorem leads_round {env : Env} {l l' : Line} (h : l.s ≠ [] ∨ l.words ≠ [])
    (hround : round env l = .ok l') :
    Leads env l l' := by
  refine ⟨1, fun fuel => ?_⟩
  rw [lineLoop, if_pos h, hround]

/-- No word and no blank comes first. -/
def Stops (t : List UInt8) : Prop := isBlank (deref t) = false ∧ isWordChar (deref t) = false

theorem stops_nil : Stops [] := ⟨rfl, rfl⟩

theorem isWordChar_not_blank {c : UInt8} (h : isWordChar c = true) : isBlank c = false := by
  have hspace := (of_decide_eq_true h).2.1
  exact decide_eq_false fun hc => hspace hc.1

theorem isBlank_not_wordChar {c : UInt8} (h : isBlank c = true) : isWordChar c = false :=
  decide_eq_false fun hc => hc.2.1 (of_decide_eq_true h).1

section Spans
variable {gap t : List UInt8} {w : Word}

/-- Skipping blanks ends where the gap does. -/
theorem dropBlanks (hgap : Blanks gap) (ht : isBlank (deref t) = false) :
    (gap ++ t).dropWhile isBlank = t := by
  rw [List.dropWhile_append_of_pos hgap]
  cases t with
  | nil => rfl
  | cons c t => exact List.dropWhile_cons_of_neg (Bool.eq_false_iff.mp ht)

theorem word_not_blank (hw : IsWord w) (t : List UInt8) : isBlank (deref (w ++ t)) = false := by
  cases w with
  | nil => exact absurd rfl hw.1
  | cons c w => exact isWordChar_not_blank (hw.2 c List.mem_cons_self)

/-- A run of word characters is read up to the first other character. -/
theorem takeWord (hw : ∀ c ∈ w, isWordChar c = true) (ht : isWordChar (deref t) = false) :
    (w ++ t).takeWhile isWordChar = w ∧ (w ++ t).dropWhile isWordChar = t := by
  rw [List.takeWhile_append_of_pos hw, List.dropWhile_append_of_pos hw]
  cases t with
  | nil => exact ⟨List.append_nil w, rfl⟩
  | cons c t =>
    have hc : ¬isWordChar c = true := Bool.eq_false_iff.mp ht
    rw [List.takeWhile_cons_of_neg hc, List.dropWhile_cons_of_neg hc]
    exact ⟨List.append_nil w, rfl⟩

end Spans

/-- The state with another rest of the line. -/
def Line.at (l : Line) (s : List UInt8) : Line := { l with s := s }

/-- The state with a word added. -/
def Line.add (l : Line) (w : Word) : Line :=
  match l.redirStatus with
  | some target => { l with redir := l.redir.set w target, redirStatus := none }
  | none => { l with words := l.words ++ [w] }

/-- There is room for a word. -/
def Line.Fits (l : Line) : Prop := l.redirStatus = none → l.words.length + 1 < maxWords

/-- A command has been started to be read, so that it may be executed once no file is missing. -/
def Line.Ready (l : Line) : Prop := l.words ≠ [] ∨ l.redirStatus = none

section Add
variable {l : Line} {w : Word}

/-- A word after no redirection is an argument. -/
theorem add_none (h : l.redirStatus = none) : l.add w = { l with words := l.words ++ [w] } := by
  unfold Line.add
  rw [h]

/-- A word after a redirection sign is its file. -/
theorem add_some {target : Target} (h : l.redirStatus = some target) :
    l.add w = { l with redir := l.redir.set w target, redirStatus := none } := by
  unfold Line.add
  rw [h]

/-- `add_word` is `Line.add` while the line has room. -/
theorem addWord_add (hw : w ≠ []) (hfits : l.Fits) : addWord l w = .ok (l.add w) := by
  unfold addWord Line.add
  rw [if_pos hw]
  cases hstatus : l.redirStatus with
  | some target => rfl
  | none => exact if_pos (hfits hstatus)

theorem add_redirStatus : (l.add w).redirStatus = none := by
  unfold Line.add
  cases hstatus : l.redirStatus with
  | some target => rfl
  | none => rfl

theorem add_words (h : l.Ready) : (l.add w).words ≠ [] := by
  unfold Line.add
  cases hstatus : l.redirStatus with
  | some target =>
    rcases h with h | h
    · exact h
    · rw [hstatus] at h
      cases h
  | none => exact List.append_ne_nil_of_right_ne_nil _ (List.cons_ne_nil w [])

theorem add_at (s : List UInt8) : (l.at s).add w = (l.add w).at s := by
  unfold Line.add Line.at
  cases hstatus : l.redirStatus with
  | some target => rfl
  | none => rfl

/-- An empty word after an argument adds nothing. -/
theorem addWord_none (hwords : l.words ≠ []) (hstatus : l.redirStatus = none) :
    addWord l [] = .ok l := by
  unfold addWord
  rw [if_neg (not_not.mpr rfl), if_neg (fun h => hwords h.1),
    if_neg (not_or.mpr ⟨hwords, not_not.mpr hstatus⟩)]

end Add

section Rounds
variable {env : Env} {l : Line} {gap gap' t : List UInt8} {w : Word}

/-- A round over a word and the character after it. -/
theorem round_word (hgap : Blanks gap) (hw : IsWord w) (ht : isWordChar (deref t) = false)
    (hfits : l.Fits) : round env (l.at (gap ++ (w ++ t))) = maybeExecute env
    ((l.add w).at (nextChar t).2) (nextChar t).1 := by
  obtain ⟨htake, hdrop⟩ := takeWord hw.2 ht
  have hadd := @addWord_add (l.at (nextChar t).2) w hw.1 hfits
  unfold round
  rw [show (l.at (gap ++ (w ++ t))).s = gap ++ (w ++ t) from rfl,
    dropBlanks hgap (word_not_blank hw t)]
  dsimp only
  rw [htake, hdrop, show { l.at (gap ++ (w ++ t)) with s := (nextChar t).2 } =
    l.at (nextChar t).2 from rfl, hadd, add_at]
  rfl

/-- A round in which there is no word. -/
theorem round_gap (hgap : Blanks gap) (ht : Stops t) (hwords : l.words ≠ [])
    (hstatus : l.redirStatus = none) :
    round env (l.at (gap ++ t)) = maybeExecute env (l.at (nextChar t).2) (nextChar t).1 := by
  obtain ⟨htake, hdrop⟩ := @takeWord t [] nofun ht.2
  have hadd := @addWord_none (l.at (nextChar t).2) hwords hstatus
  rw [List.nil_append] at htake hdrop
  unfold round
  rw [show (l.at (gap ++ t)).s = gap ++ t from rfl, dropBlanks hgap ht.1]
  dsimp only
  rw [htake, hdrop, show { l.at (gap ++ t) with s := (nextChar t).2 } =
    l.at (nextChar t).2 from rfl, hadd]
  rfl

theorem nextChar_blank {c : UInt8} (hc : isBlank c = true) (t : List UInt8) :
    nextChar (c :: t) = (c, t) := by
  have hamp : ¬(deref (c :: t) = 38 ∧ deref (c :: t).tail = 38) := fun h => by
    rw [show c = 38 from h.1] at hc
    exact absurd hc (by decide)
  have hbar : ¬(deref (c :: t) = 124 ∧ deref (c :: t).tail = 124) := fun h => by
    rw [show c = 124 from h.1] at hc
    exact absurd hc (by decide)
  unfold nextChar
  rw [if_neg hamp, if_neg hbar]
  rfl

theorem maybeExecute_space {c : UInt8} (hc : isspace c = true) : maybeExecute env l c = .ok l := by
  have h₁ : c ≠ 60 := fun h => by
    rw [h] at hc
    exact absurd hc (by decide)
  have h₂ : c ≠ 62 := fun h => by
    rw [h] at hc
    exact absurd hc (by decide)
  unfold maybeExecute
  rw [if_neg h₁, if_neg h₂, if_neg (by simp [hc])]

/-- A word and blanks, up to a character that is neither. -/
theorem leads_word {l' : Line} (hgap : Blanks gap) (hw : IsWord w) (hgap' : Blanks gap')
    (ht : Stops t) (hready : l.Ready) (hfits : l.Fits)
    (hnext : maybeExecute env ((l.add w).at (nextChar t).2) (nextChar t).1 = .ok l') :
    Leads env (l.at (gap ++ (w ++ (gap' ++ t)))) l' := by
  have hsome : (l.at (gap ++ (w ++ (gap' ++ t)))).s ≠ [] ∨
      (l.at (gap ++ (w ++ (gap' ++ t)))).words ≠ [] := by
    refine Or.inl (List.append_ne_nil_of_right_ne_nil _ (List.append_ne_nil_of_left_ne_nil hw.1 _))
  cases gap' with
  | nil =>
    refine leads_round hsome ?_
    rw [List.nil_append, round_word hgap hw ht.2 hfits]
    exact hnext
  | cons c gap' =>
    have hc := hgap' c List.mem_cons_self
    have hrest : Blanks gap' := fun c' hc' => hgap' c' (List.mem_cons_of_mem c hc')
    have hfirst : round env (l.at (gap ++ (w ++ (c :: gap' ++ t)))) =
        .ok ((l.add w).at (gap' ++ t)) := by
      have hstop : isWordChar (deref (c :: (gap' ++ t))) = false := isBlank_not_wordChar hc
      rw [List.cons_append, round_word hgap hw hstop hfits, nextChar_blank hc]
      exact maybeExecute_space (of_decide_eq_true hc).1
    refine (leads_round hsome hfirst).trans (leads_round (Or.inr (add_words hready)) ?_)
    rw [round_gap hrest ht (add_words hready) add_redirStatus]
    exact hnext

/-- A word and at least one blank. -/
theorem leads_blank (hgap : Blanks gap) (hw : IsWord w) {c : UInt8} (hc : isBlank c = true)
    (hfits : l.Fits) : Leads env (l.at (gap ++ (w ++ (c :: t)))) ((l.add w).at t) := by
  refine leads_round (Or.inl ?_) ?_
  · exact List.append_ne_nil_of_right_ne_nil _ (List.append_ne_nil_of_left_ne_nil hw.1 _)
  · have hstop : isWordChar (deref (c :: t)) = false := isBlank_not_wordChar hc
    rw [round_word hgap hw hstop hfits, nextChar_blank hc]
    exact maybeExecute_space (of_decide_eq_true hc).1

end Rounds

/-! ## Reading a command -/

/-- What a part adds. -/
def Line.absorb (l : Line) (p : Part) : Line :=
  match p.redirect with
  | none => l.add p.word
  | some (target, _) => { l with redirStatus := some target }.add p.word

section Parts
variable {env : Env}

theorem stops_target (target : Target) (t : List UInt8) : Stops (target.char :: t) := by
  cases target <;> exact ⟨rfl, rfl⟩

theorem nextChar_target (target : Target) (t : List UInt8) :
    nextChar (target.char :: t) = (target.char, t) := by
  cases target <;> rfl

theorem maybeExecute_target (l : Line) (target : Target) :
    maybeExecute env l target.char = .ok { l with redirStatus := some target } := by
  cases target <;> rfl

theorem absorb_redirStatus {l : Line} {p : Part} : (l.absorb p).redirStatus = none := by
  unfold Line.absorb
  split <;> exact add_redirStatus

/-- The words that parts add. -/
def plainCount (parts : List Part) : Nat := (parts.filter (·.redirect = none)).length

/-- A name and what follows it, up to the end of the command. -/
theorem leads_parts {after t : List UInt8} (hafter : Blanks after) (ht : Stops t) :
    ∀ (parts : List Part) {l l' : Line} {gap : List UInt8} {w : Word}, Blanks gap → IsWord w →
    l.Ready → l.Fits → (l.add w).words.length + plainCount parts < maxWords →
    maybeExecute env ((parts.foldl Line.absorb (l.add w)).at (nextChar t).2) (nextChar t).1 =
    .ok l' → Leads env (l.at (gap ++ (w ++ Command.partsText parts (after ++ t)))) l' := by
  intro parts
  induction parts with
  | nil =>
    intro l l' gap w hgap hw hready hfits _ hnext
    exact leads_word hgap hw hafter ht hready hfits hnext
  | cons p parts ih =>
    intro l l' gap w hgap hw hready hfits hroom hnext
    rw [List.foldl_cons] at hnext
    cases hredirect : p.redirect with
    | none =>
      have habsorb : (l.add w).absorb p = (l.add w).add p.word := by
        unfold Line.absorb
        rw [hredirect]
      have hcount : plainCount (p :: parts) = plainCount parts + 1 := by
        simp [plainCount, hredirect]
      obtain ⟨c, rest, hpgap⟩ : ∃ c rest, p.gap = c :: rest :=
        List.exists_cons_of_ne_nil (p.separated hredirect)
      have hblanks := p.gap_blanks
      rw [hpgap] at hblanks
      have htext : Command.partsText (p :: parts) (after ++ t) =
          c :: (rest ++ (p.word ++ Command.partsText parts (after ++ t))) := by
        rw [Command.partsText, List.foldr_cons, Part.text, hredirect, hpgap]
        simp [Command.partsText]
      have hwords : ((l.add w).add p.word).words.length = (l.add w).words.length + 1 := by
        rw [add_none add_redirStatus]
        exact List.length_append
      rw [htext]
      refine (leads_blank hgap hw (hblanks c List.mem_cons_self) hfits).trans ?_
      rw [habsorb] at hnext
      refine ih (fun c' hc' => hblanks c' (List.mem_cons_of_mem c hc')) p.isWord
        (Or.inr add_redirStatus) (fun _ => ?_) ?_ hnext
      · omega
      · omega
    | some r =>
      obtain ⟨target, blanks⟩ := r
      have hcount : plainCount (p :: parts) = plainCount parts := by simp [plainCount, hredirect]
      have hblanks : Blanks blanks := p.redirect_blanks (target, blanks) hredirect
      have htext : Command.partsText (p :: parts) (after ++ t) =
          p.gap ++ target.char :: (blanks ++ (p.word ++ Command.partsText parts (after ++ t))) := by
        rw [Command.partsText, List.foldr_cons, Part.text, hredirect]
        simp [Command.partsText]
      have habsorb : (l.add w).absorb p = { l.add w with redirStatus := some target }.add
          p.word := by
        unfold Line.absorb
        rw [hredirect]
      have hwords : ({ l.add w with redirStatus := some target }.add p.word).words =
          (l.add w).words := by
        rw [add_some rfl]
      have hsign : maybeExecute env ((l.add w).at (nextChar (target.char ::
          (blanks ++ (p.word ++ Command.partsText parts (after ++ t))))).2)
          (nextChar
            (target.char :: (blanks ++ (p.word ++ Command.partsText parts (after ++ t))))).1 =
          .ok ({ l.add w with redirStatus := some target }.at
            (blanks ++ (p.word ++ Command.partsText parts (after ++ t)))) := by
        rw [nextChar_target, maybeExecute_target]
        rfl
      rw [htext]
      refine (leads_word hgap hw p.gap_blanks (stops_target target _) hready hfits hsign).trans ?_
      rw [habsorb] at hnext
      refine ih hblanks p.isWord (Or.inl (add_words hready)) (fun h => ?_) ?_ hnext
      · cases h
      · rw [hwords]
        omega

/-- A part of a command, whichever kind it is, is added to the words or to the redirections. -/
theorem absorb_eq {l : Line} (h : l.redirStatus = none) (p : Part) :
    l.absorb p =
      { l with
        words := l.words ++ (if p.redirect = none then [p.word] else [])
        redir := l.redir.part p } := by
  unfold Line.absorb Redir.part
  cases hredirect : p.redirect with
  | none => rw [if_pos rfl, add_none h]
  | some r =>
    obtain ⟨target, blanks⟩ := r
    have hadd : { l with redirStatus := some target }.add p.word =
        { l with redir := l.redir.set p.word target } := by
      rw [add_some rfl, h]
    rw [if_neg (Option.some_ne_none _), List.append_nil]
    exact hadd

/-- All parts of a command: its words in order, its redirections the last of each kind. -/
theorem foldl_absorb (parts : List Part) {l : Line} (h : l.redirStatus = none) :
    parts.foldl Line.absorb l = { l with
      words := l.words ++ (parts.filter (·.redirect = none)).map Part.word
      redir := parts.foldl Redir.part l.redir } := by
  induction parts generalizing l with
  | nil => rw [List.foldl_nil, List.foldl_nil, List.filter_nil, List.map_nil, List.append_nil]
  | cons p parts ih =>
    rw [List.foldl_cons, ih absorb_redirStatus, absorb_eq h p, List.foldl_cons]
    by_cases hplain : p.redirect = none
    · rw [if_pos hplain, List.filter_cons_of_pos (by simpa using hplain), List.map_cons,
        List.append_assoc]
      rfl
    · rw [if_neg hplain, List.filter_cons_of_neg (by simpa using hplain), List.append_nil]

theorem over_part (r kept : Redir) (p : Part) : (r.over kept).part p = (r.part p).over kept := by
  unfold Redir.part
  cases p.redirect with
  | none => rfl
  | some redirect =>
    obtain ⟨target, blanks⟩ := redirect
    cases target <;> rfl

/-- Redirections kept from before are hidden by the command's own. -/
theorem foldl_part_over (parts : List Part) (r kept : Redir) :
    parts.foldl Redir.part (r.over kept) = (parts.foldl Redir.part r).over kept := by
  induction parts generalizing r with
  | nil => rfl
  | cons p parts ih => rw [List.foldl_cons, List.foldl_cons, over_part, ih]

end Parts

/-! ## A command -/

/-- `skip_status` after a command that is followed by `nextch` and, if it has run, has returned
`status`. -/
def newSkip (skip status : Int) (nextch : UInt8) : Int :=
  if skip < 0 then
    if status = 0 ∧ nextch = OROR ∨ status ≠ 0 ∧ nextch = ANDAND then (if status ≠ 0 then 1 else 0)
      else skip
  else if skip = 0 ∧ nextch = ANDAND ∨ skip ≠ 0 ∧ nextch = OROR then -1
  else skip

/-- The state between two commands. -/
def between (s : List UInt8) (kept : Redir) (skip : Int) (trace : List Event) : Line :=
  ⟨s, [], kept, none, skip, 0, trace⟩

/-- The state with a command read. -/
def readyLine (c : Command) (s : List UInt8) (kept : Redir) (skip : Int) (trace : List Event) :
    Line :=
  { between s (c.redir.over kept) skip trace with words := c.words }

/-- What becomes of a command in the code. -/
def codeEvent (c : Command) (skip : Int) (kept : Redir) : Event :=
  if skip < 0 then .started c.words (c.redir.over kept) 0 false else .skipped c.words

/-- The redirections after a command. -/
def nextKept (c : Command) (skip : Int) (kept : Redir) : Redir :=
  if skip < 0 then {} else c.redir.over kept

section Command
variable {env : Env} {s : List UInt8} {kept : Redir} {skip : Int} {trace : List Event}
  {nextch : UInt8}

/-- A command that does not start a pipe or a background job is run or skipped, by the status. -/
theorem execute_between (hfork : ∀ k, 0 < env.fork k) (h₁ : nextch ≠ 124) (h₂ : nextch ≠ 38)
    (c : Command) : execute env (readyLine c s kept skip trace) nextch =
      .ok (between s (nextKept c skip kept) (newSkip skip (env.status trace.length) nextch)
        (trace ++ [codeEvent c skip kept])) := by
  unfold execute readyLine between nextKept newSkip codeEvent
  dsimp only
  by_cases hskip : skip < 0
  · unfold createChild waitChild
    dsimp only
    simp only [if_pos hskip, if_neg h₁, if_pos (hfork trace.length), decide_eq_false h₁]
    rw [if_pos (⟨h₁, h₂, hfork trace.length⟩ : nextch ≠ 124 ∧ nextch ≠ 38 ∧
      0 < env.fork trace.length)]
    rfl
  · simp only [if_neg hskip]

/-- A command up to the character after it. -/
theorem leads_read (c : Command) {t rest : List UInt8} {l' : Line} (ht : Stops t)
    (hnext : nextChar t = (nextch, rest))
    (hl' : maybeExecute env (readyLine c rest kept skip trace) nextch = .ok l') :
    Leads env (between (c.text t) kept skip trace) l' := by
  have hroom : plainCount c.parts + 1 < maxWords := c.fits
  have hname : (between [] kept skip trace).add c.name =
      { between [] kept skip trace with words := [c.name] } := add_none rfl
  have hwords : (c.parts.foldl Line.absorb ((between [] kept skip trace).add c.name)).at rest =
      readyLine c rest kept skip trace := by
    rw [foldl_absorb c.parts add_redirStatus, hname]
    dsimp only [between, readyLine]
    rw [show kept = ({} : Redir).over kept from rfl, foldl_part_over]
    rfl
  refine @leads_parts env c.after t c.after_blanks ht c.parts (between [] kept skip trace) _
    c.before c.name c.before_blanks c.isWord (Or.inr rfl) (fun _ => (by decide : 0 + 1 < maxWords))
    ?_ ?_
  · rw [hname]
    show 1 + plainCount c.parts < maxWords
    omega
  · rw [hnext, hwords]
    exact hl'

end Command

/-! ## The whole line -/

/-- `nextch` after a command. -/
def following : List (Op × Command) → UInt8
  | [] => 0
  | (op, _) :: _ => op.nextch

/-- What becomes of the commands in the code. -/
def codeTrace (exit : Nat → Int) : Nat → Int → Redir → List (Op × Command) → List Event
  | _, _, _, [] => []
  | i, skip, kept, (_, c) :: rest =>
    codeEvent c skip kept :: codeTrace exit (i + 1) (newSkip skip (exit i) (following rest))
      (nextKept c skip kept) rest

section WholeLine
variable {env : Env}

theorem stops_op (op : Op) (t : List UInt8) : Stops (op.text ++ t) := by
  cases op <;> exact ⟨rfl, rfl⟩

theorem nextChar_op (op : Op) (t : List UInt8) : nextChar (op.text ++ t) = (op.nextch, t) := by
  cases op <;> rfl

theorem maybeExecute_op (l : Line) (op : Op) :
    maybeExecute env l op.nextch = execute env l op.nextch := by
  cases op <;> rfl

theorem nextch_plain (op : Op) : op.nextch ≠ 124 ∧ op.nextch ≠ 38 := by
  cases op <;> decide

/-- The last command, with or without a newline after it. -/
theorem leads_last (hfork : ∀ k, 0 < env.fork k) (c : Command) (newline : Bool) (skip : Int)
    (kept : Redir) (trace : List Event) :
    Leads env (between (c.text (if newline then [10] else [])) kept skip trace)
      (between [] (nextKept c skip kept) (newSkip skip (env.status trace.length) 0)
        (trace ++ [codeEvent c skip kept])) := by
  have hexec := @execute_between env [] kept skip trace 0 hfork (by decide) (by decide) c
  cases newline with
  | false => exact leads_read c stops_nil rfl hexec
  | true =>
    have hread : Leads env (between (c.text [10]) kept skip trace)
        (readyLine c [] kept skip trace) :=
      leads_read c (t := [10]) ⟨rfl, rfl⟩ rfl (maybeExecute_space rfl)
    refine hread.trans (leads_round (Or.inr (List.cons_ne_nil _ _)) ?_)
    exact (@round_gap env (readyLine c [] kept skip trace) [] [] nofun stops_nil
      (List.cons_ne_nil _ _) rfl).trans hexec

/-- All commands, up to the end of the line. -/
theorem leads_line (hfork : ∀ k, 0 < env.fork k) (newline : Bool) :
    ∀ (rest : List (Op × Command)) (op : Op) (c : Command)
    (skip : Int) (kept : Redir) (trace : List Event), ∃ skip' kept',
      Leads env (between (c.text (restText (if newline then [10] else []) rest)) kept skip trace)
        (between [] kept' skip'
          (trace ++ codeTrace env.status trace.length skip kept ((op, c) :: rest))) := by
  intro rest
  induction rest with
  | nil =>
    intro op c skip kept trace
    exact ⟨_, _, leads_last hfork c newline skip kept trace⟩
  | cons next rest ih =>
    intro op c skip kept trace
    obtain ⟨op', c'⟩ := next
    have hplain := nextch_plain op'
    have hexec := @execute_between env (c'.text (restText (if newline then [10] else []) rest)) kept
        skip trace op'.nextch
      hfork hplain.1 hplain.2 c
    obtain ⟨skip', kept', hrest⟩ := ih op' c' (newSkip skip (env.status trace.length) op'.nextch)
      (nextKept c skip kept) (trace ++ [codeEvent c skip kept])
    have hfirst :=
      leads_read c (stops_op op' _) (nextChar_op op' _) ((maybeExecute_op _ op').trans hexec)
    rw [List.length_append, List.append_assoc] at hrest
    exact ⟨skip', kept', hfirst.trans hrest⟩

/-! ### The rounds come to an end -/

/-- More than the number of rounds. -/
def rounds (l : Line) : Nat := 2 * l.s.length + if l.words = [] then 0 else 1

/-- `create_child` reads nothing of the line. -/
theorem createChild_ok {l l' : Line} {nextch : UInt8} (h : createChild env l nextch = .ok l') :
    l'.s = l.s := by
  unfold createChild at h
  dsimp only at h
  split at h
  · split at h
    · cases h
    · cases h
      rfl
  · cases h
    rfl

/-- `execute` reads nothing and leaves no word behind. -/
theorem execute_ok {l l' : Line} {nextch : UInt8} (h : execute env l nextch = .ok l') : l'.s = l.s ∧
    l'.words = [] := by
  unfold execute at h
  split at h
  · cases hchild : createChild env l nextch with
    | error e =>
      rw [hchild] at h
      cases h
    | ok l₁ =>
      rw [hchild] at h
      cases h
      exact ⟨(createChild_ok hchild : l₁.s = l.s), rfl⟩
  · cases h
    exact ⟨rfl, rfl⟩

/-- Nor does `maybe_execute` read; at the end of the line it leaves no word. -/
theorem maybeExecute_ok {l l' : Line} {nextch : UInt8} (h : maybeExecute env l nextch = .ok l') :
    l'.s = l.s ∧ (nextch = 0 → l'.words = []) := by
  unfold maybeExecute at h
  by_cases h₁ : nextch = 60
  · rw [if_pos h₁] at h
    cases h
    exact ⟨rfl, fun hnul => absurd (hnul.symm.trans h₁) (by decide)⟩
  by_cases h₂ : nextch = 62
  · rw [if_neg h₁, if_pos h₂] at h
    cases h
    exact ⟨rfl, fun hnul => absurd (hnul.symm.trans h₂) (by decide)⟩
  by_cases h₃ : isspace nextch = true
  · rw [if_neg h₁, if_neg h₂, if_neg (not_not.mpr h₃)] at h
    cases h
    refine ⟨rfl, fun hnul => ?_⟩
    rw [hnul] at h₃
    exact absurd h₃ (by decide)
  · rw [if_neg h₁, if_neg h₂, if_pos h₃] at h
    obtain ⟨hs, hwords⟩ := execute_ok h
    exact ⟨hs, fun _ => hwords⟩

/-- `add_word` reads nothing of the line. -/
theorem addWord_ok {l l' : Line} {w : Word} (h : addWord l w = .ok l') : l'.s = l.s := by
  unfold addWord at h
  split at h
  · split at h
    · cases h
      rfl
    · split at h
      · cases h
        rfl
      · cases h
  · split_ifs at h
    cases h
    rfl

/-- Reading the next character shortens what is left of the line. -/
theorem nextChar_length (s : List UInt8) : (nextChar s).2.length ≤ s.length - 1 := by
  unfold nextChar
  split_ifs <;> simp only [List.length_tail] <;> omega

/-- A round takes a character, or executes the last command. -/
theorem round_rounds {l l' : Line} (h : l.s ≠ [] ∨ l.words ≠ []) (hround : round env l = .ok l') :
    rounds l' < rounds l := by
  obtain ⟨hs, hwords⟩ : l'.s = (nextChar ((l.s.dropWhile isBlank).dropWhile isWordChar)).2 ∧
      ((nextChar ((l.s.dropWhile isBlank).dropWhile isWordChar)).1 = 0 → l'.words = []) := by
    unfold round at hround
    dsimp only at hround
    cases hadd : addWord { l with s := (nextChar ((l.s.dropWhile isBlank).dropWhile isWordChar)).2 }
        ((l.s.dropWhile isBlank).takeWhile isWordChar) with
    | error e =>
      rw [hadd] at hround
      cases hround
    | ok l₁ =>
      rw [hadd] at hround
      obtain ⟨hs, hwords⟩ := maybeExecute_ok hround
      exact ⟨hs.trans (addWord_ok hadd), hwords⟩
  have hlen := nextChar_length ((l.s.dropWhile isBlank).dropWhile isWordChar)
  have hdrop : ((l.s.dropWhile isBlank).dropWhile isWordChar).length ≤ l.s.length :=
    ((List.dropWhile_sublist _).trans (List.dropWhile_sublist _)).length_le
  have hshorter : l'.s.length ≤ l.s.length - 1 := by
    rw [hs]
    omega
  unfold rounds
  by_cases hempty : l.s = []
  · have hnul : (nextChar ((l.s.dropWhile isBlank).dropWhile isWordChar)).1 = 0 := by
      rw [hempty]
      rfl
    rw [if_pos (hwords hnul), if_neg (h.resolve_left (not_not.mpr hempty))]
    omega
  · have hpos := List.length_pos_of_ne_nil hempty
    split_ifs <;> omega

/-- The loop ends within `rounds` rounds: one more of fuel changes nothing. -/
theorem lineLoop_enough : ∀ (fuel : Nat) (l : Line), rounds l < fuel →
    lineLoop env (fuel + 1) l = lineLoop env fuel l := by
  intro fuel
  induction fuel with
  | zero => exact fun l h => absurd h (Nat.not_lt_zero _)
  | succ fuel ih =>
    intro l h
    by_cases hmore : l.s ≠ [] ∨ l.words ≠ []
    · conv_lhs => rw [lineLoop]
      conv_rhs => rw [lineLoop]
      rw [if_pos hmore, if_pos hmore]
      cases hround : round env l with
      | ok l' => exact ih l' (by have := round_rounds hmore hround; omega)
      | error e => cases e <;> rfl
    · rw [lineLoop, if_neg hmore, lineLoop, if_neg hmore]

theorem lineLoop_more {l : Line} {fuel : Nat} (h : rounds l < fuel) (n : Nat) :
    lineLoop env (fuel + n) l = lineLoop env fuel l := by
  induction n with
  | zero => rfl
  | succ n ih => rw [← Nat.add_assoc, lineLoop_enough _ l (by omega), ih]

/-- What the loop makes of a command line. -/
theorem runLine_trace (hfork : ∀ k, 0 < env.fork k) (line : CommandLine) :
    ∃ l, runLine env line.text = some l ∧
      l.trace = codeTrace env.status 0 (-1) {} ((.seq, line.first) :: line.rest) := by
  obtain ⟨skip, kept, n, hn⟩ := leads_line hfork line.newline line.rest .seq line.first (-1) {} []
  rw [List.nil_append] at hn
  refine ⟨between [] kept skip (codeTrace env.status 0 (-1) {} ((.seq, line.first) :: line.rest)),
    ?_, rfl⟩
  have hstart : rounds (between line.text {} (-1) []) < 2 * line.text.length + 2 := by
    have hrounds : rounds (between line.text {} (-1) []) = 2 * line.text.length + 0 := rfl
    omega
  have hrun := (lineLoop_more hstart n).symm.trans (hn _)
  exact hrun

end WholeLine

/-! ## Evaluation and the code -/

/-- Before a command, `skip_status` says what the operator and the status do. -/
def Agree (op : Op) (status skip : Int) : Prop :=
  (op.runs status = true ∧ skip = -1) ∨
    (op.runs status = false ∧ skip = if status ≠ 0 then 1 else 0)

/-- After a command has run, whether the next is skipped follows its status. -/
theorem agree_ran (op : Op) (status : Int) : Agree op status (newSkip (-1) status op.nextch) := by
  unfold Agree newSkip
  by_cases hzero : status = 0
  · cases op <;> simp [Op.runs, Op.nextch, ANDAND, OROR, hzero]
  · cases op <;> simp [Op.runs, Op.nextch, ANDAND, OROR, hzero]

/-- After one that was skipped, it follows the status before. -/
theorem agree_skipped {op : Op} (status x : Int) (hop : op ≠ .seq) :
    Agree op status (newSkip (if status ≠ 0 then 1 else 0) x op.nextch) := by
  unfold Agree newSkip
  by_cases hzero : status = 0
  · cases op <;> simp [Op.runs, Op.nextch, ANDAND, OROR, hzero] at hop ⊢
  · cases op <;> simp [Op.runs, Op.nextch, ANDAND, OROR, hzero] at hop ⊢

/-- `;` does not end the skipping. -/
theorem newSkip_seq (status x : Int) :
    newSkip (if status ≠ 0 then 1 else 0) x Op.seq.nextch = if status ≠ 0 then 1 else 0 := by
  unfold newSkip
  by_cases hzero : status = 0
  · simp [Op.nextch, ANDAND, OROR, hzero]
  · simp [Op.nextch, ANDAND, OROR, hzero]

theorem not_skipping (status : Int) : ¬(if status ≠ 0 then 1 else 0 : Int) < 0 := by
  split <;> decide

/-- From a command before which the code and the evaluation agree, they do the same just where the
rest is clean. -/
theorem trace_iff (exit : Nat → Int) :
    ∀ (rest : List (Op × Command)) (i : Nat) (op : Op) (c : Command) (status skip : Int)
    (kept : Redir), Agree op status skip →
    (codeTrace exit i skip kept ((op, c) :: rest) = evaluate exit i status ((op, c) :: rest) ↔
      Clean exit i status kept ((op, c) :: rest)) := by
  intro rest
  induction rest with
  | nil =>
    intro i op c status skip kept hagree
    rcases hagree with ⟨hruns, rfl⟩ | ⟨hruns, rfl⟩
    · rw [codeTrace, evaluate, Clean, if_pos hruns, if_pos hruns]
      simp [codeTrace, evaluate, Clean, codeEvent]
    · rw [codeTrace, evaluate, Clean, if_neg (Bool.eq_false_iff.mp hruns),
        if_neg (Bool.eq_false_iff.mp hruns)]
      have hevent : codeEvent c (if status ≠ 0 then 1 else 0) kept = .skipped c.words :=
        if_neg (not_skipping status)
      rw [hevent]
      simp [codeTrace, evaluate, Clean]
  | cons next rest ih =>
    intro i op c status skip kept hagree
    obtain ⟨op', c'⟩ := next
    rcases hagree with ⟨hruns, rfl⟩ | ⟨hruns, rfl⟩
    · have hrest :=
        ih (i + 1) op' c' (exit i) (newSkip (-1) (exit i) op'.nextch) {} (agree_ran op' (exit i))
      have hkept : nextKept c (-1) kept = {} := rfl
      have hevent : codeEvent c (-1) kept = .started c.words (c.redir.over kept) 0 false := rfl
      rw [codeTrace, evaluate, Clean, if_pos hruns, if_pos hruns, hkept, hevent, List.cons.injEq,
        following, hrest]
      simp
    · have hkept : nextKept c (if status ≠ 0 then 1 else 0) kept = c.redir.over kept :=
        if_neg (not_skipping status)
      have hevent : codeEvent c (if status ≠ 0 then 1 else 0) kept = .skipped c.words :=
        if_neg (not_skipping status)
      rw [codeTrace, evaluate, Clean, if_neg (Bool.eq_false_iff.mp hruns),
        if_neg (Bool.eq_false_iff.mp hruns), hkept, hevent, List.cons.injEq, following]
      by_cases hseq : op' = .seq
      · -- the evaluation starts the next command, the code does not
        subst hseq
        rw [newSkip_seq]
        refine iff_of_false (fun h => ?_) (fun h => h.1 (Op.seq, c') rfl rfl)
        have hnext := h.2
        have hseqRuns : Op.seq.runs status = true := rfl
        rw [codeTrace, evaluate, if_pos hseqRuns, List.cons.injEq, codeEvent,
          if_neg (not_skipping status)] at hnext
        cases hnext.1
      · have hrest := ih (i + 1) op' c' status
            (newSkip (if status ≠ 0 then 1 else 0) (exit i) op'.nextch) (c.redir.over kept)
          (agree_skipped status (exit i) hseq)
        rw [hrest]
        simp [hseq]

/-- **The shell's commands**: if `fork` does not fail, the loop reads a command line to its end, and
it starts exactly the commands that left-associative evaluation prescribes, each with its own
redirections, if and only if by that evaluation no skipped command is followed by `;` or leaves a
redirection to a command that has none for the descriptor. -/
theorem commands_iff (env : Env) (hfork : ∀ k, 0 < env.fork k) (line : CommandLine) :
    (∃ l, runLine env line.text = some l ∧ l.trace = line.prescribed env.status) ↔
      line.Clean env.status := by
  obtain ⟨l, hrun, htrace⟩ := runLine_trace hfork line
  have hiff := trace_iff env.status line.rest 0 .seq line.first 0 (-1) {} (Or.inl ⟨rfl, rfl⟩)
  rw [hrun]
  constructor
  · rintro ⟨l', hl', hprescribed⟩
    cases hl'
    exact hiff.mp (htrace.symm.trans hprescribed)
  · intro hclean
    exact ⟨l, rfl, htrace.trans (hiff.mpr hclean)⟩

/-- Every command is started and exits with status 0. -/
def allTrue : Env := ⟨fun _ => 1, fun _ => 0, fun _ => none⟩

/-- A command of one word of one character, with a blank on each side. -/
def letter (c : UInt8) (h : isWordChar c = true) : Command :=
  ⟨[32], [c], [], [32], blanks_single (by decide), blanks_single (by decide), isWord_single h,
    by decide⟩

/-- `t && u || c`. -/
def andThenOr : CommandLine :=
  ⟨letter 116 (by decide), [(.and, letter 117 (by decide)), (.or, letter 99 (by decide))], true⟩

/-- `t` and `u` are started, and `c` is not. -/
theorem commands_iff_andThenOr : ∃ l, runLine allTrue andThenOr.text = some l ∧
    l.trace = [.started [[116]] {} 0 false, .started [[117]] {} 0 false, .skipped [[99]]] :=
  (commands_iff allTrue (fun _ => Int.one_pos) andThenOr).mpr ⟨rfl, rfl, nofun, trivial⟩

/-- `t || b ; c`. -/
def orThenSeq : CommandLine :=
  ⟨letter 116 (by decide), [(.or, letter 98 (by decide)), (.seq, letter 99 (by decide))], true⟩

/-- Only `t` is started, though `c` comes after `;`. -/
theorem orThenSeq_skips : (runLine allTrue orThenSeq.text).map Line.trace =
      some [.started [[116]] {} 0 false, .skipped [[98]], .skipped [[99]]] ∧
    ¬∃ l, runLine allTrue orThenSeq.text = some l ∧
    l.trace = orThenSeq.prescribed allTrue.status := by
  have hrun : (runLine allTrue orThenSeq.text).map Line.trace =
      some [.started [[116]] {} 0 false, .skipped [[98]], .skipped [[99]]] := by decide +kernel
  refine ⟨hrun, ?_⟩
  rintro ⟨l, hl, htrace⟩
  rw [hl, Option.map_some, htrace] at hrun
  revert hrun
  decide

end PugOS.Shell
