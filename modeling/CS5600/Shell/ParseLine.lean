/-
  CS5600.Shell.ParseLine — a line of the mini-shell and its words (`Assignment4_Shell/shell.c`:
  `read_line`, `string_trim`, `parse_line`).

  A line is in the buffer `getline` filled: the characters read, the NUL it puts behind them, and
  the bytes of the buffer after that. `string_trim` steps over leading spaces; at the other end
  it starts on the NUL, which is no space, so trailing spaces stay and the NUL it stores goes one
  byte behind the one that is there. The words are what `strtok` returns, up to the first `&`.

  Proved (`parseLine_eq`): on a line of fewer than 64 words `parse_line` returns the words before
  the first `&`, with `background` set when there is one and each other flag as the last of its
  operators among them left it (`marks_last`), whatever the flags were.
-/

import CS5600.Lib.Words

namespace CS5600.Shell

open CS5600.Lib.Words

/-- LINE_LENGTH and TOK_SIZE -/
def lineSize : Nat := 80
def tokSize : Nat := 64

abbrev Token := List Char

/-- DELIMITERS -/
def isDelimiter (c : Char) : Bool := c = ' ' || c = '\t' || c = '\r' || c = '\n' || c = '\x07'

def amp : Token := ['&']
def bar : Token := ['|']
def greater : Token := ['>']
def less : Token := ['<']

/-! ## Strings in a buffer -/

def nul : Char := '\x00'

/-- The string at the start of a buffer. -/
def cstr (buf : List Char) : List Char := buf.takeWhile (· ≠ nul)

def strlen (buf : List Char) : Nat := (cstr buf).length

/-- What `getline` leaves: `text` was read, `spare` are the bytes after the NUL. -/
structure Line where
  text : List Char
  spare : List Char
  deriving DecidableEq

def Line.buf (l : Line) : List Char := l.text ++ nul :: l.spare

/-- The second loop of `string_trim`, from the offset `tail`. -/
def backOver (buf : List Char) : Nat → Nat
  | 0 => 0
  | tail + 1 => if buf[tail + 1]? = some ' ' then backOver buf tail else tail + 1

/-- The offset of the head it returns, and the buffer. A store past the buffer changes none of
    its bytes, and the shell goes on: it never reads the NUL back. A store past `tokens`, which is read back
    as an argument, ends `parseTokens` instead. `CS5600.Shell.Bounds` says when either happens. -/
def stringTrim (buf : List Char) : Nat × List Char :=
  ((buf.takeWhile (· = ' ')).length, buf.set (backOver buf (strlen buf) + 1) nul)

/-- What `strtok` returns, call after call, on the string at the start of the buffer. -/
def strtok (buf : List Char) : List Token := words isDelimiter (cstr buf)

/-! ## `parse_line` -/

structure Globals where
  background : Bool
  piping : Bool
  pipePosn : Nat
  lineLength : Nat
  left : Bool
  right : Bool
  posnRight : Nat
  posnLeft : Nat
  deriving DecidableEq

/-- The flags an operator sets. -/
def mark (g : Globals) (posn : Nat) (token : Token) : Globals :=
  let g := if token = bar then { g with piping := true, pipePosn := posn } else g
  let g := if token = greater then { g with right := true, posnRight := posn } else g
  if token = less then { g with left := true, posnLeft := posn } else g

/-- The loop of `parse_line`; `none` when it stores past `tokens`. -/
def parseTokens : Globals → Nat → List Token → Option (Globals × List Token)
  | g, posn, [] => if posn < tokSize then some ({ g with lineLength := posn }, []) else none
  | g, posn, token :: rest =>
    if posn < tokSize then
      if token = amp then some ({ g with background := true, lineLength := posn }, [])
      else
        match parseTokens (mark g posn token) (posn + 1) rest with
        | some (g, tokens) => some (g, token :: tokens)
        | none => none
    else none

def parseLine (g : Globals) (line : Line) : Option (Globals × List Token) :=
  let (head, buf) := stringTrim line.buf
  parseTokens { g with right := false, left := false, background := false, piping := false } 0 (strtok (buf.drop head))

/-- The words of a line, and those up to the first `&`. -/
def Line.tokens (l : Line) : List Token := strtok l.buf
def Line.command (l : Line) : List Token := l.tokens.takeWhile (· ≠ amp)

/-! ## What `string_trim` does -/

theorem cstr_append {s : List Char} (hs : nul ∉ s) (rest : List Char) : cstr (s ++ nul :: rest) = s := by
  have hall : ∀ c ∈ s, decide (c ≠ nul) = true := by
    intro c hc
    have hne : c ≠ nul := fun e => hs (by rw [← e]; exact hc)
    exact decide_eq_true hne
  unfold cstr
  rw [List.takeWhile_append_of_pos hall]
  simp

theorem cstr_split {buf : List Char} (h : nul ∈ buf) : nul ∉ cstr buf ∧ ∃ rest, buf = cstr buf ++ nul :: rest := by
  constructor
  · intro hm
    have := List.mem_takeWhile_imp hm
    simp at this
  · induction buf with
    | nil => cases h
    | cons c buf ih =>
      by_cases e : c = nul
      · exact ⟨buf, by simp [cstr, e]⟩
      · obtain ⟨rest, hr⟩ := ih ((List.mem_cons.mp h).resolve_left (Ne.symm e))
        have hc : cstr (c :: buf) = c :: cstr buf := by simp [cstr, e]
        exact ⟨rest, by rw [hc, List.cons_append, ← hr]⟩

/-- The second loop of `string_trim` ends where it starts. -/
theorem backOver_strlen (s rest : List Char) : backOver (s ++ nul :: rest) s.length = s.length := by
  cases hn : s.length with
  | zero => rfl
  | succ n =>
    unfold backOver
    rw [← hn, List.getElem?_append_right (Nat.le_refl _), Nat.sub_self]
    simp [nul]

theorem leading_spaces (s rest : List Char) :
    (s ++ nul :: rest).takeWhile (· = ' ') = s.takeWhile (· = ' ') := by
  induction s with
  | nil => simp [nul]
  | cons c s ih =>
    by_cases e : c = ' '
    · simpa [e] using ih
    · simp [e]

theorem drop_leading_spaces (s rest : List Char) :
    (s ++ rest).drop (s.takeWhile (· = ' ')).length = s.dropWhile (· = ' ') ++ rest := by
  induction s with
  | nil => rfl
  | cons c s ih =>
    by_cases e : c = ' '
    · simpa [e] using ih
    · simp [e]

/-- What `strtok` is given is the line without its leading spaces. -/
theorem stringTrim_cstr {buf : List Char} (h : nul ∈ buf) :
    cstr ((stringTrim buf).2.drop (stringTrim buf).1) = (cstr buf).dropWhile (· = ' ') := by
  obtain ⟨hs, rest, hb⟩ := cstr_split h
  have hlen : strlen buf = (cstr buf).length := rfl
  generalize cstr buf = s at hs hb hlen ⊢
  subst hb
  have hset : (s ++ nul :: rest).set (s.length + 1) nul = s ++ nul :: rest.set 0 nul := by
    rw [List.set_append, if_neg (by omega), Nat.add_sub_cancel_left]
    rfl
  simp only [stringTrim, hlen, backOver_strlen, hset, leading_spaces]
  rw [drop_leading_spaces]
  exact cstr_append (fun hm => hs (List.dropWhile_subset _ hm)) _

/-! ## What `parse_line` returns -/

theorem Line.nul_mem (l : Line) : nul ∈ l.buf := List.mem_append_right _ (List.mem_cons_self ..)

theorem trimmed_tokens (l : Line) :
    strtok ((stringTrim l.buf).2.drop (stringTrim l.buf).1) = l.tokens := by
  unfold strtok Line.tokens strtok
  rw [stringTrim_cstr l.nul_mem]
  refine words_dropWhile (fun c hc => ?_) _
  simp only [decide_eq_true_eq] at hc
  simp [isDelimiter, hc]

theorem mark_background (g : Globals) (posn : Nat) (token : Token) : (mark g posn token).background = g.background := by
  unfold mark
  repeat' split
  all_goals rfl

/-- The flags after a list of words, the first of them at `posn`. -/
def marks : Globals → Nat → List Token → Globals
  | g, _, [] => g
  | g, posn, t :: ts => marks (mark g posn t) (posn + 1) ts

theorem marks_append (g : Globals) (posn : Nat) (ts us : List Token) :
    marks g posn (ts ++ us) = marks (marks g posn ts) (posn + ts.length) us := by
  induction ts generalizing g posn with
  | nil => rfl
  | cons t ts ih =>
    rw [List.cons_append, marks, ih, List.length_cons, Nat.add_right_comm, Nat.add_assoc]
    rfl

section Flags

-- `f` is one of the three flags with its position, `op` the operator that sets it
variable {f : Globals → Bool × Nat} {op : Token}
  (hf : ∀ g posn t, f (mark g posn t) = if t = op then (true, posn) else f g)

include hf

theorem marks_none (g : Globals) (posn : Nat) {ts : List Token} (h : op ∉ ts) : f (marks g posn ts) = f g := by
  induction ts generalizing g posn with
  | nil => rfl
  | cons t ts ih =>
    rw [List.mem_cons, not_or] at h
    rw [marks, ih _ _ h.2, hf, if_neg (Ne.symm h.1)]

/-- The last one counts. -/
theorem marks_last (g : Globals) (posn : Nat) (ws : List Token) {vs : List Token} (h : op ∉ vs) :
    f (marks g posn (ws ++ op :: vs)) = (true, posn + ws.length) := by
  rw [marks_append, marks, marks_none hf _ _ h, hf, if_pos rfl]

end Flags

theorem exists_last {op : Token} {ts : List Token} (h : op ∈ ts) : ∃ ws vs, ts = ws ++ op :: vs ∧ op ∉ vs := by
  obtain ⟨xs, ys, hr, hx⟩ := List.eq_append_cons_of_mem (List.mem_reverse.mpr h)
  refine ⟨ys.reverse, xs.reverse, ?_, by simpa using hx⟩
  have := congrArg List.reverse hr
  simpa using this

def Globals.pipe (g : Globals) : Bool × Nat := (g.piping, g.pipePosn)
def Globals.write (g : Globals) : Bool × Nat := (g.right, g.posnRight)
def Globals.read (g : Globals) : Bool × Nat := (g.left, g.posnLeft)

/-- Each operator sets its own flag and leaves the others. -/
theorem mark_flags (g : Globals) (posn : Nat) (t : Token) :
    (mark g posn t).pipe = (if t = bar then (true, posn) else g.pipe) ∧
    (mark g posn t).write = (if t = greater then (true, posn) else g.write) ∧
    (mark g posn t).read = if t = less then (true, posn) else g.read := by
  unfold Globals.pipe Globals.write Globals.read
  by_cases h1 : t = bar
  · simp [mark, h1, bar, greater, less]
  by_cases h2 : t = greater
  · simp [mark, h2, bar, greater, less]
  by_cases h3 : t = less
  · simp [mark, h3, bar, greater, less]
  simp [mark, h1, h2, h3]

theorem mark_pipe (g : Globals) (posn : Nat) (t : Token) :
    (mark g posn t).pipe = if t = bar then (true, posn) else g.pipe :=
  (mark_flags g posn t).1

theorem mark_write (g : Globals) (posn : Nat) (t : Token) :
    (mark g posn t).write = if t = greater then (true, posn) else g.write :=
  (mark_flags g posn t).2.1

theorem mark_read (g : Globals) (posn : Nat) (t : Token) :
    (mark g posn t).read = if t = less then (true, posn) else g.read :=
  (mark_flags g posn t).2.2

theorem parseTokens_eq (g : Globals) (posn : Nat) (ts : List Token)
    (hlen : posn + (ts.takeWhile (· ≠ amp)).length < tokSize) :
    parseTokens g posn ts = some ({ marks g posn (ts.takeWhile (· ≠ amp)) with
      background := g.background || decide (amp ∈ ts), lineLength := posn + (ts.takeWhile (· ≠ amp)).length },
      ts.takeWhile (· ≠ amp)) := by
  induction ts generalizing posn g with
  | nil =>
    have hp : posn < tokSize := hlen
    simp [parseTokens, hp, marks]
  | cons t ts ih =>
    have hp : posn < tokSize := by omega
    by_cases e : t = amp
    · simp [parseTokens, hp, e, marks]
    · have htake : (t :: ts).takeWhile (· ≠ amp) = t :: ts.takeWhile (· ≠ amp) := by simp [e]
      have hmem : decide (amp ∈ t :: ts) = decide (amp ∈ ts) := by simp [Ne.symm e]
      rw [htake, List.length_cons] at hlen
      rw [htake, hmem, List.length_cons, marks, ← Nat.add_assoc, Nat.add_right_comm]
      simp only [parseTokens, hp, e, if_true, if_false, ih (mark g posn t) (posn + 1) (by omega), mark_background]

/-- The flags `parse_line` starts from. -/
def Globals.cleared (g : Globals) : Globals := { g with right := false, left := false, background := false, piping := false }

/-- Words behind the `&` are not stored. -/
theorem parseLine_command (g : Globals) {l : Line} (hlen : l.command.length < tokSize) :
    parseLine g l = some ({ marks g.cleared 0 l.command with
      background := decide (amp ∈ l.tokens), lineLength := l.command.length }, l.command) := by
  unfold parseLine
  simp only [trimmed_tokens]
  have h := parseTokens_eq g.cleared 0 l.tokens (by rw [Nat.zero_add]; exact hlen)
  rw [Nat.zero_add] at h
  exact h

theorem command_length_lt {l : Line} (hlen : l.tokens.length < tokSize) : l.command.length < tokSize :=
  Nat.lt_of_le_of_lt (List.takeWhile_sublist _).length_le hlen

theorem parseLine_eq (g : Globals) {l : Line} (hlen : l.tokens.length < tokSize) :
    parseLine g l = some ({ marks g.cleared 0 l.command with
      background := decide (amp ∈ l.tokens), lineLength := l.command.length }, l.command) :=
  parseLine_command g (command_length_lt hlen)

theorem parseLine_spec (g : Globals) {l : Line} (hlen : l.tokens.length < tokSize) :
    ∃ g', parseLine g l = some (g', l.command) ∧ g'.background = decide (amp ∈ l.tokens) ∧
      g'.piping = decide (bar ∈ l.command) ∧ g'.lineLength = l.command.length := by
  refine ⟨_, parseLine_eq g hlen, rfl, ?_, rfl⟩
  by_cases h : bar ∈ l.command
  · obtain ⟨ws, vs, hc, hvs⟩ := exists_last h
    have hlast := marks_last mark_pipe g.cleared 0 ws hvs
    rw [← hc] at hlast
    exact (congrArg Prod.fst hlast).trans (decide_eq_true h).symm
  · exact (congrArg Prod.fst (marks_none mark_pipe g.cleared 0 h)).trans (decide_eq_false h).symm

/-- What it leaves for the command `args`: a flag that is set has its position in it. -/
structure Parsed (g : Globals) (args : List Token) : Prop where
  lineLength : g.lineLength = args.length
  pipePosn : g.piping = true → g.pipePosn < args.length
  posnRight : g.right = true → g.posnRight < args.length
  posnLeft : g.left = true → g.posnLeft < args.length

theorem marks_lt {f : Globals → Bool × Nat} {op : Token} {g : Globals}
    (hf : ∀ g posn t, f (mark g posn t) = if t = op then (true, posn) else f g) {ts : List Token}
    (hg : (f g).1 = false) (h : (f (marks g 0 ts)).1 = true) : (f (marks g 0 ts)).2 < ts.length := by
  by_cases hop : op ∈ ts
  · obtain ⟨ws, vs, rfl, hvs⟩ := exists_last hop
    rw [marks_last hf g 0 ws hvs, List.length_append, List.length_cons]
    omega
  · rw [marks_none hf g 0 hop, hg] at h
    cases h

theorem parseLine_parsed (g : Globals) {l : Line} (hlen : l.command.length < tokSize) :
    ∃ g', parseLine g l = some (g', l.command) ∧ Parsed g' l.command :=
  ⟨_, parseLine_command g hlen, rfl, marks_lt mark_pipe rfl, marks_lt mark_write rfl, marks_lt mark_read rfl⟩

end CS5600.Shell
