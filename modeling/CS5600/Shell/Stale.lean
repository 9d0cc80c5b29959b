/-
  CS5600.Shell.Stale — what a line of the mini-shell owes to the lines before it.

  Eight globals survive from line to line; `parse_line` clears four of them. Here they are the
  `int`s of the source, with any values, also negative positions and flags that are neither 0 nor
  1, and `execute` is followed with each index it takes from them: a position outside the words
  of the line is a fault. SIGCHLD may be ignored or not.

  The flags after `parse_line` are those of `CS5600.Shell.parseLine`, and where a flag is set its
  position is one of this line (`Like`). `execute` reads a position behind its flag only, so it
  does what `CS5600.Shell.execute` does (`turn_ints`): from any two values of the globals the
  same actions are taken (`actions_independent`).
-/

import CS5600.Shell.ShellLoop

namespace CS5600.Shell

structure Ints where
  background : Int
  piping : Int
  pipePosn : Int
  lineLength : Int
  left : Int
  right : Int
  posnRight : Int
  posnLeft : Int

namespace Ints

/-! ## `parse_line` -/

def mark (v : Ints) (posn : Nat) (token : Token) : Ints :=
  let v := if token = bar then { v with piping := 1, pipePosn := posn } else v
  let v := if token = greater then { v with right := 1, posnRight := posn } else v
  if token = less then { v with left := 1, posnLeft := posn } else v

/-- `none` when it stores past `tokens`. -/
def parseTokens : Ints → Nat → List Token → Option (Ints × List Token)
  | v, posn, [] => if posn < tokSize then some ({ v with lineLength := posn }, []) else none
  | v, posn, token :: rest =>
    if posn < tokSize then
      if token = amp then some ({ v with background := 1, lineLength := posn }, [])
      else
        match parseTokens (mark v posn token) (posn + 1) rest with
        | some (v, tokens) => some (v, token :: tokens)
        | none => none
    else none

def cleared (v : Ints) : Ints := { v with right := 0, left := 0, background := 0, piping := 0 }

def parseLine (v : Ints) (line : Line) : Option (Ints × List Token) :=
  let (head, buf) := stringTrim line.buf
  parseTokens v.cleared 0 (strtok (buf.drop head))

/-! ## `execute` -/

section Launch

variable (v : Ints) (ignored : Bool) (os : Os) (args : List Token)

/-- The globals as the program's tests and loops take them. -/
def seen : Globals :=
  ⟨decide (v.background ≠ 0), decide (v.piping = 1), v.pipePosn.toNat, v.lineLength.toNat, decide (v.left = 1),
    decide (v.right = 1), v.posnRight.toNat, v.posnLeft.toNat⟩

/-- It stores a NULL at `posn` and reads what is behind it. -/
def redirect (posn : Int) (mode : Mode) : Option (List Action) :=
  if 0 ≤ posn ∧ posn < args.length then some (Shell.redirect os args posn.toNat mode) else none

def launch : Result :=
  if os.fork then
    match (if v.right = 1 then redirect os args v.posnRight .write
      else if v.left = 1 then redirect os args v.posnLeft .read
      else some [.execvp args]) with
    | some child => parent v.seen ignored os 1 child
    | none => ⟨.faults, ignored, []⟩
  else ⟨.exits 1, ignored, []⟩

def launchPipe : Result :=
  if ¬ os.leftCmd ∨ ¬ os.rightCmd then ⟨.exits 1, ignored, []⟩
  -- the indices of the two copying loops, up to the NULL behind the words
  else if v.pipePosn ≤ args.length + 1 ∧ v.lineLength ≤ args.length + 1 ∧
      (-1 ≤ v.pipePosn ∨ v.lineLength ≤ v.pipePosn + 1) then
    let leftCmd := copyCmd args v.pipePosn.toNat 0 0 os.leftSlots
    let rightCmd := copyCmd args (v.lineLength - (v.pipePosn + 1)).toNat (v.pipePosn + 1).toNat 0 os.rightSlots
    if os.fork then
      parent v.seen ignored os 0 (if os.fork2 then [.execvp (argv rightCmd), .execvp (argv leftCmd)] else [])
    else ⟨.returns 0, ignored, []⟩
  else ⟨.faults, ignored, []⟩

def execute (E : Env) : Result :=
  match args with
  | [] => ⟨.returns 1, ignored, []⟩
  | name :: _ =>
    match builtins.find? (·.1 = name) with
    | some (_, func) => ⟨.returns (func E args).1, ignored, .builtin name args :: (func E args).2⟩
    | none => if v.piping = 1 then launchPipe v ignored os args else launch v ignored os args

end Launch

/-- `read_line`, `parse_line` and `execute`. -/
def turn (E : Env) (v : Ints) (ignored : Bool) (inp : Input) : Result :=
  if ¬ inp.os.line ∨ ¬ inp.os.tokens then ⟨.exits 1, ignored, []⟩
  else
    match parseLine v inp.line with
    | none => ⟨.faults, ignored, []⟩
    | some (v, args) => execute v ignored inp.os args E

/-! ## The flags agree, and the positions behind a flag that is set -/

def flag (b : Bool) : Int := if b then 1 else 0

structure Like (v : Ints) (g : Globals) : Prop where
  background : v.background = flag g.background
  piping : v.piping = flag g.piping
  right : v.right = flag g.right
  left : v.left = flag g.left
  pipePosn : g.piping = true → v.pipePosn = g.pipePosn
  posnRight : g.right = true → v.posnRight = g.posnRight
  posnLeft : g.left = true → v.posnLeft = g.posnLeft

theorem like_cleared (v : Ints) (g : Globals) : Like v.cleared g.cleared :=
  ⟨rfl, rfl, rfl, rfl, (fun h => by cases h), (fun h => by cases h), (fun h => by cases h)⟩

variable {v : Ints} {g : Globals}

theorem Like.mark (h : Like v g) (posn : Nat) (t : Token) : Like (v.mark posn t) (Shell.mark g posn t) := by
  obtain ⟨h1, h2, h3, h4, h5, h6, h7⟩ := h
  unfold Ints.mark Shell.mark
  by_cases e1 : t = bar
  · subst e1
    exact ⟨h1, rfl, h3, h4, fun _ => rfl, h6, h7⟩
  by_cases e2 : t = greater
  · subst e2
    exact ⟨h1, h2, rfl, h4, h5, fun _ => rfl, h7⟩
  by_cases e3 : t = less
  · subst e3
    exact ⟨h1, h2, h3, rfl, h5, h6, fun _ => rfl⟩
  simp only [e1, e2, e3, if_false]
  exact ⟨h1, h2, h3, h4, h5, h6, h7⟩

theorem Like.parseTokens {g' : Globals} {tokens : List Token} (h : Like v g) {posn : Nat} {ts : List Token}
    (hp : Shell.parseTokens g posn ts = some (g', tokens)) :
    ∃ v', parseTokens v posn ts = some (v', tokens) ∧ Like v' g' ∧ v'.lineLength = g'.lineLength := by
  induction ts generalizing v g posn tokens with
  | nil =>
    simp only [Shell.parseTokens] at hp
    split at hp
    · rename_i hlt
      cases hp
      exact ⟨{ v with lineLength := posn }, by rw [Ints.parseTokens, if_pos hlt],
        ⟨h.1, h.2, h.3, h.4, h.5, h.6, h.7⟩, rfl⟩
    · cases hp
  | cons t ts ih =>
    simp only [Shell.parseTokens] at hp
    split at hp
    · rename_i hlt
      by_cases e : t = amp
      · rw [if_pos e] at hp
        cases hp
        exact ⟨{ v with background := 1, lineLength := posn }, by rw [Ints.parseTokens, if_pos hlt, if_pos e],
          ⟨rfl, h.2, h.3, h.4, h.5, h.6, h.7⟩, rfl⟩
      · rw [if_neg e] at hp
        split at hp
        · rename_i g₁ tokens₁ hrec
          cases hp
          obtain ⟨v', hv', hlike, hlen⟩ := ih (h.mark posn t) hrec
          exact ⟨v', by rw [Ints.parseTokens, if_pos hlt, if_neg e, hv'], hlike, hlen⟩
        · cases hp
    · cases hp

/-! ## So `execute` does the same -/

theorem parent_congr {g g' : Globals} (h : g.background = g'.background) (ignored : Bool) (os : Os) (status : Int)
    (child : List Action) : parent g ignored os status child = parent g' ignored os status child := by
  unfold parent
  rw [h]

theorem flag_one {b : Bool} : flag b = 1 ↔ b = true := by cases b <;> decide

theorem Like.seen (h : Like v g) : v.seen.background = g.background := by
  show decide (v.background ≠ 0) = _
  rw [h.background]
  cases g.background <;> rfl

theorem redirect_eq {os : Os} {args : List Token} {posn : Nat} {mode : Mode} (hlt : posn < args.length) :
    redirect os args posn mode = some (Shell.redirect os args posn mode) := by
  rw [redirect, if_pos ⟨by omega, by omega⟩, Int.toNat_natCast]

section Same

variable {ignored : Bool} {os : Os} {args : List Token} (h : Like v g) (hp : Parsed g args)

include h hp

theorem Like.launch : Ints.launch v ignored os args = Shell.launch g ignored os args := by
  unfold Ints.launch Shell.launch
  simp only [h.right, h.left, flag_one]
  cases hr : g.right with
  | true =>
    rw [h.posnRight hr]
    simp only [if_true, redirect_eq (hp.posnRight hr), redirectWrite, parent_congr h.seen]
  | false =>
    cases hl : g.left with
    | true =>
      rw [h.posnLeft hl]
      simp only [Bool.false_eq_true, if_true, if_false, redirect_eq (hp.posnLeft hl), redirectRead,
        parent_congr h.seen]
    | false => simp only [Bool.false_eq_true, if_false, parent_congr h.seen]

theorem Like.launchPipe (hlen : v.lineLength = g.lineLength) (hpipe : g.piping = true) :
    Ints.launchPipe v ignored os args = Shell.launchPipe g ignored os args := by
  have hlt := hp.pipePosn hpipe
  have hrange : (g.pipePosn : Int) ≤ args.length + 1 ∧ (args.length : Int) ≤ args.length + 1 ∧
      (-1 ≤ (g.pipePosn : Int) ∨ (args.length : Int) ≤ g.pipePosn + 1) := by omega
  have hrounds : ((args.length : Int) - (g.pipePosn + 1)).toNat = args.length - (g.pipePosn + 1) := by omega
  have hfrom : ((g.pipePosn : Int) + 1).toNat = g.pipePosn + 1 := by omega
  unfold Ints.launchPipe Shell.launchPipe
  rw [h.pipePosn hpipe, hlen, hp.lineLength, if_pos hrange, hrounds, hfrom, Int.toNat_natCast]
  simp only [parent_congr h.seen]

theorem Like.execute (hlen : v.lineLength = g.lineLength) (E : Env) :
    Ints.execute v ignored os args E = Shell.execute g ignored os args E := by
  unfold Ints.execute Shell.execute
  cases args with
  | nil => rfl
  | cons name rest =>
    cases hf : builtins.find? (·.1 = name) with
    | some b => simp only [hf]
    | none =>
      simp only [hf, h.piping, flag_one, h.launch hp]
      by_cases hpipe : g.piping = true
      · rw [if_pos hpipe, if_pos hpipe, h.launchPipe hp hlen hpipe]
      · rw [if_neg hpipe, if_neg hpipe]

end Same

/-- Whatever the globals hold, a line is run as from any flags of `CS5600.Shell`. -/
theorem turn_ints (E : Env) (v : Ints) (st : St) {inp : Input} (hfew : inp.line.tokens.length < tokSize) :
    turn E v st.ignored inp = (Shell.turn E st inp).2 := by
  obtain ⟨g', hg', hp⟩ := parseLine_parsed st.g (command_length_lt hfew)
  obtain ⟨v', hv', hlike, hlen⟩ := (like_cleared v st.g).parseTokens hg'
  have hparse : parseLine v inp.line = some (v', inp.line.command) := hv'
  unfold turn Shell.turn
  rw [hparse, hg']
  split
  · rfl
  · exact hlike.execute hp hlen E

/-- Whether SIGCHLD is ignored decides how a wait ends, not what is done. -/
theorem execute_actions (g : Globals) (ignored ignored' : Bool) (os : Os) (args : List Token) (E : Env) :
    (Shell.execute g ignored os args E).actions = (Shell.execute g ignored' os args E).actions := by
  have hparent : ∀ status child,
      (parent g ignored os status child).actions = (parent g ignored' os status child).actions := by
    intro status child
    unfold parent
    split
    · rfl
    · dsimp only
      split <;> split <;> rfl
  unfold Shell.execute Shell.launchPipe Shell.launch
  dsimp only
  repeat' split
  all_goals first | rfl | apply hparent

theorem execute_in_arrays (g : Globals) (ignored : Bool) (os : Os) (args : List Token) (E : Env) :
    (Shell.execute g ignored os args E).outcome ≠ .faults := by
  have hparent : ∀ status child, (parent g ignored os status child).outcome ≠ .faults := by
    intro status child
    rcases parent_outcome g ignored os status child with ⟨-, h⟩ | ⟨-, h⟩ <;> simp [h]
  unfold Shell.execute Shell.launchPipe Shell.launch
  dsimp only
  repeat' split
  all_goals first | apply hparent | simp

/-- From any two values of the globals, with SIGCHLD ignored or not, a line takes the same actions;
    with SIGCHLD in the same state it also ends the same way, and no index leaves its array. -/
theorem actions_independent (E : Env) (v w : Ints) (ignored ignored' : Bool) {inp : Input}
    (hfew : inp.line.tokens.length < tokSize) :
    (turn E v ignored inp).actions = (turn E w ignored' inp).actions ∧ turn E v ignored inp = turn E w ignored inp ∧
      (turn E v ignored inp).outcome ≠ .faults := by
  have hv := turn_ints E v ⟨start.g, ignored⟩ hfew
  have hw := turn_ints E w ⟨start.g, ignored⟩ hfew
  have hw' := turn_ints E w ⟨start.g, ignored'⟩ hfew
  obtain ⟨g', hg', -⟩ := parseLine_parsed start.g (command_length_lt hfew)
  rw [hv, hw']
  refine ⟨?_, by rw [hw], ?_⟩
  · unfold Shell.turn
    split
    · rfl
    · simp only [hg']
      apply execute_actions
  · unfold Shell.turn
    split
    · simp
    · simp only [hg']
      apply execute_in_arrays

/-- `wc < in &`, after a pipe and after nothing. -/
theorem actions_independent_redirection :
    (turn bare ⟨1, 1, 40, 60, 0, 0, -1, 3⟩ true (typed "wc < in &\n")).actions =
      (turn bare ⟨0, 0, 0, 0, 0, 0, 0, 0⟩ false (typed "wc < in &\n")).actions :=
  (actions_independent bare _ _ true false (by decide)).1

end Ints

end CS5600.Shell
