/-
  CS5600.Shell.ShellLoop — the loop of the mini-shell (`Assignment4_Shell/shell.c`): `execute` with
  the builtins, `launch`, `launch_pipe` and the redirections, and `shell_loop`.

  `execute` is followed in the parent. What the children do is in the list of actions: the files
  they open and the argument lists they hand to `execvp`. What the system answers on a line is
  `Os`: whether `malloc`, `fork` and `open` succeed, what the uninitialised `status` holds, and what
  becomes of the child, which may be stopped some times before it ends.

  After a background command SIGCHLD is ignored for good. The end of a child is then not reported:
  `waitpid` fails and leaves `status` as it is, and the loop around it looks at that.

  Proved (`runs_until_exit_iff`): in every run the shell leaves its loop at the lines whose first
  word is `exit` and reads on after all others, if and only if no command line is a pipe, for
  which `launch_pipe` returns EXIT_SUCCESS (HOMEWORK4.txt, 1), and no command is waited for with
  SIGCHLD ignored and a `status` that reads as a stop. `pipe_leaves` is the line `ls | wc`.
-/

import CS5600.Lib.Runs
import CS5600.Shell.ParseLine

namespace CS5600.Shell

open CS5600.Lib.Runs

/-! ## Waiting -/

/-- WIFEXITED and WIFSIGNALED on the words of `sys/wait.h`; the low seven bits of a stop are all set. -/
def wifexited (w : Nat) : Prop := w % 128 = 0
def wifsignaled (w : Nat) : Prop := 0 < w % 128 ∧ w % 128 < 127

instance (w : Nat) : Decidable (wifexited w) := inferInstanceAs (Decidable (_ = _))
instance (w : Nat) : Decidable (wifsignaled w) := inferInstanceAs (Decidable (_ ∧ _))

/-- A child's status words: it is stopped and continued, and ends. -/
structure Child where
  stops : List Nat
  final : Nat
  stopped : ∀ w ∈ stops, w % 128 = 127
  ended : final % 128 ≠ 127

/-- What `waitpid` will report of the child. -/
def reports (ignored : Bool) (c : Child) : List Nat := if ignored then c.stops else c.stops ++ [c.final]

/-- One call; with nothing left to report it fails, and `status` is not written. -/
def waitpid : List Nat → Nat → List Nat × Nat
  | [], status => ([], status)
  | w :: ws, _ => (ws, w)

/-- The `do … while` around `waitpid`, at most `n` rounds of it. -/
def waitLoop : Nat → List Nat → Nat → Option Nat
  | 0, _, _ => none
  | n + 1, ws, status =>
    let (ws, status) := waitpid ws status
    if ¬ wifexited status ∧ ¬ wifsignaled status then waitLoop n ws status else some status

/-! ## `execute` -/

inductive Mode where
  /-- O_CREAT | O_WRONLY | O_TRUNC -/
  | write
  /-- O_CREAT | O_RDONLY -/
  | read
  deriving DecidableEq

inductive Action where
  | builtin (name : Token) (args : List Token)
  | chdir (path : Option Token)
  | openFile (path : Option Token) (mode : Mode)
  | execvp (argv : List Token)
  | wait
  | ignore
  deriving DecidableEq

structure Env where
  getenv : Token → Option Token

/-- The answers of the system on one line: the four `malloc`s, with what is in the memory of two of
    them, the two `fork`s, the `open`. -/
structure Os where
  line : Bool
  tokens : Bool
  leftCmd : Bool
  rightCmd : Bool
  leftSlots : List (Option Token)
  rightSlots : List (Option Token)
  fork : Bool
  fork2 : Bool
  opens : Bool
  status : Nat
  child : Child

inductive Outcome where
  | returns (status : Int)
  | exits (code : Nat)
  /-- it waits for ever -/
  | hangs
  /-- it stores outside its buffers -/
  | faults
  deriving DecidableEq

structure Result where
  outcome : Outcome
  ignored : Bool
  actions : List Action
  deriving DecidableEq

section Builtins

variable (E : Env) (args : List Token)

def cdFunc : Int × List Action :=
  match args[1]? with
  | none => (1, [])
  | some path => if path = ['~'] then (1, [.chdir (E.getenv "HOME".toList)]) else (1, [.chdir (some path)])

def helpFunc (_ : Env) (_ : List Token) : Int × List Action := (1, [])

def exitFunc (_ : Env) (_ : List Token) : Int × List Action := (0, [])

def pwdFunc (_ : List Token) : Int × List Action :=
  match E.getenv "PWD".toList with
  | none => (-1, [])
  | some _ => (1, [])

def exitName : Token := "exit".toList

def builtins : List (Token × (Env → List Token → Int × List Action)) :=
  [("cd".toList, cdFunc), ("help".toList, helpFunc), (exitName, exitFunc), ("pwd".toList, pwdFunc)]

end Builtins

section Launch

variable (g : Globals) (ignored : Bool) (os : Os) (args : List Token)

/-- The parent after a fork: it waits, or sees to it that it never has to. -/
def parent (status : Int) (child : List Action) : Result :=
  if g.background then ⟨.returns status, true, child ++ [.ignore]⟩
  else
    let ws := reports ignored os.child
    match waitLoop (ws.length + 1) ws os.status with
    | some _ => ⟨.returns status, ignored, child ++ [.wait]⟩
    | none => ⟨.hangs, ignored, child ++ [.wait]⟩

/-- `redirect_write` and `redirect_read`: the file after the operator, the arguments before it.
    A NULL path is not opened. -/
def redirect (posn : Nat) (mode : Mode) : List Action :=
  match args[posn + 1]? with
  | none => [.openFile none mode]
  | some path => .openFile (some path) mode :: if os.opens then [.execvp (args.take posn)] else []

def redirectWrite : List Action := redirect os args g.posnRight .write

def redirectRead : List Action := redirect os args g.posnLeft .read

def launch : Result :=
  if os.fork then
    parent g ignored os 1
      (if g.right then redirectWrite g os args
      else if g.left then redirectRead g os args
      else [.execvp args])
  else ⟨.exits 1, ignored, []⟩

/-- The strings of an array, up to its NULL. -/
def argv (cmd : List (Option Token)) : List Token := (cmd.takeWhile Option.isSome).filterMap id

/-- `n` rounds of a copying loop of `launch_pipe`, `cmd[j] = args[i]`, and the NULL behind them. -/
def copyCmd : Nat → Nat → Nat → List (Option Token) → List (Option Token)
  | 0, _, j, cmd => cmd.set j none
  | n + 1, i, j, cmd => copyCmd n (i + 1) (j + 1) (cmd.set j args[i]?)

def launchPipe : Result :=
  if ¬ os.leftCmd ∨ ¬ os.rightCmd then ⟨.exits 1, ignored, []⟩
  else
    let leftCmd := copyCmd args g.pipePosn 0 0 os.leftSlots
    let rightCmd := copyCmd args (g.lineLength - (g.pipePosn + 1)) (g.pipePosn + 1) 0 os.rightSlots
    -- EXIT_SUCCESS is returned in the parent too
    if os.fork then
      parent g ignored os 0 (if os.fork2 then [.execvp (argv rightCmd), .execvp (argv leftCmd)] else [])
    else ⟨.returns 0, ignored, []⟩

def execute (E : Env) : Result :=
  match args with
  | [] => ⟨.returns 1, ignored, []⟩
  | name :: _ =>
    match builtins.find? (·.1 = name) with
    | some (_, func) => ⟨.returns (func E args).1, ignored, .builtin name args :: (func E args).2⟩
    | none => if g.piping then launchPipe g ignored os args else launch g ignored os args

end Launch

/-! ## `shell_loop` -/

structure St where
  g : Globals
  /-- SIGCHLD is ignored -/
  ignored : Bool

def start : St := ⟨⟨false, false, 0, 0, false, false, 0, 0⟩, false⟩

structure Input where
  line : Line
  os : Os

variable (E : Env)

/-- `read_line`, `parse_line` and `execute`. -/
def turn (st : St) (inp : Input) : Globals × Result :=
  if ¬ inp.os.line ∨ ¬ inp.os.tokens then (st.g, ⟨.exits 1, st.ignored, []⟩)
  else
    match parseLine st.g inp.line with
    | none => (st.g, ⟨.faults, st.ignored, []⟩)
    | some (g, args) => (g, execute g st.ignored inp.os args E)

/-- The state in which the next line is read. -/
def step (st : St) (inp : Input) : Option St :=
  match turn E st inp with
  | (g, r) =>
    match r.outcome with
    | .returns status => if status ≠ 0 then some ⟨g, r.ignored⟩ else none
    | _ => none

/-- The system does what is asked of it, and the words fit their array. -/
structure Legal (inp : Input) : Prop where
  fits : inp.line.tokens.length < tokSize
  line : inp.os.line = true
  tokens : inp.os.tokens = true
  leftCmd : inp.os.leftCmd = true
  rightCmd : inp.os.rightCmd = true
  fork : inp.os.fork = true

def IsExit (inp : Input) : Prop := inp.line.tokens.head? = some exitName

instance (inp : Input) : Decidable (IsExit inp) := inferInstanceAs (Decidable (_ = _))

/-- The parent leaves the loop after this line if it is an `exit`, and otherwise goes on to the next. -/
def RunsOn (st : St) (inp : Input) : Prop :=
  ((turn E st inp).2.outcome = .returns 0 ↔ IsExit inp) ∧
    (¬ IsExit inp → ∃ status : Int, status ≠ 0 ∧ (turn E st inp).2.outcome = .returns status ∧
      step E st inp = some ⟨(turn E st inp).1, (turn E st inp).2.ignored⟩)

/-- A line whose first word names no builtin. -/
def IsCommand (l : Line) : Prop := ∃ name ∈ l.command.head?, ∀ b ∈ builtins, b.1 ≠ name

/-- SIGCHLD is not ignored, or the child is never stopped and `status` reads as an end to begin with. -/
def Noticed (ignored : Bool) (os : Os) : Prop := ignored = true → os.child.stops = [] ∧ os.status % 128 ≠ 127

/-- A command line is not a pipe, and the end of a foreground command is noticed. -/
def Plain (st : St) (inp : Input) : Prop :=
  IsCommand inp.line → bar ∉ inp.line.command ∧ (amp ∉ inp.line.tokens → Noticed st.ignored inp.os)

/-! ## When the wait ends -/

theorem stop_iff (w : Nat) : (¬ wifexited w ∧ ¬ wifsignaled w) ↔ w % 128 = 127 := by
  unfold wifexited wifsignaled
  omega

theorem waitLoop_nil (n status : Nat) :
    waitLoop (n + 1) [] status = if status % 128 = 127 then waitLoop n [] status else some status := by
  show (if ¬ wifexited status ∧ ¬ wifsignaled status then _ else _) = _
  simp only [stop_iff]

theorem waitLoop_cons (n w status : Nat) (ws : List Nat) :
    waitLoop (n + 1) (w :: ws) status = if w % 128 = 127 then waitLoop n ws w else some w := by
  show (if ¬ wifexited w ∧ ¬ wifsignaled w then _ else _) = _
  simp only [stop_iff]

def Ends (ws : List Nat) (status : Nat) : Prop := (∃ w ∈ ws, w % 128 ≠ 127) ∨ (ws = [] ∧ status % 128 ≠ 127)

/-- However many rounds it goes, it gets out at an end only. -/
theorem ends_of_waitLoop {n : Nat} {ws : List Nat} {status s : Nat} (h : waitLoop n ws status = some s) :
    Ends ws status := by
  induction n generalizing ws status with
  | zero => cases h
  | succ n ih =>
    cases ws with
    | nil =>
      rw [waitLoop_nil] at h
      by_cases e : status % 128 = 127
      · rw [if_pos e] at h
        exact ih h
      · exact Or.inr ⟨rfl, e⟩
    | cons w ws =>
      rw [waitLoop_cons] at h
      by_cases e : w % 128 = 127
      · rw [if_pos e] at h
        rcases ih h with ⟨w', hw', hne⟩ | ⟨-, hne⟩
        · exact Or.inl ⟨w', List.mem_cons_of_mem _ hw', hne⟩
        · exact absurd e hne
      · exact Or.inl ⟨w, List.mem_cons_self .., e⟩

theorem waitLoop_of_ends {ws : List Nat} {status n : Nat} (h : Ends ws status) (hn : ws.length < n) :
    ∃ s, waitLoop n ws status = some s := by
  induction ws generalizing status n with
  | nil =>
    cases n with
    | zero => cases hn
    | succ n =>
      have hne : status % 128 ≠ 127 := by
        rcases h with ⟨w, hw, -⟩ | ⟨-, hne⟩
        · cases hw
        · exact hne
      exact ⟨status, by rw [waitLoop_nil, if_neg hne]⟩
  | cons w ws ih =>
    cases n with
    | zero => cases hn
    | succ n =>
      by_cases e : w % 128 = 127
      · rw [waitLoop_cons, if_pos e]
        rcases h with ⟨w', hw', hne⟩ | ⟨h, -⟩
        · rcases List.mem_cons.mp hw' with rfl | hw'
          · exact absurd e hne
          · exact ih (Or.inl ⟨w', hw', hne⟩) (Nat.lt_of_succ_lt_succ hn)
        · cases h
      · exact ⟨w, by rw [waitLoop_cons, if_neg e]⟩

theorem ends_reports (ignored : Bool) (os : Os) : Ends (reports ignored os.child) os.status ↔ Noticed ignored os := by
  cases ignored with
  | false =>
    have hmem : os.child.final ∈ reports false os.child := List.mem_append_right _ (List.mem_singleton.mpr rfl)
    exact iff_of_true (Or.inl ⟨_, hmem, os.child.ended⟩) (fun h => by cases h)
  | true =>
    constructor
    · intro h _
      rcases h with ⟨w, hw, hne⟩ | h
      · exact absurd (os.child.stopped w hw) hne
      · exact h
    · intro h
      exact Or.inr (h rfl)

theorem parent_outcome (g : Globals) (ignored : Bool) (os : Os) (status : Int) (child : List Action) :
    ((g.background = false → Noticed ignored os) ∧ (parent g ignored os status child).outcome = .returns status) ∨
      (¬ (g.background = false → Noticed ignored os) ∧ (parent g ignored os status child).outcome = .hangs) := by
  unfold parent
  rw [← ends_reports]
  by_cases hb : g.background = true
  · exact Or.inl ⟨fun h => absurd hb (Bool.eq_false_iff.mp h), by rw [if_pos hb]⟩
  · rw [if_neg hb]
    cases hw : waitLoop ((reports ignored os.child).length + 1) (reports ignored os.child) os.status with
    | some s => exact Or.inl ⟨fun _ => ends_of_waitLoop hw, by simp only [hw]⟩
    | none =>
      refine Or.inr ⟨fun h => ?_, by simp only [hw]⟩
      obtain ⟨s, hs⟩ := waitLoop_of_ends (h (Bool.eq_false_iff.mpr hb)) (Nat.lt_succ_self _)
      rw [hs] at hw
      cases hw

/-! ## One line -/

/-- Of the builtins only `exit` returns 0. -/
theorem builtin_status {name : Token} {b : Token × (Env → List Token → Int × List Action)}
    (h : builtins.find? (·.1 = name) = some b) (args : List Token) : (b.2 E args).1 = 0 ↔ name = exitName := by
  have hname : b.1 = name := by simpa using List.find?_some h
  have hmem := List.mem_of_find?_eq_some h
  rw [← hname]
  simp only [builtins, List.mem_cons, List.not_mem_nil, or_false] at hmem
  rcases hmem with rfl | rfl | rfl | rfl
  · have : (cdFunc E args).1 = 1 := by
      unfold cdFunc
      repeat' split
      all_goals rfl
    simp [this, exitName]
  · simp [helpFunc, exitName]
  · simp [exitFunc]
  · have : (pwdFunc E args).1 ≠ 0 := by
      unfold pwdFunc
      split <;> decide
    simp [this, exitName]

theorem isExit_iff (inp : Input) : IsExit inp ↔ inp.line.command.head? = some exitName := by
  unfold IsExit Line.command
  cases inp.line.tokens with
  | nil => rfl
  | cons t ts =>
    by_cases e : t = amp
    · simp [e, amp, exitName]
    · simp [e]

variable {E} {st : St} {inp : Input}

theorem turn_eq (E : Env) (st : St) (hl : Legal inp) : ∃ g, g.background = decide (amp ∈ inp.line.tokens) ∧
    g.piping = decide (bar ∈ inp.line.command) ∧
    turn E st inp = (g, execute g st.ignored inp.os inp.line.command E) := by
  obtain ⟨g, hp, hb, hpipe, -⟩ := parseLine_spec st.g hl.fits
  exact ⟨g, hb, hpipe, by simp [turn, hl.line, hl.tokens, hp]⟩

theorem runsOn_of_exit (h : IsExit inp) (ho : (turn E st inp).2.outcome = .returns 0) : RunsOn E st inp :=
  ⟨iff_of_true ho h, fun hn => absurd h hn⟩

theorem runsOn_of_returns {status : Int} (h : ¬ IsExit inp) (hs : status ≠ 0)
    (ho : (turn E st inp).2.outcome = .returns status) : RunsOn E st inp := by
  refine ⟨iff_of_false (fun h0 => ?_) h, fun _ => ⟨status, hs, ho, ?_⟩⟩
  · rw [ho] at h0
    exact hs (Outcome.returns.inj h0)
  · unfold step
    simp only [ho, if_pos hs]

theorem runsOn_builtin {g : Globals} {name : Token} {rest : List Token}
    {b : Token × (Env → List Token → Int × List Action)} (hf : builtins.find? (·.1 = name) = some b)
    (hexit : IsExit inp ↔ name = exitName)
    (hturn : turn E st inp = (g, execute g st.ignored inp.os (name :: rest) E)) : RunsOn E st inp := by
  have ho : (turn E st inp).2.outcome = .returns (b.2 E (name :: rest)).1 := by
    rw [hturn]
    simp only [execute, hf]
  by_cases e : name = exitName
  · rw [(builtin_status E hf _).mpr e] at ho
    exact runsOn_of_exit (hexit.mpr e) ho
  · exact runsOn_of_returns (mt hexit.mp e) (mt (builtin_status E hf _).mp e) ho

/-- `launch_pipe` returns 0, if it returns. -/
theorem not_runsOn_pipe {g : Globals} {args : List Token} (hl : Legal inp) (hne : ¬ IsExit inp)
    (hturn : turn E st inp = (g, launchPipe g st.ignored inp.os args)) : ¬ RunsOn E st inp := by
  intro h
  obtain ⟨status, hs, ho, -⟩ := h.2 hne
  rw [hturn] at ho
  simp only [launchPipe, hl.leftCmd, hl.rightCmd, hl.fork, not_true_eq_false, or_self, if_false, if_true] at ho
  rcases parent_outcome g st.ignored inp.os 0 _ with ⟨-, h0⟩ | ⟨-, h0⟩
  · rw [h0] at ho
    exact hs (Outcome.returns.inj ho).symm
  · rw [h0] at ho
    cases ho

theorem runsOn_single_iff {g : Globals} {args : List Token} (hl : Legal inp) (hne : ¬ IsExit inp)
    (hturn : turn E st inp = (g, launch g st.ignored inp.os args)) :
    RunsOn E st inp ↔ (g.background = false → Noticed st.ignored inp.os) := by
  simp only [launch, hl.fork, if_true] at hturn
  rcases parent_outcome g st.ignored inp.os 1 _ with ⟨hn, h1⟩ | ⟨hn, h1⟩
  · exact iff_of_true (runsOn_of_returns hne Int.one_ne_zero (by rw [hturn]; exact h1)) hn
  · refine iff_of_false (fun h => ?_) hn
    obtain ⟨status, -, ho, -⟩ := h.2 hne
    rw [hturn, h1] at ho
    cases ho

theorem turn_iff (hl : Legal inp) : RunsOn E st inp ↔ Plain st inp := by
  obtain ⟨g, hb, hp, hturn⟩ := turn_eq E st hl
  have hexit := isExit_iff inp
  unfold Plain IsCommand
  cases hc : inp.line.command with
  | nil =>
    rw [hc] at hexit hturn
    refine iff_of_true (runsOn_of_returns (mt hexit.mp (by simp)) Int.one_ne_zero (by rw [hturn]; rfl)) ?_
    intro h
    obtain ⟨name, hname, -⟩ := h
    cases hname
  | cons name rest =>
    rw [hc] at hexit hturn hp
    simp only [List.head?_cons, Option.some.injEq] at hexit
    cases hf : builtins.find? (·.1 = name) with
    | some b =>
      refine iff_of_true (runsOn_builtin hf hexit hturn) (fun h => ?_)
      obtain ⟨n, hn, hnot⟩ := h
      have hname : b.1 = name := by simpa using List.find?_some hf
      exact absurd (hname.trans (Option.some.inj hn)) (hnot b (List.mem_of_find?_eq_some hf))
    | none =>
      have hcmd : ∀ b ∈ builtins, b.1 ≠ name := fun b hb => by simpa using List.find?_eq_none.mp hf b hb
      have hne : ¬ IsExit inp := fun h => hcmd (exitName, exitFunc) (by simp [builtins]) (hexit.mp h).symm
      have hex : execute g st.ignored inp.os (name :: rest) E =
          if g.piping then launchPipe g st.ignored inp.os (name :: rest)
          else launch g st.ignored inp.os (name :: rest) := by simp only [execute, hf]
      rw [hex] at hturn
      by_cases hbar : bar ∈ name :: rest
      · rw [if_pos (hp.trans (decide_eq_true hbar))] at hturn
        exact iff_of_false (not_runsOn_pipe hl hne hturn) fun h => (h ⟨name, rfl, hcmd⟩).1 hbar
      · rw [if_neg (by rw [hp]; simpa using hbar)] at hturn
        rw [runsOn_single_iff hl hne hturn, hb, decide_eq_false_iff_not]
        exact ⟨fun h _ => ⟨hbar, h⟩, fun h => (h ⟨name, rfl, hcmd⟩).2⟩

/-! ## Runs -/

variable (E)

theorem runs_until_exit_iff (inputs : List Input) (hl : ∀ inp ∈ inputs, Legal inp) :
    (∀ x ∈ trail (step E) start inputs, RunsOn E x.1 x.2) ↔ ∀ x ∈ trail (step E) start inputs, Plain x.1 x.2 := by
  have hturn : ∀ x ∈ trail (step E) start inputs, RunsOn E x.1 x.2 ↔ Plain x.1 x.2 :=
    fun x hx => turn_iff (hl _ (mem_of_mem_trail hx))
  exact forall₂_congr hturn

/-- The lines up to the first `exit`, with it. -/
def upToExit : List Input → List Input
  | [] => []
  | inp :: inputs => inp :: if IsExit inp then [] else upToExit inputs

/-- So these are the lines it reads. -/
theorem lines_read {st : St} {inputs : List Input} (h : ∀ x ∈ trail (step E) st inputs, RunsOn E x.1 x.2) :
    (trail (step E) st inputs).map Prod.snd = upToExit inputs := by
  induction inputs generalizing st with
  | nil => rfl
  | cons inp inputs ih =>
    have hr : RunsOn E st inp := h (st, inp) (List.mem_cons_self ..)
    by_cases e : IsExit inp
    · have hstop : step E st inp = none := by
        unfold step
        simp [hr.1.mpr e]
      rw [trail_stop _ hstop, upToExit, if_pos e]
      rfl
    · obtain ⟨status, -, -, hs⟩ := hr.2 e
      rw [trail_cons _ hs] at h ⊢
      rw [List.map_cons, ih (List.forall_mem_cons.mp h).2, upToExit, if_neg e]

/-! ## `ls | wc` -/

/-- All goes well, and the child ends at once. -/
def obliging : Os :=
  ⟨true, true, true, true, List.replicate lineSize none, List.replicate lineSize none, true, true, true, 0,
    ⟨[], 0, by simp, by decide⟩⟩

def typed (text : String) : Input := ⟨⟨text.toList, []⟩, obliging⟩

def bare : Env := ⟨fun _ => none⟩

theorem typed_legal {text : String} (h : (typed text).line.tokens.length < tokSize) : Legal (typed text) :=
  ⟨h, rfl, rfl, rfl, rfl, rfl⟩

theorem obliging_noticed (ignored : Bool) : Noticed ignored obliging := fun _ => ⟨rfl, by decide⟩

theorem typed_plain {text : String} (h : bar ∉ (typed text).line.command) (st : St) : Plain st (typed text) :=
  fun _ => ⟨h, fun _ => obliging_noticed st.ignored⟩

theorem pipe_leaves : Legal (typed "ls | wc\n") ∧ ¬ IsExit (typed "ls | wc\n") ∧
    (turn bare start (typed "ls | wc\n")).2.outcome = .returns 0 ∧ ¬ RunsOn bare start (typed "ls | wc\n") := by
  have hne : ¬ IsExit (typed "ls | wc\n") := by decide
  have ho : (turn bare start (typed "ls | wc\n")).2.outcome = .returns 0 := by decide
  exact ⟨typed_legal (by decide), hne, ho, fun h => hne (h.1.mp ho)⟩

-- with SIGCHLD ignored and a `status` that reads as a stop, the parent of `ls` waits for ever
example : (turn bare ⟨start.g, true⟩ ⟨(typed "ls\n").line, { obliging with status := 127 }⟩).2.outcome = .hangs := by
  decide

theorem runs_until_exit_twice : (trail (step bare) start [typed "ls\n", typed "exit\n"]).length = 2 ∧
    ∀ x ∈ trail (step bare) start [typed "ls\n", typed "exit\n"], RunsOn bare x.1 x.2 := by
  refine ⟨by decide, (runs_until_exit_iff bare _ ?_).mpr fun x hx => ?_⟩
  · intro inp h
    rcases List.mem_pair.mp h with rfl | rfl
    · exact typed_legal (by decide)
    · exact typed_legal (by decide)
  · rcases List.mem_pair.mp (mem_of_mem_trail hx) with e | e <;> rw [e]
    · exact typed_plain (by decide) _
    · exact typed_plain (by decide) _

end CS5600.Shell
