/-
  CS5600.Shell.Argv — which argument lists a line of the mini-shell runs.

  (1) `plan_of_command`: a line `w1 ... wm` runs the one list `w1 ... wm`, a line
  `w1 ... wm | v1 ... vk` the two lists left and right of the bar, with `background` set when a `&`
  ends the line; separators and earlier flags make no difference.

  (2) `delivered_iff`: for any line, the lists it runs are non-empty, free of operators and hold
  each word of the line once, file names apart, if and only if the words are `Served`: one pipe
  or one redirection that acts, with words on its left and nothing but file names behind a
  redirection. `both_redirections` is `cat < in > out`: `redirect_write` is taken, it cuts at `>`,
  and `cat` gets `<` and `in` (HOMEWORK4.txt, 2).
-/

import CS5600.Shell.ShellLoop

namespace CS5600.Shell

open CS5600.Lib.Words

/-! ## What a line runs -/

def Action.argv? : Action → Option (List Token)
  | .execvp argv => some argv
  | _ => none

def argvs (actions : List Action) : List (List Token) := actions.filterMap Action.argv?

/-- Every call of the system succeeds, the two arrays of `launch_pipe` have LINE_LENGTH slots. -/
structure Granted (inp : Input) : Prop extends Legal inp where
  fork2 : inp.os.fork2 = true
  leftSlots : inp.os.leftSlots.length = lineSize
  rightSlots : inp.os.rightSlots.length = lineSize

def operators : List Token := [bar, less, greater, amp]

/-- The copying loop leaves in the array the words it was given, whatever was there. -/
theorem argv_copyCmd (args : List Token) : ∀ (n i : Nat) (done : List Token) (cmd : List (Option Token)),
    cmd.take done.length = done.map some → i + n ≤ args.length → done.length + n < cmd.length →
    argv (copyCmd args n i done.length cmd) = done ++ (args.drop i).take n := by
  intro n
  induction n with
  | zero =>
    intro i done cmd hdone _ hlen
    have hset : cmd.set done.length none = done.map some ++ none :: cmd.drop (done.length + 1) := by
      rw [List.set_eq_take_append_cons_drop, if_pos (by omega), hdone]
    rw [copyCmd, argv, hset, List.takeWhile_append_of_pos (by simp)]
    simp
  | succ n ih =>
    intro i done cmd hdone hi hlen
    have hget : args[i]? = some args[i] := List.getElem?_eq_getElem (by omega)
    have hdrop : args.drop i = args[i] :: args.drop (i + 1) := List.drop_eq_getElem_cons (by omega)
    have htake : (cmd.set done.length (some args[i])).take (done ++ [args[i]]).length = (done ++ [args[i]]).map some := by
      rw [List.length_append, List.length_singleton, List.take_add_one, List.take_set_of_le (Nat.le_refl _), hdone,
        List.getElem?_set_self (by omega)]
      simp
    have hrec := ih (i + 1) (done ++ [args[i]]) (cmd.set done.length (some args[i])) htake (by omega)
      (by simpa [Nat.add_right_comm, Nat.add_assoc] using hlen)
    rw [copyCmd, hget, hdrop, List.take_succ_cons]
    simpa using hrec

theorem argvs_parent (g : Globals) (ignored : Bool) (os : Os) (status : Int) (child : List Action) :
    argvs (parent g ignored os status child).actions = argvs child := by
  unfold parent argvs
  dsimp only
  split
  · simp [Action.argv?]
  · split <;> simp [Action.argv?]

section Turn

variable {E : Env} {st : St} {inp : Input}

/-- The flags with which the words of a line are run. -/
def flagsOf (st : St) (inp : Input) : Globals :=
  { marks st.g.cleared 0 inp.line.command with
    background := decide (amp ∈ inp.line.tokens), lineLength := inp.line.command.length }

theorem turn_granted (E : Env) (st : St) (h : Granted inp) :
    turn E st inp = (flagsOf st inp, execute (flagsOf st inp) st.ignored inp.os inp.line.command E) := by
  have hp := parseLine_eq st.g h.fits
  simp [turn, h.line, h.tokens, hp, flagsOf]

/-- The first word is no builtin. -/
def NotBuiltin (inp : Input) : Prop := ∀ b ∈ builtins, inp.line.tokens.head? ≠ some b.1

instance (inp : Input) : Decidable (NotBuiltin inp) := inferInstanceAs (Decidable (∀ b ∈ builtins, _ ≠ _))

theorem execute_command {g : Globals} {ignored : Bool} {os : Os} {args : List Token} (hne : args ≠ [])
    (hb : ∀ b ∈ builtins, args.head? ≠ some b.1) :
    execute g ignored os args E = if g.piping then launchPipe g ignored os args else launch g ignored os args := by
  obtain ⟨name, rest, rfl⟩ := List.exists_cons_of_ne_nil hne
  have hf : builtins.find? (·.1 = name) = none := by
    rw [List.find?_eq_none]
    intro b hmem e
    exact hb b hmem (by rw [decide_eq_true_eq.mp e]; rfl)
  simp only [execute, hf]

theorem command_head (hb : NotBuiltin inp) (b : Token × (Env → List Token → Int × List Action)) (hmem : b ∈ builtins) :
    inp.line.command.head? ≠ some b.1 := by
  have hn := hb b hmem
  unfold Line.command
  cases htok : inp.line.tokens with
  | nil => simp
  | cons t ts =>
    rw [htok] at hn
    by_cases e : t = amp
    · simp [e]
    · simpa [e] using hn

/-! The command as `parse_line` returned it is cut at its last `|`, at the redirection that acts,
    or is run as it is. -/

theorem argvs_cut {os : Os} (ho : os.opens = true) (ws : List Token) (op : Token) (rest : List Token) (mode : Mode) :
    argvs (redirect os (ws ++ op :: rest) ws.length mode) = if rest = [] then [] else [ws] := by
  have hfile : (ws ++ op :: rest)[ws.length + 1]? = rest.head? := by
    rw [List.getElem?_append_right (by omega), Nat.add_sub_cancel_left, List.getElem?_cons_succ, List.head?_eq_getElem?]
  unfold redirect
  rw [hfile]
  cases rest with
  | nil => rfl
  | cons f rest =>
    rw [if_neg (List.cons_ne_nil _ _)]
    simp only [List.head?_cons, ho, if_true, List.take_left]
    rfl

section Shapes

variable (h : Granted inp) (hb : NotBuiltin inp)

include h hb

theorem argvs_pipe {ws vs : List Token} (hc : inp.line.command = ws ++ bar :: vs) (hvs : bar ∉ vs) :
    argvs (turn E st inp).2.actions = [vs, ws] := by
  have hflag : (flagsOf st inp).pipe = (true, ws.length) := by
    have := marks_last mark_pipe st.g.cleared 0 ws hvs
    rwa [← hc, Nat.zero_add] at this
  have hp : (flagsOf st inp).piping = true := congrArg Prod.fst hflag
  have hposn : (flagsOf st inp).pipePosn = ws.length := congrArg Prod.snd hflag
  have hrounds : (flagsOf st inp).lineLength - (ws.length + 1) = vs.length := by
    simp only [flagsOf, hc, List.length_append, List.length_cons]
    omega
  have hfits := command_length_lt h.fits
  rw [hc, List.length_append, List.length_cons, tokSize] at hfits
  have hl := argv_copyCmd (ws ++ bar :: vs) ws.length 0 [] inp.os.leftSlots rfl (by simp)
    (by rw [h.leftSlots, lineSize, List.length_nil]; omega)
  have hr := argv_copyCmd (ws ++ bar :: vs) vs.length (ws.length + 1) [] inp.os.rightSlots rfl
    (by simp; omega) (by rw [h.rightSlots, lineSize, List.length_nil]; omega)
  rw [List.length_nil] at hl hr
  rw [turn_granted E st h, execute_command (by rw [hc]; simp) (command_head hb), if_pos hp]
  simp only [launchPipe, h.leftCmd, h.rightCmd, h.fork, h.fork2, not_true_eq_false, or_self, if_false, if_true,
    argvs_parent, hposn, hrounds, hc, hl, hr]
  simp [argvs, Action.argv?]

/-- The redirection at which the command is cut, with the words before it and those behind. -/
def Acts (op : Token) (ws rest : List Token) : Prop :=
  bar ∉ ws ++ rest ∧ op ∉ rest ∧ (op = greater ∨ op = less ∧ greater ∉ ws ++ rest)

theorem launch_of_command (hne : inp.line.command ≠ []) (hbar : bar ∉ inp.line.command) :
    (turn E st inp).2 = launch (flagsOf st inp) st.ignored inp.os inp.line.command := by
  have hp : (flagsOf st inp).piping = false :=
    congrArg Prod.fst (marks_none mark_pipe st.g.cleared 0 hbar)
  rw [turn_granted E st h, execute_command hne (command_head hb), if_neg (by rw [hp]; decide)]

theorem argvs_redirect (ho : inp.os.opens = true) {op : Token} {ws rest : List Token} (ha : Acts op ws rest)
    (hc : inp.line.command = ws ++ op :: rest) :
    argvs (turn E st inp).2.actions = if rest = [] then [] else [ws] := by
  obtain ⟨hbar, hrest, hop⟩ := ha
  have hne : inp.line.command ≠ [] := by rw [hc]; simp
  have hnobar : bar ∉ inp.line.command := by
    rw [hc]
    rcases hop with rfl | ⟨rfl, -⟩
    · simpa [bar, greater] using hbar
    · simpa [bar, less] using hbar
  rw [launch_of_command h hb hne hnobar]
  simp only [launch, h.fork, if_true, argvs_parent]
  rcases hop with rfl | ⟨rfl, hgt⟩
  · have hflag : (flagsOf st inp).write = (true, ws.length) := by
      have := marks_last mark_write st.g.cleared 0 ws hrest
      rwa [← hc, Nat.zero_add] at this
    have hr : (flagsOf st inp).right = true := congrArg Prod.fst hflag
    have hposn : (flagsOf st inp).posnRight = ws.length := congrArg Prod.snd hflag
    rw [if_pos hr, redirectWrite, hposn, hc]
    exact argvs_cut ho ..
  · have hno : greater ∉ inp.line.command := by
      rw [hc]
      simpa [greater, less] using hgt
    have hr : (flagsOf st inp).right = false := congrArg Prod.fst (marks_none mark_write st.g.cleared 0 hno)
    have hflag : (flagsOf st inp).read = (true, ws.length) := by
      have := marks_last mark_read st.g.cleared 0 ws hrest
      rwa [← hc, Nat.zero_add] at this
    have hl : (flagsOf st inp).left = true := congrArg Prod.fst hflag
    have hposn : (flagsOf st inp).posnLeft = ws.length := congrArg Prod.snd hflag
    rw [if_neg (by rw [hr]; decide), if_pos hl, redirectRead, hposn, hc]
    exact argvs_cut ho ..

theorem argvs_plain (hc : ∀ t ∈ inp.line.command, t ∉ operators) :
    argvs (turn E st inp).2.actions = if inp.line.command = [] then [] else [inp.line.command] := by
  have hnot : ∀ op ∈ operators, op ∉ inp.line.command := fun op hop hmem => hc op hmem hop
  by_cases hne : inp.line.command = []
  · rw [turn_granted E st h, hne, if_pos rfl]
    rfl
  · have hr : (flagsOf st inp).right = false :=
      congrArg Prod.fst (marks_none mark_write st.g.cleared 0 (hnot greater (by simp [operators])))
    have hl : (flagsOf st inp).left = false :=
      congrArg Prod.fst (marks_none mark_read st.g.cleared 0 (hnot less (by simp [operators])))
    rw [launch_of_command h hb hne (hnot bar (by simp [operators])), if_neg hne]
    simp only [launch, h.fork, if_true, argvs_parent, hr, hl, Bool.false_eq_true, if_false]
    rfl

end Shapes

end Turn

/-! ## (1) The lines of the grammar -/

/-- `w1 ... wm` or `w1 ... wm | v1 ... vk`, with or without a `&` at the end. -/
structure Command where
  left : List Token
  right : Option (List Token)
  background : Bool
  left_ne : left ≠ []
  right_ne : ∀ vs ∈ right, vs ≠ []
  left_words : ∀ t ∈ left, t ∉ operators
  right_words : ∀ vs ∈ right, ∀ t ∈ vs, t ∉ operators
  not_builtin : ∀ b ∈ builtins, left.head? ≠ some b.1

namespace Command

def words (c : Command) : List Token := c.left ++ c.right.elim [] (bar :: ·)

def tokens (c : Command) : List Token := c.words ++ if c.background then [amp] else []

/-- The line is the command with separators around its tokens, in a buffer with a byte to spare. -/
structure Typed (c : Command) (l : Line) : Prop where
  spaced : Spaced isDelimiter c.tokens l.text
  text : nul ∉ l.text
  spare : l.spare ≠ []

theorem amp_notMem (c : Command) : amp ∉ c.words := by
  intro h
  rcases List.mem_append.mp h with h | h
  · exact c.left_words amp h (by simp [operators])
  · cases hr : c.right with
    | none => rw [hr] at h; cases h
    | some vs =>
      rw [hr] at h
      rcases List.mem_cons.mp h with h | h
      · cases h
      · exact c.right_words vs hr amp h (by simp [operators])

theorem Typed.tokens_eq {c : Command} {l : Line} (h : c.Typed l) : l.tokens = c.tokens := by
  unfold Line.tokens strtok Line.buf
  rw [cstr_append h.text]
  exact h.spaced.words

theorem Typed.command_eq {c : Command} {l : Line} (h : c.Typed l) : l.command = c.words := by
  have hall : ∀ t ∈ c.words, decide (t ≠ amp) = true := by
    intro t ht
    exact decide_eq_true fun e => c.amp_notMem (e ▸ ht)
  unfold Line.command
  rw [h.tokens_eq, tokens, List.takeWhile_append_of_pos hall]
  cases c.background <;> simp

end Command

theorem plan_of_command (E : Env) (st : St) (inp : Input) (h : Granted inp) (c : Command) (ht : c.Typed inp.line) :
    (turn E st inp).1.background = c.background ∧
      argvs (turn E st inp).2.actions = c.right.elim [c.left] fun vs => [vs, c.left] := by
  have hb : NotBuiltin inp := by
    intro b hmem
    obtain ⟨w, ws, hw⟩ := List.exists_cons_of_ne_nil c.left_ne
    have := c.not_builtin b hmem
    rw [ht.tokens_eq, Command.tokens, Command.words, hw]
    rwa [hw] at this
  constructor
  · rw [turn_granted E st h]
    show decide (amp ∈ inp.line.tokens) = c.background
    rw [ht.tokens_eq, Command.tokens]
    cases hbg : c.background <;> simp [c.amp_notMem]
  · have hc := ht.command_eq
    cases hr : c.right with
    | none =>
      have hw : inp.line.command = c.left := by rw [hc, Command.words, hr]; exact List.append_nil _
      rw [argvs_plain h hb (by rw [hw]; exact c.left_words), hw, if_neg c.left_ne]
      rfl
    | some vs =>
      have hw : inp.line.command = c.left ++ bar :: vs := by rw [hc, Command.words, hr]; rfl
      exact argvs_pipe h hb hw fun hm => c.right_words vs hr bar hm (by simp [operators])

theorem plan_of_command_pipe : ∃ c : Command, c.left = ["ls".toList] ∧ c.right = some ["wc".toList] ∧
    c.background = true ∧ c.Typed ⟨"\t ls |  wc &\n".toList, [nul]⟩ ∧
    argvs (turn bare start ⟨⟨"\t ls |  wc &\n".toList, [nul]⟩, obliging⟩).2.actions = [["wc".toList], ["ls".toList]] := by
  let c : Command := ⟨["ls".toList], some ["wc".toList], true, by decide, by simp, by decide, by simp; decide, by decide⟩
  have ht : c.Typed ⟨"\t ls |  wc &\n".toList, [nul]⟩ := by
    have h0 : Spaced isDelimiter [] ['\n'] := .nil (by simp [isDelimiter])
    have h1 : Spaced isDelimiter [amp] ([' '] ++ amp ++ ['\n']) :=
      .cons (by simp [isDelimiter]) (by decide) (by simp [isDelimiter, amp]) h0 (by simp)
    have h2 : Spaced isDelimiter ["wc".toList, amp] ([' ', ' '] ++ "wc".toList ++ _) :=
      .cons (by simp [isDelimiter]) (by decide) (by simp [isDelimiter]) h1 (by simp [isDelimiter])
    have h3 : Spaced isDelimiter [bar, "wc".toList, amp] ([' '] ++ bar ++ _) :=
      .cons (by simp [isDelimiter]) (by decide) (by simp [isDelimiter, bar]) h2 (by simp [isDelimiter])
    have h4 : Spaced isDelimiter ["ls".toList, bar, "wc".toList, amp] (['\t', ' '] ++ "ls".toList ++ _) :=
      .cons (by simp [isDelimiter]) (by decide) (by simp [isDelimiter]) h3 (by simp [isDelimiter])
    exact ⟨h4, by decide, by decide⟩
  have hg : Granted ⟨⟨"\t ls |  wc &\n".toList, [nul]⟩, obliging⟩ :=
    { fits := by decide, line := rfl, tokens := rfl, leftCmd := rfl, rightCmd := rfl, fork := rfl, fork2 := rfl,
      leftSlots := List.length_replicate, rightSlots := List.length_replicate }
  exact ⟨c, rfl, rfl, rfl, ht, (plan_of_command bare start _ hg c ht).2⟩

/-! ## (2) Any line -/

/-- The words that are no operators and no file names, `prev` the one before them. -/
def wordsAfter : Token → List Token → List Token
  | _, [] => []
  | prev, t :: ts => if t ∈ operators ∨ prev = less ∨ prev = greater then wordsAfter t ts else t :: wordsAfter t ts

def commandWords (ts : List Token) : List Token := wordsAfter [] ts

/-- Every list a program gets is non-empty and free of operators, and together they hold each
    occurrence of a command word once. -/
def Delivered (argvs : List (List Token)) (ts : List Token) : Prop :=
  (∀ argv ∈ argvs, argv ≠ [] ∧ ∀ t ∈ argv, t ∉ operators) ∧ argvs.flatten.Perm (commandWords ts)

instance (argvs : List (List Token)) (ts : List Token) : Decidable (Delivered argvs ts) :=
  inferInstanceAs (Decidable (_ ∧ _))

def Simple (ws : List Token) : Prop := ws ≠ [] ∧ ∀ t ∈ ws, t ∉ operators

inductive Served : List Token → Prop
  | words {ts : List Token} (h : ∀ t ∈ ts, t ∉ operators) : Served ts
  | pipe {ws vs : List Token} (hl : Simple ws) (hr : Simple vs) : Served (ws ++ bar :: vs)
  /-- nothing but file names behind the redirection -/
  | redirect {op : Token} {ws rest : List Token} (ha : Acts op ws rest) (hl : Simple ws) (hne : rest ≠ [])
      (hr : commandWords (op :: rest) = []) : Served (ws ++ op :: rest)
  /-- no file name, so nothing is run, and there is nothing to run -/
  | refused {op : Token} {ws : List Token} (ha : Acts op ws []) (hw : commandWords (ws ++ [op]) = []) :
      Served (ws ++ [op])

theorem wordsAfter_simple (prev : Token) (hprev : prev ≠ less ∧ prev ≠ greater) {ws : List Token}
    (hw : ∀ t ∈ ws, t ∉ operators) (rest : List Token) :
    ∃ p, p ≠ less ∧ p ≠ greater ∧ wordsAfter prev (ws ++ rest) = ws ++ wordsAfter p rest := by
  induction ws generalizing prev with
  | nil => exact ⟨prev, hprev.1, hprev.2, rfl⟩
  | cons t ws ih =>
    rw [List.forall_mem_cons] at hw
    have ht : t ≠ less ∧ t ≠ greater := by
      constructor
      · intro e
        exact hw.1 (by simp [operators, e])
      · intro e
        exact hw.1 (by simp [operators, e])
    obtain ⟨p, h1, h2, h3⟩ := ih t ht hw.2
    refine ⟨p, h1, h2, ?_⟩
    simp only [List.cons_append, wordsAfter, hw.1, hprev.1, hprev.2, or_self, if_false, h3]

theorem commandWords_simple {ws : List Token} (hw : ∀ t ∈ ws, t ∉ operators) : commandWords ws = ws := by
  obtain ⟨p, -, -, h⟩ := wordsAfter_simple [] (by decide) hw []
  simpa [commandWords, wordsAfter] using h

theorem commandWords_cut {ws : List Token} (hw : ∀ t ∈ ws, t ∉ operators) {op : Token} (hop : op ∈ operators)
    (rest : List Token) : commandWords (ws ++ op :: rest) = ws ++ wordsAfter op rest := by
  obtain ⟨p, -, -, h⟩ := wordsAfter_simple [] (by decide) hw (op :: rest)
  rw [commandWords, h, wordsAfter, if_pos (Or.inl hop)]

theorem commandWords_operator {op : Token} (hop : op ∈ operators) (rest : List Token) :
    commandWords (op :: rest) = wordsAfter op rest := by
  rw [commandWords, wordsAfter, if_pos (Or.inl hop)]

theorem Acts.mem_operators {op : Token} {ws rest : List Token} (h : Acts op ws rest) : op ∈ operators := by
  rcases h.2.2 with rfl | ⟨rfl, -⟩ <;> simp [operators]

theorem delivered_nil (ts : List Token) : Delivered [] ts ↔ commandWords ts = [] := by
  constructor
  · intro h
    exact List.nil_perm.mp h.2
  · intro h
    exact ⟨fun _ hm => absurd hm List.not_mem_nil, List.nil_perm.mpr h⟩

theorem delivered_words {ts : List Token} (h : ∀ t ∈ ts, t ∉ operators) :
    Delivered (if ts = [] then [] else [ts]) ts := by
  by_cases e : ts = []
  · rw [if_pos e, delivered_nil, e]
    rfl
  · rw [if_neg e]
    refine ⟨?_, ?_⟩
    · intro argv hmem
      rw [List.mem_singleton.mp hmem]
      exact ⟨e, h⟩
    · rw [commandWords_simple h, List.flatten_singleton]

theorem delivered_pipe (ws vs : List Token) : Delivered [vs, ws] (ws ++ bar :: vs) ↔ Simple ws ∧ Simple vs := by
  have hbar : bar ∈ operators := by simp [operators]
  constructor
  · intro h
    exact ⟨h.1 ws (by simp), h.1 vs (by simp)⟩
  · intro h
    obtain ⟨hl, hr⟩ := h
    refine ⟨?_, ?_⟩
    · intro argv hmem
      rcases List.mem_pair.mp hmem with rfl | rfl
      · exact hr
      · exact hl
    · obtain ⟨p, -, -, hv⟩ := wordsAfter_simple bar (by decide) hr.2 []
      rw [List.append_nil, wordsAfter, List.append_nil] at hv
      rw [commandWords_cut hl.2 hbar, hv]
      simpa using List.perm_append_comm

theorem delivered_redirect {op : Token} (hop : op ∈ operators) (ws rest : List Token) :
    Delivered [ws] (ws ++ op :: rest) ↔ Simple ws ∧ commandWords (op :: rest) = [] := by
  rw [commandWords_operator hop]
  constructor
  · intro h
    have hs : Simple ws := h.1 ws (by simp)
    have hlen := h.2.length_eq
    rw [commandWords_cut hs.2 hop, List.flatten_singleton, List.length_append] at hlen
    exact ⟨hs, List.length_eq_zero_iff.mp (by omega)⟩
  · intro h
    obtain ⟨hs, hw⟩ := h
    refine ⟨?_, ?_⟩
    · intro argv hmem
      rw [List.mem_singleton.mp hmem]
      exact hs
    · rw [commandWords_cut hs.2 hop, hw, List.append_nil, List.flatten_singleton]

theorem mem_around {a op : Token} {ws rest : List Token} (h : a ∈ ws ++ rest) : a ∈ ws ++ op :: rest := by
  rcases List.mem_append.mp h with h | h
  · exact List.mem_append_left _ h
  · exact List.mem_append_right _ (List.mem_cons_of_mem _ h)

/-- A command has no operators, or is cut at its last `|`, or at the redirection that acts. -/
theorem command_shape {ts : List Token} (h : amp ∉ ts) : (∀ t ∈ ts, t ∉ operators) ∨
    (∃ ws vs, ts = ws ++ bar :: vs ∧ bar ∉ vs) ∨ ∃ op ws rest, Acts op ws rest ∧ ts = ws ++ op :: rest := by
  by_cases hbar : bar ∈ ts
  · exact Or.inr (Or.inl (exists_last hbar))
  by_cases hgt : greater ∈ ts
  · obtain ⟨ws, rest, rfl, hrest⟩ := exists_last hgt
    refine Or.inr (Or.inr ⟨greater, ws, rest, ⟨?_, hrest, Or.inl rfl⟩, rfl⟩)
    exact fun hm => hbar (mem_around hm)
  by_cases hlt : less ∈ ts
  · obtain ⟨ws, rest, rfl, hrest⟩ := exists_last hlt
    refine Or.inr (Or.inr ⟨less, ws, rest, ⟨?_, hrest, Or.inr ⟨rfl, ?_⟩⟩, rfl⟩)
    · exact fun hm => hbar (mem_around hm)
    · exact fun hm => hgt (mem_around hm)
  · left
    intro t ht hop
    simp only [operators, List.mem_cons, List.not_mem_nil, or_false] at hop
    rcases hop with rfl | rfl | rfl | rfl
    · exact hbar ht
    · exact hlt ht
    · exact hgt ht
    · exact h ht

theorem delivered_iff (E : Env) (st : St) (inp : Input) (h : Granted inp) (ho : inp.os.opens = true)
    (hb : NotBuiltin inp) :
    Delivered (argvs (turn E st inp).2.actions) inp.line.command ↔ Served inp.line.command := by
  constructor
  · intro hd
    have hamp : amp ∉ inp.line.command := by
      intro hm
      have := List.mem_takeWhile_imp hm
      simp at this
    rcases command_shape hamp with hw | ⟨ws, vs, hc, hvs⟩ | ⟨op, ws, rest, ha, hc⟩
    · exact Served.words hw
    · rw [argvs_pipe h hb hc hvs, hc, delivered_pipe] at hd
      rw [hc]
      exact Served.pipe hd.1 hd.2
    · rw [argvs_redirect h hb ho ha hc, hc] at hd
      rw [hc]
      by_cases e : rest = []
      · subst e
        rw [if_pos rfl, delivered_nil] at hd
        exact Served.refused ha hd
      · rw [if_neg e, delivered_redirect ha.mem_operators] at hd
        exact Served.redirect ha hd.1 e hd.2
  · intro hs
    generalize hc : inp.line.command = ts at hs ⊢
    cases hs with
    | words hw =>
      rw [argvs_plain h hb (by rw [hc]; exact hw), hc]
      exact delivered_words hw
    | pipe hl hr =>
      rw [argvs_pipe h hb hc fun hm => hr.2 bar hm (by simp [operators])]
      exact (delivered_pipe ..).mpr ⟨hl, hr⟩
    | redirect ha hl hne hr =>
      rw [argvs_redirect h hb ho ha hc, if_neg hne]
      exact (delivered_redirect ha.mem_operators ..).mpr ⟨hl, hr⟩
    | refused ha hw =>
      rw [argvs_redirect h hb ho ha hc, if_pos rfl]
      exact (delivered_nil _).mpr hw

theorem typed_granted {text : String} (h : (typed text).line.tokens.length < tokSize) : Granted (typed text) :=
  { typed_legal h with
    fork2 := rfl
    leftSlots := List.length_replicate
    rightSlots := List.length_replicate }

theorem both_redirections : Granted (typed "cat < in > out\n") ∧ NotBuiltin (typed "cat < in > out\n") ∧
    argvs (turn bare start (typed "cat < in > out\n")).2.actions = [["cat".toList, less, "in".toList]] ∧
    ¬ Delivered (argvs (turn bare start (typed "cat < in > out\n")).2.actions) (typed "cat < in > out\n").line.command := by
  exact ⟨typed_granted (by decide), by decide, by decide, by decide⟩

-- behind the redirection that acts a word is lost, unless it is a file name
example : argvs (turn bare start (typed "ls > out -l\n")).2.actions = [["ls".toList]] := by decide

theorem delivered_iff_one :
    Delivered (argvs (turn bare start (typed "cat > out < in\n")).2.actions) (typed "cat > out < in\n").line.command := by
  refine (delivered_iff bare start _ (typed_granted (by decide)) rfl (by decide)).mpr ?_
  have hc : (typed "cat > out < in\n").line.command = ["cat".toList] ++ greater :: ["out".toList, less, "in".toList] := by
    decide
  rw [hc]
  exact Served.redirect ⟨by decide, by decide, Or.inl rfl⟩ ⟨by decide, by decide⟩ (by decide) (by decide)

end CS5600.Shell
