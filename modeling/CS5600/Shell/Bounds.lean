/-
  CS5600.Shell.Bounds — the stores of the mini-shell's parser.

  For a line in the buffer of `getline` (its capacity is the length of `Line.buf`): the offset
  `string_trim` stores its NUL at, the indices of `tokens` that `parse_line` stores at, and those
  of `left_cmd` and `right_cmd` when `execute` gets to `launch_pipe`.

  Proved (`stores_in_bounds_iff`): all of them lie within their arrays exactly when there is a byte behind
  the NUL that ends the line and fewer than 64 words stand before the first `&`. The trim steps
  back from a NUL, so it stores one byte behind it: with 79 characters that byte is the 81st of
  the 80 that `read_line` allocates (`full_buffer`).
-/

import CS5600.Shell.ShellLoop

namespace CS5600.Shell

/-! ## The stores -/

def stringTrimStores (buf : List Char) : List Nat := [backOver buf (strlen buf) + 1]

def parseTokensStores : Nat → List Token → List Nat
  | posn, [] => [posn]
  | posn, token :: rest => if token = amp then [posn] else posn :: parseTokensStores (posn + 1) rest

def parseLineStores (line : Line) : List Nat :=
  let (head, buf) := stringTrim line.buf
  parseTokensStores 0 (strtok (buf.drop head))

/-- A copying loop of `launch_pipe` and its NULL. -/
def copyCmdStores : Nat → Nat → List Nat
  | 0, j => [j]
  | n + 1, j => j :: copyCmdStores n (j + 1)

/-- Into `left_cmd` and into `right_cmd`. -/
def launchPipeStores (g : Globals) : List Nat × List Nat :=
  (copyCmdStores g.pipePosn 0, copyCmdStores (g.lineLength - (g.pipePosn + 1)) 0)

/-- `execute` gets to `launch_pipe`. -/
def Pipes (g : Globals) (args : List Token) : Prop :=
  ∃ name ∈ args.head?, builtins.find? (·.1 = name) = none ∧ g.piping = true

structure InBounds (g : Globals) (line : Line) : Prop where
  trim : ∀ p ∈ stringTrimStores line.buf, p < line.buf.length
  tokens : ∀ p ∈ parseLineStores line, p < tokSize
  cmds : ∀ g' args, parseLine g line = some (g', args) → Pipes g' args →
    (∀ p ∈ (launchPipeStores g').1, p < lineSize) ∧ ∀ p ∈ (launchPipeStores g').2, p < lineSize

/-! ## They are the stores of the model -/

/-- `parse_line` has a result exactly when its stores stay in `tokens`. -/
theorem parseTokens_some_iff (g : Globals) (posn : Nat) (ts : List Token) :
    (parseTokens g posn ts).isSome ↔ ∀ p ∈ parseTokensStores posn ts, p < tokSize := by
  induction ts generalizing g posn with
  | nil =>
    rw [parseTokens, parseTokensStores, List.forall_mem_singleton]
    split <;> simp [*]
  | cons t ts ih =>
    rw [parseTokens, parseTokensStores]
    by_cases hp : posn < tokSize
    · rw [if_pos hp]
      by_cases e : t = amp
      · simp [e, hp]
      · rw [if_neg e, if_neg e, List.forall_mem_cons, ← ih (mark g posn t) (posn + 1)]
        cases parseTokens (mark g posn t) (posn + 1) ts <;> simp [hp]
    · rw [if_neg hp]
      refine iff_of_false (by simp) fun h => hp (h posn ?_)
      split <;> simp

theorem mem_copyCmdStores {n j p : Nat} : p ∈ copyCmdStores n j ↔ j ≤ p ∧ p ≤ j + n := by
  induction n generalizing j with
  | zero =>
    rw [copyCmdStores, List.mem_singleton]
    omega
  | succ n ih =>
    rw [copyCmdStores, List.mem_cons, ih]
    omega

/-- A copying loop changes the array at its stores only, to the words and the NULL behind them. -/
theorem copyCmd_stores (args : List Token) (n i j p : Nat) (cmd : List (Option Token)) :
    (copyCmd args n i j cmd)[p]? =
      if p ∈ copyCmdStores n j then cmd[p]?.map fun _ => if p < j + n then args[i + (p - j)]? else none else cmd[p]? := by
  rw [if_congr mem_copyCmdStores rfl rfl]
  induction n generalizing i j cmd with
  | zero =>
    rw [copyCmd, List.getElem?_set']
    by_cases e : j = p
    · subst e
      simp
      rfl
    · rw [if_neg e, if_neg (by omega)]
  | succ n ih =>
    rw [copyCmd, ih, List.getElem?_set']
    by_cases e : j = p
    · subst e
      simp
      rfl
    · rw [if_neg e]
      by_cases h : j ≤ p ∧ p ≤ j + (n + 1)
      · rw [if_pos (by omega), if_pos h, show i + 1 + (p - (j + 1)) = i + (p - j) by omega,
          show j + 1 + n = j + (n + 1) by omega]
      · rw [if_neg (by omega), if_neg h]

theorem execute_pipes {g : Globals} {args : List Token} (h : Pipes g args) (ignored : Bool) (os : Os) (E : Env) :
    execute g ignored os args E = launchPipe g ignored os args := by
  obtain ⟨name, hname, hf, hp⟩ := h
  cases args with
  | nil => cases hname
  | cons n rest =>
    cases hname
    simp only [execute, hf, if_pos hp]

/-! ## The bounds -/

theorem stringTrimStores_eq {buf : List Char} (h : nul ∈ buf) : stringTrimStores buf = [strlen buf + 1] := by
  obtain ⟨-, rest, hb⟩ := cstr_split h
  have hback : backOver buf (strlen buf) = strlen buf := by
    have := backOver_strlen (cstr buf) rest
    rwa [← hb] at this
  rw [stringTrimStores, hback]

theorem parseTokensStores_iff (posn : Nat) (ts : List Token) (n : Nat) :
    (∀ p ∈ parseTokensStores posn ts, p < n) ↔ posn + (ts.takeWhile (· ≠ amp)).length < n := by
  induction ts generalizing posn with
  | nil => simp [parseTokensStores]
  | cons t ts ih =>
    by_cases e : t = amp
    · simp [parseTokensStores, e]
    · have htake : (t :: ts).takeWhile (· ≠ amp) = t :: ts.takeWhile (· ≠ amp) := by simp [e]
      rw [parseTokensStores, if_neg e, List.forall_mem_cons, ih, htake, List.length_cons]
      omega

theorem parseLineStores_iff (line : Line) :
    (∀ p ∈ parseLineStores line, p < tokSize) ↔ line.command.length < tokSize := by
  unfold parseLineStores
  simp only [trimmed_tokens, parseTokensStores_iff, Nat.zero_add]
  rfl

/-- The words that fit `tokens` also fit the two arrays. -/
theorem launchPipeStores_lt {g : Globals} {args : List Token} (h : Parsed g args) (hlen : args.length < tokSize)
    (hpipe : g.piping = true) :
    (∀ p ∈ (launchPipeStores g).1, p < lineSize) ∧ ∀ p ∈ (launchPipeStores g).2, p < lineSize := by
  have hposn := h.pipePosn hpipe
  have hline := h.lineLength
  rw [tokSize] at hlen
  rw [lineSize]
  refine ⟨fun p hp => ?_, fun p hp => ?_⟩
  · have := mem_copyCmdStores.mp hp
    omega
  · have := mem_copyCmdStores.mp hp
    omega

theorem stores_in_bounds_iff (g : Globals) (line : Line) :
    InBounds g line ↔ strlen line.buf + 1 < line.buf.length ∧ line.command.length < tokSize := by
  have htrim := stringTrimStores_eq line.nul_mem
  constructor
  · intro h
    refine ⟨h.trim _ ?_, (parseLineStores_iff line).mp h.tokens⟩
    rw [htrim]
    exact List.mem_singleton_self _
  · intro h
    obtain ⟨hroom, hlen⟩ := h
    obtain ⟨g₁, hg₁, hp⟩ := parseLine_parsed g hlen
    refine ⟨fun p hm => ?_, (parseLineStores_iff line).mpr hlen, fun g' args hparse hpipes => ?_⟩
    · rw [htrim] at hm
      rw [List.mem_singleton.mp hm]
      exact hroom
    · cases hg₁.symm.trans hparse
      obtain ⟨-, -, -, hpipe⟩ := hpipes
      exact launchPipeStores_lt hp hlen hpipe

/-- 78 characters and a newline in the 80 bytes of `read_line`; 64 words. -/
theorem full_buffer : let line : Line := ⟨List.replicate 78 'a' ++ ['\n'], []⟩
    line.buf.length = lineSize ∧ line.buf.length = line.text.length + 1 ∧ stringTrimStores line.buf = [lineSize] ∧
      (∀ g, ¬ InBounds g line) ∧
      ∀ g, ¬ InBounds g ⟨(List.replicate 64 ['a', ' ']).flatten ++ ['\n'], List.replicate 30 'x'⟩ := by
  refine ⟨by decide, by decide, by decide, fun g h => ?_, fun g h => ?_⟩
  · exact absurd (h.trim lineSize (by decide)) (by decide)
  · exact absurd ((parseLineStores_iff _).mp h.tokens) (by decide +kernel)

end CS5600.Shell
