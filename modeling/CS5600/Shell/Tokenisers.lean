/-
  CS5600.Shell.Tokenisers — the words `Assignment4_Shell/parse.c` prints, beside the ones `parse_line`
  of `shell.c` returns.

  `parse.c` reads a line with `fgets`, cuts its last character and calls `strtok` with the space
  alone; it prints the words that are not `|`. `shell.c` skips leading spaces, leaves the newline
  where it is and calls `strtok` with the space, the tab, CR, newline and BEL.

  Proved (`tokenisers_agree`): on a line of spaces and other characters than these four, that fits
  the buffer of `parse.c` and has fewer than 64 words and no `&`, both find the same words.
-/

import CS5600.Lib.Lines
import CS5600.Shell.ParseLine

namespace CS5600.Shell.Tokenisers

open CS5600.Lib.Lines CS5600.Lib.Words

/-- `sizeof(input)` -/
def inputSize : Nat := 100000

/-- `delimiter` -/
def isSpace (c : Char) : Bool := c = ' '

/-- From `input[--l] = '\0'` on. The NUL of an empty string goes before the buffer. -/
def printTokens (input : List Char) : Option (List Token) :=
  match strlen input with
  | 0 => none
  | l + 1 => some ((words isSpace (cstr (input.set l nul))).filter (· ≠ bar))

/-- The words it prints. `spare` are the bytes of `input` behind what `fgets` stored; at the end of
    the file it stores nothing. -/
def main (stdin spare : List Char) : Option (List Token) :=
  match fgets inputSize stdin with
  | none => none
  | some (str, _) => printTokens (str ++ nul :: spare)

/-- The newline is cut and the rest is tokenised at spaces. -/
theorem main_line {text : List Char} (stdin spare : List Char) (hchars : ∀ c ∈ text, c ≠ '\n' ∧ c ≠ nul)
    (hlen : text.length + 1 < inputSize) :
    main (text ++ '\n' :: stdin) spare = some ((words isSpace text).filter (· ≠ bar)) := by
  have hget : fgets inputSize (text ++ '\n' :: stdin) = some (text ++ ['\n'], stdin) := by
    rw [fgets, if_neg (by simp)]
    refine congrArg some (takeLine_line (n := 99998) stdin (by rw [inputSize] at hlen; omega) fun h => ?_)
    exact (hchars _ h).1 rfl
  have hnul : nul ∉ text ++ ['\n'] := by
    intro h
    rcases List.mem_append.mp h with h | h
    · exact (hchars nul h).2 rfl
    · exact absurd (List.mem_singleton.mp h) (by decide)
  have hstr : strlen (text ++ ['\n'] ++ nul :: spare) = text.length + 1 := by
    rw [strlen, cstr_append hnul, List.length_append, List.length_singleton]
  have hcut : (text ++ ['\n'] ++ nul :: spare).set text.length nul = text ++ nul :: nul :: spare := by
    rw [List.append_assoc, List.set_append_right _ _ (Nat.le_refl _), Nat.sub_self]
    rfl
  simp only [main, hget, printTokens, hstr, hcut]
  rw [cstr_append fun h => (hchars nul h).2 rfl]

theorem tokenisers_agree (g : Globals) {text : List Char} (stdin spare bytes : List Char)
    (hchars : ∀ c ∈ text, c ≠ '\n' ∧ c ≠ '\t' ∧ c ≠ '\r' ∧ c ≠ '\x07' ∧ c ≠ nul)
    (hlen : (text ++ ['\n']).length < 99999)
    (hfew : (Line.mk (text ++ ['\n']) bytes).tokens.length < tokSize)
    (hamp : amp ∉ (Line.mk (text ++ ['\n']) bytes).tokens) :
    ∃ g' tokens, parseLine g ⟨text ++ ['\n'], bytes⟩ = some (g', tokens) ∧
      main (text ++ '\n' :: stdin) spare = some (tokens.filter (· ≠ bar)) := by
  have hnul : nul ∉ text ++ ['\n'] := by
    intro h
    rcases List.mem_append.mp h with h | h
    · exact (hchars nul h).2.2.2.2 rfl
    · exact absurd (List.mem_singleton.mp h) (by decide)
  -- with the newline gone, the other delimiters of `shell.c` do not occur
  have htokens : (Line.mk (text ++ ['\n']) bytes).tokens = words isSpace text := by
    rw [Line.tokens, strtok, Line.buf, cstr_append hnul, words_snoc (by decide)]
    apply words_congr
    intro c hc
    obtain ⟨h1, h2, h3, h4, -⟩ := hchars c hc
    simp [isDelimiter, isSpace, h1, h2, h3, h4]
  have hcommand : (Line.mk (text ++ ['\n']) bytes).command = words isSpace text := by
    rw [Line.command, htokens]
    apply List.takeWhile_eq_self_iff.mpr
    intro t ht
    rw [htokens] at hamp
    exact decide_eq_true fun e => hamp (e ▸ ht)
  refine ⟨_, _, parseLine_eq g hfew, ?_⟩
  rw [hcommand]
  apply main_line stdin spare (fun c hc => ⟨(hchars c hc).1, (hchars c hc).2.2.2.2⟩)
  rw [List.length_append, List.length_singleton] at hlen
  rw [inputSize]
  omega

/-- The line `ls  -l | wc`. -/
theorem tokenisers_agree_pipe : ∃ g' tokens,
    parseLine ⟨false, false, 0, 0, false, false, 0, 0⟩ ⟨"ls  -l | wc".toList ++ ['\n'], []⟩ = some (g', tokens) ∧
      main ("ls  -l | wc".toList ++ '\n' :: []) [] = some (tokens.filter (· ≠ bar)) :=
  tokenisers_agree _ [] [] [] (by simp [nul]) (by simp) (by decide) (by decide)

end CS5600.Shell.Tokenisers
