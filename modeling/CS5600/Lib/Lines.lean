/-
  CS5600.Lib.Lines — reading a text line by line, as `fgets` does.

  `takeLine eol n file` takes at most `n` elements and none behind an `eol`. A line that is short enough is
  taken whole (`takeLine_line`, `takeLine_last`), and something is always taken, which is what loops over the lines
  of a file end by (`fgets_shorter`).
-/

import Mathlib

namespace CS5600.Lib.Lines

variable {α : Type} [DecidableEq α] {eol : α} {n : Nat} {file l : List α}

/-- The second part is what is left. -/
def takeLine (eol : α) : Nat → List α → List α × List α
  | 0, file => ([], file)
  | _ + 1, [] => ([], [])
  | n + 1, c :: file =>
    if c = eol then ([c], file) else (c :: (takeLine eol n file).1, (takeLine eol n file).2)

/-- A buffer of `size` characters, the last for the NUL. -/
def fgets (size : Nat) (file : List Char) : Option (List Char × List Char) :=
  if file = [] then none else some (takeLine '\n' (size - 1) file)

theorem takeLine_shorter (h : file ≠ []) : (takeLine eol (n + 1) file).2.length < file.length := by
  induction n generalizing file with
  | zero =>
    cases file with
    | nil => exact absurd rfl h
    | cons c file => simp only [takeLine]; split <;> simp
  | succ n ih =>
    cases file with
    | nil => exact absurd rfl h
    | cons c file =>
      rw [takeLine]
      split
      · simp
      · by_cases e : file = []
        · subst e; simp [takeLine]
        · have := ih e
          simp only [List.length_cons]
          omega

theorem fgets_shorter {size : Nat} {file str rest : List Char} (h : fgets (size + 2) file = some (str, rest)) :
    rest.length < file.length := by
  unfold fgets at h
  split at h
  · cases h
  · rename_i hf
    have hr : (takeLine '\n' (size + 1) file).2.length < file.length := takeLine_shorter hf
    simp only [show size + 2 - 1 = size + 1 by omega, Option.some.injEq] at h
    rwa [h] at hr

theorem takeLine_line (rest : List α) (hl : l.length ≤ n) (ht : eol ∉ l) :
    takeLine eol (n + 1) (l ++ eol :: rest) = (l ++ [eol], rest) := by
  induction l generalizing n with
  | nil => simp [takeLine]
  | cons c l ih =>
    cases n with
    | zero => simp at hl
    | succ n =>
      rw [List.mem_cons, not_or] at ht
      simp only [List.length_cons] at hl
      rw [List.cons_append, takeLine, if_neg (Ne.symm ht.1), ih (by omega) ht.2]
      rfl

/-- The last line of a file may lack its end. -/
theorem takeLine_last (hl : l.length ≤ n) (ht : eol ∉ l) : takeLine eol (n + 1) l = (l, []) := by
  induction l generalizing n with
  | nil => simp [takeLine]
  | cons c l ih =>
    cases n with
    | zero => simp at hl
    | succ n =>
      rw [List.mem_cons, not_or] at ht
      simp only [List.length_cons] at hl
      rw [takeLine, if_neg (Ne.symm ht.1), ih (by omega) ht.2]

end CS5600.Lib.Lines
