/-
  CS5600.Scripts.FilterSort — the script `Assignment1/filterSort.sh` from the creation of the output file
  on: the commands it runs for given answers, over the files they read and write.

  A file is its list of rows. What `awk` and `sort` do with a row is left to `Tools`: which rows pass
  `$col==par`, which keys `sort -k` takes, and its order.

  Proved (`output_iff`): the output is the header and the rows that should follow it exactly when
    - a filter is chosen and the header does not pass it: `awk` is run on the header too, so a header
      that passes is there twice; or
    - no filter is chosen and `temp.csv` held the body rows before: nothing fills it on that path,
      and in a directory without one every row is lost (both in `lost_and_doubled`).
-/

import Mathlib

namespace CS5600.Scripts.FilterSort

abbrev Row := List Char

abbrev Name := List Char

abbrev Fs := Name → Option (List Row)

structure Tools where
  /-- `$col==par`, with the separator, the column and the parameter -/
  passes : Char → List Char → List Char → Row → Bool
  /-- whether `sort` runs with this separator and key -/
  accepts : Char → List Char → Bool
  le : Char → List Char → Row → Row → Bool
  total : ∀ sep key a b, le sep key a b || le sep key b a
  trans : ∀ sep key a b c, le sep key a b → le sep key b c → le sep key a c

/-! ## The commands -/

inductive Cmd where
  | touch (file : Name)
  /-- `head -n 1 file > output` -/
  | head (file output : Name)
  /-- `awk -F separator -v col=… -v par=… '$col==par {print $0}' file > output` -/
  | awk (separator : Char) (col par : List Char) (file output : Name)
  /-- `sort -k key -t separator -o file file` -/
  | sort (key : List Char) (separator : Char) (file : Name)
  /-- `cat file >> output` -/
  | cat (file output : Name)
  | rm (file : Name)

def rows (fs : Fs) (file : Name) : List Row := (fs file).getD []

def write (fs : Fs) (file : Name) (content : List Row) : Fs := Function.update fs file (some content)

def sorted (T : Tools) (separator : Char) (key : List Char) (content : List Row) : List Row :=
  if T.accepts separator key then content.mergeSort (T.le separator key) else content

def Cmd.run (T : Tools) (fs : Fs) : Cmd → Fs
  | .touch file => write fs file (rows fs file)
  -- the shell empties the output before the command reads its input
  | .head file output =>
    let fs := write fs output []
    write fs output ((rows fs file).take 1)
  | .awk separator col par file output =>
    let fs := write fs output []
    write fs output ((rows fs file).filter (T.passes separator col par))
  | .sort key separator file => write fs file (sorted T separator key (rows fs file))
  | .cat file output => write fs output (rows fs output ++ rows fs file)
  | .rm file => Function.update fs file none

def runAll (T : Tools) (fs : Fs) (cmds : List Cmd) : Fs := cmds.foldl (Cmd.run T) fs

/-! ## The script -/

def temp : Name := "temp.csv".toList

/-- Its variables. `separator` and the answers are what `read` has left in them, which may be less than was typed;
    the input, the output and the temporary file are three files. -/
structure Vars where
  file : Name
  output : Name
  separator : Char
  fFlag : List Char
  colFilter : List Char
  parameter : List Char
  sFlag : List Char
  colSort : List Char
  s2Flag : List Char
  colSort2 : List Char
  file_output : file ≠ output
  file_temp : file ≠ temp
  output_temp : output ≠ temp

def yes : List Char := ['y']

/-- The commands that fill `temp.csv`, or sort it. -/
def fill (v : Vars) : List Cmd :=
  if v.fFlag = yes then
    .awk v.separator v.colFilter v.parameter v.file temp ::
      if v.sFlag = yes then [.sort v.colSort v.separator temp] else []
  else if v.s2Flag = yes then [.sort v.colSort2 v.separator temp]
  else []

def filterSort (v : Vars) : List Cmd :=
  .touch v.output :: .touch temp :: .head v.file v.output :: (fill v ++ [.cat temp v.output, .rm temp])

/-! ## What should come out -/

section Output

variable (T : Tools) (v : Vars) (header : Row) (body : List Row)

def Vars.passes : Row → Bool := T.passes v.separator v.colFilter v.parameter

/-- The rows that should follow the header, in their order. -/
def Vars.kept : List Row := if v.fFlag = yes then body.filter (v.passes T) else body

/-- The column to sort by, if one is asked for. -/
def Vars.key : Option (List Char) :=
  if v.fFlag = yes then if v.sFlag = yes then some v.colSort else none
  else if v.s2Flag = yes then some v.colSort2 else none

/-- The rows kept, in their order or in that of `sort`. -/
def Ordered (kept out : List Row) : Prop :=
  match v.key with
  | none => out = kept
  | some key => out.Perm kept ∧
    (T.accepts v.separator key = true → out.Pairwise fun a b => T.le v.separator key a b = true)

def Complete (out : List Row) : Prop := ∃ rest, out = header :: rest ∧ Ordered T v (v.kept T body) rest

/-- What the script needs; `old` are the rows `temp.csv` has already. -/
def Supplied (old : List Row) : Prop :=
  if v.fFlag = yes then v.passes T header = false
  else if v.s2Flag = yes then old.Perm body
  else old = body

/-! ## What comes out -/

/-- What is in `temp.csv` when it is appended. -/
def Vars.filled (old : List Row) : List Row :=
  let content := if v.fFlag = yes then (header :: body).filter (v.passes T) else old
  match v.key with
  | none => content
  | some key => sorted T v.separator key content

end Output

variable {T : Tools} {v : Vars} {header : Row} {body : List Row}

theorem sorted_perm (separator : Char) (key : List Char) (content : List Row) :
    (sorted T separator key content).Perm content := by
  unfold sorted
  split
  · exact List.mergeSort_perm ..
  · exact List.Perm.refl _

theorem sorted_pairwise {separator : Char} {key : List Char} (h : T.accepts separator key = true) (content : List Row) :
    (sorted T separator key content).Pairwise fun a b => T.le separator key a b = true := by
  rw [sorted, if_pos h]
  exact List.pairwise_mergeSort (T.trans separator key) (T.total separator key) content

theorem runAll_output {fs : Fs} (hfile : fs v.file = some (header :: body)) :
    runAll T fs (filterSort v) v.output = some (header :: v.filled T header body (rows fs temp)) := by
  have h1 := v.file_output
  have h2 := v.file_temp
  have h3 := v.output_temp
  unfold filterSort fill Vars.filled Vars.key
  by_cases hf : v.fFlag = yes
  · by_cases hs : v.sFlag = yes
    all_goals simp [runAll, Cmd.run, write, rows, hf, hs, hfile, h1, h2, h3, h3.symm, Vars.passes]
  · by_cases hs : v.s2Flag = yes
    all_goals simp [runAll, Cmd.run, write, rows, hf, hs, hfile, h1, h2, h3, h3.symm]

theorem ordered_none_iff (hkey : v.key = none) {kept content : List Row} :
    Ordered T v kept content ↔ content = kept := by
  rw [Ordered, hkey]

theorem ordered_sorted_iff {key : List Char} (hkey : v.key = some key) {kept content : List Row} :
    Ordered T v kept (sorted T v.separator key content) ↔ content.Perm kept := by
  have hperm := sorted_perm (T := T) v.separator key content
  rw [Ordered, hkey]
  exact ⟨fun h => hperm.symm.trans h.1, fun h => ⟨hperm.trans h, fun hacc => sorted_pairwise hacc content⟩⟩

/-- The header is filtered with the body. -/
theorem filter_header_iff (p : Row → Bool) : (header :: body).filter p = body.filter p ↔ p header = false := by
  cases hp : p header <;> simp [hp]

theorem filter_header_perm_iff (p : Row → Bool) :
    ((header :: body).filter p).Perm (body.filter p) ↔ p header = false := by
  cases hp : p header with
  | false => simp [hp]
  | true =>
    rw [List.filter_cons_of_pos hp]
    refine iff_of_false (fun h => ?_) (by decide)
    have := h.length_eq
    simp at this

theorem filled_iff (old : List Row) :
    Ordered T v (v.kept T body) (v.filled T header body old) ↔ Supplied T v header body old := by
  unfold Vars.filled Vars.kept Supplied
  by_cases hf : v.fFlag = yes
  · simp only [if_pos hf]
    by_cases hs : v.sFlag = yes
    · have hkey : v.key = some v.colSort := by simp [Vars.key, hf, hs]
      simp only [hkey]
      rw [ordered_sorted_iff hkey]
      exact filter_header_perm_iff (v.passes T)
    · have hkey : v.key = none := by simp [Vars.key, hf, hs]
      simp only [hkey]
      rw [ordered_none_iff hkey]
      exact filter_header_iff (v.passes T)
  · simp only [if_neg hf]
    by_cases hs : v.s2Flag = yes
    · have hkey : v.key = some v.colSort2 := by simp [Vars.key, hf, hs]
      simp only [hkey, if_pos hs]
      exact ordered_sorted_iff hkey
    · have hkey : v.key = none := by simp [Vars.key, hf, hs]
      simp only [hkey, if_neg hs]
      exact ordered_none_iff hkey

/-- The output has the header and the rows that should follow it exactly when a filter is chosen that
    the header does not pass, or none is and the rows are in `temp.csv` already. -/
theorem output_iff (T : Tools) (v : Vars) {header : Row} {body : List Row} {fs : Fs}
    (hfile : fs v.file = some (header :: body)) :
    (∃ out, runAll T fs (filterSort v) v.output = some out ∧ Complete T v header body out) ↔
      Supplied T v header body (rows fs temp) := by
  rw [runAll_output hfile, ← filled_iff]
  constructor
  · intro h
    obtain ⟨out, hout, rest, hrest, hordered⟩ := h
    cases hout
    cases hrest
    exact hordered
  · intro h
    exact ⟨_, rfl, _, rfl, h⟩

/-! ### Three runs -/

/-- The digits at the beginning. -/
def number (text : List Char) : Nat :=
  (text.takeWhile Char.isDigit).foldl (fun n c => 10 * n + (c.toNat - '0'.toNat)) 0

def field (separator : Char) (col : Nat) (row : Row) : Row :=
  if col = 0 then row else ((row.splitOn separator)[col - 1]?).getD []

/-- Fields from `key` on to the end of the row, then the row. -/
def sortKey (separator : Char) (key : List Char) (row : Row) : Row ×ₗ Row :=
  toLex ([separator].intercalate ((row.splitOn separator).drop (number key - 1)), row)

/-- The tools, with every comparison one of texts. -/
def byText : Tools where
  passes separator col par row := field separator (number col) row = par
  accepts _ key := 0 < number key
  le separator key a b := sortKey separator key a ≤ sortKey separator key b
  total separator key a b := by simpa using le_total (sortKey separator key a) (sortKey separator key b)
  trans separator key a b c hab hbc := by
    rw [decide_eq_true_eq] at hab hbc ⊢
    exact hab.trans hbc

/-- From `in` to `out` with a comma, and the given answers. -/
def answers (fFlag colFilter parameter sFlag colSort : List Char) : Vars :=
  ⟨['i', 'n'], ['o', 'u', 't'], ',', fFlag, colFilter, parameter, sFlag, colSort, sFlag, colSort,
    by decide, by decide, by decide⟩

/-- A directory with one file, of a header and a body row. -/
def twoRows : Fs := fun name => if name = ['i', 'n'] then some [['i', 'd'], ['1']] else none

/-- The filter `$1 == 1` -/
theorem output_one_row : let v := answers yes ['1'] ['1'] yes ['1']
    ∃ out, runAll byText twoRows (filterSort v) v.output = some out ∧ Complete byText v ['i', 'd'] [['1']] out := by
  have hfile : twoRows ['i', 'n'] = some [['i', 'd'], ['1']] := by decide
  apply (output_iff byText (answers yes ['1'] ['1'] yes ['1']) hfile).mpr
  show byText.passes (answers yes ['1'] ['1'] yes ['1']).separator ['1'] ['1'] ['i', 'd'] = false
  decide

/-- Without a filter nothing follows the header; with the filter `$1 == id` the header is there twice. -/
theorem lost_and_doubled : let v := answers ['n'] [] [] ['n'] []
    let w := answers yes ['1'] ['i', 'd'] ['n'] []
    (runAll byText twoRows (filterSort v) v.output = some [['i', 'd']] ∧
      ¬ Complete byText v ['i', 'd'] [['1']] [['i', 'd']]) ∧
    runAll byText twoRows (filterSort w) w.output = some [['i', 'd'], ['i', 'd']] := by
  have hfile : twoRows ['i', 'n'] = some [['i', 'd'], ['1']] := by decide
  refine ⟨⟨(runAll_output hfile).trans (by decide), fun h => ?_⟩, (runAll_output hfile).trans (by decide)⟩
  obtain ⟨rest, hrest, hordered⟩ := h
  cases hrest
  cases (ordered_none_iff rfl).mp hordered

end CS5600.Scripts.FilterSort
