/-
  CS5600.Cache.TraceFile — trace files (`trace.c` and `loadTrace`, which the simulators share).

  A file is its characters. `fgets` takes at most one character less than the buffer's size and
  stops behind a newline; `loadTrace` cuts the last character of what it got and copies the rest
  into the next row of `instructionCache`. A line that starts with a NUL makes it write before
  its buffer, a line too many makes it write behind the array: both are faults.

  Proved: lines of at most `BITWIDTH` characters, each ended by a newline, are stored as they
  are (`loadTrace_lines`), and among the files of such lines only those that do not end with a
  newline lose a character (`faithful_iff`); so what `trace.c` writes for a list of numbers is read back as rows
  whose set index, tag and number are those of the list, equal rows for equal numbers
  (`trace_round_trip`).
-/

import CS5600.Cache.Binary
import CS5600.Lib.Lines

namespace CS5600.Cache.TraceFile

open CS5600.Cache.Binary CS5600.Lib.Lines

/-- `BITWIDTH` and `ADDRESSES` -/
structure Dims where
  bitwidth : Nat
  addresses : Nat

def assignment5 : Dims := ⟨16, 16384⟩

/-- The lines a generator of `trace.c` prints for its values. -/
def printTrace (D : Dims) : List Int → Option (List Char)
  | [] => some []
  | v :: vs => do
    let bin ← intToBinaryString v D.bitwidth
    let rest ← printTrace D vs
    return bin ++ '\n' :: rest

/-- The file `Trace(size, range)` writes. -/
def trace (D : Dims) (size : Nat) (range : Int) : Option (List Char) :=
  printTrace D ((List.range size).map fun i : Nat => (i : Int) % range)

inductive Fault where
  | beforeBuffer
  | row (pos : Nat)
  deriving DecidableEq, Repr

/-- The loop of `loadTrace`: the rows it stores from `pos` on. -/
def loadLoop (D : Dims) (pos : Nat) (file : List Char) : Except Fault (List (List Char)) :=
  match h : fgets (D.bitwidth + 2) file with
  | none => .ok []
  | some (str, rest) =>
    let str := str.takeWhile (· ≠ '\x00')
    if str = [] then .error .beforeBuffer
    else if D.addresses ≤ pos then .error (.row pos)
    else do
      let rows ← loadLoop D (pos + 1) rest
      return str.dropLast :: rows
termination_by file.length
decreasing_by exact fgets_shorter h

def loadTrace (D : Dims) (file : List Char) : Except Fault (List (List Char)) := loadLoop D 0 file

/-! ## Reading lines -/

/-- Characters that can stand in a line. -/
def IsText (c : Char) : Prop := c ≠ '\n' ∧ c ≠ '\x00'

/-- The file of some lines, a newline behind each. -/
def text (lines : List (List Char)) : List Char := lines.flatMap fun l => l ++ ['\n']

theorem text_cons (l : List Char) (ls : List (List Char)) : text (l :: ls) = l ++ '\n' :: text ls := by
  simp [text]

/-- One round of the loop: what `fgets` got loses its last character. -/
theorem loadLoop_get {D : Dims} {pos : Nat} {file str rest : List Char} {rows : List (List Char)}
    (hget : takeLine '\n' (D.bitwidth + 1) file = (str, rest)) (hstr : str ≠ []) (hnul : ∀ c ∈ str, c ≠ '\x00')
    (hfile : file ≠ []) (hpos : pos < D.addresses) (hrest : loadLoop D (pos + 1) rest = .ok rows) :
    loadLoop D pos file = .ok (str.dropLast :: rows) := by
  have hf : fgets (D.bitwidth + 2) file = some (str, rest) := by
    unfold fgets
    rw [if_neg hfile, show D.bitwidth + 2 - 1 = D.bitwidth + 1 by omega, hget]
  have hall : str.takeWhile (· ≠ '\x00') = str := by
    rw [List.takeWhile_eq_self_iff]
    intro c hc
    simpa using hnul c hc
  rw [loadLoop]
  split
  · rename_i h; rw [hf] at h; cases h
  · rename_i str' rest' h
    rw [hf] at h
    cases h
    simp only [hall, hrest]
    rw [if_neg hstr, if_neg (by omega)]
    rfl

/-- The loop over lines with their newlines and a last one without. -/
theorem loadLoop_file (D : Dims) (last : List Char) (hlast : last.length ≤ D.bitwidth) (htext : ∀ c ∈ last, IsText c) :
    ∀ (lines : List (List Char)) (pos : Nat), pos + lines.length + (if last = [] then 0 else 1) ≤ D.addresses →
      (∀ l ∈ lines, l.length ≤ D.bitwidth ∧ ∀ c ∈ l, IsText c) →
      loadLoop D pos (text lines ++ last) = .ok (lines ++ if last = [] then [] else [last.dropLast]) := by
  intro lines
  have hend : ∀ pos, loadLoop D pos [] = .ok [] := by
    intro pos
    rw [loadLoop]
    simp [fgets]
  induction lines with
  | nil =>
    intro pos hp _
    by_cases e : last = []
    · subst e
      exact hend pos
    · rw [if_neg e] at hp ⊢
      exact loadLoop_get (takeLine_last hlast fun h => (htext _ h).1 rfl) e (fun c hc => (htext c hc).2) e (by simp at hp; omega) (hend _)
  | cons l ls ih =>
    intro pos hp ht
    obtain ⟨hlen, hl⟩ := ht l (List.mem_cons_self ..)
    simp only [List.length_cons] at hp
    have hrest := ih (pos + 1) (by omega) (fun x hx => ht x (List.mem_cons_of_mem _ hx))
    have hshape : text (l :: ls) ++ last = l ++ '\n' :: (text ls ++ last) := by simp [text_cons]
    rw [hshape, loadLoop_get (takeLine_line _ hlen fun h => (hl _ h).1 rfl) (by simp) ?_ (by simp) (by omega) hrest]
    · simp
    · intro c hc
      rcases List.mem_append.mp hc with hc | hc
      · exact (hl c hc).2
      · rw [List.mem_singleton.mp hc]; decide

theorem loadTrace_lines (D : Dims) {lines : List (List Char)} (hn : lines.length ≤ D.addresses)
    (h : ∀ l ∈ lines, l.length ≤ D.bitwidth ∧ ∀ c ∈ l, IsText c) : loadTrace D (text lines) = .ok lines := by
  have := loadLoop_file D [] (by simp) (by simp) lines 0 (by simpa using hn) h
  simpa [loadTrace] using this

theorem IsBit.isText {c : Char} (h : IsBit c) : IsText c := by
  rcases h with rfl | rfl <;> exact ⟨by decide, by decide⟩

/-! ## Any file -/

/-- The lines of a file without their newlines. -/
def lines : List Char → List (List Char)
  | [] => []
  | c :: file =>
    if c = '\n' then [] :: lines file
    else match lines file with
      | [] => [[c]]
      | l :: ls => (c :: l) :: ls

theorem lines_last {last : List Char} (hl : '\n' ∉ last) : lines last = if last = [] then [] else [last] := by
  induction last with
  | nil => rfl
  | cons c l ih =>
    have hc : c ≠ '\n' := fun e => hl (by simp [e])
    rw [lines, if_neg hc, ih (fun h => hl (List.mem_cons_of_mem _ h))]
    by_cases e : l = []
    · simp [e]
    · simp [e]

theorem lines_text {ls : List (List Char)} (h : ∀ l ∈ ls, '\n' ∉ l) : lines (text ls) = ls := by
  induction ls with
  | nil => rfl
  | cons l ls ih =>
    have hline : ∀ (l file : List Char), '\n' ∉ l → lines (l ++ '\n' :: file) = l :: lines file := by
      intro l file hl
      induction l with
      | nil => rfl
      | cons c l ih =>
        have hc : c ≠ '\n' := fun e => hl (by simp [e])
        rw [List.cons_append, lines, if_neg hc, ih (fun h => hl (List.mem_cons_of_mem _ h))]
    rw [text_cons, hline l _ (h l (List.mem_cons_self ..)), ih (fun k hk => h k (List.mem_cons_of_mem _ hk))]

/-- A file is its complete lines and what stands behind the last newline. -/
theorem lines_split (file : List Char) : ∃ ls last, file = text ls ++ last ∧ '\n' ∉ last ∧ (∀ l ∈ ls, '\n' ∉ l) ∧
    lines file = ls ++ if last = [] then [] else [last] := by
  induction file with
  | nil => exact ⟨[], [], rfl, by simp, by simp, rfl⟩
  | cons c file ih =>
    obtain ⟨ls, last, rfl, hlast, hls, heq⟩ := ih
    by_cases hc : c = '\n'
    · refine ⟨[] :: ls, last, by simp [text_cons, hc], hlast, by simpa using hls, ?_⟩
      rw [lines, if_pos hc, heq]
      rfl
    · cases ls with
      | nil =>
        have hnew : '\n' ∉ c :: last := by
          intro h
          rcases List.mem_cons.mp h with h | h
          · exact hc h.symm
          · exact hlast h
        exact ⟨[], c :: last, rfl, hnew, by simp, lines_last hnew⟩
      | cons l ls =>
        refine ⟨(c :: l) :: ls, last, by simp [text_cons], hlast, ?_, ?_⟩
        · intro k hk
          rcases List.mem_cons.mp hk with rfl | hk
          · intro h
            rcases List.mem_cons.mp h with h | h
            · exact hc h.symm
            · exact hls l (List.mem_cons_self ..) h
          · exact hls k (List.mem_cons_of_mem _ hk)
        · rw [lines, if_neg hc, heq]
          rfl

/-- Row `k` of `instructionCache` is line `k` of the file, and the rows behind the file are empty. -/
def Faithful (D : Dims) (file : List Char) : Prop :=
  ∃ rows, loadTrace D file = .ok rows ∧ ∀ k, rows.getD k [] = (lines file).getD k []

/-- What `loadTrace` cuts is the newline only where there is one. -/
theorem faithful_iff (D : Dims) (file : List Char) (hnul : '\x00' ∉ file) (hn : (lines file).length ≤ D.addresses)
    (hlen : ∀ l ∈ lines file, l.length ≤ D.bitwidth) :
    Faithful D file ↔ file = [] ∨ file.getLast? = some '\n' := by
  obtain ⟨ls, last, rfl, hlast, hls, heq⟩ := lines_split file
  rw [heq] at hn hlen
  have hlastlen : last.length ≤ D.bitwidth := by
    by_cases e : last = []
    · simp [e]
    · exact hlen last (by simp [e])
  have hlasttext : ∀ c ∈ last, IsText c := fun c hc =>
    ⟨fun e => hlast (e ▸ hc), fun e => hnul (List.mem_append_right _ (e ▸ hc))⟩
  have hlines : ∀ l ∈ ls, l.length ≤ D.bitwidth ∧ ∀ c ∈ l, IsText c := by
    intro l hl
    refine ⟨hlen l (List.mem_append_left _ hl), fun c hc => ⟨fun e => hls l hl (e ▸ hc), fun e => hnul ?_⟩⟩
    rw [← e]
    exact List.mem_append_left _ (List.mem_flatMap.mpr ⟨l, hl, List.mem_append_left _ hc⟩)
  have hcount : 0 + ls.length + (if last = [] then 0 else 1) ≤ D.addresses := by
    rw [List.length_append] at hn
    split at hn <;> simp_all
  have hload : loadTrace D (text ls ++ last) = .ok (ls ++ if last = [] then [] else [last.dropLast]) :=
    loadLoop_file D last hlastlen hlasttext ls 0 hcount hlines
  by_cases e : last = []
  · subst e
    have hend : text ls ++ [] = [] ∨ (text ls ++ []).getLast? = some '\n' := by
      rcases List.eq_nil_or_concat ls with rfl | ⟨l, x, rfl⟩
      · exact Or.inl rfl
      · exact Or.inr (by simp [text])
    exact ⟨fun _ => hend, fun _ => ⟨_, hload, fun k => by rw [heq]; rfl⟩⟩
  · rw [if_neg e] at hload heq
    constructor
    · intro h
      obtain ⟨rows, hrows, hrow⟩ := h
      rw [hload] at hrows
      cases hrows
      have := hrow ls.length
      rw [heq] at this
      have hcut : last.dropLast.length = last.length := by simpa using congrArg List.length this
      have hpos := List.length_pos_iff.mpr e
      rw [List.length_dropLast] at hcut
      omega
    · intro h
      rcases h with h | h
      · exact absurd (List.append_eq_nil_iff.mp h).2 e
      · rw [List.getLast?_append_of_ne_nil _ e] at h
        exact absurd (List.mem_of_getLast? h) hlast

theorem faithful_two_lines : Faithful assignment5 ['0', '1', '\n', '\n'] :=
  (faithful_iff assignment5 ['0', '1', '\n', '\n'] (by decide) (by decide) (by decide)).mpr (Or.inr rfl)

/-- The file `01` has one line and no newline: the row is `0`. -/
theorem last_digit_lost : '\x00' ∉ ['0', '1'] ∧ (lines ['0', '1']).length ≤ 16384 ∧
    (∀ l ∈ lines ['0', '1'], l.length ≤ 16) ∧ ¬ Faithful assignment5 ['0', '1'] := by
  refine ⟨by decide, by decide, by decide, ?_⟩
  intro h
  obtain ⟨rows, hrows, hrow⟩ := h
  have hload : loadTrace assignment5 ['0', '1'] = .ok [['0']] :=
    loadLoop_file assignment5 ['0', '1'] (by decide) (by simp [IsText]) [] 0
      (by simp [assignment5]) (by simp)
  rw [hload] at hrows
  cases hrows
  have := hrow 0
  revert this
  decide

/-! ## Numbers there and back -/

/-- The digits of a number at a width. -/
structure Writes (bits : Nat) (s : List Char) (v : Int) : Prop where
  length : s.length = bits
  digits : ∀ c ∈ s, IsBit c
  number : (value s : Int) = v

theorem printTrace_writes (D : Dims) : ∀ vs : List Int, (∀ v ∈ vs, 0 ≤ v ∧ v < 2 ^ D.bitwidth) →
    ∃ rows, printTrace D vs = some (text rows) ∧ List.Forall₂ (Writes D.bitwidth) rows vs := by
  intro vs
  induction vs with
  | nil => intro _; exact ⟨[], rfl, .nil⟩
  | cons v vs ih =>
    intro h
    obtain ⟨h0, hv⟩ := h v (List.mem_cons_self ..)
    obtain ⟨rows, hrows, hw⟩ := ih (fun x hx => h x (List.mem_cons_of_mem _ hx))
    have hlt : v.toNat < 2 ^ D.bitwidth := by zify; omega
    obtain ⟨s, hs, hlen, hbits, hval⟩ := intToBinaryString_spec hlt
    rw [Int.toNat_of_nonneg h0] at hs
    refine ⟨s :: rows, ?_, .cons ⟨hlen, hbits, by omega⟩ hw⟩
    simp [printTrace, hs, hrows, text_cons]

/-- Rows of one width are equal exactly when their numbers are. -/
theorem Writes.eq_iff {bits : Nat} {s t : List Char} {v w : Int} (h : Writes bits s v) (g : Writes bits t w) :
    s = t ↔ v = w := by
  constructor
  · intro e; rw [← h.number, ← g.number, e]
  · intro e
    have hv : (value s : Int) = value t := by rw [h.number, g.number, e]
    exact value_inj (h.length.trans g.length.symm) h.digits g.digits (by exact_mod_cast hv)

theorem writes_at {bits : Nat} {rows : List (List Char)} {vs : List Int} (h : List.Forall₂ (Writes bits) rows vs)
    {k : Nat} {s : List Char} {v : Int} (hs : rows[k]? = some s) (hv : vs[k]? = some v) : Writes bits s v := by
  obtain ⟨hk, rfl⟩ := List.getElem?_eq_some_iff.mp hs
  obtain ⟨hk', rfl⟩ := List.getElem?_eq_some_iff.mp hv
  exact (List.forall₂_iff_get.mp h).2 k hk hk'

theorem writes_lines {bits : Nat} {rows : List (List Char)} {vs : List Int} (h : List.Forall₂ (Writes bits) rows vs) :
    ∀ l ∈ rows, l.length = bits ∧ ∀ c ∈ l, IsBit c := by
  intro l hl
  obtain ⟨k, hk, rfl⟩ := List.getElem_of_mem hl
  have hw := writes_at h (List.getElem?_eq_getElem hk) (List.getElem?_eq_getElem (h.length_eq ▸ hk))
  exact ⟨hw.length, hw.digits⟩

theorem loadTrace_writes (D : Dims) {rows : List (List Char)} {vs : List Int}
    (h : List.Forall₂ (Writes D.bitwidth) rows vs) (hn : rows.length ≤ D.addresses) :
    loadTrace D (text rows) = .ok rows := by
  refine loadTrace_lines D hn fun l hl => ?_
  obtain ⟨hlen, hbits⟩ := writes_lines h l hl
  exact ⟨le_of_eq hlen, fun c hc => IsBit.isText (hbits c hc)⟩

/-- Every number of 16 bits is read back from its row of the file: the low two bits (the set), the
    bits above (the tag), and the whole. -/
theorem trace_round_trip (vs : List Int) (hn : vs.length ≤ 16384) (hv : ∀ v ∈ vs, 0 ≤ v ∧ v < 2 ^ 16) :
    ∃ file rows, printTrace assignment5 vs = some file ∧ loadTrace assignment5 file = .ok rows ∧
      rows.length = vs.length ∧
      (∀ (before : Int → Char) (k : Nat) (s : List Char) (v : Int), rows[k]? = some s → vs[k]? = some v →
        binaryStringRangeToInt (charAt before s) s.length 0 1 = v % 4 ∧
        binaryStringRangeToInt (charAt before s) s.length 2 15 = v / 4 ∧
        binaryStringToInt (charAt before s) 17 = v) ∧
      ∀ (j k : Nat) (s t : List Char) (v w : Int), rows[j]? = some s → vs[j]? = some v →
        rows[k]? = some t → vs[k]? = some w → (s = t ↔ v = w) := by
  obtain ⟨rows, hprint, hw⟩ := printTrace_writes assignment5 vs hv
  have hlen := hw.length_eq
  have hload : loadTrace assignment5 (text rows) = .ok rows := loadTrace_writes assignment5 hw (by rw [hlen]; exact hn)
  refine ⟨text rows, rows, hprint, hload, hlen, ?_, ?_⟩
  · intro before k s v hs hv
    have h := writes_at hw hs hv
    have h16 : s.length = 16 := h.length
    have hlt := value_lt s
    have hnum := h.number
    rw [h16] at hlt
    have hset := range_value before s 0 1 (by omega) (by omega)
    have htag := range_value before s 2 15 (by omega) (by omega)
    have hall := toInt_value before s (m := 16) (by omega)
    rw [List.take_of_length_le (by omega)] at hall
    norm_num at hset htag hall
    refine ⟨by rw [hset]; omega, by rw [htag]; omega, by rw [hall]; exact hnum⟩
  · intro j k s t v w hs hv ht hw'
    exact (writes_at hw hs hv).eq_iff (writes_at hw ht hw')

/-- `regular.txt`, as `main` of `trace.c` writes it, counts from 0. -/
theorem trace_round_trip_regular : ∃ file rows,
    trace assignment5 16384 16384 = some file ∧ loadTrace assignment5 file = .ok rows ∧ rows.length = 16384 ∧
    ∀ (before : Int → Char) (k : Nat) (s : List Char), rows[k]? = some s →
      binaryStringToInt (charAt before s) 17 = k := by
  have hv : ∀ v ∈ (List.range 16384).map (fun i : Nat => (i : Int) % 16384), 0 ≤ v ∧ v < 2 ^ 16 := by
    intro v hv
    obtain ⟨i, -, rfl⟩ := List.mem_map.mp hv
    omega
  obtain ⟨file, rows, hprint, hload, hlen, hread, -⟩ :=
    trace_round_trip ((List.range 16384).map fun i : Nat => (i : Int) % 16384)
      (by rw [List.length_map, List.length_range]) hv
  have hlen' : rows.length = 16384 := by rw [hlen, List.length_map, List.length_range]
  refine ⟨file, rows, hprint, hload, hlen', fun before k s hs => ?_⟩
  have hk : k < 16384 := by
    obtain ⟨hk, -⟩ := List.getElem?_eq_some_iff.mp hs
    omega
  have hvk : ((List.range 16384).map fun i : Nat => (i : Int) % 16384)[k]? = some ((k : Int) % 16384) := by
    rw [List.getElem?_map, List.getElem?_range hk]; rfl
  rw [(hread before k s _ hs hvk).2.2]
  omega

end CS5600.Cache.TraceFile
