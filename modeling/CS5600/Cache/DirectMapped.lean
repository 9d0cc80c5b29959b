/-
  CS5600.Cache.DirectMapped — the two direct-mapped simulators
  (`Assignment5_Memory/CacheSimulator/simulator.c` and `Lab6_CacheSimulator/simulator.c`).

  They are one program over two shapes (`Shape`): the widths of the trace array, and the line an
  address goes to, which every function works out anew from `instructionCache[PC]`. Assignment 5
  has four lines in each of four sets, picked by bits 0 and 1 and by bits 2 and 3; lab 6 has
  four lines, picked by bits 1 and 2. An index outside the lines is a fault. The counters are
  unbounded: the arrays hold too few addresses for an `int` to overflow.

  Proved: each line holds the last address of its index (`Holds`, kept by `access_holds`), so an
  access is a hit exactly when its address came before and no other address of its index came
  in between; all others are misses (`direct_mapped_scores`).
-/

import CS5600.Cache.SimulatorFifo
import CS5600.Cache.TraceFile
import CS5600.Lib.Latest

namespace CS5600.Cache.DirectMapped

open CS5600.Cache.Binary CS5600.Lib.Runs CS5600.Lib.Latest
open CS5600.Cache.TraceFile (Dims assignment5)
open CS5600.Cache.SimulatorFifo (Fault Verdict index index_natCast costOfCacheHit costOfCacheMiss lowBits)

structure Shape (Line : Type) where
  dims : Dims
  /-- The line of the string at `bin`, whose `strlen` is the second argument. -/
  line : (Int → Char) → Nat → Except Fault Line

/-- `cacheSet[cacheSetIndex][cacheLineIndex]` of `Assignment5_Memory`. -/
def cacheSet : Shape (Fin 4 × Fin 4) where
  dims := assignment5
  line := fun bin size => do
    let cacheLineIndex ← index (binaryStringRangeToInt bin size 0 1)
    let cacheSetIndex ← index (binaryStringRangeToInt bin size 2 3)
    return (cacheSetIndex, cacheLineIndex)

/-- `cacheLines[index]` of `Lab6_CacheSimulator`. -/
def cacheLines : Shape (Fin 4) where
  dims := ⟨8, 1024⟩
  line := fun bin size => index (binaryStringRangeToInt bin size 1 2)

structure St (Line : Type) where
  instructionCache : List (List Char)
  pc : Nat
  lines : Line → List Char
  /-- 1 or 0 -/
  cacheOccupied : Line → Nat
  cacheHit : Nat
  cacheMisses : Nat
  totalLatency : Nat

section Program

variable {Line : Type} [DecidableEq Line] (M : Shape Line) (J : Int → Char)

def start (Line : Type) (rows : List (List Char)) : St Line :=
  ⟨rows, 0, fun _ => [], fun _ => 0, 0, 0, 0⟩

def row (st : St Line) (k : Nat) : List Char := st.instructionCache.getD k []

def instruction (st : St Line) : List Char := row st st.pc

/-- What lies before `instructionCache[PC]`: the row before it, and `J` before the first. -/
def beforeRow (st : St Line) (i : Int) : Char :=
  match st.pc with
  | 0 => J i
  | k + 1 => (row st k).getD (M.dims.bitwidth + 1 + i).toNat '\x00'

def lineOf (st : St Line) : Except Fault Line :=
  M.line (charAt (beforeRow M J st) (instruction st)) (instruction st).length

def stepSimulator (st : St Line) : St Line := { st with pc := st.pc + 1 }

def incrementCacheMiss (st : St Line) : St Line :=
  { st with cacheMisses := st.cacheMisses + 1, totalLatency := st.totalLatency + costOfCacheMiss }

def incrementCacheHit (st : St Line) : St Line :=
  { st with cacheHit := st.cacheHit + 1, totalLatency := st.totalLatency + costOfCacheHit }

def replacementPolicy (st : St Line) : Except Fault (St Line) := do
  let i ← lineOf M J st
  return incrementCacheMiss
    { st with
      cacheOccupied := Function.update st.cacheOccupied i 1
      lines := Function.update st.lines i (instruction st) }

def evictionPolicy (st : St Line) : Except Fault (St Line) := do
  let i ← lineOf M J st
  if st.lines i = instruction st then return incrementCacheHit st
  else return incrementCacheMiss { st with lines := Function.update st.lines i (instruction st) }

def checkCache (st : St Line) : Except Fault (St Line) := do
  let i ← lineOf M J st
  if st.cacheOccupied i = 0 then replacementPolicy M J st
  else if st.cacheOccupied i = 1 then evictionPolicy M J st
  else return st

/-- One access and how it was scored. -/
def access (st : St Line) : Except Fault (St Line × Verdict) := do
  let st' ← checkCache M J st
  return (stepSimulator st', if st.cacheHit < st'.cacheHit then .hit else .miss)

def simulate (n : Nat) (st : St Line) : Except Fault (St Line × List Verdict) :=
  answers (fun st (_ : Unit) => access M J st) st (List.replicate n ())

/-! ## One access -/

variable {M J} (cls : List Char → Line)

/-- Every line holds the last of the addresses seen that go there; the others are empty. -/
def Holds (st : St Line) (seen : List (List Char)) : Prop :=
  ∀ i, match latest cls i seen with
    | some a => st.cacheOccupied i = 1 ∧ st.lines i = a
    | none => st.cacheOccupied i = 0

def verdict (seen : List (List Char)) (a : List Char) : Verdict :=
  if latest cls (cls a) seen = some a then .hit else .miss

variable {cls}

theorem Holds.store {st st' : St Line} {seen : List (List Char)} (h : Holds cls st seen) {a : List Char}
    (hocc : st'.cacheOccupied = Function.update st.cacheOccupied (cls a) 1)
    (hlines : st'.lines = Function.update st.lines (cls a) a) : Holds cls st' (seen ++ [a]) := by
  intro i
  rw [latest_snoc, hocc, hlines]
  by_cases e : cls a = i
  · subst e; simp
  · rw [if_neg e, Function.update_of_ne (Ne.symm e), Function.update_of_ne (Ne.symm e)]
    exact h i

/-- The counters after one more access. -/
def Counts (st st' : St Line) : Verdict → Prop
  | .hit => st'.cacheHit = st.cacheHit + 1 ∧ st'.cacheMisses = st.cacheMisses ∧
      st'.totalLatency = st.totalLatency + 1
  | .miss => st'.cacheHit = st.cacheHit ∧ st'.cacheMisses = st.cacheMisses + 1 ∧
      st'.totalLatency = st.totalLatency + 100

theorem checkCache_holds {st : St Line} {seen : List (List Char)} (h : Holds cls st seen)
    (hl : lineOf M J st = .ok (cls (instruction st))) :
    ∃ st', checkCache M J st = .ok st' ∧ Holds cls st' (seen ++ [instruction st]) ∧
      Counts st st' (verdict cls seen (instruction st)) ∧
      st'.pc = st.pc ∧ st'.instructionCache = st.instructionCache := by
  have hi := h (cls (instruction st))
  unfold verdict checkCache replacementPolicy evictionPolicy
  simp only [hl, bind, Except.bind, pure, Except.pure]
  generalize instruction st = a at *
  cases hlat : latest cls (cls a) seen with
  | none =>
    rw [hlat] at hi
    rw [if_pos hi, if_neg (by simp)]
    exact ⟨_, rfl, h.store rfl rfl, ⟨rfl, rfl, rfl⟩, rfl, rfl⟩
  | some b =>
    rw [hlat] at hi
    obtain ⟨hocc, hline⟩ := hi
    have hsame : st.cacheOccupied = Function.update st.cacheOccupied (cls a) 1 :=
      Function.eq_update_iff.mpr ⟨hocc, fun _ _ => rfl⟩
    rw [if_neg (by omega), if_pos hocc, hline]
    by_cases e : b = a
    · subst e
      rw [if_pos rfl, if_pos rfl]
      exact ⟨_, rfl, h.store hsame (Function.eq_update_iff.mpr ⟨hline, fun _ _ => rfl⟩), ⟨rfl, rfl, rfl⟩, rfl, rfl⟩
    · rw [if_neg e, if_neg (by simpa using e)]
      exact ⟨_, rfl, h.store hsame rfl, ⟨rfl, rfl, rfl⟩, rfl, rfl⟩

theorem access_holds {st : St Line} {seen : List (List Char)} (h : Holds cls st seen)
    (hl : lineOf M J st = .ok (cls (instruction st))) :
    ∃ st', access M J st = .ok (st', verdict cls seen (instruction st)) ∧
      Holds cls st' (seen ++ [instruction st]) ∧ Counts st st' (verdict cls seen (instruction st)) ∧
      st'.pc = st.pc + 1 ∧ st'.instructionCache = st.instructionCache := by
  obtain ⟨st', hc, hh, hn, hpc, hin⟩ := checkCache_holds h hl
  refine ⟨stepSimulator st', ?_, hh, ?_, by simp only [stepSimulator, hpc], hin⟩
  · simp only [access, hc, bind, Except.bind, pure, Except.pure]
    cases hv : verdict cls seen (instruction st) <;> rw [hv] at hn <;> simp [hn.1]
  · cases hv : verdict cls seen (instruction st) <;> rw [hv] at hn <;> exact hn

/-! ## Whole traces -/

variable (cls) in
/-- A run so far: each access scored as the addresses before it say, and counted. -/
structure Tally (rows : List (List Char)) (n : Nat) (st : St Line) (vs : List Verdict) : Prop where
  loaded : st.instructionCache = rows
  at_pc : st.pc = n
  holds : Holds cls st (rows.take n)
  length : vs.length = n
  verdicts : ∀ k < n, vs[k]? = some (verdict cls (rows.take k) (rows.getD k []))
  hits : st.cacheHit = vs.count .hit
  misses : st.cacheMisses = vs.count .miss
  latency : st.totalLatency = st.cacheHit + 100 * st.cacheMisses

theorem tally_snoc {rows : List (List Char)} {n : Nat} {st st' : St Line} {vs : List Verdict}
    (h : Tally cls rows n st vs) (hn : n < rows.length)
    (hh : Holds cls st' (rows.take n ++ [instruction st]))
    (hc : Counts st st' (verdict cls (rows.take n) (instruction st)))
    (hpc : st'.pc = st.pc + 1) (hin : st'.instructionCache = st.instructionCache) :
    Tally cls rows (n + 1) st' (vs ++ [verdict cls (rows.take n) (instruction st)]) := by
  have hi : instruction st = rows.getD n [] := by rw [instruction, row, h.loaded, h.at_pc]
  have htake : rows.take n ++ [instruction st] = rows.take (n + 1) := by
    rw [hi, List.take_succ_eq_append_getElem hn, List.getD_eq_getElem _ _ hn]
  refine ⟨hin.trans h.loaded, by rw [hpc, h.at_pc], htake ▸ hh, by simp [h.length], fun k hk => ?_, ?_, ?_, ?_⟩
  · by_cases e : k < n
    · rw [List.getElem?_append_left (by rw [h.length]; exact e)]
      exact h.verdicts k e
    · obtain rfl : k = n := by omega
      rw [List.getElem?_append_right (by rw [h.length]), h.length, hi]
      simp
  · have := h.hits
    cases hv : verdict cls (rows.take n) (instruction st) <;> rw [hv] at hc <;> simp [List.count_append, hc.1, this]
  · have := h.misses
    cases hv : verdict cls (rows.take n) (instruction st) <;> rw [hv] at hc <;> simp [List.count_append, hc.2.1, this]
  · have := h.latency
    cases hv : verdict cls (rows.take n) (instruction st) <;> rw [hv] at hc <;> rw [hc.1, hc.2.1, hc.2.2, this] <;> ring

/-- The induction is on the number of accesses made. -/
theorem simulate_tally {rows : List (List Char)} (hl : ∀ a ∈ rows, ∀ before, M.line (charAt before a) a.length = .ok (cls a)) :
    ∀ n ≤ rows.length, ∃ st vs, simulate M J n (start Line rows) = .ok (st, vs) ∧ Tally cls rows n st vs := by
  intro n
  induction n with
  | zero =>
    intro _
    exact ⟨start Line rows, [], rfl, rfl, rfl, fun i => by simp [start], rfl, by simp, rfl, rfl, rfl⟩
  | succ n ih =>
    intro hn
    obtain ⟨st, vs, hrun, h⟩ := ih (by omega)
    have hi : instruction st = rows[n] := by
      rw [instruction, row, h.loaded, h.at_pc, List.getD_eq_getElem _ _ (by omega)]
    have hline : lineOf M J st = .ok (cls (instruction st)) :=
      hl _ (by rw [hi]; exact List.getElem_mem _) _
    obtain ⟨st', hacc, hh, hc, hpc, hin⟩ := access_holds h.holds hline
    refine ⟨st', _, ?_, tally_snoc h (by omega) hh hc hpc hin⟩
    unfold simulate at hrun ⊢
    rw [List.replicate_succ']
    exact answers_snoc hrun hacc

end Program

/-! ## By positions in the trace -/

/-- The address at `k` came before, and no other address of its index came in between. -/
def Retained (idx : List Char → Nat) (rows : List (List Char)) (k : Nat) : Prop :=
  ∃ j < k, rows.getD j [] = rows.getD k [] ∧
    ∀ i, j < i → i < k → idx (rows.getD i []) = idx (rows.getD k []) → rows.getD i [] = rows.getD k []

theorem verdict_hit_iff {Line : Type} [DecidableEq Line] {cls : List Char → Line} {idx : List Char → Nat}
    (hidx : ∀ a b, cls a = cls b ↔ idx a = idx b) {rows : List (List Char)} {k : Nat} (hk : k < rows.length) :
    verdict cls (rows.take k) (rows.getD k []) = .hit ↔ Retained idx rows k := by
  have hat : ∀ j < k, (rows.take k)[j]? = some (rows.getD j []) := by
    intro j hj
    rw [List.getElem?_take_of_lt hj, List.getElem?_eq_getElem (by omega), List.getD_eq_getElem _ _ (by omega)]
  have hlt : ∀ {j a}, (rows.take k)[j]? = some a → j < k := by
    intro j a h
    have := (List.getElem?_eq_some_iff.mp h).1
    simp only [List.length_take] at this
    omega
  have hv : verdict cls (rows.take k) (rows.getD k []) = .hit ↔
      latest cls (cls (rows.getD k [])) (rows.take k) = some (rows.getD k []) := by
    unfold verdict; split <;> simp_all
  rw [hv, latest_eq_iff]
  constructor
  · intro h
    obtain ⟨j, hj, hno⟩ := h
    have hjk := hlt hj
    rw [hat j hjk, Option.some.injEq] at hj
    exact ⟨j, hjk, hj, fun i hi hik e => hno i _ hi (hat i hik) ((hidx _ _).mpr e)⟩
  · intro h
    obtain ⟨j, hjk, hj, hno⟩ := h
    refine ⟨j, by rw [hat j hjk, hj], fun i b hi hb hcls => ?_⟩
    have hik := hlt hb
    rw [hat i hik, Option.some.injEq] at hb
    subst hb
    exact hno i hi hik ((hidx _ _).mp hcls)

/-- After every access of the trace: each was a hit exactly if its address was retained and a
    miss if not, all are counted, and the latency is what they cost. -/
def Scores {Line : Type} [DecidableEq Line] (M : Shape Line) (idx : List Char → Nat) (J : Int → Char)
    (rows : List (List Char)) : Prop :=
  ∀ n ≤ rows.length, ∃ st vs, simulate M J n (start Line rows) = .ok (st, vs) ∧ vs.length = n ∧
    (∀ k < n, vs[k]? = some .hit ↔ Retained idx rows k) ∧
    st.cacheHit = vs.count .hit ∧ st.cacheMisses = vs.count .miss ∧
    st.totalLatency = st.cacheHit + 100 * st.cacheMisses

theorem scores_of_line {Line : Type} [DecidableEq Line] {M : Shape Line} (cls : List Char → Line)
    {idx : List Char → Nat} (hidx : ∀ a b, cls a = cls b ↔ idx a = idx b) (J : Int → Char) {rows : List (List Char)}
    (hl : ∀ a ∈ rows, ∀ before, M.line (charAt before a) a.length = .ok (cls a)) : Scores M idx J rows := by
  intro n hn
  obtain ⟨st, vs, hrun, h⟩ := simulate_tally (J := J) hl n hn
  refine ⟨st, vs, hrun, h.length, fun k hk => ?_, h.hits, h.misses, h.latency⟩
  rw [h.verdicts k hk, Option.some.injEq]
  exact verdict_hit_iff hidx (by omega)

def setAndLine (a : List Char) : Fin 4 × Fin 4 :=
  (⟨value a / 4 % 4, Nat.mod_lt _ (by decide)⟩, lowBits a)

def lineIndex (a : List Char) : Fin 4 := ⟨value a / 2 % 4, Nat.mod_lt _ (by decide)⟩

theorem cacheSet_line (before : Int → Char) {a : List Char} (h : 4 ≤ a.length) :
    cacheSet.line (charAt before a) a.length = .ok (setAndLine a) := by
  have h1 := range_value before a 2 3 (by omega) (by omega)
  norm_num at h1
  simp only [cacheSet, range_low_two before (by omega : 2 ≤ a.length), bind, Except.bind]
  rw [index_natCast (Nat.mod_lt _ (by decide))]
  simp only [h1]
  rw [show ((value a : Int) / 4 % 4) = ((value a / 4 % 4 : Nat) : Int) by omega, index_natCast (Nat.mod_lt _ (by decide))]
  rfl

theorem cacheLines_line (before : Int → Char) {a : List Char} (h : 3 ≤ a.length) :
    cacheLines.line (charAt before a) a.length = .ok (lineIndex a) := by
  have h1 := range_value before a 1 2 (by omega) (by omega)
  norm_num at h1
  simp only [cacheLines, h1]
  rw [show ((value a : Int) / 2 % 4) = ((value a / 2 % 4 : Nat) : Int) by omega, index_natCast (Nat.mod_lt _ (by decide))]
  rfl

/-- Both simulators, on traces whose lines have one width and all the bits of the index. -/
theorem direct_mapped_scores (J : Int → Char) (w : Nat) (rows : List (List Char))
    (h : ∀ a ∈ rows, a.length = w ∧ ∀ c ∈ a, IsBit c) :
    (4 ≤ w → Scores cacheSet (fun a => value a % 16) J rows) ∧
    (3 ≤ w → Scores cacheLines (fun a => value a / 2 % 4) J rows) := by
  constructor
  · intro hw
    refine scores_of_line setAndLine (fun a b => ?_) J
      (fun a ha before => cacheSet_line before (by rw [(h a ha).1]; exact hw))
    simp only [setAndLine, lowBits, Prod.mk.injEq, Fin.mk.injEq]
    omega
  · intro hw
    refine scores_of_line lineIndex (fun a b => ?_) J
      (fun a ha before => cacheLines_line before (by rw [(h a ha).1]; exact hw))
    simp only [lineIndex, Fin.mk.injEq]

/-- Two addresses that share their index bits in both simulators, and the first of them again. -/
def conflict : List (List Char) :=
  [List.replicate 8 '0', '1' :: List.replicate 7 '0', List.replicate 8 '0']

theorem conflict_bits : ∀ a ∈ conflict, a.length = 8 ∧ ∀ c ∈ a, IsBit c := by
  simp [conflict, IsBit]

theorem direct_mapped_scores_conflict :
    (∀ a ∈ conflict, a.length = 8 ∧ ∀ c ∈ a, IsBit c) ∧
    Scores cacheSet (fun a => value a % 16) (fun _ => '1') conflict ∧
    Scores cacheLines (fun a => value a / 2 % 4) (fun _ => '1') conflict :=
  ⟨conflict_bits, (direct_mapped_scores (fun _ => '1') 8 conflict conflict_bits).1 (by decide),
    (direct_mapped_scores (fun _ => '1') 8 conflict conflict_bits).2 (by decide)⟩

end CS5600.Cache.DirectMapped
