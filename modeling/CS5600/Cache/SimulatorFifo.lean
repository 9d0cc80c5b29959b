/-
  CS5600.Cache.SimulatorFifo — the set-associative simulator
  (`Assignment5_Memory/CacheSimulator/simulator_fifo.c`).

  The trace is `instructionCache`, a row of characters for each line, empty rows after the last
  (the array is a zeroed global); `access` is one round of `main`'s loop without its drawing
  (`checkCache`, then `stepSimulator`). An index outside `cacheSet`'s or `cacheOccupied`'s
  bounds is a fault, but for one read: the last round of `shiftArray` copies `cacheSet[set][-1]`,
  which is the last line of the set before it and, for set 0, whatever precedes the array
  (`Junk.cache`). The counters are unbounded; a trace the array can hold keeps them far below
  `INT_MAX` (`counters_fit`).

  Proved: `simulator_refines`: on every trace of 16-digit lines, whatever `Junk` is, the hits and
  misses are those of four FIFO queues of four lines (`Ref.step`), access by access, and after
  every access the occupied lines of each row, read from the right, are that set's queue from
  oldest to newest (`Shows`).
-/

import CS5600.Cache.Binary
import CS5600.Lib.Runs

namespace CS5600.Cache

-- The proofs in every numeral of `Fin 4` and every search for a string, under one name.
scoped instance neZero_four : NeZero 4 := inferInstance

scoped instance lawfulBEq_chars : LawfulBEq (List Char) := inferInstance

namespace SimulatorFifo

open CS5600.Cache.Binary CS5600.Lib.Runs

/-- Memory the program reads and never wrote: the bytes before `instructionCache`, and the
    string that ends right before `cacheSet`. -/
structure Junk where
  trace : Int → Char
  cache : List Char

inductive Fault where
  | index (i : Int)
  deriving DecidableEq, Repr

structure St where
  instructionCache : List (List Char)
  pc : Nat
  cacheSet : Fin 4 → Fin 4 → List Char
  /-- Number of occupied spots in each set. -/
  cacheOccupied : Fin 4 → Nat
  cacheHit : Nat
  cacheMisses : Nat
  totalLatency : Nat

inductive Verdict where
  | hit
  | miss
  deriving DecidableEq, Repr

def costOfCacheHit : Nat := 1

def costOfCacheMiss : Nat := 100

/-- The state `main` starts its loop in, its trace loaded. -/
def start (trace : List (List Char)) : St :=
  ⟨trace, 0, fun _ _ => [], fun _ => 0, 0, 0, 0⟩

def row (st : St) (k : Nat) : List Char := st.instructionCache.getD k []

/-- `instructionCache[PC]` -/
def instruction (st : St) : List Char := row st st.pc

/-- What lies before `instructionCache[PC]`: the 17 bytes of the row before it. -/
def beforeRow (J : Junk) (st : St) (i : Int) : Char :=
  match st.pc with
  | 0 => J.trace i
  | k + 1 => (row st k).getD (17 + i).toNat '\x00'

def cacheSetIndex (J : Junk) (st : St) : Int :=
  binaryStringRangeToInt (charAt (beforeRow J st) (instruction st)) (instruction st).length 0 1

def index (i : Int) : Except Fault (Fin 4) :=
  if h : i.toNat < 4 ∧ 0 ≤ i then .ok ⟨i.toNat, h.1⟩ else .error (.index i)

def stepSimulator (st : St) : St := { st with pc := st.pc + 1 }

def incrementCacheOccupied (st : St) (set : Fin 4) : St :=
  { st with cacheOccupied := Function.update st.cacheOccupied set (st.cacheOccupied set + 1) }

def incrementCacheMiss (st : St) : St :=
  { st with cacheMisses := st.cacheMisses + 1, totalLatency := st.totalLatency + costOfCacheMiss }

def incrementCacheHit (st : St) : St :=
  { st with cacheHit := st.cacheHit + 1, totalLatency := st.totalLatency + costOfCacheHit }

/-- `strcpy(cacheSet[set][i], s)` -/
def setLine (c : Fin 4 → Fin 4 → List Char) (set i : Fin 4) (s : List Char) : Fin 4 → Fin 4 → List Char :=
  Function.update c set (Function.update (c set) i s)

def getInstructionPos (st : St) (set : Fin 4) : Int :=
  match (List.finRange 4).find? fun i => instruction st == st.cacheSet set i with
  | some i => i.val
  | none => -1

/-- `cacheSet[set][i-1]` -/
def lineBefore (J : Junk) (c : Fin 4 → Fin 4 → List Char) (set i : Fin 4) : List Char :=
  if i = 0 then (if set = 0 then J.cache else c (set - 1) 3) else c set (i - 1)

def shiftArray (J : Junk) (st : St) (set : Fin 4) : St :=
  { st with
    cacheSet := [(3 : Fin 4), 2, 1, 0].foldl (fun c i => setLine c set i (lineBefore J c set i)) st.cacheSet }

def replacementPolicy (st : St) (set : Fin 4) : Except Fault St :=
  if st.cacheOccupied set = 0 then
    .ok (incrementCacheMiss (incrementCacheOccupied
      { st with cacheSet := setLine st.cacheSet set 3 (instruction st) } set))
  else if getInstructionPos st set = -1 then do
    let pos ← index (3 - st.cacheOccupied set)
    let st := incrementCacheMiss (incrementCacheOccupied st set)
    return { st with cacheSet := setLine st.cacheSet set pos (instruction st) }
  else .ok (incrementCacheHit st)

def evictionPolicy (J : Junk) (st : St) (set : Fin 4) : St :=
  if getInstructionPos st set ≠ -1 then incrementCacheHit st
  else
    let st := shiftArray J st set
    incrementCacheMiss { st with cacheSet := setLine st.cacheSet set 0 (instruction st) }

/-- A set is full at `S` lines; `S` and `E` are both 4. -/
def checkCache (J : Junk) (st : St) : Except Fault St := do
  let set ← index (cacheSetIndex J st)
  if st.cacheOccupied set ≠ 4 then replacementPolicy st set else return evictionPolicy J st set

/-- One access and how it was scored. -/
def access (J : Junk) (st : St) : Except Fault (St × Verdict) := do
  let st' ← checkCache J st
  return (stepSimulator st', if st.cacheHit < st'.cacheHit then .hit else .miss)

/-- The first `n` accesses. -/
def simulate (J : Junk) (n : Nat) (st : St) : Except Fault (St × List Verdict) :=
  answers (fun st (_ : Unit) => access J st) st (List.replicate n ())

/-! ## The reference cache -/

abbrev Ref := Fin 4 → List (List Char)

/-- The queue of an address: its low two bits. -/
def lowBits (a : List Char) : Fin 4 := ⟨value a % 4, Nat.mod_lt _ (by decide)⟩

/-- Queues of at most four addresses, the oldest first. -/
def Ref.step (q : Ref) (a : List Char) : Ref × Verdict :=
  let old := q (lowBits a)
  if a ∈ old then (q, .hit)
  else (Function.update q (lowBits a) ((if old.length = 4 then old.tail else old) ++ [a]), .miss)

/-- The occupied lines of every row, read from the right, are the queue from oldest to newest;
    the lines left of them are still empty. -/
structure Shows (st : St) (q : Ref) : Prop where
  occupied : ∀ k, st.cacheOccupied k = (q k).length
  lines : ∀ k j (h : j < (q k).length), st.cacheSet k ⟨3 - j, by omega⟩ = (q k)[j]
  empty : ∀ k (j : Fin 4), j.val + (q k).length < 4 → st.cacheSet k j = []

/-! ## Looking an address up -/

@[simp] theorem setLine_same (c : Fin 4 → Fin 4 → List Char) (set i : Fin 4) (s : List Char) :
    setLine c set i s set i = s := by simp [setLine]

theorem setLine_line (c : Fin 4 → Fin 4 → List Char) (set : Fin 4) {i j : Fin 4} (s : List Char) (h : j ≠ i) :
    setLine c set i s set j = c set j := by simp [setLine, h]

theorem setLine_set (c : Fin 4 → Fin 4 → List Char) {set k : Fin 4} (i : Fin 4) (s : List Char) (h : k ≠ set) :
    setLine c set i s k = c k := by simp [setLine, h]

/-- An address is queued exactly when some line of its row holds it: the empty lines, which the
    lookup scans too, hold no address. -/
theorem Shows.mem_iff {st : St} {q : Ref} (h : Shows st q) (k : Fin 4) {a : List Char} (ha : a ≠ []) :
    a ∈ q k ↔ ∃ i, a = st.cacheSet k i := by
  constructor
  · intro hm
    obtain ⟨j, hj, rfl⟩ := List.getElem_of_mem hm
    exact ⟨_, (h.lines k j hj).symm⟩
  · intro h
    obtain ⟨i, rfl⟩ := h
    by_cases hi : i.val + (q k).length < 4
    · exact absurd (h.empty k i hi) ha
    · have hj : 3 - i.val < (q k).length := by have := i.isLt; omega
      have hl := h.lines k (3 - i.val) hj
      have e : (⟨3 - (3 - i.val), by omega⟩ : Fin 4) = i := by ext; simp; omega
      rw [e] at hl
      rw [hl]; exact List.getElem_mem hj

theorem getInstructionPos_iff (st : St) (set : Fin 4) :
    getInstructionPos st set = -1 ↔ ¬ ∃ i, instruction st = st.cacheSet set i := by
  unfold getInstructionPos
  cases hf : (List.finRange 4).find? fun i => instruction st == st.cacheSet set i with
  | none =>
    simp only [List.find?_eq_none, List.mem_finRange, beq_iff_eq, true_implies] at hf
    simpa using hf
  | some i =>
    have hi := List.find?_some hf
    simp only [beq_iff_eq] at hi
    simp only [hi]
    constructor
    · intro h; omega
    · intro h; exact absurd ⟨i, rfl⟩ h

theorem pos_iff {st : St} {q : Ref} (h : Shows st q) (k : Fin 4) (ha : instruction st ≠ []) :
    getInstructionPos st k = -1 ↔ instruction st ∉ q k := by
  rw [getInstructionPos_iff, h.mem_iff k ha]

/-! ## Filling and shifting a row -/

theorem shows_fill {st : St} {q : Ref} (h : Shows st q) {k : Fin 4} (hk : (q k).length < 4) {a : List Char}
    {p : Fin 4} (hp : p.val = 3 - (q k).length) {st' : St}
    (hset : st'.cacheSet = setLine st.cacheSet k p a)
    (hocc : st'.cacheOccupied = Function.update st.cacheOccupied k (st.cacheOccupied k + 1)) :
    Shows st' (Function.update q k (q k ++ [a])) := by
  refine ⟨fun i => ?_, fun i j hj => ?_, fun i j hj => ?_⟩
  · rw [hocc]
    by_cases e : i = k
    · subst e; simp [h.occupied]
    · simp [e, h.occupied]
  · rw [hset]
    by_cases e : i = k
    · subst e
      simp only [Function.update_self, List.length_append, List.length_singleton] at hj ⊢
      by_cases ej : j = (q i).length
      · subst ej
        have : (⟨3 - (q i).length, by omega⟩ : Fin 4) = p := by ext; simp [hp]
        rw [this, setLine_same]; simp
      · have hne : (⟨3 - j, by omega⟩ : Fin 4) ≠ p := by
          intro e; have := congrArg Fin.val e; simp [hp] at this; omega
        rw [setLine_line _ _ _ hne, h.lines i j (by omega), List.getElem_append_left (by omega)]
    · simp only [Function.update_of_ne e] at hj ⊢
      rw [setLine_set _ _ _ e]; exact h.lines i j hj
  · rw [hset]
    by_cases e : i = k
    · subst e
      simp only [Function.update_self, List.length_append, List.length_singleton] at hj
      have hne : j ≠ p := by intro e; subst e; omega
      rw [setLine_line _ _ _ hne]; exact h.empty i j (by omega)
    · simp only [Function.update_of_ne e] at hj
      rw [setLine_set _ _ _ e]; exact h.empty i j hj

/-- The shift moves every line of the row one place right and leaves the other rows alone. -/
theorem shiftArray_line (J : Junk) (st : St) (set i : Fin 4) (h : i ≠ 0) :
    (shiftArray J st set).cacheSet set i = st.cacheSet set (i - 1) := by
  match i, h with
  | 1, _ => simp [shiftArray, setLine, lineBefore]
  | 2, _ => simp [shiftArray, setLine, lineBefore]
  | 3, _ => simp [shiftArray, setLine, lineBefore]

theorem shiftArray_set (J : Junk) (st : St) {set k : Fin 4} (h : k ≠ set) :
    (shiftArray J st set).cacheSet k = st.cacheSet k := by
  simp [shiftArray, setLine_set _ _ _ h]

theorem shows_shift (J : Junk) {st : St} {q : Ref} (h : Shows st q) {k : Fin 4} (hk : (q k).length = 4)
    {a : List Char} {st' : St} (hset : st'.cacheSet = setLine (shiftArray J st k).cacheSet k 0 a)
    (hocc : st'.cacheOccupied = st.cacheOccupied) :
    Shows st' (Function.update q k ((q k).tail ++ [a])) := by
  have hlen : ((q k).tail ++ [a]).length = 4 := by simp [hk]
  refine ⟨fun i => ?_, fun i j hj => ?_, fun i j hj => ?_⟩
  · rw [hocc]
    by_cases e : i = k
    · subst e; simp [h.occupied, hk]
    · simp [e, h.occupied]
  · rw [hset]
    by_cases e : i = k
    · subst e
      simp only [Function.update_self] at hj ⊢
      rw [hlen] at hj
      by_cases ej : j = 3
      · subst ej
        rw [List.getElem_append_right (by simp [hk])]
        simp [hk]
      · have hne : (⟨3 - j, by omega⟩ : Fin 4) ≠ 0 := by
          intro e; have := congrArg Fin.val e; simp at this; omega
        have hl := h.lines i (j + 1) (by omega)
        have e1 : (⟨3 - j, by omega⟩ : Fin 4) - 1 = ⟨3 - (j + 1), by omega⟩ := by
          apply Fin.ext; simp only [Fin.sub_def]; simp; omega
        rw [setLine_line _ _ _ hne, shiftArray_line _ _ _ _ hne, e1, hl,
          List.getElem_append_left (by simp [hk]; omega), List.getElem_tail]
    · simp only [Function.update_of_ne e] at hj ⊢
      rw [setLine_set _ _ _ e, shiftArray_set _ _ e]; exact h.lines i j hj
  · rw [hset]
    by_cases e : i = k
    · subst e; simp only [Function.update_self] at hj; omega
    · simp only [Function.update_of_ne e] at hj
      rw [setLine_set _ _ _ e, shiftArray_set _ _ e]; exact h.empty i j hj

/-! ## One access -/

/-- The reference's own invariant: four lines at most, no address twice. -/
def Ref.WF (q : Ref) : Prop := ∀ k, (q k).length ≤ 4 ∧ (q k).Nodup

theorem Ref.step_wf {q : Ref} (h : q.WF) (a : List Char) : (q.step a).1.WF := by
  intro k
  simp only [Ref.step]
  split
  · exact h k
  · rename_i hm
    by_cases e : k = lowBits a
    · subst e
      obtain ⟨hl, hn⟩ := h (lowBits a)
      simp only [Function.update_self, List.length_append, List.length_singleton]
      have hn' : (if (q (lowBits a)).length = 4 then (q (lowBits a)).tail else q (lowBits a)).Nodup := by
        split
        · exact hn.sublist (List.tail_sublist _)
        · exact hn
      refine ⟨by split <;> simp <;> omega, List.Nodup.append hn' (List.nodup_singleton a) ?_⟩
      simp only [List.disjoint_singleton]
      split
      · exact fun h => hm (List.mem_of_mem_tail h)
      · exact hm
    · simpa [Function.update_of_ne e] using h k

theorem address_ne_nil {a : List Char} (h : IsAddress a) : a ≠ [] := by
  intro e
  subst e
  simp [IsAddress] at h

theorem index_natCast {n : Nat} (h : n < 4) : index (n : Int) = .ok ⟨n, h⟩ := by
  simp [index, h]

theorem index_lowBits (J : Junk) {st : St} (h : IsAddress (instruction st)) :
    index (cacheSetIndex J st) = .ok (lowBits (instruction st)) := by
  have h2 : 2 ≤ (instruction st).length := by rw [h.1]; decide
  rw [cacheSetIndex, range_low_two _ h2, index_natCast (Nat.mod_lt _ (by decide))]
  rfl

/-- The books of the scores: what each access costs. -/
def Scored (st : St) (n : Nat) : Prop :=
  st.cacheHit + st.cacheMisses = n ∧ st.totalLatency = st.cacheHit + 100 * st.cacheMisses

/-- What `checkCache` does on an address, by the reference's verdict. -/
theorem checkCache_sim (J : Junk) {st : St} {q : Ref} (h : Shows st q) (hq : q.WF)
    (ha : IsAddress (instruction st)) :
    ∃ st', checkCache J st = .ok st' ∧ Shows st' (q.step (instruction st)).1 ∧
      st'.pc = st.pc ∧ st'.instructionCache = st.instructionCache ∧
      match (q.step (instruction st)).2 with
      | .hit => st'.cacheHit = st.cacheHit + 1 ∧ st'.cacheMisses = st.cacheMisses ∧
          st'.totalLatency = st.totalLatency + 1
      | .miss => st'.cacheHit = st.cacheHit ∧ st'.cacheMisses = st.cacheMisses + 1 ∧
          st'.totalLatency = st.totalLatency + 100 := by
  have hpos := pos_iff h (lowBits (instruction st)) (address_ne_nil ha)
  have hocc := h.occupied (lowBits (instruction st))
  have hle := (hq (lowBits (instruction st))).1
  simp only [checkCache, index_lowBits J ha, bind, Except.bind, pure, Except.pure]
  generalize hk : lowBits (instruction st) = k at hpos hocc hle
  by_cases hm : instruction st ∈ q k
  · have hstep : q.step (instruction st) = (q, .hit) := by simp [Ref.step, hk, hm]
    have hp : getInstructionPos st k ≠ -1 := fun e => hpos.mp e hm
    have h0 : st.cacheOccupied k ≠ 0 := by
      rw [hocc]; intro e; rw [List.length_eq_zero_iff.mp e] at hm; cases hm
    rw [hstep]
    refine ⟨incrementCacheHit st, ?_, ⟨h.occupied, h.lines, h.empty⟩, rfl, rfl, rfl, rfl, rfl⟩
    split
    · simp [replacementPolicy, h0, hp]
    · simp [evictionPolicy, hp]
  · have hp : getInstructionPos st k = -1 := hpos.mpr hm
    have hstep : q.step (instruction st) =
        (Function.update q k ((if (q k).length = 4 then (q k).tail else q k) ++ [instruction st]), .miss) := by
      simp [Ref.step, hk, hm]
    rw [hstep]
    by_cases h4 : (q k).length = 4
    · simp only [hocc, h4, ne_eq, not_true_eq_false, if_false, if_true]
      refine ⟨evictionPolicy J st k, rfl, ?_, ?_⟩
      · exact shows_shift J h h4 (by simp [evictionPolicy, hp]; rfl) (by simp [evictionPolicy, hp]; rfl)
      · simp [evictionPolicy, hp]; exact ⟨rfl, rfl, rfl, rfl, rfl⟩
    · simp only [hocc, h4, ne_eq, not_false_eq_true, if_true, if_false]
      by_cases h0 : (q k).length = 0
      · refine ⟨incrementCacheMiss (incrementCacheOccupied
          { st with cacheSet := setLine st.cacheSet k 3 (instruction st) } k), ?_, ?_, rfl, rfl, rfl, rfl, rfl⟩
        · simp only [replacementPolicy, hocc, h0, if_true]
        · exact shows_fill h (p := 3) (by omega) (by simp [h0]) rfl rfl
      · have hi : index (3 - ((q k).length : Int)) = .ok ⟨3 - (q k).length, by omega⟩ := by
          rw [← index_natCast (by omega)]
          congr 1; omega
        refine ⟨{ incrementCacheMiss (incrementCacheOccupied st k) with
          cacheSet := setLine st.cacheSet k ⟨3 - (q k).length, by omega⟩ (instruction st) },
          ?_, ?_, rfl, rfl, rfl, rfl, rfl⟩
        · simp only [replacementPolicy, hp, hocc, h0, hi, if_true, if_false, bind, Except.bind, pure, Except.pure]
          rfl
        · exact shows_fill h (p := ⟨3 - (q k).length, by omega⟩) (by omega) rfl rfl rfl

theorem access_sim (J : Junk) {st : St} {q : Ref} {n : Nat} (h : Shows st q) (hq : q.WF)
    (hs : Scored st n) (ha : IsAddress (instruction st)) :
    ∃ st', access J st = .ok (st', (q.step (instruction st)).2) ∧ Shows st' (q.step (instruction st)).1 ∧
      Scored st' (n + 1) ∧ st'.pc = st.pc + 1 ∧ st'.instructionCache = st.instructionCache := by
  obtain ⟨st', hc, hsh, hpc, hin, hv⟩ := checkCache_sim J h hq ha
  refine ⟨stepSimulator st', ?_, ⟨hsh.occupied, hsh.lines, hsh.empty⟩, ?_, ?_, hin⟩
  · simp only [access, hc, bind, Except.bind, pure, Except.pure]
    cases hd : (q.step (instruction st)).2 with
    | hit => rw [hd] at hv; simp [hv.1]
    | miss => rw [hd] at hv; simp [hv.1]
  · obtain ⟨h1, h2⟩ := hs
    cases hd : (q.step (instruction st)).2 <;> rw [hd] at hv <;> obtain ⟨a1, a2, a3⟩ := hv <;>
      exact ⟨by simp only [stepSimulator]; omega, by simp only [stepSimulator]; omega⟩
  · simp [stepSimulator, hpc]

/-! ## Whole traces -/

theorem getD_of_drop {rows es : List (List Char)} {n : Nat} {a d : List Char} (h : rows.drop n = a :: es) :
    rows.getD n d = a := by
  have : rows[n]? = some a := by
    rw [← List.head?_drop, h]; rfl
  simp [List.getD, this]

theorem instruction_of_drop {st : St} {a : List Char} {es : List (List Char)}
    (h : st.instructionCache.drop st.pc = a :: es) : instruction st = a :=
  getD_of_drop h

/-- The induction is on what is left of the trace; `rest` is what the run does not reach. -/
theorem simulate_sim (J : Junk) (rest : List (List Char)) :
    ∀ (es : List (List Char)) (st : St) (q : Ref) (n : Nat), Shows st q → q.WF → Scored st n →
      st.instructionCache.drop st.pc = es ++ rest → (∀ a ∈ es, IsAddress a) →
      ∃ st', simulate J es.length st = .ok (st', (replies Ref.step q es).2) ∧
        Shows st' (replies Ref.step q es).1 ∧ (replies Ref.step q es).1.WF ∧ Scored st' (n + es.length) := by
  intro es
  induction es with
  | nil => intro st q n h hq hs _ _; exact ⟨st, rfl, h, hq, hs⟩
  | cons a es ih =>
    intro st q n h hq hs hd ha
    have hi : instruction st = a := instruction_of_drop hd
    obtain ⟨st1, hacc, h1, hs1, hpc, hin⟩ := access_sim J h hq hs (hi ▸ ha a (List.mem_cons_self ..))
    rw [hi] at hacc h1
    have hd1 : st1.instructionCache.drop st1.pc = es ++ rest := by
      rw [hin, hpc, ← List.drop_drop, hd]; rfl
    obtain ⟨st2, hrun, h2, hq2, hs2⟩ :=
      ih st1 _ (n + 1) h1 (Ref.step_wf hq a) hs1 hd1 (fun x hx => ha x (List.mem_cons_of_mem _ hx))
    refine ⟨st2, ?_, h2, hq2, ?_⟩
    · unfold simulate at hrun ⊢
      simp only [List.length_cons, List.replicate_succ, answers, hacc, hrun, replies]
    · rw [List.length_cons, Nat.add_comm es.length 1, ← Nat.add_assoc]; exact hs2

/-- On every trace of 16-digit lines and after each of its accesses: no index leaves its array,
    the verdicts so far are the reference's, each row shows its queue, no address is held twice,
    and every access was scored once at its cost. -/
theorem simulator_refines (J : Junk) (trace : List (List Char)) (h : ∀ a ∈ trace, IsAddress a) (n : Nat)
    (hn : n ≤ trace.length) :
    ∃ st, simulate J n (start trace) = .ok (st, (replies Ref.step (fun _ => []) (trace.take n)).2) ∧
      Shows st (replies Ref.step (fun _ => []) (trace.take n)).1 ∧
      (∀ k, ((replies Ref.step (fun _ => []) (trace.take n)).1 k).Nodup) ∧
      st.cacheHit + st.cacheMisses = n ∧ st.totalLatency = st.cacheHit + 100 * st.cacheMisses := by
  have h0 : Shows (start trace) (fun _ => []) :=
    ⟨fun _ => rfl, fun _ j hj => by simp at hj, fun _ _ _ => rfl⟩
  obtain ⟨st, hrun, hsh, hwf, hs⟩ := simulate_sim J (trace.drop n) (trace.take n) (start trace) (fun _ => []) 0
    h0 (fun _ => ⟨by simp, List.nodup_nil⟩) ⟨rfl, rfl⟩ (by simp [start])
    (fun a ha => h a (List.mem_of_mem_take ha))
  rw [List.length_take, Nat.min_eq_left hn] at hrun hs
  rw [Nat.zero_add] at hs
  exact ⟨st, hrun, hsh, fun k => (hwf k).2, hs⟩

/-- A trace that `instructionCache` can hold keeps the counters below `INT_MAX`. -/
theorem counters_fit {st : St} {n : Nat} (h : Scored st n) (hn : n ≤ 16384) :
    st.cacheHit < 2 ^ 31 ∧ st.cacheMisses < 2 ^ 31 ∧ st.totalLatency < 2 ^ 31 := by
  obtain ⟨h1, h2⟩ := h
  omega

/-- Five addresses of set 0 and the first of them again: the fifth drops the first. -/
def cycle : List (List Char) :=
  [['0', '0', '0'], ['0', '0', '1'], ['0', '1', '0'], ['0', '1', '1'], ['1', '0', '0'], ['0', '0', '0']].map
    fun hi => List.replicate 11 '0' ++ hi ++ ['0', '0']

theorem simulator_refines_cycle :
    (∀ a ∈ cycle, IsAddress a) ∧ 6 ≤ cycle.length ∧
    ∃ st, simulate ⟨fun _ => '1', ['x']⟩ 6 (start cycle) =
        .ok (st, [.miss, .miss, .miss, .miss, .miss, .miss]) ∧
      Shows st (replies Ref.step (fun _ => []) (cycle.take 6)).1 ∧
      (∀ k, ((replies Ref.step (fun _ => []) (cycle.take 6)).1 k).Nodup) ∧
      st.cacheHit + st.cacheMisses = 6 ∧ st.totalLatency = st.cacheHit + 100 * st.cacheMisses :=
  ⟨by decide, by decide, simulator_refines ⟨fun _ => '1', ['x']⟩ cycle (by decide) 6 (by decide)⟩

end SimulatorFifo

end CS5600.Cache
