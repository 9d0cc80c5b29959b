/-
  CS5600.Cache.MySimulator — the LRU attempt (`Assignment5_Memory/CacheSimulator/mySimulator.c`).

  `Data1`, `Age1`, `counter1` and `filled1` are set 0 of `St.sets`, and so on. The four copies of
  the fill code and of the branches of `replacementPolicy` are one definition each, but for two
  that differ: `addToSet1` copies the evicted line into the trace instead of the other way, and
  the hit path of set 3 stands under `case 4`, which no set index reaches. `getMin` looks for the
  largest age.

  Proved: on an address the simulator does nothing but one step of the address's own set, and
  there are three kinds of sets (`Kind`, `access_step`); so a trace is four independent runs of
  `setStep` (`simulate_banks`).
-/

import CS5600.Cache.SimulatorFifo
import CS5600.Lib.Banks

namespace CS5600.Cache.MySimulator

open CS5600.Cache.Binary CS5600.Lib.Runs CS5600.Lib.Banks
open CS5600.Cache.SimulatorFifo (Fault Verdict index index_natCast costOfCacheHit costOfCacheMiss lowBits Junk)

structure CacheSet where
  data : Fin 4 → List Char
  age : Fin 4 → Int
  counter : Int
  filled : Nat

structure St where
  instructionCache : List (List Char)
  pc : Nat
  sets : Fin 4 → CacheSet
  cacheHit : Nat
  cacheMisses : Nat
  totalLatency : Nat

def emptySet : CacheSet := ⟨fun _ => [], fun _ => -1, 0, 0⟩

/-- The state `main` starts its loop in. -/
def start (rows : List (List Char)) : St := ⟨rows, 0, fun _ => emptySet, 0, 0, 0⟩

def row (st : St) (k : Nat) : List Char := st.instructionCache.getD k []

def instruction (st : St) : List Char := row st st.pc

def beforeRow (J : Int → Char) (st : St) (i : Int) : Char :=
  match st.pc with
  | 0 => J i
  | k + 1 => (row st k).getD (17 + i).toNat '\x00'

def stepSimulator (st : St) : St := { st with pc := st.pc + 1 }

def incrementCacheMiss (st : St) : St :=
  { st with cacheMisses := st.cacheMisses + 1, totalLatency := st.totalLatency + costOfCacheMiss }

def incrementCacheHit (st : St) : St :=
  { st with cacheHit := st.cacheHit + 1, totalLatency := st.totalLatency + costOfCacheHit }

/-- The comparison is the source's: the position of the largest age. -/
def getMin (array : Fin 4 → Int) : Fin 4 :=
  ([1, 2, 3].foldl (fun (r : Int × Fin 4) i => if r.1 < array i then (array i, i) else r) (array 0, 0)).2

/-- `Age[pos] = counter; counter++;` -/
def CacheSet.renew (c : CacheSet) (pos : Fin 4) : CacheSet :=
  { c with age := Function.update c.age pos c.counter, counter := c.counter + 1 }

/-- The same after `strcpy(Data[pos], s)`. -/
def CacheSet.put (c : CacheSet) (pos : Fin 4) (s : List Char) : CacheSet :=
  CacheSet.renew { c with data := Function.update c.data pos s } pos

@[simp] theorem renew_data (c : CacheSet) (i : Fin 4) : (c.renew i).data = c.data := rfl
@[simp] theorem renew_age (c : CacheSet) (i : Fin 4) : (c.renew i).age = Function.update c.age i c.counter := rfl
@[simp] theorem renew_counter (c : CacheSet) (i : Fin 4) : (c.renew i).counter = c.counter + 1 := rfl
@[simp] theorem renew_filled (c : CacheSet) (i : Fin 4) : (c.renew i).filled = c.filled := rfl
@[simp] theorem put_data (c : CacheSet) (i : Fin 4) (s : List Char) : (c.put i s).data = Function.update c.data i s := rfl
@[simp] theorem put_age (c : CacheSet) (i : Fin 4) (s : List Char) :
    (c.put i s).age = Function.update c.age i c.counter := rfl
@[simp] theorem put_counter (c : CacheSet) (i : Fin 4) (s : List Char) : (c.put i s).counter = c.counter + 1 := rfl
@[simp] theorem put_filled (c : CacheSet) (i : Fin 4) (s : List Char) : (c.put i s).filled = c.filled := rfl

def setSet (st : St) (k : Fin 4) (c : CacheSet) : St := { st with sets := Function.update st.sets k c }

/-- The branch of `addToSet1` to `addToSet4` for a set that is not full. -/
def addToFree (st : St) (k : Fin 4) : Except Fault St := do
  let pos ← index (st.sets k).filled
  let c := (st.sets k).put pos (instruction st)
  return setSet st k { c with filled := c.filled + 1 }

/-- `addToSet2` to `addToSet4`. -/
def addToSet (k : Fin 4) (st : St) : Except Fault St :=
  if (st.sets k).filled = 4 then
    .ok (setSet st k ((st.sets k).put (getMin (st.sets k).age) (instruction st)))
  else addToFree st k

/-- Its `strcpy` has the line as source and the trace as destination. -/
def addToSet1 (st : St) : Except Fault St :=
  if (st.sets 0).filled = 4 then
    let minPos := getMin (st.sets 0).age
    let st := { st with instructionCache := st.instructionCache.set st.pc ((st.sets 0).data minPos) }
    .ok (setSet st 0 ((st.sets 0).renew minPos))
  else addToFree st 0

def addToSet2 : St → Except Fault St := addToSet 1

def addToSet3 : St → Except Fault St := addToSet 2

def addToSet4 : St → Except Fault St := addToSet 3

/-- The loop over the filled lines of one set. -/
def CacheSet.find (c : CacheSet) (s : List Char) : Option (Fin 4) :=
  (List.finRange 4).find? fun i => decide (i.val < c.filled) && (s == c.data i)

def checkInstructionPos (st : St) (set : Int) : Int :=
  match index set with
  | .ok k =>
    match (st.sets k).find (instruction st) with
    | some i => i.val
    | none => -1
  | .error _ => -1

def touch (st : St) (k : Fin 4) (pos : Int) : Except Fault St := do
  let i ← index pos
  return setSet st k ((st.sets k).put i (instruction st))

/-- The cases are the source's: 0, 1, 2 and 4. -/
def replaceInstruction (st : St) (set pos : Int) : Except Fault St :=
  if set = 0 then touch st 0 pos
  else if set = 1 then touch st 1 pos
  else if set = 2 then touch st 2 pos
  else if set = 4 then touch st 3 pos
  else .ok st

/-- One case of `replacementPolicy`: set `k`, its fill function, and the switch's value. -/
def policyCase (k : Fin 4) (add : St → Except Fault St) (set : Int) (st : St) : Except Fault St :=
  if (st.sets k).filled = 0 then add (incrementCacheMiss st)
  else if checkInstructionPos st set = -1 then add (incrementCacheMiss st)
  else replaceInstruction (incrementCacheHit st) set (checkInstructionPos st set)

def replacementPolicy (J : Int → Char) (st : St) : Except Fault St :=
  let set := binaryStringRangeToInt (charAt (beforeRow J st) (instruction st)) (instruction st).length 0 1
  if set = 0 then policyCase 0 addToSet1 set st
  else if set = 1 then policyCase 1 addToSet2 set st
  else if set = 2 then policyCase 2 addToSet3 set st
  else if set = 3 then policyCase 3 addToSet4 set st
  else .ok st

/-- One access and how it was scored. -/
def access (J : Int → Char) (st : St) : Except Fault (St × Verdict) := do
  let st' ← replacementPolicy J st
  return (stepSimulator st', if st.cacheHit < st'.cacheHit then .hit else .miss)

def simulate (J : Int → Char) (n : Nat) (st : St) : Except Fault (St × List Verdict) :=
  answers (fun st (_ : Unit) => access J st) st (List.replicate n ())

/-! ## One set -/

inductive Kind where
  /-- A full set keeps its lines. -/
  | stuck
  /-- Fills and hits renew a line's age. -/
  | plain
  /-- Hits renew no age. -/
  | deaf
  deriving DecidableEq, Repr

def kind (k : Fin 4) : Kind := if k = 0 then .stuck else if k = 3 then .deaf else .plain

/-- What one access does to its set. -/
def setStep (κ : Kind) (c : CacheSet) (a : List Char) : CacheSet × Verdict :=
  match c.find a with
  | some i => (if κ = .deaf then c else c.put i a, .hit)
  | none =>
    if c.filled = 4 then
      (if κ = .stuck then c.renew (getMin c.age) else c.put (getMin c.age) a, .miss)
    else ({ c.put (Fin.ofNat 4 c.filled) a with filled := c.filled + 1 }, .miss)

theorem setStep_hit (κ : Kind) {c : CacheSet} {a : List Char} {i : Fin 4} (h : c.find a = some i) :
    setStep κ c a = (if κ = .deaf then c else c.put i a, .hit) := by
  unfold setStep; rw [h]

theorem setStep_full (κ : Kind) {c : CacheSet} {a : List Char} (h : c.find a = none) (h4 : c.filled = 4) :
    setStep κ c a = (if κ = .stuck then c.renew (getMin c.age) else c.put (getMin c.age) a, .miss) := by
  unfold setStep; rw [h]; simp only [if_pos h4]

theorem setStep_free (κ : Kind) {c : CacheSet} {a : List Char} (h : c.find a = none) (h4 : c.filled ≠ 4) :
    setStep κ c a = ({ c.put (Fin.ofNat 4 c.filled) a with filled := c.filled + 1 }, .miss) := by
  unfold setStep; rw [h]; simp only [if_neg h4]

/-- The set holds the address. -/
def Stored (c : CacheSet) (a : List Char) : Prop := ∃ i : Fin 4, i.val < c.filled ∧ c.data i = a

theorem find_some {c : CacheSet} {a : List Char} {i : Fin 4} (h : c.find a = some i) : i.val < c.filled ∧ c.data i = a := by
  have := List.find?_some h
  simp only [Bool.and_eq_true, decide_eq_true_eq, beq_iff_eq] at this
  exact ⟨this.1, this.2.symm⟩

theorem find_none_iff {c : CacheSet} {a : List Char} : c.find a = none ↔ ¬ Stored c a := by
  unfold CacheSet.find Stored
  simp only [List.find?_eq_none, List.mem_finRange, Bool.and_eq_true, decide_eq_true_eq, beq_iff_eq, true_implies,
    not_exists, not_and]
  exact ⟨fun h i hi e => h i hi e.symm, fun h i hi e => h i hi e.symm⟩

theorem put_same {c : CacheSet} {i : Fin 4} {a : List Char} (h : c.data i = a) : c.put i a = c.renew i := by
  unfold CacheSet.put
  rw [← h, Function.update_eq_self]

theorem ofNat_filled {c : CacheSet} (h : c.filled < 4) : (Fin.ofNat 4 c.filled).val = c.filled := Nat.mod_eq_of_lt h

/-- A set only takes in the address it is given. -/
theorem stored_step {κ : Kind} {c : CacheSet} (hf : c.filled ≤ 4) {a b : List Char} (h : Stored (setStep κ c a).1 b) :
    Stored c b ∨ b = a := by
  cases hfind : c.find a with
  | some i =>
    rw [setStep_hit κ hfind, put_same (find_some hfind).2] at h
    simp only at h
    split at h
    · exact .inl h
    · exact .inl h
  | none =>
    by_cases h4 : c.filled = 4
    · rw [setStep_full κ hfind h4] at h
      simp only at h
      split at h
      · exact .inl h
      · obtain ⟨i, hi, rfl⟩ := h
        by_cases hp : i = getMin c.age
        · right; rw [put_data, hp, Function.update_self]
        · left; exact ⟨i, hi, by rw [put_data, Function.update_of_ne hp]⟩
    · rw [setStep_free κ hfind h4] at h
      obtain ⟨i, hi, rfl⟩ := h
      have hfree := ofNat_filled (c := c) (by omega)
      by_cases hp : i = Fin.ofNat 4 c.filled
      · right; simp only [put_data, hp, Function.update_self]
      · left
        have hne : i.val ≠ c.filled := fun e => hp (Fin.ext (by rw [hfree, e]))
        have hlt : i.val < c.filled + 1 := hi
        exact ⟨i, by omega, by simp only [put_data, Function.update_of_ne hp]⟩

theorem filled_step {κ : Kind} {c : CacheSet} {a : List Char} :
    (setStep κ c a).1.filled = if c.find a = none ∧ c.filled ≠ 4 then c.filled + 1 else c.filled := by
  cases hfind : c.find a with
  | some i =>
    rw [setStep_hit κ hfind]
    simp only
    split <;> simp
  | none =>
    by_cases h4 : c.filled = 4
    · rw [setStep_full κ hfind h4]
      simp only
      split <;> simp [h4]
    · rw [setStep_free κ hfind h4]
      simp [h4]

/-! ## An access is a step of one set -/

/-- The set's fill function. -/
def adder (k : Fin 4) : St → Except Fault St := if k = 0 then addToSet1 else addToSet k

theorem replacementPolicy_eq (J : Int → Char) {st : St} (h : IsAddress (instruction st)) :
    replacementPolicy J st =
      policyCase (lowBits (instruction st)) (adder (lowBits (instruction st))) (lowBits (instruction st)).val st := by
  have h2 : 2 ≤ (instruction st).length := by rw [h.1]; decide
  have hv : ((value (instruction st) % 4 : Nat) : Int) = ((lowBits (instruction st)).val : Int) := rfl
  unfold replacementPolicy
  simp only [range_low_two _ h2, hv]
  generalize lowBits (instruction st) = k
  fin_cases k <;> rfl

theorem replaceInstruction_eq (st : St) (k : Fin 4) (pos : Int) :
    replaceInstruction st k.val pos = if kind k = .deaf then .ok st else touch st k pos := by
  fin_cases k <;> rfl

theorem checkInstructionPos_eq (st : St) (k : Fin 4) :
    checkInstructionPos st k.val = match (st.sets k).find (instruction st) with
      | some i => (i.val : Int)
      | none => -1 := by
  rw [checkInstructionPos, index_natCast k.isLt]

/-- The line with the counter's last value is younger than all others. -/
theorem update_age_lt {age : Fin 4 → Int} {counter : Int} (h : ∀ i, age i < counter) (p : Fin 4) :
    (∀ i, i ≠ p → Function.update age p counter i < Function.update age p counter p) ∧
      ∀ i, Function.update age p counter i < counter + 1 := by
  constructor
  · intro i hi
    rw [Function.update_self, Function.update_of_ne hi]
    exact h i
  · intro i
    by_cases e : i = p
    · subst e; rw [Function.update_self]; omega
    · rw [Function.update_of_ne e]; have := h i; omega

theorem getMin_top {age : Fin 4 → Int} {p : Fin 4} (h : ∀ i, i ≠ p → age i < age p) : getMin age = p := by
  have h0 := h 0
  have h1 := h 1
  have h2 := h 2
  have h3 := h 3
  unfold getMin
  simp only [List.foldl]
  fin_cases p <;> simp at h0 h1 h2 h3 ⊢ <;> split_ifs <;> first | rfl | (exfalso; omega)

theorem find_of_empty {c : CacheSet} (h : c.filled = 0) (a : List Char) : c.find a = none := by
  simp [CacheSet.find, h]

theorem addToFree_eq {st : St} {k : Fin 4} (h : (st.sets k).filled < 4) :
    addToFree st k = .ok (setSet st k { (st.sets k).put (Fin.ofNat 4 (st.sets k).filled) (instruction st) with
      filled := (st.sets k).filled + 1 }) := by
  have hi : index ((st.sets k).filled : Int) = .ok (Fin.ofNat 4 (st.sets k).filled) := by
    rw [index_natCast h]
    congr 1
    exact Fin.ext (Nat.mod_eq_of_lt h).symm
  simp only [addToFree, hi, bind, Except.bind, pure, Except.pure]
  rfl

/-- Set `k` becomes `c`; of the trace at most the row being executed changes. -/
structure Moves (st st' : St) (k : Fin 4) (c : CacheSet) : Prop where
  sets : st'.sets = Function.update st.sets k c
  pc : st'.pc = st.pc
  rest : st'.instructionCache.drop (st.pc + 1) = st.instructionCache.drop (st.pc + 1)
  length : st'.instructionCache.length = st.instructionCache.length

theorem setSet_moves (st : St) (k : Fin 4) (c : CacheSet) : Moves st (setSet st k c) k c := ⟨rfl, rfl, rfl, rfl⟩

def SameScore (st st' : St) : Prop :=
  st'.cacheHit = st.cacheHit ∧ st'.cacheMisses = st.cacheMisses ∧ st'.totalLatency = st.totalLatency

theorem adder_moves (st : St) {k : Fin 4} (hf : (st.sets k).filled ≤ 4) (hm : (st.sets k).find (instruction st) = none) :
    ∃ st', adder k st = .ok st' ∧ Moves st st' k (setStep (kind k) (st.sets k) (instruction st)).1 ∧ SameScore st st' := by
  by_cases h4 : (st.sets k).filled = 4
  · rw [setStep_full _ hm h4]
    by_cases hk : k = 0
    · subst hk
      have hadd : adder 0 st = .ok (setSet { st with
          instructionCache := st.instructionCache.set st.pc ((st.sets 0).data (getMin (st.sets 0).age)) }
          0 ((st.sets 0).renew (getMin (st.sets 0).age))) := by
        show addToSet1 st = _
        unfold addToSet1
        rw [if_pos h4]
      refine ⟨_, hadd, ⟨rfl, rfl, ?_, by simp [setSet]⟩, rfl, rfl, rfl⟩
      simp [setSet, List.drop_set]
    · have hs : kind k ≠ .stuck := by
        unfold kind; rw [if_neg hk]; split <;> simp
      have hadd : adder k st = .ok (setSet st k ((st.sets k).put (getMin (st.sets k).age) (instruction st))) := by
        unfold adder addToSet
        rw [if_neg hk, if_pos h4]
      rw [if_neg hs]
      exact ⟨_, hadd, setSet_moves st k _, rfl, rfl, rfl⟩
  · rw [setStep_free _ hm h4]
    have hadd : adder k st = addToFree st k := by
      unfold adder
      split
      · rename_i hk
        subst hk
        unfold addToSet1
        rw [if_neg h4]
      · unfold addToSet
        rw [if_neg h4]
    rw [hadd, addToFree_eq (by omega)]
    exact ⟨_, rfl, setSet_moves st k _, rfl, rfl, rfl⟩

/-- The counters after one more access. -/
def Counts (st st' : St) : Verdict → Prop
  | .hit => st'.cacheHit = st.cacheHit + 1 ∧ st'.cacheMisses = st.cacheMisses ∧
      st'.totalLatency = st.totalLatency + 1
  | .miss => st'.cacheHit = st.cacheHit ∧ st'.cacheMisses = st.cacheMisses + 1 ∧
      st'.totalLatency = st.totalLatency + 100

theorem policyCase_moves {st : St} {k : Fin 4} (hf : (st.sets k).filled ≤ 4) :
    ∃ st', policyCase k (adder k) k.val st = .ok st' ∧
      Moves st st' k (setStep (kind k) (st.sets k) (instruction st)).1 ∧
      Counts st st' (setStep (kind k) (st.sets k) (instruction st)).2 := by
  unfold policyCase
  rw [checkInstructionPos_eq]
  cases hfind : (st.sets k).find (instruction st) with
  | none =>
    obtain ⟨st', hadd, hmov, hsame⟩ := adder_moves (incrementCacheMiss st) hf hfind
    have hv : (setStep (kind k) (st.sets k) (instruction st)).2 = .miss := by
      by_cases h4 : (st.sets k).filled = 4
      · rw [setStep_full _ hfind h4]
      · rw [setStep_free _ hfind h4]
    refine ⟨st', ?_, ⟨hmov.sets, hmov.pc, hmov.rest, hmov.length⟩, by rw [hv]; exact hsame⟩
    simp only [hadd, ite_self, if_true]
  | some i =>
    have h0 : (st.sets k).filled ≠ 0 := by
      intro h; rw [find_of_empty h] at hfind; cases hfind
    have hi : ((i.val : Int)) ≠ -1 := by omega
    simp only
    rw [if_neg h0, if_neg hi, replaceInstruction_eq, setStep_hit _ hfind]
    by_cases hd : kind k = .deaf
    · rw [if_pos hd, if_pos hd]
      exact ⟨_, rfl, ⟨(Function.update_eq_self k st.sets).symm, rfl, rfl, rfl⟩, rfl, rfl, rfl⟩
    · rw [if_neg hd, if_neg hd]
      have hx : index (i.val : Int) = .ok i := index_natCast i.isLt
      refine ⟨setSet (incrementCacheHit st) k ((st.sets k).put i (instruction st)), ?_,
        ⟨rfl, rfl, rfl, rfl⟩, rfl, rfl, rfl⟩
      simp only [touch, hx, bind, Except.bind, pure, Except.pure]
      rfl

/-- The four sets as one machine. -/
def banks : (Fin 4 → CacheSet) → List Char → (Fin 4 → CacheSet) × Verdict :=
  bankStep lowBits fun k => setStep (kind k)

theorem access_step (J : Int → Char) {st : St} (hf : ∀ k, (st.sets k).filled ≤ 4) (ha : IsAddress (instruction st)) :
    ∃ st', access J st = .ok (st', (banks st.sets (instruction st)).2) ∧
      st'.sets = (banks st.sets (instruction st)).1 ∧ st'.pc = st.pc + 1 ∧
      st'.instructionCache.drop (st.pc + 1) = st.instructionCache.drop (st.pc + 1) ∧
      Counts st st' (banks st.sets (instruction st)).2 := by
  obtain ⟨st', hp, hmov, hc⟩ := policyCase_moves (hf (lowBits (instruction st)))
  refine ⟨stepSimulator st', ?_, hmov.sets, by rw [← hmov.pc]; rfl, hmov.rest, ?_⟩
  · simp only [access, replacementPolicy_eq J ha, hp, bind, Except.bind, pure, Except.pure]
    show Except.ok (_, _) = Except.ok (_, (setStep _ _ _).2)
    generalize (setStep (kind (lowBits (instruction st))) (st.sets (lowBits (instruction st))) (instruction st)).2 = v at hc
    cases v <;> simp [hc.1]
  · show Counts st (stepSimulator st') (setStep _ _ _).2
    generalize (setStep (kind (lowBits (instruction st))) (st.sets (lowBits (instruction st))) (instruction st)).2 = v at hc
    cases v <;> exact hc

theorem setStep_filled (κ : Kind) {c : CacheSet} (h : c.filled ≤ 4) (a : List Char) : (setStep κ c a).1.filled ≤ 4 := by
  rw [filled_step]
  split <;> omega

theorem banks_filled {B : Fin 4 → CacheSet} (h : ∀ k, (B k).filled ≤ 4) (a : List Char) (k : Fin 4) :
    ((banks B a).1 k).filled ≤ 4 := by
  unfold banks bankStep
  by_cases e : k = lowBits a
  · subst e; simpa using setStep_filled _ (h _) a
  · simpa [e] using h k

theorem instruction_of_drop {st : St} {a : List Char} {es : List (List Char)}
    (h : st.instructionCache.drop st.pc = a :: es) : instruction st = a :=
  SimulatorFifo.getD_of_drop h

/-- The induction is on what is left of the trace; `rest` is what the run does not reach. -/
theorem simulate_sim (J : Int → Char) (rest : List (List Char)) :
    ∀ (es : List (List Char)) (st : St), (∀ k, (st.sets k).filled ≤ 4) →
      st.instructionCache.drop st.pc = es ++ rest → (∀ a ∈ es, IsAddress a) →
      ∃ st', simulate J es.length st = .ok (st', (replies banks st.sets es).2) ∧ st'.sets = (replies banks st.sets es).1 := by
  intro es
  induction es with
  | nil => intro st _ _ _; exact ⟨st, rfl, rfl⟩
  | cons a es ih =>
    intro st hf hd ha
    have hi : instruction st = a := instruction_of_drop hd
    obtain ⟨st1, hacc, hsets, hpc, hrest, -⟩ := access_step J hf (hi ▸ ha a (List.mem_cons_self ..))
    rw [hi] at hacc hsets
    have hd1 : st1.instructionCache.drop st1.pc = es ++ rest := by
      rw [hpc, hrest, ← List.drop_drop, hd]; rfl
    obtain ⟨st2, hrun, h2⟩ := ih st1 (fun k => by rw [hsets]; exact banks_filled hf a k) hd1
      (fun x hx => ha x (List.mem_cons_of_mem _ hx))
    refine ⟨st2, ?_, ?_⟩
    · unfold simulate at hrun ⊢
      simp only [List.length_cons, List.replicate_succ, answers, hacc, hrun, replies, hsets]
    · rw [h2, hsets]; rfl

/-- The first `n` accesses of a trace of addresses. -/
theorem simulate_banks (J : Int → Char) {rows : List (List Char)} (h : ∀ a ∈ rows, IsAddress a) {n : Nat}
    (hn : n ≤ rows.length) :
    ∃ st, simulate J n (start rows) = .ok (st, (replies banks (fun _ => emptySet) (rows.take n)).2) ∧
      st.sets = (replies banks (fun _ => emptySet) (rows.take n)).1 := by
  obtain ⟨st, hrun, hst⟩ := simulate_sim J (rows.drop n) (rows.take n) (start rows) (fun _ => Nat.zero_le 4)
    (by simp [start]) (fun a ha => h a (List.mem_of_mem_take ha))
  rw [List.length_take, Nat.min_eq_left hn] at hrun
  exact ⟨st, hrun, hst⟩

end CS5600.Cache.MySimulator
