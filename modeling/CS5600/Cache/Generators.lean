/-
  CS5600.Cache.Generators — trace generators: `adverseTrace` (`adverseTrace.c`), and those that
  draw random numbers, `friendlyTrace` (`friendlyTrace.c`) and the two `realisticTrace`
  (`trace.c` of Assignment5_Memory and of Lab6_CacheSimulator).

  `rand` is the sequence of numbers the calls of `rand()` return, and `d` counts the calls. The
  outer loops go on while `i < size`; a round of one prints a single address or a burst (three
  addresses, ten times), and a burst looks at `i` between its triples only. What has no result:
  a remainder by zero, an `i` beyond `INT_MAX`, and a number that `BITWIDTH` digits cannot hold,
  which `intToBinaryString` writes before its buffer.

  Proved: which draws make a generator print as many lines as it was asked for
  (`line_counts_iff`). A burst begun with 1 to 29 lines to go prints a multiple of three, so
  `friendlyTrace` needs `size` to be one; in Lab 6 the loop also counts one line too many for
  each burst.
-/

import CS5600.Cache.TraceFile

namespace CS5600.Cache.Generators

open CS5600.Cache.Binary CS5600.Cache.TraceFile

def intMax : Nat := 2 ^ 31 - 1

def lab6 : Dims := ⟨8, 1024⟩

/-- `rand() % range` -/
def randMod (rand : Nat → Nat) (range d : Nat) : Option Nat :=
  if range = 0 then none else some (rand d % range)

/-- The file `adverseTrace(size, range)` writes: its loop is that of `Trace`. -/
def adverseTrace (size range : Nat) : Option (List Char) := trace assignment5 size range

/-- The loop over `j`, with some rounds left: the numbers it prints and `i` behind it. -/
def triples (size a b c : Nat) : Nat → Nat → Option (List Nat × Nat)
  | 0, i => some ([], i)
  | rounds + 1, i =>
    if i < size then
      if i + 3 ≤ intMax then (triples size a b c rounds (i + 3)).map fun r => (a :: b :: c :: r.1, r.2)
      else none
    else some ([], i)

/-- A round of an outer loop that began at `i`: the numbers it printed, the next `i`, which is
    further on, and the calls of `rand` so far. -/
structure Round (i : Nat) where
  printed : List Nat
  next : Nat
  drawn : Nat
  moved : i < next

theorem triples_le {size a b c : Nat} : ∀ {rounds i : Nat} {r : List Nat × Nat},
    triples size a b c rounds i = some r → i ≤ r.2 := by
  intro rounds
  induction rounds with
  | zero => intro i r h; cases h; exact le_rfl
  | succ rounds ih =>
    intro i r h
    rw [triples] at h
    split at h
    · split at h
      · obtain ⟨r', hr', rfl⟩ := Option.map_eq_some_iff.mp h
        have := ih hr'
        simp only
        omega
      · cases h
    · cases h; exact le_rfl

theorem triples_lt {size a b c i : Nat} {r : List Nat × Nat} (hi : i < size)
    (h : triples size a b c 10 i = some r) : i < r.2 := by
  rw [triples, if_pos hi] at h
  split at h
  · obtain ⟨r', hr', rfl⟩ := Option.map_eq_some_iff.mp h
    have := triples_le hr'
    simp only
    omega
  · cases h

/-- Three addresses drawn from call `d` on, and ten rounds of printing them. -/
def burst (rand : Nat → Nat) (range size i d : Nat) (hi : i < size) : Option (Round i) :=
  match randMod rand range d, randMod rand range (d + 1), randMod rand range (d + 2) with
  | some a, some b, some c =>
    match h : triples size a b c 10 i with
    | some r => some ⟨r.1, r.2, d + 3, triples_lt hi h⟩
    | none => none
  | _, _, _ => none

/-- An outer loop, from `i` and `d` on. -/
def printing (size : Nat) (round : (i d : Nat) → i < size → Option (Round i)) (i d : Nat) : Option (List Nat) :=
  if hi : i < size then
    match round i d hi with
    | some r => (printing size round r.next r.drawn).map fun vs => r.printed ++ vs
    | none => none
  else some []
termination_by size - i
decreasing_by
  have := r.moved
  omega

def friendlyTrace (rand : Nat → Nat) (size range : Nat) : Option (List Char) := do
  let vs ← printing size (burst rand range size) 0 0
  printTrace assignment5 (vs.map Int.ofNat)

/-- A round of `realisticTrace` in `Assignment5_Memory/CacheSimulator/trace.c`. -/
def realisticRound (rand : Nat → Nat) (range size i d : Nat) (hi : i < size) : Option (Round i) :=
  if rand d % 2 = 0 then (randMod rand range (d + 1)).map fun v => ⟨[v], i + 1, d + 2, Nat.lt_succ_self i⟩
  else burst rand range size i (d + 1) hi

def realisticTrace (rand : Nat → Nat) (size range : Nat) : Option (List Char) := do
  let vs ← printing size (realisticRound rand range size) 0 0
  printTrace assignment5 (vs.map Int.ofNat)

/-- A round of `realisticTrace` in `Lab6_CacheSimulator/trace.c`: the loop's own `i++` comes
    after a burst too. -/
def realisticRoundLab6 (rand : Nat → Nat) (range size i d : Nat) (hi : i < size) : Option (Round i) :=
  if rand d % 2 = 0 then (randMod rand range (d + 1)).map fun v => ⟨[v], i + 1, d + 2, Nat.lt_succ_self i⟩
  else (burst rand range size i (d + 1) hi).bind fun r =>
    if r.next + 1 ≤ intMax then some ⟨r.printed, r.next + 1, r.drawn, Nat.lt_succ_of_lt r.moved⟩ else none

def realisticTraceLab6 (rand : Nat → Nat) (size range : Nat) : Option (List Char) := do
  let vs ← printing size (realisticRoundLab6 rand range size) 0 0
  printTrace lab6 (vs.map Int.ofNat)

/-! ## A burst -/

/-- The triples of a burst that begins at `i`. -/
def turns (size i : Nat) : Nat := min 10 ((size - i + 2) / 3)

theorem triples_eq (size a b c : Nat) : ∀ rounds i : Nat, i ≤ intMax →
    triples size a b c rounds i =
      if i + 3 * min rounds ((size - i + 2) / 3) ≤ intMax then
        some ((List.replicate (min rounds ((size - i + 2) / 3)) [a, b, c]).flatten,
          i + 3 * min rounds ((size - i + 2) / 3))
      else none := by
  intro rounds
  induction rounds with
  | zero => intro i hi; simp [triples, hi]
  | succ rounds ih =>
    intro i hi
    rw [triples]
    by_cases h : i < size
    · have hmin : min (rounds + 1) ((size - i + 2) / 3) = min rounds ((size - (i + 3) + 2) / 3) + 1 := by omega
      rw [if_pos h, hmin]
      by_cases h3 : i + 3 ≤ intMax
      · rw [if_pos h3, ih (i + 3) h3]
        by_cases hfit : i + 3 + 3 * min rounds ((size - (i + 3) + 2) / 3) ≤ intMax
        · rw [if_pos hfit, if_pos (by omega)]
          simp only [Option.map_some, List.replicate_succ, List.flatten_cons]
          rw [show i + 3 + 3 * min rounds ((size - (i + 3) + 2) / 3) =
            i + 3 * (min rounds ((size - (i + 3) + 2) / 3) + 1) by omega]
          rfl
        · rw [if_neg hfit, if_neg (by omega)]
          rfl
      · rw [if_neg h3, if_neg (by omega)]
    · have hmin : min (rounds + 1) ((size - i + 2) / 3) = 0 := by omega
      rw [if_neg h, hmin, if_pos (by omega)]
      rfl

theorem randMod_pos {rand : Nat → Nat} {range d : Nat} (h : 1 ≤ range) :
    randMod rand range d = some (rand d % range) := if_neg (by omega)

theorem burst_some (rand : Nat → Nat) (d : Nat) {range size i : Nat} (hrange : 1 ≤ range) (hsize : size ≤ intMax)
    (hi : i < size) (hfit : i + 3 * turns size i ≤ intMax) : ∃ r, burst rand range size i d hi = some r ∧
      r.printed = (List.replicate (turns size i)
        [rand d % range, rand (d + 1) % range, rand (d + 2) % range]).flatten ∧
      r.next = i + 3 * turns size i ∧ r.drawn = d + 3 := by
  unfold turns at hfit ⊢
  have ht := triples_eq size (rand d % range) (rand (d + 1) % range) (rand (d + 2) % range) 10 i (by omega)
  rw [if_pos hfit] at ht
  simp only [burst, randMod_pos hrange]
  split
  · rename_i r h
    rw [ht] at h
    cases h
    exact ⟨_, rfl, rfl, rfl, rfl⟩
  · rename_i h
    rw [ht] at h
    cases h

theorem burst_none (rand : Nat → Nat) (d : Nat) {range size i : Nat} (hrange : 1 ≤ range) (hsize : size ≤ intMax)
    (hi : i < size) (hfit : intMax < i + 3 * turns size i) : burst rand range size i d hi = none := by
  unfold turns at hfit
  have ht := triples_eq size (rand d % range) (rand (d + 1) % range) (rand (d + 2) % range) 10 i (by omega)
  rw [if_neg (by omega)] at ht
  simp only [burst, randMod_pos hrange]
  split
  · rename_i r h
    rw [ht] at h
    cases h
  · rfl

/-! ## The rounds of a run

What the draws alone decide: where each round draws, whether it is a burst, what it prints. -/

structure Plan where
  /-- The calls of `rand` behind a round that began with call `d`. -/
  next : Nat → Nat
  jump : Nat → Bool
  values : Nat → List Nat

/-- The call of `rand` that round `m` begins with. -/
def Plan.start (P : Plan) : Nat → Nat → Nat
  | d, 0 => d
  | d, m + 1 => P.start (P.next d) m

/-- The bursts among the first `m` rounds. -/
def Plan.bursts (P : Plan) : Nat → Nat → Nat
  | _, 0 => 0
  | d, m + 1 => (if P.jump d then 1 else 0) + P.bursts (P.next d) m

/-- `i` before round `m`, if no burst before it was cut short; `extra` is what a burst adds to
    `i` beyond the lines it prints. -/
def Plan.pos (P : Plan) (extra i d m : Nat) : Nat := i + m + (29 + extra) * P.bursts d m

/-- The rounds of a loop are those of the plan. -/
structure Follows (P : Plan) (extra size : Nat) (round : (i d : Nat) → i < size → Option (Round i)) : Prop where
  single : ∀ i d (hi : i < size), P.jump d = false → ∃ v r, P.values d = [v] ∧ round i d hi = some r ∧
    r.printed = [v] ∧ r.next = i + 1 ∧ r.drawn = P.next d
  burst : ∀ i d (hi : i < size), P.jump d = true → i + 3 * turns size i + extra ≤ intMax → ∃ a b c r,
    P.values d = [a, b, c] ∧ round i d hi = some r ∧ r.printed = (List.replicate (turns size i) [a, b, c]).flatten ∧
    r.next = i + 3 * turns size i + extra ∧ r.drawn = P.next d
  overflow : ∀ i d (hi : i < size), P.jump d = true → intMax < i + 3 * turns size i + extra → round i d hi = none

section Loop

variable {P : Plan} {extra size : Nat} {round : (i d : Nat) → i < size → Option (Round i)}

theorem mem_repeated {n v : Nat} {l : List Nat} (h : 0 < n) : v ∈ (List.replicate n l).flatten ↔ v ∈ l := by
  rw [List.mem_flatten]
  constructor
  · intro hm
    obtain ⟨k, hk, hm⟩ := hm
    rwa [List.eq_of_mem_replicate hk] at hm
  · intro hm
    exact ⟨l, List.mem_replicate.mpr ⟨by omega, rfl⟩, hm⟩

theorem Plan.pos_one (P : Plan) (extra i d : Nat) :
    P.pos extra i d 1 = if P.jump d then i + 30 + extra else i + 1 := by
  simp only [Plan.pos, Plan.bursts]
  split <;> omega

theorem Plan.pos_succ (P : Plan) (extra i d m : Nat) :
    P.pos extra i d (m + 1) = P.pos extra (P.pos extra i d 1) (P.next d) m := by
  simp only [Plan.pos, Plan.bursts]
  ring

theorem Plan.le_pos (P : Plan) (extra i d m : Nat) : i ≤ P.pos extra i d m := by
  unfold Plan.pos
  omega

theorem printing_round {i d : Nat} {r : Round i} (hi : i < size) (h : round i d hi = some r) :
    printing size round i d = (printing size round r.next r.drawn).map fun vs => r.printed ++ vs := by
  rw [printing, dif_pos hi]
  simp only [h]

theorem printing_stop {i d : Nat} (hi : size ≤ i) : printing size round i d = some [] := by
  rw [printing, dif_neg (by omega)]

/-- A round that is not the last prints what the plan says and goes on where the plan says. -/
theorem Follows.inner (h : Follows P extra size round) (hsize : size ≤ intMax) {i d : Nat}
    (hin : P.pos extra i d 1 < size) : ∃ out, printing size round i d =
      (printing size round (P.pos extra i d 1) (P.next d)).map (fun vs => out ++ vs) ∧
      out.length = (if P.jump d then 30 else 1) ∧ ∀ v, v ∈ out ↔ v ∈ P.values d := by
  have hle := P.le_pos extra i d 1
  have hi : i < size := by omega
  rw [P.pos_one] at hin ⊢
  cases hj : P.jump d with
  | false =>
    rw [hj, if_neg (by decide)] at hin
    obtain ⟨v, r, hv, hr, hp, hn, hd⟩ := h.single i d hi hj
    refine ⟨[v], ?_, rfl, by simp [hv]⟩
    rw [printing_round hi hr, hp, hn, hd]
    rfl
  | true =>
    rw [hj, if_pos rfl] at hin
    have ht : turns size i = 10 := by unfold turns; omega
    obtain ⟨a, b, c, r, hv, hr, hp, hn, hd⟩ := h.burst i d hi hj (by rw [ht]; omega)
    rw [ht] at hp hn
    refine ⟨(List.replicate 10 [a, b, c]).flatten, ?_, by simp, fun v => by rw [hv]; exact mem_repeated (by omega)⟩
    rw [printing_round hi hr, hp, hn, hd]
    rfl

/-- The last round, if `i` does not leave the integers. -/
theorem Follows.last (h : Follows P extra size round) (hextra : extra ≤ 1) {i d : Nat} (hi : i < size)
    (hlast : size ≤ P.pos extra i d 1) (hfit : P.jump d = true → i + 3 * turns size i + extra ≤ intMax) :
    ∃ out, printing size round i d = some out ∧ out.length = (if P.jump d then 3 * turns size i else 1) ∧
      ∀ v, v ∈ out ↔ v ∈ P.values d := by
  rw [P.pos_one] at hlast
  cases hj : P.jump d with
  | false =>
    rw [hj, if_neg (by decide)] at hlast
    obtain ⟨v, r, hv, hr, hp, hn, -⟩ := h.single i d hi hj
    refine ⟨[v], ?_, rfl, by simp [hv]⟩
    rw [printing_round hi hr, hp, printing_stop (by omega)]
    rfl
  | true =>
    rw [hj, if_pos rfl] at hlast
    have ht : 0 < turns size i ∧ size ≤ i + 3 * turns size i + extra := by unfold turns; omega
    obtain ⟨a, b, c, r, hv, hr, hp, hn, -⟩ := h.burst i d hi hj (hfit hj)
    refine ⟨(List.replicate (turns size i) [a, b, c]).flatten, ?_, by simp; omega,
      fun v => by rw [hv]; exact mem_repeated ht.1⟩
    rw [printing_round hi hr, hp, printing_stop (by omega)]
    simp

/-- A last round that began at `i` after `b` bursts: its lines end at `size`, counted without
    what the bursts added to `i`. -/
def Plan.Fits (P : Plan) (extra size i d b : Nat) : Prop :=
  if P.jump d then i + 3 * turns size i = size + extra * b ∧ size + extra * (b + 1) ≤ intMax else extra * b = 0

/-- Every round of a run has numbers that satisfy `p`, and the last round fits. -/
structure Plan.Exact (P : Plan) (extra size : Nat) (p : Nat → Prop) (i d b : Nat) : Prop where
  fits : ∀ m, P.pos extra i d m < size → size ≤ P.pos extra i d (m + 1) →
    P.Fits extra size (P.pos extra i d m) (P.start d m) (b + P.bursts d m)
  values : ∀ m, P.pos extra i d m < size → ∀ v ∈ P.values (P.start d m), p v

theorem Plan.exact_inner (P : Plan) {extra size i d b : Nat} {p : Nat → Prop} (hin : P.pos extra i d 1 < size) :
    P.Exact extra size p i d b ↔ (∀ v ∈ P.values d, p v) ∧
      P.Exact extra size p (P.pos extra i d 1) (P.next d) (b + if P.jump d then 1 else 0) := by
  have hle := P.le_pos extra i d 1
  have h0 : P.pos extra i d 0 = i := by simp [Plan.pos, Plan.bursts]
  have hb : ∀ m, b + P.bursts d (m + 1) = b + (if P.jump d then 1 else 0) + P.bursts (P.next d) m := by
    intro m
    rw [Plan.bursts, Nat.add_assoc]
  constructor
  · intro h
    refine ⟨h.values 0 (by omega), fun m hm hl => ?_, fun m hm => ?_⟩
    · rw [← P.pos_succ] at hm hl ⊢
      rw [← hb]
      exact h.fits (m + 1) hm hl
    · rw [← P.pos_succ] at hm
      exact h.values (m + 1) hm
  · intro h
    obtain ⟨hv, hrest⟩ := h
    refine ⟨fun m hm hl => ?_, fun m hm => ?_⟩
    · cases m with
      | zero => rw [Nat.zero_add] at hl; omega
      | succ m =>
        rw [P.pos_succ] at hm hl ⊢
        rw [hb]
        exact hrest.fits m hm hl
    · cases m with
      | zero => exact hv
      | succ m =>
        rw [P.pos_succ] at hm
        exact hrest.values m hm

theorem Plan.exact_last (P : Plan) {extra size i d b : Nat} {p : Nat → Prop} (hi : i < size)
    (hlast : size ≤ P.pos extra i d 1) :
    P.Exact extra size p i d b ↔ (∀ v ∈ P.values d, p v) ∧ P.Fits extra size i d b := by
  have h0 : P.pos extra i d 0 = i := by simp [Plan.pos, Plan.bursts]
  have hover : ∀ m, ¬ P.pos extra i d (m + 1) < size := by
    intro m
    have := P.le_pos extra (P.pos extra i d 1) (P.next d) m
    rw [P.pos_succ]
    omega
  constructor
  · intro h
    have := h.fits 0 (by omega) hlast
    rw [h0] at this
    exact ⟨h.values 0 (by omega), this⟩
  · intro h
    obtain ⟨hv, hf⟩ := h
    refine ⟨fun m hm hl => ?_, fun m hm => ?_⟩
    · cases m with
      | zero => rw [h0]; exact hf
      | succ m => exact absurd hm (hover m)
    · cases m with
      | zero => exact hv
      | succ m => exact absurd hm (hover m)

/-- From `i` on the loop prints the lines missing to `size`, its bursts' surplus in `i` apart. -/
def PrintsRest (size extra : Nat) (round : (i d : Nat) → i < size → Option (Round i)) (p : Nat → Prop)
    (i d b : Nat) : Prop :=
  ∃ vs, printing size round i d = some vs ∧ vs.length + i = size + extra * b ∧ ∀ v ∈ vs, p v

theorem Follows.printsRest_inner (h : Follows P extra size round) (hsize : size ≤ intMax) {p : Nat → Prop} {i d b : Nat}
    (hin : P.pos extra i d 1 < size) :
    PrintsRest size extra round p i d b ↔ (∀ v ∈ P.values d, p v) ∧
      PrintsRest size extra round p (P.pos extra i d 1) (P.next d) (b + if P.jump d then 1 else 0) := by
  obtain ⟨out, hrun, hlen, hmem⟩ := h.inner hsize hin
  have hlines : ∀ vs : List Nat, (out ++ vs).length + i = size + extra * b ↔
      vs.length + P.pos extra i d 1 = size + extra * (b + if P.jump d then 1 else 0) := by
    intro vs
    rw [List.length_append, hlen, P.pos_one]
    cases P.jump d with
    | false => simp only [Bool.false_eq_true, if_false, Nat.add_zero]; omega
    | true => simp only [if_true, Nat.mul_add, Nat.mul_one]; omega
  unfold PrintsRest
  rw [hrun]
  constructor
  · intro hex
    obtain ⟨_, hvs, hl, hp⟩ := hex
    obtain ⟨vs, hrest, rfl⟩ := Option.map_eq_some_iff.mp hvs
    exact ⟨fun v hv => hp v (List.mem_append_left _ ((hmem v).mpr hv)), vs, hrest, (hlines vs).mp hl,
      fun v hv => hp v (List.mem_append_right _ hv)⟩
  · intro hex
    obtain ⟨hv, vs, hvs, hl, hp⟩ := hex
    refine ⟨out ++ vs, by rw [hvs]; rfl, (hlines vs).mpr hl, fun v hm => ?_⟩
    rcases List.mem_append.mp hm with hm | hm
    · exact hv v ((hmem v).mp hm)
    · exact hp v hm

theorem Follows.printsRest_last (h : Follows P extra size round) (hextra : extra ≤ 1) {p : Nat → Prop}
    {i d b : Nat} (hi : i < size) (hlast : size ≤ P.pos extra i d 1) :
    PrintsRest size extra round p i d b ↔ (∀ v ∈ P.values d, p v) ∧ P.Fits extra size i d b := by
  by_cases hfit : P.jump d = true → i + 3 * turns size i + extra ≤ intMax
  · obtain ⟨out, hrun, hlen, hmem⟩ := h.last hextra hi hlast hfit
    have hfits : out.length + i = size + extra * b ↔ P.Fits extra size i d b := by
      rw [hlen, Plan.Fits]
      rw [P.pos_one] at hlast
      cases hj : P.jump d with
      | false =>
        rw [hj] at hlast
        simp only [Bool.false_eq_true, if_false] at hlast ⊢
        omega
      | true =>
        have := hfit hj
        simp only [if_true, Nat.mul_add, Nat.mul_one]
        omega
    unfold PrintsRest
    rw [hrun, ← hfits]
    constructor
    · intro hex
      obtain ⟨_, hvs, hl, hp⟩ := hex
      cases hvs
      exact ⟨fun v hv => hp v ((hmem v).mpr hv), hl⟩
    · intro hex
      exact ⟨out, rfl, hex.2, fun v hv => hex.1 v ((hmem v).mp hv)⟩
  · -- The counter of a burst overflows: nothing is printed that anyone can count on.
    obtain ⟨hj, hover⟩ := Classical.not_imp.mp hfit
    have hnone : printing size round i d = none := by
      rw [printing, dif_pos hi, h.overflow i d hi hj (by omega)]
    constructor
    · intro hex
      obtain ⟨vs, hvs, -⟩ := hex
      rw [hnone] at hvs
      cases hvs
    · intro hex
      have hf := hex.2
      rw [Plan.Fits, if_pos hj, Nat.mul_add, Nat.mul_one] at hf
      omega

/-- The lines of a run are as many as asked exactly when the plan is exact. The induction is on
    the lines to go. -/
theorem Follows.printsRest_iff (h : Follows P extra size round) (hextra : extra ≤ 1) (hsize : size ≤ intMax)
    (p : Nat → Prop) : ∀ n i d b, size - i = n → i < size →
      (PrintsRest size extra round p i d b ↔ P.Exact extra size p i d b) := by
  intro n
  induction n using Nat.strong_induction_on with
  | _ n ih =>
  intro i d b hn hi
  by_cases hin : P.pos extra i d 1 < size
  · have hlt : i < P.pos extra i d 1 := by
      rw [P.pos_one]
      split <;> omega
    rw [h.printsRest_inner hsize hin, P.exact_inner hin, ih _ (by omega) _ _ _ rfl hin]
  · rw [h.printsRest_last hextra hi (by omega), P.exact_last hi (by omega)]

end Loop

/-! ## The generators' plans -/

/-- `realisticTrace` of either directory draws once for `isJump`, then once or three times. -/
def realisticPlan (rand : Nat → Nat) (range : Nat) : Plan where
  next d := if rand d % 2 = 0 then d + 2 else d + 4
  jump d := decide (rand d % 2 ≠ 0)
  values d :=
    if rand d % 2 = 0 then [rand (d + 1) % range]
    else [rand (d + 1) % range, rand (d + 2) % range, rand (d + 3) % range]

def friendlyPlan (rand : Nat → Nat) (range : Nat) : Plan where
  next d := d + 3
  jump _ := true
  values d := [rand d % range, rand (d + 1) % range, rand (d + 2) % range]

section Plans

variable {rand : Nat → Nat} {range size : Nat}

theorem friendly_follows (hrange : 1 ≤ range) (hsize : size ≤ intMax) :
    Follows (friendlyPlan rand range) 0 size (burst rand range size) where
  single i d hi hj := by cases hj
  burst i d hi _ hfit := by
    obtain ⟨r, hr⟩ := burst_some rand d hrange hsize hi hfit
    exact ⟨_, _, _, r, rfl, hr⟩
  overflow i d hi _ hfit := burst_none rand d hrange hsize hi hfit

theorem realisticPlan_jump {d : Nat} : (realisticPlan rand range).jump d = true ↔ ¬ rand d % 2 = 0 :=
  decide_eq_true_iff

theorem realisticPlan_single {d : Nat} : (realisticPlan rand range).jump d = false ↔ rand d % 2 = 0 := by
  rw [← Bool.not_eq_true, realisticPlan_jump, not_not]

theorem realistic_follows (hrange : 1 ≤ range) (hsize : size ≤ intMax) :
    Follows (realisticPlan rand range) 0 size (realisticRound rand range size) where
  single i d hi hj := by
    have h := realisticPlan_single.mp hj
    simp only [realisticPlan, realisticRound, if_pos h, randMod_pos hrange]
    exact ⟨_, _, rfl, rfl, rfl, rfl, rfl⟩
  burst i d hi hj hfit := by
    have h := realisticPlan_jump.mp hj
    obtain ⟨r, hr⟩ := burst_some rand (d + 1) hrange hsize hi hfit
    simp only [realisticPlan, realisticRound, if_neg h]
    exact ⟨_, _, _, r, rfl, hr⟩
  overflow i d hi hj hfit := by
    have h := realisticPlan_jump.mp hj
    rw [realisticRound, if_neg h]
    exact burst_none rand (d + 1) hrange hsize hi hfit

theorem realisticLab6_follows (hrange : 1 ≤ range) (hsize : size ≤ intMax) :
    Follows (realisticPlan rand range) 1 size (realisticRoundLab6 rand range size) where
  single i d hi hj := by
    have h := realisticPlan_single.mp hj
    simp only [realisticPlan, realisticRoundLab6, if_pos h, randMod_pos hrange]
    exact ⟨_, _, rfl, rfl, rfl, rfl, rfl⟩
  burst i d hi hj hfit := by
    have h := realisticPlan_jump.mp hj
    obtain ⟨r, hr, hp, hn, hd⟩ := burst_some rand (d + 1) hrange hsize hi (by omega)
    simp only [realisticPlan, realisticRoundLab6, if_neg h, hr, Option.bind_some]
    rw [if_pos (by omega)]
    exact ⟨_, _, _, _, rfl, rfl, hp, by simp only [hn], hd⟩
  overflow i d hi hj hfit := by
    have h := realisticPlan_jump.mp hj
    rw [realisticRoundLab6, if_neg h]
    by_cases hb : i + 3 * turns size i ≤ intMax
    · obtain ⟨r, hr, -, hn, -⟩ := burst_some rand (d + 1) hrange hsize hi hb
      rw [hr, Option.bind_some, if_neg (by omega)]
    · rw [burst_none rand (d + 1) hrange hsize hi (by omega)]
      rfl

end Plans

/-! ## Lines written -/

/-- A generator ends and its file has `size` lines; if the array has room for them, `loadTrace`
    stores them within it. -/
def WritesLines (D : Dims) (out : Option (List Char)) (size : Nat) : Prop :=
  ∃ file, out = some file ∧ (lines file).length = size ∧
    (size ≤ D.addresses → ∃ rows, loadTrace D file = .ok rows ∧ rows.length = size)

theorem printTrace_none {D : Dims} {vs : List Nat} {v : Nat} (hv : v ∈ vs) (hwide : 2 ^ D.bitwidth ≤ v) :
    printTrace D (vs.map Int.ofNat) = none := by
  induction vs with
  | nil => cases hv
  | cons w vs ih =>
    rw [List.map_cons, printTrace]
    rcases List.mem_cons.mp hv with rfl | hv
    · rw [show intToBinaryString (Int.ofNat v) D.bitwidth = none from intToBinaryString_none hwide]
      rfl
    · rw [ih hv]
      cases intToBinaryString (Int.ofNat w) D.bitwidth <;> rfl

theorem writesLines_iff (D : Dims) (out : Option (List Nat)) (size : Nat) :
    WritesLines D (out.bind fun vs => printTrace D (vs.map Int.ofNat)) size ↔
      ∃ vs, out = some vs ∧ vs.length = size ∧ ∀ v ∈ vs, v < 2 ^ D.bitwidth := by
  cases out with
  | none =>
    constructor
    · intro h
      obtain ⟨file, hfile, -⟩ := h
      cases hfile
    · intro h
      obtain ⟨vs, hvs, -⟩ := h
      cases hvs
  | some vs =>
    rw [Option.bind_some]
    by_cases hv : ∀ v ∈ vs, v < 2 ^ D.bitwidth
    · have hrange : ∀ v ∈ vs.map Int.ofNat, 0 ≤ v ∧ v < 2 ^ D.bitwidth := by
        intro v hm
        obtain ⟨n, hn, rfl⟩ := List.mem_map.mp hm
        exact ⟨Int.natCast_nonneg n, by rw [Int.ofNat_eq_natCast]; exact_mod_cast hv n hn⟩
      obtain ⟨rows, hprint, hw⟩ := printTrace_writes D _ hrange
      have hlen : rows.length = vs.length := by rw [hw.length_eq, List.length_map]
      have hlines : lines (text rows) = rows :=
        lines_text fun l hl hm => (IsBit.isText ((writes_lines hw l hl).2 _ hm)).1 rfl
      rw [hprint]
      constructor
      · intro h
        obtain ⟨_, hfile, hn, -⟩ := h
        cases hfile
        rw [hlines, hlen] at hn
        exact ⟨vs, rfl, hn, hv⟩
      · intro h
        obtain ⟨_, hvs, hn, -⟩ := h
        cases hvs
        exact ⟨text rows, rfl, by rw [hlines, hlen, hn],
          fun hfit => ⟨rows, loadTrace_writes D hw (by omega), by rw [hlen, hn]⟩⟩
    · obtain ⟨v, hv⟩ := not_forall.mp hv
      obtain ⟨hm, hwide⟩ := Classical.not_imp.mp hv
      rw [printTrace_none hm (by omega)]
      constructor
      · intro h
        obtain ⟨file, hfile, -⟩ := h
        cases hfile
      · intro h
        obtain ⟨_, hvs, -, hall⟩ := h
        cases hvs
        exact absurd (hall v hm) hwide

theorem Follows.writes_iff {P : Plan} {extra size : Nat} {round : (i d : Nat) → i < size → Option (Round i)}
    (h : Follows P extra size round) (hextra : extra ≤ 1) (hsize : size ≤ intMax) (D : Dims) :
    WritesLines D ((printing size round 0 0).bind fun vs => printTrace D (vs.map Int.ofNat)) size ↔
      P.Exact extra size (fun v => v < 2 ^ D.bitwidth) 0 0 0 := by
  rw [writesLines_iff]
  by_cases h0 : 0 < size
  · rw [← h.printsRest_iff hextra hsize _ size 0 0 0 rfl h0]
    simp [PrintsRest]
  · refine ⟨fun _ => ⟨fun m hm => by omega, fun m hm => by omega⟩, fun _ => ?_⟩
    exact ⟨[], printing_stop (by omega), by simp; omega, by simp⟩

theorem Plan.bursts_all {P : Plan} (h : ∀ d, P.jump d = true) : ∀ m d, P.bursts d m = m := by
  intro m
  induction m with
  | zero => intro d; rfl
  | succ m ih => intro d; rw [Plan.bursts, h, ih, if_pos rfl, Nat.add_comm]

/-- Bursts of 30 lines from a multiple of 30 on end at `size` if 3 divides what is left. -/
theorem turns_iff {size i : Nat} (hi : i < size) (hlast : size ≤ i + 30) :
    i + 3 * turns size i = size ↔ 3 ∣ size - i := by
  unfold turns
  omega

theorem friendly_start (rand : Nat → Nat) (range : Nat) : ∀ m d, (friendlyPlan rand range).start d m = d + 3 * m := by
  intro m
  induction m with
  | zero => intro d; rfl
  | succ m ih =>
    intro d
    rw [Plan.start, ih]
    simp only [friendlyPlan]
    omega

theorem Plan.bursts_succ (P : Plan) : ∀ m d,
    P.bursts d (m + 1) = P.bursts d m + if P.jump (P.start d m) then 1 else 0 := by
  intro m
  induction m with
  | zero => intro d; exact Nat.add_comm _ _
  | succ m ih =>
    intro d
    rw [Plan.bursts, ih, Plan.bursts, Plan.start, Nat.add_assoc]

/-- Where the draws put `i` before round `m` of Assignment 5's generators. -/
def Plan.line (P : Plan) (m : Nat) : Nat := m + 29 * P.bursts 0 m

/-- The same in Lab 6, where a burst moves `i` by one more than the lines it prints. -/
def Plan.lineLab6 (P : Plan) (m : Nat) : Nat := m + 30 * P.bursts 0 m

/-- No burst begins with 1 to 29 lines to go that are not triples. -/
def Plan.EvenBursts (P : Plan) (size : Nat) : Prop :=
  ∀ m, P.jump (P.start 0 m) = true → P.line m < size → size ≤ P.line m + 30 → 3 ∣ size - P.line m

/-- The last round makes up for the lines the bursts before it were counted too many: there are
    none if it is a single address, and otherwise it prints as many lines beyond `size`. -/
def Plan.SurplusFits (P : Plan) (size : Nat) : Prop :=
  ∀ m, P.lineLab6 m < size → size ≤ P.lineLab6 (m + 1) →
    if P.jump (P.start 0 m) then
      P.lineLab6 m + 3 * turns size (P.lineLab6 m) = size + P.bursts 0 m ∧ size + P.bursts 0 m + 1 ≤ intMax
    else P.bursts 0 m = 0

/-- The numbers drawn before the end. -/
def Plan.Draws (P : Plan) (line : Nat → Nat) (size : Nat) (p : Nat → Prop) : Prop :=
  ∀ m, line m < size → ∀ v ∈ P.values (P.start 0 m), p v

theorem Plan.exact_iff (P : Plan) {size : Nat} (p : Nat → Prop) (hsize : size ≤ intMax) :
    P.Exact 0 size p 0 0 0 ↔ P.EvenBursts size ∧ P.Draws P.line size p := by
  have hpos : ∀ m, P.pos 0 0 0 m = P.line m := fun m => by rw [Plan.pos, Plan.line, Nat.zero_add]
  constructor
  · intro h
    refine ⟨fun m hj hm hl => ?_, fun m hm => h.values m (by rw [hpos]; exact hm)⟩
    have hnext : P.line (m + 1) = P.line m + 30 := by
      rw [Plan.line, P.bursts_succ, hj, if_pos rfl, Plan.line]
      omega
    have hf := h.fits m (by rw [hpos]; exact hm) (by rw [hpos]; omega)
    rw [Plan.Fits, hj, if_pos rfl, hpos, Nat.zero_mul, Nat.add_zero] at hf
    exact (turns_iff hm hl).mp hf.1
  · intro h
    refine ⟨fun m hm hl => ?_, fun m hm => h.2 m (by rw [hpos] at hm; exact hm)⟩
    rw [hpos] at hm hl ⊢
    rw [Plan.Fits, Nat.zero_mul, Nat.zero_mul, Nat.add_zero]
    cases hj : P.jump (P.start 0 m) with
    | false => rw [if_neg (by decide)]
    | true =>
      have hnext : P.line (m + 1) = P.line m + 30 := by
        rw [Plan.line, P.bursts_succ, hj, if_pos rfl, Plan.line]
        omega
      rw [if_pos rfl, turns_iff hm (by omega)]
      exact ⟨h.1 m hj hm (by omega), hsize⟩

theorem Plan.exactLab6_iff (P : Plan) (size : Nat) (p : Nat → Prop) :
    P.Exact 1 size p 0 0 0 ↔ P.SurplusFits size ∧ P.Draws P.lineLab6 size p := by
  have hpos : ∀ m, P.pos 1 0 0 m = P.lineLab6 m := fun m => by rw [Plan.pos, Plan.lineLab6, Nat.zero_add]
  have hfits : ∀ m, P.Fits 1 size (P.lineLab6 m) (P.start 0 m) (0 + P.bursts 0 m) ↔
      if P.jump (P.start 0 m) then P.lineLab6 m + 3 * turns size (P.lineLab6 m) = size + P.bursts 0 m ∧
        size + P.bursts 0 m + 1 ≤ intMax
      else P.bursts 0 m = 0 := by
    intro m
    rw [Plan.Fits, Nat.zero_add, Nat.one_mul, Nat.one_mul, Nat.add_assoc]
  constructor
  · intro h
    refine ⟨fun m hm hl => (hfits m).mp ?_, fun m hm => h.values m (by rw [hpos]; exact hm)⟩
    rw [← hpos] at hm hl ⊢
    exact h.fits m hm (by rw [hpos]; rwa [hpos] at hl)
  · intro h
    refine ⟨fun m hm hl => ?_, fun m hm => h.2 m (by rw [hpos] at hm; exact hm)⟩
    rw [hpos] at hm hl ⊢
    exact (hfits m).mpr (h.1 m hm hl)

theorem friendly_exact (rand : Nat → Nat) (range : Nat) {size : Nat} (p : Nat → Prop) (hsize : size ≤ intMax) :
    (friendlyPlan rand range).Exact 0 size p 0 0 0 ↔
      3 ∣ size ∧ ∀ m, 30 * m < size → ∀ j < 3, p (rand (3 * m + j) % range) := by
  have hline : ∀ m, (friendlyPlan rand range).line m = 30 * m := by
    intro m
    rw [Plan.line, Plan.bursts_all (fun _ => rfl)]
    omega
  have hvals : ∀ m, (∀ v ∈ (friendlyPlan rand range).values ((friendlyPlan rand range).start 0 m), p v) ↔
      ∀ j < 3, p (rand (3 * m + j) % range) := by
    intro m
    rw [friendly_start, Nat.zero_add]
    constructor
    · intro h j hj
      apply h
      rcases (by omega : j = 0 ∨ j = 1 ∨ j = 2) with rfl | rfl | rfl <;> simp [friendlyPlan]
    · intro h v hv
      simp only [friendlyPlan, List.mem_cons, List.not_mem_nil, or_false] at hv
      rcases hv with rfl | rfl | rfl
      · exact h 0 (by omega)
      · exact h 1 (by omega)
      · exact h 2 (by omega)
  rw [Plan.exact_iff _ p hsize, Plan.EvenBursts, Plan.Draws]
  simp only [hline, hvals]
  refine and_congr_left fun _ => ⟨fun h => ?_, fun h m _ _ _ => by omega⟩
  by_cases h0 : size = 0
  · exact ⟨0, h0⟩
  · -- The last burst begins at the last multiple of 30 before the end.
    have := h ((size - 1) / 30) rfl (by omega) (by omega)
    omega

/-! ## When the lines are as many as asked -/

theorem friendlyTrace_iff (rand : Nat → Nat) {size range : Nat} (hsize : size < 2 ^ 31) (hrange : 1 ≤ range) :
    WritesLines assignment5 (friendlyTrace rand size range) size ↔
      3 ∣ size ∧ ∀ m, 30 * m < size → ∀ j < 3, rand (3 * m + j) % range < 2 ^ 16 := by
  have hmax : size ≤ intMax := by unfold intMax; omega
  exact ((friendly_follows hrange hmax).writes_iff (by omega) hmax assignment5).trans (friendly_exact rand range _ hmax)

theorem realisticTrace_iff (rand : Nat → Nat) {size range : Nat} (hsize : size < 2 ^ 31) (hrange : 1 ≤ range) :
    WritesLines assignment5 (realisticTrace rand size range) size ↔
      (realisticPlan rand range).EvenBursts size ∧
        (realisticPlan rand range).Draws (realisticPlan rand range).line size (fun v => v < 2 ^ 16) := by
  have hmax : size ≤ intMax := by unfold intMax; omega
  exact ((realistic_follows hrange hmax).writes_iff (by omega) hmax assignment5).trans (Plan.exact_iff _ _ hmax)

theorem realisticTraceLab6_iff (rand : Nat → Nat) {size range : Nat} (hsize : size < 2 ^ 31) (hrange : 1 ≤ range) :
    WritesLines lab6 (realisticTraceLab6 rand size range) size ↔
      (realisticPlan rand range).SurplusFits size ∧
        (realisticPlan rand range).Draws (realisticPlan rand range).lineLab6 size (fun v => v < 2 ^ 8) := by
  have hmax : size ≤ intMax := by unfold intMax; omega
  exact ((realisticLab6_follows hrange hmax).writes_iff le_rfl hmax lab6).trans (Plan.exactLab6_iff _ _ _)

/-- For each generator, the draws with which it prints as many lines as it was asked for. -/
theorem line_counts_iff (rand : Nat → Nat) (size range : Nat) (hsize : size < 2 ^ 31) (hrange : 1 ≤ range) :
    (WritesLines assignment5 (friendlyTrace rand size range) size ↔
      3 ∣ size ∧ ∀ m, 30 * m < size → ∀ j < 3, rand (3 * m + j) % range < 2 ^ 16) ∧
    (WritesLines assignment5 (realisticTrace rand size range) size ↔
      (realisticPlan rand range).EvenBursts size ∧
        (realisticPlan rand range).Draws (realisticPlan rand range).line size (fun v => v < 2 ^ 16)) ∧
    (WritesLines lab6 (realisticTraceLab6 rand size range) size ↔
      (realisticPlan rand range).SurplusFits size ∧
        (realisticPlan rand range).Draws (realisticPlan rand range).lineLab6 size (fun v => v < 2 ^ 8)) :=
  ⟨friendlyTrace_iff rand hsize hrange, realisticTrace_iff rand hsize hrange, realisticTraceLab6_iff rand hsize hrange⟩

/-- No bursts are drawn: three single addresses. -/
theorem line_counts_three : WritesLines assignment5 (friendlyTrace (fun _ => 0) 3 16) 3 ∧
    WritesLines assignment5 (realisticTrace (fun _ => 0) 3 16) 3 ∧
    WritesLines lab6 (realisticTraceLab6 (fun _ => 0) 3 16) 3 := by
  obtain ⟨h1, h2, h3⟩ := line_counts_iff (fun _ => 0) 3 16 (by norm_num) (by norm_num)
  have hno : ∀ m d, (realisticPlan (fun _ => 0) 16).bursts d m = 0 := by
    intro m
    induction m with
    | zero => intro d; rfl
    | succ m ih => intro d; rw [Plan.bursts, ih]; rfl
  have hsingle : ∀ d, (realisticPlan (fun _ => 0) 16).jump d = false := fun _ => rfl
  refine ⟨h1.mpr ⟨dvd_refl 3, by simp⟩, h2.mpr ⟨fun m hj => ?_, fun m _ v hv => ?_⟩,
    h3.mpr ⟨fun m _ _ => hno m 0, fun m _ v hv => ?_⟩⟩
  · rw [hsingle] at hj
    cases hj
  · simp [realisticPlan] at hv
    omega
  · simp [realisticPlan] at hv
    omega

/-- As the programs call them: whatever is drawn, `friendlyTrace` does not print `ADDRESSES`
    lines; nor do the others if every draw is odd, so that every round is a burst. -/
theorem too_many_lines : (∀ rand, ¬ WritesLines assignment5 (friendlyTrace rand 16384 16384) 16384) ∧
    ¬ WritesLines assignment5 (realisticTrace (fun _ => 1) 16384 16384) 16384 ∧
    ¬ WritesLines lab6 (realisticTraceLab6 (fun _ => 1) 1024 256) 1024 := by
  have hall : ∀ range m, (realisticPlan (fun _ => 1) range).bursts 0 m = m :=
    fun range m => Plan.bursts_all (fun _ => rfl) m 0
  refine ⟨fun rand h => ?_, fun h => ?_, fun h => ?_⟩
  · have := ((friendlyTrace_iff rand (by norm_num) (by norm_num)).mp h).1
    omega
  · have hm := ((realisticTrace_iff _ (by norm_num) (by norm_num)).mp h).1 546 rfl
    rw [Plan.line, hall] at hm
    omega
  · have hm := ((realisticTraceLab6_iff _ (by norm_num) (by norm_num)).mp h).1 33
    have hjump : ∀ d, (realisticPlan (fun _ => 1) 256).jump d = true := fun _ => rfl
    rw [Plan.lineLab6, Plan.lineLab6, hall, hall, hjump, if_pos rfl, turns] at hm
    omega

end CS5600.Cache.Generators
