/-
  CS5600.Cache.FifoMain — `main` of the set-associative simulator
  (`Assignment5_Memory/CacheSimulator/simulator_fifo.c`).

  `main` loads the trace and executes one row of `instructionCache` after the other, for as long
  as the user answers `y`, to the end once the answer is `a`. The loop stops at `ADDRESSES`, not
  at the end of what was loaded: the rows behind it are empty strings, and the set index of an
  empty string comes from the two bytes before it. `scanf` gets one character at a time
  (`typed`); the NUL it stores behind `run` is left out, as are `drawCache` and the messages,
  which change nothing.

  Proved: whatever `Junk` is and however many lines are loaded, no access faults and each is
  scored once (`access_total`), so a run to the end scores 16384 accesses (`main_ends`); it
  scores the accesses of the trace, and nothing else, exactly when the trace fills
  `instructionCache` (`scored_once_iff`).
-/

import CS5600.Cache.SimulatorFifo
import CS5600.Cache.TraceFile

namespace CS5600.Cache.FifoMain

open CS5600.Cache.Binary CS5600.Cache.TraceFile CS5600.Cache.SimulatorFifo CS5600.Lib.Runs

inductive Crash where
  | load (f : TraceFile.Fault)
  | access (f : SimulatorFifo.Fault)
  deriving DecidableEq, Repr

/-- The loop with `n` addresses left. At the end of the input `scanf` leaves `run` as it is. -/
def mainLoop (J : Junk) : Nat → Char → List Char → St → Except SimulatorFifo.Fault St
  | 0, _, _, st => .ok st
  | n + 1, run, typed, st =>
    if run = 'y' ∨ run = 'a' then
      match access J st with
      | .error f => .error f
      | .ok (st, _) =>
        if run ≠ 'a' then mainLoop J n (typed.headD run) typed.tail st else mainLoop J n run typed st
    else .ok st

def main (J : Junk) (file typed : List Char) : Except Crash St := do
  let rows ← (loadTrace assignment5 file).mapError .load
  (mainLoop J assignment5.addresses 'y' typed (start rows)).mapError .access

/-! ## Every access ends, and is scored once -/

theorem index_total (J : Junk) (st : St) : ∃ k, index (cacheSetIndex J st) = .ok k := by
  obtain ⟨h0, h4⟩ := range_two_bounds (charAt (beforeRow J st) (instruction st)) (instruction st).length
  unfold index
  rw [dif_pos ⟨by unfold cacheSetIndex; omega, by unfold cacheSetIndex; omega⟩]
  exact ⟨_, rfl⟩

def Bounded (st : St) : Prop := ∀ k, st.cacheOccupied k ≤ 4

/-- What every access does to the books, whatever the row holds. -/
structure Once (st st' : St) : Prop where
  bounded : Bounded st'
  scored : st'.cacheHit + st'.cacheMisses = st.cacheHit + st.cacheMisses + 1

theorem incrementCacheHit_once {st : St} (h : Bounded st) : Once st (incrementCacheHit st) :=
  ⟨h, by simp only [incrementCacheHit]; omega⟩

theorem miss_once {st st' : St} (hb : Bounded st') (h : st'.cacheHit = st.cacheHit)
    (m : st'.cacheMisses = st.cacheMisses + 1) : Once st st' :=
  ⟨hb, by omega⟩

theorem bounded_update {st st' : St} {k : Fin 4} (h : Bounded st) (hk : st.cacheOccupied k ≠ 4)
    (e : st'.cacheOccupied = Function.update st.cacheOccupied k (st.cacheOccupied k + 1)) : Bounded st' := by
  intro i
  rw [e]
  by_cases ei : i = k
  · subst ei
    have := h i
    simp only [Function.update_self]
    omega
  · simpa [ei] using h i

theorem replacementPolicy_once {st : St} {k : Fin 4} (h : Bounded st) (hk : st.cacheOccupied k ≠ 4) :
    ∃ st', replacementPolicy st k = .ok st' ∧ Once st st' := by
  have hle := h k
  unfold replacementPolicy
  split
  · exact ⟨_, rfl, miss_once (bounded_update h hk rfl) rfl rfl⟩
  · split
    · have hi : index (3 - (st.cacheOccupied k : Int)) = .ok ⟨3 - st.cacheOccupied k, by omega⟩ := by
        rw [← index_natCast (by omega)]
        congr 1; omega
      rw [hi]
      exact ⟨_, rfl, miss_once (bounded_update h hk rfl) rfl rfl⟩
    · exact ⟨_, rfl, incrementCacheHit_once h⟩

theorem evictionPolicy_once (J : Junk) {st : St} (k : Fin 4) (h : Bounded st) :
    Once st (evictionPolicy J st k) := by
  unfold evictionPolicy
  split
  · exact incrementCacheHit_once h
  · exact miss_once h rfl rfl

theorem access_total (J : Junk) {st : St} (h : Bounded st) :
    ∃ st' v, access J st = .ok (st', v) ∧ Once st st' := by
  obtain ⟨k, hk⟩ := index_total J st
  have hc : ∃ st', checkCache J st = .ok st' ∧ Once st st' := by
    simp only [checkCache, hk, bind, Except.bind, pure, Except.pure]
    split
    · rename_i h4; exact replacementPolicy_once h h4
    · exact ⟨_, rfl, evictionPolicy_once J k h⟩
  obtain ⟨st', hst, ho⟩ := hc
  exact ⟨stepSimulator st', _, by simp only [access, hst, bind, Except.bind, pure, Except.pure]; rfl, ho.bounded, ho.scored⟩

theorem simulate_total (J : Junk) : ∀ (n : Nat) (st : St), Bounded st →
    ∃ st' vs, simulate J n st = .ok (st', vs) ∧
      st'.cacheHit + st'.cacheMisses = st.cacheHit + st.cacheMisses + n := by
  intro n
  induction n with
  | zero => intro st _; exact ⟨st, [], rfl, rfl⟩
  | succ n ih =>
    intro st h
    obtain ⟨st1, v, hacc, h1⟩ := access_total J h
    obtain ⟨st2, vs, hrun, h2⟩ := ih st1 h1.bounded
    refine ⟨st2, v :: vs, ?_, ?_⟩
    · unfold simulate at hrun ⊢
      simp only [List.replicate_succ, answers, hacc, hrun]
    · rw [h2, h1.scored]; omega

/-! ## Running to the end -/

theorem simulate_succ (J : Junk) {n : Nat} {st st' : St} {vs : List Verdict}
    (h : simulate J (n + 1) st = .ok (st', vs)) :
    ∃ st1 v ws, access J st = .ok (st1, v) ∧ simulate J n st1 = .ok (st', ws) := by
  unfold simulate at h ⊢
  simp only [List.replicate_succ, answers] at h
  cases hacc : access J st with
  | error f => rw [hacc] at h; cases h
  | ok r =>
    obtain ⟨st1, v⟩ := r
    rw [hacc] at h
    refine ⟨st1, v, ?_⟩
    cases hrun : answers (fun st (_ : Unit) => access J st) st1 (List.replicate n ()) with
    | error f => simp [hrun] at h
    | ok r =>
      simp only [hrun, Except.ok.injEq, Prod.mk.injEq] at h
      exact ⟨r.2, rfl, by rw [← h.1]⟩

theorem mainLoop_round (J : Junk) {n : Nat} {run : Char} {typed : List Char} {st st1 : St} {v : Verdict}
    (hrun : run = 'y' ∨ run = 'a') (hacc : access J st = .ok (st1, v)) :
    mainLoop J (n + 1) run typed st =
      if run ≠ 'a' then mainLoop J n (typed.headD run) typed.tail st1 else mainLoop J n run typed st1 := by
  show (if run = 'y' ∨ run = 'a' then _ else _) = _
  rw [if_pos hrun, hacc]

theorem mainLoop_a (J : Junk) (typed : List Char) : ∀ (n : Nat) (st st' : St) (vs : List Verdict),
    simulate J n st = .ok (st', vs) → mainLoop J n 'a' typed st = .ok st' := by
  intro n
  induction n with
  | zero => intro st st' vs h; cases h; rfl
  | succ n ih =>
    intro st st' vs h
    obtain ⟨st1, v, ws, hacc, hrun⟩ := simulate_succ J h
    rw [mainLoop_round J (.inr rfl) hacc, if_neg (not_not.mpr rfl)]
    exact ih st1 st' ws hrun

/-- The first round is run before the answer is read. -/
theorem mainLoop_ya (J : Junk) {n : Nat} {st st' : St} {vs : List Verdict}
    (h : simulate J (n + 1) st = .ok (st', vs)) : mainLoop J (n + 1) 'y' ['a'] st = .ok st' := by
  obtain ⟨st1, v, ws, hacc, hrun⟩ := simulate_succ J h
  rw [mainLoop_round J (.inl rfl) hacc, if_pos (by decide)]
  exact mainLoop_a J [] n st1 st' ws hrun

theorem addresses_load {rows : List (List Char)} (hn : rows.length ≤ 16384) (h : ∀ a ∈ rows, IsAddress a) :
    loadTrace assignment5 (text rows) = .ok rows :=
  loadTrace_lines assignment5 hn fun a ha => ⟨le_of_eq (h a ha).1, fun c hc => IsBit.isText ((h a ha).2 c hc)⟩

theorem main_simulates (J : Junk) {rows : List (List Char)} (hn : rows.length ≤ 16384)
    (h : ∀ a ∈ rows, IsAddress a) {st : St} {vs : List Verdict} (hs : simulate J 16384 (start rows) = .ok (st, vs)) :
    main J (text rows) ['a'] = .ok st := by
  unfold main
  rw [addresses_load hn h]
  show (mainLoop J 16384 'y' ['a'] (start rows)).mapError Crash.access = .ok st
  rw [mainLoop_ya J hs]
  rfl

theorem main_ends (J : Junk) (rows : List (List Char)) (hn : rows.length ≤ 16384) (h : ∀ a ∈ rows, IsAddress a) :
    ∃ st vs, simulate J 16384 (start rows) = .ok (st, vs) ∧ main J (text rows) ['a'] = .ok st ∧
      st.cacheHit + st.cacheMisses = 16384 := by
  obtain ⟨st, vs, hs, hc⟩ := simulate_total J 16384 (start rows) (fun k => Nat.zero_le 4)
  have h0 : (start rows).cacheHit + (start rows).cacheMisses = 0 := rfl
  exact ⟨st, vs, hs, main_simulates J hn h hs, by omega⟩

/-- The same cache and the same counters. -/
structure SameBooks (st st' : St) : Prop where
  lines : st.cacheSet = st'.cacheSet
  occupied : st.cacheOccupied = st'.cacheOccupied
  hits : st.cacheHit = st'.cacheHit
  misses : st.cacheMisses = st'.cacheMisses
  latency : st.totalLatency = st'.totalLatency

/-- The run to the end scores the trace's accesses once each and nothing else. -/
def ScoresTrace (J : Junk) (rows : List (List Char)) : Prop :=
  ∃ st st' vs, main J (text rows) ['a'] = .ok st ∧ simulate J rows.length (start rows) = .ok (st', vs) ∧
    st.cacheHit + st.cacheMisses = rows.length ∧ SameBooks st st'

theorem scored_length (J : Junk) {rows : List (List Char)} (hn : rows.length ≤ 16384)
    (h : ∀ a ∈ rows, IsAddress a) (hs : ScoresTrace J rows) : rows.length = 16384 := by
  obtain ⟨st, -, -, hm, -, hc, -⟩ := hs
  obtain ⟨st1, -, -, hm1, hc1⟩ := main_ends J rows hn h
  have e : st = st1 := Except.ok.inj (hm.symm.trans hm1)
  rw [← hc, e, hc1]

theorem scored_once_iff (J : Junk) (rows : List (List Char)) (hn : rows.length ≤ 16384)
    (h : ∀ a ∈ rows, IsAddress a) : ScoresTrace J rows ↔ rows.length = 16384 := by
  constructor
  · exact scored_length J hn h
  · intro hfull
    obtain ⟨st, vs, hs, hm, hc⟩ := main_ends J rows hn h
    exact ⟨st, st, vs, hm, by rw [hfull]; exact hs, by rw [hfull]; exact hc, rfl, rfl, rfl, rfl, rfl⟩

/-- A trace of one line is scored 16384 times. -/
theorem scored_once_line : ∃ st, main ⟨fun _ => '0', []⟩ (text [List.replicate 16 '0']) ['a'] = .ok st ∧
    st.cacheHit + st.cacheMisses = 16384 ∧ ¬ ScoresTrace ⟨fun _ => '0', []⟩ [List.replicate 16 '0'] := by
  obtain ⟨st, -, -, hm, hc⟩ := main_ends ⟨fun _ => '0', []⟩ [List.replicate 16 '0'] (by decide) (by decide)
  refine ⟨st, hm, hc, fun hs => ?_⟩
  exact absurd (scored_length _ (by decide) (by decide) hs) (by decide)

theorem scored_once_full : ScoresTrace ⟨fun _ => '0', []⟩ (List.replicate 16384 (List.replicate 16 '0')) := by
  refine (scored_once_iff _ _ (by rw [List.length_replicate]) (fun a ha => ?_)).mpr (by rw [List.length_replicate])
  rw [List.eq_of_mem_replicate ha]
  decide

end CS5600.Cache.FifoMain
