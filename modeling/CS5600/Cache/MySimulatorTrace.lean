/-
  CS5600.Cache.MySimulatorTrace — what `mySimulator.c` does to the trace it runs.

  `instructionCache` is the whole array here: the lines `loadTrace` stored and empty rows up to
  `ADDRESSES` (`loaded`), which `main` executes as well.

  Proved: an access changes the trace only if set 0 is full and misses, and then it puts the
  line it meant to replace into the row being executed (`access_rows`). So the trace is as it was
  loaded and the lines hold entries of the trace, each in the set of its low bits, after each
  of the first `n` accesses exactly when these are lines of the trace and set 0 gets no fifth
  address among them (`kept_iff`).
-/

import CS5600.Cache.MySimulator
import CS5600.Lib.Fifo

namespace CS5600.Cache.MySimulator

open CS5600.Cache.Binary CS5600.Lib.Runs CS5600.Lib.Banks CS5600.Lib.Fifo CS5600.Lib.Recency
open CS5600.Cache.SimulatorFifo (Fault Verdict index_natCast lowBits address_ne_nil)

/-- `instructionCache` after `loadTrace`. -/
def loaded (rows : List (List Char)) : List (List Char) := rows ++ List.replicate (16384 - rows.length) []

/-- The trace is as loaded, and each line in use holds one of its entries, of the line's set. -/
def Kept (rows : List (List Char)) (st : St) : Prop :=
  st.instructionCache = loaded rows ∧
    ∀ k i, i.val < (st.sets k).filled → (st.sets k).data i ∈ rows ∧ lowBits ((st.sets k).data i) = k

/-! ## What an access does to the rows -/

/-- The access copies a line over the row being executed. -/
def Overwrites (st : St) (k : Fin 4) : Prop :=
  k = 0 ∧ (st.sets k).filled = 4 ∧ (st.sets k).find (instruction st) = none

instance (st : St) (k : Fin 4) : Decidable (Overwrites st k) := inferInstanceAs (Decidable (_ ∧ _ ∧ _))

/-- `instructionCache` after an access of set `k`. -/
def rowsAfter (st : St) (k : Fin 4) : List (List Char) :=
  if Overwrites st k then st.instructionCache.set st.pc ((st.sets k).data (getMin (st.sets k).age))
  else st.instructionCache

theorem adder_rows (st : St) {st' : St} {k : Fin 4} (hf : (st.sets k).filled ≤ 4) (h : adder k st = .ok st') :
    st'.instructionCache = if k = 0 ∧ (st.sets k).filled = 4 then
        st.instructionCache.set st.pc ((st.sets k).data (getMin (st.sets k).age))
      else st.instructionCache := by
  by_cases h4 : (st.sets k).filled = 4
  · by_cases hk : k = 0
    · subst hk
      have hadd : adder 0 st = addToSet1 st := rfl
      rw [hadd, addToSet1, if_pos h4] at h
      rw [if_pos ⟨rfl, h4⟩]
      cases h
      rfl
    · rw [adder, if_neg hk, addToSet, if_pos h4] at h
      rw [if_neg (fun hc => hk hc.1)]
      cases h
      rfl
  · have hadd : adder k st = addToFree st k := by
      unfold adder
      split
      · rename_i hk
        subst hk
        rw [addToSet1, if_neg h4]
      · rw [addToSet, if_neg h4]
    rw [hadd, addToFree_eq (by omega)] at h
    rw [if_neg (fun hc => h4 hc.2)]
    cases h
    rfl

theorem policyCase_rows {st st' : St} {k : Fin 4} (hf : (st.sets k).filled ≤ 4)
    (h : policyCase k (adder k) k.val st = .ok st') : st'.instructionCache = rowsAfter st k := by
  unfold policyCase at h
  rw [checkInstructionPos_eq] at h
  unfold rowsAfter
  cases hfind : (st.sets k).find (instruction st) with
  | none =>
    simp only [hfind, ite_self, if_true] at h
    have hrows := adder_rows (incrementCacheMiss st) hf h
    by_cases hc : k = 0 ∧ (st.sets k).filled = 4
    · have ho : Overwrites st k := ⟨hc.1, hc.2, hfind⟩
      rw [if_pos ho]
      exact hrows.trans (if_pos hc)
    · have ho : ¬ Overwrites st k := fun ho => hc ⟨ho.1, ho.2.1⟩
      rw [if_neg ho]
      exact hrows.trans (if_neg hc)
  | some i =>
    have h0 : (st.sets k).filled ≠ 0 := by
      intro h0
      rw [find_of_empty h0] at hfind
      cases hfind
    have hi : (i.val : Int) ≠ -1 := by omega
    simp only [hfind] at h
    rw [if_neg h0, if_neg hi, replaceInstruction_eq] at h
    rw [if_neg (fun ho => by rw [ho.2.2] at hfind; cases hfind)]
    split at h
    · cases h
      rfl
    · have hx : SimulatorFifo.index (i.val : Int) = .ok i := index_natCast i.isLt
      simp only [touch, hx, bind, Except.bind, pure, Except.pure] at h
      cases h
      rfl

/-- The set of any string, also of one without low bits. -/
theorem replacementPolicy_case (J : Int → Char) (st : St) : ∃ k : Fin 4,
    replacementPolicy J st = policyCase k (adder k) k.val st ∧
      (IsAddress (instruction st) → lowBits (instruction st) = k) := by
  by_cases ha : IsAddress (instruction st)
  · exact ⟨_, replacementPolicy_eq J ha, fun _ => rfl⟩
  · obtain ⟨h0, h4⟩ := range_two_bounds (charAt (beforeRow J st) (instruction st)) (instruction st).length
    have hcases : ∀ s : Int, 0 ≤ s → s < 4 → s = ((0 : Fin 4).val : Int) ∨ s = ((1 : Fin 4).val : Int) ∨
        s = ((2 : Fin 4).val : Int) ∨ s = ((3 : Fin 4).val : Int) := by
      intro s h h'
      simp
      omega
    unfold replacementPolicy
    rcases hcases _ h0 h4 with h | h | h | h
    · exact ⟨0, by simp only [h]; rfl, fun h => absurd h ha⟩
    · exact ⟨1, by simp only [h]; rfl, fun h => absurd h ha⟩
    · exact ⟨2, by simp only [h]; rfl, fun h => absurd h ha⟩
    · exact ⟨3, by simp only [h]; rfl, fun h => absurd h ha⟩

theorem access_rows (J : Int → Char) {st : St} (hf : ∀ k, (st.sets k).filled ≤ 4) : ∃ k st' v,
    access J st = .ok (st', v) ∧ (IsAddress (instruction st) → lowBits (instruction st) = k) ∧ st'.pc = st.pc + 1 ∧
    st'.instructionCache = rowsAfter st k ∧
    st'.sets = Function.update st.sets k (setStep (kind k) (st.sets k) (instruction st)).1 := by
  obtain ⟨k, hcase, hk⟩ := replacementPolicy_case J st
  obtain ⟨st', hp, hmov, -⟩ := policyCase_moves (hf k)
  have hrows := policyCase_rows (hf k) hp
  refine ⟨k, stepSimulator st', if st.cacheHit < st'.cacheHit then .hit else .miss, ?_, hk,
    by rw [← hmov.pc]; rfl, hrows, hmov.sets⟩
  simp only [access, hcase, hp, bind, Except.bind, pure, Except.pure]

/-! ## What an access stores -/

/-- A set holds the address it was just given, unless it is stuck. -/
theorem stored_self {κ : Kind} {c : CacheSet} (hf : c.filled ≤ 4) {a : List Char}
    (h : ¬ (κ = .stuck ∧ c.filled = 4 ∧ c.find a = none)) : Stored (setStep κ c a).1 a := by
  cases hfind : c.find a with
  | some i =>
    obtain ⟨hi, hd⟩ := find_some hfind
    rw [setStep_hit κ hfind, put_same hd]
    simp only
    split
    · exact ⟨i, hi, hd⟩
    · exact ⟨i, hi, hd⟩
  | none =>
    by_cases h4 : c.filled = 4
    · have hκ : κ ≠ .stuck := fun e => h ⟨e, h4, hfind⟩
      rw [setStep_full κ hfind h4, if_neg hκ]
      refine ⟨getMin c.age, ?_, by rw [put_data, Function.update_self]⟩
      rw [put_filled, h4]
      exact (getMin c.age).isLt
    · rw [setStep_free κ hfind h4]
      have hfree := ofNat_filled (c := c) (by omega)
      refine ⟨Fin.ofNat 4 c.filled, ?_, by simp only [put_data, Function.update_self]⟩
      simp only
      omega

/-- A set that is not full, or is hit, gives nothing up. -/
theorem stored_keep {κ : Kind} {c : CacheSet} (hf : c.filled ≤ 4) {a b : List Char}
    (h : ¬ (c.filled = 4 ∧ c.find a = none)) (hb : Stored c b) : Stored (setStep κ c a).1 b := by
  cases hfind : c.find a with
  | some i =>
    rw [setStep_hit κ hfind, put_same (find_some hfind).2]
    simp only
    split
    · exact hb
    · exact hb
  | none =>
    have h4 : c.filled ≠ 4 := fun e => h ⟨e, hfind⟩
    obtain ⟨i, hi, rfl⟩ := hb
    have hfree := ofNat_filled (c := c) (by omega)
    have hp : i ≠ Fin.ofNat 4 c.filled := fun e => by rw [e, hfree] at hi; omega
    rw [setStep_free κ hfind h4]
    exact ⟨i, Nat.lt_succ_of_lt hi, by simp only [put_data, Function.update_of_ne hp]⟩

/-! ## Runs -/

theorem simulate_snoc {J : Int → Char} {n : Nat} {st st' st'' : St} {vs : List Verdict} {v : Verdict}
    (h : simulate J n st = .ok (st', vs)) (hacc : access J st' = .ok (st'', v)) :
    simulate J (n + 1) st = .ok (st'', vs ++ [v]) := by
  unfold simulate at h ⊢
  rw [List.replicate_succ']
  exact answers_snoc h hacc

/-- The state after the first `n` lines of a trace that has not been changed. -/
structure Intact (rows : List (List Char)) (n : Nat) (st : St) : Prop where
  trace : st.instructionCache = loaded rows
  pc : st.pc = n
  filled : ∀ k, (st.sets k).filled ≤ 4
  stored : ∀ k a, Stored (st.sets k) a → a ∈ rows.take n ∧ lowBits a = k
  first : (st.sets 0).filled = demand lowBits 0 (rows.take n)
  holds : ∀ a ∈ rows.take n, lowBits a = 0 → Stored (st.sets 0) a

theorem Intact.kept {rows : List (List Char)} {n : Nat} {st : St} (h : Intact rows n st) : Kept rows st := by
  refine ⟨h.trace, fun k i hi => ?_⟩
  obtain ⟨hm, hk⟩ := h.stored k _ ⟨i, hi, rfl⟩
  exact ⟨List.mem_of_mem_take hm, hk⟩

theorem start_intact (rows : List (List Char)) : Intact rows 0 (start (loaded rows)) where
  trace := rfl
  pc := rfl
  filled _ := Nat.zero_le 4
  stored k a h := by
    obtain ⟨i, hi, -⟩ := h
    exact absurd hi (Nat.not_lt_zero _)
  first := rfl
  holds a ha := by simp at ha

theorem loaded_line {rows es : List (List Char)} {n : Nat} {a : List Char} (h : rows.drop n = a :: es) :
    (loaded rows).getD n [] = a := by
  have hn : n ≤ rows.length := by
    by_contra hn
    rw [List.drop_of_length_le (by omega)] at h
    cases h
  have hdrop : (loaded rows).drop n = a :: (es ++ List.replicate (16384 - rows.length) []) := by
    rw [loaded, List.drop_append_of_le_length hn, h, List.cons_append]
  exact SimulatorFifo.getD_of_drop hdrop

theorem loaded_behind {rows : List (List Char)} : (loaded rows).getD rows.length [] = [] := by
  rw [loaded, List.getD_append_right _ _ _ _ le_rfl, Nat.sub_self]
  cases 16384 - rows.length <;> rfl

/-- A row is as it was only if the same string was copied over it. -/
theorem set_eq_self {l : List (List Char)} {n : Nat} {s : List Char} (hn : n < l.length) (h : l.set n s = l) :
    s = l.getD n [] := by
  have := congrArg (fun m => m.getD n []) h
  simpa [List.getD, hn] using this

theorem Intact.find_iff {rows : List (List Char)} {n : Nat} {st : St} (h : Intact rows n st) {a : List Char}
    (hk : lowBits a = 0) : (st.sets 0).find a = none ↔ a ∉ rows.take n := by
  rw [find_none_iff, not_iff_not]
  exact ⟨fun hs => (h.stored 0 a hs).1, fun hm => h.holds a hm hk⟩

/-- The access of line `n`: it overwrites the line if set 0 then has a fifth address. -/
theorem Intact.overwrites_iff {rows : List (List Char)} {n : Nat} {st : St} (h : Intact rows n st) {a : List Char}
    {es : List (List Char)} (hd : rows.drop n = a :: es) :
    Overwrites st (lowBits a) ↔ 4 < demand lowBits 0 (rows.take n ++ [a]) := by
  have hi : instruction st = a := by rw [instruction, row, h.trace, h.pc, loaded_line hd]
  have hle := h.filled 0
  have hfirst := h.first
  rw [demand_snoc]
  by_cases hk : lowBits a = 0
  · rw [Overwrites, hi, hk, h.find_iff hk]
    by_cases ha : a ∈ rows.take n
    · rw [if_neg (fun hc => hc.2 ha)]
      exact ⟨fun hc => absurd ha hc.2.2, fun hc => by omega⟩
    · rw [if_pos ⟨rfl, ha⟩]
      exact ⟨fun hc => by omega, fun hc => ⟨rfl, by omega, ha⟩⟩
  · rw [if_neg (fun hc => hk hc.1)]
    exact ⟨fun hc => absurd hc.1 hk, fun hc => by omega⟩

/-- An access that does not overwrite its line leaves the trace intact. -/
theorem Intact.step (J : Int → Char) {rows : List (List Char)} {n : Nat} {st : St} (h : Intact rows n st) {a : List Char}
    {es : List (List Char)} (hd : rows.drop n = a :: es) (ha : IsAddress a)
    (hno : demand lowBits 0 (rows.take n ++ [a]) ≤ 4) :
    ∃ st' v, access J st = .ok (st', v) ∧ Intact rows (n + 1) st' := by
  have hi : instruction st = a := by rw [instruction, row, h.trace, h.pc, loaded_line hd]
  have htake := take_succ_of_drop hd
  have hover : ¬ Overwrites st (lowBits a) := by
    rw [h.overwrites_iff hd]
    omega
  obtain ⟨k, st', v, hacc, hk, hpc, hrows, hsets⟩ := access_rows J h.filled
  rw [hi] at hk hsets
  obtain rfl := hk ha
  have hkeep : ∀ b, Stored (st.sets 0) b → Stored (st'.sets 0) b := by
    intro b hb
    rw [hsets]
    by_cases h0 : (0 : Fin 4) = lowBits a
    · rw [← h0, Function.update_self]
      exact stored_keep (h.filled 0) (fun hc => hover ⟨h0.symm, h0 ▸ hc.1, by rw [hi, ← h0]; exact hc.2⟩) hb
    · rwa [Function.update_of_ne h0]
  refine ⟨st', v, hacc, ?_, by rw [hpc, h.pc], fun k => ?_, fun k b hb => ?_, ?_, fun b hb h0 => ?_⟩
  · rw [hrows, rowsAfter, if_neg hover, h.trace]
  · rw [hsets]
    by_cases e : k = lowBits a
    · subst e
      rw [Function.update_self]
      exact setStep_filled _ (h.filled _) a
    · rw [Function.update_of_ne e]
      exact h.filled k
  · rw [htake, List.mem_append, List.mem_singleton]
    rw [hsets] at hb
    by_cases e : k = lowBits a
    · subst e
      rw [Function.update_self] at hb
      rcases stored_step (h.filled _) hb with hb | rfl
      · exact ⟨.inl (h.stored _ b hb).1, (h.stored _ b hb).2⟩
      · exact ⟨.inr rfl, rfl⟩
    · rw [Function.update_of_ne e] at hb
      exact ⟨.inl (h.stored k b hb).1, (h.stored k b hb).2⟩
  · rw [htake, demand_snoc, hsets]
    by_cases h0 : (0 : Fin 4) = lowBits a
    · have hfind := h.find_iff h0.symm
      have hfull : (st.sets 0).find a = none → (st.sets 0).filled ≠ 4 := fun hf h4 =>
        hover ⟨h0.symm, h0 ▸ h4, by rw [hi, ← h0]; exact hf⟩
      rw [← h0, Function.update_self, filled_step, h.first]
      by_cases hm : a ∈ rows.take n
      · rw [if_neg (fun hc => hfind.mp hc.1 hm), if_neg (fun hc => hc.2 hm)]
      · rw [if_pos ⟨hfind.mpr hm, h.first ▸ hfull (hfind.mpr hm)⟩, if_pos ⟨rfl, hm⟩]
    · rw [Function.update_of_ne h0, if_neg (fun hc => h0 hc.1.symm), h.first]
  · rw [htake] at hb
    rcases List.mem_append.mp hb with hb | hb
    · exact hkeep b (h.holds b hb h0)
    · rw [List.mem_singleton.mp hb] at h0 ⊢
      rw [hsets, ← h0, Function.update_self]
      exact stored_self (h.filled _) (fun hc => hover ⟨h0, hc.2.1, by rw [hi]; exact hc.2.2⟩)

/-- The state after `n` lines, as long as set 0 gets at most four addresses. -/
theorem intact_after (J : Int → Char) {rows : List (List Char)} (h : ∀ a ∈ rows, IsAddress a) : ∀ n ≤ rows.length,
    demand lowBits 0 (rows.take n) ≤ 4 →
      ∃ st vs, simulate J n (start (loaded rows)) = .ok (st, vs) ∧ Intact rows n st := by
  intro n
  induction n with
  | zero => intro _ _; exact ⟨_, [], rfl, start_intact rows⟩
  | succ n ih =>
    intro hn hd
    obtain ⟨a, ha, hline⟩ := exists_next (show n < rows.length by omega)
    rw [take_succ_of_drop hline] at hd
    obtain ⟨st, vs, hrun, hst⟩ := ih (by omega) (le_trans (demand_le lowBits 0 (List.prefix_append _ [a])) hd)
    obtain ⟨st', v, hacc, hst'⟩ := hst.step J hline (h a ha) hd
    exact ⟨st', vs ++ [v], simulate_snoc hrun hacc, hst'⟩

/-- The line copied over the row is another string: the set did not hold this one. -/
theorem overwrites_changes {st : St} {k : Fin 4} (ho : Overwrites st k) (hpc : st.pc < st.instructionCache.length) :
    rowsAfter st k ≠ st.instructionCache := by
  intro he
  rw [rowsAfter, if_pos ho] at he
  have hsame := set_eq_self hpc he
  have hlt := (getMin (st.sets k).age).isLt
  exact find_none_iff.mp ho.2.2 ⟨_, by rw [ho.2.1]; exact hlt, hsame⟩

/-- The access of a fifth address of set 0. -/
theorem Intact.fifth (J : Int → Char) {rows : List (List Char)} {n : Nat} {st : St} (h : Intact rows n st)
    {a : List Char} {es : List (List Char)} (hd : rows.drop n = a :: es) (ha : IsAddress a)
    (hfive : 4 < demand lowBits 0 (rows.take n ++ [a])) : ∃ st' v, access J st = .ok (st', v) ∧ ¬ Kept rows st' := by
  have hi : instruction st = a := by rw [instruction, row, h.trace, h.pc, loaded_line hd]
  have hn : n < rows.length := by
    by_contra hn
    rw [List.drop_of_length_le (by omega)] at hd
    cases hd
  obtain ⟨k, st', v, hacc, hk, -, hrows, -⟩ := access_rows J h.filled
  rw [hi] at hk
  obtain rfl := hk ha
  refine ⟨st', v, hacc, fun hkept => ?_⟩
  apply overwrites_changes ((h.overwrites_iff hd).mpr hfive) (by rw [h.pc, h.trace, loaded, List.length_append]; omega)
  rw [← hrows, hkept.1, h.trace]

theorem kind_stuck : ∀ k, kind k = .stuck → k = 0 := by decide

/-- The access of the row behind the last line: its empty string is cached or overwritten. -/
theorem Intact.behind (J : Int → Char) {rows : List (List Char)} {st : St} (h : Intact rows rows.length st)
    (haddr : ∀ a ∈ rows, IsAddress a) (hlt : rows.length < 16384) :
    ∃ st' v, access J st = .ok (st', v) ∧ ¬ Kept rows st' := by
  have hi : instruction st = [] := by rw [instruction, row, h.trace, h.pc, loaded_behind]
  obtain ⟨k, st', v, hacc, -, -, hrows, hsets⟩ := access_rows J h.filled
  refine ⟨st', v, hacc, fun hkept => ?_⟩
  by_cases ho : Overwrites st k
  · apply overwrites_changes ho (by rw [h.pc, h.trace, loaded, List.length_append, List.length_replicate]; omega)
    rw [← hrows, hkept.1, h.trace]
  · have hstored : Stored (st'.sets k) [] := by
      rw [hsets, Function.update_self, hi]
      exact stored_self (h.filled k) (fun hc => ho ⟨kind_stuck k hc.1, hc.2.1, by rw [hi]; exact hc.2.2⟩)
    obtain ⟨i, hlti, hempty⟩ := hstored
    have hmem := (hkept.2 k i hlti).1
    exact address_ne_nil (haddr _ hmem) hempty

/-- The accesses that leave the trace and the sets as they should be: those of lines of the trace
    before set 0 gets a fifth address. -/
theorem kept_iff (J : Int → Char) (rows : List (List Char)) (h : ∀ a ∈ rows, IsAddress a) (n : Nat) (hn : n ≤ 16384) :
    (∀ m ≤ n, ∃ st vs, simulate J m (start (loaded rows)) = .ok (st, vs) ∧ Kept rows st) ↔
      n ≤ rows.length ∧ demand lowBits 0 (rows.take n) ≤ 4 := by
  constructor
  · intro hall
    induction n with
    | zero => exact ⟨Nat.zero_le _, Nat.zero_le _⟩
    | succ n ih =>
      obtain ⟨hlen, hd⟩ := ih (by omega) fun m hm => hall m (by omega)
      obtain ⟨st, vs, hrun, hst⟩ := intact_after J h n hlen hd
      obtain ⟨st1, ws, hrun1, hkept⟩ := hall (n + 1) le_rfl
      -- Whatever the next access does, it is the one that was said to keep the trace.
      have hbad : ∀ st' v, access J st = .ok (st', v) → ¬ Kept rows st' → False := by
        intro st' v hacc hno
        rw [simulate_snoc hrun hacc] at hrun1
        cases hrun1
        exact hno hkept
      by_cases hend : n = rows.length
      · subst hend
        obtain ⟨st', v, hacc, hno⟩ := hst.behind J h (by omega)
        exact (hbad st' v hacc hno).elim
      · obtain ⟨a, ha, hline⟩ := exists_next (show n < rows.length by omega)
        refine ⟨by omega, ?_⟩
        rw [take_succ_of_drop hline]
        by_contra hfive
        obtain ⟨st', v, hacc, hno⟩ := hst.fifth J hline (h a ha) (by omega)
        exact hbad st' v hacc hno
  · intro hok m hm
    obtain ⟨hlen, hd⟩ := hok
    obtain ⟨st, vs, hrun, hst⟩ := intact_after J h m (by omega)
      (le_trans (demand_le lowBits 0 (List.take_prefix_take_left hm)) hd)
    exact ⟨st, vs, hrun, hst.kept⟩

/-- Four addresses of set 0. -/
theorem kept_four : (∀ a ∈ SimulatorFifo.cycle.take 4, IsAddress a) ∧ ∀ m ≤ 4, ∃ st vs,
    simulate (fun _ => '0') m (start (loaded (SimulatorFifo.cycle.take 4))) = .ok (st, vs) ∧
      Kept (SimulatorFifo.cycle.take 4) st := by
  have haddr : ∀ a ∈ SimulatorFifo.cycle.take 4, IsAddress a := by decide
  exact ⟨haddr, (kept_iff (fun _ => '0') _ haddr 4 (by decide)).mpr ⟨by decide, by decide⟩⟩

/-- The fifth address of set 0 is replaced in the trace by the fourth. -/
theorem fifth_overwritten : (∀ a ∈ SimulatorFifo.cycle, IsAddress a) ∧
    ∃ st vs, simulate (fun _ => '0') 5 (start (loaded SimulatorFifo.cycle)) = .ok (st, vs) ∧
      ¬ Kept SimulatorFifo.cycle st := by
  have haddr : ∀ a ∈ SimulatorFifo.cycle, IsAddress a := by decide
  obtain ⟨st, vs, hrun, hst⟩ := intact_after (fun _ => '0') haddr 4 (by decide) (by decide)
  have hline : SimulatorFifo.cycle.drop 4 = SimulatorFifo.cycle.getD 4 [] :: SimulatorFifo.cycle.drop 5 := rfl
  obtain ⟨st', v, hacc, hno⟩ := hst.fifth (fun _ => '0') hline (by decide) (by decide)
  exact ⟨haddr, st', _, simulate_snoc hrun hacc, hno⟩

end CS5600.Cache.MySimulator
