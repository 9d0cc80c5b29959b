/-
  CS5600.Cache.FifoBounds — the indices `simulator_fifo.c` uses.

  For each function that `checkCache` calls, in the order of the source, the elements of
  `cacheSet` and `cacheOccupied` it reads or writes and the characters of the instruction it
  looks at. What `strcpy`, `strcmp` and `strlen` touch behind the pointer they are given is theirs.

  Proved: all indices of the first `n` accesses lie within the arrays exactly when these accesses
  are lines of the trace and no set gets a fifth address (`bounds_iff`). The miss of a full set
  shifts its row, and the last round of `shiftArray` copies line -1; an access behind the trace
  takes its set from the characters before an empty string.
-/

import CS5600.Cache.FifoRuns

namespace CS5600.Cache.FifoBounds

open CS5600.Cache.Binary CS5600.Cache.SimulatorFifo CS5600.Cache.FifoRuns CS5600.Lib.Runs
open CS5600.Lib.Banks CS5600.Lib.Fifo CS5600.Lib.Recency

inductive Use where
  | char (i : Int)
  | occupied (set : Int)
  | line (set i : Int)
  deriving DecidableEq, Repr

/-- The bounds of the declarations: `char [BITWIDTH+1]`, `int cacheOccupied[S]` and
    `cacheSet[S][E]`. -/
def Use.InBounds : Use → Prop
  | .char i => 0 ≤ i ∧ i < 17
  | .occupied set => 0 ≤ set ∧ set < 4
  | .line set i => (0 ≤ set ∧ set < 4) ∧ 0 ≤ i ∧ i < 4

/-! ## What each function uses -/

def binaryStringRangeToIntUses (size : Nat) (start stop : Int) : List Use :=
  (List.range (stop - start + 1).toNat).map fun counter : Nat => .char (size - start - 1 - counter)

/-- The lines up to the one that holds the instruction. -/
def getInstructionPosUses (st : St) (set : Fin 4) : List Use :=
  ((List.finRange 4).take
    (if getInstructionPos st set = -1 then 4 else (getInstructionPos st set).toNat + 1)).map fun i =>
      .line set.val i.val

def shiftArrayUses (set : Fin 4) : List Use :=
  .line set.val 3 :: [(3 : Int), 2, 1, 0].flatMap fun i => [.line set.val i, .line set.val (i - 1)]

def replacementPolicyUses (st : St) (set : Fin 4) : List Use :=
  .occupied set.val ::
    if st.cacheOccupied set = 0 then [.line set.val 3, .occupied set.val]
    else getInstructionPosUses st set ++
      if getInstructionPos st set = -1 then
        [.occupied set.val, .occupied set.val, .line set.val (3 - st.cacheOccupied set)]
      else []

def evictionPolicyUses (st : St) (set : Fin 4) : List Use :=
  getInstructionPosUses st set ++
    if getInstructionPos st set ≠ -1 then [] else shiftArrayUses set ++ [.line set.val 0]

def checkCacheUses (J : Junk) (st : St) : List Use :=
  binaryStringRangeToIntUses (instruction st).length 0 1 ++ .occupied (cacheSetIndex J st) ::
    match index (cacheSetIndex J st) with
    | .error _ => []
    | .ok set =>
      if st.cacheOccupied set ≠ 4 then replacementPolicyUses st set
      else .occupied set.val :: evictionPolicyUses st set

def InBounds (J : Junk) (st : St) : Prop := ∀ u ∈ checkCacheUses J st, u.InBounds

/-! ## One access -/

theorem getInstructionPosUses_inBounds (st : St) (set : Fin 4) : ∀ u ∈ getInstructionPosUses st set, u.InBounds := by
  intro u hu
  obtain ⟨i, -, rfl⟩ := List.mem_map.mp hu
  have := set.isLt
  have := i.isLt
  exact ⟨⟨by omega, by omega⟩, by omega, by omega⟩

theorem occupied_inBounds (set : Fin 4) : (Use.occupied set.val).InBounds := by
  have := set.isLt
  exact ⟨by omega, by omega⟩

theorem line_inBounds (set : Fin 4) {i : Int} (h : 0 ≤ i ∧ i < 4) : (Use.line set.val i).InBounds := by
  have := set.isLt
  exact ⟨⟨by omega, by omega⟩, h⟩

theorem replacementPolicyUses_inBounds {st : St} {set : Fin 4} (h : st.cacheOccupied set < 4) :
    ∀ u ∈ replacementPolicyUses st set, u.InBounds := by
  intro u hu
  rcases List.mem_cons.mp hu with rfl | hu
  · exact occupied_inBounds set
  · split at hu
    · simp only [List.mem_cons, List.not_mem_nil, or_false] at hu
      rcases hu with rfl | rfl
      · exact line_inBounds set (by omega)
      · exact occupied_inBounds set
    · rcases List.mem_append.mp hu with hu | hu
      · exact getInstructionPosUses_inBounds st set u hu
      · split at hu
        · simp only [List.mem_cons, List.not_mem_nil, or_false] at hu
          rcases hu with rfl | rfl | rfl
          · exact occupied_inBounds set
          · exact occupied_inBounds set
          · exact line_inBounds set (by omega)
        · cases hu

/-- A full set is left alone by a hit only. -/
theorem evictionPolicyUses_inBounds (st : St) (set : Fin 4) :
    (∀ u ∈ evictionPolicyUses st set, u.InBounds) ↔ getInstructionPos st set ≠ -1 := by
  unfold evictionPolicyUses
  constructor
  · intro h hpos
    have hlast := h (.line set.val (0 - 1)) (by rw [if_neg (by simpa using hpos)]; simp [shiftArrayUses])
    exact absurd hlast.2.1 (by omega)
  · intro h u hu
    rw [if_pos h, List.append_nil] at hu
    exact getInstructionPosUses_inBounds st set u hu

/-- On an address: the one index that leaves its array is that of a full set's miss. -/
theorem inBounds_iff (J : Junk) {st : St} {q : Ref} (h : Shows st q) (hq : q.WF) (ha : IsAddress (instruction st)) :
    InBounds J st ↔ ¬ ((q (lowBits (instruction st))).length = 4 ∧ instruction st ∉ q (lowBits (instruction st))) := by
  have hpos := pos_iff h (lowBits (instruction st)) (address_ne_nil ha)
  have hocc := h.occupied (lowBits (instruction st))
  have hle := (hq (lowBits (instruction st))).1
  have hset : cacheSetIndex J st = (lowBits (instruction st)).val := by
    rw [cacheSetIndex, range_low_two _ (by rw [ha.1]; decide)]
    rfl
  have hchars : ∀ u ∈ binaryStringRangeToIntUses (instruction st).length 0 1, u.InBounds := by
    intro u hu
    obtain ⟨c, hc, rfl⟩ := List.mem_map.mp hu
    rw [List.mem_range] at hc
    have hlen := ha.1
    have hc2 : c < 2 := hc
    exact ⟨by omega, by omega⟩
  unfold InBounds checkCacheUses
  rw [index_lowBits J ha, hset, List.forall_mem_append, List.forall_mem_cons]
  simp only
  rw [and_iff_right hchars, and_iff_right (occupied_inBounds _)]
  by_cases h4 : (q (lowBits (instruction st))).length = 4
  · rw [if_neg (by omega), List.forall_mem_cons, and_iff_right (occupied_inBounds _), evictionPolicyUses_inBounds, ne_eq,
      hpos]
    simp [h4]
  · rw [if_pos (by omega)]
    exact iff_of_true (replacementPolicyUses_inBounds (by omega)) (fun h => h4 h.1)

/-- Behind the trace the instruction is the empty string, whose last character is before it. -/
theorem empty_not_inBounds (J : Junk) {st : St} (h : instruction st = []) : ¬ InBounds J st := by
  intro hin
  have hmem : Use.char (-1) ∈ binaryStringRangeToIntUses (instruction st).length 0 1 := by
    rw [h]
    exact List.mem_map.mpr ⟨0, by decide, rfl⟩
  exact absurd (hin _ (List.mem_append_left _ hmem)).1 (by omega)

/-! ## Whole runs -/

/-- The state after the first `n` lines of a trace, if no set got a fifth address in them. -/
theorem state_after (J : Junk) {trace : List (List Char)} (h : ∀ a ∈ trace, IsAddress a) {n : Nat}
    (hn : n ≤ trace.length) (hd : ∀ k, demand lowBits k (trace.take n) ≤ 4) :
    ∃ st vs q, simulate J n (start trace) = .ok (st, vs) ∧ Shows st q ∧
      q.WF ∧ st.instructionCache.drop st.pc = trace.drop n ∧ ∀ k, q k = newcomers (share lowBits k (trace.take n)) := by
  obtain ⟨st, hrun, hsh, hwf, -, hdrop⟩ := simulate_fifos J (trace.drop n) (start_shows trace) empty_wf ⟨rfl, rfl⟩
    (List.take_append_drop n trace).symm (fun a ha => h a (List.mem_of_mem_take ha))
  rw [List.length_take, Nat.min_eq_left hn] at hrun
  exact ⟨st, _, _, hrun, hsh, hwf, hdrop, fun k => bank_newcomers lowBits 4 (hd k)⟩

/-- Line `n` of a trace whose lines before it fit: its access stays within the arrays exactly when
    its set has not four other addresses. -/
theorem access_inBounds_iff (J : Junk) {trace : List (List Char)} (h : ∀ a ∈ trace, IsAddress a) {n : Nat}
    (hn : n < trace.length) (hd : ∀ k, demand lowBits k (trace.take n) ≤ 4) :
    (∀ st vs, simulate J n (start trace) = .ok (st, vs) → InBounds J st) ↔
      ∀ k, demand lowBits k (trace.take (n + 1)) ≤ 4 := by
  obtain ⟨st, vs, q, hrun, hsh, hwf, hdrop, hq⟩ := state_after J h hn.le hd
  obtain ⟨a, ha, hline⟩ := exists_next hn
  have hi : instruction st = a := instruction_of_drop (hdrop.trans hline)
  have haddr : IsAddress (instruction st) := hi ▸ h a ha
  have hone : (∀ st vs, simulate J n (start trace) = .ok (st, vs) → InBounds J st) ↔ InBounds J st := by
    constructor
    · intro hall
      exact hall st vs hrun
    · intro hin st' vs' hrun'
      rw [hrun] at hrun'
      cases hrun'
      exact hin
  rw [hone, inBounds_iff J hsh hwf haddr, hi, hq, mem_seen rfl, take_succ_of_drop hline]
  constructor
  · intro hno k
    rw [demand_snoc]
    split
    · rename_i hnew
      obtain ⟨rfl, hnew⟩ := hnew
      have hle := hd (lowBits a)
      have hne : demand lowBits (lowBits a) (trace.take n) ≠ 4 := fun h4 => hno ⟨h4, hnew⟩
      omega
    · exact hd k
  · intro hall hfull
    have := hall (lowBits a)
    rw [demand_snoc, if_pos ⟨rfl, hfull.2⟩, demand, hfull.1] at this
    omega

/-- The indices of the first `n` accesses lie within the arrays exactly when they are lines of the
    trace and no set gets a fifth address among them. -/
theorem bounds_iff (J : Junk) (trace : List (List Char)) (h : ∀ a ∈ trace, IsAddress a) (n : Nat) :
    (∀ m < n, ∀ st vs, simulate J m (start trace) = .ok (st, vs) → InBounds J st) ↔
      n ≤ trace.length ∧ ∀ k, demand lowBits k (trace.take n) ≤ 4 := by
  constructor
  · intro hall
    induction n with
    | zero => exact ⟨by omega, fun k => by simp [demand, share, newcomers]⟩
    | succ n ih =>
      obtain ⟨hn, hd⟩ := ih fun m hm => hall m (by omega)
      have hlast := hall n (by omega)
      by_cases hend : n = trace.length
      · -- The access behind the last line.
        obtain ⟨st, vs, q, hrun, -, -, hdrop, -⟩ := state_after J h hn hd
        have hi : instruction st = [] := by
          rw [hend, List.drop_length] at hdrop
          rw [instruction, row, List.getD_eq_default _ _ (List.drop_eq_nil_iff.mp hdrop)]
        exact absurd (hlast st vs hrun) (empty_not_inBounds J hi)
      · exact ⟨by omega, (access_inBounds_iff J h (by omega) hd).mp hlast⟩
  · intro hok m hm
    obtain ⟨hn, hd⟩ := hok
    have hpre : ∀ i ≤ n, ∀ k, demand lowBits k (trace.take i) ≤ 4 := by
      intro i hi k
      exact le_trans (demand_le lowBits k (List.take_prefix_take_left hi)) (hd k)
    exact (access_inBounds_iff J h (by omega) (hpre m (by omega))).mpr (hpre (m + 1) (by omega))

/-- Four addresses of set 0. -/
theorem bounds_four : (∀ a ∈ cycle.take 4, IsAddress a) ∧
    ∀ m < 4, ∀ st vs, simulate ⟨fun _ => '0', []⟩ m (start (cycle.take 4)) = .ok (st, vs) →
      InBounds ⟨fun _ => '0', []⟩ st := by
  have haddr : ∀ a ∈ cycle.take 4, IsAddress a := by decide
  exact ⟨haddr, (bounds_iff ⟨fun _ => '0', []⟩ (cycle.take 4) haddr 4).mpr ⟨by decide, by decide⟩⟩

/-- The fifth address of set 0 makes `shiftArray` read line -1 of it. -/
theorem fifth_address : (∀ a ∈ cycle, IsAddress a) ∧ cycle.length ≤ 16384 ∧
    ¬ ∀ m < cycle.length, ∀ st vs, simulate ⟨fun _ => '0', []⟩ m (start cycle) = .ok (st, vs) →
      InBounds ⟨fun _ => '0', []⟩ st := by
  refine ⟨by decide, by decide, fun hall => ?_⟩
  have hfifth := (access_inBounds_iff ⟨fun _ => '0', []⟩ (n := 4) (by decide) (by decide) (by decide)).mp
    (hall 4 (by decide)) 0
  revert hfifth
  decide

end CS5600.Cache.FifoBounds
