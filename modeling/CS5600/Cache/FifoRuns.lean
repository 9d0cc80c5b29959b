/-
  CS5600.Cache.FifoRuns — how `simulator_fifo.c` scores the traces its generators write.

  The reference cache of `SimulatorFifo` is four of `Lib.Fifo`'s queues, one for each value of the
  two low bits (`replies_ref`), so the simulator's hits and misses are theirs.

  Proved: from any state of a run, the thirty accesses of a burst of `friendlyTrace` score at most
  three misses, so bursts score nine hits for each miss (`bursts_friendly`); and on the cycle
  that `adverseTrace` writes the cache misses every time with a range of 20 or more and only
  once for each address with a range of 16 or less (`cycle_threshold`).
-/

import CS5600.Cache.Generators
import CS5600.Cache.SimulatorFifo
import CS5600.Lib.Fifo

namespace CS5600.Cache.FifoRuns

open CS5600.Cache.Binary CS5600.Cache.TraceFile CS5600.Cache.SimulatorFifo CS5600.Lib.Runs
open CS5600.Lib.Banks CS5600.Lib.Fifo CS5600.Lib.Recency

/-! ## The books of a run -/

/-- What a run with these verdicts leaves in the books; it does not touch the trace. -/
structure Booked (st st' : St) (vs : List Verdict) : Prop where
  trace : st'.instructionCache = st.instructionCache
  pc : st'.pc = st.pc + vs.length
  hits : st'.cacheHit = st.cacheHit + vs.count .hit
  misses : st'.cacheMisses = st.cacheMisses + vs.count .miss

theorem checkCache_booked {J : Junk} {st st' : St} (h : checkCache J st = .ok st') :
    st'.instructionCache = st.instructionCache ∧ st'.pc = st.pc ∧
      (st'.cacheHit = st.cacheHit + 1 ∧ st'.cacheMisses = st.cacheMisses ∨
        st'.cacheHit = st.cacheHit ∧ st'.cacheMisses = st.cacheMisses + 1) := by
  unfold checkCache at h
  cases hi : index (cacheSetIndex J st) with
  | error f => simp [hi, bind, Except.bind] at h
  | ok k =>
    simp only [hi, bind, Except.bind, pure, Except.pure] at h
    split at h
    · unfold replacementPolicy at h
      split at h
      · cases h; exact ⟨rfl, rfl, .inr ⟨rfl, rfl⟩⟩
      · split at h
        · cases hp : index (3 - (st.cacheOccupied k : Int)) with
          | error f => simp [hp, bind, Except.bind] at h
          | ok pos =>
            simp only [hp, bind, Except.bind, pure, Except.pure, Except.ok.injEq] at h
            cases h; exact ⟨rfl, rfl, .inr ⟨rfl, rfl⟩⟩
        · cases h; exact ⟨rfl, rfl, .inl ⟨rfl, rfl⟩⟩
    · unfold evictionPolicy at h
      split at h
      · cases h; exact ⟨rfl, rfl, .inl ⟨rfl, rfl⟩⟩
      · cases h; exact ⟨rfl, rfl, .inr ⟨rfl, rfl⟩⟩

theorem access_booked {J : Junk} {st st' : St} {v : Verdict} (h : access J st = .ok (st', v)) : Booked st st' [v] := by
  unfold access at h
  cases hc : checkCache J st with
  | error f => simp [hc, bind, Except.bind] at h
  | ok st1 =>
    simp only [hc, bind, Except.bind, pure, Except.pure, Except.ok.injEq, Prod.mk.injEq] at h
    obtain ⟨rfl, rfl⟩ := h
    obtain ⟨htrace, hpc, hscore⟩ := checkCache_booked hc
    rcases hscore with ⟨hh, hm⟩ | ⟨hh, hm⟩
    · rw [if_pos (by omega)]
      exact ⟨htrace, congrArg (· + 1) hpc, hh, hm⟩
    · rw [if_neg (by omega)]
      exact ⟨htrace, congrArg (· + 1) hpc, hh, hm⟩

theorem simulate_booked (J : Junk) : ∀ (n : Nat) {st st' : St} {vs : List Verdict},
    simulate J n st = .ok (st', vs) → Booked st st' vs ∧ vs.length = n := by
  intro n
  induction n with
  | zero => intro st st' vs h; cases h; exact ⟨⟨rfl, rfl, rfl, rfl⟩, rfl⟩
  | succ n ih =>
    intro st st' vs h
    unfold simulate at h ih
    rw [List.replicate_succ, answers] at h
    cases hacc : access J st with
    | error f => simp [hacc] at h
    | ok r =>
      cases hrun : answers (fun st (_ : Unit) => access J st) r.1 (List.replicate n ()) with
      | error f => simp [hacc, hrun] at h
      | ok q =>
        simp only [hacc, hrun, Except.ok.injEq, Prod.mk.injEq] at h
        obtain ⟨rfl, rfl⟩ := h
        have h1 := access_booked (v := r.2) hacc
        obtain ⟨h2, hlen⟩ := ih hrun
        have hcount : ∀ v, (r.2 :: q.2).count v = [r.2].count v + q.2.count v := by
          intro v
          rw [← List.singleton_append, List.count_append]
        refine ⟨⟨h2.trace.trans h1.trace, ?_, ?_, ?_⟩, by rw [List.length_cons, hlen]⟩
        · rw [h2.pc, h1.pc]; simp only [List.length_cons, List.length_nil]; omega
        · rw [h2.hits, h1.hits, hcount]; omega
        · rw [h2.misses, h1.misses, hcount]; omega

/-! ## The reference as queues -/

def verdict (found : Bool) : Verdict := if found then .hit else .miss

theorem ref_step (q : Ref) (a : List Char) :
    q.step a = ((fifos lowBits 4 q a).1, verdict (fifos lowBits 4 q a).2) := by
  by_cases h : a ∈ q (lowBits a)
  · simp [Ref.step, fifos, bankStep, fifo_hit h, h, verdict]
  · simp [Ref.step, fifos, bankStep, fifo_miss h, h, verdict]

theorem replies_ref (es : List (List Char)) : ∀ q : Ref, replies Ref.step q es =
    ((replies (fifos lowBits 4) q es).1, (replies (fifos lowBits 4) q es).2.map verdict) := by
  induction es with
  | nil => intro q; rfl
  | cons a es ih =>
    intro q
    simp only [replies, ref_step, ih, List.map_cons]

theorem count_miss (l : List Bool) : (l.map verdict).count .miss = l.count false := by
  induction l with
  | nil => rfl
  | cons b l ih => cases b <;> simp [verdict, ih]

theorem count_verdicts (l : List Verdict) : l.count .hit + l.count .miss = l.length := by
  induction l with
  | nil => rfl
  | cons v l ih => cases v <;> simp <;> omega

/-- A run over addresses, from a state that shows the queues `q`: what it scores is what the
    queues answer. -/
theorem simulate_fifos (J : Junk) {st : St} {q : Ref} {n : Nat} {es : List (List Char)} (rest : List (List Char))
    (h : Shows st q) (hq : q.WF) (hs : Scored st n) (hd : st.instructionCache.drop st.pc = es ++ rest)
    (ha : ∀ a ∈ es, IsAddress a) :
    ∃ st', simulate J es.length st = .ok (st', (replies (fifos lowBits 4) q es).2.map verdict) ∧
      Shows st' (replies (fifos lowBits 4) q es).1 ∧ Ref.WF (replies (fifos lowBits 4) q es).1 ∧
      Scored st' (n + es.length) ∧ st'.instructionCache.drop st'.pc = rest := by
  obtain ⟨st', hrun, hsh, hwf, hsc⟩ := simulate_sim J rest es st q n h hq hs hd ha
  obtain ⟨hbook, hlen⟩ := simulate_booked J _ hrun
  rw [replies_ref] at hrun hsh hwf
  refine ⟨st', hrun, hsh, hwf, hsc, ?_⟩
  rw [hbook.trace, hbook.pc, hlen, ← List.drop_drop, hd, List.drop_left]

theorem start_shows (trace : List (List Char)) : Shows (start trace) (fun _ => []) :=
  ⟨fun _ => rfl, fun _ j hj => by simp at hj, fun _ _ _ => rfl⟩

theorem empty_wf : Ref.WF (fun _ => []) := fun _ => ⟨by simp, List.nodup_nil⟩

/-! ## Bursts -/

/-- A burst of `friendlyTrace`: three addresses, ten times. -/
def burst (t : List Char × List Char × List Char) : List (List Char) :=
  (List.replicate 10 [t.1, t.2.1, t.2.2]).flatten

theorem burst_subset (t : List Char × List Char × List Char) : burst t ⊆ [t.1, t.2.1, t.2.2] := by
  intro a ha
  obtain ⟨l, hl, ha⟩ := List.mem_flatten.mp ha
  rwa [List.eq_of_mem_replicate hl] at ha

theorem bursts_length (bursts : List (List Char × List Char × List Char)) :
    (bursts.flatMap burst).length = 30 * bursts.length := by
  induction bursts with
  | nil => rfl
  | cons t ts ih => rw [List.flatMap_cons, List.length_append, ih, List.length_cons]; simp [burst]; omega

theorem bursts_misses (bursts : List (List Char × List Char × List Char)) : ∀ q : Ref,
    (replies (fifos lowBits 4) q (bursts.flatMap burst)).2.count false ≤ 3 * bursts.length := by
  induction bursts with
  | nil => intro q; simp [replies]
  | cons t ts ih =>
    intro q
    have hfirst := bank_missed_le lowBits 4 (by simp) q (burst_subset t)
    have hrest := ih (replies (fifos lowBits 4) q (burst t)).1
    rw [List.flatMap_cons, replies_append, List.count_append, List.length_cons]
    simp only [List.length_cons, List.length_nil] at hfirst
    omega

/-- Whatever ran before, `k` bursts score at most `3 * k` misses, and nine hits for each miss. -/
theorem bursts_friendly (J : Junk) (pre post : List (List Char)) (bursts : List (List Char × List Char × List Char))
    (hpre : ∀ a ∈ pre, IsAddress a)
    (hbursts : ∀ t ∈ bursts, IsAddress t.1 ∧ IsAddress t.2.1 ∧ IsAddress t.2.2) :
    ∃ st vs st' vs', simulate J pre.length (start (pre ++ (bursts.flatMap burst ++ post))) = .ok (st, vs) ∧
      simulate J (30 * bursts.length) st = .ok (st', vs') ∧
      vs'.count .miss ≤ 3 * bursts.length ∧ 27 * bursts.length ≤ vs'.count .hit ∧
      9 * vs'.count .miss ≤ vs'.count .hit ∧
      st'.cacheMisses = st.cacheMisses + vs'.count .miss ∧ st'.cacheHit = st.cacheHit + vs'.count .hit := by
  obtain ⟨st, hrun, hsh, hwf, hsc, hdrop⟩ :=
    simulate_fifos J _ (start_shows (pre ++ (bursts.flatMap burst ++ post))) empty_wf ⟨rfl, rfl⟩ rfl hpre
  have haddr : ∀ a ∈ bursts.flatMap burst, IsAddress a := by
    intro a ha
    obtain ⟨t, ht, ha⟩ := List.mem_flatMap.mp ha
    obtain ⟨h1, h2, h3⟩ := hbursts t ht
    have := burst_subset t ha
    simp only [List.mem_cons, List.not_mem_nil, or_false] at this
    rcases this with rfl | rfl | rfl
    · exact h1
    · exact h2
    · exact h3
  obtain ⟨st', hrun', -, -, -, -⟩ := simulate_fifos J _ hsh hwf hsc hdrop haddr
  rw [bursts_length] at hrun'
  obtain ⟨hbook, hlen⟩ := simulate_booked J _ hrun'
  have hmiss := bursts_misses bursts (replies (fifos lowBits 4) (fun _ => []) pre).1
  rw [← count_miss] at hmiss
  have hcount := count_verdicts ((replies (fifos lowBits 4) (replies (fifos lowBits 4) (fun _ => []) pre).1
    (bursts.flatMap burst)).2.map verdict)
  rw [hlen] at hcount
  exact ⟨st, _, st', _, hrun, hrun', hmiss, by omega, by omega, hbook.misses, hbook.hits⟩

/-- A burst over three addresses of set 0, after two others of that set. -/
theorem bursts_friendly_cycle : ∃ st vs st' vs',
    simulate ⟨fun _ => '0', []⟩ 2
      (start (cycle.take 2 ++ ([(cycle.getD 2 [], cycle.getD 3 [], cycle.getD 4 [])].flatMap burst ++ []))) =
      .ok (st, vs) ∧ simulate ⟨fun _ => '0', []⟩ 30 st = .ok (st', vs') ∧
    vs'.count .miss ≤ 3 ∧ 27 ≤ vs'.count .hit ∧ 9 * vs'.count .miss ≤ vs'.count .hit ∧
    st'.cacheMisses = st.cacheMisses + vs'.count .miss ∧ st'.cacheHit = st.cacheHit + vs'.count .hit :=
  bursts_friendly ⟨fun _ => '0', []⟩ (cycle.take 2) [] [(cycle.getD 2 [], cycle.getD 3 [], cycle.getD 4 [])]
    (by decide) (by decide)

/-! ## Cycles -/

/-- The line of a number in a trace file. -/
def digits (v : Nat) : List Char := (intToBinaryString v 16).getD []

theorem digits_spec {v : Nat} (h : v < 2 ^ 16) :
    intToBinaryString v 16 = some (digits v) ∧ IsAddress (digits v) ∧ value (digits v) = v := by
  obtain ⟨s, hs, hlen, hbits, hval⟩ := intToBinaryString_spec h
  unfold digits
  rw [hs]
  exact ⟨rfl, ⟨hlen, hbits⟩, hval⟩

theorem digits_inj {v w : Nat} (hv : v < 2 ^ 16) (hw : w < 2 ^ 16) (h : digits v = digits w) : v = w := by
  rw [← (digits_spec hv).2.2, ← (digits_spec hw).2.2, h]

theorem lowBits_digits {v : Nat} (h : v < 2 ^ 16) : (lowBits (digits v)).val = v % 4 := by
  show value (digits v) % 4 = v % 4
  rw [(digits_spec h).2.2]

/-- The first `n` lines of a cycle of `r` addresses. -/
def cycled (r n : Nat) : List (List Char) := (List.range n).map fun i => digits (i % r)

theorem cycled_succ (r n : Nat) : cycled r (n + 1) = cycled r n ++ [digits (n % r)] := by
  rw [cycled, List.range_succ, List.map_append]
  rfl

theorem mem_cycled {r n : Nat} {a : List Char} : a ∈ cycled r n ↔ ∃ i < n, digits (i % r) = a := by
  simp [cycled]

theorem adverseTrace_rows {r : Nat} (h1 : 1 ≤ r) (h2 : r ≤ 2 ^ 16) (n : Nat) :
    Generators.adverseTrace n r = some (text (cycled r n)) := by
  have hprint : ∀ l : List Nat, printTrace assignment5 (l.map fun i : Nat => (i : Int) % r) =
      some (text (l.map fun i => digits (i % r))) := by
    intro l
    induction l with
    | nil => rfl
    | cons i l ih =>
      have hlt : i % r < 2 ^ 16 := lt_of_lt_of_le (Nat.mod_lt i h1) h2
      have hmod : (i : Int) % r = ((i % r : Nat) : Int) := by push_cast; rfl
      have hdigits : intToBinaryString ((i % r : Nat) : Int) assignment5.bitwidth = some (digits (i % r)) :=
        (digits_spec hlt).1
      rw [List.map_cons, List.map_cons, printTrace, ih, hmod, hdigits, text_cons]
      rfl
  exact hprint (List.range n)

theorem mem_share {k : Fin 4} {a : List Char} {es : List (List Char)} :
    a ∈ share lowBits k es ↔ a ∈ es ∧ lowBits a = k := by
  simp [share]

/-- The four addresses below 16 of a set. -/
theorem share_small {r : Nat} (h1 : 1 ≤ r) (h2 : r ≤ 16) (k : Fin 4) (n : Nat) :
    share lowBits k (cycled r n) ⊆ [0, 1, 2, 3].map fun j => digits (k.val + 4 * j) := by
  intro a ha
  obtain ⟨ha, hk⟩ := mem_share.mp ha
  obtain ⟨i, -, rfl⟩ := mem_cycled.mp ha
  have hlt : i % r < r := Nat.mod_lt i h1
  have hlow := lowBits_digits (v := i % r) (by omega)
  rw [hk] at hlow
  refine List.mem_map.mpr ⟨i % r / 4, ?_, by congr 1; omega⟩
  simp only [List.mem_cons, List.not_mem_nil, or_false]
  omega

/-- An address of the cycle has been used before from the second round on. -/
theorem mem_cycled_iff {r : Nat} (h1 : 1 ≤ r) (h2 : r ≤ 2 ^ 16) (n : Nat) : digits (n % r) ∈ cycled r n ↔ r ≤ n := by
  have hlt : ∀ i, i % r < 2 ^ 16 := fun i => lt_of_lt_of_le (Nat.mod_lt i h1) h2
  rw [mem_cycled]
  constructor
  · intro h
    obtain ⟨i, hi, he⟩ := h
    have hmod := digits_inj (hlt i) (hlt n) he
    by_contra hn
    rw [Nat.mod_eq_of_lt (by omega), Nat.mod_eq_of_lt (by omega)] at hmod
    omega
  · intro h
    exact ⟨n - r, by omega, by rw [Nat.mod_eq_sub_mod h]⟩

/-- With at most 16 addresses no set has more than four: only the first round misses. -/
theorem small_cycle {r : Nat} (h1 : 1 ≤ r) (h2 : r ≤ 16) (n : Nat) :
    (replies (fifos lowBits 4) (fun _ => []) (cycled r n)).2 = (List.range n).map fun i => decide (r ≤ i) := by
  induction n with
  | zero => rfl
  | succ n ih =>
    have hroom := newcomers_length_le (share_small h1 h2 (lowBits (digits (n % r))) n)
    rw [List.length_map] at hroom
    have hmem : digits (n % r) ∈ newcomers (share lowBits (lowBits (digits (n % r))) (cycled r n)) ↔ r ≤ n := by
      rw [mem_newcomers, mem_share, mem_cycled_iff h1 (by omega)]
      exact and_iff_left rfl
    rw [cycled_succ, replies_snoc, ih, fifos_answer, bank_newcomers lowBits 4 hroom, List.range_succ, List.map_append,
      decide_eq_decide.mpr hmem]
    rfl

/-- Some number of the last `r - 1` has a given remainder, other than that of `m`. -/
theorem exists_recent {r m x : Nat} (hm : r ≤ m) (hx : x < r) (hne : x ≠ m % r) :
    ∃ i, m < i + r ∧ i < m ∧ i % r = x := by
  have hdiv := Nat.div_add_mod m r
  have hlt : m % r < r := Nat.mod_lt m (by omega)
  by_cases h : x < m % r
  · refine ⟨r * (m / r) + x, by omega, by omega, ?_⟩
    rw [Nat.mul_add_mod, Nat.mod_eq_of_lt hx]
  · obtain ⟨q, hq⟩ := Nat.exists_eq_add_one.mpr (Nat.div_pos hm (by omega))
    rw [hq, Nat.mul_add, Nat.mul_one] at hdiv
    refine ⟨r * q + x, by omega, by omega, ?_⟩
    rw [Nat.mul_add_mod, Nat.mod_eq_of_lt hx]

theorem mem_rtake_append {α : Type} {n : Nat} {l m : List α} {x : α} (h : n ≤ m.length) (hx : x ∈ (l ++ m).rtake n) :
    x ∈ m := by
  unfold List.rtake at hx
  rw [List.length_append, List.drop_append, List.drop_of_length_le (by omega), List.nil_append] at hx
  exact List.mem_of_mem_drop hx

/-- The last `r - 1` lines of the cycle before line `m`. -/
def recent (r m : Nat) : List (List Char) := (List.range (r - 1)).map fun j => digits ((m + 1 - r + j) % r)

theorem cycled_recent {r m : Nat} (h : r ≤ m) (hr : 1 ≤ r) : cycled r m = cycled r (m + 1 - r) ++ recent r m := by
  obtain ⟨n, rfl⟩ : ∃ n, m = n + (r - 1) := ⟨m + 1 - r, by omega⟩
  rw [show n + (r - 1) + 1 - r = n by omega, cycled, List.range_add, List.map_append, List.map_map]
  unfold recent cycled
  rw [show n + (r - 1) + 1 - r = n by omega]
  rfl

theorem mem_recent {r m : Nat} {a : List Char} (h : r ≤ m) :
    a ∈ recent r m ↔ ∃ i, m < i + r ∧ i < m ∧ digits (i % r) = a := by
  unfold recent
  rw [List.mem_map]
  constructor
  · intro hex
    obtain ⟨j, hj, rfl⟩ := hex
    rw [List.mem_range] at hj
    exact ⟨m + 1 - r + j, by omega, by omega, rfl⟩
  · intro hex
    obtain ⟨i, hlo, hhi, rfl⟩ := hex
    exact ⟨i - (m + 1 - r), by rw [List.mem_range]; omega, by congr 2; omega⟩

/-- The five addresses below 20 of the set of `x`, but for `x`. -/
def others (x : Nat) : List Nat := ([0, 1, 2, 3, 4].map fun j => x % 4 + 4 * j).erase x

theorem others_spec (x : Nat) : 4 ≤ (others x).length ∧ (others x).Nodup ∧
    ∀ y ∈ others x, y < 20 ∧ y % 4 = x % 4 ∧ y ≠ x := by
  have hnd : ([0, 1, 2, 3, 4].map fun j => x % 4 + 4 * j).Nodup :=
    List.Nodup.map (fun a b h => by simpa using h) (by decide)
  refine ⟨?_, hnd.erase x, fun y hy => ?_⟩
  · rw [others, List.length_erase]
    split <;> simp
  · obtain ⟨hne, hy⟩ := (hnd.mem_erase_iff).mp hy
    obtain ⟨j, hj, rfl⟩ := List.mem_map.mp hy
    simp only [List.mem_cons, List.not_mem_nil, or_false] at hj
    exact ⟨by omega, by omega, hne⟩

/-- With 20 addresses or more a set has five at least: four others come between two uses of one. -/
theorem large_cycle {r : Nat} (h1 : 20 ≤ r) (h2 : r ≤ 2 ^ 16) (m : Nat) :
    digits (m % r) ∉ (share lowBits (lowBits (digits (m % r))) (cycled r m)).rtake 4 := by
  intro hin
  by_cases hm : r ≤ m
  · have hlt : ∀ i, i % r < 2 ^ 16 := fun i => lt_of_lt_of_le (Nat.mod_lt i (by omega)) h2
    obtain ⟨hfour, hnd, hothers⟩ := others_spec (m % r)
    have hsub : (others (m % r)).map digits ⊆ share lowBits (lowBits (digits (m % r))) (recent r m) := by
      intro a ha
      obtain ⟨y, hy, rfl⟩ := List.mem_map.mp ha
      obtain ⟨hy20, hylow, hne⟩ := hothers y hy
      obtain ⟨i, hlo, hhi, hi⟩ := exists_recent hm (by omega : y < r) hne
      refine mem_share.mpr ⟨(mem_recent hm).mpr ⟨i, hlo, hhi, by rw [hi]⟩, Fin.ext ?_⟩
      rw [lowBits_digits (by omega), lowBits_digits (hlt m), hylow]
    have hnd' : ((others (m % r)).map digits).Nodup := by
      refine hnd.map_on fun y hy z hz h => ?_
      have := (hothers y hy).1
      have := (hothers z hz).1
      exact digits_inj (by omega) (by omega) h
    have hlen := (List.subperm_of_subset hnd' hsub).length_le
    rw [List.length_map] at hlen
    rw [cycled_recent hm (by omega), share, List.filter_append] at hin
    have hrecent := (mem_share.mp (mem_rtake_append (le_trans hfour hlen) hin)).1
    obtain ⟨i, hlo, hhi, hi⟩ := (mem_recent hm).mp hrecent
    have hmod := digits_inj (hlt i) (hlt m) hi
    have hdvd : r ∣ m - i := (Nat.modEq_iff_dvd' (by omega)).mp hmod
    have := Nat.le_of_dvd (by omega) hdvd
    omega
  · have hused := List.mem_of_mem_drop hin
    rw [mem_share, mem_cycled_iff (by omega) h2] at hused
    exact hm hused.1

theorem large_cycle_answers {r : Nat} (h1 : 20 ≤ r) (h2 : r ≤ 2 ^ 16) (n : Nat) :
    (replies (fifos lowBits 4) (fun _ => []) (cycled r n)).2 = List.replicate n false := by
  have hlen : (cycled r n).length = n := by simp [cycled]
  have hwindow : ∀ p a, p ++ [a] <+: cycled r n → a ∉ (share lowBits (lowBits a) p).rtake 4 := by
    intro p a hp
    have hle := hp.length_le
    rw [hlen, List.length_append, List.length_singleton] at hle
    have htake : p ++ [a] = cycled r p.length ++ [digits (p.length % r)] := by
      rw [List.prefix_iff_eq_take.mp hp, ← cycled_succ, cycled, cycled, ← List.map_take, List.take_range,
        List.length_append, List.length_singleton, Nat.min_eq_left hle]
    obtain ⟨hp', ha⟩ := List.append_inj' htake rfl
    obtain rfl : a = digits (p.length % r) := by simpa using ha
    have := large_cycle h1 h2 p.length
    rwa [← hp'] at this
  rw [(bank_window lowBits 4 (by omega) (cycled r n) hwindow).2, hlen]

theorem first_round_misses (r n : Nat) :
    ((List.range n).map fun i => if i < r then Verdict.miss else .hit).count .miss = min n r := by
  induction n with
  | zero => simp
  | succ n ih =>
    rw [List.range_succ, List.map_append, List.count_append, ih]
    by_cases h : n < r
    · simp [h]; omega
    · simp [h]; omega

/-- On the cycle of `r` addresses: all misses from 20 on, and up to 16 a miss for each address
    and hits after that. -/
theorem cycle_threshold (J : Junk) (n r : Nat) (h1 : 1 ≤ r) (h2 : r ≤ 2 ^ 16) :
    ∃ rows st vs, Generators.adverseTrace n r = some (text rows) ∧ rows.length = n ∧
      simulate J n (start rows) = .ok (st, vs) ∧
      (20 ≤ r → vs = List.replicate n .miss ∧ st.cacheMisses = n ∧ st.cacheHit = 0) ∧
      (r ≤ 16 → vs = (List.range n).map (fun i => if i < r then .miss else .hit) ∧
        st.cacheMisses = min n r ∧ st.cacheHit = n - min n r) := by
  have hlen : (cycled r n).length = n := by simp [cycled]
  have haddr : ∀ a ∈ cycled r n, IsAddress a := by
    intro a ha
    obtain ⟨i, -, rfl⟩ := mem_cycled.mp ha
    exact (digits_spec (lt_of_lt_of_le (Nat.mod_lt i h1) h2)).2.1
  obtain ⟨st, hrun, -, -, -, -⟩ :=
    simulate_fifos J [] (start_shows (cycled r n)) empty_wf ⟨rfl, rfl⟩ (by simp [start]) haddr
  rw [hlen] at hrun
  obtain ⟨hbook, -⟩ := simulate_booked J _ hrun
  have hmiss := hbook.misses
  have hhit := hbook.hits
  refine ⟨cycled r n, st, _, adverseTrace_rows h1 h2 n, hlen, hrun, fun hr => ?_, fun hr => ?_⟩
  · have hvs : (replies (fifos lowBits 4) (fun _ => []) (cycled r n)).2.map verdict = List.replicate n .miss := by
      rw [large_cycle_answers hr h2, List.map_replicate]
      rfl
    rw [hvs] at hmiss hhit
    exact ⟨hvs, by simpa [start] using hmiss, by simpa [start, List.count_replicate] using hhit⟩
  · have hvs : (replies (fifos lowBits 4) (fun _ => []) (cycled r n)).2.map verdict =
        (List.range n).map fun i => if i < r then Verdict.miss else .hit := by
      rw [small_cycle h1 hr, List.map_map]
      refine List.map_congr_left fun i _ => ?_
      by_cases h : i < r
      · simp [verdict, h]
      · simp [verdict, h, not_lt.mp h]
    rw [hvs] at hmiss hhit
    have hcount := count_verdicts ((List.range n).map fun i => if i < r then Verdict.miss else .hit)
    rw [first_round_misses, List.length_map, List.length_range] at hcount
    rw [first_round_misses] at hmiss
    simp only [start] at hmiss hhit
    exact ⟨hvs, by omega, by omega⟩

/-- The trace `main` of `adverseTrace.c` writes. -/
theorem cycle_threshold_main : ∃ rows st vs, Generators.adverseTrace 16384 16384 = some (text rows) ∧
    rows.length = 16384 ∧ simulate ⟨fun _ => '0', []⟩ 16384 (start rows) = .ok (st, vs) ∧
    vs = List.replicate 16384 .miss := by
  obtain ⟨rows, st, vs, hfile, hlen, hrun, hlarge, -⟩ :=
    cycle_threshold ⟨fun _ => '0', []⟩ 16384 16384 (by norm_num) (by norm_num)
  exact ⟨rows, st, vs, hfile, hlen, hrun, (hlarge (by norm_num)).1⟩

end CS5600.Cache.FifoRuns
