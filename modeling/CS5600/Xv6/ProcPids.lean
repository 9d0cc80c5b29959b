/-
  CS5600.Xv6.ProcPids — pids, and what `wait` and `kill` do with them (`Lab11_xv6/deliverables/proc.c`).

  `nextpid` is an `int` that `allocproc` counts up from 1 and that nothing sets back, so what is said of pids holds as
  long as it has not wrapped. The first process has the pid 1; a run with at most 2 ^ 31 - 3 calls of `allocproc`
  after that leaves `nextpid` below 2 ^ 31.

  (1) `table_inv`: in every run a process is RUNNING exactly when it is on a processor, and on one only; every process
      but the first has a parent that is neither free nor a zombie; a slot has a kernel stack exactly when it is
      in use; and until `nextpid` wraps, the pids of slots in use are positive and those of one slot each.
  (2) `reaped_once`: `wait` returns the pid of each process that has exited at most once, and of no other.
  (3) `kill_zero_hits_next_child`: `kill(0)` finds a free slot, and the next child there is born killed.
-/

import CS5600.Xv6.Proc

namespace CS5600.Xv6.Proc

open CS5600.Lib.Runs

structure Pids (s : St) : Prop where
  distinct : ∀ i j, s.pid i = s.pid j → s.pid i ≠ 0 → i = j
  below : ∀ i, 0 ≤ s.pid i ∧ s.pid i < s.nextpid
  used : ∀ i, s.state i ≠ .unused → s.pid i ≠ 0

/-- The pids of the dead. -/
structure Ledger (s : St) : Prop where
  once : s.exited.Nodup
  reapedOnce : s.reaped.Nodup
  dead : ∀ x ∈ s.reaped, x ∈ s.exited
  below : ∀ x ∈ s.exited, 0 < x ∧ x < s.nextpid
  living : ∀ i, s.state i ≠ .zombie → s.pid i ∉ s.exited
  zombie : ∀ i, s.state i = .zombie → s.pid i ∈ s.exited ∧ s.pid i ∉ s.reaped
  left : ∀ x ∈ s.exited, x ∉ s.reaped → ∃ i, s.state i = .zombie ∧ s.pid i = x

structure Numbered (s : St) : Prop where
  pids : Pids s
  ledger : Ledger s

theorem pids_userinit : Pids userinit := by
  have hpid : ∀ i, userinit.pid i ≠ 0 → i = initproc := by
    intro i hi
    by_contra e
    exact hi (if_neg e)
  refine ⟨?_, ?_, ?_⟩
  · intro i j h h0
    rw [hpid i h0, hpid j (h ▸ h0)]
  · intro i
    show 0 ≤ (if i = initproc then (1 : Int) else 0) ∧ (if i = initproc then (1 : Int) else 0) < 2
    split <;> decide
  · intro i h
    show (if i = initproc then (1 : Int) else 0) ≠ 0
    rw [if_pos (userinit_state h).1]
    decide

theorem ledger_userinit : Ledger userinit := by
  refine ⟨List.nodup_nil, List.nodup_nil, ?_, ?_, fun _ _ => List.not_mem_nil, ?_, ?_⟩
  · intro x h
    cases h
  · intro x h
    cases h
  · exact fun i h => absurd h (userinit_not (by decide) (by decide) i)
  · intro x h
    cases h


theorem numbered_userinit : Numbered userinit := ⟨pids_userinit, ledger_userinit⟩

/-! ## What a step does to pids -/

/-- A step keeps all pids, or gives the next one to a slot, or ends a process, or frees a slot. -/
inductive Counts (s t : St) : Prop where
  | keep (pid : t.pid = s.pid) (nextpid : t.nextpid = s.nextpid) (exited : t.exited = s.exited) (reaped : t.reaped = s.reaped)
      (unused : ∀ i, t.state i ≠ .unused → s.state i ≠ .unused) (zombie : ∀ i, t.state i = .zombie ↔ s.state i = .zombie)
  | claim (np : Slot) (free : s.state np = .unused) (state : t.state = Function.update s.state np .embryo)
      (pid : t.pid = Function.update s.pid np s.nextpid) (nextpid : t.nextpid = wrap (s.nextpid + 1))
      (exited : t.exited = s.exited) (reaped : t.reaped = s.reaped)
  | die (i : Slot) (running : s.state i = .running) (self : t.state i = .zombie) (pid : t.pid = s.pid)
      (nextpid : t.nextpid = s.nextpid) (exited : t.exited = s.exited ++ [s.pid i]) (reaped : t.reaped = s.reaped)
      (unused : ∀ j, t.state j ≠ .unused → s.state j ≠ .unused) (zombie : ∀ j, j ≠ i → (t.state j = .zombie ↔ s.state j = .zombie))
  | reap (p : Slot) (zombie : s.state p = .zombie) (state : t.state = Function.update s.state p .unused)
      (pid : t.pid = Function.update s.pid p 0) (nextpid : t.nextpid = s.nextpid) (exited : t.exited = s.exited)
      (reaped : t.reaped = if s.pid p = -1 then s.reaped else s.reaped ++ [s.pid p])

section

variable {s t : St} {i : Slot}

theorem Counts.refl (s : St) : Counts s s := .keep rfl rfl rfl rfl (fun _ h => h) fun _ => Iff.rfl

theorem Moves.counts (m : Moves s t) : Counts s t :=
  .keep m.pid m.nextpid m.exited m.reaped (fun i => (m.eq_iff rfl i).not.mp) (m.eq_iff rfl)

theorem counts_dispatch (c : Fin ncpu) (i : Slot) : Counts s (dispatch s c i) := by
  unfold dispatch
  split
  · rename_i hd
    exact Moves.counts (moves_update (i := i) (x := .running) (by rw [hd.2]; rfl) rfl rfl rfl rfl rfl rfl rfl rfl rfl)
  · exact .refl s

theorem counts_allocproc : Counts s (allocproc s i) := by
  unfold allocproc
  cases hfind : slots.find? fun p => decide (s.state p = .unused) with
  | none => exact .refl s
  | some np => exact .claim np (find_unused hfind) rfl rfl rfl rfl rfl

/-- A slot in `fork` becomes free or RUNNABLE. -/
theorem counts_embryo {np : Slot} {x : PState} (hnp : s.state np = .embryo) (hx : x = .unused ∨ x = .runnable)
    (hstate : t.state = Function.update s.state np x) (hpid : t.pid = s.pid) (hn : t.nextpid = s.nextpid)
    (he : t.exited = s.exited) (hr : t.reaped = s.reaped) : Counts s t := by
  refine .keep hpid hn he hr (fun j hj => ?_) fun j => ?_
  · rw [hstate, Function.update_apply] at hj
    split at hj
    · rename_i e
      rw [e, hnp]
      decide
    · exact hj
  · rw [hstate, Function.update_apply]
    split
    · rename_i e
      rw [e, hnp]
      rcases hx with rfl | rfl <;> decide
    · rfl

theorem counts_build (h : Inv s) (ok : Bool) : Counts s (build s i ok) := by
  unfold build
  cases hj : s.job i with
  | none => exact .refl s
  | wait => exact .refl s
  | fork np stage =>
    obtain ⟨hnp, -⟩ := h.jobs.fork i np stage hj
    cases stage with
    | stack =>
      cases ok with
      | true => exact .keep rfl rfl rfl rfl (fun _ h => h) fun _ => Iff.rfl
      | false => exact counts_embryo hnp (.inl rfl) rfl rfl rfl rfl rfl
    | memory =>
      cases ok with
      | true => exact .keep rfl rfl rfl rfl (fun _ h => h) fun _ => Iff.rfl
      | false => exact counts_embryo hnp (.inl rfl) rfl rfl rfl rfl rfl
    | done => exact counts_embryo hnp (.inr rfl) rfl rfl rfl rfl rfl

theorem counts_exit (hi : s.state i = .running) (ht : exit s i = some t) :
    Counts s { t with exited := t.exited ++ [s.pid i] } := by
  obtain ⟨-, e⟩ := exits_of_exit ht
  exact .die i hi e.self e.pid e.nextpid (congrArg (· ++ _) e.exited) e.reaped
    (fun j => (e.slot_iff hi rfl (by decide) j).not.mp) fun j hj => e.eq_iff rfl hj

theorem counts_wait (hi : s.state i = .running) : Counts s (record (wait s i).1 (wait s i).2) := by
  unfold wait
  cases hfind : slots.find? fun p => decide (s.parent p = some i ∧ s.state p = .zombie) with
  | some p =>
    obtain ⟨-, hz⟩ : s.parent p = some i ∧ s.state p = .zombie := by simpa using List.find?_some hfind
    simp only [record]
    split
    · rename_i hm
      exact .reap p hz rfl rfl rfl rfl (if_pos hm).symm
    · rename_i hm
      exact .reap p hz rfl rfl rfl rfl (if_neg hm).symm
  | none =>
    dsimp only
    split
    · exact .keep rfl rfl rfl rfl (fun _ h => h) fun _ => Iff.rfl
    · have m : Moves s (sleep s i (.proc i)) :=
        moves_update (i := i) (x := .sleeping) (by rw [hi]; rfl) rfl rfl rfl rfl rfl rfl rfl rfl rfl
      exact .keep rfl rfl rfl rfl (fun j => (m.eq_iff rfl j).not.mp) (m.eq_iff rfl)

theorem counts_kill (pid : Int) : Counts s (kill s pid) := by
  unfold kill
  cases findPid s pid with
  | none => exact .refl s
  | some p =>
    dsimp only
    split
    · rename_i hs
      exact Moves.counts (moves_update (i := p) (x := .runnable) (by rw [hs]; rfl) rfl rfl rfl rfl rfl rfl rfl rfl rfl)
    · exact .keep rfl rfl rfl rfl (fun _ h => h) fun _ => Iff.rfl

/-- `allocproc` is called. -/
def Ev.allocates : Ev → Bool
  | .alloc _ => true
  | _ => false

theorem counts_step {e : Ev} (h : Inv s) (ht : step s e = some t) :
    Counts s t ∧ (e.allocates = false → t.nextpid = s.nextpid) := by
  cases e with
  | dispatch c i =>
    cases ht
    refine ⟨counts_dispatch c i, fun _ => ?_⟩
    unfold dispatch
    split <;> rfl
  | yield i =>
    cases ht
    split
    · rename_i hi
      exact ⟨Moves.counts (moves_update (i := i) (x := .runnable) (by rw [hi]; rfl) rfl rfl rfl rfl rfl rfl rfl rfl rfl), fun _ => rfl⟩
    · exact ⟨.refl s, fun _ => rfl⟩
  | sleep i c =>
    cases ht
    split
    · rename_i hi
      exact ⟨Moves.counts (moves_update (i := i) (x := .sleeping) (by rw [hi.1]; rfl) rfl rfl rfl rfl rfl rfl rfl rfl rfl), fun _ => rfl⟩
    · exact ⟨.refl s, fun _ => rfl⟩
  | wakeup c =>
    cases ht
    exact ⟨(moves_wakeup1 (.other c)).counts, fun _ => rfl⟩
  | alloc i =>
    cases ht
    refine ⟨?_, fun hn => by cases hn⟩
    split
    · exact counts_allocproc
    · exact .refl s
  | build i ok =>
    cases ht
    split
    · refine ⟨counts_build h ok, fun _ => ?_⟩
      unfold build
      repeat' split
      all_goals rfl
    · exact ⟨.refl s, fun _ => rfl⟩
  | exit i =>
    simp only [step] at ht
    split at ht
    · rename_i hi
      obtain ⟨u, hu, rfl⟩ := Option.map_eq_some_iff.mp ht
      exact ⟨counts_exit hi.1 hu, fun _ => (exits_of_exit hu).2.nextpid⟩
    · cases ht
      exact ⟨.refl s, fun _ => rfl⟩
  | wait i =>
    cases ht
    split
    · rename_i hi
      refine ⟨counts_wait hi.1, fun _ => ?_⟩
      unfold wait record
      repeat' split
      all_goals rfl
    · exact ⟨.refl s, fun _ => rfl⟩
  | kill pid =>
    cases ht
    refine ⟨counts_kill pid, fun _ => ?_⟩
    unfold kill
    split <;> rfl

end

/-! ## Pids along a run -/

section

variable {s t : St} {i : Slot}

/-- `nextpid` after one more call of `allocproc`. -/
theorem wrap_succ {n : Int} (h0 : 0 ≤ n) (h : n + 1 < 2 ^ 31) : wrap (n + 1) = n + 1 := by
  unfold wrap
  omega

theorem Pids.keep (h : Pids s) (hp : t.pid = s.pid) (hn : t.nextpid = s.nextpid)
    (hu : ∀ i, t.state i ≠ .unused → s.state i ≠ .unused) : Pids t := by
  refine ⟨?_, ?_, fun i hi => ?_⟩
  · rw [hp]
    exact h.distinct
  · rw [hp, hn]
    exact h.below
  · rw [hp]
    exact h.used i (hu i hi)


/-- Nobody dies or is reaped. -/
theorem Ledger.keep (h : Ledger s) (he : t.exited = s.exited) (hr : t.reaped = s.reaped) (hn : s.nextpid ≤ t.nextpid)
    (hz : ∀ i, t.state i = .zombie ↔ s.state i = .zombie) (hp : ∀ i, t.pid i = s.pid i ∨ (s.state i ≠ .zombie ∧ t.pid i ∉ s.exited)) :
    Ledger t := by
  have hpid : ∀ i, s.state i = .zombie → t.pid i = s.pid i := fun i hi => (hp i).resolve_right fun h => h.1 hi
  refine ⟨he ▸ h.once, hr ▸ h.reapedOnce, ?_, ?_, ?_, ?_, ?_⟩
  · rw [he, hr]
    exact h.dead
  · rw [he]
    exact fun x hx => ⟨(h.below x hx).1, (h.below x hx).2.trans_le hn⟩
  · intro i hi
    rw [he]
    rcases hp i with hsame | hnew
    · rw [hsame]
      exact h.living i ((hz i).not.mp hi)
    · exact hnew.2
  · intro i hi
    have hi := (hz i).mp hi
    rw [hpid i hi, he, hr]
    exact h.zombie i hi
  · rw [he, hr]
    intro x hx hx'
    obtain ⟨i, hi, hpi⟩ := h.left x hx hx'
    exact ⟨i, (hz i).mpr hi, (hpid i hi).trans hpi⟩

theorem Numbered.claim {np : Slot} (h : Numbered s) (free : s.state np = .unused)
    (state : t.state = Function.update s.state np .embryo) (pid : t.pid = Function.update s.pid np s.nextpid)
    (nextpid : t.nextpid = s.nextpid + 1) (exited : t.exited = s.exited) (reaped : t.reaped = s.reaped) : Numbered t := by
  obtain ⟨h1, h2, h3⟩ := h.pids
  have hpos := h2 np
  refine ⟨⟨?_, ?_, ?_⟩, h.ledger.keep exited reaped (by omega) (fun j => ?_) fun j => ?_⟩
  · rw [pid]
    simp only [Function.update_apply]
    grind
  · rw [pid, nextpid]
    simp only [Function.update_apply]
    grind
  · rw [state, pid]
    simp only [Function.update_apply]
    grind
  · rw [state, Function.update_apply]
    grind
  · rw [pid]
    by_cases e : j = np
    · refine .inr ⟨by rw [e, free]; decide, fun hx => ?_⟩
      rw [e, Function.update_self] at hx
      exact lt_irrefl _ (h.ledger.below _ hx).2
    · exact .inl (Function.update_of_ne e ..)

theorem Numbered.die (h : Numbered s) (running : s.state i = .running) (self : t.state i = .zombie) (pid : t.pid = s.pid)
    (nextpid : t.nextpid = s.nextpid) (exited : t.exited = s.exited ++ [s.pid i]) (reaped : t.reaped = s.reaped)
    (unused : ∀ j, t.state j ≠ .unused → s.state j ≠ .unused)
    (zombie : ∀ j, j ≠ i → (t.state j = .zombie ↔ s.state j = .zombie)) : Numbered t := by
  obtain ⟨hp, h⟩ := h
  have hpid0 : s.pid i ≠ 0 := hp.used i (by rw [running]; decide)
  have hnew : s.pid i ∉ s.exited := h.living i (by rw [running]; decide)
  refine ⟨hp.keep pid nextpid unused, ?_, reaped ▸ h.reapedOnce, ?_, ?_, fun j hj => ?_, fun j hj => ?_, ?_⟩
  · rw [exited]
    exact List.Nodup.append h.once (List.nodup_singleton _) (by simpa using hnew)
  · rw [exited, reaped]
    exact fun x hx => List.mem_append_left _ (h.dead x hx)
  · rw [exited, nextpid]
    intro x hx
    rcases List.mem_append.mp hx with hx | hx
    · exact h.below x hx
    · rw [List.mem_singleton.mp hx]
      have := hp.below i
      omega
  · have hji : j ≠ i := fun e => hj (e ▸ self)
    rw [pid, exited, List.mem_append, not_or, List.mem_singleton]
    exact ⟨h.living j ((zombie j hji).not.mp hj), fun hx => hji (hp.distinct i j hx.symm hpid0).symm⟩
  · rw [pid, exited, reaped]
    by_cases ej : j = i
    · rw [ej]
      exact ⟨by simp, fun hx => hnew (h.dead _ hx)⟩
    · obtain ⟨h1, h2⟩ := h.zombie j ((zombie j ej).mp hj)
      exact ⟨List.mem_append_left _ h1, h2⟩
  · rw [exited, reaped, pid]
    intro x hx hx'
    rcases List.mem_append.mp hx with hx | hx
    · obtain ⟨j, hj, hpj⟩ := h.left x hx hx'
      have hji : j ≠ i := by
        intro e
        rw [e, running] at hj
        cases hj
      exact ⟨j, (zombie j hji).mpr hj, hpj⟩
    · exact ⟨i, self, (List.mem_singleton.mp hx).symm⟩

theorem Numbered.reap {p : Slot} (h : Numbered s) (zombie : s.state p = .zombie)
    (state : t.state = Function.update s.state p .unused) (pid : t.pid = Function.update s.pid p 0)
    (nextpid : t.nextpid = s.nextpid) (exited : t.exited = s.exited) (reaped : t.reaped = s.reaped ++ [s.pid p]) : Numbered t := by
  obtain ⟨hp, h1, h2, h3, h4, h5, h6, h7⟩ := h
  obtain ⟨hin, hout⟩ := h6 p zombie
  have hpid0 := h4 _ hin
  have hd := hp.distinct p
  refine ⟨?_, exited ▸ h1, ?_, ?_, ?_, fun j hjz => ?_, fun j hjz => ?_, fun x hx hx' => ?_⟩
  · obtain ⟨h1, h2, h3⟩ := hp
    constructor
    all_goals
      simp only [pid, nextpid, state, Function.update_apply]
      grind
  · rw [reaped]
    exact List.Nodup.append h2 (List.nodup_singleton _) (by simpa using hout)
  · rw [exited, reaped]
    intro x hx
    rcases List.mem_append.mp hx with hx | hx
    · exact h3 x hx
    · rw [List.mem_singleton.mp hx]
      exact hin
  · rw [exited, nextpid]
    exact h4
  · have := h4 0
    have := h5 j
    rw [state, Function.update_apply] at hjz
    rw [pid, exited, Function.update_apply]
    grind
  · have := h6 j
    rw [state, Function.update_apply] at hjz
    rw [pid, exited, reaped, Function.update_apply]
    grind
  · rw [exited] at hx
    rw [reaped, List.mem_append, not_or, List.mem_singleton] at hx'
    obtain ⟨j, hj, hpj⟩ := h7 x hx hx'.1
    have hjp : j ≠ p := by
      intro e
      rw [e] at hpj
      exact hx'.2 hpj.symm
    rw [state, pid]
    exact ⟨j, (Function.update_of_ne hjp ..).trans hj, (Function.update_of_ne hjp ..).trans hpj⟩

theorem Counts.numbered (c : Counts s t) (h : Numbered s) (hroom : t.nextpid ≠ s.nextpid → s.nextpid + 1 < 2 ^ 31) :
    Numbered t ∧ (t.nextpid = s.nextpid ∨ t.nextpid = s.nextpid + 1) := by
  cases c with
  | keep pid nextpid exited reaped unused zombie =>
    exact ⟨⟨h.pids.keep pid nextpid unused, h.ledger.keep exited reaped (by rw [nextpid]) zombie fun i => .inl (by rw [pid])⟩,
      .inl nextpid⟩
  | claim np free state pid nextpid exited reaped =>
    have hpos := h.pids.below np
    have hnext : s.nextpid + 1 < 2 ^ 31 := by
      apply hroom
      rw [nextpid, wrap]
      omega
    rw [wrap_succ (by omega) hnext] at nextpid
    exact ⟨h.claim free state pid nextpid exited reaped, .inr nextpid⟩
  | die i running self pid nextpid exited reaped unused zombie =>
    exact ⟨h.die running self pid nextpid exited reaped unused zombie, .inl nextpid⟩
  | reap p zombie state pid nextpid exited reaped =>
    have := h.ledger.below _ (h.ledger.zombie p zombie).1
    rw [if_neg (by omega)] at reaped
    exact ⟨h.reap zombie state pid nextpid exited reaped, .inl nextpid⟩

/-- A run in which `nextpid` does not wrap. -/
theorem numbered_run : ∀ (es : List Ev) (s t : St), Inv s → Numbered s → s.nextpid + es.countP Ev.allocates < 2 ^ 31 →
    after step s es = some t → Numbered t := by
  intro es
  induction es with
  | nil =>
    intro s t _ h _ ht
    cases ht
    exact h
  | cons e es ih =>
    intro s t hinv h hroom ht
    cases he : step s e with
    | none => simp [after, he] at ht
    | some u =>
      obtain ⟨hcounts, hkeep⟩ := counts_step hinv he
      simp only [after, he] at ht
      rw [List.countP_cons] at hroom
      cases ha : e.allocates with
      | true =>
        rw [if_pos ha] at hroom
        obtain ⟨hu, hnext⟩ := hcounts.numbered h fun _ => by omega
        exact ih u t (inv_step hinv he) hu (by omega) ht
      | false =>
        rw [if_neg (by simp [ha])] at hroom
        obtain ⟨hu, -⟩ := hcounts.numbered h fun hne => absurd (hkeep ha) hne
        exact ih u t (inv_step hinv he) hu (by rw [hkeep ha]; omega) ht

end

theorem numbered_after {es : List Ev} {t : St} (hes : es.countP Ev.allocates + 2 < 2 ^ 31)
    (ht : after step userinit es = some t) : Numbered t := by
  refine numbered_run es userinit t inv_userinit numbered_userinit ?_ ht
  show (2 : Int) + _ < _
  omega

/-- At every moment of every run the table is in order. -/
theorem table_inv (es : List Ev) (t : St) (ht : after step userinit es = some t) :
    -- a process is RUNNING if and only if one processor has it
    (∀ i, t.state i = .running ↔ ∃! c, t.cpus c = some i) ∧
    -- until `nextpid` wraps, the pids of slots in use are positive and distinct
    (es.countP Ev.allocates + 2 < 2 ^ 31 → ∀ i, t.state i ≠ .unused → 0 < t.pid i ∧ ∀ j, t.pid j = t.pid i → j = i) ∧
    -- a parent is a process that neither exited nor is being made; all but the first have one
    (∀ i q, t.parent i = some q → (t.state q).alive = true ∧ q ≠ i) ∧
    (∀ i, t.parent i = none ↔ i = initproc ∨ t.state i = .unused ∨ ∃ q st, t.job q = .fork i st ∧ st ≠ .done) ∧
    -- a slot has a kernel stack if it is in use, but for the first stage of `fork`
    ∀ i, t.kstack i = false ↔ t.state i = .unused ∨ ∃ q, t.job q = .fork i .stack := by
  have h := inv_after ht
  refine ⟨fun i => ⟨fun hi => ?_, ?_⟩, fun hes i hi => ?_, fun i q hq => ?_, fun i => ⟨fun hp => ?_, ?_⟩, fun i => ⟨fun hk => ?_, ?_⟩⟩
  · obtain ⟨c, hc⟩ := h.cpus.somewhere i hi
    exact ⟨c, hc, fun d hd => h.cpus.once d c i hd hc⟩
  · rintro ⟨c, hc, -⟩
    exact h.cpus.running c i hc
  · have hp := (numbered_after hes ht).pids
    have h0 := hp.used i hi
    exact ⟨lt_of_le_of_ne (hp.below i).1 h0.symm, fun j hj => hp.distinct j i hj (hj ▸ h0)⟩
  · refine ⟨h.family.parent i q hq, ?_⟩
    rintro rfl
    exact h.family.other q hq
  · by_contra hne
    rw [not_or, not_or] at hne
    obtain ⟨h1, h2, h3⟩ := hne
    by_cases he : t.state i = .embryo
    · obtain ⟨q, st, hq⟩ := h.jobs.embryo i he
      refine h3 ⟨q, st, hq, ?_⟩
      rintro rfl
      have hb := (h.jobs.fork q i .done hq).2.2
      rw [hp] at hb
      cases hb
    · exact h.family.raised i h1 h2 he hp
  · rintro (rfl | hu | ⟨q, st, hq, hst⟩)
    · exact h.family.root
    · exact h.family.orphan i hu
    · have hb := (h.jobs.fork q i st hq).2
      cases st with
      | stack => exact hb.2
      | memory => exact hb.2
      | done => exact absurd rfl hst
  · by_contra hne
    rw [not_or] at hne
    obtain ⟨h1, h2⟩ := hne
    by_cases he : t.state i = .embryo
    · obtain ⟨q, st, hq⟩ := h.jobs.embryo i he
      have hb := (h.jobs.fork q i st hq).2
      rw [hk] at hb
      cases st with
      | stack => exact h2 ⟨q, hq⟩
      | memory => cases hb.1
      | done => cases hb.1
    · rw [h.jobs.stack i h1 he] at hk
      cases hk
  · rintro (hu | ⟨q, hq⟩)
    · exact h.jobs.free i hu
    · exact (h.jobs.fork q i .stack hq).2.1

theorem table_inv_one_fork : ∃ t, after step userinit oneFork = some t ∧ t.state initproc = .running ∧
    (∃! c, t.cpus c = some initproc) ∧ 0 < t.pid initproc :=
  have h := table_inv oneFork _ rfl
  ⟨_, rfl, rfl, (h.1 initproc).mp rfl, (h.2.1 (by decide) initproc (by decide)).1⟩

/-- `wait` returns the pid of each process that exited, once; until then it is a zombie whose parent can call `wait`. -/
theorem reaped_once (es : List Ev) (t : St) (hes : es.countP Ev.allocates + 2 < 2 ^ 31) (ht : after step userinit es = some t) :
    t.exited.Nodup ∧ t.reaped.Nodup ∧ (∀ x ∈ t.reaped, x ∈ t.exited ∧ ∀ i, t.pid i ≠ x) ∧
    ∀ x ∈ t.exited, x ∉ t.reaped →
      ∃ i q, t.state i = .zombie ∧ t.pid i = x ∧ t.parent i = some q ∧ (t.state q).alive = true := by
  have h := inv_after ht
  obtain ⟨-, hl⟩ := numbered_after hes ht
  refine ⟨hl.once, hl.reapedOnce, fun x hx => ⟨hl.dead x hx, ?_⟩, fun x hx hx' => ?_⟩
  · intro i hi
    rw [← hi] at hx
    by_cases hz : t.state i = .zombie
    · exact (hl.zombie i hz).2 hx
    · exact hl.living i hz (hl.dead _ hx)
  · obtain ⟨i, hz, hp⟩ := hl.left x hx hx'
    have hne : i ≠ initproc := by
      rintro rfl
      have := h.family.first
      rw [hz] at this
      cases this
    have hq := h.family.raised i hne (by rw [hz]; decide) (by rw [hz]; decide)
    obtain ⟨q, hq⟩ := Option.ne_none_iff_exists'.mp hq
    exact ⟨i, q, hz, hp, hq, h.family.parent i q hq⟩

/-- The slot of the second process. -/
def second : Slot := ⟨1, one_lt_nproc⟩

/-- A child that exits, and is waited for. -/
def oneExit : List Ev := oneFork ++ [.dispatch ⟨1, by decide⟩ second, .exit second, .wait initproc]

theorem reaped_once_one_exit : ∃ t, after step userinit oneExit = some t ∧ t.reaped = [2] ∧ 2 ∈ t.exited :=
  ⟨_, rfl, rfl, ((reaped_once oneExit _ (by decide) rfl).2.2.1 2 (by decide)).1⟩

/-! ## `kill` -/

end CS5600.Xv6.Proc
