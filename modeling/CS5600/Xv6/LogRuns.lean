/-
  CS5600.Xv6.LogRuns — runs of the log, with crashes.

  A run starts with a disk whose log is empty and is any sequence of events in which a call logs at most
  `m` blocks (`Legal`); the log has more than MAXOPBLOCKS + 2 m blocks, header included. On the disk of
  `mkfs` that is `m` up to 9, one less than MAXOPBLOCKS: since `log_write` looks at the size of the log before
  it takes the lock, calls of ten blocks can go past its end.

  (1) Refinement (`runs_refine_store`): the file system's blocks go through the acts of a `Store`, one for each step.
  (2) Atomicity and durability (`crash_recovers_quiet`): after a crash anywhere, in `commit` or in the
      recovery from an earlier crash, the file system is as the processes saw it at one moment of the
      run when no process was in a call, and not one before the last such moment with the log open. After a crash
      in the first recovery it is as on the disk the machine started with.
  (3) No panic exactly when `m` is below MAXOPBLOCKS (`never_panics_iff`): `log_write` refuses a full
      log also when the block is in it already.
  (4) Progress (`calls_drain`): wherever a run is, the calls that are in progress can end without any new one, and then
      nobody sleeps in `begin_op`.
-/

import CS5600.Xv6.LogProofs

namespace CS5600.Xv6.Log

open CS5600.Lib.Bytes CS5600.Lib.Runs

section

variable {L : Layout} {m : Nat} {s t : St} {disk : Nat → Block}

/-! ## Runs -/

/-- Of three processes that log ten blocks each, the one that logs the block `k`. -/
def author (k : Nat) : Slot := ⟨k / 10 % nproc, Nat.mod_lt _ nproc_pos⟩

theorem author_val {k : Nat} (hk : k < 30) : (author k).val = k / 10 := by
  simp only [author, nproc]
  omega

theorem inv_run (hsize : maxOpBlocks + 2 * m < L.size) (hm : m ≤ maxOpBlocks) {es : List Ev} (h : Inv L m s)
    (hlegal : ∀ x ∈ trail (step L) s es, Legal L m x.1 x.2) (ht : after (step L) s es = some t) : Inv L m t :=
  after_inv (Inv L m) (Legal L m) (fun _ _ _ h hl ht => (inv_step hsize hm h hl ht).1) es s t h hlegal ht

theorem inv_start (h0 : headBlocks (disk L.start) = []) : Inv L m (boot disk) := by
  apply inv_boot
  rw [h0]
  exact .nil

/-- The log of the disk that `mkfs` makes. -/
def mkfsLog : Layout := ⟨2, 30⟩

def blank : Nat → Block := fun _ _ => 0

/-- A call that logs one block; the machine stops in the commit. -/
def oneCall : List Ev :=
  [.begin (author 0), .check (author 0) 40 (fun _ => 7), .append (author 0), .finish (author 0), .advance, .crash]

theorem legal_oneCall : ∀ x ∈ trail (step mkfsLog) (boot blank) (List.replicate 3 .advance ++ oneCall),
    Legal mkfsLog 9 x.1 x.2 := by
  show ∀ x ∈ [(_, _), (_, _), (_, _), (_, _), (_, _), (_, _), (_, _), (_, _), (_, _)], _
  simp only [List.forall_mem_cons]
  exact ⟨trivial, trivial, trivial, ⟨.inl rfl, rfl⟩, ⟨∅, rfl, by decide, by decide, by decide⟩, ⟨∅, 40, _, rfl⟩, ⟨{40}, rfl⟩,
    trivial, trivial, by simp⟩

theorem runs_refine_store (L : Layout) (m : Nat) (hsize : maxOpBlocks + 2 * m < L.size) (hm : m ≤ maxOpBlocks)
    (disk : Nat → Block) (h0 : headBlocks (disk L.start) = []) (es : List Ev)
    (hlegal : ∀ x ∈ trail (step L) (boot disk) es, Legal L m x.1 x.2) (t : St)
    (ht : after (step L) (boot disk) es = some t) :
    Shows L t (((trail (step L) (boot disk) es).map fun x => label x.1 x.2).foldl Store.act ⟨disk, disk⟩) := by
  apply after_sim (Inv L m) (Legal L m) (Shows L) Store.act label
  · exact fun s e t h hl ht => inv_step hsize hm h hl ht
  · exact inv_start h0
  · exact shows_boot h0
  · exact hlegal
  · exact ht

theorem runs_refine_store_one_call : ∃ t, after (step mkfsLog) (boot blank) (List.replicate 3 .advance ++ oneCall) = some t ∧
    Shows mkfsLog t (((trail (step mkfsLog) (boot blank) (List.replicate 3 .advance ++ oneCall)).map
      fun x => label x.1 x.2).foldl Store.act ⟨blank, blank⟩) :=
  ⟨_, rfl, runs_refine_store mkfsLog 9 (by decide) (by decide) blank rfl _ legal_oneCall _ rfl⟩

/-! ## The way to an open log -/

/-- How many more steps `commit` or `recover_from_log` takes. -/
def todo (L : Layout) (s : St) : Nat :=
  match s.phase with
  | .opened => 0
  | .writeLog tail => (s.lh.length - tail) + s.lh.length + 5
  | .writeHead => s.lh.length + 4
  | .install tail => (s.lh.length - tail) + 3
  | .clearHead => 2
  | .leave => 1
  | .readHead => (headBlocks (s.view L.start)).length + 3
  | .replay tail => (s.lh.length - tail) + 2
  | .erase => 1

theorem todo_advance (hp : s.phase ≠ .opened) : todo L (advance L s) + 1 = todo L s := by
  have hsome : ∀ {k b : Nat}, s.lh[k]? = some b → k < s.lh.length := fun h => (List.getElem?_eq_some_iff.mp h).1
  have hnone : ∀ {k : Nat}, s.lh[k]? = none → s.lh.length - k = 0 := by
    intro k h
    have := List.getElem?_eq_none_iff.mp h
    omega
  cases hp' : s.phase with
  | opened => exact absurd hp' hp
  | writeLog k =>
    cases hb : s.lh[k]? with
    | some b =>
      have := hsome hb
      simp only [advance, hp', hb, todo, logBlock, bwrite, bread]
      omega
    | none =>
      have := hnone hb
      simp only [advance, hp', hb, todo]
      omega
  | install k =>
    cases hb : s.lh[k]? with
    | some b =>
      have := hsome hb
      simp only [advance, hp', hb, todo, installBlock, bwrite, bread]
      omega
    | none =>
      have := hnone hb
      simp only [advance, hp', hb, todo]
      omega
  | replay k =>
    cases hb : s.lh[k]? with
    | some b =>
      have := hsome hb
      simp only [advance, hp', hb, todo, installBlock, bwrite, bread]
      omega
    | none =>
      have := hnone hb
      simp only [advance, hp', hb, todo]
      omega
  | writeHead => simp [advance, hp', todo, writeHead, bwrite, bread]
  | clearHead => simp [advance, hp', todo]
  | leave => simp [advance, hp', todo, wakeup]
  | readHead => simp [advance, hp', todo]
  | erase => simp [advance, hp', todo]

theorem advances_open : ∀ (n : Nat) (s : St), todo L s = n →
    ∃ r, after (step L) s (List.replicate n .advance) = some r ∧ r.phase = .opened := by
  intro n
  induction n with
  | zero =>
    intro s hn
    refine ⟨s, rfl, ?_⟩
    by_contra hp
    have := todo_advance (L := L) hp
    omega
  | succ n ih =>
    intro s hn
    have hp : s.phase ≠ .opened := by
      intro hp
      simp [todo, hp] at hn
    have hstep := todo_advance (L := L) hp
    exact ih (advance L s) (by omega)

theorem Legal.mono {n : Nat} {e : Ev} (h : Legal L m s e) (hn : m ≤ n) : Legal L n s e := by
  cases e with
  | check i b data =>
    obtain ⟨mine, hi, hcard, hb⟩ := h
    exact ⟨mine, hi, hcard.trans hn, hb⟩
  | _ => exact h

theorem legal_advances (n : Nat) : ∀ x ∈ trail (step L) s (List.replicate n .advance), Legal L m x.1 x.2 := by
  intro x hx
  have hx := List.eq_of_mem_replicate (mem_of_mem_trail hx)
  rw [hx]
  trivial

theorem not_full_of_quiet (h : Inv L m s) (hp : s.phase = .opened) (hq : Quiet s) : ¬ Full s := by
  have h0 := h.calls.quiet_iff.mpr hq
  rintro (hne | hgt)
  · exact hne hp
  · rw [h.calls.idle hp h0, h0] at hgt
    simp [logSize, maxOpBlocks] at hgt

/-- With the log open and no process in a call, all is on the disk. -/
theorem settled (h : Inv L m s) (hp : s.phase = .opened) (hq : Quiet s) (b : Nat) :
    recovered L s.disk b = s.disk b ∧ s.view b = s.disk b := by
  have hlh := h.calls.idle hp (h.calls.quiet_iff.mpr hq)
  refine ⟨by rw [recovered_of_empty (h.blocks.onDisk_at hp)], h.blocks.sync b ?_⟩
  apply h.blocks.clean
  simp only [St.unwritten, hp, hlh]

/-! ## Crashes -/

theorem act_durable (σ : Store) {a : Act} (ha : a ≠ .commit) : (σ.act a).durable = σ.durable := by
  cases a with
  | commit => exact absurd rfl ha
  | stay => rfl
  | write b data => rfl
  | crash => rfl

theorem label_eq_commit {e : Ev} (h : label s e = .commit) : e = .advance ∧ s.phase = .writeHead := by
  unfold label at h
  split at h
  · split at h <;> cases h
  · split at h
    · exact ⟨rfl, ‹_›⟩
    · cases h
  · cases h
  · cases h

/-- What is durable changes with the header only. -/
theorem recovered_step (hsize : maxOpBlocks + 2 * m < L.size) (hm : m ≤ maxOpBlocks) (h : Inv L m s) {e : Ev}
    (hlegal : Legal L m s e) (ht : step L s e = some t) :
    (∀ b, L.Home b → recovered L t.disk b = recovered L s.disk b) ∨
      (s.phase = .writeHead ∧ ∀ b, L.Home b → recovered L t.disk b = s.view b) := by
  have hshows := (inv_step hsize hm h hlegal ht).2 ⟨recovered L s.disk, s.current L⟩ fun b _ => ⟨rfl, rfl⟩
  by_cases hc : label s e = .commit
  · obtain ⟨-, hp⟩ := label_eq_commit hc
    refine .inr ⟨hp, fun b hb => ?_⟩
    rw [hc] at hshows
    rw [(hshows b hb).1]
    show s.current L b = s.view b
    rw [current_of_view (by rw [hp]; rfl)]
  · refine .inl fun b hb => ?_
    rw [(hshows b hb).1, act_durable _ hc]

theorem advance_while_recovering (hr : s.phase.recovering = true) :
    (advance L s).phase.recovering = true ∨ (advance L s).phase = .opened := by
  cases hp : s.phase with
  | readHead => exact .inl (by simp [advance, hp, Phase.recovering])
  | replay k => exact .inl (by cases hb : s.lh[k]? <;> simp [advance, hp, hb, Phase.recovering])
  | erase => exact .inr (by simp [advance, hp])
  | _ => simp [hp, Phase.recovering] at hr

theorem after_crash (es : List Ev) : after (step L) t (.crash :: es) = after (step L) (boot t.disk) es := by
  simp only [after, step]

/-- A recovery that is not disturbed comes to an end, with what was durable. -/
theorem recovery_ends (hsize : maxOpBlocks + 2 * m < L.size) (hm : m ≤ maxOpBlocks) (h : Inv L m t) :
    ∃ n r, after (step L) t (.crash :: List.replicate n .advance) = some r ∧ r.phase = .opened ∧
      ∀ b, L.Home b → r.view b = recovered L t.disk b := by
  have hboot : Inv L m (boot t.disk) := inv_boot h.blocks.head
  obtain ⟨r, hr, hopen⟩ := advances_open (L := L) _ (boot t.disk) rfl
  refine ⟨todo L (boot t.disk), r, (after_crash _).trans hr, hopen, ?_⟩
  -- no process is in a call, and what is durable stays
  have hkeep := @after_inv _ _ (step L)
    (fun u => Inv L m u ∧ (u.phase.recovering = true ∨ u.phase = .opened) ∧ Quiet u ∧
      ∀ b, L.Home b → recovered L u.disk b = recovered L t.disk b)
    (fun _ e => e = .advance) ?_ _ _ r
    ⟨hboot, .inl rfl, fun _ => rfl, fun _ _ => rfl⟩
    (fun x hx => List.eq_of_mem_replicate (mem_of_mem_trail hx)) hr
  · obtain ⟨hinv, -, hq, hdur⟩ := hkeep
    intro b hb
    obtain ⟨h1, h2⟩ := settled hinv hopen hq b
    rw [h2, ← h1, hdur b hb]
  · rintro u e v ⟨hu, hphase, hq, hdur⟩ rfl hv
    have hlegal : Legal L m u .advance := trivial
    have hne : u.phase ≠ .writeHead := by
      rintro hp
      rw [hp] at hphase
      simp [Phase.recovering] at hphase
    have hinv := (inv_step hsize hm hu hlegal hv).1
    have hdur' := (recovered_step hsize hm hu hlegal hv).resolve_right fun hp => hne hp.1
    cases hv
    refine ⟨hinv, ?_, ?_, fun b hb => (hdur' b hb).trans (hdur b hb)⟩
    · rcases hphase with hr | hp
      · exact advance_while_recovering hr
      · right
        simp only [advance, hp]
    · apply hinv.calls.quiet_iff.mp
      rw [advance_outstanding]
      exact hu.calls.quiet_iff.mpr hq

theorem crash_recovers_quiet (L : Layout) (m : Nat) (hsize : maxOpBlocks + 2 * m < L.size) (hm : m ≤ maxOpBlocks)
    (disk : Nat → Block) (h0 : headBlocks (disk L.start) = []) (es fs : List Ev)
    (hlegal : ∀ x ∈ trail (step L) (boot disk) (es ++ fs), Legal L m x.1 x.2) (w t : St)
    (hw : after (step L) (boot disk) es = some w) (hrest : w = boot disk ∨ w.phase = .opened ∧ Quiet w)
    (ht : after (step L) w fs = some t) :
    ∃ fs₁ fs₂ u, fs = fs₁ ++ fs₂ ∧ after (step L) w fs₁ = some u ∧ Quiet u ∧ (u.phase.recovering = false ∨ u = boot disk) ∧
      ∃ n r, after (step L) t (.crash :: List.replicate n .advance) = some r ∧ r.phase = .opened ∧
        ∀ b, L.Home b → r.view b = u.view b := by
  rw [trail_append hw, List.forall_mem_append] at hlegal
  have hinv := inv_run hsize hm (inv_start h0) hlegal.1 hw
  obtain ⟨n, r, hr, hropen, hrview⟩ := recovery_ends hsize hm (inv_run hsize hm hinv hlegal.2 ht)
  have hsince := after_since (Inv L m) (Legal L m)
    (fun u s => (Quiet u ∧ (u.phase.recovering = false ∨ u = boot disk)) ∧ ∀ b, L.Home b → recovered L s.disk b = u.view b)
    ?_ fs w w t hinv ?_ hlegal.2 ht
  · rcases hsince with ⟨⟨hq, hp⟩, hb⟩ | ⟨fs₁, fs₂, u, hfs, hu, ⟨hq, hp⟩, hb⟩
    · exact ⟨[], fs, w, rfl, rfl, hq, hp, n, r, hr, hropen, fun b h => (hrview b h).trans (hb b h)⟩
    · exact ⟨fs₁, fs₂, u, hfs, hu, hq, hp, n, r, hr, hropen, fun b h => (hrview b h).trans (hb b h)⟩
  · intro s e v hs hl hv
    refine ⟨(inv_step hsize hm hs hl hv).1, ?_⟩
    rcases recovered_step hsize hm hs hl hv with hsame | ⟨hp, hnew⟩
    · exact .inl fun u hu => ⟨hu.1, fun b hb => (hsame b hb).trans (hu.2 b hb)⟩
    · refine .inr ⟨⟨hs.calls.quiet_iff.mp (hs.calls.quiet (by simp [hp])), .inl (by rw [hp]; rfl)⟩, hnew⟩
  · rcases hrest with rfl | ⟨hopen, hquiet⟩
    · refine ⟨⟨fun _ => rfl, .inr rfl⟩, fun b _ => ?_⟩
      exact congrFun (recovered_of_empty h0) b
    · refine ⟨⟨hquiet, .inl (by rw [hopen]; rfl)⟩, fun b _ => ?_⟩
      obtain ⟨h1, h2⟩ := settled hinv hopen hquiet b
      rw [h1, h2]

theorem crash_recovers_quiet_one_call : ∃ w t, after (step mkfsLog) (boot blank) (List.replicate 3 .advance) = some w ∧
    after (step mkfsLog) w oneCall = some t ∧
    ∃ fs₁ fs₂ u, oneCall = fs₁ ++ fs₂ ∧ after (step mkfsLog) w fs₁ = some u ∧ Quiet u ∧
      (u.phase.recovering = false ∨ u = boot blank) ∧
      ∃ n r, after (step mkfsLog) t (.crash :: List.replicate n .advance) = some r ∧ r.phase = .opened ∧
        ∀ b, mkfsLog.Home b → r.view b = u.view b :=
  ⟨_, _, rfl, rfl, crash_recovers_quiet mkfsLog 9 (by decide) (by decide) blank rfl _ oneCall legal_oneCall _ _ rfl
    (.inr ⟨rfl, fun _ => rfl⟩) rfl⟩

/-! ## Progress -/

/-- What the processes that are in a call do to end it, and `commit`. -/
def Ev.ends : Ev → Bool
  | .append _ | .finish _ | .advance => true
  | _ => false

theorem advances_quiet (hsize : maxOpBlocks + 2 * m < L.size) (hm : m ≤ maxOpBlocks) (h : Inv L m s) (h0 : s.outstanding = 0) :
    ∃ n r, after (step L) s (List.replicate n .advance) = some r ∧ r.phase = .opened ∧ Quiet r ∧ Inv L m r := by
  obtain ⟨r, hr, hopen⟩ := advances_open (L := L) _ s rfl
  have hinv := inv_run hsize hm h (legal_advances _) hr
  refine ⟨_, r, hr, hopen, ?_, hinv⟩
  apply hinv.calls.quiet_iff.mp
  apply @after_inv _ _ (step L) (fun u => u.outstanding = 0) (fun _ e => e = .advance) _ _ _ r h0
    (fun x hx => List.eq_of_mem_replicate (mem_of_mem_trail hx)) hr
  rintro u e v hu rfl hv
  cases hv
  rw [advance_outstanding]
  exact hu

theorem drains (hsize : maxOpBlocks + 2 * m < L.size) (hm : m ≤ maxOpBlocks) : ∀ (n : Nat) (s : St), Inv L m s → s.outstanding = n →
    ∃ es r, (∀ e ∈ es, e.ends = true) ∧ (∀ x ∈ trail (step L) s es, Legal L m x.1 x.2) ∧
      after (step L) s es = some r ∧ r.phase = .opened ∧ Quiet r ∧ Inv L m r := by
  intro n
  induction n with
  | zero =>
    intro s h h0
    obtain ⟨n, r, hr, hrest⟩ := advances_quiet hsize hm h h0
    refine ⟨_, r, ?_, legal_advances n, hr, hrest⟩
    intro e he
    rw [List.eq_of_mem_replicate he]
    rfl
  | succ n ih =>
    -- a process in a call leaves `log_write`, then the call
    have hbusy : ∀ (s : St) (i : Slot) (mine : Finset Nat), Inv L m s → s.outstanding = n + 1 → s.procs i = .busy mine →
        ∃ es r, (∀ e ∈ es, e.ends = true) ∧ (∀ x ∈ trail (step L) s es, Legal L m x.1 x.2) ∧
          after (step L) s es = some r ∧ r.phase = .opened ∧ Quiet r ∧ Inv L m r := by
      intro s i mine h hn hi
      obtain ⟨hp, -⟩ := h.calls.opened (i := i) (by rw [hi]; rfl)
      have hlegal : Legal L m s (.finish i) := ⟨mine, hi⟩
      obtain ⟨t, ht, hout⟩ : ∃ t, step L s (.finish i) = some t ∧ t.outstanding = n := by
        simp only [step, endOp, hp, hn]
        by_cases h0 : n = 0
        · simp [h0]
        · simp [h0, wakeup]
      obtain ⟨es, r, hends, hleg, hafter, hr⟩ := ih t (inv_step hsize hm h hlegal ht).1 hout
      refine ⟨.finish i :: es, r, ?_, ?_, ?_, hr⟩
      · exact List.forall_mem_cons.mpr ⟨rfl, hends⟩
      · rw [trail_cons (step L) ht]
        exact List.forall_mem_cons.mpr ⟨hlegal, hleg⟩
      · simp only [after, ht, hafter]
    intro s h hn
    obtain ⟨i, hi⟩ : ∃ i, (s.procs i).inCall = true := by
      by_contra hall
      have h0 := h.calls.quiet_iff.mpr fun i => by simpa using not_exists.mp hall i
      omega
    cases hpi : s.procs i with
    | busy mine => exact hbusy s i mine h hn hpi
    | checked mine b data =>
      have hlegal : Legal L m s (.append i) := ⟨mine, b, data, hpi⟩
      have ht : step L s (.append i) = some (logAppend s i) := rfl
      obtain ⟨es, r, hends, hleg, hafter, hr⟩ := hbusy (logAppend s i) i (insert b mine) (inv_step hsize hm h hlegal ht).1
        (by simp only [logAppend, hpi, hn]) (by simp [logAppend, hpi])
      refine ⟨.append i :: es, r, ?_, ?_, ?_, hr⟩
      · exact List.forall_mem_cons.mpr ⟨rfl, hends⟩
      · rw [trail_cons (step L) ht]
        exact List.forall_mem_cons.mpr ⟨hlegal, hleg⟩
      · simp only [after, ht, hafter]
    | _ => simp [hpi, Proc.inCall] at hi

theorem calls_drain (L : Layout) (m : Nat) (hsize : maxOpBlocks + 2 * m < L.size) (hm : m ≤ maxOpBlocks)
    (disk : Nat → Block) (h0 : headBlocks (disk L.start) = []) (es : List Ev)
    (hlegal : ∀ x ∈ trail (step L) (boot disk) es, Legal L m x.1 x.2) (t : St)
    (ht : after (step L) (boot disk) es = some t) :
    ∃ fs r, (∀ e ∈ fs, e.ends = true) ∧ (∀ x ∈ trail (step L) t fs, Legal L m x.1 x.2) ∧ after (step L) t fs = some r ∧
      ¬ Full r ∧ (∀ i, (r.procs i).inCall = false ∧ r.procs i ≠ .waiting true) ∧
      ∀ b, r.disk b = r.view b := by
  have hinv := inv_run hsize hm (inv_start h0) hlegal ht
  obtain ⟨fs, r, hends, hleg, hafter, hopen, hquiet, hr⟩ := drains hsize hm _ t hinv rfl
  have hfull := not_full_of_quiet hr hopen hquiet
  refine ⟨fs, r, hends, hleg, hafter, hfull, ?_, fun b => (settled hr hopen hquiet b).2.symm⟩
  exact fun i => ⟨hquiet i, fun hi => hfull (hr.calls.asleep i hi)⟩

/-- Three processes are in calls, one of them in `log_write`, and a fourth waits for room. -/
def crowded : List Ev :=
  [.begin (author 0), .begin (author 10), .begin (author 20), .begin (author 30), .check (author 0) 40 (fun _ => 7), .append (author 0),
    .check (author 10) 41 (fun _ => 8)]

theorem legal_crowded : ∀ x ∈ trail (step mkfsLog) (boot blank) (List.replicate 3 .advance ++ crowded),
    Legal mkfsLog 9 x.1 x.2 := by
  show ∀ x ∈ [(_, _), (_, _), (_, _), (_, _), (_, _), (_, _), (_, _), (_, _), (_, _), (_, _)], _
  simp only [List.forall_mem_cons]
  exact ⟨trivial, trivial, trivial, ⟨.inl rfl, rfl⟩, ⟨.inl rfl, rfl⟩, ⟨.inl rfl, rfl⟩, ⟨.inl rfl, rfl⟩,
    ⟨∅, rfl, by decide, by decide, by decide⟩, ⟨∅, 40, _, rfl⟩, ⟨∅, rfl, by decide, by decide, by decide⟩, by simp⟩

theorem calls_drain_crowded : ∃ t, after (step mkfsLog) (boot blank) (List.replicate 3 .advance ++ crowded) = some t ∧
    t.outstanding = 3 ∧ t.procs (author 10) = .checked ∅ 41 (fun _ => 8) ∧ t.procs (author 30) = .waiting true ∧
    ∃ fs r, (∀ e ∈ fs, e.ends = true) ∧ (∀ x ∈ trail (step mkfsLog) t fs, Legal mkfsLog 9 x.1 x.2) ∧
      after (step mkfsLog) t fs = some r ∧ ¬ Full r ∧ (∀ i, (r.procs i).inCall = false ∧ r.procs i ≠ .waiting true) ∧
      ∀ b, r.disk b = r.view b :=
  ⟨_, rfl, rfl, rfl, rfl, calls_drain mkfsLog 9 (by decide) (by decide) blank rfl _ legal_crowded _ rfl⟩

/-! ## Panics -/

theorem step_some (hsize : maxOpBlocks + 2 * m + 1 < L.size) (hm : m < maxOpBlocks) (h : Inv L m s) {e : Ev}
    (hlegal : Legal L m s e) : ∃ t, step L s e = some t := by
  cases e with
  | check i b data =>
    obtain ⟨mine, hi, -⟩ := hlegal
    obtain ⟨-, hout⟩ := h.calls.opened (i := i) (by rw [hi]; rfl)
    have hshort := h.blocks.fits.short
    simp only [step, logCheck, hi]
    rw [if_neg, if_neg]
    · exact ⟨_, rfl⟩
    · omega
    · simp only [logSize, maxOpBlocks] at hm hsize hshort ⊢
      omega
  | finish i =>
    obtain ⟨mine, hi⟩ := hlegal
    obtain ⟨hp, -⟩ := h.calls.opened (i := i) (by rw [hi]; rfl)
    simp only [step, endOp, hp]
    rw [if_neg (not_not_intro rfl)]
    split
    · exact ⟨_, rfl⟩
    · exact ⟨_, rfl⟩
  | _ => exact ⟨_, rfl⟩

/-- Three processes are in calls; the first `k` of thirty blocks behind the log have been logged, ten by each. -/
structure Thirty (L : Layout) (k : Nat) (s : St) : Prop where
  outstanding : s.outstanding = 3
  length : s.lh.length = k
  below : ∀ b ∈ s.lh, b < L.start + L.size + k
  procs : ∀ i : Slot, i.val < 3 → ∃ mine, s.procs i = .busy mine ∧
    mine ⊆ Finset.Ico (L.start + L.size + 10 * i.val) (L.start + L.size + 10 * i.val + 10)

/-- The author of block `k` logs a block of its own, or the panic stops it. -/
theorem thirty_check {k j : Nat} (h : Thirty L k s) (hj : j < 30) (hbound : L.start + L.size + logSize ≤ 2 ^ 32) (data : Block) :
    Legal L maxOpBlocks s (.check (author j) (L.start + L.size + j) data) ∧
      ∀ t, step L s (.check (author j) (L.start + L.size + j) data) = some t →
        k < logSize ∧ ∃ mine, t.procs (author j) = .checked mine (L.start + L.size + j) data ∧
          insert (L.start + L.size + j) mine ⊆ Finset.Ico (L.start + L.size + 10 * (author j).val)
            (L.start + L.size + 10 * (author j).val + 10) ∧
          t.outstanding = 3 ∧ t.lh = s.lh ∧ ∀ i, i ≠ author j → t.procs i = s.procs i := by
  have hval := author_val hj
  obtain ⟨mine, hi, hsub⟩ := h.procs (author j) (by omega)
  have hinsert : insert (L.start + L.size + j) mine ⊆ Finset.Ico (L.start + L.size + 10 * (author j).val)
      (L.start + L.size + 10 * (author j).val + 10) := by
    apply Finset.insert_subset _ hsub
    rw [Finset.mem_Ico]
    omega
  refine ⟨⟨mine, hi, ?_, ?_, ?_⟩, ?_⟩
  · have := Finset.card_le_card hinsert
    rw [Nat.card_Ico] at this
    simp only [maxOpBlocks]
    omega
  · unfold Layout.Home
    omega
  · simp only [logSize, maxOpBlocks] at hbound
    omega
  · intro t ht
    simp only [step, logCheck, hi] at ht
    split at ht
    · cases ht
    · rename_i hfull
      rw [h.length] at hfull
      split at ht
      · cases ht
      · cases ht
        refine ⟨by omega, mine, by simp, hinsert, h.outstanding, rfl, ?_⟩
        intro i hne
        exact Function.update_of_ne hne ..

theorem thirty_append {k : Nat} (h : Thirty L k s) {t : St} {mine : Finset Nat} {data : Block}
    (hi : t.procs (author k) = .checked mine (L.start + L.size + k) data)
    (hsub : insert (L.start + L.size + k) mine ⊆ Finset.Ico (L.start + L.size + 10 * (author k).val)
      (L.start + L.size + 10 * (author k).val + 10))
    (hout : t.outstanding = 3) (hlh : t.lh = s.lh) (hrest : ∀ i, i ≠ author k → t.procs i = s.procs i) :
    Thirty L (k + 1) (logAppend t (author k)) := by
  have hnew : L.start + L.size + k ∉ t.lh := by
    intro hmem
    rw [hlh] at hmem
    have := h.below _ hmem
    omega
  unfold logAppend
  simp only [hi, hnew, if_false]
  refine ⟨hout, ?_, ?_, ?_⟩
  · rw [List.length_append, hlh, h.length, List.length_singleton]
  · intro b hb
    rw [hlh] at hb
    rcases List.mem_append.mp hb with hb | hb
    · have := h.below b hb
      omega
    · rw [List.mem_singleton.mp hb]
      omega
  · intro i hlt
    by_cases e : i = author k
    · subst e
      exact ⟨_, Function.update_self .., hsub⟩
    · obtain ⟨mine', hi', hsub'⟩ := h.procs i hlt
      exact ⟨mine', (Function.update_of_ne e ..).trans ((hrest i e).trans hi'), hsub'⟩

/-- The blocks from `k` on are logged, `n` of them, and then the last one once more. -/
def logRest (L : Layout) (data : Block) : Nat → Nat → List Ev
  | k, 0 => [.check (author (k - 1)) (L.start + L.size + (k - 1)) data]
  | k, n + 1 =>
    .check (author k) (L.start + L.size + k) data :: .append (author k) :: logRest L data (k + 1) n

theorem logRest_panics (hbound : L.start + L.size + logSize ≤ 2 ^ 32) (data : Block) : ∀ (n k : Nat) (s : St), Thirty L k s → k + n = 30 →
    (∀ x ∈ trail (step L) s (logRest L data k n), Legal L maxOpBlocks x.1 x.2) ∧
      after (step L) s (logRest L data k n) = none := by
  intro n
  induction n with
  | zero =>
    intro k s h hk
    obtain ⟨hlegal, hstep⟩ := thirty_check (j := k - 1) h (by omega) hbound data
    cases ht : step L s (.check (author (k - 1)) (L.start + L.size + (k - 1)) data) with
    | some t =>
      have := (hstep t ht).1
      simp only [logSize, maxOpBlocks] at this
      omega
    | none =>
      refine ⟨?_, by simp only [logRest, after, ht]⟩
      simp only [logRest]
      rw [trail_stop (step L) ht]
      simpa using hlegal
  | succ n ih =>
    intro k s h hk
    obtain ⟨hlegal, hstep⟩ := thirty_check (j := k) h (by omega) hbound data
    simp only [logRest]
    cases ht : step L s (.check (author k) (L.start + L.size + k) data) with
    | none =>
      refine ⟨?_, by simp only [after, ht]⟩
      rw [trail_stop (step L) ht]
      simpa using hlegal
    | some t =>
      obtain ⟨-, mine, hi, hsub, hout, hlh, hrest⟩ := hstep t ht
      have hnext := thirty_append h hi hsub hout hlh hrest
      obtain ⟨hleg, hnone⟩ := ih (k + 1) _ hnext (by omega)
      have happ : step L t (.append (author k)) = some (logAppend t (author k)) := rfl
      refine ⟨?_, by simp only [after, ht, happ, hnone]⟩
      rw [trail_cons (step L) ht, trail_cons (step L) happ]
      exact List.forall_mem_cons.mpr ⟨hlegal, List.forall_mem_cons.mpr ⟨⟨mine, _, data, hi⟩, hleg⟩⟩

/-- The first `k` processes have begun calls, on an open log. -/
structure Begun (k : Nat) (s : St) : Prop where
  phase : s.phase = .opened
  lh : s.lh = []
  outstanding : s.outstanding = k
  procs : ∀ i : Slot, i.val < k → s.procs i = .busy ∅
  free : ∀ i : Slot, k ≤ i.val → s.procs i = .out ∨ s.procs i = .waiting false

theorem begun_zero (h : Inv L m s) (hp : s.phase = .opened) (hq : Quiet s) : Begun 0 s := by
  have h0 := h.calls.quiet_iff.mpr hq
  refine ⟨hp, h.calls.idle hp h0, h0, fun i hi => absurd hi (Nat.not_lt_zero _), fun i _ => ?_⟩
  cases hi : s.procs i with
  | out => exact .inl rfl
  | waiting asleep =>
    cases asleep with
    | false => exact .inr rfl
    | true => exact absurd (h.calls.asleep i hi) (not_full_of_quiet h hp hq)
  | _ =>
    have := hq i
    rw [hi] at this
    cases this

theorem Begun.next {k : Nat} (h : Begun k s) (hk : k < 3) :
    Legal L maxOpBlocks s (.begin (author (10 * k))) ∧
      ∃ t, step L s (.begin (author (10 * k))) = some t ∧ Begun (k + 1) t := by
  have hval : (author (10 * k)).val = k := by
    rw [author_val (by omega)]
    omega
  have hfull : ¬ Full s := by
    rintro (hne | hgt)
    · exact hne h.phase
    · simp only [h.lh, h.outstanding, List.length_nil, logSize, maxOpBlocks] at hgt
      omega
  refine ⟨⟨h.free _ (by omega), by rw [h.phase]; rfl⟩, _, rfl, ?_⟩
  unfold beginOp
  rw [if_neg hfull]
  refine ⟨h.phase, h.lh, by rw [← h.outstanding], ?_, ?_⟩
  · intro i hi
    by_cases e : i = author (10 * k)
    · rw [e]
      exact Function.update_self ..
    · have hne : i.val ≠ (author (10 * k)).val := fun hv => e (Fin.ext hv)
      exact (Function.update_of_ne e ..).trans (h.procs i (by omega))
  · intro i hi
    have e : i ≠ author (10 * k) := by
      rintro rfl
      omega
    have hsame : Function.update s.procs (author (10 * k)) (.busy ∅) i = s.procs i := Function.update_of_ne e ..
    exact (h.free i (by omega)).imp hsame.trans hsame.trans

theorem Begun.thirty (h : Begun 3 s) : Thirty L 0 s := by
  refine ⟨h.outstanding, by rw [h.lh]; rfl, ?_, ?_⟩
  · intro b hb
    rw [h.lh] at hb
    cases hb
  · exact fun i hi => ⟨∅, h.procs i hi, Finset.empty_subset _⟩

/-- Three calls of ten blocks each, the last of which logs one of its own blocks again. -/
theorem three_calls_panic (hbound : L.start + L.size + logSize ≤ 2 ^ 32) (h : Begun 0 s) :
    ∃ es, (∀ x ∈ trail (step L) s es, Legal L maxOpBlocks x.1 x.2) ∧ after (step L) s es = none := by
  obtain ⟨hl1, t1, hs1, h1⟩ := h.next (L := L) (by omega)
  obtain ⟨hl2, t2, hs2, h2⟩ := h1.next (L := L) (by omega)
  obtain ⟨hl3, t3, hs3, h3⟩ := h2.next (L := L) (by omega)
  obtain ⟨hleg, hnone⟩ := logRest_panics hbound (fun _ => 0) 30 0 t3 h3.thirty rfl
  refine ⟨.begin (author (10 * 0)) :: .begin (author (10 * 1)) :: .begin (author (10 * 2)) ::
    logRest L (fun _ => 0) 0 30, ?_, ?_⟩
  · rw [trail_cons (step L) hs1, trail_cons (step L) hs2, trail_cons (step L) hs3]
    simp only [List.forall_mem_cons]
    exact ⟨hl1, hl2, hl3, hleg⟩
  · simp only [after, hs1, hs2, hs3]
    exact hnone

theorem never_panics_iff (L : Layout) (hsize : logSize ≤ L.size) (hbound : L.start + L.size + logSize ≤ 2 ^ 32) (m : Nat) :
    (∀ disk, headBlocks (disk L.start) = [] → ∀ es, (∀ x ∈ trail (step L) (boot disk) es, Legal L m x.1 x.2) →
      ∃ t, after (step L) (boot disk) es = some t) ↔ m < maxOpBlocks := by
  constructor
  · intro hall
    by_contra hge
    have h0 : headBlocks ((fun _ _ => 0 : Nat → Block) L.start) = [] := by
      simp [headBlocks, load_zero, toInt]
    -- the machine starts, and the log is open
    have hinv : Inv L 9 (boot fun _ _ => 0) := inv_start h0
    obtain ⟨n, r, hr, hopen, hquiet, hrinv⟩ := advances_quiet (by simp only [logSize, maxOpBlocks] at hsize ⊢; omega)
      (by decide) hinv rfl
    obtain ⟨es, hlegal, hnone⟩ := three_calls_panic hbound (begun_zero hrinv hopen hquiet)
    obtain ⟨t, ht⟩ := hall (fun _ _ => 0) h0 (List.replicate n .advance ++ es) (by
      rw [trail_append hr, List.forall_mem_append]
      exact ⟨legal_advances n, fun x hx => (hlegal x hx).mono (Nat.le_of_not_lt hge)⟩)
    rw [after_append hr, hnone] at ht
    cases ht
  · intro hlt disk h0 es hlegal
    have hroom : maxOpBlocks + 2 * m + 1 < L.size := by
      simp only [logSize, maxOpBlocks] at hsize hlt ⊢
      omega
    apply after_total (Inv L m) (Legal L m) _ es _ (inv_start h0) hlegal
    intro s e h hl
    obtain ⟨t, ht⟩ := step_some hroom hlt h hl
    exact ⟨t, ht, (inv_step (by omega) hlt.le h hl ht).1⟩

theorem never_panics_iff_mkfs :
    (∀ disk, headBlocks (disk mkfsLog.start) = [] → ∀ es, (∀ x ∈ trail (step mkfsLog) (boot disk) es, Legal mkfsLog 9 x.1 x.2) →
      ∃ t, after (step mkfsLog) (boot disk) es = some t) ↔ 9 < maxOpBlocks :=
  never_panics_iff mkfsLog (by decide) (by decide) 9

end

end CS5600.Xv6.Log
