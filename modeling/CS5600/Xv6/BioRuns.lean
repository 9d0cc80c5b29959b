/-
  CS5600.Xv6.BioRuns — whole runs of the buffer cache.

  In each run processes ask for blocks of a disk that is there and use only buffers that they have locked (`Proper`).

  (1) `cache_transparent`: where moreover the disk does not fail and a buffer that was changed is written or marked before
      it is released (`Legal`), whatever the order of the processes and interrupts, a buffer that `bread` has
      returned holds the block with all changes made to it so far, and no other process has a buffer for that
      block; a block whose changes are not on the disk is in a buffer that is locked or marked dirty.
  (2) `sleepers_served`: who sleeps for a lock sleeps for one that is held; who sleeps for the disk has been woken, with its
      request done, when NBUF interrupts have come, whatever other processes ask for in between.
  (3) `panics_iff`: the only panic is that of `bget`, for a block in no buffer while every buffer is referred to or dirty.
  (4) `failure_unnoticed`: a request on which the disk fails returns like any other. The buffer is valid and clean,
      and neither its data nor the disk have changed.
-/

import CS5600.Lib.Redo
import CS5600.Xv6.BioProofs

namespace CS5600.Xv6.Bio

open CS5600.Lib.Bytes CS5600.Lib.Chains CS5600.Lib.DoublyLinked CS5600.Lib.Redo CS5600.Lib.Runs

/-! ## binit -/

section

variable {disk : Tag → Mem}

theorem foldl_link {bs l : List Nat} (s : St) (h : Ring s.next s.prev l) (hnd : bs.Nodup) (hbs : ∀ b ∈ bs, b ∉ 0 :: l) :
    ∃ next prev, bs.foldl link s = { s with next := next, prev := prev } ∧ Ring next prev (bs.reverse ++ l) := by
  induction bs generalizing s l with
  | nil => exact ⟨s.next, s.prev, rfl, h⟩
  | cons b bs ih =>
    obtain ⟨hb, hnd⟩ := List.nodup_cons.mp hnd
    have hfront : Ring (link s b).next (link s b).prev (b :: l) := h.link (hbs b (List.mem_cons_self ..))
    have hrest : ∀ c ∈ bs, c ∉ 0 :: b :: l := by
      intro c hc
      have := hbs c (List.mem_cons_of_mem _ hc)
      simp only [List.mem_cons, not_or] at this ⊢
      refine ⟨this.1, ?_, this.2⟩
      rintro rfl
      exact hb hc
    obtain ⟨next, prev, he, hring⟩ := ih (link s b) hfront hnd hrest
    refine ⟨next, prev, he, ?_⟩
    rw [List.reverse_cons, List.append_assoc]
    exact hring

theorem binit_eq (disk : Tag → Mem) : ∃ next prev, binit disk = { zeroed disk with next := next, prev := prev } ∧
    Ring next prev (List.range' 1 nbuf).reverse := by
  have hempty : Ring (zeroed disk).next (zeroed disk).prev [] := ⟨rfl, rfl, by simp⟩
  have hbs : ∀ b ∈ List.range' 1 nbuf, b ∉ [0] := by
    intro b hb
    have := (List.mem_range'_1.mp hb).1
    rw [List.mem_singleton]
    omega
  obtain ⟨next, prev, he, hring⟩ := foldl_link (zeroed disk) hempty (List.nodup_range' ..) hbs
  rw [List.append_nil] at hring
  exact ⟨next, prev, he, hring⟩

theorem fsSize_pos : 0 < fsSize := by decide

theorem inv_binit (havedisk1 : Bool) : ∃ l q, Inv havedisk1 (binit disk) l q := by
  obtain ⟨next, prev, he, hring⟩ := binit_eq disk
  rw [he]
  refine ⟨_, [], ⟨hring, fun b => ?_, ?_, fun _ _ => ⟨fsSize_pos, .inl rfl⟩, ?_⟩, ⟨fun b _ => ?_, ?_, ?_, ?_, ?_, ?_⟩, ⟨rfl, ?_, ?_, rfl⟩⟩
  · rw [List.mem_reverse, List.mem_range'_1]
    unfold IsBuf
    omega
  · exact List.pairwise_of_forall fun _ _ _ => ⟨rfl, rfl, rfl⟩
  · rintro b - ⟨⟩
  · show 0 = 0 + ∑ _i : Slot, 0
    simp
  · rintro b i ⟨⟩
  · rintro i b ⟨⟩
  · rintro i b ⟨⟩
  · rintro i b ⟨⟩
  · rintro i b ⟨⟩
  · rintro b ⟨⟩
  · rintro i b a ⟨⟩

theorem data_binit (havedisk1 : Bool) : Data havedisk1 (binit disk) disk := by
  obtain ⟨next, prev, he, -⟩ := binit_eq disk
  rw [he]
  refine ⟨?_, ?_, fun _ _ _ => rfl⟩
  · rintro b - ⟨⟩
  · rintro b - ⟨⟨⟩, -⟩

end

/-! ## Runs -/

variable {havedisk1 : Bool} {disk : Tag → Mem} {es : List Ev} {t : St}

/-- The contents of the blocks after a run: each change is made when the process makes it. -/
def contents (havedisk1 : Bool) (disk : Tag → Mem) (es : List Ev) : Tag → Mem :=
  writeAll disk ((trail (step havedisk1) (binit disk) es).filterMap fun x => edit x.1 x.2)

theorem exists_inv_step {s u : St} {e : Ev} (h : ∃ l q, Inv havedisk1 s l q) (he : Proper havedisk1 s e)
    (hu : step havedisk1 s e = some u) : ∃ l q, Inv havedisk1 u l q := by
  obtain ⟨l, q, h⟩ := h
  obtain ⟨⟨l', q', h', -⟩, -⟩ := inv_step h he hu
  exact ⟨l', q', h'⟩

theorem inv_after (hl : ∀ x ∈ trail (step havedisk1) (binit disk) es, Proper havedisk1 x.1 x.2)
    (ht : after (step havedisk1) (binit disk) es = some t) : ∃ l q, Inv havedisk1 t l q :=
  after_inv (fun s => ∃ l q, Inv havedisk1 s l q) (Proper havedisk1) (fun _ _ _ h he hu => exists_inv_step h he hu) es _ t
    (inv_binit havedisk1) hl ht

theorem data_after (hl : ∀ x ∈ trail (step havedisk1) (binit disk) es, Legal havedisk1 x.1 x.2)
    (ht : after (step havedisk1) (binit disk) es = some t) : Data havedisk1 t (contents havedisk1 disk es) := by
  have hsim := after_sim (fun s => ∃ l q, Inv havedisk1 s l q) (Legal havedisk1) (Data havedisk1) put edit
    (fun s e u ⟨l, q, h⟩ he hu => ⟨exists_inv_step ⟨l, q, h⟩ he.proper hu, (inv_step h he.proper hu).2 he⟩) es _ t disk (inv_binit havedisk1) (data_binit havedisk1) hl ht
  unfold contents writeAll
  rw [List.foldl_filterMap]
  rw [List.foldl_map] at hsim
  convert hsim using 2
  funext M x
  cases edit x.1 x.2 with
  | none => rfl
  | some w => rfl

/-! ## What `bread` returns -/

/-- Callers see the blocks, each by one process at a time, and never the cache. -/
theorem cache_transparent (havedisk1 : Bool) (disk : Tag → Mem) (es : List Ev) (t : St)
    (hl : ∀ x ∈ trail (step havedisk1) (binit disk) es, Legal havedisk1 x.1 x.2)
    (ht : after (step havedisk1) (binit disk) es = some t) :
    -- a buffer that a process has got holds its block
    (∀ i b, t.procs i = .out → t.lock b = some i → t.data b = contents havedisk1 disk es (t.tag b)) ∧
    -- and no process has another one for it
    (∀ i j b c, t.lock b = some i → t.lock c = some j → t.tag b = t.tag c → b = c ∧ i = j) ∧
    -- what is not on the disk is in a buffer that is kept
    ∀ k, Present havedisk1 k → t.disk k ≠ contents havedisk1 disk es k →
      ∃ b, t.tag b = k ∧ t.data b = contents havedisk1 disk es k ∧ (t.dirty b = true ∨ t.lock b ≠ none) := by
  obtain ⟨l, q, h⟩ := inv_after (fun x hx => (hl x hx).proper) ht
  have hd := data_after hl ht
  refine ⟨fun i b hi hlock => ?_, fun i j b c hb hc htag => ?_, fun k hk hlag => ?_⟩
  · exact hd.cached b (h.users.locked b i hlock) (h.users.valid hlock hi)
  · have huse : ∀ b i, t.lock b = some i → ¬ t.Fresh b := by
      intro b i hb hf
      have := h.users.ref_of_locked hb
      have := hf.2.2
      omega
    obtain rfl := h.cached.unique (h.users.locked b i hb) (h.users.locked c j hc) htag (huse b i hb) (huse c j hc)
    exact ⟨rfl, Option.some_inj.mp (hb.symm.trans hc)⟩
  · by_contra hnone
    push Not at hnone
    apply hlag
    by_cases hcached : ∀ b, IsBuf b → t.tag b = k → t.valid b = false
    · exact hd.absent k hk hcached
    · push Not at hcached
      obtain ⟨b, hb, rfl, hv⟩ := hcached
      have hv : t.valid b = true := by simpa using hv
      obtain ⟨hdirty, hlock⟩ := hnone b rfl (hd.cached b hb hv)
      exact hd.synced b hb ⟨hv, by simpa using hdirty⟩ hlock

def first : Slot := ⟨0, nproc_pos⟩

/-- One process reads block 5 of disk 0. -/
def oneRead : List Ev := [.bread first (0, 5), .go first, .go first, .intr true, .go first]

/-- Each byte is the number of its block. -/
def numbered : Tag → Mem := fun k _ => UInt8.ofNat k.2

theorem legal_oneRead {n : Nat} {disk : Tag → Mem} :
    ∀ x ∈ trail (step havedisk1) (binit disk) (oneRead.take n), Legal havedisk1 x.1 x.2 := by
  intro x hx
  have hmem : x.2 ∈ oneRead := List.mem_of_mem_take (mem_of_mem_trail hx)
  obtain ⟨s, e⟩ := x
  simp only [oneRead, List.mem_cons, List.not_mem_nil, or_false] at hmem
  rcases hmem with rfl | rfl | rfl | rfl | rfl
  · exact ⟨by decide, .inl rfl⟩
  · trivial
  · trivial
  · rfl
  · trivial

theorem oneRead_ends : (after (step false) (binit numbered) (oneRead.take 5)).map (fun t => (t.procs first, t.lock 1)) =
    some (.out, some first) := by decide +kernel

theorem cache_transparent_one_read : ∃ t, after (step false) (binit numbered) (oneRead.take 5) = some t ∧
    t.data 1 = contents false numbered (oneRead.take 5) (t.tag 1) := by
  obtain ⟨t, ht, hends⟩ := Option.map_eq_some_iff.mp oneRead_ends
  rw [Prod.mk.injEq] at hends
  exact ⟨t, ht, (cache_transparent false numbered _ t legal_oneRead ht).1 first 1 hends.1 hends.2⟩

/-! ## Sleepers -/

/-- An interrupt. -/
def Ev.isIntr : Ev → Bool
  | .intr _ => true
  | _ => false

theorem bget_procs {s : St} {l : List Nat} {k : Tag} {p : Nat × St} (h : Cached havedisk1 s l) (hp : bget s k = some p) :
    p.2.procs = s.procs := by
  rw [bget_eq h] at hp
  cases hhit : l.find? fun b => decide (s.tag b = k) with
  | some b =>
    rw [hhit] at hp
    cases hp
    rfl
  | none =>
    rw [hhit] at hp
    obtain ⟨b, -, rfl⟩ := Option.map_eq_some_iff.mp hp
    rfl

/-- Only the interrupt wakes who sleeps for the disk. -/
theorem asleep_step {s u : St} {l q : List Nat} {i : Slot} {b : Nat} {e : Ev} (h : Inv havedisk1 s l q)
    (hp : Proper havedisk1 s e) (hu : step havedisk1 s e = some u) (he : e.isIntr = false) (hi : s.procs i = .syncing b true) :
    u.procs i = .syncing b true := by
  have hother : ∀ {j p}, s.procs j = p → p ≠ .syncing b true → i ≠ j := by
    intro j p hj hp e
    exact hp (hj.symm.trans (e ▸ hi))
  cases e with
  | bread j k =>
    simp only [step] at hu
    split at hu
    · rename_i hj
      cases hb : bget s k with
      | none =>
        rw [hb] at hu
        cases hu
      | some p =>
        rw [hb] at hu
        cases hu
        refine (Function.update_of_ne (hother hj (by simp)) ..).trans ?_
        rw [bget_procs h.cached hb, hi]
    · cases hu
      exact hi
  | go j =>
    simp only [step, go] at hu
    split at hu
    · rename_i c hj
      have hij := hother hj (by simp)
      cases hu
      unfold acquiresleep
      split
      all_goals exact (Function.update_of_ne hij ..).trans hi
    · rename_i c hj
      have hij := hother hj (by simp)
      cases hv : s.valid c with
      | false =>
        obtain ⟨_, _, _, heq⟩ := readBlock_spec h hj hv
        rw [heq] at hu
        cases hu
        exact (Function.update_of_ne hij ..).trans hi
      | true =>
        rw [readBlock, if_neg (by simp [hv])] at hu
        cases hu
        exact (Function.update_of_ne hij ..).trans hi
    · rename_i c hj
      have hij := hother hj (by simp)
      cases hu
      exact (Function.update_of_ne hij ..).trans hi
    · rename_i c hj
      have hij := hother hj (by simp)
      cases hu
      unfold leave
      dsimp only
      split
      all_goals exact (Function.update_of_ne hij ..).trans hi
    · cases hu
      exact hi
  | modify j c data =>
    cases hu
    split
    all_goals exact hi
  | pin j c =>
    cases hu
    split
    all_goals exact hi
  | bwrite j c =>
    simp only [step] at hu
    split at hu
    · rename_i hj
      obtain ⟨_, _, _, heq⟩ := bwrite_spec h hj hp
      rw [heq] at hu
      cases hu
      exact (Function.update_of_ne (hother hj (by simp)) ..).trans hi
    · cases hu
      exact hi
  | brelse j c =>
    simp only [step] at hu
    split at hu
    · rename_i hj
      unfold brelse at hu
      split at hu
      · cases hu
      · cases hu
        show Function.update (fun k => (s.procs k).unlocked c) j (.leaving c) i = _
        rw [Function.update_of_ne (hother hj (by simp))]
        exact unlocked_eq_syncing.mpr hi
    · cases hu
      exact hi
  | intr ok => cases he

/-- The interrupt wakes who sleeps for the first request, and no other. -/
theorem asleep_intr {s u : St} {l q : List Nat} {i : Slot} {b c : Nat} {ok : Bool} (h : Inv havedisk1 s l (c :: q))
    (hu : step havedisk1 s (.intr ok) = some u) (hi : s.procs i = .syncing b true) :
    u.procs i = .syncing b (decide (b ≠ c)) ∧ u.Synced c := by
  obtain ⟨v, heq, hprocs, hs⟩ := intr_done h ok
  rw [show step havedisk1 s (.intr ok) = some v from heq] at hu
  cases hu
  refine ⟨?_, hs⟩
  rw [hprocs, hi]
  rfl

/-- Each interrupt is one place in the queue, and others go behind. -/
theorem served {i : Slot} {b : Nat} : ∀ (fs : List Ev) (s u : St) (l q₁ q₂ : List Nat), Inv havedisk1 s l (q₁ ++ b :: q₂) →
    s.procs i = .syncing b true → (∀ x ∈ trail (step havedisk1) s fs, Proper havedisk1 x.1 x.2) →
    after (step havedisk1) s fs = some u → q₁.length < fs.countP Ev.isIntr →
    ∃ fs₁ fs₂ v, fs = fs₁ ++ fs₂ ∧ fs₁.countP Ev.isIntr = q₁.length + 1 ∧ after (step havedisk1) s fs₁ = some v ∧
      v.procs i = .syncing b false ∧ v.Synced b := by
  intro fs
  induction fs with
  | nil =>
    intro s u l q₁ q₂ _ _ _ _ hn
    cases hn
  | cons e fs ih =>
    intro s u l q₁ q₂ h hi hp hu hn
    cases he : step havedisk1 s e with
    | none => simp [after, he] at hu
    | some v =>
      rw [trail_cons _ he, List.forall_mem_cons] at hp
      simp only [after, he] at hu
      obtain ⟨⟨l', q', h', hq⟩, -⟩ := inv_step h hp.1 he
      rw [List.countP_cons] at hn
      -- the rest of the run, from a state in which it still sleeps
      have hrest : ∀ q₁' q₂', q' = q₁' ++ b :: q₂' → v.procs i = .syncing b true → q₁'.length < fs.countP Ev.isIntr →
          q₁'.length + (if e.isIntr then 1 else 0) = q₁.length →
          ∃ fs₁ fs₂ w, e :: fs = fs₁ ++ fs₂ ∧ fs₁.countP Ev.isIntr = q₁.length + 1 ∧ after (step havedisk1) s fs₁ = some w ∧
            w.procs i = .syncing b false ∧ w.Synced b := by
        intro q₁' q₂' hq' hv hcount hlen
        obtain ⟨fs₁, fs₂, w, rfl, hc, hw, hdone⟩ := ih v u l' q₁' q₂' (hq' ▸ h') hv hp.2 hu hcount
        refine ⟨e :: fs₁, fs₂, w, rfl, ?_, ?_, hdone⟩
        · rw [List.countP_cons]
          omega
        · simp only [after, he, hw]
      cases hk : e.isIntr with
      | true =>
        obtain ⟨ok, rfl⟩ : ∃ ok, e = .intr ok := by
          cases e with
          | intr ok => exact ⟨ok, rfl⟩
          | _ => cases hk
        have hq : q' = (q₁ ++ b :: q₂).tail := hq
        cases q₁ with
        | nil =>
          obtain ⟨hv, hs⟩ := asleep_intr h he hi
          refine ⟨[.intr ok], fs, v, rfl, rfl, by simp only [after, he], ?_, hs⟩
          rw [hv]
          simp
        | cons c q₁ =>
          obtain ⟨hv, -⟩ := asleep_intr h he hi
          have hne : b ≠ c := by
            have hnd := h.queue.linked.nodup
            rw [List.cons_append, List.nodup_cons] at hnd
            intro e
            exact hnd.1 (by simp [e])
          rw [if_pos hk, List.length_cons] at hn
          exact hrest q₁ q₂ hq (by rw [hv]; simp [hne]) (by omega) rfl
      | false =>
        have hv := asleep_step h hp.1 he hk hi
        rw [if_neg (by simp [hk]), Nat.add_zero] at hn
        have hq : q' = q₁ ++ b :: q₂ ∨ ∃ c, q' = q₁ ++ b :: q₂ ++ [c] := by
          cases e with
          | intr ok => cases hk
          | _ => exact hq
        rcases hq with hq | ⟨c, hq⟩
        · exact hrest q₁ q₂ hq hv hn (by simp [hk])
        · exact hrest q₁ (q₂ ++ [c]) (by rw [hq]; simp) hv hn (by simp [hk])

theorem sleepers_served (havedisk1 : Bool) (disk : Tag → Mem) (es : List Ev) (t : St)
    (hl : ∀ x ∈ trail (step havedisk1) (binit disk) es, Proper havedisk1 x.1 x.2)
    (ht : after (step havedisk1) (binit disk) es = some t) :
    (∀ i b, t.procs i = .locking b true → ∃ j, t.lock b = some j) ∧
    ∀ i b, t.procs i = .syncing b true → ∀ fs u, (∀ x ∈ trail (step havedisk1) t fs, Proper havedisk1 x.1 x.2) →
      after (step havedisk1) t fs = some u → nbuf ≤ fs.countP Ev.isIntr →
      ∃ fs₁ fs₂ v, fs = fs₁ ++ fs₂ ∧ fs₁.countP Ev.isIntr ≤ nbuf ∧ after (step havedisk1) t fs₁ = some v ∧
        v.procs i = .syncing b false ∧ v.Synced b := by
  obtain ⟨l, q, h⟩ := inv_after hl ht
  refine ⟨fun i b hi => Option.ne_none_iff_exists'.mp (h.users.asleep i b hi), fun i b hi fs u hp hu hn => ?_⟩
  have hb : b ∈ q := by
    rcases h.queue.queued i b true hi with hb | ⟨-, ha⟩
    · exact hb
    · cases ha
  have hlen : q.length < nbuf + 1 :=
    h.queue.linked.length_lt (Nat.succ_pos _) fun c hc => Nat.lt_succ_of_le (h.queue_bufs hc).2
  obtain ⟨q₁, q₂, rfl⟩ := List.append_of_mem hb
  rw [List.length_append, List.length_cons] at hlen
  obtain ⟨fs₁, fs₂, v, hfs, hc, hv⟩ := served fs t u l q₁ q₂ h hi hp hu (by omega)
  exact ⟨fs₁, fs₂, v, hfs, by omega, hv⟩

theorem oneRead_waits : (after (step false) (binit numbered) (oneRead.take 3)).map (fun t => (t.procs first, t.idequeue)) =
    some (.syncing 1 true, 1) := by decide +kernel

def second : Slot := ⟨1, one_lt_nproc⟩

/-- Another process reads block 7, and NBUF interrupts come, of which the first tells of an error. -/
def thenOther : List Ev := [.bread second (0, 7), .go second, .go second, .intr false] ++ List.replicate nbuf (.intr true)

theorem proper_thenOther {s : St} : ∀ x ∈ trail (step false) s thenOther, Proper false x.1 x.2 := by
  intro x hx
  have hmem := mem_of_mem_trail hx
  obtain ⟨s, e⟩ := x
  simp only [thenOther, List.mem_append, List.mem_cons, List.not_mem_nil, or_false, List.mem_replicate] at hmem
  rcases hmem with (rfl | rfl | rfl | rfl) | ⟨-, rfl⟩
  · exact ⟨by decide, .inl rfl⟩
  all_goals trivial

theorem thenOther_ends : (after (step false) (binit numbered) (oneRead.take 3 ++ thenOther)).isSome = true := by decide +kernel

theorem sleepers_served_one_read : ∃ t, after (step false) (binit numbered) (oneRead.take 3) = some t ∧
    ∃ fs₁ fs₂ v, thenOther = fs₁ ++ fs₂ ∧ fs₁.countP Ev.isIntr ≤ nbuf ∧ after (step false) t fs₁ = some v ∧
      v.procs first = .syncing 1 false ∧ v.Synced 1 := by
  obtain ⟨t, ht, hends⟩ := Option.map_eq_some_iff.mp oneRead_waits
  rw [Prod.mk.injEq] at hends
  obtain ⟨u, hu⟩ := Option.isSome_iff_exists.mp thenOther_ends
  rw [after_append ht] at hu
  exact ⟨t, ht, (sleepers_served false numbered _ t (fun x hx => (legal_oneRead x hx).proper) ht).2 first 1 hends.1 thenOther u
    proper_thenOther hu (by decide)⟩

/-! ## Panics -/

theorem panics_iff (havedisk1 : Bool) (disk : Tag → Mem) (es : List Ev) (t : St) (e : Ev)
    (hl : ∀ x ∈ trail (step havedisk1) (binit disk) es, Proper havedisk1 x.1 x.2)
    (ht : after (step havedisk1) (binit disk) es = some t) (he : Proper havedisk1 t e) :
    step havedisk1 t e = none ↔ ∃ i k, e = .bread i k ∧ t.procs i = .out ∧
      ∀ b, IsBuf b → t.tag b ≠ k ∧ (t.refcnt b ≠ 0 ∨ t.dirty b = true) := by
  obtain ⟨l, q, h⟩ := inv_after hl ht
  have hother : ∀ {e : Ev}, (∀ i k, e ≠ .bread i k) → step havedisk1 t e ≠ none →
      (step havedisk1 t e = none ↔ ∃ i k, e = .bread i k ∧ t.procs i = .out ∧
        ∀ b, IsBuf b → t.tag b ≠ k ∧ (t.refcnt b ≠ 0 ∨ t.dirty b = true)) := by
    intro e hne hsome
    refine iff_of_false hsome ?_
    rintro ⟨i, k, rfl, -⟩
    exact hne i k rfl
  cases e with
  | bread i k =>
    simp only [step]
    by_cases hi : t.procs i = .out
    · have hiff := bget_none_iff (k := k) h.cached
      rw [if_pos hi]
      cases hb : bget t k with
      | none =>
        rw [hb] at hiff
        exact iff_of_true rfl ⟨i, k, rfl, hi, hiff.mp rfl⟩
      | some p =>
        rw [hb] at hiff
        refine iff_of_false (Option.some_ne_none _) ?_
        rintro ⟨i', k', ⟨⟩, -, hall⟩
        exact Option.some_ne_none _ (hiff.mpr hall)
    · rw [if_neg hi]
      refine iff_of_false (Option.some_ne_none _) ?_
      rintro ⟨i', k', ⟨⟩, hout, -⟩
      exact hi hout
  | go i =>
    apply hother (fun _ _ => by rintro ⟨⟩)
    simp only [step, go]
    split
    · exact Option.some_ne_none _
    · rename_i b hi
      cases hv : t.valid b with
      | false =>
        obtain ⟨_, _, _, heq⟩ := readBlock_spec h hi hv
        rw [heq]
        exact Option.some_ne_none _
      | true =>
        rw [readBlock, if_neg (by simp [hv])]
        exact Option.some_ne_none _
    · exact Option.some_ne_none _
    · exact Option.some_ne_none _
    · exact Option.some_ne_none _
  | modify i b data => exact hother (fun _ _ => by rintro ⟨⟩) (Option.some_ne_none _)
  | pin i b => exact hother (fun _ _ => by rintro ⟨⟩) (Option.some_ne_none _)
  | bwrite i b =>
    apply hother (fun _ _ => by rintro ⟨⟩)
    simp only [step]
    split
    · rename_i hi
      obtain ⟨_, _, _, heq⟩ := bwrite_spec h hi he
      rw [heq]
      exact Option.some_ne_none _
    · exact Option.some_ne_none _
  | brelse i b =>
    apply hother (fun _ _ => by rintro ⟨⟩)
    have hlock : t.lock b = some i := he
    simp only [step]
    split
    · unfold brelse
      rw [if_neg (by rw [hlock]; simp)]
      exact Option.some_ne_none _
    · exact Option.some_ne_none _
  | intr ok =>
    apply hother (fun _ _ => by rintro ⟨⟩)
    simp only [step]
    cases q with
    | nil =>
      rw [intr_idle h]
      exact Option.some_ne_none _
    | cons b q =>
      obtain ⟨u, heq, -⟩ := intr_done h ok
      rw [heq]
      exact Option.some_ne_none _

theorem oneRead_leaves : (after (step false) (binit numbered) (oneRead.take 3)).map (fun t => (t.refcnt 2, t.dirty 2)) =
    some (0, false) := by decide +kernel

/-- While the first process waits for the disk, `bget` finds a buffer for another one. -/
theorem panics_iff_second_read : ∃ t, after (step false) (binit numbered) (oneRead.take 3) = some t ∧
    step false t (.bread second (0, 7)) ≠ none := by
  obtain ⟨t, ht, hends⟩ := Option.map_eq_some_iff.mp oneRead_leaves
  rw [Prod.mk.injEq] at hends
  refine ⟨t, ht, (panics_iff false numbered _ t (.bread second (0, 7)) (fun x hx => (legal_oneRead x hx).proper) ht
    ⟨by decide, .inl rfl⟩).not.mpr ?_⟩
  intro hall
  obtain ⟨i, k, -, -, hall⟩ := hall
  rcases (hall 2 ⟨by decide, by decide⟩).2 with href | hdirty
  · exact href hends.1
  · rw [hends.2] at hdirty
    cases hdirty

/-! ## A disk that fails -/

theorem failure_unnoticed (havedisk1 : Bool) (disk : Tag → Mem) (es : List Ev) (t : St)
    (hl : ∀ x ∈ trail (step havedisk1) (binit disk) es, Proper havedisk1 x.1 x.2)
    (ht : after (step havedisk1) (binit disk) es = some t) (h0 : t.idequeue ≠ 0) :
    ∃ i u, after (step havedisk1) t [.intr false, .go i] = some u ∧ u.procs i = .out ∧ u.lock t.idequeue = some i ∧
      u.Synced t.idequeue ∧ u.data t.idequeue = t.data t.idequeue ∧ u.disk = t.disk := by
  obtain ⟨l, q, h⟩ := inv_after hl ht
  cases q with
  | nil => exact absurd h.queue.linked h0
  | cons b q =>
    rw [show t.idequeue = b from h.queue.linked.1]
    obtain ⟨-, i, a, hi⟩ := h.queue.owner b (List.mem_cons_self ..)
    have hlock := h.users.works i b (by rw [hi]; exact decide_eq_true rfl)
    have hintr : step havedisk1 t (.intr false) = some { fail t b with ide := q.head?.map (fail t b).cmd } := intr_fail h
    have hwoken : ({ fail t b with ide := q.head?.map (fail t b).cmd } : St).procs i = .syncing b false := by
      show (t.procs i).synced b = _
      rw [hi]
      simp [Proc.synced]
    have hsynced : ({ fail t b with ide := q.head?.map (fail t b).cmd } : St).Synced b :=
      ⟨Function.update_self .., Function.update_self ..⟩
    generalize hu : ({ fail t b with ide := q.head?.map (fail t b).cmd } : St) = u at hintr hwoken hsynced
    refine ⟨i, await u i b, ?_, ?_, ?_, hsynced, ?_, ?_⟩
    · simp only [after, hintr]
      simp only [step, go, hwoken]
    · simp only [await, if_pos hsynced, Function.update_self]
    · rw [← hu]
      exact hlock
    · rw [← hu]
      rfl
    · rw [← hu]
      rfl

theorem failure_unnoticed_one_read : ∃ t, after (step false) (binit numbered) (oneRead.take 3) = some t ∧
    ∃ i u, after (step false) t [.intr false, .go i] = some u ∧ u.procs i = .out ∧ u.lock t.idequeue = some i ∧
      u.Synced t.idequeue ∧ u.data t.idequeue = t.data t.idequeue ∧ u.disk = t.disk := by
  obtain ⟨t, ht, hends⟩ := Option.map_eq_some_iff.mp oneRead_waits
  rw [Prod.mk.injEq] at hends
  exact ⟨t, ht, failure_unnoticed false numbered _ t (fun x hx => (legal_oneRead x hx).proper) ht (by rw [hends.2]; decide)⟩

end CS5600.Xv6.Bio
