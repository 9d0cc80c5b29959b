/-
  CS5600.Xv6.BioLog — the buffers that `log.c` is given are those of `bio.c`.

  `Xv6.Log` knows of the buffers only the data of the block that is cached, if it is, and whether it is dirty; its
  `bread`, `bwrite` and `reuse` are single steps. `cache_refines_log`: a run of the buffer cache, with all its
  processes, locks, lists and interrupts, does to the disk and the cached blocks of a device what a sequence of these
  steps does, one for each event that recycles a buffer, changes one or ends a request, and none for the others.
-/

import CS5600.Xv6.BioRuns
import CS5600.Xv6.Log

namespace CS5600.Xv6.Bio

open CS5600.Lib.Bytes CS5600.Lib.Chains CS5600.Lib.Runs

/-- What the log sees of one device. -/
structure Shows (d : Nat) (t : St) (s : Log.St) : Prop where
  disk : ∀ k, s.disk k = t.disk (d, k)
  cache : ∀ k x, s.cache k = some x ↔ ∃ b, IsBuf b ∧ t.tag b = (d, k) ∧ t.valid b = true ∧ t.data b = x
  dirty : ∀ k, s.dirty k = true → ∃ b, IsBuf b ∧ t.tag b = (d, k) ∧ t.dirty b = true

inductive Op where
  | none
  | bread (k : Nat)
  | reuse (k : Nat)
  | bwrite (k : Nat)
  /-- the caller changes the data in the buffer, and marks it in `log_write` -/
  | put (k : Nat) (data : Mem)
  | mark (k : Nat)

def Op.act (s : Log.St) : Op → Log.St
  | .none => s
  | .bread k => Log.bread s k
  | .reuse k => Log.reuse s k
  | .bwrite k => Log.bwrite s k (s.view k)
  | .put k data => { s with cache := Function.update s.cache k (some data) }
  | .mark k => { s with dirty := Function.update s.dirty k true }

/-- A step on a block, if it is one of the device. -/
def onDev (d : Nat) (k : Tag) (op : Nat → Op) : Op := if k.1 = d then op k.2 else .none

def opOf (d : Nat) (t : St) : Ev → Op
  | .bread i k =>
    if t.procs i = .out then
      match bget t k with
      | some (b, _) => if t.tag b ≠ k ∧ t.valid b = true then onDev d (t.tag b) .reuse else .none
      | none => .none
    else .none
  | .modify i b data => if t.procs i = .out then onDev d (t.tag b) fun k => .put k data else .none
  | .pin i b => if t.procs i = .out then onDev d (t.tag b) .mark else .none
  | .intr _ =>
    if t.idequeue = 0 then .none
    else onDev d (t.tag t.idequeue) (if t.dirty t.idequeue = true then .bwrite else .bread)
  | _ => .none

section

variable {havedisk1 : Bool} {d : Nat} {t u : St} {s : Log.St} {l q : List Nat} {i : Slot} {b : Nat}

/-- Blocks and their flags stay. -/
theorem Shows.keep (h : Shows d t s) (htag : u.tag = t.tag) (hvalid : u.valid = t.valid) (hdata : u.data = t.data)
    (hdisk : u.disk = t.disk) (hdirty : ∀ b, t.dirty b = true → u.dirty b = true) : Shows d u s := by
  refine ⟨?_, ?_, fun k hk => ?_⟩
  · rw [hdisk]
    exact h.disk
  · rw [htag, hvalid, hdata]
    exact h.cache
  · obtain ⟨b, hb, ht, hd⟩ := h.dirty k hk
    exact ⟨b, hb, by rw [htag, ht], hdirty b hd⟩

/-- A buffer that the log does not see. -/
def Silent (d : Nat) (t : St) (b : Nat) : Prop := (t.tag b).1 ≠ d ∨ (t.valid b = false ∧ t.dirty b = false)

theorem Shows.silent (h : Shows d t s) (hb : Silent d t b) (hub : Silent d u b) (htag : ∀ c, c ≠ b → u.tag c = t.tag c)
    (hvalid : ∀ c, c ≠ b → u.valid c = t.valid c) (hdata : ∀ c, c ≠ b → u.data c = t.data c)
    (hdirty : ∀ c, c ≠ b → u.dirty c = t.dirty c) (hdisk : ∀ k, u.disk (d, k) = t.disk (d, k)) : Shows d u s := by
  have hne : ∀ {v : St} {c k}, Silent d v b → v.tag c = (d, k) → v.valid c = true ∨ v.dirty c = true → c ≠ b := by
    rintro v c k hs hc hf rfl
    rcases hs with hs | ⟨h1, h2⟩
    · rw [hc] at hs
      exact hs rfl
    · rw [h1, h2] at hf
      rcases hf with hf | hf <;> cases hf
  refine ⟨fun k => (h.disk k).trans (hdisk k).symm, fun k x => (h.cache k x).trans ⟨?_, ?_⟩, fun k hk => ?_⟩
  · rintro ⟨c, hc, ht, hv, hx⟩
    have hcb := hne hb ht (.inl hv)
    exact ⟨c, hc, by rw [htag c hcb, ht], by rw [hvalid c hcb, hv], by rw [hdata c hcb, hx]⟩
  · rintro ⟨c, hc, ht, hv, hx⟩
    have hcb := hne hub ht (.inl hv)
    exact ⟨c, hc, by rw [← htag c hcb, ht], by rw [← hvalid c hcb, hv], by rw [← hdata c hcb, hx]⟩
  · obtain ⟨c, hc, ht, hd⟩ := h.dirty k hk
    have hcb := hne hb ht (.inr hd)
    exact ⟨c, hc, by rw [htag c hcb, ht], by rw [hdirty c hcb, hd]⟩

/-- No other valid buffer is for the block of a buffer in use. -/
theorem Inv.only (h : Inv havedisk1 t l q) {c : Nat} (hb : IsBuf b) (huse : ¬ t.Fresh b) (hc : IsBuf c) (hv : t.valid c = true)
    (htag : t.tag c = t.tag b) : c = b :=
  h.cached.unique hc hb htag (fun hf => by rw [hf.1] at hv; cases hv) huse

/-- A valid buffer for a block of the device is what the log sees of it. -/
theorem Shows.cached {k : Nat} (h : Shows d t s) (hb : IsBuf b) (hv : t.valid b = true) (htag : t.tag b = (d, k)) :
    s.cache k = some (t.data b) := (h.cache k _).mpr ⟨b, hb, htag, hv, rfl⟩

/-- One buffer for block `k` gets the data `x`; the log is told. -/
theorem Shows.assign {k : Nat} {x : Mem} {dirty : Nat → Bool} {disk : Nat → Mem} (h : Shows d t s) (hinv : Inv havedisk1 t l q)
    (hb : IsBuf b) (huse : ¬ t.Fresh b) (htag : t.tag b = (d, k)) (hutag : u.tag = t.tag) (hub : u.valid b = true)
    (hux : u.data b = x) (hvalid : ∀ c, c ≠ b → u.valid c = t.valid c) (hdata : ∀ c, c ≠ b → u.data c = t.data c)
    (hdisk : ∀ k, disk k = u.disk (d, k))
    (hdirty : ∀ k, dirty k = true → ∃ b, IsBuf b ∧ u.tag b = (d, k) ∧ u.dirty b = true) :
    Shows d u { s with disk := disk, cache := Function.update s.cache k (some x), dirty := dirty } := by
  refine ⟨hdisk, fun k' y => ?_, hdirty⟩
  rw [hutag]
  by_cases e : k' = k
  · subst e
    simp only [Function.update_self, Option.some_inj]
    constructor
    · rintro rfl
      exact ⟨b, hb, htag, hub, hux⟩
    · rintro ⟨c, hc, htc, hvc, rfl⟩
      have hcb : c = b := by
        by_contra hne
        rw [hvalid c hne] at hvc
        exact hne (hinv.only hb huse hc hvc (htc.trans htag.symm))
      rw [hcb, hux]
  · simp only [Function.update_of_ne e]
    have hne : ∀ c, t.tag c = (d, k') → c ≠ b := by
      rintro c hc rfl
      rw [htag] at hc
      cases hc
      exact e rfl
    rw [h.cache k' y]
    refine exists_congr fun c => and_congr_right fun _ => and_congr_right fun hc => ?_
    rw [hvalid c (hne c hc), hdata c (hne c hc)]

/-- `bget` recycles a buffer. -/
theorem shows_recycle {k : Tag} (h : Shows d t s) (hinv : Inv havedisk1 t l q) (hb : IsBuf b) (hclean : t.dirty b = false)
    (procs : Slot → Proc) : Shows d { recycle t b k with procs := procs }
      (Op.act s (if t.valid b = true then onDev d (t.tag b) .reuse else .none)) := by
  have hub : Silent d { recycle t b k with procs := procs } b := .inr ⟨Function.update_self .., Function.update_self ..⟩
  have hother : ∀ c, c ≠ b → (recycle t b k).tag c = t.tag c ∧ (recycle t b k).valid c = t.valid c ∧
      (recycle t b k).dirty c = t.dirty c :=
    fun c hc => ⟨Function.update_of_ne hc .., Function.update_of_ne hc .., Function.update_of_ne hc ..⟩
  have hsilent : Silent d t b → Shows d { recycle t b k with procs := procs } s := fun hs =>
    h.silent hs hub (fun c hc => (hother c hc).1) (fun c hc => (hother c hc).2.1) (fun _ _ => rfl)
      (fun c hc => (hother c hc).2.2) fun _ => rfl
  by_cases hv : t.valid b = true
  · rw [if_pos hv]
    by_cases hd : (t.tag b).1 = d
    · obtain ⟨k₀, htag⟩ : ∃ k₀, t.tag b = (d, k₀) := ⟨_, Prod.ext hd rfl⟩
      have huse : ¬ t.Fresh b := fun hf => by rw [hf.1] at hv; cases hv
      have hnotdirty : s.dirty k₀ = false := by
        by_contra hk
        obtain ⟨c, hc, htc, hdc⟩ := h.dirty k₀ (by simpa using hk)
        obtain rfl := hinv.only hb huse hc (hinv.cached.dirty c hc hdc) (htc.trans htag.symm)
        rw [hclean] at hdc
        cases hdc
      simp only [onDev, htag, if_true, Op.act, Log.reuse, hnotdirty]
      refine ⟨h.disk, fun k' x => ?_, fun k' hk' => ?_⟩
      · by_cases e : k' = k₀
        · subst e
          simp only [Bool.false_eq_true, if_false, Function.update_self, reduceCtorEq, false_iff]
          rintro ⟨c, hc, htc, hvc, -⟩
          have hcb : c ≠ b := by
            rintro rfl
            simp [recycle] at hvc
          obtain ⟨h1, h2, -⟩ := hother c hcb
          exact hcb (hinv.only hb huse hc (h2.symm.trans hvc) ((h1.symm.trans htc).trans htag.symm))
        · simp only [Bool.false_eq_true, if_false, Function.update_of_ne e]
          rw [h.cache k' x]
          constructor
          · rintro ⟨c, hc, htc, hvc, hx⟩
            have hcb : c ≠ b := by
              rintro rfl
              rw [htag] at htc
              cases htc
              exact e rfl
            obtain ⟨h1, h2, -⟩ := hother c hcb
            exact ⟨c, hc, h1.trans htc, h2.trans hvc, hx⟩
          · rintro ⟨c, hc, htc, hvc, hx⟩
            have hcb : c ≠ b := by
              rintro rfl
              simp [recycle] at hvc
            obtain ⟨h1, h2, -⟩ := hother c hcb
            exact ⟨c, hc, h1.symm.trans htc, h2.symm.trans hvc, hx⟩
      · obtain ⟨c, hc, htc, hdc⟩ := h.dirty k' hk'
        have hcb : c ≠ b := by
          rintro rfl
          rw [hclean] at hdc
          cases hdc
        obtain ⟨h1, -, h3⟩ := hother c hcb
        exact ⟨c, hc, h1.trans htc, h3.trans hdc⟩
    · rw [onDev, if_neg hd]
      exact hsilent (.inl hd)
  · rw [if_neg hv]
    exact hsilent (.inr ⟨by simpa using hv, hclean⟩)

/-- A caller changes a block. -/
theorem shows_modify (h : Shows d t s) (hinv : Inv havedisk1 t l q) (hi : t.procs i = .out) (hl : t.lock b = some i) (data : Mem) :
    Shows d { t with data := Function.update t.data b data } (Op.act s (onDev d (t.tag b) fun k => .put k data)) := by
  have hv := hinv.users.valid hl hi
  have hother : ∀ c, c ≠ b → Function.update t.data b data c = t.data c := fun c hc => Function.update_of_ne hc ..
  by_cases hd : (t.tag b).1 = d
  · have htag : t.tag b = (d, (t.tag b).2) := Prod.ext hd rfl
    rw [onDev, if_pos hd]
    exact h.assign hinv (hinv.users.locked b i hl) (fun hf => by rw [hf.1] at hv; cases hv) htag rfl hv
      (Function.update_self ..) (fun _ _ => rfl) hother h.disk h.dirty
  · rw [onDev, if_neg hd]
    exact h.silent (.inl hd) (.inl hd) (fun _ _ => rfl) (fun _ _ => rfl) hother (fun _ _ => rfl) fun _ => rfl

theorem shows_pin (h : Shows d t s) (hb : IsBuf b) :
    Shows d { t with dirty := Function.update t.dirty b true } (Op.act s (onDev d (t.tag b) .mark)) := by
  have hmono : ∀ c, t.dirty c = true → Function.update t.dirty b true c = true := by
    intro c hc
    rw [Function.update_apply]
    split
    · rfl
    · exact hc
  by_cases hd : (t.tag b).1 = d
  · rw [onDev, if_pos hd]
    refine ⟨h.disk, h.cache, fun k hk => ?_⟩
    simp only [Op.act, Function.update_apply] at hk
    split at hk
    · rename_i e
      exact ⟨b, hb, Prod.ext hd e.symm, Function.update_self ..⟩
    · obtain ⟨c, hc, htc, hdc⟩ := h.dirty k hk
      exact ⟨c, hc, htc, hmono c hdc⟩
  · rw [onDev, if_neg hd]
    exact h.keep rfl rfl rfl rfl hmono

/-- A request is done. -/
theorem shows_finish (h : Shows d t s) (hinv : Inv havedisk1 t l (b :: q)) (ide : Option Cmd) :
    Shows d { finish t b with ide := ide }
      (Op.act s (onDev d (t.tag b) (if t.dirty b = true then .bwrite else .bread))) := by
  have hb := hinv.queue_bufs (List.mem_cons_self ..)
  obtain ⟨j, hlock⟩ := hinv.queue.locked hinv.users (List.mem_cons_self ..)
  have huse : ¬ t.Fresh b := by
    intro hf
    have := hf.2.2
    have := hinv.users.ref_of_locked hlock
    omega
  have hvalid : ∀ c, c ≠ b → (finish t b).valid c = t.valid c := fun c hc => Function.update_of_ne hc ..
  have hdirty : ∀ c, c ≠ b → (finish t b).dirty c = t.dirty c := fun c hc => Function.update_of_ne hc ..
  have hdata : ∀ c, c ≠ b → (finish t b).data c = t.data c := by
    intro c hc
    simp only [finish]
    split
    · exact Function.update_of_ne hc ..
    · rfl
  by_cases hd : (t.tag b).1 = d
  · obtain ⟨k, htag⟩ : ∃ k, t.tag b = (d, k) := ⟨_, Prod.ext hd rfl⟩
    -- the marks of other blocks are in other buffers
    have hmarks : ∀ k', k' ≠ k → s.dirty k' = true → ∃ c, IsBuf c ∧ t.tag c = (d, k') ∧ (finish t b).dirty c = true := by
      intro k' hk' hdk
      obtain ⟨c, hc, htc, hdc⟩ := h.dirty k' hdk
      have hcb : c ≠ b := by
        rintro rfl
        rw [htag] at htc
        cases htc
        exact hk' rfl
      exact ⟨c, hc, htc, (hdirty c hcb).trans hdc⟩
    rw [htag, onDev, if_pos rfl]
    cases hdb : t.dirty b with
    | true =>
      have hv := hinv.cached.dirty b hb hdb
      have hview : s.view k = t.data b := by
        unfold Log.St.view
        rw [h.cached hb hv htag]
        rfl
      have hsame : (finish t b).data b = t.data b := by
        simp only [finish, hdb]
        rfl
      rw [if_pos rfl]
      simp only [Op.act, Log.bwrite, hview]
      refine h.assign hinv hb huse htag rfl (Function.update_self ..) hsame hvalid hdata (fun k' => ?_) fun k' hk' => ?_
      · simp only [finish, hdb, if_true, htag, Function.update_apply, Prod.mk.injEq, true_and]
        split
        · rfl
        · exact h.disk k'
      · rw [Function.update_apply] at hk'
        split at hk'
        · cases hk'
        · rename_i e
          exact hmarks k' e hk'
    | false =>
      have hv : t.valid b = false := by
        by_contra hv
        exact (hinv.queue.owner b (List.mem_cons_self ..)).1 ⟨by simpa using hv, hdb⟩
      have hnone : s.cache k = none := by
        by_contra hk
        obtain ⟨x, hx⟩ := Option.ne_none_iff_exists'.mp hk
        obtain ⟨c, hc, htc, hvc, -⟩ := (h.cache k x).mp hx
        obtain rfl := hinv.only hb huse hc hvc (htc.trans htag.symm)
        rw [hv] at hvc
        cases hvc
      have hview : s.view k = t.disk (d, k) := by
        unfold Log.St.view
        rw [hnone, ← h.disk k]
        rfl
      have hread : (finish t b).data b = t.disk (d, k) := by
        simp only [finish, hdb, if_true, Function.update_self, htag]
      have hclean : s.dirty k = false := by
        by_contra hk
        obtain ⟨c, hc, htc, hdc⟩ := h.dirty k (by simpa using hk)
        obtain rfl := hinv.only hb huse hc (hinv.cached.dirty c hc hdc) (htc.trans htag.symm)
        rw [hdb] at hdc
        cases hdc
      rw [if_neg (by decide)]
      simp only [Op.act, Log.bread, hview]
      refine h.assign hinv hb huse htag rfl (Function.update_self ..) hread hvalid hdata (fun k' => ?_) fun k' hk' => ?_
      · simp only [finish, hdb]
        exact h.disk k'
      · refine hmarks k' ?_ hk'
        rintro rfl
        rw [hclean] at hk'
        cases hk'
  · rw [onDev, if_neg hd]
    refine h.silent (.inl hd) (.inl hd) (fun _ _ => rfl) hvalid hdata hdirty fun k => ?_
    simp only [finish]
    split
    · refine Function.update_of_ne ?_ ..
      intro e
      exact hd (by rw [← e])
    · rfl

end

/-! ## Every event -/

variable {havedisk1 : Bool} {d : Nat} {t u : St} {l q : List Nat} {e : Ev}

theorem shows_step (h : Inv havedisk1 t l q) (hl : Legal havedisk1 t e) (hu : step havedisk1 t e = some u) (s : Log.St)
    (hs : Shows d t s) : Shows d u (Op.act s (opOf d t e)) := by
  have hsame : ∀ {v : St}, v.tag = t.tag → v.valid = t.valid → v.data = t.data → v.disk = t.disk → v.dirty = t.dirty →
      Shows d v s := fun h1 h2 h3 h4 h5 => hs.keep h1 h2 h3 h4 fun _ hb => by rw [h5]; exact hb
  cases e with
  | bread i k =>
    simp only [step] at hu
    simp only [opOf]
    split at hu
    · rename_i hi
      rw [if_pos hi]
      rw [bget_eq h.cached] at hu ⊢
      cases hhit : l.find? fun b => decide (t.tag b = k) with
      | some b =>
        have htag : t.tag b = k := by simpa using List.find?_some hhit
        rw [hhit] at hu
        cases hu
        simp only [htag, ne_eq, not_true_eq_false, false_and, if_false]
        exact hsame rfl rfl rfl rfl rfl
      | none =>
        rw [hhit] at hu
        cases hmiss : l.reverse.find? fun b => decide (t.refcnt b = 0 ∧ t.dirty b = false) with
        | none =>
          rw [hmiss] at hu
          cases hu
        | some b =>
          rw [hmiss] at hu
          cases hu
          have hb := (h.cached.mem b).mp (List.mem_reverse.mp (List.mem_of_find?_eq_some hmiss))
          have hfree : t.refcnt b = 0 ∧ t.dirty b = false := by simpa using List.find?_some hmiss
          have htag : t.tag b ≠ k := by simpa using List.find?_eq_none.mp hhit b ((h.cached.mem b).mpr hb)
          simp only [Option.map_some, htag, ne_eq, not_false_eq_true, true_and]
          exact shows_recycle hs h hb hfree.2 _
    · rename_i hi
      cases hu
      rw [if_neg hi]
      exact hs
  | go i =>
    simp only [step, go] at hu
    split at hu
    · cases hu
      unfold acquiresleep
      split
      all_goals exact hsame rfl rfl rfl rfl rfl
    · rename_i b hi
      cases hv : t.valid b with
      | false =>
        obtain ⟨_, _, _, heq⟩ := readBlock_spec h hi hv
        rw [heq] at hu
        cases hu
        exact hsame rfl rfl rfl rfl rfl
      | true =>
        rw [readBlock, if_neg (by simp [hv])] at hu
        cases hu
        exact hsame rfl rfl rfl rfl rfl
    · cases hu
      exact hsame rfl rfl rfl rfl rfl
    · cases hu
      unfold leave
      dsimp only
      split
      all_goals exact hsame rfl rfl rfl rfl rfl
    · cases hu
      exact hs
  | modify i b data =>
    cases hu
    simp only [opOf]
    split
    · rename_i hi
      exact shows_modify hs h hi hl data
    · exact hs
  | pin i b =>
    cases hu
    simp only [opOf]
    split
    · exact shows_pin hs (h.users.locked b i hl)
    · exact hs
  | bwrite i b =>
    simp only [step] at hu
    split at hu
    · rename_i hi
      obtain ⟨_, _, _, heq⟩ := bwrite_spec h hi hl
      rw [heq] at hu
      cases hu
      refine hs.keep rfl rfl rfl rfl fun c hc => ?_
      simp only [Function.update_apply]
      split
      · rfl
      · exact hc
    · cases hu
      exact hs
  | brelse i b =>
    simp only [step] at hu
    split at hu
    · unfold brelse at hu
      split at hu
      · cases hu
      · cases hu
        exact hsame rfl rfl rfl rfl rfl
    · cases hu
      exact hs
  | intr ok =>
    obtain rfl : ok = true := hl
    cases q with
    | nil =>
      have h0 : t.idequeue = 0 := h.queue.linked
      have hide : t.ide = none := h.queue.ide
      simp only [step, ideintr, opOf, if_pos h0] at hu ⊢
      rw [if_pos (show (execute t true).idequeue = 0 from h0)] at hu
      cases hu
      refine hsame rfl rfl rfl ?_ rfl
      show t.written true = _
      unfold St.written
      rw [hide]
    | cons b q =>
      rw [show step havedisk1 t (.intr true) = _ from intr_spec h] at hu
      cases hu
      have hb := h.queue_bufs (List.mem_cons_self ..)
      have hhead : t.idequeue = b := h.queue.linked.1
      simp only [opOf, hhead, if_neg hb.1]
      exact shows_finish hs h _

/-- The cache under the log: a run of `bio.c` and `ide.c` is a sequence of the steps that `Xv6.Log` knows. -/
theorem cache_refines_log (havedisk1 : Bool) (d : Nat) (disk : Tag → Mem) (es : List Ev) (t : St)
    (hl : ∀ x ∈ trail (step havedisk1) (binit disk) es, Legal havedisk1 x.1 x.2)
    (ht : after (step havedisk1) (binit disk) es = some t) :
    Shows d t (((trail (step havedisk1) (binit disk) es).map fun x => opOf d x.1 x.2).foldl Op.act
      (Log.boot fun k => disk (d, k))) := by
  refine after_sim (fun s => ∃ l q, Inv havedisk1 s l q) (Legal havedisk1) (Shows d) Op.act (opOf d) ?_ es _ t _
    (inv_binit havedisk1) ?_ hl ht
  · rintro s e u ⟨l, q, h⟩ he hu
    exact ⟨exists_inv_step ⟨l, q, h⟩ he.proper hu, fun r hr => shows_step h he hu r hr⟩
  · obtain ⟨next, prev, hb, -⟩ := binit_eq disk
    rw [hb]
    refine ⟨fun _ => rfl, fun k x => ⟨?_, ?_⟩, ?_⟩
    · rintro ⟨⟩
    · rintro ⟨b, -, -, ⟨⟩, -⟩
    · rintro k ⟨⟩

theorem cache_refines_log_one_read : ∃ t, after (step false) (binit numbered) (oneRead.take 5) = some t ∧
    Shows 0 t (((trail (step false) (binit numbered) (oneRead.take 5)).map fun x => opOf 0 x.1 x.2).foldl Op.act
      (Log.boot fun k => numbered (0, k))) := by
  obtain ⟨t, ht, -⟩ := Option.map_eq_some_iff.mp oneRead_ends
  exact ⟨t, ht, cache_refines_log false 0 numbered _ t legal_oneRead ht⟩

end CS5600.Xv6.Bio
