/-
  CS5600.Xv6.BioProofs — what every event keeps of the buffer cache.

  Three invariants of the structure: the ring of buffers, with at most one in use for a block (`Cached`); references,
  locks and those who wait for one (`Users`); the queue of the disk (`Queue`). `Data s M` says that the cache
  and the disk together hold the blocks `M`.
-/

import CS5600.Lib.Slots
import CS5600.Xv6.Bio

namespace CS5600.Xv6.Bio

open CS5600.Lib.Bytes CS5600.Lib.Chains CS5600.Lib.DoublyLinked CS5600.Lib.Runs CS5600.Lib.Slots

def IsBuf (b : Nat) : Prop := b ≠ 0 ∧ b ≤ nbuf

/-- In no use since `binit`. -/
def St.Fresh (s : St) (b : Nat) : Prop := s.valid b = false ∧ s.dirty b = false ∧ s.refcnt b = 0

/-- `l` are the buffers in the order of `next`. All of them start as block 0 of device 0; of those with one block,
only the first can be in use. -/
structure Cached (havedisk1 : Bool) (s : St) (l : List Nat) : Prop where
  ring : Ring s.next s.prev l
  mem : ∀ b, b ∈ l ↔ IsBuf b
  order : l.Pairwise fun x y => s.tag x = s.tag y → s.Fresh y
  present : ∀ b, IsBuf b → Present havedisk1 (s.tag b)
  dirty : ∀ b, IsBuf b → s.dirty b = true → s.valid b = true

/-- References of one who does not hold the lock. -/
def Proc.refs (b : Nat) : Proc → Nat
  | .locking c _ => if c = b then 1 else 0
  | .leaving c => if c = b then 1 else 0
  | _ => 0

/-- Between locking `b` and the return of `bread`, or in `bwrite`. -/
def Proc.works (b : Nat) : Proc → Bool
  | .locked c => decide (c = b)
  | .syncing c _ => decide (c = b)
  | _ => false

def Proc.buf : Proc → Option Nat
  | .out => none
  | .locking b _ => some b
  | .locked b => some b
  | .syncing b _ => some b
  | .leaving b => some b

def holders (o : Option Slot) : Nat := if o.isSome then 1 else 0

structure Users (s : St) : Prop where
  refcnt : ∀ b, IsBuf b → s.refcnt b = holders (s.lock b) + ∑ i, (s.procs i).refs b
  locked : ∀ b i, s.lock b = some i → IsBuf b
  place : ∀ i b, (s.procs i).buf = some b → IsBuf b
  works : ∀ i b, (s.procs i).works b = true → s.lock b = some i
  held : ∀ i b, s.lock b = some i → (s.procs i).works b = false → s.valid b = true
  asleep : ∀ i b, s.procs i = .locking b true → s.lock b ≠ none

/-- `q` are the buffers in the order of `qnext`; the disk has the command for the first. -/
structure Queue (s : St) (q : List Nat) : Prop where
  linked : Linked s.qnext s.idequeue q
  owner : ∀ b ∈ q, ¬ s.Synced b ∧ ∃ i a, s.procs i = .syncing b a
  queued : ∀ i b a, s.procs i = .syncing b a → b ∈ q ∨ (s.Synced b ∧ a = false)
  ide : s.ide = q.head?.map s.cmd

structure Data (havedisk1 : Bool) (s : St) (M : Tag → Mem) : Prop where
  cached : ∀ b, IsBuf b → s.valid b = true → s.data b = M (s.tag b)
  synced : ∀ b, IsBuf b → s.Synced b → s.lock b = none → s.disk (s.tag b) = M (s.tag b)
  absent : ∀ k, Present havedisk1 k → (∀ b, IsBuf b → s.tag b = k → s.valid b = false) → s.disk k = M k

structure Inv (havedisk1 : Bool) (s : St) (l q : List Nat) : Prop where
  cached : Cached havedisk1 s l
  users : Users s
  queue : Queue s q

/-! ## The parts one by one -/

section

variable {havedisk1 : Bool} {s t : St} {l q : List Nat} {M : Tag → Mem} {i : Slot} {b : Nat}

theorem Cached.ne_zero (h : Cached havedisk1 s l) (hb : b ∈ l) : b ≠ 0 := ((h.mem b).mp hb).1

theorem Cached.length (h : Cached havedisk1 s l) : l.length < nbuf + 1 :=
  h.ring.forward.length_lt (Nat.succ_pos _) fun b hb => Nat.lt_succ_of_le ((h.mem b).mp hb).2

/-- No two buffers in use are for one block. -/
theorem Cached.unique (h : Cached havedisk1 s l) {c : Nat} (hb : IsBuf b) (hc : IsBuf c) (htag : s.tag b = s.tag c)
    (hfb : ¬ s.Fresh b) (hfc : ¬ s.Fresh c) : b = c := by
  by_contra hne
  have hsymm : l.Pairwise fun x y => s.tag x = s.tag y → s.Fresh x ∨ s.Fresh y := h.order.imp fun hxy e => .inr (hxy e)
  have : Std.Symm fun x y => s.tag x = s.tag y → s.Fresh x ∨ s.Fresh y := ⟨fun _ _ hxy e => (hxy e.symm).symm⟩
  exact (hsymm.forall ((h.mem b).mpr hb) ((h.mem c).mpr hc) hne htag).elim hfb hfc

/-- Where tags and the ring stay, a buffer that was not in use is not in use. -/
theorem Cached.keep (h : Cached havedisk1 s l) (hnext : t.next = s.next) (hprev : t.prev = s.prev) (htag : t.tag = s.tag)
    (hfresh : ∀ b, IsBuf b → s.Fresh b → t.Fresh b) (hdirty : ∀ b, IsBuf b → t.dirty b = true → t.valid b = true) :
    Cached havedisk1 t l := by
  refine ⟨?_, h.mem, ?_, ?_, hdirty⟩
  · rw [hnext, hprev]
    exact h.ring
  · rw [htag]
    exact h.order.imp_of_mem fun _ hy hxy e => hfresh _ ((h.mem _).mp hy) (hxy e)
  · rw [htag]
    exact h.present

theorem Users.ref_of_locked (h : Users s) (hl : s.lock b = some i) : 0 < s.refcnt b := by
  rw [h.refcnt b (h.locked b i hl), hl]
  exact Nat.lt_of_lt_of_le Nat.one_pos (Nat.le_add_right _ _)

theorem Users.ref_of_refs (h : Users s) (hb : IsBuf b) (hr : 0 < (s.procs i).refs b) : 0 < s.refcnt b := by
  rw [h.refcnt b hb]
  have : (s.procs i).refs b ≤ ∑ j, (s.procs j).refs b :=
    Finset.single_le_sum (f := fun j => (s.procs j).refs b) (fun _ _ => Nat.zero_le _) (Finset.mem_univ i)
  omega

theorem Users.free_of_zero (h : Users s) (h0 : s.refcnt b = 0) : s.lock b = none := by
  by_contra hl
  obtain ⟨j, hj⟩ := Option.ne_none_iff_exists'.mp hl
  have := h.ref_of_locked hj
  omega

theorem Queue.locked (h : Queue s q) (hu : Users s) (hb : b ∈ q) : ∃ j, s.lock b = some j := by
  obtain ⟨-, j, a, hj⟩ := h.owner b hb
  exact ⟨j, hu.works j b (by rw [hj]; exact decide_eq_true rfl)⟩

/-- A buffer whose lock is held outside the queue. -/
theorem Queue.notMem (h : Queue s q) (hu : Users s) (hl : s.lock b = some i) (hi : ∀ a, s.procs i ≠ .syncing b a) :
    b ∉ q := by
  intro hb
  obtain ⟨-, j, a, hj⟩ := h.owner b hb
  have hlj := hu.works j b (by rw [hj]; exact decide_eq_true rfl)
  rw [hl] at hlj
  cases hlj
  exact hi a hj

/-- One process moves; no lock changes hands. -/
theorem Users.move {x : Proc} (h : Users s) (hlock : t.lock = s.lock) (hprocs : t.procs = Function.update s.procs i x)
    (hrefcnt : ∀ b, IsBuf b → t.refcnt b + (s.procs i).refs b = s.refcnt b + x.refs b)
    (hplace : ∀ b, x.buf = some b → IsBuf b) (hworks : ∀ b, x.works b = true → s.lock b = some i)
    (hheld : ∀ b, s.lock b = some i → x.works b = false → t.valid b = true)
    (hvalid : ∀ b j, j ≠ i → s.lock b = some j → s.valid b = true → t.valid b = true)
    (hasleep : ∀ b, x = .locking b true → s.lock b ≠ none) : Users t := by
  refine ⟨fun b hb => ?_, ?_, fun j b hj => ?_, fun j b hj => ?_, fun j b hl hj => ?_, fun j b hj => ?_⟩
  · have hsum := sum_update (Proc.refs b) s.procs i x
    have hold := h.refcnt b hb
    have hnew := hrefcnt b hb
    rw [hlock, hprocs]
    omega
  · rw [hlock]
    exact h.locked
  all_goals
    rw [hprocs] at hj
    by_cases e : j = i
  · rw [e, Function.update_self] at hj
    exact hplace b hj
  · rw [Function.update_of_ne e] at hj
    exact h.place j b hj
  · rw [hlock]
    rw [e, Function.update_self] at hj
    rw [e]
    exact hworks b hj
  · rw [hlock]
    rw [Function.update_of_ne e] at hj
    exact h.works j b hj
  · rw [hlock, e] at hl
    rw [e, Function.update_self] at hj
    exact hheld b hl hj
  · rw [hlock] at hl
    rw [Function.update_of_ne e] at hj
    exact hvalid b j e hl (h.held j b hl hj)
  · rw [hlock]
    rw [e, Function.update_self] at hj
    exact hasleep b hj
  · rw [hlock]
    rw [Function.update_of_ne e] at hj
    exact h.asleep j b hj

/-- One process moves; the queue and what is queued stay. -/
theorem Queue.move {x : Proc} (h : Queue s q) (hqnext : t.qnext = s.qnext) (hhead : t.idequeue = s.idequeue) (hide : t.ide = s.ide)
    (hprocs : t.procs = Function.update s.procs i x) (hcmd : ∀ b ∈ q, t.cmd b = s.cmd b)
    (hsync : ∀ b ∈ q, (t.Synced b ↔ s.Synced b)) (howner : ∀ b ∈ q, ∀ a, s.procs i = .syncing b a → ∃ a', x = .syncing b a')
    (hx : ∀ b a, x = .syncing b a → b ∈ q ∨ (t.Synced b ∧ a = false))
    (hother : ∀ b j a, j ≠ i → s.procs j = .syncing b a → s.Synced b → t.Synced b) : Queue t q := by
  refine ⟨?_, fun b hb => ?_, fun j b a hj => ?_, ?_⟩
  · rw [hqnext, hhead]
    exact h.linked
  · obtain ⟨hns, j, a, hj⟩ := h.owner b hb
    refine ⟨(hsync b hb).not.mpr hns, ?_⟩
    rw [hprocs]
    by_cases e : j = i
    · rw [e] at hj
      obtain ⟨a', ha'⟩ := howner b hb a hj
      exact ⟨i, a', by rw [Function.update_self, ha']⟩
    · exact ⟨j, a, by rw [Function.update_of_ne e, hj]⟩
  · rw [hprocs] at hj
    by_cases e : j = i
    · rw [e, Function.update_self] at hj
      exact hx b a hj
    · rw [Function.update_of_ne e] at hj
      exact (h.queued j b a hj).imp_right fun hs => ⟨hother b j a e hj hs.1, hs.2⟩
  · rw [hide, h.ide]
    cases q with
    | nil => rfl
    | cons b q => simp [hcmd b (List.mem_cons_self ..)]

/-- No data move. -/
theorem Data.keep (h : Data havedisk1 s M) (htag : t.tag = s.tag) (hvalid : t.valid = s.valid) (hdata : t.data = s.data)
    (hdisk : t.disk = s.disk)
    (hsync : ∀ b, IsBuf b → t.Synced b → t.lock b = none → (s.Synced b ∧ s.lock b = none) ∨ s.disk (s.tag b) = M (s.tag b)) :
    Data havedisk1 t M := by
  refine ⟨?_, fun b hb hs hl => ?_, ?_⟩
  · rw [htag, hvalid, hdata]
    exact h.cached
  · rw [htag, hdisk]
    rcases hsync b hb hs hl with ⟨h1, h2⟩ | h1
    · exact h.synced b hb h1 h2
    · exact h1
  · rw [htag, hvalid, hdisk]
    exact h.absent

end

/-! ## bget -/

section

variable {havedisk1 : Bool} {s t : St} {l l₁ l₂ q : List Nat} {M : Tag → Mem} {i : Slot} {b : Nat} {k : Tag}

theorem bget_eq (h : Cached havedisk1 s l) (k : Tag) :
    bget s k = match l.find? fun b => decide (s.tag b = k) with
      | some b => some (b, addRef s b)
      | none => (l.reverse.find? fun b => decide (s.refcnt b = 0 ∧ s.dirty b = false)).map fun b => (b, recycle s b k) := by
  unfold bget
  rw [search_linked _ h.ring.forward h.length, search_linked _ h.ring.backward (by rw [List.length_reverse]; exact h.length)]
  simp only [Option.bind_eq_bind, Option.bind_some]
  cases hhit : l.find? fun b => decide (s.tag b = k) with
  | some b => simp [h.ne_zero (List.mem_of_find?_eq_some hhit)]
  | none =>
    cases hmiss : l.reverse.find? fun b => decide (s.refcnt b = 0 ∧ s.dirty b = false) with
    | some b => simp [h.ne_zero (List.mem_reverse.mp (List.mem_of_find?_eq_some hmiss))]
    | none => simp

theorem bget_none_iff (h : Cached havedisk1 s l) :
    bget s k = none ↔ ∀ b, IsBuf b → s.tag b ≠ k ∧ (s.refcnt b ≠ 0 ∨ s.dirty b = true) := by
  rw [bget_eq h]
  cases hhit : l.find? fun b => decide (s.tag b = k) with
  | some b =>
    have hb := (h.mem b).mp (List.mem_of_find?_eq_some hhit)
    have htag : s.tag b = k := by simpa using List.find?_some hhit
    simp only [reduceCtorEq, false_iff]
    exact fun hall => (hall b hb).1 htag
  | none =>
    have htag : ∀ b, IsBuf b → s.tag b ≠ k := fun b hb => by simpa using List.find?_eq_none.mp hhit b ((h.mem b).mpr hb)
    simp only [Option.map_eq_none_iff, List.find?_eq_none, List.mem_reverse, h.mem, decide_eq_true_eq]
    refine forall₂_congr fun b hb => ?_
    rw [not_and_or, Bool.not_eq_false]
    exact ⟨fun hn => ⟨htag b hb, hn⟩, fun hn => hn.2⟩

/-- The first buffer for the block gets another reference. -/
theorem inv_addRef (h : Inv havedisk1 s (l₁ ++ b :: l₂) q) (hi : s.procs i = .out) (hfirst : ∀ c ∈ l₁, s.tag c ≠ s.tag b) :
    Inv havedisk1 { addRef s b with procs := Function.update s.procs i (.locking b false) } (l₁ ++ b :: l₂) q := by
  have hb : IsBuf b := (h.cached.mem b).mp (by simp)
  refine ⟨⟨h.cached.ring, h.cached.mem, ?_, h.cached.present, h.cached.dirty⟩, ?_, ?_⟩
  · have hfresh : ∀ c, c ≠ b → s.Fresh c → (addRef s b).Fresh c :=
      fun c hc hf => ⟨hf.1, hf.2.1, (Function.update_of_ne hc ..).trans hf.2.2⟩
    have hnd := (List.nodup_cons.mp h.cached.ring.nodup).2
    obtain ⟨h1, h2, h12⟩ := List.pairwise_append.mp h.cached.order
    obtain ⟨hb2, h2⟩ := List.pairwise_cons.mp h2
    obtain ⟨-, hnd2, hdisj⟩ := List.nodup_append.mp hnd
    have hne1 : ∀ c ∈ l₁, c ≠ b := fun c hc => hdisj c hc b (List.mem_cons_self ..)
    have hne2 : ∀ c ∈ l₂, c ≠ b := by
      rintro c hc rfl
      exact (List.nodup_cons.mp hnd2).1 hc
    refine List.pairwise_append.mpr ⟨?_, List.pairwise_cons.mpr ⟨?_, ?_⟩, ?_⟩
    · exact h1.imp_of_mem fun _ hy hxy e => hfresh _ (hne1 _ hy) (hxy e)
    · exact fun c hc e => hfresh c (hne2 c hc) (hb2 c hc e)
    · exact h2.imp_of_mem fun _ hy hxy e => hfresh _ (hne2 _ hy) (hxy e)
    · intro c hc d hd e
      rcases List.mem_cons.mp hd with rfl | hd
      · exact absurd e (hfirst c hc)
      · exact hfresh d (hne2 d hd) (h12 c hc d (List.mem_cons_of_mem _ hd) e)
  · refine h.users.move (i := i) (x := .locking b false) rfl rfl (fun c hc => ?_) ?_ ?_ ?_ (fun _ _ _ _ hv => hv) ?_
    · simp only [addRef, hi, Proc.refs, Function.update_apply]
      grind
    · rintro c ⟨⟩
      exact hb
    · rintro c ⟨⟩
    · exact fun c hl _ => h.users.held i c hl (by rw [hi]; rfl)
    · rintro c ⟨⟩
  · refine h.queue.move (i := i) (x := .locking b false) rfl rfl rfl rfl (fun _ _ => rfl) (fun _ _ => Iff.rfl) ?_ ?_
      (fun _ _ _ _ _ hs => hs)
    · intro c _ a ha
      rw [hi] at ha
      cases ha
    · rintro c a ⟨⟩

/-- A buffer that nobody refers to becomes one for `k`, for which there was none. -/
theorem inv_recycle (h : Inv havedisk1 s l q) (hi : s.procs i = .out) (hk : Present havedisk1 k)
    (hmiss : ∀ c, IsBuf c → s.tag c ≠ k) (hb : IsBuf b) (h0 : s.refcnt b = 0) :
    Inv havedisk1 { recycle s b k with procs := Function.update s.procs i (.locking b false) } l q := by
  have hfree := h.users.free_of_zero h0
  have hq : b ∉ q := by
    intro hbq
    obtain ⟨j, hj⟩ := h.queue.locked h.users hbq
    rw [hfree] at hj
    cases hj
  have hne : ∀ c ∈ q, c ≠ b := by
    rintro c hc rfl
    exact hq hc
  refine ⟨⟨h.cached.ring, h.cached.mem, ?_, ?_, ?_⟩, ?_, ?_⟩
  · have hnd := (List.nodup_cons.mp h.cached.ring.nodup).2
    refine (h.cached.order.and hnd).imp_of_mem fun {c d} hc hd ⟨hcd, hne'⟩ htag => ?_
    have hkc := hmiss c ((h.cached.mem c).mp hc)
    have hkd := hmiss d ((h.cached.mem d).mp hd)
    simp only [recycle, Function.update_apply] at htag
    by_cases ed : d = b
    · rw [if_pos ed, if_neg fun ec => hne' (ec.trans ed.symm)] at htag
      exact absurd htag hkc
    · rw [if_neg ed] at htag
      split at htag
      · exact absurd htag.symm hkd
      · simpa only [St.Fresh, recycle, Function.update_of_ne ed] using hcd htag
  · intro c hc
    simp only [recycle, Function.update_apply]
    split
    · exact hk
    · exact h.cached.present c hc
  · intro c hc
    simp only [recycle, Function.update_apply]
    split
    · exact id
    · exact h.cached.dirty c hc
  · have hvalid : ∀ c j, s.lock c = some j → s.valid c = true → (recycle s b k).valid c = true := by
      intro c j hl hv
      refine (Function.update_of_ne ?_ ..).trans hv
      rintro rfl
      rw [hfree] at hl
      cases hl
    refine h.users.move (i := i) (x := .locking b false) rfl rfl (fun c hc => ?_) ?_ ?_ ?_ (fun c j _ => hvalid c j) ?_
    · simp only [recycle, hi, Proc.refs, Function.update_apply]
      grind
    · rintro c ⟨⟩
      exact hb
    · rintro c ⟨⟩
    · exact fun c hl _ => hvalid c i hl (h.users.held i c hl (by rw [hi]; rfl))
    · rintro c ⟨⟩
  · refine h.queue.move (i := i) (x := .locking b false) rfl rfl rfl rfl (fun c hc => ?_) (fun c hc => ?_) ?_ ?_ ?_
    · simp only [St.cmd, recycle, Function.update_of_ne (hne c hc)]
    · simp only [St.Synced, recycle, Function.update_of_ne (hne c hc)]
    · intro c _ a ha
      rw [hi] at ha
      cases ha
    · rintro c a ⟨⟩
    · intro c j a _ hj hs
      have hc : c ≠ b := by
        rintro rfl
        have := h.users.works j c (by rw [hj]; exact decide_eq_true rfl)
        rw [hfree] at this
        cases this
      simpa only [St.Synced, recycle, Function.update_of_ne hc] using hs

/-- What it held is on the disk. -/
theorem data_recycle (h : Data havedisk1 s M) (hu : Users s) (hb : IsBuf b) (h0 : s.refcnt b = 0) (hd : s.dirty b = false)
    (procs : Slot → Proc) : Data havedisk1 { recycle s b k with procs := procs } M := by
  have hfree := hu.free_of_zero h0
  refine ⟨fun c hc hv => ?_, fun c hc hs hl => ?_, fun k' hk' hall => ?_⟩
  · have hne : c ≠ b := by
      rintro rfl
      simp [recycle] at hv
    simp only [recycle, Function.update_of_ne hne] at hv ⊢
    exact h.cached c hc hv
  · have hne : c ≠ b := by
      rintro rfl
      simp [recycle, St.Synced] at hs
    simp only [St.Synced, recycle, Function.update_of_ne hne] at hs ⊢
    exact h.synced c hc hs hl
  · by_cases hold : s.tag b = k' ∧ s.valid b = true
    · rw [← hold.1]
      exact h.synced b hb ⟨hold.2, hd⟩ hfree
    · apply h.absent k' hk'
      intro c hc htag
      by_cases e : c = b
      · rw [e] at htag ⊢
        exact Bool.eq_false_of_not_eq_true fun hv => hold ⟨htag, hv⟩
      · have := hall c hc
        simp only [recycle, Function.update_of_ne e] at this
        exact this htag

end

/-! ## Locks and references -/

section

variable {havedisk1 : Bool} {s t : St} {l q : List Nat} {M : Tag → Mem} {i : Slot} {b c : Nat}

@[simp] theorem refs_unlocked (p : Proc) : (p.unlocked b).refs c = p.refs c := by cases p <;> rfl

@[simp] theorem works_unlocked (p : Proc) : (p.unlocked b).works c = p.works c := by cases p <;> rfl

@[simp] theorem buf_unlocked (p : Proc) : (p.unlocked b).buf = p.buf := by cases p <;> rfl

theorem unlocked_eq_locking {p : Proc} (h : p.unlocked b = .locking c true) : p = .locking c true ∧ c ≠ b := by
  cases p with
  | locking d a =>
    simp only [Proc.unlocked, Proc.locking.injEq, Bool.and_eq_true, decide_eq_true_eq] at h
    obtain ⟨rfl, rfl, hne⟩ := h
    exact ⟨rfl, hne⟩
  | _ => cases h

theorem unlocked_eq_syncing {p : Proc} {a : Bool} : p.unlocked b = .syncing c a ↔ p = .syncing c a := by
  cases p <;> simp [Proc.unlocked]

theorem works_unique {p : Proc} (hb : p.works b = true) (hc : p.works c = true) : c = b := by
  cases p with
  | locked d => exact (of_decide_eq_true hc).symm.trans (of_decide_eq_true hb)
  | syncing d a => exact (of_decide_eq_true hc).symm.trans (of_decide_eq_true hb)
  | _ => cases hb

/-- Every buffer that a process with its caller has locked is valid. -/
theorem Users.valid (h : Users s) (hl : s.lock b = some i) (hi : s.procs i = .out) : s.valid b = true :=
  h.held i b hl (by rw [hi]; rfl)

theorem inv_acquiresleep (h : Inv havedisk1 s l q) (hi : s.procs i = .locking b false) :
    Inv havedisk1 (acquiresleep s i b) l q := by
  have hb : IsBuf b := h.users.place i b (by rw [hi]; rfl)
  have hsync : ∀ c a, s.procs i ≠ .syncing c a := by
    intro c a hc
    rw [hi] at hc
    cases hc
  have hout : ∀ c, (s.procs i).works c = false := by
    intro c
    rw [hi]
    rfl
  unfold acquiresleep
  split
  · rename_i hl
    refine ⟨h.cached.keep rfl rfl rfl (fun _ _ hf => hf) h.cached.dirty, ?_, ?_⟩
    · refine h.users.move (i := i) (x := .locking b true) rfl rfl (fun c _ => ?_) ?_ ?_ ?_ (fun _ _ _ _ hv => hv) ?_
      · rw [hi]
        rfl
      · rintro c ⟨⟩
        exact hb
      · rintro c ⟨⟩
      · exact fun c hc _ => h.users.held i c hc (hout c)
      · rintro c ⟨⟩
        exact Option.isSome_iff_ne_none.mp hl
    · refine h.queue.move (i := i) (x := .locking b true) rfl rfl rfl rfl (fun _ _ => rfl) (fun _ _ => Iff.rfl) ?_ ?_
        (fun _ _ _ _ _ hs => hs)
      · exact fun c _ a hc => absurd hc (hsync c a)
      · rintro c a ⟨⟩
  · rename_i hl
    have hfree : s.lock b = none := by simpa using hl
    refine ⟨h.cached.keep rfl rfl rfl (fun _ _ hf => hf) h.cached.dirty, ⟨?_, ?_, ?_, ?_, ?_, ?_⟩, ?_⟩
    · intro c hc
      have hsum := sum_update (Proc.refs c) s.procs i (.locked b)
      have hold := h.users.refcnt c hc
      rw [hi] at hsum
      simp only [Proc.refs, Function.update_apply, holders] at hsum hold ⊢
      grind
    · intro c j hc
      simp only [Function.update_apply] at hc
      split at hc
      · rename_i e
        rw [e]
        exact hb
      · exact h.users.locked c j hc
    · intro j c hj
      simp only [Function.update_apply] at hj
      split at hj
      · cases hj
        exact hb
      · exact h.users.place j c hj
    · intro j c hj
      simp only [Function.update_apply] at hj ⊢
      by_cases e : j = i
      · rw [if_pos e] at hj
        have : b = c := by simpa [Proc.works] using hj
        rw [if_pos this.symm, e]
      · rw [if_neg e] at hj
        have hlc := h.users.works j c hj
        rw [if_neg fun ec => by rw [ec, hfree] at hlc; cases hlc]
        exact hlc
    · intro j c hc hj
      simp only [Function.update_apply] at hc hj
      by_cases e : c = b
      · rw [if_pos e] at hc
        cases hc
        simp [Proc.works, e] at hj
      · rw [if_neg e] at hc
        apply h.users.held j c hc
        split at hj
        · rename_i ej
          rw [ej]
          exact hout c
        · exact hj
    · intro j c hj
      simp only [Function.update_apply] at hj ⊢
      split at hj
      · cases hj
      · split
        · simp
        · exact h.users.asleep j c hj
    · refine h.queue.move (i := i) (x := .locked b) rfl rfl rfl rfl (fun _ _ => rfl) (fun _ _ => Iff.rfl) ?_ ?_
        (fun _ _ _ _ _ hs => hs)
      · exact fun c _ a hc => absurd hc (hsync c a)
      · rintro c a ⟨⟩

/-- `bread` returns a buffer that is valid; `iderw` returns. -/
theorem inv_return (h : Inv havedisk1 s l q) (hi : (s.procs i).works b = true) (hv : s.valid b = true) (hq : b ∉ q) :
    Inv havedisk1 { s with procs := Function.update s.procs i .out } l q := by
  have hworks : ∀ c, c ≠ b → (s.procs i).works c = false :=
    fun c hc => Bool.eq_false_of_not_eq_true fun hw => hc (works_unique hi hw)
  refine ⟨h.cached.keep rfl rfl rfl (fun _ _ hf => hf) h.cached.dirty, ?_, ?_⟩
  · refine h.users.move (i := i) (x := .out) rfl rfl (fun c _ => ?_) ?_ ?_ ?_ (fun _ _ _ _ hv => hv) ?_
    · cases hp : s.procs i <;> simp_all [Proc.works, Proc.refs]
    · rintro c ⟨⟩
    · rintro c ⟨⟩
    · intro c hc _
      by_cases e : c = b
      · rw [e]
        exact hv
      · exact h.users.held i c hc (hworks c e)
    · rintro c ⟨⟩
  · refine h.queue.move (i := i) (x := .out) rfl rfl rfl rfl (fun _ _ => rfl) (fun _ _ => Iff.rfl) ?_ ?_
      (fun _ _ _ _ _ hs => hs)
    · intro c hc a hp
      have : c ≠ b := by
        rintro rfl
        exact hq hc
      have := hworks c this
      rw [hp] at this
      simp [Proc.works] at this
    · rintro c a ⟨⟩

theorem inv_brelse (h : Inv havedisk1 s l q) (hi : s.procs i = .out) (hl : s.lock b = some i) (ht : brelse s i b = some t) :
    Inv havedisk1 t l q := by
  have hb := h.users.locked b i hl
  unfold brelse at ht
  rw [if_neg (by rw [hl]; simp)] at ht
  cases ht
  refine ⟨h.cached.keep rfl rfl rfl (fun _ _ hf => hf) h.cached.dirty, ⟨?_, ?_, ?_, ?_, ?_, ?_⟩, ⟨h.queue.linked, ?_, ?_, h.queue.ide⟩⟩
  · intro c hc
    have hsum := sum_update (Proc.refs c) (fun j => (s.procs j).unlocked b) i (.leaving b)
    have hold := h.users.refcnt c hc
    simp only [refs_unlocked] at hsum
    rw [hi] at hsum
    simp only [Proc.refs, Function.update_apply, holders] at hsum hold ⊢
    grind
  · intro c j hc
    simp only [Function.update_apply] at hc
    split at hc
    · cases hc
    · exact h.users.locked c j hc
  · intro j c hj
    simp only [Function.update_apply] at hj
    split at hj
    · cases hj
      exact hb
    · rw [buf_unlocked] at hj
      exact h.users.place j c hj
  · intro j c hj
    simp only [Function.update_apply] at hj ⊢
    by_cases e : j = i
    · rw [if_pos e] at hj
      cases hj
    · rw [if_neg e, works_unlocked] at hj
      have hlc := h.users.works j c hj
      rw [if_neg]
      · exact hlc
      · rintro rfl
        rw [hl] at hlc
        cases hlc
        exact e rfl
  · intro j c hc hj
    simp only [Function.update_apply] at hc hj
    split at hc
    · cases hc
    · apply h.users.held j c hc
      split at hj
      · rename_i e
        rw [e, hi]
        rfl
      · rw [works_unlocked] at hj
        exact hj
  · intro j c hj
    simp only [Function.update_apply] at hj ⊢
    split at hj
    · cases hj
    · obtain ⟨hj, hne⟩ := unlocked_eq_locking hj
      rw [if_neg hne]
      exact h.users.asleep j c hj
  · intro c hc
    obtain ⟨hns, j, a, hj⟩ := h.queue.owner c hc
    refine ⟨hns, j, a, ?_⟩
    simp only [Function.update_apply]
    rw [if_neg, unlocked_eq_syncing]
    · exact hj
    · rintro rfl
      rw [hi] at hj
      cases hj
  · intro j c a hj
    simp only [Function.update_apply] at hj
    split at hj
    · cases hj
    · exact h.queue.queued j c a (unlocked_eq_syncing.mp hj)

theorem unlink_eq (h : s.next b ≠ b) : unlink s b =
    { s with
      next := Function.update s.next (s.prev b) (s.next b)
      prev := Function.update s.prev (s.next b) (s.prev b) } := by
  simp only [unlink, Function.update_of_ne (Ne.symm h)]

/-- The last reference is given up: the buffer moves to the front. -/
theorem cached_relink {l₁ l₂ : List Nat} (h : Cached havedisk1 s (l₁ ++ b :: l₂)) (huse : ¬ s.Fresh b)
    (hfresh : ∀ c, c ≠ b → s.Fresh c → t.Fresh c) (ht : t = { s with refcnt := t.refcnt, procs := t.procs }) :
    Cached havedisk1 (link (unlink t b) b) (b :: (l₁ ++ l₂)) := by
  have hb : IsBuf b := (h.mem b).mp (by simp)
  obtain ⟨h0, hnd⟩ := List.nodup_cons.mp h.ring.nodup
  have hbl : b ∉ l₁ ++ l₂ := by
    intro hm
    have := List.nodup_middle.mp hnd
    exact (List.nodup_cons.mp this).1 hm
  have hne : ∀ c ∈ l₁ ++ l₂, c ≠ b := by
    rintro c hc rfl
    exact hbl hc
  have hnext : t.next = s.next := by rw [ht]
  have hprev : t.prev = s.prev := by rw [ht]
  have htag : t.tag = s.tag := by rw [ht]
  have hvalid : t.valid = s.valid := by rw [ht]
  have hdirty : t.dirty = s.dirty := by rw [ht]
  rw [unlink_eq (by rw [hnext]; exact h.ring.next_ne)]
  refine ⟨?_, fun c => ?_, ?_, ?_, ?_⟩
  · show Ring (Function.update (Function.update _ b _) 0 b) _ _
    rw [hnext, hprev]
    exact h.ring.unlink.link (by rw [List.mem_cons, not_or]; exact ⟨hb.1, hbl⟩)
  · rw [← h.mem c]
    simp only [List.mem_cons, List.mem_append]
    tauto
  · show List.Pairwise (fun x y => t.tag x = t.tag y → t.Fresh y) _
    rw [htag]
    obtain ⟨h1, h2, h12⟩ := List.pairwise_append.mp h.order
    obtain ⟨hb2, h2⟩ := List.pairwise_cons.mp h2
    refine List.pairwise_cons.mpr ⟨fun c hc e => hfresh c (hne c hc) ?_, ?_⟩
    · rcases List.mem_append.mp hc with hc | hc
      · exact absurd (h12 c hc b (List.mem_cons_self ..) e.symm) huse
      · exact hb2 c hc e
    · refine List.Pairwise.imp_of_mem (fun _ hy hxy e => hfresh _ (hne _ hy) (hxy e)) (List.pairwise_append.mpr ⟨h1, h2, ?_⟩)
      exact fun c hc d hd => h12 c hc d (List.mem_cons_of_mem _ hd)
  · show ∀ c, IsBuf c → Present havedisk1 (t.tag c)
    rw [htag]
    exact h.present
  · show ∀ c, IsBuf c → t.dirty c = true → t.valid c = true
    rw [hdirty, hvalid]
    exact h.dirty

theorem inv_leave (h : Inv havedisk1 s l q) (hi : s.procs i = .leaving b) : ∃ l', Inv havedisk1 (leave s i b) l' q := by
  have hb : IsBuf b := h.users.place i b (by rw [hi]; rfl)
  have hpos : 0 < s.refcnt b := h.users.ref_of_refs (i := i) hb (by rw [hi]; simp [Proc.refs])
  have huse : ¬ s.Fresh b := fun hf => by
    have := hf.2.2
    omega
  have hfresh : ∀ (n : Nat) (c : Nat), c ≠ b → s.Fresh c →
      s.valid c = false ∧ s.dirty c = false ∧ Function.update s.refcnt b n c = 0 :=
    fun n c hc hf => ⟨hf.1, hf.2.1, (Function.update_of_ne hc ..).trans hf.2.2⟩
  have husers : ∀ t : St, t.lock = s.lock → t.procs = Function.update s.procs i .out → t.valid = s.valid →
      t.refcnt = Function.update s.refcnt b (s.refcnt b - 1) → Users t := by
    intro t hlock hprocs hvalid hrefcnt
    refine h.users.move (x := .out) hlock hprocs (fun c _ => ?_) ?_ ?_ ?_ (fun _ _ _ _ hv => by rw [hvalid]; exact hv) ?_
    · rw [hi, hrefcnt]
      simp only [Proc.refs, Function.update_apply]
      grind
    · rintro c ⟨⟩
    · rintro c ⟨⟩
    · intro c hc _
      rw [hvalid]
      exact h.users.held i c hc (by rw [hi]; rfl)
    · rintro c ⟨⟩
  have hqueue : ∀ t : St, t.qnext = s.qnext → t.idequeue = s.idequeue → t.ide = s.ide →
      t.procs = Function.update s.procs i .out → t.cmd = s.cmd → t.Synced = s.Synced → Queue t q := by
    intro t h1 h2 h3 h4 h5 h6
    refine h.queue.move (x := .out) h1 h2 h3 h4 (fun _ _ => by rw [h5]) (fun _ _ => by rw [h6]) ?_ ?_
      (fun _ _ _ _ _ hs => by rw [h6]; exact hs)
    · intro c _ a hc
      rw [hi] at hc
      cases hc
    · rintro c a ⟨⟩
  unfold leave
  dsimp only
  split
  · obtain ⟨l₁, l₂, rfl⟩ := List.append_of_mem ((h.cached.mem b).mpr hb)
    refine ⟨_, cached_relink h.cached huse (hfresh _) rfl, husers _ rfl rfl rfl rfl, hqueue _ rfl rfl rfl rfl rfl rfl⟩
  · refine ⟨l, h.cached.keep rfl rfl rfl (fun c _ hf => hfresh _ c ?_ hf) h.cached.dirty, husers _ rfl rfl rfl rfl,
      hqueue _ rfl rfl rfl rfl rfl rfl⟩
    rintro rfl
    exact huse hf

end

/-! ## The callers -/

section

variable {havedisk1 : Bool} {s t : St} {l q : List Nat} {M : Tag → Mem} {i : Slot} {b : Nat}

/-- What a caller does to a buffer that it has locked is no matter of the disk. -/
theorem Inv.notMem_queue (h : Inv havedisk1 s l q) (hi : s.procs i = .out) (hl : s.lock b = some i) : b ∉ q := by
  refine h.queue.notMem h.users hl fun a ha => ?_
  rw [hi] at ha
  cases ha

theorem inv_modify (h : Inv havedisk1 s l q) (hi : s.procs i = .out) (hl : s.lock b = some i) (data : Mem) :
    Inv havedisk1 { s with data := Function.update s.data b data } l q := by
  have hq := h.notMem_queue hi hl
  refine ⟨h.cached.keep rfl rfl rfl (fun _ _ hf => hf) h.cached.dirty, ⟨h.users.1, h.users.2, h.users.3, h.users.4, h.users.5,
    h.users.6⟩, ⟨h.queue.linked, h.queue.owner, h.queue.queued, ?_⟩⟩
  show s.ide = _
  rw [h.queue.ide]
  cases q with
  | nil => rfl
  | cons c q =>
    have hne : c ≠ b := by
      rintro rfl
      exact hq (List.mem_cons_self ..)
    simp [St.cmd, hne]

/-- The block has new contents: no other buffer has the old ones. -/
theorem data_modify (h : Data havedisk1 s M) (hinv : Inv havedisk1 s l q) (hi : s.procs i = .out) (hl : s.lock b = some i)
    (data : Mem) : Data havedisk1 { s with data := Function.update s.data b data } (Function.update M (s.tag b) data) := by
  have hb := hinv.users.locked b i hl
  have hv := hinv.users.valid hl hi
  have huse : ∀ c, s.valid c = true → ¬ s.Fresh c := by
    intro c hc hf
    rw [hf.1] at hc
    cases hc
  have hother : ∀ c, IsBuf c → s.valid c = true → c ≠ b → s.tag c ≠ s.tag b :=
    fun c hc hvc hne e => hne (hinv.cached.unique hc hb e (huse c hvc) (huse b hv))
  refine ⟨fun c hc hvc => ?_, fun c hc hs hlc => ?_, fun k hk hall => ?_⟩
  · show Function.update s.data b data c = _
    by_cases e : c = b
    · rw [e, Function.update_self, Function.update_self]
    · rw [Function.update_of_ne e, Function.update_of_ne (hother c hc hvc e)]
      exact h.cached c hc hvc
  · have hne : c ≠ b := by
      rintro rfl
      exact Option.some_ne_none _ (hl.symm.trans hlc)
    show s.disk (s.tag c) = Function.update M (s.tag b) data (s.tag c)
    rw [Function.update_of_ne (hother c hc hs.1 hne)]
    exact h.synced c hc hs hlc
  · have hne : k ≠ s.tag b := by
      rintro rfl
      have := hall b hb rfl
      rw [hv] at this
      cases this
    rw [Function.update_of_ne hne]
    exact h.absent k hk hall

theorem inv_pin (h : Inv havedisk1 s l q) (hi : s.procs i = .out) (hl : s.lock b = some i) :
    Inv havedisk1 { s with dirty := Function.update s.dirty b true } l q := by
  have hq := h.notMem_queue hi hl
  have hne : ∀ c ∈ q, c ≠ b := by
    rintro c hc rfl
    exact hq hc
  refine ⟨h.cached.keep rfl rfl rfl (fun c _ hf => ⟨hf.1, ?_, hf.2.2⟩) fun c hc => ?_, ⟨h.users.1, h.users.2, h.users.3, h.users.4,
    h.users.5, h.users.6⟩, ⟨h.queue.linked, fun c hc => ?_, fun j c a hj => ?_, ?_⟩⟩
  · have hne : c ≠ b := by
      rintro rfl
      have := hf.2.2
      have := h.users.ref_of_locked hl
      omega
    exact (Function.update_of_ne hne ..).trans hf.2.1
  · show Function.update s.dirty b true c = true → _
    by_cases e : c = b
    · rw [e]
      exact fun _ => h.users.valid hl hi
    · rw [Function.update_of_ne e]
      exact h.cached.dirty c hc
  · obtain ⟨hns, ho⟩ := h.queue.owner c hc
    exact ⟨by simpa only [St.Synced, Function.update_of_ne (hne c hc)] using hns, ho⟩
  · refine (h.queue.queued j c a hj).imp_right fun hs => ⟨?_, hs.2⟩
    have hne : c ≠ b := by
      rintro rfl
      have := h.users.works j c (by rw [hj]; exact decide_eq_true rfl)
      rw [hl] at this
      cases this
      rw [hi] at hj
      cases hj
    simpa only [St.Synced, Function.update_of_ne hne] using hs.1
  · show s.ide = _
    rw [h.queue.ide]
    cases q with
    | nil => rfl
    | cons c q => simp [St.cmd, hne c (List.mem_cons_self ..)]

theorem data_pin (h : Data havedisk1 s M) (b : Nat) : Data havedisk1 { s with dirty := Function.update s.dirty b true } M := by
  refine h.keep rfl rfl rfl rfl fun c _ hs hl => .inl ⟨⟨hs.1, ?_⟩, hl⟩
  have := hs.2
  simp only [Function.update_apply] at this
  split at this
  · cases this
  · exact this

/-- What is let go of clean is on the disk. -/
theorem data_brelse (h : Data havedisk1 s M) (hinv : Inv havedisk1 s l q) (hi : s.procs i = .out) (hl : s.lock b = some i)
    (hd : s.dirty b = true ∨ s.data b = s.disk (s.tag b)) (ht : brelse s i b = some t) : Data havedisk1 t M := by
  unfold brelse at ht
  rw [if_neg (by rw [hl]; simp)] at ht
  cases ht
  refine h.keep rfl rfl rfl rfl fun c hc hs hlc => ?_
  by_cases e : c = b
  · subst e
    right
    rcases hd with hd | hd
    · exact absurd (hd.symm.trans hs.2) (by decide)
    · rw [← hd]
      exact h.cached c hc (hinv.users.valid hl hi)
  · exact .inl ⟨hs, (Function.update_of_ne e ..).symm.trans hlc⟩

end

/-! ## The disk -/

section

variable {havedisk1 : Bool} {s t : St} {l q : List Nat} {M : Tag → Mem} {i : Slot} {b : Nat}

/-- The disk finds the block that `idestart` has in mind. -/
theorem place_cmd (h : Present havedisk1 (s.tag b)) : (s.cmd b).place = s.tag b := by
  obtain ⟨hn, hd⟩ := h
  have hdev : (s.tag b).1 = 0 ∨ (s.tag b).1 = 1 := hd.imp_right fun h => h.1
  have hsize : (s.tag b).2 < 1000 := hn
  have h8 := Nat.and_two_pow_sub_one_eq_mod (s.tag b).2 8
  have h88 := Nat.and_two_pow_sub_one_eq_mod ((s.tag b).2 / 2 ^ 8) 8
  have h16 : (s.tag b).2 / 2 ^ 16 = 0 := by omega
  have h24 : (s.tag b).2 / 2 ^ 24 = 0 := by omega
  ext
  · simp only [Cmd.place, St.cmd, Nat.shiftRight_eq_div_pow, h24]
    rcases hdev with e | e <;> rw [e] <;> decide
  · simp only [Cmd.place, St.cmd, Nat.shiftRight_eq_div_pow, Nat.shiftLeft_eq, h16, h24]
    have hsel : (0xe0 ||| (((s.tag b).1 &&& 1) * 2 ^ 4) ||| (0 &&& 0x0f)) &&& 0x0f = 0 := by
      rcases hdev with e | e <;> rw [e] <;> decide
    rw [hsel]
    norm_num at h8 h88 ⊢
    omega

theorem enqueue_spec (hq : Linked s.qnext s.idequeue q) (hbuf : ∀ c ∈ q, c ≤ nbuf) (hb : b ≠ 0) (hbq : b ∉ q) :
    ∃ qnext idequeue, enqueue s b = some { s with qnext := qnext, idequeue := idequeue } ∧
      Linked qnext idequeue (q ++ [b]) := by
  have hq' : Linked (Function.update s.qnext b 0) s.idequeue q := by
    apply hq.congr
    intro c hc
    exact Function.update_of_ne (by rintro rfl; exact hbq hc) ..
  have hlen : q.length < nbuf + 1 := hq.length_lt (Nat.succ_pos _) fun c hc => Nat.lt_succ_of_le (hbuf c hc)
  unfold enqueue
  dsimp only
  rw [search_linked _ hq' hlen]
  rcases List.eq_nil_or_concat q with rfl | ⟨r, z, rfl⟩
  · exact ⟨_, _, rfl, rfl, hb, Function.update_self ..⟩
  · rw [List.concat_eq_append] at hq' hbq ⊢
    cases hfind : (r ++ [z]).find? fun x => decide (Function.update s.qnext b 0 x = 0) with
    | none =>
      have := List.find?_eq_none.mp hfind z (by simp)
      simp [hq'.next_last] at this
    | some x =>
      have hx := List.mem_of_find?_eq_some hfind
      have hx0 : Function.update s.qnext b 0 x = 0 := by simpa using List.find?_some hfind
      obtain ⟨r', hr'⟩ := hq'.last_of_next hx hx0
      have hx0 : x ≠ 0 := fun e => hq'.ne_zero (e ▸ hx)
      have hnd := hq'.nodup
      rw [hr'] at hq' hnd hbq ⊢
      rw [List.append_assoc]
      have hxb : b ≠ x := by
        rintro rfl
        exact hbq (by simp)
      refine ⟨_, _, ?_, hq'.snoc (fun c hc => Function.update_of_ne ?_ ..) (Function.update_self ..) hb ?_⟩
      · simp only [Option.bind_eq_bind, Option.bind_some, Option.getD_some, if_neg hx0]
        rfl
      · rintro rfl
        exact (List.nodup_append.mp hnd).2.2 c hc c (List.mem_singleton_self c) rfl
      · rw [Function.update_of_ne hxb, Function.update_self]

theorem idestart_eq (h0 : b ≠ 0) (hsize : (s.tag b).2 < fsSize) : idestart s b = some { s with ide := some (s.cmd b) } := by
  unfold idestart
  rw [if_neg h0, if_neg (Nat.not_le.mpr hsize)]

theorem Inv.queue_bufs (h : Inv havedisk1 s l q) {c : Nat} (hc : c ∈ q) : IsBuf c := by
  obtain ⟨j, hj⟩ := h.queue.locked h.users hc
  exact h.users.locked c j hj

/-- Nothing in `iderw` panics. -/
theorem iderw_spec (h : Inv havedisk1 s l q) (hl : s.lock b = some i) (hns : ¬ s.Synced b) (hbq : b ∉ q) :
    ∃ qnext idequeue, iderw havedisk1 s i b = some { s with
        qnext := qnext
        idequeue := idequeue
        ide := (q ++ [b]).head?.map s.cmd
        procs := Function.update s.procs i (.syncing b true) } ∧ Linked qnext idequeue (q ++ [b]) := by
  have hb := h.users.locked b i hl
  obtain ⟨hsize, hdev⟩ := h.cached.present b hb
  obtain ⟨qnext, idequeue, heq, hlink⟩ := enqueue_spec h.queue.linked (fun c hc => (h.queue_bufs hc).2) hb.1 hbq
  refine ⟨qnext, idequeue, ?_, hlink⟩
  have hawait : ∀ u : St, u.valid = s.valid → u.dirty = s.dirty →
      await u i b = { u with procs := Function.update u.procs i (.syncing b true) } := by
    intro u hv hd
    unfold await
    rw [if_neg]
    intro hs
    exact hns ⟨hv ▸ hs.1, hd ▸ hs.2⟩
  unfold iderw
  rw [if_neg (by rw [hl]; simp), if_neg hns, if_neg, heq]
  · simp only [Option.bind_eq_bind, Option.bind_some]
    cases q with
    | nil =>
      have he : idequeue = b := hlink.1
      subst he
      rw [if_pos rfl, idestart_eq hb.1, Option.bind_some, hawait]
      · rfl
      · rfl
      · rfl
      · exact hsize
    | cons c q =>
      have he : idequeue = c := hlink.1
      have hne : idequeue ≠ b := by
        rintro rfl
        exact hbq (by rw [he]; simp)
      simp only [if_neg hne]
      rw [hawait]
      · simp only [List.cons_append, List.head?_cons, h.queue.ide]
        rfl
      all_goals rfl
  · rintro ⟨h0, h1⟩
    rcases hdev with h | ⟨-, h⟩
    · exact h0 h
    · rw [h] at h1
      cases h1

theorem inv_iderw (h : Inv havedisk1 s l q) (hl : s.lock b = some i) (hns : ¬ s.Synced b)
    (hi : s.procs i = .out ∨ s.procs i = .locked b) (ht : iderw havedisk1 s i b = some t) :
    Inv havedisk1 t l (q ++ [b]) ∧ (Data havedisk1 s M → Data havedisk1 t M) := by
  have hsync : ∀ c a, s.procs i ≠ .syncing c a := by
    intro c a hc
    rcases hi with hi | hi <;> rw [hi] at hc <;> cases hc
  have hbq := h.queue.notMem h.users hl (hsync b)
  obtain ⟨qnext, idequeue, heq, hlink⟩ := iderw_spec h hl hns hbq
  rw [heq] at ht
  cases ht
  have hb := h.users.locked b i hl
  refine ⟨⟨h.cached.keep rfl rfl rfl (fun _ _ hf => hf) h.cached.dirty, ?_, ⟨hlink, fun c hc => ?_, fun j c a hj => ?_, ?_⟩⟩,
    fun hd => hd.keep rfl rfl rfl rfl fun _ _ hs hlc => .inl ⟨hs, hlc⟩⟩
  · refine h.users.move (i := i) (x := .syncing b true) rfl rfl (fun c _ => ?_) ?_ (fun c hc => ?_) (fun c hc hw => ?_)
      (fun _ _ _ _ hv => hv) ?_
    · rcases hi with hi | hi <;> rw [hi] <;> rfl
    · rintro c ⟨⟩
      exact hb
    · rw [← of_decide_eq_true hc]
      exact hl
    · apply h.users.held i c hc
      rcases hi with hi | hi <;> rw [hi]
      · rfl
      · exact hw
    · rintro c ⟨⟩
  · rcases List.mem_append.mp hc with hc | hc
    · obtain ⟨hns', j, a, hj⟩ := h.queue.owner c hc
      refine ⟨hns', j, a, (Function.update_of_ne ?_ ..).trans hj⟩
      rintro rfl
      exact hsync c a hj
    · rw [List.mem_singleton.mp hc]
      exact ⟨hns, i, true, Function.update_self ..⟩
  · simp only [Function.update_apply] at hj
    split at hj
    · cases hj
      exact .inl (by simp)
    · exact (h.queue.queued j c a hj).imp_left (List.mem_append_left _)
  · rfl

/-- `bread` of a block that its buffer does not hold. -/
theorem readBlock_spec (h : Inv havedisk1 s l q) (hi : s.procs i = .locked b) (hv : s.valid b = false) :
    ∃ qnext idequeue ide, readBlock havedisk1 s i b = some { s with
        qnext := qnext
        idequeue := idequeue
        ide := ide
        procs := Function.update s.procs i (.syncing b true) } := by
  have hlock := h.users.works i b (by rw [hi]; exact decide_eq_true rfl)
  have hns : ¬ s.Synced b := by
    intro hs
    rw [hs.1] at hv
    cases hv
  have hbq : b ∉ q := by
    refine h.queue.notMem h.users hlock fun a ha => ?_
    rw [hi] at ha
    cases ha
  obtain ⟨qnext, idequeue, heq, -⟩ := iderw_spec h hlock hns hbq
  exact ⟨qnext, idequeue, _, (if_pos hv).trans heq⟩

theorem bwrite_spec (h : Inv havedisk1 s l q) (hi : s.procs i = .out) (hl : s.lock b = some i) :
    ∃ qnext idequeue ide, bwrite havedisk1 s i b = some { s with
        dirty := Function.update s.dirty b true
        qnext := qnext
        idequeue := idequeue
        ide := ide
        procs := Function.update s.procs i (.syncing b true) } := by
  obtain ⟨qnext, idequeue, heq, -⟩ := iderw_spec (inv_pin h hi hl) hl (by simp [St.Synced]) (h.notMem_queue hi hl)
  exact ⟨qnext, idequeue, _, (if_neg (by rw [hl]; simp)).trans heq⟩

/-- A process that is woken in `iderw` looks whether its request is done. -/
theorem inv_await (h : Inv havedisk1 s l q) (hi : s.procs i = .syncing b false) : Inv havedisk1 (await s i b) l q := by
  have hw : (s.procs i).works b = true := by rw [hi]; exact decide_eq_true rfl
  unfold await
  by_cases hs : s.Synced b
  · rw [if_pos hs]
    apply inv_return h hw hs.1
    intro hbq
    exact (h.queue.owner b hbq).1 hs
  · rw [if_neg hs]
    have hbq := (h.queue.queued i b false hi).resolve_right fun hd => hs hd.1
    refine ⟨h.cached.keep rfl rfl rfl (fun _ _ hf => hf) h.cached.dirty, ?_, ?_⟩
    · refine h.users.move (i := i) (x := .syncing b true) rfl rfl (fun c _ => ?_) ?_ (fun c hc => ?_) (fun c hc hwc => ?_)
        (fun _ _ _ _ hv => hv) ?_
      · rw [hi]
        rfl
      · rintro c ⟨⟩
        exact h.users.place i b (by rw [hi]; rfl)
      · rw [← of_decide_eq_true hc]
        exact h.users.works i b hw
      · apply h.users.held i c hc
        rw [hi]
        exact hwc
      · rintro c ⟨⟩
    · refine h.queue.move (i := i) (x := .syncing b true) rfl rfl rfl rfl (fun _ _ => rfl) (fun _ _ => Iff.rfl) ?_ ?_
        (fun _ _ _ _ _ hs => hs)
      · intro c _ a hc
        rw [hi] at hc
        cases hc
        exact ⟨true, rfl⟩
      · rintro c a ⟨⟩
        exact .inl hbq

/-! ### The interrupt -/

@[simp] theorem refs_synced {c : Nat} (p : Proc) : (p.synced b).refs c = p.refs c := by cases p <;> rfl

@[simp] theorem works_synced {c : Nat} (p : Proc) : (p.synced b).works c = p.works c := by cases p <;> rfl

@[simp] theorem buf_synced (p : Proc) : (p.synced b).buf = p.buf := by cases p <;> rfl

theorem synced_eq_locking {c : Nat} {a : Bool} {p : Proc} : p.synced b = .locking c a ↔ p = .locking c a := by
  cases p <;> simp [Proc.synced]

/-- The first request is over, and the disk has failed. -/
def fail (s : St) (b : Nat) : St :=
  { s with
    idequeue := s.qnext b
    valid := Function.update s.valid b true
    dirty := Function.update s.dirty b false
    procs := fun i => (s.procs i).synced b }

/-- The first request is done. -/
def finish (s : St) (b : Nat) : St :=
  { fail s b with
    data := if s.dirty b = false then Function.update s.data b (s.disk (s.tag b)) else s.data
    disk := if s.dirty b = true then Function.update s.disk (s.tag b) (s.data b) else s.disk }

theorem written_eq (h : Inv havedisk1 s l (b :: q)) :
    s.written true = if s.dirty b = true then Function.update s.disk (s.tag b) (s.data b) else s.disk := by
  have hplace := place_cmd (h.cached.present b (h.queue_bufs (List.mem_cons_self ..)))
  have hide : s.ide = some (s.cmd b) := h.queue.ide
  have hsent : (s.cmd b).sent = if s.dirty b = true then some (s.data b) else none := rfl
  unfold St.written
  rw [hide]
  dsimp only
  rw [hsent, hplace]
  cases s.dirty b with
  | false => rfl
  | true => rfl

/-- The interrupt starts the next request. -/
theorem idestart_next {u : St} (h : Inv havedisk1 s l (b :: q)) (htag : u.tag = s.tag) (hide : u.ide = none) :
    (if s.qnext b ≠ 0 then idestart u (s.qnext b) else some u) = some { u with ide := q.head?.map u.cmd } := by
  have hrest : Linked s.qnext (s.qnext b) q := h.queue.linked.2.2
  cases q with
  | nil =>
    have h0 : s.qnext b = 0 := hrest
    rw [if_neg (not_not.mpr h0)]
    simp only [List.head?_nil, Option.map_none, ← hide]
  | cons c q =>
    have hc := h.queue_bufs (List.mem_cons_of_mem _ (List.mem_cons_self ..))
    rw [hrest.1, if_pos hc.1]
    apply idestart_eq hc.1
    rw [htag]
    exact (h.cached.present c hc).1

theorem intr_spec (h : Inv havedisk1 s l (b :: q)) :
    ideintr (execute s true) true = some { finish s b with ide := q.head?.map (finish s b).cmd } := by
  have hb := h.queue_bufs (List.mem_cons_self ..)
  have hhead : s.idequeue = b := h.queue.linked.1
  have hport : (execute s true).port b = s.written true (s.tag b) := by
    have hide : s.ide = some (s.cmd b) := h.queue.ide
    simp only [St.port, execute, hide, place_cmd (h.cached.present b hb)]
  have hread : (if s.dirty b = false ∧ true = true then Function.update s.data b ((execute s true).port b) else s.data) =
      if s.dirty b = false then Function.update s.data b (s.disk (s.tag b)) else s.data := by
    rw [hport, written_eq h]
    by_cases hd : s.dirty b = false
    · simp [hd]
    · simp [hd]
  unfold ideintr
  rw [if_neg (show (execute s true).idequeue ≠ 0 from hhead ▸ hb.1), show (execute s true).idequeue = b from hhead]
  dsimp only
  rw [show (execute s true).dirty b = s.dirty b from rfl, show (execute s true).data = s.data from rfl, hread,
    show (execute s true).disk = (finish s b).disk from written_eq h]
  exact idestart_next (s := s) (u := { finish s b with ide := none }) h rfl rfl

theorem intr_fail (h : Inv havedisk1 s l (b :: q)) :
    ideintr (execute s false) false = some { fail s b with ide := q.head?.map (fail s b).cmd } := by
  have hb := h.queue_bufs (List.mem_cons_self ..)
  have hhead : s.idequeue = b := h.queue.linked.1
  have hwritten : s.written false = s.disk := by
    have hide : s.ide = some (s.cmd b) := h.queue.ide
    unfold St.written
    rw [hide]
    dsimp only
    split
    · rfl
    · rfl
  unfold ideintr execute
  rw [hwritten, if_neg (show s.idequeue ≠ 0 from hhead ▸ hb.1), hhead]
  dsimp only
  rw [if_neg (by simp : ¬ (s.dirty b = false ∧ false = true))]
  exact idestart_next (s := s) (u := { fail s b with ide := none }) h rfl rfl

/-- Read, written or failed, the first request counts as done, and its process is woken. -/
theorem intr_done (h : Inv havedisk1 s l (b :: q)) (ok : Bool) :
    ∃ u, ideintr (execute s ok) ok = some u ∧ (∀ i, u.procs i = (s.procs i).synced b) ∧ u.Synced b := by
  cases ok with
  | true => exact ⟨_, intr_spec h, fun _ => rfl, Function.update_self .., Function.update_self ..⟩
  | false => exact ⟨_, intr_fail h, fun _ => rfl, Function.update_self .., Function.update_self ..⟩

/-- A request is over, whatever it has done to the data and the disk. -/
theorem inv_done (h : Inv havedisk1 s l (b :: q)) (data : Nat → Mem) (disk : Tag → Mem) :
    Inv havedisk1 { fail s b with data := data, disk := disk, ide := q.head?.map ({ fail s b with data := data } : St).cmd } l q := by
  obtain ⟨j₀, hlock⟩ := h.queue.locked h.users (List.mem_cons_self ..)
  have hnd := List.nodup_cons.mp h.queue.linked.nodup
  have hne : ∀ c ∈ q, c ≠ b := by
    rintro c hc rfl
    exact hnd.1 hc
  have hsynced : (fail s b).Synced b := ⟨Function.update_self .., Function.update_self ..⟩
  have hsame : ∀ c, c ≠ b → ((fail s b).Synced c ↔ s.Synced c) := by
    intro c hc
    simp only [fail, St.Synced, Function.update_of_ne hc]
  have hvalid : ∀ c, s.valid c = true → (fail s b).valid c = true := by
    intro c hc
    simp only [fail, Function.update_apply]
    split
    · rfl
    · exact hc
  refine ⟨?_, ⟨?_, h.users.locked, ?_, ?_, ?_, ?_⟩, ⟨h.queue.linked.2.2, ?_, ?_, rfl⟩⟩
  · refine h.cached.keep rfl rfl rfl (fun c _ hf => ?_) fun c hc => ?_
    · have hcb : c ≠ b := by
        rintro rfl
        have := hf.2.2
        have := h.users.ref_of_locked hlock
        omega
      simpa only [fail, St.Fresh, Function.update_of_ne hcb] using hf
    · intro hd
      apply hvalid
      apply h.cached.dirty c hc
      simp only [fail, Function.update_apply] at hd
      split at hd
      · cases hd
      · exact hd
  · intro c hc
    simp only [fail, refs_synced]
    exact h.users.refcnt c hc
  · intro j c hj
    simp only [fail, buf_synced] at hj
    exact h.users.place j c hj
  · intro j c hj
    simp only [fail, works_synced] at hj
    exact h.users.works j c hj
  · intro j c hl hj
    simp only [fail, works_synced] at hj
    exact hvalid c (h.users.held j c hl hj)
  · intro j c hj
    exact h.users.asleep j c (synced_eq_locking.mp hj)
  · intro c hc
    obtain ⟨hns, j, a, hj⟩ := h.queue.owner c (List.mem_cons_of_mem _ hc)
    refine ⟨(hsame c (hne c hc)).not.mpr hns, j, a && decide (c ≠ b), ?_⟩
    show (s.procs j).synced b = _
    rw [hj]
    rfl
  · intro j c a hj
    change (s.procs j).synced b = .syncing c a at hj
    cases hp : s.procs j with
    | syncing d a' =>
      rw [hp] at hj
      simp only [Proc.synced, Proc.syncing.injEq] at hj
      obtain ⟨rfl, ha⟩ := hj
      by_cases e : d = b
      · rw [e] at ha ⊢
        exact .inr ⟨hsynced, by rw [← ha]; simp⟩
      · rcases h.queue.queued j d a' hp with hq | ⟨hs, ha'⟩
        · exact .inl ((List.mem_cons.mp hq).resolve_left e)
        · exact .inr ⟨(hsame d e).mpr hs, by rw [← ha, ha']; rfl⟩
    | _ =>
      rw [hp] at hj
      cases hj

theorem inv_fail (h : Inv havedisk1 s l (b :: q)) :
    Inv havedisk1 { fail s b with ide := q.head?.map (fail s b).cmd } l q := inv_done h s.data s.disk

theorem inv_finish (h : Inv havedisk1 s l (b :: q)) :
    Inv havedisk1 { finish s b with ide := q.head?.map (finish s b).cmd } l q := inv_done h (finish s b).data (finish s b).disk

/-- A write brings the disk up to date; a read finds there what no buffer has. -/
theorem data_finish (h : Data havedisk1 s M) (hinv : Inv havedisk1 s l (b :: q)) (ide : Option Cmd) :
    Data havedisk1 { finish s b with ide := ide } M := by
  have hb := hinv.queue_bufs (List.mem_cons_self ..)
  obtain ⟨j, hlock⟩ := hinv.queue.locked hinv.users (List.mem_cons_self ..)
  have huse : ¬ s.Fresh b := by
    intro hf
    have := hf.2.2
    have := hinv.users.ref_of_locked hlock
    omega
  -- no other buffer has the block
  have hother : ∀ c, IsBuf c → c ≠ b → s.tag c = s.tag b → s.valid c = false := by
    intro c hc hne e
    by_contra hv
    exact hne (hinv.cached.unique hc hb e (fun hf => hv hf.1) huse)
  cases hd : s.dirty b with
  | true =>
    have hv := hinv.cached.dirty b hb hd
    have hdisk : (finish s b).disk = Function.update s.disk (s.tag b) (s.data b) := if_pos hd
    have hdata : (finish s b).data = s.data := if_neg (by rw [hd]; decide)
    have hvalid : (finish s b).valid = s.valid := by
      funext c
      simp only [finish, fail, Function.update_apply]
      split
      · rename_i e
        rw [e, hv]
      · rfl
    have hmem : s.data b = M (s.tag b) := h.cached b hb hv
    refine ⟨?_, fun c hc hs hl => ?_, fun k hk hall => ?_⟩
    · show ∀ c, IsBuf c → (finish s b).valid c = true → (finish s b).data c = M (s.tag c)
      rw [hvalid, hdata]
      exact h.cached
    · show (finish s b).disk (s.tag c) = M (s.tag c)
      rw [hdisk, Function.update_apply]
      split
      · rename_i e
        rw [e]
        exact hmem
      · rename_i e
        have hcb : c ≠ b := by
          rintro rfl
          exact e rfl
        refine h.synced c hc ?_ hl
        simpa only [finish, fail, St.Synced, Function.update_of_ne hcb] using hs
    · show (finish s b).disk k = M k
      have hne : k ≠ s.tag b := by
        rintro rfl
        have hvb := hall b hb rfl
        change (finish s b).valid b = false at hvb
        rw [hvalid, hv] at hvb
        cases hvb
      rw [hdisk, Function.update_of_ne hne]
      apply h.absent k hk
      intro c hc htag
      have hvc := hall c hc htag
      change (finish s b).valid c = false at hvc
      rw [hvalid] at hvc
      exact hvc
  | false =>
    have hv : s.valid b = false := by
      by_contra hv
      exact (hinv.queue.owner b (List.mem_cons_self ..)).1 ⟨by simpa using hv, hd⟩
    have hdisk : (finish s b).disk = s.disk := if_neg (by rw [hd]; decide)
    have hdata : (finish s b).data = Function.update s.data b (s.disk (s.tag b)) := if_pos hd
    have hread : s.disk (s.tag b) = M (s.tag b) := by
      apply h.absent _ (hinv.cached.present b hb)
      intro c hc htag
      by_cases e : c = b
      · rw [e]
        exact hv
      · exact hother c hc e htag
    have hold : ∀ c, c ≠ b → (finish s b).valid c = s.valid c := fun c hc => Function.update_of_ne hc ..
    refine ⟨fun c hc hvc => ?_, fun c hc hs hl => ?_, fun k hk hall => ?_⟩
    · show (finish s b).data c = M (s.tag c)
      rw [hdata, Function.update_apply]
      split
      · rename_i e
        rw [e]
        exact hread
      · rename_i e
        exact h.cached c hc ((hold c e).symm.trans hvc)
    · show (finish s b).disk (s.tag c) = M (s.tag c)
      rw [hdisk]
      have hcb : c ≠ b := by
        rintro rfl
        exact Option.some_ne_none _ (hlock.symm.trans hl)
      refine h.synced c hc ?_ hl
      simpa only [finish, fail, St.Synced, Function.update_of_ne hcb] using hs
    · show (finish s b).disk k = M k
      rw [hdisk]
      apply h.absent k hk
      intro c hc htag
      by_cases e : c = b
      · rw [e]
        exact hv
      · exact (hold c e).symm.trans (hall c hc htag)

end

/-! ## Every event -/

/-- The block that an event changes, and its new contents. -/
def edit (s : St) : Ev → Option (Tag × Mem)
  | .modify i b data => if s.procs i = .out then some (s.tag b, data) else none
  | _ => none

def put (M : Tag → Mem) : Option (Tag × Mem) → Tag → Mem
  | some w => Function.update M w.1 w.2
  | none => M

variable {havedisk1 : Bool} {s t : St} {l q : List Nat} {e : Ev}

/-- What an event does to the queue of the disk: a request goes to its end, the interrupt takes away the first. -/
def Queues (q q' : List Nat) : Ev → Prop
  | .intr _ => q' = q.tail
  | _ => q' = q ∨ ∃ b, q' = q ++ [b]

/-- An interrupt for no request. -/
theorem intr_idle (h : Inv havedisk1 s l []) (ok : Bool) : ideintr (execute s ok) ok = some s := by
  have h0 : s.idequeue = 0 := h.queue.linked
  have hide : s.ide = none := h.queue.ide
  have hwritten : s.written ok = s.disk := by
    unfold St.written
    rw [hide]
  have hsame : execute s ok = s := by
    unfold execute
    rw [hwritten]
  rw [hsame]
  unfold ideintr
  rw [if_pos h0]

theorem inv_step (h : Inv havedisk1 s l q) (hp : Proper havedisk1 s e) (ht : step havedisk1 s e = some t) :
    (∃ l' q', Inv havedisk1 t l' q' ∧ Queues q q' e) ∧
      (Legal havedisk1 s e → ∀ M, Data havedisk1 s M → Data havedisk1 t (put M (edit s e))) := by
  cases e with
  | bread i k =>
    simp only [step] at ht
    split at ht
    · rename_i hi
      rw [bget_eq h.cached] at ht
      cases hhit : l.find? fun b => decide (s.tag b = k) with
      | some b =>
        rw [hhit] at ht
        cases ht
        obtain ⟨htag, l₁, l₂, rfl, hfirst⟩ := List.find?_eq_some_iff_append.mp hhit
        have htag : s.tag b = k := by simpa using htag
        refine ⟨⟨_, _, inv_addRef h hi fun c hc => ?_, .inl rfl⟩, fun _ M hd => hd.keep rfl rfl rfl rfl fun _ _ hs hlc => .inl ⟨hs, hlc⟩⟩
        rw [htag]
        simpa using hfirst c hc
      | none =>
        rw [hhit] at ht
        cases hmiss : l.reverse.find? fun b => decide (s.refcnt b = 0 ∧ s.dirty b = false) with
        | none =>
          rw [hmiss] at ht
          cases ht
        | some b =>
          rw [hmiss] at ht
          cases ht
          have hb := (h.cached.mem b).mp (List.mem_reverse.mp (List.mem_of_find?_eq_some hmiss))
          have hfree : s.refcnt b = 0 ∧ s.dirty b = false := by simpa using List.find?_some hmiss
          refine ⟨⟨_, _, inv_recycle h hi hp (fun c hc => ?_) hb hfree.1, .inl rfl⟩, fun _ M hd => data_recycle hd h.users hb hfree.1 hfree.2 _⟩
          simpa using List.find?_eq_none.mp hhit c ((h.cached.mem c).mpr hc)
    · cases ht
      exact ⟨⟨_, _, h, .inl rfl⟩, fun _ M hd => hd⟩
  | go i =>
    simp only [step, go] at ht
    split at ht
    · rename_i b hi
      cases ht
      refine ⟨⟨_, _, inv_acquiresleep h hi, .inl rfl⟩, fun _ M hd => ?_⟩
      unfold acquiresleep
      split
      · exact hd.keep rfl rfl rfl rfl fun _ _ hs hlc => .inl ⟨hs, hlc⟩
      · refine hd.keep rfl rfl rfl rfl fun c _ hs hlc => .inl ⟨hs, ?_⟩
        simp only [Function.update_apply] at hlc
        split at hlc
        · cases hlc
        · exact hlc
    · rename_i b hi
      have hw : (s.procs i).works b = true := by rw [hi]; exact decide_eq_true rfl
      have hlock := h.users.works i b hw
      unfold readBlock at ht
      split at ht
      · rename_i hv
        obtain ⟨h1, -⟩ := inv_iderw (M := fun _ _ => 0) h hlock (fun hs => by rw [hs.1] at hv; cases hv) (.inr hi) ht
        exact ⟨⟨_, _, h1, .inr ⟨b, rfl⟩⟩, fun _ M => (inv_iderw h hlock (fun hs => by rw [hs.1] at hv; cases hv) (.inr hi) ht).2⟩
      · rename_i hv
        cases ht
        refine ⟨⟨_, _, inv_return h hw (by simpa using hv) (h.queue.notMem h.users hlock fun a ha => ?_), .inl rfl⟩,
          fun _ M hd => hd.keep rfl rfl rfl rfl fun _ _ hs hlc => .inl ⟨hs, hlc⟩⟩
        rw [hi] at ha
        cases ha
    · rename_i b hi
      cases ht
      exact ⟨⟨_, _, inv_await h hi, .inl rfl⟩, fun _ M hd => hd.keep rfl rfl rfl rfl fun _ _ hs hlc => .inl ⟨hs, hlc⟩⟩
    · rename_i b hi
      cases ht
      obtain ⟨l', h'⟩ := inv_leave h hi
      refine ⟨⟨_, _, h', .inl rfl⟩, fun _ M hd => ?_⟩
      unfold leave
      dsimp only
      split
      all_goals exact hd.keep rfl rfl rfl rfl fun _ _ hs hlc => .inl ⟨hs, hlc⟩
    · cases ht
      exact ⟨⟨_, _, h, .inl rfl⟩, fun _ M hd => hd⟩
  | modify i b data =>
    cases ht
    simp only [edit]
    split
    · rename_i hi
      exact ⟨⟨_, _, inv_modify h hi hp data, .inl rfl⟩, fun _ M hd => data_modify hd h hi hp data⟩
    · exact ⟨⟨_, _, h, .inl rfl⟩, fun _ M hd => hd⟩
  | pin i b =>
    cases ht
    split
    · rename_i hi
      exact ⟨⟨_, _, inv_pin h hi hp, .inl rfl⟩, fun _ M hd => data_pin hd b⟩
    · exact ⟨⟨_, _, h, .inl rfl⟩, fun _ M hd => hd⟩
  | bwrite i b =>
    simp only [step] at ht
    split at ht
    · rename_i hi
      unfold bwrite at ht
      rw [if_neg (by rw [show s.lock b = some i from hp]; simp)] at ht
      have hpin := inv_pin h hi hp
      have hns : ¬ St.Synced { s with dirty := Function.update s.dirty b true } b := by simp [St.Synced]
      exact ⟨⟨_, _, (inv_iderw (M := fun _ _ => 0) hpin hp hns (.inl hi) ht).1, .inr ⟨b, rfl⟩⟩,
        fun _ M hd => (inv_iderw hpin hp hns (.inl hi) ht).2 (data_pin hd b)⟩
    · cases ht
      exact ⟨⟨_, _, h, .inl rfl⟩, fun _ M hd => hd⟩
  | brelse i b =>
    simp only [step] at ht
    split at ht
    · rename_i hi
      exact ⟨⟨_, _, inv_brelse h hi hp ht, .inl rfl⟩, fun hl M hd => data_brelse hd h hi hl.1 hl.2 ht⟩
    · cases ht
      exact ⟨⟨_, _, h, .inl rfl⟩, fun _ M hd => hd⟩
  | intr ok =>
    simp only [step] at ht
    cases q with
    | nil =>
      rw [intr_idle h] at ht
      cases ht
      exact ⟨⟨_, _, h, rfl⟩, fun _ M hd => hd⟩
    | cons b q =>
      cases ok with
      | true =>
        rw [intr_spec h] at ht
        cases ht
        exact ⟨⟨_, _, inv_finish h, rfl⟩, fun _ M hd => data_finish hd h _⟩
      | false =>
        rw [intr_fail h] at ht
        cases ht
        exact ⟨⟨_, _, inv_fail h, rfl⟩, fun hl => absurd hl (by simp [Legal])⟩

end CS5600.Xv6.Bio
