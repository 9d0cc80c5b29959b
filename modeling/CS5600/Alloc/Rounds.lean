/-
  CS5600.Alloc.Rounds — a workload repeated on the first-fit allocator (see
  `CS5600.Alloc.Sbrk`): a round calls `mymalloc` on the sizes in order, then `myfree` on the
  results in the same order.

  The first round appends one block a request (`Taken.mallocAll_append`). If its `myfree`s take
  no trim path, they leave those blocks in the list with the flags cleared, in the order of the
  requests, so in every later round request `k` finds blocks `0 .. k-1` in use and takes block
  `k` (`Inv.mallocAll_reuse`): the break never moves again. A block takes the trim path when 552
  bytes are behind it; at most one block of a list does (`Inv.trims_unique`). `myfree` then
  leaves that block in the list, still marked in use, and the rest of the round does not touch
  it (`Stuck.freeAll`).

  - `rounds_settle_iff`: the rounds stay below the first one's highest break and each leaves no
    block in use, exactly when no request has 552 bytes of blocks requested behind it.
-/

import CS5600.Alloc.SbrkProofs

namespace CS5600.Alloc.Sbrk

open CS5600.Lib.Bytes CS5600.Lib.Chains CS5600.Alloc.Block

/-! ## Rounds -/

/-- Where a sequence of calls ends, and the break after each of them. -/
structure Round where
  st : St
  breaks : List Nat

variable (H : Heap)

def mallocAll : St → List Nat → Option (List Nat × Round)
  | st, [] => some ([], ⟨st, []⟩)
  | st, s :: ss =>
    match malloc H st s with
    | none => none
    | some (p, st') => (mallocAll st' ss).map fun r => (p :: r.1, ⟨r.2.st, st'.brk :: r.2.breaks⟩)

def freeAll : St → List Nat → Option Round
  | st, [] => some ⟨st, []⟩
  | st, p :: ps =>
    match free H st p with
    | none => none
    | some st' => (freeAll st' ps).map fun r => ⟨r.st, st'.brk :: r.breaks⟩

def round (ss : List Nat) (st : St) : Option Round :=
  match mallocAll H st ss with
  | none => none
  | some (ps, r) => (freeAll H r.st ps).map fun r' => ⟨r'.st, r.breaks ++ r'.breaks⟩

def rounds (ss : List Nat) : Nat → St → Option (List Round)
  | 0, _ => some []
  | n + 1, st =>
    match round H ss st with
    | none => none
    | some r => (rounds ss n r.st).map (r :: ·)

/-- No break of a later round is above the first round's highest, and after each round no block
    of the list is marked in use. -/
structure Settled (rs : List Round) : Prop where
  breaks : ∀ first later, rs = first :: later →
    ∀ r ∈ later, ∀ b ∈ r.breaks, ∃ c ∈ first.breaks, b ≤ c
  unused : ∀ r ∈ rs, ∀ b, Reaches (next r.st.mem) r.st.head b → inUse r.st.mem b = 0

/-- The rounds return and settle. -/
def RoundsSettle (m : Mem) (ss : List Nat) (n : Nat) : Prop :=
  ∃ rs, rounds H ss n (start H m) = some rs ∧ Settled rs

/-- The bytes that blocks of these sizes take, headers included. -/
def span (ss : List Nat) : Nat := (ss.map (blockSize + ·)).sum

variable {H}

theorem bytes_eq_span (m : Mem) (l : List Nat) : bytes m l = span (l.map (size m)) := by
  simp only [bytes, span, List.map_map]
  rfl

theorem freeAll_append (st : St) (ps qs : List Nat) :
    freeAll H st (ps ++ qs) =
      match freeAll H st ps with
      | none => none
      | some r => (freeAll H r.st qs).map fun r' => ⟨r'.st, r.breaks ++ r'.breaks⟩ := by
  induction ps generalizing st with
  | nil => cases h : freeAll H st qs <;> simp [freeAll, h]
  | cons p ps ih =>
    simp only [List.cons_append, freeAll]
    cases free H st p with
    | none => rfl
    | some st' =>
      simp only [ih]
      cases freeAll H st' ps with
      | none => rfl
      | some r => cases h : freeAll H r.st qs <;> simp [h]

/-! ## Which block a request takes -/

theorem Inv.fits_iff {st : St} {l : List Nat} (h : Inv H st l) {b : Nat} (hb : b ∈ l) (s : Nat) :
    fits st.mem s b = true ↔ payload b ∉ st.live.map Prod.fst ∧ s ≤ size st.mem b := by
  simp only [fits, h.flag b hb, Bool.and_eq_true, beq_iff_eq, decide_eq_true_eq]
  by_cases hm : payload b ∈ st.live.map Prod.fst
  · simp [hm]
  · simp [hm]

/-- First fit passes the blocks in use. -/
theorem Inv.malloc_reuse {st : St} {l l' : List Nat} {b s : Nat} (h : Inv H st (l ++ b :: l'))
    (hl : ∀ c ∈ l, payload c ∈ st.live.map Prod.fst) (hb : payload b ∉ st.live.map Prod.fst) (hs : 0 < s)
    (hfit : s ≤ size st.mem b) :
    malloc H st s = some (payload b, hold s (payload b) { st with mem := setInUse st.mem b 1 }) := by
  have hbl : b ∈ l ++ b :: l' := by simp
  have hb0 : b ≠ 0 := fun e => h.linked.ne_zero (e ▸ hbl)
  have hpass : l.find? (fits st.mem s) = none := by
    refine List.find?_eq_none.mpr fun c hc hf => ?_
    exact ((h.fits_iff (List.mem_append_left _ hc) s).mp hf).1 (hl c hc)
  have hfind : getFreeBlock H st s = some b := by
    rw [getFreeBlock, search_linked _ h.linked h.short, List.find?_append, hpass,
      List.find?_cons_of_pos ((h.fits_iff hbl s).mpr ⟨hb, hfit⟩)]
    rfl
  simp only [malloc, Sbrk.mymalloc, Nat.ne_of_gt hs, if_false, hfind, ne_eq, hb0, not_false_eq_true, if_true, Option.map_some]

/-- With every block in use the request is served from the break. -/
theorem Inv.malloc_append {st : St} {l : List Nat} {s : Nat} (h : Inv H st l)
    (hl : ∀ c ∈ l, payload c ∈ st.live.map Prod.fst) (hs : 0 < s) (hroom : st.brk + (24 + s) ≤ H.hi) :
    malloc H st s = some (payload st.brk, hold s (payload st.brk) (Sbrk.append st s (st.brk + (24 + s)))) := by
  have htop := H.top
  have hpass : l.find? (fits st.mem s) = none :=
    List.find?_eq_none.mpr fun c hc hf => ((h.fits_iff hc s).mp hf).1 (hl c hc)
  have hfind : getFreeBlock H st s = some 0 := by
    rw [getFreeBlock, search_linked _ h.linked h.short, hpass]; rfl
  simp only [malloc, Sbrk.mymalloc, Nat.ne_of_gt hs, if_false, hfind, ne_eq, not_true_eq_false,
    show blockSize + s = 24 + s from rfl, sbrk_grow H h.lo_le (show 24 + s < 2 ^ 63 by omega), hroom, if_true,
    Option.map_some]

/-! ## The requests of a round -/

variable (H) in
/-- The blocks of the list have the sizes `ss` and are all handed out. -/
structure Taken (st : St) (l ss : List Nat) : Prop where
  inv : Inv H st l
  sizes : l.map (size st.mem) = ss
  live : ∀ b ∈ l, payload b ∈ st.live.map Prod.fst

theorem Inv.brk_eq {st : St} {l : List Nat} (h : Inv H st l) : st.brk = H.lo + span (l.map (size st.mem)) := by
  rw [← h.tiles.total, bytes_eq_span]

theorem Taken.brk {st : St} {l ss : List Nat} (h : Taken H st l ss) : st.brk = H.lo + span ss := by
  rw [h.inv.brk_eq, h.sizes]

/-- The first round: each request appends its block. -/
theorem Taken.mallocAll_append {st : St} {l ts : List Nat} (h : Taken H st l ts) (ss : List Nat)
    (hs : ∀ s ∈ ss, 0 < s) (hroom : st.brk + span ss ≤ H.hi) :
    ∃ l' st' bs, mallocAll H st ss = some (l'.map payload, ⟨st', bs⟩) ∧ Taken H st' (l ++ l') (ts ++ ss) ∧
      (∀ b ∈ bs, b ≤ st'.brk) ∧ (ss ≠ [] → st'.brk ∈ bs) := by
  induction ss generalizing st l ts with
  | nil => exact ⟨[], st, [], rfl, by simpa using h, by simp, by simp⟩
  | cons s ss ih =>
    have htop := H.top
    have hspan : span (s :: ss) = 24 + s + span ss := rfl
    have hfirst : st.brk + (24 + s) ≤ H.hi := by omega
    obtain ⟨hsz, -, hz, -, -⟩ := h.inv.append_mem s (st.brk + (24 + s)) (by omega)
    have h1 : Taken H (hold s (payload st.brk) (append st s (st.brk + (24 + s)))) (l ++ [st.brk]) (ts ++ [s]) := by
      refine ⟨h.inv.append (by omega) (by omega) hfirst, ?_, fun b hb => ?_⟩ <;> rw [hold_payload]
      · rw [List.map_append, List.map_congr_left hsz, h.sizes, List.map_singleton, hz]
      · show payload b ∈ payload st.brk :: st.live.map Prod.fst
        rcases List.mem_append.mp hb with hb | hb
        · exact List.mem_cons_of_mem _ (h.live b hb)
        · rw [List.mem_singleton.mp hb]; exact List.mem_cons_self ..
    have hbrk1 : (hold s (payload st.brk) (append st s (st.brk + (24 + s)))).brk = st.brk + (24 + s) := by
      rw [hold_payload]
      rfl
    obtain ⟨l', st', bs, hall, h', hle, hmem⟩ :=
      ih h1 (fun t ht => hs t (List.mem_cons_of_mem _ ht)) (by omega)
    have hup : st.brk + (24 + s) ≤ st'.brk := by
      have e1 := h1.brk
      have e2 := h'.brk
      simp only [span, List.map_append, List.sum_append] at e1 e2
      omega
    refine ⟨st.brk :: l', st', (st.brk + (24 + s)) :: bs, ?_, by simpa using h',
      List.forall_mem_cons.mpr ⟨hup, hle⟩, fun _ => ?_⟩
    · simp only [mallocAll, h.inv.malloc_append h.live (hs s (List.mem_cons_self ..)) hfirst, hall, Option.map_some,
        List.map_cons, hbrk1]
    · by_cases e : ss = []
      · subst e
        simp only [mallocAll, Option.some.injEq, Prod.mk.injEq, Round.mk.injEq] at hall
        rw [← hall.2.1, hbrk1]
        exact List.mem_cons_self ..
      · exact List.mem_cons_of_mem _ (hmem e)

/-- A later round: request `k` takes block `k`. -/
theorem Inv.mallocAll_reuse {st : St} {l l' : List Nat} (h : Inv H st (l ++ l'))
    (hl : ∀ b ∈ l, payload b ∈ st.live.map Prod.fst) (hl' : ∀ b ∈ l', payload b ∉ st.live.map Prod.fst)
    (hs : ∀ b ∈ l', 0 < size st.mem b) :
    ∃ st' bs, mallocAll H st (l'.map (size st.mem)) = some (l'.map payload, ⟨st', bs⟩) ∧
      Taken H st' (l ++ l') ((l ++ l').map (size st.mem)) ∧ ∀ b ∈ bs, b = st.brk := by
  induction l' generalizing st l with
  | nil => exact ⟨st, [], rfl, ⟨h, rfl, by simpa using hl⟩, by simp⟩
  | cons b l' ih =>
    have hb : b ∈ l ++ b :: l' := by simp
    have hfree := hl' b (List.mem_cons_self ..)
    obtain ⟨hsz, -, -⟩ := h.setInUse_frame hb 1
    have hnd : (l ++ b :: l').Nodup := h.linked.nodup
    have e := h.malloc_reuse hl hfree (hs b (List.mem_cons_self ..)) (Nat.le_refl _)
    have h1 := h.reuse hb ((h.fits_iff hb (size st.mem b)).mpr ⟨hfree, Nat.le_refl _⟩)
    rw [hold_payload] at e h1
    set st1 : St := { st with mem := setInUse st.mem b 1, live := (payload b, size st.mem b) :: st.live }
    have hsz1 : ∀ c ∈ l ++ b :: l', size st1.mem c = size st.mem c := hsz
    have hlive1 : ∀ p, p ∈ st1.live.map Prod.fst ↔ p = payload b ∨ p ∈ st.live.map Prod.fst := by
      intro p
      simp [st1]
    have htaken : ∀ c ∈ l ++ [b], payload c ∈ st1.live.map Prod.fst := by
      intro c hc
      rw [hlive1]
      rcases List.mem_append.mp hc with hc | hc
      · exact Or.inr (hl c hc)
      · exact Or.inl (by rw [List.mem_singleton.mp hc])
    have hrest : ∀ c ∈ l', payload c ∉ st1.live.map Prod.fst := by
      intro c hc
      rw [hlive1]
      intro hm
      rcases hm with hm | hm
      · have : b ∉ l' := (List.nodup_cons.mp (List.Nodup.of_append_right hnd)).1
        exact this (payload_inj hm ▸ hc)
      · exact hl' c (List.mem_cons_of_mem _ hc) hm
    have hmap : ∀ k, k ⊆ l ++ b :: l' → k.map (size st1.mem) = k.map (size st.mem) := fun k hk =>
      List.map_congr_left fun c hc => hsz1 c (hk hc)
    have hpos : ∀ c ∈ l', 0 < size st1.mem c := by
      intro c hc
      rw [hsz1 c (by simp [hc])]
      exact hs c (List.mem_cons_of_mem _ hc)
    have hinv : Inv H st1 (l ++ [b] ++ l') := by simpa using h1
    obtain ⟨st', bs, hall, h', hbs⟩ := ih hinv htaken hrest hpos
    rw [hmap l' (by intro c hc; simp [hc])] at hall
    rw [List.append_assoc, hmap _ (by simp)] at h'
    refine ⟨st', st.brk :: bs, ?_, h', List.forall_mem_cons.mpr ⟨rfl, hbs⟩⟩
    simp only [List.map_cons, mallocAll, e, hall, Option.map_some]
    rfl

/-! ## The frees of a round -/

/-- Where no freed block takes the trim path, the frees only clear the flags. -/
theorem Inv.freeAll_release {st : St} {l : List Nat} (h : Inv H st l) (cs : List Nat)
    (hcs : ∀ c ∈ cs, c ∈ l ∧ ¬ Trims st (payload c)) :
    ∃ st' bs, freeAll H st (cs.map payload) = some ⟨st', bs⟩ ∧ Inv H st' l ∧
      (∀ c ∈ l, size st'.mem c = size st.mem c) ∧ st'.brk = st.brk ∧ (∀ b ∈ bs, b = st.brk) ∧
      ∀ p, p ∈ st'.live.map Prod.fst ↔ p ∈ st.live.map Prod.fst ∧ p ∉ cs.map payload := by
  induction cs generalizing st with
  | nil => exact ⟨st, [], rfl, h, fun _ _ => rfl, rfl, by simp, by simp⟩
  | cons c cs ih =>
    obtain ⟨hc, hnt⟩ := hcs c (List.mem_cons_self ..)
    obtain ⟨hsz, -, -⟩ := h.setInUse_frame hc 0
    obtain ⟨st', bs, hall, h', hsz', hbrk', hbs, hlive⟩ := ih (h.release hc) (fun d hd => by
      obtain ⟨hdl, hdt⟩ := hcs d (List.mem_cons_of_mem _ hd)
      refine ⟨hdl, fun ht => hdt ?_⟩
      rw [Trims, headerOf_payload] at ht ⊢
      rw [← hsz d hdl]
      exact ht)
    refine ⟨st', st.brk :: bs, ?_, h', fun d hd => (hsz' d hd).trans (hsz d hd), hbrk',
      List.forall_mem_cons.mpr ⟨rfl, hbs⟩, fun p => ?_⟩
    · simp only [List.map_cons, freeAll, h.free hnt, hall, Option.map_some]
      rfl
    · rw [hlive p, List.map_cons, List.mem_cons, not_or, ← and_assoc]
      refine and_congr_left fun _ => ?_
      simp only [forget, List.mem_map, List.mem_filter, decide_eq_true_eq]
      constructor
      · rintro ⟨x, ⟨hx, hne⟩, rfl⟩
        exact ⟨⟨x, hx, rfl⟩, hne⟩
      · rintro ⟨⟨x, hx, rfl⟩, hne⟩
        exact ⟨x, ⟨hx, hne⟩, rfl⟩

/-- Two blocks cannot both end where the trim test looks. -/
theorem Inv.trims_unique {st : St} {l : List Nat} (h : Inv H st l) {b c : Nat} (hb : b ∈ l) (hc : c ∈ l)
    (hbt : Trims st (payload b)) (hct : Trims st (payload c)) : b = c := by
  by_contra hne
  have hlob := h.lo hb
  have hloc := h.lo hc
  have hbrk := h.brk
  have htop := H.top
  rw [Trims, headerOf_payload, payload_eq, Nat.mod_eq_of_lt (by omega)] at hbt hct
  rcases h.tiles.apart hb hc hne with ha | ha <;> omega

theorem Taken.trims_iff {st : St} {l ss : List Nat} (h : Taken H st l ss) :
    (∃ b ∈ l, Trims st (payload b)) ↔ ∃ pre s post, ss = pre ++ s :: post ∧ span post = 552 := by
  constructor
  · intro ⟨b, hb, ht⟩
    obtain ⟨l0, l1, rfl⟩ := List.append_of_mem hb
    refine ⟨l0.map (size st.mem), size st.mem b, l1.map (size st.mem), by rw [← h.sizes]; simp, ?_⟩
    rw [← bytes_eq_span]
    exact (trims_iff_behind h.inv).mp ht
  · intro ⟨pre, s, post, e, h552⟩
    obtain ⟨l0, l', rfl, -, e'⟩ := List.map_eq_append_iff.mp (h.sizes.trans e)
    obtain ⟨b, l1, rfl, -, rfl⟩ := List.map_eq_cons_iff.mp e'
    refine ⟨b, by simp, (trims_iff_behind h.inv).mpr ?_⟩
    rw [bytes_eq_span]
    exact h552

/-! ## After a trim -/

/-- Block `b` of the list stays marked in use, and the break is too low for a later block to
    take the trim path; `l` is the list before the trim. -/
structure Stuck (l kept : List Nat) (b : Nat) (st : St) : Prop where
  linked : Linked (next st.mem) st.head kept
  sub : ∀ c ∈ kept, c ∈ l
  listed : b ∈ kept
  used : inUse st.mem b = 1
  brk : st.brk = b + 552
  sizes : ∀ c ∈ l, payload c + size st.mem c < 2 ^ 64

/-- The blocks freed after `b` are further up, so only their own flags change. -/
theorem Stuck.freeAll {l kept : List Nat} {b : Nat} {st : St} (h : Stuck l kept b st)
    (hap : ∀ c ∈ l, ∀ d ∈ l, c ≠ d → Apart c 24 d 24) (hshort : kept.length < H.hi) (cs : List Nat)
    (hcs : ∀ c ∈ cs, c ∈ l ∧ b < c) :
    ∃ r, freeAll H st (cs.map payload) = some r ∧ Stuck l kept b r.st := by
  induction cs generalizing st with
  | nil => exact ⟨⟨st, []⟩, rfl, h⟩
  | cons c cs ih =>
    obtain ⟨hc, hlt⟩ := hcs c (List.mem_cons_self ..)
    have hnt : ¬ Trims st (payload c) := by
      have := h.brk
      rw [Trims, headerOf_payload, Nat.mod_eq_of_lt (h.sizes c hc), payload_eq]
      omega
    have hf : free H st (payload c) = some (forget (payload c) { st with mem := setInUse st.mem c 0 }) := by
      simp only [free, Option.map_some, myfree, payload_ne_zero, if_false, headerOf_payload, search_linked _ h.linked hshort, hnt]
    have hoff : ∀ d ∈ l, d ≠ c → Apart c 24 d 24 := fun d hd hne => hap c hc d hd (Ne.symm hne)
    have h1 : Stuck l kept b (forget (payload c) { st with mem := setInUse st.mem c 0 }) := by
      refine ⟨h.linked.congr fun d hd => ?_, h.sub, h.listed, ?_, h.brk, fun d hd => ?_⟩
      · exact next_setInUse_any _ _ (hoff d (h.sub d hd))
      · exact (inUse_agree (setInUse_agree _ _ (hoff b (h.sub b h.listed) (by omega)))).trans h.used
      · show payload d + size (setInUse st.mem c 0) d < 2 ^ 64
        rw [size_setInUse_any _ _ (hoff d hd)]
        exact h.sizes d hd
    obtain ⟨r, hr, h'⟩ := ih h1 fun d hd => hcs d (List.mem_cons_of_mem _ hd)
    refine ⟨⟨r.st, st.brk :: r.breaks⟩, ?_, h'⟩
    simp only [List.map_cons, Sbrk.freeAll, hf, hr, Option.map_some]
    rfl

/-- A round in which a block trims leaves that block in the list and in use. -/
theorem Taken.freeAll_stuck {st : St} {l ss : List Nat} (h : Taken H st l ss) {b : Nat} (hb : b ∈ l)
    (ht : Trims st (payload b)) :
    ∃ r, freeAll H st (l.map payload) = some r ∧ Reaches (next r.st.mem) r.st.head b ∧
      inUse r.st.mem b = 1 := by
  obtain ⟨l0, l1, rfl⟩ := List.append_of_mem hb
  have hnd := h.inv.linked.nodup
  have hne : ∀ c ∈ l0, c ≠ b := fun c hc e =>
    List.disjoint_of_nodup_append hnd hc (e ▸ List.mem_cons_self ..)
  -- the blocks before `b` are freed without a trim
  obtain ⟨st1, bs, hpre, h1, hsz1, hbrk1, -, hlive1⟩ := h.inv.freeAll_release l0 (fun c hc =>
    ⟨List.mem_append_left _ hc, fun hct => hne c hc (h.inv.trims_unique (List.mem_append_left _ hc) hb hct ht)⟩)
  have ht1 : Trims st1 (payload b) := by
    rw [Trims, headerOf_payload] at ht ⊢
    rw [hsz1 b hb, hbrk1]
    exact ht
  have hused1 : inUse st1.mem b = 1 := by
    rw [h1.flag b hb, if_pos]
    refine (hlive1 _).mpr ⟨h.live b hb, fun hm => ?_⟩
    obtain ⟨c, hc, e⟩ := List.mem_map.mp hm
    exact hne c hc (payload_inj e)
  -- `b` trims, which unlinks the last block `t`
  obtain ⟨k, u, t, hl, hbk, hlinked, hf⟩ := h1.trim hb ht1
  have hu : u ∈ l0 ++ b :: l1 := by rw [hl]; simp
  have hoff : ∀ c ∈ l0 ++ b :: l1, c ≠ u → Apart u 24 c 24 := fun c hc hne => h1.apart hu hc (Ne.symm hne)
  have hlo := h1.lo hb
  have hbrk := h1.brk
  have htop := H.top
  have h2 : Stuck (l0 ++ b :: l1) (k ++ [u]) b (forget (payload b)
      { st1 with mem := setNext st1.mem u 0, tail := u, brk := st1.brk - (24 + size st1.mem b) }) := by
    refine ⟨hlinked, fun c hc => ?_, hbk, ?_, ?_, fun c hc => ?_⟩
    · rw [hl]
      rcases List.mem_append.mp hc with hc | hc
      · exact List.mem_append_left _ hc
      · rw [List.mem_singleton.mp hc]; simp
    · exact (inUse_setNext_any _ _ (hoff b hb)).trans hused1
    · show st1.brk - (24 + size st1.mem b) = b + 552
      rw [Trims, headerOf_payload, payload_eq, Nat.mod_eq_of_lt (by omega)] at ht1
      omega
    · have := h1.lo hc
      show payload c + size (setNext st1.mem u 0) c < 2 ^ 64
      rw [size_setNext_any _ _ (hoff c hc), payload_eq]
      omega
  have hshort : (k ++ [u]).length < H.hi := by
    have := h1.short
    rw [hl] at this
    simp at this ⊢
    omega
  have hbehind : ∀ c ∈ l1, c ∈ l0 ++ b :: l1 ∧ b < c := fun c hc => by
    refine ⟨by simp [hc], ?_⟩
    have hs := (List.pairwise_cons.mp (List.pairwise_append.mp h1.tiles.sorted).2.1).1 c hc
    omega
  obtain ⟨r, hr, h3⟩ := h2.freeAll (fun c hc d hd => h1.apart hc hd) hshort l1 hbehind
  refine ⟨⟨r.st, bs ++ (st1.brk - (24 + size st1.mem b)) :: r.breaks⟩, ?_, ?_, h3.used⟩
  · simp only [List.map_append, List.map_cons, freeAll_append, hpre, Sbrk.freeAll, hf, hr, Option.map_some]
    rfl
  · exact (h3.linked.reaches_iff b).mpr h3.listed

/-! ## Whole rounds -/

variable (H) in
/-- Between rounds: the blocks of the list have the sizes `ss` and none is handed out. -/
structure Idle (st : St) (l ss : List Nat) : Prop where
  inv : Inv H st l
  sizes : l.map (size st.mem) = ss
  live : st.live = []

theorem Idle.unused {st : St} {l ss : List Nat} (h : Idle H st l ss) {b : Nat}
    (hr : Reaches (next st.mem) st.head b) : inUse st.mem b = 0 := by
  rw [h.inv.flag b ((h.inv.linked.reaches_iff b).mp hr), h.live]
  rfl

/-- Without a trim the frees of a round end between rounds, at the same break. -/
theorem Taken.freeAll_idle {st : St} {l ss : List Nat} (h : Taken H st l ss)
    (hnt : ¬ ∃ b ∈ l, Trims st (payload b)) :
    ∃ st' bs, freeAll H st (l.map payload) = some ⟨st', bs⟩ ∧ Idle H st' l ss ∧ ∀ b ∈ bs, b = H.lo + span ss := by
  obtain ⟨st', bs, hall, h', hsz, -, hbs, hlive⟩ := h.inv.freeAll_release l fun c hc =>
    ⟨hc, fun ht => hnt ⟨c, hc, ht⟩⟩
  refine ⟨st', bs, hall, ⟨h', ?_, ?_⟩, fun b hb => (hbs b hb).trans h.brk⟩
  · rw [List.map_congr_left hsz, h.sizes]
  · refine List.eq_nil_iff_forall_not_mem.mpr fun x hx => ?_
    obtain ⟨hp1, hp2⟩ := (hlive x.1).mp (List.mem_map_of_mem hx)
    obtain ⟨b, hb, e⟩ := h.inv.mem_of_live hp1
    exact hp2 (e ▸ List.mem_map_of_mem hb)

theorem Idle.round_idle {st : St} {l ss : List Nat} (h : Idle H st l ss) (hs : ∀ s ∈ ss, 0 < s)
    (hnt : ¬ ∃ pre s post, ss = pre ++ s :: post ∧ span post = 552) :
    ∃ r, round H ss st = some r ∧ Idle H r.st l ss ∧ ∀ b ∈ r.breaks, b = H.lo + span ss := by
  obtain ⟨st1, bs1, hall, h1, hbs1⟩ := Inv.mallocAll_reuse (l := []) h.inv (by simp) (by simp [h.live]) (fun b hb => by
    apply hs
    rw [← h.sizes]
    exact List.mem_map_of_mem hb)
  rw [List.nil_append, h.sizes] at h1
  rw [h.sizes] at hall
  obtain ⟨st2, bs2, hfree, h2, hbs2⟩ := h1.freeAll_idle (mt h1.trims_iff.mp hnt)
  have hbrk : st.brk = H.lo + span ss := by rw [h.inv.brk_eq, h.sizes]
  refine ⟨⟨st2, bs1 ++ bs2⟩, ?_, h2, List.forall_mem_append.mpr ⟨fun b hb => (hbs1 b hb).trans hbrk, hbs2⟩⟩
  simp only [round, hall, hfree, Option.map_some]

theorem Idle.rounds_idle {st : St} {l ss : List Nat} (h : Idle H st l ss) (hs : ∀ s ∈ ss, 0 < s)
    (hnt : ¬ ∃ pre s post, ss = pre ++ s :: post ∧ span post = 552) (n : Nat) :
    ∃ rs, rounds H ss n st = some rs ∧
      ∀ r ∈ rs, Idle H r.st l ss ∧ ∀ b ∈ r.breaks, b = H.lo + span ss := by
  induction n generalizing st with
  | zero => exact ⟨[], rfl, by simp⟩
  | succ n ih =>
    obtain ⟨r, hr, h', hbs⟩ := h.round_idle hs hnt
    obtain ⟨rs, hrs, hall⟩ := ih h'
    exact ⟨r :: rs, by simp only [rounds, hr, hrs, Option.map_some], List.forall_mem_cons.mpr ⟨⟨h', hbs⟩, hall⟩⟩

/-- From the empty allocator, with room for the requests, repeated rounds settle exactly when no
    request has 552 bytes of blocks requested behind it. -/
theorem rounds_settle_iff (H : Heap) (m : Mem) (ss : List Nat) (hne : ss ≠ []) (hs : ∀ s ∈ ss, 0 < s)
    (hroom : H.lo + span ss ≤ H.hi) (n : Nat) :
    RoundsSettle H m ss (n + 1) ↔ ¬ ∃ pre s post, ss = pre ++ s :: post ∧ span post = 552 := by
  have h0 : Taken H (start H m) [] [] := ⟨inv_start H m, rfl, by simp⟩
  obtain ⟨l, st1, bs1, hall, h1, hle1, htop1⟩ := h0.mallocAll_append ss hs hroom
  rw [List.nil_append, List.nil_append] at h1
  constructor
  · intro ⟨rs, hrs, hset⟩ hex
    obtain ⟨b, hb, ht⟩ := h1.trims_iff.mpr hex
    obtain ⟨r, hfree, hreach, hused⟩ := h1.freeAll_stuck hb ht
    simp only [rounds, round, hall, hfree, Option.map_some] at hrs
    obtain ⟨rs', -, rfl⟩ := Option.map_eq_some_iff.mp hrs
    have := hset.unused _ (List.mem_cons_self ..) b hreach
    rw [hused] at this
    exact absurd this (by decide)
  · intro hnt
    obtain ⟨st2, bs2, hfree, h2, -⟩ := h1.freeAll_idle (mt h1.trims_iff.mp hnt)
    obtain ⟨rs, hrs, hidle⟩ := h2.rounds_idle hs hnt n
    refine ⟨⟨st2, bs1 ++ bs2⟩ :: rs, by simp only [rounds, round, hall, hfree, hrs, Option.map_some], ?_, ?_⟩
    · intro first later e r hr b hb
      obtain ⟨rfl, rfl⟩ := List.cons.inj e
      refine ⟨st1.brk, List.mem_append_left _ (htop1 hne), ?_⟩
      rw [(hidle r hr).2 b hb, h1.brk]
    · intro r hr b hreach
      rcases List.mem_cons.mp hr with rfl | hr
      · exact h2.unused hreach
      · exact (hidle r hr).1.unused hreach

/-- A hundred rounds of two small blocks. -/
theorem rounds_settle_two_blocks :
    page.lo + span [8, 16] ≤ page.hi ∧
    (RoundsSettle page zeros [8, 16] (99 + 1) ↔
      ¬ ∃ pre s post, [8, 16] = pre ++ s :: post ∧ span post = 552) :=
  ⟨by decide, rounds_settle_iff page zeros [8, 16] (by decide) (by decide) (by decide) 99⟩

/-- `mymalloc(8)`, `mymalloc(528)`: freeing the first trims, and leaves it in use. -/
theorem round_leaves_block_in_use :
    ([8, 528] : List Nat) ≠ [] ∧ (∀ s ∈ [8, 528], 0 < s) ∧ page.lo + span [8, 528] ≤ page.hi ∧
      ¬ RoundsSettle page zeros [8, 528] 1 := by
  refine ⟨by decide, by decide, by decide, fun h => ?_⟩
  obtain ⟨rs, hrs, hset⟩ := h
  have hr : (round page [8, 528] (start page zeros)).map (fun r => (r.st.head, inUse r.st.mem 4096)) =
      some (4096, 1) := by decide +kernel
  obtain ⟨r, hr, e⟩ := Option.map_eq_some_iff.mp hr
  obtain ⟨hhead, hused⟩ := Prod.mk.inj e
  simp only [rounds, hr, Option.map_some, Option.some.injEq] at hrs
  subst hrs
  have := hset.unused r (List.mem_cons_self ..) 4096 (by rw [hhead]; exact .here (by decide))
  rw [hused] at this
  exact absurd this (by decide)

end CS5600.Alloc.Sbrk
