/-
  CS5600.Alloc.SbrkProofs — what the first-fit allocator keeps and what it loses
  (see `CS5600.Alloc.Sbrk`).

  While no call takes `myfree`'s trim path, the list's blocks tile the heap from its start to
  the break (`Inv`, `Tiles`), so the blocks of the client's pointers stay in the list, in use and
  apart. The trim test compares the break with `ptr + size`, and `ptr` is 576 bytes past the
  header while the header takes 24: it succeeds exactly when the blocks behind the freed one
  take 552 bytes (`trims_iff_behind`), never for the last block, and then unlinks a block that
  was not freed (`trim_drops_tail`).

  - `live_kept_iff`: in a run the client's blocks are all kept, and each `myfree` takes only its
    own block, exactly when no `myfree` of the run takes the trim path.
  - `payload_isolated_iff`: the byte ranges handed out lie below the break and clear of headers
    and of each other exactly in the runs that hand out nothing, since already the first range
    starts 552 bytes past the block it belongs to.
-/

import CS5600.Alloc.Sbrk

namespace CS5600.Alloc.Sbrk

open CS5600.Lib.Bytes CS5600.Lib.Chains CS5600.Lib.Runs CS5600.Alloc.Block

variable (H : Heap)

/-! ## The blocks tile the heap -/

/-- The blocks `l`, in this order and with their headers, fill the memory from `a` to `e`. -/
def Tiles (m : Mem) : Nat → List Nat → Nat → Prop
  | a, [], e => a = e
  | a, b :: l, e => b = a ∧ Tiles m (b + 24 + size m b) l e

theorem Tiles.bounds {m : Mem} {a e : Nat} {l : List Nat} (h : Tiles m a l e) :
    a ≤ e ∧ ∀ b ∈ l, a ≤ b ∧ b + 24 + size m b ≤ e := by
  induction l generalizing a with
  | nil => exact ⟨Nat.le_of_eq h, by simp⟩
  | cons b l ih =>
    obtain ⟨rfl, hl⟩ := h
    obtain ⟨h1, h2⟩ := ih hl
    refine ⟨by omega, fun c hc => ?_⟩
    rcases List.mem_cons.mp hc with rfl | hc
    · exact ⟨Nat.le_refl _, h1⟩
    · have := h2 c hc; exact ⟨by omega, this.2⟩

theorem Tiles.sorted {m : Mem} {a e : Nat} {l : List Nat} (h : Tiles m a l e) :
    l.Pairwise fun b c => b + 24 + size m b ≤ c := by
  induction l generalizing a with
  | nil => exact List.Pairwise.nil
  | cons b l ih =>
    obtain ⟨rfl, hl⟩ := h
    exact List.pairwise_cons.mpr ⟨fun c hc => (hl.bounds.2 c hc).1, ih hl⟩

theorem Tiles.apart {m : Mem} {a e : Nat} {l : List Nat} (h : Tiles m a l e) {b c : Nat} (hb : b ∈ l)
    (hc : c ∈ l) (hne : b ≠ c) : Apart b (24 + size m b) c (24 + size m c) := by
  have hp : l.Pairwise fun b c => Apart b (24 + size m b) c (24 + size m c) :=
    h.sorted.imp fun hbc => Or.inl (by omega)
  have : Std.Symm fun b c => Apart b (24 + size m b) c (24 + size m c) := ⟨fun _ _ h => h.symm⟩
  exact hp.forall hb hc hne

theorem Tiles.congr {m m' : Mem} {a e : Nat} {l : List Nat} (h : Tiles m a l e)
    (he : ∀ b ∈ l, size m' b = size m b) : Tiles m' a l e := by
  induction l generalizing a with
  | nil => exact h
  | cons b l ih =>
    obtain ⟨rfl, hl⟩ := h
    refine ⟨rfl, ?_⟩
    rw [he b (List.mem_cons_self ..)]
    exact ih hl (fun c hc => he c (List.mem_cons_of_mem _ hc))

theorem Tiles.snoc {m : Mem} {a e : Nat} {l : List Nat} (h : Tiles m a l e) :
    Tiles m a (l ++ [e]) (e + 24 + size m e) := by
  induction l generalizing a with
  | nil => exact ⟨Eq.symm h, rfl⟩
  | cons b l ih => exact ⟨h.1, ih h.2⟩

/-- The bytes the blocks take, headers included. -/
def bytes (m : Mem) (l : List Nat) : Nat := (l.map fun b => 24 + size m b).sum

theorem Tiles.total {m : Mem} {a e : Nat} {l : List Nat} (h : Tiles m a l e) : a + bytes m l = e := by
  induction l generalizing a with
  | nil => have e : a = e := h; simp [bytes, e]
  | cons b l ih =>
    obtain ⟨rfl, hl⟩ := h
    have := ih hl
    simp only [bytes, List.map_cons, List.sum_cons] at this ⊢
    omega

theorem Tiles.drop {m : Mem} {a e b : Nat} {l l' : List Nat} (h : Tiles m a (l ++ b :: l') e) :
    Tiles m b (b :: l') e := by
  induction l generalizing a with
  | nil => obtain ⟨rfl, hl⟩ := h; exact ⟨rfl, hl⟩
  | cons c l ih => exact ih h.2

/-! ## The invariant -/

structure Inv (st : St) (l : List Nat) : Prop where
  linked : Linked (next st.mem) st.head l
  tail : st.tail = l.getLast?.getD 0
  tiles : Tiles st.mem H.lo l st.brk
  brk : st.brk ≤ H.hi
  flag : ∀ b ∈ l, inUse st.mem b = if payload b ∈ st.live.map Prod.fst then 1 else 0
  listed : ∀ x ∈ st.live, ∃ b ∈ l, x.1 = payload b
  nodup : (st.live.map Prod.fst).Nodup

theorem inv_start (m : Mem) : Inv H (start H m) [] :=
  ⟨rfl, rfl, rfl, H.le, by simp, by simp [start], by simp [start]⟩

variable {H}

theorem Inv.lo {st : St} {l : List Nat} (h : Inv H st l) {b : Nat} (hb : b ∈ l) :
    H.lo ≤ b ∧ b + 24 + size st.mem b ≤ st.brk ∧ b < 2 ^ 47 := by
  obtain ⟨h1, h2⟩ := h.tiles.bounds.2 b hb
  have := h.brk
  have := H.top
  exact ⟨h1, h2, by omega⟩

theorem Inv.lo_le {st : St} {l : List Nat} (h : Inv H st l) : H.lo ≤ st.brk := h.tiles.bounds.1

theorem Inv.short {st : St} {l : List Nat} (h : Inv H st l) : l.length < H.hi := by
  have hpos := H.pos
  have hle := H.le
  refine h.linked.length_lt (by omega) fun b hb => ?_
  have := h.lo hb
  have := h.brk
  omega

/-- Two blocks of the list have their headers apart. -/
theorem Inv.apart {st : St} {l : List Nat} (h : Inv H st l) {b c : Nat} (hb : b ∈ l) (hc : c ∈ l)
    (hne : b ≠ c) : Apart b 24 c 24 := by
  rcases h.tiles.apart hb hc hne with h | h
  · exact Or.inl (by omega)
  · exact Or.inr (by omega)

/-- Writing a block's `in_use` keeps every size, every link and every other flag. -/
theorem Inv.setInUse_frame {st : St} {l : List Nat} (h : Inv H st l) {b : Nat} (hb : b ∈ l) (v : Nat) :
    (∀ c ∈ l, size (setInUse st.mem b v) c = size st.mem c) ∧
    (∀ c ∈ l, next (setInUse st.mem b v) c = next st.mem c) ∧
    (∀ c ∈ l, c ≠ b → inUse (setInUse st.mem b v) c = inUse st.mem c) := by
  have hap : ∀ c ∈ l, c ≠ b → Apart b 24 c 24 := fun c hc hne => h.apart hb hc (Ne.symm hne)
  refine ⟨fun c hc => ?_, fun c hc => ?_, fun c hc hne => ?_⟩
  · exact size_setInUse_any _ _ (hap c hc)
  · exact next_setInUse_any _ _ (hap c hc)
  · exact inUse_agree (setInUse_agree _ _ (hap c hc hne))

/-! ## `mymalloc` -/

theorem hold_payload (s b : Nat) (st : St) : hold s (payload b) st = { st with live := (payload b, s) :: st.live } :=
  if_neg (payload_ne_zero b)

theorem Inv.reuse {st : St} {l : List Nat} (h : Inv H st l) {b s : Nat} (hb : b ∈ l) (hf : fits st.mem s b = true) :
    Inv H (hold s (payload b) { st with mem := setInUse st.mem b 1 }) l := by
  rw [hold_payload]
  obtain ⟨hsz, hnx, hiu⟩ := h.setInUse_frame hb 1
  have hfree : payload b ∉ st.live.map Prod.fst := by
    intro hm
    have := h.flag b hb
    simp only [hm, if_true] at this
    simp [fits, this] at hf
  refine ⟨h.linked.congr hnx, h.tail, h.tiles.congr hsz, h.brk, fun c hc => ?_, fun x hx => ?_,
    List.nodup_cons.mpr ⟨hfree, h.nodup⟩⟩
  · by_cases e : c = b
    · subst e; simp
    · have hp : payload c ≠ payload b := fun hp => e (payload_inj hp)
      simp only [hiu c hc e, h.flag c hc, List.map_cons, List.mem_cons, hp, false_or]
  · rcases List.mem_cons.mp hx with rfl | hx
    · exact ⟨b, hb, rfl⟩
    · exact h.listed x hx

/-- What appending a block does to memory, the list being `l` before. -/
theorem Inv.append_mem {st : St} {l : List Nat} (h : Inv H st l) (s brk : Nat) (hs : s < 2 ^ 63) :
    (∀ c ∈ l, size (append st s brk).mem c = size st.mem c) ∧
    (∀ c ∈ l, inUse (append st s brk).mem c = inUse st.mem c) ∧
    size (append st s brk).mem st.brk = s ∧ inUse (append st s brk).mem st.brk = 1 ∧
    Linked (next (append st s brk).mem) (append st s brk).head (l ++ [st.brk]) := by
  have hlo := h.lo_le
  have hpos := H.pos
  have hbrk := h.brk
  have htop := H.top
  obtain ⟨hz, hu, hn⟩ := placeHeader_fields st.mem st.brk s 1
  have hold : ∀ c ∈ l, Agree (placeHeader st.mem st.brk s 1) st.mem c 24 := fun c hc =>
    placeHeader_agree _ _ _ (Or.inr (by have := (h.lo hc).2.1; omega))
  have hs64 : s % 2 ^ 64 = s := Nat.mod_eq_of_lt (by omega)
  rcases List.eq_nil_or_concat' l with rfl | ⟨l', t, rfl⟩
  · have ht : st.tail = 0 := h.tail
    have hh : st.head = 0 := h.linked
    simp only [append, ht, hh, ne_eq, not_true_eq_false, if_false, if_true, hz, hs64, List.not_mem_nil,
      false_implies, implies_true, true_and, List.nil_append]
    exact ⟨hu, rfl, by omega, hn⟩
  · have ht : st.tail = t := by simpa using h.tail
    have hmem : t ∈ l' ++ [t] := by simp
    have htl := h.lo hmem
    have htne : t ≠ 0 := by omega
    have hhne : st.head ≠ 0 := by
      intro e
      have hl := h.linked
      rw [e] at hl
      cases l' with
      | nil => exact htne hl.1.symm
      | cons b l' => exact hl.2.1 hl.1.symm
    have hnew : Agree (setNext (placeHeader st.mem st.brk s 1) t st.brk) (placeHeader st.mem st.brk s 1) st.brk 24 :=
      setNext_agree _ _ (Or.inl (by omega))
    have hother : ∀ c ∈ l' ++ [t], c ≠ t →
        Agree (setNext (placeHeader st.mem st.brk s 1) t st.brk) st.mem c 24 := fun c hc hne =>
      (setNext_agree _ _ (h.apart hmem hc (Ne.symm hne))).trans (hold c hc)
    simp only [append, ht, htne, hhne, ne_eq, not_false_eq_true, if_true, if_false]
    refine ⟨fun c hc => ?_, fun c hc => ?_, ?_, ?_, ?_⟩
    · by_cases e : c = t
      · subst e; rw [size_setNext]; exact size_agree (hold c hc)
      · exact size_agree (hother c hc e)
    · by_cases e : c = t
      · subst e; rw [inUse_setNext]; exact inUse_agree (hold c hc)
      · exact inUse_agree (hother c hc e)
    · rw [size_agree hnew, hz, hs64]
    · exact (inUse_agree hnew).trans hu
    · have hnd := h.linked.nodup
      rw [List.append_assoc]
      refine h.linked.snoc (fun c hc => next_agree (hother c (List.mem_append_left _ hc) ?_)) ?_ (by omega) ?_
      · intro e
        subst e
        exact List.disjoint_of_nodup_append hnd hc (List.mem_singleton.mpr rfl)
      · rw [next_setNext, Nat.mod_eq_of_lt (by omega)]
      · rw [next_agree hnew, hn]

theorem Inv.append {st : St} {l : List Nat} (h : Inv H st l) {s brk : Nat} (hs : s < 2 ^ 63)
    (hb : brk = st.brk + 24 + s) (hle : brk ≤ H.hi) :
    Inv H (hold s (payload st.brk) (append st s brk)) (l ++ [st.brk]) := by
  rw [hold_payload]
  obtain ⟨hsz, hiu, hz, hu, hlink⟩ := h.append_mem s brk hs
  have hfresh : payload st.brk ∉ st.live.map Prod.fst := by
    intro hm
    obtain ⟨x, hx, e⟩ := List.mem_map.mp hm
    obtain ⟨b, hbl, e'⟩ := h.listed x hx
    have := payload_inj (e'.symm.trans e)
    have := (h.lo hbl).2.1
    omega
  refine ⟨hlink, ?_, ?_, hle, fun c hc => ?_, fun x hx => ?_, List.nodup_cons.mpr ⟨hfresh, h.nodup⟩⟩
  · simp [Sbrk.append]
  · have := (h.tiles.congr hsz).snoc
    rw [hz] at this
    rw [show (Sbrk.append st s brk).brk = st.brk + 24 + s from hb]
    exact this
  · show _ = if payload c ∈ payload st.brk :: st.live.map Prod.fst then 1 else 0
    rcases List.mem_append.mp hc with hc | hc
    · have hp : payload c ≠ payload st.brk := by
        intro e
        have := payload_inj e
        have := (h.lo hc).2.1
        omega
      rw [hiu c hc, h.flag c hc]
      simp only [List.mem_cons, hp, false_or]
    · rw [List.mem_singleton.mp hc, hu, if_pos (List.mem_cons_self ..)]
  · rcases List.mem_cons.mp hx with rfl | hx
    · exact ⟨st.brk, by simp, rfl⟩
    · obtain ⟨b, hbl, e⟩ := h.listed x hx
      exact ⟨b, List.mem_append_left _ hbl, e⟩

/-- A request whose size does not overflow returns and keeps the invariant; the block it hands
    out is in the list and large enough. -/
theorem Inv.mymalloc {st : St} {l : List Nat} (h : Inv H st l) {s : Nat} (hs : 24 + s < 2 ^ 63) :
    ∃ r l', mymalloc H st s = some r ∧ Inv H (hold s r.1 r.2) l' ∧ st.brk ≤ r.2.brk ∧
      (r.1 = 0 ∨ ∃ b ∈ l', r.1 = payload b ∧ s ≤ size r.2.mem b) := by
  unfold Sbrk.mymalloc getFreeBlock
  by_cases h0 : s = 0
  · exact ⟨(0, st), l, by simp [h0], h, Nat.le_refl _, Or.inl rfl⟩
  rw [if_neg h0]
  cases hf : search (next st.mem) (fits st.mem s) H.hi st.head with
  | none => rw [search_linked _ h.linked h.short] at hf; cases hf
  | some b =>
    by_cases hb : b = 0
    · have hbs : blockSize + s = 24 + s := rfl
      simp only [hb, ne_eq, not_true_eq_false, if_false, hbs, sbrk_grow H h.lo_le hs]
      by_cases hle : st.brk + (24 + s) ≤ H.hi
      · simp only [hle, if_true]
        refine ⟨_, _, rfl, h.append (by omega) (by omega) hle, Nat.le_add_right _ _, Or.inr ⟨st.brk, by simp, rfl, ?_⟩⟩
        exact Nat.le_of_eq (h.append_mem s _ (by omega)).2.2.1.symm
      · simp only [hle, if_false]
        exact ⟨_, l, rfl, h, Nat.le_refl _, Or.inl rfl⟩
    · simp only [ne_eq, hb, not_false_eq_true, if_true]
      obtain ⟨hbl, hfit⟩ := search_found h.linked h.short hf hb
      have hsz : s ≤ size st.mem b := by
        simp only [fits, Bool.and_eq_true, decide_eq_true_eq] at hfit
        exact hfit.2
      exact ⟨_, l, rfl, h.reuse hbl hfit, Nat.le_refl _, Or.inr ⟨b, hbl, rfl, by rw [size_setInUse]; exact hsz⟩⟩

/-! ## `myfree` -/

theorem Inv.release {st : St} {l : List Nat} (h : Inv H st l) {b : Nat} (hb : b ∈ l) :
    Inv H (forget (payload b) { st with mem := setInUse st.mem b 0 }) l := by
  unfold Sbrk.forget
  obtain ⟨hsz, hnx, hiu⟩ := h.setInUse_frame hb 0
  have hmap : (st.live.filter (·.1 ≠ payload b)).map Prod.fst = (st.live.map Prod.fst).filter (· ≠ payload b) := by
    rw [List.filter_map]; rfl
  refine ⟨h.linked.congr hnx, h.tail, h.tiles.congr hsz, h.brk, fun c hc => ?_,
    fun x hx => h.listed x (List.mem_filter.mp hx).1, by rw [hmap]; exact h.nodup.filter _⟩
  simp only [hmap, List.mem_filter, decide_eq_true_eq]
  by_cases e : c = b
  · subst e; simp
  · have hp : payload c ≠ payload b := fun hp => e (payload_inj hp)
    simp only [hiu c hc e, h.flag c hc, hp, ne_eq, not_false_eq_true, and_true]

theorem Inv.mem_of_live {st : St} {l : List Nat} (h : Inv H st l) {ptr : Nat} (hp : ptr ∈ st.live.map Prod.fst) :
    ∃ b ∈ l, ptr = payload b := by
  obtain ⟨x, hx, rfl⟩ := List.mem_map.mp hp
  exact h.listed x hx

/-- Without the trim path `myfree` clears the block's flag and does nothing else. -/
theorem Inv.free {st : St} {l : List Nat} (h : Inv H st l) {b : Nat} (ht : ¬ Trims st (payload b)) :
    free H st (payload b) = some (forget (payload b) { st with mem := setInUse st.mem b 0 }) := by
  simp only [Sbrk.free, Option.map_some, Sbrk.myfree, payload_ne_zero, if_false, headerOf_payload, search_linked _ h.linked h.short, ht]

/-! ## The trim path -/

/-- The trim test succeeds when the blocks behind the freed one take exactly 552 bytes: the
    distance from the end of a header to where `header + BLOCK_SIZE` points. -/
theorem trims_iff_behind {st : St} {l l' : List Nat} {b : Nat} (h : Inv H st (l ++ b :: l')) :
    Trims st (payload b) ↔ bytes st.mem l' = 552 := by
  have ht := h.tiles.drop.total
  have hb := h.lo (List.mem_append_right l (List.mem_cons_self ..))
  have hbrk := h.brk
  have htop := H.top
  simp only [bytes, List.map_cons, List.sum_cons] at ht ⊢
  rw [Trims, headerOf_payload, payload_eq, Nat.mod_eq_of_lt (by omega)]
  omega

theorem unlinkTail_linked {m : Mem} {u t : Nat} : ∀ {k : List Nat} {a fuel : Nat},
    Linked (next m) a (k ++ [u, t]) → k.length + 2 ≤ fuel → unlinkTail fuel m t a = some (setNext m u 0, u) := by
  intro k
  induction k with
  | nil =>
    intro a fuel h hf
    obtain ⟨n, rfl⟩ : ∃ n, fuel = n + 2 := ⟨fuel - 2, by simp at hf; omega⟩
    obtain ⟨rfl, ha, hat, -⟩ := h
    simp [unlinkTail, ha, hat]
  | cons c k ih =>
    intro a fuel h hf
    obtain ⟨n, rfl⟩ : ∃ n, fuel = n + 1 := ⟨fuel - 1, by simp at hf; omega⟩
    have hnd := h.nodup
    obtain ⟨rfl, ha, hl⟩ := h
    have hne : next m a ≠ t := by
      intro e
      -- the node after `a` would be the last one, with `u` still to come
      cases k with
      | nil =>
        have hu : t = u := e ▸ hl.1
        simp [hu] at hnd
      | cons d k =>
        have hd : t = d := e ▸ hl.1
        simp [hd] at hnd
    simp only [unlinkTail, ha, if_false, hne]
    exact ih hl (by simp at hf; omega)

/-- The trim path unlinks the list's last block, which is never the one freed, and lowers the
    break by the freed block, whose flag it leaves set. -/
theorem Inv.trim {st : St} {l : List Nat} {b : Nat} (h : Inv H st l) (hb : b ∈ l) (ht : Trims st (payload b)) :
    ∃ k u t, l = k ++ [u, t] ∧ b ∈ k ++ [u] ∧ Linked (next (setNext st.mem u 0)) st.head (k ++ [u]) ∧
      Sbrk.free H st (payload b) = some (forget (payload b)
        { st with mem := setNext st.mem u 0, tail := u, brk := st.brk - (24 + size st.mem b) }) := by
  obtain ⟨l0, l', rfl⟩ := List.append_of_mem hb
  have h552 := (trims_iff_behind h).mp ht
  have hlo := h.lo hb
  rcases List.eq_nil_or_concat' l' with rfl | ⟨l1, t, rfl⟩
  · simp [bytes] at h552
  -- the list as what stays, `u` its new last block, and `t` the one that goes
  obtain ⟨k, u, hk⟩ : ∃ k u, l0 ++ b :: l1 = k ++ [u] := by
    rcases List.eq_nil_or_concat' (l0 ++ b :: l1) with e | ⟨k, u, e⟩
    · simp at e
    · exact ⟨k, u, e⟩
  have hsplit : l0 ++ b :: (l1 ++ [t]) = k ++ [u, t] := by
    rw [show l0 ++ b :: (l1 ++ [t]) = (l0 ++ b :: l1) ++ [t] by simp, hk]; simp
  have hbk : b ∈ k ++ [u] := by rw [← hk]; simp
  rw [hsplit] at h
  have hnd := h.linked.nodup
  have htail : st.tail = t := by simpa using h.tail
  have hhead : st.head ≠ st.tail := by
    rw [htail]
    intro e
    have hl := h.linked
    cases k with
    | nil => simp [← e, hl.1] at hnd
    | cons c k => simp [← e, hl.1] at hnd
  have hun : unlink H st = some (setNext st.mem u 0, st.head, u) := by
    have hshort := h.short
    rw [unlink, if_neg hhead, htail, unlinkTail_linked h.linked (by simp at hshort; omega)]; rfl
  have hsz : size (setNext st.mem u 0) b = size st.mem b :=
    size_setNext_any _ _ fun e => h.apart (by simp) (hsplit ▸ hb) (Ne.symm e)
  have hdec : sbrk H st.brk (signed ((2 ^ 64 + 2 ^ 64 - 24 - size st.mem b) % 2 ^ 64)) =
      some (st.brk - (24 + size st.mem b)) := by
    have hbrk := h.brk
    have htop := H.top
    rw [show 2 ^ 64 + 2 ^ 64 - 24 - size st.mem b = 2 ^ 64 + (2 ^ 64 - (24 + size st.mem b)) by omega,
      Nat.add_mod_left, sbrk_shrink H hbrk (by omega) (by omega), if_pos (by omega),
      show 2 ^ 64 - (2 ^ 64 - (24 + size st.mem b)) = 24 + size st.mem b by omega]
  refine ⟨k, u, t, hsplit, hbk, ?_, ?_⟩
  · refine h.linked.cut (fun c hc => next_agree (setNext_agree _ _ (h.apart ?_ ?_ ?_))) ?_
    · simp
    · simp [hc]
    · intro e
      subst e
      have : (k ++ ([u] ++ [t])).Nodup := by simpa using hnd
      exact List.disjoint_of_nodup_append this hc (by simp)
    · simp
  · simp only [Sbrk.free, Option.map_some, Sbrk.myfree, payload_ne_zero, if_false, headerOf_payload,
      search_linked _ h.linked h.short, ht, if_true, hun, hsz, show blockSize = 24 from rfl, hdec, Option.getD_some]

/-- Every block of the list is still there after a `myfree`, but for the one it was called on. -/
def FreesOnly (st : St) (ptr : Nat) (st' : St) : Prop :=
  ∀ b, b ≠ headerOf ptr → Reaches (next st.mem) st.head b →
    Reaches (next st'.mem) st'.head b ∧ inUse st'.mem b = inUse st.mem b

theorem trim_drops_tail {st : St} {l : List Nat} {b : Nat} (h : Inv H st l) (hb : b ∈ l)
    (ht : Trims st (payload b)) {st' : St} (hf : free H st (payload b) = some st') :
    ¬ FreesOnly st (payload b) st' := by
  obtain ⟨k, u, t, rfl, hbk, hlinked, hmf⟩ := h.trim hb ht
  have htk : t ∉ k ++ [u] := by
    have : (k ++ [u] ++ [t]).Nodup := by simpa using h.linked.nodup
    exact fun hm => List.disjoint_of_nodup_append this hm (List.mem_singleton.mpr rfl)
  rw [hmf, Option.some.injEq] at hf
  subst hf
  intro hfrees
  have hr : Reaches (next st.mem) st.head t := (h.linked.reaches_iff t).mpr (by simp)
  have hne : t ≠ headerOf (payload b) := by
    rw [headerOf_payload]
    intro e
    subst e
    exact htk hbk
  exact htk ((hlinked.reaches_iff t).mp (hfrees t hne hr).1)

/-! ## Live blocks over whole runs -/

/-- The client's blocks are in the list, in use, below the break and apart. -/
structure Kept (st : St) : Prop where
  listed : ∀ x ∈ st.live, Reaches (next st.mem) st.head (headerOf x.1) ∧ inUse st.mem (headerOf x.1) = 1 ∧
    headerOf x.1 + blockSize + size st.mem (headerOf x.1) ≤ st.brk
  apart : st.live.Pairwise fun x y =>
    Apart (headerOf x.1) (blockSize + size st.mem (headerOf x.1)) (headerOf y.1)
      (blockSize + size st.mem (headerOf y.1))

theorem Inv.kept {st : St} {l : List Nat} (h : Inv H st l) : Kept st := by
  refine ⟨fun x hx => ?_, ?_⟩
  · obtain ⟨b, hb, e⟩ := h.listed x hx
    have hm : payload b ∈ st.live.map Prod.fst := e ▸ List.mem_map_of_mem hx
    rw [e, headerOf_payload]
    refine ⟨(h.linked.reaches_iff b).mpr hb, ?_, (h.lo hb).2.1⟩
    rw [h.flag b hb, if_pos hm]
  · have hnd : st.live.Pairwise fun x y => x.1 ≠ y.1 := List.pairwise_map.mp h.nodup
    refine hnd.imp_of_mem fun {x y} hx hy hne => ?_
    obtain ⟨b, hb, e⟩ := h.listed x hx
    obtain ⟨c, hc, e'⟩ := h.listed y hy
    rw [e, e', headerOf_payload, headerOf_payload]
    exact h.tiles.apart hb hc (by intro ebc; subst ebc; exact hne (e.trans e'.symm))

/-- The client's side: a size that does not overflow, a pointer it holds. -/
def Legal (st : St) : Call → Prop
  | .malloc s => blockSize + s < 2 ^ 63
  | .free ptr => ptr ∈ st.live.map Prod.fst

/-- The call returns, keeps the client's blocks, and a `myfree` takes no other block. -/
def KeepsLive (st : St) (c : Call) : Prop :=
  ∃ st', step H st c = some st' ∧ Kept st' ∧ ∀ ptr, c = .free ptr → FreesOnly st ptr st'

def NoTrim (st : St) : Call → Prop
  | .malloc _ => True
  | .free ptr => ¬ Trims st ptr

instance (st : St) (c : Call) : Decidable (Legal st c) := by cases c <;> unfold Legal <;> infer_instance

instance (st : St) (c : Call) : Decidable (NoTrim st c) := by cases c <;> unfold NoTrim <;> infer_instance

theorem Inv.step {st : St} {l : List Nat} (h : Inv H st l) {c : Call} (hl : Legal st c) (hc : NoTrim st c) :
    ∃ st' l', step H st c = some st' ∧ Inv H st' l' := by
  cases c with
  | malloc s =>
    obtain ⟨r, l', hr, h', -⟩ := h.mymalloc hl
    exact ⟨hold s r.1 r.2, l', by simp [Sbrk.step, malloc, hr], h'⟩
  | free ptr =>
    obtain ⟨b, hb, rfl⟩ := h.mem_of_live hl
    exact ⟨_, l, h.free hc, h.release hb⟩

theorem Inv.keepsLive_iff {st : St} {l : List Nat} (h : Inv H st l) {c : Call} (hl : Legal st c) :
    KeepsLive (H := H) st c ↔ NoTrim st c := by
  constructor
  · intro h
    obtain ⟨st', hs, -, hfree⟩ := h
    cases c with
    | malloc s => trivial
    | free ptr =>
      intro ht
      obtain ⟨b, hb, rfl⟩ := h.mem_of_live hl
      exact trim_drops_tail h hb ht hs (hfree _ rfl)
  · intro hc
    obtain ⟨st', l', hs, h'⟩ := h.step hl hc
    refine ⟨st', hs, h'.kept, ?_⟩
    intro ptr e c hne hr
    subst e
    obtain ⟨b, hb, rfl⟩ := h.mem_of_live hl
    rw [headerOf_payload] at hne
    have hcl := (h.linked.reaches_iff c).mp hr
    have e := (h.free hc).symm.trans hs
    simp only [Option.some.injEq] at e
    subst e
    exact ⟨((h.release hb).linked.reaches_iff c).mpr hcl, (h.setInUse_frame hb 0).2.2 c hcl hne⟩

theorem Inv.run_kept_iff {st : St} {l : List Nat} (h : Inv H st l) (calls : List Call)
    (hlegal : ∀ x ∈ trail (Sbrk.step H) st calls, Legal x.1 x.2) :
    (∀ x ∈ trail (Sbrk.step H) st calls, KeepsLive (H := H) x.1 x.2) ↔
      ∀ x ∈ trail (Sbrk.step H) st calls, NoTrim x.1 x.2 := by
  refine trail_iff (fun st => ∃ l, Inv H st l) Legal _ _ ?_ ?_ calls st ⟨l, h⟩ hlegal
  · intro st c hinv hl
    obtain ⟨l, h⟩ := hinv
    exact h.keepsLive_iff hl
  · intro st c st' hinv hl hc hs
    obtain ⟨l, h⟩ := hinv
    obtain ⟨st1, l1, hs1, h1⟩ := h.step hl hc
    rw [hs] at hs1
    simp only [Option.some.injEq] at hs1
    exact ⟨l1, hs1 ▸ h1⟩

/-- Along a run of legal calls the client's blocks are kept, and each `myfree` takes its own
    block only, exactly when no `myfree` of the run takes the trim path. -/
theorem live_kept_iff (H : Heap) (m : Mem) (calls : List Call)
    (hlegal : ∀ x ∈ trail (Sbrk.step H) (start H m) calls, Legal x.1 x.2) :
    (∀ x ∈ trail (Sbrk.step H) (start H m) calls, KeepsLive (H := H) x.1 x.2) ↔
      ∀ x ∈ trail (Sbrk.step H) (start H m) calls, NoTrim x.1 x.2 :=
  (inv_start H m).run_kept_iff calls hlegal

/-- A page of heap at 4096. -/
def page : Heap := ⟨4096, 8192, by decide, by decide, by decide⟩

def zeros : Mem := fun _ => 0

/-- Two blocks, freed last first: no trim. -/
theorem live_kept_two_blocks :
    (∀ x ∈ trail (Sbrk.step page) (start page zeros) [.malloc 8, .malloc 16, .free 4704, .free 4672],
      Legal x.1 x.2) ∧
    ((∀ x ∈ trail (Sbrk.step page) (start page zeros) [.malloc 8, .malloc 16, .free 4704, .free 4672],
      KeepsLive (H := page) x.1 x.2) ↔
      ∀ x ∈ trail (Sbrk.step page) (start page zeros) [.malloc 8, .malloc 16, .free 4704, .free 4672],
        NoTrim x.1 x.2) :=
  ⟨by decide +kernel, live_kept_iff page zeros _ (by decide +kernel)⟩

/-- A block of 8 bytes with one of 528 behind it: the second block and its header take 552 bytes,
    so freeing the first unlinks the second, which the client still holds. -/
theorem trim_loses_live_block :
    (∀ x ∈ trail (Sbrk.step page) (start page zeros) [.malloc 8, .malloc 528, .free 4672], Legal x.1 x.2) ∧
    ¬ ∀ x ∈ trail (Sbrk.step page) (start page zeros) [.malloc 8, .malloc 528, .free 4672],
      KeepsLive (H := page) x.1 x.2 := by
  have hlegal : ∀ x ∈ trail (Sbrk.step page) (start page zeros) [.malloc 8, .malloc 528, .free 4672],
      Legal x.1 x.2 := by decide +kernel
  refine ⟨hlegal, fun h => ?_⟩
  have := ((inv_start page zeros).run_kept_iff _ hlegal).mp h
  revert this
  decide +kernel

/-! ## The ranges handed out -/

/-- Every range `[p, p + s)` the client holds lies below the break and clear of every header of
    the list and of every other range. -/
structure Isolated (st : St) : Prop where
  below : ∀ x ∈ st.live, x.1 + x.2 ≤ st.brk
  headers : ∀ x ∈ st.live, ∀ b, Reaches (next st.mem) st.head b → Apart x.1 x.2 b blockSize
  ranges : st.live.Pairwise fun x y => Apart x.1 x.2 y.1 y.2

/-- The client's side here: any `size_t`, and pointers it holds. -/
def Held (st : St) : Call → Prop
  | .malloc s => s < 2 ^ 64
  | .free ptr => ptr ∈ st.live.map Prod.fst

/-- A request that the untouched heap does not serve. -/
def Refused (H : Heap) : Call → Prop
  | .malloc s => s = 0 ∨ sbrk H H.lo (signed ((blockSize + s) % 2 ^ 64)) = none
  | .free _ => False

def StaysIsolated (H : Heap) (st : St) (c : Call) : Prop := ∃ st', Sbrk.step H st c = some st' ∧ Isolated st'

instance (st : St) (c : Call) : Decidable (Held st c) := by cases c <;> unfold Held <;> infer_instance

instance (H : Heap) (c : Call) : Decidable (Refused H c) := by cases c <;> unfold Refused <;> infer_instance

theorem isolated_start (H : Heap) (m : Mem) : Isolated (start H m) := by
  constructor <;> simp [start]

theorem sbrk_le {H : Heap} {brk b : Nat} {inc : Int} (h : sbrk H brk inc = some b) : (b : Int) = brk + inc := by
  unfold sbrk at h
  split at h
  · simp only [Option.some.injEq] at h
    rename_i hle
    omega
  · cases h

/-- On the untouched heap a request is refused, or its range ends past the break. -/
theorem first_request (H : Heap) (m : Mem) {c : Call} (hl : Held (start H m) c) :
    (Refused H c ∧ Sbrk.step H (start H m) c = some (start H m)) ∨
      (¬ Refused H c ∧ ∀ st', Sbrk.step H (start H m) c = some st' → ¬ Isolated st') := by
  cases c with
  | free ptr => simp [Held, start] at hl
  | malloc s =>
    by_cases h0 : s = 0
    · left; exact ⟨Or.inl h0, by simp [Sbrk.step, malloc, hold, Sbrk.mymalloc, h0]⟩
    obtain ⟨n, hn⟩ : ∃ n, H.hi = n + 1 := ⟨H.hi - 1, by have := H.pos; have := H.le; omega⟩
    have hfree : getFreeBlock H (start H m) s = some 0 := by simp [getFreeBlock, start, hn, search]
    cases hb : sbrk H H.lo (signed ((blockSize + s) % 2 ^ 64)) with
    | none =>
      left
      refine ⟨Or.inr hb, ?_⟩
      simp only [Sbrk.step, malloc, Sbrk.mymalloc, h0, if_false, hfree]
      simp only [start, hb, hold, ne_eq, not_true_eq_false, if_false, if_true, Option.map_some]
    | some brk =>
      right
      refine ⟨by simp only [Refused, h0, hb, reduceCtorEq, or_self, not_false_eq_true], fun st' hs hi => ?_⟩
      have hle := sbrk_le hb
      have hsig : signed ((blockSize + s) % 2 ^ 64) ≤ blockSize + s := by
        have : (blockSize + s) % 2 ^ 64 ≤ blockSize + s := Nat.mod_le _ _
        unfold signed; split <;> omega
      simp only [Sbrk.step, malloc, Sbrk.mymalloc, h0, if_false, hfree] at hs
      simp only [start, hb, hold_payload, ne_eq, not_true_eq_false, if_false, Option.map_some, Option.some.injEq] at hs
      subst hs
      have hbelow : payload H.lo + s ≤ brk := hi.below (payload H.lo, s) (List.mem_cons_self ..)
      have h24 : blockSize = 24 := rfl
      rw [payload_eq] at hbelow
      omega

/-- Along a run the ranges handed out stay isolated exactly when nothing is ever handed out:
    every request is for 0 bytes or one that `sbrk` refuses on the untouched heap. -/
theorem payload_isolated_iff (H : Heap) (m : Mem) (calls : List Call)
    (hlegal : ∀ x ∈ trail (Sbrk.step H) (start H m) calls, Held x.1 x.2) :
    (∀ x ∈ trail (Sbrk.step H) (start H m) calls, StaysIsolated H x.1 x.2) ↔
      ∀ x ∈ trail (Sbrk.step H) (start H m) calls, Refused H x.2 := by
  refine trail_iff (· = start H m) Held (fun _ c => Refused H c) _ ?_ ?_ calls
    (start H m) rfl hlegal
  · intro st c e hl
    subst e
    rcases first_request H m hl with ⟨hr, hs⟩ | ⟨hr, hs⟩
    · exact ⟨fun _ => hr, fun _ => ⟨_, hs, isolated_start H m⟩⟩
    · exact ⟨fun ⟨st', h1, h2⟩ => absurd h2 (hs st' h1), fun h => absurd h hr⟩
  · intro st c st' e hl hr hs
    subst e
    rcases first_request H m hl with ⟨-, hs'⟩ | ⟨hn, -⟩
    · rw [hs] at hs'; simpa using hs'
    · exact absurd hr hn

/-- A request that is too large for the page, and one for nothing. -/
theorem payload_isolated_refused :
    (∀ x ∈ trail (Sbrk.step page) (start page zeros) [.malloc 5000, .malloc 0], Held x.1 x.2) ∧
    ((∀ x ∈ trail (Sbrk.step page) (start page zeros) [.malloc 5000, .malloc 0], StaysIsolated page x.1 x.2) ↔
      ∀ x ∈ trail (Sbrk.step page) (start page zeros) [.malloc 5000, .malloc 0], Refused page x.2) :=
  ⟨by decide +kernel, payload_isolated_iff page zeros _ (by decide +kernel)⟩

/-- `mymalloc(8)` on a fresh heap: the block is `[4096, 4128)`, the range handed out is
    `[4672, 4680)`. -/
theorem first_range_past_break :
    (∀ x ∈ trail (Sbrk.step page) (start page zeros) [.malloc 8], Held x.1 x.2) ∧
    ¬ ∀ x ∈ trail (Sbrk.step page) (start page zeros) [.malloc 8], StaysIsolated page x.1 x.2 := by
  refine ⟨by decide +kernel, fun h => ?_⟩
  obtain ⟨st', hs, hi⟩ := h (start page zeros, .malloc 8) (by simp [trail])
  rcases first_request page zeros (c := .malloc 8) (by decide) with ⟨hr, -⟩ | ⟨-, hn⟩
  · revert hr; decide
  · exact hn st' hs hi

end CS5600.Alloc.Sbrk
