/-
  CS5600.Alloc.ArenasPayload — where the client's bytes lie (see `CS5600.Alloc.ArenasProofs`).

  `mymalloc` returns `header + BLOCK_SIZE` of a `block*`, 576 bytes past the header, while the
  block was given 24 bytes more than its class (or than the request, rounded to what `mmap`
  gives). So a request of at most 256 bytes gets bytes of another block, one of 257 to 472
  bytes lies inside its block of 1024, and one above 1024 bytes fits only if its mapping happens
  to have 552 bytes to spare.

  `Isolated` is the promise: every range in use lies in its own block's memory and meets no
  header, no record and no other range in use. Proved (`arena_isolated_iff`): the states of a
  run keep it exactly when every request of the run `Fits`.
-/

import CS5600.Alloc.ArenasProofs

namespace CS5600.Alloc.Arenas

open CS5600.Lib.Bytes CS5600.Lib.Chains CS5600.Lib.Runs CS5600.Alloc.Block CS5600.Alloc.FreeList

structure Isolated (st : St) : Prop where
  own : ∀ x ∈ st.live, ∃ b n, x.1 = payload b ∧ (b, n) ∈ st.blks ++ st.maps ∧ b ≤ x.1 ∧ x.1 + x.2 ≤ b + n
  headers : ∀ x ∈ st.live, ∀ y ∈ objects st, Apart x.1 x.2 y.1 24
  others : st.live.Pairwise fun x y => Apart x.1 x.2 y.1 y.2

/-- `sbrk` and `mmap` give what they are asked for, and the client writes only what it holds. -/
def Confined (E : Env) (st : St) : Call → Prop
  | .malloc s answer => Legal E st (.malloc s answer) ∧ Room E st (.malloc s answer)
  | .free ptr => Legal E st (.free ptr)
  | .write a _ => ∃ x ∈ st.live, x.1 ≤ a ∧ a < x.1 + x.2

/-- The bytes asked for lie inside the block they are taken from, or nothing is handed out. -/
def Fits (E : Env) : Call → Prop
  | .malloc s answer => s = 0 ∨ (256 < s ∧ s ≤ 472) ∨
      (1024 < s ∧ (answer = none ∨ (blockSize + s) % 2 ^ 64 = 0 ∨ 576 + s ≤ E.mapLen ((blockSize + s) % 2 ^ 64)))
  | _ => True

variable {E : Env} {st t : St} {L : Cls → List Nat}

/-- The range of a pointer lies in its own block's memory. -/
def Own (st : St) (x : Nat × Nat) : Prop :=
  ∃ b n, x.1 = payload b ∧ (b, n) ∈ st.blks ++ st.maps ∧ x.1 + x.2 ≤ b + n

theorem own_iff (hl : Layout E st) {b n s : Nat} (hb : (b, n) ∈ st.blks ++ st.maps) :
    Own st (payload b, s) ↔ 576 + s ≤ n := by
  constructor
  · intro h
    obtain ⟨b', n', e, hb', hle⟩ := h
    obtain rfl := payload_inj e
    have := congrArg Prod.snd (hl.unique (mem_objects hb) (mem_objects hb') rfl)
    simp only [payload_eq] at this hle
    omega
  · intro h
    exact ⟨b, n, rfl, hb, by simp only [payload_eq]; omega⟩

/-- Ranges inside their own blocks, past the headers, are isolated. -/
theorem Inv.isolated_iff (hi : Inv E st L) : Isolated st ↔ ∀ x ∈ st.live, Own st x := by
  constructor
  · intro h x hx
    obtain ⟨b, n, e, hb, -, hle⟩ := h.own x hx
    exact ⟨b, n, e, hb, hle⟩
  · intro h
    refine ⟨fun x hx => ?_, fun x hx y hy => ?_, ?_⟩
    · obtain ⟨b, n, e, hb, hle⟩ := h x hx
      exact ⟨b, n, e, hb, by rw [e, payload_eq]; omega, hle⟩
    · obtain ⟨b, n, e, hb, hle⟩ := h x hx
      rw [payload_eq] at e
      have hlen := (hi.layout.bounds hy).2.1
      rcases hi.layout.apart _ (mem_objects hb) y hy with rfl | ha | ha
      · exact Or.inr (by simp only; omega)
      · exact Or.inl (by simp only at ha; omega)
      · exact Or.inr (by simp only at ha; omega)
    · refine (List.pairwise_map.mp hi.nodup).imp_of_mem fun {x y} hx hy hne => ?_
      obtain ⟨b, n, e, hb, hle⟩ := h x hx
      obtain ⟨b', n', e', hb', hle'⟩ := h y hy
      rw [payload_eq] at e e'
      rcases hi.layout.apart _ (mem_objects hb) _ (mem_objects hb') with heq | ha | ha
      · exact absurd (by rw [e, e', (Prod.mk.inj heq).1]) hne
      · exact Or.inl (by simp only at ha; omega)
      · exact Or.inr (by simp only at ha; omega)

/-- Of the requests that fit a class, those of 257 to 472 bytes stay in their block. -/
theorem small_fits_iff {s : Nat} {c : Cls} (h0 : 0 < s) (hs : classOf s = some c) (answer : Option Nat) :
    576 + s ≤ blockSize + c.bytes ↔ Fits E (.malloc s answer) := by
  have hle := classOf_some hs
  unfold classOf at hs
  simp only [Fits, blockSize]
  split at hs
  · cases hs; simp only [Cls.bytes]; omega
  split at hs
  · cases hs; simp only [Cls.bytes]; omega
  split at hs
  · cases hs; simp only [Cls.bytes]; omega
  · cases hs

/-! ## One step -/

/-- A block was handed out and nothing taken away. -/
theorem isolated_handed {b n s : Nat} {L' : Cls → List Nat} (hiso : Isolated st) (hi : Inv E st L)
    (hi' : Inv E t L') (hlive : t.live = (payload b, s) :: st.live)
    (hsub : ∀ y ∈ st.blks ++ st.maps, y ∈ t.blks ++ t.maps) (hb : (b, n) ∈ t.blks ++ t.maps) :
    Isolated t ↔ 576 + s ≤ n := by
  rw [hi'.isolated_iff, hlive, List.forall_mem_cons, own_iff hi'.layout hb, and_iff_left_iff_imp]
  intro _ y hy
  obtain ⟨b', n', e, hb', hle⟩ := hi.isolated_iff.mp hiso y hy
  exact ⟨b', n', e, hsub _ hb', hle⟩

theorem malloc_isolated_iff {s : Nat} {answer : Option Nat} (hi : Inv E st L) (hiso : Isolated st)
    (hc : Confined E st (.malloc s answer)) :
    (∀ t, step E st (.malloc s answer) = some t → Isolated t) ↔ Fits E (.malloc s answer) := by
  have hcase := malloc_cases hi s answer
  simp only [step]
  generalize malloc E st s answer = r at hcase
  cases hcase with
  | zero h0 => simpa [Fits, h0] using hiso
  | @reused c b h0 hs hb hfree =>
    have hblk := ((hi.arena.classes c).blocks b hb).1
    have := isolated_handed hiso hi (hi.reused hs hb hfree) (s := s) rfl (fun y hy => hy)
      (List.mem_append_left _ hblk)
    simpa [this] using small_fits_iff h0 hs answer
  | @appended c a h0 hs hall ha hle =>
    have := isolated_handed hiso hi (hi.appended hs ha hle) (b := a) (n := blockSize + c.bytes) (s := s) rfl
      (fun y hy => List.mem_cons_of_mem _ hy) (List.mem_cons_self ..)
    simpa [this] using small_fits_iff h0 hs answer
  | refused _ hs _ hno => have := hc.2 _ hs; omega
  | unmapped hs hno =>
    have h1 := classOf_none.mp hs
    have : Fits E (.malloc s answer) := Or.inr (Or.inr ⟨h1, hno.imp_right Or.inl⟩)
    simpa [this] using hiso
  | @mapped header hs ha ht =>
    have h1 := classOf_none.mp hs
    have := isolated_handed hiso hi (hi.mapped hs hc.1.1 ht (hc.1.2 _ ha)) (b := header)
      (n := E.mapLen ((blockSize + s) % 2 ^ 64)) (s := s) rfl
      (fun y hy => by
        rcases List.mem_append.mp hy with hy | hy
        · exact List.mem_append_left _ hy
        · exact List.mem_append_right _ (List.mem_cons_of_mem _ hy))
      (List.mem_append_right _ (List.mem_cons_self ..))
    have h2 : ¬ s = 0 := by omega
    have h3 : ¬ (256 < s ∧ s ≤ 472) := by omega
    simp only [Option.map_some, Option.some.injEq, forall_eq', this, Fits, h1, h2, h3, ha, ht, reduceCtorEq, false_or,
      true_and]

theorem free_isolated {ptr : Nat} (hi : Inv E st L) (hiso : Isolated st) (hl : Legal E st (.free ptr))
    (h : free E st ptr = some t) : Isolated t := by
  obtain ⟨u, hu, hi', -⟩ := free_inv hi hl
  cases hu.symm.trans h
  refine hi'.isolated_iff.mpr fun x hx => ?_
  have hown := hi.isolated_iff.mp hiso
  rcases hl with rfl | hl
  · cases (free_zero hi).symm.trans h
    exact hown x hx
  obtain ⟨y, hy, rfl⟩ := List.mem_map.mp hl
  cases hc : classOf y.2 with
  | none =>
    obtain ⟨b, e, hmap, hsz⟩ := hi.large y hy hc
    rw [e, free_large hi (by rw [hsz]; exact hc)] at h
    cases h
    obtain ⟨hx, hne⟩ := mem_drop.mp hx
    obtain ⟨b', n', e', hb', hle⟩ := hown x hx
    refine ⟨b', n', e', ?_, hle⟩
    rcases List.mem_append.mp hb' with hb' | hb'
    · exact List.mem_append_left _ hb'
    · refine List.mem_append_right _ (List.mem_filter.mpr ⟨hb', decide_eq_true fun h => hne ?_⟩)
      rw [e', show b' = b from h]
  | some c =>
    obtain ⟨b, hb, e⟩ := hi.small y hy c hc
    rw [e, free_small hi hb] at h
    cases h
    exact hown x (mem_drop.mp hx).1

theorem Confined.legal {e : Call} (hiso : Isolated st) (h : Confined E st e) : Legal E st e := by
  cases e with
  | malloc s answer => exact h.1
  | free ptr => exact h
  | write a v =>
    obtain ⟨x, hx, h1, h2⟩ := h
    intro y hy
    rcases hiso.headers x hx y hy with ha | ha
    · exact Or.inl (by omega)
    · exact Or.inr (by omega)

theorem step_isolated_iff {e : Call} (hi : Inv E st L) (hiso : Isolated st) (hc : Confined E st e) :
    (∀ t, step E st e = some t → Isolated t) ↔ Fits E e := by
  cases e with
  | malloc s answer => exact malloc_isolated_iff hi hiso hc
  | free ptr => exact iff_of_true (fun t ht => free_isolated hi hiso hc ht) trivial
  | write a v =>
    refine iff_of_true (fun t ht => ?_) trivial
    cases ht
    exact ⟨hiso.own, hiso.headers, hiso.others⟩

/-! ## Runs -/

theorem boot_isolated {st : St} (h : boot E = some st) : Isolated st := by
  have hlive := (boot_ok h).2.1
  exact ⟨by simp [hlive], by simp [hlive], by simp [hlive]⟩

theorem arena_isolated_iff {st₀ : St} (hboot : boot E = some st₀) (es : List Call)
    (hc : ∀ x ∈ trail (step E) st₀ es, Confined E x.1 x.2) :
    (∀ x ∈ trail (step E) st₀ es, ∀ t, step E x.1 x.2 = some t → Isolated t) ↔
      ∀ x ∈ trail (step E) st₀ es, Fits E x.2 := by
  obtain ⟨L, hi, -⟩ := boot_inv hboot
  refine trail_iff (fun st => (∃ L, Inv E st L) ∧ Isolated st) (Confined E) (fun _ e => Fits E e)
    (fun st e => ∀ t, step E st e = some t → Isolated t) ?_ ?_ es st₀ ⟨⟨L, hi⟩, boot_isolated hboot⟩ hc
  · intro st e h hc
    obtain ⟨⟨L, hi⟩, hiso⟩ := h
    exact step_isolated_iff hi hiso hc
  · intro st e t h hc hf ht
    obtain ⟨⟨L, hi⟩, hiso⟩ := h
    obtain ⟨L', hi', -⟩ := step_law hi (hc.legal hiso) ht
    exact ⟨⟨L', hi'⟩, (step_isolated_iff hi hiso hc).mpr hf t ht⟩

theorem first_trail {st : St} {s : Nat} (hboot : boot ample = some st) (hbrk : st.brk = 9628672) (hs : s < 2 ^ 64) :
    ∃ t, step ample st (.malloc s none) = some t ∧ trail (step ample) st [.malloc s none] = [(st, .malloc s none)] ∧
      Confined ample st (.malloc s none) := by
  obtain ⟨L, hi, -⟩ := boot_inv hboot
  have hlegal : Legal ample st (.malloc s none) := ⟨hs, by simp⟩
  obtain ⟨t, ht⟩ := step_total hi hlegal (ample_room hbrk s none)
  exact ⟨t, ht, by rw [trail_cons _ ht]; rfl, hlegal, ample_room hbrk s none⟩

theorem arena_isolated_300 : ∃ st₀ t, boot ample = some st₀ ∧ step ample st₀ (.malloc 300 none) = some t ∧
    Isolated t := by
  obtain ⟨st₀, hboot, hbrk⟩ := ample_boots
  obtain ⟨t, ht, htrail, hc⟩ := first_trail hboot hbrk (s := 300) (by decide)
  have := (arena_isolated_iff hboot [.malloc 300 none] (by rw [htrail]; simpa using hc)).mpr
    (by rw [htrail]; intro x hx; rw [List.mem_singleton.mp hx]; exact Or.inr (Or.inl (by decide)))
  rw [htrail] at this
  exact ⟨st₀, t, hboot, ht, this _ (List.mem_singleton.mpr rfl) t ht⟩

/-- The first request of 64 bytes gets bytes of other blocks. -/
theorem arena_64_not_isolated : ∃ st₀ t, boot ample = some st₀ ∧
    (∀ x ∈ trail (step ample) st₀ [.malloc 64 none], Confined ample x.1 x.2) ∧
    step ample st₀ (.malloc 64 none) = some t ∧ ¬ Isolated t := by
  obtain ⟨st₀, hboot, hbrk⟩ := ample_boots
  obtain ⟨L, hi, -⟩ := boot_inv hboot
  obtain ⟨t, ht, htrail, hc⟩ := first_trail hboot hbrk (s := 64) (by decide)
  refine ⟨st₀, t, hboot, by rw [htrail]; simpa using hc, ht, fun hiso => ?_⟩
  have := (step_isolated_iff hi (boot_isolated hboot) hc).mp fun u hu => by
    cases ht.symm.trans hu; exact hiso
  simp [Fits] at this

end CS5600.Alloc.Arenas
