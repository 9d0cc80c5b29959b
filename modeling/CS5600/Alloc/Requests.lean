/-
  CS5600.Alloc.Requests — request sizes near the top of `size_t`, in both allocators
  (see `CS5600.Alloc.SbrkProofs`, `CS5600.Alloc.ArenasProofs`).

  `total_size = BLOCK_SIZE + s` is computed modulo `2 ^ 64` and never tested. The first-fit
  allocator hands it to `sbrk`, which reads it as a signed number: from `2 ^ 63` on the break goes
  down, and from `2 ^ 64` on `sbrk` is asked for at most 23 bytes. The segregated allocator hands
  it to `mmap`, which maps as few. Both then store the whole of `s` in the header and return it.

  `Sized` is what a request should come to: the break does not go down, and a block that is
  handed out has room for `s` bytes behind its header in memory the allocator was given. `Wraps`
  is when it does not, in numbers: the size of the request, and where the break is.

  Proved (`request_sizes_iff`): along a run every request is `Sized` exactly when none `Wraps`,
  in the first-fit allocator while no `myfree` takes the trim path (which lowers the break
  below blocks that stay in the list), in the segregated one after a successful initialisation.
-/

import CS5600.Alloc.SbrkProofs
import CS5600.Alloc.ArenasProofs

/-! ## First fit over `sbrk` -/

namespace CS5600.Alloc.Sbrk

open CS5600.Lib.Bytes CS5600.Lib.Chains CS5600.Lib.Runs CS5600.Alloc.Block

/-- A block handed out lies with its header and `s` bytes below the break, clear of every other
    header of the list, and the break is not lower than it was. -/
def Sized (H : Heap) (st : St) : Call → Prop
  | .malloc s => ∀ p st', mymalloc H st s = some (p, st') → st.brk ≤ st'.brk ∧
      (p ≠ 0 → H.lo ≤ headerOf p ∧ headerOf p + blockSize + s ≤ st'.brk ∧
        ∀ b, Reaches (next st'.mem) st'.head b → b ≠ headerOf p → Apart (headerOf p) (blockSize + s) b blockSize)
  | .free _ => True

/-- `BLOCK_SIZE + s` is no positive signed number, and `sbrk` may do what it is instead. -/
def Wraps (H : Heap) (st : St) : Call → Prop
  | .malloc s => 2 ^ 63 ≤ blockSize + s ∧
      ((blockSize + s < 2 ^ 64 ∧ H.lo + (2 ^ 64 - (blockSize + s)) ≤ st.brk) ∨
        (2 ^ 64 ≤ blockSize + s ∧ st.brk + (blockSize + s - 2 ^ 64) ≤ H.hi))
  | .free _ => False

instance (H : Heap) (st : St) : (c : Call) → Decidable (Wraps H st c)
  | .malloc _ => inferInstanceAs (Decidable (_ ∧ _))
  | .free _ => inferInstanceAs (Decidable False)

variable {H : Heap} {st : St} {l : List Nat}

/-- A block of the list that is large enough, as `Sized` wants it. -/
theorem Inv.room (h : Inv H st l) {b s : Nat} (hb : b ∈ l) (hs : s ≤ size st.mem b) :
    H.lo ≤ b ∧ b + blockSize + s ≤ st.brk ∧
      ∀ c, Reaches (next st.mem) st.head c → c ≠ b → Apart b (blockSize + s) c blockSize := by
  have hbs : blockSize = 24 := rfl
  obtain ⟨hlo, hhi, -⟩ := h.lo hb
  refine ⟨hlo, by omega, fun c hc hne => ?_⟩
  rcases h.tiles.apart hb ((h.linked.reaches_iff c).mp hc) (Ne.symm hne) with h | h
  · exact Or.inl (by omega)
  · exact Or.inr (by omega)

/-- No block of the list has as many bytes as a size that wraps. -/
theorem Inv.none_fits (h : Inv H st l) {s : Nat} (hs : 2 ^ 63 ≤ blockSize + s) : getFreeBlock H st s = some 0 := by
  have hbs : blockSize = 24 := rfl
  have htop := H.top
  have hbrk := h.brk
  have hno : l.find? (fits st.mem s) = none := by
    refine List.find?_eq_none.mpr fun b hb hf => ?_
    have hsize := (h.lo hb).2.1
    simp only [fits, Bool.and_eq_true, decide_eq_true_eq] at hf
    omega
  rw [getFreeBlock, search_linked _ h.linked h.short, hno]
  rfl

/-- What `sbrk` does with a size that is no positive signed number. -/
theorem Inv.sbrk_wraps (h : Inv H st l) {s : Nat} (h63 : 2 ^ 63 ≤ blockSize + s) (h64 : s < 2 ^ 64) :
    (¬ Wraps H st (.malloc s) ∧ sbrk H st.brk (signed ((blockSize + s) % 2 ^ 64)) = none) ∨
      (Wraps H st (.malloc s) ∧ ∃ brk, sbrk H st.brk (signed ((blockSize + s) % 2 ^ 64)) = some brk ∧
        brk ≤ H.hi ∧ (2 ^ 64 ≤ blockSize + s ∨ brk < st.brk)) := by
  have hbs : blockSize = 24 := rfl
  have hbrk := h.brk
  have hlo := h.lo_le
  simp only [Wraps]
  by_cases hlt : blockSize + s < 2 ^ 64
  · rw [sbrk_shrink H hbrk h63 hlt]
    by_cases hle : H.lo + (2 ^ 64 - (blockSize + s)) ≤ st.brk
    · right
      rw [if_pos hle]
      exact ⟨⟨h63, Or.inl ⟨hlt, hle⟩⟩, _, rfl, by omega, Or.inr (by omega)⟩
    · left
      rw [if_neg hle]
      exact ⟨by omega, rfl⟩
  · have hmod : (blockSize + s) % 2 ^ 64 = (blockSize + s - 2 ^ 64) % 2 ^ 64 := by omega
    rw [hmod, sbrk_grow H hlo (by omega)]
    by_cases hle : st.brk + (blockSize + s - 2 ^ 64) ≤ H.hi
    · right
      rw [if_pos hle]
      exact ⟨⟨h63, Or.inr ⟨by omega, hle⟩⟩, _, rfl, hle, Or.inl (by omega)⟩
    · left
      rw [if_neg hle]
      exact ⟨by omega, rfl⟩

/-- A request either keeps the invariant and is served as it should be, or it wraps. -/
theorem Inv.request (h : Inv H st l) {s : Nat} (h64 : s < 2 ^ 64) :
    (¬ Wraps H st (.malloc s) ∧ ∃ r l', Sbrk.mymalloc H st s = some r ∧ Inv H (hold s r.1 r.2) l' ∧ st.brk ≤ r.2.brk ∧
      (r.1 = 0 ∨ ∃ b ∈ l', r.1 = payload b ∧ s ≤ size r.2.mem b)) ∨
    (Wraps H st (.malloc s) ∧ ∃ brk, Sbrk.mymalloc H st s = some (payload st.brk, Sbrk.append st s brk) ∧
      brk ≤ H.hi ∧ (2 ^ 64 ≤ blockSize + s ∨ brk < st.brk)) := by
  have hbs : blockSize = 24 := rfl
  by_cases h63 : 2 ^ 63 ≤ blockSize + s
  · have h0 : s ≠ 0 := by omega
    have hfree := h.none_fits h63
    rcases h.sbrk_wraps h63 h64 with ⟨hno, hb⟩ | ⟨hw, brk, hb, hle, hor⟩
    · left
      refine ⟨hno, (0, st), l, ?_, h, Nat.le_refl _, Or.inl rfl⟩
      simp only [Sbrk.mymalloc, h0, if_false, hfree, hb, ne_eq, not_true_eq_false]
    · right
      refine ⟨hw, brk, ?_, hle, hor⟩
      simp only [Sbrk.mymalloc, h0, if_false, hfree, hb, ne_eq, not_true_eq_false]
  · left
    exact ⟨fun hw => h63 hw.1, h.mymalloc (by omega)⟩

theorem Inv.sized_iff (h : Inv H st l) {c : Call} (hl : Held st c) : Sized H st c ↔ ¬ Wraps H st c := by
  cases c with
  | free ptr => simp [Sized, Wraps]
  | malloc s =>
    rcases h.request hl with ⟨hno, r, l', hr, h', hbrk, hres⟩ | ⟨hw, brk, hr, hle, hor⟩
    · refine ⟨fun _ => hno, fun _ p st' hp => ?_⟩
      cases hr.symm.trans hp
      refine ⟨hbrk, fun hne => ?_⟩
      rcases hres with h0 | ⟨b, hb, rfl, hs⟩
      · exact absurd h0 hne
      · rw [hold_payload] at h'
        rw [headerOf_payload]
        exact h'.room hb hs
    · refine ⟨fun hsized => ?_, fun hno => absurd hw hno⟩
      obtain ⟨hbrk, hroom⟩ := hsized _ _ hr
      have hfit := (hroom (payload_ne_zero _)).2.1
      have htop := H.top
      simp only [headerOf_payload, Sbrk.append] at hbrk hfit
      omega

theorem Inv.step_sized (h : Inv H st l) {c : Call} (hl : Held st c) (ht : NoTrim st c) (hw : ¬ Wraps H st c) {st' : St}
    (hs : Sbrk.step H st c = some st') : ∃ l', Inv H st' l' := by
  cases c with
  | malloc s =>
    rcases h.request hl with ⟨-, r, l', hr, h', -⟩ | ⟨hw', -⟩
    · simp only [Sbrk.step, malloc, hr, Option.map_some, Option.some.injEq] at hs
      exact ⟨l', hs ▸ h'⟩
    · exact absurd hw' hw
  | free ptr =>
    obtain ⟨b, hb, rfl⟩ := h.mem_of_live hl
    cases (h.free ht).symm.trans hs
    exact ⟨l, h.release hb⟩

theorem run_sized_iff (H : Heap) (m : Mem) (calls : List Call)
    (hl : ∀ x ∈ trail (step H) (start H m) calls, Held x.1 x.2 ∧ NoTrim x.1 x.2) :
    (∀ x ∈ trail (step H) (start H m) calls, Sized H x.1 x.2) ↔
      ∀ x ∈ trail (step H) (start H m) calls, ¬ Wraps H x.1 x.2 := by
  refine trail_iff (fun st => ∃ l, Inv H st l) (fun st c => Held st c ∧ NoTrim st c) (fun st c => ¬ Wraps H st c) _
    ?_ ?_ calls _ ⟨[], inv_start H m⟩ hl
  · intro st c hinv hl
    obtain ⟨l, h⟩ := hinv
    exact h.sized_iff hl.1
  · intro st c st' hinv hl hw hs
    obtain ⟨l, h⟩ := hinv
    exact h.step_sized hl.1 hl.2 hw hs

-- The trim path is left out because it lowers the break below a block that stays in the list: here
-- the block at 5120 is handed out again while the break is at 4648.
example : ((after (step page) (start page zeros)
    [.malloc 1000, .malloc 496, .malloc 8, .free 5696, .free 4672]).bind fun st => mymalloc page st 100).map
      (fun r => (headerOf r.1, r.2.brk)) = some (5120, 4648) := by decide +kernel

end CS5600.Alloc.Sbrk

/-! ## Size classes and `mmap` -/

namespace CS5600.Alloc.Arenas

open CS5600.Lib.Runs CS5600.Alloc.Block

/-- A block handed out is one that at least `s` bytes and a header were obtained for. -/
def Roomy (s p : Nat) (t : St) : Prop := p ≠ 0 → ∃ n, (headerOf p, n) ∈ t.blks ++ t.maps ∧ blockSize + s ≤ n

/-- And the break is not lower than it was. -/
def Sized (E : Env) (st : St) : Call → Prop
  | .malloc s answer => ∀ p t, mymalloc E st s answer = some (p, t) → st.brk ≤ t.brk ∧ Roomy s p t
  | _ => True

/-- `BLOCK_SIZE + s` comes out at 1 to 23, and `mmap` does not fail on it. -/
def Wraps : Call → Prop
  | .malloc s answer => 2 ^ 64 < blockSize + s ∧ answer ≠ none
  | _ => False

variable {E : Env} {st : St} {L : Cls → List Nat}

/-- No memory the allocator was given has `2 ^ 64` bytes. -/
theorem Layout.block_lt (h : Layout E st) {a n : Nat} (hm : (a, n) ∈ st.blks ++ st.maps) : n < 2 ^ 64 := by
  have htop := E.top
  rcases List.mem_append.mp hm with hm | hm
  · have h1 := h.heap _ (mem_objects_blk hm)
    have h2 := h.brk
    simp only at h1
    omega
  · have h1 := h.maps _ hm
    simp only at h1
    omega

theorem Inv.brk_le (hi : Inv E st L) {s p : Nat} {answer : Option Nat} {t : St}
    (h : malloc E st s answer = some (p, t)) : st.brk ≤ t.brk := by
  have hcase := malloc_cases hi s answer
  generalize malloc E st s answer = r at hcase h
  cases hcase with
  | appended _ _ _ ha _ => cases h; exact Nat.le_trans ha (Nat.le_add_right _ _)
  | refused _ _ _ _ =>
    split at h
    · cases h
    · cases h; exact Nat.le_refl _
  | zero _ => cases h; exact Nat.le_refl _
  | reused _ _ _ _ => cases h; exact Nat.le_refl _
  | unmapped _ _ => cases h; exact Nat.le_refl _
  | mapped _ _ _ => cases h; exact Nat.le_refl _

/-- A request of a size class gets a block of its class or none. -/
theorem Inv.small_block (hi : Inv E st L) {s p : Nat} {answer : Option Nat} {c : Cls} {t : St} (hs : classOf s = some c)
    (h : malloc E st s answer = some (p, t)) (hp : p ≠ 0) : (headerOf p, blockSize + c.bytes) ∈ t.blks := by
  have hcase := malloc_cases hi s answer
  generalize malloc E st s answer = r at hcase h
  cases hcase with
  | zero _ => cases h; exact absurd rfl hp
  | @reused c' b _ hs' hb _ =>
    cases h
    cases hs.symm.trans hs'
    rw [headerOf_payload]
    exact ((hi.arena.classes c).blocks b hb).1
  | @appended c' a _ hs' _ _ _ =>
    cases h
    cases hs.symm.trans hs'
    rw [headerOf_payload]
    exact List.mem_cons_self ..
  | refused _ _ _ _ =>
    split at h
    · cases h
    · cases h; exact absurd rfl hp
  | unmapped hs' _ => cases hs.symm.trans hs'
  | mapped hs' _ _ => cases hs.symm.trans hs'

theorem Inv.roomy_iff (hi : Inv E st L) {s : Nat} {answer : Option Nat} (hl : Legal E st (.malloc s answer)) :
    (∀ p t, malloc E st s answer = some (p, t) → Roomy s p t) ↔ ¬ Wraps (.malloc s answer) := by
  have hbs : blockSize = 24 := rfl
  have h64 : s < 2 ^ 64 := hl.1
  cases hs : classOf s with
  | some c =>
    obtain ⟨hle, htop⟩ := classOf_some hs
    refine ⟨fun _ hw => ?_, fun _ p t h hp => ⟨_, List.mem_append_left _ (hi.small_block hs h hp), by omega⟩⟩
    have := hw.1
    omega
  | none =>
    rcases hi.large_block answer hs with ⟨hno, hm⟩ | ⟨header, ha, ht, hm⟩
    · refine ⟨fun _ hw => ?_, fun _ p t h hp => ?_⟩
      · rcases hno with hno | hno
        · exact hw.2 hno
        · have := hw.1
          omega
      · cases hm.symm.trans h
        exact absurd rfl hp
    · constructor
      · intro h hw
        obtain ⟨n, hn, hle⟩ := h _ _ hm (payload_ne_zero _)
        have := (hi.mapped hs h64 ht (hl.2 _ ha)).layout.block_lt hn
        have := hw.1
        omega
      · intro hw p t h _
        cases hm.symm.trans h
        have hmod : (blockSize + s) % 2 ^ 64 = blockSize + s := by
          refine Nat.mod_eq_of_lt (Nat.lt_of_not_le fun hge => hw ⟨?_, by rw [ha]; simp⟩)
          omega
        refine ⟨E.mapLen ((blockSize + s) % 2 ^ 64), ?_, by rw [hmod]; exact E.le_mapLen _⟩
        rw [headerOf_payload]
        exact List.mem_append_right _ (List.mem_cons_self ..)

/-- The books of the client are not looked at. -/
theorem Inv.sized_mymalloc (hi : Inv E st L) (s : Nat) (answer : Option Nat) {brk : Nat} (hbrk : brk ≤ st.brk) :
    (∀ p t, mymalloc E st s answer = some (p, t) → brk ≤ t.brk ∧ Roomy s p t) ↔
      ∀ p t, malloc E st s answer = some (p, t) → Roomy s p t := by
  refine ⟨fun h p u hu => ?_, fun h p t ht => ?_⟩
  · obtain ⟨t, ht, rfl⟩ := mymalloc_of_malloc hu
    simpa only [Roomy, hold_blks, hold_maps] using (h p t ht).2
  · have hu := malloc_of_mymalloc ht
    have hle := hi.brk_le hu
    have hroom := h _ _ hu
    simp only [Roomy, hold_brk, hold_blks, hold_maps] at hle hroom
    exact ⟨Nat.le_trans hbrk hle, hroom⟩

theorem Inv.sized_iff (hi : Inv E st L) {e : Call} (hl : Legal E st e) : Sized E st e ↔ ¬ Wraps e := by
  cases e with
  | free ptr => simp [Sized, Wraps]
  | write a v => simp [Sized, Wraps]
  | malloc s answer =>
    rw [← hi.roomy_iff hl]
    exact hi.sized_mymalloc s answer (Nat.le_refl _)

/-- The first request, which runs the initialisation. -/
theorem start_sized_iff {st₀ : St} (hboot : boot E = some st₀) {s : Nat} {answer : Option Nat}
    (hl : Legal E st₀ (.malloc s answer)) : Sized E (start E) (.malloc s answer) ↔ ¬ Wraps (.malloc s answer) := by
  obtain ⟨L, hi, -⟩ := boot_inv hboot
  rw [← hi.roomy_iff hl, Sized, mymalloc_start hboot]
  exact hi.sized_mymalloc s answer hi.layout.brk.1

theorem run_sized_iff {st₀ : St} (hboot : boot E = some st₀) (es : List Call)
    (hl : ∀ x ∈ trail (step E) st₀ es, Legal E x.1 x.2) :
    (∀ x ∈ trail (step E) st₀ es, Sized E x.1 x.2) ↔ ∀ x ∈ trail (step E) st₀ es, ¬ Wraps x.2 := by
  obtain ⟨L, hi, -⟩ := boot_inv hboot
  refine trail_iff (fun st => ∃ L, Inv E st L) (Legal E) (fun _ e => ¬ Wraps e) _ ?_ ?_ es st₀ ⟨L, hi⟩ hl
  · intro st e hinv hl
    obtain ⟨L, hi⟩ := hinv
    exact hi.sized_iff hl
  · intro st e t hinv hl _ hs
    obtain ⟨L, hi⟩ := hinv
    obtain ⟨L', hi', -⟩ := step_law hi hl hs
    exact ⟨L', hi'⟩

end CS5600.Alloc.Arenas

/-! ## Both allocators -/

namespace CS5600.Alloc.Requests

open CS5600.Lib.Bytes CS5600.Lib.Runs CS5600.Alloc.Block

theorem request_sizes_iff (H : Heap) (m : Mem) (E : Arenas.Env) :
    (∀ calls, (∀ x ∈ trail (Sbrk.step H) (Sbrk.start H m) calls, Sbrk.Held x.1 x.2 ∧ Sbrk.NoTrim x.1 x.2) →
      ((∀ x ∈ trail (Sbrk.step H) (Sbrk.start H m) calls, Sbrk.Sized H x.1 x.2) ↔
        ∀ x ∈ trail (Sbrk.step H) (Sbrk.start H m) calls, ¬ Sbrk.Wraps H x.1 x.2)) ∧
    ∀ st₀, Arenas.boot E = some st₀ →
      (∀ s answer, Arenas.Legal E st₀ (.malloc s answer) →
        (Arenas.Sized E (Arenas.start E) (.malloc s answer) ↔ ¬ Arenas.Wraps (.malloc s answer))) ∧
      ∀ calls, (∀ x ∈ trail (Arenas.step E) st₀ calls, Arenas.Legal E x.1 x.2) →
        ((∀ x ∈ trail (Arenas.step E) st₀ calls, Arenas.Sized E x.1 x.2) ↔
          ∀ x ∈ trail (Arenas.step E) st₀ calls, ¬ Arenas.Wraps x.2) := by
  refine ⟨Sbrk.run_sized_iff H m, fun st₀ hboot => ⟨?_, Arenas.run_sized_iff hboot⟩⟩
  intro s answer hl
  exact Arenas.start_sized_iff hboot hl

/-- A block of 8 bytes, taken and given back, in each allocator. -/
theorem request_sizes_8 :
    (∀ x ∈ trail (Sbrk.step Sbrk.page) (Sbrk.start Sbrk.page Sbrk.zeros) [.malloc 8, .free 4672],
      Sbrk.Sized Sbrk.page x.1 x.2) ∧
    ∃ st₀, Arenas.boot Arenas.ample = some st₀ ∧
      Arenas.Sized Arenas.ample (Arenas.start Arenas.ample) (.malloc 8 none) ∧
      ∀ x ∈ trail (Arenas.step Arenas.ample) st₀ [.malloc 8 none], Arenas.Sized Arenas.ample x.1 x.2 := by
  obtain ⟨st₀, hboot, -⟩ := Arenas.ample_boots
  have hlegal : ∀ st, Arenas.Legal Arenas.ample st (.malloc 8 none) := fun st => ⟨by decide, by simp⟩
  have hno : ¬ Arenas.Wraps (.malloc 8 none) := by simp [Arenas.Wraps]
  have honly : ∀ x ∈ trail (Arenas.step Arenas.ample) st₀ [.malloc 8 none], x.2 = .malloc 8 none := fun x hx =>
    List.mem_singleton.mp (mem_of_mem_trail hx)
  obtain ⟨hsbrk, harenas⟩ := request_sizes_iff Sbrk.page Sbrk.zeros Arenas.ample
  obtain ⟨hfirst, hrun⟩ := harenas _ hboot
  refine ⟨?_, st₀, hboot, (hfirst 8 none (hlegal _)).mpr hno, ?_⟩
  · exact (hsbrk _ (by decide +kernel)).mpr (by decide +kernel)
  · refine (hrun _ fun x hx => ?_).mpr fun x hx => ?_
    · rw [honly x hx]
      exact hlegal _
    · rw [honly x hx]
      exact hno

/-- On the fresh page `mymalloc(2 ^ 64 - 24)` asks `sbrk` for 0 bytes and returns a block at the
    break; the first `mymalloc(2 ^ 64 - 23)` of the other allocator maps a page. -/
theorem wrapped_requests :
    ¬ Sbrk.Sized Sbrk.page (Sbrk.start Sbrk.page Sbrk.zeros) (.malloc (2 ^ 64 - 24)) ∧
    ∃ st₀, Arenas.boot Arenas.ample = some st₀ ∧
      Arenas.Legal Arenas.ample st₀ (.malloc (2 ^ 64 - 23) (some (2 ^ 25))) ∧
      ¬ Arenas.Sized Arenas.ample (Arenas.start Arenas.ample) (.malloc (2 ^ 64 - 23) (some (2 ^ 25))) := by
  obtain ⟨st₀, hboot, -⟩ := Arenas.ample_boots
  have hlegal : Arenas.Legal Arenas.ample st₀ (.malloc (2 ^ 64 - 23) (some (2 ^ 25))) := by
    refine ⟨by decide, fun header hh => ?_⟩
    cases hh
    refine ⟨by decide, by decide, by decide, ?_⟩
    simp [(Arenas.boot_ok hboot).2.2.1]
  refine ⟨fun h => ?_, st₀, hboot, hlegal, fun h => ?_⟩
  · exact ((Sbrk.inv_start Sbrk.page Sbrk.zeros).sized_iff (by decide)).mp h (by decide)
  · exact (Arenas.start_sized_iff hboot hlegal).mp h ⟨by decide, by simp⟩

end CS5600.Alloc.Requests
