/-
  CS5600.Alloc.ArenasProofs — size classes, ownership and growth of the segregated allocator
  (see `CS5600.Alloc.Arenas`, `CS5600.Alloc.ArenasInit`).

  `Inv E st L`: the arena in use has the lists `L`, and the client's pointers are the payloads
  of blocks of the class of their size, or of mapped blocks. `malloc_cases` says all that a
  `mymalloc` can do in such a state, `free_small` and `free_large` what a `myfree` does;
  every other result is read off them.

  `Legal` is what the process and its client keep to: `mmap` answers regions that nobody uses,
  only pointers held (or NULL) are freed, and nobody else writes records or headers.

  Proved, for every run after a successful initialisation: the three lists are chains that end
  at their tails, with blocks of their class, in use exactly while the client holds them, and
  `mymalloc` hands out no block that is held (`classes_kept`), and of the free blocks that fit
  none smaller than the one it hands out (`best_fit`); a list has as many blocks as its
  pool or as the most of its class ever held at once, whichever is more, and demand that stays
  below that never calls `sbrk` (`growth_is_peak`).
-/

import CS5600.Alloc.ArenasInit

namespace CS5600.Alloc.Arenas

open CS5600.Lib.Bytes CS5600.Lib.Chains CS5600.Lib.Runs CS5600.Alloc.Block CS5600.Alloc.FreeList

/-- The smallest class that covers a request. -/
def classOf (s : Nat) : Option Cls :=
  if s ≤ 64 then some .c64 else if s ≤ 256 then some .c256 else if s ≤ 1024 then some .c1024 else none

/-- The pointers the client holds. -/
def held (st : St) : List Nat := st.live.map Prod.fst

structure Inv (E : Env) (st : St) (L : Cls → List Nat) : Prop where
  layout : Layout E st
  arena : ArenaOk st (active E st) L
  ready : st.arenaInitializer = true
  nodup : (held st).Nodup
  small : ∀ x ∈ st.live, ∀ c, classOf x.2 = some c → ∃ b ∈ L c, x.1 = payload b
  large : ∀ x ∈ st.live, classOf x.2 = none →
    ∃ b, x.1 = payload b ∧ (b, E.mapLen ((blockSize + x.2) % 2 ^ 64)) ∈ st.maps ∧ size st.mem b = x.2

/-- `mmap` may answer `[header, header + n)`: outside the heap and every mapping there is. -/
def Mappable (E : Env) (st : St) (header n : Nat) : Prop :=
  0 < header ∧ header + n ≤ 2 ^ 64 ∧ Apart E.lo (E.hi - E.lo) header n ∧ ∀ x ∈ st.maps, Apart header n x.1 x.2

def Legal (E : Env) (st : St) : Call → Prop
  | .malloc s answer => s < 2 ^ 64 ∧ ∀ header ∈ answer, Mappable E st header (E.mapLen ((blockSize + s) % 2 ^ 64))
  | .free ptr => ptr = 0 ∨ ptr ∈ held st
  | .write a _ => ∀ x ∈ objects st, Apart a 1 x.1 24

variable {E : Env} {st t : St} {L : Cls → List Nat}

/-! ## Classes -/

theorem classOf_some {s : Nat} {c : Cls} (h : classOf s = some c) : s ≤ c.bytes ∧ s ≤ 1024 := by
  unfold classOf at h
  split at h
  · cases h; exact ⟨‹_›, by omega⟩
  split at h
  · cases h; exact ⟨‹_›, by omega⟩
  split at h
  · cases h; exact ⟨‹_›, ‹_›⟩
  · cases h

theorem classOf_none {s : Nat} : classOf s = none ↔ 1024 < s := by
  unfold classOf
  split
  · simp; omega
  split
  · simp; omega
  split
  · simpa using ‹_›
  · simp; omega

theorem classOf_bytes (c : Cls) : classOf c.bytes = some c := by cases c <;> rfl

theorem ArenaOk.listFor_eq {A : Arena} (h : ArenaOk st A L) (s : Nat) : listFor st.mem A s = classOf s := by
  simp only [listFor, classOf, (h.classes _).sizeOf, Cls.bytes]

/-- The record of the large blocks is none of the others. -/
theorem ArenaOk.over_ne {A : Arena} (h : ArenaOk st A L) (c : Cls) : A.over1024 ≠ A.list c := by
  intro e
  have := h.overSize.symm.trans ((congrArg _ e).trans (h.classes c).sizeOf)
  cases c <;> simp [Cls.bytes] at this

theorem ArenaOk.list_ne {A : Arena} (h : ArenaOk st A L) {c c' : Cls} (hne : c ≠ c') : A.list c ≠ A.list c' := by
  intro e
  have := (h.classes c).sizeOf.symm.trans ((congrArg _ e).trans (h.classes c').sizeOf)
  cases c <;> cases c' <;> simp_all [Cls.bytes]

/-- A record is no block of a list. -/
theorem Inv.record_ne (hi : Inv E st L) {r b : Nat} {c : Cls} (hr : r ∈ st.recs) (hb : b ∈ L c) : r ≠ b :=
  hi.layout.record_ne hr ((hi.arena.classes c).blocks b hb).1

/-- A held pointer of a list's block was asked for in its class. -/
theorem Inv.class_of_held (hi : Inv E st L) {x : Nat × Nat} (hx : x ∈ st.live) {b : Nat} {c : Cls} (hb : b ∈ L c)
    (e : x.1 = payload b) : classOf x.2 = some c := by
  cases hc : classOf x.2 with
  | none =>
    obtain ⟨b', e', hm, -⟩ := hi.large x hx hc
    exact absurd (payload_inj (e.symm.trans e'))
      (hi.layout.not_mapped (mem_objects_blk ((hi.arena.classes c).blocks b hb).1) hm)
  | some c' =>
    obtain ⟨b', hb', e'⟩ := hi.small x hx c' hc
    rw [← payload_inj (e.symm.trans e')] at hb'
    by_cases hne : c = c'
    · rw [hne]
    · exact absurd hb' ((hi.arena.classes c).disjoint (hi.arena.classes c') hne hb)

/-- A held pointer's block. -/
theorem Inv.live_block (hi : Inv E st L) {x : Nat × Nat} (hx : x ∈ st.live) : ∃ b n, x.1 = payload b ∧
    (b, n) ∈ st.blks ++ st.maps := by
  cases hc : classOf x.2 with
  | none =>
    obtain ⟨b, e, hm, -⟩ := hi.large x hx hc
    exact ⟨b, _, e, List.mem_append_right _ hm⟩
  | some c =>
    obtain ⟨b, hb, e⟩ := hi.small x hx c hc
    exact ⟨b, _, e, List.mem_append_left _ ((hi.arena.classes c).blocks b hb).1⟩

/-! ## What `mymalloc` does -/

theorem hold_payload (s b : Nat) (st : St) : hold s (payload b) st = { st with live := (payload b, s) :: st.live } :=
  if_neg (payload_ne_zero b)

@[simp] theorem hold_mem (s p : Nat) (st : St) : (hold s p st).mem = st.mem := by
  unfold hold
  split <;> rfl

@[simp] theorem hold_brk (s p : Nat) (st : St) : (hold s p st).brk = st.brk := by
  unfold hold
  split <;> rfl

@[simp] theorem hold_blks (s p : Nat) (st : St) : (hold s p st).blks = st.blks := by
  unfold hold
  split <;> rfl

@[simp] theorem hold_maps (s p : Nat) (st : St) : (hold s p st).maps = st.maps := by
  unfold hold
  split <;> rfl

theorem malloc_of_mymalloc {s p : Nat} {answer : Option Nat} (h : mymalloc E st s answer = some (p, t)) :
    malloc E st s answer = some (p, hold s p t) := by
  rw [malloc, h]
  rfl

theorem mymalloc_of_malloc {s p : Nat} {answer : Option Nat} (h : malloc E st s answer = some (p, t)) :
    ∃ u, mymalloc E st s answer = some (p, u) ∧ t = hold s p u := by
  obtain ⟨r, hr, e⟩ := Option.map_eq_some_iff.mp h
  cases e
  exact ⟨r.2, hr, rfl⟩

theorem mymalloc_null {s : Nat} {answer : Option Nat} (h : malloc E st s answer = some (0, t)) :
    mymalloc E st s answer = some (0, t) := by
  obtain ⟨u, hu, rfl⟩ := mymalloc_of_malloc h
  exact hu

/-- The state after a block was found and handed out for `s` bytes. -/
def reuse (st : St) (s header : Nat) : St :=
  { st with mem := setInUse st.mem header 1, live := (payload header, s) :: st.live }

/-- The state after a block for `s` bytes was mapped at `header`. -/
def withMap (E : Env) (st : St) (s header : Nat) : St :=
  { st with
    mem := placeHeader st.mem header s 1
    maps := (header, E.mapLen ((blockSize + s) % 2 ^ 64)) :: st.maps
    live := (payload header, s) :: st.live }

inductive Outcome (E : Env) (st : St) (L : Cls → List Nat) (s : Nat) (answer : Option Nat) : Option (Nat × St) → Prop
  | zero : s = 0 → Outcome E st L s answer (some (0, st))
  | reused {c : Cls} {b : Nat} : 0 < s → classOf s = some c → b ∈ L c → payload b ∉ held st →
      Outcome E st L s answer (some (payload b, reuse st s b))
  | appended {c : Cls} {a : Nat} : 0 < s → classOf s = some c → (∀ b ∈ L c, payload b ∈ held st) → st.brk ≤ a →
      a + (blockSize + c.bytes) ≤ E.hi →
      Outcome E st L s answer
        (some (payload a, withBlock st a c ((active E st).list c) 1 ((payload a, s) :: st.live)))
  | refused {c : Cls} : 0 < s → classOf s = some c → (∀ b ∈ L c, payload b ∈ held st) →
      E.hi < st.brk + E.gap st.calls + (blockSize + c.bytes) →
      Outcome E st L s answer (if c = .c64 then none else some (0, { st with calls := st.calls + 1 }))
  | unmapped : classOf s = none → (answer = none ∨ (blockSize + s) % 2 ^ 64 = 0) → Outcome E st L s answer (some (0, st))
  | mapped {header : Nat} : classOf s = none → answer = some header → (blockSize + s) % 2 ^ 64 ≠ 0 →
      Outcome E st L s answer (some (payload header, withMap E st s header))

/-- A list is shorter than the heap, which is all the fuel its walks need. -/
theorem Inv.length_lt (hi : Inv E st L) (c : Cls) : (L c).length < E.hi := by
  have hpos := E.pos
  have hle := E.le
  refine (hi.arena.classes c).list.linked.length_lt (by omega) fun b hb => ?_
  have h1 := hi.layout.heap _ (mem_objects_blk ((hi.arena.classes c).blocks b hb).1)
  have h2 := hi.layout.brk
  simp only at h1
  omega

theorem Inv.fits_iff (hi : Inv E st L) {s b : Nat} {c : Cls} (hs : classOf s = some c) (hb : b ∈ L c) :
    fits st.mem s b = true ↔ payload b ∉ held st := by
  obtain ⟨-, hsz, hu⟩ := (hi.arena.classes c).blocks b hb
  have := (classOf_some hs).1
  simp only [fits, hu, hsz, decide_eq_true this, Bool.and_true, held]
  split <;> simp_all

theorem appendBlock_cases (hi : Inv E st L) {s : Nat} {answer : Option Nat} {c : Cls} (h0 : 0 < s)
    (hs : classOf s = some c) (hall : ∀ b ∈ L c, payload b ∈ held st) :
    Outcome E st L s answer ((appendBlock E st c (active E st)).map fun r => (r.1, hold s r.1 r.2)) := by
  unfold appendBlock getBlock
  rw [(hi.arena.classes c).sizeOf]
  split
  · rename_i st₁ hb
    have hno : E.hi < st.brk + E.gap st.calls + (blockSize + c.bytes) ∧ st₁ = { st with calls := st.calls + 1 } := by
      simp only [sbrk] at hb
      split at hb
      · cases hb
      · exact ⟨by omega, by simpa using hb.symm⟩
    obtain ⟨hno, rfl⟩ := hno
    refine (congrArg (Outcome E st L s answer) ?_).mpr (.refused h0 hs hall hno)
    by_cases e : c = .c64
    · rw [if_pos e]
      rfl
    · rw [if_neg e]
      rfl
  · rename_i a st₁ hb
    obtain ⟨ha, hle, rfl⟩ := sbrk_some hb
    rw [Option.map_some, hold_payload]
    exact .appended h0 hs hall ha hle

theorem mapBlock_cases {s : Nat} (answer : Option Nat) (hs : classOf s = none) :
    Outcome E st L s answer ((some (mapBlock E st s answer)).map fun r => (r.1, hold s r.1 r.2)) := by
  cases answer with
  | none => exact .unmapped hs (Or.inl rfl)
  | some header =>
    unfold mapBlock
    dsimp only
    split
    · exact .unmapped hs (Or.inr ‹_›)
    · rw [Option.map_some, hold_payload]
      exact .mapped hs rfl ‹_›

theorem malloc_cases (hi : Inv E st L) (s : Nat) (answer : Option Nat) :
    Outcome E st L s answer (malloc E st s answer) := by
  have hinit : initialized E st = some st := if_pos hi.ready
  simp only [malloc, mymalloc, hinit, allocate]
  by_cases h0 : s = 0
  · simp only [h0, if_true]; exact .zero rfl
  have hpos : 0 < s := by omega
  simp only [h0, if_false, getFreeBlock, headFor, hi.arena.listFor_eq]
  cases hs : classOf s with
  | none =>
    -- the list of the large blocks is empty, so the search ends at once
    have h1 : search (next st.mem) (fits st.mem s) E.hi (recHead st.mem (active E st).over1024) = some 0 := by
      have := E.pos
      have := E.le
      rw [hi.arena.overHead]
      exact search_linked (l := []) _ rfl (by simp; omega)
    simp only [h1]
    exact mapBlock_cases answer hs
  | some c =>
    have hlist := (hi.arena.classes c).list.linked
    have h1 := search_linked (fits st.mem s) hlist (hi.length_lt c)
    simp only [h1]
    cases hf : (L c).find? (fits st.mem s) with
    | none =>
      simp only [Option.getD_none, ne_eq, not_true_eq_false, if_false]
      refine appendBlock_cases hi hpos hs fun b hb => ?_
      have := List.find?_eq_none.mp hf b hb
      rw [hi.fits_iff hs hb] at this
      exact Decidable.not_not.mp this
    | some b =>
      have hb := List.mem_of_find?_eq_some hf
      have hb0 : b ≠ 0 := fun e => hlist.ne_zero (e ▸ hb)
      simp only [Option.getD_some, ne_eq, hb0, not_false_eq_true, if_true, Option.map_some, hold_payload]
      exact .reused hpos hs hb ((hi.fits_iff hs hb).mp (List.find?_some hf))

/-- A request above 1024 bytes gets the region `mmap` answers, or NULL if it fails. -/
theorem Inv.large_block (hi : Inv E st L) {s : Nat} (answer : Option Nat) (hs : classOf s = none) :
    ((answer = none ∨ (blockSize + s) % 2 ^ 64 = 0) ∧ malloc E st s answer = some (0, st)) ∨
      ∃ header, answer = some header ∧ (blockSize + s) % 2 ^ 64 ≠ 0 ∧
        malloc E st s answer = some (payload header, withMap E st s header) := by
  have hcase := malloc_cases hi s answer
  generalize malloc E st s answer = r at hcase
  cases hcase with
  | zero h0 => have := classOf_none.mp hs; omega
  | unmapped _ hno => exact Or.inl ⟨hno, rfl⟩
  | mapped _ ha ht => exact Or.inr ⟨_, ha, ht, rfl⟩
  | reused _ hs' _ _ => cases hs.symm.trans hs'
  | appended _ hs' _ _ _ => cases hs.symm.trans hs'
  | refused _ hs' _ _ => cases hs.symm.trans hs'

/-! ## What `myfree` does -/

/-- The client no longer holds `ptr`. -/
def drop (st : St) (ptr : Nat) : List (Nat × Nat) := st.live.filter (·.1 ≠ ptr)

theorem free_small (hi : Inv E st L) {b : Nat} {c : Cls} (hb : b ∈ L c) :
    free E st (payload b) =
      some { st with mem := setInUse (setInUse st.mem b 0) b 0, live := drop st (payload b) } := by
  have hlist := (hi.arena.classes c).list.linked
  have hsz := ((hi.arena.classes c).blocks b hb).2.1
  have hfind : (L c).find? (· == b) = some b := by
    obtain ⟨x, hx⟩ := Option.isSome_iff_exists.mp (List.find?_isSome (p := (· == b)).mpr ⟨b, hb, beq_self_eq_true b⟩)
    have := List.find?_some hx
    rw [hx, beq_iff_eq.mp this]
  have hs := search_linked (· == b) hlist (hi.length_lt c)
  rw [hfind] at hs
  simp only [free, myfree, payload_ne_zero, if_false, headerOf_payload, hi.arena.listFor_eq, hsz, classOf_bytes, hs,
    Option.getD_some, if_true, Option.map_some, forget, drop]

theorem free_large (hi : Inv E st L) {b : Nat} (hsz : classOf (size st.mem b) = none) :
    free E st (payload b) = some { st with
      mem := setInUse st.mem b 0, maps := st.maps.filter (·.1 ≠ b), live := drop st (payload b) } := by
  simp only [free, myfree, payload_ne_zero, if_false, headerOf_payload, hi.arena.listFor_eq, hsz, Option.map_some, forget,
    drop]

theorem mem_drop {ptr : Nat} {x : Nat × Nat} : x ∈ drop st ptr ↔ x ∈ st.live ∧ x.1 ≠ ptr := by
  simp [drop, List.mem_filter]

theorem mem_held_drop {ptr p : Nat} : p ∈ (drop st ptr).map Prod.fst ↔ p ∈ held st ∧ p ≠ ptr := by
  simp only [held, List.mem_map, mem_drop]
  constructor
  · intro h
    obtain ⟨x, ⟨hx, hne⟩, rfl⟩ := h
    exact ⟨⟨x, hx, rfl⟩, hne⟩
  · intro h
    obtain ⟨⟨x, hx, rfl⟩, hne⟩ := h
    exact ⟨x, ⟨hx, hne⟩, rfl⟩

theorem Inv.nodup_drop (hi : Inv E st L) (ptr : Nat) : ((drop st ptr).map Prod.fst).Nodup :=
  (List.Sublist.map Prod.fst List.filter_sublist).nodup hi.nodup

theorem drop_zero (hi : Inv E st L) : drop st 0 = st.live := by
  refine List.filter_eq_self.mpr fun x hx => ?_
  obtain ⟨b, n, e, -⟩ := hi.live_block hx
  simp only [e, ne_eq, payload_ne_zero, not_false_eq_true, decide_true]

theorem free_zero (hi : Inv E st L) : free E st 0 = some st := by
  have hlive : st.live.filter (·.1 ≠ 0) = st.live := drop_zero hi
  simp only [free, myfree, if_true, Option.map_some, forget, hlive]

/-! ## Every step keeps the invariant -/

/-- Only the flag of a listed block changes, as the client takes or gives it back. -/
theorem Inv.flag (hi : Inv E st L) {b : Nat} {c : Cls} (hb : b ∈ L c) {m : Mem} {live : List (Nat × Nat)}
    (hm : ∀ x ∈ objects st, x.1 ≠ b → Agree m st.mem x.1 24) (hsz : size m b = size st.mem b)
    (hnx : next m b = next st.mem b) (hu : inUse m b = if payload b ∈ live.map Prod.fst then 1 else 0)
    (hlive : ∀ b', b' ≠ b → (payload b' ∈ live.map Prod.fst ↔ payload b' ∈ held st)) :
    ArenaOk { st with mem := m, live := live } (active E st) L := by
  have hrec : ∀ r ∈ st.recs, Agree m st.mem r 24 := fun r hr =>
    hm _ (heapObjects_subset st (mem_objects_rec hr)) (hi.record_ne hr hb)
  have ho := hrec _ hi.arena.overMem
  refine ⟨fun c' => ?_, hi.arena.overMem, (recSize_agree ho).trans hi.arena.overSize,
    (recHead_agree ho).trans hi.arena.overHead⟩
  have hc := hi.arena.classes c'
  have hr := hrec _ hc.record
  refine ⟨hc.record, (recSize_agree hr).trans hc.sizeOf, ⟨?_, (recTail_agree hr).trans hc.list.tail⟩, fun b' hb' => ?_⟩
  · rw [recHead_agree hr]
    refine hc.list.linked.congr fun b' hb' => ?_
    by_cases e : b' = b
    · rw [e]; exact hnx
    · exact next_agree (hm _ (hc.mem hb') e)
  · obtain ⟨h1, h2, h3⟩ := hc.blocks b' hb'
    by_cases e : b' = b
    · subst e; exact ⟨h1, hsz.trans h2, hu⟩
    · have ha := hm _ (hc.mem hb') e
      refine ⟨h1, (size_agree ha).trans h2, (inUse_agree ha).trans (h3.trans ?_)⟩
      have := hlive b' e
      simp only [held] at this
      simp only [this]

theorem Inv.reused (hi : Inv E st L) {s b : Nat} {c : Cls} (hs : classOf s = some c) (hb : b ∈ L c)
    (hfree : payload b ∉ held st) : Inv E (reuse st s b) L := by
  have hm : ∀ x ∈ objects st, x.1 ≠ b → Agree (setInUse st.mem b 1) st.mem x.1 24 := fun x hx hne =>
    setInUse_agree _ _ (hi.layout.apart24 ((hi.arena.classes c).mem hb) hx (Ne.symm hne))
  refine ⟨hi.layout.keep _ _ _, ?_, hi.ready,
    List.nodup_cons.mpr ⟨hfree, hi.nodup⟩, ?_, ?_⟩
  · refine hi.flag hb hm (size_setInUse _ _ _) (next_setInUse _ _ _) (by simp) fun b' hne => ?_
    simp only [List.map_cons, List.mem_cons, held, or_iff_right_iff_imp]
    exact fun e => absurd (payload_inj e) hne
  · intro x hx c' hc'
    rcases List.mem_cons.mp hx with rfl | hx
    · rw [hs] at hc'; cases hc'; exact ⟨b, hb, rfl⟩
    · exact hi.small x hx c' hc'
  · intro x hx hc'
    rcases List.mem_cons.mp hx with rfl | hx
    · rw [hs] at hc'; cases hc'
    · obtain ⟨b', e, hmap, hsz⟩ := hi.large x hx hc'
      have hne := hi.layout.not_mapped (mem_objects_blk ((hi.arena.classes c).blocks b hb).1) hmap
      exact ⟨b', e, hmap, (size_agree (hm _ (List.mem_append_right _ hmap) (Ne.symm hne))).trans hsz⟩

theorem Inv.above (hi : Inv E st L) {a : Nat} (ha : st.brk ≤ a) {x : Nat × Nat} (hx : x ∈ heapObjects st) : x.1 ≠ a := by
  have := hi.layout.heap x hx
  omega

theorem Inv.appended (hi : Inv E st L) {s a : Nat} {c : Cls} (hs : classOf s = some c) (ha : st.brk ≤ a)
    (hle : a + (blockSize + c.bytes) ≤ E.hi) :
    Inv E (withBlock st a c ((active E st).list c) 1 ((payload a, s) :: st.live))
      (Function.update L c (L c ++ [a])) := by
  have hc := hi.arena.classes c
  have hnew : payload a ∉ held st := by
    intro hmem
    obtain ⟨x, hx, e⟩ := List.mem_map.mp hmem
    obtain ⟨b, n, e', hobj⟩ := hi.live_block hx
    have hba : b = a := payload_inj (e'.symm.trans e)
    have hobj' : (b, n) ∈ objects st := by
      rcases List.mem_append.mp hobj with h | h
      · exact heapObjects_subset st (mem_objects_blk h)
      · exact List.mem_append_right _ h
    rcases above_object hi.layout ha hle hobj' with h | h <;> simp only at h <;> omega
  have hlive : ∀ b, b ≠ a →
      (payload b ∈ ((payload a, s) :: st.live).map Prod.fst ↔ payload b ∈ st.live.map Prod.fst) := by
    intro b hne
    simp only [List.map_cons, List.mem_cons, or_iff_right_iff_imp]
    exact fun e => absurd (payload_inj e) hne
  have hkeep : ∀ x ∈ objects st, x.1 ≠ (active E st).list c → x.1 ∉ L c →
      Agree (withBlock st a c ((active E st).list c) 1 ((payload a, s) :: st.live)).mem st.mem x.1 24 :=
    fun x hx hr hb => withBlock_agree hi.layout hc ha hle 1 _ hx hr hb
  refine ⟨withBlock_layout hi.layout ha hle 1 _, ?_, hi.ready, List.nodup_cons.mpr ⟨hnew, hi.nodup⟩, ?_, ?_⟩
  · have ho := hkeep _ (heapObjects_subset st (mem_objects_rec hi.arena.overMem)) (hi.arena.over_ne c)
      fun hb => hi.record_ne hi.arena.overMem hb rfl
    refine ⟨fun c' => ?_, hi.arena.overMem, (recSize_agree ho).trans hi.arena.overSize,
      (recHead_agree ho).trans hi.arena.overHead⟩
    by_cases e : c' = c
    · subst e
      rw [Function.update_self]
      exact withBlock_class hi.layout hc ha hle
        (fun b hb => hlive b (hi.above ha (mem_objects_blk (hc.blocks b hb).1))) (by simp)
    · rw [Function.update_of_ne e]
      have hc' := hi.arena.classes c'
      refine hc'.frame (fun x hx => hx) (fun x hx => List.mem_cons_of_mem _ hx)
        (fun b hb => hlive b (hi.above ha (mem_objects_blk (hc'.blocks b hb).1)))
        (hkeep _ hc'.mem_record (hi.arena.list_ne e) fun hb => hi.record_ne hc'.record hb rfl)
        fun b hb => hkeep _ (hc'.mem hb) (Ne.symm (hi.record_ne hc.record hb)) (hc'.disjoint hc e hb)
  · intro x hx c' hc'
    rcases List.mem_cons.mp hx with rfl | hx
    · rw [hs] at hc'; cases hc'
      exact ⟨a, by simp, rfl⟩
    · obtain ⟨b, hb, e⟩ := hi.small x hx c' hc'
      refine ⟨b, ?_, e⟩
      by_cases e : c' = c
      · subst e; simp [hb]
      · rwa [Function.update_of_ne e]
  · intro x hx hc'
    rcases List.mem_cons.mp hx with rfl | hx
    · rw [hs] at hc'; cases hc'
    · obtain ⟨b, e, hmap, hsz⟩ := hi.large x hx hc'
      refine ⟨b, e, hmap, (size_agree (hkeep _ (List.mem_append_right _ hmap) ?_ ?_)).trans hsz⟩
      · exact Ne.symm (hi.layout.not_mapped (mem_objects_rec hc.record) hmap)
      · exact fun hb => hi.layout.not_mapped (mem_objects_blk (hc.blocks b hb).1) hmap rfl

/-- Nothing but bytes outside records and headers changes. -/
theorem Inv.frame (hi : Inv E st L) {m : Mem} (hm : ∀ x ∈ objects st, Agree m st.mem x.1 24) (calls : Nat) :
    Inv E { st with mem := m, calls := calls } L := by
  have ho := hm _ (heapObjects_subset st (mem_objects_rec hi.arena.overMem))
  refine ⟨hi.layout.keep _ _ _,
    ⟨fun c => ?_, hi.arena.overMem, (recSize_agree ho).trans hi.arena.overSize,
      (recHead_agree ho).trans hi.arena.overHead⟩, hi.ready, hi.nodup, hi.small, fun x hx hc => ?_⟩
  · have hc := hi.arena.classes c
    exact hc.frame (fun x hx => hx) (fun x hx => hx) (fun b hb => Iff.rfl) (hm _ hc.mem_record)
      fun b hb => hm _ (hc.mem hb)
  · obtain ⟨b, e, hmap, hsz⟩ := hi.large x hx hc
    exact ⟨b, e, hmap, (size_agree (hm _ (List.mem_append_right _ hmap))).trans hsz⟩

theorem mem_unmapped {maps : List (Nat × Nat)} {b : Nat} {x : Nat × Nat} :
    x ∈ maps.filter (·.1 ≠ b) ↔ x ∈ maps ∧ x.1 ≠ b := by
  simp [List.mem_filter]

theorem Layout.map (h : Layout E st) {header n : Nat} (hlen : 24 ≤ n) (hok : Mappable E st header n) :
    Layout E { st with maps := (header, n) :: st.maps } ∧ ∀ x ∈ objects st, Apart header n x.1 x.2 := by
  obtain ⟨hpos, htop, hheap, hmaps⟩ := hok
  have hnew : ∀ x ∈ objects st, Apart header n x.1 x.2 := by
    intro x hx
    rcases List.mem_append.mp hx with hx | hx
    · have h1 := h.heap x hx
      have h2 := h.brk
      rcases hheap with h | h
      · exact Or.inr (by omega)
      · exact Or.inl (by omega)
    · exact hmaps x hx
  have hmem : ∀ x, x ∈ heapObjects st ++ (header, n) :: st.maps ↔ x = (header, n) ∨ x ∈ objects st := by
    intro x
    simp only [objects, List.mem_append, List.mem_cons]
    exact or_left_comm
  refine ⟨⟨h.apart_insert hmem hnew, h.heap, ?_, h.brk⟩, hnew⟩
  intro x hx
  rcases List.mem_cons.mp hx with rfl | hx
  · exact ⟨hpos, hlen, htop, hheap⟩
  · exact h.maps x hx

theorem Layout.unmap (h : Layout E st) (b : Nat) : Layout E { st with maps := st.maps.filter (·.1 ≠ b) } := by
  have hsub : ∀ x ∈ heapObjects st ++ st.maps.filter (·.1 ≠ b), x ∈ objects st := by
    intro x hx
    rcases List.mem_append.mp hx with hx | hx
    · exact heapObjects_subset st hx
    · exact List.mem_append_right _ (mem_unmapped.mp hx).1
  exact ⟨fun x hx y hy => h.apart x (hsub x hx) y (hsub y hy), h.heap, fun x hx => h.maps x (mem_unmapped.mp hx).1,
    h.brk⟩

theorem Inv.mapped (hi : Inv E st L) {s header : Nat} (hs : classOf s = none) (h64 : s < 2 ^ 64)
    (htotal : (blockSize + s) % 2 ^ 64 ≠ 0) (hok : Mappable E st header (E.mapLen ((blockSize + s) % 2 ^ 64))) :
    Inv E (withMap E st s header) L := by
  have hlen := E.header_le_mapLen _ (Nat.pos_of_ne_zero htotal)
  have hst : withMap E st s header = { st with
    mem := placeHeader st.mem header s 1
    maps := (header, E.mapLen ((blockSize + s) % 2 ^ 64)) :: st.maps
    live := (payload header, s) :: st.live } := rfl
  generalize hn : E.mapLen ((blockSize + s) % 2 ^ 64) = n at hst hlen hok
  rw [blockSize] at hlen
  rw [hst]
  obtain ⟨hlay, hnew⟩ := hi.layout.map hlen hok
  have hnew24 : ∀ x ∈ objects st, Apart header 24 x.1 24 := by
    intro x hx
    have := hi.layout.bounds hx
    rcases hnew x hx with h | h
    · exact Or.inl (by omega)
    · exact Or.inr (by omega)
  have hm : ∀ x ∈ objects st, Agree (placeHeader st.mem header s 1) st.mem x.1 24 := fun x hx =>
    placeHeader_agree _ _ _ (hnew24 x hx)
  have hne : ∀ x ∈ objects st, x.1 ≠ header := by
    intro x hx e
    rcases hnew24 x hx with h | h <;> omega
  have hfresh : payload header ∉ held st := by
    intro hmem
    obtain ⟨x, hx, e⟩ := List.mem_map.mp hmem
    obtain ⟨b, k, e', hobj⟩ := hi.live_block hx
    refine hne (b, k) ?_ (payload_inj (e'.symm.trans e))
    rcases List.mem_append.mp hobj with h | h
    · exact heapObjects_subset st (mem_objects_blk h)
    · exact List.mem_append_right _ h
  have ho := hm _ (heapObjects_subset st (mem_objects_rec hi.arena.overMem))
  refine ⟨hlay.keep _ _ _, ⟨fun c => ?_, hi.arena.overMem, (recSize_agree ho).trans hi.arena.overSize,
      (recHead_agree ho).trans hi.arena.overHead⟩, hi.ready, List.nodup_cons.mpr ⟨hfresh, hi.nodup⟩, ?_, ?_⟩
  · have hc := hi.arena.classes c
    refine hc.frame (fun x hx => hx) (fun x hx => hx) (fun b hb => ?_) (hm _ hc.mem_record) fun b hb => hm _ (hc.mem hb)
    simp only [List.map_cons, List.mem_cons, or_iff_right_iff_imp]
    exact fun e => absurd (payload_inj e) (hne _ (hc.mem hb))
  · intro x hx c hc
    rcases List.mem_cons.mp hx with rfl | hx
    · rw [hs] at hc; cases hc
    · exact hi.small x hx c hc
  · intro x hx hc
    rcases List.mem_cons.mp hx with rfl | hx
    · refine ⟨header, rfl, by rw [hn]; exact List.mem_cons_self .., ?_⟩
      exact (placeHeader_fields _ _ _ _).1.trans (Nat.mod_eq_of_lt h64)
    · obtain ⟨b, e, hmap, hsz⟩ := hi.large x hx hc
      exact ⟨b, e, List.mem_cons_of_mem _ hmap, (size_agree (hm _ (List.mem_append_right _ hmap))).trans hsz⟩

theorem Inv.freed_small (hi : Inv E st L) {b : Nat} {c : Cls} (hb : b ∈ L c) :
    Inv E { st with mem := setInUse (setInUse st.mem b 0) b 0, live := drop st (payload b) } L := by
  have hm : ∀ x ∈ objects st, x.1 ≠ b → Agree (setInUse (setInUse st.mem b 0) b 0) st.mem x.1 24 := fun x hx hne =>
    have ha := hi.layout.apart24 ((hi.arena.classes c).mem hb) hx (Ne.symm hne)
    (setInUse_agree _ _ ha).trans (setInUse_agree _ _ ha)
  refine ⟨hi.layout.keep _ _ _, ?_, hi.ready, hi.nodup_drop _, ?_, ?_⟩
  · refine hi.flag hb hm (by simp) (by simp) ?_ fun b' hne => ?_
    · simp [mem_held_drop]
    · rw [mem_held_drop, and_iff_left_iff_imp]
      exact fun _ e => hne (payload_inj e)
  · intro x hx c' hc'
    exact hi.small x (mem_drop.mp hx).1 c' hc'
  · intro x hx hc'
    obtain ⟨b', e, hmap, hsz⟩ := hi.large x (mem_drop.mp hx).1 hc'
    have hne := hi.layout.not_mapped (mem_objects_blk ((hi.arena.classes c).blocks b hb).1) hmap
    exact ⟨b', e, hmap, (size_agree (hm _ (List.mem_append_right _ hmap) (Ne.symm hne))).trans hsz⟩

theorem Inv.freed_large (hi : Inv E st L) {b n : Nat} (hb : (b, n) ∈ st.maps) :
    Inv E { st with
      mem := setInUse st.mem b 0, maps := st.maps.filter (·.1 ≠ b), live := drop st (payload b) } L := by
  have hm : ∀ x ∈ objects st, x.1 ≠ b → Agree (setInUse st.mem b 0) st.mem x.1 24 := fun x hx hne =>
    setInUse_agree _ _ (hi.layout.apart24 (List.mem_append_right _ hb) hx (Ne.symm hne))
  have hheap : ∀ x ∈ heapObjects st, Agree (setInUse st.mem b 0) st.mem x.1 24 := fun x hx =>
    hm x (heapObjects_subset st hx) (hi.layout.not_mapped hx hb)
  have ho := hheap _ (mem_objects_rec hi.arena.overMem)
  refine ⟨(hi.layout.unmap b).keep _ _ _,
    ⟨fun c => ?_, hi.arena.overMem, (recSize_agree ho).trans hi.arena.overSize,
      (recHead_agree ho).trans hi.arena.overHead⟩, hi.ready, hi.nodup_drop _, ?_, ?_⟩
  · have hc := hi.arena.classes c
    refine hc.frame (fun x hx => hx) (fun x hx => hx) (fun b' hb' => ?_) (hheap _ (mem_objects_rec hc.record))
      fun b' hb' => hheap _ (mem_objects_blk (hc.blocks b' hb').1)
    refine mem_held_drop.trans (and_iff_left_of_imp fun _ e => ?_)
    exact hi.layout.not_mapped (mem_objects_blk (hc.blocks b' hb').1) hb (payload_inj e)
  · intro x hx c hc
    exact hi.small x (mem_drop.mp hx).1 c hc
  · intro x hx hc
    obtain ⟨hx, hne⟩ := mem_drop.mp hx
    obtain ⟨b', e, hmap, hsz⟩ := hi.large x hx hc
    have hbb : b' ≠ b := fun h => hne (by rw [e, h])
    exact ⟨b', e, mem_unmapped.mpr ⟨hmap, hbb⟩, (size_agree (hm _ (List.mem_append_right _ hmap) hbb)).trans hsz⟩

/-! ## Blocks held of a class -/

/-- How many of the client's pointers were asked for in class `c`. -/
def count (c : Cls) (st : St) : Nat := st.live.countP (fun x => classOf x.2 = some c)

theorem count_cons (c : Cls) (x : Nat × Nat) (h : t.live = x :: st.live) :
    count c t = count c st + if classOf x.2 = some c then 1 else 0 := by
  simp [count, h, List.countP_cons]

/-- The pointers held of a class. -/
def heldOf (c : Cls) (st : St) : List Nat := (st.live.filter (fun x => classOf x.2 = some c)).map Prod.fst

theorem heldOf_length (c : Cls) (st : St) : (heldOf c st).length = count c st := by
  simp [heldOf, count, List.countP_eq_length_filter]

theorem mem_heldOf {c : Cls} {p : Nat} : p ∈ heldOf c st ↔ ∃ x ∈ st.live, classOf x.2 = some c ∧ x.1 = p := by
  simp only [heldOf, List.mem_map, List.mem_filter, decide_eq_true_eq, and_assoc]

theorem Inv.count_le (hi : Inv E st L) (c : Cls) : count c st ≤ (L c).length := by
  have hnd : (heldOf c st).Nodup := (List.Sublist.map Prod.fst List.filter_sublist).nodup hi.nodup
  have hsub : heldOf c st ⊆ (L c).map payload := by
    intro p hp
    obtain ⟨x, hx, hc, rfl⟩ := mem_heldOf.mp hp
    obtain ⟨b, hb, e⟩ := hi.small x hx c hc
    exact e ▸ List.mem_map_of_mem hb
  have := (hnd.subperm hsub).length_le
  rwa [List.length_map, heldOf_length] at this

/-- When every block of a list is held, as many of its class are held. -/
theorem Inv.count_full (hi : Inv E st L) {c : Cls} (hall : ∀ b ∈ L c, payload b ∈ held st) :
    count c st = (L c).length := by
  refine Nat.le_antisymm (hi.count_le c) ?_
  have hnd : ((L c).map payload).Nodup :=
    (hi.arena.classes c).list.linked.nodup.map fun _ _ e => payload_inj e
  have hsub : (L c).map payload ⊆ heldOf c st := by
    intro p hp
    obtain ⟨b, hb, rfl⟩ := List.mem_map.mp hp
    obtain ⟨x, hx, e⟩ := List.mem_map.mp (hall b hb)
    exact mem_heldOf.mpr ⟨x, hx, hi.class_of_held hx hb e, e⟩
  have := (hnd.subperm hsub).length_le
  rwa [List.length_map, heldOf_length] at this

/-! ## Steps and runs -/

/-- Should this call need a block from `sbrk`, it is there. -/
def Room (E : Env) (st : St) : Call → Prop
  | .malloc s _ => ∀ c, classOf s = some c → st.brk + E.gap st.calls + (blockSize + c.bytes) ≤ E.hi
  | _ => True

theorem free_inv (hi : Inv E st L) {ptr : Nat} (hl : Legal E st (.free ptr)) :
    ∃ t, free E st ptr = some t ∧ Inv E t L ∧ t.calls = st.calls := by
  rcases hl with rfl | hl
  · exact ⟨st, free_zero hi, hi, rfl⟩
  obtain ⟨x, hx, rfl⟩ := List.mem_map.mp hl
  cases hc : classOf x.2 with
  | none =>
    obtain ⟨b, e, hmap, hsz⟩ := hi.large x hx hc
    refine ⟨_, ?_, hi.freed_large hmap, rfl⟩
    rw [e]
    exact free_large hi (by rw [hsz]; exact hc)
  | some c =>
    obtain ⟨b, hb, e⟩ := hi.small x hx c hc
    refine ⟨_, ?_, hi.freed_small hb, rfl⟩
    rw [e]
    exact free_small hi hb

theorem write_inv (hi : Inv E st L) {a : Nat} {v : UInt8} (hl : Legal E st (.write a v)) :
    Inv E { st with mem := Function.update st.mem a v } L :=
  hi.frame (fun x hx => update_agree _ _ (by have := hl x hx; rw [Apart] at this; omega)) st.calls

/-- A list grows only when all its blocks are held, and then by the block handed out. -/
theorem step_law {e : Call} (hi : Inv E st L) (hl : Legal E st e) (h : step E st e = some t) :
    ∃ L', Inv E t L' ∧ (∀ c, (L' c).length = max (L c).length (count c t)) ∧
      (Room E st e → (∀ c, count c t ≤ (L c).length) → t.calls = st.calls) := by
  have same : ∀ {u : St}, Inv E u L → ∀ c, (L c).length = max (L c).length (count c u) := fun hu c =>
    (Nat.max_eq_left (hu.count_le c)).symm
  cases e with
  | malloc s answer =>
    have hcase := malloc_cases hi s answer
    simp only [step] at h
    generalize hm : malloc E st s answer = r at hcase h
    cases hcase with
    | zero _ => cases h; exact ⟨L, hi, same hi, fun _ _ => rfl⟩
    | reused _ hs hb hfree =>
      cases h
      exact ⟨L, hi.reused hs hb hfree, same (hi.reused hs hb hfree), fun _ _ => rfl⟩
    | @appended c a _ hs hall ha hle =>
      cases h
      have hi' := hi.appended hs ha hle
      have hcount : count c (withBlock st a c ((active E st).list c) 1 ((payload a, s) :: st.live)) = count c st + _ :=
        count_cons c (payload a, s) rfl
      rw [if_pos hs, hi.count_full hall] at hcount
      refine ⟨_, hi', fun c' => ?_, fun _ hle' => ?_⟩
      · by_cases e : c' = c
        · subst e
          rw [hcount, Function.update_self, List.length_append, List.length_singleton]
          exact (Nat.max_eq_right (by omega)).symm
        · have := hi'.count_le c'
          rw [Function.update_of_ne e] at this ⊢
          exact (Nat.max_eq_left this).symm
      · have := hle' c
        rw [hcount] at this
        omega
    | @refused c _ hs _ hno =>
      by_cases e : c = .c64
      · rw [if_pos e] at h; cases h
      · rw [if_neg e] at h
        cases h
        have hi' := hi.frame (fun x _ => Agree.refl st.mem x.1 24) (st.calls + 1)
        exact ⟨L, hi', same hi', fun hroom _ => by have := hroom c hs; omega⟩
    | unmapped _ _ => cases h; exact ⟨L, hi, same hi, fun _ _ => rfl⟩
    | mapped hs ha ht =>
      cases h
      have hi' := hi.mapped hs hl.1 ht (hl.2 _ ha)
      exact ⟨L, hi', same hi', fun _ _ => rfl⟩
  | free ptr =>
    obtain ⟨u, hu, hi', hcalls⟩ := free_inv hi hl
    cases hu.symm.trans h
    exact ⟨L, hi', same hi', fun _ _ => hcalls⟩
  | write a v =>
    cases h
    exact ⟨L, write_inv hi hl, same (write_inv hi hl), fun _ _ => rfl⟩

theorem step_total {e : Call} (hi : Inv E st L) (hl : Legal E st e) (hr : Room E st e) : ∃ t, step E st e = some t := by
  cases e with
  | malloc s answer =>
    have hcase := malloc_cases hi s answer
    simp only [step]
    generalize malloc E st s answer = r at hcase
    cases hcase with
    | refused _ hs _ hno => have := hr _ hs; omega
    | _ => exact ⟨_, rfl⟩
  | free ptr =>
    obtain ⟨u, hu, -⟩ := free_inv hi hl
    exact ⟨u, hu⟩
  | write a v => exact ⟨_, rfl⟩

/-- The most of class `c` that were held at once, over the states of a run. -/
def peak (E : Env) (c : Cls) : St → List Call → Nat
  | st, [] => count c st
  | st, e :: es => max (count c st) (match step E st e with
    | some t => peak E c t es
    | none => 0)

theorem count_le_peak (c : Cls) (st : St) (es : List Call) : count c st ≤ peak E c st es := by
  cases es with
  | nil => exact Nat.le_refl _
  | cons e es => exact Nat.le_max_left _ _

theorem run_law (es : List Call) (hi : Inv E st L) (hl : ∀ x ∈ trail (step E) st es, Legal E x.1 x.2)
    (h : after (step E) st es = some t) :
    ∃ L', Inv E t L' ∧ ∀ c, (L' c).length = max (L c).length (peak E c st es) := by
  induction es generalizing st L with
  | nil =>
    cases h
    exact ⟨L, hi, fun c => (Nat.max_eq_left (hi.count_le c)).symm⟩
  | cons e es ih =>
    cases he : step E st e with
    | none => simp [after, he] at h
    | some u =>
      rw [trail_cons _ he, List.forall_mem_cons] at hl
      obtain ⟨L₁, hi₁, hlen, -⟩ := step_law hi hl.1 he
      simp only [after, he] at h
      obtain ⟨L₂, hi₂, hlen₂⟩ := ih hi₁ hl.2 h
      refine ⟨L₂, hi₂, fun c => ?_⟩
      have h1 := hi.count_le c
      have h2 := count_le_peak (E := E) c u es
      simp only [hlen₂, hlen, peak, he]
      omega

theorem run_quiet (es : List Call) (hi : Inv E st L) (hl : ∀ x ∈ trail (step E) st es, Legal E x.1 x.2)
    (hr : ∀ x ∈ trail (step E) st es, Room E x.1 x.2) (hp : ∀ c, peak E c st es ≤ (L c).length) :
    ∃ t, after (step E) st es = some t ∧ t.calls = st.calls := by
  induction es generalizing st L with
  | nil => exact ⟨st, rfl, rfl⟩
  | cons e es ih =>
    have hfirst : (st, e) ∈ trail (step E) st (e :: es) := by simp [trail]
    obtain ⟨u, he⟩ := step_total hi (hl _ hfirst) (hr _ hfirst)
    rw [trail_cons _ he, List.forall_mem_cons] at hl hr
    obtain ⟨L₁, hi₁, hlen, hcalls⟩ := step_law hi hl.1 he
    simp only [peak, he] at hp
    have hu : ∀ c, count c u ≤ (L c).length := fun c => by
      have := count_le_peak (E := E) c u es
      have := hp c
      omega
    obtain ⟨t, ht, hc⟩ := ih hi₁ hl.2 hr.2 fun c => by have := hp c; have := hlen c; omega
    exact ⟨t, by simp only [after, he, ht], hc.trans (hcalls hr.1 hu)⟩

theorem boot_inv {st : St} (h : boot E = some st) : ∃ L, Inv E st L ∧ ∀ c, (L c).length = c.pool := by
  obtain ⟨hlay, hlive, -, hready, L, hn, ok⟩ := boot_ok h
  exact ⟨L, ⟨hlay, ok, hready, by simp [held, hlive], by simp [hlive], by simp [hlive]⟩, hn⟩

/-! ## Size classes and ownership -/

/-- The lists of the arena in use, as the chains in memory are. -/
structure SizeClasses (E : Env) (st : St) (L : Cls → List Nat) : Prop where
  chain : ∀ c, Linked (next st.mem) (recHead st.mem ((active E st).list c)) (L c)
  once : ∀ c, (L c).Nodup
  tail : ∀ c, (L c).getLast? = some (recTail st.mem ((active E st).list c))
  ended : ∀ c, next st.mem (recTail st.mem ((active E st).list c)) = 0
  bytes : ∀ c, ∀ b ∈ L c, size st.mem b = c.bytes
  apart : ∀ c c', c ≠ c' → ∀ b ∈ L c, b ∉ L c'
  owned : ∀ c, ∀ b ∈ L c, inUse st.mem b = 1 ↔ payload b ∈ held st

theorem Inv.sizeClasses (hi : Inv E st L) (hne : ∀ c, L c ≠ []) : SizeClasses E st L := by
  have htail : ∀ c, (L c).getLast? = some (recTail st.mem ((active E st).list c)) := fun c => by
    rw [(hi.arena.classes c).list.tail, List.getLast?_eq_some_getLast (hne c)]; rfl
  refine ⟨fun c => (hi.arena.classes c).list.linked, fun c => (hi.arena.classes c).list.linked.nodup, htail,
    fun c => ?_, fun c b hb => ((hi.arena.classes c).blocks b hb).2.1,
    fun c c' hcc b hb => (hi.arena.classes c).disjoint (hi.arena.classes c') hcc hb, fun c b hb => ?_⟩
  · obtain ⟨l, hl⟩ := List.getLast?_eq_some_iff.mp (htail c)
    exact Linked.next_last (hl ▸ (hi.arena.classes c).list.linked)
  · rw [((hi.arena.classes c).blocks b hb).2.2, held]
    split <;> simp_all

/-- What a request of at most 1024 bytes gets, when there is room. -/
theorem Inv.malloc_small (hi : Inv E st L) {s : Nat} (h0 : 0 < s) (h1 : s ≤ 1024) (answer : Option Nat)
    (hr : Room E st (.malloc s answer)) : ∃ p u, malloc E st s answer = some (p, u) ∧ p ≠ 0 ∧ p ∉ held st ∧
      ∃ c, classOf s = some c ∧ size u.mem (headerOf p) = c.bytes := by
  have hcase := malloc_cases hi s answer
  generalize malloc E st s answer = r at hcase
  have hnew : ∀ {c b : _} {u : St} {L'}, classOf s = some c → Inv E u L' → b ∈ L' c →
      ∃ c, classOf s = some c ∧ size u.mem (headerOf (payload b)) = c.bytes := by
    intro c b u L' hs hu hb
    exact ⟨c, hs, by rw [headerOf_payload, ((hu.arena.classes c).blocks b hb).2.1]⟩
  cases hcase with
  | zero h => omega
  | reused _ hs hb hfree =>
    have hi' := hi.reused hs hb hfree
    exact ⟨_, _, rfl, payload_ne_zero _, hfree, hnew hs hi' hb⟩
  | appended _ hs _ ha hle =>
    have hi' := hi.appended hs ha hle
    exact ⟨_, _, rfl, payload_ne_zero _, (List.nodup_cons.mp hi'.nodup).1, hnew hs hi' (by simp)⟩
  | refused _ hs _ hno => have := hr _ hs; omega
  | unmapped hs _ => have := classOf_none.mp hs; omega
  | mapped hs _ _ => have := classOf_none.mp hs; omega

theorem Inv.mymalloc_small (hi : Inv E st L) {s : Nat} (h0 : 0 < s) (h1 : s ≤ 1024) (answer : Option Nat)
    (hr : Room E st (.malloc s answer)) : ∃ p u, mymalloc E st s answer = some (p, u) ∧ p ≠ 0 ∧ p ∉ held st ∧
      ∃ c, classOf s = some c ∧ size u.mem (headerOf p) = c.bytes := by
  obtain ⟨p, t, hm, hp, hfree, c, hs, hsz⟩ := hi.malloc_small h0 h1 answer hr
  obtain ⟨u, hu, rfl⟩ := mymalloc_of_malloc hm
  rw [hold_mem] at hsz
  exact ⟨p, u, hu, hp, hfree, c, hs, hsz⟩

theorem classes_kept {st₀ : St} (hboot : boot E = some st₀) (es : List Call)
    (hl : ∀ x ∈ trail (step E) st₀ es, Legal E x.1 x.2) {t : St} (h : after (step E) st₀ es = some t) :
    (∃ L, SizeClasses E t L) ∧
      ∀ s answer, 0 < s → s ≤ 1024 → Room E t (.malloc s answer) →
        ∃ p u, mymalloc E t s answer = some (p, u) ∧ p ≠ 0 ∧ p ∉ held t ∧ s ≤ size u.mem (headerOf p) := by
  obtain ⟨L₀, hi₀, hpool⟩ := boot_inv hboot
  obtain ⟨L, hi, hlen⟩ := run_law es hi₀ hl h
  refine ⟨⟨L, hi.sizeClasses fun c e => ?_⟩, fun s answer h0 h1 hr => ?_⟩
  · have h1 := hlen c
    rw [e, hpool] at h1
    cases c <;> simp [Cls.pool] at h1 <;> omega
  · obtain ⟨p, u, h2, h3, h4, c, hs, hsz⟩ := hi.mymalloc_small h0 h1 answer hr
    exact ⟨p, u, h2, h3, h4, by rw [hsz]; exact (classOf_some hs).1⟩

theorem ample_room {st : St} (h : st.brk = 9628672) (s : Nat) (answer : Option Nat) :
    Room ample st (.malloc s answer) := by
  intro c _
  show st.brk + 0 + (blockSize + c.bytes) ≤ 2 ^ 24
  rw [h]
  cases c <;> decide

theorem classes_kept_first_block : ∃ st₀ p t, boot ample = some st₀ ∧ malloc ample st₀ 8 none = some (p, t) ∧
    ∃ L, SizeClasses ample t L := by
  obtain ⟨st₀, hboot, hbrk⟩ := ample_boots
  obtain ⟨p, u, hu, -⟩ := (classes_kept hboot [] (by simp) rfl).2 8 none (by decide) (by decide) (ample_room hbrk 8 none)
  have ht := malloc_of_mymalloc hu
  have hstep : step ample st₀ (.malloc 8 none) = some (hold 8 p u) := by simp [step, ht]
  refine ⟨st₀, p, hold 8 p u, hboot, ht, (classes_kept hboot [.malloc 8 none] ?_ (by simp [after, hstep])).1⟩
  rw [trail_cons _ hstep]
  simp [Legal]

/-! ## Best fit -/

/-- No class that covers a request is smaller than the one it gets. -/
theorem classOf_least {s : Nat} {c c' : Cls} (h : classOf s = some c) (hs : s ≤ c'.bytes) : c.bytes ≤ c'.bytes := by
  unfold classOf at h
  split at h
  · cases h; cases c' <;> decide
  split at h
  · cases h; cases c' <;> simp [Cls.bytes] at hs ⊢; omega
  split at h
  · cases h; cases c' <;> simp [Cls.bytes] at hs ⊢ <;> omega
  · cases h

/-- The blocks on the lists of the arena in use, the list of the large ones among them. -/
def Listed (E : Env) (st : St) (b : Nat) : Prop :=
  ∃ r l, (r = (active E st).over1024 ∨ ∃ c, r = (active E st).list c) ∧
    Linked (next st.mem) (recHead st.mem r) l ∧ b ∈ l

theorem Inv.listed (hi : Inv E st L) {b : Nat} (h : Listed E st b) : ∃ c, b ∈ L c := by
  obtain ⟨r, l, hr, hlink, hb⟩ := h
  rcases hr with rfl | ⟨c, rfl⟩
  · rw [hi.arena.overHead] at hlink
    cases Linked.unique hlink (show Linked (next st.mem) 0 [] from rfl)
    cases hb
  · exact ⟨c, Linked.unique (hi.arena.classes c).list.linked hlink ▸ hb⟩

/-- The block handed out is the smallest that there was for the request; the first call, which
    initialises the arenas, is a call in the state it initialises. -/
theorem best_fit {st₀ : St} (hboot : boot E = some st₀) (es : List Call)
    (hl : ∀ x ∈ trail (step E) st₀ es, Legal E x.1 x.2) {t : St} (h : after (step E) st₀ es = some t) :
    (∀ s answer, mymalloc E (start E) s answer = mymalloc E st₀ s answer) ∧
      ∀ s answer, 0 < s → s ≤ 1024 → Room E t (.malloc s answer) →
        ∃ p u, mymalloc E t s answer = some (p, u) ∧ p ≠ 0 ∧ s ≤ size u.mem (headerOf p) ∧
          ∀ b, Listed E t b → inUse t.mem b = 0 → s ≤ size t.mem b → size u.mem (headerOf p) ≤ size t.mem b := by
  obtain ⟨L₀, hi₀, -⟩ := boot_inv hboot
  obtain ⟨L, hi, -⟩ := run_law es hi₀ hl h
  refine ⟨fun s answer => mymalloc_start hboot s answer, fun s answer h0 h1 hr => ?_⟩
  · obtain ⟨p, u, hm, hp, -, c, hs, hsz⟩ := hi.mymalloc_small h0 h1 answer hr
    refine ⟨p, u, hm, hp, by rw [hsz]; exact (classOf_some hs).1, fun b hb _ hle => ?_⟩
    obtain ⟨c', hb'⟩ := hi.listed hb
    rw [((hi.arena.classes c').blocks b hb').2.1] at hle ⊢
    rw [hsz]
    exact classOf_least hs hle

theorem best_fit_first_block : ∃ st₀ p u, boot ample = some st₀ ∧ mymalloc ample st₀ 100 none = some (p, u) ∧ p ≠ 0 ∧
    100 ≤ size u.mem (headerOf p) ∧
    ∀ b, Listed ample st₀ b → inUse st₀.mem b = 0 → 100 ≤ size st₀.mem b →
      size u.mem (headerOf p) ≤ size st₀.mem b := by
  obtain ⟨st₀, hboot, hbrk⟩ := ample_boots
  obtain ⟨p, u, hm, hp, hs, hbest⟩ :=
    (best_fit hboot [] (by simp) rfl).2 100 none (by decide) (by decide) (ample_room hbrk 100 none)
  exact ⟨st₀, p, u, hboot, hm, hp, hs, hbest⟩

/-! ## Growth -/

theorem count_step_le {s : Nat} {answer : Option Nat} (c : Cls) (hi : Inv E st L)
    (h : step E st (.malloc s answer) = some t) : count c t ≤ count c st + 1 := by
  have hcase := malloc_cases hi s answer
  simp only [step] at h
  generalize malloc E st s answer = r at hcase h
  have hcons : ∀ {u : St} {x : Nat × Nat}, u.live = x :: st.live → count c u ≤ count c st + 1 := fun hu => by
    rw [count_cons c _ hu]; split <;> omega
  cases hcase with
  | zero _ => cases h; exact Nat.le_succ _
  | unmapped _ _ => cases h; exact Nat.le_succ _
  | reused _ _ _ _ => cases h; exact hcons rfl
  | appended _ _ _ _ _ => cases h; exact hcons rfl
  | mapped _ _ _ => cases h; exact hcons rfl
  | @refused c' _ _ _ _ =>
    split at h
    · cases h
    · cases h; exact Nat.le_succ _

theorem growth_is_peak {st₀ : St} (hboot : boot E = some st₀) (es : List Call)
    (hl : ∀ x ∈ trail (step E) st₀ es, Legal E x.1 x.2) {t : St} (h : after (step E) st₀ es = some t) :
    (∀ c, ∃ l, Linked (next t.mem) (recHead t.mem ((active E t).list c)) l ∧
        l.length = max c.pool (peak E c st₀ es)) ∧
      ∀ fs, (∀ x ∈ trail (step E) t fs, Legal E x.1 x.2 ∧ Room E x.1 x.2) →
        (∀ c, peak E c t fs ≤ max c.pool (peak E c st₀ es)) →
        ∃ u, after (step E) t fs = some u ∧ u.calls = t.calls := by
  obtain ⟨L₀, hi₀, hpool⟩ := boot_inv hboot
  obtain ⟨L, hi, hlen⟩ := run_law es hi₀ hl h
  refine ⟨fun c => ⟨L c, (hi.arena.classes c).list.linked, by rw [hlen, hpool]⟩, fun fs hfs hp => ?_⟩
  exact run_quiet fs hi (fun x hx => (hfs x hx).1) (fun x hx => (hfs x hx).2) fun c => by rw [hlen, hpool]; exact hp c

theorem growth_is_peak_first_block : ∃ st₀ u, boot ample = some st₀ ∧
    after (step ample) st₀ [.malloc 8 none] = some u ∧ u.calls = st₀.calls := by
  obtain ⟨st₀, hboot, hbrk⟩ := ample_boots
  obtain ⟨L, hi, -⟩ := boot_inv hboot
  have hlegal : Legal ample st₀ (.malloc 8 none) := by simp [Legal]
  obtain ⟨u, hu⟩ := step_total hi hlegal (ample_room hbrk 8 none)
  have h0 : ∀ c, count c st₀ = 0 := fun c => by simp [count, (boot_ok hboot).2.1]
  have hp : ∀ c, peak ample c st₀ [.malloc 8 none] ≤ max c.pool (peak ample c st₀ []) := by
    intro c
    have h1 := count_step_le c hi hu
    simp only [peak, hu, h0] at h1 ⊢
    have : 1 ≤ c.pool := by cases c <;> decide
    omega
  obtain ⟨u, hu, hcalls⟩ := (growth_is_peak hboot [] (by simp) rfl).2 [.malloc 8 none]
    (by rw [trail_cons _ hu]; simpa using ⟨hlegal, ample_room hbrk 8 none⟩) hp
  exact ⟨st₀, u, hboot, hu, hcalls⟩

end CS5600.Alloc.Arenas
