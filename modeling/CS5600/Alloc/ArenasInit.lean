/-
  CS5600.Alloc.ArenasInit — what `initialize_arena` builds (see `CS5600.Alloc.Arenas`).

  Every list record and every block is an object in memory; no two share a byte, and those on
  the heap lie below the break (`Layout`). A list of a class has its own record and blocks of
  its size, whose flags say which of them the client holds (`ClassOk`). Both the pool loops and
  a later `mymalloc` extend a list in the same way, and `withBlock` is the state after it: the
  layout is kept (`withBlock_layout`), the one list is longer (`withBlock_class`), and the bytes of
  every other record and header are as they were (`withBlock_agree`).

  `boot` is the state after a successful initialisation. `boot_ok`: in it every arena has its
  three lists of 1024, 512 and 64 free blocks. `boot_some`: with 9620480 bytes of heap and
  nobody else moving the break, the initialisation succeeds.
-/

import CS5600.Alloc.Arenas

namespace CS5600.Alloc.Arenas

open CS5600.Lib.Bytes CS5600.Lib.Chains CS5600.Lib.Runs CS5600.Alloc.Block CS5600.Alloc.FreeList

/-! ## The objects in memory -/

def heapObjects (st : St) : List (Nat × Nat) := st.recs.map (·, listSize) ++ st.blks

def objects (st : St) : List (Nat × Nat) := heapObjects st ++ st.maps

structure Layout (E : Env) (st : St) : Prop where
  apart : ∀ x ∈ objects st, ∀ y ∈ objects st, x = y ∨ Apart x.1 x.2 y.1 y.2
  heap : ∀ x ∈ heapObjects st, E.lo ≤ x.1 ∧ 24 ≤ x.2 ∧ x.1 + x.2 ≤ st.brk
  maps : ∀ x ∈ st.maps, 0 < x.1 ∧ 24 ≤ x.2 ∧ x.1 + x.2 ≤ 2 ^ 64 ∧ Apart E.lo (E.hi - E.lo) x.1 x.2
  brk : E.lo ≤ st.brk ∧ st.brk ≤ E.hi

variable {E : Env}

theorem mem_objects_rec {st : St} {r : Nat} (h : r ∈ st.recs) : (r, listSize) ∈ heapObjects st :=
  List.mem_append_left _ (List.mem_map_of_mem h)

theorem mem_objects_blk {st : St} {x : Nat × Nat} (h : x ∈ st.blks) : x ∈ heapObjects st :=
  List.mem_append_right _ h

theorem heapObjects_subset (st : St) {x : Nat × Nat} (h : x ∈ heapObjects st) : x ∈ objects st :=
  List.mem_append_left _ h

theorem mem_objects {st : St} {x : Nat × Nat} (h : x ∈ st.blks ++ st.maps) : x ∈ objects st := by
  rcases List.mem_append.mp h with h | h
  · exact heapObjects_subset st (mem_objects_blk h)
  · exact List.mem_append_right _ h

theorem Layout.bounds {st : St} (h : Layout E st) {x : Nat × Nat} (hx : x ∈ objects st) :
    0 < x.1 ∧ 24 ≤ x.2 ∧ x.1 < 2 ^ 64 := by
  have hpos := E.pos
  have hle := E.le
  have htop := E.top
  have hbrk := h.brk.2
  rcases List.mem_append.mp hx with hx | hx
  · have := h.heap x hx; exact ⟨by omega, by omega, by omega⟩
  · have := h.maps x hx; exact ⟨by omega, by omega, by omega⟩

/-- Objects at one address are one object. -/
theorem Layout.unique {st : St} (h : Layout E st) {x y : Nat × Nat} (hx : x ∈ objects st) (hy : y ∈ objects st)
    (e : x.1 = y.1) : x = y := by
  rcases h.apart x hx y hy with rfl | ha
  · rfl
  · have := h.bounds hx; have := h.bounds hy
    rcases ha with ha | ha <;> omega

/-- Records and headers at different addresses share no byte. -/
theorem Layout.apart24 {st : St} (h : Layout E st) {x y : Nat × Nat} (hx : x ∈ objects st) (hy : y ∈ objects st)
    (hne : x.1 ≠ y.1) : Apart x.1 24 y.1 24 := by
  rcases h.apart x hx y hy with rfl | ha
  · exact absurd rfl hne
  · have := h.bounds hx; have := h.bounds hy
    rcases ha with ha | ha
    · exact Or.inl (by omega)
    · exact Or.inr (by omega)

/-- A list record is no block: they differ in length. -/
theorem Layout.record_ne {st : St} (h : Layout E st) {r b : Nat} {c : Cls} (hr : r ∈ st.recs)
    (hb : (b, blockSize + c.bytes) ∈ st.blks) : r ≠ b := by
  intro e
  have := congrArg Prod.snd (h.unique (heapObjects_subset st (mem_objects_rec hr))
    (heapObjects_subset st (mem_objects_blk hb)) e)
  simp only [listSize, blockSize] at this
  cases c <;> simp [Cls.bytes] at this

/-- What is on the heap is not mapped. -/
theorem Layout.not_mapped {st : St} (h : Layout E st) {x : Nat × Nat} (hx : x ∈ heapObjects st) {b n : Nat}
    (hb : (b, n) ∈ st.maps) : x.1 ≠ b := by
  intro e
  have h1 := h.heap x hx
  have h2 := h.brk
  obtain ⟨-, h3, -, h4 | h4⟩ := h.maps _ hb <;> simp only at h3 h4 <;> omega

theorem Layout.apart_insert {st : St} (h : Layout E st) {a n : Nat} {l : List (Nat × Nat)}
    (hmem : ∀ x, x ∈ l ↔ x = (a, n) ∨ x ∈ objects st) (hnew : ∀ x ∈ objects st, Apart a n x.1 x.2) :
    ∀ x ∈ l, ∀ y ∈ l, x = y ∨ Apart x.1 x.2 y.1 y.2 := by
  intro x hx y hy
  rcases (hmem x).mp hx with rfl | hx <;> rcases (hmem y).mp hy with rfl | hy
  · exact Or.inl rfl
  · exact Or.inr (hnew y hy)
  · exact Or.inr (hnew x hx).symm
  · exact h.apart x hx y hy

/-- A new object above the break. -/
theorem Layout.add {st st' : St} (h : Layout E st) {a n : Nat} (ha : st.brk ≤ a) (hn : 24 ≤ n) (hle : a + n ≤ E.hi)
    (hbrk : st'.brk = a + n) (hmaps : st'.maps = st.maps)
    (hobj : ∀ x, x ∈ heapObjects st' ↔ x = (a, n) ∨ x ∈ heapObjects st) : Layout E st' := by
  have hlo := h.brk
  have hnew : ∀ y ∈ objects st, Apart a n y.1 y.2 := by
    intro y hy
    rcases List.mem_append.mp hy with hy | hy
    · have := h.heap y hy; exact Or.inr (by omega)
    · obtain ⟨-, -, -, hd | hd⟩ := h.maps y hy
      · exact Or.inl (by omega)
      · exact Or.inr (by omega)
  have hmem : ∀ x, x ∈ objects st' ↔ x = (a, n) ∨ x ∈ objects st := by
    intro x; simp only [objects, List.mem_append, hobj, hmaps, or_assoc]
  refine ⟨h.apart_insert hmem hnew, fun x hx => ?_, by rw [hmaps]; exact h.maps, by omega⟩
  rcases (hobj x).mp hx with rfl | hx
  · exact ⟨by simp only; omega, hn, by simp only; omega⟩
  · have := h.heap x hx; exact ⟨this.1, this.2.1, by omega⟩

/-! ## A class's list -/

structure ClassOk (st : St) (r : Nat) (c : Cls) (l : List Nat) : Prop where
  record : r ∈ st.recs
  sizeOf : recSize st.mem r = c.bytes
  list : IsList st.mem r l
  blocks : ∀ b ∈ l, (b, blockSize + c.bytes) ∈ st.blks ∧ size st.mem b = c.bytes ∧
    inUse st.mem b = if payload b ∈ st.live.map Prod.fst then 1 else 0

theorem Cls.bytes_lt (c : Cls) : c.bytes < 2 ^ 32 := by cases c <;> decide

theorem ClassOk.frame {st st' : St} {r : Nat} {c : Cls} {l : List Nat} (h : ClassOk st r c l)
    (hrecs : ∀ x ∈ st.recs, x ∈ st'.recs) (hblks : ∀ x ∈ st.blks, x ∈ st'.blks)
    (hlive : ∀ b ∈ l, payload b ∈ st'.live.map Prod.fst ↔ payload b ∈ st.live.map Prod.fst)
    (hr : Agree st'.mem st.mem r 24) (hb : ∀ b ∈ l, Agree st'.mem st.mem b 24) : ClassOk st' r c l := by
  refine ⟨hrecs r h.record, (recSize_agree hr).trans h.sizeOf, h.list.agree hr hb, fun b hbl => ?_⟩
  obtain ⟨h1, h2, h3⟩ := h.blocks b hbl
  refine ⟨hblks _ h1, (size_agree (hb b hbl)).trans h2, ?_⟩
  rw [inUse_agree (hb b hbl), h3]
  simp only [hlive b hbl]

theorem ClassOk.mem {st : St} {r : Nat} {c : Cls} {l : List Nat} (h : ClassOk st r c l) {b : Nat} (hb : b ∈ l) :
    (b, blockSize + c.bytes) ∈ objects st :=
  heapObjects_subset st (mem_objects_blk (h.blocks b hb).1)

theorem ClassOk.mem_record {st : St} {r : Nat} {c : Cls} {l : List Nat} (h : ClassOk st r c l) :
    (r, listSize) ∈ objects st := heapObjects_subset st (mem_objects_rec h.record)

theorem ClassOk.pairwise {st : St} (hl : Layout E st) {r : Nat} {c : Cls} {l : List Nat} (h : ClassOk st r c l) :
    l.Pairwise fun b c => Apart b 24 c 24 :=
  h.list.linked.nodup.imp_of_mem fun hb hc hne => hl.apart24 (h.mem hb) (h.mem hc) hne

/-- Blocks of different classes are different: their headers say so. -/
theorem ClassOk.disjoint {st : St} {r r' : Nat} {c c' : Cls} {l l' : List Nat} (h : ClassOk st r c l)
    (h' : ClassOk st r' c' l') (hne : c ≠ c') {b : Nat} (hb : b ∈ l) : b ∉ l' := by
  intro hb'
  have := (h.blocks b hb).2.1.symm.trans (h'.blocks b hb').2.1
  cases c <;> cases c' <;> simp_all [Cls.bytes]

/-! ## One more block -/

theorem sbrk_some {st st' : St} {n a : Nat} (h : sbrk E st n = (some a, st')) :
    st.brk ≤ a ∧ a + n ≤ E.hi ∧ st' = { st with brk := a + n, calls := st.calls + 1 } := by
  unfold sbrk at h
  simp only at h
  split at h
  · simp only [Prod.mk.injEq, Option.some.injEq] at h
    obtain ⟨rfl, rfl⟩ := h
    exact ⟨by omega, ‹_›, rfl⟩
  · simp at h

/-- The state after a block of class `c` was taken at `a` and linked from the record `r`. -/
def withBlock (st : St) (a : Nat) (c : Cls) (r used : Nat) (live : List (Nat × Nat)) : St :=
  { st with
    brk := a + (blockSize + c.bytes)
    calls := st.calls + 1
    mem := link (placeHeader st.mem a c.bytes used) r a
    blks := (a, blockSize + c.bytes) :: st.blks
    live := live }

section AddBlock

variable {st : St} {r a : Nat} {c : Cls} {l : List Nat} (hlay : Layout E st) (hc : ClassOk st r c l)
  (ha : st.brk ≤ a)

include hlay ha

theorem above_heap {x : Nat × Nat} (hx : x ∈ heapObjects st) : Apart a 24 x.1 24 :=
  Or.inr (by have := hlay.heap x hx; omega)

variable (hle : a + (blockSize + c.bytes) ≤ E.hi)

include hle in
theorem above_object {x : Nat × Nat} (hx : x ∈ objects st) : Apart a 24 x.1 24 := by
  rcases List.mem_append.mp hx with hx | hx
  · exact above_heap hlay ha hx
  · have hlo := hlay.brk
    rw [blockSize] at hle
    obtain ⟨-, hlen, -, hd | hd⟩ := hlay.maps x hx
    · exact Or.inl (by omega)
    · exact Or.inr (by omega)

include hle in
theorem withBlock_layout (used : Nat) (live : List (Nat × Nat)) : Layout E (withBlock st a c r used live) := by
  refine hlay.add ha (by simp only [blockSize]; omega) hle rfl rfl fun x => ?_
  simp only [heapObjects, withBlock, List.mem_append, List.mem_cons]
  exact or_left_comm

include hc hle

/-- The records and headers of other lists keep their bytes. -/
theorem withBlock_agree (used : Nat) (live : List (Nat × Nat)) {x : Nat × Nat} (hx : x ∈ objects st)
    (hr : x.1 ≠ r) (hb : x.1 ∉ l) : Agree (withBlock st a c r used live).mem st.mem x.1 24 := by
  have hplace : ∀ y ∈ objects st, Agree (placeHeader st.mem a c.bytes used) st.mem y.1 24 := fun y hy =>
    placeHeader_agree _ _ _ (above_object hlay ha hle hy)
  have hlist : IsList (placeHeader st.mem a c.bytes used) r l :=
    hc.list.agree (hplace _ hc.mem_record) (fun b hbl => hplace _ (hc.mem hbl))
  refine (link_agree hlist (hlay.apart24 hc.mem_record hx (Ne.symm hr)) fun b hbl => ?_).trans (hplace x hx)
  exact hlay.apart24 (hc.mem hbl) hx (by intro e; exact hb (e ▸ hbl))

theorem withBlock_class {used : Nat} {live : List (Nat × Nat)}
    (hlive : ∀ b ∈ l, payload b ∈ live.map Prod.fst ↔ payload b ∈ st.live.map Prod.fst)
    (hused : used = if payload a ∈ live.map Prod.fst then 1 else 0) :
    ClassOk (withBlock st a c r used live) r c (l ++ [a]) := by
  have hplace : ∀ y ∈ objects st, Agree (placeHeader st.mem a c.bytes used) st.mem y.1 24 := fun y hy =>
    placeHeader_agree _ _ _ (above_object hlay ha hle hy)
  have hlist : IsList (placeHeader st.mem a c.bytes used) r l :=
    hc.list.agree (hplace _ hc.mem_record) (fun b hbl => hplace _ (hc.mem hbl))
  obtain ⟨hz, hu, hn⟩ := placeHeader_fields st.mem a c.bytes used
  have hlo := hlay.brk
  have hpos := E.pos
  have htop := E.top
  have hrh : Apart r 24 a 24 := (above_object hlay ha hle hc.mem_record).symm
  obtain ⟨h1, h2, h3⟩ := link_spec hlist
    (fun b hbl => hlay.apart24 hc.mem_record (hc.mem hbl) (hlay.record_ne hc.record (hc.blocks b hbl).1)) hrh
    (fun b hbl => (above_object hlay ha hle (hc.mem hbl)).symm) (hc.pairwise hlay) hn (by omega) (by omega)
  have hself : Agree (link (placeHeader st.mem a c.bytes used) r a) (placeHeader st.mem a c.bytes used) a 24 :=
    link_agree hlist hrh fun b hbl => (above_object hlay ha hle (hc.mem hbl)).symm
  refine ⟨hc.record, h2.trans ((recSize_agree (hplace _ hc.mem_record)).trans hc.sizeOf), h1, fun b hbl => ?_⟩
  rcases List.mem_append.mp hbl with hbl | hbl
  · obtain ⟨k1, k2, k3⟩ := hc.blocks b hbl
    obtain ⟨j1, j2⟩ := h3 b hbl
    have hp := hplace _ (hc.mem hbl)
    refine ⟨List.mem_cons_of_mem _ k1, (j1.trans (size_agree hp)).trans k2, ?_⟩
    show inUse (link _ _ _) b = if payload b ∈ live.map Prod.fst then 1 else 0
    rw [j2, inUse_agree hp, k3]
    simp only [hlive b hbl]
  · rw [List.mem_singleton.mp hbl]
    have hcb := c.bytes_lt
    refine ⟨List.mem_cons_self .., (size_agree hself).trans (hz.trans (Nat.mod_eq_of_lt (by omega))), ?_⟩
    refine (inUse_agree hself).trans (hu.trans ?_)
    show used % 2 ^ 32 = if payload a ∈ live.map Prod.fst then 1 else 0
    rw [← hused]
    exact Nat.mod_eq_of_lt (by rw [hused]; split <;> omega)

end AddBlock

/-! ## The initialisation -/

/-- The state while `initialize_arena` runs. -/
structure Fresh (E : Env) (st : St) : Prop where
  layout : Layout E st
  zero : ∀ x, st.brk ≤ x → st.mem x = 0
  live : st.live = []
  maps : st.maps = []

/-- Objects are only added, and the old ones keep their records and headers. -/
structure Ext (st st' : St) : Prop where
  recs : ∀ x ∈ st.recs, x ∈ st'.recs
  blks : ∀ x ∈ st.blks, x ∈ st'.blks
  agree : ∀ x ∈ heapObjects st, Agree st'.mem st.mem x.1 24

theorem Ext.heapObjects {st st' : St} (h : Ext st st') {x : Nat × Nat} (hx : x ∈ heapObjects st) :
    x ∈ heapObjects st' := by
  rcases List.mem_append.mp hx with hx | hx
  · obtain ⟨r, hr, rfl⟩ := List.mem_map.mp hx
    exact mem_objects_rec (h.recs r hr)
  · exact mem_objects_blk (h.blks x hx)

theorem Ext.trans {st st' st'' : St} (h : Ext st st') (h' : Ext st' st'') : Ext st st'' :=
  ⟨fun x hx => h'.recs x (h.recs x hx), fun x hx => h'.blks x (h.blks x hx),
    fun x hx => (h'.agree x (h.heapObjects hx)).trans (h.agree x hx)⟩

theorem Layout.keep {st : St} (h : Layout E st) (m : Mem) (calls : Nat) (live : List (Nat × Nat)) :
    Layout E { st with mem := m, calls := calls, live := live } := ⟨h.apart, h.heap, h.maps, h.brk⟩

theorem Layout.relist {st : St} (h : Layout E st) (fl : Nat → Arena) (b : Bool) :
    Layout E { st with freeLists := fl, arenaInitializer := b } := ⟨h.apart, h.heap, h.maps, h.brk⟩

theorem Fresh.relist {st : St} (h : Fresh E st) (fl : Nat → Arena) : Fresh E { st with freeLists := fl } :=
  ⟨h.layout.relist fl st.arenaInitializer, h.zero, h.live, h.maps⟩

theorem ClassOk.ext {st st' : St} {r : Nat} {c : Cls} {l : List Nat} (h : ClassOk st r c l) (he : Ext st st')
    (hlive : st'.live = st.live) : ClassOk st' r c l :=
  h.frame he.recs he.blks (fun _ _ => by rw [hlive]) (he.agree _ (mem_objects_rec h.record))
    fun b hb => he.agree _ (mem_objects_blk (h.blocks b hb).1)

/-- The four lists of an arena. -/
structure ArenaOk (st : St) (A : Arena) (L : Cls → List Nat) : Prop where
  classes : ∀ c, ClassOk st (A.list c) c (L c)
  overMem : A.over1024 ∈ st.recs
  overSize : recSize st.mem A.over1024 = 1025
  overHead : recHead st.mem A.over1024 = 0

theorem ArenaOk.ext {st st' : St} {A : Arena} {L : Cls → List Nat} (h : ArenaOk st A L) (he : Ext st st')
    (hlive : st'.live = st.live) : ArenaOk st' A L := by
  have ho := he.agree _ (mem_objects_rec h.overMem)
  exact ⟨fun c => (h.classes c).ext he hlive, he.recs _ h.overMem, (recSize_agree ho).trans h.overSize,
    (recHead_agree ho).trans h.overHead⟩

theorem initRecord_some {st st' : St} {sz r : Nat} (h : initRecord E st sz = some (r, st')) :
    ∃ st₁, sbrk E st listSize = (some r, st₁) ∧
      st' = { st₁ with mem := setRecSize st₁.mem r sz, recs := r :: st₁.recs } := by
  unfold initRecord at h
  split at h
  · cases h
  · rename_i st₁ hs
    cases h
    exact ⟨st₁, hs, rfl⟩

theorem initRecord_spec {st st' : St} {sz r : Nat} (hf : Fresh E st) (h : initRecord E st sz = some (r, st')) :
    Fresh E st' ∧ Ext st st' ∧ st'.freeLists = st.freeLists ∧ r ∈ st'.recs ∧
      recSize st'.mem r = sz % 2 ^ 64 ∧ recHead st'.mem r = 0 ∧ recTail st'.mem r = 0 ∧
      ∀ x ∈ heapObjects st, Apart r 24 x.1 24 := by
  obtain ⟨st₁, hs, rfl⟩ := initRecord_some h
  obtain ⟨ha, hle, rfl⟩ := sbrk_some hs
  have hzero : ∀ k, load st.mem 8 (r + k) = 0 := fun k =>
    load_zero (fun x hx _ => hf.zero x (by omega))
  have hnew : ∀ x ∈ heapObjects st, Apart r 24 x.1 24 := fun x hx => above_heap hf.layout ha hx
  refine ⟨⟨?_, fun x hx => ?_, hf.live, hf.maps⟩, ⟨fun x hx => List.mem_cons_of_mem _ hx, fun x hx => hx, fun x hx => ?_⟩,
    rfl, List.mem_cons_self .., recSize_setRecSize _ _ _, ?_, ?_, hnew⟩
  · refine hf.layout.add ha (by simp [listSize]) hle rfl rfl fun x => ?_
    simp only [heapObjects, List.map_cons, List.mem_append, List.mem_cons, or_assoc]
  · have hx : r + listSize ≤ x := hx
    rw [listSize] at hx
    exact (setRecSize_agree st.mem sz (k := 1) (Or.inl hx) x (by omega) (by omega)).trans (hf.zero x (by omega))
  · exact setRecSize_agree _ _ (hnew x hx)
  · rw [recHead_setRecSize]; exact hzero 8
  · rw [recTail_setRecSize]; exact hzero 16

theorem initPool_spec {c : Cls} {r : Nat} {st' : St} (n : Nat) {st : St} {l : List Nat} (hf : Fresh E st)
    (hc : ClassOk st r c l) (h : initPool E c r n st = (true, st')) :
    Fresh E st' ∧ st'.freeLists = st.freeLists ∧ (∀ x ∈ st.recs, x ∈ st'.recs) ∧ (∀ x ∈ st.blks, x ∈ st'.blks) ∧
      (∃ l', l'.length = l.length + n ∧ ClassOk st' r c l') ∧
      ∀ x ∈ heapObjects st, x.1 ≠ r → x.1 ∉ l → Agree st'.mem st.mem x.1 24 := by
  induction n generalizing st l with
  | zero =>
    simp only [initPool, Prod.mk.injEq, true_and] at h
    subst h
    exact ⟨hf, rfl, fun x hx => hx, fun x hx => hx, ⟨l, rfl, hc⟩, fun x _ _ _ => Agree.refl _ _ _⟩
  | succ n ih =>
    unfold initPool at h
    split at h
    · cases h
    rename_i a st₁ hs
    obtain ⟨ha, hle, rfl⟩ := sbrk_some hs
    have hlay := hf.layout
    have hst : ∀ x ∈ heapObjects st, x ∈ objects st := fun x hx => heapObjects_subset st hx
    have hf' : Fresh E (withBlock st a c r 0 st.live) := by
      refine ⟨withBlock_layout hlay ha hle 0 st.live, fun x hx => ?_, hf.live, hf.maps⟩
      have hx : a + (blockSize + c.bytes) ≤ x := hx
      have hbelow : ∀ y ∈ heapObjects st, Apart y.1 24 x 1 := fun y hy =>
        Or.inl (by have := hlay.heap y hy; omega)
      have hxa : Apart a 24 x 1 := Or.inl (by rw [blockSize] at hx; omega)
      have hlist : IsList (placeHeader st.mem a c.bytes 0) r l := hc.list.agree
        (placeHeader_agree _ _ _ (above_heap hlay ha (mem_objects_rec hc.record)))
        (fun b hb => placeHeader_agree _ _ _ (above_heap hlay ha (mem_objects_blk (hc.blocks b hb).1)))
      have h1 := link_agree (h := a) hlist (hbelow _ (mem_objects_rec hc.record))
        (fun b hb => hbelow _ (mem_objects_blk (hc.blocks b hb).1))
      have h2 := placeHeader_agree st.mem c.bytes 0 hxa
      exact (h1 x (by omega) (by omega)).trans ((h2 x (by omega) (by omega)).trans (hf.zero x (by omega)))
    have hc' : ClassOk (withBlock st a c r 0 st.live) r c (l ++ [a]) :=
      withBlock_class hlay hc ha hle (fun _ _ => Iff.rfl) (by simp [hf.live])
    obtain ⟨h1, h2, h3, h4, ⟨l', hlen, h5⟩, h6⟩ := ih hf' hc' h
    refine ⟨h1, h2, h3, fun x hx => h4 x (List.mem_cons_of_mem _ hx), ⟨l', by simp at hlen; omega, h5⟩,
      fun x hx hr hb => ?_⟩
    have hxa : x.1 ≠ a := by
      intro e
      rcases above_heap hlay ha hx with h | h <;> omega
    refine (h6 x ?_ hr (by simp [hb, hxa])).trans (withBlock_agree hlay hc ha hle 0 st.live (hst x hx) hr hb)
    rcases List.mem_append.mp hx with hx | hx
    · exact List.mem_append_left _ hx
    · exact List.mem_append_right _ (List.mem_cons_of_mem _ hx)

theorem initClass_spec {i : Nat} {c : Cls} {st st' : St} (hf : Fresh E st)
    (h : initClass E i c st = some (true, st')) :
    Fresh E st' ∧ Ext st st' ∧ ∃ r l, st'.freeLists = Function.update st.freeLists i (setList (st.freeLists i) c r) ∧
      l.length = c.pool ∧ ClassOk st' r c l := by
  unfold initClass at h
  split at h
  · cases h
  rename_i r st₁ hr
  obtain ⟨hf₁, he₁, hfl, hmem, hsz, hhd, htl, hnew⟩ := initRecord_spec hf hr
  have hcb := c.bytes_lt
  have hc : ClassOk { st₁ with freeLists := Function.update st₁.freeLists i (setList (st₁.freeLists i) c r) } r c [] :=
    ⟨hmem, hsz.trans (Nat.mod_eq_of_lt (by omega)), ⟨hhd, htl⟩, fun b hb => by simp at hb⟩
  obtain ⟨h1, h2, h3, h4, ⟨l, hlen, h5⟩, h6⟩ :=
    initPool_spec c.pool (hf₁.relist _) hc (Option.some.inj h)
  refine ⟨h1, ⟨fun x hx => h3 x (he₁.recs x hx), fun x hx => h4 x (he₁.blks x hx), fun x hx => ?_⟩, r, l, ?_,
    by simpa using hlen, h5⟩
  · refine (h6 x (he₁.heapObjects hx) ?_ (by simp)).trans (he₁.agree x hx)
    intro e
    rcases hnew x hx with h | h <;> omega
  · rw [h2]; simp only [hfl]

theorem initOver_spec {i : Nat} {st st' : St} (hf : Fresh E st) (h : initOver E i st = some (true, st')) :
    Fresh E st' ∧ Ext st st' ∧ ∃ r, st'.freeLists = Function.update st.freeLists i { st.freeLists i with over1024 := r } ∧
      r ∈ st'.recs ∧ recSize st'.mem r = 1025 ∧ recHead st'.mem r = 0 := by
  unfold initOver at h
  split at h
  · cases h
  rename_i r st₁ hr
  obtain ⟨hf₁, he₁, hfl, hmem, hsz, hhd, htl, hnew⟩ := initRecord_spec hf hr
  simp only [Option.some.injEq, Prod.mk.injEq, true_and] at h
  subst h
  have hr : (r, listSize) ∈ heapObjects st₁ := mem_objects_rec hmem
  refine ⟨⟨⟨hf₁.layout.1, hf₁.layout.2, hf₁.layout.3, hf₁.layout.4⟩, fun x hx => ?_, hf₁.live, hf₁.maps⟩,
    ⟨he₁.recs, he₁.blks, fun x hx => ?_⟩, r, ?_, hmem, ?_, ?_⟩
  · have hrb := hf₁.layout.heap _ hr
    have hx : st₁.brk ≤ x := hx
    have ha : Apart r 24 x 1 := Or.inl (by simp only [listSize] at hrb; omega)
    exact (setRecTail_agree _ _ ha x (by omega) (by omega)).trans
      ((setRecHead_agree _ _ ha x (by omega) (by omega)).trans (hf₁.zero x hx))
  · exact ((setRecTail_agree _ _ (hnew x hx)).trans (setRecHead_agree _ _ (hnew x hx))).trans (he₁.agree x hx)
  · simp only [hfl]
  · simp [hsz]
  · simp

theorem andThen_some {x : Option (Bool × St)} {f : St → Option (Bool × St)} {st' : St}
    (h : andThen x f = some (true, st')) : ∃ st, x = some (true, st) ∧ f st = some (true, st') := by
  unfold andThen at h
  split at h
  · cases h
  · cases h
  · exact ⟨_, rfl, h⟩

theorem initOne_spec {i : Nat} {st st' : St} (hf : Fresh E st) (h : initOne E i st = some (true, st')) :
    Fresh E st' ∧ Ext st st' ∧ (∀ j, j ≠ i → st'.freeLists j = st.freeLists j) ∧
      ∃ L : Cls → List Nat, (∀ c, (L c).length = c.pool) ∧ ArenaOk st' (st'.freeLists i) L := by
  obtain ⟨s₁, h₁, h⟩ := andThen_some h
  obtain ⟨s₂, h₂, h⟩ := andThen_some h
  obtain ⟨s₃, h₃, h₄⟩ := andThen_some h
  obtain ⟨f₁, e₁, r₁, l₁, hl₁, n₁, k₁⟩ := initClass_spec hf h₁
  obtain ⟨f₂, e₂, r₂, l₂, hl₂, n₂, k₂⟩ := initClass_spec f₁ h₂
  obtain ⟨f₃, e₃, r₃, l₃, hl₃, n₃, k₃⟩ := initClass_spec f₂ h₃
  obtain ⟨f₄, e₄, r₄, hl₄, ho, hos, hoh⟩ := initOver_spec f₃ h₄
  have hlive : ∀ {a b : St}, Fresh E a → Fresh E b → b.live = a.live := fun ha hb => hb.live.trans ha.live.symm
  refine ⟨f₄, e₁.trans (e₂.trans (e₃.trans e₄)), fun j hj => ?_, fun c => Cls.casesOn c l₁ l₂ l₃,
    fun c => ?_, fun c => ?_, ?_, ?_, ?_⟩
  · rw [hl₄, hl₃, hl₂, hl₁]; simp [Function.update_of_ne hj]
  · cases c
    · exact n₁
    · exact n₂
    · exact n₃
  · rw [hl₄, hl₃, hl₂, hl₁]
    cases c
    · simpa [setList] using k₁.ext (e₂.trans (e₃.trans e₄)) (hlive f₁ f₄)
    · simpa [setList] using k₂.ext (e₃.trans e₄) (hlive f₂ f₄)
    · simpa [setList] using k₃.ext e₄ (hlive f₃ f₄)
  all_goals rw [hl₄]; simp [ho, hos, hoh]

theorem initFrom_spec (n : Nat) {i : Nat} {st st' : St} (hf : Fresh E st) (h : initFrom E i n st = some (true, st')) :
    Fresh E st' ∧ Ext st st' ∧ (∀ j, j < i → st'.freeLists j = st.freeLists j) ∧
      ∀ j, i ≤ j → j < i + n → ∃ L : Cls → List Nat, (∀ c, (L c).length = c.pool) ∧ ArenaOk st' (st'.freeLists j) L := by
  induction n generalizing i st with
  | zero =>
    simp only [initFrom, Option.some.injEq, Prod.mk.injEq, true_and] at h
    subst h
    exact ⟨hf, ⟨fun x hx => hx, fun x hx => hx, fun x _ => Agree.refl _ _ _⟩, fun j _ => rfl, fun j _ _ => by omega⟩
  | succ n ih =>
    obtain ⟨s₁, h₁, h⟩ := andThen_some h
    obtain ⟨f₁, e₁, o₁, L, hn, ok⟩ := initOne_spec hf h₁
    obtain ⟨f₂, e₂, o₂, hall⟩ := ih f₁ h
    refine ⟨f₂, e₁.trans e₂, fun j hj => (o₂ j (by omega)).trans (o₁ j (by omega)), fun j hij hj => ?_⟩
    by_cases e : j = i
    · subst e
      rw [o₂ j (by omega)]
      exact ⟨L, hn, ok.ext e₂ (f₂.live.trans f₁.live.symm)⟩
    · exact hall j (by omega) (by omega)

/-- The state once `initialize_arena` has succeeded; the first `mymalloc` goes on from it. -/
def boot (E : Env) : Option St :=
  match initializeArena E (start E) with
  | some (true, st) => some { st with arenaInitializer := true }
  | _ => none

theorem start_fresh : Fresh E (start E) :=
  ⟨⟨by simp [objects, heapObjects, start], by simp [heapObjects, start], by simp [start],
    ⟨Nat.le_refl _, E.le⟩⟩, fun _ _ => rfl, rfl, rfl⟩

theorem boot_ok {st : St} (h : boot E = some st) :
    Layout E st ∧ st.live = [] ∧ st.maps = [] ∧ st.arenaInitializer = true ∧
      ∃ L : Cls → List Nat, (∀ c, (L c).length = c.pool) ∧ ArenaOk st (active E st) L := by
  unfold boot at h
  split at h
  · rename_i st₁ h₁
    cases h
    obtain ⟨hf, -, -, hall⟩ := initFrom_spec procs start_fresh h₁
    have hlt : E.nprocs % procs < procs := Nat.mod_lt _ (by decide)
    obtain ⟨L, hn, ok⟩ := hall (E.nprocs % procs) (Nat.zero_le _) (by omega)
    exact ⟨⟨hf.layout.1, hf.layout.2, hf.layout.3, hf.layout.4⟩, hf.live, hf.maps, rfl, L, hn,
      ⟨fun c => ⟨(ok.classes c).1, (ok.classes c).2, (ok.classes c).3, (ok.classes c).4⟩, ok.2, ok.3, ok.4⟩⟩
  · cases h

/-- The first `mymalloc` is a `mymalloc` in the state after the initialisation. -/
theorem mymalloc_start {st : St} (h : boot E = some st) (s : Nat) (answer : Option Nat) :
    mymalloc E (start E) s answer = mymalloc E st s answer := by
  unfold boot at h
  split at h
  · rename_i st₁ h₁
    cases h
    have hs : (start E).arenaInitializer = false := rfl
    simp [mymalloc, initialized, hs, h₁]
  · cases h

/-! ## Room for it -/

section Room

variable (hgap : ∀ k, E.gap k = 0)

include hgap

theorem sbrk_room (st : St) {n : Nat} (h : st.brk + n ≤ E.hi) :
    sbrk E st n = (some st.brk, { st with brk := st.brk + n, calls := st.calls + 1 }) := by
  simp [sbrk, hgap, h]

theorem initPool_room (c : Cls) (r n : Nat) (st : St) (h : st.brk + n * (blockSize + c.bytes) ≤ E.hi) :
    ∃ st', initPool E c r n st = (true, st') ∧ st'.brk = st.brk + n * (blockSize + c.bytes) := by
  induction n generalizing st with
  | zero => exact ⟨st, rfl, by omega⟩
  | succ n ih =>
    rw [Nat.succ_mul] at h ⊢
    rw [initPool, sbrk_room hgap st (by omega)]
    obtain ⟨st', h1, h2⟩ := ih { st with
      brk := st.brk + (blockSize + c.bytes), calls := st.calls + 1,
      mem := link (placeHeader st.mem st.brk c.bytes 0) r st.brk,
      blks := (st.brk, blockSize + c.bytes) :: st.blks } (by simp only; omega)
    exact ⟨st', h1, by rw [h2]; simp only; omega⟩

theorem initClass_room (i : Nat) (c : Cls) (st : St) (h : st.brk + (listSize + c.pool * (blockSize + c.bytes)) ≤ E.hi) :
    ∃ st', initClass E i c st = some (true, st') ∧
      st'.brk = st.brk + (listSize + c.pool * (blockSize + c.bytes)) := by
  rw [initClass, initRecord, sbrk_room hgap st (by omega)]
  obtain ⟨st', h1, h2⟩ := initPool_room hgap c st.brk c.pool { st with
    brk := st.brk + listSize, calls := st.calls + 1, mem := setRecSize st.mem st.brk c.bytes
    recs := st.brk :: st.recs
    freeLists := Function.update st.freeLists i (setList (st.freeLists i) c st.brk) } (by simp only; omega)
  exact ⟨st', congrArg some h1, by rw [h2]; simp only; omega⟩

/-- Bytes an arena takes: four records and its three pools. -/
theorem initOne_room (i : Nat) (st : St) (h : st.brk + 300640 ≤ E.hi) :
    ∃ st', initOne E i st = some (true, st') ∧ st'.brk = st.brk + 300640 := by
  obtain ⟨s₁, h₁, b₁⟩ := initClass_room hgap i .c64 st (by simp [listSize, blockSize, Cls.bytes, Cls.pool]; omega)
  obtain ⟨s₂, h₂, b₂⟩ := initClass_room hgap i .c256 s₁
    (by simp [b₁, listSize, blockSize, Cls.bytes, Cls.pool]; omega)
  obtain ⟨s₃, h₃, b₃⟩ := initClass_room hgap i .c1024 s₂
    (by simp [b₂, b₁, listSize, blockSize, Cls.bytes, Cls.pool]; omega)
  simp [listSize, blockSize, Cls.bytes, Cls.pool] at b₁ b₂ b₃
  have h₄ := sbrk_room hgap s₃ (n := listSize) (by rw [listSize]; omega)
  refine ⟨_, by rw [initOne, h₁, andThen, h₂, andThen, h₃, andThen, initOver, initRecord, h₄], ?_⟩
  simp only [listSize]; omega

theorem initFrom_room (n i : Nat) (st : St) (h : st.brk + n * 300640 ≤ E.hi) :
    ∃ st', initFrom E i n st = some (true, st') ∧ st'.brk = st.brk + n * 300640 := by
  induction n generalizing i st with
  | zero => exact ⟨st, rfl, by omega⟩
  | succ n ih =>
    obtain ⟨s₁, h₁, b₁⟩ := initOne_room hgap i st (by omega)
    obtain ⟨s₂, h₂, b₂⟩ := ih (i + 1) s₁ (by omega)
    exact ⟨s₂, by rw [initFrom, h₁, andThen, h₂], by omega⟩

theorem boot_some (h : E.lo + 9620480 ≤ E.hi) : ∃ st, boot E = some st ∧ st.brk = E.lo + 9620480 := by
  obtain ⟨st, h₁, hb⟩ := initFrom_room hgap procs 0 (start E) (by simp [start, procs]; omega)
  exact ⟨{ st with arenaInitializer := true }, by rw [boot, initializeArena, h₁], hb⟩

end Room

/-- A process with 16 MiB of heap to itself and mappings of whole pages. -/
def ample : Env where
  lo := 8192
  hi := 2 ^ 24
  pos := by decide
  le := by decide
  top := by decide
  nprocs := 4
  gap := fun _ => 0
  mapLen := fun n => (n + 4095) / 4096 * 4096
  le_mapLen := fun n => by omega
  header_le_mapLen := fun n hn => by rw [blockSize]; omega

theorem ample_boots : ∃ st, boot ample = some st ∧ st.brk = 9628672 := boot_some (fun _ => rfl) (by decide)

end CS5600.Alloc.Arenas
