/-
  CS5600.Alloc.ThreadsRace — blocks and lists when threads call the allocator at the same time
  (see `CS5600.Alloc.Threads`).

  The mutex `mymalloc` locks is the one in its own copy of the arena, so nothing keeps two threads
  from finding the same free block, a thread from clearing a block that another has taken since,
  or two threads from hanging their blocks on the same tail. These three are all that can go
  wrong, and each is seen at one statement (`NoRace`): `header->in_use = 1` on a block that is in
  use already, the second `header->in_use = 0` of `myfree` on a block that is in use again, and
  `tail->next = header` on a tail that has a successor.

  Proved (`threads_exclude`): in a run without them, no two pointers the client holds are the
  same, and every block of a pool and every block appended since is reached from its list's head.
  `same_block_twice` is a run of two threads, one block handed to both.

  What a thread knows of the heap at a statement is its `View`; the block it has to itself, if
  any, is `View.own`. `Change` is what the others have to bear when a thread steps.
-/

import CS5600.Alloc.ThreadsInit

namespace CS5600.Alloc.Threads

open CS5600.Lib.Bytes CS5600.Lib.Chains CS5600.Lib.Interleave CS5600.Lib.Runs
open CS5600.Alloc.Block CS5600.Alloc.FreeList CS5600.Alloc.Arenas

/-- The statement about to run does not meet another thread's. -/
def NoRace (σ : Sys Sh Pc) : Ev → Prop
  | .run i _ =>
    match σ.pc i with
    | .mark _ header => inUse σ.sh.mem header = 0
    | .clearAgain header => inUse σ.sh.mem header = 0
    | .linkTail v c _ => next σ.sh.mem (recTail σ.sh.mem (v.A.list c)) = 0
    | _ => True
  | _ => True

/-! ## What a thread knows -/

/-- The largest size of the classes before `c`. -/
def below : Cls → Nat
  | .c64 => 0
  | .c256 => 64
  | .c1024 => 256

inductive View where
  | nothing
  | never
  /-- NULL, or a block of the class of `s` -/
  | cursor (s b : Nat)
  /-- a block of the class of `s` -/
  | seen (s b : Nat)
  /-- its new block, the first `k` fields written -/
  | raw (o : Option Cls) (s b k : Nat)
  /-- its block for `s` bytes -/
  | mine (s b : Nat)
  /-- the block of the pointer it frees -/
  | freeing (b : Nat)
  | freeingAbove (b : Nat) (c : Cls)
  | freeingSmall (b : Nat)
  | freeingLarge (b : Nat)
  /-- the block it has just freed -/
  | freed (b : Nat)

def View.own : View → Option Nat
  | .raw _ _ b _ => some b
  | .mine _ b => some b
  | .freeing b => some b
  | .freeingAbove b _ => some b
  | .freeingSmall b => some b
  | .freeingLarge b => some b
  | _ => none

theorem View.own_none {w : View} {P : Nat → Prop} (hw : w.own = none) : ∀ b, w.own = some b → P b := by
  intro b hb
  rw [hw] at hb
  cases hb

def view : Pc → View
  | .initLock _ => .never
  | .setLockInit _ => .never
  | .init _ _ => .never
  | .setInit _ => .never
  | .setHead _ _ _ => .never
  | .walk v curr => .cursor v.s curr
  | .test v curr => .seen v.s curr
  | .advance v curr => .seen v.s curr
  | .order v header _ => .cursor v.s header
  | .testFound v header _ => .cursor v.s header
  | .mark v header => .seen v.s header
  | .unlockFound v header => .mine v.s header
  | .unlockSbrk v c (some header) => .raw (some c) v.s header 0
  | .check v c (some header) => .raw (some c) v.s header 0
  | .testMap v (some header) => .raw none v.s header 0
  | .putSize v o header => .raw o v.s header 0
  | .putInUse v o header => .raw o v.s header 1
  | .putNext v o header => .raw o v.s header 2
  | .testHead v c header => .raw (some c) v.s header 3
  | .testTail v c header => .raw (some c) v.s header 3
  | .linkTail v c header => .raw (some c) v.s header 3
  | .setTail v _ header => .mine v.s header
  | .unlockList v header => .mine v.s header
  | .unlockLast v header => .mine v.s header
  | .ret v header => .mine v.s header
  | .freeTest ptr => if ptr = 0 then .nothing else .freeing (headerOf ptr)
  | .freeCopy ptr => .freeing (headerOf ptr)
  | .freePick _ header c => .freeingAbove header c
  | .freeHead _ header _ => .freeingSmall header
  | .freeWalk header _ => .freeingSmall header
  | .freeAdvance header _ => .freeingSmall header
  | .freeFound header _ => .freeingSmall header
  | .clear header _ => .freeingSmall header
  | .clearAgain header => .freed header
  | .clearMap header => .freeingLarge header
  | .unmap header => .freeingLarge header
  | _ => .nothing

def Unlisted (L : Cls → List Nat) (b : Nat) : Prop := ∀ c, b ∉ L c

/-- `b` is a block for `s` bytes: of its class's list, or mapped. -/
def Taken (E : Env) (st : St) (L : Cls → List Nat) (s b : Nat) : Prop :=
  (∃ c, classOf s = some c ∧ b ∈ L c) ∨
    (classOf s = none ∧ (b, E.mapLen ((blockSize + s) % 2 ^ 64)) ∈ st.maps ∧ Unlisted L b ∧ size st.mem b = s)

def Freeing (st : St) (L : Cls → List Nat) (b : Nat) : Prop :=
  (∃ c, b ∈ L c) ∨ ((∃ n, (b, n) ∈ st.maps) ∧ Unlisted L b ∧ 1024 < size st.mem b)

def Fact (E : Env) (st : St) (L : Cls → List Nat) : View → Prop
  | .nothing => True
  | .never => False
  | .cursor s b => b = 0 ∨ ∃ c, classOf s = some c ∧ b ∈ L c
  | .seen s b => ∃ c, classOf s = some c ∧ b ∈ L c
  | .raw (some c) s b k => classOf s = some c ∧ (b, blockSize + c.bytes) ∈ st.blks ∧ Unlisted L b ∧
      (1 ≤ k → size st.mem b = c.bytes) ∧ (2 ≤ k → inUse st.mem b = 1) ∧ (3 ≤ k → next st.mem b = 0)
  | .raw none s b k => classOf s = none ∧ (b, E.mapLen ((blockSize + s) % 2 ^ 64)) ∈ st.maps ∧ Unlisted L b ∧
      (1 ≤ k → size st.mem b = s)
  | .mine s b => Taken E st L s b
  | .freeing b => Freeing st L b
  | .freeingAbove b c => Freeing st L b ∧ below c < size st.mem b
  | .freeingSmall b => ∃ c, b ∈ L c
  | .freeingLarge b => (∃ n, (b, n) ∈ st.maps) ∧ Unlisted L b
  | .freed b => ∃ c, b ∈ L c

/-- What its locals satisfy whatever the heap is. -/
def Locals (A : Arena) : Pc → Prop
  | .testLockInit s => s < 2 ^ 64
  | .lockGlobal s => s < 2 ^ 64
  | .testInit s => s < 2 ^ 64
  | .unlockGlobal s => s < 2 ^ 64
  | .copy s => s < 2 ^ 64
  | .testSize v => v.A = A ∧ v.s < 2 ^ 64
  | .lock v => v.A = A ∧ v.s < 2 ^ 64 ∧ 0 < v.s
  | .pick v c => v.A = A ∧ v.s < 2 ^ 64 ∧ below c < v.s
  | .head v o => v.A = A ∧ v.s < 2 ^ 64 ∧ 0 < v.s ∧ o = classOf v.s
  | .walk v _ => v.A = A ∧ v.s < 2 ^ 64 ∧ 0 < v.s
  | .test v _ => v.A = A ∧ v.s < 2 ^ 64 ∧ 0 < v.s
  | .advance v _ => v.A = A ∧ v.s < 2 ^ 64 ∧ 0 < v.s
  | .order v _ c => v.A = A ∧ v.s < 2 ^ 64 ∧ below c < v.s
  | .testFound v _ c => v.A = A ∧ classOf v.s = some c
  | .lockSbrk v c n => v.A = A ∧ classOf v.s = some c ∧ n = blockSize + c.bytes
  | .sbrk v c n => v.A = A ∧ classOf v.s = some c ∧ n = blockSize + c.bytes
  | .unlockSbrk v c _ => v.A = A ∧ classOf v.s = some c
  | .check v c _ => v.A = A ∧ classOf v.s = some c
  | .mmap v => v.A = A ∧ v.s < 2 ^ 64 ∧ classOf v.s = none
  | .testMap v _ => v.A = A ∧ v.s < 2 ^ 64
  | .putSize v _ _ => v.A = A ∧ v.s < 2 ^ 64
  | .putInUse v _ _ => v.A = A
  | .putNext v _ _ => v.A = A
  | .testHead v _ _ => v.A = A
  | .testTail v _ _ => v.A = A
  | .linkTail v _ _ => v.A = A
  | .setTail v c _ => v.A = A ∧ classOf v.s = some c
  | .freePick A' _ _ => A' = A
  | .freeHead A' _ _ => A' = A
  | .clear header curr => curr = header
  | _ => True

/-- The lists of the arena in use, while calls are in progress: a list's tail may be behind its
    last block. `L₀` are the lists to begin with. -/
structure ListsOk (E : Env) (A : Arena) (L₀ L : Cls → List Nat) (h : Sh) : Prop where
  layout : Layout E h.st
  ready : h.st.arenaInitializer = true
  lockInit : h.gLockInit = true
  arena : active E h.st = A
  record : ∀ c, A.list c ∈ h.st.recs
  bytes : ∀ c, recSize h.mem (A.list c) = c.bytes
  chain : ∀ c, Linked (next h.mem) (recHead h.mem (A.list c)) (L c)
  tail : ∀ c, recTail h.mem (A.list c) ∈ L c
  overMem : A.over1024 ∈ h.st.recs
  overHead : recHead h.mem A.over1024 = 0
  overNe : ∀ c, A.over1024 ≠ A.list c
  blocks : ∀ c, ∀ b ∈ L c, (b, blockSize + c.bytes) ∈ h.st.blks ∧ size h.mem b = c.bytes
  base : ∀ c, ∀ b ∈ L₀ c, b ∈ L c
  linked : ∀ x ∈ h.linked, x.2 ∈ L x.1
  nodup : (held h.st).Nodup
  live : ∀ x ∈ h.st.live, ∃ b, x.1 = payload b ∧ Taken E h.st L x.2 b ∧ ∀ c, b ∈ L c → inUse h.mem b = 1

/-- A thread's block is in use and not the client's. -/
structure ThreadOk (E : Env) (A : Arena) (L : Cls → List Nat) (h : Sh) (p : Pc) : Prop where
  locals : Locals A p
  fact : Fact E h.st L (view p)
  own : ∀ b, (view p).own = some b → payload b ∉ held h.st ∧ ∀ c, b ∈ L c → inUse h.mem b = 1

def Distinct (_ : Sh) (p q : Pc) : Prop := ∀ b, (view p).own = some b → (view q).own ≠ some b

def RaceInv (E : Env) (A : Arena) (L₀ L : Cls → List Nat) (σ : Sys Sh Pc) : Prop :=
  Modular (ListsOk E A L₀ L) (ThreadOk E A L) Distinct σ

variable {E : Env} {A : Arena} {L₀ L L' : Cls → List Nat} {h h' : Sh} {p p' : Pc} {σ : Sys Sh Pc}

/-! ## What the others bear -/

/-- A block on the heap or a mapped one, in a list or not. -/
def IsBlock (st : St) (b : Nat) : Prop := (∃ c : Cls, (b, blockSize + c.bytes) ∈ st.blks) ∨ ∃ n, (b, n) ∈ st.maps

theorem IsBlock.object {st : St} {b : Nat} (h : IsBlock st b) : ∃ n, (b, n) ∈ objects st := by
  rcases h with ⟨c, h⟩ | ⟨n, h⟩
  · exact ⟨_, heapObjects_subset st (mem_objects_blk h)⟩
  · exact ⟨n, List.mem_append_right _ h⟩

theorem IsBlock.record_ne {st : St} {b r : Nat} (h : IsBlock st b) (hl : Layout E st) (hr : r ∈ st.recs) : r ≠ b := by
  rcases h with ⟨c, h⟩ | ⟨n, h⟩
  · exact hl.record_ne hr h
  · exact hl.not_mapped (mem_objects_rec hr) h

/-- The step of a thread that owns the blocks `M`, as the other threads see it. -/
structure Change (M : Nat → Prop) (st st' : St) (L L' : Cls → List Nat) : Prop where
  lists : ∀ c, ∀ b ∈ L c, b ∈ L' c
  blks : ∀ x ∈ st.blks, x ∈ st'.blks
  maps : ∀ x ∈ st.maps, ¬ M x.1 → x ∈ st'.maps
  apart : ∀ b, IsBlock st b → Unlisted L b → ¬ M b → Unlisted L' b ∧ Agree st'.mem st.mem b 24
  sizes : ∀ c, ∀ b ∈ L c, size st'.mem b = size st.mem b
  used : ∀ c, ∀ b ∈ L' c, ¬ M b → b ∈ L c ∧ (inUse st.mem b = 1 → inUse st'.mem b = 1)
  held : ∀ b, ¬ M b → payload b ∉ held st → payload b ∉ held st'

theorem Taken.change {M : Nat → Prop} {st st' : St} {s b : Nat} (hc : Change M st st' L L') (h : Taken E st L s b)
    (hM : ¬ M b) : Taken E st' L' s b := by
  rcases h with ⟨c, hs, hb⟩ | ⟨hs, hm, hu, hz⟩
  · exact Or.inl ⟨c, hs, hc.lists c b hb⟩
  · obtain ⟨h1, h2⟩ := hc.apart b (Or.inr ⟨_, hm⟩) hu hM
    exact Or.inr ⟨hs, hc.maps _ hm hM, h1, (size_agree h2).trans hz⟩

theorem Freeing.change {M : Nat → Prop} {st st' : St} {b : Nat} (hc : Change M st st' L L') (h : Freeing st L b)
    (hM : ¬ M b) : Freeing st' L' b ∧ size st'.mem b = size st.mem b := by
  rcases h with ⟨c, hb⟩ | ⟨⟨n, hm⟩, hu, hz⟩
  · exact ⟨Or.inl ⟨c, hc.lists c b hb⟩, hc.sizes c b hb⟩
  · obtain ⟨h1, h2⟩ := hc.apart b (Or.inr ⟨_, hm⟩) hu hM
    have := size_agree h2
    exact ⟨Or.inr ⟨⟨n, hc.maps _ hm hM⟩, h1, by rw [this]; exact hz⟩, this⟩

theorem Fact.change {M : Nat → Prop} {st st' : St} {w : View} (hc : Change M st st' L L') (h : Fact E st L w)
    (hM : ∀ b, w.own = some b → ¬ M b) : Fact E st' L' w := by
  cases w with
  | nothing => trivial
  | never => exact h
  | cursor s b =>
    rcases h with h | ⟨c, hs, hb⟩
    · exact Or.inl h
    · exact Or.inr ⟨c, hs, hc.lists c b hb⟩
  | seen s b => obtain ⟨c, hs, hb⟩ := h; exact ⟨c, hs, hc.lists c b hb⟩
  | raw o s b k =>
    cases o with
    | some c =>
      obtain ⟨h1, h2, h3, h4, h5, h6⟩ := h
      obtain ⟨k1, k2⟩ := hc.apart b (Or.inl ⟨c, h2⟩) h3 (hM b rfl)
      exact ⟨h1, hc.blks _ h2, k1, fun hk => (size_agree k2).trans (h4 hk), fun hk => (inUse_agree k2).trans (h5 hk),
        fun hk => (next_agree k2).trans (h6 hk)⟩
    | none =>
      obtain ⟨h1, h2, h3, h4⟩ := h
      obtain ⟨k1, k2⟩ := hc.apart b (Or.inr ⟨_, h2⟩) h3 (hM b rfl)
      exact ⟨h1, hc.maps _ h2 (hM b rfl), k1, fun hk => (size_agree k2).trans (h4 hk)⟩
  | mine s b => exact Taken.change hc h (hM b rfl)
  | freeing b => exact (Freeing.change hc h (hM b rfl)).1
  | freeingAbove b c =>
    obtain ⟨h1, h2⟩ := Freeing.change hc h.1 (hM b rfl)
    exact ⟨h1, by rw [h2]; exact h.2⟩
  | freeingSmall b => obtain ⟨c, hb⟩ := h; exact ⟨c, hc.lists c b hb⟩
  | freeingLarge b =>
    obtain ⟨⟨n, hm⟩, hu⟩ := h
    exact ⟨⟨n, hc.maps _ hm (hM b rfl)⟩, (hc.apart b (Or.inr ⟨n, hm⟩) hu (hM b rfl)).1⟩
  | freed b => obtain ⟨c, hb⟩ := h; exact ⟨c, hc.lists c b hb⟩

theorem ThreadOk.change {M : Nat → Prop} {q : Pc} (hq : ThreadOk E A L h q) (hc : Change M h.st h'.st L L')
    (hM : ∀ b, (view q).own = some b → ¬ M b) : ThreadOk E A L' h' q := by
  refine ⟨hq.locals, Fact.change hc hq.fact hM, fun b hb => ?_⟩
  obtain ⟨h1, h2⟩ := hq.own b hb
  refine ⟨hc.held b (hM b hb) h1, fun c hbc => ?_⟩
  obtain ⟨h3, h4⟩ := hc.used c b hbc (hM b hb)
  exact h4 (h2 c h3)

/-- The rule for a step: `M` are blocks that no other thread owns, among them what the thread
    owns after it. -/
theorem RaceInv.act (hi : RaceInv E A L₀ L σ) (i : Nat) {M : Nat → Prop} (hG : ListsOk E A L₀ L' h')
    (hA : ThreadOk E A L' h' p') (hc : Change M σ.sh.st h'.st L L')
    (hM : ∀ q, ThreadOk E A L σ.sh q → Distinct σ.sh (σ.pc i) q → ∀ b, (view q).own = some b → ¬ M b)
    (hown : ∀ b, (view p').own = some b → M b) : RaceInv E A L₀ L' (σ.put i h' p') := by
  refine Modular.put hi i hG hA (fun q hq hd _ => ⟨hq.change hc (hM q hq hd), ?_, ?_⟩) fun q r hd => hd
  · intro b hb hq'
    exact hM q hq hd b hq' (hown b hb)
  · intro b hb hp
    exact hM q hq hd b hb (hown b hp)

theorem Change.refl (M : Nat → Prop) {st st' : St} (hm : st'.mem = st.mem) (hb : st'.blks = st.blks)
    (hp : st'.maps = st.maps) (hl : st'.live = st.live) : Change M st st' L L := by
  refine ⟨fun c b hb => hb, by rw [hb]; exact fun x hx => hx, by rw [hp]; exact fun x hx _ => hx,
    fun x _ hu _ => ⟨hu, ?_⟩,
    by simp [hm], fun c b hb _ => ⟨hb, by simp [hm]⟩, fun b _ hh => by simpa [Arenas.held, hl] using hh⟩
  rw [hm]; exact Agree.refl _ _ _

/-- What a thread owns, no other does. -/
theorem Distinct.unowned {q : Pc} {b : Nat} (hb : (view p).own = some b) (hd : Distinct h p q) :
    ∀ b', (view q).own = some b' → b' ≠ b := by
  intro b' hq e
  exact hd b hb (e ▸ hq)

theorem ListsOk.congr (hG : ListsOk E A L₀ L h) {k : Nat} (hst : h'.st = { h.st with calls := k })
    (hl : h'.linked = h.linked) (hg : h'.gLockInit = h.gLockInit) : ListsOk E A L₀ L h' := by
  obtain ⟨st', gl', lk', ls', en', rt', ln'⟩ := h'
  simp only at hst hl hg
  subst hst hl hg
  exact ⟨hG.layout.keep _ _ _, hG.ready, hG.lockInit, hG.arena, hG.record,
    hG.bytes, hG.chain, hG.tail, hG.overMem, hG.overHead, hG.overNe, hG.blocks, hG.base, hG.linked, hG.nodup, hG.live⟩

/-- A step that leaves the heap alone. -/
theorem RaceInv.quiet (hi : RaceInv E A L₀ L σ) (i : Nat) {k : Nat} (hst : h'.st = { σ.sh.st with calls := k })
    (hlk : h'.linked = σ.sh.linked) (hg : h'.gLockInit = σ.sh.gLockInit) (hl : Locals A p')
    (hf : Fact E σ.sh.st L (view p')) (hown : ∀ b, (view p').own = some b → (view (σ.pc i)).own = some b) :
    RaceInv E A L₀ L (σ.put i h' p') := by
  have hc : ∀ M, Change M σ.sh.st h'.st L L := fun M =>
    Change.refl M (by rw [hst]) (by rw [hst]) (by rw [hst]) (by rw [hst])
  refine hi.act i (M := fun b => (view (σ.pc i)).own = some b) (hi.shared.congr hst hlk hg) ?_ (hc _) ?_ hown
  · refine ⟨hl, Fact.change (hc fun _ => False) hf fun _ _ h => h, fun b hb => ?_⟩
    have := (hi.each i).own b (hown b hb)
    rw [Sh.mem, hst]
    exact this
  · intro q _ hd b hq hb
    exact hd b hb hq

/-! ## Writing a block's header -/

/-- The header at `w` is written; it is no record, and in a list its size and its successor stay. -/
structure Writes (h : Sh) (L : Cls → List Nat) (w : Nat) (m : Mem) : Prop where
  record : ∀ r ∈ h.st.recs, r ≠ w
  agree : ∀ x ∈ objects h.st, x.1 ≠ w → Agree m h.mem x.1 24
  listed : ∀ c, w ∈ L c → size m w = size h.mem w ∧ next m w = next h.mem w

theorem ListsOk.object (hG : ListsOk E A L₀ L h) {c : Cls} {b : Nat} (hb : b ∈ L c) :
    (b, blockSize + c.bytes) ∈ objects h.st := heapObjects_subset h.st (mem_objects_blk (hG.blocks c b hb).1)

theorem ListsOk.write (hG : ListsOk E A L₀ L h) {w : Nat} {m : Mem} (hw : Writes h L w m)
    (hfree : payload w ∉ held h.st) : ListsOk E A L₀ L (h.write m) := by
  have hrec : ∀ r ∈ h.st.recs, Agree m h.mem r 24 := fun r hr =>
    hw.agree _ (heapObjects_subset h.st (mem_objects_rec hr)) (hw.record r hr)
  refine ⟨hG.layout.keep _ _ _, hG.ready, hG.lockInit, hG.arena, hG.record,
    fun c => (recSize_agree (hrec _ (hG.record c))).trans (hG.bytes c), fun c => ?_, fun c => ?_, hG.overMem,
    (recHead_agree (hrec _ hG.overMem)).trans hG.overHead, hG.overNe, fun c b hb => ?_, hG.base, hG.linked, hG.nodup,
    fun x hx => ?_⟩
  · show Linked (next m) (recHead m (A.list c)) (L c)
    rw [recHead_agree (hrec _ (hG.record c))]
    refine (hG.chain c).congr fun b hb => ?_
    by_cases e : b = w
    · subst e; exact (hw.listed c hb).2
    · exact next_agree (hw.agree _ (hG.object hb) e)
  · show recTail m (A.list c) ∈ L c
    rw [recTail_agree (hrec _ (hG.record c))]
    exact hG.tail c
  · refine ⟨(hG.blocks c b hb).1, Eq.trans ?_ (hG.blocks c b hb).2⟩
    by_cases e : b = w
    · subst e; exact (hw.listed c hb).1
    · exact size_agree (hw.agree _ (hG.object hb) e)
  · obtain ⟨b, e, ht, hu⟩ := hG.live x hx
    have hne : b ≠ w := fun hbw => hfree (List.mem_map.mpr ⟨x, hx, by rw [e, hbw]⟩)
    refine ⟨b, e, ?_, fun c hb => (inUse_agree (hw.agree _ (hG.object hb) hne)).trans (hu c hb)⟩
    rcases ht with ht | ⟨h1, h2, h3, h4⟩
    · exact Or.inl ht
    · exact Or.inr ⟨h1, h2, h3, (size_agree (hw.agree _ (List.mem_append_right _ h2) hne)).trans h4⟩

theorem ListsOk.change_write (hG : ListsOk E A L₀ L h) {w : Nat} {m : Mem} (hw : Writes h L w m) :
    Change (· = w) h.st (h.write m).st L L := by
  refine ⟨fun c b hb => hb, fun x hx => hx, fun x hx _ => hx,
    fun b hb hu hne => ⟨hu, hb.object.elim fun n hn => hw.agree (b, n) hn hne⟩, fun c b hb => ?_,
    fun c b hb hne => ⟨hb, fun hu => ?_⟩, fun b _ hh => hh⟩
  · by_cases e : b = w
    · subst e; exact (hw.listed c hb).1
    · exact size_agree (hw.agree _ (hG.object hb) e)
  · exact (inUse_agree (hw.agree _ (hG.object hb) hne)).trans hu

theorem RaceInv.write (hi : RaceInv E A L₀ L σ) (i : Nat) {w : Nat} {m : Mem} (hw : Writes σ.sh L w m)
    (hfree : payload w ∉ held σ.sh.st)
    (hothers : ∀ q, ThreadOk E A L σ.sh q → Distinct σ.sh (σ.pc i) q → ∀ b, (view q).own = some b → b ≠ w)
    (hl : Locals A p') (hf : Fact E (σ.sh.write m).st L (view p'))
    (hown : ∀ b, (view p').own = some b → b = w ∧ ∀ c, w ∈ L c → inUse m w = 1) :
    RaceInv E A L₀ L (σ.put i (σ.sh.write m) p') := by
  refine hi.act i (hi.shared.write hw hfree) ⟨hl, hf, fun b hb => ?_⟩ (hi.shared.change_write hw) hothers
    fun b hb => (hown b hb).1
  obtain ⟨rfl, hu⟩ := hown b hb
  exact ⟨hfree, hu⟩

/-- A thread writes the header of the block it owns. -/
theorem RaceInv.writeOwn (hi : RaceInv E A L₀ L σ) (i : Nat) {w : Nat} {m : Mem} (hp : (view (σ.pc i)).own = some w)
    (hw : Writes σ.sh L w m) (hl : Locals A p') (hf : Fact E (σ.sh.write m).st L (view p'))
    (hown : ∀ b, (view p').own = some b → b = w ∧ ∀ c, w ∈ L c → inUse m w = 1) :
    RaceInv E A L₀ L (σ.put i (σ.sh.write m) p') :=
  hi.write i hw ((hi.each i).own w hp).1 (fun _ _ hd => Distinct.unowned hp hd) hl hf hown

/-- A block whose flag is clear belongs to nobody. -/
theorem RaceInv.clear_free (hi : RaceInv E A L₀ L σ) {w : Nat} {c : Cls} (hw : w ∈ L c) (h0 : inUse σ.sh.mem w = 0) :
    payload w ∉ held σ.sh.st ∧ ∀ q, ThreadOk E A L σ.sh q → ∀ b, (view q).own = some b → b ≠ w := by
  constructor
  · intro hmem
    obtain ⟨x, hx, e⟩ := List.mem_map.mp hmem
    obtain ⟨b, e', -, hu⟩ := hi.shared.live x hx
    obtain rfl := payload_inj (e.symm.trans e')
    rw [hu c hw] at h0; cases h0
  · intro q hq b hb e
    have := (hq.own b hb).2 c (e ▸ hw)
    rw [e, h0] at this; cases this

section Headers

variable (hG : ListsOk E A L₀ L h) {w : Nat} (v : Nat)

include hG

theorem ListsOk.writes_inUse (hb : IsBlock h.st w) : Writes h L w (setInUse h.mem w v) :=
  ⟨fun _ hr => hb.record_ne hG.layout hr,
    fun _ hx hne => hb.object.elim fun _ hn => setInUse_agree _ _ (hG.layout.apart24 hn hx (Ne.symm hne)),
    fun _ _ => ⟨size_setInUse _ _ _, next_setInUse _ _ _⟩⟩

theorem ListsOk.writes_listed {c : Cls} (hw : w ∈ L c) : Writes h L w (setInUse h.mem w v) :=
  hG.writes_inUse v (Or.inl ⟨c, (hG.blocks c w hw).1⟩)

theorem ListsOk.writes_size (hb : IsBlock h.st w) (hu : Unlisted L w) : Writes h L w (setSize h.mem w v) :=
  ⟨fun _ hr => hb.record_ne hG.layout hr,
    fun _ hx hne => hb.object.elim fun _ hn => setSize_agree _ _ (hG.layout.apart24 hn hx (Ne.symm hne)),
    fun c hw => absurd hw (hu c)⟩

theorem ListsOk.writes_next (hb : IsBlock h.st w) (hu : Unlisted L w) : Writes h L w (setNext h.mem w v) :=
  ⟨fun _ hr => hb.record_ne hG.layout hr,
    fun _ hx hne => hb.object.elim fun _ hn => setNext_agree _ _ (hG.layout.apart24 hn hx (Ne.symm hne)),
    fun c hw => absurd hw (hu c)⟩

end Headers

theorem Fact.raw_block {st : St} {o : Option Cls} {s w k : Nat} (hf : Fact E st L (.raw o s w k)) :
    IsBlock st w ∧ Unlisted L w := by
  cases o with
  | some c =>
    obtain ⟨-, h2, h3, -⟩ := hf
    exact ⟨Or.inl ⟨c, h2⟩, h3⟩
  | none =>
    obtain ⟨-, h2, h3, -⟩ := hf
    exact ⟨Or.inr ⟨_, h2⟩, h3⟩

/-! ## New blocks -/

theorem ListsOk.held_object (hG : ListsOk E A L₀ L h) {b : Nat} (hb : payload b ∈ held h.st) :
    ∃ n, (b, n) ∈ objects h.st := by
  obtain ⟨x, hx, e⟩ := List.mem_map.mp hb
  obtain ⟨b', e', ht, -⟩ := hG.live x hx
  obtain rfl := payload_inj (e.symm.trans e')
  rcases ht with ⟨c, -, hb⟩ | ⟨-, hm, -⟩
  · exact ⟨_, hG.object hb⟩
  · exact ⟨_, List.mem_append_right _ hm⟩

theorem ThreadOk.own_object {q : Pc} (hG : ListsOk E A L₀ L h) (hq : ThreadOk E A L h q) {b : Nat}
    (hb : (view q).own = some b) : ∃ n, (b, n) ∈ objects h.st := by
  have hf := hq.fact
  have hlist : ∀ {c : Cls}, b ∈ L c → ∃ n, (b, n) ∈ objects h.st := fun hb => ⟨_, hG.object hb⟩
  have hmap : ∀ {n : Nat}, (b, n) ∈ h.st.maps → ∃ n, (b, n) ∈ objects h.st := fun hm => ⟨_, List.mem_append_right _ hm⟩
  have hfreeing : Freeing h.st L b → ∃ n, (b, n) ∈ objects h.st := by
    intro hf
    rcases hf with ⟨c, hb⟩ | ⟨⟨n, hm⟩, -⟩
    · exact hlist hb
    · exact hmap hm
  generalize view q = w at hf hb
  cases w with
  | raw o s b' k => cases hb; exact hf.raw_block.1.object
  | mine s b' =>
    cases hb
    rcases hf with ⟨c, -, hb⟩ | ⟨-, hm, -⟩
    · exact hlist hb
    · exact hmap hm
  | freeing b' => cases hb; exact hfreeing hf
  | freeingAbove b' c => cases hb; exact hfreeing hf.1
  | freeingSmall b' => cases hb; obtain ⟨c, hb⟩ := hf; exact hlist hb
  | freeingLarge b' => cases hb; obtain ⟨⟨n, hm⟩, -⟩ := hf; exact hmap hm
  | _ => cases hb

/-- A block is obtained at `a`, where there was no object. -/
theorem RaceInv.grow (hi : RaceInv E A L₀ L σ) (i : Nat) {a : Nat} {st' : St} (hlay : Layout E st')
    (hfresh : ∀ x ∈ objects σ.sh.st, x.1 ≠ a) (hm : st'.mem = σ.sh.st.mem) (hr : st'.recs = σ.sh.st.recs)
    (hb : ∀ x ∈ σ.sh.st.blks, x ∈ st'.blks) (hp : ∀ x ∈ σ.sh.st.maps, x ∈ st'.maps) (hl : st'.live = σ.sh.st.live)
    (hfl : st'.freeLists = σ.sh.st.freeLists) (hfg : st'.arenaInitializer = σ.sh.st.arenaInitializer)
    (hloc : Locals A p') (hf : Fact E st' L (view p')) (hown : (view p').own = some a) :
    RaceInv E A L₀ L (σ.put i { σ.sh with st := st' } p') := by
  have hG := hi.shared
  have hnew : ∀ c, a ∉ L c := fun c ha => hfresh _ (hG.object ha) rfl
  have hheld : Arenas.held st' = Arenas.held σ.sh.st := by rw [Arenas.held, hl, Arenas.held]
  refine hi.act i (M := (· = a)) ?_ ⟨hloc, hf, fun b hb' => ?_⟩ ?_ ?_ fun b hb' => ?_
  · refine ⟨hlay, hfg.trans hG.ready, hG.lockInit, ?_, by simp only [hr]; exact hG.record,
      by simp only [Sh.mem, hm]; exact hG.bytes, by simp only [Sh.mem, hm]; exact hG.chain,
      by simp only [Sh.mem, hm]; exact hG.tail, by simp only [hr]; exact hG.overMem,
      by simp only [Sh.mem, hm]; exact hG.overHead, hG.overNe, fun c b hbc => ?_, hG.base, hG.linked,
      by simp only [hheld]; exact hG.nodup, fun x hx => ?_⟩
    · simp only [active, hfl]; exact hG.arena
    · simp only [Sh.mem, hm]; exact ⟨hb _ (hG.blocks c b hbc).1, (hG.blocks c b hbc).2⟩
    · simp only [hl] at hx
      obtain ⟨b, e, ht, hu⟩ := hG.live x hx
      refine ⟨b, e, ?_, by simp only [Sh.mem, hm]; exact hu⟩
      rcases ht with ht | ⟨h1, h2, h3, h4⟩
      · exact Or.inl ht
      · exact Or.inr ⟨h1, hp _ h2, h3, by simp only [hm]; exact h4⟩
  · rw [hown] at hb'
    cases hb'
    simp only [hheld]
    exact ⟨fun hmem => (hG.held_object hmem).elim fun n hn => hfresh _ hn rfl, fun c hc => absurd hc (hnew c)⟩
  · refine ⟨fun c b hb => hb, hb, fun x hx _ => hp x hx, fun x _ hu _ => ⟨hu, ?_⟩, by simp [hm],
      fun c b hb _ => ⟨hb, by simp [hm]⟩, fun b _ hh => by simpa only [hheld] using hh⟩
    simp only [hm]; exact Agree.refl _ _ _
  · intro q hq _ b hb' e
    obtain ⟨n, hn⟩ := hq.own_object hG hb'
    exact hfresh _ hn e
  · rw [hown] at hb'; exact (Option.some.inj hb').symm

theorem RaceInv.sbrk (hi : RaceInv E A L₀ L σ) (i : Nat) {v : Frame} {c : Cls} {a : Nat} {st' : St} (hA : v.A = A)
    (hs : classOf v.s = some c) (h : Arenas.sbrk E σ.sh.st (blockSize + c.bytes) = (some a, st')) :
    RaceInv E A L₀ L (σ.put i { σ.sh with st := { st' with blks := (a, blockSize + c.bytes) :: st'.blks } }
      (.unlockSbrk v c (some a))) := by
  obtain ⟨ha, hle, rfl⟩ := sbrk_some h
  have hG := hi.shared
  have hfresh : ∀ x ∈ objects σ.sh.st, x.1 ≠ a := by
    intro x hx e
    rcases above_object hG.layout ha hle hx with h | h <;> omega
  refine hi.grow i ?_ hfresh rfl rfl (fun x hx => List.mem_cons_of_mem _ hx) (fun x hx => hx) rfl rfl rfl ⟨hA, hs⟩ ?_ rfl
  · refine hG.layout.add ha (by simp only [blockSize]; omega) hle rfl rfl fun x => ?_
    simp only [heapObjects, List.mem_append, List.mem_cons]
    exact or_left_comm
  · exact ⟨hs, List.mem_cons_self .., fun c' hc' => hfresh _ (hG.object hc') rfl, by omega, by omega, by omega⟩

theorem RaceInv.mmap (hi : RaceInv E A L₀ L σ) (i : Nat) {v : Frame} {header : Nat} (hA : v.A = A) (h64 : v.s < 2 ^ 64)
    (hs : classOf v.s = none) (ht : (blockSize + v.s) % 2 ^ 64 ≠ 0)
    (hok : Mappable E σ.sh.st header (E.mapLen ((blockSize + v.s) % 2 ^ 64))) :
    RaceInv E A L₀ L (σ.put i { σ.sh with st := { σ.sh.st with
      maps := (header, E.mapLen ((blockSize + v.s) % 2 ^ 64)) :: σ.sh.st.maps } } (.testMap v (some header))) := by
  have hG := hi.shared
  have hlen : 24 ≤ E.mapLen ((blockSize + v.s) % 2 ^ 64) := E.header_le_mapLen _ (Nat.pos_of_ne_zero ht)
  obtain ⟨hlay, hnew⟩ := hG.layout.map hlen hok
  have hfresh : ∀ x ∈ objects σ.sh.st, x.1 ≠ header := by
    intro x hx e
    have := hG.layout.bounds hx
    rcases hnew x hx with h | h <;> omega
  refine hi.grow i hlay hfresh rfl rfl (fun x hx => hx) (fun x hx => List.mem_cons_of_mem _ hx) rfl rfl rfl ⟨hA, h64⟩
    ?_ rfl
  exact ⟨hs, List.mem_cons_self .., fun c hc => hfresh _ (hG.object hc) rfl, by omega⟩

/-! ## Appending -/

/-- The lists with `b` at the end of `c`'s. -/
def extend (L : Cls → List Nat) (c : Cls) (b : Nat) : Cls → List Nat := Function.update L c (L c ++ [b])

theorem extend_same (L : Cls → List Nat) (c : Cls) (b : Nat) : extend L c b c = L c ++ [b] := Function.update_self ..

theorem extend_ne (L : Cls → List Nat) {c c' : Cls} (b : Nat) (h : c' ≠ c) : extend L c b c' = L c' :=
  Function.update_of_ne h ..

theorem mem_extend {c c' : Cls} {b x : Nat} (hx : x ∈ L c') : x ∈ extend L c b c' := by
  by_cases e : c' = c
  · subst e; rw [extend_same]; exact List.mem_append_left _ hx
  · rwa [extend_ne L b e]

theorem of_mem_extend {c c' : Cls} {b x : Nat} (hx : x ∈ extend L c b c') (hne : x ≠ b) : x ∈ L c' := by
  by_cases e : c' = c
  · subst e
    rw [extend_same] at hx
    simpa [hne] using hx
  · rwa [extend_ne L b e] at hx

theorem Unlisted.extend {c : Cls} {b x : Nat} (hx : Unlisted L x) (hne : x ≠ b) : Unlisted (extend L c b) x :=
  fun c' hc' => hx c' (of_mem_extend hc' hne)

section LinkTail

variable (hG : ListsOk E A L₀ L h) {c : Cls} {t b : Nat} (ht : t ∈ L c)

include hG ht

theorem ListsOk.linked_agree {x n : Nat} (hx : (x, n) ∈ objects h.st) (hne : x ≠ t) :
    Agree (setNext h.mem t b) h.mem x 24 :=
  setNext_agree _ _ (hG.layout.apart24 (hG.object ht) hx (Ne.symm hne))

theorem ListsOk.linked_record {r : Nat} (hr : r ∈ h.st.recs) : Agree (setNext h.mem t b) h.mem r 24 :=
  hG.linked_agree ht (heapObjects_subset _ (mem_objects_rec hr)) (hG.layout.record_ne hr (hG.blocks c t ht).1)

theorem ListsOk.linked_size {x n : Nat} (hx : (x, n) ∈ objects h.st) :
    size (setNext h.mem t b) x = size h.mem x := by
  by_cases e : x = t
  · rw [e]; exact size_setNext _ _ _
  · exact size_agree (hG.linked_agree ht hx e)

theorem ListsOk.linked_inUse {x n : Nat} (hx : (x, n) ∈ objects h.st) :
    inUse (setNext h.mem t b) x = inUse h.mem x := by
  by_cases e : x = t
  · rw [e]; exact inUse_setNext _ _ _
  · exact inUse_agree (hG.linked_agree ht hx e)

/-- A block is in one list only. -/
theorem ListsOk.one_list {c' : Cls} (ht' : t ∈ L c') : c' = c := by
  have h1 := (hG.blocks c t ht).2.symm.trans (hG.blocks c' t ht').2
  cases c <;> cases c' <;> simp_all [Cls.bytes]

/-- The tail had no successor, so its chain ends at the new block. -/
theorem ListsOk.linked_chain (hlast : next h.mem t = 0) (hb : (b, blockSize + c.bytes) ∈ h.st.blks)
    (hun : Unlisted L b) (hn : next h.mem b = 0) (c' : Cls) :
    Linked (next (setNext h.mem t b)) (recHead (setNext h.mem t b) (A.list c')) (extend L c b c') := by
  rw [recHead_agree (hG.linked_record ht (hG.record c'))]
  have hobj : (b, blockSize + c.bytes) ∈ objects h.st := heapObjects_subset _ (mem_objects_blk hb)
  have hbpos := hG.layout.bounds hobj
  by_cases e : c' = c
  · subst e
    obtain ⟨l', hl'⟩ := (hG.chain c').last_of_next ht hlast
    have hch := hG.chain c'
    have hnd := hch.nodup
    rw [extend_same, hl', List.append_assoc]
    rw [hl'] at hch hnd
    refine hch.snoc (fun x hx => next_agree (hG.linked_agree ht (hG.object (hl' ▸ List.mem_append_left _ hx)) ?_)) ?_
      (Nat.ne_of_gt hbpos.1) ?_
    · intro e
      exact List.disjoint_of_nodup_append hnd hx (e ▸ List.mem_singleton.mpr rfl)
    · rw [next_setNext]; exact Nat.mod_eq_of_lt hbpos.2.2
    · exact (next_agree (hG.linked_agree ht hobj fun e => hun c' (e ▸ ht))).trans hn
  · rw [extend_ne L b e]
    refine (hG.chain c').congr fun x hx => next_agree (hG.linked_agree ht (hG.object hx) ?_)
    intro ext
    exact e (hG.one_list ht (ext ▸ hx))

theorem ListsOk.linkTail (hlast : next h.mem t = 0) (hb : (b, blockSize + c.bytes) ∈ h.st.blks) (hun : Unlisted L b)
    (hn : next h.mem b = 0) (hz : size h.mem b = c.bytes) (hheld : payload b ∉ held h.st) :
    ListsOk E A L₀ (extend L c b) (h.write (setNext h.mem t b)) := by
  have hobj : (b, blockSize + c.bytes) ∈ objects h.st := heapObjects_subset _ (mem_objects_blk hb)
  refine ⟨hG.layout.keep _ _ _, hG.ready, hG.lockInit, hG.arena, hG.record,
    fun c' => (recSize_agree (hG.linked_record ht (hG.record c'))).trans (hG.bytes c'),
    hG.linked_chain ht hlast hb hun hn, fun c' => ?_, hG.overMem,
    (recHead_agree (hG.linked_record ht hG.overMem)).trans hG.overHead, hG.overNe, fun c' x hx => ?_,
    fun c' x hx => mem_extend (hG.base c' x hx), fun x hx => mem_extend (hG.linked x hx), hG.nodup, fun x hx => ?_⟩
  · show recTail (setNext h.mem t b) (A.list c') ∈ _
    rw [recTail_agree (hG.linked_record ht (hG.record c'))]
    exact mem_extend (hG.tail c')
  · by_cases e : x = b
    · subst e
      have hcc : c' = c := by
        by_contra hne
        rw [extend_ne L x hne] at hx
        exact hun c' hx
      subst hcc
      exact ⟨hb, (hG.linked_size ht hobj).trans hz⟩
    · have hx' := of_mem_extend hx e
      exact ⟨(hG.blocks c' x hx').1, (hG.linked_size ht (hG.object hx')).trans (hG.blocks c' x hx').2⟩
  · obtain ⟨x', e, htk, hux⟩ := hG.live x hx
    have hne : x' ≠ b := fun hxb => hheld (List.mem_map.mpr ⟨x, hx, by rw [e, hxb]⟩)
    refine ⟨x', e, ?_, fun c' hc' => ?_⟩
    · rcases htk with ⟨c', h1, h2⟩ | ⟨h1, h2, h3, h4⟩
      · exact Or.inl ⟨c', h1, mem_extend h2⟩
      · exact Or.inr ⟨h1, h2, h3.extend hne, (hG.linked_size ht (List.mem_append_right _ h2)).trans h4⟩
    · have hx' := of_mem_extend hc' hne
      exact (hG.linked_inUse ht (hG.object hx')).trans (hux c' hx')

theorem ListsOk.change_linkTail : Change (· = b) h.st (h.write (setNext h.mem t b)).st L (extend L c b) := by
  refine ⟨fun c' x hx => mem_extend hx, fun x hx => hx, fun x hx _ => hx,
    fun x hx hux hne => ⟨hux.extend hne, hx.object.elim fun n hn => ?_⟩,
    fun c' x hx => hG.linked_size ht (hG.object hx), fun c' x hx hne => ⟨of_mem_extend hx hne, fun hu1 => ?_⟩,
    fun x _ hh => hh⟩
  · exact hG.linked_agree ht hn fun e => hux c (e ▸ ht)
  · exact (hG.linked_inUse ht (hG.object (of_mem_extend hx hne))).trans hu1

end LinkTail

theorem RaceInv.linkTail (hi : RaceInv E A L₀ L σ) (i : Nat) {v : Frame} {c : Cls} {b : Nat}
    (hp : σ.pc i = .linkTail v c b) (hlast : next σ.sh.mem (recTail σ.sh.mem (A.list c)) = 0) :
    RaceInv E A L₀ (extend L c b)
      (σ.put i (σ.sh.write (setNext σ.sh.mem (recTail σ.sh.mem (A.list c)) b)) (.setTail v c b)) := by
  have hG := hi.shared
  have hT := hi.each i
  rw [hp] at hT
  obtain ⟨hA, ⟨hs, hblk, hun, hz, hu, hn⟩, hown⟩ := hT
  obtain ⟨hheld, -⟩ := hown b rfl
  have hobj : (b, blockSize + c.bytes) ∈ objects σ.sh.st := heapObjects_subset _ (mem_objects_blk hblk)
  have hmine : (view (σ.pc i)).own = some b := by rw [hp]; rfl
  refine hi.act i (hG.linkTail (hG.tail c) hlast hblk hun (hn (by omega)) (hz (by omega)) hheld) ?_
    (hG.change_linkTail (hG.tail c)) (fun q _ hd => Distinct.unowned hmine hd) ?_
  · refine ⟨⟨hA, hs⟩, Or.inl ⟨c, hs, by rw [extend_same]; simp⟩, fun x hx => ?_⟩
    have hxb : b = x := Option.some.inj hx
    subst hxb
    exact ⟨hheld, fun _ _ => (hG.linked_inUse (hG.tail c) hobj).trans (hu (by omega))⟩
  · intro x hx
    exact (Option.some.inj hx).symm

section SetTail

variable (hG : ListsOk E A L₀ L h) (c : Cls) (b : Nat)

include hG

theorem ListsOk.tailed_agree {x n : Nat} (hx : (x, n) ∈ objects h.st) (hne : x ≠ A.list c) :
    Agree (setRecTail h.mem (A.list c) b) h.mem x 24 :=
  setRecTail_agree _ _ (hG.layout.apart24 (heapObjects_subset _ (mem_objects_rec (hG.record c))) hx (Ne.symm hne))

theorem ListsOk.tailed_block {c' : Cls} {x : Nat} (hx : x ∈ L c') :
    Agree (setRecTail h.mem (A.list c) b) h.mem x 24 :=
  hG.tailed_agree c b (hG.object hx) (Ne.symm (hG.layout.record_ne (hG.record c) (hG.blocks _ _ hx).1))

theorem ListsOk.tailed_record (c' : Cls) :
    recSize (setRecTail h.mem (A.list c) b) (A.list c') = recSize h.mem (A.list c') ∧
      recHead (setRecTail h.mem (A.list c) b) (A.list c') = recHead h.mem (A.list c') := by
  by_cases e : A.list c' = A.list c
  · rw [e]
    exact ⟨recSize_setRecTail _ _ _, recHead_setRecTail _ _ _⟩
  · have ha := hG.tailed_agree c b (heapObjects_subset _ (mem_objects_rec (hG.record c'))) e
    exact ⟨recSize_agree ha, recHead_agree ha⟩

theorem ListsOk.list_ne {c' : Cls} (hne : c' ≠ c) : A.list c' ≠ A.list c := by
  intro e
  have h1 := hG.bytes c'
  rw [e, hG.bytes c] at h1
  cases c <;> cases c' <;> simp_all [Cls.bytes]

theorem ListsOk.setTail (hb : b ∈ L c) :
    ListsOk E A L₀ L { h.write (setRecTail h.mem (A.list c) b) with linked := (c, b) :: h.linked } := by
  have hbpos := hG.layout.bounds (hG.object hb)
  refine ⟨hG.layout.keep _ _ _, hG.ready, hG.lockInit, hG.arena, hG.record,
    fun c' => (hG.tailed_record c b c').1.trans (hG.bytes c'), fun c' => ?_, fun c' => ?_, hG.overMem, ?_, hG.overNe,
    fun c' x hx => ⟨(hG.blocks c' x hx).1, (size_agree (hG.tailed_block c b hx)).trans (hG.blocks c' x hx).2⟩, hG.base,
    fun x hx => ?_, hG.nodup, fun x hx => ?_⟩
  · show Linked (next (setRecTail h.mem (A.list c) b)) (recHead (setRecTail h.mem (A.list c) b) (A.list c')) (L c')
    rw [(hG.tailed_record c b c').2]
    exact (hG.chain c').congr fun x hx => next_agree (hG.tailed_block c b hx)
  · show recTail (setRecTail h.mem (A.list c) b) (A.list c') ∈ L c'
    by_cases e : c' = c
    · subst e
      rw [recTail_setRecTail, Nat.mod_eq_of_lt hbpos.2.2]
      exact hb
    · have hr := heapObjects_subset _ (mem_objects_rec (hG.record c'))
      rw [recTail_agree (hG.tailed_agree c b hr (hG.list_ne c e))]
      exact hG.tail c'
  · have hr := heapObjects_subset _ (mem_objects_rec hG.overMem)
    exact (recHead_agree (hG.tailed_agree c b hr (hG.overNe c))).trans hG.overHead
  · rcases List.mem_cons.mp hx with rfl | hx
    · exact hb
    · exact hG.linked x hx
  · obtain ⟨x', e, htk, hux⟩ := hG.live x hx
    refine ⟨x', e, ?_, fun c' hc' => (inUse_agree (hG.tailed_block c b hc')).trans (hux c' hc')⟩
    rcases htk with ht | ⟨h1, h2, h3, h4⟩
    · exact Or.inl ht
    · have hne := hG.layout.not_mapped (mem_objects_rec (hG.record c)) h2
      exact Or.inr ⟨h1, h2, h3, (size_agree (hG.tailed_agree c b (List.mem_append_right _ h2) (Ne.symm hne))).trans h4⟩

theorem ListsOk.change_setTail : Change (· = b) h.st (h.write (setRecTail h.mem (A.list c) b)).st L L := by
  refine ⟨fun c b hb => hb, fun x hx => hx, fun x hx _ => hx, fun x hx hux hne => ⟨hux, ?_⟩,
    fun c' x hx => size_agree (hG.tailed_block c b hx),
    fun c' x hx hne => ⟨hx, fun hu1 => (inUse_agree (hG.tailed_block c b hx)).trans hu1⟩, fun x _ hh => hh⟩
  obtain ⟨n, hn⟩ := hx.object
  exact hG.tailed_agree c b hn (Ne.symm (hx.record_ne hG.layout (hG.record c)))

end SetTail

theorem RaceInv.setTail (hi : RaceInv E A L₀ L σ) (i : Nat) {v : Frame} {c : Cls} {b : Nat}
    (hp : σ.pc i = .setTail v c b) :
    RaceInv E A L₀ L (σ.put i { σ.sh.write (setRecTail σ.sh.mem (A.list c) b) with linked := (c, b) :: σ.sh.linked }
      (.unlockList v b)) := by
  have hG := hi.shared
  have hT := hi.each i
  rw [hp] at hT
  obtain ⟨⟨hA, hs⟩, hf, hown⟩ := hT
  have hb : b ∈ L c := by
    rcases hf with ⟨c', hs', hb⟩ | ⟨hs', -⟩
    · rw [hs] at hs'; cases hs'; exact hb
    · rw [hs] at hs'; cases hs'
  have hmine : (view (σ.pc i)).own = some b := by rw [hp]; rfl
  refine hi.act i (M := (· = b)) (hG.setTail c b hb) ?_ (hG.change_setTail c b)
    (fun q _ hd => Distinct.unowned hmine hd) fun x hx => (Option.some.inj hx).symm
  refine ⟨trivial, Or.inl ⟨c, hs, hb⟩, fun x hx => ?_⟩
  cases hx
  obtain ⟨h1, h2⟩ := hown b rfl
  exact ⟨h1, fun c' hc' => (inUse_agree (hG.tailed_block c b hc')).trans (h2 c' hc')⟩

/-! ## Handing over to the client and back -/

theorem ListsOk.setLive (hG : ListsOk E A L₀ L h) {live : List (Nat × Nat)} (hn : (live.map Prod.fst).Nodup)
    (hl : ∀ x ∈ live, ∃ b, x.1 = payload b ∧ Taken E h.st L x.2 b ∧ ∀ c, b ∈ L c → inUse h.mem b = 1) :
    ListsOk E A L₀ L { h with st := { h.st with live := live } } :=
  ⟨hG.layout.keep _ _ _, hG.ready, hG.lockInit, hG.arena, hG.record, hG.bytes, hG.chain, hG.tail, hG.overMem,
    hG.overHead, hG.overNe, hG.blocks, hG.base, hG.linked, hn, hl⟩

theorem Change.setLive (M : Nat → Prop) {st : St} {live : List (Nat × Nat)}
    (h : ∀ b, ¬ M b → payload b ∉ Arenas.held st → payload b ∉ live.map Prod.fst) :
    Change M st { st with live := live } L L :=
  ⟨fun _ _ hb => hb, fun _ hx => hx, fun _ hx _ => hx, fun _ _ hux _ => ⟨hux, Agree.refl _ _ _⟩, fun _ _ _ => rfl,
    fun _ _ hx _ => ⟨hx, fun h => h⟩, h⟩

theorem RaceInv.ret (hi : RaceInv E A L₀ L σ) (i : Nat) {v : Frame} {b : Nat} (hp : σ.pc i = .ret v b) :
    RaceInv E A L₀ L
      (σ.put i { σ.sh with st := { σ.sh.st with live := (payload b, v.s) :: σ.sh.st.live } } .idle) := by
  have hG := hi.shared
  have hT := hi.each i
  rw [hp] at hT
  obtain ⟨-, hf, hown⟩ := hT
  obtain ⟨hheld, hu⟩ := hown b rfl
  have hmine : (view (σ.pc i)).own = some b := by rw [hp]; rfl
  refine hi.act i (M := (· = b)) (hG.setLive (List.nodup_cons.mpr ⟨hheld, hG.nodup⟩) fun x hx => ?_)
    ⟨trivial, trivial, View.own_none rfl⟩ (Change.setLive _ fun x hne hh hmem => ?_)
    (fun q _ hd => Distinct.unowned hmine hd) (View.own_none rfl)
  · rcases List.mem_cons.mp hx with rfl | hx
    · exact ⟨b, rfl, hf, hu⟩
    · exact hG.live x hx
  · rcases List.mem_cons.mp hmem with e | hmem
    · exact hne (payload_inj e)
    · exact hh hmem

/-- `myfree` is called with a pointer the client holds, which it gives up. -/
theorem RaceInv.giveBack (hi : RaceInv E A L₀ L σ) (i : Nat) {ptr : Nat}
    (hl : ptr = 0 ∨ ptr ∈ held σ.sh.st) :
    RaceInv E A L₀ L (σ.put i { σ.sh with st := { σ.sh.st with live := drop σ.sh.st ptr } } (.freeTest ptr)) := by
  have hG := hi.shared
  have hlists : ListsOk E A L₀ L { σ.sh with st := { σ.sh.st with live := drop σ.sh.st ptr } } :=
    hG.setLive ((List.Sublist.map Prod.fst List.filter_sublist).nodup hG.nodup)
      fun x hx => hG.live x (mem_drop.mp hx).1
  have hchange : ∀ M, Change M σ.sh.st { σ.sh.st with live := drop σ.sh.st ptr } L L := fun M =>
    Change.setLive M fun x _ hh hmem => hh (mem_held_drop.mp hmem).1
  by_cases e : ptr = 0
  · have hv : view (.freeTest ptr) = .nothing := by simp [view, e]
    refine hi.act i (M := fun _ => False) hlists ⟨trivial, by rw [hv]; trivial, by rw [hv]; exact View.own_none rfl⟩
      (hchange _) (fun _ _ _ _ _ h => h) (by rw [hv]; exact View.own_none rfl)
  · obtain ⟨x, hx, rfl⟩ := List.mem_map.mp (hl.resolve_left e)
    obtain ⟨b, hxb, ht, hu⟩ := hG.live x hx
    have hv : view (.freeTest x.1) = .freeing b := by simp only [view, e, if_false]; rw [hxb, headerOf_payload]
    refine hi.act i (M := (· = b)) hlists ⟨trivial, ?_, ?_⟩ (hchange _) ?_ ?_
    · rw [hv]
      rcases ht with ⟨c, -, hb⟩ | ⟨h1, h2, h3, h4⟩
      · exact Or.inl ⟨c, hb⟩
      · exact Or.inr ⟨⟨_, h2⟩, h3, by rw [show size _ b = x.2 from h4]; exact classOf_none.mp h1⟩
    · rw [hv]
      intro b' hb'
      have hbb : b = b' := Option.some.inj hb'
      subst hbb
      exact ⟨fun hmem => (mem_held_drop.mp hmem).2 hxb.symm, hu⟩
    · intro q hq _ b' hb' hbb
      exact (hq.own b' hb').1 (List.mem_map.mpr ⟨x, hx, by rw [hxb, hbb]⟩)
    · rw [hv]
      intro b' hb'
      exact (Option.some.inj hb').symm

theorem RaceInv.unmap (hi : RaceInv E A L₀ L σ) (i : Nat) {b : Nat} (hp : σ.pc i = .unmap b) :
    RaceInv E A L₀ L
      (σ.put i { σ.sh with st := { σ.sh.st with maps := σ.sh.st.maps.filter (·.1 ≠ b) } } .freeUnlock) := by
  have hG := hi.shared
  have hT := hi.each i
  rw [hp] at hT
  obtain ⟨-, ⟨⟨n, hm⟩, hun⟩, hown⟩ := hT
  obtain ⟨hheld, -⟩ := hown b rfl
  have hmine : (view (σ.pc i)).own = some b := by rw [hp]; rfl
  refine hi.act i (M := (· = b)) ?_ ⟨trivial, trivial, View.own_none rfl⟩ ?_
    (fun q _ hd => Distinct.unowned hmine hd) (View.own_none rfl)
  · refine ⟨hG.layout.unmap b, hG.ready, hG.lockInit, hG.arena, hG.record,
      hG.bytes, hG.chain, hG.tail, hG.overMem, hG.overHead, hG.overNe, hG.blocks, hG.base, hG.linked, hG.nodup,
      fun x hx => ?_⟩
    obtain ⟨b', e, ht, hu⟩ := hG.live x hx
    have hne : b' ≠ b := fun h => hheld (List.mem_map.mpr ⟨x, hx, by rw [e, h]⟩)
    refine ⟨b', e, ?_, hu⟩
    rcases ht with ht | ⟨h1, h2, h3, h4⟩
    · exact Or.inl ht
    · exact Or.inr ⟨h1, mem_unmapped.mpr ⟨h2, hne⟩, h3, h4⟩
  · exact ⟨fun c b hb => hb, fun x hx => hx, fun x hx hne => mem_unmapped.mpr ⟨hx, hne⟩,
      fun x _ hux _ => ⟨hux, Agree.refl _ _ _⟩, fun _ _ _ => rfl, fun c x hx _ => ⟨hx, fun h => h⟩, fun _ _ hh => hh⟩

/-! ## Every statement -/

/-- The chain of tests stops at the class of `s`, or goes on to one that is not too large. -/
theorem ListsOk.afterPick_cases (hG : ListsOk E A L₀ L h) {s : Nat} {c : Cls} (hb : below c < s) :
    afterPick h.mem A s c = .inl (classOf s) ∨ ∃ c', afterPick h.mem A s c = .inr c' ∧ below c' < s := by
  unfold afterPick classOf
  rw [hG.bytes]
  cases c with
  | c64 =>
    by_cases e : s ≤ 64
    · left; simp [Cls.bytes, e]
    · right; exact ⟨.c256, by simp [Cls.bytes, Cls.succ, e], by simp only [below]; omega⟩
  | c256 =>
    have h1 : ¬ s ≤ 64 := by simp only [below] at hb; omega
    by_cases e : s ≤ 256
    · left; simp [Cls.bytes, e, h1]
    · right; exact ⟨.c1024, by simp [Cls.bytes, Cls.succ, e], by simp only [below]; omega⟩
  | c1024 =>
    have h1 : ¬ s ≤ 256 := by simp only [below] at hb; omega
    have h2 : ¬ s ≤ 64 := by omega
    left
    by_cases e : s ≤ 1024 <;> simp [Cls.bytes, Cls.succ, e, h1, h2]

theorem ListsOk.head_cursor (hG : ListsOk E A L₀ L h) (s : Nat) :
    Fact E h.st L (.cursor s (recHead h.mem (recordOf A (classOf s)))) := by
  cases hs : classOf s with
  | none => exact Or.inl hG.overHead
  | some c =>
    rcases (hG.chain c).head_mem with h | h
    · exact Or.inl h
    · exact Or.inr ⟨c, hs, h⟩

/-- A step of `mymalloc` or `myfree` that only reads, or takes or gives up a mutex. -/
theorem RaceInv.reads (hi : RaceInv E A L₀ L σ) (i : Nat) {g : Bool} (hl : Locals A p')
    (hf : Fact E σ.sh.st L (view p')) (hown : ∀ b, (view p').own = some b → (view (σ.pc i)).own = some b) :
    ∃ L', RaceInv E A L₀ L' (σ.put i { σ.sh with globalLock := g } p') :=
  ⟨L, hi.quiet i (k := σ.sh.st.calls) rfl rfl rfl hl hf hown⟩

section Statements

variable {v : Frame} {c : Cls} {o : Option Cls} {b : Nat} {answer : Option Nat}

/-- It goes on with no block of its own. -/
theorem RaceInv.free (hi : RaceInv E A L₀ L σ) (i : Nat) {g : Bool} (hl : Locals A p')
    (hf : Fact E σ.sh.st L (view p')) (hn : (view p').own = none) :
    ∃ L', RaceInv E A L₀ L' (σ.put i { σ.sh with globalLock := g } p') :=
  hi.reads i hl hf (View.own_none hn)

/-- It goes on with the block it has. -/
theorem RaceInv.keeps (hi : RaceInv E A L₀ L σ) {i : Nat} (hp : σ.pc i = p) {g : Bool} (hl : Locals A p')
    (hf : Fact E σ.sh.st L (view p')) (ho : (view p').own = (view p).own) :
    ∃ L', RaceInv E A L₀ L' (σ.put i { σ.sh with globalLock := g } p') :=
  hi.reads i hl hf (by rw [hp, ho]; exact fun b hb => hb)

theorem RaceInv.pick (hi : RaceInv E A L₀ L σ) (i : Nat) (hp : σ.pc i = .pick v c)
    (e : exec E answer σ.sh (.pick v c) = some (h', p')) : ∃ L', RaceInv E A L₀ L' (σ.put i h' p') := by
  have hT := hi.each i
  rw [hp] at hT
  obtain ⟨h1, h2, h3⟩ := hT.locals
  simp only [Threads.exec, h1] at e
  have hpos : 0 < v.s := by omega
  rcases hi.shared.afterPick_cases h3 with hc | ⟨c', hc, hb⟩ <;> rw [hc] at e <;> cases e
  · exact hi.free i ⟨h1, h2, hpos, rfl⟩ trivial rfl
  · exact hi.free i ⟨h1, h2, hb⟩ trivial rfl

theorem RaceInv.order (hi : RaceInv E A L₀ L σ) (i : Nat) (hp : σ.pc i = .order v b c)
    (e : exec E answer σ.sh (.order v b c) = some (h', p')) : ∃ L', RaceInv E A L₀ L' (σ.put i h' p') := by
  have hT := hi.each i
  rw [hp] at hT
  obtain ⟨h1, h2, h3⟩ := hT.locals
  simp only [Threads.exec, h1] at e
  rcases hi.shared.afterPick_cases h3 with hc | ⟨c', hc, hb⟩ <;> rw [hc] at e
  · cases hs : classOf v.s with
    | some c' => rw [hs] at e; cases e; exact hi.free i ⟨h1, hs⟩ hT.fact rfl
    | none => rw [hs] at e; cases e; exact hi.free i ⟨h1, h2, hs⟩ trivial rfl
  · cases e; exact hi.free i ⟨h1, h2, hb⟩ hT.fact rfl

theorem RaceInv.mark (hi : RaceInv E A L₀ L σ) (i : Nat) (hp : σ.pc i = .mark v b) (hfree : inUse σ.sh.mem b = 0) :
    RaceInv E A L₀ L (σ.put i (σ.sh.write (setInUse σ.sh.mem b 1)) (.unlockFound v b)) := by
  have hT := hi.each i
  rw [hp] at hT
  obtain ⟨c, hs, hb⟩ := hT.fact
  obtain ⟨hheld, hothers⟩ := hi.clear_free hb hfree
  exact hi.write i (hi.shared.writes_listed 1 hb) hheld (fun q hq _ => hothers q hq) trivial (Or.inl ⟨c, hs, hb⟩)
    fun b' hb' => ⟨(Option.some.inj hb').symm, fun _ _ => inUse_setInUse _ _ _⟩

theorem RaceInv.callSbrk (hi : RaceInv E A L₀ L σ) (i : Nat) {n : Nat} (hp : σ.pc i = .sbrk v c n)
    (e : exec E answer σ.sh (.sbrk v c n) = some (h', p')) : ∃ L', RaceInv E A L₀ L' (σ.put i h' p') := by
  have hT := hi.each i
  rw [hp] at hT
  obtain ⟨h1, h2, rfl⟩ := hT.locals
  simp only [Threads.exec] at e
  split at e
  · rename_i st' hs
    cases e
    have hst : st' = { σ.sh.st with calls := σ.sh.st.calls + 1 } := by
      simp only [Arenas.sbrk] at hs
      split at hs <;> cases hs
      rfl
    exact ⟨L, hi.quiet i hst rfl rfl ⟨h1, h2⟩ trivial (View.own_none rfl)⟩
  · rename_i hs
    cases e
    exact ⟨L, hi.sbrk i h1 h2 hs⟩

theorem RaceInv.check (hi : RaceInv E A L₀ L σ) (i : Nat) {blk : Option Nat} (hp : σ.pc i = .check v c blk)
    (e : exec E answer σ.sh (.check v c blk) = some (h', p')) : ∃ L', RaceInv E A L₀ L' (σ.put i h' p') := by
  have hT := hi.each i
  rw [hp] at hT
  obtain ⟨h1, h2⟩ := hT.locals
  cases blk with
  | none =>
    simp only [Threads.exec] at e
    split at e <;> cases e
    exact hi.free i trivial trivial rfl
  | some b =>
    cases e
    have := (classOf_some h2).2
    exact hi.keeps hp ⟨h1, by omega⟩ hT.fact rfl

theorem RaceInv.callMmap (hi : RaceInv E A L₀ L σ) (i : Nat) (hp : σ.pc i = .mmap v)
    (hlegal : Legal E σ (.run i answer)) (e : exec E answer σ.sh (.mmap v) = some (h', p')) :
    ∃ L', RaceInv E A L₀ L' (σ.put i h' p') := by
  have hT := hi.each i
  rw [hp] at hT
  obtain ⟨h1, h2, h3⟩ := hT.locals
  cases answer with
  | none => cases e; exact hi.free i ⟨h1, h2⟩ trivial rfl
  | some header =>
    simp only [Threads.exec] at e
    split at e <;> cases e
    · exact hi.free i ⟨h1, h2⟩ trivial rfl
    · rename_i ht
      exact ⟨L, hi.mmap i h1 h2 h3 ht (hlegal v header hp rfl)⟩

/-- A store into the new block, which is in no list yet. -/
theorem RaceInv.writeRaw (hi : RaceInv E A L₀ L σ) (i : Nat) {m : Mem} (hmine : (view (σ.pc i)).own = some b)
    (hu : Unlisted L b) (hw : Writes σ.sh L b m) (hl : Locals A p')
    (hf : Fact E { σ.sh.st with mem := m } L (view p')) (ho : (view p').own = some b) :
    RaceInv E A L₀ L (σ.put i (σ.sh.write m) p') := by
  refine hi.writeOwn i hmine hw hl hf fun b' hb' => ?_
  rw [ho] at hb'
  exact ⟨(Option.some.inj hb').symm, fun c hc => absurd hc (hu c)⟩

theorem RaceInv.putSize (hi : RaceInv E A L₀ L σ) (i : Nat) (hp : σ.pc i = .putSize v o b)
    (e : exec E answer σ.sh (.putSize v o b) = some (h', p')) : ∃ L', RaceInv E A L₀ L' (σ.put i h' p') := by
  have hT := hi.each i
  rw [hp] at hT
  cases e
  obtain ⟨h1, h64⟩ := hT.locals
  obtain ⟨hb, hu⟩ := hT.fact.raw_block
  refine ⟨L, hi.writeRaw i (by rw [hp]; rfl) hu (hi.shared.writes_size _ hb hu) h1 ?_ rfl⟩
  have hf := hT.fact
  cases o with
  | some c =>
    obtain ⟨f1, f2, f3, -⟩ := hf
    have hcb : c.bytes < 2 ^ 64 := Nat.lt_trans c.bytes_lt (by decide)
    exact ⟨f1, f2, f3, fun _ => (size_setSize _ _ _).trans (Nat.mod_eq_of_lt hcb), by omega, by omega⟩
  | none =>
    obtain ⟨f1, f2, f3, -⟩ := hf
    exact ⟨f1, f2, f3, fun _ => (size_setSize _ _ _).trans (Nat.mod_eq_of_lt h64)⟩

theorem RaceInv.putInUse (hi : RaceInv E A L₀ L σ) (i : Nat) (hp : σ.pc i = .putInUse v o b) :
    RaceInv E A L₀ L (σ.put i (σ.sh.write (setInUse σ.sh.mem b 1)) (.putNext v o b)) := by
  have hT := hi.each i
  rw [hp] at hT
  obtain ⟨hb, hu⟩ := hT.fact.raw_block
  refine hi.writeRaw i (by rw [hp]; rfl) hu (hi.shared.writes_inUse 1 hb) hT.locals ?_ rfl
  have hf := hT.fact
  cases o with
  | some c =>
    obtain ⟨f1, f2, f3, f4, -⟩ := hf
    exact ⟨f1, f2, f3, fun _ => (size_setInUse _ _ _).trans (f4 (by omega)), fun _ => inUse_setInUse _ _ _, by omega⟩
  | none =>
    obtain ⟨f1, f2, f3, f4⟩ := hf
    exact ⟨f1, f2, f3, fun _ => (size_setInUse _ _ _).trans (f4 (by omega))⟩

theorem RaceInv.putNext (hi : RaceInv E A L₀ L σ) (i : Nat) (hp : σ.pc i = .putNext v o b)
    (e : exec E answer σ.sh (.putNext v o b) = some (h', p')) : ∃ L', RaceInv E A L₀ L' (σ.put i h' p') := by
  have hT := hi.each i
  rw [hp] at hT
  obtain ⟨hb, hu⟩ := hT.fact.raw_block
  have hmine : (view (σ.pc i)).own = some b := by rw [hp]; rfl
  have hf := hT.fact
  cases o with
  | some c =>
    cases e
    obtain ⟨f1, f2, f3, f4, f5, -⟩ := hf
    refine ⟨L, hi.writeRaw i hmine hu (hi.shared.writes_next 0 hb hu) hT.locals ?_ rfl⟩
    exact ⟨f1, f2, f3, fun _ => (size_setNext _ _ _).trans (f4 (by omega)),
      fun _ => (inUse_setNext _ _ _).trans (f5 (by omega)), fun _ => next_setNext _ _ _⟩
  | none =>
    cases e
    obtain ⟨f1, f2, f3, f4⟩ := hf
    refine ⟨L, hi.writeRaw i hmine hu (hi.shared.writes_next 0 hb hu) trivial ?_ rfl⟩
    exact Or.inr ⟨f1, f2, f3, (size_setNext _ _ _).trans (f4 (by omega))⟩

/-- A list has a block, so neither its head nor its tail is NULL. -/
theorem ListsOk.head_tail_ne (hG : ListsOk E A L₀ L h) (c : Cls) :
    recHead h.mem (A.list c) ≠ 0 ∧ recTail h.mem (A.list c) ≠ 0 := by
  have hch := hG.chain c
  have ht := hG.tail c
  constructor
  · intro h0
    have hnil : Linked (next h.mem) 0 [] := rfl
    rw [h0] at hch
    rw [hch.unique hnil] at ht
    cases ht
  · intro h0
    rw [h0] at ht
    exact hch.ne_zero ht

theorem RaceInv.freeTest (hi : RaceInv E A L₀ L σ) (i : Nat) {ptr : Nat} (hp : σ.pc i = .freeTest ptr)
    (e : exec E answer σ.sh (.freeTest ptr) = some (h', p')) : ∃ L', RaceInv E A L₀ L' (σ.put i h' p') := by
  have hT := hi.each i
  rw [hp] at hT
  simp only [Threads.exec] at e
  split at e <;> cases e
  · exact hi.free i trivial trivial rfl
  · rename_i hne
    have hv : view (.freeTest ptr) = .freeing (headerOf ptr) := by simp [view, hne]
    have hf := hT.fact
    rw [hv] at hf
    exact hi.keeps hp trivial hf (by rw [hv]; rfl)

theorem RaceInv.freeCopy (hi : RaceInv E A L₀ L σ) (i : Nat) {ptr : Nat} (hp : σ.pc i = .freeCopy ptr) :
    ∃ L', RaceInv E A L₀ L' (σ.put i σ.sh (.freePick (active E σ.sh.st) (headerOf ptr) .c64)) := by
  have hG := hi.shared
  have hT := hi.each i
  rw [hp] at hT
  have hf : Freeing σ.sh.st L (headerOf ptr) := hT.fact
  refine hi.keeps hp hG.arena ⟨hf, ?_⟩ rfl
  show 0 < size σ.sh.st.mem (headerOf ptr)
  rcases hf with ⟨c, hb⟩ | ⟨-, -, hz⟩
  · have := (hG.blocks c _ hb).2
    rw [Sh.mem] at this
    rw [this]
    cases c <;> decide
  · omega

theorem RaceInv.freePick (hi : RaceInv E A L₀ L σ) (i : Nat) {A' : Arena} (hp : σ.pc i = .freePick A' b c)
    (e : exec E answer σ.sh (.freePick A' b c) = some (h', p')) : ∃ L', RaceInv E A L₀ L' (σ.put i h' p') := by
  have hG := hi.shared
  have hT := hi.each i
  rw [hp] at hT
  have hA : A' = A := hT.locals
  subst hA
  obtain ⟨hf, hb⟩ := hT.fact
  simp only [Threads.exec] at e
  have hb : below c < size σ.sh.mem b := hb
  rcases hG.afterPick_cases hb with hc | ⟨c', hc, hb'⟩ <;> rw [hc] at e
  · rcases hf with ⟨c', hbc⟩ | ⟨hm, hu, hz⟩
    · have hz : classOf (size σ.sh.mem b) = some c' := by rw [(hG.blocks c' b hbc).2]; exact classOf_bytes c'
      rw [hz] at e
      cases e
      exact hi.keeps hp rfl ⟨c', hbc⟩ rfl
    · have hz : classOf (size σ.sh.mem b) = none := classOf_none.mpr hz
      rw [hz] at e
      cases e
      exact hi.keeps hp trivial ⟨hm, hu⟩ rfl
  · cases e
    exact hi.keeps hp rfl ⟨hf, hb'⟩ rfl

theorem RaceInv.clearAgain (hi : RaceInv E A L₀ L σ) (i : Nat) (hp : σ.pc i = .clearAgain b)
    (hfree : inUse σ.sh.mem b = 0) :
    RaceInv E A L₀ L (σ.put i (σ.sh.write (setInUse σ.sh.mem b 0)) .freeUnlock) := by
  have hT := hi.each i
  rw [hp] at hT
  obtain ⟨c, hb⟩ := hT.fact
  obtain ⟨hheld, hothers⟩ := hi.clear_free hb hfree
  exact hi.write i (hi.shared.writes_listed 0 hb) hheld (fun q hq _ => hothers q hq) trivial trivial (View.own_none rfl)

end Statements

theorem RaceInv.exec {answer : Option Nat} (hi : RaceInv E A L₀ L σ) (i : Nat) (hlegal : Legal E σ (.run i answer))
    (hrace : NoRace σ (.run i answer)) (e : exec E answer σ.sh (σ.pc i) = some (h', p')) :
    ∃ L', RaceInv E A L₀ L' (σ.put i h' p') := by
  have hG := hi.shared
  have hT := hi.each i
  simp only [NoRace] at hrace
  cases hp : σ.pc i with
  | idle => rw [hp] at e; cases e
  | initLock s => rw [hp] at hT; exact hT.fact.elim
  | setLockInit s => rw [hp] at hT; exact hT.fact.elim
  | init s k => rw [hp] at hT; exact hT.fact.elim
  | setInit s => rw [hp] at hT; exact hT.fact.elim
  | setHead v c b => rw [hp] at hT; exact hT.fact.elim
  | testLockInit s =>
    rw [hp] at hT e
    simp only [Threads.exec, hG.lockInit, if_true] at e
    cases e
    exact hi.free i hT.locals trivial rfl
  | lockGlobal s =>
    rw [hp] at hT e
    simp only [Threads.exec] at e
    split at e <;> cases e
    exact hi.free i hT.locals trivial rfl
  | testInit s =>
    rw [hp] at hT e
    simp only [Threads.exec, hG.ready, if_true] at e
    cases e
    exact hi.free i hT.locals trivial rfl
  | unlockGlobal s => rw [hp] at hT e; cases e; exact hi.free i hT.locals trivial rfl
  | copy s => rw [hp] at hT e; cases e; exact hi.free i ⟨hG.arena, hT.locals⟩ trivial rfl
  | testSize v =>
    rw [hp] at hT e
    obtain ⟨h1, h2⟩ := hT.locals
    simp only [Threads.exec] at e
    split at e <;> cases e
    · exact hi.free i trivial trivial rfl
    · exact hi.free i ⟨h1, h2, by omega⟩ trivial rfl
  | lock v =>
    rw [hp] at hT e
    simp only [Threads.exec] at e
    split at e <;> cases e
    exact hi.free i hT.locals trivial rfl
  | pick v c => rw [hp] at e; exact hi.pick i hp e
  | head v o =>
    rw [hp] at hT e
    obtain ⟨h1, h2, h3, rfl⟩ := hT.locals
    cases e
    refine hi.free i ⟨h1, h2, h3⟩ ?_ rfl
    rw [h1]
    exact hG.head_cursor v.s
  | walk v curr =>
    rw [hp] at hT e
    simp only [Threads.exec] at e
    obtain ⟨h1, h2, h3⟩ := hT.locals
    split at e <;> cases e
    · rename_i hne
      exact hi.free i hT.locals (hT.fact.resolve_left hne) rfl
    · exact hi.free i ⟨h1, h2, h3⟩ (Or.inl rfl) rfl
  | test v curr =>
    rw [hp] at hT e
    simp only [Threads.exec] at e
    obtain ⟨h1, h2, h3⟩ := hT.locals
    split at e <;> cases e
    · exact hi.free i ⟨h1, h2, h3⟩ (Or.inr hT.fact) rfl
    · exact hi.free i hT.locals hT.fact rfl
  | advance v curr =>
    rw [hp] at hT e
    cases e
    obtain ⟨c, hs, hb⟩ := hT.fact
    refine hi.free i hT.locals ?_ rfl
    rcases (hG.chain c).next_mem hb with h | h
    · exact Or.inl h
    · exact Or.inr ⟨c, hs, h⟩
  | order v b c => rw [hp] at e; exact hi.order i hp e
  | testFound v header c =>
    rw [hp] at hT e
    obtain ⟨h1, h2⟩ := hT.locals
    simp only [Threads.exec] at e
    split at e <;> cases e
    · rename_i hne
      exact hi.free i trivial (hT.fact.resolve_left hne) rfl
    · exact hi.free i ⟨h1, h2, by rw [h1, hG.bytes]⟩ trivial rfl
  | mark v b => rw [hp] at e hrace; cases e; exact ⟨L, hi.mark i hp hrace⟩
  | unlockFound v b => rw [hp] at hT e; cases e; exact hi.keeps hp trivial hT.fact rfl
  | lockSbrk v c n =>
    rw [hp] at hT e
    simp only [Threads.exec] at e
    split at e <;> cases e
    exact hi.free i hT.locals trivial rfl
  | sbrk v c n => rw [hp] at e; exact hi.callSbrk i hp e
  | unlockSbrk v c blk =>
    rw [hp] at hT e
    cases e
    cases blk with
    | none => exact hi.free i hT.locals trivial rfl
    | some b => exact hi.keeps hp hT.locals hT.fact rfl
  | check v c blk => rw [hp] at e; exact hi.check i hp e
  | mmap v => rw [hp] at e; exact hi.callMmap i hp hlegal e
  | testMap v blk =>
    rw [hp] at hT e
    cases blk with
    | none => cases e; exact hi.free i trivial trivial rfl
    | some b => cases e; exact hi.keeps hp hT.locals hT.fact rfl
  | unlockFail v => rw [hp] at e; cases e; exact hi.free i trivial trivial rfl
  | putSize v o b => rw [hp] at e; exact hi.putSize i hp e
  | putInUse v o b => rw [hp] at e; cases e; exact ⟨L, hi.putInUse i hp⟩
  | putNext v o b => rw [hp] at e; exact hi.putNext i hp e
  | testHead v c b =>
    rw [hp] at hT e
    have hA : v.A = A := hT.locals
    simp only [Threads.exec, hA, if_neg (hG.head_tail_ne c).1] at e
    cases e
    exact hi.keeps hp hT.locals hT.fact rfl
  | testTail v c b =>
    rw [hp] at hT e
    have hA : v.A = A := hT.locals
    simp only [Threads.exec, hA, if_pos (hG.head_tail_ne c).2] at e
    cases e
    exact hi.keeps hp hT.locals hT.fact rfl
  | linkTail v c b =>
    rw [hp] at hT e hrace
    have hA : v.A = A := hT.locals
    simp only [hA] at hrace
    simp only [Threads.exec, hA] at e
    cases e
    exact ⟨_, hi.linkTail i hp hrace⟩
  | setTail v c b =>
    rw [hp] at hT e
    have hA : v.A = A := hT.locals.1
    simp only [Threads.exec, hA] at e
    cases e
    exact ⟨L, hi.setTail i hp⟩
  | unlockList v b => rw [hp] at hT e; cases e; exact hi.keeps hp trivial hT.fact rfl
  | unlockLast v b => rw [hp] at hT e; cases e; exact hi.keeps hp trivial hT.fact rfl
  | ret v b => rw [hp] at e; cases e; exact ⟨L, hi.ret i hp⟩
  | freeTest ptr => rw [hp] at e; exact hi.freeTest i hp e
  | freeCopy ptr => rw [hp] at e; cases e; exact hi.freeCopy i hp
  | freePick A' b c => rw [hp] at e; exact hi.freePick i hp e
  | freeHead A' b c => rw [hp] at hT e; cases e; exact hi.keeps hp trivial hT.fact rfl
  | freeWalk b curr =>
    rw [hp] at hT e
    simp only [Threads.exec] at e
    split at e <;> cases e <;> exact hi.keeps hp trivial hT.fact rfl
  | freeAdvance b curr => rw [hp] at hT e; cases e; exact hi.keeps hp trivial hT.fact rfl
  | freeFound b curr =>
    rw [hp] at hT e
    simp only [Threads.exec] at e
    split at e <;> cases e
    · rename_i hc
      exact hi.keeps hp hc hT.fact rfl
    · exact hi.free i trivial trivial rfl
  | clear b curr =>
    rw [hp] at hT e
    have hc : curr = b := hT.locals
    subst hc
    cases e
    obtain ⟨c, hb⟩ := hT.fact
    exact ⟨L, hi.writeOwn i (by rw [hp]; rfl) (hG.writes_listed 0 hb) trivial ⟨c, hb⟩ (View.own_none rfl)⟩
  | clearAgain b => rw [hp] at e hrace; cases e; exact ⟨L, hi.clearAgain i hp hrace⟩
  | freeUnlock => rw [hp] at e; cases e; exact hi.free i trivial trivial rfl
  | clearMap b =>
    rw [hp] at hT e
    cases e
    obtain ⟨⟨n, hm⟩, hu⟩ := hT.fact
    exact ⟨L, hi.writeRaw i (by rw [hp]; rfl) hu (hG.writes_inUse 0 (Or.inr ⟨n, hm⟩)) trivial ⟨⟨n, hm⟩, hu⟩ rfl⟩
  | unmap b => rw [hp] at e; cases e; exact ⟨L, hi.unmap i hp⟩

theorem RaceInv.step {ev : Ev} {τ : Sys Sh Pc} (hi : RaceInv E A L₀ L σ) (hl : Legal E σ ev) (hn : NoRace σ ev)
    (h : Threads.step E σ ev = some τ) : ∃ L', RaceInv E A L₀ L' τ := by
  cases ev with
  | run i answer =>
    simp only [Threads.step, Option.map_eq_some_iff] at h
    obtain ⟨r, hr, rfl⟩ := h
    exact hi.exec i hl hn hr
  | call i c =>
    simp only [Threads.step] at h
    split at h
    · cases c with
      | malloc s => cases h; exact hi.free i (g := σ.sh.globalLock) hl trivial rfl
      | free ptr => cases h; exact ⟨L, hi.giveBack i hl⟩
    · cases h

/-! ## Runs -/

theorem ready_inv {st : St} (hi : Arenas.Inv E st L) (hlive : st.live = []) (hne : ∀ c, L c ≠ []) :
    RaceInv E (active E st) L L (ready st) := by
  have hA := hi.arena
  refine ⟨⟨hi.layout, hi.ready, rfl, rfl, fun c => (hA.classes c).record, fun c => (hA.classes c).sizeOf,
    fun c => (hA.classes c).list.linked, fun c => ?_, hA.overMem, hA.overHead, hA.over_ne,
    fun c b hb => ⟨((hA.classes c).blocks b hb).1, ((hA.classes c).blocks b hb).2.1⟩, fun c b hb => hb,
    fun x hx => absurd hx List.not_mem_nil, hi.nodup, ?_⟩,
    fun i => ⟨trivial, trivial, View.own_none rfl⟩, fun i j _ => View.own_none rfl⟩
  · show recTail st.mem _ ∈ L c
    rw [(hA.classes c).list.tail, List.getLast?_eq_some_getLast (hne c)]
    exact List.getLast_mem (hne c)
  · intro x hx
    rw [show (ready st).sh.st.live = [] from hlive] at hx
    cases hx

theorem boot_ready {st : St} (hboot : boot E = some st) :
    ∃ L, Arenas.Inv E st L ∧ RaceInv E (active E st) L L (ready st) := by
  obtain ⟨L, hi, hpool⟩ := boot_inv hboot
  refine ⟨L, hi, ready_inv hi (boot_ok hboot).2.1 fun c e => ?_⟩
  have := hpool c
  rw [e] at this
  cases c <;> cases this

theorem threads_exclude {st₀ : St} (hboot : boot E = some st₀) (evs : List Ev)
    (hl : ∀ x ∈ trail (step E) (ready st₀) evs, Legal E x.1 x.2)
    (hn : ∀ x ∈ trail (step E) (ready st₀) evs, NoRace x.1 x.2) {σ : Sys Sh Pc}
    (h : after (step E) (ready st₀) evs = some σ) :
    (held σ.sh.st).Nodup ∧
      ∀ c b, ((c, b) ∈ σ.sh.linked ∨ Reaches (next st₀.mem) (recHead st₀.mem ((active E st₀).list c)) b) →
        Reaches (next σ.sh.mem) (recHead σ.sh.mem ((active E σ.sh.st).list c)) b := by
  obtain ⟨L₀, hi₀, hready⟩ := boot_ready hboot
  obtain ⟨L, hi⟩ := after_inv (fun σ => ∃ L, RaceInv E (active E st₀) L₀ L σ) (fun σ ev => Legal E σ ev ∧ NoRace σ ev)
    (fun σ ev τ hi hok hs => hi.elim fun L hi => hi.step hok.1 hok.2 hs) evs (ready st₀) σ ⟨L₀, hready⟩
    (fun x hx => ⟨hl x hx, hn x hx⟩) h
  have hG := hi.shared
  refine ⟨hG.nodup, fun c b hb => ?_⟩
  rw [hG.arena, (hG.chain c).reaches_iff]
  rcases hb with hb | hb
  · exact hG.linked _ hb
  · rw [(hi₀.arena.classes c).list.linked.reaches_iff] at hb
    exact hG.base c b hb

/-! ## Two threads, one block -/

/-- A thread calls `mymalloc(8)` and goes up to `header->in_use = 1`. -/
def search8 (i : Nat) : List Ev := .call i (.malloc 8) :: List.replicate 13 (.run i none)

/-- A thread in its call finds the first block taken, and goes up to `header->in_use = 1` of the second. -/
def pass8 (i : Nat) : List Ev := List.replicate 16 (.run i none)

/-- The store, the unlock and the return. -/
def take8 (i : Nat) : List Ev := List.replicate 3 (.run i none)

/-- `b` is free and the first of its list, and no mutex is held. -/
structure FirstFree (E : Env) (h : Sh) (b : Nat) : Prop where
  ready : h.st.arenaInitializer = true
  lockInit : h.gLockInit = true
  unlocked : h.globalLock = false
  listUnlocked : h.locks (E.nprocs % procs) = false
  bytes : recSize h.mem ((active E h.st).list .c64) = 64
  head : recHead h.mem ((active E h.st).list .c64) = b
  block : b ≠ 0 ∧ inUse h.mem b = 0 ∧ size h.mem b = 64

/-- The first block `a` of the list is taken, the second one, `b`, is free, and no mutex is held. -/
structure SecondFree (E : Env) (h : Sh) (a b : Nat) : Prop where
  ready : h.st.arenaInitializer = true
  lockInit : h.gLockInit = true
  unlocked : h.globalLock = false
  listUnlocked : h.locks (E.nprocs % procs) = false
  bytes : recSize h.mem ((active E h.st).list .c64) = 64
  head : recHead h.mem ((active E h.st).list .c64) = a
  taken : a ≠ 0 ∧ inUse h.mem a = 1
  second : next h.mem a = b
  block : b ≠ 0 ∧ inUse h.mem b = 0 ∧ size h.mem b = 64

/-- A thread that runs alone for `n` steps. -/
def solo (E : Env) : Nat → Sh → Pc → Option (Sh × Pc)
  | 0, h, p => some (h, p)
  | n + 1, h, p =>
    match exec E none h p with
    | some (h, p) => solo E n h p
    | none => none

theorem after_solo (σ : Sys Sh Pc) (i n : Nat) (hs : solo E n σ.sh (σ.pc i) = some (h', p')) :
    after (step E) σ (List.replicate n (.run i none)) = some (σ.put i h' p') := by
  induction n generalizing σ with
  | zero =>
    cases hs
    simp [after, Sys.put]
  | succ n ih =>
    simp only [solo] at hs
    split at hs
    · rename_i h₁ p₁ he
      have := @ih (σ.put i h₁ p₁) (by rw [σ.put_pc_same]; exact hs)
      simp only [List.replicate, after, step, he, Option.map_some]
      rw [this, σ.put_put]
    · cases hs

/-- A thread has locked and unlocked `global_lock`. -/
theorem Sh.unlocked_eq {h : Sh} (hinit : h.gLockInit = true) (hfree : h.globalLock = false) :
    (⟨h.st, true, false, h.locks, h.entered, h.returned, h.linked⟩ : Sh) = h := by
  rw [← hinit, ← hfree]

theorem search8_run (σ : Sys Sh Pc) {i b : Nat} (hp : σ.pc i = .idle) (hf : FirstFree E σ.sh b) :
    after (step E) σ (search8 i) = some (σ.put i σ.sh (.mark ⟨8, active E σ.sh.st, true⟩ b)) := by
  have hsolo : solo E 13 σ.sh (.testLockInit 8) = some (σ.sh, .mark ⟨8, active E σ.sh.st, true⟩ b) := by
    obtain ⟨h1, h2, h3, h4, h5, h6, h7, h8, h9⟩ := hf
    simp only [Sh.mem] at h5 h6 h8 h9
    simp [solo, exec, Sh.mem, h1, h2, h3, h4, afterPick, h5, recordOf, h6, h7, fits, h8, h9]
    exact Sh.unlocked_eq h2 h3
  have := after_solo (σ.put i σ.sh (.testLockInit 8)) i 13 (by rw [σ.put_pc_same]; exact hsolo)
  simp only [search8, after, step, hp]
  rw [this, σ.put_put]

theorem pass8_run (σ : Sys Sh Pc) {i a b : Nat} (hp : σ.pc i = .testLockInit 8) (hf : SecondFree E σ.sh a b) :
    after (step E) σ (pass8 i) = some (σ.put i σ.sh (.mark ⟨8, active E σ.sh.st, true⟩ b)) := by
  refine after_solo σ i 16 ?_
  obtain ⟨h1, h2, h3, h4, h5, h6, ⟨h7, h8⟩, h9, h10, h11, h12⟩ := hf
  simp only [Sh.mem] at h5 h6 h8 h9 h11 h12
  rw [hp]
  simp [solo, exec, Sh.mem, h1, h2, h3, h4, afterPick, h5, recordOf, h6, h7, fits, h8, h9, h10, h11, h12]
  exact Sh.unlocked_eq h2 h3

theorem take8_run (σ : Sys Sh Pc) {i b : Nat} {v : Frame} (hp : σ.pc i = .mark v b) :
    after (step E) σ (take8 i) = some (σ.put i { σ.sh with st := { σ.sh.st with
      mem := setInUse σ.sh.mem b 1, live := (payload b, v.s) :: σ.sh.st.live } } .idle) :=
  after_solo σ i 3 (by rw [hp]; rfl)

theorem ready_firstFree {st : St} {b : Nat} {l : List Nat} (hi : Arenas.Inv E st L) (hlive : st.live = [])
    (hL : L .c64 = b :: l) : FirstFree E (ready st).sh b := by
  have hc := hi.arena.classes .c64
  have hlink := hc.list.linked
  rw [hL] at hlink
  obtain ⟨-, hz, hu⟩ := hc.blocks b (by rw [hL]; exact List.mem_cons_self ..)
  refine ⟨hi.ready, rfl, rfl, rfl, hc.sizeOf, hlink.1, hlink.2.1, ?_, hz⟩
  show inUse st.mem b = 0
  rw [hu, hlive]
  simp

theorem reuse_secondFree {st : St} {a b : Nat} {l : List Nat} (hi : Arenas.Inv E st L) (hlive : st.live = [])
    (hL : L .c64 = a :: b :: l) : SecondFree E { (ready st).sh with st := reuse st 8 a } a b := by
  have hi' : Arenas.Inv E (reuse st 8 a) L :=
    hi.reused (c := .c64) rfl (by rw [hL]; exact List.mem_cons_self ..) (by simp [held, hlive])
  have hc := hi'.arena.classes .c64
  have hlink := hc.list.linked
  have hnd := hlink.nodup
  rw [hL] at hlink hnd
  obtain ⟨-, -, hua⟩ := hc.blocks a (by rw [hL]; exact List.mem_cons_self ..)
  obtain ⟨-, hz, hub⟩ := hc.blocks b (by rw [hL]; exact List.mem_cons_of_mem _ (List.mem_cons_self ..))
  have hne : payload b ≠ payload a := by
    intro e
    rw [payload_inj e] at hnd
    simp at hnd
  refine ⟨hi'.ready, rfl, rfl, rfl, hc.sizeOf, hlink.1, ⟨hlink.2.1, ?_⟩, hlink.2.2.1, hlink.2.2.2.1, ?_, hz⟩
  · show inUse (reuse st 8 a).mem a = 1
    rw [hua]
    simp [reuse]
  · show inUse (reuse st 8 a).mem b = 0
    rw [hub]
    simp [reuse, hlive, hne]

/-- The first two blocks of the list of 64 bytes. -/
theorem boot_two {st : St} (hboot : boot E = some st) : ∃ L a b l, Arenas.Inv E st L ∧ st.live = [] ∧ L .c64 = a :: b :: l := by
  obtain ⟨L, hi, hpool⟩ := boot_inv hboot
  have hlen := hpool .c64
  obtain ⟨a, b, l, hL⟩ : ∃ a b l, L .c64 = a :: b :: l := by
    match hl : L .c64 with
    | [] => rw [hl] at hlen; cases hlen
    | [_] => rw [hl] at hlen; cases hlen
    | a :: b :: l => exact ⟨a, b, l, rfl⟩
  exact ⟨L, a, b, l, hi, (boot_ok hboot).2.1, hL⟩

theorem legal_of_none {evs : List Ev} (h : ∀ ev ∈ evs, (∃ i, ev = .call i (.malloc 8)) ∨ ∃ i, ev = .run i none) :
    ∀ x ∈ trail (step E) σ evs, Legal E x.1 x.2 := by
  intro x hx
  rcases h _ (mem_of_mem_trail hx) with ⟨i, e⟩ | ⟨i, e⟩ <;> rw [e]
  · show 8 < 2 ^ 64
    decide
  · intro v header _ h
    cases h

/-- Both threads find the first block before either marks it. -/
def twice : List Ev := search8 0 ++ (search8 1 ++ (take8 0 ++ take8 1))

theorem same_block_twice : ∃ st₀ σ, boot ample = some st₀ ∧
    (∀ x ∈ trail (step ample) (ready st₀) twice, Legal ample x.1 x.2) ∧
    after (step ample) (ready st₀) twice = some σ ∧ ¬ (held σ.sh.st).Nodup := by
  obtain ⟨st₀, hboot, -⟩ := ample_boots
  obtain ⟨L, b, _, l, hi, hlive, hL⟩ := boot_two hboot
  have hf := ready_firstFree hi hlive hL
  have h0 := search8_run (ready st₀) (i := 0) rfl hf
  generalize hσ₁ : (ready st₀).put 0 (ready st₀).sh (.mark ⟨8, active ample (ready st₀).sh.st, true⟩ b) = σ₁ at h0
  have h1 := search8_run σ₁ (i := 1) (b := b) (by rw [← hσ₁]; rfl) (by rw [← hσ₁]; exact hf)
  generalize hσ₂ : σ₁.put 1 σ₁.sh (.mark ⟨8, active ample σ₁.sh.st, true⟩ b) = σ₂ at h1
  have h2 := take8_run (E := ample) σ₂ (i := 0) (b := b) (by rw [← hσ₂, ← hσ₁]; rfl)
  have h3 := take8_run (E := ample) _ (i := 1) (b := b)
    (by rw [Sys.put_pc_ne _ _ _ (by decide : 1 ≠ 0), ← hσ₂, Sys.put_pc_same] :
      (σ₂.put 0 { σ₂.sh with st := { σ₂.sh.st with
        mem := setInUse σ₂.sh.mem b 1, live := (payload b, 8) :: σ₂.sh.st.live } } .idle).pc 1 = _)
  refine ⟨st₀, _, hboot, legal_of_none (by simp [twice, search8, take8, List.replicate]),
    (after_append h0 _).trans ((after_append h1 _).trans ((after_append h2 _).trans h3)), ?_⟩
  simp [held]

/-- A thread that runs alone for `n` steps meets nobody. -/
def calm (E : Env) : Nat → Sh → Pc → Prop
  | 0, _, _ => True
  | n + 1, h, p => NoRace ⟨h, fun _ => p⟩ (.run 0 none) ∧
    match exec E none h p with
    | some (h, p) => calm E n h p
    | none => True

theorem noRace_of_calm (σ : Sys Sh Pc) (i n : Nat) (hc : calm E n σ.sh (σ.pc i)) :
    ∀ x ∈ trail (step E) σ (List.replicate n (.run i none)), NoRace x.1 x.2 := by
  induction n generalizing σ with
  | zero => intro x hx; cases hx
  | succ n ih =>
    obtain ⟨hfirst, hrest⟩ := hc
    rw [List.replicate_succ]
    cases he : exec E none σ.sh (σ.pc i) with
    | none =>
      rw [trail_stop (step E) (by rw [step, he]; rfl), List.forall_mem_singleton]
      exact hfirst
    | some r =>
      rw [he] at hrest
      have hs : step E σ (.run i none) = some (σ.put i r.1 r.2) := by rw [step, he]; rfl
      rw [trail_cons (step E) hs, List.forall_mem_cons]
      exact ⟨hfirst, ih _ (by rw [σ.put_pc_same]; exact hrest)⟩

/-- Both threads have called; thread 0 goes through its call, and then thread 1, which takes the next block. -/
def inTurn : List Ev := .call 1 (.malloc 8) :: (search8 0 ++ take8 0) ++ (pass8 1 ++ take8 1)

theorem threads_exclude_calls : ∃ st₀ σ, boot ample = some st₀ ∧
    after (step ample) (ready st₀) inTurn = some σ ∧ σ.pc 0 = .idle ∧ σ.pc 1 = .idle ∧ (held σ.sh.st).length = 2 ∧
    (held σ.sh.st).Nodup := by
  obtain ⟨st₀, hboot, -⟩ := ample_boots
  obtain ⟨L, a, b, l, hi, hlive, hL⟩ := boot_two hboot
  -- thread 0, with thread 1 at its first statement
  generalize hσ : (ready st₀).put 1 (ready st₀).sh (.testLockInit 8) = σ
  have hsh : σ.sh = (ready st₀).sh := by rw [← hσ]; rfl
  have hidle : σ.pc 0 = .idle := by rw [← hσ]; rfl
  have hcall1 : step ample (ready st₀) (.call 1 (.malloc 8)) = some σ := by rw [← hσ]; rfl
  have hcall0 : step ample σ (.call 0 (.malloc 8)) = some (σ.put 0 σ.sh (.testLockInit 8)) := by
    rw [step, hidle]
  have hf : FirstFree ample σ.sh a := by
    rw [hsh]
    exact ready_firstFree hi hlive hL
  have hcalm : calm ample 16 σ.sh (.testLockInit 8) := by
    obtain ⟨h1, h2, h3, h4, h5, h6, h7, h8, h9⟩ := hf
    simp only [Sh.mem] at h5 h6 h8 h9
    simp [calm, NoRace, exec, Sh.mem, h1, h2, h3, h4, afterPick, h5, recordOf, h6, h7, fits, h8, h9]
  have htake0 := take8_run (E := ample) _ (i := 0) (b := a)
    (by rw [Sys.put_pc_same] : (σ.put 0 σ.sh (.mark ⟨8, active ample σ.sh.st, true⟩ a)).pc 0 = _)
  have hin : after (step ample) (ready st₀) (.call 1 (.malloc 8) :: (search8 0 ++ take8 0)) =
      after (step ample) σ (search8 0 ++ take8 0) := by
    rw [after, hcall1]
  have hfirst := hin.trans ((after_append (search8_run σ hidle hf) _).trans htake0)
  -- thread 1 finds the first block taken
  generalize hτ : (σ.put 0 σ.sh (.mark ⟨8, active ample σ.sh.st, true⟩ a)).put 0 _ .idle = τ at hfirst
  have hτsh : τ.sh = { (ready st₀).sh with st := reuse st₀ 8 a } := by
    rw [← hτ, Sys.put_sh, Sys.put_sh, hsh]
    rfl
  have hτ0 : τ.pc 0 = .idle := by rw [← hτ, Sys.put_pc_same]
  have hτ1 : τ.pc 1 = .testLockInit 8 := by
    rw [← hτ, Sys.put_pc_ne _ _ _ (by decide), Sys.put_pc_ne _ _ _ (by decide), ← hσ, Sys.put_pc_same]
  have hg : SecondFree ample τ.sh a b := by
    rw [hτsh]
    exact reuse_secondFree hi hlive hL
  have hcalm1 : calm ample 19 τ.sh (.testLockInit 8) := by
    obtain ⟨h1, h2, h3, h4, h5, h6, ⟨h7, h8⟩, h9, h10, h11, h12⟩ := hg
    simp only [Sh.mem] at h5 h6 h8 h9 h11 h12
    simp [calm, NoRace, exec, Sh.mem, h1, h2, h3, h4, afterPick, h5, recordOf, h6, h7, fits, h8, h9, h10, h11, h12]
  have htake1 := take8_run (E := ample) _ (i := 1) (b := b)
    (by rw [Sys.put_pc_same] : (τ.put 1 τ.sh (.mark ⟨8, active ample τ.sh.st, true⟩ b)).pc 1 = _)
  have hrun : after (step ample) (ready st₀) inTurn = _ :=
    (after_append hfirst _).trans ((after_append (pass8_run τ hτ1 hg) _).trans htake1)
  refine ⟨st₀, _, hboot, hrun, ?_, Sys.put_pc_same .., ?_, (threads_exclude hboot inTurn
    (legal_of_none (by simp [inTurn, search8, take8, pass8, List.replicate])) ?_ hrun).1⟩
  · rw [Sys.put_pc_ne _ _ _ (by decide), Sys.put_pc_ne _ _ _ (by decide), hτ0]
  · simp [held, hτsh, reuse, hlive]
  · rw [inTurn, trail_append hfirst, List.forall_mem_append, trail_cons _ hcall1, List.forall_mem_cons, search8,
      List.cons_append, trail_cons _ hcall0, List.forall_mem_cons, take8, List.replicate_append_replicate, pass8, take8,
      List.replicate_append_replicate]
    refine ⟨⟨trivial, trivial, noRace_of_calm _ 0 16 ?_⟩, noRace_of_calm _ 1 19 ?_⟩
    · rw [σ.put_pc_same]
      exact hcalm
    · rw [hτ1]
      exact hcalm1

end CS5600.Alloc.Threads
