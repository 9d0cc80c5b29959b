/-
  CS5600.Alloc.ThreadsAlone — a call that runs alone: the statements it goes through, one by one
  (see `CS5600.Alloc.Threads`), and that it does what `CS5600.Alloc.Arenas` says it does.

  The first `mymalloc` of a process runs `initialize_arena` and is then where every later one
  starts (`boot_path`, `rest_path`). `Course` lists what a `mymalloc` can do from there: return
  NULL for a request of 0 bytes, take a block of its list, append one, map one, or fail to get
  memory, where the branch of 64 bytes crashes. `mymalloc_course` is that it takes one of them
  and `Course.result` what `Arenas.malloc` answers in each; `myfree_path` is the same for
  `myfree`.

  `Reach`: the states between the calls of a process whose calls run one at a time. Proved
  (`Reach.rest`): if the initialisation succeeds, such a state is the one before the first call,
  or no mutex is held in it and the lists are as `Arenas.Inv` says.
-/

import CS5600.Alloc.Threads

namespace CS5600.Alloc.Threads

open CS5600.Lib.Bytes CS5600.Lib.Chains CS5600.Lib.Interleave CS5600.Alloc.Block CS5600.Alloc.FreeList
open CS5600.Alloc.Arenas

variable {E : Env} {answer : Option Nat} {h : Sh} {s : Nat}

/-! ## Appending to a list -/

/-- The statements that append a block, the last one apart: `mymalloc` and `initialize_arena`
    have the same ones. -/
theorem link_path (answer : Option Nat) (r header : Nat) (testHead setHead testTail linkTail setTail : Pc)
    (h1 : exec E answer h testHead = some (h, if recHead h.mem r = 0 then setHead else testTail))
    (h2 : exec E answer h setHead = some (h.write (setRecHead h.mem r header), testTail))
    (h3 : ∀ m, exec E answer (h.write m) testTail = some (h.write m, if recTail m r ≠ 0 then linkTail else setTail))
    (h4 : ∀ m, exec E answer (h.write m) linkTail = some (h.write (setNext m (recTail m r) header), setTail)) :
    ∃ ps m, Path (exec E answer) h testHead ps (h.write m) setTail ∧
      setRecTail m r header = link h.mem r header ∧ ∀ p ∈ ps, p ∈ [testHead, setHead, testTail, linkTail] := by
  obtain ⟨ps, hp, hps⟩ : ∃ ps, Path (exec E answer) h testHead ps
      (h.write (if recHead h.mem r = 0 then setRecHead h.mem r header else h.mem)) testTail ∧
      ∀ p ∈ ps, p ∈ [testHead, setHead] := by
    by_cases e : recHead h.mem r = 0
    · rw [if_pos e] at h1 ⊢
      exact ⟨_, .cons h1 (.cons h2 (.nil _ _)), by simp⟩
    · rw [if_neg e] at h1 ⊢
      exact ⟨_, .cons h1 (.nil _ _), by simp⟩
  generalize hm : (if recHead h.mem r = 0 then setRecHead h.mem r header else h.mem) = m at hp
  obtain ⟨qs, hq, hqs⟩ : ∃ qs, Path (exec E answer) (h.write m) testTail qs
      (h.write (if recTail m r ≠ 0 then setNext m (recTail m r) header else m)) setTail ∧
      ∀ p ∈ qs, p ∈ [testTail, linkTail] := by
    have h3 := h3 m
    by_cases e : recTail m r ≠ 0
    · rw [if_pos e] at h3 ⊢
      exact ⟨_, .cons h3 (.cons (h4 m) (.nil _ _)), by simp⟩
    · rw [if_neg e] at h3 ⊢
      exact ⟨_, .cons h3 (.nil _ _), by simp⟩
  refine ⟨_, _, hp.append hq, by rw [link, hm], fun p hpq => ?_⟩
  rcases List.mem_append.mp hpq with hpq | hpq
  · have := hps p hpq
    simp only [List.mem_cons, List.not_mem_nil, or_false] at this ⊢
    rcases this with e | e <;> simp [e]
  · have := hqs p hpq
    simp only [List.mem_cons, List.not_mem_nil, or_false] at this ⊢
    rcases this with e | e <;> simp [e]

/-! ## `initialize_arena` -/

def Pc.Inits : Pc → Prop
  | .init _ _ => True
  | _ => False

/-- Inside `initialize_arena`, from `k` to `k'`. -/
def InitPath (E : Env) (answer : Option Nat) (s : Nat) (h : Sh) (k : InitAt) (h' : Sh) (k' : InitAt) : Prop :=
  ∃ ps, Path (exec E answer) h (.init s k) ps h' (.init s k') ∧ ∀ p ∈ ps, p.Inits

theorem exec_init {h' : Sh} {k k' : InitAt} (e : initExec E h k = some (h', some k')) :
    exec E answer h (.init s k) = some (h', .init s k') := by
  simp only [exec, e]

theorem InitPath.trans {h₁ h₂ : Sh} {k k₁ k₂ : InitAt} (a : InitPath E answer s h k h₁ k₁)
    (b : InitPath E answer s h₁ k₁ h₂ k₂) : InitPath E answer s h k h₂ k₂ := by
  obtain ⟨ps, hp, hps⟩ := a
  obtain ⟨qs, hq, hqs⟩ := b
  exact ⟨_, hp.append hq, List.forall_mem_append.mpr ⟨hps, hqs⟩⟩

theorem InitPath.step {h' : Sh} {k k' : InitAt} (e : initExec E h k = some (h', some k')) :
    InitPath E answer s h k h' k' :=
  ⟨_, .cons (exec_init e) (.nil _ _), by simp [Pc.Inits]⟩

theorem InitPath.cons {h₁ h₂ : Sh} {k k₁ k₂ : InitAt} (e : initExec E h k = some (h₁, some k₁))
    (b : InitPath E answer s h₁ k₁ h₂ k₂) : InitPath E answer s h k h₂ k₂ := (InitPath.step e).trans b

section Init

variable {i j r curr : Nat} {c : Cls}

theorem init_link (hr : (h.st.freeLists i).list c = r) :
    InitPath E answer s h (.testHead i c j curr) (h.write (link h.mem r curr)) (.pool i c (j + 1)) := by
  subst hr
  obtain ⟨ps, m, hp, hm, hps⟩ := link_path (E := E) (h := h) answer ((h.st.freeLists i).list c) curr
    (.init s (.testHead i c j curr)) (.init s (.setHead i c j curr)) (.init s (.testTail i c j curr))
    (.init s (.linkTail i c j curr)) (.init s (.setTail i c j curr))
    ((exec_init rfl).trans (by rw [apply_ite (Pc.init s)])) rfl
    (fun m => (exec_init rfl).trans (by rw [apply_ite (Pc.init s)]; rfl)) (fun m => rfl)
  rw [← hm]
  refine InitPath.trans ⟨ps, hp, fun p hin => ?_⟩ (.step rfl)
  have := hps p hin
  simp only [List.mem_cons, List.not_mem_nil, or_false] at this
  rcases this with e | e | e | e <;> rw [e] <;> trivial

/-- One round of a pool's loop. -/
theorem init_block (hr : (h.st.freeLists i).list c = r) (hj : j < c.pool) {st₁ : St}
    (hs : Arenas.sbrk E h.st (blockSize + c.bytes) = (some curr, st₁)) :
    InitPath E answer s h (.pool i c j)
      { h with st := { st₁ with
        mem := link (placeHeader st₁.mem curr c.bytes 0) r curr
        blks := (curr, blockSize + c.bytes) :: st₁.blks } } (.pool i c (j + 1)) := by
  have h1 : initExec E h (.pool i c j) = some (h, some (.get i c j)) := by simp only [initExec, hj, if_true]
  have h2 : initExec E h (.get i c j) =
      some ({ h with st := { st₁ with blks := (curr, blockSize + c.bytes) :: st₁.blks } },
        some (.check i c j (some curr))) := by simp only [initExec, hs]
  refine .cons h1 (.cons h2 (.cons rfl (.cons rfl (.cons rfl (.cons rfl (init_link ?_))))))
  obtain ⟨-, -, rfl⟩ := sbrk_some hs
  exact hr

theorem initPool_path (hr : (h.st.freeLists i).list c = r) {n : Nat} (hj : j + n = c.pool) {st' : St}
    (e : initPool E c r n h.st = (true, st')) :
    InitPath E answer s h (.pool i c j) { h with st := st' } (.list i (Cls.succ c)) := by
  induction n generalizing h j with
  | zero =>
    cases e
    refine .step ?_
    simp only [initExec, show ¬ j < c.pool by omega, if_false]
  | succ n ih =>
    simp only [initPool] at e
    split at e
    · cases e
    · rename_i curr st₁ hs
      refine (init_block hr (by omega) hs).trans (ih ?_ (by omega) e)
      obtain ⟨-, -, rfl⟩ := sbrk_some hs
      exact hr

theorem initClass_path {st' : St} (e : initClass E i c h.st = some (true, st')) :
    InitPath E answer s h (.list i (some c)) { h with st := st' } (.list i (Cls.succ c)) := by
  unfold initClass at e
  split at e
  · cases e
  rename_i r st₂ hr
  obtain ⟨st₁, hs, rfl⟩ := initRecord_some hr
  have hlist : ∀ A : Arena, (setList A c r).list c = r := fun A => by simp [setList]
  have h1 : initExec E h (.list i (some c)) = some ({ h with st := { st₁ with
      recs := r :: st₁.recs
      freeLists := Function.update st₁.freeLists i (setList (st₁.freeLists i) c r) } },
      some (.listBytes i (some c))) := by simp only [initExec, hs, setRecord]
  have h2 : initExec E { h with st := { st₁ with
      recs := r :: st₁.recs
      freeLists := Function.update st₁.freeLists i (setList (st₁.freeLists i) c r) } } (.listBytes i (some c)) =
      some ({ h with st := { st₁ with
        mem := setRecSize st₁.mem r c.bytes
        recs := r :: st₁.recs
        freeLists := Function.update st₁.freeLists i (setList (st₁.freeLists i) c r) } }, some (.pool i c 0)) := by
    simp only [initExec, Sh.write, Sh.mem, recordOf, Function.update_self, hlist, bytesOf]
  refine .cons h1 (.cons h2 (initPool_path ?_ (Nat.zero_add _) (Option.some.inj e)))
  simp only [Function.update_self, hlist]

theorem initOver_path {st' : St} (hl : h.locks i = false) (e : initOver E i h.st = some (true, st')) :
    InitPath E answer s h (.list i none) { h with st := st' } (.arenas (i + 1)) := by
  unfold initOver at e
  split at e
  · cases e
  rename_i r st₂ hr
  obtain ⟨st₁, hs, rfl⟩ := initRecord_some hr
  simp only [Option.some.injEq, Prod.mk.injEq, true_and] at e
  subst e
  have h1 : initExec E h (.list i none) = some ({ h with st := { st₁ with
      recs := r :: st₁.recs
      freeLists := Function.update st₁.freeLists i { st₁.freeLists i with over1024 := r } } },
      some (.listBytes i none)) := by simp only [initExec, hs, setRecord]
  have hlocks : Function.update h.locks i false = h.locks := Function.update_eq_self_iff.mpr hl.symm
  refine .cons h1 (.cons rfl (.cons rfl (.cons rfl (.step ?_))))
  simp only [initExec, Sh.write, Sh.mem, recordOf, Function.update_self, bytesOf, hlocks]

theorem initOne_path {st' : St} (hl : h.locks i = false) (e : initOne E i h.st = some (true, st')) :
    InitPath E answer s h (.list i (some .c64)) { h with st := st' } (.arenas (i + 1)) := by
  obtain ⟨st₁, e₁, e⟩ := andThen_some e
  obtain ⟨st₂, e₂, e⟩ := andThen_some e
  obtain ⟨st₃, e₃, e⟩ := andThen_some e
  apply (initClass_path e₁).trans
  apply (initClass_path (h := { h with st := st₁ }) e₂).trans
  apply (initClass_path (h := { h with st := st₂ }) e₃).trans
  exact initOver_path (h := { h with st := st₃ }) hl e

theorem initFrom_path (answer : Option Nat) (hl : ∀ i, h.locks i = false) {n : Nat} (hi : i + n = procs) {st' : St}
    (e : initFrom E i n h.st = some (true, st')) :
    InitPath E answer s h (.arenas i) { h with st := st' } (.arenas procs) := by
  induction n generalizing h i with
  | zero =>
    cases e
    obtain rfl : i = procs := hi
    exact ⟨[], .nil _ _, by simp⟩
  | succ n ih =>
    obtain ⟨st₁, e₁, e⟩ := andThen_some e
    have h1 : initExec E h (.arenas i) = some (h, some (.list i (some .c64))) := by
      simp only [initExec, show i < procs by omega, if_true]
    exact .cons h1 ((initOne_path (hl i) e₁).trans (ih (h := { h with st := st₁ }) hl (by omega) e))

end Init

def booting (s : Nat) : List Pc := [.testLockInit s, .initLock s, .setLockInit s, .lockGlobal s, .testInit s]

def booted (s : Nat) : List Pc := [.setInit s, .unlockGlobal s]

/-- The first `mymalloc`, up to the copy of the arena. -/
theorem boot_path (answer : Option Nat) (s : Nat) {st₀ : St} (hboot : boot E = some st₀) :
    ∃ qs, Path (exec E answer) (cold E).sh (.testLockInit s) (booting s ++ qs ++ booted s) (ready st₀).sh (.copy s) ∧
      ∀ q ∈ qs, q.Inits := by
  obtain ⟨st₁, e, rfl⟩ : ∃ st₁, initializeArena E (start E) = some (true, st₁) ∧
      st₀ = { st₁ with arenaInitializer := true } := by
    unfold boot at hboot
    split at hboot
    · exact ⟨_, ‹_›, by cases hboot; rfl⟩
    · cases hboot
  obtain ⟨qs, hq, hqs⟩ := initFrom_path (s := s) answer
    (h := ⟨start E, true, true, fun _ => false, 1, 0, []⟩) (fun _ => rfl) (Nat.zero_add _) e
  have hinit : exec E answer ⟨st₁, true, true, fun _ => false, 1, 0, []⟩ (.init s (.arenas procs)) =
      some (⟨st₁, true, true, fun _ => false, 1, 1, []⟩, .setInit s) := rfl
  refine ⟨qs ++ [.init s (.arenas procs)], ?_, List.forall_mem_append.mpr ⟨hqs, by simp [Pc.Inits]⟩⟩
  rw [List.append_assoc, List.append_assoc]
  exact .cons rfl (.cons rfl (.cons rfl (.cons rfl (.cons rfl
    (hq.append (.cons hinit (.cons rfl (.cons rfl (.nil _ _)))))))))

/-! ## `mymalloc` up to the mutex of its copy -/

/-- No call is in progress. -/
structure AtRest (E : Env) (h : Sh) : Prop where
  ready : h.st.arenaInitializer = true
  lockInit : h.gLockInit = true
  globalFree : h.globalLock = false
  copyFree : h.locks (E.nprocs % procs) = false

theorem AtRest.unlock_eq (hr : AtRest E h) : { h with globalLock := false } = h := by
  obtain ⟨-, -, hg, -⟩ := hr
  rw [← hg]

def entering (s : Nat) : List Pc := [.testLockInit s, .lockGlobal s, .testInit s, .unlockGlobal s]

/-- A later `mymalloc`. -/
theorem rest_path (answer : Option Nat) (s : Nat) (hr : AtRest E h) :
    Path (exec E answer) h (.testLockInit s) (entering s) h (.copy s) := by
  have h1 : exec E answer h (.testLockInit s) = some (h, .lockGlobal s) := by simp [exec, hr.lockInit]
  have h2 : exec E answer h (.lockGlobal s) = some ({ h with globalLock := true }, .testInit s) := by
    simp [exec, hr.globalFree]
  have h3 : exec E answer { h with globalLock := true } (.testInit s) =
      some ({ h with globalLock := true }, .unlockGlobal s) := by simp [exec, hr.ready]
  have h4 : exec E answer { h with globalLock := true } (.unlockGlobal s) = some (h, .copy s) :=
    congrArg (fun g => some (g, Pc.copy s)) hr.unlock_eq
  exact .cons h1 (.cons h2 (.cons h3 (.cons h4 (.nil _ _))))

/-- The call's copy of the arena, its mutex taken. -/
def frame (E : Env) (h : Sh) (s : Nat) : Frame := ⟨s, active E h.st, true⟩

def locking (E : Env) (h : Sh) (s : Nat) : List Pc :=
  [.copy s, .testSize ⟨s, active E h.st, false⟩, .lock ⟨s, active E h.st, false⟩]

theorem lock_path (answer : Option Nat) (hr : AtRest E h) (h0 : 0 < s) :
    Path (exec E answer) h (.copy s) (locking E h s) h (.pick (frame E h s) .c64) := by
  have h1 : exec E answer h (.copy s) = some (h, .testSize ⟨s, active E h.st, false⟩) := by simp [exec, hr.copyFree]
  have h2 : exec E answer h (.testSize ⟨s, active E h.st, false⟩) = some (h, .lock ⟨s, active E h.st, false⟩) := by
    simp [exec, Nat.ne_of_gt h0]
  exact .cons h1 (.cons h2 (.cons rfl (.nil _ _)))

/-! ## The search -/

/-- The tests and reads that find a block and a branch. -/
def Pc.Looks : Pc → Prop
  | .pick _ _ => True
  | .head _ _ => True
  | .walk _ _ => True
  | .test _ _ => True
  | .advance _ _ => True
  | .order _ _ _ => True
  | _ => False

/-- A chain of `s <= list->size` tests goes to the list the size is looked up in. -/
theorem chain_path {A : Arena} (answer : Option Nat) (tests : Cls → Pc) (target : Option Cls → Pc)
    (he : ∀ c, exec E answer h (tests c) = some (h, (afterPick h.mem A s c).elim target tests)) :
    ∃ ps, Path (exec E answer) h (tests .c64) ps h (target (listFor h.mem A s)) ∧ ∀ p ∈ ps, ∃ c, p = tests c := by
  have h64 := he .c64
  have h256 := he .c256
  have h1024 := he .c1024
  simp only [afterPick, Cls.succ] at h64 h256 h1024
  unfold listFor
  by_cases h1 : s ≤ recSize h.mem (A.list .c64)
  · simp only [h1, if_true] at h64 ⊢
    exact ⟨_, .cons h64 (.nil _ _), by simp⟩
  by_cases h2 : s ≤ recSize h.mem (A.list .c256)
  · simp only [h1, h2, if_true, if_false] at h64 h256 ⊢
    exact ⟨_, .cons h64 (.cons h256 (.nil _ _)), by simp⟩
  simp only [h1, h2, if_false] at h64 h256 ⊢
  refine ⟨_, .cons h64 (.cons h256 (.cons (h1024.trans ?_) (.nil _ _))), by simp⟩
  split <;> rfl

section Search

variable (E answer h) (v : Frame)

theorem pick_path : ∃ ps, Path (exec E answer) h (.pick v .c64) ps h (.head v (listFor h.mem v.A v.s)) ∧
    ∀ p ∈ ps, p.Looks := by
  obtain ⟨ps, hp, hps⟩ := chain_path (E := E) (h := h) (A := v.A) (s := v.s) answer (.pick v) (.head v)
    (fun c => by simp only [exec]; cases afterPick h.mem v.A v.s c <;> rfl)
  refine ⟨ps, hp, fun p hin => ?_⟩
  obtain ⟨c, rfl⟩ := hps p hin
  trivial

/-- The loop of `get_free_block`. -/
theorem walk_path {n a b : Nat} (hs : search (next h.mem) (fits h.mem v.s) n a = some b) :
    ∃ ps, Path (exec E answer) h (.walk v a) ps h (.order v b .c64) ∧ ∀ p ∈ ps, p.Looks := by
  induction n generalizing a with
  | zero => cases hs
  | succ n ih =>
    by_cases ha : a = 0
    · simp only [search, ha, if_true, Option.some.injEq] at hs
      subst hs
      exact ⟨[.walk v a], .cons (by simp [exec, ha]) (.nil _ _), by simp [Pc.Looks]⟩
    have hwalk : exec E answer h (.walk v a) = some (h, .test v a) := by simp [exec, ha]
    simp only [search, ha, if_false] at hs
    cases hf : fits h.mem v.s a with
    | true =>
      simp only [hf, if_true, Option.some.injEq] at hs
      subst hs
      have htest : exec E answer h (.test v a) = some (h, .order v a .c64) := by simp [exec, hf]
      exact ⟨_, .cons hwalk (.cons htest (.nil _ _)), by simp [Pc.Looks]⟩
    | false =>
      simp only [hf, Bool.false_eq_true, if_false] at hs
      obtain ⟨ps, hp, hps⟩ := ih hs
      have htest : exec E answer h (.test v a) = some (h, .advance v a) := by simp [exec, hf]
      exact ⟨_, .cons hwalk (.cons htest (.cons rfl hp)), by simpa [Pc.Looks] using hps⟩

/-- Where `mymalloc` goes on with what `get_free_block` found: its branch for the size. -/
def chosen (v : Frame) (header : Nat) : Option Cls → Pc
  | some c => .testFound v header c
  | none => .mmap v

theorem order_path (header : Nat) :
    ∃ ps, Path (exec E answer) h (.order v header .c64) ps h (chosen v header (listFor h.mem v.A v.s)) ∧
      ∀ p ∈ ps, p.Looks := by
  obtain ⟨ps, hp, hps⟩ := chain_path (E := E) (h := h) (A := v.A) (s := v.s) answer (.order v header)
    (chosen v header) (fun c => by simp only [exec]; rcases afterPick h.mem v.A v.s c with (_ | c') | c' <;> rfl)
  refine ⟨ps, hp, fun p hin => ?_⟩
  obtain ⟨c, rfl⟩ := hps p hin
  trivial

end Search

theorem look_path (answer : Option Nat) {b : Nat} (hb : getFreeBlock E h.st s (active E h.st) = some b) :
    ∃ ps, Path (exec E answer) h (.pick (frame E h s) .c64) ps h
        (chosen (frame E h s) b (listFor h.st.mem (active E h.st) s)) ∧ ∀ p ∈ ps, p.Looks := by
  obtain ⟨ps₁, hp₁, hl₁⟩ := pick_path E answer h (frame E h s)
  have hhead : headFor h.st.mem (active E h.st) s =
      recHead h.st.mem (recordOf (active E h.st) (listFor h.st.mem (active E h.st) s)) := by
    unfold headFor
    cases listFor h.st.mem (active E h.st) s <;> rfl
  rw [getFreeBlock, hhead] at hb
  obtain ⟨ps₂, hp₂, hl₂⟩ := walk_path E answer h (frame E h s) hb
  obtain ⟨ps₃, hp₃, hl₃⟩ := order_path E answer h (frame E h s) b
  refine ⟨_, hp₁.append (.cons rfl (hp₂.append hp₃)), ?_⟩
  simp only [List.forall_mem_append, List.forall_mem_cons]
  exact ⟨hl₁, trivial, hl₂, hl₃⟩

/-! ## The branches -/

section Branches

variable (v : Frame) {c : Cls} {a : Nat}

def taking (v : Frame) (c : Cls) (b : Nat) : List Pc :=
  [.testFound v b c, .mark v b, .unlockFound v b, .ret v.unlock b]

/-- `get_block` and the test of what it answers. -/
def getting (v : Frame) (c : Cls) (heapBlock : Option Nat) : List Pc :=
  [.testFound v 0 c, .lockSbrk v c (blockSize + c.bytes), .sbrk v c (blockSize + c.bytes), .unlockSbrk v c heapBlock]

def failing (v : Frame) (c : Cls) : List Pc := getting v c none ++ [.check v c none, .unlockFail v]

def adding (v : Frame) (c : Cls) (a : Nat) : List Pc :=
  getting v c (some a) ++ [.check v c (some a), .putSize v (some c) a, .putInUse v (some c) a, .putNext v (some c) a]

/-- After the new block was appended: the two unlocks. -/
def leaving (v : Frame) (a : Nat) : List Pc := [.unlockList v a, .unlockLast v.unlock a, .ret v.unlock a]

def unmapping (v : Frame) : List Pc := [.mmap v, .testMap v none, .unlockFail v]

def mapping (v : Frame) (a : Nat) : List Pc :=
  [.mmap v, .testMap v (some a), .putSize v none a, .putInUse v none a, .putNext v none a, .unlockLast v a,
    .ret v.unlock a]

/-- The statements that append the new block. -/
def Pc.Links : Pc → Prop
  | .testHead _ _ _ => True
  | .setHead _ _ _ => True
  | .testTail _ _ _ => True
  | .linkTail _ _ _ => True
  | .setTail _ _ _ => True
  | _ => False

theorem taking_path (c : Cls) {b : Nat} (hb : b ≠ 0) :
    Path (exec E answer) h (.testFound v b c) (taking v c b) { h with st := reuse h.st v.s b } .idle := by
  have h1 : exec E answer h (.testFound v b c) = some (h, .mark v b) := by simp [exec, hb]
  exact .cons h1 (.cons rfl (.cons rfl (.cons rfl (.nil _ _))))

theorem getting_path (answer heapBlock : Option Nat) (hg : h.globalLock = false)
    (hsize : recSize h.mem (v.A.list c) = c.bytes) {g : Sh}
    (he : exec E answer { h with globalLock := true } (.sbrk v c (blockSize + c.bytes)) =
      some ({ g with globalLock := true }, .unlockSbrk v c heapBlock)) (hgg : g.globalLock = false) :
    Path (exec E answer) h (.testFound v 0 c) (getting v c heapBlock) g (.check v c heapBlock) := by
  have h1 : exec E answer h (.testFound v 0 c) = some (h, .lockSbrk v c (blockSize + c.bytes)) := by
    simp [exec, hsize]
  have h2 : exec E answer h (.lockSbrk v c (blockSize + c.bytes)) =
      some ({ h with globalLock := true }, .sbrk v c (blockSize + c.bytes)) := by simp [exec, hg]
  have h4 : exec E answer { g with globalLock := true } (.unlockSbrk v c heapBlock) =
      some (g, .check v c heapBlock) := by simp only [exec, ← hgg]
  exact .cons h1 (.cons h2 (.cons he (.cons h4 (.nil _ _))))

theorem sbrk_refused {st : St} {n : Nat} (h : (Arenas.sbrk E st n).1 = none) :
    Arenas.sbrk E st n = (none, { st with calls := st.calls + 1 }) := by
  simp only [Arenas.sbrk] at h ⊢
  split at h
  · cases h
  · rw [if_neg ‹_›]

/-- `get_block` fails. -/
theorem refused_path (hr : AtRest E h) (hsize : recSize h.mem (v.A.list c) = c.bytes)
    (hno : (Arenas.sbrk E h.st (blockSize + c.bytes)).1 = none) :
    Path (exec E answer) h (.testFound v 0 c) (getting v c none)
      { h with st := { h.st with calls := h.st.calls + 1 } } (.check v c none) := by
  refine getting_path v answer none hr.globalFree hsize ?_ hr.globalFree
  simp only [exec, sbrk_refused hno]

/-- `get_block` answers a block, which is appended to the list. -/
theorem append_path (answer : Option Nat) (hr : AtRest E h) (hsize : recSize h.mem (v.A.list c) = c.bytes) {st₁ : St}
    (hs : Arenas.sbrk E h.st (blockSize + c.bytes) = (some a, st₁)) :
    ∃ rs, Path (exec E answer) h (.testFound v 0 c) (adding v c a ++ rs ++ leaving v a)
        { h with
          st := withBlock h.st a c (v.A.list c) 1 ((payload a, v.s) :: h.st.live)
          linked := (c, a) :: h.linked } .idle ∧ ∀ r ∈ rs, r.Links := by
  obtain ⟨-, -, rfl⟩ := sbrk_some hs
  have hget := getting_path (E := E) (h := h) v answer (some a) hr.globalFree hsize
    (g := { h with st := { h.st with
      brk := a + (blockSize + c.bytes), calls := h.st.calls + 1, blks := (a, blockSize + c.bytes) :: h.st.blks } })
    (by simp only [exec, hs]) hr.globalFree
  obtain ⟨rs, m, hp, hm, hrs⟩ := link_path (E := E)
    (h := { h with st := { h.st with
      brk := a + (blockSize + c.bytes), calls := h.st.calls + 1, blks := (a, blockSize + c.bytes) :: h.st.blks
      mem := placeHeader h.st.mem a c.bytes 1 } }) answer (v.A.list c) a
    (.testHead v c a) (.setHead v c a) (.testTail v c a) (.linkTail v c a) (.setTail v c a)
    rfl rfl (fun _ => rfl) (fun _ => rfl)
  have hm : setRecTail m (v.A.list c) a = link (placeHeader h.st.mem a c.bytes 1) (v.A.list c) a := hm
  have hput := hget.append (.cons rfl (.cons rfl (.cons rfl (.cons rfl (.nil _ _)))))
  have hend := (hput.append hp).append (.cons rfl (.cons rfl (.cons rfl (.cons rfl (.nil _ _)))))
  refine ⟨rs ++ [.setTail v c a], ?_, List.forall_mem_append.mpr ⟨fun r hin => ?_, by simp [Pc.Links]⟩⟩
  · unfold withBlock
    rw [← hm, ← List.append_assoc, List.append_assoc _ [_]]
    exact hend
  · have := hrs r hin
    simp only [List.mem_cons, List.not_mem_nil, or_false] at this
    rcases this with e | e | e | e <;> rw [e] <;> trivial

theorem unmapped_path (hno : answer = none ∨ (blockSize + v.s) % 2 ^ 64 = 0) :
    Path (exec E answer) h (.mmap v) (unmapping v) h .idle := by
  have h1 : exec E answer h (.mmap v) = some (h, .testMap v none) := by
    simp only [exec]
    cases answer with
    | none => rfl
    | some header => simp only [hno.resolve_left (by simp), if_true]
  exact .cons h1 (.cons rfl (.cons rfl (.nil _ _)))

theorem mapped_path (hm : (blockSize + v.s) % 2 ^ 64 ≠ 0) :
    Path (exec E (some a)) h (.mmap v) (mapping v a) { h with st := withMap E h.st v.s a } .idle := by
  have h1 : exec E (some a) h (.mmap v) = some ({ h with st := { h.st with
      maps := (a, E.mapLen ((blockSize + v.s) % 2 ^ 64)) :: h.st.maps } }, .testMap v (some a)) := by
    simp only [exec, hm, if_false]
  exact .cons h1 (.cons rfl (.cons rfl (.cons rfl (.cons rfl (.cons rfl (.cons rfl (.nil _ _)))))))

end Branches

/-! ## The courses of a `mymalloc` -/

/-- What a `mymalloc` can do from the copy of the arena on: the statements, where they end and
    what the call returns (`none`: it crashes). -/
inductive Course (E : Env) (answer : Option Nat) (h : Sh) (s : Nat) : List Pc → Sh → Pc → Option Nat → Prop
  | zero : s = 0 → Course E answer h s [.copy s, .testSize ⟨s, active E h.st, false⟩] h .idle (some 0)
  | found {c : Cls} {b : Nat} {qs : List Pc} : 0 < s → classOf s = some c →
      getFreeBlock E h.st s (active E h.st) = some b → b ≠ 0 → (∀ q ∈ qs, q.Looks) →
      Course E answer h s (locking E h s ++ qs ++ taking (frame E h s) c b) { h with st := reuse h.st s b } .idle
        (some (payload b))
  | appended {c : Cls} {a : Nat} {qs rs : List Pc} : 0 < s → classOf s = some c →
      getFreeBlock E h.st s (active E h.st) = some 0 → (Arenas.sbrk E h.st (blockSize + c.bytes)).1 = some a →
      (∀ q ∈ qs, q.Looks) → (∀ r ∈ rs, r.Links) →
      Course E answer h s
        (locking E h s ++ qs ++ (adding (frame E h s) c a ++ rs ++ leaving (frame E h s) a))
        { h with
          st := withBlock h.st a c ((active E h.st).list c) 1 ((payload a, s) :: h.st.live)
          linked := (c, a) :: h.linked } .idle (some (payload a))
  | refused {c : Cls} {qs : List Pc} : 0 < s → classOf s = some c → c ≠ .c64 →
      getFreeBlock E h.st s (active E h.st) = some 0 → (Arenas.sbrk E h.st (blockSize + c.bytes)).1 = none →
      (∀ q ∈ qs, q.Looks) →
      Course E answer h s (locking E h s ++ qs ++ failing (frame E h s) c)
        { h with st := { h.st with calls := h.st.calls + 1 } } .idle (some 0)
  | crashed {qs : List Pc} : 0 < s → classOf s = some .c64 → getFreeBlock E h.st s (active E h.st) = some 0 →
      (Arenas.sbrk E h.st (blockSize + Cls.c64.bytes)).1 = none → (∀ q ∈ qs, q.Looks) →
      Course E answer h s (locking E h s ++ qs ++ getting (frame E h s) .c64 none)
        { h with st := { h.st with calls := h.st.calls + 1 } } (.check (frame E h s) .c64 none) none
  | unmapped {qs : List Pc} : classOf s = none → getFreeBlock E h.st s (active E h.st) = some 0 →
      (answer = none ∨ (blockSize + s) % 2 ^ 64 = 0) → (∀ q ∈ qs, q.Looks) →
      Course E answer h s (locking E h s ++ qs ++ unmapping (frame E h s)) h .idle (some 0)
  | mapped {a : Nat} {qs : List Pc} : classOf s = none → getFreeBlock E h.st s (active E h.st) = some 0 →
      answer = some a → (blockSize + s) % 2 ^ 64 ≠ 0 → (∀ q ∈ qs, q.Looks) →
      Course E answer h s (locking E h s ++ qs ++ mapping (frame E h s) a)
        { h with st := withMap E h.st s a } .idle (some (payload a))

variable {L : Cls → List Nat} {ps : List Pc} {h' : Sh} {q : Pc} {r : Option Nat}

/-- Above 1024 bytes there is no list to search. -/
theorem no_large_block (hi : Inv E h.st L) (hs : classOf s = none) :
    getFreeBlock E h.st s (active E h.st) = some 0 := by
  have := E.pos
  have := E.le
  rw [getFreeBlock, headFor, hi.arena.listFor_eq, hs]
  show search _ _ _ (recHead h.st.mem (active E h.st).over1024) = _
  rw [hi.arena.overHead]
  exact search_linked (l := []) _ rfl (by simp; omega)

theorem search_returns (hi : Inv E h.st L) (s : Nat) : ∃ b, getFreeBlock E h.st s (active E h.st) = some b := by
  cases hs : classOf s with
  | none => exact ⟨0, no_large_block hi hs⟩
  | some c =>
    rw [getFreeBlock, headFor, hi.arena.listFor_eq, hs]
    exact ⟨_, search_linked _ (hi.arena.classes c).list.linked (hi.length_lt c)⟩

theorem mymalloc_course (hi : Inv E h.st L) (hr : AtRest E h) (answer : Option Nat) (s : Nat) :
    ∃ ps h' q r, Course E answer h s ps h' q r ∧ Path (exec E answer) h (.copy s) ps h' q := by
  by_cases h0 : s = 0
  · have h1 : exec E answer h (.copy s) = some (h, .testSize ⟨s, active E h.st, false⟩) := by simp [exec, hr.copyFree]
    have h2 : exec E answer h (.testSize ⟨s, active E h.st, false⟩) = some (h, .idle) := by simp [exec, h0]
    exact ⟨_, _, _, _, .zero h0, .cons h1 (.cons h2 (.nil _ _))⟩
  have hpos : 0 < s := Nat.pos_of_ne_zero h0
  have hlock := lock_path answer hr hpos
  obtain ⟨b, hb⟩ := search_returns hi s
  obtain ⟨qs, hq, hqs⟩ := look_path answer hb
  rw [hi.arena.listFor_eq] at hq
  have hfirst := hlock.append hq
  cases hs : classOf s with
  | none =>
    rw [no_large_block hi hs, Option.some.injEq] at hb
    subst hb
    rw [hs] at hfirst
    by_cases hno : answer = none ∨ (blockSize + s) % 2 ^ 64 = 0
    · exact ⟨_, _, _, _, .unmapped hs (no_large_block hi hs) hno hqs, hfirst.append (unmapped_path _ hno)⟩
    · obtain ⟨hsome, htotal⟩ := not_or.mp hno
      obtain ⟨a, rfl⟩ := Option.ne_none_iff_exists'.mp hsome
      exact ⟨_, _, _, _, .mapped hs (no_large_block hi hs) rfl htotal hqs, hfirst.append (mapped_path _ htotal)⟩
  | some c =>
    rw [hs] at hfirst
    have hsize := (hi.arena.classes c).sizeOf
    by_cases hb0 : b = 0
    · subst hb0
      rcases hsb : Arenas.sbrk E h.st (blockSize + c.bytes) with ⟨_ | a, st₁⟩
      · have hno : (Arenas.sbrk E h.st (blockSize + c.bytes)).1 = none := by rw [hsb]
        have hget := hfirst.append (refused_path (frame E h s) hr hsize hno)
        by_cases hc : c = .c64
        · subst hc
          exact ⟨_, _, _, _, .crashed hpos hs hb hno hqs, hget⟩
        · have hcheck : exec E answer { h with st := { h.st with calls := h.st.calls + 1 } }
              (.check (frame E h s) c none) =
              some ({ h with st := { h.st with calls := h.st.calls + 1 } }, .unlockFail (frame E h s)) := by
            simp only [exec, hc, if_false]
          refine ⟨_, _, _, _, .refused hpos hs hc hb hno hqs, ?_⟩
          rw [failing, ← List.append_assoc]
          exact hget.append (.cons hcheck (.cons rfl (.nil _ _)))
      · obtain ⟨rs, hp, hrs⟩ := append_path (frame E h s) answer hr hsize hsb
        exact ⟨_, _, _, _, .appended hpos hs hb (by rw [hsb]) hqs hrs, hfirst.append hp⟩
    · exact ⟨_, _, _, _, .found hpos hs hb hb0 hqs, hfirst.append (taking_path _ c hb0)⟩

theorem Course.stuck (hc : Course E answer h s ps h' q r) : exec E answer h' q = none := by
  cases hc <;> rfl

theorem Course.atRest (hc : Course E answer h s ps h' q r) (hr : AtRest E h) : AtRest E h' := by
  cases hc <;> exact ⟨hr.ready, hr.lockInit, hr.globalFree, hr.copyFree⟩

/-- Running alone, a `mymalloc` does what the sequential model says. -/
theorem Course.result (hc : Course E answer h s ps h' q r) (hi : Inv E h.st L) :
    Arenas.malloc E h.st s answer = r.map fun p => (p, h'.st) := by
  have hinit : initialized E h.st = some h.st := if_pos hi.ready
  simp only [Arenas.malloc, Arenas.mymalloc, hinit, allocate, hi.arena.listFor_eq]
  cases hc with
  | zero h0 => simp only [h0, if_true, Option.map_some, hold]
  | found h0 hs hb hb0 _ =>
    simp only [Nat.ne_of_gt h0, if_false, hb, hs, ne_eq, hb0, not_false_eq_true, if_true, Option.map_some, hold_payload,
      reuse]
  | @appended c a _ _ h0 hs hb hsb _ _ =>
    have hsize := (hi.arena.classes c).sizeOf
    obtain ⟨st₁, hsb⟩ : ∃ st₁, Arenas.sbrk E h.st (blockSize + c.bytes) = (some a, st₁) := ⟨_, Prod.ext hsb rfl⟩
    simp only [Nat.ne_of_gt h0, if_false, hb, hs, ne_eq, not_true_eq_false, appendBlock, getBlock, hsize, hsb,
      Option.map_some, hold_payload, Option.some.injEq]
    obtain ⟨-, -, rfl⟩ := sbrk_some hsb
    rfl
  | @refused c _ h0 hs hc hb hno _ =>
    simp only [Nat.ne_of_gt h0, if_false, hb, hs, ne_eq, not_true_eq_false, appendBlock, getBlock,
      (hi.arena.classes c).sizeOf, sbrk_refused hno, hc, Option.map_some, hold, if_true]
  | crashed h0 hs hb hno _ =>
    simp only [Nat.ne_of_gt h0, if_false, hb, hs, ne_eq, not_true_eq_false, appendBlock, getBlock,
      (hi.arena.classes .c64).sizeOf, sbrk_refused hno, if_true, Option.map_none]
  | unmapped hs hb hno _ =>
    have h0 : s ≠ 0 := by have := classOf_none.mp hs; omega
    simp only [h0, if_false, hb, hs, mapBlock, Option.map_some]
    cases answer with
    | none => rfl
    | some a => simp only [hno.resolve_left (by simp), if_true, hold]
  | mapped hs hb ha ht _ =>
    have h0 : s ≠ 0 := by have := classOf_none.mp hs; omega
    simp only [h0, if_false, hb, hs, mapBlock, ha, ht, Option.map_some, hold_payload, withMap]

/-! ## `myfree` -/

theorem freeWalk_path (answer : Option Nat) {n a curr header : Nat}
    (hs : search (next h.mem) (· == header) n a = some curr) :
    ∃ ps, Path (exec E answer) h (.freeWalk header a) ps h (.freeFound header curr) := by
  induction n generalizing a with
  | zero => cases hs
  | succ n ih =>
    by_cases ha : a = 0
    · simp only [search, ha, if_true, Option.some.injEq] at hs
      subst hs
      exact ⟨_, .cons (by simp [exec, ha]) (.nil _ _)⟩
    by_cases e : a = header
    · simp only [search, ha, if_false, beq_iff_eq.mpr e, if_true, Option.some.injEq] at hs
      subst hs
      exact ⟨_, .cons (by simp [exec, e]) (.nil _ _)⟩
    · simp only [search, ha, if_false, beq_eq_false_iff_ne.mpr e, Bool.false_eq_true] at hs
      obtain ⟨ps, hp⟩ := ih hs
      have hgo : exec E answer h (.freeWalk header a) = some (h, .freeAdvance header a) := by
        simp [exec, ha, Ne.symm e]
      exact ⟨_, .cons hgo (.cons rfl hp)⟩

/-- Running alone, a `myfree` does what the sequential model says. -/
theorem myfree_path (answer : Option Nat) {ptr : Nat} (h0 : ptr ≠ 0) {st' : St}
    (e : Arenas.free E h.st ptr = some st') :
    ∃ ps, Path (exec E answer) { h with st := { h.st with live := drop h.st ptr } } (.freeTest ptr) ps
      { h with st := st' } .idle := by
  simp only [Arenas.free, Arenas.myfree, h0, if_false] at e
  have htest : exec E answer { h with st := { h.st with live := drop h.st ptr } } (.freeTest ptr) =
      some ({ h with st := { h.st with live := drop h.st ptr } }, .freeCopy ptr) := by simp only [exec, h0, if_false]
  obtain ⟨ps, hp, -⟩ := chain_path (E := E) (h := { h with st := { h.st with live := drop h.st ptr } })
    (A := active E h.st) (s := size h.st.mem (headerOf ptr)) answer (.freePick (active E h.st) (headerOf ptr))
    (fun o => o.elim (.clearMap (headerOf ptr)) (.freeHead (active E h.st) (headerOf ptr)))
    (fun c => by
      simp only [exec, Sh.mem]
      rcases afterPick h.st.mem (active E h.st) (size h.st.mem (headerOf ptr)) c with (_ | c') | c' <;> rfl)
  have hpick : Path (exec E answer) { h with st := { h.st with live := drop h.st ptr } } (.freeTest ptr) _ _ _ :=
    .cons htest (.cons rfl hp)
  simp only [Sh.mem] at hpick
  cases hc : listFor h.st.mem (active E h.st) (size h.st.mem (headerOf ptr)) with
  | none =>
    simp only [hc, Option.map_some, Option.some.injEq] at e hpick
    subst e
    exact ⟨_, hpick.append (.cons rfl (.cons rfl (.cons rfl (.nil _ _))))⟩
  | some c =>
    simp only [hc] at e hpick
    cases hs : search (next h.st.mem) (· == headerOf ptr) E.hi (recHead h.st.mem ((active E h.st).list c)) with
    | none => simp [hs] at e
    | some curr =>
      obtain ⟨qs, hq⟩ := freeWalk_path (E := E) (h := { h with st := { h.st with live := drop h.st ptr } }) answer hs
      have hfound := (hpick.append (.cons rfl (.nil _ _))).append hq
      by_cases ecurr : curr = headerOf ptr
      · simp only [hs, ecurr, if_true, Option.map_some, Option.some.injEq] at e
        subst e
        rw [ecurr] at hfound
        have h1 : exec E answer { h with st := { h.st with live := drop h.st ptr } }
            (.freeFound (headerOf ptr) (headerOf ptr)) =
            some ({ h with st := { h.st with live := drop h.st ptr } }, .clear (headerOf ptr) (headerOf ptr)) := by
          simp only [exec, if_true]
        exact ⟨_, hfound.append (.cons h1 (.cons rfl (.cons rfl (.cons rfl (.nil _ _)))))⟩
      · simp only [hs, ecurr, if_false, Option.map_some, Option.some.injEq] at e
        subst e
        have h1 : exec E answer { h with st := { h.st with live := drop h.st ptr } } (.freeFound (headerOf ptr) curr) =
            some ({ h with st := { h.st with live := drop h.st ptr } }, .freeUnlock) := by
          simp only [exec, ecurr, if_false]
        exact ⟨_, hfound.append (.cons h1 (.cons rfl (.nil _ _)))⟩

/-! ## Between the calls of a process -/

/-- Where a call begins; the client gives up a pointer as it frees it. -/
def enter (h : Sh) : Call → Sh × Pc
  | .malloc s => (h, .testLockInit s)
  | .free ptr => ({ h with st := { h.st with live := drop h.st ptr } }, .freeTest ptr)

/-- The states between calls that run one at a time; `write` is a store of the client's, as in
    `Arenas.step`. -/
inductive Reach (E : Env) : Sh → Prop
  | cold : Reach E (cold E).sh
  | malloc {h h' : Sh} {s : Nat} {answer : Option Nat} {ps : List Pc} : Reach E h →
      Arenas.Legal E h.st (.malloc s answer) →
      Path (exec E answer) (enter h (.malloc s)).1 (enter h (.malloc s)).2 ps h' .idle → Reach E h'
  | free {h h' : Sh} {ptr : Nat} {answer : Option Nat} {ps : List Pc} : Reach E h → Arenas.Legal E h.st (.free ptr) →
      Path (exec E answer) (enter h (.free ptr)).1 (enter h (.free ptr)).2 ps h' .idle → Reach E h'
  | write {h : Sh} {a : Nat} {v : UInt8} : Reach E h → h.st.arenaInitializer = true →
      Arenas.Legal E h.st (.write a v) → Reach E (h.write (Function.update h.mem a v))

theorem ready_atRest {st : St} (hi : Inv E st L) : AtRest E (ready st).sh := ⟨hi.ready, rfl, rfl, rfl⟩

/-- A `mymalloc` gets to the copy of the arena, in the state after the initialisation if it is
    the first one. -/
theorem malloc_path (answer : Option Nat) (s : Nat) (hi : Inv E h.st L) (hr : AtRest E h) {qs : List Pc} {h₀ : Sh}
    (hq : Path (exec E answer) h₀ (.testLockInit s) qs h (.copy s))
    (hp : Path (exec E answer) h₀ (.testLockInit s) ps h' .idle) (hl : Arenas.Legal E h.st (.malloc s answer)) :
    AtRest E h' ∧ ∃ L', Inv E h'.st L' := by
  obtain ⟨rs, h₁, q, r, hc, hrs⟩ := mymalloc_course hi hr answer s
  obtain ⟨-, rfl, rfl⟩ := (hq.append hrs).stuck_unique hc.stuck hp rfl
  refine ⟨hc.atRest hr, ?_⟩
  have hres := hc.result hi
  cases r with
  | none => cases hc
  | some p =>
    obtain ⟨L', hi', -⟩ := step_law hi hl (show Arenas.step E h.st (.malloc s answer) = some h₁.st by
      simp only [Arenas.step, hres, Option.map_some])
    exact ⟨L', hi'⟩

theorem Reach.rest {st₀ : St} (hboot : boot E = some st₀) (hreach : Reach E h) :
    h = (Threads.cold E).sh ∨ AtRest E h ∧ ∃ L, Inv E h.st L := by
  obtain ⟨L₀, hi₀, -⟩ := boot_inv hboot
  induction hreach with
  | cold => exact Or.inl rfl
  | @malloc h h' s answer ps _ hl hp ih =>
    refine Or.inr ?_
    rcases ih with rfl | ⟨hr, L, hi⟩
    · obtain ⟨qs, hq, -⟩ := boot_path answer s hboot
      refine malloc_path answer s (h := (ready st₀).sh) hi₀ (ready_atRest hi₀) hq hp ⟨hl.1, fun header hm => ?_⟩
      obtain ⟨h1, h2, h3, -⟩ := hl.2 header hm
      exact ⟨h1, h2, h3, by simp [ready, (boot_ok hboot).2.2.1]⟩
    · exact malloc_path answer s hi hr (rest_path answer s hr) hp hl
  | @free h h' ptr answer ps _ hl hp ih =>
    have hzero : ∀ g : Sh, Path (exec E answer) g (.freeTest 0) [.freeTest 0] g .idle := fun g =>
      .cons (by simp [exec]) (.nil _ _)
    rcases ih with rfl | ⟨hr, L, hi⟩
    · obtain rfl : ptr = 0 := by
        rcases hl with e | hm
        · exact e
        · simp [held, Threads.cold, start] at hm
      exact Or.inl ((hzero _).stuck_unique rfl hp rfl).2.1.symm
    · refine Or.inr ?_
      by_cases h0 : ptr = 0
      · subst h0
        obtain ⟨-, rfl, -⟩ := (hzero _).stuck_unique rfl hp rfl
        rw [show (enter h (.free 0)).1 = h by simp only [enter, drop_zero hi]]
        exact ⟨hr, L, hi⟩
      · obtain ⟨st', e, hi', -⟩ := free_inv hi hl
        obtain ⟨qs, hq⟩ := myfree_path answer h0 e
        obtain ⟨-, rfl, -⟩ := hq.stuck_unique rfl hp rfl
        exact ⟨⟨hi'.ready, hr.lockInit, hr.globalFree, hr.copyFree⟩, L, hi'⟩
  | @write h a v _ hready hl ih =>
    refine Or.inr ?_
    rcases ih with rfl | ⟨hr, L, hi⟩
    · cases hready
    · obtain ⟨L', hi', -⟩ := step_law (t := { h.st with mem := Function.update h.st.mem a v }) hi hl rfl
      exact ⟨⟨hr.ready, hr.lockInit, hr.globalFree, hr.copyFree⟩, L', hi'⟩

end CS5600.Alloc.Threads
