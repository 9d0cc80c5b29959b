/-
  CS5600.Xv6.Proc — the process table (`Lab11_xv6/deliverables/proc.c`).

  NPROC slots and NCPU processors. What runs between `acquire(&ptable.lock)` and the next `release` or `sched` is one
  event. `fork` takes the lock twice: it claims a slot, builds the child without the lock (where it can be
  preempted, or fail), and makes the child RUNNABLE; these are the stages of `Job.fork`. Of a child's
  memory the model keeps whether it has a kernel stack, and of `sleep` whether the channel is that of `wait`.
  A processor takes any RUNNABLE process. Files, the working directory and the page tables are left out.
  A pid is an `int`, and `nextpid++` wraps.

  The invariant here says nothing of pids and so needs no bound on the run: processes and processors, parents and
  children, the stages of `fork`, and `wait_sleeps_rightly`: who sleeps in `wait` has a child, none that is
  a zombie, and has not been killed.
-/

import CS5600.Lib.Runs
import CS5600.Xv6.Param

namespace CS5600.Xv6.Proc

open CS5600.Lib.Runs

inductive PState where
  | unused
  | embryo
  | sleeping
  | runnable
  | running
  | zombie
  deriving DecidableEq

inductive Chan where
  /-- `sleep(curproc, &ptable.lock)` in `wait` -/
  | proc (i : Slot)
  | other (c : Nat)
  deriving DecidableEq

/-- How far `fork` is with the child. -/
inductive Stage where
  | stack
  | memory
  | done
  deriving DecidableEq

/-- What a process does in this file. -/
inductive Job where
  | none
  | fork (np : Slot) (stage : Stage)
  | wait
  deriving DecidableEq

structure St where
  state : Slot → PState
  pid : Slot → Int
  parent : Slot → Option Slot
  killed : Slot → Bool
  chan : Slot → Chan
  kstack : Slot → Bool
  job : Slot → Job
  /-- `cpus[c].proc` -/
  cpus : Fin ncpu → Option Slot
  nextpid : Int
  /-- the pids of all who have exited, and those `wait` has returned; no function reads them -/
  exited : List Int
  reaped : List Int

/-- What an `int` holds after an addition. -/
def wrap (n : Int) : Int := (n + 2 ^ 31) % 2 ^ 32 - 2 ^ 31

def initproc : Slot := ⟨0, nproc_pos⟩

/-- After `userinit`. -/
def userinit : St where
  state := fun i => if i = initproc then .runnable else .unused
  pid := fun i => if i = initproc then 1 else 0
  parent := fun _ => none
  killed := fun _ => false
  chan := fun _ => .other 0
  kstack := fun i => decide (i = initproc)
  job := fun _ => .none
  cpus := fun _ => none
  nextpid := 2
  exited := []
  reaped := []

def slots : List Slot := List.finRange nproc

/-- `wakeup1` -/
def wakeup1 (s : St) (c : Chan) : St :=
  { s with state := fun i => if s.state i = .sleeping ∧ s.chan i = c then .runnable else s.state i }

/-- The processor that ran `i` is back in `scheduler`. -/
def leaveCpu (s : St) (i : Slot) : St :=
  { s with cpus := fun c => if s.cpus c = some i then none else s.cpus c }

/-- `scheduler` takes `i`. -/
def dispatch (s : St) (c : Fin ncpu) (i : Slot) : St :=
  if s.cpus c = none ∧ s.state i = .runnable then
    { s with state := Function.update s.state i .running, cpus := Function.update s.cpus c (some i) }
  else s

def yield (s : St) (i : Slot) : St := { leaveCpu s i with state := Function.update s.state i .runnable }

def sleep (s : St) (i : Slot) (c : Chan) : St :=
  { leaveCpu s i with state := Function.update s.state i .sleeping, chan := Function.update s.chan i c }

/-- `allocproc` under the lock; with no free slot `fork` returns -1. -/
def allocproc (s : St) (i : Slot) : St :=
  match slots.find? fun p => decide (s.state p = .unused) with
  | some np =>
    { s with
      state := Function.update s.state np .embryo
      pid := Function.update s.pid np s.nextpid
      nextpid := wrap (s.nextpid + 1)
      job := Function.update s.job i (.fork np .stack) }
  | none => s

/-- `kalloc` in `allocproc`, then `copyuvm` and the rest of `fork`, each of which may fail. -/
def build (s : St) (i : Slot) (ok : Bool) : St :=
  match s.job i with
  | .fork np .stack =>
    if ok = true then
      { s with kstack := Function.update s.kstack np true, job := Function.update s.job i (.fork np .memory) }
    else { s with state := Function.update s.state np .unused, job := Function.update s.job i .none }
  | .fork np .memory =>
    if ok = true then
      { s with parent := Function.update s.parent np (some i), job := Function.update s.job i (.fork np .done) }
    else
      { s with
        kstack := Function.update s.kstack np false
        state := Function.update s.state np .unused
        job := Function.update s.job i .none }
  | .fork np .done =>
    { s with state := Function.update s.state np .runnable, job := Function.update s.job i .none }
  | _ => s

/-- `exit`, from where it takes the lock; `none` is the panic of the first process. -/
def exit (s : St) (i : Slot) : Option St :=
  if i = initproc then none
  else
    let s := match s.parent i with
      | some q => wakeup1 s (.proc q)
      | none => s
    -- the children go to the first process, which is woken if one of them is a zombie
    let s' := { s with parent := fun p => if s.parent p = some i then some initproc else s.parent p }
    let s' := if slots.any fun p => decide (s.parent p = some i ∧ s.state p = .zombie) then wakeup1 s' (.proc initproc) else s'
    some { leaveCpu s' i with state := Function.update s'.state i .zombie }

/-- `wait` frees the slot of a zombie. -/
def reap (s : St) (i p : Slot) : St :=
  { s with
    kstack := Function.update s.kstack p false
    pid := Function.update s.pid p 0
    parent := Function.update s.parent p none
    killed := Function.update s.killed p false
    state := Function.update s.state p .unused
    job := Function.update s.job i .none }

/-- `wait`, from `acquire` or from where it is woken, and what it returns, if it does. -/
def wait (s : St) (i : Slot) : St × Option Int :=
  match slots.find? fun p => decide (s.parent p = some i ∧ s.state p = .zombie) with
  | some p => (reap s i p, some (s.pid p))
  | none =>
    if (slots.any fun p => decide (s.parent p = some i)) = false ∨ s.killed i = true then
      ({ s with job := Function.update s.job i .none }, some (-1))
    else ({ sleep s i (.proc i) with job := Function.update s.job i .wait }, none)

/-- The slot that `kill` finds: no state is asked for. -/
def findPid (s : St) (pid : Int) : Option Slot := slots.find? fun p => decide (s.pid p = pid)

def kill (s : St) (pid : Int) : St :=
  match findPid s pid with
  | some p =>
    { s with
      killed := Function.update s.killed p true
      state := if s.state p = .sleeping then Function.update s.state p .runnable else s.state }
  | none => s

inductive Ev where
  | dispatch (c : Fin ncpu) (i : Slot)
  | yield (i : Slot)
  | sleep (i : Slot) (c : Nat)
  | wakeup (c : Nat)
  | alloc (i : Slot)
  | build (i : Slot) (ok : Bool)
  | exit (i : Slot)
  | wait (i : Slot)
  | kill (pid : Int)

/-- A `wait` that returned `pid`, if it is not -1, is put down. -/
def record (s : St) : Option Int → St
  | some pid => if pid = -1 then s else { s with reaped := s.reaped ++ [pid] }
  | none => s

/-- Who is not on a processor does nothing; nor does one in the middle of `fork` or `wait` call something else. -/
def step (s : St) : Ev → Option St
  | .dispatch c i => some (dispatch s c i)
  | .yield i => some (if s.state i = .running then yield s i else s)
  | .sleep i c => some (if s.state i = .running ∧ s.job i ≠ .wait then sleep s i (.other c) else s)
  | .wakeup c => some (wakeup1 s (.other c))
  | .alloc i => some (if s.state i = .running ∧ s.job i = .none then allocproc s i else s)
  | .build i ok => some (if s.state i = .running then build s i ok else s)
  | .exit i =>
    if s.state i = .running ∧ s.job i = .none then (exit s i).map fun t => { t with exited := t.exited ++ [s.pid i] }
    else some s
  | .wait i =>
    some (if s.state i = .running ∧ (s.job i = .none ∨ s.job i = .wait) then record (wait s i).1 (wait s i).2 else s)
  | .kill pid => some (kill s pid)

/-! ## The invariant -/

def PState.alive : PState → Bool
  | .sleeping | .runnable | .running => true
  | _ => false

/-- Processes and processors. -/
structure Cpus (s : St) : Prop where
  running : ∀ c i, s.cpus c = some i → s.state i = .running
  once : ∀ c d i, s.cpus c = some i → s.cpus d = some i → c = d
  somewhere : ∀ i, s.state i = .running → ∃ c, s.cpus c = some i

/-- Parents and children. -/
structure Family (s : St) : Prop where
  first : (s.state initproc).alive = true
  orphan : ∀ i, s.state i = .unused → s.parent i = none
  parent : ∀ i q, s.parent i = some q → (s.state q).alive = true
  raised : ∀ i, i ≠ initproc → s.state i ≠ .unused → s.state i ≠ .embryo → s.parent i ≠ none
  root : s.parent initproc = none
  other : ∀ i, s.parent i ≠ some i

/-- What a process `i` that forks has made of the child's kernel stack and parent. -/
def Stage.Built (kstack : Bool) (parent : Option Slot) (i : Slot) : Stage → Prop
  | .stack => kstack = false ∧ parent = none
  | .memory => kstack = true ∧ parent = none
  | .done => kstack = true ∧ parent = some i

structure Jobs (s : St) : Prop where
  idle : ∀ i, (s.state i).alive = false → s.job i = .none
  fork : ∀ i np stage, s.job i = .fork np stage → s.state np = .embryo ∧ stage.Built (s.kstack np) (s.parent np) i
  creator : ∀ i j np st st', s.job i = .fork np st → s.job j = .fork np st' → i = j
  embryo : ∀ np, s.state np = .embryo → ∃ i stage, s.job i = .fork np stage
  stack : ∀ i, s.state i ≠ .unused → s.state i ≠ .embryo → s.kstack i = true
  free : ∀ i, s.state i = .unused → s.kstack i = false

/-- Who sleeps in `wait`. -/
structure Waits (s : St) : Prop where
  chan : ∀ i, s.state i = .sleeping → s.job i = .wait → s.chan i = .proc i
  child : ∀ i, s.state i = .sleeping → s.job i = .wait → ∃ p, s.parent p = some i
  zombie : ∀ i, s.state i = .sleeping → s.job i = .wait → ∀ p, s.parent p = some i → s.state p ≠ .zombie
  killed : ∀ i, s.state i = .sleeping → s.job i = .wait → s.killed i = false

structure Inv (s : St) : Prop where
  cpus : Cpus s
  family : Family s
  jobs : Jobs s
  waits : Waits s

/-! ## The first process -/

theorem userinit_state {i : Slot} (h : userinit.state i ≠ .unused) : i = initproc ∧ userinit.state i = .runnable := by
  by_cases e : i = initproc
  · exact ⟨e, if_pos e⟩
  · exact absurd (if_neg e) h

theorem userinit_not {x : PState} (hx : x ≠ .unused) (hr : x ≠ .runnable) (i : Slot) : userinit.state i ≠ x := by
  intro h
  obtain ⟨-, hi⟩ := userinit_state (i := i) (by rw [h]; exact hx)
  exact hr (h.symm.trans hi)

theorem cpus_userinit : Cpus userinit := by
  refine ⟨?_, ?_, ?_⟩
  · intro c i h
    cases h
  · intro c d i h
    cases h
  · exact fun i h => absurd h (userinit_not (by decide) (by decide) i)

theorem family_userinit : Family userinit := by
  refine ⟨?_, fun _ _ => rfl, ?_, ?_, rfl, ?_⟩
  · show (if initproc = initproc then PState.runnable else .unused).alive = true
    rw [if_pos rfl]
    rfl
  · intro i q h
    cases h
  · exact fun i h h0 => absurd (userinit_state h0).1 h
  · intro i h
    cases h

theorem jobs_userinit : Jobs userinit := by
  refine ⟨fun _ _ => rfl, ?_, ?_, ?_, ?_, ?_⟩
  · intro i np stage h
    cases h
  · intro i j np st st' h
    cases h
  · exact fun np h => absurd h (userinit_not (by decide) (by decide) np)
  · exact fun i h _ => decide_eq_true (userinit_state h).1
  · intro i h
    apply decide_eq_false
    intro e
    rw [show userinit.state i = .runnable from if_pos e] at h
    cases h

theorem waits_userinit : Waits userinit := by
  have hnone : ∀ i, userinit.state i ≠ .sleeping := userinit_not (by decide) (by decide)
  exact ⟨fun i h => absurd h (hnone i), fun i h => absurd h (hnone i), fun i h => absurd h (hnone i),
    fun i h => absurd h (hnone i)⟩

theorem inv_userinit : Inv userinit :=
  ⟨cpus_userinit, family_userinit, jobs_userinit, waits_userinit⟩

/-! ## What each part of the invariant rests on -/

section

variable {s t : St} {i : Slot}

theorem Cpus.keep (h : Cpus s) (hc : t.cpus = s.cpus) (hr : ∀ i, t.state i = .running ↔ s.state i = .running) :
    Cpus t := by
  refine ⟨?_, ?_, ?_⟩
  · rw [hc]
    exact fun c i hi => (hr i).mpr (h.running c i hi)
  · rw [hc]
    exact h.once
  · rw [hc]
    exact fun i hi => h.somewhere i ((hr i).mp hi)

/-- A process leaves its processor. -/
theorem Cpus.leave (h : Cpus s) (hc : t.cpus = (leaveCpu s i).cpus) (hi : t.state i ≠ .running)
    (hr : ∀ j, j ≠ i → (t.state j = .running ↔ s.state j = .running)) : Cpus t := by
  have hcpu : ∀ c j, t.cpus c = some j ↔ s.cpus c = some j ∧ j ≠ i := by
    intro c j
    rw [hc]
    show (if s.cpus c = some i then none else s.cpus c) = some j ↔ _
    split
    · rename_i h0
      rw [h0, Option.some_inj]
      constructor
      · intro hn
        cases hn
      · exact fun hj => absurd hj.1.symm hj.2
    · rename_i h0
      exact ⟨fun hj => ⟨hj, fun e => h0 (e ▸ hj)⟩, fun hj => hj.1⟩
  refine ⟨fun c j hj => ?_, fun c d j hj hj' => ?_, fun j hj => ?_⟩
  · obtain ⟨hj, hne⟩ := (hcpu c j).mp hj
    exact (hr j hne).mpr (h.running c j hj)
  · exact h.once c d j ((hcpu c j).mp hj).1 ((hcpu d j).mp hj').1
  · have hne : j ≠ i := by
      rintro rfl
      exact hi hj
    obtain ⟨c, hcj⟩ := h.somewhere j ((hr j hne).mp hj)
    exact ⟨c, (hcpu c j).mpr ⟨hcj, hne⟩⟩

theorem Family.keep (h : Family s) (hp : t.parent = s.parent) (ha : ∀ i, (s.state i).alive = true → (t.state i).alive = true)
    (hu : ∀ i, t.state i = .unused → s.parent i = none)
    (hr : ∀ i, t.state i ≠ .unused → t.state i ≠ .embryo → (s.state i ≠ .unused ∧ s.state i ≠ .embryo) ∨ s.parent i ≠ none) :
    Family t := by
  refine ⟨ha _ h.first, ?_, ?_, ?_, ?_, ?_⟩
  · rw [hp]
    exact hu
  · rw [hp]
    exact fun i q hq => ha q (h.parent i q hq)
  · rw [hp]
    intro i hi hnu hne
    rcases hr i hnu hne with ⟨h1, h2⟩ | h1
    · exact h.raised i hi h1 h2
    · exact h1
  · rw [hp]
    exact h.root
  · rw [hp]
    exact h.other

/-- No process begins or ends a `fork`. -/
theorem Jobs.keep (h : Jobs s) (hf : ∀ i np stage, t.job i = .fork np stage ↔ s.job i = .fork np stage)
    (hi : ∀ i, (t.state i).alive = false → t.job i = .none) (he : ∀ i, t.state i = .embryo ↔ s.state i = .embryo)
    (hb : ∀ i np stage, s.job i = .fork np stage → t.kstack np = s.kstack np ∧ t.parent np = s.parent np)
    (hs : ∀ i, t.state i ≠ .unused → t.state i ≠ .embryo → t.kstack i = true)
    (hu : ∀ i, t.state i = .unused → t.kstack i = false) : Jobs t := by
  refine ⟨hi, fun i np stage hj => ?_, fun i j np st st' hi hj => ?_, fun np hnp => ?_, hs, hu⟩
  · have hj := (hf i np stage).mp hj
    obtain ⟨hnp, hbuilt⟩ := h.fork i np stage hj
    obtain ⟨hk, hp⟩ := hb i np stage hj
    rw [hk, hp]
    exact ⟨(he np).mpr hnp, hbuilt⟩
  · exact h.creator i j np st st' ((hf i np st).mp hi) ((hf j np st').mp hj)
  · obtain ⟨i, stage, hj⟩ := h.embryo np ((he np).mp hnp)
    exact ⟨i, stage, (hf i np stage).mpr hj⟩

/-- Nobody new sleeps in `wait`; who does keeps a child, and gets no zombie. -/
theorem Waits.keep (h : Waits s)
    (hs : ∀ i, t.state i = .sleeping → t.job i = .wait →
      s.state i = .sleeping ∧ s.job i = .wait ∧ t.chan i = s.chan i ∧ t.killed i = s.killed i ∧
      (∀ p, s.parent p = some i → t.parent p = some i) ∧
      ∀ p, t.parent p = some i → t.state p = .zombie → s.parent p = some i ∧ s.state p = .zombie) : Waits t := by
  constructor
  all_goals
    intro i hi hj
    obtain ⟨hsleep, hwait, hchan, hkilled, hchild, hzombie⟩ := hs i hi hj
  · exact hchan.trans (h.chan i hsleep hwait)
  · obtain ⟨p, hp⟩ := h.child i hsleep hwait
    exact ⟨p, hchild p hp⟩
  · intro p hp hz
    obtain ⟨hp, hz⟩ := hzombie p hp hz
    exact h.zombie i hsleep hwait p hp hz
  · exact hkilled.trans (h.killed i hsleep hwait)

end

/-! ## Steps that only move processes along -/

section

variable {s t : St} {i : Slot}

/-- Only living processes have changed, and live. -/
structure Moves (s t : St) : Prop where
  state : ∀ i, t.state i = s.state i ∨ ((s.state i).alive = true ∧ (t.state i).alive = true)
  pid : t.pid = s.pid
  parent : t.parent = s.parent
  kstack : t.kstack = s.kstack
  job : t.job = s.job
  nextpid : t.nextpid = s.nextpid
  exited : t.exited = s.exited
  reaped : t.reaped = s.reaped

theorem Moves.alive (m : Moves s t) (i : Slot) : (t.state i).alive = (s.state i).alive := by
  rcases m.state i with h | ⟨h1, h2⟩
  · rw [h]
  · rw [h1, h2]

theorem Moves.eq_iff (m : Moves s t) {x : PState} (hx : x.alive = false) (i : Slot) : t.state i = x ↔ s.state i = x := by
  rcases m.state i with h | ⟨h1, h2⟩
  · rw [h]
  · constructor
    · rintro rfl
      rw [hx] at h2
      cases h2
    · rintro rfl
      rw [hx] at h1
      cases h1

theorem Inv.moves (h : Inv s) (m : Moves s t) (hc : Cpus t)
    (hs : ∀ i, t.state i = .sleeping → s.job i = .wait →
      s.state i = .sleeping ∧ t.chan i = s.chan i ∧ t.killed i = s.killed i) : Inv t := by
  have hu : ∀ i, t.state i = .unused ↔ s.state i = .unused := m.eq_iff rfl
  have he : ∀ i, t.state i = .embryo ↔ s.state i = .embryo := m.eq_iff rfl
  have hz : ∀ i, t.state i = .zombie ↔ s.state i = .zombie := m.eq_iff rfl
  refine ⟨hc, ?_, ?_, ?_⟩
  · refine h.family.keep m.parent (fun i hi => (m.alive i).trans hi) (fun i hi => h.family.orphan i ((hu i).mp hi)) ?_
    exact fun i h1 h2 => .inl ⟨(hu i).not.mp h1, (he i).not.mp h2⟩
  · refine h.jobs.keep (by simp [m.job]) ?_ he (by simp [m.kstack, m.parent]) ?_ ?_
    · intro i hi
      rw [m.job]
      exact h.jobs.idle i ((m.alive i).symm.trans hi)
    · intro i h1 h2
      rw [m.kstack]
      exact h.jobs.stack i ((hu i).not.mp h1) ((he i).not.mp h2)
    · intro i hi
      rw [m.kstack]
      exact h.jobs.free i ((hu i).mp hi)
  · apply h.waits.keep
    intro i hi hj
    rw [m.job] at hj
    obtain ⟨h1, h2, h3⟩ := hs i hi hj
    rw [m.parent]
    exact ⟨h1, hj, h2, h3, fun _ hp => hp, fun p hp hzp => ⟨hp, (hz p).mp hzp⟩⟩

/-- `i` goes from one living state to another. -/
theorem moves_update {x : PState} (hi : (s.state i).alive = true) (hx : x.alive = true)
    (ht : t.state = Function.update s.state i x) (hpid : t.pid = s.pid) (hparent : t.parent = s.parent)
    (hkstack : t.kstack = s.kstack) (hjob : t.job = s.job) (hnext : t.nextpid = s.nextpid) (hexited : t.exited = s.exited)
    (hreaped : t.reaped = s.reaped) : Moves s t := by
  refine ⟨fun j => ?_, hpid, hparent, hkstack, hjob, hnext, hexited, hreaped⟩
  rw [ht]
  by_cases e : j = i
  · subst e
    rw [Function.update_self]
    exact .inr ⟨hi, hx⟩
  · rw [Function.update_of_ne e]
    exact .inl rfl

theorem moves_wakeup1 (c : Chan) : Moves s (wakeup1 s c) := by
  refine ⟨fun j => ?_, rfl, rfl, rfl, rfl, rfl, rfl, rfl⟩
  show (if s.state j = .sleeping ∧ s.chan j = c then PState.runnable else s.state j) = _ ∨
    (_ ∧ (if s.state j = .sleeping ∧ s.chan j = c then PState.runnable else s.state j).alive = true)
  split
  · rename_i h
    rw [h.1]
    exact .inr ⟨rfl, rfl⟩
  · exact .inl rfl

theorem sleeping_wakeup1 {c : Chan} (h : (wakeup1 s c).state i = .sleeping) : s.state i = .sleeping ∧ s.chan i ≠ c := by
  have h' : (if s.state i = .sleeping ∧ s.chan i = c then PState.runnable else s.state i) = .sleeping := h
  split at h'
  · cases h'
  · rename_i hne
    exact ⟨h', fun hc => hne ⟨h', hc⟩⟩

theorem running_wakeup1 (c : Chan) (i : Slot) : (wakeup1 s c).state i = .running ↔ s.state i = .running := by
  show (if s.state i = .sleeping ∧ s.chan i = c then PState.runnable else s.state i) = .running ↔ _
  split
  · rename_i h
    rw [h.1]
    decide
  · rfl

theorem inv_wakeup1 (h : Inv s) (c : Chan) : Inv (wakeup1 s c) := by
  apply h.moves (moves_wakeup1 c)
  · exact h.cpus.keep rfl (running_wakeup1 c)
  · exact fun i hi _ => ⟨(sleeping_wakeup1 hi).1, rfl, rfl⟩

theorem inv_dispatch (h : Inv s) (c : Fin ncpu) (i : Slot) : Inv (dispatch s c i) := by
  unfold dispatch
  split
  · rename_i hd
    obtain ⟨hc, hi⟩ := hd
    have hoff : ∀ d, s.cpus d ≠ some i := by
      intro d hd
      rw [h.cpus.running d i hd] at hi
      cases hi
    refine h.moves (moves_update (i := i) (x := .running) (by rw [hi]; rfl) rfl rfl rfl rfl rfl rfl rfl rfl rfl)
      ⟨?_, ?_, ?_⟩ ?_
    · intro d j hj
      have := h.cpus.running d j
      simp only [Function.update_apply] at hj ⊢
      grind
    · intro d d' j hj hj'
      have := h.cpus.once d d' j
      simp only [Function.update_apply] at hj hj'
      grind
    · intro j hj
      by_cases e : j = i
      · subst e
        exact ⟨c, Function.update_self ..⟩
      · simp only [Function.update_of_ne e] at hj
        obtain ⟨d, hd⟩ := h.cpus.somewhere j hj
        have hne : d ≠ c := by
          rintro rfl
          rw [hc] at hd
          cases hd
        exact ⟨d, (Function.update_of_ne hne ..).trans hd⟩
    · intro j hj _
      simp only [Function.update_apply] at hj
      split at hj
      · cases hj
      · exact ⟨hj, rfl, rfl⟩
  · exact h

theorem running_of_update {x : PState} {j : Slot} (hj : j ≠ i) :
    Function.update s.state i x j = .running ↔ s.state j = .running := by
  rw [Function.update_of_ne hj]

theorem inv_yield (h : Inv s) (hi : s.state i = .running) : Inv (yield s i) := by
  have hself : (yield s i).state i = .runnable := Function.update_self ..
  refine h.moves (moves_update (i := i) (x := .runnable) (by rw [hi]; rfl) rfl rfl rfl rfl rfl rfl rfl rfl rfl) ?_ ?_
  · exact h.cpus.leave rfl (by rw [hself]; decide) fun j hj => running_of_update hj
  · intro j hj _
    by_cases e : j = i
    · subst e
      rw [hself] at hj
      cases hj
    · exact ⟨(Function.update_of_ne e ..).symm.trans hj, rfl, rfl⟩

theorem inv_sleep (h : Inv s) (hi : s.state i = .running) (hj : s.job i ≠ .wait) (c : Chan) : Inv (sleep s i c) := by
  have hself : (sleep s i c).state i = .sleeping := Function.update_self ..
  refine h.moves (moves_update (i := i) (x := .sleeping) (by rw [hi]; rfl) rfl rfl rfl rfl rfl rfl rfl rfl rfl) ?_ ?_
  · exact h.cpus.leave rfl (by rw [hself]; decide) fun j hj => running_of_update hj
  · intro j hsleep hwait
    have e : j ≠ i := by
      rintro rfl
      exact hj hwait
    exact ⟨(Function.update_of_ne e ..).symm.trans hsleep, Function.update_of_ne e .., rfl⟩

theorem inv_kill (h : Inv s) (pid : Int) : Inv (kill s pid) := by
  unfold kill
  cases hp : findPid s pid with
  | none => exact h
  | some p =>
    dsimp only
    by_cases hs : s.state p = .sleeping
    · rw [if_pos hs]
      refine h.moves (moves_update (i := p) (x := .runnable) (by rw [hs]; rfl) rfl rfl rfl rfl rfl rfl rfl rfl rfl) ?_ ?_
      · refine h.cpus.keep rfl fun j => ?_
        by_cases e : j = p
        · subst e
          simp only [Function.update_self, hs]
          decide
        · exact running_of_update e
      · intro j hj _
        have e : j ≠ p := by
          rintro rfl
          simp at hj
        exact ⟨(Function.update_of_ne e ..).symm.trans hj, rfl, Function.update_of_ne e ..⟩
    · rw [if_neg hs]
      refine h.moves ⟨fun _ => .inl rfl, rfl, rfl, rfl, rfl, rfl, rfl, rfl⟩ (h.cpus.keep rfl fun _ => Iff.rfl) ?_
      intro j hj _
      have e : j ≠ p := by
        rintro rfl
        exact hs hj
      exact ⟨hj, rfl, Function.update_of_ne e ..⟩

end

/-! ## `fork` -/

section

variable {s t : St} {i np : Slot} {stage x : Stage}

theorem Jobs.alive (h : Jobs s) (hj : s.job i = .fork np stage) : (s.state i).alive = true := by
  by_contra ha
  rw [h.idle i (by simpa using ha)] at hj
  cases hj

/-- A free slot is claimed. -/
theorem Jobs.claim (h : Jobs s) (hi : (s.state i).alive = true) (hj : s.job i = .none) (hnp : s.state np = .unused)
    (hp : s.parent np = none) (hstate : t.state = Function.update s.state np .embryo)
    (hjob : t.job = Function.update s.job i (.fork np .stack)) (hkstack : t.kstack = s.kstack)
    (hparent : t.parent = s.parent) : Jobs t := by
  have hne : i ≠ np := by
    rintro rfl
    rw [hnp] at hi
    cases hi
  refine ⟨fun k hk => ?_, fun k q st hq => ?_, fun k l q st st' hk hl => ?_, fun q hq => ?_, ?_, ?_⟩
  · rw [hstate, Function.update_apply] at hk
    rw [hjob, Function.update_apply]
    have := h.idle k
    grind [PState.alive]
  · rw [hjob, Function.update_apply] at hq
    rw [hstate, hkstack, hparent, Function.update_apply]
    have := h.fork k q st
    have := h.free np hnp
    grind [Stage.Built]
  · rw [hjob, Function.update_apply] at hk hl
    have h1 := h.creator k l q st st'
    have h2 := h.fork k q st
    have h3 := h.fork l q st'
    grind
  · rw [hstate, Function.update_apply] at hq
    rw [hjob]
    by_cases e : q = np
    · exact ⟨i, .stack, by rw [Function.update_self, e]⟩
    · rw [if_neg e] at hq
      obtain ⟨k, st, hk⟩ := h.embryo q hq
      have hki : k ≠ i := by
        rintro rfl
        rw [hj] at hk
        cases hk
      exact ⟨k, st, by rw [Function.update_of_ne hki]; exact hk⟩
  · intro k hk hk'
    rw [hstate, Function.update_apply] at hk hk'
    rw [hkstack]
    have := h.stack k
    grind
  · intro k hk
    rw [hstate, Function.update_apply] at hk
    rw [hkstack]
    have := h.free k
    grind

/-- The next stage is reached. -/
theorem Jobs.advance (h : Jobs s) (hj : s.job i = .fork np stage) (hstate : t.state = s.state)
    (hjob : t.job = Function.update s.job i (.fork np x)) (hkstack : ∀ p, p ≠ np → t.kstack p = s.kstack p)
    (hparent : ∀ p, p ≠ np → t.parent p = s.parent p) (hb : x.Built (t.kstack np) (t.parent np) i) : Jobs t := by
  have hi := h.alive hj
  obtain ⟨hnp, -⟩ := h.fork i np stage hj
  refine ⟨fun k hk => ?_, fun k q st hq => ?_, fun k l q st st' hk hl => ?_, fun q hq => ?_, ?_, ?_⟩
  · rw [hstate] at hk
    have hki : k ≠ i := by
      rintro rfl
      rw [hi] at hk
      cases hk
    rw [hjob, Function.update_of_ne hki]
    exact h.idle k hk
  · rw [hjob, Function.update_apply] at hq
    rw [hstate]
    by_cases e : k = i
    · rw [if_pos e] at hq
      cases hq
      exact ⟨hnp, e ▸ hb⟩
    · rw [if_neg e] at hq
      have hqn : q ≠ np := by
        rintro rfl
        exact e (h.creator k i q st stage hq hj)
      rw [hkstack q hqn, hparent q hqn]
      exact h.fork k q st hq
  · rw [hjob, Function.update_apply] at hk hl
    have h1 := h.creator k l q
    have h2 := h.creator k i q
    have h3 := h.creator i l q
    grind
  · rw [hstate] at hq
    obtain ⟨k, st, hk⟩ := h.embryo q hq
    rw [hjob]
    by_cases e : k = i
    · rw [e, hj] at hk
      cases hk
      exact ⟨i, x, Function.update_self ..⟩
    · exact ⟨k, st, by rw [Function.update_of_ne e]; exact hk⟩
  · intro k hk hk'
    rw [hstate] at hk hk'
    have hkn : k ≠ np := fun e => hk' (e ▸ hnp)
    rw [hkstack k hkn]
    exact h.stack k hk hk'
  · intro k hk
    rw [hstate] at hk
    have hkn : k ≠ np := by
      rintro rfl
      rw [hnp] at hk
      cases hk
    rw [hkstack k hkn]
    exact h.free k hk

/-- `fork` returns: the child's slot is free again, or the child can run. -/
theorem Jobs.finish {x : PState} (h : Jobs s) (hj : s.job i = .fork np stage) (hstate : t.state = Function.update s.state np x)
    (hjob : t.job = Function.update s.job i .none) (hkstack : ∀ p, p ≠ np → t.kstack p = s.kstack p)
    (hparent : t.parent = s.parent) (hx : x = .unused ∧ t.kstack np = false ∨ x = .runnable ∧ t.kstack np = true) : Jobs t := by
  obtain ⟨hnp, -⟩ := h.fork i np stage hj
  have hxe : x ≠ .embryo := by rcases hx with ⟨rfl, -⟩ | ⟨rfl, -⟩ <;> decide
  refine ⟨fun k hk => ?_, fun k q st hq => ?_, fun k l q st st' hk hl => ?_, fun q hq => ?_, ?_, ?_⟩
  · rw [hjob, Function.update_apply]
    split
    · rfl
    · by_cases e : k = np
      · rw [e]
        exact h.idle np (by rw [hnp]; rfl)
      · rw [hstate, Function.update_of_ne e] at hk
        exact h.idle k hk
  · rw [hjob, Function.update_apply] at hq
    split at hq
    · cases hq
    · rename_i e
      have hqn : q ≠ np := by
        rintro rfl
        exact e (h.creator k i q st stage hq hj)
      rw [hstate, Function.update_of_ne hqn, hkstack q hqn, hparent]
      exact h.fork k q st hq
  · rw [hjob, Function.update_apply] at hk hl
    have := h.creator k l q st st'
    grind
  · rw [hstate, Function.update_apply] at hq
    split at hq
    · exact absurd hq hxe
    · rename_i e
      obtain ⟨k, st, hk⟩ := h.embryo q hq
      have hki : k ≠ i := by
        rintro rfl
        rw [hj] at hk
        cases hk
        exact e rfl
      exact ⟨k, st, by rw [hjob, Function.update_of_ne hki]; exact hk⟩
  · intro k hk hk'
    by_cases e : k = np
    · subst e
      rw [hstate, Function.update_self] at hk
      rcases hx with ⟨hx, -⟩ | ⟨-, hx⟩
      · exact absurd hx hk
      · exact hx
    · rw [hstate, Function.update_of_ne e] at hk hk'
      rw [hkstack k e]
      exact h.stack k hk hk'
  · intro k hk
    by_cases e : k = np
    · subst e
      rw [hstate, Function.update_self] at hk
      rcases hx with ⟨-, hx⟩ | ⟨hx, -⟩
      · exact hx
      · rw [hx] at hk
        cases hk
    · rw [hstate, Function.update_of_ne e] at hk
      rw [hkstack k e]
      exact h.free k hk

/-- A slot that is not on a processor changes, and is not put on one. -/
theorem running_iff_of_update {x : PState} (hnp : s.state np ≠ .running) (hx : x ≠ .running) (j : Slot) :
    Function.update s.state np x j = .running ↔ s.state j = .running := by
  by_cases e : j = np
  · rw [e, Function.update_self]
    exact iff_of_false hx hnp
  · rw [Function.update_of_ne e]

theorem alive_of_update {x : PState} {j : Slot} (hnp : (s.state np).alive ≠ true) (hj : (s.state j).alive = true) :
    (Function.update s.state np x j).alive = true := by
  have hne : j ≠ np := fun e => hnp (e ▸ hj)
  rwa [Function.update_of_ne hne]

theorem find_unused (h : (slots.find? fun p => decide (s.state p = .unused)) = some np) : s.state np = .unused := by
  simpa using List.find?_some h

theorem inv_allocproc (h : Inv s) (hi : s.state i = .running) (hj : s.job i = .none) : Inv (allocproc s i) := by
  unfold allocproc
  cases hfind : slots.find? fun p => decide (s.state p = .unused) with
  | none => exact h
  | some np =>
    have hnp := find_unused hfind
    have hp := h.family.orphan np hnp
    have hsleep : ∀ j, Function.update s.state np .embryo j = .sleeping → s.state j = .sleeping ∧ j ≠ i := by
      intro j hs
      rw [Function.update_apply] at hs
      split at hs
      · cases hs
      · refine ⟨hs, ?_⟩
        rintro rfl
        rw [hi] at hs
        cases hs
    have hzombie : ∀ j, Function.update s.state np .embryo j = .zombie ↔ s.state j = .zombie := by
      intro j
      rw [Function.update_apply]
      grind
    refine ⟨h.cpus.keep rfl (running_iff_of_update (by rw [hnp]; decide) (by decide)), ?_,
      h.jobs.claim (by rw [hi]; rfl) hj hnp hp rfl rfl rfl rfl, ?_⟩
    · refine h.family.keep rfl ?_ ?_ ?_
      · exact fun j ha => alive_of_update (by rw [hnp]; decide) ha
      · have := h.family.orphan
        simp only [Function.update_apply]
        grind
      · simp only [Function.update_apply]
        grind
    · refine h.waits.keep fun j hsl hw => ?_
      obtain ⟨hsl, hne⟩ := hsleep j hsl
      have hw : s.job j = .wait := (Function.update_of_ne hne ..).symm.trans hw
      exact ⟨hsl, hw, rfl, rfl, fun _ hp => hp, fun p hp hz => ⟨hp, (hzombie p).mp hz⟩⟩

/-- In `fork` the parent is on a processor, and the child does not live yet. -/
theorem waits_of_fork (h : Inv s) (hi : s.state i = .running) (hj : s.job i = .fork np stage) {x : PState} {y : Job}
    (hx : x ≠ .sleeping) (hz : x ≠ .zombie) (hstate : t.state = Function.update s.state np x)
    (hjob : t.job = Function.update s.job i y) (hparent : ∀ p, p ≠ np → t.parent p = s.parent p)
    (hnp : s.parent np ≠ none → t.parent np = s.parent np) (hchan : t.chan = s.chan) (hkilled : t.killed = s.killed) : Waits t := by
  refine h.waits.keep fun j hsl hw => ?_
  have hjn : j ≠ np := by
    rintro rfl
    rw [hstate, Function.update_self] at hsl
    exact hx hsl
  rw [hstate, Function.update_of_ne hjn] at hsl
  have hji : j ≠ i := by
    rintro rfl
    rw [hi] at hsl
    cases hsl
  rw [hjob, Function.update_of_ne hji] at hw
  refine ⟨hsl, hw, by rw [hchan], by rw [hkilled], fun p hp => ?_, fun p hp hzp => ?_⟩
  · by_cases e : p = np
    · subst e
      rw [hnp (by rw [hp]; simp), hp]
    · rw [hparent p e, hp]
  · have e : p ≠ np := by
      rintro rfl
      rw [hstate, Function.update_self] at hzp
      exact hz hzp
    rw [hparent p e] at hp
    rw [hstate, Function.update_of_ne e] at hzp
    exact ⟨hp, hzp⟩

/-- `fork` returns, in one of its three ways. -/
theorem inv_of_finish (h : Inv s) (hi : s.state i = .running) (hj : s.job i = .fork np stage) {x : PState}
    (hx : x = .unused ∧ t.kstack np = false ∧ s.parent np = none ∨ x = .runnable ∧ t.kstack np = true ∧ s.parent np ≠ none)
    (hstate : t.state = Function.update s.state np x) (hjob : t.job = Function.update s.job i .none)
    (hkstack : ∀ p, p ≠ np → t.kstack p = s.kstack p) (hparent : t.parent = s.parent)
    (hchan : t.chan = s.chan) (hkilled : t.killed = s.killed) (hcpus : t.cpus = s.cpus) : Inv t := by
  obtain ⟨hnp, -⟩ := h.jobs.fork i np stage hj
  have hxs : x ≠ .running ∧ x ≠ .sleeping ∧ x ≠ .zombie := by
    rcases hx with ⟨rfl, -⟩ | ⟨rfl, -⟩ <;> decide
  refine ⟨h.cpus.keep hcpus ?_, h.family.keep hparent ?_ ?_ ?_, h.jobs.finish hj hstate hjob hkstack hparent ?_,
    waits_of_fork h hi hj hxs.2.1 hxs.2.2 hstate hjob (by simp [hparent]) (by simp [hparent]) hchan hkilled⟩
  · rw [hstate]
    exact running_iff_of_update (by rw [hnp]; decide) hxs.1
  · rw [hstate]
    exact fun j ha => alive_of_update (by rw [hnp]; decide) ha
  · rw [hstate]
    have := h.family.orphan
    simp only [Function.update_apply]
    grind
  · rw [hstate]
    simp only [Function.update_apply]
    grind
  · rcases hx with ⟨h1, h2, -⟩ | ⟨h1, h2, -⟩
    · exact .inl ⟨h1, h2⟩
    · exact .inr ⟨h1, h2⟩

theorem inv_build (h : Inv s) (hi : s.state i = .running) (ok : Bool) : Inv (build s i ok) := by
  unfold build
  cases hj : s.job i with
  | none => exact h
  | wait => exact h
  | fork np stage =>
    obtain ⟨hnp, hbuilt⟩ := h.jobs.fork i np stage hj
    have hsame : s.state = Function.update s.state np .embryo := by rw [← hnp, Function.update_eq_self]
    cases stage with
    | stack =>
      cases ok with
      | true =>
        refine ⟨h.cpus.keep rfl fun _ => Iff.rfl,
          h.family.keep rfl (fun _ ha => ha) h.family.orphan fun _ h1 h2 => .inl ⟨h1, h2⟩, ?_, ?_⟩
        · exact h.jobs.advance (x := .memory) hj rfl rfl (fun p hp => Function.update_of_ne hp ..) (fun _ _ => rfl)
            ⟨Function.update_self .., hbuilt.2⟩
        · exact waits_of_fork h hi hj (by decide) (by decide) hsame rfl (fun _ _ => rfl) (fun _ => rfl) rfl rfl
      | false =>
        exact inv_of_finish h hi hj (.inl ⟨rfl, hbuilt.1, hbuilt.2⟩) rfl rfl (fun _ _ => rfl) rfl rfl rfl rfl
    | memory =>
      cases ok with
      | true =>
        refine ⟨h.cpus.keep rfl fun _ => Iff.rfl, ?_, ?_, ?_⟩
        · obtain ⟨h1, h2, h3, h4, h5, h6⟩ := h.family
          have hne : np ≠ i := by
            rintro rfl
            rw [hi] at hnp
            cases hnp
          have hfirst : np ≠ initproc := by
            rintro rfl
            rw [hnp] at h1
            cases h1
          have hia : (s.state i).alive = true := by rw [hi]; rfl
          constructor <;> simp only [if_true, Function.update_apply] <;> grind
        · exact h.jobs.advance (x := .done) hj rfl rfl (fun _ _ => rfl) (fun p hp => Function.update_of_ne hp ..)
            ⟨hbuilt.1, Function.update_self ..⟩
        · exact waits_of_fork h hi hj (by decide) (by decide) hsame rfl (fun p hp => Function.update_of_ne hp ..)
            (fun hp => absurd hbuilt.2 hp) rfl rfl
      | false =>
        exact inv_of_finish h hi hj (.inl ⟨rfl, Function.update_self .., hbuilt.2⟩) rfl rfl
          (fun p hp => Function.update_of_ne hp ..) rfl rfl rfl rfl
    | done =>
      exact inv_of_finish h hi hj (.inr ⟨rfl, hbuilt.1, by rw [hbuilt.2]; simp⟩) rfl rfl (fun _ _ => rfl) rfl rfl rfl rfl

end

/-! ## `exit` and `wait` -/

section

variable {s t : St} {i : Slot}

/-- What `exit` does. -/
structure Exits (s t : St) (i : Slot) : Prop where
  self : t.state i = .zombie
  state : ∀ j, j ≠ i → t.state j = s.state j ∨ (s.state j = .sleeping ∧ t.state j = .runnable)
  /-- who still sleeps in `wait` is not the parent, and not the first process if that has got a zombie -/
  asleep : ∀ j, j ≠ i → t.state j = .sleeping → s.chan j = .proc j →
    s.parent i ≠ some j ∧ (j = initproc → ∀ p, s.parent p = some i → s.state p ≠ .zombie)
  parent : ∀ p, t.parent p = if s.parent p = some i then some initproc else s.parent p
  pid : t.pid = s.pid
  killed : t.killed = s.killed
  chan : t.chan = s.chan
  kstack : t.kstack = s.kstack
  job : t.job = s.job
  cpus : t.cpus = (leaveCpu s i).cpus
  nextpid : t.nextpid = s.nextpid
  exited : t.exited = s.exited
  reaped : t.reaped = s.reaped

theorem wakeup1_state (c : Chan) (j : Slot) :
    (wakeup1 s c).state j = s.state j ∨ (s.state j = .sleeping ∧ (wakeup1 s c).state j = .runnable) := by
  by_cases h : s.state j = .sleeping ∧ s.chan j = c
  · exact .inr ⟨h.1, if_pos h⟩
  · exact .inl (if_neg h)

theorem exits_of_exit (ht : exit s i = some t) : i ≠ initproc ∧ Exits s t i := by
  unfold exit at ht
  split at ht
  · cases ht
  rename_i hne
  refine ⟨hne, ?_⟩
  -- the table after `wakeup1(curproc->parent)`
  obtain ⟨u, hu, hstate, hasleep, hparent, hpid, hkilled, hchan, hkstack, hjob, hcpus, hnext, hexited, hreaped⟩ : ∃ u,
      (match s.parent i with | some q => wakeup1 s (.proc q) | none => s) = u ∧
      (∀ j, u.state j = s.state j ∨ (s.state j = .sleeping ∧ u.state j = .runnable)) ∧
      (∀ j, u.state j = .sleeping → s.chan j = .proc j → s.parent i ≠ some j) ∧ u.parent = s.parent ∧ u.pid = s.pid ∧
      u.killed = s.killed ∧ u.chan = s.chan ∧ u.kstack = s.kstack ∧ u.job = s.job ∧ u.cpus = s.cpus ∧
      u.nextpid = s.nextpid ∧ u.exited = s.exited ∧ u.reaped = s.reaped := by
    refine ⟨_, rfl, ?_⟩
    cases hp : s.parent i with
    | none => exact ⟨fun _ => .inl rfl, fun _ _ _ => by simp, rfl, rfl, rfl, rfl, rfl, rfl, rfl, rfl, rfl, rfl⟩
    | some q =>
      refine ⟨wakeup1_state _, fun j hs hc => ?_, rfl, rfl, rfl, rfl, rfl, rfl, rfl, rfl, rfl, rfl⟩
      rintro ⟨⟩
      exact (sleeping_wakeup1 hs).2 hc
  rw [hu] at ht
  have hzombie : ∀ j, u.state j = .zombie ↔ s.state j = .zombie := by
    intro j
    rcases hstate j with h | ⟨h1, h2⟩
    · rw [h]
    · rw [h1, h2]
      decide
  dsimp only at ht
  split at ht
  · cases ht
    refine ⟨Function.update_self .., fun j hj => ?_, fun j hj hs hc => ?_, fun p => ?_, hpid, hkilled, hchan, hkstack, hjob, ?_,
      hnext, hexited, hreaped⟩
    · have hw := wakeup1_state (s := { u with parent := fun p => if u.parent p = some i then some initproc else u.parent p })
        (.proc initproc) j
      have hs := hstate j
      simp only [Function.update_of_ne hj]
      grind
    · simp only [Function.update_of_ne hj] at hs
      obtain ⟨hs, hne⟩ := sleeping_wakeup1 hs
      refine ⟨hasleep j hs hc, ?_⟩
      rintro rfl
      exact absurd ((congrFun hchan _).trans hc) hne
    · show (if u.parent p = some i then some initproc else u.parent p) = _
      rw [hparent]
    · show (fun c => if u.cpus c = some i then none else u.cpus c) = _
      rw [hcpus]
      rfl
  · rename_i hany
    cases ht
    refine ⟨Function.update_self .., fun j hj => ?_, fun j hj hs hc => ?_, fun p => ?_, hpid, hkilled, hchan, hkstack, hjob, ?_,
      hnext, hexited, hreaped⟩
    · simp only [Function.update_of_ne hj]
      exact hstate j
    · simp only [Function.update_of_ne hj] at hs
      refine ⟨hasleep j hs hc, fun _ p hp hz => hany ?_⟩
      rw [List.any_eq_true]
      exact ⟨p, List.mem_finRange p, by simp [hparent, hp, (hzombie p).mpr hz]⟩
    · show (if u.parent p = some i then some initproc else u.parent p) = _
      rw [hparent]
    · show (fun c => if u.cpus c = some i then none else u.cpus c) = _
      rw [hcpus]
      rfl

theorem Exits.alive (e : Exits s t i) {j : Slot} (hj : j ≠ i) : (t.state j).alive = (s.state j).alive := by
  rcases e.state j hj with h | ⟨h1, h2⟩
  · rw [h]
  · rw [h1, h2]
    rfl

theorem Exits.eq_iff (e : Exits s t i) {x : PState} (hx : x.alive = false) {j : Slot} (hj : j ≠ i) :
    t.state j = x ↔ s.state j = x := by
  rcases e.state j hj with h | ⟨h1, h2⟩
  · rw [h]
  · rw [h1, h2]
    constructor
    · rintro rfl
      cases hx
    · rintro rfl
      cases hx

/-- No slot is freed or claimed. -/
theorem Exits.slot_iff (e : Exits s t i) (hi : s.state i = .running) {x : PState} (hx : x.alive = false) (hz : x ≠ .zombie) (j : Slot) :
    t.state j = x ↔ s.state j = x := by
  by_cases ej : j = i
  · rw [ej, e.self, hi]
    refine iff_of_false hz.symm ?_
    rintro rfl
    cases hx
  · exact e.eq_iff hx ej

theorem family_exit (h : Family s) (hi : s.state i = .running) (hne : i ≠ initproc) (e : Exits s t i) : Family t := by
  refine ⟨by rw [e.alive hne.symm]; exact h.first, fun j hj => ?_, fun j q hq => ?_, fun j h1 h2 h3 => ?_, ?_, fun j => ?_⟩
  · rw [e.parent, h.orphan j ((e.slot_iff hi rfl (by decide) j).mp hj)]
    simp
  · rw [e.parent] at hq
    split at hq
    · cases hq
      rw [e.alive hne.symm]
      exact h.first
    · rename_i hp
      have hqi : q ≠ i := by
        rintro rfl
        exact hp hq
      rw [e.alive hqi]
      exact h.parent j q hq
  · rw [e.parent]
    split
    · simp
    · exact h.raised j h1 ((e.slot_iff hi rfl (by decide) j).not.mp h2) ((e.slot_iff hi rfl (by decide) j).not.mp h3)
  · rw [e.parent, h.root]
    simp
  · rw [e.parent]
    split
    · rename_i hp
      rintro ⟨⟩
      rw [h.root] at hp
      cases hp
    · exact h.other j

theorem jobs_exit (h : Jobs s) (hi : s.state i = .running) (hj : s.job i = .none) (e : Exits s t i) : Jobs t := by
  have hu := e.slot_iff (x := .unused) hi rfl (by decide)
  have he := e.slot_iff (x := .embryo) hi rfl (by decide)
  refine h.keep (by simp [e.job]) (fun k ha => ?_) he (fun k np stage hf => ?_) (fun k h1 h2 => ?_) fun k hk => ?_
  · rw [e.job]
    by_cases ek : k = i
    · rw [ek, hj]
    · exact h.idle k ((e.alive ek).symm.trans ha)
  · refine ⟨by rw [e.kstack], ?_⟩
    rw [e.parent, if_neg]
    intro hp
    -- the parent of a child in `fork` is the one who forks
    have hki : k ≠ i := by
      rintro rfl
      rw [hj] at hf
      cases hf
    obtain ⟨-, hb⟩ := h.fork k np stage hf
    rw [hp] at hb
    cases stage with
    | stack => cases hb.2
    | memory => cases hb.2
    | done => exact hki (Option.some_inj.mp hb.2).symm
  · rw [e.kstack]
    exact h.stack k ((hu k).not.mp h1) ((he k).not.mp h2)
  · rw [e.kstack]
    exact h.free k ((hu k).mp hk)

theorem waits_exit (h : Waits s) (hf : Family s) (e : Exits s t i) : Waits t := by
  refine h.keep fun j hs hw => ?_
  have hji : j ≠ i := by
    rintro rfl
    rw [e.self] at hs
    cases hs
  have hs' : s.state j = .sleeping := by
    rcases e.state j hji with h' | ⟨-, h2⟩
    · rw [← h', hs]
    · rw [hs] at h2
      cases h2
  rw [e.job] at hw
  obtain ⟨hnp, hfirst⟩ := e.asleep j hji hs (h.chan j hs' hw)
  refine ⟨hs', hw, by rw [e.chan], by rw [e.killed], fun p hp => ?_, fun p hp hz => ?_⟩
  · rw [e.parent, hp, if_neg]
    rintro ⟨⟩
    exact hji rfl
  · have hpi : p ≠ i := by
      rintro rfl
      rw [e.parent, if_neg (hf.other p)] at hp
      exact hnp hp
    have hz := (e.eq_iff rfl hpi).mp hz
    rw [e.parent] at hp
    split at hp
    · rename_i hpc
      cases hp
      exact absurd hz (hfirst rfl p hpc)
    · exact ⟨hp, hz⟩

theorem inv_exit (h : Inv s) (hi : s.state i = .running) (hj : s.job i = .none) (ht : exit s i = some t) : Inv t := by
  obtain ⟨hne, e⟩ := exits_of_exit ht
  refine ⟨h.cpus.leave e.cpus (by rw [e.self]; decide) fun j hji => ?_,
    family_exit h.family hi hne e, jobs_exit h.jobs hi hj e, waits_exit h.waits h.family e⟩
  rcases e.state j hji with h' | ⟨h1, h2⟩
  · rw [h']
  · rw [h1, h2]
    decide

theorem inv_reap {p : Slot} (h : Inv s) (hi : s.state i = .running) (hj : s.job i = .none ∨ s.job i = .wait)
    (hp : s.parent p = some i) (hz : s.state p = .zombie) :
    Inv (reap s i p) := by
  have hfirst : p ≠ initproc := by
    rintro rfl
    rw [h.family.root] at hp
    cases hp
  unfold reap
  refine ⟨h.cpus.keep rfl (running_iff_of_update (by rw [hz]; decide) (by decide)), ?_, ?_, ?_⟩
  · obtain ⟨h1, h2, h3, h4, h5, h6⟩ := h.family
    refine ⟨alive_of_update (by rw [hz]; decide) h1, ?_, ?_, ?_, ?_, ?_⟩
    · simp only [Function.update_apply]
      grind
    · intro j q hq
      simp only [Function.update_apply] at hq
      split at hq
      · cases hq
      · exact alive_of_update (by rw [hz]; decide) (h3 j q hq)
    all_goals
      simp only [Function.update_apply]
      grind
  · refine h.jobs.keep ?_ ?_ ?_ ?_ ?_ ?_
    · intro j np stage
      simp only [Function.update_apply]
      grind
    · intro j ha
      have := h.jobs.idle j
      have := h.jobs.idle p (by rw [hz]; rfl)
      simp only [Function.update_apply] at ha ⊢
      grind
    · simp only [Function.update_apply]
      grind
    · intro j np stage hf
      have hne : np ≠ p := by
        rintro rfl
        rw [(h.jobs.fork j np stage hf).1] at hz
        cases hz
      exact ⟨Function.update_of_ne hne .., Function.update_of_ne hne ..⟩
    · have := h.jobs.stack
      simp only [Function.update_apply]
      grind
    · have := h.jobs.free
      simp only [Function.update_apply]
      grind
  · refine h.waits.keep fun j hs hw => ?_
    have hjp : j ≠ p := by
      rintro rfl
      simp at hs
    simp only [Function.update_of_ne hjp] at hs ⊢
    have hji : j ≠ i := by
      rintro rfl
      rw [hi] at hs
      cases hs
    simp only [Function.update_of_ne hji] at hw
    refine ⟨hs, hw, trivial, trivial, fun q hq => ?_, fun q hq hzq => ?_⟩
    · have hqp : q ≠ p := by
        rintro rfl
        rw [hp] at hq
        exact hji (Option.some_inj.mp hq).symm
      rw [Function.update_of_ne hqp]
      exact hq
    · simp only [Function.update_apply] at hq hzq
      grind

/-- A process that has nothing to do with `fork` sets or clears its place in `wait`. -/
theorem Jobs.wait {x : Job} (h : Jobs s) (hi : (s.state i).alive = true) (hj : s.job i = .none ∨ s.job i = .wait)
    (hx : x = .none ∨ x = .wait) (ht : t.job = Function.update s.job i x) (ha : ∀ j, (t.state j).alive = (s.state j).alive)
    (hu : ∀ j, t.state j = .unused ↔ s.state j = .unused) (he : ∀ j, t.state j = .embryo ↔ s.state j = .embryo)
    (hk : t.kstack = s.kstack) (hp : t.parent = s.parent) : Jobs t := by
  refine h.keep (fun j np stage => ?_) (fun j hj' => ?_) he (by simp [hk, hp]) (fun j h1 h2 => ?_) fun j hj' => ?_
  · rw [ht, Function.update_apply]
    grind
  · rw [ha] at hj'
    rw [ht, Function.update_of_ne (by rintro rfl; rw [hi] at hj'; cases hj')]
    exact h.idle j hj'
  · rw [hk]
    exact h.stack j ((hu j).not.mp h1) ((he j).not.mp h2)
  · rw [hk]
    exact h.free j ((hu j).mp hj')

/-- `wait` goes to sleep. -/
theorem inv_wait_sleep (h : Inv s) (hi : s.state i = .running) (hj : s.job i = .none ∨ s.job i = .wait)
    (hchild : ∃ p, s.parent p = some i) (hnone : ∀ p, s.parent p = some i → s.state p ≠ .zombie)
    (hk : s.killed i = false) : Inv { sleep s i (.proc i) with job := Function.update s.job i .wait } := by
  have hia : (s.state i).alive = true := by rw [hi]; rfl
  have m : Moves s (sleep s i (.proc i)) :=
    moves_update (i := i) (x := .sleeping) hia rfl rfl rfl rfl rfl rfl rfl rfl rfl
  have hu : ∀ j, (sleep s i (.proc i)).state j = .unused ↔ s.state j = .unused := m.eq_iff rfl
  have he : ∀ j, (sleep s i (.proc i)).state j = .embryo ↔ s.state j = .embryo := m.eq_iff rfl
  have hz : ∀ j, (sleep s i (.proc i)).state j = .zombie ↔ s.state j = .zombie := m.eq_iff rfl
  refine ⟨?_, ?_, h.jobs.wait hia hj (.inr rfl) rfl m.alive hu he rfl rfl, ?_⟩
  · refine h.cpus.leave rfl ?_ fun j hji => running_of_update hji
    rw [show (sleep s i (.proc i)).state i = .sleeping from Function.update_self ..]
    decide
  · refine h.family.keep rfl (fun j ha => (m.alive j).trans ha) (fun j hj' => h.family.orphan j ((hu j).mp hj')) ?_
    exact fun j h1 h2 => .inl ⟨(hu j).not.mp h1, (he j).not.mp h2⟩
  · constructor
    all_goals
      intro j hs hw
      by_cases e : j = i
    · rw [e]
      exact Function.update_self ..
    · simp only [sleep, Function.update_of_ne e] at hs hw ⊢
      exact h.waits.chan j hs hw
    · rw [e]
      exact hchild
    · simp only [sleep, Function.update_of_ne e] at hs hw
      exact h.waits.child j hs hw
    · rw [e]
      exact fun p hp => (hz p).not.mpr (hnone p hp)
    · simp only [sleep, Function.update_of_ne e] at hs hw
      exact fun p hp => (hz p).not.mpr (h.waits.zombie j hs hw p hp)
    · rw [e]
      exact hk
    · simp only [sleep, Function.update_of_ne e] at hs hw
      exact h.waits.killed j hs hw

theorem inv_wait (h : Inv s) (hi : s.state i = .running) (hj : s.job i = .none ∨ s.job i = .wait) : Inv (wait s i).1 := by
  have hia : (s.state i).alive = true := by rw [hi]; rfl
  unfold wait
  cases hfind : slots.find? fun p => decide (s.parent p = some i ∧ s.state p = .zombie) with
  | some p =>
    obtain ⟨hp, hz⟩ : s.parent p = some i ∧ s.state p = .zombie := by simpa using List.find?_some hfind
    exact inv_reap h hi hj hp hz
  | none =>
    have hnone : ∀ p, s.parent p = some i → s.state p ≠ .zombie := by
      intro p hp hz
      have := List.find?_eq_none.mp hfind p (List.mem_finRange p)
      simp [hp, hz] at this
    dsimp only
    split
    · refine ⟨h.cpus.keep rfl fun _ => Iff.rfl,
        h.family.keep rfl (fun _ ha => ha) h.family.orphan fun _ h1 h2 => .inl ⟨h1, h2⟩,
        h.jobs.wait hia hj (.inl rfl) rfl (fun _ => rfl) (fun _ => Iff.rfl) (fun _ => Iff.rfl) rfl rfl, ?_⟩
      refine h.waits.keep fun j hs hw => ?_
      have hji : j ≠ i := by
        rintro rfl
        rw [hi] at hs
        cases hs
      simp only [Function.update_of_ne hji] at hw
      exact ⟨hs, hw, rfl, rfl, fun _ hp => hp, fun _ hp hz => ⟨hp, hz⟩⟩
    · rename_i hkids
      rw [not_or] at hkids
      apply inv_wait_sleep h hi hj
      · obtain ⟨p, -, hp⟩ := List.any_eq_true.mp (Bool.eq_true_of_not_eq_false hkids.1)
        exact ⟨p, of_decide_eq_true hp⟩
      · exact hnone
      · exact Bool.eq_false_of_not_eq_true hkids.2

end

/-! ## Runs -/

/-- What has been put down is no part of the table. -/
theorem Inv.put {s : St} (h : Inv s) (exited reaped : List Int) : Inv { s with exited := exited, reaped := reaped } :=
  ⟨h.cpus.keep rfl fun _ => Iff.rfl, h.family.keep rfl (fun _ ha => ha) h.family.orphan fun _ h1 h2 => .inl ⟨h1, h2⟩,
    h.jobs.keep (fun _ _ _ => Iff.rfl) h.jobs.idle (fun _ => Iff.rfl) (fun _ _ _ _ => ⟨rfl, rfl⟩) h.jobs.stack h.jobs.free,
    h.waits.keep fun _ hs hw => ⟨hs, hw, rfl, rfl, fun _ hp => hp, fun _ hp hz => ⟨hp, hz⟩⟩⟩

theorem inv_record {s : St} (h : Inv s) (answer : Option Int) : Inv (record s answer) := by
  cases answer with
  | none => exact h
  | some pid =>
    unfold record
    dsimp only
    split
    · exact h
    · exact h.put s.exited _

theorem inv_step {s t : St} {e : Ev} (h : Inv s) (ht : step s e = some t) : Inv t := by
  cases e with
  | dispatch c i =>
    cases ht
    exact inv_dispatch h c i
  | yield i =>
    cases ht
    split
    · rename_i hi
      exact inv_yield h hi
    · exact h
  | sleep i c =>
    cases ht
    split
    · rename_i hi
      exact inv_sleep h hi.1 hi.2 (.other c)
    · exact h
  | wakeup c =>
    cases ht
    exact inv_wakeup1 h (.other c)
  | alloc i =>
    cases ht
    split
    · rename_i hi
      exact inv_allocproc h hi.1 hi.2
    · exact h
  | build i ok =>
    cases ht
    split
    · rename_i hi
      exact inv_build h hi ok
    · exact h
  | exit i =>
    simp only [step] at ht
    split at ht
    · rename_i hi
      obtain ⟨u, hu, rfl⟩ := Option.map_eq_some_iff.mp ht
      exact (inv_exit h hi.1 hi.2 hu).put _ u.reaped
    · cases ht
      exact h
  | wait i =>
    cases ht
    split
    · rename_i hi
      exact inv_record (inv_wait h hi.1 hi.2) _
    · exact h
  | kill pid =>
    cases ht
    exact inv_kill h pid

theorem inv_after {es : List Ev} {t : St} (ht : after step userinit es = some t) : Inv t :=
  after_inv Inv (fun _ _ => True) (fun _ _ _ h _ he => inv_step h he) es userinit t inv_userinit (fun _ _ => trivial) ht

/-- The first process forks one child. -/
def oneFork : List Ev :=
  [.dispatch ⟨0, by decide⟩ initproc, .alloc initproc, .build initproc true, .build initproc true, .build initproc true]

/-- No wakeup is lost in `wait`: who sleeps there has a child, none that is a zombie, and has not been killed. -/
theorem wait_sleeps_rightly (es : List Ev) (t : St) (i : Slot) (ht : after step userinit es = some t)
    (hs : t.state i = .sleeping) (hw : t.job i = .wait) :
    t.chan i = .proc i ∧ t.killed i = false ∧ (∃ p, t.parent p = some i) ∧
      ∀ p, t.parent p = some i → t.state p ≠ .zombie :=
  have h := (inv_after ht).waits
  ⟨h.chan i hs hw, h.killed i hs hw, h.child i hs hw, h.zombie i hs hw⟩

theorem wait_sleeps_rightly_one_fork :
    ∃ t, after step userinit (oneFork ++ [.wait initproc]) = some t ∧ t.chan initproc = .proc initproc :=
  ⟨_, rfl, (wait_sleeps_rightly (oneFork ++ [.wait initproc]) _ initproc rfl rfl rfl).1⟩

end CS5600.Xv6.Proc
