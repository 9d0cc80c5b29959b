/-
  CS5600.Alloc.ThreadsInit — who runs `initialize_arena` (see `CS5600.Alloc.Threads`).

  `global_lock` guards `arena_initializer`, but it is itself created by whichever thread finds
  `g_lock_init` 0, and more than one can. A thread that found it 0 and is late calls
  `pthread_mutex_init` while another is inside, frees the mutex under it, and goes in too.

  Proved (`init_once`): in a run where no thread creates the mutex anew while it is held and the
  arenas are not there yet, `initialize_arena` is entered at most once and no list is searched
  before it has returned. `second_init` is the run of two threads that enters it twice.

  A thread is before the mutex, at the test of `arena_initializer`, in the initialisation, at the
  assignment after it, or past all that (`phase`); `exec_moves` is what a statement can do to the
  flag, the mutex and the counts, and all the proof uses of the statements.
-/

import CS5600.Alloc.Threads

namespace CS5600.Alloc.Threads

open CS5600.Lib.Interleave CS5600.Lib.Runs CS5600.Alloc.Block CS5600.Alloc.Arenas

inductive Phase where
  | before
  | testing
  | working
  | setting
  | past
  deriving DecidableEq

def phase : Pc → Phase
  | .idle => .before
  | .testLockInit _ => .before
  | .initLock _ => .before
  | .setLockInit _ => .before
  | .lockGlobal _ => .before
  | .freeTest ptr => if ptr = 0 then .before else .past
  | .testInit _ => .testing
  | .init _ _ => .working
  | .setInit _ => .setting
  | _ => .past

/-- Between the lock and the assignment of `arena_initializer`. -/
def Inside (p : Pc) : Prop := phase p = .testing ∨ phase p = .working ∨ phase p = .setting

/-- In a loop over a list, or about to read its head. -/
def Searching : Pc → Prop
  | .pick _ _ => True
  | .head _ _ => True
  | .walk _ _ => True
  | .test _ _ => True
  | .advance _ _ => True
  | .freeHead _ _ _ => True
  | .freeWalk _ _ => True
  | .freeAdvance _ _ => True
  | _ => False

/-- The thread does not create a mutex that is held while there are no arenas. -/
def InTime (σ : Sys Sh Pc) : Ev → Prop
  | .run i _ => ∀ s, σ.pc i = .initLock s → σ.sh.globalLock = true → σ.sh.st.arenaInitializer = true
  | _ => True

variable {E : Env} {h h' : Sh} {p p' : Pc} {answer : Option Nat}

/-! ## What a statement does to the flag and the mutex -/

structure Same (h h' : Sh) : Prop where
  flag : h'.st.arenaInitializer = h.st.arenaInitializer
  entered : h'.entered = h.entered
  returned : h'.returned = h.returned
  live : h'.st.live = h.st.live

inductive Moves (h h' : Sh) : Phase → Phase → Prop
  | before : Same h h' → h'.globalLock = h.globalLock → Moves h h' .before .before
  | create : Same h h' → (h.globalLock = true → h.st.arenaInitializer = true) → h'.globalLock = false →
      Moves h h' .before .before
  | lock : Same h h' → h.globalLock = false → h'.globalLock = true → Moves h h' .before .testing
  | enter : h.st.arenaInitializer = false → h' = { h with entered := h.entered + 1 } → Moves h h' .testing .working
  | skip : h.st.arenaInitializer = true → h' = h → Moves h h' .testing .past
  | work : Same h h' → h'.globalLock = h.globalLock → Moves h h' .working .working
  | finish : h'.st.arenaInitializer = h.st.arenaInitializer → h'.entered = h.entered →
      h'.returned = h.returned + 1 → h'.st.live = h.st.live → h'.globalLock = h.globalLock → Moves h h' .working .setting
  | set : h' = { h with st := { h.st with arenaInitializer := true } } → Moves h h' .setting .past
  | past {ph : Phase} : (ph = .before ∨ ph = .past) → h'.st.arenaInitializer = h.st.arenaInitializer →
      h'.entered = h.entered → h'.returned = h.returned → Moves h h' .past ph

theorem sbrk_same {st st' : St} {n : Nat} {r : Option Nat} (e : Arenas.sbrk E st n = (r, st')) :
    st'.arenaInitializer = st.arenaInitializer ∧ st'.live = st.live := by
  unfold Arenas.sbrk at e
  simp only at e
  split at e <;> cases e <;> exact ⟨rfl, rfl⟩

theorem initExec_same {k : InitAt} {r : Option InitAt} (e : initExec E h k = some (h', r)) :
    Same h h' ∧ h'.globalLock = h.globalLock := by
  cases k with
  | list i o =>
    simp only [initExec] at e
    split at e
    · cases e
    · rename_i hs; cases e; exact ⟨⟨(sbrk_same hs).1, rfl, rfl, (sbrk_same hs).2⟩, rfl⟩
  | get i c j =>
    simp only [initExec] at e
    split at e
    · rename_i hs; cases e; exact ⟨⟨(sbrk_same hs).1, rfl, rfl, (sbrk_same hs).2⟩, rfl⟩
    · rename_i hs; cases e; exact ⟨⟨(sbrk_same hs).1, rfl, rfl, (sbrk_same hs).2⟩, rfl⟩
  | check i c j b =>
    cases b <;> cases e <;> exact ⟨⟨rfl, rfl, rfl, rfl⟩, rfl⟩
  | _ => cases e; exact ⟨⟨rfl, rfl, rfl, rfl⟩, rfl⟩

/-- Past the initialisation a thread stays there until its call ends. -/
theorem exec_past (hp : phase p = .past) (e : exec E answer h p = some (h', p')) :
    (phase p' = .before ∨ phase p' = .past) ∧ h'.st.arenaInitializer = h.st.arenaInitializer ∧
      h'.entered = h.entered ∧ h'.returned = h.returned := by
  cases p with
  | idle => cases e
  | testLockInit s => cases hp
  | initLock s => cases hp
  | setLockInit s => cases hp
  | lockGlobal s => cases hp
  | testInit s => cases hp
  | init s k => cases hp
  | setInit s => cases hp
  | testSize v => cases e; split <;> exact ⟨by simp [phase], rfl, rfl, rfl⟩
  | lock v =>
    simp only [exec] at e
    split at e <;> cases e
    exact ⟨by simp [phase], rfl, rfl, rfl⟩
  | pick v c => cases e; split <;> exact ⟨by simp [phase], rfl, rfl, rfl⟩
  | walk v curr => cases e; split <;> exact ⟨by simp [phase], rfl, rfl, rfl⟩
  | test v curr => cases e; split <;> exact ⟨by simp [phase], rfl, rfl, rfl⟩
  | order v header c => cases e; split <;> exact ⟨by simp [phase], rfl, rfl, rfl⟩
  | testFound v header c => cases e; split <;> exact ⟨by simp [phase], rfl, rfl, rfl⟩
  | lockSbrk v c n =>
    simp only [exec] at e
    split at e <;> cases e
    exact ⟨by simp [phase], rfl, rfl, rfl⟩
  | sbrk v c n =>
    simp only [exec] at e
    split at e
    · rename_i hs; cases e; exact ⟨by simp [phase], (sbrk_same hs).1, rfl, rfl⟩
    · rename_i hs; cases e; exact ⟨by simp [phase], (sbrk_same hs).1, rfl, rfl⟩
  | check v c heapBlock =>
    cases heapBlock with
    | none =>
      simp only [exec] at e
      split at e <;> cases e
      exact ⟨by simp [phase], rfl, rfl, rfl⟩
    | some header => cases e; exact ⟨by simp [phase], rfl, rfl, rfl⟩
  | mmap v =>
    cases answer with
    | none => cases e; exact ⟨by simp [phase], rfl, rfl, rfl⟩
    | some header =>
      simp only [exec] at e
      split at e <;> cases e <;> exact ⟨by simp [phase], rfl, rfl, rfl⟩
  | testMap v heapBlock => cases e; split <;> exact ⟨by simp [phase], rfl, rfl, rfl⟩
  | putNext v o header => cases e; split <;> exact ⟨by simp [phase], rfl, rfl, rfl⟩
  | testHead v c header => cases e; split <;> exact ⟨by simp [phase], rfl, rfl, rfl⟩
  | testTail v c header => cases e; split <;> exact ⟨by simp [phase], rfl, rfl, rfl⟩
  | freeTest ptr => cases e; split <;> exact ⟨by simp [phase], rfl, rfl, rfl⟩
  | freePick A header c => cases e; split <;> exact ⟨by simp [phase], rfl, rfl, rfl⟩
  | freeWalk header curr => cases e; split <;> exact ⟨by simp [phase], rfl, rfl, rfl⟩
  | freeFound header curr => cases e; split <;> exact ⟨by simp [phase], rfl, rfl, rfl⟩
  | _ => cases e; exact ⟨by simp [phase], rfl, rfl, rfl⟩

theorem exec_moves (e : exec E answer h p = some (h', p'))
    (hcreate : ∀ s, p = .initLock s → h.globalLock = true → h.st.arenaInitializer = true) :
    Moves h h' (phase p) (phase p') := by
  cases hp : phase p with
  | past =>
    obtain ⟨h1, h2, h3, h4⟩ := exec_past hp e
    exact .past h1 h2 h3 h4
  | before =>
    cases p with
    | idle => cases e
    | testLockInit s => cases e; split <;> exact .before ⟨rfl, rfl, rfl, rfl⟩ rfl
    | initLock s => cases e; exact .create ⟨rfl, rfl, rfl, rfl⟩ (hcreate s rfl) rfl
    | setLockInit s => cases e; exact .before ⟨rfl, rfl, rfl, rfl⟩ rfl
    | lockGlobal s =>
      simp only [exec] at e
      split at e
      · cases e
      · rename_i hl; cases e; exact .lock ⟨rfl, rfl, rfl, rfl⟩ (by simpa using hl) rfl
    | freeTest ptr =>
      have h0 : ptr = 0 := by
        by_contra h0
        simp [phase, h0] at hp
      subst h0
      cases e
      exact .before ⟨rfl, rfl, rfl, rfl⟩ rfl
    | _ => cases hp
  | testing =>
    cases p with
    | testInit s =>
      simp only [exec] at e
      split at e
      · rename_i hf; cases e; exact .skip hf rfl
      · rename_i hf; cases e; exact .enter (by simpa using hf) rfl
    | freeTest ptr => simp only [phase] at hp; split at hp <;> cases hp
    | _ => cases hp
  | working =>
    cases p with
    | init s k =>
      simp only [exec] at e
      split at e
      · cases e
      · rename_i hk; cases e; exact .work (initExec_same hk).1 (initExec_same hk).2
      · rename_i hk
        cases e
        obtain ⟨⟨h1, h2, h3, h4⟩, h5⟩ := initExec_same hk
        exact .finish h1 h2 (congrArg (· + 1) h3) h4 h5
    | freeTest ptr => simp only [phase] at hp; split at hp <;> cases hp
    | _ => cases hp
  | setting =>
    cases p with
    | setInit s => cases e; exact .set rfl
    | freeTest ptr => simp only [phase] at hp; split at hp <;> cases hp
    | _ => cases hp

/-! ## The invariant -/

/-- Until the arenas are there, the mutex is free only if nobody has begun to build them. -/
structure Shared (h : Sh) : Prop where
  warm : h.st.arenaInitializer = true → h.entered = 1 ∧ h.returned = 1
  fresh : h.st.arenaInitializer = false → h.st.live = [] ∧ h.entered ≤ 1 ∧
    (h.globalLock = false → h.entered = 0 ∧ h.returned = 0)

def Local (h : Sh) (p : Pc) : Prop :=
  match phase p with
  | .before => True
  | .testing => h.st.arenaInitializer = false → h.globalLock = true ∧ h.entered = 0 ∧ h.returned = 0
  | .working => h.st.arenaInitializer = false ∧ h.globalLock = true ∧ h.entered = 1 ∧ h.returned = 0
  | .setting => h.st.arenaInitializer = false ∧ h.globalLock = true ∧ h.entered = 1 ∧ h.returned = 1
  | .past => h.st.arenaInitializer = true

/-- Two threads are not inside together before the arenas are there. -/
def Alone (h : Sh) (p q : Pc) : Prop := h.st.arenaInitializer = false → ¬ (Inside p ∧ Inside q)

/-- A step of a thread that is not inside changes nothing for one that is, nor for one that is past. -/
theorem Local.keep {q : Pc} (hq : Local h q) (hf : h'.st.arenaInitializer = h.st.arenaInitializer)
    (hin : h.st.arenaInitializer = false → Inside q → h'.globalLock = h.globalLock ∧ h'.entered = h.entered ∧
      h'.returned = h.returned) : Local h' q := by
  unfold Local at hq ⊢
  unfold Inside at hin
  cases hph : phase q with
  | before => trivial
  | past => rw [hph] at hq; exact hf.trans hq
  | testing =>
    rw [hph] at hq hin
    intro h0
    obtain ⟨h1, h2, h3⟩ := hin (hf ▸ h0) (Or.inl rfl)
    obtain ⟨k1, k2, k3⟩ := hq (hf ▸ h0)
    exact ⟨h1.trans k1, h2.trans k2, h3.trans k3⟩
  | working =>
    rw [hph] at hq hin
    obtain ⟨h1, h2, h3⟩ := hin hq.1 (Or.inr (Or.inl rfl))
    exact ⟨hf.trans hq.1, h1.trans hq.2.1, h2.trans hq.2.2.1, h3.trans hq.2.2.2⟩
  | setting =>
    rw [hph] at hq hin
    obtain ⟨h1, h2, h3⟩ := hin hq.1 (Or.inr (Or.inr rfl))
    exact ⟨hf.trans hq.1, h1.trans hq.2.1, h2.trans hq.2.2.1, h3.trans hq.2.2.2⟩

/-- A thread inside before the arenas are there has the mutex. -/
theorem Local.locked {q : Pc} (hq : Local h q) (hf : h.st.arenaInitializer = false) (hin : Inside q) :
    h.globalLock = true := by
  unfold Local at hq
  rcases hin with e | e | e <;> rw [e] at hq
  · exact (hq hf).1
  · exact hq.2.1
  · exact hq.2.1

abbrev Inv (σ : Sys Sh Pc) : Prop := Modular Shared Local Alone σ

/-- What the thread that steps has to show: the shared part, its own state, that the others inside
    find what they had, and that it did not join one that is inside. -/
theorem Inv.move {σ : Sys Sh Pc} (hi : Inv σ) (i : Nat) (hG : Shared h') (hA : Local h' p')
    (hf : h'.st.arenaInitializer = σ.sh.st.arenaInitializer)
    (hin : ∀ q, Local σ.sh q → Alone σ.sh (σ.pc i) q → σ.sh.st.arenaInitializer = false → Inside q →
      (h'.globalLock = σ.sh.globalLock ∧ h'.entered = σ.sh.entered ∧ h'.returned = σ.sh.returned) ∧ ¬ Inside p') :
    Inv (σ.put i h' p') := by
  refine hi.put i hG hA (fun q hq hd _ => ⟨hq.keep hf fun h0 hi => (hin q hq hd h0 hi).1, ?_, ?_⟩) fun q r hd => ?_
  · intro h0 hboth
    exact (hin q hq hd (hf ▸ h0) hboth.2).2 hboth.1
  · intro h0 hboth
    exact (hin q hq hd (hf ▸ h0) hboth.1).2 hboth.2
  · intro h0
    exact hd (hf ▸ h0)

theorem Shared.same (hG : Shared h) (hs : Same h h')
    (hl : h.st.arenaInitializer = false → h'.globalLock = false → h.globalLock = false) : Shared h' := by
  obtain ⟨hwarm, hfresh⟩ := hG
  refine ⟨fun hf => ?_, fun hf => ?_⟩
  · rw [hs.entered, hs.returned]
    exact hwarm (hs.flag ▸ hf)
  · rw [hs.flag] at hf
    rw [hs.live, hs.entered, hs.returned]
    exact ⟨(hfresh hf).1, (hfresh hf).2.1, fun h => (hfresh hf).2.2 (hl hf h)⟩

theorem not_inside (h : phase p = .before) : ¬ Inside p := by
  intro hin
  unfold Inside at hin
  rw [h] at hin
  rcases hin with e | e | e <;> cases e

/-- `arena_initializer = 1`: nobody else is inside, so all others are before the lock. -/
theorem Inv.set {σ : Sys Sh Pc} (hi : Inv σ) (i : Nat) (hp : phase (σ.pc i) = .setting) (hp' : phase p' = .past) :
    Inv (σ.put i { σ.sh with st := { σ.sh.st with arenaInitializer := true } } p') := by
  have hA := hi.each i
  unfold Local at hA
  rw [hp] at hA
  obtain ⟨h1, h2, h3, h4⟩ := hA
  refine hi.put i ⟨fun _ => ⟨h3, h4⟩, fun h => by cases h⟩ (by unfold Local; rw [hp']) ?_ fun q r _ h0 => by cases h0
  intro q hq hd _
  refine ⟨?_, fun h0 => (by cases h0), fun h0 => (by cases h0)⟩
  have hno : ¬ Inside q := fun hin => hd h1 ⟨Or.inr (Or.inr hp), hin⟩
  unfold Local at hq ⊢
  unfold Inside at hno
  cases hph : phase q with
  | before => trivial
  | past => rfl
  | testing => exact absurd (Or.inl hph) hno
  | working => exact absurd (Or.inr (Or.inl hph)) hno
  | setting => exact absurd (Or.inr (Or.inr hph)) hno

theorem Inv.exec {σ : Sys Sh Pc} (hi : Inv σ) (i : Nat) (hm : Moves σ.sh h' (phase (σ.pc i)) (phase p')) :
    Inv (σ.put i h' p') := by
  have hG := hi.shared
  obtain ⟨hwarm, hfresh⟩ := hi.shared
  have hA := hi.each i
  unfold Local at hA
  generalize hp : phase (σ.pc i) = ph at hm hA
  generalize hp' : phase p' = ph' at hm
  cases hm with
  | before hs hl =>
    refine hi.move i (hG.same hs fun _ h => hl ▸ h) (by unfold Local; rw [hp']; trivial) hs.flag
      fun q hq hd h0 hin => ⟨⟨hl, hs.entered, hs.returned⟩, not_inside hp'⟩
  | create hs hc hl =>
    -- if there are no arenas, the mutex was free
    have hfree : σ.sh.st.arenaInitializer = false → σ.sh.globalLock = false := by
      intro hf
      by_contra hne
      have := hc (by simpa using hne)
      rw [hf] at this; cases this
    refine hi.move i (hG.same hs fun hf _ => hfree hf) (by unfold Local; rw [hp']; trivial) hs.flag
      fun q hq hd h0 hin => ?_
    have := hc (hq.locked h0 hin)
    rw [h0] at this; cases this
  | lock hs hl hl' =>
    refine hi.move i (hG.same hs fun _ _ => hl) ?_ hs.flag fun q hq hd h0 hin => ?_
    · unfold Local; rw [hp']
      intro hf
      rw [hs.entered, hs.returned]
      exact ⟨hl', (hfresh (hs.flag ▸ hf)).2.2 hl⟩
    · have := hq.locked h0 hin
      rw [hl] at this; cases this
  | enter hf e =>
    subst e
    obtain ⟨h1, h2, h3⟩ := hA hf
    refine hi.move i ⟨fun h => ?_, fun _ => ?_⟩ ?_ rfl fun q hq hd h0 hin => ?_
    · rw [show σ.sh.st.arenaInitializer = true from h] at hf; cases hf
    · refine ⟨(hfresh hf).1, ?_, fun h => ?_⟩
      · show σ.sh.entered + 1 ≤ 1
        omega
      · rw [show σ.sh.globalLock = false from h] at h1; cases h1
    · unfold Local; rw [hp']
      exact ⟨hf, h1, congrArg (· + 1) h2, h3⟩
    · exact absurd ⟨Or.inl hp, hin⟩ (hd h0)
  | skip hf e =>
    subst e
    refine hi.move i hG (by unfold Local; rw [hp']; exact hf) rfl fun q hq hd h0 hin => ?_
    rw [hf] at h0; cases h0
  | work hs hl =>
    obtain ⟨h1, h2, h3, h4⟩ := hA
    refine hi.move i (hG.same hs fun _ h => hl ▸ h) ?_ hs.flag fun q hq hd h0 hin => ?_
    · unfold Local; rw [hp', hs.flag, hs.entered, hs.returned, hl]
      exact ⟨h1, h2, h3, h4⟩
    · exact absurd ⟨Or.inr (Or.inl hp), hin⟩ (hd h0)
  | finish hf he hr hv hl =>
    obtain ⟨h1, h2, h3, h4⟩ := hA
    refine hi.move i ⟨fun h => ?_, fun _ => ?_⟩ ?_ hf fun q hq hd h0 hin => ?_
    · rw [hf, h1] at h; cases h
    · rw [hv, he, hl]
      exact ⟨(hfresh h1).1, (hfresh h1).2.1, fun h => by rw [h2] at h; cases h⟩
    · unfold Local; rw [hp', hf, he, hr, hl]
      exact ⟨h1, h2, h3, by omega⟩
    · exact absurd ⟨Or.inr (Or.inl hp), hin⟩ (hd h0)
  | set e =>
    subst e
    exact hi.set i hp hp'
  | past hph hf he hr =>
    have hA : σ.sh.st.arenaInitializer = true := hA
    refine hi.move i ⟨fun _ => ?_, fun h => ?_⟩ ?_ hf fun q hq hd h0 hin => ?_
    · rw [he, hr]; exact hwarm hA
    · rw [hf, hA] at h; cases h
    · unfold Local; rw [hp']
      rcases hph with e | e <;> subst e
      · trivial
      · exact hf.trans hA
    · rw [hA] at h0; cases h0

theorem Inv.step {σ τ : Sys Sh Pc} {ev : Ev} (hi : Inv σ) (hl : Legal E σ ev) (ht : InTime σ ev)
    (h : Threads.step E σ ev = some τ) : Inv τ := by
  obtain ⟨hwarm, hfresh⟩ := hi.shared
  cases ev with
  | run i answer =>
    simp only [Threads.step, Option.map_eq_some_iff] at h
    obtain ⟨r, hr, rfl⟩ := h
    exact hi.exec i (exec_moves hr ht)
  | call i c =>
    simp only [Threads.step] at h
    split at h
    · rename_i hidle
      cases c with
      | malloc s =>
        cases h
        refine hi.exec i ?_
        rw [hidle]
        exact .before ⟨rfl, rfl, rfl, rfl⟩ rfl
      | free ptr =>
        cases h
        rcases hl with rfl | hl
        · refine hi.move i ⟨hwarm, fun hf => ?_⟩ trivial rfl fun q hq hd h0 hin => ?_
          · obtain ⟨h1, h2⟩ := hfresh hf
            exact ⟨by show drop σ.sh.st 0 = []; rw [drop, h1]; rfl, h2⟩
          · exact ⟨⟨rfl, rfl, rfl⟩, by simp [Inside, phase]⟩
        · -- a pointer is held, so the arenas are there
          have hf : σ.sh.st.arenaInitializer = true := by
            by_contra hne
            have := (hfresh (by simpa using hne)).1
            simp [held, this] at hl
          refine hi.move i ⟨hwarm, fun h => ?_⟩ ?_ rfl fun q hq hd h0 hin => ?_
          · rw [show σ.sh.st.arenaInitializer = false from h] at hf; cases hf
          · by_cases e : ptr = 0
            · simp [Local, phase, e]
            · simpa [Local, phase, e] using hf
          · rw [hf] at h0; cases h0
    · cases h

theorem cold_inv : Inv (cold E) :=
  ⟨⟨nofun, fun _ => ⟨rfl, Nat.zero_le _, fun _ => ⟨rfl, rfl⟩⟩⟩, fun _ => trivial,
    fun _ _ _ _ hin => by simp [cold, Inside, phase] at hin⟩

theorem searching_past (hs : Searching p) : phase p = .past := by
  cases p with
  | pick v c => rfl
  | head v o => rfl
  | walk v curr => rfl
  | test v curr => rfl
  | advance v curr => rfl
  | freeHead A header c => rfl
  | freeWalk header curr => rfl
  | freeAdvance header curr => rfl
  | _ => exact False.elim hs

theorem init_once (evs : List Ev) (hl : ∀ x ∈ trail (step E) (cold E) evs, Legal E x.1 x.2)
    (ht : ∀ x ∈ trail (step E) (cold E) evs, InTime x.1 x.2) {σ : Sys Sh Pc}
    (h : after (step E) (cold E) evs = some σ) :
    σ.sh.entered ≤ 1 ∧ ∀ i, Searching (σ.pc i) → σ.sh.entered = 1 ∧ σ.sh.returned = 1 := by
  have hi : Inv σ := after_inv Inv (fun σ ev => Legal E σ ev ∧ InTime σ ev)
    (fun σ ev τ hi hok hs => hi.step hok.1 hok.2 hs) evs (cold E) σ cold_inv (fun x hx => ⟨hl x hx, ht x hx⟩) h
  obtain ⟨hwarm, hfresh⟩ := hi.shared
  refine ⟨?_, fun i hs => ?_⟩
  · cases hf : σ.sh.st.arenaInitializer with
    | true => exact Nat.le_of_eq (hwarm hf).1
    | false => exact (hfresh hf).2.1
  · have := hi.each i
    unfold Local at this
    rw [searching_past hs] at this
    exact hwarm this

/-- Thread 0 alone, up to its entry into `initialize_arena`. -/
def firstEntry : List Ev :=
  [.call 0 (.malloc 8), .run 0 none, .run 0 none, .run 0 none, .run 0 none, .run 0 none]

theorem init_once_first : ∃ σ, after (step ample) (cold ample) firstEntry = some σ ∧ σ.sh.entered = 1 ∧
    (σ.sh.entered ≤ 1 ∧ ∀ i, Searching (σ.pc i) → σ.sh.entered = 1 ∧ σ.sh.returned = 1) := by
  refine ⟨_, rfl, rfl, init_once firstEntry ?_ ?_ rfl⟩
  · simp [firstEntry, trail, step, exec, cold, Sys.put, Legal, start]
  · simp [firstEntry, trail, step, exec, cold, Sys.put, InTime, start]

/-- Both threads find `g_lock_init` 0; thread 1 creates the mutex while thread 0 builds the arenas. -/
def lateInit : List Ev :=
  [.call 0 (.malloc 8), .call 1 (.malloc 8), .run 0 none, .run 1 none,
    .run 0 none, .run 0 none, .run 0 none, .run 0 none,
    .run 1 none, .run 1 none, .run 1 none, .run 1 none]

theorem second_init : (∀ x ∈ trail (step ample) (cold ample) lateInit, Legal ample x.1 x.2) ∧
    ∃ σ, after (step ample) (cold ample) lateInit = some σ ∧ σ.sh.entered = 2 := by
  refine ⟨?_, _, rfl, rfl⟩
  simp [lateInit, trail, step, exec, cold, Sys.put, Legal, start]

end CS5600.Alloc.Threads
