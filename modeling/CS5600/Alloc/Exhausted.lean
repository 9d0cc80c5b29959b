/-
  CS5600.Alloc.Exhausted — a `mymalloc` of the segregated allocator for which there is no memory
  (see `CS5600.Alloc.Threads`, `CS5600.Alloc.ThreadsAlone`, `CS5600.Alloc.ArenasProofs`).

  No block of the list fits, and `sbrk` or `mmap` fails. The branches of 256 and of 1024 bytes
  and the one that maps compare the result with the failure value, unlock and return NULL. The
  branch of 64 bytes does not: it takes `(void*)-1` for its header and writes there.

  `FailsCleanly` is what the call should come to, statement by statement: it returns NULL, stores
  nothing, has unlocked every mutex it locked, and leaves every list and header as it was. The
  two mutexes of a call are `global_lock`, taken for the test of `arena_initializer` and in
  `get_block`, and that of the call's copy of the arena.

  Proved (`fails_cleanly_iff`): in every state that a run of calls reaches after a successful
  initialisation, it does exactly when more than 64 bytes are asked for. In `no_memory_for_64`
  the 1024 blocks of the list are held and the heap is full.
-/

import CS5600.Alloc.ThreadsAlone

namespace CS5600.Alloc.Threads

open CS5600.Lib.Chains CS5600.Lib.Interleave CS5600.Lib.Runs CS5600.Alloc.Block CS5600.Alloc.FreeList
open CS5600.Alloc.Arenas

/-! ## Mutexes and stores of the statements -/

inductive Mutex where
  | global
  | copy
  deriving DecidableEq

def Pc.takes : Pc → Option Mutex
  | .lockGlobal _ => some .global
  | .lockSbrk _ _ _ => some .global
  | .lock _ => some .copy
  | _ => none

def Pc.gives : Pc → Option Mutex
  | .unlockGlobal _ => some .global
  | .unlockSbrk _ _ _ => some .global
  | .unlockFound _ _ => some .copy
  | .unlockFail _ => some .copy
  | .unlockList _ _ => some .copy
  | .unlockLast _ _ => some .copy
  | .freeUnlock => some .copy
  | _ => none

/-- The statements of `mymalloc` that write to a block or a list; those of `initialize_arena`
    are counted as such. -/
def Pc.stores : Pc → Bool
  | .init _ _ => true
  | .mark _ _ => true
  | .putSize _ _ _ => true
  | .putInUse _ _ _ => true
  | .putNext _ _ _ => true
  | .setHead _ _ _ => true
  | .linkTail _ _ _ => true
  | .setTail _ _ _ => true
  | _ => false

/-- Whether `m` is held after these statements, having been held or not before. -/
def holds (m : Mutex) : Bool → List Pc → Bool
  | b, [] => b
  | b, p :: ps => holds m (if p.takes = some m then true else if p.gives = some m then false else b) ps

/-- A read or a test. -/
def Pc.Quiet (p : Pc) : Prop := p.stores = false ∧ p.takes = none ∧ p.gives = none

theorem holds_append (m : Mutex) (b : Bool) (ps qs : List Pc) : holds m b (ps ++ qs) = holds m (holds m b ps) qs := by
  induction ps generalizing b with
  | nil => rfl
  | cons p ps ih => exact ih _

theorem holds_quiet {ps : List Pc} (h : ∀ p ∈ ps, p.Quiet) (m : Mutex) (b : Bool) : holds m b ps = b := by
  induction ps generalizing b with
  | nil => rfl
  | cons p ps ih =>
    obtain ⟨⟨-, h1, h2⟩, hps⟩ := List.forall_mem_cons.mp h
    simp only [holds, h1, h2, reduceCtorEq, if_false]
    exact ih hps b

/-- What a call has done so far: no store, and these of its mutexes are held. -/
structure Leaves (ps : List Pc) (global copy : Bool) : Prop where
  stores : ∀ p ∈ ps, p.stores = false
  global : holds .global false ps = global
  copy : holds .copy false ps = copy

theorem Leaves.quiet {ps qs : List Pc} {g c : Bool} (h : Leaves ps g c) (hq : ∀ p ∈ qs, p.Quiet) :
    Leaves (ps ++ qs) g c := by
  refine ⟨List.forall_mem_append.mpr ⟨h.stores, fun p hp => (hq p hp).1⟩, ?_, ?_⟩
  · rw [holds_append, h.global, holds_quiet hq]
  · rw [holds_append, h.copy, holds_quiet hq]

/-- The rest of a call, which unlocks its copy. -/
theorem Leaves.finish {ps qs : List Pc} (h : Leaves ps false true) (hs : ∀ p ∈ qs, p.stores = false)
    (hg : holds .global false qs = false) (hc : holds .copy true qs = false) :
    (∀ p ∈ ps ++ qs, p.stores = false) ∧ ∀ m, holds m false (ps ++ qs) = false := by
  refine ⟨List.forall_mem_append.mpr ⟨h.stores, hs⟩, fun m => ?_⟩
  rw [holds_append]
  cases m with
  | global => rw [h.global, hg]
  | copy => rw [h.copy, hc]

/-! ## The call fails -/

variable {E : Env} {answer : Option Nat} {h : Sh} {s : Nat}

theorem Pc.Looks.quiet {p : Pc} (hp : p.Looks) : p.Quiet := by
  cases p <;> first | exact ⟨rfl, rfl, rfl⟩ | cases hp

/-- `mymalloc` up to the branch for its size. -/
theorem looked_leaves (E : Env) (h : Sh) (s : Nat) {qs : List Pc} (hq : ∀ q ∈ qs, q.Looks) :
    Leaves (entering s ++ (locking E h s ++ qs)) false true := by
  rw [← List.append_assoc]
  refine Leaves.quiet ⟨by simp [entering, locking, Pc.stores], rfl, rfl⟩ fun q hin => ?_
  exact (hq q hin).quiet

/-- No listed block fits, and the system refuses what the branch for `s` asks it for. -/
def Exhausted (E : Env) (st : St) (s : Nat) (answer : Option Nat) : Prop :=
  getFreeBlock E st s (active E st) = some 0 ∧
    match classOf s with
    | some c => (Arenas.sbrk E st (blockSize + c.bytes)).1 = none
    | none => answer = none ∨ (blockSize + s) % 2 ^ 64 = 0

/-- The call returns NULL, with nothing stored and no mutex left locked; but for the count of
    `sbrk` calls the process is as it was. -/
def FailsCleanly (E : Env) (answer : Option Nat) (h : Sh) (s : Nat) : Prop :=
  ∃ ps k, Path (exec E answer) h (.testLockInit s) ps { h with st := { h.st with calls := k } } .idle ∧
    Arenas.mymalloc E h.st s answer = some (0, { h.st with calls := k }) ∧
    (∀ p ∈ ps, p.stores = false) ∧ ∀ m, holds m false ps = false

variable {L : Cls → List Nat} {ps : List Pc} {h' : Sh} {q : Pc} {r : Option Nat}

/-- Such a call gets no block. -/
theorem Exhausted.unserved (hex : Exhausted E h.st s answer) (hc : Course E answer h s ps h' q r) :
    r = some 0 ∨ r = none := by
  obtain ⟨hno, hfail⟩ := hex
  cases hc with
  | zero _ => exact Or.inl rfl
  | found _ _ hb hb0 _ =>
    cases hno.symm.trans hb
    exact absurd rfl hb0
  | appended _ hs _ hsb _ _ =>
    rw [hs] at hfail
    cases hfail.symm.trans hsb
  | refused _ _ _ _ _ _ => exact Or.inl rfl
  | crashed _ _ _ _ _ => exact Or.inr rfl
  | unmapped _ _ _ _ => exact Or.inl rfl
  | mapped hs _ ha ht _ =>
    rw [hs] at hfail
    rcases hfail with hf | hf
    · cases hf.symm.trans ha
    · exact absurd hf ht

/-- The courses of such a call: the branch of 64 bytes goes on with `(void*)-1`, the others
    unlock and return. -/
theorem Exhausted.course (hex : Exhausted E h.st s answer) (h0 : 0 < s) (hc : Course E answer h s ps h' q r) :
    (s ≤ 64 ∧ q ≠ .idle) ∨ (64 < s ∧ q = .idle ∧ r = some 0 ∧ (∃ k, h' = { h with st := { h.st with calls := k } }) ∧
      ∃ qs rs, ps = locking E h s ++ qs ++ rs ∧ (∀ q ∈ qs, q.Looks) ∧ (∀ r ∈ rs, r.stores = false) ∧
        holds .global false rs = false ∧ holds .copy true rs = false) := by
  have hr := hex.unserved hc
  cases hc with
  | zero hz => omega
  | found _ _ _ _ _ => simp [payload_ne_zero] at hr
  | appended _ _ _ _ _ _ => simp [payload_ne_zero] at hr
  | @refused c qs _ hs hc64 _ _ hq =>
    refine Or.inr ⟨?_, rfl, rfl, ⟨_, rfl⟩, qs, _, rfl, hq, by simp [failing, getting, Pc.stores], rfl, rfl⟩
    by_contra hle
    exact hc64 (Option.some.inj (hs.symm.trans (if_pos (by omega))))
  | crashed _ hs _ _ _ => exact Or.inl ⟨(classOf_some hs).1, by simp⟩
  | @unmapped qs hs _ _ hq =>
    refine Or.inr ⟨?_, rfl, rfl, ⟨h.st.calls, rfl⟩, qs, _, rfl, hq, by simp [unmapping, Pc.stores], rfl, rfl⟩
    have := classOf_none.mp hs
    omega
  | mapped _ _ _ _ _ => simp [payload_ne_zero] at hr

/-- Whether the call fails cleanly is a matter of its course. -/
theorem Exhausted.clean_iff (hex : Exhausted E h.st s answer) (hi : Inv E h.st L) (hr : AtRest E h) (h0 : 0 < s) :
    FailsCleanly E answer h s ↔ 64 < s := by
  obtain ⟨ps, h', q, r, hc, hp⟩ := mymalloc_course hi hr answer s
  have hall := (rest_path answer s hr).append hp
  rcases hex.course h0 hc with ⟨hle, hq⟩ | ⟨hlt, rfl, rfl, ⟨k, rfl⟩, qs, rs, rfl, hlook, hstore, hg, hcopy⟩
  · refine ⟨fun hf => ?_, fun hlt => by omega⟩
    obtain ⟨qs, k, hpath, -⟩ := hf
    exact absurd (hall.stuck_unique hc.stuck hpath rfl).2.2 hq
  · refine ⟨fun _ => hlt, fun _ => ⟨_, k, hall, mymalloc_null (hc.result hi), ?_⟩⟩
    rw [← List.append_assoc]
    exact (looked_leaves E h s hlook).finish hstore hg hcopy

theorem fails_cleanly_iff {st₀ : St} (hboot : boot E = some st₀) (es : List Arenas.Call)
    (hl : ∀ x ∈ trail (Arenas.step E) st₀ es, Arenas.Legal E x.1 x.2)
    (hrun : after (Arenas.step E) st₀ es = some h.st) (hr : AtRest E h) (h0 : 0 < s)
    (hex : Exhausted E h.st s answer) : FailsCleanly E answer h s ↔ 64 < s := by
  obtain ⟨L₀, hi₀, -⟩ := boot_inv hboot
  obtain ⟨L, hi, -⟩ := run_law es hi₀ hl hrun
  exact hex.clean_iff hi hr h0

/-- A request of 2000 bytes when `mmap` fails. -/
theorem fails_cleanly_2000 : ∃ st₀, boot ample = some st₀ ∧ Exhausted ample st₀ 2000 none ∧
    FailsCleanly ample none (ready st₀).sh 2000 := by
  obtain ⟨st₀, hboot, -⟩ := ample_boots
  obtain ⟨L, hi, -⟩ := boot_inv hboot
  have hex : Exhausted ample st₀ 2000 none := by
    refine ⟨?_, Or.inl rfl⟩
    have hhead : headFor st₀.mem (active ample st₀) 2000 = 0 := by
      rw [headFor, hi.arena.listFor_eq]
      exact hi.arena.overHead
    rw [getFreeBlock, hhead]
    exact search_linked (l := []) _ rfl (by decide)
  refine ⟨st₀, hboot, hex, ?_⟩
  exact (fails_cleanly_iff (h := (ready st₀).sh) hboot [] (by simp) rfl (ready_atRest hi) (by decide) hex).mpr (by decide)

/-! ## All blocks of 64 bytes held -/

/-- As long as not all blocks of its list are held, `mymalloc(8)` takes one more. -/
theorem take_one {st : St} (hi : Inv E st L) (hlt : count .c64 st < (L .c64).length) :
    ∃ t, Arenas.step E st (.malloc 8 none) = some t ∧ Inv E t L ∧ count .c64 t = count .c64 st + 1 ∧ t.brk = st.brk := by
  have hcase := malloc_cases hi 8 none
  simp only [Arenas.step]
  generalize Arenas.malloc E st 8 none = r at hcase
  have h8 : classOf 8 = some .c64 := rfl
  have hfull : ∀ {c}, classOf 8 = some c → (∀ b ∈ L c, payload b ∈ held st) → False := fun hs hall => by
    cases h8.symm.trans hs
    have := hi.count_full hall
    omega
  cases hcase with
  | zero h => cases h
  | @reused c b _ hs hb hfree =>
    refine ⟨_, rfl, hi.reused hs hb hfree, ?_, rfl⟩
    exact (count_cons .c64 (payload b, 8) rfl).trans (by rw [if_pos h8])
  | appended _ hs hall _ _ => exact (hfull hs hall).elim
  | refused _ hs hall _ => exact (hfull hs hall).elim
  | unmapped hs _ => cases h8.symm.trans hs
  | mapped hs _ _ => cases h8.symm.trans hs

theorem take_all {st : St} (n : Nat) (hi : Inv E st L) (hn : count .c64 st + n = (L .c64).length) :
    ∃ t, after (Arenas.step E) st (List.replicate n (.malloc 8 none)) = some t ∧ Inv E t L ∧
      count .c64 t = (L .c64).length ∧ t.brk = st.brk := by
  induction n generalizing st with
  | zero => exact ⟨st, rfl, hi, by omega, rfl⟩
  | succ n ih =>
    obtain ⟨u, hu, hiu, hcount, hbrk⟩ := take_one hi (by omega)
    obtain ⟨t, ht, hit, hfull, hbrk'⟩ := ih hiu (by omega)
    exact ⟨t, by rw [List.replicate_succ, after, hu]; exact ht, hit, hfull, hbrk'.trans hbrk⟩

/-- All blocks of 64 bytes held and the heap full: there is none for 8 bytes. -/
theorem exhausted_of_full {st : St} (hi : Inv E st L) (hcount : count .c64 st = (L .c64).length)
    (hbrk : st.brk = E.hi) : Exhausted E st 8 none := by
  have h8 : classOf 8 = some .c64 := rfl
  have hheld : ∀ b ∈ L .c64, payload b ∈ held st := by
    intro b hb
    by_contra hfree
    have hle := (hi.reused h8 hb hfree).count_le .c64
    rw [count_cons .c64 (payload b, 8) rfl, if_pos h8] at hle
    omega
  refine ⟨?_, ?_⟩
  · have hno : (L .c64).find? (fits st.mem 8) = none :=
      List.find?_eq_none.mpr fun b hb hf => (hi.fits_iff h8 hb).mp hf (hheld b hb)
    have hsearch := search_linked (fits st.mem 8) (hi.arena.classes .c64).list.linked (hi.length_lt .c64)
    rw [hno] at hsearch
    rw [getFreeBlock, headFor, hi.arena.listFor_eq]
    exact hsearch
  · show (Arenas.sbrk E st (blockSize + Cls.c64.bytes)).1 = none
    simp only [Arenas.sbrk]
    rw [if_neg]
    simp only [blockSize, Cls.bytes]
    omega

/-- A process whose heap holds the pools and nothing more. -/
def brim : Env := { ample with hi := 9628672, le := by decide, top := by decide }

theorem no_memory_for_64 : ∃ st₀ t, boot brim = some st₀ ∧
    (∀ x ∈ trail (Arenas.step brim) st₀ (List.replicate 1024 (.malloc 8 none)), Arenas.Legal brim x.1 x.2) ∧
    after (Arenas.step brim) st₀ (List.replicate 1024 (.malloc 8 none)) = some t ∧ AtRest brim (ready t).sh ∧
    Exhausted brim t 8 none ∧ ¬ FailsCleanly brim none (ready t).sh 8 := by
  obtain ⟨st₀, hboot, hbrk⟩ := boot_some (E := brim) (fun _ => rfl) (Nat.le_refl _)
  obtain ⟨L, hi, hpool⟩ := boot_inv hboot
  have h0 : count .c64 st₀ + 1024 = (L .c64).length := by
    rw [hpool, count, (boot_ok hboot).2.1]
    rfl
  obtain ⟨t, ht, hit, hfull, hbrk'⟩ := take_all 1024 hi h0
  have hex := exhausted_of_full hit hfull (hbrk'.trans hbrk)
  refine ⟨st₀, t, hboot, fun x hx => ?_, ht, ready_atRest hit, hex, ?_⟩
  · rw [List.eq_of_mem_replicate (mem_of_mem_trail hx)]
    exact ⟨by decide, by simp⟩
  · intro hf
    have := (hex.clean_iff (h := (ready t).sh) hit (ready_atRest hit) (by decide)).mp hf
    omega

end CS5600.Alloc.Threads
