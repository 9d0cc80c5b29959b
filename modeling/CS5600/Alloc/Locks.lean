/-
  CS5600.Alloc.Locks — which calls of the segregated allocator keep to the locks (see
  `CS5600.Alloc.Threads`, `CS5600.Alloc.ThreadsAlone`).

  The rules: a mutex is locked by a call that does not hold it and unlocked by one that does,
  none is held at the return, and the fields of the lists and of the blocks' headers are read and
  written under the arena's mutex. The mutex of the call's copy of the arena counts as the
  arena's here, although nobody else can reach it. `initialize_arena` is not bound by the last
  rule, nor is the copy of the arena, whose pointers never change.

  `mymalloc` breaks them when it succeeds: it prints `header->size` after the unlock, and when
  it has appended a block it unlocks twice. `myfree` breaks them with every pointer: it reads
  `header->size` and the lists with no mutex locked, and then unlocks one.

  Proved (`disciplined_iff`): between the calls of a process whose initialisation succeeds, a
  call keeps to the rules exactly when it is `myfree(NULL)`, a `mymalloc` of 0 bytes, one for
  which there is no memory or, unless the header of a mapped block is counted as one of the
  arena's, one above 1024 bytes.
-/

import CS5600.Alloc.Exhausted

namespace CS5600.Alloc.Threads

open CS5600.Lib.Chains CS5600.Lib.Interleave CS5600.Alloc.Block CS5600.Alloc.FreeList CS5600.Alloc.Arenas

/-! ## The rules -/

/-- The mutexes a call holds. -/
structure Locked where
  global : Bool
  arena : Bool

def Locked.has (w : Locked) : Mutex → Bool
  | .global => w.global
  | .copy => w.arena

def Locked.set (w : Locked) (b : Bool) : Mutex → Locked
  | .global => { w with global := b }
  | .copy => { w with arena := b }

def Locked.none : Locked := ⟨false, false⟩

/-- The statements that read or write a list record or a block's header. `mapped`: whether the
    headers of mapped blocks are counted. -/
def Pc.touches (mapped : Bool) : Pc → Bool
  | .pick _ _ => true
  | .head _ _ => true
  | .test _ _ => true
  | .advance _ _ => true
  | .order _ _ _ => true
  -- `list->size` is read for the call of `get_block`
  | .testFound _ header _ => header == 0
  | .mark _ _ => true
  | .putSize _ o _ => mapped || o.isSome
  | .putInUse _ o _ => mapped || o.isSome
  | .putNext _ o _ => mapped || o.isSome
  | .testHead _ _ _ => true
  | .setHead _ _ _ => true
  | .testTail _ _ _ => true
  | .linkTail _ _ _ => true
  | .setTail _ _ _ => true
  -- `header->size` is printed
  | .ret v _ => mapped || (classOf v.s).isSome
  | .freePick _ _ _ => true
  | .freeHead _ _ _ => true
  | .freeAdvance _ _ => true
  | .clear _ _ => true
  | .clearAgain _ => true
  | .clearMap _ => mapped
  | .unmap _ => mapped
  | _ => false

/-- The statement keeps to the rules, with these mutexes held. -/
def Pc.lawful (mapped : Bool) (w : Locked) (p : Pc) : Bool :=
  p.takes.all (fun m => !w.has m) && p.gives.all w.has && (w.arena || !p.touches mapped)

def Pc.after (p : Pc) (w : Locked) : Locked :=
  match p.takes with
  | some m => w.set true m
  | none =>
    match p.gives with
    | some m => w.set false m
    | none => w

/-- The mutexes held after the statements, if all of them keep to the rules. -/
def obey (mapped : Bool) : Locked → List Pc → Option Locked
  | w, [] => some w
  | w, p :: ps => if p.lawful mapped w then obey mapped (p.after w) ps else none

/-- On every path of the call its statements keep to the rules, and it returns with no mutex
    held. -/
def Disciplined (E : Env) (mapped : Bool) (answer : Option Nat) (h : Sh) (c : Call) : Prop :=
  ∀ ps h' q, Path (exec E answer) (enter h c).1 (enter h c).2 ps h' q →
    ∃ w, obey mapped .none ps = some w ∧ (q = .idle → w = .none)

theorem obey_append (mapped : Bool) (w : Locked) (ps qs : List Pc) :
    obey mapped w (ps ++ qs) = (obey mapped w ps).bind fun w' => obey mapped w' qs := by
  induction ps generalizing w with
  | nil => rfl
  | cons p ps ih =>
    simp only [List.cons_append, obey, ih]
    split <;> rfl

/-- Under the arena's mutex any statement that is no lock and no unlock will do. -/
theorem obey_under (mapped g : Bool) {ps : List Pc} (hp : ∀ p ∈ ps, p.takes = none ∧ p.gives = none) :
    obey mapped ⟨g, true⟩ ps = some ⟨g, true⟩ := by
  induction ps with
  | nil => rfl
  | cons p ps ih =>
    obtain ⟨⟨ht, hg⟩, hps⟩ := List.forall_mem_cons.mp hp
    simp only [obey, Pc.lawful, Pc.after, ht, hg, Option.all_none, Bool.true_or, Bool.and_self, if_true]
    exact ih hps

theorem obey_inits (mapped : Bool) (w : Locked) {ps : List Pc} (hp : ∀ p ∈ ps, p.Inits) :
    obey mapped w ps = some w := by
  induction ps with
  | nil => rfl
  | cons p ps ih =>
    obtain ⟨h1, hps⟩ := List.forall_mem_cons.mp hp
    cases p with
    | init s k =>
      show (if w.arena || true then obey mapped w ps else none) = some w
      rw [Bool.or_true, if_pos rfl]
      exact ih hps
    | _ => cases h1

theorem Pc.Links.still {p : Pc} (hp : p.Links) : p.takes = none ∧ p.gives = none := by
  cases p <;> first | exact ⟨rfl, rfl⟩ | cases hp

/-! ## The courses of a `mymalloc` -/

section Courses

variable {E : Env} {answer : Option Nat} {h h' : Sh} {s : Nat} {L : Cls → List Nat} {ps : List Pc} {q : Pc}
  {r : Option Nat}

/-- There is no memory for `s` bytes: every block of the list for them is in use and the break
    cannot be moved, or `mmap` fails. -/
def OutOfMemory (E : Env) (st : St) (s : Nat) (answer : Option Nat) : Prop :=
  match classOf s with
  | some c =>
    (∀ b, Reaches (next st.mem) (recHead st.mem ((active E st).list c)) b → inUse st.mem b = 1) ∧
      E.hi < st.brk + E.gap st.calls + (blockSize + c.bytes)
  | none => answer = none ∨ (blockSize + s) % 2 ^ 64 = 0

theorem sbrk_none_iff {st : St} {n : Nat} : (Arenas.sbrk E st n).1 = none ↔ E.hi < st.brk + E.gap st.calls + n := by
  simp only [Arenas.sbrk]
  split
  · simp; omega
  · simp; omega

theorem outOfMemory_iff (hi : Inv E h.st L) : OutOfMemory E h.st s answer ↔ Exhausted E h.st s answer := by
  unfold OutOfMemory Exhausted
  cases hs : classOf s with
  | none => exact ⟨fun h => ⟨no_large_block hi hs, h⟩, fun h => h.2⟩
  | some c =>
    have hlist := (hi.arena.classes c).list.linked
    have hsearch : getFreeBlock E h.st s (active E h.st) = some (((L c).find? (fits h.st.mem s)).getD 0) := by
      rw [getFreeBlock, headFor, hi.arena.listFor_eq, hs]
      exact search_linked _ hlist (hi.length_lt c)
    have hused : (∀ b, Reaches (next h.st.mem) (recHead h.st.mem ((active E h.st).list c)) b → inUse h.st.mem b = 1) ↔
        getFreeBlock E h.st s (active E h.st) = some 0 := by
      have hflag : ∀ b ∈ L c, inUse h.st.mem b = 1 ↔ ¬ fits h.st.mem s b = true := fun b hb => by
        rw [hi.fits_iff hs hb, not_not, ((hi.arena.classes c).blocks b hb).2.2, held]
        split <;> simp [*]
      rw [hsearch, Option.some.injEq]
      constructor
      · intro hall
        rw [List.find?_eq_none.mpr fun b hb => (hflag b hb).mp (hall b ((hlist.reaches_iff b).mpr hb))]
        rfl
      · intro hnone b hb
        have hbl := (hlist.reaches_iff b).mp hb
        refine (hflag b hbl).mpr fun hf => ?_
        obtain ⟨x, hx⟩ := Option.isSome_iff_exists.mp (List.find?_isSome.mpr ⟨b, hbl, hf⟩)
        rw [hx, Option.getD_some] at hnone
        exact hlist.ne_zero (hnone ▸ List.mem_of_find?_eq_some hx)
    show _ ∧ _ ↔ _ ∧ (Arenas.sbrk E h.st (blockSize + c.bytes)).1 = none
    rw [hused, sbrk_none_iff]

/-- After the unlock the header's size may not be printed. -/
theorem obey_ret {mapped : Bool} {v : Frame} (hv : mapped = true ∨ (classOf v.s).isSome = true) (header : Nat) :
    obey mapped .none [.ret v header] = none := by
  have : (Pc.ret v header).lawful mapped .none = false := by
    rcases hv with hv | hv <;> simp [Pc.lawful, Pc.takes, Pc.gives, Pc.touches, Locked.none, hv]
  simp only [obey, this, Bool.false_eq_true, if_false]

/-- Whether the course keeps to the rules. -/
theorem Course.obeys_iff (hc : Course E answer h s ps h' q r) (mapped : Bool) :
    (∃ w, obey mapped .none ps = some w ∧ (q = .idle → w = .none)) ↔
      s = 0 ∨ Exhausted E h.st s answer ∨ (mapped = false ∧ 1024 < s) := by
  have hlook : ∀ {qs : List Pc} (rs : List Pc), (∀ q ∈ qs, q.Looks) →
      obey mapped .none (locking E h s ++ qs ++ rs) = obey mapped ⟨false, true⟩ rs := by
    intro qs rs hq
    have hlock : obey mapped .none (locking E h s) = some ⟨false, true⟩ := rfl
    rw [obey_append, obey_append, hlock, Option.bind_some, obey_under mapped false fun q hin => (hq q hin).quiet.2,
      Option.bind_some]
  have hserved : ∀ {b}, r = some (payload b) → ¬ Exhausted E h.st s answer := by
    intro b hr hex
    simpa [hr, payload_ne_zero] using hex.unserved hc
  have hsmall : ∀ {b c}, 0 < s → classOf s = some c → r = some (payload b) →
      ¬ (s = 0 ∨ Exhausted E h.st s answer ∨ (mapped = false ∧ 1024 < s)) := by
    intro b c h0 hs hr hcond
    rcases hcond with h | h | h
    · omega
    · exact hserved hr h
    · have := (classOf_some hs).2
      omega
  cases hc with
  | zero h0 => exact ⟨fun _ => Or.inl h0, fun _ => ⟨.none, rfl, fun _ => rfl⟩⟩
  | found h0 hs hb hb0 hq =>
    refine iff_of_false (fun hw => ?_) (fun hcond => ?_)
    · obtain ⟨w, hw, -⟩ := hw
      rw [hlook _ hq] at hw
      cases (obey_ret (v := (frame E h s).unlock) (Or.inr (by rw [show (frame E h s).unlock.s = s from rfl, hs]; rfl))
        _).symm.trans hw
    · exact hsmall h0 hs rfl hcond
  | @appended c a qs rs h0 hs hb hsb hq hr =>
    refine iff_of_false (fun hw => ?_) (fun hcond => ?_)
    · obtain ⟨w, hw, -⟩ := hw
      have hadd : obey mapped ⟨false, true⟩ (adding (frame E h s) c a) = some ⟨false, true⟩ := rfl
      rw [hlook _ hq, List.append_assoc, obey_append, hadd, Option.bind_some, obey_append,
        obey_under mapped false fun r hin => (hr r hin).still] at hw
      -- the second unlock
      cases hw
    · exact hsmall h0 hs rfl hcond
  | refused h0 hs hc hb hno hq =>
    refine ⟨fun _ => Or.inr (Or.inl ⟨hb, by rw [hs]; exact hno⟩), fun _ => ?_⟩
    rw [hlook _ hq]
    exact ⟨.none, rfl, fun _ => rfl⟩
  | crashed h0 hs hb hno hq =>
    refine ⟨fun _ => Or.inr (Or.inl ⟨hb, by rw [hs]; exact hno⟩), fun _ => ?_⟩
    rw [hlook _ hq]
    exact ⟨⟨false, true⟩, rfl, fun e => by cases e⟩
  | unmapped hs hb hno hq =>
    refine ⟨fun _ => Or.inr (Or.inl ⟨hb, by rw [hs]; exact hno⟩), fun _ => ?_⟩
    rw [hlook _ hq]
    exact ⟨.none, rfl, fun _ => rfl⟩
  | @mapped a _ hs hb ha ht hq =>
    have hlarge := classOf_none.mp hs
    have hmap : obey mapped ⟨false, true⟩ (mapping (frame E h s) a) =
        obey mapped .none [.ret (frame E h s).unlock a] := rfl
    rw [hlook _ hq, hmap]
    cases mapped with
    | true =>
      refine iff_of_false (fun hw => ?_) (fun hcond => ?_)
      · obtain ⟨w, hw, -⟩ := hw
        cases (obey_ret (Or.inl rfl) _).symm.trans hw
      · rcases hcond with h | h | h
        · omega
        · exact absurd h (hserved rfl)
        · cases h.1
    | false =>
      refine iff_of_true ⟨.none, ?_, fun _ => rfl⟩ (Or.inr (Or.inr ⟨rfl, hlarge⟩))
      simp [obey, Pc.lawful, Pc.after, Pc.takes, Pc.gives, Pc.touches, Locked.none, Frame.unlock, frame, hs]

/-- The other paths of a call lead to where it ends. -/
theorem disciplined_iff_stuck {c : Call} {mapped : Bool}
    (hp : Path (exec E answer) (enter h c).1 (enter h c).2 ps h' q) (hstuck : exec E answer h' q = none) :
    Disciplined E mapped answer h c ↔ ∃ w, obey mapped .none ps = some w ∧ (q = .idle → w = .none) := by
  constructor
  · intro hd
    exact hd _ _ _ hp
  · intro hw qs h₂ q₂ hq
    obtain ⟨w, hw, hidle⟩ := hw
    obtain ⟨rs, rfl, hrs⟩ := hp.passes hstuck hq
    rw [obey_append] at hw
    obtain ⟨w₂, hw₂, hrest⟩ := Option.bind_eq_some_iff.mp hw
    refine ⟨w₂, hw₂, fun hq₂ => ?_⟩
    subst hq₂
    cases hrs with
    | nil => cases hrest; exact hidle rfl
    | cons hs _ => cases hs

/-- A `mymalloc` that gets to the copy of the arena with no mutex held is disciplined if its
    course is. -/
theorem disciplined_of_course {h₀ : Sh} {ps₀ : List Pc} {mapped : Bool} (hi : Inv E h.st L) (hr : AtRest E h)
    (hp : Path (exec E answer) h₀ (.testLockInit s) ps₀ h (.copy s)) (ho : obey mapped .none ps₀ = some .none) :
    Disciplined E mapped answer h₀ (.malloc s) ↔
      s = 0 ∨ Exhausted E h.st s answer ∨ (mapped = false ∧ 1024 < s) := by
  obtain ⟨ps, h', q, r, hc, hps⟩ := mymalloc_course hi hr answer s
  rw [← hc.obeys_iff mapped, disciplined_iff_stuck (hp.append hps) hc.stuck, obey_append, ho, Option.bind_some]

end Courses

/-! ## The calls of a process -/

section Calls

variable {E : Env} {h : Sh}

/-- The allocator a call finds: the first one initialises it. -/
def found (st₀ : St) (h : Sh) : St := if h.st.arenaInitializer then h.st else st₀

/-- The calls that keep to the rules, `st` being what the call finds. -/
def Spared (E : Env) (mapped : Bool) (st : St) (answer : Option Nat) : Call → Prop
  | .malloc s => s = 0 ∨ OutOfMemory E st s answer ∨ (mapped = false ∧ 1024 < s)
  | .free ptr => ptr = 0

theorem free_disciplined_iff (mapped : Bool) (answer : Option Nat) (h : Sh) (ptr : Nat) :
    Disciplined E mapped answer h (.free ptr) ↔ ptr = 0 := by
  constructor
  · intro hd
    by_contra h0
    have h1 : exec E answer (enter h (.free ptr)).1 (.freeTest ptr) =
        some ((enter h (.free ptr)).1, .freeCopy ptr) := by simp only [exec, h0, if_false]
    obtain ⟨w, hw, -⟩ := hd _ _ _ (.cons h1 (.cons rfl (.cons rfl (.nil _ _))))
    cases hw
  · intro h0
    subst h0
    have hzero : Path (exec E answer) (enter h (.free 0)).1 (.freeTest 0) [.freeTest 0] (enter h (.free 0)).1 .idle :=
      .cons (by simp [exec]) (.nil _ _)
    exact (disciplined_iff_stuck hzero rfl).mpr ⟨.none, rfl, fun _ => rfl⟩

theorem disciplined_iff {st₀ : St} (hboot : boot E = some st₀) (hreach : Reach E h) (mapped : Bool)
    (answer : Option Nat) (c : Call) :
    Disciplined E mapped answer h c ↔ Spared E mapped (found st₀ h) answer c := by
  obtain ⟨L₀, hi₀, -⟩ := boot_inv hboot
  cases c with
  | free ptr => exact free_disciplined_iff mapped answer h ptr
  | malloc s =>
    rcases hreach.rest hboot with rfl | ⟨hr, L, hi⟩
    · obtain ⟨qs, hq, hqs⟩ := boot_path answer s hboot
      have ho : obey mapped .none (booting s ++ qs ++ booted s) = some .none := by
        have hboot : obey mapped .none (booting s) = some ⟨true, false⟩ := rfl
        rw [obey_append, obey_append, hboot, Option.bind_some, obey_inits mapped _ hqs]
        rfl
      rw [disciplined_of_course (h := (ready st₀).sh) hi₀ (ready_atRest hi₀) hq ho,
        ← outOfMemory_iff (h := (ready st₀).sh) hi₀]
      rfl
    · rw [disciplined_of_course hi hr (rest_path answer s hr) rfl, ← outOfMemory_iff hi]
      show _ ↔ Spared E mapped (found st₀ h) answer (.malloc s)
      rw [found, if_pos hr.ready]
      rfl

end Calls

/-- The first call is for 2000 bytes, and `mmap` fails. -/
theorem disciplined_2000 : ∃ st₀, boot ample = some st₀ ∧ Reach ample (cold ample).sh ∧
    Disciplined ample true none (cold ample).sh (.malloc 2000) := by
  obtain ⟨st₀, hboot, -⟩ := ample_boots
  exact ⟨st₀, hboot, .cold, (disciplined_iff hboot .cold true none (.malloc 2000)).mpr (Or.inr (Or.inl (Or.inl rfl)))⟩

/-- `mymalloc(8)` and `myfree` of what it returned: the second call has no mutex locked when it
    reads the lists. -/
theorem free_undisciplined : ∃ h p, Reach ample h ∧ p ∈ held h.st ∧
    ∀ mapped answer, ¬ Disciplined ample mapped answer h (.free p) := by
  obtain ⟨st₀, hboot, -⟩ := ample_boots
  obtain ⟨L, hi, hpool⟩ := boot_inv hboot
  have hlt : count .c64 st₀ < (L .c64).length := by
    rw [hpool, count, (boot_ok hboot).2.1]
    decide
  obtain ⟨t, ht, -⟩ := take_one hi hlt
  obtain ⟨qs, hq, -⟩ := boot_path none 8 hboot
  obtain ⟨ps, h', q, r, hc, hp⟩ := mymalloc_course (h := (ready st₀).sh) hi (ready_atRest hi) none 8
  have hcrash := hc.result hi
  have hpath := hq.append hp
  have hlegal : Arenas.Legal ample (cold ample).sh.st (.malloc 8 none) := ⟨by decide, by simp⟩
  have hfree : ∀ (g : Sh) (b : Nat) mapped answer, ¬ Disciplined ample mapped answer g (.free (payload b)) :=
    fun g b mapped answer hd => payload_ne_zero b ((free_disciplined_iff mapped answer g _).mp hd)
  cases hc with
  | zero h0 => cases h0
  | found => exact ⟨_, _, .malloc .cold hlegal hpath, List.mem_cons_self .., hfree _ _⟩
  | appended => exact ⟨_, _, .malloc .cold hlegal hpath, List.mem_cons_self .., hfree _ _⟩
  | refused _ hs hne => exact absurd (Option.some.inj hs).symm hne
  | crashed =>
    simp only [Arenas.step, show Arenas.malloc ample st₀ 8 none = none from hcrash] at ht
    cases ht
  | unmapped hs => cases hs
  | mapped hs => cases hs

end CS5600.Alloc.Threads
