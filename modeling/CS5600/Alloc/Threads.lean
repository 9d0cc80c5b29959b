/-
  CS5600.Alloc.Threads — the segregated allocator called by many threads
  (`Assignment6_AdvancedMemory/starter/mymalloc.c`), one statement at a time.

  Each thread is at a statement (`Pc`) with the locals it will use; any thread may take the next
  step. Testing a condition, a store, a lock, an unlock, an `sbrk`, an `mmap` are one step each;
  an assignment between locals is part of the next step, and the printed lines are left out. A
  lock step is possible only when that mutex is free.

  The mutex in `free_lists[i]` is `locks i`. `arena free_list = free_lists[curr_proc]` copies the
  whole struct, so that `mymalloc` locks and unlocks the mutex of its own copy (`Frame.lock`),
  which nobody else can reach; `myfree` locks nothing, and its unlocks act on its copy too.
  `global_lock` is the only mutex two threads share. `pthread_mutex_init` leaves a mutex free
  whatever it was.

  The heap is that of `CS5600.Alloc.Arenas`. A pointer is the client's from the return of its
  `mymalloc` to the call of its `myfree`. Further ghost state: how often `initialize_arena` was
  entered and has returned, and which blocks were appended to a list.
-/

import CS5600.Alloc.ArenasProofs
import CS5600.Lib.Interleave

namespace CS5600.Alloc.Threads

open CS5600.Lib.Bytes CS5600.Lib.Interleave CS5600.Alloc.Block CS5600.Alloc.FreeList CS5600.Alloc.Arenas

structure Sh where
  st : St
  gLockInit : Bool
  globalLock : Bool
  locks : Nat → Bool
  entered : Nat
  returned : Nat
  linked : List (Cls × Nat)

def Sh.write (h : Sh) (m : Mem) : Sh := { h with st := { h.st with mem := m } }

def Sh.mem (h : Sh) : Mem := h.st.mem

variable (E : Env)

/-! ## `initialize_arena` -/

/-- The statements of `initialize_arena`: `i` and `j` are its loop counters, `o` or `c` the list
    it is at (`none`: `over_1024_block`). -/
inductive InitAt where
  | arenas (i : Nat)
  | list (i : Nat) (o : Option Cls)
  | listBytes (i : Nat) (o : Option Cls)
  | pool (i : Nat) (c : Cls) (j : Nat)
  | get (i : Nat) (c : Cls) (j : Nat)
  | check (i : Nat) (c : Cls) (j : Nat) (heapBlock : Option Nat)
  | putSize (i : Nat) (c : Cls) (j curr : Nat)
  | putInUse (i : Nat) (c : Cls) (j curr : Nat)
  | putNext (i : Nat) (c : Cls) (j curr : Nat)
  | testHead (i : Nat) (c : Cls) (j curr : Nat)
  | setHead (i : Nat) (c : Cls) (j curr : Nat)
  | testTail (i : Nat) (c : Cls) (j curr : Nat)
  | linkTail (i : Nat) (c : Cls) (j curr : Nat)
  | setTail (i : Nat) (c : Cls) (j curr : Nat)
  | overHead (i : Nat)
  | overTail (i : Nat)
  | mutex (i : Nat)

def recordOf (A : Arena) : Option Cls → Nat
  | some c => A.list c
  | none => A.over1024

def setRecord (A : Arena) (o : Option Cls) (r : Nat) : Arena :=
  match o with
  | some c => setList A c r
  | none => { A with over1024 := r }

def bytesOf : Option Cls → Nat
  | some c => c.bytes
  | none => 1025

/-- The list built after `c`'s. -/
def Cls.succ : Cls → Option Cls
  | .c64 => some .c256
  | .c256 => some .c1024
  | .c1024 => none

/-- One statement; `none` in the second place when the function has returned. -/
def initExec (h : Sh) : InitAt → Option (Sh × Option InitAt)
  | .arenas i => some (h, if i < procs then some (.list i (some .c64)) else none)
  | .list i o =>
    -- a failed sbrk is stored all the same, and the next statement writes through it
    match Arenas.sbrk E h.st listSize with
    | (none, _) => none
    | (some r, st) =>
      some ({ h with st := { st with
        recs := r :: st.recs
        freeLists := Function.update st.freeLists i (setRecord (st.freeLists i) o r) } }, some (.listBytes i o))
  | .listBytes i o =>
    some (h.write (setRecSize h.mem (recordOf (h.st.freeLists i) o) (bytesOf o)),
      some (match o with
        | some c => .pool i c 0
        | none => .overHead i))
  | .pool i c j => some (h, some (if j < c.pool then .get i c j else .list i (Cls.succ c)))
  | .get i c j =>
    match Arenas.sbrk E h.st (blockSize + c.bytes) with
    | (none, st) => some ({ h with st := st }, some (.check i c j none))
    | (some curr, st) =>
      some ({ h with st := { st with blks := (curr, blockSize + c.bytes) :: st.blks } }, some (.check i c j (some curr)))
  | .check _ _ _ none => some (h, none)
  | .check i c j (some curr) => some (h, some (.putSize i c j curr))
  | .putSize i c j curr => some (h.write (setSize h.mem curr c.bytes), some (.putInUse i c j curr))
  | .putInUse i c j curr => some (h.write (setInUse h.mem curr 0), some (.putNext i c j curr))
  | .putNext i c j curr => some (h.write (setNext h.mem curr 0), some (.testHead i c j curr))
  | .testHead i c j curr =>
    some (h, some (if recHead h.mem ((h.st.freeLists i).list c) = 0 then .setHead i c j curr else .testTail i c j curr))
  | .setHead i c j curr => some (h.write (setRecHead h.mem ((h.st.freeLists i).list c) curr), some (.testTail i c j curr))
  | .testTail i c j curr =>
    some (h, some (if recTail h.mem ((h.st.freeLists i).list c) ≠ 0 then .linkTail i c j curr else .setTail i c j curr))
  | .linkTail i c j curr =>
    some (h.write (setNext h.mem (recTail h.mem ((h.st.freeLists i).list c)) curr), some (.setTail i c j curr))
  | .setTail i c j curr =>
    some (h.write (setRecTail h.mem ((h.st.freeLists i).list c) curr), some (.pool i c (j + 1)))
  | .overHead i => some (h.write (setRecHead h.mem (h.st.freeLists i).over1024 0), some (.overTail i))
  | .overTail i => some (h.write (setRecTail h.mem (h.st.freeLists i).over1024 0), some (.mutex i))
  | .mutex i => some ({ h with locks := Function.update h.locks i false }, some (.arenas (i + 1)))

/-! ## `mymalloc` and `myfree` -/

/-- What a `mymalloc` holds after it has copied the arena: the request, and the copy with its mutex. -/
structure Frame where
  s : Nat
  A : Arena
  lock : Bool

/-- The statements of `mymalloc` (with `get_free_block` and `get_block`) and of `myfree`; a
    thread that is in neither is `idle`. -/
inductive Pc where
  | idle
  -- mymalloc up to the copy of the arena
  | testLockInit (s : Nat)
  | initLock (s : Nat)
  | setLockInit (s : Nat)
  | lockGlobal (s : Nat)
  | testInit (s : Nat)
  | init (s : Nat) (k : InitAt)
  | setInit (s : Nat)
  | unlockGlobal (s : Nat)
  | copy (s : Nat)
  | testSize (v : Frame)
  | lock (v : Frame)
  -- get_free_block
  | pick (v : Frame) (c : Cls)
  | head (v : Frame) (o : Option Cls)
  | walk (v : Frame) (curr : Nat)
  | test (v : Frame) (curr : Nat)
  | advance (v : Frame) (curr : Nat)
  -- mymalloc with the block that was found, or NULL
  | order (v : Frame) (header : Nat) (c : Cls)
  | testFound (v : Frame) (header : Nat) (c : Cls)
  | mark (v : Frame) (header : Nat)
  | unlockFound (v : Frame) (header : Nat)
  -- get_block
  | lockSbrk (v : Frame) (c : Cls) (n : Nat)
  | sbrk (v : Frame) (c : Cls) (n : Nat)
  | unlockSbrk (v : Frame) (c : Cls) (heapBlock : Option Nat)
  -- mymalloc with a new block
  | check (v : Frame) (c : Cls) (heapBlock : Option Nat)
  | mmap (v : Frame)
  | testMap (v : Frame) (heapBlock : Option Nat)
  | unlockFail (v : Frame)
  | putSize (v : Frame) (o : Option Cls) (header : Nat)
  | putInUse (v : Frame) (o : Option Cls) (header : Nat)
  | putNext (v : Frame) (o : Option Cls) (header : Nat)
  | testHead (v : Frame) (c : Cls) (header : Nat)
  | setHead (v : Frame) (c : Cls) (header : Nat)
  | testTail (v : Frame) (c : Cls) (header : Nat)
  | linkTail (v : Frame) (c : Cls) (header : Nat)
  | setTail (v : Frame) (c : Cls) (header : Nat)
  | unlockList (v : Frame) (header : Nat)
  | unlockLast (v : Frame) (header : Nat)
  | ret (v : Frame) (header : Nat)
  -- myfree
  | freeTest (ptr : Nat)
  | freeCopy (ptr : Nat)
  | freePick (A : Arena) (header : Nat) (c : Cls)
  | freeHead (A : Arena) (header : Nat) (c : Cls)
  | freeWalk (header curr : Nat)
  | freeAdvance (header curr : Nat)
  | freeFound (header curr : Nat)
  | clear (header curr : Nat)
  | clearAgain (header : Nat)
  | freeUnlock
  | clearMap (header : Nat)
  | unmap (header : Nat)

/-- The class tested after `c` in a chain of `s <= list->size`, and `none` for its last `else`. -/
def afterPick (m : Mem) (A : Arena) (s : Nat) (c : Cls) : Option Cls ⊕ Cls :=
  if s ≤ recSize m (A.list c) then .inl (some c)
  else match Cls.succ c with
    | some c' => .inr c'
    | none => .inl none

def Frame.unlock (v : Frame) : Frame := { v with lock := false }

/-- One statement of a thread. `none`: it cannot be taken (a mutex is held), or the process
    crashes. `answer` is what `mmap` answers, should the statement call it. -/
def exec (answer : Option Nat) (h : Sh) : Pc → Option (Sh × Pc)
  | .idle => none
  | .testLockInit s => some (h, if h.gLockInit then .lockGlobal s else .initLock s)
  | .initLock s => some ({ h with globalLock := false }, .setLockInit s)
  | .setLockInit s => some ({ h with gLockInit := true }, .lockGlobal s)
  | .lockGlobal s => if h.globalLock then none else some ({ h with globalLock := true }, .testInit s)
  | .testInit s =>
    if h.st.arenaInitializer then some (h, .unlockGlobal s)
    else some ({ h with entered := h.entered + 1 }, .init s (.arenas 0))
  | .init s k =>
    match initExec E h k with
    | none => none
    | some (h, some k) => some (h, .init s k)
    | some (h, none) => some ({ h with returned := h.returned + 1 }, .setInit s)
  | .setInit s => some ({ h with st := { h.st with arenaInitializer := true } }, .unlockGlobal s)
  | .unlockGlobal s => some ({ h with globalLock := false }, .copy s)
  | .copy s => some (h, .testSize ⟨s, active E h.st, h.locks (E.nprocs % procs)⟩)
  | .testSize v => some (h, if v.s = 0 then .idle else .lock v)
  | .lock v => if v.lock then none else some (h, .pick { v with lock := true } .c64)
  | .pick v c =>
    some (h, match afterPick h.mem v.A v.s c with
      | .inl o => .head v o
      | .inr c => .pick v c)
  | .head v o => some (h, .walk v (recHead h.mem (recordOf v.A o)))
  | .walk v curr => some (h, if curr ≠ 0 then .test v curr else .order v 0 .c64)
  | .test v curr => some (h, if fits h.mem v.s curr then .order v curr .c64 else .advance v curr)
  | .advance v curr => some (h, .walk v (next h.mem curr))
  | .order v header c =>
    some (h, match afterPick h.mem v.A v.s c with
      | .inl (some c) => .testFound v header c
      | .inl none => .mmap v
      | .inr c => .order v header c)
  | .testFound v header c =>
    some (h, if header ≠ 0 then .mark v header else .lockSbrk v c (blockSize + recSize h.mem (v.A.list c)))
  | .mark v header => some (h.write (setInUse h.mem header 1), .unlockFound v header)
  | .unlockFound v header => some (h, .ret v.unlock header)
  | .lockSbrk v c n => if h.globalLock then none else some ({ h with globalLock := true }, .sbrk v c n)
  | .sbrk v c n =>
    match Arenas.sbrk E h.st n with
    | (none, st) => some ({ h with st := st }, .unlockSbrk v c none)
    | (some a, st) => some ({ h with st := { st with blks := (a, n) :: st.blks } }, .unlockSbrk v c (some a))
  | .unlockSbrk v c heapBlock => some ({ h with globalLock := false }, .check v c heapBlock)
  | .check v c heapBlock =>
    match heapBlock with
    | some header => some (h, .putSize v (some c) header)
    | none => if c = .c64 then none else some (h, .unlockFail v)
  | .mmap v =>
    let total := (blockSize + v.s) % 2 ^ 64
    match answer with
    | none => some (h, .testMap v none)
    | some header =>
      if total = 0 then some (h, .testMap v none)
      else some ({ h with st := { h.st with maps := (header, E.mapLen total) :: h.st.maps } }, .testMap v (some header))
  | .testMap v heapBlock =>
    some (h, match heapBlock with
      | some header => .putSize v none header
      | none => .unlockFail v)
  | .unlockFail _ => some (h, .idle)
  | .putSize v o header =>
    some (h.write (setSize h.mem header (match o with
      | some c => c.bytes
      | none => v.s)), .putInUse v o header)
  | .putInUse v o header => some (h.write (setInUse h.mem header 1), .putNext v o header)
  | .putNext v o header =>
    some (h.write (setNext h.mem header 0), match o with
      | some c => .testHead v c header
      | none => .unlockLast v header)
  | .testHead v c header =>
    some (h, if recHead h.mem (v.A.list c) = 0 then .setHead v c header else .testTail v c header)
  | .setHead v c header => some (h.write (setRecHead h.mem (v.A.list c) header), .testTail v c header)
  | .testTail v c header =>
    some (h, if recTail h.mem (v.A.list c) ≠ 0 then .linkTail v c header else .setTail v c header)
  | .linkTail v c header =>
    some (h.write (setNext h.mem (recTail h.mem (v.A.list c)) header), .setTail v c header)
  | .setTail v c header =>
    some ({ h.write (setRecTail h.mem (v.A.list c) header) with linked := (c, header) :: h.linked },
      .unlockList v header)
  | .unlockList v header => some (h, .unlockLast v.unlock header)
  | .unlockLast v header => some (h, .ret v.unlock header)
  | .ret v header => some ({ h with st := { h.st with live := (payload header, v.s) :: h.st.live } }, .idle)
  | .freeTest ptr => some (h, if ptr = 0 then .idle else .freeCopy ptr)
  | .freeCopy ptr => some (h, .freePick (active E h.st) (headerOf ptr) .c64)
  | .freePick A header c =>
    some (h, match afterPick h.mem A (size h.mem header) c with
      | .inl (some c) => .freeHead A header c
      | .inl none => .clearMap header
      | .inr c => .freePick A header c)
  | .freeHead A header c => some (h, .freeWalk header (recHead h.mem (A.list c)))
  | .freeWalk header curr =>
    some (h, if header ≠ curr ∧ curr ≠ 0 then .freeAdvance header curr else .freeFound header curr)
  | .freeAdvance header curr => some (h, .freeWalk header (next h.mem curr))
  | .freeFound header curr => some (h, if curr = header then .clear header curr else .freeUnlock)
  | .clear header curr => some (h.write (setInUse h.mem curr 0), .clearAgain header)
  | .clearAgain header => some (h.write (setInUse h.mem header 0), .freeUnlock)
  | .freeUnlock => some (h, .idle)
  | .clearMap header => some (h.write (setInUse h.mem header 0), .unmap header)
  | .unmap header =>
    some ({ h with st := { h.st with maps := h.st.maps.filter (·.1 ≠ header) } }, .freeUnlock)

/-! ## The system -/

inductive Call where
  | malloc (s : Nat)
  | free (ptr : Nat)

inductive Ev where
  | call (i : Nat) (c : Call)
  | run (i : Nat) (answer : Option Nat)

/-- A thread that is in no call makes one, or a thread takes a step. -/
def step (σ : Sys Sh Pc) : Ev → Option (Sys Sh Pc)
  | .call i c =>
    match σ.pc i with
    | .idle =>
      match c with
      | .malloc s => some (σ.put i σ.sh (.testLockInit s))
      | .free ptr => some (σ.put i { σ.sh with st := { σ.sh.st with live := drop σ.sh.st ptr } } (.freeTest ptr))
    | _ => none
  | .run i answer => (exec E answer σ.sh (σ.pc i)).map fun r => σ.put i r.1 r.2

/-- What the process and the client keep to. -/
def Legal (σ : Sys Sh Pc) : Ev → Prop
  | .call _ (.malloc s) => s < 2 ^ 64
  | .call _ (.free ptr) => ptr = 0 ∨ ptr ∈ held σ.sh.st
  | .run i answer => ∀ v header, σ.pc i = .mmap v → answer = some header →
      Mappable E σ.sh.st header (E.mapLen ((blockSize + v.s) % 2 ^ 64))

/-- Before the first call. -/
def cold : Sys Sh Pc := ⟨⟨start E, false, false, fun _ => false, 0, 0, []⟩, fun _ => .idle⟩

/-- After an initialisation that ended in `st`, with no call in progress. -/
def ready (st : St) : Sys Sh Pc := ⟨⟨st, true, false, fun _ => false, 1, 1, []⟩, fun _ => .idle⟩

end CS5600.Alloc.Threads
