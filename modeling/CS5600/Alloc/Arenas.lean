/-
  CS5600.Alloc.Arenas — the segregated allocator (`Assignment6_AdvancedMemory/starter/mymalloc.c`),
  its calls one after the other.

  Each of 32 arenas has a list of blocks of 64, of 256 and of 1024 bytes, filled by
  `initialize_arena` from `sbrk`, and an empty list for larger ones. The arena in use is
  `get_nprocs() % 32`. `mymalloc` takes the first free block of the first list whose size covers
  the request, or appends a new one to it; a request above 1024 bytes is mapped on its own and
  unmapped by `myfree`. Calls run one at a time, so the mutexes have no part in the state
  (`CS5600.Alloc.Threads` has them); the printed lines are left out.

  What the process is given (`Env`): a heap range, the processor count, what other code takes
  from the break before the n-th `sbrk` (`gap`, 0 when nobody else uses it), and the bytes a
  mapping of n bytes really covers (`mapLen`: at least n, at least a header; whole pages on
  Linux). Fresh heap memory is zero, and only `initialize_arena` relies on it. Which address
  `mmap` answers, or that it fails, comes with the call.

  A call that never returns or writes through `(void*)-1` is `none`. Ghost state: `recs` and
  `blks` are the list records and the blocks made on the heap, `maps` the mapped blocks, each
  block with the bytes obtained for it, and `live` the pointers the client holds with the bytes
  it asked for. `write` is the client's store of a byte.
-/

import CS5600.Alloc.FreeList
import CS5600.Lib.Runs

namespace CS5600.Alloc.Arenas

open CS5600.Lib.Bytes CS5600.Lib.Chains CS5600.Lib.Runs CS5600.Alloc.Block CS5600.Alloc.FreeList

inductive Cls where
  | c64
  | c256
  | c1024
  deriving DecidableEq, Repr

def Cls.bytes : Cls → Nat
  | .c64 => 64
  | .c256 => 256
  | .c1024 => 1024

/-- `NUM_64_BLOCKS`, `NUM_256_BLOCKS`, `NUM_1024_BLOCKS` -/
def Cls.pool : Cls → Nat
  | .c64 => 1024
  | .c256 => 512
  | .c1024 => 64

/-- `PROCS` -/
def procs : Nat := 32

/-- `struct arena`, without its mutex: where its four list records are. -/
structure Arena where
  list : Cls → Nat
  over1024 : Nat

structure Env extends Heap where
  nprocs : Nat
  gap : Nat → Nat
  mapLen : Nat → Nat
  le_mapLen : ∀ n, n ≤ mapLen n
  header_le_mapLen : ∀ n, 0 < n → blockSize ≤ mapLen n

structure St where
  mem : Mem
  brk : Nat
  /-- How often the allocator has called `sbrk`. -/
  calls : Nat
  freeLists : Nat → Arena
  arenaInitializer : Bool
  recs : List Nat
  blks : List (Nat × Nat)
  maps : List (Nat × Nat)
  live : List (Nat × Nat)

variable (E : Env)

def start : St := ⟨fun _ => 0, E.lo, 0, fun _ => ⟨fun _ => 0, 0⟩, false, [], [], [], []⟩

/-- The address of `n` new bytes, or `none` for `(void*)-1`. -/
def sbrk (st : St) (n : Nat) : Option Nat × St :=
  let a := st.brk + E.gap st.calls
  if a + n ≤ E.hi then (some a, { st with brk := a + n, calls := st.calls + 1 })
  else (none, { st with calls := st.calls + 1 })

/-! ## `initialize_arena` -/

/-- The pool loop of a class, `n` blocks to go; `false` when `sbrk` fails and the function returns. -/
def initPool (c : Cls) (r : Nat) : Nat → St → Bool × St
  | 0, st => (true, st)
  | n + 1, st =>
    match sbrk E st (blockSize + c.bytes) with
    | (none, st) => (false, st)
    | (some curr, st) =>
      initPool c r n { st with
        mem := link (placeHeader st.mem curr c.bytes 0) r curr
        blks := (curr, blockSize + c.bytes) :: st.blks }

/-- One list record: its address is not checked before it is written. -/
def initRecord (st : St) (sz : Nat) : Option (Nat × St) :=
  match sbrk E st listSize with
  | (none, _) => none
  | (some r, st) => some (r, { st with mem := setRecSize st.mem r sz, recs := r :: st.recs })

def setList (A : Arena) (c : Cls) (r : Nat) : Arena := { A with list := Function.update A.list c r }

def initClass (i : Nat) (c : Cls) (st : St) : Option (Bool × St) :=
  match initRecord E st c.bytes with
  | none => none
  | some (r, st) =>
    some (initPool E c r c.pool
      { st with freeLists := Function.update st.freeLists i (setList (st.freeLists i) c r) })

/-- Go on with `f` unless the function has crashed or returned. -/
def andThen (x : Option (Bool × St)) (f : St → Option (Bool × St)) : Option (Bool × St) :=
  match x with
  | none => none
  | some (false, st) => some (false, st)
  | some (true, st) => f st

def initOver (i : Nat) (st : St) : Option (Bool × St) :=
  match initRecord E st 1025 with
  | none => none
  | some (r, st) =>
    some (true, { st with
      mem := setRecTail (setRecHead st.mem r 0) r 0
      freeLists := Function.update st.freeLists i { st.freeLists i with over1024 := r } })

def initOne (i : Nat) (st : St) : Option (Bool × St) :=
  andThen (initClass E i .c64 st) fun st =>
  andThen (initClass E i .c256 st) fun st =>
  andThen (initClass E i .c1024 st) fun st => initOver E i st

/-- The arenas `i, i + 1, .., i + n - 1`. -/
def initFrom : Nat → Nat → St → Option (Bool × St)
  | _, 0, st => some (true, st)
  | i, n + 1, st => andThen (initOne E i st) (initFrom (i + 1) n)

def initializeArena (st : St) : Option (Bool × St) := initFrom E 0 procs st

/-! ## `mymalloc` and `myfree` -/

/-- `free_lists[get_nprocs() % PROCS]` -/
def active (st : St) : Arena := st.freeLists (E.nprocs % procs)

/-- `curr->in_use == 0 && curr->size >= s` -/
def fits (m : Mem) (s curr : Nat) : Bool := inUse m curr == 0 && decide (s ≤ size m curr)

/-- The list a size is looked up in: `none` is `over_1024_block`. -/
def listFor (m : Mem) (A : Arena) (s : Nat) : Option Cls :=
  if s ≤ recSize m (A.list .c64) then some .c64
  else if s ≤ recSize m (A.list .c256) then some .c256
  else if s ≤ recSize m (A.list .c1024) then some .c1024
  else none

def headFor (m : Mem) (A : Arena) (s : Nat) : Nat :=
  match listFor m A s with
  | some c => recHead m (A.list c)
  | none => recHead m A.over1024

def getFreeBlock (st : St) (s : Nat) (A : Arena) : Option Nat :=
  search (next st.mem) (fits st.mem s) E.hi (headFor st.mem A s)

def getBlock (st : St) (n : Nat) : Option Nat × St := sbrk E st n

/-- No block was found: get one and append it. Only the class of 64 does not look at what
    `get_block` answers before it writes there. -/
def appendBlock (st : St) (c : Cls) (A : Arena) : Option (Nat × St) :=
  match getBlock E st (blockSize + recSize st.mem (A.list c)) with
  | (none, st) => if c = .c64 then none else some (0, st)
  | (some header, st) =>
    some (payload header, { st with
      mem := link (placeHeader st.mem header c.bytes 1) (A.list c) header
      blks := (header, blockSize + c.bytes) :: st.blks })

/-- A request above 1024 bytes; `answer` is `mmap`'s, and a length of 0 is refused. -/
def mapBlock (st : St) (s : Nat) (answer : Option Nat) : Nat × St :=
  let total := (blockSize + s) % 2 ^ 64
  match answer with
  | none => (0, st)
  | some header =>
    if total = 0 then (0, st)
    else (payload header, { st with
      mem := placeHeader st.mem header s 1
      maps := (header, E.mapLen total) :: st.maps })

/-- `mymalloc` after the initialisation. -/
def allocate (st : St) (s : Nat) (answer : Option Nat) : Option (Nat × St) :=
  if s = 0 then some (0, st)
  else
    let A := active E st
    match getFreeBlock E st s A with
    | none => none
    | some header =>
      match listFor st.mem A s with
      | some c =>
        if header ≠ 0 then some (payload header, { st with mem := setInUse st.mem header 1 }) else appendBlock E st c A
      | none => some (mapBlock E st s answer)

def initialized (st : St) : Option St :=
  if st.arenaInitializer then some st
  else (initializeArena E st).map fun r => { r.2 with arenaInitializer := true }

def mymalloc (st : St) (s : Nat) (answer : Option Nat) : Option (Nat × St) :=
  match initialized E st with
  | none => none
  | some st => allocate E st s answer

def myfree (st : St) (ptr : Nat) : Option St :=
  if ptr = 0 then some st
  else
    let A := active E st
    let header := headerOf ptr
    match listFor st.mem A (size st.mem header) with
    | none =>
      -- in_use is cleared in memory that munmap then takes away
      some { st with mem := setInUse st.mem header 0, maps := st.maps.filter (·.1 ≠ header) }
    | some c =>
      match search (next st.mem) (· == header) E.hi (recHead st.mem (A.list c)) with
      | none => none
      | some curr =>
        if curr = header then some { st with mem := setInUse (setInUse st.mem curr 0) header 0 } else some st

/-! ## The client -/

/-- What the client holds after `mymalloc(s)` has returned `p`. -/
def hold (s p : Nat) (st : St) : St := if p = 0 then st else { st with live := (p, s) :: st.live }

/-- And after it has freed `ptr`. -/
def forget (ptr : Nat) (st : St) : St := { st with live := st.live.filter (·.1 ≠ ptr) }

def malloc (st : St) (s : Nat) (answer : Option Nat) : Option (Nat × St) :=
  (mymalloc E st s answer).map fun r => (r.1, hold s r.1 r.2)

def free (st : St) (ptr : Nat) : Option St := (myfree E st ptr).map (forget ptr)

inductive Call where
  | malloc (s : Nat) (answer : Option Nat)
  | free (ptr : Nat)
  | write (a : Nat) (v : UInt8)

def step (st : St) : Call → Option St
  | .malloc s answer => (malloc E st s answer).map (·.2)
  | .free ptr => free E st ptr
  | .write a v => some { st with mem := Function.update st.mem a v }

end CS5600.Alloc.Arenas
