/-
  CS5600.Alloc.Sbrk — the first-fit allocator over `sbrk`
  (`Assignment5_Memory/Allocator/part1/mymalloc.c`).

  One list of blocks from `head` to `tail` lies in the heap below the program break. `mymalloc`
  takes the first free block that is large enough, or gets one from `sbrk` and appends it.
  `myfree` marks the block free, but for its trim path: when the pointer plus the block's size
  is the break, it unlinks the list's tail and lowers the break instead. The calls run one after
  the other, so the mutex has no part in the state; the printed lines are left out. `live` is
  what the client holds: the pointers returned and not freed, with the bytes asked for. It notes
  them itself, by its calls and their answers (`malloc`, `free`).

  Nothing but this allocator moves the break. The file does not include `unistd.h`; `sbrk` is taken
  as it is declared there, with an `intptr_t` and a pointer for its answer. A walk over the list that takes more steps than
  the heap has addresses has come round in a circle: the call never returns (`none`).
-/

import CS5600.Alloc.Block
import CS5600.Lib.Runs

namespace CS5600.Alloc.Sbrk

open CS5600.Lib.Bytes CS5600.Lib.Chains CS5600.Lib.Runs CS5600.Alloc.Block

structure St where
  mem : Mem
  head : Nat
  tail : Nat
  brk : Nat
  live : List (Nat × Nat)

variable (H : Heap)

def start (m : Mem) : St := ⟨m, 0, 0, H.lo, []⟩

/-- `!curr->in_use && curr->size >= s` -/
def fits (m : Mem) (s curr : Nat) : Bool := inUse m curr == 0 && decide (s ≤ size m curr)

def getFreeBlock (st : St) (s : Nat) : Option Nat := search (next st.mem) (fits st.mem s) H.hi st.head

/-- The new block at the old break, made the list's tail. -/
def append (st : St) (s brk : Nat) : St :=
  let header := st.brk
  let m := placeHeader st.mem header s 1
  { mem := if st.tail ≠ 0 then setNext m st.tail header else m
    head := if st.head = 0 then header else st.head
    tail := header
    brk := brk
    live := st.live }

/-- The result is 0 for NULL. -/
def mymalloc (st : St) (s : Nat) : Option (Nat × St) :=
  if s = 0 then some (0, st)
  else
    match getFreeBlock H st s with
    | none => none
    | some header =>
      if header ≠ 0 then some (payload header, { st with mem := setInUse st.mem header 1 })
      else
        match sbrk H st.brk (signed ((blockSize + s) % 2 ^ 64)) with
        | none => some (0, st)
        | some brk => some (payload st.brk, append st s brk)

/-- The loop that unlinks the tail: it goes on to the end after it has found it. -/
def unlinkTail : Nat → Mem → Nat → Nat → Option (Mem × Nat)
  | 0, _, _, _ => none
  | fuel + 1, m, tail, temp =>
    if temp = 0 then some (m, tail)
    else if next m temp = tail then
      let m' := setNext m temp 0
      unlinkTail fuel m' temp (next m' temp)
    else unlinkTail fuel m tail (next m temp)

/-- The test of the trim path: `(char*)ptr + header->size == sbrk(0)`. -/
def Trims (st : St) (ptr : Nat) : Prop := (ptr + size st.mem (headerOf ptr)) % 2 ^ 64 = st.brk

instance (st : St) (ptr : Nat) : Decidable (Trims st ptr) := inferInstanceAs (Decidable (_ = _))

def unlink (st : St) : Option (Mem × Nat × Nat) :=
  if st.head = st.tail then some (st.mem, 0, 0)
  else (unlinkTail H.hi st.mem st.tail st.head).map fun r => (r.1, st.head, r.2)

def myfree (st : St) (ptr : Nat) : Option St :=
  if ptr = 0 then some st
  else
    let header := headerOf ptr
    -- the first walk only decides what is printed
    match search (next st.mem) (· == header) H.hi st.head with
    | none => none
    | some _ =>
      if Trims st ptr then
        match unlink H st with
        | none => none
        | some (m, head, tail) =>
          let dec := signed ((2 ^ 64 + 2 ^ 64 - blockSize - size m header) % 2 ^ 64)
          some { st with mem := m, head := head, tail := tail, brk := (sbrk H st.brk dec).getD st.brk }
      else some { st with mem := setInUse st.mem header 0 }

/-! ## The client -/

/-- What the client holds after `mymalloc(s)` has returned `p`. -/
def hold (s p : Nat) (st : St) : St := if p = 0 then st else { st with live := (p, s) :: st.live }

/-- And after it has freed `ptr`. -/
def forget (ptr : Nat) (st : St) : St := { st with live := st.live.filter (·.1 ≠ ptr) }

def malloc (st : St) (s : Nat) : Option (Nat × St) := (mymalloc H st s).map fun r => (r.1, hold s r.1 r.2)

def free (st : St) (ptr : Nat) : Option St := (myfree H st ptr).map (forget ptr)

inductive Call where
  | malloc (s : Nat)
  | free (ptr : Nat)
  deriving DecidableEq, Repr

def step (st : St) : Call → Option St
  | .malloc s => (malloc H st s).map (·.2)
  | .free ptr => free H st ptr

end CS5600.Alloc.Sbrk
