/-
  CS5600.Xv6.Bio — the buffer cache over the IDE disk (`Lab11_xv6/deliverables/bio.c`, `sleeplock.c`, `ide.c`).

  A buffer is a pointer from 1 to NBUF; 0 is `&bcache.head` among the pointers `next` and `prev`, and NULL among
  `qnext`. What a process does under one of the spin locks (`bcache.lock`, a buffer's `lk->lk`, `idelock`) is one
  event, and so is the interrupt; the events of all processes come in any order. `sleep` lets go of the lock in the
  event that finds nothing to do, and a wakeup lets the process look again. The disk executes the command that
  is in its registers and interrupts; it may fail. `none` is a panic.

  The callers (`fs.c`, `log.c`) change the data of a buffer that they have locked (`modify`), and set B_DIRTY in
  `log_write` (`pin`).
-/

import CS5600.Lib.Bytes
import CS5600.Lib.DoublyLinked
import CS5600.Lib.Runs
import CS5600.Xv6.Param

namespace CS5600.Xv6.Bio

open CS5600.Lib.Bytes CS5600.Lib.Chains CS5600.Lib.DoublyLinked CS5600.Lib.Runs

/-- `dev` and `blockno`. -/
abbrev Tag := Nat × Nat

/-- Where a process is. -/
inductive Proc where
  /-- with its caller -/
  | out
  /-- in `acquiresleep` of `bget` -/
  | locking (b : Nat) (asleep : Bool)
  /-- in `bread`, the buffer locked -/
  | locked (b : Nat)
  /-- in the loop of `iderw` -/
  | syncing (b : Nat) (asleep : Bool)
  /-- in `brelse`, the buffer unlocked -/
  | leaving (b : Nat)
  deriving DecidableEq

/-- What `idestart` writes to the ports 0x1f2 to 0x1f7, and the data that follow a write command. -/
structure Cmd where
  count : Nat
  sector0 : Nat
  sector1 : Nat
  sector2 : Nat
  select : Nat
  sent : Option Mem

/-- The block that the disk finds in its registers. -/
def Cmd.place (c : Cmd) : Tag :=
  ((c.select >>> 4) &&& 1, c.sector0 + (c.sector1 <<< 8) + (c.sector2 <<< 16) + ((c.select &&& 0x0f) <<< 24))

structure St where
  tag : Nat → Tag
  valid : Nat → Bool
  dirty : Nat → Bool
  /-- `lock.pid` if `lock.locked` -/
  lock : Nat → Option Slot
  refcnt : Nat → Nat
  prev : Nat → Nat
  next : Nat → Nat
  qnext : Nat → Nat
  data : Nat → Mem
  idequeue : Nat
  ide : Option Cmd
  disk : Tag → Mem
  procs : Slot → Proc

/-! ## bio.c -/

/-- The four stores that put `b` behind the head. -/
def link (s : St) (b : Nat) : St :=
  { s with
    next := Function.update (Function.update s.next b (s.next 0)) 0 b
    prev := Function.update (Function.update s.prev b 0) (s.next 0) b }

def unlink (s : St) (b : Nat) : St :=
  let s := { s with prev := Function.update s.prev (s.next b) (s.prev b) }
  { s with next := Function.update s.next (s.prev b) (s.next b) }

/-- Memory at boot. -/
def zeroed (disk : Tag → Mem) : St where
  tag := fun _ => (0, 0)
  valid := fun _ => false
  dirty := fun _ => false
  lock := fun _ => none
  refcnt := fun _ => 0
  prev := fun _ => 0
  next := fun _ => 0
  qnext := fun _ => 0
  data := fun _ _ => 0
  idequeue := 0
  ide := none
  disk := disk
  procs := fun _ => .out

def binit (disk : Tag → Mem) : St := (List.range' 1 nbuf).foldl link (zeroed disk)

def addRef (s : St) (b : Nat) : St := { s with refcnt := Function.update s.refcnt b (s.refcnt b + 1) }

def recycle (s : St) (b : Nat) (k : Tag) : St :=
  { s with
    tag := Function.update s.tag b k
    valid := Function.update s.valid b false
    dirty := Function.update s.dirty b false
    refcnt := Function.update s.refcnt b 1 }

/-- `bget` up to `acquiresleep` -/
def bget (s : St) (k : Tag) : Option (Nat × St) := do
  let b ← search s.next (fun b => decide (s.tag b = k)) (nbuf + 1) (s.next 0)
  if b ≠ 0 then return (b, addRef s b)
  let b ← search s.prev (fun b => decide (s.refcnt b = 0 ∧ s.dirty b = false)) (nbuf + 1) (s.prev 0)
  if b ≠ 0 then return (b, recycle s b k)
  none

/-- `acquiresleep`, once around the loop -/
def acquiresleep (s : St) (i : Slot) (b : Nat) : St :=
  if (s.lock b).isSome then { s with procs := Function.update s.procs i (.locking b true) }
  else { s with lock := Function.update s.lock b (some i), procs := Function.update s.procs i (.locked b) }

/-! ## ide.c -/

/-- `idestart` -/
def St.cmd (s : St) (b : Nat) : Cmd :=
  let sector := (s.tag b).2
  { count := 1
    sector0 := sector &&& 0xff
    sector1 := (sector >>> 8) &&& 0xff
    sector2 := (sector >>> 16) &&& 0xff
    select := 0xe0 ||| (((s.tag b).1 &&& 1) <<< 4) ||| ((sector >>> 24) &&& 0x0f)
    sent := if s.dirty b = true then some (s.data b) else none }

def idestart (s : St) (b : Nat) : Option St :=
  if b = 0 then none
  else if fsSize ≤ (s.tag b).2 then none
  else some { s with ide := some (s.cmd b) }

/-- `(b->flags & (B_VALID|B_DIRTY)) == B_VALID` -/
def St.Synced (s : St) (b : Nat) : Prop := s.valid b = true ∧ s.dirty b = false

instance (s : St) (b : Nat) : Decidable (s.Synced b) := inferInstanceAs (Decidable (_ ∧ _))

/-- The loop at the end of `iderw`, once around. -/
def await (s : St) (i : Slot) (b : Nat) : St :=
  { s with procs := Function.update s.procs i (if s.Synced b then .out else .syncing b true) }

/-- `b` goes to the end of the queue. -/
def enqueue (s : St) (b : Nat) : Option St := do
  let s := { s with qnext := Function.update s.qnext b 0 }
  let t ← search s.qnext (fun x => decide (s.qnext x = 0)) (nbuf + 1) s.idequeue
  if t = 0 then return { s with idequeue := b }
  return { s with qnext := Function.update s.qnext t b }

def iderw (havedisk1 : Bool) (s : St) (i : Slot) (b : Nat) : Option St :=
  if s.lock b = none then none
  else if s.Synced b then none
  else if (s.tag b).1 ≠ 0 ∧ havedisk1 = false then none
  else do
    let s ← enqueue s b
    let s ← if s.idequeue = b then idestart s b else some s
    return await s i b

/-- The disk does what it is told, or fails. -/
def St.written (s : St) (ok : Bool) : Tag → Mem :=
  match s.ide with
  | some c =>
    match c.sent with
    | some d => if ok = true then Function.update s.disk c.place d else s.disk
    | none => s.disk
  | none => s.disk

def execute (s : St) (ok : Bool) : St := { s with disk := s.written ok }

/-- `insl` -/
def St.port (s : St) (b : Nat) : Mem :=
  match s.ide with
  | some c => s.disk c.place
  | none => s.data b

/-- `wakeup(b)` -/
def Proc.synced (b : Nat) : Proc → Proc
  | .syncing c a => .syncing c (a && decide (c ≠ b))
  | p => p

/-- `ideintr`; `ok` is what `idewait(1)` finds. -/
def ideintr (s : St) (ok : Bool) : Option St :=
  if s.idequeue = 0 then some s
  else
    let b := s.idequeue
    let s := { s with
      idequeue := s.qnext b
      data := if s.dirty b = false ∧ ok = true then Function.update s.data b (s.port b) else s.data
      valid := Function.update s.valid b true
      dirty := Function.update s.dirty b false
      ide := none
      procs := fun i => (s.procs i).synced b }
    if s.idequeue ≠ 0 then idestart s s.idequeue else some s

/-! ## The rest of bio.c -/

/-- `bread`, after `bget` -/
def readBlock (havedisk1 : Bool) (s : St) (i : Slot) (b : Nat) : Option St :=
  if s.valid b = false then iderw havedisk1 s i b
  else some { s with procs := Function.update s.procs i .out }

def bwrite (havedisk1 : Bool) (s : St) (i : Slot) (b : Nat) : Option St :=
  if s.lock b = none then none else iderw havedisk1 { s with dirty := Function.update s.dirty b true } i b

/-- `wakeup(lk)` -/
def Proc.unlocked (b : Nat) : Proc → Proc
  | .locking c a => .locking c (a && decide (c ≠ b))
  | p => p

/-- `brelse` up to `releasesleep` -/
def brelse (s : St) (i : Slot) (b : Nat) : Option St :=
  if s.lock b = none then none
  else some { s with
    lock := Function.update s.lock b none
    procs := Function.update (fun j => (s.procs j).unlocked b) i (.leaving b) }

/-- The rest of `brelse`. -/
def leave (s : St) (i : Slot) (b : Nat) : St :=
  let s := { s with refcnt := Function.update s.refcnt b (s.refcnt b - 1), procs := Function.update s.procs i .out }
  if s.refcnt b = 0 then link (unlink s b) b else s

/-! ## Runs -/

inductive Ev where
  | bread (i : Slot) (k : Tag)
  /-- a process that is awake goes on inside `bread`, `bwrite` or `brelse` -/
  | go (i : Slot)
  | modify (i : Slot) (b : Nat) (data : Mem)
  | pin (i : Slot) (b : Nat)
  | bwrite (i : Slot) (b : Nat)
  | brelse (i : Slot) (b : Nat)
  | intr (ok : Bool)

def go (havedisk1 : Bool) (s : St) (i : Slot) : Option St :=
  match s.procs i with
  | .locking b false => some (acquiresleep s i b)
  | .locked b => readBlock havedisk1 s i b
  | .syncing b false => some (await s i b)
  | .leaving b => some (leave s i b)
  | _ => some s

variable (havedisk1 : Bool)

def step (s : St) : Ev → Option St
  | .bread i k =>
    if s.procs i = .out then do
      let (b, s) ← bget s k
      return { s with procs := Function.update s.procs i (.locking b false) }
    else some s
  | .go i => go havedisk1 s i
  | .modify i b data => some (if s.procs i = .out then { s with data := Function.update s.data b data } else s)
  | .pin i b => some (if s.procs i = .out then { s with dirty := Function.update s.dirty b true } else s)
  | .bwrite i b => if s.procs i = .out then bwrite havedisk1 s i b else some s
  | .brelse i b => if s.procs i = .out then brelse s i b else some s
  | .intr ok => ideintr (execute s ok) ok

/-- A block of a disk that is there. -/
def Present (k : Tag) : Prop := k.2 < fsSize ∧ (k.1 = 0 ∨ k.1 = 1 ∧ havedisk1 = true)

/-- A process asks for blocks that are there, and uses the buffers that it has locked. The disks may fail. -/
def Proper (s : St) : Ev → Prop
  | .bread _ k => Present havedisk1 k
  | .go _ => True
  | .modify i b _ => s.lock b = some i
  | .pin i b => s.lock b = some i
  | .bwrite i b => s.lock b = some i
  | .brelse i b => s.lock b = some i
  | .intr _ => True

/-- Moreover a buffer whose data differ from the disk is written, or marked, before it is let go of, and the disks do
not fail. -/
def Legal (s : St) : Ev → Prop
  | .bread _ k => Present havedisk1 k
  | .go _ => True
  | .modify i b _ => s.lock b = some i
  | .pin i b => s.lock b = some i
  | .bwrite i b => s.lock b = some i
  | .brelse i b => s.lock b = some i ∧ (s.dirty b = true ∨ s.data b = s.disk (s.tag b))
  | .intr ok => ok = true

theorem Legal.proper {havedisk1 : Bool} {s : St} {e : Ev} (h : Legal havedisk1 s e) : Proper havedisk1 s e := by
  cases e with
  | brelse i b => exact h.1
  | intr ok => trivial
  | _ => exact h

end CS5600.Xv6.Bio
