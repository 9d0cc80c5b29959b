/-
  CS5600.Xv6.Log — the redo log of the file system (`Lab11_xv6/deliverables/log.c`).

  File system calls run between `begin_op` and `end_op`, up to NPROC of them at once. A block that a
  call changes stays in its buffer, marked B_DIRTY, and its number goes into `log.lh`. The last call
  to end commits: `write_log` copies the blocks behind the header block on the disk, `write_head`
  writes the header, `install_trans` copies them to where they belong, and a second `write_head`
  erases the header. When the machine starts, `recover_from_log` installs what the header lists.

  The state is the disk, the buffers, `log`, and where each process is; an event is a step of one
  process up to its next disk write or release of `log.lock`, a buffer that is read or reused, or
  a crash, which leaves nothing but the disk. One block is written to the disk as a whole. `log_write`
  looks at the size of the log before it takes the lock and adds its block after, so it is two events.
  The buffers are those of `bio.c` as its callers see them: a block has one buffer or none, and
  a buffer that is dirty is not reused.
-/

import CS5600.Lib.Bytes
import CS5600.Lib.Redo
import CS5600.Lib.Runs
import CS5600.Xv6.Param

namespace CS5600.Xv6.Log

open CS5600.Lib.Bytes CS5600.Lib.Redo CS5600.Lib.Runs

/-- The bytes of a block. -/
abbrev Block := Mem

/-- `log.start` and `log.size`: the header block and those behind it -/
structure Layout where
  start : Nat
  size : Nat

/-- A block of the file system, not of its log. -/
def Layout.Home (L : Layout) (b : Nat) : Prop := b < L.start ∨ L.start + L.size ≤ b

instance (L : Layout) (b : Nat) : Decidable (L.Home b) := inferInstanceAs (Decidable (_ ∨ _))

/-- Where `commit` is (from `writeLog` to `leave`), or `recover_from_log` (the last three). -/
inductive Phase where
  | opened
  | writeLog (tail : Nat)
  | writeHead
  | install (tail : Nat)
  | clearHead
  | leave
  | readHead
  | replay (tail : Nat)
  | erase
  deriving DecidableEq

def Phase.recovering : Phase → Bool
  | .readHead | .replay _ | .erase => true
  | _ => false

/-- Where a process is; `mine` are the blocks its call has logged. -/
inductive Proc where
  | out
  /-- in the loop of `begin_op` -/
  | waiting (asleep : Bool)
  | busy (mine : Finset Nat)
  /-- in `log_write`, past its two checks -/
  | checked (mine : Finset Nat) (b : Nat) (data : Block)

structure St where
  disk : Nat → Block
  /-- the data of the buffer of a block, if it has one -/
  cache : Nat → Option Block
  /-- B_DIRTY -/
  dirty : Nat → Bool
  /-- `log.lh`: the first `n` of its block numbers -/
  lh : List Nat
  outstanding : Nat
  phase : Phase
  procs : Slot → Proc

/-! ## The header block -/

/-- What an `int` in the block is. -/
def toInt (v : Nat) : Int := if v < 2 ^ 31 then v else (v : Int) - 2 ^ 32

/-- The copy that `read_head` makes. -/
def headBlocks (buf : Block) : List Nat :=
  (List.range (toInt (load buf 4 0)).toNat).map fun i => load buf 4 (4 + 4 * i)

def storeBlocks (buf : Block) : Nat → List Nat → Block
  | _, [] => buf
  | i, b :: lh => storeBlocks (store buf 4 (4 + 4 * i) b) (i + 1) lh

/-- What `write_head` makes of the data in the buffer. -/
def headBytes (buf : Block) (lh : List Nat) : Block := storeBlocks (store buf 4 0 lh.length) 0 lh

/-! ## Buffers -/

/-- The data `bread` finds. -/
def St.view (s : St) (b : Nat) : Block := (s.cache b).getD (s.disk b)

def bread (s : St) (b : Nat) : St := { s with cache := Function.update s.cache b (some (s.view b)) }

/-- The buffer is given the data and written. -/
def bwrite (s : St) (b : Nat) (data : Block) : St :=
  { s with
    disk := Function.update s.disk b data
    cache := Function.update s.cache b (some data)
    dirty := Function.update s.dirty b false }

/-- `bget` takes the buffer for another block. -/
def reuse (s : St) (b : Nat) : St :=
  if s.dirty b = true then s else { s with cache := Function.update s.cache b none }

/-! ## The log -/

/-- `begin_op` has to wait. -/
def Full (s : St) : Prop := s.phase ≠ .opened ∨ s.lh.length + (s.outstanding + 1) * maxOpBlocks > logSize

instance (s : St) : Decidable (Full s) := inferInstanceAs (Decidable (_ ∨ _))

def beginOp (s : St) (i : Slot) : St :=
  if Full s then { s with procs := Function.update s.procs i (.waiting true) }
  else { s with outstanding := s.outstanding + 1, procs := Function.update s.procs i (.busy ∅) }

def Proc.wake : Proc → Proc
  | .waiting _ => .waiting false
  | p => p

/-- `wakeup(&log)` -/
def wakeup (s : St) : St := { s with procs := fun i => (s.procs i).wake }

section

variable (L : Layout)

/-- `log_write` up to `acquire`, on a buffer that holds the new data; `none` is a panic -/
def logCheck (s : St) (i : Slot) (b : Nat) (data : Block) : Option St :=
  if s.lh.length ≥ logSize ∨ (s.lh.length : Int) ≥ (L.size : Int) - 1 then none
  else if s.outstanding < 1 then none
  else
    match s.procs i with
    | .busy mine => some { s with procs := Function.update s.procs i (.checked mine b data) }
    | _ => some s

/-- The rest of `log_write`, and `brelse`. -/
def logAppend (s : St) (i : Slot) : St :=
  match s.procs i with
  | .checked mine b data =>
    { s with
      cache := Function.update s.cache b (some data)
      dirty := Function.update s.dirty b true
      lh := if b ∈ s.lh then s.lh else s.lh ++ [b]
      procs := Function.update s.procs i (.busy (insert b mine)) }
  | _ => s

/-- `end_op` up to `commit`; `none` is a panic -/
def endOp (s : St) (i : Slot) : Option St :=
  let s := { s with outstanding := s.outstanding - 1, procs := Function.update s.procs i .out }
  if s.phase ≠ .opened then none
  else if s.outstanding = 0 then some { s with phase := if s.lh.length > 0 then .writeLog 0 else .leave }
  else some (wakeup s)

/-- One round of `write_log`. -/
def logBlock (s : St) (tail b : Nat) : St :=
  let s := bread (bread s (L.start + tail + 1)) b
  bwrite s (L.start + tail + 1) (s.view b)

/-- One round of `install_trans`. -/
def installBlock (s : St) (tail b : Nat) : St :=
  let s := bread (bread s (L.start + tail + 1)) b
  bwrite s b (s.view (L.start + tail + 1))

def writeHead (s : St) : St :=
  let s := bread s L.start
  bwrite s L.start (headBytes (s.view L.start) s.lh)

/-- `commit`, the end of `end_op` after it, and `recover_from_log`, up to the next disk write. -/
def advance (s : St) : St :=
  match s.phase with
  | .opened => s
  | .writeLog tail =>
    match s.lh[tail]? with
    | some b => { logBlock L s tail b with phase := .writeLog (tail + 1) }
    | none => { s with phase := .writeHead }
  | .writeHead => { writeHead L s with phase := .install 0 }
  | .install tail =>
    match s.lh[tail]? with
    | some b => { installBlock L s tail b with phase := .install (tail + 1) }
    | none => { s with lh := [], phase := .clearHead }
  | .clearHead => { writeHead L s with phase := .leave }
  | .leave => wakeup { s with phase := .opened }
  | .readHead => { bread s L.start with lh := headBlocks (s.view L.start), phase := .replay 0 }
  | .replay tail =>
    match s.lh[tail]? with
    | some b => { installBlock L s tail b with phase := .replay (tail + 1) }
    | none => { s with lh := [], phase := .erase }
  | .erase => { writeHead L s with phase := .opened }

/-- The machine starts with this disk. -/
def boot (disk : Nat → Block) : St := ⟨disk, fun _ => none, fun _ => false, [], 0, .readHead, fun _ => .out⟩

inductive Ev where
  | begin (i : Slot)
  /-- a sleeping process is killed, and so woken -/
  | rouse (i : Slot)
  | check (i : Slot) (b : Nat) (data : Block)
  | append (i : Slot)
  | finish (i : Slot)
  | read (b : Nat)
  | reuse (b : Nat)
  | advance
  | crash

/-- `none` is a panic. -/
def step (s : St) : Ev → Option St
  | .begin i => some (beginOp s i)
  | .rouse i => some { s with procs := Function.update s.procs i (s.procs i).wake }
  | .check i b data => logCheck L s i b data
  | .append i => some (logAppend s i)
  | .finish i => endOp s i
  | .read b => some (bread s b)
  | .reuse b => some (Log.reuse s b)
  | .advance => some (Log.advance L s)
  | .crash => some (boot s.disk)

/-- What the rest of the kernel keeps to: a call logs no more than `m` blocks, none of them of the log,
    and no process is in a call while the log is recovered. -/
def Legal (m : Nat) (s : St) : Ev → Prop
  | .begin i => (s.procs i = .out ∨ s.procs i = .waiting false) ∧ s.phase.recovering = false
  | .check i b _ => ∃ mine, s.procs i = .busy mine ∧ (insert b mine).card ≤ m ∧ L.Home b ∧ b < 2 ^ 32
  | .append i => ∃ mine b data, s.procs i = .checked mine b data
  | .finish i => ∃ mine, s.procs i = .busy mine
  | .rouse _ | .read _ | .reuse _ | .advance | .crash => True

end

/-! ## What the buffers and the header give back -/

section

variable {s : St} {b c : Nat} {data : Block}

theorem view_congr {t : St} (hc : t.cache = s.cache) (hd : t.disk = s.disk) : t.view = s.view := by
  funext x
  unfold St.view
  rw [hc, hd]

@[simp] theorem view_bread : (bread s b).view = s.view := by
  funext x
  unfold bread St.view
  by_cases e : x = b
  · subst e
    simp
  · simp [Function.update_of_ne e]

@[simp] theorem view_bwrite : (bwrite s b data).view = Function.update s.view b data := by
  funext x
  unfold bwrite St.view
  by_cases e : x = b
  · subst e
    simp
  · simp [Function.update_of_ne e]

end

theorem load_storeBlocks_below (lh : List Nat) (buf : Block) (i : Nat) {a : Nat} (ha : a + 4 ≤ 4 + 4 * i) :
    load (storeBlocks buf i lh) 4 a = load buf 4 a := by
  induction lh generalizing buf i with
  | nil => rfl
  | cons b lh ih =>
    show load (storeBlocks (store buf 4 (4 + 4 * i) b) (i + 1) lh) 4 a = _
    rw [ih _ _ (by omega), load_store_off (.inr ha)]

theorem load_storeBlocks (lh : List Nat) (buf : Block) (i : Nat) (hlt : ∀ b ∈ lh, b < 2 ^ 32) {j b : Nat}
    (hj : lh[j]? = some b) : load (storeBlocks buf i lh) 4 (4 + 4 * (i + j)) = b := by
  induction lh generalizing buf i j with
  | nil => cases hj
  | cons c lh ih =>
    rw [List.forall_mem_cons] at hlt
    show load (storeBlocks (store buf 4 (4 + 4 * i) c) (i + 1) lh) 4 _ = b
    cases j with
    | zero =>
      cases hj
      rw [load_storeBlocks_below _ _ _ (by omega), Nat.add_zero, load_store]
      exact Nat.mod_eq_of_lt (by simpa using hlt.1)
    | succ j =>
      rw [show i + (j + 1) = (i + 1) + j by omega]
      exact ih _ _ hlt.2 hj

/-- `read_head` reads what `write_head` has written. -/
theorem headBlocks_headBytes (buf : Block) {lh : List Nat} (hlt : ∀ b ∈ lh, b < 2 ^ 32) (hlen : lh.length < 2 ^ 31) :
    headBlocks (headBytes buf lh) = lh := by
  have hn : load (headBytes buf lh) 4 0 = lh.length := by
    unfold headBytes
    rw [load_storeBlocks_below _ _ _ (by omega), load_store]
    exact Nat.mod_eq_of_lt (by omega)
  have hcount : (toInt (load (headBytes buf lh) 4 0)).toNat = lh.length := by
    rw [hn, toInt, if_pos hlen, Int.toNat_natCast]
  unfold headBlocks
  rw [hcount]
  apply List.ext_getElem?
  intro j
  by_cases hj : j < lh.length
  · have hget : lh[j]? = some lh[j] := List.getElem?_eq_getElem hj
    have hload := load_storeBlocks lh (store buf 4 0 lh.length) 0 hlt hget
    rw [Nat.zero_add] at hload
    rw [List.getElem?_map, List.getElem?_range hj, hget, Option.map_some, headBytes, hload]
  · rw [List.getElem?_eq_none (by simpa using hj), List.getElem?_eq_none (by omega)]

end CS5600.Xv6.Log
