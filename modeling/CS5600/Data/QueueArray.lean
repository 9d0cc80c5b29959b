/-
  CS5600.Data.QueueArray — the array queue (`Assignment2/queue_array.c`).

  `unsigned int` is `UInt32`, `int` is `Int32`. The array is the function `data`, of which the
  first `capacity` entries were allocated; what `malloc` left in them is `junk`. The
  model faults where a call would leave the array or lose its meaning: a `data` index that is
  not below `capacity`, a remainder by zero, an unsigned addition or subtraction that wraps,
  and `queue_size`'s `exit(-1)` on a NULL queue. The allocations are taken to succeed.

  Proved, for every capacity (0 and 1 included) and every sequence of calls:
  - `queue_refines`: the answers are those of a list bounded by the capacity (`Ref.step`), no
    call faults, and a refused call leaves every field as it was.
  - `Rep`: the items are the window `front, front + 1, ..` of `size` entries taken modulo the
    capacity, and `back` is where the window ends.
-/

import CS5600.Lib.Ring
import CS5600.Lib.Runs

namespace CS5600.Data.QueueArray

open CS5600.Lib.Ring CS5600.Lib.Runs

inductive Fault where
  | index (i : UInt32)
  | modZero
  | wrap
  | exit (code : Int32)
  deriving DecidableEq, Repr

structure Queue where
  /-- The next free position in the queue. -/
  back : UInt32
  /-- Current head of the queue. -/
  front : UInt32
  /-- How many total elements we have enqueued. -/
  size : UInt32
  capacity : UInt32
  data : Nat → Int32

def createQueue (junk : Nat → Int32) (capacity : UInt32) : Queue := ⟨0, 0, 0, capacity, junk⟩

def queueEmpty (q : Queue) : Int32 := if q.size = 0 then 1 else 0

def queueFull (q : Queue) : Int32 := if q.size = q.capacity then 1 else 0

/-! ## The statements that can go wrong -/

def readData (q : Queue) (i : UInt32) : Except Fault Int32 :=
  if i < q.capacity then .ok (q.data i.toNat) else .error (.index i)

def writeData (q : Queue) (i : UInt32) (item : Int32) : Except Fault Queue :=
  if i < q.capacity then .ok { q with data := Function.update q.data i.toNat item } else .error (.index i)

def addU (a b : UInt32) : Except Fault UInt32 :=
  if a.toNat + b.toNat < 2 ^ 32 then .ok (a + b) else .error .wrap

def subU (a b : UInt32) : Except Fault UInt32 := if b ≤ a then .ok (a - b) else .error .wrap

def modU (a b : UInt32) : Except Fault UInt32 := if b = 0 then .error .modZero else .ok (a % b)

/-! ## The calls -/

def queueEnqueue (q : Queue) (item : Int32) : Except Fault (Queue × Int32) :=
  if queueFull q = 1 then .ok (q, -1)
  else do
    let q ← writeData q q.back item
    let next ← addU q.back 1
    let back ← modU next q.capacity
    let size ← addU q.size 1
    return ({ q with back := back, size := size }, 0)

def queueDequeue (q : Queue) : Except Fault (Queue × Int32) :=
  if queueEmpty q = 1 then .ok (q, -1)
  else do
    let item ← readData q q.front
    let next ← addU q.front 1
    let front ← modU next q.capacity
    let size ← subU q.size 1
    return ({ q with front := front, size := size }, item)

/-- `none` is the NULL queue. -/
def queueSize : Option Queue → Except Fault UInt32
  | none => .error (.exit (-1))
  | some q => .ok q.size

inductive Call where
  | enqueue (item : Int32)
  | dequeue
  | empty
  | full
  | size
  deriving DecidableEq, Repr

inductive Answer where
  | int (v : Int32)
  | unsigned (v : UInt32)
  deriving DecidableEq, Repr

def step (q : Queue) : Call → Except Fault (Queue × Answer)
  | .enqueue item => (queueEnqueue q item).map fun r => (r.1, .int r.2)
  | .dequeue => (queueDequeue q).map fun r => (r.1, .int r.2)
  | .empty => .ok (q, .int (queueEmpty q))
  | .full => .ok (q, .int (queueFull q))
  | .size => (queueSize (some q)).map fun n => (q, .unsigned n)

/-! ## The bounded list -/

/-- What the queue is for: a list of at most `c` items, the oldest first. -/
def Ref.step (c : Nat) (l : List Int32) : Call → List Int32 × Answer
  | .enqueue item => if l.length = c then (l, .int (-1)) else (l ++ [item], .int 0)
  | .dequeue =>
    match l with
    | [] => ([], .int (-1))
    | x :: rest => (rest, .int x)
  | .empty => (l, .int (if l = [] then 1 else 0))
  | .full => (l, .int (if l.length = c then 1 else 0))
  | .size => (l, .unsigned (UInt32.ofNat l.length))

/-! ## The window -/

/-- The queue `q` holds the list `l`. -/
structure Rep (q : Queue) (l : List Int32) : Prop where
  size : q.size.toNat = l.length
  le : l.length ≤ q.capacity.toNat
  front : 0 < q.capacity.toNat → q.front.toNat < q.capacity.toNat
  back : 0 < q.capacity.toNat → q.back.toNat = (q.front.toNat + l.length) % q.capacity.toNat
  items : window q.data q.capacity.toNat q.front.toNat l.length = l

theorem rep_create (junk : Nat → Int32) (c : UInt32) : Rep (createQueue junk c) [] where
  size := rfl
  le := Nat.zero_le _
  front := fun h => h
  back := fun _ => by simp [createQueue]
  items := rfl

theorem Rep.full_iff {q : Queue} {l : List Int32} (h : Rep q l) :
    q.size = q.capacity ↔ l.length = q.capacity.toNat := by
  rw [← UInt32.toNat_inj, h.size]

theorem Rep.empty_iff {q : Queue} {l : List Int32} (h : Rep q l) : q.size = 0 ↔ l = [] := by
  rw [← UInt32.toNat_inj, h.size]; simp

theorem addU_one {a : UInt32} (h : a.toNat + 1 < 2 ^ 32) : addU a 1 = .ok (a + 1) := by
  have : a.toNat + (1 : UInt32).toNat < 2 ^ 32 := h
  simp only [addU, this, if_true]

theorem modU_pos {a b : UInt32} (h : 0 < b.toNat) : modU a b = .ok (a % b) := by
  have hb : b ≠ 0 := by intro e; subst e; simp at h
  simp [modU, hb]

/-- A call on a full queue is refused and leaves it as it was. -/
theorem enqueue_full {q : Queue} {l : List Int32} (h : Rep q l) (hl : l.length = q.capacity.toNat) (x : Int32) :
    queueEnqueue q x = .ok (q, -1) := by
  simp [queueEnqueue, queueFull, h.full_iff.mpr hl]

theorem enqueue_rep {q : Queue} {l : List Int32} (h : Rep q l) (hl : l.length ≠ q.capacity.toNat) (x : Int32) :
    ∃ q', queueEnqueue q x = .ok (q', 0) ∧ Rep q' (l ++ [x]) ∧ q'.capacity = q.capacity := by
  have hle := h.le
  have hc : 0 < q.capacity.toNat := by omega
  have hcap := q.capacity.toNat_lt
  have hback := h.back hc
  have hbl : q.back.toNat < q.capacity.toNat := by rw [hback]; exact Nat.mod_lt _ hc
  have hb1 : (q.back + 1).toNat = q.back.toNat + 1 := by
    rw [UInt32.toNat_add]; simp; omega
  have hs1 : (q.size + 1).toNat = q.size.toNat + 1 := by
    have := h.size
    rw [UInt32.toNat_add]; simp; omega
  refine ⟨{ q with
    data := Function.update q.data q.back.toNat x
    back := (q.back + 1) % q.capacity
    size := q.size + 1 }, ?_, ⟨?_, ?_, h.front, ?_, ?_⟩, rfl⟩
  · have hfull : q.size ≠ q.capacity := fun e => hl (h.full_iff.mp e)
    have hlt : q.back < q.capacity := hbl
    have hsz := h.size
    simp [queueEnqueue, queueFull, hfull, writeData, hlt, bind, Except.bind, pure, Except.pure,
      addU_one (a := q.back) (by omega), modU_pos hc, addU_one (a := q.size) (by omega)]
  · simp [hs1, h.size]
  · simp; omega
  · intro _
    simp only [UInt32.toNat_mod, hb1, hback, List.length_append, List.length_singleton]
    rw [Nat.mod_add_mod, Nat.add_assoc]
  · -- the new item is written at `back`, behind the window
    simp only [List.length_append, List.length_singleton, hback]
    rw [window_put (by omega), h.items]

/-- Dequeuing from an empty queue is refused and leaves it as it was. -/
theorem dequeue_empty {q : Queue} (h : Rep q []) : queueDequeue q = .ok (q, -1) := by
  simp [queueDequeue, queueEmpty, h.empty_iff.mpr rfl]

theorem dequeue_rep {q : Queue} {x : Int32} {l : List Int32} (h : Rep q (x :: l)) :
    ∃ q', queueDequeue q = .ok (q', x) ∧ Rep q' l ∧ q'.capacity = q.capacity := by
  have hle := h.le
  have hsz := h.size
  simp only [List.length_cons] at hle hsz
  have hc : 0 < q.capacity.toNat := by omega
  have hcap := q.capacity.toNat_lt
  have hf := h.front hc
  have hf1 : (q.front + 1).toNat = q.front.toNat + 1 := by
    rw [UInt32.toNat_add]; simp; omega
  have h1 : (1 : UInt32) ≤ q.size := by rw [UInt32.le_iff_toNat_le, hsz]; simp
  have hitems := h.items
  rw [List.length_cons, window_cons, List.cons.injEq, Nat.mod_eq_of_lt hf] at hitems
  obtain ⟨hx, hrest⟩ := hitems
  refine ⟨{ q with front := (q.front + 1) % q.capacity, size := q.size - 1 }, ?_,
    ⟨?_, by simp; omega, fun _ => ?_, ?_, ?_⟩, rfl⟩
  · have hne : q.size ≠ 0 := fun e => by simpa using h.empty_iff.mp e
    have hlt : q.front < q.capacity := hf
    simp [queueDequeue, queueEmpty, hne, readData, hlt, hx, bind, Except.bind, pure, Except.pure,
      addU_one (a := q.front) (by omega), modU_pos hc, subU, h1]
  · simp [UInt32.toNat_sub_of_le _ _ h1, hsz]
  · simp only [UInt32.toNat_mod]; exact Nat.mod_lt _ hc
  · intro _
    simp only [UInt32.toNat_mod, hf1, Nat.mod_add_mod, h.back hc, List.length_cons]
    congr 1; omega
  · simp only [UInt32.toNat_mod, hf1]
    rw [window_mod (Nat.dvd_refl _), hrest]

/-! ## Whole runs -/

theorem step_sim (c : UInt32) (q : Queue) (l : List Int32) (e : Call) (h : Rep q l ∧ q.capacity = c) :
    ∃ q', step q e = .ok (q', (Ref.step c.toNat l e).2) ∧
      (Rep q' (Ref.step c.toNat l e).1 ∧ q'.capacity = c) := by
  obtain ⟨h, rfl⟩ := h
  cases e with
  | enqueue x =>
    by_cases hl : l.length = q.capacity.toNat
    · exact ⟨q, by simp [step, enqueue_full h hl, Except.map, Ref.step, hl], by simpa [Ref.step, hl] using h⟩
    · obtain ⟨q', he, hr, hc⟩ := enqueue_rep h hl x
      exact ⟨q', by simp [step, he, Except.map, Ref.step, hl], by simpa [Ref.step, hl] using ⟨hr, hc⟩⟩
  | dequeue =>
    cases l with
    | nil => exact ⟨q, by simp [step, dequeue_empty h, Except.map, Ref.step], h, rfl⟩
    | cons x l =>
      obtain ⟨q', he, hr, hc⟩ := dequeue_rep h
      exact ⟨q', by simp [step, he, Except.map, Ref.step], hr, hc⟩
  | empty => exact ⟨q, by simp [step, queueEmpty, h.empty_iff, Ref.step], h, rfl⟩
  | full => exact ⟨q, by simp [step, queueFull, h.full_iff, Ref.step], h, rfl⟩
  | size =>
    refine ⟨q, ?_, h, rfl⟩
    have : q.size = UInt32.ofNat l.length := by rw [← h.size]; simp
    simp [step, queueSize, Except.map, Ref.step, this]

/-- Every sequence of calls on `create_queue(c)` is answered as the list bounded by `c` answers
    it, with no fault on the way; and in the state it leads to, a call that is refused changes
    no field. -/
theorem queue_refines (junk : Nat → Int32) (c : UInt32) (calls : List Call) :
    ∃ q, answers step (createQueue junk c) calls = .ok (q, (replies (Ref.step c.toNat) [] calls).2) ∧
      Rep q (replies (Ref.step c.toNat) [] calls).1 ∧
      ((replies (Ref.step c.toNat) [] calls).1.length = c.toNat → ∀ x, queueEnqueue q x = .ok (q, -1)) ∧
      ((replies (Ref.step c.toNat) [] calls).1 = [] → queueDequeue q = .ok (q, -1)) := by
  obtain ⟨q, hq, hr, hc⟩ := answers_of_sim (F := Fault) (fun q l => Rep q l ∧ q.capacity = c)
    (fun _ => True) (fun q l e h _ => step_sim c q l e h) calls (createQueue junk c) []
    ⟨rep_create junk c, rfl⟩ (fun _ _ => trivial)
  refine ⟨q, hq, hr, fun hl x => enqueue_full hr (by rw [hl, hc]) x, fun he => ?_⟩
  rw [he] at hr
  exact dequeue_empty hr

end CS5600.Data.QueueArray
