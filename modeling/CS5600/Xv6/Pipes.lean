/-
  CS5600.Xv6.Pipes — pipes (`Lab11_xv6/deliverables/pipe.c`), with the `sleep`, `wakeup` and `kill` of `proc.c`.

  Any number of processes read from a pipe and write to it. `p->lock` is held from `acquire` to the next
  `release` or `sleep`, so what a process does in between is one event (`turn`). `sleep` gives up the lock once it has
  `ptable.lock`; before that a process that has found out that it must wait is `dozing`, with `p->lock`
  held, and only `kill` can come in between. `pipeclose` is called for the last descriptor of an end.

  Proved:
  (1) The stream (`pipe_stream`): in every run the bytes read are the first of the bytes written, and the
      ring holds the rest, at most PIPESIZE, also when the counters wrap; `piperead` returns 0 bytes at the end only.
  (2) No lost wakeup (`no_lost_wakeup`): where no process is killed in `pipewrite`, a process sleeps only as
      long as it has to.
  (3) A killed writer strands readers (`killed_writer_strands_reader`): `pipewrite` returns -1 without a
      `wakeup`, also when it has filled the pipe before.
-/

import CS5600.Lib.Ring
import CS5600.Lib.Runs

namespace CS5600.Xv6.Pipes

open CS5600.Lib.Ring CS5600.Lib.Runs

/-- PIPESIZE -/
def pipeSize : Nat := 512

structure Pipe where
  data : Nat → UInt8
  nread : UInt32
  nwrite : UInt32
  readopen : Bool
  writeopen : Bool

/-- What `pipealloc` makes; `junk` is in the page. -/
def pipealloc (junk : Nat → UInt8) : Pipe := ⟨junk, 0, 0, true, true⟩

def Pipe.full (p : Pipe) : Bool := p.nwrite == p.nread + UInt32.ofNat pipeSize

def Pipe.empty (p : Pipe) : Bool := p.nread == p.nwrite

def Pipe.put (p : Pipe) (c : UInt8) : Pipe :=
  { p with data := Function.update p.data (p.nwrite.toNat % pipeSize) c, nwrite := p.nwrite + 1 }

inductive WriteEnd where
  /-- `wakeup(&p->nread)`, and `n` is returned -/
  | finished
  /-- -1 is returned -/
  | refused
  /-- `wakeup(&p->nread)` and `sleep(&p->nwrite, &p->lock)` -/
  | waits

/-- `pipewrite` from `acquire`, or from its return from `sleep`, with the bytes it has still to write;
    the bytes left, and how it ends. -/
def pipewrite (killed : Bool) (p : Pipe) : List UInt8 → Pipe × List UInt8 × WriteEnd
  | [] => (p, [], .finished)
  | c :: cs =>
    if p.full = true then
      if p.readopen = false ∨ killed = true then (p, c :: cs, .refused) else (p, c :: cs, .waits)
    else pipewrite killed (p.put c) cs

/-- The bytes that the second loop of `piperead` copies. -/
def take (p : Pipe) : Nat → Pipe × List UInt8
  | 0 => (p, [])
  | n + 1 =>
    if p.empty = true then (p, [])
    else
      let (q, cs) := take { p with nread := p.nread + 1 } n
      (q, p.data (p.nread.toNat % pipeSize) :: cs)

inductive ReadEnd where
  /-- `wakeup(&p->nwrite)`, and the number of bytes is returned -/
  | done (cs : List UInt8)
  /-- -1 is returned -/
  | refused
  /-- `sleep(&p->nread, &p->lock)` -/
  | waits

def piperead (killed : Bool) (p : Pipe) (n : Nat) : Pipe × ReadEnd :=
  if p.empty = true ∧ p.writeopen = true then
    if killed = true then (p, .refused) else (p, .waits)
  else
    let (q, cs) := take p n
    (q, .done cs)

/-! ## Processes -/

inductive Job where
  | read (n : Nat)
  | write (left : List UInt8)

inductive Mode where
  | ready
  | dozing
  | asleep
  deriving DecidableEq

inductive Proc where
  | idle
  | busy (job : Job) (mode : Mode)

/-- `wakeup(&p->nread)` -/
def Proc.wakeRead : Proc → Proc
  | .busy (.read n) .asleep => .busy (.read n) .ready
  | p => p

/-- `wakeup(&p->nwrite)` -/
def Proc.wakeWrite : Proc → Proc
  | .busy (.write left) .asleep => .busy (.write left) .ready
  | p => p

/-- `kill` -/
def Proc.rouse : Proc → Proc
  | .busy job .asleep => .busy job .ready
  | p => p

structure St where
  pipe : Pipe
  /-- who has `p->lock` between two events -/
  lock : Option Nat
  procs : Nat → Proc
  killed : Nat → Bool
  /-- all bytes written, and all bytes read -/
  sent : List UInt8
  got : List UInt8

def init (junk : Nat → UInt8) : St := ⟨pipealloc junk, none, fun _ => .idle, fun _ => false, [], []⟩

def writeTurn (s : St) (i : Nat) (left : List UInt8) : St :=
  let (p, rest, stop) := pipewrite (s.killed i) s.pipe left
  let s := { s with pipe := p, sent := s.sent ++ left.take (left.length - rest.length) }
  match stop with
  | .finished => { s with procs := Function.update (fun j => (s.procs j).wakeRead) i .idle }
  | .refused => { s with procs := Function.update s.procs i .idle }
  | .waits =>
    { s with
      lock := some i
      procs := Function.update (fun j => (s.procs j).wakeRead) i (.busy (.write rest) .dozing) }

def readTurn (s : St) (i : Nat) (n : Nat) : St :=
  match piperead (s.killed i) s.pipe n with
  | (p, .done cs) =>
    { s with
      pipe := p
      got := s.got ++ cs
      procs := Function.update (fun j => (s.procs j).wakeWrite) i .idle }
  | (p, .refused) => { s with pipe := p, procs := Function.update s.procs i .idle }
  | (p, .waits) =>
    { s with pipe := p, lock := some i, procs := Function.update s.procs i (.busy (.read n) .dozing) }

def pipeclose (s : St) (writable : Bool) : St :=
  if writable = true then
    { s with pipe := { s.pipe with writeopen := false }, procs := fun j => (s.procs j).wakeRead }
  else { s with pipe := { s.pipe with readopen := false }, procs := fun j => (s.procs j).wakeWrite }

inductive Ev where
  | call (i : Nat) (job : Job)
  | turn (i : Nat)
  /-- `sleep`, once it has `ptable.lock` -/
  | doze (i : Nat)
  | kill (i : Nat)
  | close (writable : Bool)

/-- What has to wait for `p->lock` changes nothing. -/
def step (s : St) : Ev → Option St
  | .call i job => some { s with procs := Function.update s.procs i (.busy job .ready) }
  | .turn i =>
    match s.lock, s.procs i with
    | none, .busy (.write left) .ready => some (writeTurn s i left)
    | none, .busy (.read n) .ready => some (readTurn s i n)
    | _, _ => some s
  | .doze i =>
    match s.procs i with
    | .busy job .dozing => some { s with lock := none, procs := Function.update s.procs i (.busy job .asleep) }
    | _ => some s
  | .kill i =>
    some { s with killed := Function.update s.killed i true, procs := Function.update s.procs i (s.procs i).rouse }
  | .close writable => some (if s.lock = none then pipeclose s writable else s)

/-! ## The ring -/

def Pipe.count (p : Pipe) : Nat := (p.nwrite - p.nread).toNat

def Pipe.contents (p : Pipe) : List UInt8 := window p.data pipeSize p.nread.toNat p.count

def Pipe.Ok (p : Pipe) : Prop := p.count ≤ pipeSize

section

variable {p q : Pipe} {k : Bool} {w rest cs : List UInt8} {n : Nat} {c : UInt8}

@[simp] theorem length_contents : p.contents.length = p.count := length_window

theorem full_iff : p.full = true ↔ p.count = pipeSize := by
  unfold Pipe.full Pipe.count pipeSize
  rw [beq_iff_eq, ← UInt32.toNat_inj, UInt32.toNat_add, UInt32.toNat_sub]
  have h1 := p.nwrite.toNat_lt
  have h2 := p.nread.toNat_lt
  have h3 : (UInt32.ofNat 512).toNat = 512 := rfl
  omega

theorem empty_iff : p.empty = true ↔ p.contents = [] := by
  rw [← List.length_eq_zero_iff, length_contents]
  unfold Pipe.empty Pipe.count
  rw [beq_iff_eq, ← UInt32.toNat_inj, UInt32.toNat_sub]
  have h1 := p.nwrite.toNat_lt
  have h2 := p.nread.toNat_lt
  omega

theorem count_pipealloc (junk : Nat → UInt8) : (pipealloc junk).count = 0 := by
  show ((0 : UInt32) - 0).toNat = 0
  decide

theorem count_put (h : p.count < pipeSize) (c : UInt8) : (p.put c).count = p.count + 1 := by
  unfold Pipe.count pipeSize at h
  show (p.nwrite + 1 - p.nread).toNat = (p.nwrite - p.nread).toNat + 1
  rw [UInt32.toNat_sub] at h
  rw [UInt32.toNat_sub, UInt32.toNat_sub, UInt32.toNat_add]
  have h1 := p.nwrite.toNat_lt
  have h2 := p.nread.toNat_lt
  have h3 : (1 : UInt32).toNat = 1 := rfl
  omega

/-- The counters may wrap: PIPESIZE divides what they wrap at. -/
theorem contents_put (h : p.count < pipeSize) (c : UInt8) : (p.put c).contents = p.contents ++ [c] := by
  have hslot : p.nwrite.toNat % pipeSize = (p.nread.toNat + p.count) % pipeSize := by
    unfold Pipe.count pipeSize
    rw [UInt32.toNat_sub]
    have h1 := p.nwrite.toNat_lt
    have h2 := p.nread.toNat_lt
    omega
  unfold Pipe.contents
  rw [count_put h]
  show window (Function.update p.data (p.nwrite.toNat % pipeSize) c) pipeSize p.nread.toNat (p.count + 1) = _
  rw [hslot, window_put h]

theorem contents_pop (h : p.empty ≠ true) :
    p.contents = p.data (p.nread.toNat % pipeSize) :: Pipe.contents { p with nread := p.nread + 1 } := by
  have hpos : p.count ≠ 0 := by
    intro h0
    apply h
    rw [empty_iff, ← List.length_eq_zero_iff, length_contents, h0]
  have hcount : Pipe.count { p with nread := p.nread + 1 } = p.count - 1 := by
    unfold Pipe.count at hpos
    show (p.nwrite - (p.nread + 1)).toNat = (p.nwrite - p.nread).toNat - 1
    rw [UInt32.toNat_sub] at hpos
    rw [UInt32.toNat_sub, UInt32.toNat_sub, UInt32.toNat_add]
    have h1 := p.nwrite.toNat_lt
    have h2 := p.nread.toNat_lt
    have h3 : (1 : UInt32).toNat = 1 := rfl
    omega
  have hnext : (p.nread + 1).toNat = (p.nread.toNat + 1) % 2 ^ 32 := UInt32.toNat_add ..
  unfold Pipe.contents
  rw [hcount]
  show _ = _ :: window p.data pipeSize (p.nread + 1).toNat (p.count - 1)
  rw [hnext, window_mod (by decide), ← window_cons, Nat.sub_add_cancel (by omega)]

/-! ## What one turn does -/

theorem pipewrite_spec (h : p.Ok) : (pipewrite k p w).1.Ok ∧
    ∃ sent, w = sent ++ (pipewrite k p w).2.1 ∧ (pipewrite k p w).1.contents = p.contents ++ sent := by
  induction w generalizing p with
  | nil => exact ⟨h, [], rfl, by simp [pipewrite]⟩
  | cons c cs ih =>
    unfold pipewrite
    split
    · split
      · exact ⟨h, [], rfl, by simp⟩
      · exact ⟨h, [], rfl, by simp⟩
    · rename_i hfull
      have hlt : p.count < pipeSize := by
        rw [full_iff] at hfull
        have : p.count ≤ pipeSize := h
        omega
      obtain ⟨hok, sent, hsent, hcontents⟩ := ih (p := p.put c) (by
        show (p.put c).count ≤ pipeSize
        rw [count_put hlt]
        omega)
      refine ⟨hok, c :: sent, by rw [List.cons_append, ← hsent], ?_⟩
      rw [hcontents, contents_put hlt, List.append_assoc]
      rfl

theorem pipewrite_open : (pipewrite k p w).1.readopen = p.readopen ∧
    (pipewrite k p w).1.writeopen = p.writeopen := by
  induction w generalizing p with
  | nil => exact ⟨rfl, rfl⟩
  | cons c cs ih =>
    unfold pipewrite
    split
    · split <;> exact ⟨rfl, rfl⟩
    · exact ih (p := p.put c)

/-- A full pipe is left as it is. -/
theorem pipewrite_full (h : p.full = true) : (pipewrite k p w).1 = p := by
  cases w with
  | nil => rfl
  | cons c cs =>
    unfold pipewrite
    rw [if_pos h]
    split <;> rfl

theorem pipewrite_finished (h : (pipewrite k p w).2.2 = .finished) : (pipewrite k p w).2.1 = [] := by
  induction w generalizing p with
  | nil => rfl
  | cons c cs ih =>
    unfold pipewrite at h ⊢
    split at h
    · split at h <;> cases h
    · rename_i hfull
      rw [if_neg hfull]
      exact ih (p := p.put c) h

/-- Otherwise it stops at a full pipe. -/
theorem pipewrite_stops (h : (pipewrite k p w).2.2 ≠ .finished) : (pipewrite k p w).1.full = true ∧
    ((pipewrite k p w).2.2 = .refused ↔ p.readopen = false ∨ k = true) := by
  induction w generalizing p with
  | nil => exact absurd rfl h
  | cons c cs ih =>
    unfold pipewrite at h ⊢
    by_cases hfull : p.full = true
    · rw [if_pos hfull] at h ⊢
      by_cases hr : p.readopen = false ∨ k = true
      · rw [if_pos hr]
        exact ⟨hfull, iff_of_true rfl hr⟩
      · rw [if_neg hr]
        exact ⟨hfull, iff_of_false (fun h => by cases h) hr⟩
    · rw [if_neg hfull] at h ⊢
      exact ih (p := p.put c) h

theorem take_spec : (take p n).2 = p.contents.take n ∧ (take p n).1.contents = p.contents.drop n ∧
    (take p n).1.readopen = p.readopen ∧ (take p n).1.writeopen = p.writeopen := by
  induction n generalizing p with
  | zero => simp [take]
  | succ n ih =>
    unfold take
    split
    · rename_i he
      rw [empty_iff] at he
      simp [he]
    · rename_i he
      obtain ⟨h1, h2, h3, h4⟩ := ih (p := { p with nread := p.nread + 1 })
      rw [contents_pop he]
      simp only [h1, h2, h3, h4, List.take_succ_cons, List.drop_succ_cons, and_self]

theorem piperead_done (h : (piperead k p n).2 = .done cs) :
    ¬ (p.contents = [] ∧ p.writeopen = true) ∧ cs = p.contents.take n ∧
      (piperead k p n).1.contents = p.contents.drop n ∧ (piperead k p n).1.readopen = p.readopen ∧
      (piperead k p n).1.writeopen = p.writeopen := by
  unfold piperead at h ⊢
  split at h
  · split at h <;> cases h
  · rename_i hwait
    rw [empty_iff] at hwait
    simp only [empty_iff, hwait, if_false]
    obtain ⟨h1, h2, h3, h4⟩ := take_spec (p := p) (n := n)
    cases h
    exact ⟨not_false, h1, h2, h3, h4⟩

theorem piperead_stays (h : ∀ cs, (piperead k p n).2 ≠ .done cs) :
    (piperead k p n).1 = p ∧ p.contents = [] ∧ p.writeopen = true := by
  unfold piperead at h ⊢
  split at h
  · rename_i hwait
    rw [empty_iff] at hwait
    simp only [empty_iff, hwait, and_self, if_true]
    split <;> simp
  · exact absurd rfl (h _)

end

/-! ## The stream -/

section

variable {s t : St} {i j : Nat} {n : Nat} {w : List UInt8}

/-- The bytes written are those read and those in the ring. -/
structure Stream (s : St) : Prop where
  ok : s.pipe.Ok
  sent : s.sent = s.got ++ s.pipe.contents

theorem writeTurn_fields : (writeTurn s i w).pipe = (pipewrite (s.killed i) s.pipe w).1 ∧
    (writeTurn s i w).got = s.got ∧ (writeTurn s i w).killed = s.killed ∧
    (writeTurn s i w).sent =
      s.sent ++ w.take (w.length - (pipewrite (s.killed i) s.pipe w).2.1.length) := by
  unfold writeTurn
  obtain ⟨p, rest, stop⟩ := pipewrite (s.killed i) s.pipe w
  cases stop <;> exact ⟨rfl, rfl, rfl, rfl⟩

theorem stream_writeTurn (h : Stream s) : Stream (writeTurn s i w) := by
  obtain ⟨hpipe, hgot, -, hsent⟩ := writeTurn_fields (s := s) (i := i) (w := w)
  obtain ⟨hok, bytes, hbytes, hcontents⟩ := pipewrite_spec (k := s.killed i) (w := w) h.ok
  refine ⟨hpipe ▸ hok, ?_⟩
  rw [hsent, hgot, hpipe, hcontents, h.sent, List.append_assoc]
  congr 2
  -- what has been written is what is in front of the bytes left
  generalize (pipewrite (s.killed i) s.pipe w).2.1 = rest at hbytes ⊢
  rw [hbytes, List.length_append, Nat.add_sub_cancel, List.take_left]

theorem stream_readTurn (h : Stream s) : Stream (readTurn s i n) := by
  unfold readTurn
  cases hr : piperead (s.killed i) s.pipe n with
  | mk p stop =>
    cases stop with
    | done cs =>
      obtain ⟨-, hcs, hcontents, -, -⟩ := piperead_done (p := s.pipe) (k := s.killed i) (n := n) (by rw [hr])
      rw [hr] at hcontents
      refine ⟨?_, ?_⟩
      · show p.count ≤ pipeSize
        have hle : s.pipe.count ≤ pipeSize := h.ok
        rw [← length_contents, hcontents, List.length_drop, length_contents]
        omega
      · show s.sent = s.got ++ cs ++ p.contents
        rw [hcs, hcontents, List.append_assoc, List.take_append_drop, h.sent]
    | refused =>
      have hp := (piperead_stays (p := s.pipe) (k := s.killed i) (n := n) (by simp [hr])).1
      rw [hr] at hp
      dsimp only at hp ⊢
      rw [hp]
      exact ⟨h.ok, h.sent⟩
    | waits =>
      have hp := (piperead_stays (p := s.pipe) (k := s.killed i) (n := n) (by simp [hr])).1
      rw [hr] at hp
      dsimp only at hp ⊢
      rw [hp]
      exact ⟨h.ok, h.sent⟩

theorem stream_step (h : Stream s) {e : Ev} (ht : step s e = some t) : Stream t := by
  cases e with
  | call i job => cases ht; exact ⟨h.ok, h.sent⟩
  | turn i =>
    simp only [step] at ht
    split at ht
    · cases ht; exact stream_writeTurn h
    · cases ht; exact stream_readTurn h
    · cases ht; exact h
  | doze i =>
    simp only [step] at ht
    split at ht
    · cases ht; exact ⟨h.ok, h.sent⟩
    · cases ht; exact h
  | kill i => cases ht; exact ⟨h.ok, h.sent⟩
  | close writable =>
    cases ht
    split
    · unfold pipeclose
      split
      · exact ⟨h.ok, h.sent⟩
      · exact ⟨h.ok, h.sent⟩
    · exact h

theorem stream_init (junk : Nat → UInt8) : Stream (init junk) := by
  have hcount : (init junk).pipe.count = 0 := count_pipealloc junk
  refine ⟨?_, ?_⟩
  · unfold Pipe.Ok
    omega
  · unfold Pipe.contents
    rw [hcount]
    rfl

theorem pipe_stream (junk : Nat → UInt8) (es : List Ev) (t : St) (ht : after step (init junk) es = some t) :
    (∃ held, t.sent = t.got ++ held ∧ held.length ≤ pipeSize ∧
      ∀ killed n cs, (piperead killed t.pipe n).2 = .done cs → cs = held.take n) ∧
    ∀ killed n, 0 < n → (piperead killed t.pipe n).2 = .done [] → t.pipe.writeopen = false ∧ t.got = t.sent := by
  have h := after_inv Stream (fun _ _ => True) (fun s e t h _ ht => stream_step h ht) es _ t (stream_init junk)
    (fun _ _ => trivial) ht
  refine ⟨⟨t.pipe.contents, h.sent, by rw [length_contents]; exact h.ok, ?_⟩, ?_⟩
  · exact fun killed n cs hd => (piperead_done hd).2.1
  · intro killed n hn hd
    obtain ⟨hwait, hcs, -⟩ := piperead_done hd
    have hnil : t.pipe.contents = [] := by
      rcases List.take_eq_nil_iff.mp hcs.symm with h0 | h0
      · omega
      · exact h0
    refine ⟨?_, by rw [h.sent, hnil, List.append_nil]⟩
    rw [Bool.eq_false_iff]
    exact fun hopen => hwait ⟨hnil, hopen⟩

theorem pipe_stream_two_bytes : ∃ t, after step (init fun _ => 0)
      [.call 1 (.write [7, 8]), .turn 1, .call 2 (.read 1), .turn 2] = some t ∧
    (∃ held, t.sent = t.got ++ held ∧ held.length ≤ pipeSize ∧
      ∀ killed n cs, (piperead killed t.pipe n).2 = .done cs → cs = held.take n) ∧
    ∀ killed n, 0 < n → (piperead killed t.pipe n).2 = .done [] → t.pipe.writeopen = false ∧ t.got = t.sent :=
  ⟨_, rfl, pipe_stream (fun _ => 0) [.call 1 (.write [7, 8]), .turn 1, .call 2 (.read 1), .turn 2] _ rfl⟩

/-! ## Sleeping -/

def Proc.isRead : Proc → Bool
  | .busy (.read _) _ => true
  | _ => false

def Proc.isWrite : Proc → Bool
  | .busy (.write _) _ => true
  | _ => false

/-- Dozing or asleep. -/
def Proc.waits : Proc → Bool
  | .busy _ .dozing | .busy _ .asleep => true
  | _ => false

/-- A process calls on an end that it holds open, which so is not closed; none is killed that writes. -/
def Legal (s : St) : Ev → Prop
  | .call i (.read _) => s.procs i = .idle ∧ s.pipe.readopen = true
  | .call i (.write _) => s.procs i = .idle ∧ s.pipe.writeopen = true ∧ s.killed i = false
  | .kill i => (s.procs i).isWrite = false
  | .close true => ∀ i, (s.procs i).isWrite = false
  | .close false => ∀ i, (s.procs i).isRead = false
  | .turn _ | .doze _ => True

/-- What is known of a process, by what it does. -/
structure Fine (p : Pipe) (lock : Option Nat) (killed : Bool) (i : Nat) (x : Proc) : Prop where
  reader : x.isRead = true → p.readopen = true ∧ (x.waits = true → p.contents = [] ∧ p.writeopen = true)
  writer : x.isWrite = true → p.writeopen = true ∧ killed = false ∧
    (x.waits = true → p.count = pipeSize ∧ p.readopen = true)
  dozing : ∀ job, x = .busy job .dozing → lock = some i

def Awake (s : St) : Prop := ∀ i, Fine s.pipe s.lock (s.killed i) i (s.procs i)

theorem Fine.idle (p : Pipe) (lock : Option Nat) (killed : Bool) (i : Nat) : Fine p lock killed i .idle := by
  refine ⟨?_, ?_, ?_⟩
  · intro h; cases h
  · intro h; cases h
  · intro job h; cases h

theorem isRead_wakeRead (x : Proc) : x.wakeRead.isRead = x.isRead := by rcases x with _ | ⟨_ | _, _ | _ | _⟩ <;> rfl

theorem isWrite_wakeWrite (x : Proc) : x.wakeWrite.isWrite = x.isWrite := by rcases x with _ | ⟨_ | _, _ | _ | _⟩ <;> rfl

/-- `wakeup(&p->nread)` is nothing to a process that writes. -/
theorem wakeRead_of_isWrite {x : Proc} (h : x.wakeRead.isWrite = true) : x.wakeRead = x ∧ x.isWrite = true := by
  rcases x with _ | ⟨_ | _, _ | _ | _⟩ <;> first | exact ⟨rfl, rfl⟩ | cases h

theorem wakeWrite_of_isRead {x : Proc} (h : x.wakeWrite.isRead = true) : x.wakeWrite = x ∧ x.isRead = true := by
  rcases x with _ | ⟨_ | _, _ | _ | _⟩ <;> first | exact ⟨rfl, rfl⟩ | cases h

theorem dozing_of_wakeRead {x : Proc} {job : Job} (h : x.wakeRead = .busy job .dozing) : x = .busy job .dozing := by
  rcases x with _ | ⟨_ | _, _ | _ | _⟩ <;> first | exact h | cases h

theorem dozing_of_wakeWrite {x : Proc} {job : Job} (h : x.wakeWrite = .busy job .dozing) : x = .busy job .dozing := by
  rcases x with _ | ⟨_ | _, _ | _ | _⟩ <;> first | exact h | cases h

/-- A reader that still waits is dozing, with the lock. -/
theorem waits_wakeRead {x : Proc} (hr : x.isRead = true) (hw : x.wakeRead.waits = true) : ∃ job, x = .busy job .dozing := by
  rcases x with _ | ⟨_ | _, _ | _ | _⟩ <;> first | exact ⟨_, rfl⟩ | (cases hr; done) | cases hw

theorem waits_wakeWrite {x : Proc} (hr : x.isWrite = true) (hw : x.wakeWrite.waits = true) : ∃ job, x = .busy job .dozing := by
  rcases x with _ | ⟨_ | _, _ | _ | _⟩ <;> first | exact ⟨_, rfl⟩ | (cases hr; done) | cases hw

theorem Fine.wakeRead {p q : Pipe} {killed : Bool} {x : Proc} (h : Fine p none killed i x) (lock : Option Nat)
    (hr : x.isRead = true → q.readopen = true)
    (hw : x.isWrite = true → q.writeopen = true ∧
      (p.count = pipeSize → p.readopen = true → q.count = pipeSize ∧ q.readopen = true)) :
    Fine q lock killed i x.wakeRead := by
  refine ⟨fun hx => ?_, fun hx => ?_, fun job hx => ?_⟩
  · rw [isRead_wakeRead] at hx
    refine ⟨hr hx, fun hwaits => ?_⟩
    obtain ⟨job, hdoze⟩ := waits_wakeRead hx hwaits
    cases h.dozing job hdoze
  · obtain ⟨hsame, hx⟩ := wakeRead_of_isWrite hx
    obtain ⟨-, hkilled, hfull⟩ := h.writer hx
    refine ⟨(hw hx).1, hkilled, fun hwaits => ?_⟩
    obtain ⟨h1, h2⟩ := hfull (hsame ▸ hwaits)
    exact (hw hx).2 h1 h2
  · cases h.dozing job (dozing_of_wakeRead hx)

theorem Fine.wakeWrite {p q : Pipe} {killed : Bool} {x : Proc} (h : Fine p none killed i x) (lock : Option Nat)
    (hw : x.isWrite = true → q.writeopen = true)
    (hr : x.isRead = true → q.readopen = true ∧
      (p.contents = [] → p.writeopen = true → q.contents = [] ∧ q.writeopen = true)) :
    Fine q lock killed i x.wakeWrite := by
  refine ⟨fun hx => ?_, fun hx => ?_, fun job hx => ?_⟩
  · obtain ⟨hsame, hx⟩ := wakeWrite_of_isRead hx
    refine ⟨(hr hx).1, fun hwaits => ?_⟩
    obtain ⟨h1, h2⟩ := (h.reader hx).2 (hsame ▸ hwaits)
    exact (hr hx).2 h1 h2
  · rw [isWrite_wakeWrite] at hx
    refine ⟨hw hx, (h.writer hx).2.1, fun hwaits => ?_⟩
    obtain ⟨job, hdoze⟩ := waits_wakeWrite hx hwaits
    cases h.dozing job hdoze
  · cases h.dozing job (dozing_of_wakeWrite hx)

/-- A process that the event is not about, where pipe and lock stay or it does not doze. -/
theorem Fine.same_pipe {p : Pipe} {killed : Bool} {x : Proc} (h : Fine p none killed i x) (lock : Option Nat) :
    Fine p lock killed i x :=
  ⟨h.reader, h.writer, fun job he => by cases h.dozing job he⟩

/-- One process moves, and the others are as `f` has them. -/
theorem fine_update {p : Pipe} {lock : Option Nat} {killed : Nat → Bool} {f : Nat → Proc} {x : Proc}
    (hi : Fine p lock (killed i) i x) (hothers : ∀ j, j ≠ i → Fine p lock (killed j) j (f j)) :
    ∀ j, Fine p lock (killed j) j (Function.update f i x j) :=
  (Function.forall_update_iff f fun j x => Fine p lock (killed j) j x).mpr ⟨hi, hothers⟩

theorem awake_writeTurn (h : Awake s) (hlock : s.lock = none) (hi : s.procs i = .busy (.write left) .ready) :
    Awake (writeTurn s i left) := by
  obtain ⟨hopen, hkilled, -⟩ := (hi ▸ h i).writer rfl
  obtain ⟨ho1, ho2⟩ := pipewrite_open (k := s.killed i) (p := s.pipe) (w := left)
  have hfull : s.pipe.count = pipeSize → (pipewrite (s.killed i) s.pipe left).1 = s.pipe :=
    fun hf => pipewrite_full (full_iff.mpr hf)
  have hothers : ∀ (lock : Option Nat) (j : Nat), Fine (pipewrite (s.killed i) s.pipe left).1 lock (s.killed j) j
      (s.procs j).wakeRead := by
    intro lock j
    apply Fine.wakeRead (p := s.pipe) (hlock ▸ h j) lock
    · intro hr
      rw [ho1]
      exact ((h j).reader hr).1
    · intro _
      refine ⟨ho2.trans hopen, fun hf hro => ?_⟩
      rw [hfull hf]
      exact ⟨hf, hro⟩
  have hstops := pipewrite_stops (k := s.killed i) (p := s.pipe) (w := left)
  unfold writeTurn
  generalize pipewrite (s.killed i) s.pipe left = r at *
  obtain ⟨p, rest, stop⟩ := r
  cases stop with
  | finished => exact fine_update (.idle ..) fun j _ => hothers _ j
  | refused =>
    have hclosed : s.pipe.readopen = false :=
      ((hstops (fun h => by cases h)).2.mp rfl).resolve_right (by rw [hkilled]; decide)
    refine fine_update (.idle ..) fun j _ => ⟨fun hr => ?_, fun hw => ?_, (h j).dozing⟩
    · have := ((h j).reader hr).1
      rw [hclosed] at this
      cases this
    · obtain ⟨-, hk, hwait⟩ := (h j).writer hw
      refine ⟨ho2.trans hopen, hk, fun hx => ?_⟩
      have := (hwait hx).2
      rw [hclosed] at this
      cases this
  | waits =>
    obtain ⟨hpfull, hiff⟩ := hstops (fun h => by cases h)
    have hro : s.pipe.readopen = true := by
      by_contra hc
      cases hiff.mpr (.inl (by simpa using hc))
    refine fine_update ⟨fun hr => (by cases hr), fun _ => ⟨ho2.trans hopen, hkilled, fun _ => ?_⟩, fun _ _ => rfl⟩
      fun j _ => hothers _ j
    exact ⟨full_iff.mp hpfull, ho1.trans hro⟩

theorem awake_readTurn (h : Awake s) (hlock : s.lock = none) (hi : s.procs i = .busy (.read n) .ready) :
    Awake (readTurn s i n) := by
  obtain ⟨hopen, -⟩ := (hi ▸ h i).reader rfl
  unfold readTurn
  cases hr : piperead (s.killed i) s.pipe n with
  | mk p stop =>
    cases stop with
    | done cs =>
      obtain ⟨hsome, -, -, ho1, ho2⟩ := piperead_done (p := s.pipe) (k := s.killed i) (n := n) (by rw [hr])
      rw [hr] at ho1 ho2
      refine fine_update (.idle ..) fun j _ => Fine.wakeWrite (p := s.pipe) (hlock ▸ h j) _ (fun hw => ?_) fun hr => ?_
      · exact ho2.trans ((h j).writer hw).1
      · exact ⟨ho1.trans ((h j).reader hr).1, fun h1 h2 => absurd ⟨h1, h2⟩ hsome⟩
    | refused =>
      have hp := (piperead_stays (p := s.pipe) (k := s.killed i) (n := n) (by simp [hr])).1
      rw [hr] at hp
      dsimp only at hp ⊢
      rw [hp]
      exact fine_update (.idle ..) fun j _ => h j
    | waits =>
      obtain ⟨hp, hempty, hwo⟩ := piperead_stays (p := s.pipe) (k := s.killed i) (n := n) (by simp [hr])
      rw [hr] at hp
      dsimp only at hp ⊢
      rw [hp]
      refine fine_update ⟨fun _ => ⟨hopen, fun _ => ⟨hempty, hwo⟩⟩, fun hw => (by cases hw), fun _ _ => rfl⟩ fun j _ => ?_
      exact (hlock ▸ h j : Fine s.pipe none _ j _).same_pipe _

theorem awake_step (h : Awake s) {e : Ev} (hlegal : Legal s e) (ht : step s e = some t) : Awake t := by
  cases e with
  | call i job =>
    cases ht
    refine fine_update ?_ fun j _ => h j
    cases job with
    | read n =>
      exact ⟨fun _ => ⟨hlegal.2, fun hw => (by cases hw)⟩, fun hw => (by cases hw), fun job he => (by cases he)⟩
    | write left =>
      exact ⟨fun hr => (by cases hr), fun _ => ⟨hlegal.2.1, hlegal.2.2, fun hw => (by cases hw)⟩,
        fun job he => (by cases he)⟩
  | turn i =>
    simp only [step] at ht
    split at ht
    · cases ht
      exact awake_writeTurn h ‹_› ‹_›
    · cases ht
      exact awake_readTurn h ‹_› ‹_›
    · cases ht
      exact h
  | doze i =>
    simp only [step] at ht
    split at ht
    · rename_i job hi
      cases ht
      have hlock := (h i).dozing job hi
      have hi := hi ▸ h i
      refine fine_update ⟨fun hr => ?_, fun hw => ?_, fun job he => (by cases he)⟩ fun j e => ?_
      · cases job with
        | read n => exact hi.reader rfl
        | write left => cases hr
      · cases job with
        | read n => cases hw
        | write left => exact hi.writer rfl
      · refine ⟨(h j).reader, (h j).writer, fun job' hj => ?_⟩
        have := (h j).dozing job' hj
        rw [hlock, Option.some_inj] at this
        exact absurd this.symm e
    · cases ht
      exact h
  | kill i =>
    cases ht
    intro j
    by_cases e : j = i
    · subst e
      simp only [Function.update_self]
      have hj := h j
      have hw : (s.procs j).isWrite = false := hlegal
      cases hp : s.procs j with
      | idle => exact .idle ..
      | busy job mode =>
        rw [hp] at hj hw
        cases job with
        | write left => cases mode <;> cases hw
        | read n =>
          refine ⟨fun _ => ⟨(hj.reader rfl).1, fun hwaits => ?_⟩, fun hw => (by cases mode <;> cases hw), ?_⟩
          · exact (hj.reader rfl).2 (by cases mode <;> first | rfl | cases hwaits)
          · intro job he
            cases mode with
            | ready => cases he
            | dozing => exact hj.dozing _ rfl
            | asleep => cases he
    · simp only [Function.update_of_ne e]
      exact h j
  | close writable =>
    cases ht
    split
    · rename_i hlock
      intro j
      unfold pipeclose
      cases writable with
      | true =>
        rw [if_pos rfl]
        apply Fine.wakeRead (p := s.pipe) (hlock ▸ h j)
        · exact fun hr => ((h j).reader hr).1
        · intro hw
          rw [hlegal j] at hw
          cases hw
      | false =>
        rw [if_neg (by decide)]
        apply Fine.wakeWrite (p := s.pipe) (hlock ▸ h j)
        · exact fun hw => ((h j).writer hw).1
        · intro hr
          rw [hlegal j] at hr
          cases hr
    · exact h

theorem no_lost_wakeup (junk : Nat → UInt8) (es : List Ev) (hlegal : ∀ x ∈ trail step (init junk) es, Legal x.1 x.2)
    (t : St) (ht : after step (init junk) es = some t) :
    (∀ i n, t.procs i = .busy (.read n) .asleep → t.sent = t.got ∧ t.pipe.writeopen = true) ∧
    (∀ i left, t.procs i = .busy (.write left) .asleep →
      t.sent.length = t.got.length + pipeSize ∧ t.pipe.readopen = true) := by
  have hawake : Awake t := after_inv Awake Legal (fun s e t h hl ht => awake_step h hl ht) es _ t
    (fun i => .idle ..) hlegal ht
  have hstream := after_inv Stream (fun _ _ => True) (fun s e t h _ ht => stream_step h ht) es _ t (stream_init junk)
    (fun _ _ => trivial) ht
  refine ⟨fun i n hi => ?_, fun i left hi => ?_⟩
  · obtain ⟨hnil, hopen⟩ := ((hi ▸ hawake i).reader rfl).2 rfl
    refine ⟨?_, hopen⟩
    rw [hstream.sent, hnil, List.append_nil]
  · obtain ⟨hfull, hopen⟩ := ((hi ▸ hawake i).writer rfl).2.2 rfl
    refine ⟨?_, hopen⟩
    rw [hstream.sent, List.length_append, length_contents, hfull]

/-- A reader sleeps, is woken by a writer, reads the byte and sleeps again. -/
def wokenReader : List Ev :=
  [.call 2 (.read 1), .turn 2, .doze 2, .call 1 (.write [7]), .turn 1, .turn 2, .call 2 (.read 1), .turn 2, .doze 2]

theorem no_lost_wakeup_reader : ∃ t, after step (init fun _ => 0) wokenReader = some t ∧
    t.procs 2 = .busy (.read 1) .asleep ∧ t.got = [7] ∧
    (∀ i n, t.procs i = .busy (.read n) .asleep → t.sent = t.got ∧ t.pipe.writeopen = true) ∧
    (∀ i left, t.procs i = .busy (.write left) .asleep →
      t.sent.length = t.got.length + pipeSize ∧ t.pipe.readopen = true) := by
  refine ⟨_, rfl, rfl, rfl, no_lost_wakeup (fun _ => 0) wokenReader ?_ _ rfl⟩
  show ∀ x ∈ [(_, _), (_, _), (_, _), (_, _), (_, _), (_, _), (_, _), (_, _), (_, _)], _
  simp only [List.forall_mem_cons]
  exact ⟨⟨rfl, rfl⟩, trivial, trivial, ⟨rfl, rfl, rfl⟩, trivial, trivial, ⟨rfl, rfl⟩, trivial, trivial, by simp⟩

/-! ## A writer that is killed -/

/-- A killed process that has more to write than fits fills the pipe, and is refused. -/
theorem pipewrite_killed {p : Pipe} {w : List UInt8} (h : p.Ok) (hlen : pipeSize < p.count + w.length) :
    (pipewrite true p w).2.2 = .refused ∧
      w.length - (pipewrite true p w).2.1.length = pipeSize - p.count := by
  obtain ⟨hok, sent, hsent, hcontents⟩ := pipewrite_spec (k := true) (w := w) h
  have hcount : (pipewrite true p w).1.count = p.count + sent.length := by
    rw [← length_contents, hcontents, List.length_append, length_contents]
  have hunfinished : (pipewrite true p w).2.2 ≠ .finished := by
    intro hf
    rw [pipewrite_finished hf, List.append_nil] at hsent
    have : (pipewrite true p w).1.count ≤ pipeSize := hok
    rw [hcount, ← hsent] at this
    omega
  obtain ⟨hfull, hiff⟩ := pipewrite_stops hunfinished
  refine ⟨hiff.mpr (.inr rfl), ?_⟩
  rw [full_iff, hcount] at hfull
  have := congrArg List.length hsent
  rw [List.length_append] at this
  omega

/-- A reader sleeps, and `kill` comes before a writer with more bytes than fit gets the lock. The pipe is full then, and
    the reader sleeps on. -/
theorem killed_writer_strands_reader (junk : Nat → UInt8) (es : List Ev) (s : St) (hs : after step (init junk) es = some s)
    (hlock : s.lock = none) (i j n : Nat) (hi : s.procs i = .idle) (hj : s.procs j = .busy (.read n) .asleep)
    (cs : List UInt8) (hlen : s.got.length + pipeSize < s.sent.length + cs.length) :
    ∃ t, after step s [.call i (.write cs), .kill i, .turn i] = some t ∧
      t.procs j = .busy (.read n) .asleep ∧ (∀ k, k ≠ j → t.procs k = s.procs k) ∧ t.lock = none ∧
      t.pipe.writeopen = s.pipe.writeopen ∧ t.got = s.got ∧
      t.sent = s.sent ++ cs.take (s.got.length + pipeSize - s.sent.length) := by
  have hstream := after_inv Stream (fun _ _ => True) (fun s e t h _ ht => stream_step h ht) es _ s (stream_init junk)
    (fun _ _ => trivial) hs
  have hcount : s.sent.length = s.got.length + s.pipe.count := by
    rw [hstream.sent, List.length_append, length_contents]
  obtain ⟨hrefused, hsent⟩ := pipewrite_killed (p := s.pipe) (w := cs) hstream.ok (by omega)
  have hopen := (pipewrite_open (k := true) (p := s.pipe) (w := cs)).2
  have hji : j ≠ i := by
    intro e
    rw [e, hi] at hj
    cases hj
  generalize hr : pipewrite true s.pipe cs = r at hrefused hsent hopen
  obtain ⟨p, rest, stop⟩ := r
  cases hrefused
  simp only [after, step, writeTurn, hlock, hr, Function.update_self, Proc.rouse]
  refine ⟨_, rfl, ?_, fun k hk => ?_, rfl, hopen, rfl, ?_⟩
  · simp only [Function.update_of_ne hji, hj]
  · by_cases e : k = i
    · simp only [e, Function.update_self, hi]
    · simp only [Function.update_of_ne e]
  · rw [hsent, hcount, Nat.add_sub_add_left]

theorem killed_writer_strands_reader_two :
    ∃ s, after step (init fun _ => 0) wokenReader = some s ∧
      ∃ t, after step s [.call 1 (.write (List.replicate 513 7)), .kill 1, .turn 1] = some t ∧
        t.procs 2 = .busy (.read 1) .asleep ∧ (∀ k, k ≠ 2 → t.procs k = s.procs k) ∧ t.lock = none ∧
        t.pipe.writeopen = s.pipe.writeopen ∧ t.got = s.got ∧
        t.sent = s.sent ++ (List.replicate 513 7).take (s.got.length + pipeSize - s.sent.length) :=
  ⟨_, rfl, killed_writer_strands_reader (fun _ => 0) wokenReader _ rfl rfl 1 2 1 rfl rfl (List.replicate 513 7) (by
    rw [List.length_replicate]
    decide)⟩

end

end CS5600.Xv6.Pipes
