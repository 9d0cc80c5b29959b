/-
  CS5600.Lib.X86 — the part of x86-64 that plain integer code uses, in AT&T operand order.

  A text is a list of lines, labels and instructions, as in an assembler file; a `Layout` gives
  the instructions addresses, no two the same, and `%rip` holds such an address, so a return
  address is a number like any other. `Cpu` is everything but `%rip`: the registers, the memory,
  the flags the signed jumps read, and a log of the ranges that were written (no instruction
  reads the log; it is there to say what a run wrote). A 4-byte write to a register clears its
  upper half; effective addresses, sums and differences wrap.

  - `reaches_ops`: a block without control transfer runs as a fold over its operations;
    `reaches_step` is any one instruction.
  - `le_compare`: after a compare, `jle` jumps exactly when the destination is at most the
    source as signed numbers.
  - `reaches_logged`: a run leaves alone every byte that its log does not name.
-/

import CS5600.Lib.Bytes

namespace CS5600.Lib.X86

open CS5600.Lib.Bytes

/-! ## Instructions -/

inductive Reg
  | rax | rcx | rdx | rsi | rdi | rbp | rsp
  deriving DecidableEq

/-- The suffix of an instruction: 4 or 8 bytes. -/
inductive Width
  | l | q
  deriving DecidableEq

@[simp] def Width.bytes : Width → Nat
  | .l => 4
  | .q => 8

/-- The address `disp(base, index, scale)`. -/
structure Addr where
  disp : Int
  base : Option Reg
  index : Option Reg
  scale : Nat
  deriving DecidableEq

/-- `(r)` -/
def ind (r : Reg) : Addr := ⟨0, some r, none, 1⟩

/-- `-d(r)` -/
def below (d : Nat) (r : Reg) : Addr := ⟨-d, some r, none, 1⟩

/-- `0(, r, k)` -/
def scaled (r : Reg) (k : Nat) : Addr := ⟨0, none, some r, k⟩

inductive Dst
  | reg (r : Reg)
  | mem (a : Addr)
  deriving DecidableEq

inductive Src
  | imm (v : Int)
  | reg (r : Reg)
  | mem (a : Addr)
  deriving DecidableEq

@[simp] def Dst.src : Dst → Src
  | .reg r => .reg r
  | .mem a => .mem a

/-- The instructions that go on with the next one. -/
inductive Op
  | mov (w : Width) (s : Src) (d : Dst)
  | add (w : Width) (s : Src) (d : Dst)
  | sub (w : Width) (s : Src) (d : Dst)
  | cmp (w : Width) (s : Src) (d : Dst)
  | lea (a : Addr) (r : Reg)
  | cltq
  | push (r : Reg)
  | pop (r : Reg)
  | leave
  deriving DecidableEq

inductive Instr (L : Type)
  | op (o : Op)
  | jmp (l : L)
  | jle (l : L)
  | jg (l : L)
  | call (l : L)
  | ret

inductive Line (L : Type)
  | label (l : L)
  | instr (i : Instr L)

def ops {L : Type} (os : List Op) : List (Line L) := os.map fun o => .instr (.op o)

/-! ## The processor -/

def signed (w : Width) (x : Nat) : Int :=
  if 2 * (x % 256 ^ w.bytes) < 256 ^ w.bytes then (x % 256 ^ w.bytes : Nat)
  else (x % 256 ^ w.bytes : Nat) - (256 ^ w.bytes : Nat)

def wadd (w : Width) (x y : Nat) : Nat := (x + y) % 256 ^ w.bytes

def wsub (w : Width) (x y : Nat) : Nat := (x + (256 ^ w.bytes - y % 256 ^ w.bytes)) % 256 ^ w.bytes

/-- An exact integer as a value of the width. -/
def wrap (w : Width) (z : Int) : Nat := (z % (256 ^ w.bytes : Nat)).toNat

structure Cpu where
  regs : Reg → UInt64
  mem : Mem
  zf : Bool
  sf : Bool
  vf : Bool
  written : List (Nat × Nat)

namespace Cpu

def get (c : Cpu) (r : Reg) : Nat := (c.regs r).toNat

def set (c : Cpu) (r : Reg) (v : Nat) : Cpu := { c with regs := Function.update c.regs r (UInt64.ofNat v) }

def put (c : Cpu) (n a v : Nat) : Cpu := { c with mem := store c.mem n a v, written := (a, n) :: c.written }

/-- The flags after a result `r` of an operation whose exact signed result is `exact`. -/
def flags (c : Cpu) (w : Width) (r : Nat) (exact : Int) : Cpu :=
  { c with zf := r == 0, sf := decide (signed w r < 0), vf := decide (signed w r ≠ exact) }

def compare (c : Cpu) (w : Width) (x y : Nat) : Cpu := c.flags w (wsub w x y) (signed w x - signed w y)

/-- The condition of `jle`; that of `jg` is its negation. -/
def le (c : Cpu) : Bool := c.zf || (c.sf != c.vf)

def ea (c : Cpu) (a : Addr) : Nat :=
  wrap .q (a.disp + (a.base.elim 0 c.get : Nat) + (a.index.elim 0 c.get * a.scale : Nat))

@[simp] def read (c : Cpu) (w : Width) : Src → Nat
  | .imm v => (v % (256 ^ w.bytes : Nat)).toNat
  | .reg r => c.get r % 256 ^ w.bytes
  | .mem a => load c.mem w.bytes (c.ea a)

@[simp] def write (c : Cpu) (w : Width) (v : Nat) : Dst → Cpu
  | .reg r => c.set r (v % 256 ^ w.bytes)
  | .mem a => c.put w.bytes (c.ea a) v

@[simp] def push (c : Cpu) (v : Nat) : Cpu :=
  let c := c.set .rsp (wsub .q (c.get .rsp) 8)
  c.put 8 (c.get .rsp) v

@[simp] def top (c : Cpu) : Nat := load c.mem 8 (c.get .rsp)

@[simp] def drop (c : Cpu) : Cpu := c.set .rsp (wadd .q (c.get .rsp) 8)

@[simp] def exec (c : Cpu) : Op → Cpu
  | .mov w s d => c.write w (c.read w s) d
  | .add w s d =>
    let x := c.read w d.src
    let y := c.read w s
    (c.write w (wadd w x y) d).flags w (wadd w x y) (signed w x + signed w y)
  | .sub w s d =>
    let x := c.read w d.src
    let y := c.read w s
    (c.write w (wsub w x y) d).compare w x y
  | .cmp w s d => c.compare w (c.read w d.src) (c.read w s)
  | .lea a r => c.set r (c.ea a)
  | .cltq => c.set .rax (wrap .q (signed .l (c.get .rax)))
  | .push r => c.push (c.get r)
  | .pop r => c.drop.set r c.top
  | .leave =>
    let c := c.set .rsp (c.get .rbp)
    c.drop.set .rbp c.top

end Cpu

/-! ## The program -/

section Text

variable {L : Type}

def Line.instr? : Line L → Option (Instr L)
  | .label _ => none
  | .instr i => some i

def instrs (text : List (Line L)) : List (Instr L) := text.filterMap Line.instr?

variable [DecidableEq L]

/-- The index of the instruction a label stands before. -/
def target : List (Line L) → L → Nat
  | [], _ => 0
  | .label x :: text, l => if x = l then 0 else target text l
  | .instr _ :: text, l => target text l + 1

omit [DecidableEq L] in
/-- Where the instructions are, and the byte after the last one. -/
structure Layout (text : List (Line L)) where
  addr : Nat → UInt64
  inj : ∀ i j, i ≤ (instrs text).length → j ≤ (instrs text).length → addr i = addr j → i = j

structure State where
  rip : UInt64
  cpu : Cpu

variable (text : List (Line L)) (A : Layout text)

def next (k : Nat) (c : Cpu) : Instr L → State
  | .op o => ⟨A.addr (k + 1), c.exec o⟩
  | .jmp l => ⟨A.addr (target text l), c⟩
  | .jle l => ⟨if c.le then A.addr (target text l) else A.addr (k + 1), c⟩
  | .jg l => ⟨if c.le then A.addr (k + 1) else A.addr (target text l), c⟩
  | .call l => ⟨A.addr (target text l), c.push (A.addr (k + 1)).toNat⟩
  | .ret => ⟨UInt64.ofNat c.top, c.drop⟩

/-- One instruction; there is none at an address outside the text. -/
def step (s : State) : Option State :=
  match (List.range (instrs text).length).find? fun k => A.addr k == s.rip with
  | none => none
  | some k => (instrs text)[k]?.map (next text A k s.cpu)

def Reaches : State → State → Prop := Relation.ReflTransGen fun s t => step text A s = some t

end Text

/-! ## Reading states -/

section Facts

variable (c : Cpu) (w : Width)

@[simp] theorem get_set (r r' : Reg) (v : Nat) : (c.set r v).get r' = if r = r' then v % 2 ^ 64 else c.get r' := by
  by_cases e : r = r'
  · subst e; simp [Cpu.get, Cpu.set]
  · simp [Cpu.get, Cpu.set, Function.update_of_ne (Ne.symm e), e]

theorem get_lt (r : Reg) : c.get r < 2 ^ 64 := (c.regs r).toNat_lt

-- not by `rfl`: simp would leave such a step to the kernel, which then compares the fields that
-- play no part in it
@[simp] theorem mem_set (r : Reg) (v : Nat) : (c.set r v).mem = c.mem := by rw [Cpu.set]

@[simp] theorem written_set (r : Reg) (v : Nat) : (c.set r v).written = c.written := by rw [Cpu.set]

@[simp] theorem get_put (n a v : Nat) (r : Reg) : (c.put n a v).get r = c.get r := by
  rw [Cpu.put, Cpu.get, Cpu.get]

@[simp] theorem mem_put (n a v : Nat) : (c.put n a v).mem = store c.mem n a v := by rw [Cpu.put]

@[simp] theorem written_put (n a v : Nat) : (c.put n a v).written = (a, n) :: c.written := by rw [Cpu.put]

@[simp] theorem get_flags (x : Nat) (z : Int) (r : Reg) : (c.flags w x z).get r = c.get r := by
  rw [Cpu.flags, Cpu.get, Cpu.get]

@[simp] theorem mem_flags (x : Nat) (z : Int) : (c.flags w x z).mem = c.mem := by rw [Cpu.flags]

@[simp] theorem written_flags (x : Nat) (z : Int) : (c.flags w x z).written = c.written := by rw [Cpu.flags]

@[simp] theorem get_compare (x y : Nat) (r : Reg) : (c.compare w x y).get r = c.get r := by
  rw [Cpu.compare, get_flags]

@[simp] theorem mem_compare (x y : Nat) : (c.compare w x y).mem = c.mem := by rw [Cpu.compare, mem_flags]

@[simp] theorem written_compare (x y : Nat) : (c.compare w x y).written = c.written := by
  rw [Cpu.compare, written_flags]

@[simp] theorem ea_ind (r : Reg) : c.ea (ind r) = c.get r := by
  have := get_lt c r
  simp only [Cpu.ea, ind, wrap, Width.bytes, Option.elim]
  omega

@[simp] theorem ea_below (d : Nat) (r : Reg) : c.ea (below d r) = wsub .q (c.get r) d := by
  simp only [Cpu.ea, below, wrap, wsub, Width.bytes, Option.elim]
  omega

@[simp] theorem ea_scaled (r : Reg) (k : Nat) : c.ea (scaled r k) = c.get r * k % 2 ^ 64 := by
  simp only [Cpu.ea, scaled, wrap, Width.bytes, Option.elim]
  omega

@[simp] theorem wadd_l {x y : Nat} (h : x + y < 2 ^ 32) : wadd .l x y = x + y := Nat.mod_eq_of_lt h

@[simp] theorem wadd_q {x y : Nat} (h : x + y < 2 ^ 64) : wadd .q x y = x + y := Nat.mod_eq_of_lt h

@[simp] theorem wsub_l {x y : Nat} (h : y ≤ x) (hx : x < 2 ^ 32) : wsub .l x y = x - y := by
  simp only [wsub, Width.bytes]
  omega

@[simp] theorem wsub_q {x y : Nat} (h : y ≤ x) (hx : x < 2 ^ 64) : wsub .q x y = x - y := by
  simp only [wsub, Width.bytes]
  omega

@[simp] theorem wrap_q {x : Nat} (h : x < 2 ^ 64) : wrap .q x = x := by
  simp only [wrap, Width.bytes]
  omega

@[simp] theorem signed_l {x : Nat} (h : x < 2 ^ 31) : signed .l x = x := by
  simp only [signed, Width.bytes]
  omega

@[simp] theorem signed_l_mod (x : Nat) : signed .l (x % 4294967296) = signed .l x := by
  simp only [signed, Width.bytes]
  omega

theorem signed_wsub_l {x y : Nat} (hx : x < 2 ^ 31) (hy : y ≤ 2 ^ 31) : signed .l (wsub .l x y) = x - y := by
  simp only [signed, wsub, Width.bytes]
  omega

theorem le_compare (x y : Nat) : (c.compare w x y).le = decide (signed w x ≤ signed w y) := by
  have key : ((wsub w x y == 0) || (decide (signed w (wsub w x y) < 0) !=
      decide (signed w (wsub w x y) ≠ signed w x - signed w y))) = true ↔ signed w x ≤ signed w y := by
    cases w <;> simp only [signed, wsub, Width.bytes] <;> grind
  exact Bool.eq_iff_iff.mpr (key.trans decide_eq_true_iff.symm)

end Facts

/-! ## Runs -/

section Runs

variable {L : Type} [DecidableEq L] {text : List (Line L)} (A : Layout text)

theorem Reaches.trans {s t u : State} (h : Reaches text A s t) (h' : Reaches text A t u) : Reaches text A s u :=
  Relation.ReflTransGen.trans h h'

theorem reaches_step {k : Nat} {i : Instr L} (h : (instrs text)[k]? = some i) (c : Cpu) :
    Reaches text A ⟨A.addr k, c⟩ (next text A k c i) := by
  have hk : k < (instrs text).length := (List.getElem?_eq_some_iff.mp h).1
  apply Relation.ReflTransGen.single
  have hf : (List.range (instrs text).length).find? (fun j => A.addr j == A.addr k) = some k := by
    rw [List.find?_range_eq_some]
    refine ⟨by simp, List.mem_range.mpr hk, ?_⟩
    intro j hj
    simp only [Bool.not_eq_true', beq_eq_false_iff_ne, ne_eq]
    intro e
    have := A.inj j k (by omega) (by omega) e
    omega
  simp only [step, hf, h, Option.map_some]

theorem reaches_ops : ∀ (os : List Op) (k : Nat) (c : Cpu),
    os.map Instr.op <+: (instrs text).drop k →
    Reaches text A ⟨A.addr k, c⟩ ⟨A.addr (k + os.length), os.foldl Cpu.exec c⟩ := by
  intro os
  induction os with
  | nil => intro k c _; exact Relation.ReflTransGen.refl
  | cons o os ih =>
    intro k c h
    obtain ⟨rest, hr⟩ := h
    have hk : (instrs text)[k]? = some (.op o) := by
      rw [← Nat.add_zero k, ← List.getElem?_drop, ← hr]; rfl
    have hrest : os.map Instr.op <+: (instrs text).drop (k + 1) :=
      ⟨rest, by rw [← List.drop_drop, ← hr]; rfl⟩
    have h1 := ih (k + 1) (c.exec o) hrest
    rw [Nat.add_right_comm, Nat.add_assoc] at h1
    exact (reaches_step A hk c).trans A h1

section Jumps

variable {A} {k n : Nat} {l : L} {c : Cpu}

theorem reaches_jmp (hk : (instrs text)[k]? = some (.jmp l)) (hl : target text l = n) :
    Reaches text A ⟨A.addr k, c⟩ ⟨A.addr n, c⟩ := hl ▸ reaches_step A hk c

theorem reaches_jle (hk : (instrs text)[k]? = some (.jle l)) (hl : target text l = n) (h : c.le = true) :
    Reaches text A ⟨A.addr k, c⟩ ⟨A.addr n, c⟩ := by
  have hs := reaches_step A hk c
  rwa [next, h, if_pos rfl, hl] at hs

theorem reaches_jle_on (hk : (instrs text)[k]? = some (.jle l)) (h : c.le = false) :
    Reaches text A ⟨A.addr k, c⟩ ⟨A.addr (k + 1), c⟩ := by
  have hs := reaches_step A hk c
  rwa [next, h, if_neg Bool.false_ne_true] at hs

theorem reaches_jg (hk : (instrs text)[k]? = some (.jg l)) (hl : target text l = n) (h : c.le = false) :
    Reaches text A ⟨A.addr k, c⟩ ⟨A.addr n, c⟩ := by
  have hs := reaches_step A hk c
  rwa [next, h, if_neg Bool.false_ne_true, hl] at hs

theorem reaches_jg_on (hk : (instrs text)[k]? = some (.jg l)) (h : c.le = true) :
    Reaches text A ⟨A.addr k, c⟩ ⟨A.addr (k + 1), c⟩ := by
  have hs := reaches_step A hk c
  rwa [next, h, if_pos rfl] at hs

end Jumps

/-! A run leaves alone what its log does not name. -/

def Logged (c c' : Cpu) : Prop :=
  ∃ log, c'.written = log ++ c.written ∧
    ∀ x, (∀ w ∈ log, ¬ (w.1 ≤ x ∧ x < w.1 + w.2)) → c'.mem x = c.mem x

theorem Logged.refl (c : Cpu) : Logged c c := ⟨[], rfl, fun _ _ => rfl⟩

theorem Logged.trans {c d e : Cpu} (h : Logged c d) (h' : Logged d e) : Logged c e := by
  obtain ⟨l, hl, hm⟩ := h
  obtain ⟨l', hl', hm'⟩ := h'
  refine ⟨l' ++ l, by rw [hl', hl, List.append_assoc], ?_⟩
  intro x hx
  rw [hm' x (fun w hw => hx w (List.mem_append_left _ hw)), hm x (fun w hw => hx w (List.mem_append_right _ hw))]

theorem put_logged (c : Cpu) (n a v : Nat) : Logged c (c.put n a v) := by
  refine ⟨[(a, n)], rfl, ?_⟩
  intro x hx
  have : ¬ (a ≤ x ∧ x < a + n) := hx (a, n) (List.mem_singleton_self _)
  simp [store, this]

theorem write_logged (c : Cpu) (w : Width) (v : Nat) (d : Dst) : Logged c (c.write w v d) := by
  cases d with
  | reg r => exact Logged.refl c
  | mem a => exact put_logged ..

theorem push_logged (c : Cpu) (v : Nat) : Logged c (c.push v) := put_logged (c.set .rsp _) ..

-- a register or the flags change neither the memory nor the log
theorem exec_logged (c : Cpu) (o : Op) : Logged c (c.exec o) := by
  cases o with
  | mov w s d => exact write_logged ..
  | add w s d => exact write_logged c w _ d
  | sub w s d => exact write_logged c w _ d
  | push r => exact push_logged ..
  | cmp w s d => exact Logged.refl c
  | lea a r => exact Logged.refl c
  | cltq => exact Logged.refl c
  | pop r => exact Logged.refl c
  | leave => exact Logged.refl c

theorem next_logged (k : Nat) (c : Cpu) (i : Instr L) : Logged c (next text A k c i).cpu := by
  cases i with
  | op o => exact exec_logged c o
  | call l => exact push_logged ..
  | jmp l => exact Logged.refl c
  | jle l => exact Logged.refl c
  | jg l => exact Logged.refl c
  | ret => exact Logged.refl c

theorem step_logged {s t : State} (h : step text A s = some t) : Logged s.cpu t.cpu := by
  unfold step at h
  split at h
  · cases h
  · obtain ⟨i, _, rfl⟩ := Option.map_eq_some_iff.mp h
    exact next_logged A ..

theorem reaches_logged {s t : State} (h : Reaches text A s t) : Logged s.cpu t.cpu := by
  induction h with
  | refl => exact Logged.refl _
  | tail _ h ih => exact ih.trans (step_logged A h)

end Runs

end CS5600.Lib.X86
