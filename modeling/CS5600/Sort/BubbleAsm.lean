/-
  CS5600.Sort.BubbleAsm — `_swap` and `_sort` of Assignment3/bubblesort.s, and that they do what
  `sort` of bubblesort.c does.

  The listing is cut at its labels and jumps into blocks. `base` is the lowest byte a call of
  `_sort` writes on the stack, 88 bytes below the return address:

      base + 0   base + 8   base + 28  base + 32  base + 40   of `_swap`: b, a, t, %rbp, return
      base + 52  base + 56  base + 72  base + 76  base + 80   of `_sort`: size, array, j, i, %rbp
      base + 88                                               return address

  `_swap` keeps what it has below `%rsp`. `Body` is what the frame of `_sort` holds between two
  blocks; each block lemma says how it changes, and the two loops are inductions on the rounds
  that remain, against `sortInner` and `sortOuter`.
-/

import CS5600.Lib.X86
import CS5600.Sort.BubbleSort

namespace CS5600.Sort.BubbleAsm

open CS5600.Lib.Bytes CS5600.Lib.X86
open CS5600.Sort.BubbleSort

/-! ## The listing -/

inductive Label
  | swap | sort | L1 | L2 | L3 | L4 | L5
  deriving DecidableEq

def swapBody : List Op :=
  [.push .rbp,
   .mov .q (.reg .rsp) (.reg .rbp),
   .mov .q (.reg .rdi) (.mem (below 24 .rbp)),
   .mov .q (.reg .rsi) (.mem (below 32 .rbp)),
   .mov .q (.mem (below 24 .rbp)) (.reg .rax),
   .mov .l (.mem (ind .rax)) (.reg .rax),
   .mov .l (.reg .rax) (.mem (below 4 .rbp)),
   .mov .q (.mem (below 32 .rbp)) (.reg .rax),
   .mov .l (.mem (ind .rax)) (.reg .rdx),
   .mov .q (.mem (below 24 .rbp)) (.reg .rax),
   .mov .l (.reg .rdx) (.mem (ind .rax)),
   .mov .q (.mem (below 32 .rbp)) (.reg .rax),
   .mov .l (.mem (below 4 .rbp)) (.reg .rdx),
   .mov .l (.reg .rdx) (.mem (ind .rax)),
   .pop .rbp]

def sortEntry : List Op :=
  [.push .rbp,
   .mov .q (.reg .rsp) (.reg .rbp),
   .sub .q (.imm 32) (.reg .rsp),
   .mov .q (.reg .rdi) (.mem (below 24 .rbp)),
   .mov .l (.reg .rsi) (.mem (below 28 .rbp)),
   .mov .l (.imm 0) (.mem (below 4 .rbp))]

def clearJ : List Op := [.mov .l (.imm 0) (.mem (below 8 .rbp))]

def comparePair : List Op :=
  [.mov .l (.mem (below 8 .rbp)) (.reg .rax),
   .cltq,
   .lea (scaled .rax 4) .rdx,
   .mov .q (.mem (below 24 .rbp)) (.reg .rax),
   .add .q (.reg .rdx) (.reg .rax),
   .mov .l (.mem (ind .rax)) (.reg .rdx),
   .mov .l (.mem (below 8 .rbp)) (.reg .rax),
   .cltq,
   .add .q (.imm 1) (.reg .rax),
   .lea (scaled .rax 4) .rcx,
   .mov .q (.mem (below 24 .rbp)) (.reg .rax),
   .add .q (.reg .rcx) (.reg .rax),
   .mov .l (.mem (ind .rax)) (.reg .rax),
   .cmp .l (.reg .rax) (.reg .rdx)]

def swapArgs : List Op :=
  [.mov .l (.mem (below 8 .rbp)) (.reg .rax),
   .cltq,
   .add .q (.imm 1) (.reg .rax),
   .lea (scaled .rax 4) .rdx,
   .mov .q (.mem (below 24 .rbp)) (.reg .rax),
   .add .q (.reg .rax) (.reg .rdx),
   .mov .l (.mem (below 8 .rbp)) (.reg .rax),
   .cltq,
   .lea (scaled .rax 4) .rcx,
   .mov .q (.mem (below 24 .rbp)) (.reg .rax),
   .add .q (.reg .rcx) (.reg .rax),
   .mov .q (.reg .rdx) (.reg .rsi),
   .mov .q (.reg .rax) (.reg .rdi)]

def nextJ : List Op := [.add .l (.imm 1) (.mem (below 8 .rbp))]

def innerTest : List Op :=
  [.mov .l (.mem (below 4 .rbp)) (.reg .rax),
   .mov .l (.mem (below 28 .rbp)) (.reg .rdx),
   .sub .l (.reg .rax) (.reg .rdx),
   .mov .l (.reg .rdx) (.reg .rax),
   .sub .l (.imm 1) (.reg .rax),
   .cmp .l (.mem (below 8 .rbp)) (.reg .rax)]

def nextI : List Op := [.add .l (.imm 1) (.mem (below 4 .rbp))]

def outerTest : List Op :=
  [.mov .l (.mem (below 28 .rbp)) (.reg .rax),
   .sub .l (.imm 1) (.reg .rax),
   .cmp .l (.mem (below 4 .rbp)) (.reg .rax)]

def text : List (Line Label) := List.flatten
  [[.label .swap], ops swapBody, [.instr .ret],
   [.label .sort], ops sortEntry, [.instr (.jmp .L5)],
   [.label .L1], ops clearJ, [.instr (.jmp .L4)],
   [.label .L2], ops comparePair, [.instr (.jle .L3)],
   ops swapArgs, [.instr (.call .swap)],
   [.label .L3], ops nextJ,
   [.label .L4], ops innerTest, [.instr (.jg .L2)],
   ops nextI,
   [.label .L5], ops outerTest, [.instr (.jg .L1)],
   ops [.leave], [.instr .ret]]

/-! ## The call -/

/-- The array holds `l`. -/
def Ints (m : Mem) (a : Nat) (l : List Int) : Prop :=
  ∀ k (h : k < l.length), signed .l (load m 4 (a + 4 * k)) = l[k]

/-- Where the stack frame and the array of a call are: in the address space, and apart. -/
structure Site where
  base : Nat
  array : Nat
  size : Nat
  top : base + 96 ≤ 2 ^ 64
  size_lt : size < 2 ^ 31
  fits : array + 4 * size ≤ 2 ^ 64
  apart : Apart array (4 * size) base 96

/-- A range in the array or in the frame. -/
def Site.Owns (S : Site) (w : Nat × Nat) : Prop :=
  (S.array ≤ w.1 ∧ w.1 + w.2 ≤ S.array + 4 * S.size) ∨ (S.base ≤ w.1 ∧ w.1 + w.2 ≤ S.base + 88)

theorem Ints.agree {m m' : Mem} {a : Nat} {l : List Int} (h : Ints m a l) (hm : Agree m m' a (4 * l.length)) :
    Ints m' a l := by
  intro k hk
  rw [← h k hk, load_agree (hm.sub (by omega) (by omega))]

/-- What the frame of `_sort` holds between two blocks: `r` is the return address, `b` the
    caller's `%rbp`. -/
structure Body (S : Site) (r b i j : Nat) (l : List Int) (c : Cpu) : Prop where
  len : l.length = S.size
  rbp : c.get .rbp = S.base + 80
  rsp : c.get .rsp = S.base + 48
  size : load c.mem 4 (S.base + 52) = S.size
  array : load c.mem 8 (S.base + 56) = S.array
  j : load c.mem 4 (S.base + 72) = j
  i : load c.mem 4 (S.base + 76) = i
  saved : load c.mem 8 (S.base + 80) = b
  back : load c.mem 8 (S.base + 88) = r
  ints : Ints c.mem S.array l
  log : ∀ w ∈ c.written, S.Owns w

section Blocks

variable {A : Layout text} {S : Site} {r b i j : Nat} {l : List Int} {c d : Cpu}

theorem Body.same (h : Body S r b i j l c) (hm : d.mem = c.mem) (hw : d.written = c.written)
    (hb : d.get .rbp = c.get .rbp) (hs : d.get .rsp = c.get .rsp) : Body S r b i j l d := by
  obtain ⟨h1, h2, h3, h4, h5, h6, h7, h8, h9, h10, h11⟩ := h
  exact ⟨h1, hb.trans h2, hs.trans h3, hm ▸ h4, hm ▸ h5, hm ▸ h6, hm ▸ h7, hm ▸ h8, hm ▸ h9, hm ▸ h10, hw ▸ h11⟩

theorem Site.array_agree (S : Site) (m : Mem) {o n : Nat} (v : Nat) (h : o + n ≤ 96) :
    Agree m (store m n (S.base + o) v) S.array (4 * S.size) := by
  apply Agree.symm
  apply store_agree
  rcases S.apart with h' | h'
  · exact Or.inr (by omega)
  · exact Or.inl (by omega)

theorem Site.owns_frame (S : Site) {o n : Nat} (h : o + n ≤ 88) : S.Owns (S.base + o, n) := by
  right
  show S.base ≤ S.base + o ∧ S.base + o + n ≤ S.base + 88
  omega

/-- A store to one of the two counters keeps the rest of the frame and the array. -/
theorem Body.stored (h : Body S r b i j l c) {o v i' j' : Nat} (ho : o = 72 ∨ o = 76)
    (hm : d.mem = store c.mem 4 (S.base + o) v) (hw : d.written = (S.base + o, 4) :: c.written)
    (hb : d.get .rbp = c.get .rbp) (hs : d.get .rsp = c.get .rsp) (hj : load d.mem 4 (S.base + 72) = j')
    (hi : load d.mem 4 (S.base + 76) = i') : Body S r b i' j' l d := by
  obtain ⟨h1, h2, h3, h4, h5, -, -, h8, h9, h10, h11⟩ := h
  refine ⟨h1, by rw [hb, h2], by rw [hs, h3], ?_, ?_, hj, hi, ?_, ?_, ?_, ?_⟩
  · rw [hm, load_store_off (by omega), h4]
  · rw [hm, load_store_off (by omega), h5]
  · rw [hm, load_store_off (by omega), h8]
  · rw [hm, load_store_off (by omega), h9]
  · rw [hm]
    exact h10.agree (h1 ▸ S.array_agree c.mem v (by omega))
  · rw [hw, List.forall_mem_cons]
    exact ⟨S.owns_frame (by omega), h11⟩

theorem Body.store_j (h : Body S r b i j l c) {v : Nat} (hv : v < 2 ^ 32) (hm : d.mem = store c.mem 4 (S.base + 72) v)
    (hw : d.written = (S.base + 72, 4) :: c.written) (hb : d.get .rbp = c.get .rbp) (hs : d.get .rsp = c.get .rsp) :
    Body S r b i v l d := by
  apply h.stored (Or.inl rfl) hm hw hb hs
  · rw [hm, load_store, Nat.mod_eq_of_lt (by omega)]
  · rw [hm, load_store_off (by omega), h.i]

theorem Body.store_i (h : Body S r b i j l c) {v : Nat} (hv : v < 2 ^ 32) (hm : d.mem = store c.mem 4 (S.base + 76) v)
    (hw : d.written = (S.base + 76, 4) :: c.written) (hb : d.get .rbp = c.get .rbp) (hs : d.get .rsp = c.get .rsp) :
    Body S r b v j l d := by
  apply h.stored (Or.inr rfl) hm hw hb hs
  · rw [hm, load_store_off (by omega), h.j]
  · rw [hm, load_store, Nat.mod_eq_of_lt (by omega)]

/-! ## Blocks -/

theorem clearJ_body (h : Body S r b i j l c) : Body S r b i 0 l (clearJ.foldl Cpu.exec c) := by
  have htop := S.top
  apply h.store_j (by omega) <;> simp (disch := omega) [clearJ, h.rbp]

theorem nextJ_body (h : Body S r b i j l c) (hj : j < 2 ^ 31) :
    Body S r b i (j + 1) l (nextJ.foldl Cpu.exec c) := by
  have htop := S.top
  apply h.store_j (by omega) <;> simp (disch := omega) [nextJ, h.rbp, h.j]

theorem nextI_body (h : Body S r b i j l c) (hi : i < 2 ^ 31) :
    Body S r b (i + 1) j l (nextI.foldl Cpu.exec c) := by
  have htop := S.top
  apply h.store_i (by omega) <;> simp (disch := omega) [nextI, h.rbp, h.i]

theorem outerTest_body (h : Body S r b i j l c) : Body S r b i j l (outerTest.foldl Cpu.exec c) :=
  h.same (by simp [outerTest]) (by simp [outerTest]) (by simp [outerTest]) (by simp [outerTest])

theorem innerTest_body (h : Body S r b i j l c) : Body S r b i j l (innerTest.foldl Cpu.exec c) :=
  h.same (by simp [innerTest]) (by simp [innerTest]) (by simp [innerTest]) (by simp [innerTest])

theorem comparePair_body (h : Body S r b i j l c) : Body S r b i j l (comparePair.foldl Cpu.exec c) :=
  h.same (by simp [comparePair]) (by simp [comparePair]) (by simp [comparePair]) (by simp [comparePair])

theorem swapArgs_body (h : Body S r b i j l c) : Body S r b i j l (swapArgs.foldl Cpu.exec c) :=
  h.same (by simp [swapArgs]) (by simp [swapArgs]) (by simp [swapArgs]) (by simp [swapArgs])

/-- `jg .L1` jumps exactly when the C loop over `i` goes on, `jg .L2` when the one over `j` does,
    and `jle .L3` when the pair is left alone. -/
theorem outerTest_le (h : Body S r b i j l c) (hi : i < 2 ^ 31) :
    (outerTest.foldl Cpu.exec c).le = decide (¬ (i : Int) < S.size - 1) := by
  have htop := S.top
  have hn := S.size_lt
  have hs : signed .l (wsub .l S.size 1) = S.size - 1 := signed_wsub_l hn (by omega)
  simp (disch := omega) [outerTest, h.rbp, h.size, h.i, le_compare, Nat.mod_eq_of_lt, hs]

theorem innerTest_le (h : Body S r b i j l c) (hi : i < S.size) (hj : j < 2 ^ 31) :
    (innerTest.foldl Cpu.exec c).le = decide (¬ (j : Int) < S.size - i - 1) := by
  have htop := S.top
  have hn := S.size_lt
  simp (disch := omega) [innerTest, h.rbp, h.size, h.i, h.j, le_compare, Nat.mod_eq_of_lt]

theorem comparePair_le (h : Body S r b i j l c) (hj : j + 1 < l.length) :
    (comparePair.foldl Cpu.exec c).le = decide (¬ l[j] > l[j + 1]) := by
  have htop := S.top
  have hn := S.size_lt
  have hfits := S.fits
  have hlen := h.len
  have hx := h.ints j (by omega)
  have hy := h.ints (j + 1) hj
  rw [Nat.mul_comm] at hx hy
  simp (disch := omega) [comparePair, h.rbp, h.array, h.j, le_compare, Nat.mod_eq_of_lt, hx, hy]

theorem swapArgs_regs (h : Body S r b i j l c) (hj : j + 1 < l.length) :
    (swapArgs.foldl Cpu.exec c).get .rdi = S.array + 4 * j ∧
      (swapArgs.foldl Cpu.exec c).get .rsi = S.array + 4 * (j + 1) := by
  have htop := S.top
  have hn := S.size_lt
  have hfits := S.fits
  have hlen := h.len
  simp (disch := omega) [swapArgs, h.rbp, h.array, h.j, Nat.mod_eq_of_lt]
  omega

/-! ## `_swap` -/

theorem swapBody_run {F p q x y : Nat} (hF : F + 48 < 2 ^ 64) (hsp : c.get .rsp = F + 40) (hp : c.get .rdi = p)
    (hq : c.get .rsi = q) (hpF : p + 4 ≤ F ∨ F + 48 ≤ p) (hqF : q + 4 ≤ F ∨ F + 48 ≤ q) (hx : load c.mem 4 p = x)
    (hy : load c.mem 4 q = y) :
    (swapBody.foldl Cpu.exec c).get .rsp = F + 40 ∧ (swapBody.foldl Cpu.exec c).get .rbp = c.get .rbp ∧
      (swapBody.foldl Cpu.exec c).mem = store (store (store (store (store (store c.mem 8 (F + 32) (c.get .rbp))
        8 (F + 8) p) 8 F q) 4 (F + 28) x) 4 p y) 4 q x ∧
      (swapBody.foldl Cpu.exec c).written =
        (q, 4) :: (p, 4) :: (F + 28, 4) :: (F, 8) :: (F + 8, 8) :: (F + 32, 8) :: c.written := by
  have hxl : x < 2 ^ 32 := hx ▸ load_lt c.mem 4 p
  have hyl : y < 2 ^ 32 := hy ▸ load_lt c.mem 4 q
  have hbl := get_lt c .rbp
  have hpl : p < 2 ^ 64 := hp ▸ get_lt c .rdi
  have hql : q < 2 ^ 64 := hq ▸ get_lt c .rsi
  simp (disch := omega) [swapBody, hsp, hp, hq, hx, hy, load_store, load_store_off, Nat.mod_eq_of_lt]

/-- A call of `_swap` comes back to the next instruction with the two words exchanged; on the
    stack it uses 48 bytes. -/
theorem reaches_swap {k F p q : Nat} (hk : (instrs text)[k]? = some (.call .swap)) (hF : F + 48 < 2 ^ 64)
    (hsp : c.get .rsp = F + 48) (hp : c.get .rdi = p) (hq : c.get .rsi = q) (hpF : p + 4 ≤ F ∨ F + 48 ≤ p)
    (hqF : q + 4 ≤ F ∨ F + 48 ≤ q) :
    ∃ d m, Reaches text A ⟨A.addr k, c⟩ ⟨A.addr (k + 1), d⟩ ∧ d.get .rsp = F + 48 ∧ d.get .rbp = c.get .rbp ∧
      d.mem = store (store m 4 p (load c.mem 4 q)) 4 q (load c.mem 4 p) ∧
      (∀ a n, Apart F 48 a n → Agree c.mem m a n) ∧
      ∀ w ∈ d.written, w ∈ c.written ∨ w = (p, 4) ∨ w = (q, 4) ∨ (F ≤ w.1 ∧ w.1 + w.2 ≤ F + 48) := by
  generalize hx : load c.mem 4 p = x
  generalize hy : load c.mem 4 q = y
  generalize hr : (A.addr (k + 1)).toNat = r
  have hrl : r < 2 ^ 64 := hr ▸ (A.addr (k + 1)).toNat_lt
  have hpush : (c.push r).mem = store c.mem 8 (F + 40) r := by simp (disch := omega) [hsp, Nat.mod_eq_of_lt]
  have hlog : (c.push r).written = (F + 40, 8) :: c.written := by simp (disch := omega) [hsp, Nat.mod_eq_of_lt]
  have hrbp : (c.push r).get .rbp = c.get .rbp := by simp
  obtain ⟨h1, h2, h3, h4⟩ := swapBody_run (c := c.push r) hF (by simp (disch := omega) [hsp, Nat.mod_eq_of_lt])
    (by simpa using hp) (by simpa using hq) hpF hqF (by rw [hpush, load_store_off (by omega), hx])
    (by rw [hpush, load_store_off (by omega), hy])
  have hcall : Reaches text A ⟨A.addr k, c⟩ ⟨A.addr 0, c.push r⟩ := hr ▸ reaches_step A hk c
  have hbody := reaches_ops A swapBody 0 (c.push r) ⟨_, rfl⟩
  generalize swapBody.foldl Cpu.exec (c.push r) = e at h1 h2 h3 h4 hbody
  have hret : Reaches text A ⟨A.addr 15, e⟩ ⟨UInt64.ofNat e.top, e.drop⟩ := reaches_step A (i := .ret) rfl e
  have htop : UInt64.ofNat e.top = A.addr (k + 1) := by
    rw [Cpu.top, h1, h3, hpush, load_store_off (by omega), load_store_off (by omega), load_store_off (by omega),
      load_store_off (by omega), load_store_off (by omega), load_store_off (by omega), load_store,
      Nat.mod_eq_of_lt (by omega), ← hr, UInt64.ofNat_toNat]
  rw [htop] at hret
  refine ⟨e.drop, _, hcall.trans A (hbody.trans A hret), by simp (disch := omega) [h1, Nat.mod_eq_of_lt],
    by simp [h2], by rw [Cpu.drop, mem_set]; exact h3, ?_, ?_⟩
  · intro a n h
    rw [hpush]
    have hin : ∀ o m, o + m ≤ 48 → Apart (F + o) m a n := by
      intro o m ho
      rcases h with h | h
      · exact Or.inl (by omega)
      · exact Or.inr (by omega)
    apply Agree.store _ _ (hin 28 4 (by omega))
    apply Agree.store _ _ (hin 0 8 (by omega))
    apply Agree.store _ _ (hin 8 8 (by omega))
    apply Agree.store _ _ (hin 32 8 (by omega))
    exact (Agree.refl c.mem a n).store _ (hin 40 8 (by omega))
  · intro w hw
    rw [Cpu.drop, written_set, h4, hlog] at hw
    simp only [List.mem_cons] at hw
    rcases hw with rfl | rfl | rfl | rfl | rfl | rfl | rfl | hw
    · exact Or.inr (Or.inr (Or.inl rfl))
    · exact Or.inr (Or.inl rfl)
    all_goals first | exact Or.inl hw | exact Or.inr (Or.inr (Or.inr (by dsimp only; omega)))

/-! ## The swap of a pair -/

theorem Ints.exchange {m : Mem} {a j : Nat} {l : List Int} (h : Ints m a l) (hj : j + 1 < l.length) {x y : Nat}
    (hx : signed .l x = l[j]) (hy : signed .l y = l[j + 1]) :
    Ints (store (store m 4 (a + 4 * j) y) 4 (a + 4 * (j + 1)) x) a ((l.set j l[j + 1]).set (j + 1) l[j]) := by
  intro k hk
  have hk' : k < l.length := by simpa using hk
  by_cases e1 : k = j + 1
  · subst e1
    simp [load_store, hx]
  · rw [load_store_off (by omega), List.getElem_set_ne (Ne.symm e1)]
    by_cases e2 : k = j
    · subst e2
      simp [load_store, hy]
    · rw [load_store_off (by omega), List.getElem_set_ne (Ne.symm e2)]
      exact h k hk'

theorem reaches_exchange (h : Body S r b i j l c) (hj : j + 1 < l.length) :
    ∃ d, Reaches text A ⟨A.addr 40, c⟩ ⟨A.addr 54, d⟩ ∧
      Body S r b i j ((l.set j l[j + 1]).set (j + 1) l[j]) d := by
  have hlen := h.len
  have htop := S.top
  have hap := S.apart
  have hargs := reaches_ops A swapArgs 40 c ⟨_, rfl⟩
  have hb := swapArgs_body h
  obtain ⟨hdi, hsi⟩ := swapArgs_regs h hj
  generalize swapArgs.foldl Cpu.exec c = e at hargs hb hdi hsi
  obtain ⟨d, m, hrun, hsp, hbp, hmem, hagree, hlog⟩ := reaches_swap (A := A) (k := 53) rfl (by omega) hb.rsp hdi hsi
    (by rcases hap with hap | hap <;> omega) (by rcases hap with hap | hap <;> omega)
  have hframe : ∀ o n, 48 ≤ o → o + n ≤ 96 → load d.mem n (S.base + o) = load e.mem n (S.base + o) := by
    intro o n ho hn
    rw [hmem, load_store_off (by rcases hap with hap | hap <;> omega),
      load_store_off (by rcases hap with hap | hap <;> omega), load_agree (hagree _ _ (Or.inl (by omega)))]
  have hints : Ints m S.array l := hb.ints.agree (hagree _ _ (by
    rcases hap with hap | hap
    · exact Or.inr (by omega)
    · exact Or.inl (by omega)))
  refine ⟨d, hargs.trans A hrun, ?_⟩
  refine ⟨by simpa using hlen, hbp.trans hb.rbp, hsp, (hframe 52 4 (by omega) (by omega)).trans hb.size,
    (hframe 56 8 (by omega) (by omega)).trans hb.array, (hframe 72 4 (by omega) (by omega)).trans hb.j,
    (hframe 76 4 (by omega) (by omega)).trans hb.i, (hframe 80 8 (by omega) (by omega)).trans hb.saved,
    (hframe 88 8 (by omega) (by omega)).trans hb.back, ?_, ?_⟩
  · rw [hmem]
    exact hints.exchange hj (hb.ints j (by omega)) (hb.ints (j + 1) hj)
  · intro w hw
    rcases hlog w hw with hw | rfl | rfl | hw
    · exact hb.log w hw
    · exact Or.inl (by dsimp only; omega)
    · exact Or.inl (by dsimp only; omega)
    · exact Or.inr (by omega)

/-! ## The loops -/

/-- One round of the loop over `j`, from `.L4` back to it. -/
theorem reaches_round (h : Body S r b i j l c) (hj : j + 1 < l.length) (hlt : (j : Int) < S.size - i - 1) :
    ∃ d, Reaches text A ⟨A.addr 55, c⟩ ⟨A.addr 55, d⟩ ∧
      Body S r b i (j + 1) (if l[j] > l[j + 1] then (l.set j l[j + 1]).set (j + 1) l[j] else l) d := by
  have hn := S.size_lt
  have hlen := h.len
  have htest := reaches_ops A innerTest 55 c ⟨_, rfl⟩
  have h1 := innerTest_body h
  have hle := innerTest_le h (by omega) (by omega)
  generalize innerTest.foldl Cpu.exec c = c1 at htest h1 hle
  have hcmp := reaches_ops A comparePair 25 c1 ⟨_, rfl⟩
  have h2 := comparePair_body h1
  have hle2 := comparePair_le h1 hj
  generalize comparePair.foldl Cpu.exec c1 = c2 at hcmp h2 hle2
  have hjump : Reaches text A ⟨A.addr 61, c1⟩ ⟨A.addr 25, c1⟩ :=
    reaches_jg (l := .L2) rfl rfl (by rw [hle]; exact decide_eq_false (not_not_intro hlt))
  have hto : Reaches text A ⟨A.addr 55, c⟩ ⟨A.addr 39, c2⟩ := htest.trans A (hjump.trans A hcmp)
  -- both ways come to `.L3`
  have hL3 : ∃ c3, Reaches text A ⟨A.addr 39, c2⟩ ⟨A.addr 54, c3⟩ ∧
      Body S r b i j (if l[j] > l[j + 1] then (l.set j l[j + 1]).set (j + 1) l[j] else l) c3 := by
    by_cases hgt : l[j] > l[j + 1]
    · obtain ⟨c3, hrun, h3⟩ := reaches_exchange (A := A) h2 hj
      rw [if_pos hgt]
      have hon : Reaches text A ⟨A.addr 39, c2⟩ ⟨A.addr 40, c2⟩ :=
        reaches_jle_on (l := .L3) rfl (by rw [hle2]; exact decide_eq_false (not_not_intro hgt))
      exact ⟨c3, hon.trans A hrun, h3⟩
    · rw [if_neg hgt]
      exact ⟨c2, reaches_jle (l := .L3) rfl rfl (by rw [hle2]; exact decide_eq_true hgt), h2⟩
  obtain ⟨c3, hrun, h3⟩ := hL3
  have hnext := reaches_ops A nextJ 54 c3 ⟨_, rfl⟩
  exact ⟨_, hto.trans A (hrun.trans A hnext), nextJ_body h3 (by omega)⟩

/-- The loop over `j` with `k` rounds to go. -/
theorem reaches_inner : ∀ (k : Nat) {j : Nat} {l : List Int} {c : Cpu}, k + j + i + 1 = S.size → Body S r b i j l c →
    ∃ d l', Reaches text A ⟨A.addr 55, c⟩ ⟨A.addr 62, d⟩ ∧ sortInner l S.size i j = some l' ∧
      Body S r b i (j + k) l' d := by
  intro k
  induction k with
  | zero =>
    intro j l c hk h
    have hn := S.size_lt
    have hstop : ¬ (j : Int) < S.size - i - 1 := by omega
    have htest := reaches_ops A innerTest 55 c ⟨_, rfl⟩
    have hle := innerTest_le h (by omega) (by omega)
    exact ⟨_, l, htest.trans A (reaches_jg_on (l := .L2) rfl (by rw [hle]; exact decide_eq_true hstop)),
      sortInner_stop hstop, innerTest_body h⟩
  | succ k ih =>
    intro j l c hk h
    have hlen := h.len
    have hlt : (j : Int) < S.size - i - 1 := by omega
    obtain ⟨d, hrun, hd⟩ := reaches_round (A := A) h (by omega) hlt
    obtain ⟨e, l', hrest, hl', he⟩ := ih (by omega) hd
    refine ⟨e, l', hrun.trans A hrest, ?_, ?_⟩
    · rw [sortInner_step hlt (by omega)]
      exact hl'
    · rwa [show j + 1 + k = j + (k + 1) by omega] at he

/-- The loop over `i` with `k` rounds to go, the last one only testing. -/
theorem reaches_outer : ∀ (k : Nat) {i j : Nat} {l : List Int} {c : Cpu}, S.size ≤ k + i + 1 → i ≤ S.size →
    Body S r b i j l c →
    ∃ d l' i' j', Reaches text A ⟨A.addr 63, c⟩ ⟨A.addr 67, d⟩ ∧ sortOuter l S.size i = some l' ∧
      Body S r b i' j' l' d := by
  intro k
  induction k with
  | zero =>
    intro i j l c hk hi h
    have hn := S.size_lt
    have hstop : ¬ (i : Int) < S.size - 1 := by omega
    have htest := reaches_ops A outerTest 63 c ⟨_, rfl⟩
    have hle := outerTest_le h (by omega)
    exact ⟨_, l, i, j, htest.trans A (reaches_jg_on (l := .L1) rfl (by rw [hle]; exact decide_eq_true hstop)),
      sortOuter_stop hstop, outerTest_body h⟩
  | succ k ih =>
    intro i j l c hk hi h
    have hn := S.size_lt
    have htest := reaches_ops A outerTest 63 c ⟨_, rfl⟩
    have h1 := outerTest_body h
    have hle := outerTest_le h (by omega)
    generalize outerTest.foldl Cpu.exec c = c1 at htest h1 hle
    by_cases hlt : (i : Int) < S.size - 1
    · have hjump : Reaches text A ⟨A.addr 66, c1⟩ ⟨A.addr 23, c1⟩ :=
        reaches_jg (l := .L1) rfl rfl (by rw [hle]; exact decide_eq_false (not_not_intro hlt))
      have hclear := reaches_ops A clearJ 23 c1 ⟨_, rfl⟩
      have hL4 : Reaches text A ⟨A.addr 24, clearJ.foldl Cpu.exec c1⟩ ⟨A.addr 55, clearJ.foldl Cpu.exec c1⟩ :=
        reaches_jmp (l := .L4) rfl rfl
      have hto := htest.trans A (hjump.trans A (hclear.trans A hL4))
      obtain ⟨d, l1, hin, hl1, hd⟩ := reaches_inner (A := A) (S.size - i - 1) (by omega) (clearJ_body h1)
      have hnext := reaches_ops A nextI 62 d ⟨_, rfl⟩
      obtain ⟨e, l2, i', j', hrest, hl2, he⟩ := ih (by omega) (by omega) (nextI_body hd (by omega))
      refine ⟨e, l2, i', j', hto.trans A (hin.trans A (hnext.trans A hrest)), ?_, he⟩
      rw [sortOuter_step hlt hl1, hl2]
    · exact ⟨c1, l, i, j, htest.trans A (reaches_jg_on (l := .L1) rfl (by rw [hle]; exact decide_eq_true hlt)),
        sortOuter_stop hlt, h1⟩

/-! ## The whole call -/

/-- At the first instruction of `_sort`, called with the array and its length: the return
    address is on top of the stack and nothing has been written. -/
structure Entry (A : Layout text) (S : Site) (l : List Int) (s : State) : Prop where
  rip : s.rip = A.addr (target text .sort)
  rsp : s.cpu.get .rsp = S.base + 88
  rdi : s.cpu.get .rdi = S.array
  esi : s.cpu.get .rsi % 2 ^ 32 = S.size
  len : l.length = S.size
  ints : Ints s.cpu.mem S.array l
  log : s.cpu.written = []

theorem entry_body {s : State} (h : Entry A S l s) :
    ∃ j, Body S s.cpu.top (s.cpu.get .rbp) 0 j l (sortEntry.foldl Cpu.exec s.cpu) := by
  have htop := S.top
  have hn := S.size_lt
  have ha : S.array < 2 ^ 64 := h.rdi ▸ get_lt s.cpu .rdi
  have hb := get_lt s.cpu .rbp
  have hsz : s.cpu.get .rsi % 4294967296 = S.size := h.esi
  have hmem : (sortEntry.foldl Cpu.exec s.cpu).mem = store (store (store (store s.cpu.mem 8 (S.base + 80) (s.cpu.get .rbp))
      8 (S.base + 56) S.array) 4 (S.base + 52) S.size) 4 (S.base + 76) 0 := by
    simp (disch := omega) [sortEntry, h.rsp, h.rdi, hsz, Nat.mod_eq_of_lt]
  have hlog : (sortEntry.foldl Cpu.exec s.cpu).written =
      [(S.base + 76, 4), (S.base + 52, 4), (S.base + 56, 8), (S.base + 80, 8)] := by
    simp (disch := omega) [sortEntry, h.rsp, h.log, Nat.mod_eq_of_lt]
  refine ⟨_, h.len, ?_, ?_, ?_, ?_, rfl, ?_, ?_, ?_, ?_, ?_⟩
  · simp (disch := omega) [sortEntry, h.rsp, Nat.mod_eq_of_lt]
  · simp (disch := omega) [sortEntry, h.rsp, Nat.mod_eq_of_lt]
  · rw [hmem, load_store_off (by omega), load_store, Nat.mod_eq_of_lt (by omega)]
  · rw [hmem, load_store_off (by omega), load_store_off (by omega), load_store, Nat.mod_eq_of_lt (by omega)]
  · rw [hmem, load_store, Nat.zero_mod]
  · rw [hmem, load_store_off (by omega), load_store_off (by omega), load_store_off (by omega), load_store,
      Nat.mod_eq_of_lt (by omega)]
  · rw [hmem, load_store_off (by omega), load_store_off (by omega), load_store_off (by omega),
      load_store_off (by omega), Cpu.top, h.rsp]
  · rw [hmem]
    apply h.ints.agree
    rw [h.len]
    exact (((S.array_agree _ _ (by omega)).trans (S.array_agree _ _ (by omega))).trans
      (S.array_agree _ _ (by omega))).trans (S.array_agree _ _ (by omega))
  · rw [hlog]
    simp only [List.forall_mem_cons, List.not_mem_nil, false_implies, implies_true, and_true]
    exact ⟨S.owns_frame (by omega), S.owns_frame (by omega), S.owns_frame (by omega), S.owns_frame (by omega)⟩

theorem reaches_exit (h : Body S r b i j l c) (hb : b < 2 ^ 64) :
    ∃ d, Reaches text A ⟨A.addr 67, c⟩ ⟨UInt64.ofNat r, d⟩ ∧ d.mem = c.mem ∧ d.written = c.written ∧
      d.get .rsp = (S.base + 96) % 2 ^ 64 ∧ d.get .rbp = b := by
  have htop := S.top
  have hleave : Reaches text A ⟨A.addr 67, c⟩ ⟨A.addr 68, c.exec .leave⟩ := reaches_step A (i := .op .leave) rfl c
  have hsp : (c.exec .leave).get .rsp = S.base + 88 := by simp (disch := omega) [h.rbp, Nat.mod_eq_of_lt]
  have hbp : (c.exec .leave).get .rbp = b := by simp (disch := omega) [h.rbp, h.saved, Nat.mod_eq_of_lt]
  have hmem : (c.exec .leave).mem = c.mem := by simp
  have hlog : (c.exec .leave).written = c.written := by simp
  generalize c.exec .leave = e at hleave hsp hbp hmem hlog
  have hret : Reaches text A ⟨A.addr 68, e⟩ ⟨UInt64.ofNat e.top, e.drop⟩ := reaches_step A (i := .ret) rfl e
  rw [Cpu.top, hsp, hmem, h.back] at hret
  refine ⟨e.drop, hleave.trans A hret, by simp [hmem], by simp [hlog], ?_, by simp [hbp]⟩
  simp only [Cpu.drop, get_set, if_true, hsp, wadd, Width.bytes]
  omega

end Blocks

/-- `_sort` returns with the array as the C function leaves it; it writes in the array and below
    its return address only, and gives `%rsp` and `%rbp` back. -/
theorem sort_refines (A : Layout text) (S : Site) (l : List Int) (s : State) (h : Entry A S l s) :
    ∃ t l', Reaches text A s t ∧ t.rip = UInt64.ofNat s.cpu.top ∧
      sort l S.size = some l' ∧ l'.length = S.size ∧ Ints t.cpu.mem S.array l' ∧
      (∀ w ∈ t.cpu.written, S.Owns w) ∧ (∀ x, ¬ S.Owns (x, 1) → t.cpu.mem x = s.cpu.mem x) ∧
      t.cpu.get .rsp = (s.cpu.get .rsp + 8) % 2 ^ 64 ∧ t.cpu.get .rbp = s.cpu.get .rbp := by
  have hn := S.size_lt
  obtain ⟨j, hbody⟩ := entry_body h
  have hentry := reaches_ops A sortEntry 16 s.cpu ⟨_, rfl⟩
  have hjump : Reaches text A ⟨A.addr 22, sortEntry.foldl Cpu.exec s.cpu⟩ ⟨A.addr 63, sortEntry.foldl Cpu.exec s.cpu⟩ :=
    reaches_jmp (l := .L5) rfl rfl
  obtain ⟨d, l', i', j', hloop, hl', hd⟩ := reaches_outer (A := A) S.size (by omega) (by omega) hbody
  obtain ⟨e, hexit, hmem, hlog, hsp, hbp⟩ := reaches_exit (A := A) hd (get_lt ..)
  have hrun : Reaches text A s ⟨UInt64.ofNat s.cpu.top, e⟩ := by
    have hs : s = ⟨A.addr 16, s.cpu⟩ := by rw [show A.addr 16 = s.rip from h.rip.symm]
    rw [hs]
    exact hentry.trans A (hjump.trans A (hloop.trans A hexit))
  refine ⟨_, l', hrun, rfl, hl', hd.len, hmem ▸ hd.ints, hlog ▸ hd.log, ?_, by rw [h.rsp]; exact hsp, hbp⟩
  intro x hx
  obtain ⟨log, hw, hkeep⟩ := reaches_logged A hrun
  rw [h.log, List.append_nil] at hw
  apply hkeep x
  intro w hin hxw
  rcases hd.log w (by rw [← hlog, hw]; exact hin) with ho | ho
  · exact hx (Or.inl (by dsimp only; omega))
  · exact hx (Or.inr (by dsimp only; omega))

/-- One byte for each instruction, from address 0. -/
def packed : Layout text where
  addr := UInt64.ofNat
  inj := by
    intro i j hi hj e
    have hlen : (instrs text).length = 69 := rfl
    have := congrArg UInt64.toNat e
    rw [UInt64.toNat_ofNat', UInt64.toNat_ofNat'] at this
    omega

theorem sort_refines_pair :
    ∃ (S : Site) (s : State), S.size = 2 ∧ Entry packed S [2, 1] s ∧ ∃ t l', Reaches text packed s t ∧
      sort [2, 1] 2 = some l' ∧ Ints t.cpu.mem S.array l' := by
  let S : Site := ⟨4096, 8192, 2, by decide, by decide, by decide, by decide⟩
  let mem : Mem := fun x => if x = 8192 then 2 else if x = 8196 then 1 else 0
  let regs : Reg → UInt64 := fun r => if r = .rsp then 4184 else if r = .rdi then 8192 else if r = .rsi then 2 else 0
  let s : State := ⟨16, ⟨regs, mem, false, false, false, []⟩⟩
  have h : Entry packed S [2, 1] s := by
    refine ⟨rfl, rfl, rfl, rfl, rfl, ?_, rfl⟩
    intro k hk
    have hk' : k < 2 := hk
    interval_cases k <;> rfl
  obtain ⟨t, l', hrun, _, hl', _, hints, _⟩ := sort_refines packed S [2, 1] s h
  exact ⟨S, s, rfl, h, t, l', hrun, hl', hints⟩

end CS5600.Sort.BubbleAsm
