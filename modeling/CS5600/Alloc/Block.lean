/-
  CS5600.Alloc.Block — block headers in memory and the program break, as both allocators have
  them (`Assignment5_Memory/Allocator/part1/mymalloc.c`,
  `Assignment6_AdvancedMemory/starter/mymalloc.c`).

  `struct block { size_t size; int in_use; struct block* next; }` is 24 bytes with its fields at
  0, 8 and 16. A header is read from and written to the bytes of memory, so that two that
  overlap would spoil each other; `Agree` on its 24 bytes keeps all three fields.

  `header + BLOCK_SIZE` is pointer arithmetic on a `block*`: it moves by `BLOCK_SIZE` blocks,
  576 bytes (`payload_eq`). `sbrk` takes its argument as a signed number.
-/

import CS5600.Lib.Bytes
import CS5600.Lib.Chains

namespace CS5600.Alloc.Block

open CS5600.Lib.Bytes CS5600.Lib.Chains

/-- `sizeof(block)` -/
def blockSize : Nat := 24

def size (m : Mem) (h : Nat) : Nat := load m 8 h

def inUse (m : Mem) (h : Nat) : Nat := load m 4 (h + 8)

def next (m : Mem) (h : Nat) : Nat := load m 8 (h + 16)

def setSize (m : Mem) (h v : Nat) : Mem := store m 8 h v

def setInUse (m : Mem) (h v : Nat) : Mem := store m 4 (h + 8) v

def setNext (m : Mem) (h v : Nat) : Mem := store m 8 (h + 16) v

/-- `p + n` for a `block* p` -/
def ptrAdd (p n : Nat) : Nat := p + n * blockSize

/-- `p - n` for a `block* p` -/
def ptrSub (p n : Nat) : Nat := p - n * blockSize

/-- The pointer `mymalloc` returns for a header. -/
def payload (header : Nat) : Nat := ptrAdd header blockSize

/-- The header `myfree` finds for a pointer. -/
def headerOf (ptr : Nat) : Nat := ptrSub ptr blockSize

/-- The stores that make a new header: `size`, `in_use`, and no successor. -/
def placeHeader (m : Mem) (h sz used : Nat) : Mem := setNext (setInUse (setSize m h sz) h used) h 0

/-- A `size_t` passed where a signed 64-bit number is expected. -/
def signed (n : Nat) : Int := if n < 2 ^ 63 then n else (n : Int) - 2 ^ 64

/-- The addresses the program break may take; user space ends at `2 ^ 47`. -/
structure Heap where
  lo : Nat
  hi : Nat
  pos : 0 < lo
  le : lo ≤ hi
  top : hi ≤ 2 ^ 47

/-- The new break, or `none` where `sbrk` answers `(void*)-1`. -/
def sbrk (H : Heap) (brk : Nat) (inc : Int) : Option Nat :=
  if (H.lo : Int) ≤ brk + inc ∧ brk + inc ≤ H.hi then some (brk + inc).toNat else none

/-! ## Headers -/

theorem payload_eq (h : Nat) : payload h = h + 576 := rfl

@[simp] theorem headerOf_payload (h : Nat) : headerOf (payload h) = h := by
  simp [headerOf, payload, ptrSub, ptrAdd]

theorem payload_inj {h h' : Nat} (e : payload h = payload h') : h = h' := by
  simpa [payload_eq] using e

theorem payload_ne_zero (h : Nat) : payload h ≠ 0 := by rw [payload_eq]; omega

section Fields

variable {m m' : Mem} {h : Nat}

theorem size_agree (e : Agree m m' h 24) : size m h = size m' h := load_agree (e.sub (by omega) (by omega))

theorem inUse_agree (e : Agree m m' h 24) : inUse m h = inUse m' h := load_agree (e.sub (by omega) (by omega))

theorem next_agree (e : Agree m m' h 24) : next m h = next m' h := load_agree (e.sub (by omega) (by omega))

variable (m h)

@[simp] theorem size_setSize (v : Nat) : size (setSize m h v) h = v % 2 ^ 64 := load_store m 8 h v

@[simp] theorem inUse_setInUse (v : Nat) : inUse (setInUse m h v) h = v % 2 ^ 32 := load_store m 4 (h + 8) v

@[simp] theorem next_setNext (v : Nat) : next (setNext m h v) h = v % 2 ^ 64 := load_store m 8 (h + 16) v

@[simp] theorem size_setInUse (v : Nat) : size (setInUse m h v) h = size m h :=
  load_store_apart m v (Or.inr (by omega))

@[simp] theorem size_setNext (v : Nat) : size (setNext m h v) h = size m h :=
  load_store_apart m v (Or.inr (by omega))

@[simp] theorem inUse_setSize (v : Nat) : inUse (setSize m h v) h = inUse m h :=
  load_store_apart m v (Or.inl (by omega))

@[simp] theorem inUse_setNext (v : Nat) : inUse (setNext m h v) h = inUse m h :=
  load_store_apart m v (Or.inr (by omega))

@[simp] theorem next_setSize (v : Nat) : next (setSize m h v) h = next m h :=
  load_store_apart m v (Or.inl (by omega))

@[simp] theorem next_setInUse (v : Nat) : next (setInUse m h v) h = next m h :=
  load_store_apart m v (Or.inl (by omega))

end Fields

section Frames

variable (m : Mem) {h b k : Nat} (v : Nat)

theorem setSize_agree (a : Apart h 24 b k) : Agree (setSize m h v) m b k :=
  store_agree m v (by rcases a with a | a; exact Or.inl (by omega); exact Or.inr (by omega))

theorem setInUse_agree (a : Apart h 24 b k) : Agree (setInUse m h v) m b k :=
  store_agree m v (by rcases a with a | a; exact Or.inl (by omega); exact Or.inr (by omega))

theorem setNext_agree (a : Apart h 24 b k) : Agree (setNext m h v) m b k :=
  store_agree m v (by rcases a with a | a; exact Or.inl (by omega); exact Or.inr (by omega))

theorem placeHeader_agree (sz used : Nat) (a : Apart h 24 b k) : Agree (placeHeader m h sz used) m b k :=
  (setNext_agree _ _ a).trans ((setInUse_agree _ _ a).trans (setSize_agree _ _ a))

/-! A field that is not the one written, of the same header or of one apart. -/

variable (hap : b ≠ h → Apart h 24 b 24)
include hap

theorem size_setInUse_any : size (setInUse m h v) b = size m b := by
  by_cases e : b = h
  · rw [e, size_setInUse]
  · exact size_agree (setInUse_agree _ _ (hap e))

theorem next_setInUse_any : next (setInUse m h v) b = next m b := by
  by_cases e : b = h
  · rw [e, next_setInUse]
  · exact next_agree (setInUse_agree _ _ (hap e))

theorem size_setNext_any : size (setNext m h v) b = size m b := by
  by_cases e : b = h
  · rw [e, size_setNext]
  · exact size_agree (setNext_agree _ _ (hap e))

theorem inUse_setNext_any : inUse (setNext m h v) b = inUse m b := by
  by_cases e : b = h
  · rw [e, inUse_setNext]
  · exact inUse_agree (setNext_agree _ _ (hap e))

end Frames

theorem placeHeader_fields (m : Mem) (h sz used : Nat) :
    size (placeHeader m h sz used) h = sz % 2 ^ 64 ∧ inUse (placeHeader m h sz used) h = used % 2 ^ 32 ∧
      next (placeHeader m h sz used) h = 0 := by
  simp [placeHeader]

/-- A request that stays positive as a signed number moves the break by it, if it may. -/
theorem sbrk_grow (H : Heap) {brk n : Nat} (hb : H.lo ≤ brk) (hn : n < 2 ^ 63) :
    sbrk H brk (signed (n % 2 ^ 64)) = if brk + n ≤ H.hi then some (brk + n) else none := by
  have h1 : n % 2 ^ 64 = n := Nat.mod_eq_of_lt (by omega)
  simp only [sbrk, signed, h1, hn, if_true]
  by_cases h : brk + n ≤ H.hi
  · rw [if_pos h, if_pos ⟨by omega, by omega⟩]; congr 1
  · rw [if_neg h, if_neg (by omega)]

/-- A request of `2 ^ 63` bytes or more is negative as a signed number, and lowers the break. -/
theorem sbrk_shrink (H : Heap) {brk n : Nat} (hb : brk ≤ H.hi) (hn : 2 ^ 63 ≤ n) (hn' : n < 2 ^ 64) :
    sbrk H brk (signed (n % 2 ^ 64)) =
      if H.lo + (2 ^ 64 - n) ≤ brk then some (brk - (2 ^ 64 - n)) else none := by
  have h1 : n % 2 ^ 64 = n := Nat.mod_eq_of_lt hn'
  simp only [sbrk, signed, h1, Nat.not_lt.mpr hn, if_false]
  by_cases h : H.lo + (2 ^ 64 - n) ≤ brk
  · rw [if_pos h, if_pos ⟨by omega, by omega⟩]; congr 1; omega
  · rw [if_neg h, if_neg (by omega)]

end CS5600.Alloc.Block
