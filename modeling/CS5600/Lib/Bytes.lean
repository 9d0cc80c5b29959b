/-
  CS5600.Lib.Bytes — a byte-addressed memory with little-endian words.

  `load m n a` reads the `n` bytes at `a` as a number, `store m n a v` writes the low `n` bytes
  of `v` there. A read-back gives the value modulo `256 ^ n` (`load_store`); what a write leaves
  alone is said by `Agree`: two memories hold the same bytes in a range. Ranges are a start and
  a length; `Apart` is that two of them share no byte.
-/

import Mathlib

namespace CS5600.Lib.Bytes

abbrev Mem := Nat → UInt8

def load (m : Mem) : Nat → Nat → Nat
  | 0, _ => 0
  | n + 1, a => (m a).toNat + 256 * load m n (a + 1)

def store (m : Mem) (n a v : Nat) : Mem :=
  fun x => if a ≤ x ∧ x < a + n then UInt8.ofNat (v / 256 ^ (x - a)) else m x

/-- The ranges of `n` bytes at `a` and `k` bytes at `b` share none. -/
def Apart (a n b k : Nat) : Prop := a + n ≤ b ∨ b + k ≤ a

instance (a n b k : Nat) : Decidable (Apart a n b k) := inferInstanceAs (Decidable (_ ∨ _))

theorem Apart.symm {a n b k : Nat} (h : Apart a n b k) : Apart b k a n := Or.symm h

/-- `m` and `m'` hold the same `n` bytes at `a`. -/
def Agree (m m' : Mem) (a n : Nat) : Prop := ∀ x, a ≤ x → x < a + n → m x = m' x

theorem Agree.refl (m : Mem) (a n : Nat) : Agree m m a n := fun _ _ _ => rfl

theorem Agree.symm {m m' : Mem} {a n : Nat} (h : Agree m m' a n) : Agree m' m a n :=
  fun x h1 h2 => (h x h1 h2).symm

theorem Agree.trans {m m' m'' : Mem} {a n : Nat} (h : Agree m m' a n) (h' : Agree m' m'' a n) :
    Agree m m'' a n := fun x h1 h2 => (h x h1 h2).trans (h' x h1 h2)

theorem Agree.sub {m m' : Mem} {a n b k : Nat} (h : Agree m m' a n) (h1 : a ≤ b) (h2 : b + k ≤ a + n) :
    Agree m m' b k := fun x hx hx' => h x (by omega) (by omega)

theorem load_agree {m m' : Mem} : ∀ {n a : Nat}, Agree m m' a n → load m n a = load m' n a := by
  intro n
  induction n with
  | zero => intro a _; rfl
  | succ n ih =>
    intro a h
    simp only [load]
    rw [h a (Nat.le_refl a) (by omega), ih (h.sub (Nat.le_succ a) (by omega))]

theorem load_zero {m : Mem} : ∀ {n a : Nat}, (∀ x, a ≤ x → x < a + n → m x = 0) → load m n a = 0 := by
  intro n
  induction n with
  | zero => intro a _; rfl
  | succ n ih =>
    intro a h
    simp only [load]
    rw [h a (Nat.le_refl a) (by omega), ih (fun x h1 h2 => h x (by omega) (by omega))]
    rfl

/-- Bytes that spell `v` are read as `v`. -/
theorem load_spell {m : Mem} : ∀ {n a v : Nat}, (∀ i < n, m (a + i) = UInt8.ofNat (v / 256 ^ i)) →
    load m n a = v % 256 ^ n := by
  intro n
  induction n with
  | zero => intro a v _; simp [load, Nat.mod_one]
  | succ n ih =>
    intro a v h
    have h0 : (m a).toNat = v % 256 := by
      have := h 0 (by omega)
      simp only [Nat.add_zero, Nat.pow_zero, Nat.div_one] at this
      rw [this]; simp
    have hrest : load m n (a + 1) = v / 256 % 256 ^ n := by
      apply ih
      intro i hi
      rw [Nat.add_assoc, Nat.add_comm 1 i, h (i + 1) (by omega), Nat.div_div_eq_div_mul, Nat.pow_succ,
        Nat.mul_comm]
    simp only [load, h0, hrest]
    rw [Nat.pow_succ, Nat.mul_comm (256 ^ n) 256, Nat.mod_mul]

theorem store_agree (m : Mem) {n a : Nat} (v : Nat) {b k : Nat} (h : Apart a n b k) :
    Agree (store m n a v) m b k := by
  intro x h1 h2
  have : ¬ (a ≤ x ∧ x < a + n) := by rcases h with h | h <;> omega
  simp [store, this]

theorem Agree.store {m m' : Mem} {a n b k : Nat} (h : Agree m m' b k) (v : Nat) (hap : Apart a n b k) :
    Agree m (Bytes.store m' n a v) b k := h.trans (store_agree m' v hap).symm

theorem load_store (m : Mem) (n a v : Nat) : load (store m n a v) n a = v % 256 ^ n := by
  apply load_spell
  intro i hi
  have : a ≤ a + i ∧ a + i < a + n := by omega
  simp [store, this]

theorem load_store_apart (m : Mem) {n a : Nat} (v : Nat) {k b : Nat} (h : Apart a n b k) :
    load (store m n a v) k b = load m k b := load_agree (store_agree m v h)

/-- `load_store_apart` with its condition spelled out, for simp. -/
theorem load_store_off {m : Mem} {n a v k b : Nat} (h : a + n ≤ b ∨ b + k ≤ a) :
    load (store m n a v) k b = load m k b := load_store_apart m v h

theorem load_lt (m : Mem) : ∀ n a : Nat, load m n a < 256 ^ n := by
  intro n
  induction n with
  | zero => intro a; simp [load]
  | succ n ih =>
    intro a
    have h0 := (m a).toNat_lt
    have h1 := ih (a + 1)
    simp only [load, Nat.pow_succ]
    omega

theorem update_agree (m : Mem) {x : Nat} (v : UInt8) {b k : Nat} (h : ¬ (b ≤ x ∧ x < b + k)) :
    Agree (Function.update m x v) m b k := by
  intro y h1 h2
  have : y ≠ x := by intro e; subst e; exact h ⟨h1, h2⟩
  simp [Function.update_of_ne this]

end CS5600.Lib.Bytes
