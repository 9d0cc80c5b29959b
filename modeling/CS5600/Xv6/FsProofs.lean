/-
  CS5600.Xv6.FsProofs — who owns the blocks of the file system (`Lab11_xv6/deliverables/fs.c`).

  Every block behind the metadata is free or at one place: block `bn` of the file of an inode, or the block that
  lists its blocks from the thirteenth on. `Good` says so of a disk and a table of the inodes, which may be
  ahead of those on the disk while a call is at work on one of them. `balloc` finds a block exactly while
  the places taken leave one (`Good.balloc`), and each function keeps `Good`.
-/

import CS5600.Lib.Ownership
import CS5600.Xv6.Fs

namespace CS5600.Xv6.Fs

open CS5600.Lib.Bytes CS5600.Lib.Extents CS5600.Lib.Packed CS5600.Lib.Ownership

variable {s t : St}

@[simp] theorem logWrite_sb (s : St) (b : Nat) (data : Mem) : (logWrite s b data).sb = s.sb := rfl

@[simp] theorem logWrite_disk (s : St) (b : Nat) (data : Mem) :
    (logWrite s b data).disk = Function.update s.disk b data := rfl

@[simp] theorem logWrite_logged (s : St) (b : Nat) (data : Mem) : (logWrite s b data).logged = b :: s.logged := rfl

/-! ## The layout -/

/-- The blocks before the first that `balloc` may give out. -/
def nmeta (sb : Superblock) : Nat := sb.size - sb.nblocks

structure Layout (sb : Superblock) : Prop where
  inodes : 1 < sb.inodestart
  bitmap : sb.inodestart + sb.ninodes / ipb + 1 ≤ sb.bmapstart
  data : sb.bmapstart + sb.size / bpb + 1 ≤ nmeta sb
  size : sb.size < 2 ^ 32

variable {sb : Superblock}

theorem Layout.iblock (L : Layout sb) {i : Nat} (hi : i < sb.ninodes) : 1 < iblock sb i ∧ iblock sb i < sb.bmapstart := by
  have hstart := L.inodes
  have hbitmap := L.bitmap
  have hdiv : i / ipb ≤ sb.ninodes / ipb := Nat.div_le_div_right (le_of_lt hi)
  unfold Fs.iblock
  generalize i / ipb = x at hdiv ⊢
  omega

theorem Layout.bblock (L : Layout sb) {b : Nat} (hb : b < sb.size) :
    sb.bmapstart ≤ bblock sb b ∧ bblock sb b < nmeta sb := by
  have hdata := L.data
  have hdiv : b / bpb ≤ sb.size / bpb := Nat.div_le_div_right (le_of_lt hb)
  unfold Fs.bblock
  generalize b / bpb = x at hdiv ⊢
  omega

theorem Layout.super_lt (L : Layout sb) : 1 < sb.bmapstart := by
  have hstart := L.inodes
  have hbitmap := L.bitmap
  generalize sb.ninodes / ipb = x at hbitmap
  omega

theorem Layout.nmeta_le (L : Layout sb) : sb.bmapstart ≤ nmeta sb := by
  have hdata := L.data
  generalize sb.size / bpb = x at hdata
  omega

theorem nmeta_le_size (sb : Superblock) : nmeta sb ≤ sb.size := Nat.sub_le ..

/-! ## The bitmap -/

def inUse (s : St) (b : Nat) : Bool := bit (s.disk (bblock s.sb b)) (b % bpb)

theorem bpb_pos : 0 < bpb := by decide

theorem eq_iff_bit (b c : Nat) : b = c ↔ b / bpb = c / bpb ∧ b % bpb = c % bpb := by
  constructor
  · intro h
    rw [h]
    exact ⟨rfl, rfl⟩
  · intro h
    rw [← Nat.div_add_mod b bpb, ← Nat.div_add_mod c bpb, h.1, h.2]

theorem freeBit_eq_some {i bi : Nat} (h : freeBit s (i * bpb) = some bi) :
    i * bpb + bi < s.sb.size ∧ inUse s (i * bpb + bi) = false := by
  unfold freeBit at h
  have hlt := List.mem_range.mp (List.mem_of_find?_eq_some h)
  have hfree := List.find?_some h
  have hdiv : (i * bpb + bi) / bpb = i := by
    rw [Nat.mul_comm, Nat.mul_add_div bpb_pos, Nat.div_eq_of_lt (by omega), Nat.add_zero]
  have hmod : (i * bpb + bi) % bpb = bi := by
    rw [Nat.mul_comm, Nat.mul_add_mod, Nat.mod_eq_of_lt (by omega)]
  refine ⟨by omega, ?_⟩
  rw [bblock, Nat.mul_div_cancel _ bpb_pos] at hfree
  unfold inUse bblock
  rw [hdiv, hmod]
  simpa using hfree

theorem freeBlock_eq_some {b : Nat} (h : freeBlock s = some b) : b < s.sb.size ∧ inUse s b = false := by
  obtain ⟨i, -, hi⟩ := List.exists_of_findSome?_eq_some h
  obtain ⟨bi, hbi, e⟩ := Option.map_eq_some_iff.mp hi
  rw [← e]
  exact freeBit_eq_some hbi

theorem freeBlock_eq_none (h : freeBlock s = none) {b : Nat} (hb : b < s.sb.size) : inUse s b = true := by
  have hmod := Nat.mod_lt b bpb_pos
  have hsplit := Nat.div_add_mod b bpb
  have hdiv : b / bpb < (s.sb.size + bpb - 1) / bpb := by
    rw [Nat.lt_iff_add_one_le, Nat.le_div_iff_mul_le bpb_pos, Nat.add_mul, Nat.mul_comm]
    omega
  have hnone := List.findSome?_eq_none_iff.mp h (b / bpb) (List.mem_range.mpr hdiv)
  rw [Option.map_eq_none_iff] at hnone
  have hbit := List.find?_eq_none.mp hnone (b % bpb) (List.mem_range.mpr (by rw [Nat.mul_comm]; omega))
  rw [bblock, Nat.mul_div_cancel _ bpb_pos] at hbit
  simpa [inUse, bblock] using hbit

theorem inUse_mark (s : St) (b c : Nat) : inUse (mark s b) c = (inUse s c || decide (b = c)) := by
  unfold inUse mark
  rw [logWrite_disk, logWrite_sb, Function.update_apply]
  by_cases e : c / bpb = b / bpb
  · have hblock : bblock s.sb c = bblock s.sb b := by rw [bblock, bblock, e]
    rw [if_pos hblock, hblock, bit_setBit]
    congr 1
    rw [decide_eq_decide, eq_iff_bit b c, e]
    exact ⟨fun h => ⟨rfl, h⟩, And.right⟩
  · have hblock : bblock s.sb c ≠ bblock s.sb b := by
      unfold bblock
      omega
    have hne : b ≠ c := fun h => e (by rw [h])
    simp [hblock, hne]

/-- What `bfree` does to a block in use. -/
def unmark (s : St) (b : Nat) : St :=
  logWrite s (bblock s.sb b) (clearBit (s.disk (bblock s.sb b)) (b % bpb))

theorem inUse_unmark (s : St) (b c : Nat) : inUse (unmark s b) c = (inUse s c && decide (b ≠ c)) := by
  unfold inUse unmark
  rw [logWrite_disk, logWrite_sb, Function.update_apply]
  by_cases e : c / bpb = b / bpb
  · have hblock : bblock s.sb c = bblock s.sb b := by rw [bblock, bblock, e]
    rw [if_pos hblock, hblock, bit_clearBit]
    congr 1
    rw [decide_eq_decide, ne_eq, ne_eq, eq_iff_bit b c, e]
    exact ⟨fun h h' => h h'.2, fun h h' => h ⟨rfl, h'⟩⟩
  · have hblock : bblock s.sb c ≠ bblock s.sb b := by
      unfold bblock
      omega
    have hne : b ≠ c := fun h => e (by rw [h])
    simp [hblock, hne]

theorem bfree_eq {b : Nat} (hsuper : readsb s.disk = s.sb) (hb : inUse s b = true) : bfree s b = .ok (unmark s b) := by
  unfold bfree unmark
  dsimp only
  rw [hsuper, if_neg]
  have hbit : bit (s.disk (bblock s.sb b)) (b % bpb) = true := hb
  rw [hbit]
  exact Bool.noConfusion

/-! ## Inodes on the disk -/

theorem dinodeAt_agree {m m' : Mem} {o : Nat} (h : Agree m m' o 64) : dinodeAt m o = dinodeAt m' o := by
  have hk : ∀ k : Fin (ndirect + 1), load m 4 (o + 12 + 4 * k) = load m' 4 (o + 12 + 4 * k) := by
    intro k
    have : (k : Nat) < 13 := k.isLt
    exact load_agree (h.sub (by omega) (by omega))
  unfold dinodeAt
  rw [load_agree (n := 2) (a := o) (h.sub (by omega) (by omega)),
    load_agree (n := 2) (a := o + 2) (h.sub (by omega) (by omega)),
    load_agree (n := 2) (a := o + 4) (h.sub (by omega) (by omega)),
    load_agree (n := 2) (a := o + 6) (h.sub (by omega) (by omega)),
    load_agree (n := 4) (a := o + 8) (h.sub (by omega) (by omega)), funext hk]

theorem putDinode_agree (m : Mem) {o b : Nat} (ip : Dinode) (h : Apart o 64 b 64) : Agree (putDinode m o ip) m b 64 := by
  have happ : ∀ x n, o ≤ x → x + n ≤ o + 64 → Apart x n b 64 := by
    intro x n h1 h2
    rcases h with h | h
    · exact .inl (by omega)
    · exact .inr (by omega)
  unfold putDinode
  refine (storeWords_agree _ _ (happ _ _ (by omega) (by simp only [ndirect]; omega))).trans ?_
  refine (store_agree _ _ (happ _ _ (by omega) (by omega))).trans ?_
  refine (store_agree _ _ (happ _ _ (by omega) (by omega))).trans ?_
  refine (store_agree _ _ (happ _ _ (by omega) (by omega))).trans ?_
  refine (store_agree _ _ (happ _ _ (by omega) (by omega))).trans ?_
  exact store_agree _ _ (happ _ _ (by omega) (by omega))

/-- Its numbers are `uint`s. -/
structure Dinode.Fits (ip : Dinode) : Prop where
  size : ip.size < 2 ^ 32
  addrs : ∀ k, ip.addrs k < 2 ^ 32

theorem load_words_off {m : Mem} {w a n k b : Nat} {f : Nat → Nat} (h : b + k ≤ a) :
    load (storeWords m w a n f) k b = load m k b := load_agree (storeWords_agree m f (.inr h))

theorem ofNat_load_store (m : Mem) (a : Nat) (v : UInt16) : UInt16.ofNat (load (store m 2 a v.toNat) 2 a) = v := by
  rw [load_store, show 256 ^ 2 = 2 ^ 16 from rfl, Nat.mod_eq_of_lt v.toNat_lt, UInt16.ofNat_toNat]

theorem dinodeAt_putDinode (m : Mem) (o : Nat) {ip : Dinode} (h : ip.Fits) : dinodeAt (putDinode m o ip) o = ip := by
  have haddrs : ∀ k : Fin (ndirect + 1), load (putDinode m o ip) 4 (o + 12 + 4 * k) = ip.addrs k := by
    intro k
    unfold putDinode
    dsimp only
    rw [load_storeWords _ _ _ k.isLt, dif_pos k.isLt]
    exact Nat.mod_eq_of_lt (h.addrs k)
  have hsize : load (putDinode m o ip) 4 (o + 8) = ip.size := by
    unfold putDinode
    dsimp only
    rw [load_words_off (by omega), load_store]
    exact Nat.mod_eq_of_lt h.size
  have hnlink : UInt16.ofNat (load (putDinode m o ip) 2 (o + 6)) = ip.nlink := by
    unfold putDinode
    dsimp only
    rw [load_words_off (by omega), load_store_off (by omega), ofNat_load_store]
  have hminor : UInt16.ofNat (load (putDinode m o ip) 2 (o + 4)) = ip.minor := by
    unfold putDinode
    dsimp only
    rw [load_words_off (by omega), load_store_off (by omega), load_store_off (by omega), ofNat_load_store]
  have hmajor : UInt16.ofNat (load (putDinode m o ip) 2 (o + 2)) = ip.major := by
    unfold putDinode
    dsimp only
    rw [load_words_off (by omega), load_store_off (by omega), load_store_off (by omega), load_store_off (by omega),
      ofNat_load_store]
  have htype : UInt16.ofNat (load (putDinode m o ip) 2 o) = ip.type := by
    unfold putDinode
    dsimp only
    rw [load_words_off (by omega), load_store_off (by omega), load_store_off (by omega), load_store_off (by omega),
      load_store_off (by omega), ofNat_load_store]
  unfold dinodeAt
  rw [htype, hmajor, hminor, hnlink, hsize, funext haddrs]

theorem dinode_congr {i : Nat} (hsb : t.sb = s.sb) (h : t.disk (iblock s.sb i) = s.disk (iblock s.sb i)) :
    dinode t i = dinode s i := by
  rw [dinode, dinode, hsb, h]

/-- Another inode of the block, or of another block. -/
theorem dinode_write_ne {i j : Nat} {data : Mem} (hne : j ≠ i)
    (h : ∀ b, Apart (i % ipb * 64) 64 b 64 → Agree data (s.disk (iblock s.sb i)) b 64) :
    dinode (logWrite s (iblock s.sb i) data) j = dinode s j := by
  unfold dinode
  rw [logWrite_disk, logWrite_sb, Function.update_apply]
  split
  · rename_i e
    rw [e]
    refine dinodeAt_agree (h _ ?_)
    have hdiv : j / ipb = i / ipb := by
      unfold iblock at e
      omega
    have hmod : j % ipb ≠ i % ipb := by
      intro hmod
      apply hne
      rw [← Nat.div_add_mod j ipb, ← Nat.div_add_mod i ipb, hdiv, hmod]
    unfold Apart
    omega
  · rfl

theorem dinode_iupdate (s : St) (i j : Nat) {ip : Dinode} (h : ip.Fits) :
    dinode (iupdate s i ip) j = if j = i then ip else dinode s j := by
  by_cases e : j = i
  · rw [if_pos e, e]
    unfold dinode iupdate
    rw [logWrite_disk, logWrite_sb, Function.update_self, dinodeAt_putDinode _ _ h]
  · rw [if_neg e]
    exact dinode_write_ne e fun b hb => putDinode_agree _ ip hb

/-! ## The blocks of files -/

/-- The index of the block that lists the others. -/
abbrev ind : Fin (ndirect + 1) := Fin.last ndirect

/-- Where block `bn` of a file is; 0 is nowhere. -/
def daddr (disk : Nat → Mem) (d : Dinode) (bn : Nat) : Nat :=
  if h : bn < ndirect then d.addrs ⟨bn, Nat.lt_succ_of_lt h⟩
  else if bn - ndirect < nindirect ∧ d.addrs ind ≠ 0 then load (disk (d.addrs ind)) 4 (4 * (bn - ndirect))
  else 0

/-- The blocks of a file; one that is nowhere reads as zeros. -/
def view (disk : Nat → Mem) (d : Dinode) (bn : Nat) : Mem :=
  if daddr disk d bn = 0 then fun _ => 0 else disk (daddr disk d bn)

/-- How many blocks a file has, and whether it has one that lists them. -/
structure Shape where
  data : Nat
  indirect : Bool

def Shape.blocks (x : Shape) : Nat := x.data + if x.indirect then 1 else 0

/-- Block `bn` of inode `i`, or the block that lists its blocks. -/
abbrev Place := (_ : Nat) × Option Nat

variable {tbl tbl' : Nat → Dinode} {sh sh' : Nat → Shape}

def own (s : St) (tbl : Nat → Dinode) (sh : Nat → Shape) : Place → Option Nat
  | ⟨i, some bn⟩ => if i < s.sb.ninodes ∧ bn < (sh i).data then some (daddr s.disk (tbl i) bn) else none
  | ⟨i, none⟩ => if i < s.sb.ninodes ∧ (sh i).indirect = true then some ((tbl i).addrs ind) else none

structure Good (s : St) (tbl : Nat → Dinode) (sh : Nat → Shape) : Prop where
  layout : Layout s.sb
  super : readsb s.disk = s.sb
  exact : Exact (· < nmeta s.sb) (own s tbl sh) (fun b => b < s.sb.size ∧ inUse s b = true)
  unmapped : ∀ i < s.sb.ninodes, ∀ bn, (sh i).data ≤ bn → daddr s.disk (tbl i) bn = 0
  direct : ∀ i < s.sb.ninodes, (sh i).indirect = false → (tbl i).addrs ind = 0

section Owners

variable {i bn b : Nat} {p : Place}

theorem Good.owned (h : Good s tbl sh) (hp : own s tbl sh p = some b) :
    nmeta s.sb ≤ b ∧ b < s.sb.size ∧ inUse s b = true :=
  ⟨Nat.le_of_not_lt (h.exact.apart p b hp), h.exact.in_use hp⟩

theorem Good.pos (h : Good s tbl sh) (hp : own s tbl sh p = some b) : b ≠ 0 := by
  have := (h.owned hp).1
  have := h.layout.super_lt
  have := h.layout.nmeta_le
  omega

theorem own_data (tbl : Nat → Dinode) (hi : i < s.sb.ninodes) (hbn : bn < (sh i).data) :
    own s tbl sh ⟨i, some bn⟩ = some (daddr s.disk (tbl i) bn) := if_pos ⟨hi, hbn⟩

theorem own_ind (tbl : Nat → Dinode) (hi : i < s.sb.ninodes) (h : (sh i).indirect = true) :
    own s tbl sh ⟨i, none⟩ = some ((tbl i).addrs ind) := if_pos ⟨hi, h⟩

theorem Good.indirect (h : Good s tbl sh) (hi : i < s.sb.ninodes) (hne : (tbl i).addrs ind ≠ 0) :
    (sh i).indirect = true := by
  cases hind : (sh i).indirect with
  | false => exact absurd (h.direct i hi hind) hne
  | true => rfl

theorem Good.mapped (h : Good s tbl sh) (hi : i < s.sb.ninodes) (hne : daddr s.disk (tbl i) bn ≠ 0) :
    bn < (sh i).data := by
  by_contra hge
  exact hne (h.unmapped i hi bn (Nat.le_of_not_lt hge))

theorem daddr_congr {disk disk' : Nat → Mem} {d : Dinode} (h : d.addrs ind ≠ 0 → disk' (d.addrs ind) = disk (d.addrs ind)) :
    daddr disk' d = daddr disk d := by
  funext bn
  unfold daddr
  split
  · rfl
  · by_cases e : d.addrs ind = 0
    · simp [e]
    · rw [h e]

/-- A file whose blocks are where they were, and as they were. -/
theorem view_congr {disk disk' : Nat → Mem} {d : Dinode} (hd : daddr disk' d = daddr disk d)
    (h : ∀ n, daddr disk d n ≠ 0 → disk' (daddr disk d n) = disk (daddr disk d n)) : view disk' d = view disk d := by
  funext n
  unfold view
  rw [hd]
  split
  · rfl
  · rename_i hne
    exact h n hne

theorem daddr_empty {d : Dinode} (h : d.addrs = fun _ => 0) (disk : Nat → Mem) (n : Nat) : daddr disk d n = 0 := by
  unfold daddr
  rw [h]
  split <;> simp

end Owners

/-! ## Counting -/

def total (sb : Superblock) (sh : Nat → Shape) : Nat := ∑ i ∈ Finset.range sb.ninodes, (sh i).blocks

theorem total_update (sb : Superblock) {i : Nat} (hi : i < sb.ninodes) (sh : Nat → Shape) (x : Shape) :
    total sb (Function.update sh i x) + (sh i).blocks = total sb sh + x.blocks := by
  have hmem : i ∈ Finset.range sb.ninodes := Finset.mem_range.mpr hi
  have hrest : ∑ j ∈ (Finset.range sb.ninodes).erase i, (Function.update sh i x j).blocks =
      ∑ j ∈ (Finset.range sb.ninodes).erase i, (sh j).blocks := by
    refine Finset.sum_congr rfl fun j hj => ?_
    rw [Function.update_of_ne (Finset.ne_of_mem_erase hj)]
  unfold total
  rw [← Finset.add_sum_erase _ _ hmem, ← Finset.add_sum_erase _ (fun i => (sh i).blocks) hmem, hrest, Function.update_self]
  omega

def Shape.places (x : Shape) : Finset (Option Nat) :=
  if x.indirect then Finset.insertNone (Finset.range x.data) else (Finset.range x.data).map Function.Embedding.some

theorem Shape.card_places (x : Shape) : x.places.card = x.blocks := by
  unfold places blocks
  cases x.indirect <;> simp

theorem mem_places {p : Place} :
    p ∈ (Finset.range s.sb.ninodes).sigma (fun i => (sh i).places) ↔ own s tbl sh p ≠ none := by
  obtain ⟨i, bn⟩ := p
  rw [Finset.mem_sigma, Finset.mem_range, Shape.places]
  cases bn with
  | none => cases hind : (sh i).indirect <;> simp [own, hind]
  | some bn => cases hind : (sh i).indirect <;> simp [own]

theorem Good.card (h : Good s tbl sh) :
    ((Finset.range s.sb.size).filter fun b => inUse s b = true).card = nmeta s.sb + total s.sb sh := by
  have hcount := h.exact.card (U := (Finset.range s.sb.size).filter fun b => inUse s b = true)
    (F := Finset.range (nmeta s.sb)) (T := (Finset.range s.sb.ninodes).sigma fun i => (sh i).places)
    (by simp) (by simp) (fun p => mem_places)
  rw [hcount, Finset.card_range, Finset.card_sigma, total]
  simp only [Shape.card_places]

/-! ## `balloc` -/

/-- Block `b` was free in `s`, and `balloc` has given it out. -/
structure Fresh (s t : St) (b : Nat) : Prop where
  sb : t.sb = s.sb
  above : nmeta s.sb ≤ b
  below : b < s.sb.size
  free : inUse s b = false
  zero : t.disk b = fun _ => 0
  same : ∀ x, nmeta s.sb ≤ x → x ≠ b → t.disk x = s.disk x
  super : readsb t.disk = readsb s.disk
  dinodes : ∀ i < s.sb.ninodes, dinode t i = dinode s i
  used : ∀ c < s.sb.size, inUse t c = (inUse s c || decide (b = c))
  logged : t.logged = b :: bblock s.sb b :: s.logged

theorem readsb_congr {disk disk' : Nat → Mem} (h : disk' 1 = disk 1) : readsb disk' = readsb disk := by
  unfold readsb
  rw [h]

theorem inUse_congr {c : Nat} (hsb : t.sb = s.sb) (h : t.disk (bblock s.sb c) = s.disk (bblock s.sb c)) :
    inUse t c = inUse s c := by
  rw [inUse, inUse, hsb, h]

theorem Good.fresh (h : Good s tbl sh) {b : Nat} (hb : b < s.sb.size) (hfree : inUse s b = false) :
    Fresh s (bzero (mark s b) b) b := by
  have habove : nmeta s.sb ≤ b := by
    by_contra hlt
    have := ((h.exact.exact b).mpr (.inl (Nat.lt_of_not_le hlt))).2
    rw [hfree] at this
    cases this
  have hbitmap := h.layout.bblock hb
  have hsuper := h.layout.super_lt
  have hmeta := h.layout.nmeta_le
  have hdisk : ∀ x, x ≠ b → x ≠ bblock s.sb b → (bzero (mark s b) b).disk x = s.disk x := by
    intro x h1 h2
    unfold bzero mark
    rw [logWrite_disk, Function.update_of_ne h1, logWrite_disk, Function.update_of_ne h2]
  refine ⟨rfl, habove, hb, hfree, Function.update_self .., fun x h1 h2 => hdisk x h2 (by omega),
    readsb_congr (hdisk 1 (by omega) (by omega)), fun i hi => ?_, fun c hc => ?_, rfl⟩
  · have hiblock := h.layout.iblock hi
    exact dinode_congr rfl (hdisk _ (by omega) (by omega))
  · have hcblock := h.layout.bblock hc
    rw [← inUse_mark]
    refine inUse_congr rfl ?_
    show (bzero (mark s b) b).disk (bblock s.sb c) = _
    unfold bzero
    rw [logWrite_disk, Function.update_of_ne (by omega)]
    rfl

/-- `balloc` finds a block exactly while the places taken leave one. -/
theorem Good.balloc (h : Good s tbl sh) :
    (nmeta s.sb + total s.sb sh < s.sb.size ∧ ∃ b t, balloc s = .ok (b, t) ∧ Fresh s t b) ∨
      (s.sb.size ≤ nmeta s.sb + total s.sb sh ∧ balloc s = .error .outOfBlocks) := by
  unfold Fs.balloc
  rw [← h.card]
  cases hfind : freeBlock s with
  | some b =>
    obtain ⟨hb, hfree⟩ := freeBlock_eq_some hfind
    refine .inl ⟨?_, b, _, rfl, h.fresh hb hfree⟩
    rw [← Finset.card_range s.sb.size]
    refine Finset.card_lt_card (Finset.ssubset_iff_subset_ne.mpr ⟨?_, ?_⟩)
    · rw [Finset.card_range]
      exact Finset.filter_subset ..
    · intro e
      rw [Finset.card_range] at e
      have hmem := Finset.mem_range.mpr hb
      rw [← e, Finset.mem_filter, hfree] at hmem
      cases hmem.2
  | none =>
    refine .inr ⟨?_, rfl⟩
    rw [Finset.filter_true_of_mem fun b hb => freeBlock_eq_none hfind (Finset.mem_range.mp hb), Finset.card_range]

/-! ## What a call does to the places -/

/-- The places of a file that a call may write to: those of its blocks with `bs`, and its list of blocks. -/
def Touches (i : Nat) (bs : Nat → Prop) (p : Place) : Prop := p = ⟨i, none⟩ ∨ ∃ bn, bs bn ∧ p = ⟨i, some bn⟩

/-- A call that works on the blocks `bs` of inode `i`. Blocks stay at their places; it has logged blocks at the places
    it may write to, and no more blocks of the bitmap than it has filled places. -/
structure Moved (i : Nat) (bs : Nat → Prop) (s : St) (tbl : Nat → Dinode) (sh : Nat → Shape) (t : St)
    (tbl' : Nat → Dinode) (sh' : Nat → Shape) : Prop where
  good : Good t tbl' sh'
  sb : t.sb = s.sb
  dinodes : ∀ j < s.sb.ninodes, dinode t j = dinode s j
  mono : ∀ p x, own s tbl sh p = some x → own t tbl' sh' p = some x
  logged : ∃ bm : Finset Nat, bm.card + total s.sb sh ≤ total s.sb sh' ∧ (∀ x ∈ bm, ∃ b < s.sb.size, x = bblock s.sb b) ∧
    ∀ x ∈ t.logged, x ∈ s.logged ∨ x ∈ bm ∨ ∃ p, Touches i bs p ∧ own t tbl' sh' p = some x

section Moves

variable {i : Nat} {bs bs' : Nat → Prop} {u : St} {tbl'' : Nat → Dinode} {sh'' : Nat → Shape}

theorem Moved.refl (h : Good s tbl sh) : Moved i bs s tbl sh s tbl sh :=
  ⟨h, rfl, fun _ _ => rfl, fun _ _ hp => hp, ∅, by simp, by simp, fun _ hx => .inl hx⟩

theorem Moved.trans (h : Moved i bs s tbl sh t tbl' sh') (h' : Moved i bs t tbl' sh' u tbl'' sh'') :
    Moved i bs s tbl sh u tbl'' sh'' := by
  obtain ⟨bm, hcard, hbm, hlogged⟩ := h.logged
  obtain ⟨bm', hcard', hbm', hlogged'⟩ := h'.logged
  rw [h.sb] at hcard' hbm'
  refine ⟨h'.good, h'.sb.trans h.sb, fun j hj => ?_, fun p x hp => h'.mono p x (h.mono p x hp), bm ∪ bm', ?_,
    fun x hx => (Finset.mem_union.mp hx).elim (hbm x) (hbm' x), ?_⟩
  · rw [h'.dinodes j (by rw [h.sb]; exact hj), h.dinodes j hj]
  · have := Finset.card_union_le bm bm'
    omega
  · intro x hx
    rw [Finset.mem_union]
    rcases hlogged' x hx with hx | hx | hx
    · rcases hlogged x hx with hx | hx | ⟨p, hp, hx⟩
      · exact .inl hx
      · exact .inr (.inl (.inl hx))
      · exact .inr (.inr ⟨p, hp, h'.mono p x hx⟩)
    · exact .inr (.inl (.inr hx))
    · exact .inr (.inr hx)

theorem Moved.mono_blocks (h : Moved i bs s tbl sh t tbl' sh') (hbs : ∀ bn, bs bn → bs' bn) :
    Moved i bs' s tbl sh t tbl' sh' := by
  obtain ⟨bm, hcard, hbm, hlogged⟩ := h.logged
  refine ⟨h.good, h.sb, h.dinodes, h.mono, bm, hcard, hbm, fun x hx => ?_⟩
  refine (hlogged x hx).imp_right (Or.imp_right ?_)
  intro hp
  obtain ⟨p, hp, hx⟩ := hp
  refine ⟨p, hp.imp_right ?_, hx⟩
  intro hbn
  obtain ⟨bn, hbn, e⟩ := hbn
  exact ⟨bn, hbs bn hbn, e⟩

end Moves

/-! ## Giving a block a place -/

section Grow

variable {u : St} {i b bn : Nat} {bs : Nat → Prop} {p : Place}

/-- A block that was free is put at an empty place. -/
theorem Good.grow (h : Good s tbl sh) (hf : Fresh s t b) (hsb : u.sb = s.sb)
    (hmeta : ∀ x < nmeta s.sb, u.disk x = t.disk x) (hp : own s tbl sh p = none) (hps : Touches i bs p)
    (hown : own u tbl' sh' = Function.update (own s tbl sh) p (some b))
    (hunmapped : ∀ j < s.sb.ninodes, ∀ bn, (sh' j).data ≤ bn → daddr u.disk (tbl' j) bn = 0)
    (hdirect : ∀ j < s.sb.ninodes, (sh' j).indirect = false → (tbl' j).addrs ind = 0)
    (htotal : 1 + total s.sb sh ≤ total s.sb sh')
    (hlogged : ∀ x ∈ u.logged, x ∈ t.logged ∨ ∃ p, Touches i bs p ∧ own u tbl' sh' p = some x) :
    Moved i bs s tbl sh u tbl' sh' := by
  have hsuper := h.layout.super_lt
  have hnmeta := h.layout.nmeta_le
  have hut : u.sb = t.sb := hsb.trans hf.sb.symm
  have hused : ∀ c < s.sb.size, inUse u c = (inUse s c || decide (b = c)) := by
    intro c hc
    rw [← hf.used c hc]
    refine inUse_congr hut (hmeta _ ?_)
    rw [hf.sb]
    exact (h.layout.bblock hc).2
  have hnew : own u tbl' sh' p = some b := by rw [hown, Function.update_self]
  have hexact : Exact (· < nmeta s.sb) (Function.update (own s tbl sh) p (some b))
      (fun c => c < s.sb.size ∧ inUse u c = true) := by
    refine h.exact.give hp (fun hb => by rw [hf.free] at hb; cases hb.2) fun c => ?_
    by_cases hc : c < s.sb.size
    · rw [hused c hc, Bool.or_eq_true, decide_eq_true_iff, eq_comm (a := b)]
      simp only [hc, true_and]
    · have : c ≠ b := by
        intro e
        rw [e] at hc
        exact hc hf.below
      simp [hc, this]
  refine ⟨⟨?_, ?_, ?_, ?_, ?_⟩, hsb, fun j hj => ?_, fun q x hq => ?_, {bblock s.sb b}, ?_,
    fun x hx => ⟨b, hf.below, Finset.mem_singleton.mp hx⟩, fun x hx => ?_⟩
  · rw [hsb]
    exact h.layout
  · rw [hsb, readsb_congr (hmeta 1 (by omega)), hf.super, h.super]
  · rw [hown, hsb]
    exact hexact
  · rw [hsb]
    exact hunmapped
  · rw [hsb]
    exact hdirect
  · have hiblock := h.layout.iblock hj
    rw [← hf.dinodes j hj]
    refine dinode_congr hut (hmeta _ ?_)
    rw [hf.sb]
    omega
  · have hne : q ≠ p := by
      intro e
      rw [e, hp] at hq
      cases hq
    rw [hown, Function.update_of_ne hne]
    exact hq
  · rw [Finset.card_singleton]
    exact htotal
  · rcases hlogged x hx with hx | hx
    · rw [hf.logged] at hx
      rcases List.mem_cons.mp hx with e | hx
      · exact .inr (.inr ⟨p, hps, by rw [hnew, e]⟩)
      · rcases List.mem_cons.mp hx with e | hx
        · exact .inr (.inl (Finset.mem_singleton.mpr e))
        · exact .inl hx
    · exact .inr (.inr hx)

theorem Good.ne_fresh (h : Good s tbl sh) (hf : Fresh s t b) {x : Nat} (hp : own s tbl sh p = some x) : x ≠ b := by
  intro e
  have hused := (h.owned hp).2.2
  rw [e, hf.free] at hused
  cases hused

theorem Good.same_fresh (h : Good s tbl sh) (hf : Fresh s t b) {x : Nat} (hp : own s tbl sh p = some x) :
    t.disk x = s.disk x := hf.same x (h.owned hp).1 (h.ne_fresh hf hp)

theorem Good.daddr_fresh (h : Good s tbl sh) (hf : Fresh s t b) (hi : i < s.sb.ninodes) :
    daddr t.disk (tbl i) = daddr s.disk (tbl i) :=
  daddr_congr fun hne => h.same_fresh hf (own_ind tbl hi (h.indirect hi hne))

theorem Good.disk_fresh (h : Good s tbl sh) (hf : Fresh s t b) (hi : i < s.sb.ninodes)
    (hne : daddr s.disk (tbl i) bn ≠ 0) : t.disk (daddr s.disk (tbl i) bn) = s.disk (daddr s.disk (tbl i) bn) :=
  h.same_fresh hf (own_data tbl hi (h.mapped hi hne))

theorem Good.view_fresh (h : Good s tbl sh) (hf : Fresh s t b) (hi : i < s.sb.ninodes) :
    view t.disk (tbl i) = view s.disk (tbl i) :=
  view_congr (h.daddr_fresh hf hi) fun _ hne => h.disk_fresh hf hi hne

theorem own_other (hsb : u.sb = s.sb) (htbl : tbl' i = tbl i) (hsh : sh' i = sh i)
    (hd : i < s.sb.ninodes → daddr u.disk (tbl i) = daddr s.disk (tbl i)) (bn : Option Nat) :
    own u tbl' sh' ⟨i, bn⟩ = own s tbl sh ⟨i, bn⟩ := by
  by_cases hi : i < s.sb.ninodes
  · cases bn <;> simp only [own, hsb, htbl, hsh, hd hi]
  · cases bn <;> simp only [own, hsb, hi, false_and, if_false]

/-- The place is one of inode `i`, and the other inodes' blocks are where they were. -/
theorem Good.grow_at (h : Good s tbl sh) (hf : Fresh s t b) (hi : i < s.sb.ninodes) {o : Option Nat} {ip : Dinode} {x : Shape}
    (hsb : u.sb = s.sb) (hmeta : ∀ x < nmeta s.sb, u.disk x = t.disk x)
    (hothers : ∀ j < s.sb.ninodes, j ≠ i → daddr u.disk (tbl j) = daddr s.disk (tbl j))
    (ho : own s tbl sh ⟨i, o⟩ = none) (hps : Touches i bs ⟨i, o⟩)
    (hown : ∀ n, own u (Function.update tbl i ip) (Function.update sh i x) ⟨i, n⟩ =
      if n = o then some b else own s tbl sh ⟨i, n⟩)
    (hunmapped : ∀ n, x.data ≤ n → daddr u.disk ip n = 0) (hdirect : x.indirect = false → ip.addrs ind = 0)
    (hblocks : x.blocks = (sh i).blocks + 1)
    (hlogged : ∀ y ∈ u.logged, y ∈ t.logged ∨
      ∃ p, Touches i bs p ∧ own u (Function.update tbl i ip) (Function.update sh i x) p = some y) :
    Moved i bs s tbl sh u (Function.update tbl i ip) (Function.update sh i x) := by
  refine h.grow hf hsb hmeta ho hps ?_ ?_ ?_ ?_ hlogged
  · funext q
    obtain ⟨j, n⟩ := q
    by_cases hj : j = i
    · subst hj
      rw [hown, Function.update_apply]
      simp
    · rw [Function.update_of_ne (by simp [hj])]
      exact own_other hsb (Function.update_of_ne hj ..) (Function.update_of_ne hj ..) (fun hlt => hothers j hlt hj) n
  · intro j hj n hn
    by_cases e : j = i
    · subst e
      rw [Function.update_self] at hn ⊢
      exact hunmapped n hn
    · rw [Function.update_of_ne e] at hn ⊢
      rw [hothers j hj e]
      exact h.unmapped j hj n hn
  · intro j hj hdir
    by_cases e : j = i
    · subst e
      rw [Function.update_self] at hdir ⊢
      exact hdirect hdir
    · rw [Function.update_of_ne e] at hdir ⊢
      exact h.direct j hj hdir
  · have := total_update s.sb hi sh x
    omega

theorem setAddr_addrs (d : Dinode) (k k' : Fin (ndirect + 1)) (b : Nat) :
    (d.setAddr k b).addrs k' = if k' = k then b else d.addrs k' := Function.update_apply ..

theorem ne_ind (hbn : bn < ndirect) : (⟨bn, Nat.lt_succ_of_lt hbn⟩ : Fin (ndirect + 1)) ≠ ind := by
  intro e
  have := congrArg Fin.val e
  simp only [Fin.val_last] at this
  omega

theorem daddr_setAddr (disk : Nat → Mem) (d : Dinode) (hbn : bn < ndirect) (b n : Nat) :
    daddr disk (d.setAddr ⟨bn, Nat.lt_succ_of_lt hbn⟩ b) n = if n = bn then b else daddr disk d n := by
  unfold daddr
  by_cases hn : n < ndirect
  · simp only [dif_pos hn, setAddr_addrs, Fin.mk.injEq]
  · rw [dif_neg hn, dif_neg hn, if_neg (show n ≠ bn by omega), setAddr_addrs, if_neg (ne_ind hbn).symm]

/-- A new list of blocks is empty. -/
theorem daddr_setAddr_ind {disk : Nat → Mem} {d : Dinode} (hd : d.addrs ind = 0) (hz : disk b = fun _ => 0) :
    daddr disk (d.setAddr ind b) = daddr disk d := by
  funext n
  unfold daddr
  by_cases hn : n < ndirect
  · rw [dif_pos hn, dif_pos hn, setAddr_addrs, if_neg (ne_ind hn)]
  · rw [dif_neg hn, dif_neg hn, setAddr_addrs, if_pos rfl, hd, hz]
    simp [load_zero]

theorem Fresh.pos (hf : Fresh s t b) (h : Good s tbl sh) : b ≠ 0 := by
  have := hf.above
  have := h.layout.super_lt
  have := h.layout.nmeta_le
  omega

/-- A block that the inode lists itself. -/
theorem Good.grow_direct (h : Good s tbl sh) (hf : Fresh s t b) (hi : i < s.sb.ninodes) (hbn : bn < ndirect)
    (hdata : (sh i).data = bn) {ip : Dinode} (hip : ip = (tbl i).setAddr ⟨bn, Nat.lt_succ_of_lt hbn⟩ b) :
    Moved i (· = bn) s tbl sh t (Function.update tbl i ip) (Function.update sh i ⟨bn + 1, (sh i).indirect⟩) ∧
      view t.disk ip = view s.disk (tbl i) := by
  have hdaddr : ∀ n, daddr t.disk ip n = if n = bn then b else daddr s.disk (tbl i) n := by
    intro n
    rw [hip, daddr_setAddr _ _ hbn, h.daddr_fresh hf hi]
  have hind : ip.addrs ind = (tbl i).addrs ind := by rw [hip, setAddr_addrs, if_neg (ne_ind hbn).symm]
  constructor
  · refine h.grow_at hf hi hf.sb (fun _ _ => rfl) (fun j hj _ => h.daddr_fresh hf hj) (o := some bn) ?_
      (.inr ⟨bn, rfl, rfl⟩) ?_ ?_ ?_ ?_ (fun x hx => .inl hx)
    · simp [own, hdata]
    · intro n
      cases n with
      | none => simp [own, hf.sb, hind]
      | some n =>
        by_cases hn : n = bn
        · simp [own, hf.sb, hi, hdaddr, hn]
        · have hlt : n < bn + 1 ↔ n < bn := by omega
          simp [own, hf.sb, hdaddr, hn, hlt, hdata]
    · intro n hn
      dsimp only at hn
      rw [hdaddr, if_neg (by omega)]
      exact h.unmapped i hi n (by omega)
    · intro hdir
      rw [hind]
      exact h.direct i hi hdir
    · simp only [Shape.blocks, hdata]
      omega
  · funext n
    unfold view
    rw [hdaddr]
    by_cases hn : n = bn
    · rw [if_pos hn, if_neg (hf.pos h), hf.zero, if_pos (h.unmapped i hi n (by omega))]
    · rw [if_neg hn]
      split
      · rfl
      · rename_i hne
        exact h.disk_fresh hf hi hne

/-- The block that will list others. -/
theorem Good.grow_ind (bn : Nat) (h : Good s tbl sh) (hf : Fresh s t b) (hi : i < s.sb.ninodes) (hsh : (sh i).indirect = false)
    {ip : Dinode} (hip : ip = (tbl i).setAddr ind b) :
    Moved i (· = bn) s tbl sh t (Function.update tbl i ip) (Function.update sh i ⟨(sh i).data, true⟩) ∧
      view t.disk ip = view s.disk (tbl i) := by
  have hdaddr : daddr t.disk ip = daddr s.disk (tbl i) := by
    rw [hip, daddr_setAddr_ind (h.direct i hi hsh) hf.zero, h.daddr_fresh hf hi]
  have hind : ip.addrs ind = b := by rw [hip, setAddr_addrs, if_pos rfl]
  constructor
  · refine h.grow_at hf hi hf.sb (fun _ _ => rfl) (fun j hj _ => h.daddr_fresh hf hj) (o := none) ?_ (.inl rfl) ?_ ?_ ?_ ?_
      (fun x hx => .inl hx)
    · simp [own, hsh]
    · intro n
      cases n with
      | none => simp [own, hf.sb, hi, hind]
      | some n => simp [own, hf.sb, hdaddr]
    · intro n hn
      rw [hdaddr]
      exact h.unmapped i hi n hn
    · intro hdir
      cases hdir
    · simp [Shape.blocks, hsh]
  · funext n
    unfold view
    rw [hdaddr]
    split
    · rfl
    · rename_i hne
      exact h.disk_fresh hf hi hne

/-- A word of the list of blocks is written. -/
theorem daddr_store {disk : Nat → Mem} {d : Dinode} (hd : d.addrs ind ≠ 0) (hlo : ndirect ≤ bn) (hbn : bn < maxFile)
    (hb : b < 2 ^ 32) (n : Nat) :
    daddr (Function.update disk (d.addrs ind) (store (disk (d.addrs ind)) 4 (4 * (bn - ndirect)) b)) d n =
      if n = bn then b else daddr disk d n := by
  have hmax : maxFile = ndirect + nindirect := rfl
  unfold daddr
  by_cases hn : n < ndirect
  · rw [dif_pos hn, dif_pos hn, if_neg (by omega)]
  · rw [dif_neg hn, dif_neg hn, Function.update_self]
    by_cases e : n = bn
    · rw [if_pos e, e, if_pos ⟨by omega, hd⟩, load_store]
      exact Nat.mod_eq_of_lt hb
    · rw [if_neg e, load_store_off (by omega)]

/-- A block that the list of blocks gets. -/
theorem Good.grow_listed (h : Good s tbl sh) (hf : Fresh s t b) (hi : i < s.sb.ninodes) (hsh : (sh i).indirect = true)
    (hdata : (sh i).data = bn) (hlo : ndirect ≤ bn) (hbn : bn < maxFile)
    (hu : u = logWrite t ((tbl i).addrs ind) (store (s.disk ((tbl i).addrs ind)) 4 (4 * (bn - ndirect)) b)) :
    Moved i (· = bn) s tbl sh u (Function.update tbl i (tbl i)) (Function.update sh i ⟨bn + 1, true⟩) ∧
      (∀ j < s.sb.ninodes, j ≠ i → view u.disk (tbl j) = view s.disk (tbl j)) ∧
      view u.disk (tbl i) = view s.disk (tbl i) ∧ daddr u.disk (tbl i) bn = b := by
  have hlist := own_ind tbl hi hsh
  have hpos := h.pos hlist
  have hsame := h.same_fresh hf hlist
  have hdisk : ∀ x, x ≠ (tbl i).addrs ind → u.disk x = t.disk x := by
    intro x hx
    rw [hu, logWrite_disk, Function.update_of_ne hx]
  have hdaddr : ∀ n, daddr u.disk (tbl i) n = if n = bn then b else daddr s.disk (tbl i) n := by
    intro n
    have := h.layout.size
    have := hf.below
    rw [hu, logWrite_disk, ← hsame, daddr_store hpos hlo hbn (by omega), h.daddr_fresh hf hi]
  -- no other inode's list, and no block of a file, is the block written to
  have hothers : ∀ j < s.sb.ninodes, j ≠ i → daddr u.disk (tbl j) = daddr s.disk (tbl j) := by
    intro j hj hne
    rw [← h.daddr_fresh hf hj]
    refine daddr_congr fun hj0 => hdisk _ ?_
    intro e
    have hjlist := own_ind tbl hj (h.indirect hj hj0)
    rw [e] at hjlist
    have := h.exact.distinct _ _ _ hjlist hlist
    simp only [Sigma.mk.injEq] at this
    exact hne this.1
  have hfile : ∀ j < s.sb.ninodes, ∀ n, daddr s.disk (tbl j) n ≠ 0 →
      u.disk (daddr s.disk (tbl j) n) = s.disk (daddr s.disk (tbl j) n) := by
    intro j hj n hne
    have hdat := own_data (s := s) tbl hj (h.mapped hj hne)
    rw [hdisk _ ?_]
    · exact h.disk_fresh hf hj hne
    · intro e
      rw [e] at hdat
      have := h.exact.distinct _ _ _ hdat hlist
      simp at this
  have hmeta : ∀ x < nmeta s.sb, u.disk x = t.disk x := fun x hx => hdisk x (by have := (h.owned hlist).1; omega)
  have hown : ∀ n, own u (Function.update tbl i (tbl i)) (Function.update sh i ⟨bn + 1, true⟩) ⟨i, n⟩ =
      if n = some bn then some b else own s tbl sh ⟨i, n⟩ := by
    have hsb : u.sb = s.sb := by rw [hu, logWrite_sb, hf.sb]
    intro n
    cases n with
    | none => simp [own, hsb, hsh]
    | some n =>
      by_cases hn : n = bn
      · simp [own, hsb, hi, hdaddr, hn]
      · have hlt : n < bn + 1 ↔ n < bn := by omega
        simp [own, hsb, hdaddr, hn, hlt, hdata]
  refine ⟨?_, fun j hj hne => ?_, ?_, ?_⟩
  · refine h.grow_at hf hi (by rw [hu, logWrite_sb, hf.sb]) hmeta hothers (o := some bn) ?_ (.inr ⟨bn, rfl, rfl⟩) hown ?_ ?_ ?_ ?_
    · simp [own, hdata]
    · intro n hn
      dsimp only at hn
      rw [hdaddr, if_neg (by omega)]
      exact h.unmapped i hi n (by omega)
    · intro hdir
      cases hdir
    · simp only [Shape.blocks, hdata, hsh]
      omega
    · intro y hy
      rw [hu, logWrite_logged] at hy
      rcases List.mem_cons.mp hy with e | hy
      · refine .inr ⟨⟨i, none⟩, .inl rfl, ?_⟩
        rw [hown, if_neg (by simp), hlist, e]
      · exact .inl hy
  · exact view_congr (hothers j hj hne) (hfile j hj)
  · funext n
    unfold view
    rw [hdaddr]
    by_cases hn : n = bn
    · rw [if_pos hn, if_neg (hf.pos h), if_pos (h.unmapped i hi n (by omega)), hdisk b (fun e => h.ne_fresh hf hlist e.symm),
        hf.zero]
    · rw [if_neg hn]
      split
      · rfl
      · rename_i hne
        exact hfile i hi n hne
  · rw [hdaddr, if_pos rfl]

end Grow

/-! ## `bmap` -/

/-- A file of `n` blocks. -/
def shapeOf (n : Nat) : Shape := ⟨n, decide (ndirect < n)⟩

theorem Good.total_le (h : Good s tbl sh) : nmeta s.sb + total s.sb sh ≤ s.sb.size := by
  rw [← h.card]
  exact (Finset.card_filter_le ..).trans (Finset.card_range _).le

theorem addrAt_new {b : Nat} {ip : Dinode} {k : Fin (ndirect + 1)} (hk : ip.addrs k = 0) (hb : balloc s = .ok (b, t)) :
    addrAt s ip k = .ok (b, ip.setAddr k b, t) := by
  unfold addrAt
  rw [if_pos hk, hb]
  rfl

theorem addrAt_failed {ip : Dinode} {k : Fin (ndirect + 1)} (hk : ip.addrs k = 0) (hb : balloc s = .error .outOfBlocks) :
    addrAt s ip k = .error .outOfBlocks := by
  unfold addrAt
  rw [if_pos hk, hb]
  rfl

theorem addrAt_old {ip : Dinode} {k : Fin (ndirect + 1)} (hk : ip.addrs k ≠ 0) : addrAt s ip k = .ok (ip.addrs k, ip, s) :=
  if_neg hk

section Bmap

variable {i bn : Nat} {c c' : Nat → Nat}

theorem Good.bmap_old (h : Good s tbl sh) (hi : i < s.sb.ninodes) (hbn : bn < (sh i).data) :
    bmap s (tbl i) bn = .ok (daddr s.disk (tbl i) bn, tbl i, s) := by
  have hpos := h.pos (own_data tbl hi hbn)
  unfold daddr at hpos ⊢
  unfold bmap
  by_cases hd : bn < ndirect
  · rw [dif_pos hd] at hpos ⊢
    rw [dif_pos hd, addrAt_old hpos]
  · rw [dif_neg hd] at hpos ⊢
    by_cases hlist : bn - ndirect < nindirect ∧ (tbl i).addrs ind ≠ 0
    · rw [if_pos hlist] at hpos ⊢
      rw [dif_neg hd, if_pos hlist.1, addrAt_old hlist.2]
      exact if_neg hpos
    · rw [if_neg hlist] at hpos
      exact absurd rfl hpos

/-- The call for a block that the list of blocks has no number for. -/
theorem bmap_listed {a : Nat} {ip ip' : Dinode} {u : St} (hlo : ndirect ≤ bn) (hbn : bn < maxFile)
    (ha : addrAt s ip ind = .ok (a, ip', u)) (hz : load (u.disk a) 4 (4 * (bn - ndirect)) = 0) :
    (∀ b v, balloc u = .ok (b, v) →
      bmap s ip bn = .ok (b, ip', logWrite v a (store (u.disk a) 4 (4 * (bn - ndirect)) b))) ∧
    (balloc u = .error .outOfBlocks → bmap s ip bn = .error .outOfBlocks) := by
  have hmax : maxFile = ndirect + nindirect := rfl
  have hbmap : bmap s ip bn = (balloc u).bind fun r =>
      .ok (r.1, ip', logWrite r.2 a (store (u.disk a) 4 (4 * (bn - ndirect)) r.1)) := by
    unfold bmap
    rw [dif_neg (by omega), if_pos (by omega), ha]
    exact if_pos hz
  rw [hbmap]
  exact ⟨fun b v hb => by rw [hb]; rfl, fun hb => by rw [hb]; rfl⟩

/-- `bmap` has led to block `bn` of inode `i`: it is in the file, and no file reads otherwise. -/
structure Mapped (i bn : Nat) (s : St) (tbl : Nat → Dinode) (c : Nat → Nat) (addr : Nat) (ip : Dinode) (t : St)
    (c' : Nat → Nat) : Prop where
  moved : Moved i (· = bn) s tbl (shapeOf ∘ c) t (Function.update tbl i ip) (shapeOf ∘ c')
  addr : daddr t.disk ip bn = addr
  only : ip = { tbl i with addrs := ip.addrs }
  views : ∀ j < s.sb.ninodes, view t.disk (Function.update tbl i ip j) = view s.disk (tbl j)

/-- `bmap` leads there, with `c'` blocks in each file behind it, or there are not as many. -/
def Maps (i bn : Nat) (s : St) (tbl : Nat → Dinode) (c c' : Nat → Nat) : Prop :=
  (nmeta s.sb + total s.sb (shapeOf ∘ c') ≤ s.sb.size ∧
    ∃ addr ip t, bmap s (tbl i) bn = .ok (addr, ip, t) ∧ Mapped i bn s tbl c addr ip t c') ∨
  (s.sb.size < nmeta s.sb + total s.sb (shapeOf ∘ c') ∧ bmap s (tbl i) bn = .error .outOfBlocks)

theorem views_of {ip : Dinode} (hothers : ∀ j < s.sb.ninodes, j ≠ i → view t.disk (tbl j) = view s.disk (tbl j))
    (hip : view t.disk ip = view s.disk (tbl i)) :
    ∀ j < s.sb.ninodes, view t.disk (Function.update tbl i ip j) = view s.disk (tbl j) := by
  intro j hj
  by_cases e : j = i
  · rw [e, Function.update_self, hip]
  · rw [Function.update_of_ne e, hothers j hj e]

/-- The inode lists the block itself. -/
theorem Good.bmap_direct (h : Good s tbl (shapeOf ∘ c)) (hi : i < s.sb.ninodes) (hbn : c i = bn) (hd : bn < ndirect) :
    Maps i bn s tbl c (Function.update c i (bn + 1)) := by
  have hshape : shapeOf ∘ Function.update c i (bn + 1) =
      Function.update (shapeOf ∘ c) i ⟨bn + 1, ((shapeOf ∘ c) i).indirect⟩ := by
    rw [Function.comp_update]
    congr 1
    simp only [shapeOf, Function.comp, hbn]
    congr 1
    rw [decide_eq_decide]
    omega
  have htotal := total_update s.sb hi (shapeOf ∘ c) ⟨bn + 1, ((shapeOf ∘ c) i).indirect⟩
  have hdata : ((shapeOf ∘ c) i).data = bn := hbn
  simp only [Shape.blocks, hdata] at htotal
  have hbmap : bmap s (tbl i) bn = addrAt s (tbl i) ⟨bn, Nat.lt_succ_of_lt hd⟩ := dif_pos hd
  have hzero : (tbl i).addrs ⟨bn, Nat.lt_succ_of_lt hd⟩ = 0 := by
    have := h.unmapped i hi bn hdata.le
    rwa [daddr, dif_pos hd] at this
  unfold Maps
  rw [hshape, hbmap]
  rcases h.balloc with ⟨hlt, b, t, hb, hf⟩ | ⟨hge, hb⟩
  · obtain ⟨hmoved, hview⟩ := h.grow_direct hf hi hd hdata rfl
    rw [← hshape] at hmoved
    refine .inl ⟨by omega, _, _, _, addrAt_new hzero hb, hmoved, ?_, rfl, views_of (fun j hj _ => h.view_fresh hf hj) hview⟩
    rw [daddr_setAddr _ _ hd, if_pos rfl]
  · exact .inr ⟨by omega, addrAt_failed hzero hb⟩

theorem shapeOf_update (hlo : ndirect ≤ bn) :
    shapeOf ∘ Function.update c i (bn + 1) = Function.update (shapeOf ∘ c) i ⟨bn + 1, true⟩ := by
  rw [Function.comp_update]
  congr 1
  simp only [shapeOf]
  congr 1
  rw [decide_eq_true_iff]
  omega

/-- The list of blocks is there, or `addrAt` has just made one. -/
theorem bmap_list {ip : Dinode} (hi : i < s.sb.ninodes) (hlo : ndirect ≤ bn) (hbn : bn < maxFile)
    (ha : addrAt s (tbl i) ind = .ok (ip.addrs ind, ip, t)) (hsh : sh = Function.update (shapeOf ∘ c) i ⟨bn, true⟩)
    (hm : Moved i (· = bn) s tbl (shapeOf ∘ c) t (Function.update tbl i ip) sh)
    (honly : ip = { tbl i with addrs := ip.addrs })
    (hviews : ∀ j < s.sb.ninodes, view t.disk (Function.update tbl i ip j) = view s.disk (tbl j)) :
    Maps i bn s tbl c (Function.update c i (bn + 1)) := by
  have hmax : maxFile = ndirect + nindirect := rfl
  have hit : i < t.sb.ninodes := by rw [hm.sb]; exact hi
  have hself : Function.update tbl i ip i = ip := Function.update_self ..
  have hshi : sh i = ⟨bn, true⟩ := by rw [hsh, Function.update_self]
  have hshape : shapeOf ∘ Function.update c i (bn + 1) = Function.update sh i ⟨bn + 1, true⟩ := by
    rw [shapeOf_update hlo, hsh, Function.update_idem]
  have htotal := total_update s.sb hi sh ⟨bn + 1, true⟩
  rw [hshi] at htotal
  simp only [Shape.blocks, if_true] at htotal
  have hzero : load (t.disk (ip.addrs ind)) 4 (4 * (bn - ndirect)) = 0 := by
    have hlist := hm.good.pos (own_ind (Function.update tbl i ip) hit (by rw [hshi]))
    have hun := hm.good.unmapped i hit bn (by rw [hshi])
    rw [hself] at hlist hun
    rwa [daddr, dif_neg (by omega), if_pos ⟨by omega, hlist⟩] at hun
  obtain ⟨hnew, hfail⟩ := bmap_listed hlo hbn ha hzero
  unfold Maps
  rw [hshape]
  have halloc := hm.good.balloc
  rw [hm.sb] at halloc
  rcases halloc with ⟨hlt, b, v, hb, hf⟩ | ⟨hge, hb⟩
  · have hbmap := hnew b v hb
    generalize hu : logWrite v (ip.addrs ind) (store (t.disk (ip.addrs ind)) 4 (4 * (bn - ndirect)) b) = u at hbmap
    obtain ⟨hgrow, hothers, hview, haddr⟩ := hm.good.grow_listed hf hit (u := u) (by rw [hshi]) (by rw [hshi]) hlo hbn
      (by rw [hself, hu])
    rw [hself] at hgrow hview haddr
    rw [Function.update_idem, ← hshape] at hgrow
    refine .inl ⟨by omega, b, ip, u, hbmap, hm.trans hgrow, haddr, honly, fun j hj => ?_⟩
    rw [← hviews j hj]
    by_cases e : j = i
    · rw [e, hself]
      exact hview
    · exact hothers j (by rw [hm.sb]; exact hj) e
  · exact .inr ⟨by omega, hfail hb⟩

theorem Good.bmap (h : Good s tbl (shapeOf ∘ c)) (hi : i < s.sb.ninodes) (hle : bn ≤ c i) (hbn : bn < maxFile) :
    Maps i bn s tbl c (Function.update c i (max (c i) (bn + 1))) := by
  by_cases hold : bn < c i
  · -- there is nothing to do
    rw [Nat.max_eq_left hold, Function.update_eq_self]
    refine .inl ⟨h.total_le, _, _, _, h.bmap_old hi hold, ?_⟩
    refine ⟨?_, rfl, rfl, fun j _ => by rw [Function.update_eq_self]⟩
    rw [Function.update_eq_self]
    exact .refl h
  · have e : c i = bn := by omega
    rw [Nat.max_eq_right (by omega)]
    by_cases hd : bn < ndirect
    · exact h.bmap_direct hi e hd
    · by_cases hfirst : bn = ndirect
      · -- the thirteenth block needs the list of blocks first
        have hdir : ((shapeOf ∘ c) i).indirect = false := by simp [shapeOf, e, hfirst]
        have hzero : (tbl i).addrs ind = 0 := h.direct i hi hdir
        have hsh : Function.update (shapeOf ∘ c) i ⟨((shapeOf ∘ c) i).data, true⟩ =
            Function.update (shapeOf ∘ c) i ⟨bn, true⟩ := by simp [shapeOf, e]
        rcases h.balloc with ⟨-, b, t, hb, hf⟩ | ⟨hge, hb⟩
        · obtain ⟨hm, hview⟩ := h.grow_ind bn hf hi hdir rfl
          rw [hsh] at hm
          refine bmap_list hi (by omega) hbn ?_ rfl hm rfl (views_of (fun j hj _ => h.view_fresh hf hj) hview)
          rw [addrAt_new hzero hb, setAddr_addrs, if_pos rfl]
        · refine .inr ⟨?_, ?_⟩
          · have htotal := total_update s.sb hi (shapeOf ∘ c) ⟨bn + 1, true⟩
            rw [← shapeOf_update (by omega)] at htotal
            simp [Shape.blocks, shapeOf, e, hfirst] at htotal ⊢
            omega
          · unfold Fs.bmap
            have hmax : maxFile = ndirect + nindirect := rfl
            rw [dif_neg hd, if_pos (by omega), addrAt_failed hzero hb]
            rfl
      · have hind : ((shapeOf ∘ c) i).indirect = true := by
          simp only [shapeOf, Function.comp, decide_eq_true_iff]
          omega
        have hsame : Function.update (shapeOf ∘ c) i ⟨bn, true⟩ = shapeOf ∘ c := by
          rw [← hind]
          convert Function.update_eq_self i (shapeOf ∘ c)
          exact e.symm
        refine bmap_list hi (by omega) hbn (addrAt_old (h.pos (own_ind tbl hi hind))) hsame.symm ?_ rfl
          (fun j _ => by rw [Function.update_eq_self])
        rw [Function.update_eq_self]
        exact .refl h

end Bmap

end CS5600.Xv6.Fs
