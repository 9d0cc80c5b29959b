/-
  CS5600.Xv6.FsFiles — reading, writing and freeing a file (`Lab11_xv6/deliverables/fs.c`).

  Seen through the blocks of the file, `readi` and `writei` are those of `CS5600.Xv6.Cp`: a read changes nothing,
  a write changes the blocks of this file only, and fails exactly when the disk has too few blocks for the
  new size. `itrunc` frees the blocks of the file, each of which was in use.
-/

import CS5600.Xv6.FsProofs

namespace CS5600.Xv6.Fs

open CS5600.Lib.Bytes CS5600.Lib.Extents CS5600.Lib.Packed CS5600.Lib.Ownership

variable {s t u : St} {tbl : Nat → Dinode} {sh : Nat → Shape} {c : Nat → Nat} {i bn : Nat}

/-! ## What a write leaves alone -/

theorem Good.carry (h : Good s tbl sh) (hsb : u.sb = s.sb) (hsuper : u.disk 1 = s.disk 1)
    (hbitmap : ∀ b < s.sb.size, u.disk (bblock s.sb b) = s.disk (bblock s.sb b))
    (hdaddr : ∀ j < s.sb.ninodes, daddr u.disk (tbl j) = daddr s.disk (tbl j)) :
    Good u tbl sh ∧ own u tbl sh = own s tbl sh := by
  have hown : own u tbl sh = own s tbl sh := by
    funext p
    exact own_other hsb rfl rfl (hdaddr p.1) p.2
  have hused : ∀ b, b < s.sb.size ∧ inUse u b = true ↔ b < s.sb.size ∧ inUse s b = true :=
    fun b => and_congr_right fun hb => by rw [inUse_congr hsb (hbitmap b hb)]
  refine ⟨⟨?_, ?_, ?_, ?_, ?_⟩, hown⟩
  · rw [hsb]
    exact h.layout
  · rw [readsb_congr hsuper, h.super, hsb]
  · rw [hown, hsb]
    exact h.exact.congr hused
  · rw [hsb]
    intro j hj n hn
    rw [hdaddr j hj]
    exact h.unmapped j hj n hn
  · rw [hsb]
    exact h.direct

/-- A block of a file is written. -/
theorem Good.write_data (h : Good s tbl sh) (hi : i < s.sb.ninodes) (hbn : bn < (sh i).data) {data : Mem}
    (bs : Nat → Prop) (hbs : bs bn) (hu : u = logWrite s (daddr s.disk (tbl i) bn) data) :
    Moved i bs s tbl sh u tbl sh ∧ (∀ j < s.sb.ninodes, j ≠ i → view u.disk (tbl j) = view s.disk (tbl j)) ∧
      view u.disk (tbl i) = Function.update (view s.disk (tbl i)) bn data := by
  have hplace := own_data (s := s) tbl hi hbn
  have habove := (h.owned hplace).1
  have hsuper := h.layout.super_lt
  have hnmeta := h.layout.nmeta_le
  have hdisk : ∀ x, x ≠ daddr s.disk (tbl i) bn → u.disk x = s.disk x := by
    intro x hx
    rw [hu, logWrite_disk, Function.update_of_ne hx]
  have hdaddr : ∀ j < s.sb.ninodes, daddr u.disk (tbl j) = daddr s.disk (tbl j) := by
    intro j hj
    refine daddr_congr fun hne => hdisk _ ?_
    intro e
    have hlist := own_ind tbl hj (h.indirect hj hne)
    rw [e] at hlist
    have := h.exact.distinct _ _ _ hlist hplace
    simp at this
  have hsb : u.sb = s.sb := by rw [hu, logWrite_sb]
  obtain ⟨hgood, hown⟩ := h.carry hsb (hdisk 1 (by omega))
    (fun b hb => hdisk _ (by have := h.layout.bblock hb; omega)) hdaddr
  refine ⟨⟨hgood, hsb, fun j hj => ?_, fun p x hp => by rw [hown]; exact hp, ∅, by simp, by simp, fun x hx => ?_⟩,
    fun j hj hne => ?_, ?_⟩
  · have := h.layout.iblock hj
    exact dinode_congr hsb (hdisk _ (by omega))
  · rw [hu, logWrite_logged] at hx
    rcases List.mem_cons.mp hx with e | hx
    · exact .inr (.inr ⟨⟨i, some bn⟩, .inr ⟨bn, hbs, rfl⟩, by rw [hown, hplace, e]⟩)
    · exact .inl hx
  · refine view_congr (hdaddr j hj) fun n hn => hdisk _ ?_
    intro e
    have hother := own_data (s := s) tbl hj (h.mapped hj hn)
    rw [e] at hother
    have := h.exact.distinct _ _ _ hother hplace
    simp only [Sigma.mk.injEq] at this
    exact hne this.1
  · funext n
    unfold view
    rw [hdaddr i hi, Function.update_apply]
    by_cases hn : n = bn
    · rw [if_pos hn, hn, if_neg (h.pos hplace), hu, logWrite_disk, Function.update_self]
    · rw [if_neg hn]
      split
      · rfl
      · rename_i hne
        refine hdisk _ ?_
        intro e
        have hother := own_data (s := s) tbl hi (h.mapped hi hne)
        rw [e] at hother
        have := h.exact.distinct _ _ _ hother hplace
        simp only [Sigma.mk.injEq, heq_eq_eq, Option.some.injEq, true_and] at this
        exact hn this

theorem view_at (hne : daddr s.disk (tbl i) bn ≠ 0) : view s.disk (tbl i) bn = s.disk (daddr s.disk (tbl i) bn) := if_neg hne

/-! ## The loops -/

/-- The blocks that `n` bytes take. -/
def blocksOf (n : Nat) : Nat := (n + (bsize - 1)) / bsize

theorem div_bsize_le {off n : Nat} (h : off ≤ n * bsize) : off / bsize ≤ n := by
  simp only [bsize] at *
  omega

theorem div_bsize_lt {off n : Nat} (h : off < n * bsize) : off / bsize < n := by
  simp only [bsize] at *
  omega

theorem div_lt_blocksOf {off e : Nat} (h : off < e) : off / bsize + 1 ≤ blocksOf e := by
  simp only [blocksOf, bsize] at *
  omega

theorem chunk_le (off k : Nat) : off + min k (bsize - off % bsize) ≤ (off / bsize + 1) * bsize := by
  simp only [bsize]
  omega

theorem blocksOf_le {e n : Nat} (h : e ≤ n * bsize) : blocksOf e ≤ n := by
  simp only [blocksOf, bsize] at *
  omega

theorem le_blocksOf (e : Nat) : e ≤ blocksOf e * bsize := by
  simp only [blocksOf, bsize]
  omega

theorem total_mono (sb : Superblock) {c c' : Nat → Nat} (h : ∀ j, c j ≤ c' j) :
    total sb (shapeOf ∘ c) ≤ total sb (shapeOf ∘ c') := by
  refine Finset.sum_le_sum fun j _ => ?_
  have := h j
  simp only [Function.comp, shapeOf, Shape.blocks, decide_eq_true_eq]
  split <;> split <;> omega

theorem readLoop_eq (h : Good s tbl (shapeOf ∘ c)) (hi : i < s.sb.ninodes) {f : Inode} (hf : f.blocks = view s.disk (tbl i))
    (n tot off : Nat) (hfits : off + (n - tot) ≤ c i * bsize) :
    readLoop s (tbl i) n tot off = .ok (Xv6.readLoop f n tot off, tbl i, s) := by
  fun_induction Xv6.readLoop f n tot off with
  | case1 tot off hlt m ih =>
    have hm : m = min (n - tot) (bsize - off % bsize) := rfl
    have hbn : off / bsize < c i := div_bsize_lt (by omega)
    have hne := h.pos (own_data tbl hi (show off / bsize < ((shapeOf ∘ c) i).data from hbn))
    rw [readLoop, if_pos hlt, h.bmap_old hi (show off / bsize < ((shapeOf ∘ c) i).data from hbn)]
    show (readLoop s (tbl i) n (tot + m) (off + m)).bind _ = _
    rw [ih (by omega), hf, view_at hne]
    rfl
  | case2 tot off hge => rw [readLoop, if_neg hge]

/-- `writeLoop` has written `src` from `tot` on to the file of inode `i`. -/
structure Wrote (i : Nat) (src : List UInt8) (tot off : Nat) (s : St) (tbl : Nat → Dinode) (c : Nat → Nat) (ip : Dinode)
    (t : St) (c' : Nat → Nat) : Prop where
  moved : Moved i (fun bn => off / bsize ≤ bn ∧ bn < blocksOf (off + (src.length - tot))) s tbl (shapeOf ∘ c) t
    (Function.update tbl i ip) (shapeOf ∘ c')
  only : ip = { tbl i with addrs := ip.addrs }
  view : view t.disk ip = Xv6.writeLoop src tot off (view s.disk (tbl i))
  others : ∀ j < s.sb.ninodes, j ≠ i → Fs.view t.disk (tbl j) = Fs.view s.disk (tbl j)

theorem writeLoop_eq (i : Nat) (src : List UInt8) (k : Nat) :
    ∀ (tot off : Nat) {s : St} {tbl : Nat → Dinode} {c c' : Nat → Nat}, src.length - tot = k →
    Good s tbl (shapeOf ∘ c) → i < s.sb.ninodes → off ≤ c i * bsize → off + k ≤ maxFile * bsize →
    c' = Function.update c i (max (c i) (blocksOf (off + k))) →
    (nmeta s.sb + total s.sb (shapeOf ∘ c') ≤ s.sb.size ∧
      ∃ ip t, writeLoop src s (tbl i) tot off = .ok (off + k, ip, t) ∧ Wrote i src tot off s tbl c ip t c') ∨
    (s.sb.size < nmeta s.sb + total s.sb (shapeOf ∘ c') ∧ writeLoop src s (tbl i) tot off = .error .outOfBlocks) := by
  -- on what is left to write
  induction k using Nat.strongRecOn with
  | ind k ih =>
    intro tot off s tbl c c' hk h hi hoff hfits hc'
    by_cases hlt : tot < src.length
    · generalize hm : min (src.length - tot) (bsize - off % bsize) = m
      have hmpos := chunk_pos off hlt
      have hchunk := chunk_le off (src.length - tot)
      rw [hm] at hmpos hchunk
      have hbn := div_bsize_lt (show off < maxFile * bsize by omega)
      have hend : off / bsize + 1 ≤ blocksOf (off + k) := div_lt_blocksOf (by omega)
      generalize hc1 : Function.update c i (max (c i) (off / bsize + 1)) = c1
      have hc1i : c1 i = max (c i) (off / bsize + 1) := by rw [← hc1, Function.update_self]
      have hc1' : c' = Function.update c1 i (max (c1 i) (blocksOf (off + m + (k - m)))) := by
        rw [hc1i, ← hc1, Function.update_idem, hc', show off + m + (k - m) = off + k by omega]
        congr 1
        omega
      have hmono : ∀ j, c1 j ≤ c' j := by
        intro j
        rw [hc', ← hc1]
        by_cases e : j = i
        · rw [e, Function.update_self, Function.update_self]
          omega
        · rw [Function.update_of_ne e, Function.update_of_ne e]
      have hmaps := h.bmap hi (div_bsize_le hoff) hbn
      rw [hc1] at hmaps
      rcases hmaps with ⟨hroom, addr, ip, t, hbmap, hmapped⟩ | ⟨hfull, hbmap⟩
      · obtain ⟨hmoved, haddr, honly, hviews⟩ := hmapped
        generalize hu : logWrite t addr (patch (t.disk addr) (off % bsize) ((src.drop tot).take m)) = u
        have hself : Function.update tbl i ip i = ip := Function.update_self ..
        have hit : i < t.sb.ninodes := by rw [hmoved.sb]; exact hi
        have hdata : off / bsize < ((shapeOf ∘ c1) i).data := by
          show off / bsize < c1 i
          omega
        have hold : Fs.view s.disk (tbl i) (off / bsize) = t.disk addr := by
          have hne := hmoved.good.pos (own_data (Function.update tbl i ip) hit hdata)
          rw [← hviews i hi, view_at hne, hself, haddr]
        obtain ⟨hwrite, hothers, hview⟩ := hmoved.good.write_data hit hdata (u := u)
          (fun n => off / bsize ≤ n ∧ n < blocksOf (off + (src.length - tot))) ⟨le_rfl, by rw [hk]; omega⟩
          (by rw [hself, haddr, ← hu])
        have hstep : writeLoop src s (tbl i) tot off = writeLoop src u ip (tot + m) (off + m) := by
          rw [writeLoop, if_pos hlt, hbmap, ← hu, ← hm]
          rfl
        have hsb : u.sb = s.sb := hwrite.sb.trans hmoved.sb
        have hrec := ih (k - m) (by omega) (tot + m) (off + m) (by omega) hwrite.good
          (by rw [hsb]; exact hi) (by rw [hc1i]; exact hchunk.trans (Nat.mul_le_mul_right _ (le_max_right ..))) (by omega) hc1'
        rw [hsb, hself] at hrec
        rw [hstep]
        rcases hrec with ⟨hroom, ip', v, hloop, hrest⟩ | ⟨hfull, hloop⟩
        · refine .inl ⟨hroom, ip', v, by rw [hloop, show off + m + (k - m) = off + k by omega], ?_⟩
          obtain ⟨hmoved', honly', hview', hothers'⟩ := hrest
          rw [hself] at honly' hview' hview
          rw [Function.update_idem] at hmoved'
          have hthis : ∀ n, n = off / bsize → off / bsize ≤ n ∧ n < blocksOf (off + (src.length - tot)) := by
            intro n hn
            rw [hk]
            omega
          have hlater : ∀ n, (off + m) / bsize ≤ n ∧ n < blocksOf (off + m + (src.length - (tot + m))) →
              off / bsize ≤ n ∧ n < blocksOf (off + (src.length - tot)) := by
            intro n hn
            have : off / bsize ≤ (off + m) / bsize := Nat.div_le_div_right (Nat.le_add_right ..)
            rw [show off + m + (src.length - (tot + m)) = off + (src.length - tot) by omega] at hn
            omega
          refine ⟨((hmoved.mono_blocks hthis).trans hwrite).trans (hmoved'.mono_blocks hlater), ?_, ?_, fun j hj hne => ?_⟩
          · refine honly'.trans ?_
            rw [honly]
          · have hip := hviews i hi
            rw [hself] at hip
            rw [hview', hview, hip]
            conv_rhs => rw [Xv6.writeLoop, if_pos hlt]
            dsimp only
            rw [hm, hold]
          · have hlater := hothers' j (by rw [hsb]; exact hj) hne
            have hnow := hothers j (by rw [hmoved.sb]; exact hj) hne
            have hmap := hviews j hj
            rw [Function.update_of_ne hne] at hlater hnow hmap
            rw [hlater, hnow, hmap]
        · exact .inr ⟨hfull, hloop⟩
      · have := total_mono s.sb hmono
        refine .inr ⟨by omega, ?_⟩
        rw [writeLoop, if_pos hlt, hbmap]
        rfl
    · -- nothing is left, and the file has the blocks
      have hk0 : k = 0 := by omega
      have hcc : c' = c := by
        rw [hc', hk0, Nat.add_zero, Nat.max_eq_left (blocksOf_le hoff), Function.update_eq_self]
      have hstop : writeLoop src s (tbl i) tot off = .ok (off, tbl i, s) := by rw [writeLoop, if_neg hlt]
      subst hk0
      rw [hcc, hstop]
      refine .inl ⟨h.total_le, tbl i, s, rfl, ?_, rfl, ?_, fun _ _ _ => rfl⟩
      · rw [Function.update_eq_self]
        exact .refl h
      · rw [Xv6.writeLoop, if_neg hlt]

/-! ## `iupdate` -/

theorem daddr_of_addrs {d d' : Dinode} (h : d'.addrs = d.addrs) (disk : Nat → Mem) : daddr disk d' = daddr disk d := by
  funext n
  unfold daddr
  rw [h]

theorem view_of_addrs {d d' : Dinode} (h : d'.addrs = d.addrs) (disk : Nat → Mem) : view disk d' = view disk d := by
  funext n
  unfold view
  rw [daddr_of_addrs h]

theorem Good.congr {tbl' : Nat → Dinode} {sh' : Nat → Shape} (h : Good s tbl sh)
    (htbl : ∀ j < s.sb.ninodes, (tbl' j).addrs = (tbl j).addrs) (hsh : ∀ j < s.sb.ninodes, sh' j = sh j) :
    Good s tbl' sh' := by
  have hown : own s tbl' sh' = own s tbl sh := by
    funext p
    obtain ⟨j, n⟩ := p
    by_cases hj : j < s.sb.ninodes
    · cases n <;> simp only [own, hsh j hj, htbl j hj, daddr_of_addrs (htbl j hj)]
    · cases n <;> simp only [own, hj, false_and, if_false]
  refine ⟨h.layout, h.super, by rw [hown]; exact h.exact, fun j hj n hn => ?_, fun j hj hdir => ?_⟩
  · rw [hsh j hj] at hn
    rw [daddr_of_addrs (htbl j hj)]
    exact h.unmapped j hj n hn
  · rw [hsh j hj] at hdir
    rw [htbl j hj]
    exact h.direct j hj hdir

theorem Good.data_le (h : Good s tbl sh) (hi : i < s.sb.ninodes) : (sh i).data ≤ maxFile := by
  by_contra hlt
  have hne := h.pos (own_data tbl hi (Nat.lt_of_not_le hlt))
  have hmax : maxFile = ndirect + nindirect := rfl
  exact hne (by rw [daddr, dif_neg (by omega), if_neg (by omega)])

theorem Good.addrs_lt (h : Good s tbl sh) (hi : i < s.sb.ninodes) (k : Fin (ndirect + 1)) : (tbl i).addrs k < 2 ^ 32 := by
  have hsize := h.layout.size
  by_cases hz : (tbl i).addrs k = 0
  · omega
  · by_cases hk : (k : Nat) < ndirect
    · have hd : daddr s.disk (tbl i) k = (tbl i).addrs k := dif_pos hk
      have hb := (h.owned (own_data tbl hi (h.mapped hi (show daddr s.disk (tbl i) k ≠ 0 by rw [hd]; exact hz)))).2.1
      rw [hd] at hb
      omega
    · have hlast : k = ind := Fin.ext (by simp only [Fin.val_last]; omega)
      rw [hlast] at hz ⊢
      have hb := (h.owned (own_ind tbl hi (h.indirect hi hz))).2.1
      omega

/-- What is in the inode on the disk is in no block of a file, no list of blocks and not in the bitmap. -/
theorem Good.write_inode (h : Good s tbl sh) (hi : i < s.sb.ninodes) {data : Mem}
    (hu : u = logWrite s (iblock s.sb i) data) :
    Good u tbl sh ∧ own u tbl sh = own s tbl sh ∧ ∀ j < s.sb.ninodes, view u.disk (tbl j) = view s.disk (tbl j) := by
  have hiblock := h.layout.iblock hi
  have hnmeta := h.layout.nmeta_le
  have hdisk : ∀ x, x ≠ iblock s.sb i → u.disk x = s.disk x := by
    intro x hx
    rw [hu, logWrite_disk, Function.update_of_ne hx]
  have hplace : ∀ p x, own s tbl sh p = some x → u.disk x = s.disk x := by
    intro p x hp
    have := (h.owned hp).1
    exact hdisk x (by omega)
  have hdaddr : ∀ j < s.sb.ninodes, daddr u.disk (tbl j) = daddr s.disk (tbl j) :=
    fun j hj => daddr_congr fun hne => hplace _ _ (own_ind tbl hj (h.indirect hj hne))
  obtain ⟨hgood, hown⟩ := h.carry (by rw [hu, logWrite_sb]) (hdisk 1 (by omega))
    (fun b hb => hdisk _ (by have := h.layout.bblock hb; omega)) hdaddr
  exact ⟨hgood, hown, fun j hj => view_congr (hdaddr j hj) fun _ hne => hplace _ _ (own_data tbl hj (h.mapped hj hne))⟩

/-! ## The disk between calls -/

/-- The blocks that each file has by its size. -/
def sized (size : Nat → Nat) : Nat → Shape := shapeOf ∘ fun j => blocksOf (size j)

/-- Each inode on the disk lists the blocks that its size asks for, and no others. -/
structure Sound (s : St) : Prop where
  good : Good s (dinode s) (sized fun j => (dinode s j).size)
  free : ∀ j < s.sb.ninodes, (dinode s j).type = 0 → (dinode s j).size = 0

theorem Sound.size_le (h : Sound s) (hi : i < s.sb.ninodes) : (dinode s i).size ≤ maxFile * bsize :=
  (le_blocksOf _).trans (Nat.mul_le_mul_right _ (h.good.data_le hi))

/-- One inode is new, on the disk too, and the others are as they were. -/
structure Changed (i : Nat) (ip : Dinode) (s t : St) : Prop where
  sound : Sound t
  sb : t.sb = s.sb
  inode : dinode t i = ip
  dinodes : ∀ j < s.sb.ninodes, j ≠ i → dinode t j = dinode s j
  others : ∀ j < s.sb.ninodes, j ≠ i → view t.disk (dinode t j) = view s.disk (dinode s j)

theorem Sound.refl (h : Sound s) : Changed i (dinode s i) s s := ⟨h, rfl, rfl, fun _ _ _ => rfl, fun _ _ _ => rfl⟩

/-- `iupdate` of an inode that is ahead of the disk. -/
theorem Sound.iupdate {ip : Dinode} (h : Sound s) (hi : i < s.sb.ninodes) (hsb : t.sb = s.sb)
    (hgood : Good t (Function.update (dinode s) i ip) (sized (Function.update (fun j => (dinode s j).size) i ip.size)))
    (hdinodes : ∀ j < s.sb.ninodes, j ≠ i → dinode t j = dinode s j)
    (hothers : ∀ j < s.sb.ninodes, j ≠ i → view t.disk (dinode s j) = view s.disk (dinode s j))
    (hfree : ip.type = 0 → ip.size = 0) :
    Changed i ip s (iupdate t i ip) ∧ view (iupdate t i ip).disk ip = view t.disk ip := by
  have hit : i < t.sb.ninodes := by rw [hsb]; exact hi
  have hself : Function.update (dinode s) i ip i = ip := Function.update_self ..
  have hfits : ip.Fits := by
    have hdata := hgood.data_le hit
    have haddrs := hgood.addrs_lt hit
    simp only [sized, shapeOf, Function.comp, Function.update_self] at hdata
    rw [hself] at haddrs
    have := (le_blocksOf ip.size).trans (Nat.mul_le_mul_right _ hdata)
    have := maxFile_lt
    exact ⟨by omega, haddrs⟩
  obtain ⟨hu, -, hviews⟩ := hgood.write_inode hit (u := Fs.iupdate t i ip) rfl
  have hall : ∀ j < s.sb.ninodes, dinode (Fs.iupdate t i ip) j = Function.update (dinode s) i ip j := by
    intro j hj
    rw [dinode_iupdate t i j hfits, Function.update_apply]
    split
    · rfl
    · rename_i hne
      exact hdinodes j hj hne
  have hsbu : (Fs.iupdate t i ip).sb = s.sb := hsb
  refine ⟨⟨⟨hu.congr ?_ ?_, fun j hj => ?_⟩, hsb, ?_, fun j hj hne => ?_, fun j hj hne => ?_⟩, ?_⟩
  · rw [hsbu]
    exact fun j hj => by rw [hall j hj]
  · rw [hsbu]
    intro j hj
    simp only [sized, Function.comp]
    rw [hall j hj, Function.update_apply, Function.update_apply]
    split <;> rfl
  · rw [hsbu] at hj
    rw [hall j hj, Function.update_apply]
    split
    · exact hfree
    · exact h.free j hj
  · rw [hall i hi, hself]
  · rw [hall j hj, Function.update_of_ne hne]
  · have := hviews j (by rw [hsb]; exact hj)
    rw [Function.update_of_ne hne] at this
    rw [hall j hj, Function.update_of_ne hne, this, hothers j hj hne]
  · have := hviews i hit
    rwa [hself] at this

/-! ## `readi` and `writei` -/

/-- `f` is the file of inode `d`. -/
structure Holds (disk : Nat → Mem) (d : Dinode) (f : Inode) : Prop where
  size : f.size = d.size
  blocks : f.blocks = view disk d

def readAnswer : Option (List UInt8) → Answer
  | none => .failed
  | some bytes => .bytes bytes

/-- An `off + n` that is not below `off` has not wrapped. -/
theorem no_wrap {off n : Nat} (hn : n < 2 ^ 32) (hoff : off < 2 ^ 32) (h : ¬ (off + n) % 2 ^ 32 < off) :
    (off + n) % 2 ^ 32 = off + n := by
  omega

theorem Sound.readi (h : Sound s) (hi : i < s.sb.ninodes) {f : Inode} (hf : Holds s.disk (dinode s i) f) {n : Nat}
    (hn : n < 2 ^ 32) (hdev : (dinode s i).type ≠ tDev) (off : Nat) :
    readi s (dinode s i) off n = .ok (readAnswer (Xv6.readi f off n), dinode s i, s) := by
  have hmax := maxFile_lt
  have hfits := f.fits
  unfold Fs.readi Xv6.readi
  rw [if_neg hdev, hf.size]
  by_cases hbad : off > (dinode s i).size ∨ (off + n) % 2 ^ 32 < off
  · rw [if_pos hbad, if_pos hbad]
    rfl
  · rw [if_neg hbad, if_neg hbad]
    have hwrap := no_wrap hn (by have := hf.size; omega) fun hlt => hbad (.inr hlt)
    rw [hwrap]
    generalize hm : (if off + n > (dinode s i).size then (dinode s i).size - off else n) = m
    have hend : off + m ≤ (dinode s i).size := by
      rw [← hm]
      split <;> omega
    have hloop := readLoop_eq h.good hi hf.blocks m 0 off (hend.trans (le_blocksOf _))
    dsimp only
    rw [hloop]
    rfl

section Write

variable {tbl' : Nat → Dinode} {sh' : Nat → Shape}

/-- The blocks logged for a stretch of a file: its own, its list of blocks, and one of the bitmap for each new one,
    of which a small disk has one only. -/
theorem Moved.logs {lo hi' : Nat} (hm : Moved i (fun bn => lo ≤ bn ∧ bn < hi') s tbl sh t tbl' sh') :
    ∃ L : Finset Nat, L.card + total s.sb sh ≤ total s.sb sh' + (hi' - lo) + 1 ∧
      (s.sb.size ≤ bpb → L.card ≤ hi' - lo + 2) ∧ ∀ x ∈ t.logged, x ∈ s.logged ∨ x ∈ L := by
  obtain ⟨bm, hcard, hbm, hlogged⟩ := hm.logged
  let file := (Finset.Ico lo hi').image fun bn => (own t tbl' sh' ⟨i, some bn⟩).getD 0
  let list := (own t tbl' sh' ⟨i, none⟩).getD 0
  have h1 := Finset.card_insert_le list (bm ∪ file)
  have h2 := Finset.card_union_le bm file
  have h3 : file.card ≤ hi' - lo := Finset.card_image_le.trans (Nat.card_Ico ..).le
  refine ⟨insert list (bm ∪ file), by omega, fun hsmall => ?_, fun x hx => ?_⟩
  · have hone : bm.card ≤ 1 := by
      rw [Finset.card_le_one]
      intro x hx z hz
      obtain ⟨b, hb, ex⟩ := hbm x hx
      obtain ⟨d, hd, ez⟩ := hbm z hz
      rw [ex, ez, bblock, bblock, Nat.div_eq_of_lt (by omega), Nat.div_eq_of_lt (by omega)]
    omega
  · rw [Finset.mem_insert, Finset.mem_union]
    rcases hlogged x hx with hx | hx | ⟨p, hp, hx⟩
    · exact .inl hx
    · exact .inr (.inr (.inl hx))
    · rcases hp with e | ⟨bn, hbn, e⟩
      · refine .inr (.inl ?_)
        rw [e] at hx
        simp [list, hx]
      · refine .inr (.inr (.inr (Finset.mem_image.mpr ⟨bn, Finset.mem_Ico.mpr hbn, ?_⟩)))
        rw [e] at hx
        simp [hx]

/-- An inode whose file has got no more blocks lists the same ones. -/
theorem Moved.addrs_eq {bs : Nat → Prop} (h : Good s tbl sh) (hm : Moved i bs s tbl sh t tbl' sh') (hi : i < s.sb.ninodes)
    (hsh : sh' i = sh i) : (tbl' i).addrs = (tbl i).addrs := by
  have hit : i < t.sb.ninodes := by rw [hm.sb]; exact hi
  funext k
  by_cases hk : (k : Nat) < ndirect
  · have hd : ∀ d : Dinode, ∀ disk, daddr disk d k = d.addrs k := fun d disk => dif_pos hk
    rw [← hd (tbl' i) t.disk, ← hd (tbl i) s.disk]
    by_cases hdata : (k : Nat) < (sh i).data
    · have hnew := hm.mono _ _ (own_data tbl hi hdata)
      rw [own_data tbl' hit (by rw [hsh]; exact hdata)] at hnew
      exact Option.some.inj hnew
    · rw [h.unmapped i hi k (Nat.le_of_not_lt hdata), hm.good.unmapped i hit k (by rw [hsh]; exact Nat.le_of_not_lt hdata)]
  · have hlast : k = ind := Fin.ext (by simp only [Fin.val_last]; omega)
    rw [hlast]
    cases hind : (sh i).indirect with
    | false => rw [h.direct i hi hind, hm.good.direct i hit (by rw [hsh]; exact hind)]
    | true =>
      have hnew := hm.mono _ _ (own_ind tbl hi hind)
      rw [own_ind tbl' hit (by rw [hsh]; exact hind)] at hnew
      exact Option.some.inj hnew

/-- `writei` has left `f` in the file. -/
structure Written (i : Nat) (src : List UInt8) (off : Nat) (s : St) (f : Inode) (ip : Dinode) (t : St) : Prop where
  changed : Changed i ip s t
  holds : Holds t.disk ip f
  attrs : ip = { dinode s i with size := ip.size, addrs := ip.addrs }
  logged : ∃ L : Finset Nat, L.card + total s.sb (sized fun j => (dinode s j).size) ≤
      total s.sb (sized (Function.update (fun j => (dinode s j).size) i f.size)) +
        (blocksOf (off + src.length) - off / bsize) + 2 ∧
    (s.sb.size ≤ bpb → L.card ≤ blocksOf (off + src.length) - off / bsize + 3) ∧
    ∀ x ∈ t.logged, x ∈ s.logged ∨ x ∈ L

theorem blocksOf_max (a b : Nat) : max (blocksOf a) (blocksOf b) = blocksOf (max a b) := by
  simp only [blocksOf, bsize]
  omega

theorem sized_update (size : Nat → Nat) (i n : Nat) :
    sized (Function.update size i n) = shapeOf ∘ Function.update (fun j => blocksOf (size j)) i (blocksOf n) := by
  unfold sized
  congr 1
  funext j
  rw [Function.update_apply, Function.update_apply]
  split <;> rfl

/-- The call is turned down. -/
def Refused (size off n : Nat) : Prop := off > size ∨ (off + n) % 2 ^ 32 < off ∨ (off + n) % 2 ^ 32 > maxFile * bsize

theorem not_refused {size off n : Nat} (hsize : size ≤ maxFile * bsize) (hn : n < 2 ^ 32) (h : ¬ Refused size off n) :
    off ≤ size ∧ off + n ≤ maxFile * bsize ∧ (off + n) % 2 ^ 32 = off + n := by
  have := maxFile_lt
  unfold Refused at h
  omega

/-- What `writei` of the whole file does. -/
theorem writei_file (f : Inode) {src : List UInt8} (hlen : src.length < 2 ^ 32) (off : Nat) :
    (Refused f.size off src.length ∧ Xv6.writei f src off = none) ∨
    (¬ Refused f.size off src.length ∧ ∃ f', Xv6.writei f src off = some f' ∧ f'.size = max f.size (off + src.length) ∧
      f'.blocks = Xv6.writeLoop src 0 off f.blocks) := by
  by_cases hr : Refused f.size off src.length
  · refine .inl ⟨hr, ?_⟩
    unfold Xv6.writei
    dsimp only
    by_cases hbad : off > f.size ∨ (off + src.length) % 2 ^ 32 < off
    · rw [if_pos hbad]
    · rw [if_neg hbad, dif_pos (by unfold Refused at hr; omega)]
  · obtain ⟨hoff, hbig, hwrap⟩ := not_refused f.fits hlen hr
    refine .inr ⟨hr, ?_⟩
    unfold Xv6.writei
    simp only [hwrap]
    rw [if_neg (by omega), dif_neg (by omega)]
    refine ⟨_, rfl, ?_, ?_⟩
    · split
      · show off + src.length = _
        omega
      · show f.size = _
        omega
    · split <;> rfl

theorem writei_refused {ip : Dinode} {src : List UInt8} {off : Nat} (hdev : ip.type ≠ tDev)
    (hr : Refused ip.size off src.length) : writei s i ip src off = .ok (.failed, ip, s) := by
  unfold writei
  dsimp only
  rw [if_neg hdev]
  by_cases hbad : off > ip.size ∨ (off + src.length) % 2 ^ 32 < off
  · rw [if_pos hbad]
  · rw [if_neg hbad, if_pos (by unfold Refused at hr; omega)]

/-- `writei` behind its loop. -/
def writeEnd (i n : Nat) (r : Nat × Dinode × St) : Answer × Dinode × St :=
  if n > 0 ∧ r.1 > r.2.1.size then (.wrote n, { r.2.1 with size := r.1 }, iupdate r.2.2 i { r.2.1 with size := r.1 })
  else (.wrote n, r.2.1, r.2.2)

theorem writei_run {ip : Dinode} {src : List UInt8} {off : Nat} (hdev : ip.type ≠ tDev)
    (hr : ¬ Refused ip.size off src.length) :
    writei s i ip src off = (writeLoop src s ip 0 off).map (writeEnd i src.length) := by
  unfold Refused at hr
  unfold writei
  dsimp only
  rw [if_neg hdev, if_neg (by omega), if_neg (by omega)]
  cases writeLoop src s ip 0 off with
  | error f => rfl
  | ok r =>
    show (if _ then _ else _) = Except.ok (writeEnd i src.length r)
    unfold writeEnd
    split <;> rfl

theorem Sound.writei (h : Sound s) (hi : i < s.sb.ninodes) {f : Inode} (hf : Holds s.disk (dinode s i) f)
    {src : List UInt8} (hlen : src.length < 2 ^ 32) (hdev : (dinode s i).type ≠ tDev) (hfile : (dinode s i).type ≠ 0)
    (off : Nat) :
    (Xv6.writei f src off = none ∧ writei s i (dinode s i) src off = .ok (.failed, dinode s i, s)) ∨
    ∃ f', Xv6.writei f src off = some f' ∧
      ((nmeta s.sb + total s.sb (sized (Function.update (fun j => (dinode s j).size) i f'.size)) ≤ s.sb.size ∧
        ∃ ip t, writei s i (dinode s i) src off = .ok (.wrote src.length, ip, t) ∧ Written i src off s f' ip t) ∨
      (s.sb.size < nmeta s.sb + total s.sb (sized (Function.update (fun j => (dinode s j).size) i f'.size)) ∧
        writei s i (dinode s i) src off = .error .outOfBlocks)) := by
  have hcases := writei_file f hlen off
  rw [hf.size] at hcases
  rcases hcases with ⟨hr, hnone⟩ | ⟨hr, f', hsome, hsize', hblocks'⟩
  · exact .inl ⟨hnone, writei_refused hdev hr⟩
  refine .inr ⟨f', hsome, ?_⟩
  obtain ⟨hoff, hbig, -⟩ := not_refused (h.size_le hi) hlen hr
  -- the blocks of the new size
  have hshape : sized (Function.update (fun j => (dinode s j).size) i f'.size) = shapeOf ∘
      Function.update (fun j => blocksOf (dinode s j).size) i
        (max (blocksOf (dinode s i).size) (blocksOf (off + src.length))) := by
    rw [sized_update, hsize', blocksOf_max]
  have hloop := writeLoop_eq i src src.length 0 off rfl h.good hi
    (hoff.trans (le_blocksOf _)) hbig rfl
  rw [← hshape] at hloop
  rw [writei_run hdev hr]
  rcases hloop with ⟨hroom, ip, t, hrun, hwrote⟩ | ⟨hfull, hrun⟩
  · obtain ⟨hmoved, honly, hview, hothers⟩ := hwrote
    rw [← hshape] at hmoved
    rw [Nat.sub_zero] at hmoved
    have hsize : ip.size = (dinode s i).size := by rw [honly]
    have htype : ip.type = (dinode s i).type := by rw [honly]
    obtain ⟨L, hcard, hsmall, hlogged⟩ := hmoved.logs
    change L.card + total s.sb (sized fun j => (dinode s j).size) ≤ _ at hcard
    refine .inl ⟨hroom, ?_⟩
    rw [hrun]
    by_cases hgrow : src.length > 0 ∧ off + src.length > ip.size
    · -- the size grows, and `iupdate` writes the inode
      have hnew : f'.size = off + src.length := by omega
      have hgood : Good t (Function.update (dinode s) i { ip with size := off + src.length })
          (sized (Function.update (fun j => (dinode s j).size) i (off + src.length))) := by
        rw [← hnew]
        refine hmoved.good.congr (fun j _ => ?_) fun _ _ => rfl
        rw [Function.update_apply, Function.update_apply]
        split <;> rfl
      obtain ⟨hchanged, hkeep⟩ := h.iupdate hi hmoved.sb hgood (fun j hj _ => hmoved.dinodes j hj) hothers
        (fun hz => absurd (htype ▸ hz) hfile)
      refine ⟨_, _, congrArg Except.ok (if_pos hgrow), hchanged, ⟨hnew, ?_⟩, ?_, insert (iblock s.sb i) L, ?_,
        fun hle => (Finset.card_insert_le ..).trans (Nat.succ_le_succ (hsmall hle)), fun x hx => ?_⟩
      · rw [hkeep, hblocks', hf.blocks, ← hview]
        exact (view_of_addrs rfl _).symm
      · rw [honly]
      · have := Finset.card_insert_le (iblock s.sb i) L
        omega
      · rw [Finset.mem_insert]
        rcases List.mem_cons.mp hx with e | hx
        · exact .inr (.inl (by rw [e, hmoved.sb]))
        · exact (hlogged x hx).imp_right .inr
    · -- the file has its blocks already, and the inode is as it was
      have hsame : f'.size = (dinode s i).size := by omega
      have hself : Function.update (fun j => (dinode s j).size) i f'.size = fun j => (dinode s j).size := by
        rw [hsame]
        exact Function.update_eq_self ..
      rw [hself] at hmoved hcard
      have haddrs := hmoved.addrs_eq h.good hi rfl
      rw [Function.update_self] at haddrs
      have hip : ip = dinode s i := by rw [honly, haddrs]
      rw [hip, Function.update_eq_self] at hmoved
      refine ⟨_, _, congrArg Except.ok (if_neg hgrow), ⟨⟨?_, ?_⟩, hmoved.sb, ?_, ?_, ?_⟩, ⟨?_, ?_⟩, ?_, L, ?_,
        fun hle => (hsmall hle).trans (Nat.le_succ _), hlogged⟩
      · refine hmoved.good.congr ?_ ?_
        · rw [hmoved.sb]
          exact fun j hj => by rw [hmoved.dinodes j hj]
        · rw [hmoved.sb]
          intro j hj
          simp only [sized, Function.comp]
          rw [hmoved.dinodes j hj]
      · rw [hmoved.sb]
        intro j hj
        rw [hmoved.dinodes j hj]
        exact h.free j hj
      · rw [hmoved.dinodes i hi, hip]
      · exact fun j hj _ => hmoved.dinodes j hj
      · intro j hj hne
        rw [hmoved.dinodes j hj, hothers j hj hne]
      · rw [hsame, hip]
      · rw [hblocks', hf.blocks, ← hview]
      · rw [hip]
      · rw [hself]
        omega
  · refine .inr ⟨hfull, ?_⟩
    rw [hrun]
    rfl

end Write

/-! ## `itrunc` -/

section Trunc

/-- The blocks `l` are no longer in use, and only the bitmap has changed. -/
structure Freed (s t : St) (l : List Nat) : Prop where
  sb : t.sb = s.sb
  same : ∀ x, x < s.sb.bmapstart ∨ nmeta s.sb ≤ x → t.disk x = s.disk x
  used : ∀ b, inUse t b = (inUse s b && decide (b ∉ l))

theorem Freed.refl (s : St) : Freed s s [] := ⟨rfl, fun _ _ => rfl, fun b => by simp⟩

theorem Freed.trans {l l' : List Nat} (h : Freed s t l) (h' : Freed t u l') : Freed s u (l ++ l') := by
  refine ⟨h'.sb.trans h.sb, fun x hx => ?_, fun b => ?_⟩
  · rw [h'.same x (by rw [h.sb]; exact hx), h.same x hx]
  · rw [h'.used, h.used, Bool.and_assoc, ← Bool.decide_and]
    simp [not_or]

theorem freed_unmark {b : Nat} (L : Layout s.sb) (hb : b < s.sb.size) : Freed s (unmark s b) [b] := by
  refine ⟨rfl, fun x hx => ?_, fun c => ?_⟩
  · have := L.bblock hb
    unfold unmark
    rw [logWrite_disk, Function.update_of_ne (by omega)]
  · rw [inUse_unmark]
    simp [eq_comm]

/-- `bfree` of each of them. -/
def freeAll : List Nat → St → Except Panic St
  | [], s => .ok s
  | b :: l, s => (bfree s b).bind (freeAll l)

theorem freeAll_append (l l' : List Nat) (s : St) : freeAll (l ++ l') s = (freeAll l s).bind (freeAll l') := by
  induction l generalizing s with
  | nil => rfl
  | cons b l ih =>
    simp only [List.cons_append, freeAll]
    cases bfree s b with
    | error f => rfl
    | ok t => exact ih t

theorem freeAll_eq {l : List Nat} (L : Layout s.sb) (hsuper : readsb s.disk = s.sb) (hl : l.Nodup)
    (hused : ∀ b ∈ l, b < s.sb.size ∧ inUse s b = true) : ∃ t, freeAll l s = .ok t ∧ Freed s t l := by
  induction l generalizing s with
  | nil => exact ⟨s, rfl, .refl s⟩
  | cons b l ih =>
    obtain ⟨hb, hl⟩ := List.nodup_cons.mp hl
    obtain ⟨hlt, huse⟩ := hused b (List.mem_cons_self ..)
    have hfreed := freed_unmark L hlt
    have hsb := hfreed.sb
    have hrest : ∀ x ∈ l, x < (unmark s b).sb.size ∧ inUse (unmark s b) x = true := by
      intro x hx
      obtain ⟨h1, h2⟩ := hused x (List.mem_cons_of_mem _ hx)
      refine ⟨h1, ?_⟩
      rw [hfreed.used, h2]
      have : x ≠ b := fun e => hb (e ▸ hx)
      simp [this]
    have hsuper' : readsb (unmark s b).disk = (unmark s b).sb := by
      rw [readsb_congr (hfreed.same 1 (.inl L.super_lt)), hsuper]
      rfl
    obtain ⟨t, ht, hft⟩ := ih (s := unmark s b) L hsuper' hl hrest
    refine ⟨t, ?_, hfreed.trans hft⟩
    rw [freeAll, bfree_eq hsuper huse]
    exact ht

theorem freeIndirect_eq (a : Mem) (js : List Nat) (s : St) :
    freeIndirect a js s = freeAll ((js.filter fun j => load a 4 (4 * j) ≠ 0).map fun j => load a 4 (4 * j)) s := by
  induction js generalizing s with
  | nil => rfl
  | cons j js ih =>
    rw [freeIndirect]
    by_cases hz : load a 4 (4 * j) = 0
    · rw [if_pos hz, ih]
      simp [hz]
    · rw [if_neg hz, List.filter_cons_of_pos (by simpa using hz), List.map_cons, freeAll]
      exact congrArg _ (funext ih)

/-- The inode behind the first loop. -/
def zeroed (ip : Dinode) (is : List (Fin ndirect)) : Dinode :=
  { ip with addrs := fun k => if ∃ i ∈ is, k = i.castSucc then 0 else ip.addrs k }

theorem zeroed_cons (ip : Dinode) (i : Fin ndirect) (is : List (Fin ndirect)) :
    zeroed (ip.setAddr i.castSucc 0) is = zeroed ip (i :: is) := by
  unfold zeroed
  have haddrs : (fun k => if ∃ j ∈ is, k = j.castSucc then 0 else (ip.setAddr i.castSucc 0).addrs k) =
      fun k => if ∃ j ∈ i :: is, k = j.castSucc then 0 else ip.addrs k := by
    funext k
    rw [setAddr_addrs]
    by_cases hk : k = i.castSucc
    · simp [hk]
    · simp [hk]
  rw [haddrs]
  rfl

theorem setAddr_self {ip : Dinode} {k : Fin (ndirect + 1)} (h : ip.addrs k = 0) : ip.setAddr k 0 = ip := by
  unfold Dinode.setAddr
  rw [← h, Function.update_eq_self]

theorem freeDirect_eq {is : List (Fin ndirect)} (his : is.Nodup) (s : St) (ip : Dinode) :
    freeDirect is s ip =
      (freeAll ((is.filter fun i => ip.addrs i.castSucc ≠ 0).map fun i => ip.addrs i.castSucc) s).map fun t =>
        (zeroed ip is, t) := by
  induction is generalizing s ip with
  | nil => simp [freeDirect, freeAll, zeroed, Except.map]
  | cons i is ih =>
    obtain ⟨hi, his⟩ := List.nodup_cons.mp his
    have hother : ∀ j ∈ is, (ip.setAddr i.castSucc 0).addrs j.castSucc = ip.addrs j.castSucc := by
      intro j hj
      rw [setAddr_addrs, if_neg]
      intro e
      rw [Fin.castSucc_inj] at e
      exact hi (e ▸ hj)
    rw [freeDirect]
    by_cases hz : ip.addrs i.castSucc = 0
    · rw [if_pos hz, ih his, ← zeroed_cons, setAddr_self hz]
      simp [hz]
    · rw [if_neg hz, List.filter_cons_of_pos (by simpa using hz), List.map_cons, freeAll]
      cases hb : bfree s (ip.addrs i.castSucc) with
      | error f => rfl
      | ok t =>
        show freeDirect is t (ip.setAddr i.castSucc 0) = _
        rw [ih his, zeroed_cons]
        have hlist : ((is.filter fun j => (ip.setAddr i.castSucc 0).addrs j.castSucc ≠ 0).map fun j =>
            (ip.setAddr i.castSucc 0).addrs j.castSucc) =
            (is.filter fun j => ip.addrs j.castSucc ≠ 0).map fun j => ip.addrs j.castSucc := by
          rw [List.filter_congr (q := fun j => decide (ip.addrs j.castSucc ≠ 0)) fun j hj => by rw [hother j hj]]
          exact List.map_congr_left fun j hj => hother j (List.mem_filter.mp hj).1
        rw [hlist]
        rfl

/-- The blocks of a file. -/
def fileBlocks (disk : Nat → Mem) (d : Dinode) : List Nat :=
  ((List.range maxFile).filter fun bn => daddr disk d bn ≠ 0).map (daddr disk d)

def allBlocks (disk : Nat → Mem) (d : Dinode) : List Nat :=
  fileBlocks disk d ++ if d.addrs ind = 0 then [] else [d.addrs ind]

theorem Good.mem_allBlocks (h : Good s tbl sh) (hi : i < s.sb.ninodes) {b : Nat} :
    b ∈ allBlocks s.disk (tbl i) ↔ ∃ n, own s tbl sh ⟨i, n⟩ = some b := by
  unfold allBlocks fileBlocks
  rw [List.mem_append, List.mem_map]
  constructor
  · intro hb
    rcases hb with ⟨bn, hbn, e⟩ | hb
    · have hne := (List.mem_filter.mp hbn).2
      exact ⟨some bn, by rw [own_data tbl hi (h.mapped hi (by simpa using hne)), e]⟩
    · split at hb
      · cases hb
      · rename_i hne
        rw [List.mem_singleton] at hb
        exact ⟨none, by rw [own_ind tbl hi (h.indirect hi hne), hb]⟩
  · intro hb
    obtain ⟨n, hn⟩ := hb
    have hpos := h.pos hn
    cases n with
    | none =>
      simp only [own] at hn
      split at hn
      · cases hn
        exact .inr (by rw [if_neg hpos]; exact List.mem_singleton_self _)
      · cases hn
    | some bn =>
      simp only [own] at hn
      split at hn
      · rename_i hlt
        cases hn
        have := h.data_le hi
        refine .inl ⟨bn, List.mem_filter.mpr ⟨List.mem_range.mpr (by omega), by simpa using hpos⟩, rfl⟩
      · cases hn

theorem Good.nodup_allBlocks (h : Good s tbl sh) (hi : i < s.sb.ninodes) : (allBlocks s.disk (tbl i)).Nodup := by
  have hplace : ∀ bn, daddr s.disk (tbl i) bn ≠ 0 → own s tbl sh ⟨i, some bn⟩ = some (daddr s.disk (tbl i) bn) :=
    fun bn hne => own_data tbl hi (h.mapped hi hne)
  refine List.Nodup.append ?_ ?_ ?_
  · refine List.Nodup.map_on ?_ (List.nodup_range.filter _)
    intro a ha b hb e
    have ha := hplace a (by simpa using (List.mem_filter.mp ha).2)
    have hb := hplace b (by simpa using (List.mem_filter.mp hb).2)
    rw [← e] at hb
    have := h.exact.distinct _ _ _ ha hb
    simpa using this
  · split
    · exact List.nodup_nil
    · exact List.nodup_singleton _
  · intro x hx hy
    split at hy
    · cases hy
    · rename_i hne
      rw [List.mem_singleton] at hy
      obtain ⟨bn, hbn, e⟩ := List.mem_map.mp hx
      have hdat := hplace bn (by simpa using (List.mem_filter.mp hbn).2)
      have hlist := own_ind tbl hi (h.indirect hi hne)
      rw [e, hy] at hdat
      have := h.exact.distinct _ _ _ hdat hlist
      simp at this

/-- The blocks in the order `itrunc` frees them. -/
theorem fileBlocks_eq (disk : Nat → Mem) (d : Dinode) :
    fileBlocks disk d =
      (((List.finRange ndirect).filter fun i => d.addrs i.castSucc ≠ 0).map fun i => d.addrs i.castSucc) ++
        if d.addrs ind = 0 then []
        else ((List.range nindirect).filter fun j => load (disk (d.addrs ind)) 4 (4 * j) ≠ 0).map fun j =>
          load (disk (d.addrs ind)) 4 (4 * j) := by
  have hdirect : ∀ i : Fin ndirect, daddr disk d i = d.addrs i.castSucc := fun i => dif_pos i.isLt
  have hlisted : ∀ j, daddr disk d (ndirect + j) =
      if j < nindirect ∧ d.addrs ind ≠ 0 then load (disk (d.addrs ind)) 4 (4 * j) else 0 := by
    intro j
    rw [daddr, dif_neg (by omega), Nat.add_sub_cancel_left]
  unfold fileBlocks
  rw [show maxFile = ndirect + nindirect from rfl, List.range_add, List.filter_append, List.map_append]
  congr 1
  · rw [← List.map_coe_finRange_eq_range, List.filter_map, List.map_map]
    simp only [Function.comp_def, hdirect]
  · rw [List.filter_map, List.map_map]
    simp only [Function.comp_def, hlisted]
    by_cases hz : d.addrs ind = 0
    · simp [hz]
    · rw [if_neg hz]
      have hin : ∀ j ∈ List.range nindirect, (if j < nindirect ∧ d.addrs ind ≠ 0 then load (disk (d.addrs ind)) 4 (4 * j) else 0) =
          load (disk (d.addrs ind)) 4 (4 * j) := fun j hj => if_pos ⟨List.mem_range.mp hj, hz⟩
      rw [List.filter_congr (q := fun j => decide (load (disk (d.addrs ind)) 4 (4 * j) ≠ 0)) fun j hj => by rw [hin j hj]]
      exact List.map_congr_left fun j hj => hin j (List.mem_filter.mp hj).1

/-- An inode without blocks. -/
def emptied (ip : Dinode) : Dinode := { ip with size := 0, addrs := fun _ => 0 }

/-- `itrunc` between its first loop and `ip->size = 0`. -/
def truncList (ip : Dinode) (s : St) : Except Panic (Dinode × St) :=
  if ip.addrs ind = 0 then .ok (ip, s)
  else (freeIndirect (s.disk (ip.addrs ind)) (List.range nindirect) s).bind fun s =>
    (bfree s (ip.addrs ind)).bind fun s => .ok (ip.setAddr ind 0, s)

theorem itrunc_split (s : St) (i : Nat) (ip : Dinode) :
    itrunc s i ip = (freeDirect (List.finRange ndirect) s ip).bind fun r => (truncList r.1 r.2).bind fun r =>
      .ok ({ r.1 with size := 0 }, Fs.iupdate r.2 i { r.1 with size := 0 }) := rfl

theorem zeroed_ind (ip : Dinode) (is : List (Fin ndirect)) : (zeroed ip is).addrs ind = ip.addrs ind := by
  unfold zeroed
  dsimp only
  rw [if_neg]
  intro h
  obtain ⟨i, -, hi⟩ := h
  exact absurd hi.symm (Fin.castSucc_lt_last i).ne

theorem zeroed_all (ip : Dinode) :
    { (zeroed ip (List.finRange ndirect)).setAddr ind 0 with size := 0 } = emptied ip := by
  have haddrs : ((zeroed ip (List.finRange ndirect)).setAddr ind 0).addrs = fun _ => 0 := by
    funext k
    rw [setAddr_addrs]
    split
    · rfl
    · rename_i hk
      have hlt : (k : Nat) < ndirect := by
        have h1 := k.isLt
        have h2 : (k : Nat) ≠ ndirect := fun e => hk (Fin.ext e)
        omega
      unfold zeroed
      dsimp only
      exact if_pos ⟨⟨k, hlt⟩, List.mem_finRange _, rfl⟩
  dsimp only
  rw [haddrs]
  rfl

theorem Good.itrunc (h : Good s tbl sh) (hi : i < s.sb.ninodes) :
    ∃ t, itrunc s i (tbl i) = .ok (emptied (tbl i), Fs.iupdate t i (emptied (tbl i))) ∧
      Freed s t (allBlocks s.disk (tbl i)) := by
  have hnodup := h.nodup_allBlocks hi
  have hused : ∀ b ∈ allBlocks s.disk (tbl i), b < s.sb.size ∧ inUse s b = true := by
    intro b hb
    obtain ⟨n, hn⟩ := (h.mem_allBlocks hi).mp hb
    exact (h.owned hn).2
  obtain ⟨t, ht, hfreed⟩ := freeAll_eq h.layout h.super hnodup hused
  refine ⟨t, ?_, hfreed⟩
  rw [allBlocks, fileBlocks_eq, List.append_assoc] at ht hnodup hused
  -- the first loop frees the front of the list
  obtain ⟨t1, ht1, hfreed1⟩ := freeAll_eq h.layout h.super (List.nodup_append.mp hnodup).1
    fun b hb => hused b (List.mem_append_left _ hb)
  rw [freeAll_append, ht1] at ht
  change freeAll _ t1 = _ at ht
  rw [itrunc_split, freeDirect_eq (List.nodup_finRange _), ht1]
  have hrest : truncList (zeroed (tbl i) (List.finRange ndirect)) t1 =
      .ok ((zeroed (tbl i) (List.finRange ndirect)).setAddr ind 0, t) := by
    unfold truncList
    rw [zeroed_ind]
    by_cases hz : (tbl i).addrs ind = 0
    · rw [if_pos hz, if_pos hz] at ht
      cases ht
      rw [if_pos hz, setAddr_self (by rw [zeroed_ind, hz])]
    · have hlist := own_ind tbl hi (h.indirect hi hz)
      rw [if_neg hz, if_neg hz, freeAll_append, ← freeIndirect_eq, ← hfreed1.same _ (.inr (h.owned hlist).1)] at ht
      rw [if_neg hz]
      cases hind : freeIndirect (t1.disk ((tbl i).addrs ind)) (List.range nindirect) t1 with
      | error f =>
        rw [hind] at ht
        cases ht
      | ok t2 =>
        rw [hind] at ht
        change (bfree t2 ((tbl i).addrs ind)).bind _ = _ at ht
        show (bfree t2 ((tbl i).addrs ind)).bind _ = _
        cases hb : bfree t2 ((tbl i).addrs ind) with
        | error f =>
          rw [hb] at ht
          cases ht
        | ok t3 =>
          rw [hb] at ht
          cases ht
          rfl
  show (truncList (zeroed (tbl i) (List.finRange ndirect)) t1).bind _ = _
  rw [hrest, ← zeroed_all]
  rfl

/-- The file of inode `i` is empty, and its blocks are free. -/
theorem Good.truncated (h : Good s tbl sh) (hi : i < s.sb.ninodes) (hf : Freed s t (allBlocks s.disk (tbl i))) :
    Good t (Function.update tbl i (emptied (tbl i))) (Function.update sh i ⟨0, false⟩) ∧
      (∀ j < s.sb.ninodes, j ≠ i → view t.disk (tbl j) = view s.disk (tbl j)) ∧
      (∀ j < s.sb.ninodes, dinode t j = dinode s j) := by
  have hplace : ∀ p x, own s tbl sh p = some x → t.disk x = s.disk x :=
    fun p x hp => hf.same x (.inr (h.owned hp).1)
  have hdaddr : ∀ j < s.sb.ninodes, daddr t.disk (tbl j) = daddr s.disk (tbl j) :=
    fun j hj => daddr_congr fun hne => hplace _ _ (own_ind tbl hj (h.indirect hj hne))
  have hown : own t (Function.update tbl i (emptied (tbl i))) (Function.update sh i ⟨0, false⟩) =
      fun p => if p.1 = i then none else own s tbl sh p := by
    funext p
    obtain ⟨j, n⟩ := p
    by_cases e : j = i
    · subst e
      cases n <;> simp [own]
    · rw [if_neg e]
      exact own_other hf.sb (Function.update_of_ne e ..) (Function.update_of_ne e ..) (hdaddr j) n
  have hexact : Exact (· < nmeta s.sb) (fun p : Place => if p.1 = i then none else own s tbl sh p)
      (fun b => b < s.sb.size ∧ inUse t b = true) := by
    refine h.exact.vacate (fun p : Place => p.1 = i) fun b => ?_
    rw [hf.used, Bool.and_eq_true, decide_eq_true_iff, h.mem_allBlocks hi, and_assoc]
    refine and_congr_right fun _ => and_congr_right fun _ => ⟨fun hno p hp hb => ?_, fun hno hb => ?_⟩
    · obtain ⟨j, n⟩ := p
      subst hp
      exact hno ⟨n, hb⟩
    · obtain ⟨n, hn⟩ := hb
      exact hno ⟨i, n⟩ rfl hn
  refine ⟨⟨?_, ?_, ?_, ?_, ?_⟩, fun j hj hne => ?_, fun j hj => ?_⟩
  · rw [hf.sb]
    exact h.layout
  · rw [hf.sb, readsb_congr (hf.same 1 (.inl h.layout.super_lt)), h.super]
  · rw [hown, hf.sb]
    exact hexact
  · rw [hf.sb]
    intro j hj n hn
    by_cases e : j = i
    · rw [e, Function.update_self]
      exact daddr_empty rfl _ n
    · rw [Function.update_of_ne e] at hn ⊢
      rw [hdaddr j hj]
      exact h.unmapped j hj n hn
  · rw [hf.sb]
    intro j hj hdir
    by_cases e : j = i
    · rw [e, Function.update_self]
      rfl
    · rw [Function.update_of_ne e] at hdir ⊢
      exact h.direct j hj hdir
  · exact view_congr (hdaddr j hj) fun _ hn => hplace _ _ (own_data tbl hj (h.mapped hj hn))
  · exact dinode_congr hf.sb (hf.same _ (.inl (h.layout.iblock hj).2))

end Trunc

end CS5600.Xv6.Fs
