/-
  CS5600.Xv6.FsRuns — what the file system is to its callers (`Lab11_xv6/deliverables/fs.c`).

  `Files` has no blocks and no `icache`: an inode number has a file or none, a file has its numbers and bytes, and
  there are so many references to it. Its steps (`spec`) read and write as `CS5600.Xv6.Cp` does, free a file without
  links when the last reference to it is dropped, and give up only when there is no inode left, on disk or in
  memory, when an inode without a file is locked, or when the sizes of all files together ask for more blocks
  than there are. Calls are made one at a time, each by one who has a reference, in transactions that fit into the log.

  - `runs_refine_files`: a run of calls gives the answers, and ends in the panic, that `Files` gives.
  - `blocks_accounted`: after a run a block is in use exactly if it is metadata or at one place of one file, and
    as many are in use as the sizes of the files ask for.
  - `only_full_panics`: no run frees a free block, asks for a block behind the largest file, or locks or unlocks an inode
    without a reference.
  - `write_fits_log`: what `filewrite` writes in one transaction logs no more than MAXOPBLOCKS blocks, however
    large the disk and wherever its blocks are, and no more than 7 where the bitmap is one block.
-/

import CS5600.Lib.Runs
import CS5600.Xv6.FsFiles
import CS5600.Xv6.FsIcache

namespace CS5600.Xv6.Fs

open CS5600.Lib.Bytes CS5600.Lib.Extents CS5600.Lib.Packed CS5600.Lib.Ownership CS5600.Lib.Runs

/-! ## Files -/

structure File where
  type : UInt16
  major : UInt16
  minor : UInt16
  nlink : UInt16
  ip : Inode

structure Files where
  files : Nat → Option File
  refs : Nat → Nat
  /-- the inode has been read since the first of the references was given out -/
  valid : Nat → Bool

def Files.size (a : Files) (j : Nat) : Nat :=
  match a.files j with
  | none => 0
  | some f => f.ip.size

def Files.put (a : Files) (i : Nat) (f : File) : Files :=
  { a with files := Function.update a.files i (some f), valid := Function.update a.valid i true }

/-- A call on an inode is made by one who has a reference. -/
def Files.call (a : Files) (i : Nat) (r : Except Panic (Files × Answer)) : Except Panic (Files × Answer) :=
  if a.refs i = 0 then .ok (a, .none) else r

/-- The call locks the inode. -/
def Files.locked (a : Files) (i : Nat) (g : File → Except Panic (Files × Answer)) : Except Panic (Files × Answer) :=
  a.call i (match a.files i with
    | none => .error .noType
    | some f => g f)

/-- Up to NINODE inodes are referred to. -/
def Files.iget (sb : Superblock) (a : Files) (i : Nat) : Except Panic (Files × Answer) :=
  if 0 < a.refs i then .ok ({ a with refs := Function.update a.refs i (a.refs i + 1) }, .inum i)
  else if (referred sb.ninodes a.refs).card < ninode then
    .ok ({ a with refs := Function.update a.refs i 1, valid := Function.update a.valid i false }, .inum i)
  else .error .noEntries

def Files.iput (a : Files) (i : Nat) : Files :=
  match a.files i with
  | none => { a with refs := Function.update a.refs i (a.refs i - 1) }
  | some f =>
    if a.valid i = true ∧ f.nlink = 0 ∧ a.refs i = 1 then
      ⟨Function.update a.files i none, Function.update a.refs i 0, Function.update a.valid i false⟩
    else { a with refs := Function.update a.refs i (a.refs i - 1) }

/-- The bytes of a new file. -/
def noBytes : Inode := create none

/-- The blocks are enough for files of these sizes. -/
def Enough (sb : Superblock) (size : Nat → Nat) : Prop := nmeta sb + total sb (sized size) ≤ sb.size

instance (sb : Superblock) (size : Nat → Nat) : Decidable (Enough sb size) := inferInstanceAs (Decidable (_ ≤ _))

def spec (sb : Superblock) (a : Files) : Op → Except Panic (Files × Answer)
  | .ialloc type =>
    match (List.range' 1 (sb.ninodes - 1)).find? fun j => (a.files j).isNone with
    | some j => Files.iget sb { a with files := Function.update a.files j (some ⟨type, 0, 0, 0, noBytes⟩) } j
    | none => .error .noInodes
  | .iget i => Files.iget sb a i
  | .idup i => a.call i (.ok ({ a with refs := Function.update a.refs i (a.refs i + 1) }, .inum i))
  | .read i off n => a.locked i fun f =>
    .ok (a.put i f, if f.type = tDev then devAnswer f.major else readAnswer (Xv6.readi f.ip off n))
  | .write i src off => a.locked i fun f =>
    if f.type = tDev then .ok (a.put i f, devAnswer f.major)
    else
      match Xv6.writei f.ip src off with
      | none => .ok (a.put i f, .failed)
      | some ip =>
        if Enough sb (Function.update a.size i ip.size) then .ok (a.put i { f with ip := ip }, .wrote src.length)
        else .error .outOfBlocks
  | .change i major minor nlink => a.locked i fun f =>
    .ok (a.put i { f with major := major, minor := minor, nlink := nlink }, .done)
  | .iput i => a.call i (.ok (a.iput i, .done))

/-- What the callers keep to: the inode is one of the disk's, a length is a `uint`, and a new inode gets a type. -/
def Op.Legal (sb : Superblock) : Op → Prop
  | .ialloc type => type ≠ 0
  | .iget i => i < sb.ninodes
  | .read _ _ n => n < 2 ^ 32
  | .write _ src _ => src.length < 2 ^ 32
  | .idup _ | .change _ _ _ _ | .iput _ => True

/-! ## The files of a disk -/

structure IsFile (disk : Nat → Mem) (d : Dinode) (f : File) : Prop where
  used : d.type ≠ 0
  type : f.type = d.type
  major : f.major = d.major
  minor : f.minor = d.minor
  nlink : f.nlink = d.nlink
  holds : Holds disk d f.ip

/-- An inode with type 0 has no file. -/
def Is (disk : Nat → Mem) (d : Dinode) : Option File → Prop
  | none => d.type = 0
  | some f => IsFile disk d f

structure Shows (sb : Superblock) (y : Sys) (a : Files) : Prop where
  super : y.st.sb = sb
  sound : Sound y.st
  table : Table sb.ninodes y.icache a.refs a.valid
  copy : ∀ p, 0 < (y.icache p).ref → (y.icache p).valid = true →
    (y.icache p).ip = dinode y.st (y.icache p).inum ∧ (y.icache p).ip.type ≠ 0
  files : ∀ i < sb.ninodes, Is y.st.disk (dinode y.st i) (a.files i)

variable {sb : Superblock} {y : Sys} {a : Files} {s t u : St} {i : Nat} {p : Fin ninode} {e : Entry}

theorem IsFile.view_congr {disk disk' : Nat → Mem} {d : Dinode} {f : File} (h : IsFile disk d f)
    (hv : view disk' d = view disk d) : IsFile disk' d f :=
  ⟨h.used, h.type, h.major, h.minor, h.nlink, h.holds.size, h.holds.blocks.trans hv.symm⟩

theorem Is.of_same {d d' : Dinode} {o : Option File} (h : Is s.disk d o) (hd : d' = d) (hv : view t.disk d' = view s.disk d) :
    Is t.disk d' o := by
  subst hd
  cases o with
  | none => exact h
  | some f => exact IsFile.view_congr h hv

theorem Shows.size (h : Shows sb y a) {j : Nat} (hj : j < sb.ninodes) : a.size j = (dinode y.st j).size := by
  have hfile := h.files j hj
  unfold Files.size
  cases hf : a.files j with
  | none =>
    rw [hf] at hfile
    exact (h.sound.free j (by rw [h.super]; exact hj) hfile).symm
  | some f =>
    rw [hf] at hfile
    exact hfile.holds.size

theorem total_congr (sh sh' : Nat → Shape) (h : ∀ j < sb.ninodes, sh j = sh' j) : total sb sh = total sb sh' :=
  Finset.sum_congr rfl fun j hj => by rw [h j (Finset.mem_range.mp hj)]

/-- The files ask for the blocks that the inodes ask for. -/
theorem Shows.enough (h : Shows sb y a) (n : Nat) :
    Enough sb (Function.update a.size i n) ↔
      nmeta sb + total sb (sized (Function.update (fun j => (dinode y.st j).size) i n)) ≤ sb.size := by
  unfold Enough
  rw [total_congr _ (sized (Function.update (fun j => (dinode y.st j).size) i n))]
  intro j hj
  rw [sized_update, sized_update]
  simp only [Function.comp, Function.update_apply, h.size hj]

/-- One inode has changed, in memory and on the disk. -/
theorem Shows.set (h : Shows sb y a) {ip : Dinode} {o : Option File} (hi : e.inum < sb.ninodes)
    (hc : Changed e.inum ip y.st t) (ho : Is t.disk ip o) (hp : 0 < (y.icache p).ref → (y.icache p).inum = e.inum)
    (hfresh : ∀ q, q ≠ p → 0 < (y.icache q).ref → (y.icache q).inum ≠ e.inum)
    (hself : 0 < e.ref → e.valid = true → e.ip = ip ∧ ip.type ≠ 0) :
    Shows sb ⟨t, Function.update y.icache p e⟩
      ⟨Function.update a.files e.inum o, Function.update a.refs e.inum e.ref, Function.update a.valid e.inum e.valid⟩ := by
  have hsb := h.super
  refine ⟨hc.sb.trans hsb, hc.sound, h.table.set hi hp hfresh, fun q hq hv => ?_, fun j hj => ?_⟩
  · dsimp only at hq hv ⊢
    by_cases eq : q = p
    · rw [eq, Function.update_self] at hq hv ⊢
      obtain ⟨e1, e2⟩ := hself hq hv
      rw [e1]
      exact ⟨hc.inode.symm, e2⟩
    · rw [Function.update_of_ne eq] at hq hv ⊢
      obtain ⟨h1, h2⟩ := h.copy q hq hv
      rw [hc.dinodes _ (by rw [hsb]; exact h.table.inum q hq) (hfresh q eq hq)]
      exact ⟨h1, h2⟩
  · dsimp only
    by_cases ej : j = e.inum
    · rw [ej, Function.update_self, hc.inode]
      exact ho
    · rw [Function.update_of_ne ej]
      have hj' : j < y.st.sb.ninodes := by rw [hsb]; exact hj
      exact (h.files j hj).of_same (hc.dinodes j hj' ej) (hc.others j hj' ej)

/-- Only the entry has changed. -/
theorem Shows.entry (h : Shows sb y a) (hi : e.inum < sb.ninodes) (hp : 0 < (y.icache p).ref → (y.icache p).inum = e.inum)
    (hfresh : ∀ q, q ≠ p → 0 < (y.icache q).ref → (y.icache q).inum ≠ e.inum)
    (hself : 0 < e.ref → e.valid = true → e.ip = dinode y.st e.inum ∧ e.ip.type ≠ 0) :
    Shows sb (y.set p e)
      { a with refs := Function.update a.refs e.inum e.ref, valid := Function.update a.valid e.inum e.valid } := by
  have hset := h.set hi (h.sound.refl (i := e.inum)) (h.files _ hi) hp hfresh fun hr hv => by
    obtain ⟨h1, h2⟩ := hself hr hv
    exact ⟨h1, h1 ▸ h2⟩
  rw [Function.update_eq_self] at hset
  exact hset

/-- The number of references to an inode changes. -/
theorem Shows.count (h : Shows sb y a) (hp : (y.icache p).For i sb.ninodes (a.refs i) (a.valid i)) (n : Nat) :
    Shows sb (y.set p { y.icache p with ref := n }) { a with refs := Function.update a.refs i n } := by
  have hpos : 0 < (y.icache p).ref := by rw [hp.ref]; exact hp.pos
  have hset := h.entry (p := p) (e := { y.icache p with ref := n }) (hp.inum ▸ hp.lt) (fun _ => rfl)
    (fun q hq hr => by rw [hp.inum]; exact h.table.only hp q hq hr) fun _ hv => h.copy p hpos hv
  have hvalid : Function.update a.valid i (y.icache p).valid = a.valid := by rw [hp.read, Function.update_eq_self]
  rw [← hvalid]
  simpa only [hp.inum] using hset

/-- What a call leaves behind that has locked the inode. -/
theorem Shows.put (h : Shows sb y a) {ip : Dinode} {f : File} (hp : (y.icache p).For i sb.ninodes (a.refs i) (a.valid i))
    (hc : Changed i ip y.st t) (hf : IsFile t.disk ip f) :
    Shows sb ⟨t, Function.update y.icache p ⟨i, a.refs i, true, ip⟩⟩ (a.put i f) := by
  have hset := h.set (p := p) (e := ⟨i, a.refs i, true, ip⟩) (o := some f) hp.lt hc hf (fun _ => hp.inum)
    (h.table.only hp) fun _ _ => ⟨rfl, hf.used⟩
  dsimp only at hset
  rw [Function.update_eq_self] at hset
  exact hset

/-! ## The calls -/

theorem Shows.call (h : Shows sb y a) {f : Fin ninode → Except Panic (Sys × Answer)} {r : Except Panic (Files × Answer)}
    (hf : ∀ p, (y.icache p).For i sb.ninodes (a.refs i) (a.valid i) → Alike (Shows sb) (f p) r) :
    Alike (Shows sb) (y.call i f) (a.call i r) := by
  unfold Sys.call Files.call
  rcases h.table.cached i with ⟨h0, hnone⟩ | ⟨p, hsome, hp⟩
  · rw [hnone, if_pos h0]
    exact ⟨rfl, h⟩
  · rw [hsome, if_neg (Nat.pos_iff_ne_zero.mp hp.pos)]
    exact hf p hp

/-- `ilock` finds the inode, in memory or on the disk; `iunlock` leaves what the call has made of it. -/
theorem Shows.ilock (h : Shows sb y a) (hp : (y.icache p).For i sb.ninodes (a.refs i) (a.valid i)) {f : File}
    (hf : a.files i = some f) :
    ∃ y', ilock y p = .ok (dinode y.st i, y') ∧ y'.st = y.st ∧ (y'.icache p).inum = i ∧
      ∀ ip t, iunlock y' p ip t = .ok ⟨t, Function.update y.icache p ⟨i, a.refs i, true, ip⟩⟩ := by
  have hfile := h.files i hp.lt
  have hpos : ¬ (y.icache p).ref < 1 := by
    have := hp.pos
    rw [hp.ref]
    omega
  rw [hf] at hfile
  unfold Fs.ilock
  dsimp only
  rw [if_neg hpos]
  cases hv : (y.icache p).valid with
  | true =>
    have hcopy := (h.copy p (Nat.pos_of_ne_zero fun h0 => hpos (by omega)) hv).1
    rw [hp.inum] at hcopy
    refine ⟨y, by rw [hcopy]; rfl, rfl, hp.inum, fun ip t => ?_⟩
    unfold iunlock
    rw [if_neg hpos]
    simp only [hp.inum, hp.ref, hv]
  | false =>
    rw [hp.inum, if_neg (by decide), if_neg hfile.used]
    refine ⟨_, rfl, rfl, ?_, fun ip t => ?_⟩
    · simp only [Sys.set, Function.update_self]
    · unfold iunlock Sys.set
      simp only [Function.update_self, Function.update_idem, if_neg hpos]
      rw [hp.ref]

theorem Shows.ilock_none (h : Shows sb y a) (hp : (y.icache p).For i sb.ninodes (a.refs i) (a.valid i))
    (hf : a.files i = none) : Fs.ilock y p = .error .noType := by
  have hfile := h.files i hp.lt
  have hpos : 0 < (y.icache p).ref := by rw [hp.ref]; exact hp.pos
  rw [hf] at hfile
  unfold Fs.ilock
  dsimp only
  rw [if_neg (by omega)]
  cases hv : (y.icache p).valid with
  | true =>
    obtain ⟨h1, h2⟩ := h.copy p hpos hv
    rw [hp.inum] at h1
    rw [h1] at h2
    exact absurd hfile h2
  | false =>
    rw [hp.inum, if_neg (by decide)]
    exact if_pos hfile

/-- Between `ilock` and `iunlock` a call does to the inode what `Files` does to the file. -/
def Ends (a : Files) (i : Nat) (s : St) : Except Panic (Answer × Dinode × St) → Except Panic (Files × Answer) → Prop
  | .error q, r => r = .error q
  | .ok (answer, ip, t), r => ∃ f, r = .ok (a.put i f, answer) ∧ Changed i ip s t ∧ IsFile t.disk ip f

/-- A call that locks the inode, works on it with `body` and unlocks it. -/
theorem Shows.locked (h : Shows sb y a) {f : Fin ninode → Except Panic (Sys × Answer)}
    (body : Except Panic (Answer × Dinode × St)) {g : File → Except Panic (Files × Answer)}
    (hbody : ∀ p y', Fs.ilock y p = .ok (dinode y.st i, y') → y'.st = y.st → (y'.icache p).inum = i →
      f p = body.bind fun r => (iunlock y' p r.2.1 r.2.2).bind fun y => .ok (y, r.1))
    (hpanic : ∀ p, Fs.ilock y p = .error .noType → f p = .error .noType)
    (hg : i < sb.ninodes → ∀ fl, IsFile y.st.disk (dinode y.st i) fl → Ends a i y.st body (g fl)) :
    Alike (Shows sb) (y.call i f) (a.locked i g) := by
  refine h.call fun p hp => ?_
  cases hf : a.files i with
  | none =>
    rw [hpanic p (h.ilock_none hp hf)]
    exact rfl
  | some fl =>
    obtain ⟨y', hlock, hst, hinum, hunlock⟩ := h.ilock hp hf
    have hfile := h.files i hp.lt
    rw [hf] at hfile
    have hend := hg hp.lt fl hfile
    rw [hbody p y' hlock hst hinum]
    cases body with
    | error q =>
      dsimp only
      rw [show g fl = .error q from hend]
      exact rfl
    | ok r =>
      obtain ⟨answer, ip, t⟩ := r
      obtain ⟨fl', hput, hc, hfl⟩ := hend
      dsimp only
      rw [hput]
      show Alike _ ((iunlock y' p ip t).bind _) _
      rw [hunlock]
      exact ⟨rfl, h.put hp hc hfl⟩

theorem Shows.read (h : Shows sb y a) {off n : Nat} (hn : n < 2 ^ 32) :
    Alike (Shows sb) (step y (.read i off n)) (spec sb a (.read i off n)) := by
  refine h.locked (Fs.readi y.st (dinode y.st i) off n) (fun p y' hlock hst _ => ?_) (fun p hlock => ?_)
    fun hi f hfile => ?_
  · rw [hlock]
    show (Fs.readi y'.st _ off n).bind _ = _
    rw [hst]
    rfl
  · rw [hlock]
    rfl
  · have hread : Fs.readi y.st (dinode y.st i) off n =
        .ok (if f.type = tDev then devAnswer f.major else readAnswer (Xv6.readi f.ip off n), dinode y.st i, y.st) := by
      rw [hfile.type, hfile.major]
      by_cases hdev : (dinode y.st i).type = tDev
      · rw [Fs.readi, if_pos hdev, if_pos hdev]
      · rw [if_neg hdev, h.sound.readi (by rw [h.super]; exact hi) hfile.holds hn hdev]
    rw [hread]
    exact ⟨f, rfl, h.sound.refl, hfile⟩

theorem Shows.write (h : Shows sb y a) {src : List UInt8} {off : Nat} (hn : src.length < 2 ^ 32) :
    Alike (Shows sb) (step y (.write i src off)) (spec sb a (.write i src off)) := by
  refine h.locked (Fs.writei y.st i (dinode y.st i) src off) (fun p y' hlock hst hinum => ?_) (fun p hlock => ?_)
    fun hi f hfile => ?_
  · rw [hlock]
    show (Fs.writei y'.st (y'.icache p).inum _ src off).bind _ = _
    rw [hst, hinum]
    rfl
  · rw [hlock]
    rfl
  · by_cases hdev : f.type = tDev
    · rw [if_pos hdev, Fs.writei, if_pos (hfile.type.symm.trans hdev), ← hfile.major]
      exact ⟨f, rfl, h.sound.refl, hfile⟩
    · rw [if_neg hdev]
      have hi' : i < y.st.sb.ninodes := by rw [h.super]; exact hi
      rcases h.sound.writei hi' hfile.holds hn (fun e => hdev (hfile.type.trans e)) hfile.used off with ⟨hnone, hrun⟩ | ⟨ip, hsome, hroom⟩
      · rw [hnone, hrun]
        exact ⟨f, rfl, h.sound.refl, hfile⟩
      · rw [hsome]
        have henough := h.enough (i := i) ip.size
        dsimp only
        rw [h.super] at hroom
        rcases hroom with ⟨hroom, d, t, hrun, hw⟩ | ⟨hfull, hrun⟩
        · rw [if_pos (henough.mpr hroom), hrun]
          have htype : d.type = (dinode y.st i).type := by rw [hw.attrs]
          refine ⟨_, rfl, hw.changed, fun hz => hfile.used (htype.symm.trans hz), hfile.type.trans htype.symm, ?_, ?_, ?_, hw.holds⟩
          · exact hfile.major.trans (by rw [hw.attrs])
          · exact hfile.minor.trans (by rw [hw.attrs])
          · exact hfile.nlink.trans (by rw [hw.attrs])
        · rw [if_neg (fun he => by have := henough.mp he; omega), hrun]
          exact rfl

/-- `iupdate` of an inode with other numbers and the same blocks. -/
theorem Sound.renumber (h : Sound s) (hi : i < s.sb.ninodes) (ip : Dinode) (hsize : ip.size = (dinode s i).size)
    (haddrs : ip.addrs = (dinode s i).addrs) (hfree : ip.type = 0 → ip.size = 0) :
    Changed i ip s (Fs.iupdate s i ip) ∧ view (Fs.iupdate s i ip).disk ip = view s.disk (dinode s i) := by
  have hgood : Good s (Function.update (dinode s) i ip) (sized (Function.update (fun j => (dinode s j).size) i ip.size)) := by
    rw [hsize, show Function.update (fun j => (dinode s j).size) i (dinode s i).size = fun j => (dinode s j).size from
      Function.update_eq_self ..]
    refine h.good.congr (fun j _ => ?_) fun _ _ => rfl
    rw [Function.update_apply]
    split
    · rename_i e
      rw [e, haddrs]
    · rfl
  obtain ⟨hc, hv⟩ := h.iupdate hi rfl hgood (fun _ _ _ => rfl) (fun _ _ _ => rfl) hfree
  exact ⟨hc, hv.trans (view_of_addrs haddrs _)⟩

theorem Shows.change (h : Shows sb y a) (major minor nlink : UInt16) :
    Alike (Shows sb) (step y (.change i major minor nlink)) (spec sb a (.change i major minor nlink)) := by
  generalize hd : ({ dinode y.st i with major := major, minor := minor, nlink := nlink } : Dinode) = d
  refine h.locked (.ok (.done, d, Fs.iupdate y.st i d)) (fun p y' hlock hst hinum => ?_) (fun p hlock => ?_)
    fun hi f hfile => ?_
  · rw [hlock, ← hd, ← hst, ← hinum]
    rfl
  · rw [hlock]
    rfl
  · obtain ⟨hc, hv⟩ := h.sound.renumber (i := i) (by rw [h.super]; exact hi) d (by rw [← hd]) (by rw [← hd])
      (fun hz => absurd hz (by rw [← hd]; exact hfile.used))
    refine ⟨_, rfl, hc, by rw [← hd]; exact hfile.used, by rw [← hd]; exact hfile.type, by rw [← hd], by rw [← hd], by rw [← hd],
      by rw [← hd]; exact hfile.holds.size, ?_⟩
    rw [hv]
    exact hfile.holds.blocks

/-! ### References -/

theorem Shows.iget (h : Shows sb y a) (hi : i < sb.ninodes) :
    Alike (Shows sb) ((Fs.iget y i).bind fun r => .ok (r.2, .inum (r.2.icache r.1).inum)) (Files.iget sb a i) := by
  unfold Fs.iget Files.iget
  rcases h.table.cached i with ⟨h0, hnone⟩ | ⟨p, hsome, hp⟩
  · rw [hnone, if_neg (by omega)]
    rcases h.table.empty with ⟨hroom, p, hp, hfree⟩ | ⟨hfull, hp⟩
    · rw [hp, if_pos hroom]
      refine ⟨?_, ?_⟩
      · simp only [Sys.set, Function.update_self]
      · refine h.entry (p := p) (e := { y.icache p with inum := i, ref := 1, valid := false }) hi (fun hr => ?_) (fun q _ hr e => ?_)
          fun _ hv => by cases hv
        · omega
        · have := h.table.count q hr
          rw [show (y.icache q).inum = i from e] at this
          omega
    · rw [hp, if_neg hfull]
      exact rfl
  · rw [hsome, if_pos hp.pos]
    refine ⟨?_, ?_⟩
    · simp only [Sys.set, Function.update_self, hp.inum]
    · rw [← hp.ref]
      exact h.count hp _

theorem Shows.idup (h : Shows sb y a) (i : Nat) : Alike (Shows sb) (step y (.idup i)) (spec sb a (.idup i)) := by
  refine h.call fun p hp => ⟨by rw [hp.inum], ?_⟩
  rw [← hp.ref]
  exact h.count hp _

/-! ### `ialloc` -/

def newInode (type : UInt16) : Dinode := ⟨type, 0, 0, 0, 0, fun _ => 0⟩

theorem dinodeAt_new (m : Mem) (o : Nat) (type : UInt16) :
    dinodeAt (store (clearDinode m o) 2 o type.toNat) o = newInode type := by
  have hclear : ∀ n x, o + 2 ≤ x → x + n ≤ o + 64 → load (store (clearDinode m o) 2 o type.toNat) n x = 0 := by
    intro n x h1 h2
    rw [load_store_off (by omega)]
    exact load_zero fun b h3 h4 => if_pos ⟨by omega, by omega⟩
  have haddrs : (fun k : Fin (ndirect + 1) => load (store (clearDinode m o) 2 o type.toNat) 4 (o + 12 + 4 * k)) = fun _ => 0 := by
    funext k
    have : (k : Nat) < 13 := k.isLt
    exact hclear 4 _ (by omega) (by omega)
  unfold dinodeAt
  rw [ofNat_load_store, hclear 2 (o + 2) (by omega) (by omega), hclear 2 (o + 4) (by omega) (by omega),
    hclear 2 (o + 6) (by omega) (by omega), hclear 4 (o + 8) (by omega) (by omega), haddrs]
  rfl

theorem view_empty {d : Dinode} (h : d.addrs = fun _ => 0) (disk : Nat → Mem) : view disk d = fun _ _ => 0 := by
  funext n
  unfold view
  rw [if_pos (daddr_empty h disk n)]

/-- An inode without a type has no blocks. -/
theorem Sound.addrs_free (h : Sound s) (hi : i < s.sb.ninodes) (hfree : (dinode s i).type = 0) :
    (dinode s i).addrs = fun _ => 0 := by
  have hsize := h.free i hi hfree
  have hdata : (sized (fun j => (dinode s j).size) i).data = 0 := by simp [sized, shapeOf, hsize, blocksOf, bsize]
  have hdir : (sized (fun j => (dinode s j).size) i).indirect = false := by
    simp [sized, shapeOf, hsize, blocksOf, bsize]
  funext k
  by_cases hk : (k : Nat) < ndirect
  · have := h.good.unmapped i hi k (by rw [hdata]; exact Nat.zero_le _)
    rwa [daddr, dif_pos hk] at this
  · have hlast : k = ind := Fin.ext (by simp only [Fin.val_last]; omega)
    rw [hlast]
    exact h.good.direct i hi hdir

theorem Sound.ialloc (h : Sound s) (hi : i < s.sb.ninodes) (hfree : (dinode s i).type = 0) (type : UInt16)
    (hu : u = logWrite s (iblock s.sb i)
      (store (clearDinode (s.disk (iblock s.sb i)) (i % ipb * 64)) 2 (i % ipb * 64) type.toNat)) :
    Changed i (newInode type) s u := by
  obtain ⟨hgood, -, hviews⟩ := h.good.write_inode hi hu
  have hsb : u.sb = s.sb := by rw [hu, logWrite_sb]
  have hself : dinode u i = newInode type := by
    rw [hu, dinode, logWrite_disk, logWrite_sb, Function.update_self, dinodeAt_new]
  have hother : ∀ j, j ≠ i → dinode u j = dinode s j := by
    intro j hne
    rw [hu]
    refine dinode_write_ne hne fun b hb => ?_
    refine (store_agree _ _ ?_).trans ?_
    · rcases hb with hb | hb
      · exact .inl (by omega)
      · exact .inr (by omega)
    · intro x h1 h2
      exact if_neg (by rcases hb with hb | hb <;> omega)
  have hall : ∀ j < s.sb.ninodes, (dinode u j).addrs = (dinode s j).addrs ∧ (dinode u j).size = (dinode s j).size := by
    intro j hj
    by_cases e : j = i
    · rw [e, hself, h.addrs_free hi hfree, h.free i hi hfree]
      exact ⟨rfl, rfl⟩
    · rw [hother j e]
      exact ⟨rfl, rfl⟩
  refine ⟨⟨hgood.congr ?_ ?_, ?_⟩, hsb, hself, fun j _ hne => hother j hne, fun j hj hne => ?_⟩
  · rw [hsb]
    exact fun j hj => (hall j hj).1
  · rw [hsb]
    intro j hj
    simp only [sized, Function.comp, (hall j hj).2]
  · rw [hsb]
    intro j hj hz
    by_cases e : j = i
    · rw [e, hself]
      rfl
    · rw [hother j e] at hz ⊢
      exact h.free j hj hz
  · rw [hother j hne]
    exact hviews j hj

theorem Shows.ialloc (h : Shows sb y a) {type : UInt16} (htype : type ≠ 0) :
    Alike (Shows sb) (step y (.ialloc type)) (spec sb a (.ialloc type)) := by
  have hin : ∀ {j}, j ∈ List.range' 1 (sb.ninodes - 1) → j < sb.ninodes := by
    intro j hj
    rw [List.mem_range'_1] at hj
    omega
  have hsame : (List.range' 1 (sb.ninodes - 1)).find? (fun j => (a.files j).isNone) =
      (List.range' 1 (y.st.sb.ninodes - 1)).find? fun j => (dinode y.st j).type == 0 := by
    rw [h.super]
    refine List.find?_congr fun j hj => ?_
    have hfile := h.files j (hin hj)
    cases hf : a.files j with
    | none =>
      rw [hf] at hfile
      have : (dinode y.st j).type = 0 := hfile
      simp [this]
    | some f =>
      rw [hf] at hfile
      simp [hfile.used]
  simp only [step, spec, Fs.ialloc, hsame]
  cases hfind : (List.range' 1 (y.st.sb.ninodes - 1)).find? fun j => (dinode y.st j).type == 0 with
  | none => exact rfl
  | some j =>
    have hj : j < sb.ninodes := by
      have := List.mem_of_find?_eq_some hfind
      rw [h.super] at this
      exact hin this
    have hfree : (dinode y.st j).type = 0 := by simpa using List.find?_some hfind
    -- nobody has read the inode, which had no type
    have hunread : ∀ p, 0 < (y.icache p).ref → (y.icache p).inum = j → (y.icache p).valid = false := by
      intro p hp hpj
      by_contra hv
      obtain ⟨h1, h2⟩ := h.copy p hp (by simpa using hv)
      rw [h1, hpj] at h2
      exact h2 hfree
    have hc := h.sound.ialloc (by rw [h.super]; exact hj) hfree type rfl
    refine Shows.iget ⟨hc.sb.trans h.super, hc.sound, h.table, fun p hp hv => ?_, fun k hk => ?_⟩ hj
    · dsimp only at hp hv ⊢
      have hne : (y.icache p).inum ≠ j := by
        intro e
        rw [hunread p hp e] at hv
        cases hv
      rw [hc.dinodes _ (by rw [h.super]; exact h.table.inum p hp) hne]
      exact h.copy p hp hv
    · dsimp only
      by_cases ek : k = j
      · rw [ek, Function.update_self, hc.inode]
        exact ⟨htype, rfl, rfl, rfl, rfl, rfl, (view_empty rfl _).symm⟩
      · rw [Function.update_of_ne ek]
        have hk' : k < y.st.sb.ninodes := by rw [h.super]; exact hk
        exact (h.files k hk).of_same (hc.dinodes k hk' ek) (hc.others k hk' ek)

/-! ### `iput` -/

theorem Changed.trans {ip ip' : Dinode} (h : Changed i ip s t) (h' : Changed i ip' t u) : Changed i ip' s u := by
  refine ⟨h'.sound, h'.sb.trans h.sb, h'.inode, fun j hj hne => ?_, fun j hj hne => ?_⟩
  · rw [h'.dinodes j (by rw [h.sb]; exact hj) hne, h.dinodes j hj hne]
  · rw [h'.others j (by rw [h.sb]; exact hj) hne, h.others j hj hne]

/-- The last reference to a file without links is dropped. -/
theorem Sound.iput (h : Sound s) (hi : i < s.sb.ninodes) :
    ∃ t, itrunc s i (dinode s i) = .ok (emptied (dinode s i), t) ∧
      Changed i { emptied (dinode s i) with type := 0 } s
        (Fs.iupdate t i { emptied (dinode s i) with type := 0 }) := by
  obtain ⟨t, hrun, hfreed⟩ := h.good.itrunc hi
  obtain ⟨hgood, hothers, hdinodes⟩ := h.good.truncated hi hfreed
  have hsized : sized (Function.update (fun j => (dinode s j).size) i 0) =
      Function.update (sized fun j => (dinode s j).size) i ⟨0, false⟩ := by
    rw [sized_update, Function.comp_update]
    rfl
  rw [← hsized] at hgood
  obtain ⟨hc, -⟩ := h.iupdate hi hfreed.sb hgood (fun j hj _ => hdinodes j hj) hothers (fun _ => rfl)
  have hi' : i < (Fs.iupdate t i (emptied (dinode s i))).sb.ninodes := by rw [hc.sb]; exact hi
  obtain ⟨hc', -⟩ := hc.sound.renumber hi' { emptied (dinode s i) with type := 0 } (by rw [hc.inode]) (by rw [hc.inode])
    (fun _ => rfl)
  exact ⟨_, hrun, hc.trans hc'⟩

theorem Shows.iput (h : Shows sb y a) (i : Nat) : Alike (Shows sb) (step y (.iput i)) (spec sb a (.iput i)) := by
  refine h.call fun p hp => ?_
  have hfile := h.files i hp.lt
  have hpos : 0 < (y.icache p).ref := by rw [hp.ref]; exact hp.pos
  have hcount := h.count hp (a.refs i - 1)
  rw [← hp.ref] at hcount
  unfold Fs.iput
  dsimp only
  by_cases hgone : (y.icache p).valid = true ∧ (y.icache p).ip.nlink = 0 ∧ (y.icache p).ref = 1
  · obtain ⟨hv, hlink, hone⟩ := hgone
    obtain ⟨hcopy, hne⟩ := h.copy p hpos hv
    rw [hp.inum] at hcopy
    obtain ⟨t, hrun, hc⟩ := h.sound.iput (i := i) (by rw [h.super]; exact hp.lt)
    rw [if_pos ⟨hv, hlink, hone⟩, hp.inum, hcopy, hrun]
    cases hf : a.files i with
    | none =>
      rw [hf, ← hcopy] at hfile
      exact absurd hfile hne
    | some f =>
      rw [hf, ← hcopy] at hfile
      refine ⟨rfl, ?_⟩
      unfold Files.iput
      rw [hf]
      dsimp only
      rw [if_pos ⟨by rw [← hp.read, hv], hfile.nlink.trans hlink, by rw [← hp.ref, hone]⟩]
      have hset := h.set (p := p) (e := ⟨i, 0, false, { emptied (dinode y.st i) with type := 0 }⟩) (o := none) hp.lt hc rfl
        (fun _ => hp.inum) (h.table.only hp) fun hr => absurd hr (lt_irrefl 0)
      simpa only [Sys.set, Function.update_self, Function.update_idem, hone, hp.inum] using hset
  · rw [if_neg hgone]
    refine ⟨rfl, ?_⟩
    have hkept : a.iput i = { a with refs := Function.update a.refs i (a.refs i - 1) } := by
      unfold Files.iput
      cases hf : a.files i with
      | none => rfl
      | some f =>
        dsimp only
        rw [if_neg]
        intro hall
        have hv : (y.icache p).valid = true := hp.read.trans hall.1
        rw [hf] at hfile
        refine hgone ⟨hv, ?_, hp.ref.trans hall.2.2⟩
        rw [(h.copy p hpos hv).1, hp.inum, ← hfile.nlink]
        exact hall.2.1
    rw [hkept, ← hp.ref]
    exact hcount

/-! ## Runs -/

theorem Shows.step (h : Shows sb y a) {op : Op} (hop : op.Legal sb) : Alike (Shows sb) (step y op) (spec sb a op) := by
  cases op with
  | ialloc type => exact h.ialloc hop
  | iget i => exact h.iget hop
  | idup i => exact h.idup i
  | read i off n => exact h.read hop
  | write i src off => exact h.write hop
  | change i major minor nlink => exact h.change major minor nlink
  | iput i => exact h.iput i

theorem Shows.run (h : Shows sb y a) {ops : List Op} (hops : ∀ op ∈ ops, op.Legal sb) :
    Alike (Shows sb) (answers Fs.step y ops) (answers (spec sb) a ops) := by
  refine answers_alike (Shows sb) (Op.Legal sb) ?_ ops y a h hops
  intro y a op h hop
  exact h.step hop

/-! ## An empty disk -/

/-- `balloc` of `mkfs.c`: the block of the bitmap with the bits of the first `used` blocks. -/
def usedBits (used : Nat) : Mem := (List.range used).foldl setBit fun _ => 0

theorem bit_foldl_setBit (l : List Nat) (m : Mem) (j : Nat) : bit (l.foldl setBit m) j = (bit m j || decide (j ∈ l)) := by
  induction l generalizing m with
  | nil => simp
  | cons x l ih =>
    rw [List.foldl_cons, ih, bit_setBit, Bool.or_assoc, ← Bool.decide_or]
    simp [eq_comm]

theorem bit_usedBits (used j : Nat) : bit (usedBits used) j = decide (j < used) := by
  rw [usedBits, bit_foldl_setBit]
  simp [bit]

def superWords (sb : Superblock) : List Nat :=
  [sb.size, sb.nblocks, sb.ninodes, sb.nlog, sb.logstart, sb.inodestart, sb.bmapstart]

/-- A disk with no file on it. -/
def format (sb : Superblock) : St where
  sb := sb
  disk b :=
    if b = 1 then storeWords (fun _ => 0) 4 0 7 fun k => (superWords sb).getD k 0
    else if b = sb.bmapstart then usedBits (nmeta sb)
    else fun _ => 0
  logged := []

/-- What `mkfs` is compiled with: the bitmap's first block has all the bits it sets, and numbers are `uint`s. -/
structure Formattable (sb : Superblock) : Prop where
  layout : Layout sb
  bits : nmeta sb ≤ bpb
  words : ∀ w ∈ superWords sb, w < 2 ^ 32

theorem readsb_format (h : Formattable sb) : readsb (format sb).disk = sb := by
  have hword : ∀ k, (hk : k < 7) → load ((format sb).disk 1) 4 (4 * k) = (superWords sb).getD k 0 := by
    intro k hk
    have hload := load_storeWords (fun _ => 0) (w := 4) (n := 7) 0 (fun k => (superWords sb).getD k 0) hk
    rw [Nat.zero_add] at hload
    refine hload.trans (Nat.mod_eq_of_lt ?_)
    have hlen : k < (superWords sb).length := hk
    rw [List.getD_eq_getElem _ _ hlen]
    exact h.words _ (List.getElem_mem hlen)
  unfold readsb
  dsimp only
  rw [hword 0 (by decide), hword 1 (by decide), hword 2 (by decide), hword 3 (by decide), hword 4 (by decide),
    hword 5 (by decide), hword 6 (by decide)]
  rfl

theorem inUse_format (h : Formattable sb) {b : Nat} (hb : b < sb.size) : inUse (format sb) b = decide (b < nmeta sb) := by
  have hblock := h.layout.bblock hb
  have hsuper := h.layout.super_lt
  have hbits := h.bits
  have hsplit := Nat.div_add_mod b bpb
  unfold inUse
  show bit ((format sb).disk (bblock sb b)) (b % bpb) = _
  unfold format
  dsimp only
  rw [if_neg (by omega)]
  by_cases hz : b / bpb = 0
  · rw [if_pos (by rw [bblock, hz, Nat.zero_add]), bit_usedBits, Nat.mod_eq_of_lt]
    rw [hz] at hsplit
    have := Nat.mod_lt b bpb_pos
    omega
  · rw [if_neg (by unfold bblock; omega)]
    have hge : bpb ≤ b := by
      by_contra hlt
      exact hz (Nat.div_eq_of_lt (by omega))
    have : ¬ b < nmeta sb := by omega
    simp [bit, this]

theorem dinode_format (h : Formattable sb) (hi : i < sb.ninodes) : dinode (format sb) i = ⟨0, 0, 0, 0, 0, fun _ => 0⟩ := by
  have hblock := h.layout.iblock hi
  have hzero : (format sb).disk (iblock sb i) = fun _ => 0 := by
    unfold format
    dsimp only
    rw [if_neg (by omega), if_neg (by omega)]
  unfold dinode dinodeAt
  show (⟨_, _, _, _, _, _⟩ : Dinode) = _
  rw [show (format sb).sb = sb from rfl, hzero]
  simp [load_zero]

theorem sound_format (h : Formattable sb) : Sound (format sb) := by
  have hshape : ∀ i < sb.ninodes, sized (fun j => (dinode (format sb) j).size) i = ⟨0, false⟩ := by
    intro i hi
    simp only [sized, Function.comp]
    rw [dinode_format h hi]
    rfl
  have hown : ∀ p, own (format sb) (dinode (format sb)) (sized fun j => (dinode (format sb) j).size) p = none := by
    intro p
    obtain ⟨i, n⟩ := p
    by_cases hi : i < sb.ninodes
    · cases n with
      | none => exact if_neg (by rw [hshape i hi]; simp)
      | some n => exact if_neg (by rw [hshape i hi]; simp)
    · cases n with
      | none => exact if_neg fun hc => hi hc.1
      | some n => exact if_neg fun hc => hi hc.1
  refine ⟨⟨h.layout, readsb_format h, ⟨?_, ?_, fun b => ?_⟩, fun i hi n _ => ?_, fun i hi _ => ?_⟩, fun i hi _ => ?_⟩
  · intro p q b hp
    rw [hown p] at hp
    cases hp
  · intro p b hp
    rw [hown p] at hp
    cases hp
  · constructor
    · intro hb
      rw [show (format sb).sb = sb from rfl, inUse_format h hb.1, decide_eq_true_iff] at hb
      exact .inl hb.2
    · intro hb
      rcases hb with hb | ⟨p, hp⟩
      · have hlt : b < sb.size := lt_of_lt_of_le hb (nmeta_le_size sb)
        exact ⟨hlt, by rw [inUse_format h hlt]; exact decide_eq_true hb⟩
      · rw [hown p] at hp
        cases hp
  · rw [dinode_format h hi]
    exact daddr_empty rfl _ n
  · rw [dinode_format h hi]
  · rw [dinode_format h hi]

/-- No inode is in memory. -/
def noEntries : Fin ninode → Entry := fun _ => ⟨0, 0, false, ⟨0, 0, 0, 0, 0, fun _ => 0⟩⟩

def noFiles : Files := ⟨fun _ => none, fun _ => 0, fun _ => false⟩

theorem shows_format (h : Formattable sb) : Shows sb ⟨format sb, noEntries⟩ noFiles := by
  refine ⟨rfl, sound_format h, ⟨?_, ?_, ?_, ?_, ?_⟩, ?_, fun i hi => ?_⟩
  · exact fun p hp => absurd hp (lt_irrefl 0)
  · exact fun p hp => absurd hp (lt_irrefl 0)
  · exact fun p hp => absurd hp (lt_irrefl 0)
  · exact fun p q hp => absurd hp (lt_irrefl 0)
  · exact fun i hi => absurd hi (lt_irrefl 0)
  · exact fun p hp => absurd hp (lt_irrefl 0)
  · show (dinode (format sb) i).type = 0
    rw [dinode_format h hi]

/-- The superblock that `mkfs` writes: 1000 blocks, 30 of them log, and 200 inodes. -/
def mkfsSb : Superblock := ⟨1000, 941, 200, 30, 2, 32, 58⟩

theorem mkfsSb_formattable : Formattable mkfsSb := ⟨⟨by decide, by decide, by decide, by decide⟩, by decide, by decide⟩

/-! ## Results -/

def start : Sys := ⟨format mkfsSb, noEntries⟩

theorem start_shows : Shows mkfsSb start noFiles := shows_format mkfsSb_formattable

theorem error_of_spec {ops : List Op} {p : Panic} (h : Shows sb y a) (hops : ∀ op ∈ ops, op.Legal sb)
    (hspec : answers (spec sb) a ops = .error p) : answers step y ops = .error p := by
  have hrun := h.run hops
  rw [hspec] at hrun
  cases hy : answers step y ops with
  | error f =>
    rw [hy] at hrun
    exact congrArg Except.error hrun
  | ok r =>
    rw [hy] at hrun
    exact hrun.elim

theorem ok_of_spec {op : Op} {a' : Files} {o : Answer} (h : Shows sb y a) (hop : op.Legal sb)
    (hspec : spec sb a op = .ok (a', o)) : ∃ y', step y op = .ok (y', o) ∧ Shows sb y' a' := by
  have hrun := h.step hop
  rw [hspec] at hrun
  cases hy : step y op with
  | error f =>
    rw [hy] at hrun
    exact hrun.elim
  | ok r =>
    rw [hy] at hrun
    exact ⟨r.1, by rw [← hrun.1], hrun.2⟩

/-- One empty file, and a reference to it. -/
def newFile : Files :=
  ⟨Function.update noFiles.files 1 (some ⟨2, 0, 0, 0, noBytes⟩), Function.update noFiles.refs 1 1, Function.update noFiles.valid 1 false⟩

theorem iget_first (h0 : a.refs i = 0) (hroom : (referred sb.ninodes a.refs).card < ninode) : Files.iget sb a i =
    .ok ({ a with refs := Function.update a.refs i 1, valid := Function.update a.valid i false }, .inum i) := by
  unfold Files.iget
  rw [if_neg (by omega), if_pos hroom]

theorem spec_ialloc : spec mkfsSb noFiles (.ialloc 2) = .ok (newFile, .inum 1) :=
  iget_first rfl (by decide +kernel)

theorem one_ialloc : ∃ y, step start (.ialloc 2) = .ok (y, .inum 1) ∧ Shows mkfsSb y newFile :=
  ok_of_spec start_shows (show (2 : UInt16) ≠ 0 by decide) spec_ialloc

/-- Two bytes are written to the new file. -/
theorem one_write {y : Sys} (h : Shows mkfsSb y newFile) :
    ∃ y' a', step y (.write 1 [97, 98] 0) = .ok (y', .wrote 2) ∧ Shows mkfsSb y' a' := by
  obtain ⟨ip, hip, hsize, -⟩ := writei_eq noBytes [97, 98] (show 0 ≤ noBytes.size from Nat.le_refl _) (by decide)
  have hsize : ip.size = 2 := hsize
  have henough : Enough mkfsSb (Function.update newFile.size 1 ip.size) := by
    rw [hsize]
    decide +kernel
  have hspec : spec mkfsSb newFile (.write 1 [97, 98] 0) =
      .ok (newFile.put 1 ⟨2, 0, 0, 0, ip⟩, .wrote 2) := by
    have hfile : newFile.files 1 = some ⟨2, 0, 0, 0, noBytes⟩ := rfl
    have hrefs : newFile.refs 1 ≠ 0 := by decide
    simp only [spec, Files.locked, Files.call, hfile, if_neg hrefs]
    rw [if_neg (by decide), hip]
    exact if_pos henough
  obtain ⟨y', hstep, hshows⟩ := ok_of_spec h
    (show Op.Legal mkfsSb (.write 1 [97, 98] 0) by simp [Op.Legal]) hspec
  exact ⟨y', _, hstep, hshows⟩

theorem runs_refine_files {ops : List Op} (h : Shows sb y a) (hops : ∀ op ∈ ops, op.Legal sb) :
    (answers step y ops).map Prod.snd = (answers (spec sb) a ops).map Prod.snd ∧
      ∀ y' os, answers step y ops = .ok (y', os) → ∃ a', answers (spec sb) a ops = .ok (a', os) ∧ Shows sb y' a' := by
  have hrun := h.run hops
  cases hy : answers step y ops with
  | error f =>
    cases ha : answers (spec sb) a ops with
    | error g =>
      rw [hy, ha] at hrun
      have e : f = g := hrun
      exact ⟨by rw [e]; rfl, fun _ _ hok => by cases hok⟩
    | ok q =>
      rw [hy, ha] at hrun
      exact hrun.elim
  | ok r =>
    cases ha : answers (spec sb) a ops with
    | error g =>
      rw [hy, ha] at hrun
      exact hrun.elim
    | ok q =>
      rw [hy, ha] at hrun
      obtain ⟨ho, hshows⟩ := hrun
      refine ⟨congrArg Except.ok ho, fun y' os hok => ?_⟩
      cases hok
      exact ⟨q.1, by rw [show os = q.2 from ho], hshows⟩

/-- A file without links is made, written to and read, and lives until the second of two references is dropped. -/
def oneFile : List Op :=
  [.ialloc 2, .write 1 [97, 98] 0, .idup 1, .iput 1, .read 1 0 512, .iput 1, .iget 1, .read 1 0 1]

theorem legal_oneFile : ∀ op ∈ oneFile, op.Legal mkfsSb := by
  intro op hop
  simp only [oneFile, List.mem_cons, List.not_mem_nil, or_false] at hop
  rcases hop with e | e | e | e | e | e | e | e <;> subst e <;> simp [Op.Legal, mkfsSb]

theorem runs_refine_files_one_file :
    (answers step start oneFile).map Prod.snd = (answers (spec mkfsSb) noFiles oneFile).map Prod.snd :=
  (runs_refine_files start_shows legal_oneFile).1

/-- Where the blocks of a disk are. -/
def places (s : St) : Place → Option Nat := own s (dinode s) (sized fun j => (dinode s j).size)

theorem blocks_accounted {ops : List Op} {y' : Sys} {os : List Answer} (h : Shows sb y a) (hops : ∀ op ∈ ops, op.Legal sb)
    (hrun : answers step y ops = .ok (y', os)) :
    (∀ b < sb.size, inUse y'.st b = true ↔ b < nmeta sb ∨ ∃ p, places y'.st p = some b) ∧
      (∀ p q b, places y'.st p = some b → places y'.st q = some b → p = q) ∧
      (∀ p b, places y'.st p = some b → nmeta sb ≤ b ∧ b < sb.size) ∧
      ((Finset.range sb.size).filter fun b => inUse y'.st b = true).card =
        nmeta sb + ∑ i ∈ Finset.range sb.ninodes, (shapeOf (blocksOf (dinode y'.st i).size)).blocks := by
  have hshows := h.run hops
  rw [hrun] at hshows
  cases ha : answers (spec sb) a ops with
  | error g =>
    rw [ha] at hshows
    exact hshows.elim
  | ok q =>
    rw [ha] at hshows
    obtain ⟨-, hend⟩ := hshows
    have hsb : y'.st.sb = sb := hend.super
    have hgood := hend.sound.good
    have hcard := hgood.card
    have hexact := hgood.exact
    have howned := fun p b => hgood.owned (p := p) (b := b)
    simp only [hsb] at hcard hexact howned
    refine ⟨fun b hb => ?_, hexact.distinct, fun p b hp => ⟨(howned p b hp).1, (howned p b hp).2.1⟩, hcard⟩
    have := hexact.exact b
    simp only [hb, true_and] at this
    exact this

theorem blocks_accounted_one_file : ∃ y' os, answers step start [.ialloc 2, .write 1 [97, 98] 0] = .ok (y', os) ∧
    ∀ p q b, places y'.st p = some b → places y'.st q = some b → p = q := by
  obtain ⟨y1, h1, hshows⟩ := one_ialloc
  obtain ⟨y2, a2, h2, -⟩ := one_write hshows
  have hlegal : ∀ op ∈ [Op.ialloc 2, .write 1 [97, 98] 0], op.Legal mkfsSb :=
    fun op hop => legal_oneFile op (List.mem_of_mem_take (i := 2) hop)
  have hrun : answers step start [.ialloc 2, .write 1 [97, 98] 0] = .ok (y2, [.inum 1, .wrote 2]) := by
    simp only [answers, h1, h2]
  exact ⟨y2, _, hrun, (blocks_accounted start_shows hlegal hrun).2.1⟩

/-- The panics for want of blocks and inodes, and that for an inode without a file. -/
def Panic.Expected (q : Panic) : Prop := q = .outOfBlocks ∨ q = .noInodes ∨ q = .noEntries ∨ q = .noType

theorem iget_panics {q : Panic} (h : Files.iget sb a i = .error q) : q.Expected := by
  unfold Files.iget at h
  split at h
  · cases h
  · split at h
    · cases h
    · cases h
      exact .inr (.inr (.inl rfl))

theorem call_panics {r : Except Panic (Files × Answer)} {q : Panic} (h : a.call i r = .error q) : r = .error q := by
  unfold Files.call at h
  split at h
  · cases h
  · exact h

theorem locked_panics {g : File → Except Panic (Files × Answer)} {q : Panic} (h : a.locked i g = .error q)
    (hg : ∀ f, g f = .error q → q.Expected) : q.Expected := by
  have h := call_panics h
  split at h
  · cases h
    exact .inr (.inr (.inr rfl))
  · exact hg _ h

theorem spec_panics (a : Files) (op : Op) (q : Panic) (h : spec sb a op = .error q) : q.Expected := by
  cases op with
  | ialloc type =>
    simp only [spec] at h
    split at h
    · exact iget_panics h
    · cases h
      exact .inr (.inl rfl)
  | iget i => exact iget_panics h
  | idup i => cases call_panics h
  | read i off n =>
    refine locked_panics h fun f hf => ?_
    cases hf
  | write i src off =>
    refine locked_panics h fun f hf => ?_
    split at hf
    · cases hf
    · split at hf
      · cases hf
      · split at hf
        · cases hf
        · cases hf
          exact .inl rfl
  | change i major minor nlink =>
    refine locked_panics h fun f hf => ?_
    cases hf
  | iput i => cases call_panics h

theorem spec_run_panics {ops : List Op} {a : Files} {p : Panic} (h : answers (spec sb) a ops = .error p) :
    p.Expected := by
  induction ops generalizing a with
  | nil => cases h
  | cons op ops ih =>
    cases hop : spec sb a op with
    | error q =>
      simp only [answers, hop, Except.error.injEq] at h
      exact h ▸ spec_panics a op q hop
    | ok r =>
      cases hrest : answers (spec sb) r.1 ops with
      | error q =>
        simp only [answers, hop, hrest, Except.error.injEq] at h
        subst h
        exact ih hrest
      | ok q => simp [answers, hop, hrest] at h

/-- No run frees a block that is free, asks for a block behind the largest file, or locks an inode without a reference. -/
theorem only_full_panics {ops : List Op} {p : Panic} (h : Shows sb y a) (hops : ∀ op ∈ ops, op.Legal sb)
    (hrun : answers step y ops = .error p) : p = .outOfBlocks ∨ p = .noInodes ∨ p = .noEntries ∨ p = .noType := by
  have hrefine := h.run hops
  rw [hrun] at hrefine
  cases ha : answers (spec sb) a ops with
  | ok q =>
    rw [ha] at hrefine
    exact hrefine.elim
  | error g =>
    rw [ha] at hrefine
    have e : p = g := hrefine
    rw [e]
    exact spec_run_panics ha

theorem spec_read_none : answers (spec mkfsSb) noFiles [.iget 1, .read 1 0 1] = .error .noType := by
  have hget : spec mkfsSb noFiles (.iget 1) =
      .ok ({ noFiles with refs := Function.update noFiles.refs 1 1, valid := Function.update noFiles.valid 1 false }, .inum 1) :=
    iget_first rfl (by decide +kernel)
  simp only [answers, hget]
  rfl

theorem only_full_panics_read : answers step start [.iget 1, .read 1 0 1] = .error .noType ∧
    (Panic.noType = .outOfBlocks ∨ Panic.noType = .noInodes ∨ Panic.noType = .noEntries ∨ Panic.noType = .noType) := by
  have hlegal : ∀ op ∈ [Op.iget 1, .read 1 0 1], op.Legal mkfsSb := by
    intro op hop
    simp only [List.mem_cons, List.not_mem_nil, or_false] at hop
    rcases hop with e | e <;> subst e <;> simp [Op.Legal, mkfsSb]
  have hrun : answers step start [.iget 1, .read 1 0 1] = .error .noType := error_of_spec start_shows hlegal spec_read_none
  exact ⟨hrun, only_full_panics start_shows hlegal hrun⟩

/-! ### The log -/

theorem blocks_shapeOf_le {c c' : Nat} (h : c ≤ c') : (shapeOf c').blocks ≤ (shapeOf c).blocks + (c' - c) + 1 := by
  have hle : ∀ n, n ≤ (shapeOf n).blocks ∧ (shapeOf n).blocks ≤ n + 1 := by
    intro n
    by_cases hn : ndirect < n <;> simp [shapeOf, Shape.blocks, hn]
  have := hle c
  have := hle c'
  omega

/-- At most four blocks of the file, their list, the inode, and a block of the bitmap for each new one: of four blocks
    the first is old, and their list may be new. -/
theorem logged_le {size off n k : Nat} (hoff : off ≤ size) (hn : n ≤ maxWrite)
    (hk : k + (shapeOf (blocksOf size)).blocks ≤
      (shapeOf (blocksOf (max size (off + n)))).blocks + (blocksOf (off + n) - off / bsize) + 2) : k ≤ maxOpBlocks := by
  have hmax : maxWrite = 1536 := rfl
  have hmono : blocksOf size ≤ blocksOf (max size (off + n)) := by
    rw [← blocksOf_max]
    exact le_max_left ..
  have hgrow := blocks_shapeOf_le hmono
  have hspan : blocksOf (max size (off + n)) - blocksOf size + (blocksOf (off + n) - off / bsize) ≤ 7 := by
    simp only [blocksOf, bsize]
    omega
  show k ≤ 10
  omega

theorem span_le (off : Nat) {n : Nat} (hn : n ≤ maxWrite) : blocksOf (off + n) - off / bsize ≤ 4 := by
  have hmax : maxWrite = 1536 := rfl
  simp only [blocksOf, bsize]
  omega

/-- What a `writei` that returns has written to the log. -/
theorem Sound.writei_logged {src : List UInt8} {off : Nat} {o : Answer} {d : Dinode} {f : File} (h : Sound s)
    (hi : i < s.sb.ninodes) (hfile : IsFile s.disk (dinode s i) f) (hn : src.length ≤ maxWrite)
    (hrun : Fs.writei s i (dinode s i) src off = .ok (o, d, t)) :
    ∃ L : Finset Nat, L.card ≤ maxOpBlocks ∧ (s.sb.size ≤ bpb → L.card ≤ 7) ∧ ∀ b ∈ t.logged, b ∈ s.logged ∨ b ∈ L := by
  have hmax : maxWrite = 1536 := rfl
  have hlen : src.length < 2 ^ 32 := by omega
  have hnothing : ∃ L : Finset Nat, L.card ≤ maxOpBlocks ∧ (s.sb.size ≤ bpb → L.card ≤ 7) ∧
      ∀ b ∈ s.logged, b ∈ s.logged ∨ b ∈ L :=
    ⟨∅, Nat.zero_le _, fun _ => Nat.zero_le _, fun b hb => .inl hb⟩
  by_cases hdev : (dinode s i).type = tDev
  · rw [Fs.writei, if_pos hdev] at hrun
    cases hrun
    exact hnothing
  rcases h.writei hi hfile.holds hlen hdev hfile.used off with ⟨-, hwrite⟩ | ⟨ip, hsome, ⟨-, d, t, hwrite, hw⟩ | ⟨-, hwrite⟩⟩
  · rw [hwrite] at hrun
    cases hrun
    exact hnothing
  · rw [hwrite] at hrun
    cases hrun
    obtain ⟨L, hcard, hsmall, hlogged⟩ := hw.logged
    refine ⟨L, ?_, fun hle => ?_, hlogged⟩
    · rcases writei_file f.ip hlen off with ⟨-, hnone⟩ | ⟨hr, ip', hsome', hsize, -⟩
      · rw [hnone] at hsome
        cases hsome
      · rw [hsome'] at hsome
        cases hsome
        have htotal := total_update s.sb hi (sized fun j => (dinode s j).size) (shapeOf (blocksOf ip.size))
        rw [show Function.update (sized fun j => (dinode s j).size) i (shapeOf (blocksOf ip.size)) =
          sized (Function.update (fun j => (dinode s j).size) i ip.size) by
            rw [sized_update, Function.comp_update]; rfl] at htotal
        change _ + (shapeOf (blocksOf (dinode s i).size)).blocks = _ at htotal
        refine logged_le (not_refused f.ip.fits hlen hr).1 hn ?_
        rw [hfile.holds.size] at hsize ⊢
        rw [← hsize]
        omega
    · have hspan := span_le off hn
      have := hsmall hle
      omega
  · rw [hwrite] at hrun
    cases hrun

/-- A `write` that returns is a `writei`, or the inode is not cached. -/
theorem writei_of_write {src : List UInt8} {off : Nat} {y' : Sys} {o : Answer} (h : Shows sb y a)
    (hrun : step y (.write i src off) = .ok (y', o)) :
    y' = y ∨ ∃ f d, a.files i = some f ∧ Fs.writei y.st i (dinode y.st i) src off = .ok (o, d, y'.st) := by
  simp only [step, Sys.call] at hrun
  rcases h.table.cached i with ⟨-, hnone⟩ | ⟨p, hsome, hp⟩
  · rw [hnone] at hrun
    cases hrun
    exact .inl rfl
  rw [hsome] at hrun
  dsimp only at hrun
  cases hf : a.files i with
  | none =>
    rw [h.ilock_none hp hf] at hrun
    cases hrun
  | some f =>
    obtain ⟨y1, hlock, hst, hinum, hunlock⟩ := h.ilock hp hf
    rw [hlock] at hrun
    change (Fs.writei y1.st (y1.icache p).inum (dinode y.st i) src off).bind
      (fun r => (iunlock y1 p r.2.1 r.2.2).bind fun y => .ok (y, r.1)) = _ at hrun
    rw [hst, hinum] at hrun
    cases hwrite : Fs.writei y.st i (dinode y.st i) src off with
    | error q =>
      rw [hwrite] at hrun
      cases hrun
    | ok r =>
      obtain ⟨answer, d, t⟩ := r
      rw [hwrite] at hrun
      change (iunlock y1 p d t).bind _ = _ at hrun
      rw [hunlock] at hrun
      cases hrun
      exact .inr ⟨f, d, rfl, rfl⟩

theorem write_fits_log {src : List UInt8} {off : Nat} {y' : Sys} {o : Answer} (h : Shows sb y a) (hi : i < sb.ninodes)
    (hn : src.length ≤ maxWrite) (hrun : step y (.write i src off) = .ok (y', o)) :
    ∃ L : Finset Nat, L.card ≤ maxOpBlocks ∧ (sb.size ≤ bpb → L.card ≤ 7) ∧
      ∀ b ∈ y'.st.logged, b ∈ y.st.logged ∨ b ∈ L := by
  rcases writei_of_write h hrun with rfl | ⟨f, d, hf, hwrite⟩
  · exact ⟨∅, Nat.zero_le _, fun _ => Nat.zero_le _, fun b hb => .inl hb⟩
  · have hfile := h.files i hi
    rw [hf] at hfile
    rw [← h.super] at hi ⊢
    exact h.sound.writei_logged hi hfile hn hwrite

theorem write_fits_log_two_bytes : ∃ y y', step start (.ialloc 2) = .ok (y, .inum 1) ∧
    step y (.write 1 [97, 98] 0) = .ok (y', .wrote 2) ∧
    ∃ L : Finset Nat, L.card ≤ 7 ∧ ∀ b ∈ y'.st.logged, b ∈ y.st.logged ∨ b ∈ L := by
  obtain ⟨y, h1, hshows⟩ := one_ialloc
  obtain ⟨y', -, h2, -⟩ := one_write hshows
  obtain ⟨L, -, hsmall, hlogged⟩ := write_fits_log hshows (by decide) (by decide) h2
  exact ⟨y, y', h1, h2, L, hsmall (by decide), hlogged⟩

end CS5600.Xv6.Fs
