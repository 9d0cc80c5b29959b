/-
  CS5600.Xv6.LogProofs — what the log keeps, over any interleaving of calls and any number of crashes.

  `recovered` is what `recover_from_log` would make of a disk. The file system's blocks are seen as a `Store`:
  what is durable, and what the processes read. One step of the code is one act on it: a write of a
  block, a commit of all that was written, a crash, or nothing.
-/

import CS5600.Lib.Slots
import CS5600.Xv6.Log

namespace CS5600.Xv6.Log

open CS5600.Lib.Bytes CS5600.Lib.Redo CS5600.Lib.Runs

/-! ## The purpose of the log -/

structure Store where
  durable : Nat → Block
  current : Nat → Block

inductive Act where
  | stay
  | write (b : Nat) (data : Block)
  | commit
  | crash

def Store.act (σ : Store) : Act → Store
  | .stay => σ
  | .write b data => { σ with current := Function.update σ.current b data }
  | .commit => { σ with durable := σ.current }
  | .crash => { σ with current := σ.durable }

def label (s : St) : Ev → Act
  | .append i =>
    match s.procs i with
    | .checked _ b data => .write b data
    | _ => .stay
  | .advance => if s.phase = .writeHead then .commit else .stay
  | .crash => .crash
  | _ => .stay

section

variable (L : Layout)

/-- The writes that the header on the disk lists. -/
def logged (disk : Nat → Block) : List (Nat × Block) :=
  (headBlocks (disk L.start)).zipIdx.map fun x => (x.1, disk (L.start + x.2 + 1))

def recovered (disk : Nat → Block) : Nat → Block := writeAll disk (logged L disk)

def St.current (s : St) : Nat → Block := if s.phase.recovering = true then recovered L s.disk else s.view

def Shows (s : St) (σ : Store) : Prop :=
  ∀ b, L.Home b → recovered L s.disk b = σ.durable b ∧ s.current L b = σ.current b

/-! ## The invariant -/

def Proc.mine : Proc → Finset Nat
  | .out | .waiting _ => ∅
  | .busy mine | .checked mine _ _ => mine

/-- Whether it is between `begin_op` and `end_op`. -/
def Proc.inCall : Proc → Bool
  | .out | .waiting _ => false
  | .busy _ | .checked _ _ _ => true

def Proc.calls (p : Proc) : Nat := if p.inCall = true then 1 else 0

/-- How many more blocks it may log. -/
def Proc.quota (m : Nat) (p : Proc) : Nat := if p.inCall = true then m - p.mine.card else 0

/-- No process is in a call. -/
def Quiet (s : St) : Prop := ∀ i, (s.procs i).inCall = false

/-- What a list of block numbers in the header can be. -/
structure Fits (m : Nat) (lh : List Nat) : Prop where
  nodup : lh.Nodup
  home : ∀ b ∈ lh, L.Home b ∧ b < 2 ^ 32
  short : lh.length ≤ maxOpBlocks + 2 * m

/-- The first `n` blocks of `lh` stand in the log as `v` has them. -/
def Copied (disk v : Nat → Block) (lh : List Nat) (n : Nat) : Prop :=
  ∀ j b, j < n → lh[j]? = some b → disk (L.start + j + 1) = v b

/-- The dirty blocks are among these. -/
def St.unwritten (s : St) : List Nat :=
  match s.phase with
  | .opened | .writeLog _ | .writeHead => s.lh
  | .install tail => s.lh.drop tail
  | _ => []

def OnDisk (m : Nat) (s : St) : Phase → Prop
  | .opened => headBlocks (s.disk L.start) = []
  | .writeLog tail => headBlocks (s.disk L.start) = [] ∧ Copied L s.disk s.view s.lh tail
  | .writeHead => headBlocks (s.disk L.start) = [] ∧ Copied L s.disk s.view s.lh s.lh.length
  | .install _ => headBlocks (s.disk L.start) = s.lh ∧ Copied L s.disk s.view s.lh s.lh.length
  | .leave => headBlocks (s.disk L.start) = [] ∧ s.lh = []
  | .readHead => Fits L m (headBlocks (s.disk L.start))
  | .replay tail => headBlocks (s.disk L.start) = s.lh ∧ Copied L s.disk s.disk s.lh tail
  | .clearHead | .erase =>
    Fits L m (headBlocks (s.disk L.start)) ∧ s.lh = [] ∧
      Copied L s.disk s.disk (headBlocks (s.disk L.start)) (headBlocks (s.disk L.start)).length

/-- The blocks: on the disk, in buffers, in the log. -/
structure Blocks (m : Nat) (s : St) : Prop where
  sync : ∀ b, s.dirty b = false → s.view b = s.disk b
  dirty : ∀ b, s.dirty b = true → b ∈ s.unwritten
  fits : Fits L m s.lh
  onDisk : OnDisk L m s s.phase

/-- The calls: who is in one, and what they may still log. -/
structure Calls (m : Nat) (s : St) : Prop where
  room : s.lh.length + ∑ i, (s.procs i).quota m ≤ maxOpBlocks + 2 * m
  counts : s.outstanding = ∑ i, (s.procs i).calls
  quiet : s.phase ≠ .opened → s.outstanding = 0
  idle : s.phase = .opened → s.outstanding = 0 → s.lh = []
  mine : ∀ i, ∀ b ∈ (s.procs i).mine, b ∈ s.lh
  checked : ∀ i mine b data, s.procs i = .checked mine b data → (insert b mine).card ≤ m ∧ L.Home b ∧ b < 2 ^ 32
  asleep : ∀ i, s.procs i = .waiting true → Full s
  alone : s.phase.recovering = true → ∀ i, s.procs i = .out

structure Inv (m : Nat) (s : St) : Prop where
  blocks : Blocks L m s
  calls : Calls L m s

end

/-! ## Lists of blocks -/

section

variable {L : Layout} {m : Nat} {disk disk' v v' : Nat → Block} {lh : List Nat} {n k b : Nat}

theorem start_notHome (hsize : maxOpBlocks + 2 * m < L.size) : ¬ L.Home L.start := by
  unfold Layout.Home
  omega

theorem log_notHome (hsize : maxOpBlocks + 2 * m < L.size) (hf : Fits L m lh) (hk : k < lh.length) :
    ¬ L.Home (L.start + k + 1) := by
  have := hf.short
  unfold Layout.Home
  omega

theorem ne_of_home {x y : Nat} (hx : L.Home x) (hy : ¬ L.Home y) : x ≠ y := fun e => hy (e ▸ hx)

theorem Fits.nil : Fits L m [] := ⟨List.nodup_nil, by simp, by simp⟩

theorem Fits.headBlocks_headBytes (hf : Fits L m lh) (hm : m ≤ maxOpBlocks) (buf : Block) :
    headBlocks (headBytes buf lh) = lh := by
  apply Log.headBlocks_headBytes
  · exact fun b hb => (hf.home b hb).2
  · have := hf.short
    simp only [maxOpBlocks] at this hm
    omega

theorem Copied.mono (h : Copied L disk v lh n) (hk : k ≤ n) : Copied L disk v lh k :=
  fun j b hj hb => h j b (by omega) hb

theorem Copied.of_none (h : Copied L disk v lh n) (hn : lh[n]? = none) : Copied L disk v lh lh.length :=
  h.mono (List.getElem?_eq_none_iff.mp hn)

theorem Copied.congr (h : Copied L disk v lh n) (hlog : ∀ j < lh.length, j < n → disk' (L.start + j + 1) = disk (L.start + j + 1))
    (hv : ∀ b ∈ lh, v' b = v b) : Copied L disk' v' lh n := by
  intro j b hj hb
  rw [hlog j (List.getElem?_eq_some_iff.mp hb).1 hj, hv b (List.mem_of_getElem? hb)]
  exact h j b hj hb

theorem Copied.succ (h : Copied L disk v lh n) (hb : lh[n]? = some b) (hn : disk (L.start + n + 1) = v b) :
    Copied L disk v lh (n + 1) := by
  intro j c hj hc
  by_cases e : j = n
  · subst e
    rw [hb] at hc
    cases hc
    exact hn
  · exact h j c (by omega) hc

/-! ## What recovery makes of a disk -/

theorem logged_keys : (logged L disk).map Prod.fst = headBlocks (disk L.start) := by
  unfold logged
  rw [List.map_map]
  exact List.zipIdx_map_fst ..

theorem logged_congr (hs : disk' L.start = disk L.start)
    (hlog : ∀ j < (headBlocks (disk L.start)).length, disk' (L.start + j + 1) = disk (L.start + j + 1)) :
    logged L disk' = logged L disk := by
  unfold logged
  rw [hs]
  apply List.map_congr_left
  intro x hx
  have hlt := List.snd_lt_of_mem_zipIdx hx
  rw [hlog x.2 (by omega)]

theorem recovered_congr (hs : disk' L.start = disk L.start)
    (hlog : ∀ j < (headBlocks (disk L.start)).length, disk' (L.start + j + 1) = disk (L.start + j + 1))
    (hb : b ∉ headBlocks (disk L.start) → disk' b = disk b) : recovered L disk' b = recovered L disk b := by
  unfold recovered
  rw [logged_congr hs hlog]
  apply writeAll_congr
  rwa [logged_keys]

theorem recovered_of_empty (h : headBlocks (disk L.start) = []) : recovered L disk = disk := by
  unfold recovered logged
  rw [h]
  rfl

theorem recovered_of_copied (hf : Fits L m (headBlocks (disk L.start)))
    (hc : Copied L disk v (headBlocks (disk L.start)) (headBlocks (disk L.start)).length)
    (hrest : b ∉ headBlocks (disk L.start) → disk b = v b) : recovered L disk b = v b := by
  by_cases hb : b ∈ headBlocks (disk L.start)
  · obtain ⟨j, hj⟩ := List.mem_iff_getElem?.mp hb
    have hmem : (b, disk (L.start + j + 1)) ∈ logged L disk :=
      List.mem_map.mpr ⟨(b, j), List.mem_zipIdx_iff_getElem?.mpr hj, rfl⟩
    have hval := writeAll_eq (d := disk) (by rw [logged_keys]; exact hf.nodup) hmem
    rw [recovered, hval]
    exact hc j b (List.getElem?_eq_some_iff.mp hj).1 hj
  · rw [recovered, writeAll_of_notMem (by rwa [logged_keys])]
    exact hrest hb

end

/-! ## Steps that leave the blocks alone -/

section

variable {L : Layout} {m : Nat} {s t : St} {σ : Store} {b : Nat}

theorem Shows.of_eq (h : Shows L s σ) (hd : ∀ b, L.Home b → recovered L t.disk b = recovered L s.disk b)
    (hc : ∀ b, L.Home b → t.current L b = s.current L b) : Shows L t σ := by
  intro b hb
  rw [hd b hb, hc b hb]
  exact h b hb

/-- Nothing but processes and counters has changed, or a buffer that holds what the disk holds. -/
structure SameBlocks (s t : St) : Prop where
  disk : t.disk = s.disk
  view : t.view = s.view
  dirty : t.dirty = s.dirty
  lh : t.lh = s.lh
  phase : t.phase = s.phase

theorem Blocks.same (h : Blocks L m s) (e : SameBlocks s t) : Blocks L m t := by
  refine ⟨?_, ?_, ?_, ?_⟩
  · rw [e.dirty, e.view, e.disk]
    exact h.sync
  · unfold St.unwritten
    rw [e.dirty, e.lh, e.phase]
    exact h.dirty
  · rw [e.lh]
    exact h.fits
  · unfold OnDisk
    rw [e.disk, e.view, e.lh, e.phase]
    exact h.onDisk

theorem Shows.same (h : Shows L s σ) (e : SameBlocks s t) : Shows L t σ := by
  refine h.of_eq ?_ ?_
  · intro b _
    rw [e.disk]
  · intro b _
    unfold St.current
    rw [e.phase, e.view, e.disk]

theorem Calls.same (h : Calls L m s) (hl : t.lh = s.lh) (ho : t.outstanding = s.outstanding) (hp : t.phase = s.phase)
    (hq : t.procs = s.procs) : Calls L m t := by
  refine ⟨?_, ?_, ?_, ?_, ?_, ?_, ?_, ?_⟩
  · rw [hl, hq]
    exact h.room
  · rw [ho, hq]
    exact h.counts
  · rw [hp, ho]
    exact h.quiet
  · rw [hp, ho, hl]
    exact h.idle
  · rw [hq, hl]
    exact h.mine
  · rw [hq]
    exact h.checked
  · unfold Full
    rw [hq, hp, hl, ho]
    exact h.asleep
  · rw [hp, hq]
    exact h.alone

theorem sameBlocks_bread : SameBlocks s (bread s b) := ⟨rfl, view_bread, rfl, rfl, rfl⟩

theorem sameBlocks_reuse (h : Blocks L m s) : SameBlocks s (reuse s b) := by
  unfold reuse
  split
  · exact ⟨rfl, rfl, rfl, rfl, rfl⟩
  · rename_i hb
    refine ⟨rfl, ?_, rfl, rfl, rfl⟩
    funext x
    by_cases e : x = b
    · subst e
      have hsync := h.sync x (by simpa using hb)
      simp [St.view] at hsync ⊢
      exact hsync.symm
    · simp [St.view, Function.update_of_ne e]

theorem sameBlocks_procs (n : Nat) (procs : Slot → Proc) : SameBlocks s { s with outstanding := n, procs := procs } :=
  ⟨rfl, view_congr rfl rfl, rfl, rfl, rfl⟩

end

/-! ## The disk writes of `commit` and `recover_from_log` -/

section

variable {L : Layout} {m : Nat} {s t : St} {σ : Store} {b k : Nat} {x : Block}

/-- The blocks of the log are never dirty. -/
theorem Blocks.view_log (h : Blocks L m s) (hb : ¬ L.Home b) : s.view b = s.disk b := by
  apply h.sync
  rw [Bool.eq_false_iff]
  intro hd
  have hmem := h.dirty b hd
  have hlh : b ∈ s.lh := by
    unfold St.unwritten at hmem
    split at hmem
    · exact hmem
    · exact hmem
    · exact hmem
    · exact List.mem_of_mem_drop hmem
    · cases hmem
  exact hb (h.fits.home b hlh).1

theorem Blocks.head (h : Blocks L m s) : Fits L m (headBlocks (s.disk L.start)) := by
  have hd := h.onDisk
  unfold OnDisk at hd
  split at hd
  · rw [hd]; exact .nil
  · rw [hd.1]; exact .nil
  · rw [hd.1]; exact .nil
  · rw [hd.1]; exact h.fits
  · rw [hd.1]; exact .nil
  · exact hd
  · rw [hd.1]; exact h.fits
  · exact hd.1
  · exact hd.1

theorem Blocks.clean (h : Blocks L m s) (hu : s.unwritten = []) (b : Nat) : s.dirty b = false := by
  rw [Bool.eq_false_iff]
  intro hb
  have hmem := h.dirty b hb
  rw [hu] at hmem
  cases hmem

/-- A block is written, with the data it is then read with. -/
structure Wrote (s t : St) (b : Nat) (x : Block) : Prop where
  disk : t.disk = Function.update s.disk b x
  view : t.view = Function.update s.view b x
  dirty : t.dirty = Function.update s.dirty b false

theorem Wrote.sync (w : Wrote s t b x) (h : Blocks L m s) : ∀ c, t.dirty c = false → t.view c = t.disk c := by
  intro c hc
  rw [w.view, w.disk]
  by_cases e : c = b
  · rw [e, Function.update_self, Function.update_self]
  · rw [w.dirty, Function.update_of_ne e] at hc
    rw [Function.update_of_ne e, Function.update_of_ne e]
    exact h.sync c hc

theorem Wrote.of_dirty (w : Wrote s t b x) {c : Nat} (hc : t.dirty c = true) : c ≠ b ∧ s.dirty c = true := by
  rw [w.dirty] at hc
  by_cases e : c = b
  · rw [e, Function.update_self] at hc
    cases hc
  · rw [Function.update_of_ne e] at hc
    exact ⟨e, hc⟩

theorem Wrote.disk_ne (w : Wrote s t b x) {c : Nat} (hc : c ≠ b) : t.disk c = s.disk c := by
  rw [w.disk, Function.update_of_ne hc]

theorem Wrote.view_ne (w : Wrote s t b x) {c : Nat} (hc : c ≠ b) : t.view c = s.view c := by
  rw [w.view, Function.update_of_ne hc]

theorem SameBlocks.trans {u : St} (h : SameBlocks s t) (h' : SameBlocks t u) : SameBlocks s u :=
  ⟨h'.disk.trans h.disk, h'.view.trans h.view, h'.dirty.trans h.dirty, h'.lh.trans h.lh, h'.phase.trans h.phase⟩

theorem wrote_bwrite {u : St} (e : SameBlocks s u) (hd : t.disk = (bwrite u b x).disk)
    (hc : t.cache = (bwrite u b x).cache) (hf : t.dirty = (bwrite u b x).dirty) : Wrote s t b x := by
  refine ⟨?_, ?_, ?_⟩
  · rw [hd, ← e.disk]
    rfl
  · rw [view_congr hc hd, view_bwrite, e.view]
  · rw [hf, ← e.dirty]
    rfl

theorem wrote_logBlock (p : Phase) : Wrote s { logBlock L s k b with phase := p } (L.start + k + 1) (s.view b) := by
  have e : SameBlocks s (bread (bread s (L.start + k + 1)) b) := sameBlocks_bread.trans sameBlocks_bread
  rw [← e.view]
  exact wrote_bwrite e rfl rfl rfl

theorem wrote_installBlock (p : Phase) :
    Wrote s { installBlock L s k b with phase := p } b (s.view (L.start + k + 1)) := by
  have e : SameBlocks s (bread (bread s (L.start + k + 1)) b) := sameBlocks_bread.trans sameBlocks_bread
  rw [← e.view]
  exact wrote_bwrite e rfl rfl rfl

theorem wrote_writeHead (p : Phase) :
    Wrote s { writeHead L s with phase := p } L.start (headBytes (s.view L.start) s.lh) := by
  have e : SameBlocks s (bread s L.start) := sameBlocks_bread
  rw [← e.view]
  exact wrote_bwrite e rfl rfl rfl

end

/-! ## Each step of `commit` and `recover_from_log` -/

section

variable {L : Layout} {m : Nat} {s t : St} {σ : Store} {b k : Nat} {x : Block}

/-- The new state keeps the invariant, and shows what the act makes of what was shown. -/
structure Does (L : Layout) (m : Nat) (s t : St) (a : Act) : Prop where
  blocks : Blocks L m t
  shows : ∀ σ, Shows L s σ → Shows L t (σ.act a)

theorem Blocks.onDisk_at {p : Phase} (h : Blocks L m s) (hp : s.phase = p) : OnDisk L m s p := hp ▸ h.onDisk

theorem current_of_view (hp : s.phase.recovering = false) : s.current L = s.view := by
  simp [St.current, hp]

theorem current_of_recovering (hp : s.phase.recovering = true) : s.current L = recovered L s.disk := by
  simp [St.current, hp]

/-- A step that writes nothing. -/
theorem does_move (h : Blocks L m s) (hd : t.disk = s.disk) (hv : t.view = s.view) (hf : t.dirty = s.dirty)
    (hr : t.phase.recovering = s.phase.recovering) (hfits : Fits L m t.lh)
    (hdirty : ∀ c, s.dirty c = true → c ∈ t.unwritten) (hon : OnDisk L m t t.phase) : Does L m s t .stay := by
  refine ⟨⟨?_, ?_, hfits, hon⟩, fun σ hσ => hσ.of_eq ?_ ?_⟩
  · rw [hf, hv, hd]
    exact h.sync
  · rw [hf]
    exact hdirty
  · intro c _
    rw [hd]
  · intro c _
    unfold St.current
    rw [hr, hv, hd]

variable (hsize : maxOpBlocks + 2 * m < L.size)

include hsize

/-- A block of the header's list is written with its copy: what recovery would make of the disk is the same. -/
theorem recovered_install (hf : Fits L m (headBlocks (s.disk L.start))) (hb : b ∈ headBlocks (s.disk L.start))
    (w : Wrote s t b x) (c : Nat) : recovered L t.disk c = recovered L s.disk c := by
  have hhome := (hf.home b hb).1
  apply recovered_congr
  · exact w.disk_ne (ne_of_home hhome (start_notHome hsize)).symm
  · intro j hj
    exact w.disk_ne (ne_of_home hhome (log_notHome hsize hf hj)).symm
  · intro hc
    exact w.disk_ne fun e => hc (e ▸ hb)

/-- The header is erased once every block it lists is where it belongs. -/
theorem recovered_erase (hf : Fits L m (headBlocks (s.disk L.start)))
    (hc : Copied L s.disk s.disk (headBlocks (s.disk L.start)) (headBlocks (s.disk L.start)).length)
    (w : Wrote s t L.start x) (hhead : headBlocks (t.disk L.start) = []) {c : Nat} (hb : L.Home c) :
    recovered L t.disk c = t.disk c ∧ recovered L s.disk c = t.disk c := by
  have hdisk := w.disk_ne (ne_of_home hb (start_notHome hsize))
  refine ⟨by rw [recovered_of_empty hhead], ?_⟩
  rw [recovered_of_copied hf hc fun _ => rfl, hdisk]

variable (hm : m ≤ maxOpBlocks) (h : Blocks L m s)

include h

theorem does_logBlock (hp : s.phase = .writeLog k) (hb : s.lh[k]? = some b) (w : Wrote s t (L.start + k + 1) (s.view b))
    (hl : t.lh = s.lh) (hp' : t.phase = .writeLog (k + 1)) : Does L m s t .stay := by
  obtain ⟨hhead, hcopied⟩ := h.onDisk_at hp
  have hlog := log_notHome hsize h.fits (List.getElem?_eq_some_iff.mp hb).1
  have hview : ∀ c, L.Home c → t.view c = s.view c := fun c hc => w.view_ne (ne_of_home hc hlog)
  have hdisk : ∀ c, L.Home c → t.disk c = s.disk c := fun c hc => w.disk_ne (ne_of_home hc hlog)
  have hhead' : headBlocks (t.disk L.start) = [] := by
    rw [w.disk_ne (by omega)]
    exact hhead
  refine ⟨⟨w.sync h, ?_, hl ▸ h.fits, ?_⟩, ?_⟩
  · intro c hc
    have hmem := h.dirty c (w.of_dirty hc).2
    simp only [St.unwritten, hp, hp', hl] at hmem ⊢
    exact hmem
  · simp only [OnDisk, hp', hl]
    refine ⟨hhead', Copied.succ (hcopied.congr ?_ ?_) hb ?_⟩
    · intro j _ hj
      exact w.disk_ne (by omega)
    · exact fun c hc => hview c (h.fits.home c hc).1
    · rw [w.disk, Function.update_self, hview b (h.fits.home b (List.mem_of_getElem? hb)).1]
  · intro σ hσ
    refine hσ.of_eq ?_ ?_
    · intro c hc
      rw [recovered_of_empty hhead, recovered_of_empty hhead', hdisk c hc]
    · intro c hc
      rw [current_of_view (by rw [hp']; rfl), current_of_view (by rw [hp]; rfl), hview c hc]

include hm in
/-- The header that lists the blocks is written: they are all durable at once. -/
theorem does_writeHead (hp : s.phase = .writeHead) (w : Wrote s t L.start (headBytes (s.view L.start) s.lh))
    (hl : t.lh = s.lh) (hp' : t.phase = .install 0) : Does L m s t .commit := by
  obtain ⟨hhead, hcopied⟩ := h.onDisk_at hp
  have hstart := start_notHome hsize
  have hview : ∀ c, L.Home c → t.view c = s.view c := fun c hc => w.view_ne (ne_of_home hc hstart)
  have hdisk : ∀ c, L.Home c → t.disk c = s.disk c := fun c hc => w.disk_ne (ne_of_home hc hstart)
  have hhead' : headBlocks (t.disk L.start) = s.lh := by
    rw [w.disk, Function.update_self]
    exact h.fits.headBlocks_headBytes hm _
  have hcopied' : Copied L t.disk t.view s.lh s.lh.length := by
    apply hcopied.congr
    · intro j _ _
      exact w.disk_ne (by omega)
    · exact fun c hc => hview c (h.fits.home c hc).1
  have hdirty : ∀ c, t.dirty c = true → c ∈ s.lh := by
    intro c hc
    have hmem := h.dirty c (w.of_dirty hc).2
    simpa only [St.unwritten, hp] using hmem
  refine ⟨⟨w.sync h, ?_, hl ▸ h.fits, ?_⟩, ?_⟩
  · intro c hc
    simp only [St.unwritten, hp', hl, List.drop_zero]
    exact hdirty c hc
  · simp only [OnDisk, hp', hl]
    exact ⟨hhead', hcopied'⟩
  · intro σ hσ c hc
    have hcur : t.current L c = s.current L c := by
      rw [current_of_view (by rw [hp']; rfl), current_of_view (by rw [hp]; rfl), hview c hc]
    have hrec : recovered L t.disk c = t.view c := by
      apply recovered_of_copied (hhead' ▸ h.fits) (by rw [hhead']; exact hcopied')
      intro hn
      rw [hhead'] at hn
      refine (w.sync h c ?_).symm
      rw [Bool.eq_false_iff]
      exact fun hd => hn (hdirty c hd)
    refine ⟨?_, hcur.trans (hσ c hc).2⟩
    rw [hrec, hview c hc, ← current_of_view (L := L) (s := s) (by rw [hp]; rfl)]
    exact (hσ c hc).2

theorem does_installBlock (hp : s.phase = .install k) (hb : s.lh[k]? = some b)
    (w : Wrote s t b (s.view (L.start + k + 1))) (hl : t.lh = s.lh) (hp' : t.phase = .install (k + 1)) :
    Does L m s t .stay := by
  obtain ⟨hhead, hcopied⟩ := h.onDisk_at hp
  obtain ⟨hk, -⟩ := List.getElem?_eq_some_iff.mp hb
  have hhome := (h.fits.home b (List.mem_of_getElem? hb)).1
  have hlog : ∀ j < s.lh.length, t.disk (L.start + j + 1) = s.disk (L.start + j + 1) := fun j hj =>
    w.disk_ne (ne_of_home hhome (log_notHome hsize h.fits hj)).symm
  have hview : t.view = s.view := by
    rw [w.view, h.view_log (log_notHome hsize h.fits hk), hcopied k b hk hb, Function.update_eq_self]
  refine ⟨⟨w.sync h, ?_, hl ▸ h.fits, ?_⟩, ?_⟩
  · intro c hc
    obtain ⟨hne, hc⟩ := w.of_dirty hc
    have hmem := h.dirty c hc
    simp only [St.unwritten, hp, hp', hl] at hmem ⊢
    rw [List.drop_eq_getElem_cons hk, List.mem_cons] at hmem
    rw [List.getElem?_eq_getElem hk, Option.some_inj] at hb
    exact hmem.resolve_left (hb ▸ hne)
  · simp only [OnDisk, hp', hl]
    refine ⟨?_, hcopied.congr (fun j hj _ => hlog j hj) ?_⟩
    · rw [w.disk_ne (ne_of_home hhome (start_notHome hsize)).symm]
      exact hhead
    · intro c _
      rw [hview]
  · intro σ hσ
    refine hσ.of_eq ?_ ?_
    · intro c _
      exact recovered_install hsize (hhead ▸ h.fits) (hhead ▸ List.mem_of_getElem? hb) w c
    · intro c _
      rw [current_of_view (by rw [hp']; rfl), current_of_view (by rw [hp]; rfl), hview]

theorem does_replayBlock (hp : s.phase = .replay k) (hb : s.lh[k]? = some b)
    (w : Wrote s t b (s.view (L.start + k + 1))) (hl : t.lh = s.lh) (hp' : t.phase = .replay (k + 1)) :
    Does L m s t .stay := by
  obtain ⟨hhead, hcopied⟩ := h.onDisk_at hp
  obtain ⟨hk, -⟩ := List.getElem?_eq_some_iff.mp hb
  have hhome := (h.fits.home b (List.mem_of_getElem? hb)).1
  have hlog : ∀ j < s.lh.length, t.disk (L.start + j + 1) = s.disk (L.start + j + 1) := fun j hj =>
    w.disk_ne (ne_of_home hhome (log_notHome hsize h.fits hj)).symm
  have hhead' : t.disk L.start = s.disk L.start := w.disk_ne (ne_of_home hhome (start_notHome hsize)).symm
  have hrec := recovered_install hsize (hhead ▸ h.fits) (hhead ▸ List.mem_of_getElem? hb) w
  refine ⟨⟨w.sync h, ?_, hl ▸ h.fits, ?_⟩, ?_⟩
  · intro c hc
    have hmem := h.dirty c (w.of_dirty hc).2
    simp [St.unwritten, hp] at hmem
  · simp only [OnDisk, hp', hl]
    refine ⟨hhead' ▸ hhead, Copied.succ ?_ hb ?_⟩
    · intro j c hj hc
      have hne : c ≠ b := by
        intro e
        subst e
        have := (List.getElem?_inj (List.getElem?_eq_some_iff.mp hc).1 h.fits.nodup).mp (hc.trans hb.symm)
        omega
      rw [hlog j (List.getElem?_eq_some_iff.mp hc).1, w.disk_ne hne]
      exact hcopied j c hj hc
    · rw [hlog k hk, w.disk, Function.update_self, h.view_log (log_notHome hsize h.fits hk)]
  · intro σ hσ
    refine hσ.of_eq (fun c _ => hrec c) ?_
    intro c _
    rw [current_of_recovering (by rw [hp']; rfl), current_of_recovering (by rw [hp]; rfl), hrec]

include hm in
/-- `write_head` with an empty list, at the end of `commit` and of `recover_from_log`. -/
theorem does_clear {q : Phase} (hd : OnDisk L m s .erase) (hdirty : s.unwritten = [])
    (w : Wrote s t L.start (headBytes (s.view L.start) s.lh)) (hl : t.lh = s.lh) (hq : t.phase = q)
    (hon : headBlocks (t.disk L.start) = [] → t.lh = [] → OnDisk L m t q) (hrec : q.recovering = false) :
    Does L m s t .stay := by
  obtain ⟨hf, hlh, hcopied⟩ := hd
  have hhead : headBlocks (t.disk L.start) = [] := by
    rw [w.disk, Function.update_self, h.fits.headBlocks_headBytes hm, hlh]
  have hclean := h.clean hdirty
  have hclean' : ∀ c, t.dirty c = false := by
    intro c
    rw [w.dirty]
    by_cases e : c = L.start
    · rw [e, Function.update_self]
    · rw [Function.update_of_ne e, hclean c]
  have hsame : ∀ c, L.Home c → recovered L t.disk c = recovered L s.disk c := by
    intro c hc
    obtain ⟨h1, h2⟩ := recovered_erase hsize hf hcopied w hhead hc
    rw [h1, h2]
  refine ⟨⟨w.sync h, ?_, hl ▸ h.fits, ?_⟩, ?_⟩
  · intro c hc
    rw [hclean' c] at hc
    cases hc
  · rw [hq]
    exact hon hhead (hl.trans hlh)
  · intro σ hσ
    refine hσ.of_eq hsame ?_
    intro c hc
    have hcur : s.current L c = recovered L s.disk c := by
      unfold St.current
      split
      · rfl
      · rw [h.sync c (hclean c), recovered_of_copied hf hcopied fun _ => rfl]
    rw [current_of_view (by rw [hq]; exact hrec), w.sync h c (hclean' c), hcur, ← hsame c hc, recovered_of_empty hhead]

include hm in
theorem does_advance : Does L m s (advance L s) (label s .advance) := by
  have hlabel : s.phase ≠ .writeHead → label s .advance = .stay := fun hne => if_neg hne
  cases hp : s.phase with
  | opened =>
    rw [hlabel (by simp [hp])]
    simp only [advance, hp]
    exact ⟨h, fun _ hσ => hσ⟩
  | writeLog k =>
    rw [hlabel (by simp [hp])]
    cases hb : s.lh[k]? with
    | some b =>
      simp only [advance, hp, hb]
      exact does_logBlock hsize h hp hb (wrote_logBlock _) rfl rfl
    | none =>
      simp only [advance, hp, hb]
      obtain ⟨hhead, hcopied⟩ := h.onDisk_at hp
      refine does_move h rfl rfl rfl (by rw [hp]; rfl) h.fits ?_ ?_
      · intro c hc
        have hmem := h.dirty c hc
        simpa only [St.unwritten, hp] using hmem
      · exact ⟨hhead, hcopied.of_none hb⟩
  | writeHead =>
    rw [show label s .advance = .commit from if_pos hp]
    simp only [advance, hp]
    exact does_writeHead hsize hm h hp (wrote_writeHead _) rfl rfl
  | install k =>
    rw [hlabel (by simp [hp])]
    cases hb : s.lh[k]? with
    | some b =>
      simp only [advance, hp, hb]
      exact does_installBlock hsize h hp hb (wrote_installBlock _) rfl rfl
    | none =>
      simp only [advance, hp, hb]
      obtain ⟨hhead, hcopied⟩ := h.onDisk_at hp
      have hclean := h.clean (by simp [St.unwritten, hp, List.getElem?_eq_none_iff.mp hb])
      refine does_move h rfl rfl rfl (by rw [hp]; rfl) .nil ?_ ?_
      · intro c hc
        rw [hclean c] at hc
        cases hc
      · show Fits L m (headBlocks (s.disk L.start)) ∧ _ ∧ Copied L s.disk s.disk _ _
        rw [hhead]
        exact ⟨h.fits, rfl, hcopied.congr (fun _ _ _ => rfl) fun c _ => (h.sync c (hclean c)).symm⟩
  | clearHead =>
    rw [hlabel (by simp [hp])]
    simp only [advance, hp]
    have hd : OnDisk L m s .clearHead := h.onDisk_at hp
    apply does_clear hsize hm h hd (by simp [St.unwritten, hp]) (wrote_writeHead _) rfl rfl
    · exact fun h1 h2 => ⟨h1, h2⟩
    · rfl
  | leave =>
    rw [hlabel (by simp [hp])]
    simp only [advance, hp]
    refine does_move h rfl rfl rfl (by rw [hp]; rfl) h.fits ?_ ?_
    · intro c hc
      rw [h.clean (by simp [St.unwritten, hp]) c] at hc
      cases hc
    · exact (h.onDisk_at hp).1
  | readHead =>
    rw [hlabel (by simp [hp])]
    simp only [advance, hp]
    have hf : Fits L m (headBlocks (s.disk L.start)) := h.onDisk_at hp
    rw [h.view_log (start_notHome hsize)]
    refine does_move h rfl ?_ rfl (by rw [hp]; rfl) hf ?_ ?_
    · exact (view_congr rfl rfl).trans (view_bread (b := L.start))
    · intro c hc
      rw [h.clean (by simp [St.unwritten, hp]) c] at hc
      cases hc
    · exact ⟨rfl, fun j _ hj => absurd hj (Nat.not_lt_zero j)⟩
  | replay k =>
    rw [hlabel (by simp [hp])]
    cases hb : s.lh[k]? with
    | some b =>
      simp only [advance, hp, hb]
      exact does_replayBlock hsize h hp hb (wrote_installBlock _) rfl rfl
    | none =>
      simp only [advance, hp, hb]
      obtain ⟨hhead, hcopied⟩ := h.onDisk_at hp
      refine does_move h rfl rfl rfl (by rw [hp]; rfl) .nil ?_ ?_
      · intro c hc
        rw [h.clean (by simp [St.unwritten, hp]) c] at hc
        cases hc
      · show Fits L m (headBlocks (s.disk L.start)) ∧ _ ∧ Copied L s.disk s.disk _ _
        rw [hhead]
        exact ⟨h.fits, rfl, hcopied.of_none hb⟩
  | erase =>
    rw [hlabel (by simp [hp])]
    simp only [advance, hp]
    apply does_clear hsize hm h (h.onDisk_at hp) (by simp [St.unwritten, hp]) (wrote_writeHead _) rfl rfl
    · exact fun h1 _ => h1
    · rfl

end

/-! ## The calls -/

section

variable {L : Layout} {m : Nat} {s t : St} {i : Slot}

@[simp] theorem calls_wake (p : Proc) : p.wake.calls = p.calls := by cases p <;> rfl

@[simp] theorem quota_wake (p : Proc) : p.wake.quota m = p.quota m := by cases p <;> rfl

@[simp] theorem mine_wake (p : Proc) : p.wake.mine = p.mine := by cases p <;> rfl

theorem wake_ne_asleep (p : Proc) : p.wake ≠ .waiting true := by cases p <;> simp [Proc.wake]

theorem eq_checked_of_wake {p : Proc} {mine : Finset Nat} {b : Nat} {data : Block}
    (h : p.wake = .checked mine b data) : p = .checked mine b data := by
  cases p with
  | waiting _ => simp [Proc.wake] at h
  | out => exact h
  | busy _ => exact h
  | checked _ _ _ => exact h

theorem quota_le (p : Proc) : p.quota m ≤ m * p.calls := by
  unfold Proc.quota Proc.calls
  split
  · omega
  · omega

theorem Calls.reserved (h : Calls L m s) : ∑ i, (s.procs i).quota m ≤ m * s.outstanding := by
  rw [h.counts, Finset.mul_sum]
  exact Finset.sum_le_sum fun i _ => quota_le _

theorem Calls.quiet_iff (h : Calls L m s) : s.outstanding = 0 ↔ Quiet s := by
  rw [h.counts, Finset.sum_eq_zero_iff]
  simp [Quiet, Proc.calls]

theorem Calls.opened (h : Calls L m s) (hi : (s.procs i).inCall = true) : s.phase = .opened ∧ 1 ≤ s.outstanding := by
  have hne : s.outstanding ≠ 0 := by
    intro h0
    have := h.quiet_iff.mp h0 i
    rw [hi] at this
    cases this
  refine ⟨?_, by omega⟩
  by_contra hp
  exact hne (h.quiet hp)

theorem Calls.of_quiet (hq : Quiet t) (ho : t.outstanding = 0) (hlen : t.lh.length ≤ maxOpBlocks + 2 * m)
    (hidle : t.phase = .opened → t.lh = []) (hasleep : ∀ i, t.procs i = .waiting true → Full t)
    (halone : t.phase.recovering = true → ∀ i, t.procs i = .out) : Calls L m t := by
  unfold Quiet at hq
  refine ⟨?_, ?_, fun _ => ho, fun hp _ => hidle hp, ?_, ?_, hasleep, halone⟩
  · simp [Proc.quota, hq, hlen]
  · simp [Proc.calls, hq, ho]
  · intro i b hb
    have := hq i
    cases hp : t.procs i <;> simp_all [Proc.mine, Proc.inCall]
  · intro i mine b data hp
    have := hq i
    rw [hp] at this
    cases this

/-- One process moves, within its call or outside. -/
theorem Calls.move (h : Calls L m s) {p : Proc} (hc : p.calls = (s.procs i).calls) (hq : p.quota m = (s.procs i).quota m)
    (hm : p.mine = (s.procs i).mine)
    (hp : ∀ mine b data, p = .checked mine b data → (insert b mine).card ≤ m ∧ L.Home b ∧ b < 2 ^ 32)
    (hw : p = .waiting true → Full s) (ha : s.phase.recovering = true → p = .out) :
    Calls L m { s with procs := Function.update s.procs i p } := by
  have hcalls := Lib.Slots.sum_update Proc.calls s.procs i p
  have hquota := Lib.Slots.sum_update (Proc.quota m) s.procs i p
  refine ⟨?_, ?_, h.quiet, h.idle, ?_, ?_, ?_, ?_⟩
  · have := h.room
    show s.lh.length + ∑ j, (Function.update s.procs i p j).quota m ≤ _
    omega
  · have := h.counts
    show s.outstanding = ∑ j, (Function.update s.procs i p j).calls
    omega
  · intro j b hb
    apply h.mine j b
    by_cases e : j = i
    · subst e
      rwa [← hm, ← Function.update_self j p s.procs]
    · rwa [← Function.update_of_ne e p s.procs]
  · intro j mine b data hj
    by_cases e : j = i
    · subst e
      exact hp mine b data ((Function.update_self j p s.procs).symm.trans hj)
    · exact h.checked j mine b data ((Function.update_of_ne e p s.procs).symm.trans hj)
  · intro j hj
    by_cases e : j = i
    · subst e
      exact hw ((Function.update_self j p s.procs).symm.trans hj)
    · exact h.asleep j ((Function.update_of_ne e p s.procs).symm.trans hj)
  · intro hr j
    by_cases e : j = i
    · subst e
      exact (Function.update_self j p s.procs).trans (ha hr)
    · exact (Function.update_of_ne e p s.procs).trans (h.alone hr j)

theorem calls_begin (hm : m ≤ maxOpBlocks) (h : Calls L m s) (hlegal : Legal L m s (.begin i)) :
    Calls L m (beginOp s i) := by
  obtain ⟨hi, hr⟩ := hlegal
  have hcalls : (s.procs i).calls = 0 := by rcases hi with hi | hi <;> rw [hi] <;> rfl
  have hquota : (s.procs i).quota m = 0 := by rcases hi with hi | hi <;> rw [hi] <;> rfl
  have hmine : (s.procs i).mine = ∅ := by rcases hi with hi | hi <;> rw [hi] <;> rfl
  unfold beginOp
  split
  · rename_i hfull
    apply h.move
    · rw [hcalls]; rfl
    · rw [hquota]; rfl
    · rw [hmine]; rfl
    · intro mine b data hp
      cases hp
    · exact fun _ => hfull
    · intro hr'
      rw [hr] at hr'
      cases hr'
  · rename_i hfull
    rw [Full, not_or, not_not] at hfull
    obtain ⟨hp, hspace⟩ := hfull
    have hsum := Lib.Slots.sum_update Proc.calls s.procs i (.busy ∅)
    have hsum' := Lib.Slots.sum_update (Proc.quota m) s.procs i (.busy ∅)
    rw [hcalls, show Proc.calls (.busy ∅) = 1 from rfl] at hsum
    rw [hquota, show Proc.quota m (.busy ∅) = m from rfl] at hsum'
    have hroom : s.lh.length + ∑ j, (s.procs j).quota m + m ≤ maxOpBlocks + 2 * m := by
      have hreserved := h.reserved
      simp only [logSize, maxOpBlocks] at hspace hm ⊢
      have hthree : s.outstanding = 0 ∨ s.outstanding = 1 ∨ s.outstanding = 2 := by omega
      rcases hthree with h0 | h1 | h2
      · rw [h.idle hp h0] at hspace ⊢
        simp only [h0] at hreserved
        simp only [List.length_nil]
        omega
      · rw [h1] at hspace hreserved
        omega
      · rw [h2] at hspace hreserved
        omega
    refine ⟨?_, ?_, ?_, ?_, ?_, ?_, ?_, ?_⟩
    · show s.lh.length + ∑ j, (Function.update s.procs i (.busy ∅) j).quota m ≤ _
      omega
    · have := h.counts
      show s.outstanding + 1 = ∑ j, (Function.update s.procs i (.busy ∅) j).calls
      omega
    · exact fun hne => absurd hp hne
    · exact fun _ h0 => absurd h0 (Nat.succ_ne_zero _)
    · intro j b hb
      by_cases e : j = i
      · subst e
        simp [Proc.mine] at hb
      · apply h.mine j b
        rwa [← Function.update_of_ne e (.busy ∅) s.procs]
    · intro j mine b data hj
      by_cases e : j = i
      · subst e
        simp at hj
      · exact h.checked j mine b data ((Function.update_of_ne e _ s.procs).symm.trans hj)
    · intro j hj
      by_cases e : j = i
      · subst e
        simp at hj
      · have hfull := h.asleep j ((Function.update_of_ne e _ s.procs).symm.trans hj)
        rcases hfull with hne | hgt
        · exact absurd hp hne
        · exact absurd hgt hspace
    · intro hr'
      rw [show s.phase.recovering = true from hr'] at hr
      cases hr

theorem calls_rouse (h : Calls L m s) : Calls L m { s with procs := Function.update s.procs i (s.procs i).wake } := by
  apply h.move
  · exact calls_wake _
  · exact quota_wake _
  · exact mine_wake _
  · exact fun mine b data hp => h.checked i mine b data (eq_checked_of_wake hp)
  · exact fun hp => absurd hp (wake_ne_asleep _)
  · intro hr
    rw [h.alone hr i]
    rfl

theorem calls_check {b : Nat} {data : Block} (h : Calls L m s) (hlegal : Legal L m s (.check i b data))
    (ht : logCheck L s i b data = some t) : Calls L m t ∧ SameBlocks s t := by
  obtain ⟨mine, hi, hcard, hhome, hlt⟩ := hlegal
  unfold logCheck at ht
  split at ht
  · cases ht
  · split at ht
    · cases ht
    · rw [hi] at ht
      cases ht
      refine ⟨?_, sameBlocks_procs _ _⟩
      apply h.move
      · rw [hi]; rfl
      · rw [hi]; rfl
      · rw [hi]; rfl
      · intro mine' b' data' hp
        cases hp
        exact ⟨hcard, hhome, hlt⟩
      · intro hp
        cases hp
      · intro hr
        have := h.alone hr i
        rw [hi] at this
        cases this

theorem calls_append (h : Calls L m s) (hlegal : Legal L m s (.append i)) : Calls L m (logAppend s i) := by
  obtain ⟨mine, b, data, hi⟩ := hlegal
  obtain ⟨hcard, -, -⟩ := h.checked i mine b data hi
  obtain ⟨hp, hout⟩ := h.opened (i := i) (by rw [hi]; rfl)
  have hmine : ∀ c ∈ mine, c ∈ s.lh := by
    intro c hc
    apply h.mine i c
    rwa [hi]
  have hsum := Lib.Slots.sum_update Proc.calls s.procs i (.busy (insert b mine))
  have hsum' := Lib.Slots.sum_update (Proc.quota m) s.procs i (.busy (insert b mine))
  rw [hi] at hsum hsum'
  rw [show Proc.calls (.checked mine b data) = 1 from rfl, show Proc.calls (.busy (insert b mine)) = 1 from rfl] at hsum
  rw [show Proc.quota m (.checked mine b data) = m - mine.card from rfl,
    show Proc.quota m (.busy (insert b mine)) = m - (insert b mine).card from rfl] at hsum'
  unfold logAppend
  simp only [hi]
  -- a block that is new to the log is new to the call, so the log grows as the call's quota shrinks
  have hgrow : (if b ∈ s.lh then s.lh else s.lh ++ [b]).length + (m - (insert b mine).card) ≤
      s.lh.length + (m - mine.card) := by
    split
    · have := Finset.card_le_card (Finset.subset_insert b mine)
      omega
    · rename_i hb
      rw [Finset.card_insert_of_notMem fun hbm => hb (hmine b hbm)] at hcard ⊢
      rw [List.length_append, List.length_singleton]
      omega
  have hsub : ∀ c ∈ s.lh, c ∈ if b ∈ s.lh then s.lh else s.lh ++ [b] := by
    intro c hc
    split
    · exact hc
    · exact List.mem_append_left _ hc
  have hself : b ∈ if b ∈ s.lh then s.lh else s.lh ++ [b] := by
    split
    · assumption
    · simp
  refine ⟨?_, ?_, ?_, ?_, ?_, ?_, ?_, ?_⟩
  · have := h.room
    show _ + ∑ j, (Function.update s.procs i (.busy (insert b mine)) j).quota m ≤ _
    dsimp only
    omega
  · have := h.counts
    show s.outstanding = ∑ j, (Function.update s.procs i (.busy (insert b mine)) j).calls
    omega
  · exact h.quiet
  · intro _ h0
    rw [show s.outstanding = 0 from h0] at hout
    omega
  · intro j c hc
    by_cases e : j = i
    · subst e
      simp only [Function.update_self, Proc.mine, Finset.mem_insert] at hc
      rcases hc with rfl | hc
      · exact hself
      · exact hsub c (hmine c hc)
    · simp only [Function.update_of_ne e] at hc
      exact hsub c (h.mine j c hc)
  · intro j mine' b' data' hj
    by_cases e : j = i
    · subst e
      simp at hj
    · exact h.checked j mine' b' data' ((Function.update_of_ne e _ s.procs).symm.trans hj)
  · intro j hj
    by_cases e : j = i
    · subst e
      simp at hj
    · have hlen : s.lh.length ≤ (if b ∈ s.lh then s.lh else s.lh ++ [b]).length := by
        split <;> simp
      rcases h.asleep j ((Function.update_of_ne e _ s.procs).symm.trans hj) with hne | hgt
      · exact .inl hne
      · refine .inr ?_
        dsimp only
        omega
  · intro hr
    have := h.alone hr i
    rw [hi] at this
    cases this

theorem blocks_append (h : Inv L m s) (hlegal : Legal L m s (.append i)) :
    Does L m s (logAppend s i) (label s (.append i)) := by
  have hcalls := calls_append h.calls hlegal
  obtain ⟨mine, b, data, hi⟩ := hlegal
  obtain ⟨-, hhome, hlt⟩ := h.calls.checked i mine b data hi
  obtain ⟨hp, -⟩ := h.calls.opened (i := i) (by rw [hi]; rfl)
  have hshort : (logAppend s i).lh.length ≤ maxOpBlocks + 2 * m := by
    have := hcalls.room
    omega
  have hview : (logAppend s i).view = Function.update s.view b data := by
    funext c
    unfold logAppend St.view
    rw [hi]
    by_cases e : c = b
    · subst e
      simp
    · simp [Function.update_of_ne e]
  have hdisk : (logAppend s i).disk = s.disk := by simp only [logAppend, hi]
  have hphase : (logAppend s i).phase = .opened := by simp only [logAppend, hi, hp]
  have hdirty : (logAppend s i).dirty = Function.update s.dirty b true := by simp only [logAppend, hi]
  have hlh : (logAppend s i).lh = if b ∈ s.lh then s.lh else s.lh ++ [b] := by simp only [logAppend, hi]
  refine ⟨⟨?_, ?_, ⟨?_, ?_, hshort⟩, ?_⟩, ?_⟩
  · intro c hc
    rw [hdirty] at hc
    by_cases e : c = b
    · rw [e, Function.update_self] at hc
      cases hc
    · rw [Function.update_of_ne e] at hc
      rw [hview, hdisk, Function.update_of_ne e]
      exact h.blocks.sync c hc
  · intro c hc
    have hlist : ∀ c ∈ s.lh, c ∈ (logAppend s i).lh := by
      intro c hc
      rw [hlh]
      split
      · exact hc
      · exact List.mem_append_left _ hc
    simp only [St.unwritten, hphase]
    rw [hdirty] at hc
    by_cases e : c = b
    · rw [e, hlh]
      split
      · assumption
      · simp
    · rw [Function.update_of_ne e] at hc
      have hmem := h.blocks.dirty c hc
      simp only [St.unwritten, hp] at hmem
      exact hlist c hmem
  · rw [hlh]
    split
    · exact h.blocks.fits.nodup
    · rename_i hb
      exact List.Nodup.append h.blocks.fits.nodup (List.nodup_singleton b) (by simpa using hb)
  · intro c hc
    rw [hlh] at hc
    split at hc
    · exact h.blocks.fits.home c hc
    · rcases List.mem_append.mp hc with hc | hc
      · exact h.blocks.fits.home c hc
      · rw [List.mem_singleton.mp hc]
        exact ⟨hhome, hlt⟩
  · rw [hphase]
    show headBlocks ((logAppend s i).disk L.start) = []
    rw [hdisk]
    exact h.blocks.onDisk_at hp
  · intro σ hσ c hc
    rw [show label s (.append i) = .write b data by simp only [label, hi], hdisk,
      current_of_view (by rw [hphase]; rfl), hview]
    refine ⟨(hσ c hc).1, ?_⟩
    show _ = Function.update σ.current b data c
    by_cases e : c = b
    · rw [e, Function.update_self, Function.update_self]
    · rw [Function.update_of_ne e, Function.update_of_ne e, ← (hσ c hc).2, current_of_view (by rw [hp]; rfl)]

/-- The last call to end starts the commit, with no process in a call. -/
theorem inv_finish (h : Inv L m s) (hlegal : Legal L m s (.finish i)) (ht : endOp s i = some t) :
    Calls L m t ∧ Does L m s t .stay := by
  obtain ⟨mine, hi⟩ := hlegal
  obtain ⟨hp, hout⟩ := h.calls.opened (i := i) (by rw [hi]; rfl)
  have hsum := Lib.Slots.sum_update Proc.calls s.procs i .out
  have hsum' := Lib.Slots.sum_update (Proc.quota m) s.procs i .out
  rw [hi, show Proc.calls (.busy mine) = 1 from rfl, show Proc.calls .out = 0 from rfl] at hsum
  rw [hi, show Proc.quota m .out = 0 from rfl] at hsum'
  have hcounts : s.outstanding - 1 = ∑ j, (Function.update s.procs i .out j).calls := by
    have := h.calls.counts
    omega
  have hroom : s.lh.length + ∑ j, (Function.update s.procs i .out j).quota m ≤ maxOpBlocks + 2 * m := by
    have := h.calls.room
    omega
  have hdirty : ∀ c, s.dirty c = true → c ∈ s.lh := by
    intro c hc
    have hmem := h.blocks.dirty c hc
    simpa only [St.unwritten, hp] using hmem
  have hhead : headBlocks (s.disk L.start) = [] := h.blocks.onDisk_at hp
  unfold endOp at ht
  dsimp only at ht
  rw [if_neg (not_not_intro hp)] at ht
  split at ht
  · rename_i h0
    cases ht
    have hquiet : ∀ j, (Function.update s.procs i .out j).inCall = false := by
      rw [h0] at hcounts
      have hzero := Finset.sum_eq_zero_iff.mp hcounts.symm
      intro j
      have := hzero j (Finset.mem_univ j)
      simpa [Proc.calls] using this
    have hcalls : ∀ p : Phase, p ≠ .opened → p.recovering = false →
        Calls L m { s with outstanding := s.outstanding - 1, procs := Function.update s.procs i .out, phase := p } := by
      intro p hne hr
      refine Calls.of_quiet hquiet h0 h.blocks.fits.short (fun e => absurd e hne) (fun _ _ => .inl hne) ?_
      intro hr'
      rw [show p.recovering = true from hr'] at hr
      cases hr
    by_cases hlen : s.lh.length > 0
    · simp only [hlen, if_true]
      refine ⟨hcalls _ (by simp) rfl, does_move h.blocks rfl rfl rfl (by rw [hp]; rfl) h.blocks.fits hdirty ?_⟩
      exact ⟨hhead, fun j _ hj => absurd hj (Nat.not_lt_zero j)⟩
    · have hnil : s.lh = [] := List.length_eq_zero_iff.mp (by omega)
      simp only [hlen, if_false]
      refine ⟨hcalls _ (by simp) rfl, does_move h.blocks rfl rfl rfl (by rw [hp]; rfl) h.blocks.fits ?_ ⟨hhead, hnil⟩⟩
      intro c hc
      have := hdirty c hc
      rw [hnil] at this
      cases this
  · rename_i h0
    cases ht
    have e : SameBlocks s (wakeup { s with outstanding := s.outstanding - 1, procs := Function.update s.procs i .out }) :=
      ⟨rfl, view_congr rfl rfl, rfl, rfl, rfl⟩
    refine ⟨⟨?_, ?_, ?_, ?_, ?_, ?_, ?_, ?_⟩, ⟨h.blocks.same e, fun σ hσ => hσ.same e⟩⟩
    · simp only [wakeup, quota_wake]
      exact hroom
    · simp only [wakeup, calls_wake]
      exact hcounts
    · exact fun hne => absurd hp hne
    · exact fun _ hz => absurd hz h0
    · intro j c hc
      simp only [wakeup, mine_wake] at hc
      by_cases e : j = i
      · subst e
        simp [Proc.mine] at hc
      · rw [Function.update_of_ne e] at hc
        exact h.calls.mine j c hc
    · intro j mine' b data hj
      have hj := eq_checked_of_wake hj
      by_cases e : j = i
      · subst e
        simp at hj
      · exact h.calls.checked j mine' b data ((Function.update_of_ne e _ s.procs).symm.trans hj)
    · exact fun j hj => absurd hj (wake_ne_asleep _)
    · intro hr
      have := h.calls.alone hr i
      rw [hi] at this
      cases this

end

/-! ## All steps -/

section

variable {L : Layout} {m : Nat} {s t : St} {i : Slot} {disk : Nat → Block}

theorem advance_outstanding : (advance L s).outstanding = s.outstanding := by
  unfold advance
  split
  all_goals first | rfl | (split <;> rfl)

theorem advance_procs (hp : s.phase ≠ .leave) : (advance L s).procs = s.procs := by
  unfold advance
  split
  all_goals first | rfl | (split <;> rfl) | exact absurd ‹_› hp

theorem advance_recovering (hr : (advance L s).phase.recovering = true) : s.phase.recovering = true := by
  unfold advance at hr
  split at hr
  all_goals first | (simp_all [Phase.recovering, wakeup]; done) | (split at hr <;> simp_all [Phase.recovering])

/-- Only the end of `end_op` and of `recover_from_log` let calls in. -/
theorem advance_opened (hp : (advance L s).phase = .opened) :
    s.phase = .opened ∨ ((s.phase = .leave ∨ s.phase = .erase) ∧ (advance L s).lh = s.lh) := by
  unfold advance at hp ⊢
  split at hp
  all_goals first | (simp_all [wakeup, writeHead, bwrite, bread]; done) | (split at hp <;> simp_all)

theorem calls_advance (h : Inv L m s) (hb : Blocks L m (advance L s)) : Calls L m (advance L s) := by
  by_cases hp : s.phase = .opened
  · rw [show advance L s = s by simp only [advance, hp]]
    exact h.calls
  have h0 := h.calls.quiet hp
  have hquiet := h.calls.quiet_iff.mp h0
  have hleave : s.phase = .leave → ∀ j, (advance L s).procs j = (s.procs j).wake := by
    intro hl j
    simp only [advance, hl]
    rfl
  refine Calls.of_quiet ?_ (advance_outstanding.trans h0) hb.fits.short ?_ ?_ ?_
  · intro j
    by_cases hl : s.phase = .leave
    · rw [hleave hl j]
      have := hquiet j
      cases hj : s.procs j <;> simp_all [Proc.inCall, Proc.wake]
    · rw [advance_procs hl]
      exact hquiet j
  · intro ht
    rcases advance_opened ht with hp' | ⟨hl | he, hlh⟩
    · exact absurd hp' hp
    · rw [hlh]
      exact (h.blocks.onDisk_at hl).2
    · rw [hlh]
      exact (h.blocks.onDisk_at he).2.1
  · intro j hj
    refine .inl fun ht => ?_
    rcases advance_opened ht with hp' | ⟨hl | he, -⟩
    · exact hp hp'
    · rw [hleave hl j] at hj
      exact wake_ne_asleep _ hj
    · rw [advance_procs (by simp [he]), h.calls.alone (by rw [he]; rfl)] at hj
      cases hj
  · intro hr j
    have hr := advance_recovering hr
    rw [advance_procs (by intro hl; rw [hl] at hr; cases hr)]
    exact h.calls.alone hr j

theorem inv_boot (hf : Fits L m (headBlocks (disk L.start))) : Inv L m (boot disk) := by
  refine ⟨⟨fun b _ => rfl, ?_, .nil, hf⟩, ?_⟩
  · intro b hb
    cases hb
  · refine Calls.of_quiet (fun _ => rfl) rfl (Nat.zero_le _) ?_ ?_ (fun _ _ => rfl)
    · intro hp
      cases hp
    · intro i hi
      cases hi

theorem shows_boot (h0 : headBlocks (disk L.start) = []) : Shows L (boot disk) ⟨disk, disk⟩ := by
  intro b _
  rw [current_of_recovering (s := boot disk) rfl, show (boot disk).disk = disk from rfl, recovered_of_empty h0]
  exact ⟨rfl, rfl⟩

theorem inv_step (hsize : maxOpBlocks + 2 * m < L.size) (hm : m ≤ maxOpBlocks) (h : Inv L m s) {e : Ev}
    (hlegal : Legal L m s e) (ht : step L s e = some t) :
    Inv L m t ∧ ∀ σ, Shows L s σ → Shows L t (σ.act (label s e)) := by
  have same : ∀ {t : St}, Calls L m t → SameBlocks s t → Inv L m t ∧ ∀ σ, Shows L s σ → Shows L t σ :=
    fun hc e => ⟨⟨h.blocks.same e, hc⟩, fun σ hσ => hσ.same e⟩
  cases e with
  | begin i =>
    cases ht
    apply same (calls_begin hm h.calls hlegal)
    unfold beginOp
    split
    · exact sameBlocks_procs _ _
    · exact sameBlocks_procs _ _
  | rouse i =>
    cases ht
    exact same (calls_rouse h.calls) (sameBlocks_procs _ _)
  | check i b data =>
    obtain ⟨hc, e⟩ := calls_check h.calls hlegal ht
    exact same hc e
  | append i =>
    cases ht
    have hd := blocks_append h hlegal
    exact ⟨⟨hd.blocks, calls_append h.calls hlegal⟩, hd.shows⟩
  | finish i =>
    obtain ⟨hc, hd⟩ := inv_finish h hlegal ht
    exact ⟨⟨hd.blocks, hc⟩, hd.shows⟩
  | read b =>
    cases ht
    exact same (h.calls.same rfl rfl rfl rfl) sameBlocks_bread
  | reuse b =>
    cases ht
    refine same (h.calls.same ?_ ?_ ?_ ?_) (sameBlocks_reuse h.blocks)
    all_goals
      unfold reuse
      split <;> rfl
  | advance =>
    cases ht
    have hd := does_advance hsize hm h.blocks
    exact ⟨⟨hd.blocks, calls_advance h hd.blocks⟩, hd.shows⟩
  | crash =>
    cases ht
    refine ⟨inv_boot h.blocks.head, fun σ hσ b hb => ?_⟩
    rw [current_of_recovering (s := boot s.disk) rfl]
    exact ⟨(hσ b hb).1, (hσ b hb).1⟩

end

end CS5600.Xv6.Log
