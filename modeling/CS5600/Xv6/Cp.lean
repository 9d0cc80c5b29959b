/-
  CS5600.Xv6.Cp — the `cp` of `Lab11_xv6/deliverables/cp.c`, over the calls of the kernel beside it
  (`sysfile.c`: `sys_open`; `file.c`: `fileread`, `filewrite`; `fs.c`: `readi`, `writei`).

  Files are regular, and the disk has room: `balloc` does not panic. `blocks` are the blocks `bmap`
  leads to, in their order. `Os` is what the system may answer: a call can fail, and a read can give
  less than was asked for (which the kernel does at the end of a file only).

  Proved (`copies_iff`): `cp` copies or prints an error, whatever the system answers, exactly when
  the destination is new or was no longer than the source. `open` with O_CREATE keeps what is
  there, and `writei` never makes a file shorter: a longer destination keeps its tail
  (`tail_kept`).
-/

import CS5600.Lib.Extents
import CS5600.Xv6.Param

namespace CS5600.Xv6

open CS5600.Lib.Extents

/-! ## Inodes -/

structure Inode where
  size : Nat
  blocks : Nat → Nat → UInt8
  fits : size ≤ maxFile * bsize

def Inode.bytes (ip : Inode) : Nat → UInt8 := flat bsize ip.blocks

def Inode.content (ip : Inode) : List UInt8 := slice ip.bytes 0 ip.size

/-- The `min` of the two loops is not 0. -/
theorem chunk_pos {n tot : Nat} (off : Nat) (h : tot < n) : 0 < min (n - tot) (bsize - off % bsize) := by
  have : off % bsize < bsize := Nat.mod_lt _ (by decide)
  omega

def readLoop (ip : Inode) (n tot off : Nat) : List UInt8 :=
  if tot < n then
    let m := min (n - tot) (bsize - off % bsize)
    slice (ip.blocks (off / bsize)) (off % bsize) m ++ readLoop ip n (tot + m) (off + m)
  else []
termination_by n - tot
decreasing_by
  have := chunk_pos off ‹tot < n›
  omega

/-- The numbers are `uint`s; `none` is -1. -/
def readi (ip : Inode) (off n : Nat) : Option (List UInt8) :=
  if off > ip.size ∨ (off + n) % 2 ^ 32 < off then none
  else
    let n := if (off + n) % 2 ^ 32 > ip.size then ip.size - off else n
    some (readLoop ip n 0 off)

def writeLoop (src : List UInt8) (tot off : Nat) (blocks : Nat → Nat → UInt8) : Nat → Nat → UInt8 :=
  if tot < src.length then
    let m := min (src.length - tot) (bsize - off % bsize)
    writeLoop src (tot + m) (off + m)
      (Function.update blocks (off / bsize) (patch (blocks (off / bsize)) (off % bsize) ((src.drop tot).take m)))
  else blocks
termination_by src.length - tot
decreasing_by
  have := chunk_pos off ‹tot < src.length›
  omega

/-- It returns the length of `src`, or -1 (`none`). -/
def writei (ip : Inode) (src : List UInt8) (off : Nat) : Option Inode :=
  let n := src.length
  if off > ip.size ∨ (off + n) % 2 ^ 32 < off then none
  else if h : (off + n) % 2 ^ 32 > maxFile * bsize then none
  else
    let blocks := writeLoop src 0 off ip.blocks
    some (if n > 0 ∧ (off + n) % 2 ^ 32 > ip.size then ⟨(off + n) % 2 ^ 32, blocks, Nat.le_of_not_lt h⟩
      else ⟨ip.size, blocks, ip.fits⟩)

/-! ## Files -/

structure File where
  ip : Inode
  off : Nat
  readable : Bool
  writable : Bool

def fileread (f : File) (n : Nat) : Option (List UInt8 × File) :=
  if f.readable = false then none
  else
    match readi f.ip f.off n with
    | none => none
    | some bytes => some (bytes, { f with off := f.off + bytes.length })

/-- `max` in `filewrite` -/
def maxWrite : Nat := (maxOpBlocks - 1 - 1 - 2) / 2 * 512

/-- The loop of `filewrite`, and its `i`. `writei` writes all or nothing, so there is no short write. -/
def writeFrom (src : List UInt8) (i : Nat) (f : File) : Nat × File :=
  if i < src.length then
    let n1 := min (src.length - i) maxWrite
    match writei f.ip ((src.drop i).take n1) f.off with
    | none => (i, f)
    | some ip => writeFrom src (i + n1) { f with ip := ip, off := f.off + n1 }
  else (i, f)
termination_by src.length - i
decreasing_by
  have : 0 < maxWrite := by decide
  omega

def filewrite (f : File) (src : List UInt8) : Int × File :=
  if f.writable = false then (-1, f)
  else
    let (i, f) := writeFrom src 0 f
    (if i = src.length then src.length else -1, f)

/-- O_RDONLY, O_WRONLY, O_RDWR and O_CREATE -/
def oRdonly : Nat := 0x000
def oWronly : Nat := 0x001
def oRdwr : Nat := 0x002
def oCreate : Nat := 0x200

/-- `create`, for the file that has the name, if any -/
def create (node : Option Inode) : Inode := node.getD ⟨0, fun _ _ => 0, Nat.zero_le _⟩

/-- `ok` is that the path leads somewhere and there are a file and a descriptor left. -/
def sysOpen (ok : Bool) (node : Option Inode) (omode : Nat) : Option File :=
  if ok = false then none
  else do
    let ip ← if omode &&& oCreate ≠ 0 then some (create node) else node
    some ⟨ip, 0, !(omode &&& oWronly ≠ 0), omode &&& oWronly ≠ 0 || omode &&& oRdwr ≠ 0⟩

/-! ## What the kernel does -/

theorem readLoop_eq (ip : Inode) (n tot off : Nat) : readLoop ip n tot off = slice ip.bytes off (n - tot) := by
  fun_induction readLoop ip n tot off with
  | case1 tot off h m ih =>
    have hm : m = min (n - tot) (bsize - off % bsize) := rfl
    have hmod : off % bsize < bsize := Nat.mod_lt _ (by decide)
    rw [ih, slice_flat ip.blocks (by decide) (by omega), show n - tot = m + (n - (tot + m)) by omega, slice_add]
    rfl
  | case2 tot off h => rw [Nat.sub_eq_zero_of_le (by omega), slice_zero]

theorem maxFile_lt : maxFile * bsize + 2 ^ 16 < 2 ^ 32 := by decide

theorem readi_eq (ip : Inode) {off n : Nat} (hoff : off ≤ ip.size) (hn : n ≤ 2 ^ 16) :
    readi ip off n = some (slice ip.bytes off (min n (ip.size - off))) := by
  have hmax := maxFile_lt
  have hfits := ip.fits
  have hmod : (off + n) % 2 ^ 32 = off + n := Nat.mod_eq_of_lt (by omega)
  unfold readi
  rw [hmod, if_neg (by omega)]
  dsimp only
  rw [readLoop_eq]
  congr 2
  split <;> omega

theorem writeLoop_eq (src : List UInt8) (tot off : Nat) (blocks : Nat → Nat → UInt8) :
    flat bsize (writeLoop src tot off blocks) = patch (flat bsize blocks) off (src.drop tot) := by
  fun_induction writeLoop src tot off blocks with
  | case1 tot off blocks h m ih =>
    have hm : m = min (src.length - tot) (bsize - off % bsize) := rfl
    have hmod : off % bsize < bsize := Nat.mod_lt _ (by decide)
    have hlen : ((src.drop tot).take m).length = m := by
      rw [List.length_take, List.length_drop]
      omega
    have hsplit := patch_append (flat bsize blocks) off ((src.drop tot).take m) ((src.drop tot).drop m)
    rw [List.take_append_drop, hlen, List.drop_drop] at hsplit
    rw [ih, patch_flat blocks (by decide) (by omega), hsplit]
  | case2 tot off blocks h => rw [List.drop_eq_nil_of_le (by omega), patch_nil]

theorem writei_eq (ip : Inode) (src : List UInt8) {off : Nat} (hoff : off ≤ ip.size)
    (hfits : off + src.length ≤ maxFile * bsize) :
    ∃ ip', writei ip src off = some ip' ∧ ip'.size = max ip.size (off + src.length) ∧
      ip'.bytes = patch ip.bytes off src := by
  have hmax := maxFile_lt
  have hmod : (off + src.length) % 2 ^ 32 = off + src.length := Nat.mod_eq_of_lt (by omega)
  unfold writei
  simp only [hmod]
  rw [if_neg (by omega), dif_neg (by omega)]
  refine ⟨_, rfl, ?_, ?_⟩
  · split
    · show off + src.length = _
      omega
    · show ip.size = _
      omega
  · have hbytes := writeLoop_eq src 0 off ip.blocks
    split
    · exact hbytes
    · exact hbytes

theorem fileread_eq {f : File} {n : Nat} (hr : f.readable = true) (hoff : f.off ≤ f.ip.size) (hn : n ≤ 2 ^ 16) :
    fileread f n = some (slice f.ip.bytes f.off (min n (f.ip.size - f.off)),
      { f with off := f.off + min n (f.ip.size - f.off) }) := by
  unfold fileread
  rw [hr, if_neg (by decide), readi_eq f.ip hoff hn]
  dsimp only
  rw [length_slice]

/-- `src` is written to a file behind what was written before. -/
structure Written (f f' : File) (src : List UInt8) : Prop where
  off : f'.off = f.off + src.length
  size : f'.ip.size = max f.ip.size (f.off + src.length)
  bytes : f'.ip.bytes = patch f.ip.bytes f.off src
  writable : f'.writable = f.writable

theorem writeFrom_eq (src : List UInt8) (i : Nat) (f : File) (hi : i ≤ src.length) (hoff : f.off ≤ f.ip.size)
    (hfits : f.off + (src.drop i).length ≤ maxFile * bsize) :
    ∃ f', writeFrom src i f = (src.length, f') ∧ Written f f' (src.drop i) := by
  fun_induction writeFrom src i f with
  | case1 i f h n1 hw =>
    obtain ⟨ip, hip, -⟩ := writei_eq f.ip ((src.drop i).take n1) hoff (by simp at hfits ⊢; omega)
    rw [hip] at hw
    cases hw
  | case2 i f h n1 ip hw ih =>
    have hn1 : n1 = min (src.length - i) maxWrite := rfl
    have hlen : ((src.drop i).take n1).length = n1 := by simp; omega
    rw [List.length_drop] at hfits
    obtain ⟨ip', hip, hsize, hbytes⟩ := writei_eq f.ip ((src.drop i).take n1) hoff (by omega)
    rw [hip] at hw
    cases hw
    rw [hlen] at hsize
    obtain ⟨f', hf', hwr⟩ := ih (by omega) (by dsimp only; omega) (by simp; omega)
    have hsplit := patch_append f.ip.bytes f.off ((src.drop i).take n1) ((src.drop i).drop n1)
    rw [List.take_append_drop, hlen, List.drop_drop] at hsplit
    refine ⟨f', hf', ?_, ?_, ?_, hwr.writable⟩
    · rw [hwr.off]
      simp
      omega
    · rw [hwr.size]
      simp [hsize]
      omega
    · rw [hwr.bytes, hsplit, ← hbytes]
  | case3 i f h =>
    have : i = src.length := by omega
    subst this
    refine ⟨f, rfl, ?_, ?_, ?_, rfl⟩
    · simp
    · simp
      omega
    · simp

theorem filewrite_eq {f : File} {src : List UInt8} (hw : f.writable = true) (hoff : f.off ≤ f.ip.size)
    (hfits : f.off + src.length ≤ maxFile * bsize) :
    ∃ f', filewrite f src = ((src.length : Int), f') ∧ Written f f' src := by
  obtain ⟨f', hf', hwritten⟩ := writeFrom_eq src 0 f (Nat.zero_le _) hoff hfits
  refine ⟨f', ?_, hwritten⟩
  unfold filewrite
  rw [hw, if_neg (by decide), hf']
  simp

/-! ## `cp` -/

structure Os where
  source : Bool
  destination : Bool
  /-- the most each read gives -/
  reads : Nat → Option ℕ+
  writes : Nat → Bool

/-- The `k`-th read. -/
def Os.read (os : Os) (k : Nat) (f : File) (n : Nat) : Option (List UInt8 × File) :=
  match os.reads k with
  | none => none
  | some most => fileread f (min n most)

/-- The `k`-th write. -/
def Os.write (os : Os) (k : Nat) (f : File) (src : List UInt8) : Int × File :=
  if os.writes k then filewrite f src else (-1, f)

/-! ### The error texts -/

def usage : List Char := "Usage: cp <source_file> <dest_file>\n".toList

def noSource (src : List Char) : List Char := "cp: cannot open source ".toList ++ src ++ ['\n']

/-- `%s` gets the descriptor, -1, and `printf` does not get past it. -/
def noDestination : List Char := "cp: cannot open destination ".toList

def errorCopying (src dest : List Char) : List Char :=
  "cp: error copying from ".toList ++ src ++ " to ".toList ++ dest ++ ['\n']

theorem usage_ne : usage ≠ [] := by decide

theorem noSource_ne (src : List Char) : noSource src ≠ [] :=
  List.append_ne_nil_of_right_ne_nil _ (List.cons_ne_nil _ _)

theorem noDestination_ne : noDestination ≠ [] := by decide

theorem errorCopying_ne (src dest : List Char) : errorCopying src dest ≠ [] :=
  List.append_ne_nil_of_right_ne_nil _ (List.cons_ne_nil _ _)

/-! ### The loop -/

theorem Os.read_eq {os : Os} {k n : Nat} {f : File} {most : ℕ+} (hk : os.reads k = some most) (hr : f.readable = true)
    (hoff : f.off ≤ f.ip.size) (hn : n ≤ 2 ^ 16) :
    os.read k f n = some (slice f.ip.bytes f.off (min (min n most) (f.ip.size - f.off)),
      { f with off := f.off + min (min n most) (f.ip.size - f.off) }) := by
  unfold Os.read
  rw [hk]
  exact fileread_eq hr hoff (by omega)

/-- What is left to read gets less. -/
theorem Os.read_progress {os : Os} {k n : Nat} {f f' : File} {buffer : List UInt8} (hn : n ≤ 2 ^ 16)
    (h : os.read k f n = some (buffer, f')) (hpos : buffer.length > 0) : f'.ip.size - f'.off < f.ip.size - f.off := by
  cases hk : os.reads k with
  | none => simp [Os.read, hk] at h
  | some most =>
    cases hr : f.readable with
    | false => simp [Os.read, hk, fileread, hr] at h
    | true =>
      by_cases hoff : f.off ≤ f.ip.size
      · rw [Os.read_eq hk hr hoff hn] at h
        cases h
        rw [length_slice] at hpos
        dsimp only
        omega
      · simp [Os.read, hk, fileread, hr, readi, show f.off > f.ip.size by omega] at h

/-- The loop of `main`, with what is in `r` and `w` behind it. -/
def copyLoop (os : Os) (k : Nat) (source destination : File) (w : Int) : File × Int × Int :=
  match h : os.read k source 512 with
  | none => (destination, -1, w)
  | some (buffer, source') =>
    if buffer.length > 0 then
      let (w, destination) := os.write k destination buffer
      if w ≠ buffer.length ∨ w < 0 then (destination, buffer.length, w)
      else copyLoop os (k + 1) source' destination w
    else (destination, 0, w)
termination_by source.ip.size - source.off
decreasing_by exact Os.read_progress (by decide) h ‹_›

/-- What it prints, and the destination afterwards; `src` and `dest` are the files of the two names. -/
def main (os : Os) (argv : List (List Char)) (src : Inode) (dest : Option Inode) : List Char × Option Inode :=
  match argv with
  | [_, srcName, destName] =>
    match sysOpen os.source (some src) oRdonly with
    | none => (noSource srcName, dest)
    | some source =>
      match sysOpen os.destination dest (oCreate ||| oWronly) with
      | none => (noDestination, dest)
      | some destination =>
        let (destination, r, w) := copyLoop os 0 source destination 0
        (if r < 0 ∨ w < 0 then errorCopying srcName destName else [], some destination.ip)
  | _ => (usage, dest)

/-! ## What `cp` does -/

/-- No call fails. -/
structure Os.Good (os : Os) : Prop where
  source : os.source = true
  destination : os.destination = true
  reads : ∀ k, os.reads k ≠ none
  writes : ∀ k, os.writes k = true

def allWell : Os := ⟨true, true, fun _ => some 512, fun _ => true⟩

theorem allWell_good : allWell.Good := ⟨rfl, rfl, (fun _ => Option.some_ne_none _), fun _ => rfl⟩

/-- The first `n` bytes of `src` are copied over those of `dest`. -/
structure Copied (src dest : Inode) (n : Nat) (f : File) : Prop where
  off : f.off = n
  size : f.ip.size = max dest.size n
  bytes : ∀ i, f.ip.bytes i = if i < n then src.bytes i else dest.bytes i
  writable : f.writable = true

theorem Copied.written {src dest : Inode} {n m : Nat} {f f' : File} (h : Copied src dest n f)
    (hw : Written f f' (slice src.bytes n m)) : Copied src dest (n + m) f' := by
  obtain ⟨hoff, hsize, hbytes, hwritable⟩ := hw
  rw [length_slice, h.off] at hoff hsize
  rw [h.off] at hbytes
  refine ⟨hoff, ?_, ?_, hwritable.trans h.writable⟩
  · rw [hsize, h.size]
    omega
  · intro i
    rw [hbytes, patch_slice, h.bytes]
    by_cases hn : n ≤ i
    · simp only [hn, true_and, if_neg (show ¬ i < n by omega)]
    · simp only [hn, false_and, if_false, if_pos (show i < n by omega), if_pos (show i < n + m by omega)]

theorem Os.write_eq (os : Os) (k : Nat) {f : File} (src : List UInt8) (hw : f.writable = true) (hoff : f.off ≤ f.ip.size)
    (hfits : f.off + src.length ≤ maxFile * bsize) :
    (os.writes k = false ∧ os.write k f src = (-1, f)) ∨
      ∃ f', os.write k f src = ((src.length : Int), f') ∧ Written f f' src := by
  unfold Os.write
  cases hk : os.writes k with
  | false => exact Or.inl ⟨rfl, rfl⟩
  | true => exact Or.inr (filewrite_eq hw hoff hfits)

section Round

variable {os : Os} {k : Nat} {source : File} (destination : File) (w : Int)

theorem copyLoop_failed (hk : os.reads k = none) : copyLoop os k source destination w = (destination, -1, w) := by
  have hread : os.read k source 512 = none := by simp [Os.read, hk]
  rw [copyLoop]
  split
  · rfl
  · rename_i hsome
    rw [hread] at hsome
    cases hsome

/-- What a read gives, and the round with it. -/
theorem copyLoop_read {most : ℕ+} {m : Nat} (hk : os.reads k = some most) (hr : source.readable = true)
    (hoff : source.off ≤ source.ip.size) (hm : m = min (min 512 (most : Nat)) (source.ip.size - source.off)) :
    copyLoop os k source destination w =
      if m > 0 then
        let (w, destination) := os.write k destination (slice source.ip.bytes source.off m)
        if w ≠ m ∨ w < 0 then (destination, (m : Int), w)
        else copyLoop os (k + 1) { source with off := source.off + m } destination w
      else (destination, 0, w) := by
  have hread := Os.read_eq hk hr hoff (n := 512) (by decide)
  rw [← hm] at hread
  rw [copyLoop]
  split
  · rename_i hnone
    rw [hread] at hnone
    cases hnone
  · rename_i hsome
    rw [hread] at hsome
    cases hsome
    rw [length_slice]

end Round

/-- The loop copies the rest of the source, or a call fails and leaves a negative number. -/
theorem copyLoop_copies (os : Os) (k : Nat) (source destination : File) {dest : Inode} (w : Int)
    (hr : source.readable = true) (hoff : source.off ≤ source.ip.size) (hw : 0 ≤ w)
    (h : Copied source.ip dest source.off destination) :
    ∃ f r w', copyLoop os k source destination w = (f, r, w') ∧
      ((0 ≤ r ∧ 0 ≤ w' ∧ Copied source.ip dest source.ip.size f) ∨ ((r < 0 ∨ w' < 0) ∧ ¬ os.Good)) := by
  -- on what is left of the source: a read that gives something leaves less
  induction hn : source.ip.size - source.off using Nat.strongRecOn generalizing k source destination w with
  | ind n ih =>
    subst hn
    cases hk : os.reads k with
    | none =>
      exact ⟨_, _, _, copyLoop_failed destination w hk, Or.inr ⟨Or.inl (by decide), fun hg => hg.reads k hk⟩⟩
    | some most =>
      generalize hm : min (min 512 (most : Nat)) (source.ip.size - source.off) = m
      have hmost := most.pos
      have hfits := source.ip.fits
      have hsize := h.size
      rw [copyLoop_read destination w hk hr hoff hm.symm]
      by_cases hpos : m > 0
      · rw [if_pos hpos]
        have hwrite := os.write_eq k (slice source.ip.bytes source.off m) h.writable (by rw [h.off]; omega)
          (by rw [length_slice, h.off]; omega)
        rcases hwrite with ⟨hbad, hwrite⟩ | ⟨f', hwrite, hwritten⟩
        · rw [hwrite]
          refine ⟨_, _, _, if_pos (Or.inr (by decide)), Or.inr ⟨Or.inr (by decide), fun hg => ?_⟩⟩
          rw [hg.writes k] at hbad
          cases hbad
        · rw [hwrite]
          dsimp only
          rw [length_slice, if_neg (by omega)]
          have hless : source.ip.size - (source.off + m) < source.ip.size - source.off := by omega
          apply ih _ hless (k + 1) { source with off := source.off + m } f' m hr _ _ (h.written hwritten) rfl
          · show source.off + m ≤ source.ip.size
            omega
          · omega
      · rw [if_neg hpos]
        have hend : source.off = source.ip.size := by omega
        refine ⟨_, _, _, rfl, Or.inl ⟨by decide, hw, ?_⟩⟩
        rw [hend] at h
        exact h

/-- The tail of a longer destination stays. -/
theorem Copied.content {src dest : Inode} {f : File} (h : Copied src dest src.size f) :
    f.ip.content = src.content ++ dest.content.drop src.size := by
  have hsrc : slice f.ip.bytes 0 src.size = src.content := by
    refine slice_congr fun i _ hi => ?_
    rw [h.bytes, if_pos (by omega)]
  have hrest : slice f.ip.bytes src.size (dest.size - src.size) = dest.content.drop src.size := by
    rw [Inode.content]
    by_cases hle : src.size ≤ dest.size
    · have hsplit := slice_add dest.bytes 0 src.size (dest.size - src.size)
      rw [Nat.add_sub_of_le hle, Nat.zero_add] at hsplit
      rw [hsplit, List.drop_left' (length_slice ..)]
      refine slice_congr fun i hi _ => ?_
      rw [h.bytes, if_neg (by omega)]
    · rw [Nat.sub_eq_zero_of_le (by omega), slice_zero, List.drop_eq_nil_of_le (by rw [length_slice]; omega)]
  have hsplit := slice_add f.ip.bytes 0 src.size (dest.size - src.size)
  rw [Nat.zero_add, hsrc, hrest] at hsplit
  rw [← hsplit, Inode.content, h.size]
  congr 1
  omega

theorem sysOpen_source (src : Inode) : sysOpen true (some src) oRdonly = some ⟨src, 0, true, false⟩ := rfl

theorem sysOpen_destination (dest : Option Inode) :
    sysOpen true dest (oCreate ||| oWronly) = some ⟨create dest, 0, false, true⟩ := rfl

/-- `main` prints nothing and has copied the source, or prints something because a call failed. -/
theorem main_copies (os : Os) (argv : List (List Char)) (src : Inode) (dest : Option Inode) :
    (∃ f, main os argv src dest = ([], some f.ip) ∧ Copied src (create dest) src.size f) ∨
      ((main os argv src dest).1 ≠ [] ∧ ¬ (argv.length = 3 ∧ os.Good)) := by
  unfold main
  split
  · rename_i srcName destName
    cases hs : os.source with
    | false =>
      refine Or.inr ⟨noSource_ne srcName, fun hg => ?_⟩
      rw [hg.2.source] at hs
      cases hs
    | true =>
      cases hd : os.destination with
      | false =>
        refine Or.inr ⟨noDestination_ne, fun hg => ?_⟩
        rw [hg.2.destination] at hd
        cases hd
      | true =>
        have hstart : Copied src (create dest) 0 ⟨create dest, 0, false, true⟩ :=
          ⟨rfl, (Nat.max_eq_left (Nat.zero_le _)).symm, fun i => (if_neg (Nat.not_lt_zero i)).symm, rfl⟩
        obtain ⟨f, r, w, hloop, h⟩ := copyLoop_copies os 0 ⟨src, 0, true, false⟩ _ 0 rfl (Nat.zero_le _)
          le_rfl hstart
        simp only [sysOpen_source, sysOpen_destination, hloop]
        rcases h with ⟨hr, hw, h⟩ | ⟨hbad, hgood⟩
        · rw [if_neg (by omega)]
          exact Or.inl ⟨f, rfl, h⟩
        · rw [if_pos hbad]
          exact Or.inr ⟨errorCopying_ne srcName destName, fun hg => hgood hg.2⟩
  · rename_i hargs
    refine Or.inr ⟨usage_ne, fun hg => ?_⟩
    obtain ⟨a, b, c, habc⟩ := List.length_eq_three.mp hg.1
    exact hargs a b c habc

/-- `cp` copies or complains exactly when the destination is new or was no longer than the source. -/
theorem copies_iff (src : Inode) (dest : Option Inode) :
    (∀ os argv, (main os argv src dest).1 = [] →
      ∃ ip, (main os argv src dest).2 = some ip ∧ ip.content = src.content) ↔ ∀ ip ∈ dest, ip.size ≤ src.size := by
  have htail : (create dest).content.drop src.size = [] ↔ ∀ ip ∈ dest, ip.size ≤ src.size := by
    rw [List.drop_eq_nil_iff, Inode.content, length_slice]
    cases dest with
    | none => simp [create]
    | some ip => simp [create]
  rw [← htail]
  constructor
  · intro h
    rcases main_copies allWell [[], [], []] src dest with ⟨f, hmain, hcopied⟩ | ⟨-, hbad⟩
    · obtain ⟨ip, hip, hcontent⟩ := h allWell [[], [], []] (by rw [hmain])
      rw [hmain] at hip
      cases hip
      rw [hcopied.content] at hcontent
      exact List.append_right_eq_self.mp hcontent
    · exact absurd ⟨rfl, allWell_good⟩ hbad
  · intro h os argv hnone
    rcases main_copies os argv src dest with ⟨f, hmain, hcopied⟩ | ⟨hne, -⟩
    · rw [hmain]
      exact ⟨f.ip, rfl, by rw [hcopied.content, h, List.append_nil]⟩
    · exact absurd hnone hne

/-- A file of fewer bytes than a block has. -/
def short (bytes : List UInt8) (h : bytes.length ≤ bsize) : Inode :=
  ⟨bytes.length, fun _ i => bytes.getD i 0, h.trans (by decide)⟩

/-- A file with `a` copied over one with `bcd`. -/
theorem tail_kept : let src := short [97] (by decide)
    let dest := short [98, 99, 100] (by decide)
    src.content = [97] ∧ dest.content = [98, 99, 100] ∧
      ∃ ip, main allWell [['c', 'p'], ['x'], ['y']] src (some dest) = ([], some ip) ∧ ip.content = [97, 99, 100] := by
  refine ⟨by decide, by decide, ?_⟩
  rcases main_copies allWell [['c', 'p'], ['x'], ['y']] (short [97] (by decide))
    (some (short [98, 99, 100] (by decide))) with ⟨f, hmain, hcopied⟩ | ⟨-, hbad⟩
  · exact ⟨f.ip, hmain, hcopied.content.trans (by decide)⟩
  · exact absurd ⟨rfl, allWell_good⟩ hbad

end CS5600.Xv6
