/-
  CS5600.Xv6.Fs — the blocks and inodes of the file system (`Lab11_xv6/deliverables/fs.c`, `fs.h`).

  The disk is a superblock (block 1), the log, blocks of eight inodes each, a bitmap with one bit for each block,
  and the blocks behind them. An inode lists twelve blocks of its file; the next 128 are listed in a block of
  their own, whose number is the thirteenth. `balloc` and `bfree` keep the bitmap, `bmap` finds a block of a file
  and allocates it if there is none, `itrunc` frees the blocks of a file, `iupdate` writes an inode back.

  In memory `icache` has NINODE inodes. `iget` gives out pointers to them and counts these, `ilock` reads an inode from
  the disk, and `iput` of the last reference to a file without links frees it.

  Calls are made one at a time: the caller of each holds the lock of its inode, and is in a transaction where it
  writes. `disk` is what `bread` gives, and `logged` are the blocks that `log_write` was called for. A log or a buffer
  cache that is too small for a transaction is not part of this model. Numbers are `uint`s unless a type says
  otherwise; a `short` is its 16 bits.
-/

import CS5600.Lib.Packed
import CS5600.Xv6.Cp

namespace CS5600.Xv6.Fs

open CS5600.Lib.Bytes CS5600.Lib.Extents CS5600.Lib.Packed

/-- IPB -/
def ipb : Nat := bsize / 64

/-- BPB -/
def bpb : Nat := bsize * 8

/-- NDEV -/
def ndev : Nat := 10

/-- T_DEV -/
def tDev : UInt16 := 3

structure Superblock where
  size : Nat
  nblocks : Nat
  ninodes : Nat
  nlog : Nat
  logstart : Nat
  inodestart : Nat
  bmapstart : Nat
  deriving DecidableEq

/-- `struct dinode`, and what `struct inode` has a copy of. -/
structure Dinode where
  type : UInt16
  major : UInt16
  minor : UInt16
  nlink : UInt16
  size : Nat
  addrs : Fin (ndirect + 1) → Nat

/-- `ip->addrs[k] = addr` -/
def Dinode.setAddr (ip : Dinode) (k : Fin (ndirect + 1)) (addr : Nat) : Dinode :=
  { ip with addrs := Function.update ip.addrs k addr }

inductive Panic where
  /-- "balloc: out of blocks" -/
  | outOfBlocks
  /-- "freeing free block" -/
  | freeingFree
  /-- "ialloc: no inodes" -/
  | noInodes
  /-- "iget: no inodes" -/
  | noEntries
  /-- "ilock" -/
  | ilock
  /-- "ilock: no type" -/
  | noType
  /-- "iunlock" -/
  | iunlock
  /-- "bmap: out of range" -/
  | outOfRange
  deriving DecidableEq

structure St where
  sb : Superblock
  disk : Nat → Mem
  logged : List Nat

/-- `log_write` of the buffer of block `b`, which has `data` in it. It panics where a transaction is too big for the log,
which `CS5600.Xv6.Log` is about. -/
def logWrite (s : St) (b : Nat) (data : Mem) : St :=
  { s with disk := Function.update s.disk b data, logged := b :: s.logged }

def readsb (disk : Nat → Mem) : Superblock :=
  let data := disk 1
  ⟨load data 4 0, load data 4 4, load data 4 8, load data 4 12, load data 4 16, load data 4 20, load data 4 24⟩

/-! ## Blocks -/

/-- BBLOCK -/
def bblock (sb : Superblock) (b : Nat) : Nat := b / bpb + sb.bmapstart

def bzero (s : St) (bno : Nat) : St := logWrite s bno fun _ => 0

/-- The inner loop of `balloc`, over the bits of the block with the bit of `b`. -/
def freeBit (s : St) (b : Nat) : Option Nat :=
  (List.range (min bpb (s.sb.size - b))).find? fun bi => !bit (s.disk (bblock s.sb b)) bi

/-- The outer loop of `balloc`. -/
def freeBlock (s : St) : Option Nat :=
  (List.range ((s.sb.size + bpb - 1) / bpb)).findSome? fun i => (freeBit s (i * bpb)).map (i * bpb + ·)

/-- Mark block in use. -/
def mark (s : St) (b : Nat) : St :=
  logWrite s (bblock s.sb b) (setBit (s.disk (bblock s.sb b)) (b % bpb))

def balloc (s : St) : Except Panic (Nat × St) :=
  match freeBlock s with
  | some b => .ok (b, bzero (mark s b) b)
  | none => .error .outOfBlocks

/-- It reads the superblock again. -/
def bfree (s : St) (b : Nat) : Except Panic St :=
  let s := { s with sb := readsb s.disk }
  let data := s.disk (bblock s.sb b)
  if bit data (b % bpb) = false then .error .freeingFree
  else .ok (logWrite s (bblock s.sb b) (clearBit data (b % bpb)))

/-! ## Inodes -/

/-- IBLOCK -/
def iblock (sb : Superblock) (i : Nat) : Nat := i / ipb + sb.inodestart

/-- The inode at byte `o` of a block. -/
def dinodeAt (data : Mem) (o : Nat) : Dinode :=
  ⟨UInt16.ofNat (load data 2 o), UInt16.ofNat (load data 2 (o + 2)), UInt16.ofNat (load data 2 (o + 4)),
    UInt16.ofNat (load data 2 (o + 6)), load data 4 (o + 8), fun k => load data 4 (o + 12 + 4 * k)⟩

def putDinode (data : Mem) (o : Nat) (ip : Dinode) : Mem :=
  let data := store data 2 o ip.type.toNat
  let data := store data 2 (o + 2) ip.major.toNat
  let data := store data 2 (o + 4) ip.minor.toNat
  let data := store data 2 (o + 6) ip.nlink.toNat
  let data := store data 4 (o + 8) ip.size
  storeWords data 4 (o + 12) (ndirect + 1) fun k => if h : k < ndirect + 1 then ip.addrs ⟨k, h⟩ else 0

def dinode (s : St) (inum : Nat) : Dinode := dinodeAt (s.disk (iblock s.sb inum)) (inum % ipb * 64)

def iupdate (s : St) (inum : Nat) (ip : Dinode) : St :=
  logWrite s (iblock s.sb inum) (putDinode (s.disk (iblock s.sb inum)) (inum % ipb * 64) ip)

/-- `memset(dip, 0, sizeof(*dip))` -/
def clearDinode (data : Mem) (o : Nat) : Mem := fun x => if o ≤ x ∧ x < o + 64 then 0 else data x

/-! ## The content of an inode -/

/-- `if((addr = ip->addrs[k]) == 0) ip->addrs[k] = addr = balloc(ip->dev);` -/
def addrAt (s : St) (ip : Dinode) (k : Fin (ndirect + 1)) : Except Panic (Nat × Dinode × St) :=
  if ip.addrs k = 0 then do
    let (addr, s) ← balloc s
    .ok (addr, ip.setAddr k addr, s)
  else .ok (ip.addrs k, ip, s)

def bmap (s : St) (ip : Dinode) (bn : Nat) : Except Panic (Nat × Dinode × St) :=
  if h : bn < ndirect then addrAt s ip ⟨bn, Nat.lt_succ_of_lt h⟩
  else if bn - ndirect < nindirect then do
    let (addr, ip, s) ← addrAt s ip (Fin.last ndirect)
    let a := s.disk addr
    if load a 4 (4 * (bn - ndirect)) = 0 then do
      let (b, s) ← balloc s
      .ok (b, ip, logWrite s addr (store a 4 (4 * (bn - ndirect)) b))
    else .ok (load a 4 (4 * (bn - ndirect)), ip, s)
  else .error .outOfRange

/-- The first loop of `itrunc`, over the indices `is`. -/
def freeDirect : List (Fin ndirect) → St → Dinode → Except Panic (Dinode × St)
  | [], s, ip => .ok (ip, s)
  | i :: is, s, ip =>
    if ip.addrs i.castSucc = 0 then freeDirect is s ip
    else do
      let s ← bfree s (ip.addrs i.castSucc)
      freeDirect is s (ip.setAddr i.castSucc 0)

/-- The second loop of `itrunc`. -/
def freeIndirect (a : Mem) : List Nat → St → Except Panic St
  | [], s => .ok s
  | j :: js, s =>
    if load a 4 (4 * j) = 0 then freeIndirect a js s
    else do
      let s ← bfree s (load a 4 (4 * j))
      freeIndirect a js s

def itrunc (s : St) (inum : Nat) (ip : Dinode) : Except Panic (Dinode × St) := do
  let (ip, s) ← freeDirect (List.finRange ndirect) s ip
  let (ip, s) ← (if ip.addrs (Fin.last ndirect) = 0 then .ok (ip, s)
    else do
      let s ← freeIndirect (s.disk (ip.addrs (Fin.last ndirect))) (List.range nindirect) s
      let s ← bfree s (ip.addrs (Fin.last ndirect))
      .ok (ip.setAddr (Fin.last ndirect) 0, s))
  let ip := { ip with size := 0 }
  .ok (ip, iupdate s inum ip)

/-- What a call returns. -/
inductive Answer where
  | done
  /-- there was no call -/
  | none
  | inum (i : Nat)
  | bytes (bytes : List UInt8)
  | wrote (n : Nat)
  /-- -1 -/
  | failed
  /-- what the driver returns -/
  | device (major : UInt16)
  deriving DecidableEq

/-- `devsw[major]` has functions: the console's, whose number is 1. -/
def devsw (major : UInt16) : Bool := major == 1

/-- The first lines of `readi` and `writei`. A number of 2 ^ 15 or more is negative. -/
def devAnswer (major : UInt16) : Answer :=
  if 2 ^ 15 ≤ major.toNat ∨ ndev ≤ major.toNat ∨ devsw major = false then .failed else .device major

def readLoop (s : St) (ip : Dinode) (n tot off : Nat) : Except Panic (List UInt8 × Dinode × St) :=
  if tot < n then do
    let (addr, ip, s) ← bmap s ip (off / bsize)
    let m := min (n - tot) (bsize - off % bsize)
    let bytes := slice (s.disk addr) (off % bsize) m
    let (rest, ip, s) ← readLoop s ip n (tot + m) (off + m)
    .ok (bytes ++ rest, ip, s)
  else .ok ([], ip, s)
termination_by n - tot
decreasing_by
  have := chunk_pos off ‹tot < n›
  omega

def readi (s : St) (ip : Dinode) (off n : Nat) : Except Panic (Answer × Dinode × St) :=
  if ip.type = tDev then .ok (devAnswer ip.major, ip, s)
  else if off > ip.size ∨ (off + n) % 2 ^ 32 < off then .ok (.failed, ip, s)
  else do
    let n := if (off + n) % 2 ^ 32 > ip.size then ip.size - off else n
    let (bytes, ip, s) ← readLoop s ip n 0 off
    .ok (.bytes bytes, ip, s)

/-- With what is in `off` behind it. -/
def writeLoop (src : List UInt8) (s : St) (ip : Dinode) (tot off : Nat) : Except Panic (Nat × Dinode × St) :=
  if tot < src.length then do
    let (addr, ip, s) ← bmap s ip (off / bsize)
    let m := min (src.length - tot) (bsize - off % bsize)
    let s := logWrite s addr (patch (s.disk addr) (off % bsize) ((src.drop tot).take m))
    writeLoop src s ip (tot + m) (off + m)
  else .ok (off, ip, s)
termination_by src.length - tot
decreasing_by
  have := chunk_pos off ‹tot < src.length›
  omega

def writei (s : St) (inum : Nat) (ip : Dinode) (src : List UInt8) (off : Nat) : Except Panic (Answer × Dinode × St) :=
  let n := src.length
  if ip.type = tDev then .ok (devAnswer ip.major, ip, s)
  else if off > ip.size ∨ (off + n) % 2 ^ 32 < off then .ok (.failed, ip, s)
  else if (off + n) % 2 ^ 32 > maxFile * bsize then .ok (.failed, ip, s)
  else do
    let (off, ip, s) ← writeLoop src s ip 0 off
    if n > 0 ∧ off > ip.size then
      let ip := { ip with size := off }
      .ok (.wrote n, ip, iupdate s inum ip)
    else .ok (.wrote n, ip, s)

/-! ## Inodes in memory -/

/-- `struct inode` of the one device; `ip` is the copy of the inode on the disk, and `ref` stays below the bound of an
`int`. -/
structure Entry where
  inum : Nat
  ref : Nat
  valid : Bool
  ip : Dinode

structure Sys where
  st : St
  icache : Fin ninode → Entry

def Sys.set (y : Sys) (p : Fin ninode) (e : Entry) : Sys := { y with icache := Function.update y.icache p e }

/-- The inode is already cached. -/
def Sys.cached (y : Sys) (inum : Nat) : Option (Fin ninode) :=
  (List.finRange ninode).find? fun p => decide (0 < (y.icache p).ref ∧ (y.icache p).inum = inum)

/-- `empty` in `iget` -/
def Sys.empty (y : Sys) : Option (Fin ninode) := (List.finRange ninode).find? fun p => decide ((y.icache p).ref = 0)

def idup (y : Sys) (p : Fin ninode) : Sys := y.set p { y.icache p with ref := (y.icache p).ref + 1 }

def iget (y : Sys) (inum : Nat) : Except Panic (Fin ninode × Sys) :=
  match y.cached inum with
  | some p => .ok (p, y.set p { y.icache p with ref := (y.icache p).ref + 1 })
  | none =>
    match y.empty with
    | some p => .ok (p, y.set p { y.icache p with inum := inum, ref := 1, valid := false })
    | none => .error .noEntries

def ialloc (y : Sys) (type : UInt16) : Except Panic (Fin ninode × Sys) :=
  let s := y.st
  match (List.range' 1 (s.sb.ninodes - 1)).find? fun inum => (dinode s inum).type == 0 with
  | some inum =>
    let data := clearDinode (s.disk (iblock s.sb inum)) (inum % ipb * 64)
    iget { y with st := logWrite s (iblock s.sb inum) (store data 2 (inum % ipb * 64) type.toNat) } inum
  | none => .error .noInodes

def ilock (y : Sys) (p : Fin ninode) : Except Panic (Dinode × Sys) :=
  let e := y.icache p
  if e.ref < 1 then .error .ilock
  else if e.valid = true then .ok (e.ip, y)
  else
    let ip := dinode y.st e.inum
    if ip.type = 0 then .error .noType else .ok (ip, y.set p { e with valid := true, ip := ip })

/-- With what the call has left in the inode, and on the disk. -/
def iunlock (y : Sys) (p : Fin ninode) (ip : Dinode) (s : St) : Except Panic Sys :=
  if (y.icache p).ref < 1 then .error .iunlock
  else .ok ⟨s, Function.update y.icache p { y.icache p with ip := ip }⟩

def iput (y : Sys) (p : Fin ninode) : Except Panic Sys := do
  let e := y.icache p
  let y ← (if e.valid = true ∧ e.ip.nlink = 0 ∧ e.ref = 1 then do
      let (ip, s) ← itrunc y.st e.inum e.ip
      let ip := { ip with type := 0 }
      .ok ⟨iupdate s e.inum ip, Function.update y.icache p { e with valid := false, ip := ip }⟩
    else .ok y)
  .ok (y.set p { y.icache p with ref := (y.icache p).ref - 1 })

/-- What the calls of `sysfile.c` do to an inode. -/
inductive Op where
  | ialloc (type : UInt16)
  | iget (inum : Nat)
  | idup (inum : Nat)
  | read (inum off n : Nat)
  | write (inum : Nat) (src : List UInt8) (off : Nat)
  /-- new numbers in the inode, then `iupdate` -/
  | change (inum : Nat) (major minor nlink : UInt16)
  | iput (inum : Nat)

/-- A call on an inode is made by one who has a pointer to it, and so a reference. -/
def Sys.call (y : Sys) (inum : Nat) (f : Fin ninode → Except Panic (Sys × Answer)) : Except Panic (Sys × Answer) :=
  match y.cached inum with
  | some p => f p
  | none => .ok (y, .none)

def step (y : Sys) : Op → Except Panic (Sys × Answer)
  | .ialloc type => do
    let (p, y) ← ialloc y type
    .ok (y, .inum (y.icache p).inum)
  | .iget inum => do
    let (p, y) ← iget y inum
    .ok (y, .inum (y.icache p).inum)
  | .idup inum => y.call inum fun p => .ok (idup y p, .inum (y.icache p).inum)
  | .read inum off n => y.call inum fun p => do
    let (ip, y) ← ilock y p
    let (answer, ip, s) ← readi y.st ip off n
    let y ← iunlock y p ip s
    .ok (y, answer)
  | .write inum src off => y.call inum fun p => do
    let (ip, y) ← ilock y p
    let (answer, ip, s) ← writei y.st (y.icache p).inum ip src off
    let y ← iunlock y p ip s
    .ok (y, answer)
  | .change inum major minor nlink => y.call inum fun p => do
    let (ip, y) ← ilock y p
    let ip := { ip with major := major, minor := minor, nlink := nlink }
    let y ← iunlock y p ip (iupdate y.st (y.icache p).inum ip)
    .ok (y, .done)
  | .iput inum => y.call inum fun p => do
    let y ← iput y p
    .ok (y, .done)

end CS5600.Xv6.Fs
