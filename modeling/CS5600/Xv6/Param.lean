/-
  CS5600.Xv6.Param — the sizes of the kernel's tables and of the file system (`Lab11_xv6/deliverables/param.h`, `fs.h`).
-/

import Mathlib

namespace CS5600.Xv6

/-- NPROC -/
def nproc : Nat := 64

theorem nproc_pos : 0 < nproc := by decide

theorem one_lt_nproc : 1 < nproc := by decide

/-- An index of `ptable.proc`. -/
abbrev Slot := Fin nproc

/-- NCPU -/
def ncpu : Nat := 8

/-- MAXOPBLOCKS -/
def maxOpBlocks : Nat := 10

/-- LOGSIZE -/
def logSize : Nat := maxOpBlocks * 3

/-- NBUF -/
def nbuf : Nat := maxOpBlocks * 3

/-- FSSIZE -/
def fsSize : Nat := 1000

/-- NINODE -/
def ninode : Nat := 50

/-- BSIZE -/
def bsize : Nat := 512

/-- NDIRECT -/
def ndirect : Nat := 12

/-- NINDIRECT -/
def nindirect : Nat := bsize / 4

/-- MAXFILE -/
def maxFile : Nat := ndirect + nindirect

end CS5600.Xv6
