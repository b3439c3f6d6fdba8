import Mathlib.Data.List.GetD
import Mathlib.Tactic.Common
import Mathlib.Algebra.GroupWithZero.Nat

/-!
# Files, and plain reads and writes

A file is its size and its bytes, with zeros after the end. A read is short only at the end of the
file. A write beyond the end leaves zeros in between, and a write of nothing does nothing.
-/

namespace Polar.DirectIo

open List

/-- A file; what lies beyond its end reads as zero. -/
@[ext]
structure File (β : Type*) [Zero β] where
  size : Nat
  byte : Nat → β
  beyond : ∀ i, size ≤ i → byte i = 0

variable {β : Type*} [Zero β]

namespace File

/-- `pread`. -/
def pread (f : File β) (off len : Nat) : List β :=
  (range (min len (f.size - off))).map fun i => f.byte (off + i)

/-- `pwrite`. -/
def pwrite (f : File β) (off : Nat) (data : List β) : File β :=
  if data.length = 0 then f
  else
    { size := max f.size (off + data.length)
      byte := fun i => if off ≤ i ∧ i < off + data.length then data.getD (i - off) 0 else f.byte i
      beyond := by
        intro i hi
        rw [if_neg (by omega)]
        exact f.beyond i (by omega) }

/-- `ftruncate`. -/
def ftruncate (f : File β) (len : Nat) : File β where
  size := len
  byte := fun i => if i < len then f.byte i else 0
  beyond := fun i hi => if_neg (by omega)

section

variable (f : File β)
include f

@[simp] theorem pwrite_nil (off : Nat) : f.pwrite off [] = f := by
  simp [pwrite]

theorem size_pwrite (off : Nat) {data : List β} (h : data.length ≠ 0) :
    (f.pwrite off data).size = max f.size (off + data.length) := by
  rw [pwrite, if_neg h]

theorem byte_pwrite (off : Nat) (data : List β) (i : Nat) : (f.pwrite off data).byte i =
      if off ≤ i ∧ i < off + data.length then data.getD (i - off) 0 else f.byte i := by
  rw [pwrite]
  split
  · rw [if_neg (by omega)]
  · rfl

end

end File

/-- The bytes that `preadv` puts into the entries of its vector. -/
def scatter : List Nat → List β → List (List β)
  | [], _ => []
  | n :: ns, bytes => bytes.take n :: scatter ns (bytes.drop n)

end Polar.DirectIo
