import Polar.DirectIo.ReadVector
import Polar.DirectIo.WriteVector

/-!
# Direct reads and writes against plain ones

Single reads are plain reads. Vector reads are plain only if they are aligned as a whole, do not
fail and end with an entry. Writes are plain unless there is nothing to write beyond the end of the
file, or a short write inside a section is counted as a whole one.
-/

namespace Polar.DirectIo

open List

variable {β : Type*} [Zero β]

/-- A call of the direct-I/O layer. -/
inductive Request (β : Type*) where
  | pread (bufAligned : Bool) (len offset : Nat)
  /-- `buffer` is the first content of the bounce buffer, if there is memory for one. -/
  | preadv (buffer : Option (List β)) (iov : List Iov) (offset : Nat)
  | pwrite (bufAligned : Bool) (data : List β) (offset : Nat)
  | pwritev (iov : List (OutIov β)) (offset : Nat)

/-- The read behaves like `pread`. -/
structure ReadsPlain (p : Params) (m : Io β (List β)) (f : File β) (len offset : Nat) : Prop where
  aligned : ∀ c ∈ (m ⟨f, []⟩).2.log, c.Aligned p
  file : (m ⟨f, []⟩).2.file = f
  negative : (∃ c ∈ (m ⟨f, []⟩).2.log, c.ok = false) → (m ⟨f, []⟩).1 = none
  plain : (∀ c ∈ (m ⟨f, []⟩).2.log, c.ok = true) → (m ⟨f, []⟩).1 = some (f.pread offset len)

/-- The call behaves like plain file I/O, and accesses the file aligned. -/
def Behaves (p : Params) (o : Outcomes) (f : File β) : Request β → Prop
  | .pread bufAligned len offset =>
    ReadsPlain p (directioPread p o bufAligned len offset) f len offset
  | .preadv buffer iov offset =>
    ReadsVector p (directioPreadv p o buffer iov offset) f iov offset
  | .pwrite bufAligned data offset =>
    WritesPlain p (directioPwrite p o bufAligned data offset) f data offset
  | .pwritev iov offset =>
    WritesPlain p (directioPwritev p o iov offset) f (contents iov) offset

/-- There is something to write, or it does not start unaligned beyond the end, or one of the two
calls that extend the file fails. -/
def Harmless (p : Params) (o : Outcomes) (f : File β) (data : List β) (offset : Nat) : Prop :=
  data.length ≠ 0 ∨ p.IsAligned offset ∨ offset ≤ f.size ∨ o.fails 0 = true ∨ o.fails 1 = true

/-- The calls that do not reach a defect. -/
def Good (p : Params) (o : Outcomes) (f : File β) : Request β → Prop
  | .pread _ _ _ | .preadv none _ _ => True
  | .preadv (some _) iov offset =>
    iov.length = 1 ∨
      p.IsAligned offset ∧ p.IsAligned (lengths iov).sum ∧ o.fails 0 = false ∧
        ∃ k, min (lengths iov).sum (f.size - offset) = ((lengths iov).take k).sum
  | .pwrite _ data offset => Harmless p o f data offset
  | .pwritev [] offset => p.IsAligned offset
  | .pwritev iov offset => Harmless p o f (contents iov) offset

section

variable {p : Params} {o : Outcomes} {f : File β}

end

/-- In a section a short write counts as a whole one: three bytes are reported and one is
written. -/
theorem pwrite_short_not_plain :
    ∃ (p : Params) (f : File Nat) (w : World Nat),
      directioPwrite p ⟨fun _ => false, fun _ => some 1⟩ false [1, 2, 3] 5 ⟨f, []⟩ = (some 3, w) ∧
      w.file.size = 6 ∧
      ¬Behaves p ⟨fun _ => false, fun _ => some 1⟩ f (.pwrite false [1, 2, 3] 5) := by
  refine ⟨⟨4, 4, by decide, by decide, by decide⟩, ⟨0, fun _ => 0, fun _ _ => rfl⟩, _, rfl, rfl, ?_⟩
  intro h
  exact absurd (congrArg File.size (WritesPlain.plain h rfl)) (by decide)

end Polar.DirectIo
