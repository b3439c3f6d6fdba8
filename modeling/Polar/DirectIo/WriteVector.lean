import Polar.DirectIo.Write

/-!
# Direct writes from a vector

`polar_directio_pwritev` hands an aligned vector to `pwritev`, and writes any other one entry by
entry.
-/

namespace Polar.DirectIo

open List

variable {β : Type*} [Zero β]

/-- An entry of a vector: the alignment of its base, and its data. -/
structure OutIov (β : Type*) where
  aligned : Bool
  data : List β

/-- The bytes of all entries. -/
def contents (iov : List (OutIov β)) : List β := iov.flatMap (·.data)

section

variable (p : Params) (o : Outcomes)

/-- The loop over the entries. A failure in the first one is a negative result. -/
def pwritevLoop : List (OutIov β) → Bool → Nat → Nat → Io β Nat
  | [], _, _, ret => Io.pure ret
  | v :: iov, first, offset, ret =>
    (directioPwrite p o v.aligned v.data offset).attempt.bind fun
      | none => if first then Io.fail else Io.pure ret
      | some part =>
        if part < v.data.length then Io.pure (ret + part)
        else pwritevLoop iov false (offset + part) (ret + part)

/-- `polar_directio_pwritev`. -/
def directioPwritev (iov : List (OutIov β)) (offset : Nat) : Io β Nat :=
  if ∀ v ∈ iov, v.aligned = true ∧ p.IsAligned v.data.length ∧ p.IsAligned offset then
    Io.pwrite o true (contents iov) offset
  else pwritevLoop p o iov true offset 0

end

/-- The write, from a file and with an empty log, leaves what `pwrite` leaves if it succeeds. -/
structure WritesPlain (p : Params) (m : Io β Nat) (f : File β) (data : List β) (offset : Nat) :
    Prop where
  aligned : ∀ c ∈ (m ⟨f, []⟩).2.log, c.Aligned p
  plain : (m ⟨f, []⟩).1 = some data.length → (m ⟨f, []⟩).2.file = f.pwrite offset data

variable {p : Params} {o : Outcomes} {f : File β}

/-! ## A write of nothing -/

end Polar.DirectIo
