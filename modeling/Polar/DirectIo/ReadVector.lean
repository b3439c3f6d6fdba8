import Polar.DirectIo.Read

/-!
# Direct reads into a vector

With more than one entry `polar_directio_preadv` reads everything into one buffer, as it is asked
to, and copies the entries that are read whole. Without such a buffer it reads entry by entry. In
both cases the result of a read is an unsigned number, and a failed read is taken for a long one.
-/

namespace Polar.DirectIo

open List

variable {β : Type*} [Zero β]

/-- An entry of a vector: the alignment of its base, and its length. -/
structure Iov where
  aligned : Bool
  len : Nat
  deriving DecidableEq, Repr

def lengths (iov : List Iov) : List Nat := iov.map (·.len)

/-- What `polar_directio_preadv` returns, and what it puts into each entry. -/
structure Received (β : Type*) where
  ret : Int
  entries : List (List β)

/-- The loop that copies the buffer `src` to the entries, when `part` bytes are read and `bytesRead`
are copied. -/
def gather (part : Nat) : List Nat → List β → Nat → List (List β) × Nat
  | [], _, bytesRead => ([], bytesRead)
  | len :: lens, src, bytesRead =>
    if bytesRead + len ≤ part then
      let rest := gather part lens (src.drop len) (bytesRead + len)
      (src.take len :: rest.1, rest.2)
    else
      -- the entry is left out, and the loop goes on
      let rest := gather part lens src bytesRead
      ([] :: rest.1, rest.2)

section

variable (p : Params) (o : Outcomes)

/-- The read through a buffer, whose first content is `garbage`. -/
def preadvBuffered (garbage : List β) (iov : List Iov) (offset : Nat) : Io β (Received β) :=
  (Io.pread o true (lengths iov).sum offset).attempt.bind fun
    | some bytes =>
      let r := gather bytes.length (lengths iov) (bytes ++ garbage.drop bytes.length) 0
      Io.pure ⟨r.2, r.1⟩
    | none =>
      -- `part` is `(size_t) -1`
      let r := gather (2 ^ 64 - 1) (lengths iov) garbage 0
      Io.pure ⟨r.2, r.1⟩

/-- One entry, read at an offset that may have become negative. -/
def preadEntry (v : Iov) (offset : Int) : Io β (List β) :=
  if 0 ≤ offset then directioPread p o v.aligned v.len offset.toNat
  else if v.len = 0 ∧ ¬(v.aligned = true ∧ offset % p.align = 0) then Io.pure []
  else Io.preadInvalid

/-- The read entry by entry. -/
def preadvLoop : List Iov → Int → Int → Io β (Received β)
  | [], _, bytesRead => Io.pure ⟨bytesRead, []⟩
  | v :: iov, offset, bytesRead =>
    (preadEntry p o v offset).attempt.bind fun
      | some bytes =>
        if bytes.length < v.len then
          Io.pure ⟨bytesRead + bytes.length, bytes :: iov.map fun _ => []⟩
        else
          (preadvLoop iov (offset + bytes.length) (bytesRead + bytes.length)).bind fun r =>
            Io.pure ⟨r.ret, bytes :: r.entries⟩
      | none =>
        -- `part` is `(size_t) -1`, which is not below the length
        (preadvLoop iov (offset - 1) (bytesRead - 1)).bind fun r =>
          Io.pure ⟨r.ret, [] :: r.entries⟩

/-- `polar_directio_preadv`. `buffer` is the content of the buffer, if there is memory for one. -/
def directioPreadv (buffer : Option (List β)) (iov : List Iov) (offset : Nat) : Io β (Received β) :=
  match iov with
  | [v] =>
    (directioPread p o v.aligned v.len offset).attempt.bind fun
      | some bytes => Io.pure ⟨bytes.length, [bytes]⟩
      | none => Io.pure ⟨-1, [[]]⟩
  | _ =>
    match buffer with
    | some garbage => preadvBuffered o garbage iov offset
    | none => preadvLoop p o iov offset 0

end

/-- The vector read, from a file and with an empty log, behaves like `preadv`. -/
structure ReadsVector (p : Params) (m : Io β (Received β)) (f : File β) (iov : List Iov)
    (offset : Nat) : Prop where
  aligned : ∀ c ∈ (m ⟨f, []⟩).2.log, c.Aligned p
  file : (m ⟨f, []⟩).2.file = f
  negative : (∃ c ∈ (m ⟨f, []⟩).2.log, c.ok = false) → ∃ r, (m ⟨f, []⟩).1 = some r ∧ r.ret < 0
  plain : (∀ c ∈ (m ⟨f, []⟩).2.log, c.ok = true) → ∃ r, (m ⟨f, []⟩).1 = some r ∧
    r.ret = (f.pread offset (lengths iov).sum).length ∧
    r.entries = scatter (lengths iov) (f.pread offset (lengths iov).sum)

/-! ## The copies -/

variable {p : Params} {o : Outcomes} {f : File β}

section

variable (hfails : ∀ n, o.fails n = false)
include hfails

end

end Polar.DirectIo
