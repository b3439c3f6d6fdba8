import Polar.DirectIo.Calls

/-!
# Direct reads

`polar_directio_pread` cuts a read into an unaligned head, aligned chunks and an unaligned tail,
each read into an aligned buffer. It reads what `pread` reads.
-/

namespace Polar.DirectIo

open List

variable {β : Type*} [Zero β]

section

variable (p : Params) (o : Outcomes)

/-- The middle sections of `polar_directio_pread`, from `off`. -/
def preadMiddle (tailStart : Nat) : Nat → Nat → Nat → List β → Io β (List β)
  | 0, _, _, done => Io.pure done
  | fuel + 1, off, nleft, done =>
    if off < tailStart then
      let cplen := min (tailStart - off) p.maxIo
      (Io.pread o true cplen off).bind fun buf =>
        let res := min nleft buf.length
        if res < cplen then Io.pure (done ++ buf.take res)
        else preadMiddle tailStart fuel (off + res) (nleft - res) (done ++ buf.take res)
    else Io.pure done

/-- The first section: `none` if it ends the read. -/
def preadHead (len offset : Nat) : Io β (Option (List β)) :=
  if p.alignDown offset < p.alignUp offset ∧ 0 < len then
    (Io.pread o true p.align (p.alignDown offset)).bind fun buf =>
      if buf.length ≤ offset % p.align then Io.pure none
      else
        Io.pure (some ((buf.drop (offset % p.align)).take (min (buf.length - offset % p.align) len)))
  else Io.pure (some [])

/-- The last section. -/
def preadTail (len offset nleft : Nat) : Io β (List β) :=
  if p.alignUp offset ≤ p.alignDown (offset + len) ∧
      p.alignDown (offset + len) < p.alignUp (offset + len) ∧ 0 < nleft then
    (Io.pread o true p.align (p.alignDown (offset + len))).bind fun buf =>
      Io.pure (buf.take (min nleft (min buf.length ((offset + len) % p.align))))
  else Io.pure []

/-- `polar_directio_pread`. -/
def directioPread (bufAligned : Bool) (len offset : Nat) : Io β (List β) :=
  if bufAligned = true ∧ p.IsAligned len ∧ p.IsAligned offset then
    Io.pread o bufAligned len offset
  else
    (preadHead p o len offset).bind fun
      | none => Io.pure []
      | some head =>
        (if p.alignUp offset < p.alignDown (offset + len) ∧ 0 < len - head.length then
          preadMiddle p o (p.alignDown (offset + len)) (p.alignDown (offset + len))
            (p.alignUp offset) (len - head.length) []
        else Io.pure []).bind fun middle =>
          (preadTail p o len offset (len - head.length - middle.length)).bind fun tail =>
            Io.pure (head ++ middle ++ tail)

end

variable {p : Params} {o : Outcomes} {f : File β}

end Polar.DirectIo
