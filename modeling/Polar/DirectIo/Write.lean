import Polar.DirectIo.Calls

/-!
# Direct writes

`polar_directio_pwrite` writes whole aligned blocks. The blocks at the two ends are read, changed
and written back, and the file is cut to its size in the end. The file is then what `pwrite` leaves,
except that a write of nothing beyond the end may extend it.
-/

namespace Polar.DirectIo

open List

variable {β : Type*} [Zero β]

section

variable (p : Params) (o : Outcomes)

/-- `POLAR_DIRECTIO_PWRITE_SECTION`. -/
def pwriteSection (off start : Nat) (piece : List β) : Io β Unit :=
  (Io.pread o true p.align off).bind fun bytes =>
    let buf := bytes ++ List.replicate (p.align - bytes.length) 0
    (Io.pwrite o true (buf.take start ++ piece ++ buf.drop (start + piece.length)) off).bind
      fun _ => Io.pure ()

/-- The middle sections of `polar_directio_pwrite`, from `off`; the data that is left. -/
def pwriteMiddle (tailStart : Nat) : Nat → Nat → List β → Io β (List β)
  | 0, _, rest => Io.pure rest
  | fuel + 1, off, rest =>
    if off < tailStart then
      let cplen := min (tailStart - off) p.maxIo
      (Io.pwrite o true (rest.take cplen) off).bind fun res =>
        pwriteMiddle tailStart fuel (off + res) (rest.drop res)
    else Io.pure rest

/-- The size of the file, if it has to be restored. -/
def pwriteStat (stop : Nat) : Io β (Option Nat) :=
  if ¬p.IsAligned stop then
    (Io.fstat o).bind fun size => Io.pure (if size < p.alignUp stop then some size else none)
  else Io.pure none

/-- The first section; the data that is left. -/
def pwriteHead (data : List β) (offset : Nat) : Io β (List β) :=
  if p.alignDown offset < p.alignUp offset ∧ 0 < data.length then
    let cplen := min data.length (p.align - offset % p.align)
    (pwriteSection p o (p.alignDown offset) (offset % p.align) (data.take cplen)).bind fun _ =>
      Io.pure (data.drop cplen)
  else Io.pure data

/-- The last section; the data that is left. -/
def pwriteTail (offset stop : Nat) (rest : List β) : Io β (List β) :=
  if p.alignUp offset ≤ p.alignDown stop ∧ p.alignDown stop < p.alignUp stop ∧ 0 < rest.length then
    let cplen := min rest.length (stop % p.align)
    (pwriteSection p o (p.alignDown stop) 0 (rest.take cplen)).bind fun _ =>
      Io.pure (rest.drop cplen)
  else Io.pure rest

/-- The three sections; the data that is left. -/
def pwriteSections (data : List β) (offset : Nat) : Io β (List β) :=
  (pwriteHead p o data offset).bind fun rest =>
    (if p.alignUp offset < p.alignDown (offset + data.length) ∧ 0 < rest.length then
      pwriteMiddle p o (p.alignDown (offset + data.length)) (p.alignDown (offset + data.length))
        (p.alignUp offset) rest
    else Io.pure rest).bind fun rest => pwriteTail p o offset (offset + data.length) rest

/-- `polar_directio_pwrite`. -/
def directioPwrite (bufAligned : Bool) (data : List β) (offset : Nat) : Io β Nat :=
  if bufAligned = true ∧ p.IsAligned data.length ∧ p.IsAligned offset then
    Io.pwrite o bufAligned data offset
  else
    (pwriteStat p o (offset + data.length)).bind fun stat =>
      (pwriteSections p o data offset).bind fun rest =>
        (match stat with
          | some size => Io.ftruncate o (max (offset + data.length) size)
          | none => Io.pure ()).bind fun _ => Io.pure (data.length - rest.length)

end

variable {p : Params} {o : Outcomes} {f g h : File β}

/-! ## A file that has grown by zeros -/

/-- The bytes of `g` are those of `f`, and it reaches to `n`. -/
structure Grown (f g : File β) (n : Nat) : Prop where
  byte : ∀ i, g.byte i = f.byte i
  size : g.size = max f.size n

namespace Grown

theorem refl (f : File β) : Grown f f 0 := ⟨fun _ => rfl, by simp⟩

theorem trans {m n : Nat} (hfg : Grown f g m) (hgh : Grown g h n) : Grown f h (max m n) :=
  ⟨fun i => (hgh.byte i).trans (hfg.byte i), by rw [hgh.size, hfg.size, Nat.max_assoc]⟩

theorem pwrite {n : Nat} (hfg : Grown f g n) (off : Nat) (data : List β) :
    Grown (f.pwrite off data) (g.pwrite off data) n := by
  by_cases hdata : data.length = 0
  · rwa [length_eq_zero_iff.mp hdata, File.pwrite_nil, File.pwrite_nil]
  · constructor
    · intro i
      rw [File.byte_pwrite, File.byte_pwrite, hfg.byte]
    · rw [File.size_pwrite _ _ hdata, File.size_pwrite _ _ hdata, hfg.size]
      omega

/-- The growth is cut off. -/
theorem ftruncate {n : Nat} (hfg : Grown f g n) : g.ftruncate f.size = f := by
  ext i
  · rfl
  · simp only [File.ftruncate]
    split
    · exact hfg.byte i
    · exact (f.beyond i (by omega)).symm

end Grown

section

variable (hwhole : o.Whole)
include hwhole

end

end Polar.DirectIo
