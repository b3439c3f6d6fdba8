import Mathlib.Algebra.GroupWithZero.Nat
import Mathlib.Data.List.Basic
import Mathlib.Logic.Function.Basic
import Mathlib.Tactic.Common

/-!
# Circular areas addressed by monotone positions

A circular area of `n` cells is a function on physical offsets. Positions grow without bound and
are mapped to an offset by `% n`. Reads, writes and clears are the two-piece copies a program
performs at the physical end; the lemmas below say what each of them does at a position of the
current window, and `Mirrors` compares the area with an unbounded tape.
-/

namespace Polar.Ring

open List

variable {α : Type*} {n : Nat}

/-- Overwrite consecutive cells, starting at offset `start`. -/
def splice (cells : Nat → α) (start : Nat) (xs : List α) : Nat → α :=
  fun i => if start ≤ i then (xs[i - start]?).getD (cells i) else cells i

/-- Read `len` consecutive cells, starting at offset `start`. -/
def slice (cells : Nat → α) (start len : Nat) : List α :=
  (range len).map fun i => cells (start + i)

@[simp] theorem length_slice (cells : Nat → α) (start len : Nat) :
    (slice cells start len).length = len := by
  rw [slice, length_map, length_range]

theorem getElem_slice (cells : Nat → α) (start len i : Nat)
    (hi : i < (slice cells start len).length) : (slice cells start len)[i] = cells (start + i) := by
  simp [slice]

/-- A part of a slice is the slice of the part. -/
theorem take_drop_slice (cells : Nat → α) (start len k m : Nat) :
    ((slice cells start len).drop k).take m = slice cells (start + k) (min m (len - k)) := by
  apply ext_getElem
  · simp
  · intro i _ _
    simp [slice, add_assoc]

variable {cells : Nat → α}

/-- Cells written behind those that hold `xs` continue `xs`. -/
theorem slice_splice_append {xs : List α} (h : slice cells 0 xs.length = xs)
    (ys : List α) : slice (splice cells xs.length ys) 0 (xs ++ ys).length = xs ++ ys := by
  apply ext_getElem
  · exact length_slice _ _ _
  · intro i hi hi'
    rw [getElem_slice, zero_add, splice]
    rcases Nat.lt_or_ge i xs.length with hlt | hge
    · rw [if_neg (by omega), getElem_append_left hlt]
      conv_rhs => rw [getElem_of_eq h.symm hlt]
      rw [getElem_slice, zero_add]
    · rw [length_append] at hi'
      rw [if_pos hge, getElem_append_right hge, getElem?_eq_getElem (by omega)]
      rfl

/-- Set `len` consecutive cells to `z`, starting at offset `start`. -/
def fill (cells : Nat → α) (start len : Nat) (z : α) : Nat → α :=
  fun i => if start ≤ i ∧ i < start + len then z else cells i

/-- The number of cells that fit before the physical end, or `0` when nothing has to wrap. -/
def splitAt (n phys len : Nat) : Nat :=
  if phys + len > n then n - phys else 0

/-- Copy `xs` into the area at offset `phys`, in two pieces when it passes the physical end. -/
def write (n : Nat) (cells : Nat → α) (phys : Nat) (xs : List α) : Nat → α :=
  let split := splitAt n phys xs.length
  if split > 0 then
    splice (splice cells phys (xs.take split)) 0 (xs.drop split)
  else
    splice cells phys xs

/-- Copy `len` cells out of the area at offset `phys`, in two pieces when it wraps. -/
def read (n : Nat) (cells : Nat → α) (phys len : Nat) : List α :=
  let split := splitAt n phys len
  if split > 0 then
    slice cells phys split ++ slice cells 0 (len - split)
  else
    slice cells phys len

/-- Reset the cells from offset `a` up to offset `b`, around the physical end when `b ≤ a`. -/
def clear (n : Nat) (cells : Nat → α) (a b : Nat) (z : α) : Nat → α :=
  if a < b then
    fill cells a (b - a) z
  else
    let cells := fill cells a (n - a) z
    if 0 < b then fill cells 0 b z else cells

/-- The offset of a position at most one lap after `pos`. -/
theorem mod_of_window {pos q : Nat} (hn : 0 < n) (hpos : pos ≤ q) (hq : q < pos + n) :
    q % n = if pos % n + (q - pos) < n then pos % n + (q - pos) else pos % n + (q - pos) - n := by
  have hlt : pos % n < n := Nat.mod_lt _ hn
  have hsum : q = n * (pos / n) + (pos % n + (q - pos)) := by
    have := Nat.div_add_mod pos n
    omega
  have hmod : q % n = (pos % n + (q - pos)) % n := by
    conv_lhs => rw [hsum]
    exact Nat.mul_add_mod _ _ _
  rw [hmod]
  split
  · next h => exact Nat.mod_eq_of_lt h
  · next h =>
    rw [Nat.mod_eq_sub_mod (by omega)]
    exact Nat.mod_eq_of_lt (by omega)

/-- Positions of one window have distinct offsets. -/
theorem mod_inj_of_window {lo p q : Nat} (hn : 0 < n) (hp : lo ≤ p) (hp' : p < lo + n)
    (hq : lo ≤ q) (hq' : q < lo + n) (h : p % n = q % n) : p = q := by
  have hlt : lo % n < n := Nat.mod_lt _ hn
  rw [mod_of_window hn hp hp', mod_of_window hn hq hq'] at h
  split at h <;> split at h <;> omega

/-- What a wrapping write leaves at the positions of the lap that starts at `pos`. -/
theorem write_apply {pos q : Nat} {xs : List α} (hn : 0 < n)
    (hlen : xs.length ≤ n) (hpos : pos ≤ q) (hq : q < pos + n) :
    write n cells (pos % n) xs (q % n) = (xs[q - pos]?).getD (cells (q % n)) := by
  have hlt : pos % n < n := Nat.mod_lt _ hn
  have hmod := mod_of_window hn hpos hq
  unfold write splitAt
  by_cases hwrap : pos % n + xs.length > n
  · simp only [hwrap, if_true, show n - pos % n > 0 by omega]
    by_cases hfst : pos % n + (q - pos) < n
    · rw [if_pos hfst] at hmod
      have htake : (xs.take (n - pos % n))[q - pos]? = xs[q - pos]? :=
        getElem?_take_of_lt (by omega)
      have hdrop : (xs.drop (n - pos % n))[q % n]? = none := by
        apply getElem?_eq_none
        rw [length_drop]
        omega
      simp only [splice, Nat.zero_le, if_true, Nat.sub_zero, hdrop, Option.getD_none]
      rw [if_pos (by omega), show q % n - pos % n = q - pos by omega, htake]
    · rw [if_neg hfst] at hmod
      have hdrop : (xs.drop (n - pos % n))[q % n]? = xs[q - pos]? := by
        rw [getElem?_drop]
        congr 1
        omega
      simp only [splice, Nat.zero_le, if_true, Nat.sub_zero, hdrop]
      rw [if_neg (by omega)]
  · simp only [hwrap, if_false, Nat.lt_irrefl, splice]
    by_cases hfst : pos % n + (q - pos) < n
    · rw [if_pos hfst] at hmod
      rw [if_pos (by omega), show q % n - pos % n = q - pos by omega]
    · rw [if_neg hfst] at hmod
      rw [if_neg (by omega), getElem?_eq_none (by omega), Option.getD_none]

/-- A wrapping read returns the cells of consecutive positions. -/
theorem read_eq_map {pos len : Nat} (hn : 0 < n) (hlen : len ≤ n) :
    read n cells (pos % n) len = (range len).map fun i => cells ((pos + i) % n) := by
  have hlt : pos % n < n := Nat.mod_lt _ hn
  have hmod (i : Nat) (hi : i < n) :
      (pos + i) % n = if pos % n + i < n then pos % n + i else pos % n + i - n := by
    simpa only [Nat.add_sub_cancel_left] using
      mod_of_window hn (Nat.le_add_right pos i) (Nat.add_lt_add_left hi pos)
  unfold read splitAt
  by_cases hwrap : pos % n + len > n
  · simp only [hwrap, if_true, show n - pos % n > 0 by omega, slice]
    apply ext_getElem
    · simp only [length_append, length_map, length_range]
      omega
    · intro i hi _
      simp only [length_append, length_map, length_range] at hi
      rw [getElem_append]
      split
      · next h =>
        simp only [length_map, length_range] at h
        simp only [getElem_map, getElem_range]
        rw [hmod i (by omega), if_pos (by omega)]
      · next h =>
        simp only [length_map, length_range] at h
        simp only [getElem_map, getElem_range, length_map, length_range]
        rw [hmod i (by omega), if_neg (by omega)]
        congr 1
        omega
  · simp only [hwrap, if_false]
    apply map_congr_left
    intro i hi
    rw [mem_range] at hi
    rw [hmod i (by omega), if_pos (by omega)]

/-- What a wrapping clear of the positions from `a` to `b` leaves on the lap starting at `a`. -/
theorem clear_apply {a b q : Nat} {z : α} (hn : 0 < n) (hab : a < b)
    (hb : b ≤ a + n) (ha : a ≤ q) (hq : q < a + n) :
    clear n cells (a % n) (b % n) z (q % n) = if q < b then z else cells (q % n) := by
  have hmod := mod_of_window hn ha hq
  rcases Nat.lt_or_ge b (a + n) with hb' | hb'
  · have hmodb := mod_of_window hn (Nat.le_of_lt hab) hb'
    unfold clear fill
    grind
  · have hmodb : b % n = a % n := by
      rw [show b = a + n by omega, Nat.add_mod_right]
    unfold clear fill
    grind

/-- The area holds the tape's cells at the positions from `lo` up to `hi`. -/
def Mirrors (n : Nat) (cells tape : Nat → α) (lo hi : Nat) : Prop :=
  ∀ p, lo ≤ p → p < hi → cells (p % n) = tape p

namespace Mirrors

variable {cells tape : Nat → α} {lo hi : Nat}

/-- Writing inside the window and changing the tape alike keeps the area a mirror of the tape. -/
theorem write {tape' : Nat → α} {pos : Nat} {xs : List α} (h : Mirrors n cells tape lo hi)
    (hn : 0 < n) (hwin : hi ≤ lo + n) (hlo : lo ≤ pos) (hhi : pos + xs.length ≤ hi)
    (hin : ∀ p, pos ≤ p → p < pos + xs.length → tape' p = (xs[p - pos]?).getD (tape p))
    (hout : ∀ p, (p < pos ∨ pos + xs.length ≤ p) → tape' p = tape p) :
    Mirrors n (Ring.write n cells (pos % n) xs) tape' lo hi := by
  intro p hp hp'
  rcases Nat.lt_or_ge p pos with hlt | hge
  · have hlap : (p + n) % n = p % n := Nat.add_mod_right p n
    rw [← hlap, write_apply hn (by omega) (by omega) (by omega), hlap,
      getElem?_eq_none (by omega), Option.getD_none, h p hp hp', hout p (Or.inl hlt)]
  · rw [write_apply hn (by omega) hge (by omega), h p hp hp']
    rcases Nat.lt_or_ge p (pos + xs.length) with hlt' | hge'
    · exact (hin p hge hlt').symm
    · rw [getElem?_eq_none (by omega), Option.getD_none, hout p (Or.inr hge')]

/-- Storing one cell inside the window and changing the tape alike keeps the mirror. -/
theorem update {tape' : Nat → α} {pos : Nat} {x : α} (h : Mirrors n cells tape lo hi)
    (hn : 0 < n) (hwin : hi ≤ lo + n) (hlo : lo ≤ pos) (hhi : pos < hi) (hin : tape' pos = x)
    (hout : ∀ p, p ≠ pos → tape' p = tape p) :
    Mirrors n (Function.update cells (pos % n) x) tape' lo hi := by
  intro p hp hp'
  rcases eq_or_ne p pos with rfl | hne
  · rw [Function.update_self, hin]
  · have hmod : p % n ≠ pos % n := fun heq =>
      hne (mod_inj_of_window hn hp (by omega) hlo (by omega) heq)
    rw [Function.update_of_ne hmod, h p hp hp', hout p hne]

/-- Clearing a freed region at the bottom of the window slides the window up, as long as the tape
is still blank there. -/
theorem clear_slide {z : α} {b : Nat} (h : Mirrors n cells tape lo (lo + n)) (hn : 0 < n)
    (hab : lo < b) (hb : b ≤ lo + n) (hblank : ∀ p, lo + n ≤ p → p < b + n → tape p = z) :
    Mirrors n (Ring.clear n cells (lo % n) (b % n) z) tape b (b + n) := by
  intro p hp hp'
  rcases Nat.lt_or_ge p (lo + n) with hlt | hge
  · rw [clear_apply hn hab hb (by omega) hlt, if_neg (by omega), h p (by omega) hlt]
  · have hlap : (p - n) % n = p % n := by
      rw [← Nat.add_mod_right (p - n) n, Nat.sub_add_cancel (by omega)]
    rw [← hlap, clear_apply hn hab hb (by omega) (by omega), if_pos (by omega),
      hblank p hge hp']

/-- A wrapping read inside the window returns the tape's cells. -/
theorem read {pos len : Nat} (h : Mirrors n cells tape lo hi) (hn : 0 < n)
    (hwin : hi ≤ lo + n) (hlo : lo ≤ pos) (hhi : pos + len ≤ hi) :
    Ring.read n cells (pos % n) len = slice tape pos len := by
  rw [read_eq_map hn (by omega)]
  apply map_congr_left
  intro i hi'
  rw [mem_range] at hi'
  exact h (pos + i) (by omega) (by omega)

end Mirrors

end Polar.Ring
