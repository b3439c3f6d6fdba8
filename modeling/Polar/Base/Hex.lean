import Mathlib.Algebra.GroupWithZero.Nat
import Mathlib.Tactic.Common
import Mathlib.Tactic.Ring

/-!
# Numbers in hexadecimal of a fixed width

A text is the list of its character codes. Texts of one width, compared as texts, are ordered as
their numbers.
-/

namespace Polar.Hex

/-- The code of a digit: `0` to `9`, then `A` to `F`. -/
def digit (d : Nat) : Nat := if d < 10 then 48 + d else 55 + d

/-- Whether a code is that of a digit. -/
def isDigit (c : Nat) : Bool := (48 ≤ c && c ≤ 57) || (65 ≤ c && c ≤ 70)

/-- The value of a digit. -/
def value (c : Nat) : Nat := if c < 58 then c - 48 else c - 55

/-- The last `w` digits of a number, the most significant one first. -/
def fixed : Nat → Nat → List Nat
  | 0, _ => []
  | w + 1, n => digit (n / 16 ^ w % 16) :: fixed w n

/-- The number of a text. -/
def read (text : List Nat) : Nat := text.foldl (fun n c => n * 16 + value c) 0

/-- `strcmp(a, b) <= 0`. -/
def strLe : List Nat → List Nat → Bool
  | [], _ => true
  | _ :: _, [] => false
  | a :: as, b :: bs => if a < b then true else if b < a then false else strLe as bs

theorem value_digit {d : Nat} (h : d < 16) : value (digit d) = d := by
  simp only [value, digit]
  split <;> split <;> omega

theorem digit_lt_digit {a b : Nat} (h : a < b) : digit a < digit b := by
  simp only [digit]
  split <;> split <;> omega

@[simp] theorem length_fixed (w n : Nat) : (fixed w n).length = w := by
  induction w with
  | zero => rfl
  | succ w ih => simp [fixed, ih]

theorem read_fixed (w n : Nat) : read (fixed w n) = n % 16 ^ w := by
  suffices key : ∀ (w acc : Nat), (fixed w n).foldl (fun n c => n * 16 + value c) acc =
      acc * 16 ^ w + n % 16 ^ w by simpa [read] using key w 0
  intro w
  induction w with
  | zero => intro acc; simp [fixed, Nat.mod_one]
  | succ w ih =>
    intro acc
    have hdigit := value_digit (Nat.mod_lt (n / 16 ^ w) (by decide : 16 > 0))
    rw [fixed, List.foldl_cons, ih, hdigit, Nat.mod_pow_succ]
    ring

/-- Texts of one width compare as their numbers, and then as what follows. -/
theorem strLe_fixed_append (w m n : Nat) (as bs : List Nat) :
    strLe (fixed w m ++ as) (fixed w n ++ bs) = true ↔
      m % 16 ^ w < n % 16 ^ w ∨ m % 16 ^ w = n % 16 ^ w ∧ strLe as bs = true := by
  induction w with
  | zero => simp [fixed, Nat.mod_one]
  | succ w ih =>
    have hm := Nat.mod_lt m (Nat.pow_pos (n := w) (by decide : 0 < 16))
    have hn := Nat.mod_lt n (Nat.pow_pos (n := w) (by decide : 0 < 16))
    rw [Nat.mod_pow_succ, Nat.mod_pow_succ]
    generalize ha : m / 16 ^ w % 16 = a
    generalize hb : n / 16 ^ w % 16 = b
    simp only [fixed, ha, hb, List.cons_append, strLe]
    -- the first digits decide unless they are equal
    rcases Nat.lt_trichotomy a b with hlt | rfl | hlt
    · have hmul : 16 ^ w * a + 16 ^ w ≤ 16 ^ w * b := by
        calc 16 ^ w * a + 16 ^ w = 16 ^ w * (a + 1) := (Nat.mul_succ _ _).symm
          _ ≤ 16 ^ w * b := Nat.mul_le_mul_left _ hlt
      rw [if_pos (digit_lt_digit hlt)]
      exact iff_of_true rfl (.inl (by omega))
    · rw [if_neg (lt_irrefl _), if_neg (lt_irrefl _), ih]
      simp
    · have hmul : 16 ^ w * b + 16 ^ w ≤ 16 ^ w * a := by
        calc 16 ^ w * b + 16 ^ w = 16 ^ w * (b + 1) := (Nat.mul_succ _ _).symm
          _ ≤ 16 ^ w * a := Nat.mul_le_mul_left _ hlt
      have hdigit := digit_lt_digit hlt
      rw [if_neg (lt_asymm hdigit), if_pos hdigit]
      exact iff_of_false (by decide) (by omega)

end Polar.Hex
