import Mathlib.Data.List.Pairwise
import Mathlib.Order.Nat

/-!
# Binary search by a relation

The loop compares the middle of what is left with the key, and goes on above it when the middle
precedes the key and below it otherwise. It finds nothing that is not in the list, and when the list
is ordered by the relation it finds all that is.
-/

namespace Polar.Base

variable {α : Type*} [DecidableEq α]

/-- The loop between `low` and `high`, the latter not included. -/
def searchFrom (precedes : α → α → Bool) (l : List α) (x : α) : Nat → Nat → Nat → Bool
  | 0, _, _ => false
  | fuel + 1, low, high =>
    if low < high then
      let middle := low + (high - 1 - low) / 2
      match l[middle]? with
      | none => false
      | some probe =>
        if probe = x then true
        else if precedes probe x then searchFrom precedes l x fuel (middle + 1) high
        else searchFrom precedes l x fuel low middle
    else false

/-- The search in the whole list. -/
def search (precedes : α → α → Bool) (l : List α) (x : α) : Bool :=
  searchFrom precedes l x l.length 0 l.length

variable {precedes : α → α → Bool} {l : List α} {x : α}

theorem mem_of_searchFrom {fuel low high : Nat} (h : searchFrom precedes l x fuel low high = true) :
    x ∈ l := by
  induction fuel generalizing low high with
  | zero => cases h
  | succ fuel ih =>
    unfold searchFrom at h
    split at h
    · dsimp only at h
      split at h
      · cases h
      · next probe hprobe =>
        split at h
        · next heq => exact heq ▸ List.mem_of_getElem? hprobe
        · split at h
          · exact ih h
          · exact ih h
    · cases h

theorem mem_of_search (h : search precedes l x = true) : x ∈ l :=
  mem_of_searchFrom h

/-- The key stays between the ends as long as what is before it precedes it, and what is after it
does not. -/
theorem searchFrom_eq_true {i : Nat} (hx : l[i]? = some x)
    (hbefore : ∀ j y, j < i → l[j]? = some y → precedes y x = true)
    (hafter : ∀ j y, i < j → l[j]? = some y → precedes y x = false) {fuel low high : Nat}
    (hlow : low ≤ i) (hi : i < high) (hfuel : high - low ≤ fuel) (hhigh : high ≤ l.length) :
    searchFrom precedes l x fuel low high = true := by
  induction fuel generalizing low high with
  | zero => omega
  | succ fuel ih =>
    have hlt : low < high := by omega
    have hmiddle : low + (high - 1 - low) / 2 < l.length := by omega
    unfold searchFrom
    rw [if_pos hlt]
    dsimp only
    rw [List.getElem?_eq_getElem hmiddle]
    dsimp only
    split
    · rfl
    · next hne =>
      have hget := List.getElem?_eq_getElem hmiddle
      split
      · next hprec =>
        have hmi : low + (high - 1 - low) / 2 < i := by
          by_contra hge
          rcases Nat.eq_or_lt_of_le (Nat.le_of_not_lt hge) with heq | hgt
          · rw [heq] at hx
            exact hne (Option.some.inj (hget.symm.trans hx))
          · rw [hafter _ _ hgt hget] at hprec
            cases hprec
        exact ih (by omega) hi (by omega) hhigh
      · next hprec =>
        have him : i < low + (high - 1 - low) / 2 := by
          by_contra hge
          rcases Nat.eq_or_lt_of_le (Nat.le_of_not_lt hge) with heq | hlt'
          · rw [← heq] at hx
            exact hne (Option.some.inj (hget.symm.trans hx))
          · exact hprec (hbefore _ _ hlt' hget)
        exact ih hlow him (by omega) (by omega)

/-- In a list that the relation orders one way, the search finds what is there. -/
theorem search_iff_mem (h : l.Pairwise fun a b => precedes a b = true ∧ precedes b a = false) :
    search precedes l x = true ↔ x ∈ l := by
  constructor
  · exact mem_of_search
  · intro hx
    obtain ⟨i, hi, hget⟩ := List.getElem_of_mem hx
    have hpair := List.pairwise_iff_getElem.mp h
    refine searchFrom_eq_true (List.getElem?_eq_some_iff.mpr ⟨hi, hget⟩) ?_ ?_ (Nat.zero_le i) hi
      le_rfl le_rfl
    · intro j y hj hy
      obtain ⟨hjl, rfl⟩ := List.getElem?_eq_some_iff.mp hy
      exact hget ▸ (hpair j i hjl hi hj).1
    · intro j y hj hy
      obtain ⟨hjl, rfl⟩ := List.getElem?_eq_some_iff.mp hy
      exact hget ▸ (hpair i j hi hjl hj).2

end Polar.Base
