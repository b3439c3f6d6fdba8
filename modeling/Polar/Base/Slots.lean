import Polar.Base.Ring

/-!
# A ring of slots with in-use flags, between one producer and one consumer

The producer waits for the slot of its counter to be free, fills it and raises the flag. The
consumer moves its counter to look one slot ahead while it still holds the slot before, and lowers
the flag of that slot last. `Holds` compares the ring with the queue of its used slots.
-/

namespace Polar

open Function List

/-- What the two sides of a queue of slots do. -/
structure QueueOps (ρ α : Type*) where
  /-- Fill the next slot; fails while it is in use. -/
  append : ρ → α → Option ρ
  /-- The slot of the consumer's counter, if it is in use. -/
  current : ρ → Option α
  /-- Move the consumer's counter: the slot held and, if it is in use, the slot after it. -/
  next : ρ → ρ × α × Option α
  /-- Lower the flag of the slot held. -/
  clear : ρ → ρ

/-- The queue itself: what the ring of slots stands for. -/
def fifo {α : Type*} [Inhabited α] : QueueOps (List α) α where
  append q a := some (q ++ [a])
  current q := q.head?
  next q := (q, q.headD default, q.tail.head?)
  clear q := q.tail

/-- The slots, a flag and a content each, and the counters of the two sides. -/
structure Slots (α : Type*) where
  slots : Nat → Bool × α
  addNo : Nat
  delNo : Nat

namespace Slots

variable {α : Type*} {n base : Nat} {r r' : Slots α} {q : List α} {a : α}

/-- No slot is used. -/
def init [Inhabited α] : Slots α := { slots := fun _ => (false, default), addNo := 0, delNo := 0 }

/-- The content of a slot that is in use. -/
def used (n : Nat) (r : Slots α) (no : Nat) : Option α :=
  if (r.slots (no % n)).1 then some (r.slots (no % n)).2 else none

/-- The operations on `n` slots. -/
def ops (n : Nat) : QueueOps (Slots α) α where
  append r a :=
    if (r.slots (r.addNo % n)).1 then none
    else some { r with
      slots := Function.update r.slots (r.addNo % n) (true, a), addNo := r.addNo + 1 }
  current r := r.used n r.delNo
  next r :=
    ({ r with delNo := r.delNo + 1 }, (r.slots (r.delNo % n)).2, r.used n (r.delNo + 1))
  clear r :=
    let no := (r.delNo - 1) % n
    { r with slots := Function.update r.slots no (false, (r.slots no).2) }

/-- The used slots, from slot `base` on, hold the queue. -/
structure Holds (n base : Nat) (r : Slots α) (q : List α) : Prop where
  addNo_eq : r.addNo = base + q.length
  length_le : q.length ≤ n
  filled : ∀ i (hi : i < q.length), r.slots ((base + i) % n) = (true, q[i])
  free : ∀ i, q.length ≤ i → i < n → (r.slots ((base + i) % n)).1 = false

theorem slot_ne {i j : Nat} (hi : i < n) (hj : j < n) (hij : i ≠ j) :
    (base + i) % n ≠ (base + j) % n := by
  intro h
  have := Ring.mod_inj_of_window (Nat.zero_lt_of_lt hi) (Nat.le_add_right base i)
    (Nat.add_lt_add_left hi _) (Nat.le_add_right _ _) (Nat.add_lt_add_left hj _) h
  omega

theorem holds_init [Inhabited α] : Holds n 0 (init : Slots α) [] where
  addNo_eq := rfl
  length_le := Nat.zero_le _
  filled := by simp
  free := fun _ _ _ => rfl

namespace Holds

theorem append (h : Holds n base r q) (hn : 0 < n) (ha : (ops n).append r a = some r') :
    Holds n base r' (q ++ [a]) ∧ r'.delNo = r.delNo := by
  simp only [ops, h.addNo_eq] at ha
  obtain ⟨hfree, ⟨⟩⟩ := Option.ite_none_left_eq_some.mp ha
  -- a full ring would have its first slot in use
  have hlt : q.length < n := by
    refine Nat.lt_of_le_of_ne h.length_le fun hfull => hfree ?_
    have hfirst := h.filled 0 (by omega)
    rw [hfull, Nat.add_mod_right]
    rw [add_zero] at hfirst
    rw [hfirst]
  refine ⟨⟨by simp; omega, by simp; omega, fun i hi => ?_, fun i hi hin => ?_⟩, rfl⟩
  · by_cases hil : i = q.length
    · subst hil
      simp
    · have hi' : i < q.length := by simp at hi; omega
      rw [getElem_append_left hi', ← h.filled i hi']
      exact update_of_ne (slot_ne (by omega) hlt hil) _ _
  · simp only [length_append, length_singleton] at hi
    rw [← h.free i (by omega) hin]
    exact congrArg Prod.fst (update_of_ne (slot_ne hin hlt (by omega)) _ _)

theorem used_eq (h : Holds n base r q) {i : Nat} (hi : i < n) : r.used n (base + i) = q[i]? := by
  unfold Slots.used
  by_cases hlt : i < q.length
  · rw [h.filled i hlt, getElem?_eq_getElem hlt]
    rfl
  · have hle := Nat.le_of_not_lt hlt
    rw [h.free i hle hi, getElem?_eq_none hle]
    rfl

theorem current (h : Holds n r.delNo r q) (hn : 0 < n) : (ops n).current r = q.head? := by
  have := h.used_eq hn
  rwa [← head?_eq_getElem?] at this

theorem next (h : Holds n r.delNo r (a :: q)) (hn : 2 ≤ n) :
    (ops n).next r = ({ r with delNo := r.delNo + 1 }, a, q.head?) := by
  have hfirst := h.filled 0 (by simp)
  have hsecond := h.used_eq (show 1 < n from hn)
  rw [add_zero] at hfirst
  simp only [ops, hfirst, hsecond, getElem_cons_zero, getElem?_cons_succ,
    head?_eq_getElem?]

theorem clear (h : Holds n base r (a :: q)) (hdel : r.delNo = base + 1) :
    Holds n (base + 1) ((ops n).clear r) q ∧ ((ops n).clear r).delNo = base + 1 := by
  have hlen : q.length + 1 ≤ n := h.length_le
  have hheld : (r.delNo - 1) % n = (base + 0) % n := by rw [hdel]; rfl
  refine ⟨⟨?_, by omega, fun i hi => ?_, fun i hi hin => ?_⟩, hdel⟩
  · change r.addNo = _
    rw [h.addNo_eq, length_cons]
    omega
  · have hslot : (base + 1 + i) % n ≠ (r.delNo - 1) % n := by
      rw [hheld, add_assoc]
      exact slot_ne (by omega) (by omega) (by omega)
    simp only [ops]
    rw [update_of_ne hslot, show base + 1 + i = base + (i + 1) by omega,
      h.filled (i + 1) (by simpa using hi)]
    rfl
  · simp only [ops]
    by_cases hlast : i + 1 = n
    · have hslot : (base + 1 + i) % n = (r.delNo - 1) % n := by
        rw [hheld, show base + 1 + i = base + n by omega, Nat.add_mod_right, add_zero]
      rw [hslot, update_self]
    · have hslot : (base + 1 + i) % n ≠ (r.delNo - 1) % n := by
        rw [hheld, add_assoc]
        exact slot_ne (by omega) (by omega) (by omega)
      rw [update_of_ne hslot, show base + 1 + i = base + (i + 1) by omega]
      exact h.free (i + 1) (by simpa using hi) (by omega)

end Holds

end Slots

end Polar
