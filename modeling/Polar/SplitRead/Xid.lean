import Polar.Base.Search
import Mathlib.Algebra.GroupWithZero.Nat
import Mathlib.Data.List.Sort

/-!
# Transaction ids

A `FullTransactionId` counts up, and a `TransactionId` is its low 32 bits. Two ids that are less
than half of the range apart are ordered by their difference.
-/

namespace Polar.SplitRead

/-- `XidFromFullTransactionId`. -/
def xidFromFull (full : Nat) : Nat := full % 2 ^ 32

/-- `TransactionIdIsNormal`. -/
def isNormal (xid : Nat) : Bool := 3 ≤ xid

/-- `TransactionIdPrecedes`: the sign of the difference, in 32 bits. -/
def precedes (xid1 xid2 : Nat) : Bool :=
  if isNormal xid1 && isNormal xid2 then decide (2 ^ 31 ≤ (xid1 + 2 ^ 32 - xid2) % 2 ^ 32)
  else decide (xid1 < xid2)

/-- `qsort` with `xidComparator`. -/
def sortXids (xids : List Nat) : List Nat := xids.insertionSort (· ≤ ·)

/-- The ids do not lie on both sides of the wraparound. -/
def NoWrap (xids : List Nat) : Prop := ∀ a ∈ xids, ∀ b ∈ xids, a < b → b - a < 2 ^ 31

instance (xids : List Nat) : Decidable (NoWrap xids) :=
  inferInstanceAs (Decidable (∀ a ∈ xids, ∀ b ∈ xids, a < b → b - a < 2 ^ 31))

theorem xidFromFull_lt (full : Nat) : xidFromFull full < 2 ^ 32 :=
  Nat.mod_lt _ (by decide)

variable {a b : Nat}

/-- Full ids that are near are ordered as their low bits are. -/
theorem precedes_of_full (ha : isNormal (xidFromFull a) = true)
    (hb : isNormal (xidFromFull b) = true) (hlt : a < b) (hnear : b < a + 2 ^ 31) :
    precedes (xidFromFull a) (xidFromFull b) = true ∧
      precedes (xidFromFull b) (xidFromFull a) = false := by
  unfold precedes
  simp only [ha, hb, Bool.and_self, if_true, decide_eq_true_eq, decide_eq_false_iff_not]
  unfold xidFromFull
  omega

theorem xidFromFull_ne (hlt : a < b) (hnear : b < a + 2 ^ 31) : xidFromFull a ≠ xidFromFull b := by
  unfold xidFromFull
  omega

/-- Two full ids of transactions, less than half of the range apart. -/
structure Near (a b : Nat) : Prop where
  left : isNormal (xidFromFull a) = true
  right : isNormal (xidFromFull b) = true
  lt : a < b + 2 ^ 31
  gt : b < a + 2 ^ 31

/-- Near ids are told apart by their low bits. -/
theorem Near.xidFromFull_inj (h : Near a b) : xidFromFull a = xidFromFull b ↔ a = b := by
  have hlt := h.lt
  have hgt := h.gt
  unfold xidFromFull
  omega

/-- Near ids are ordered as their low bits are. -/
theorem Near.precedes_iff (h : Near a b) :
    precedes (xidFromFull a) (xidFromFull b) = true ↔ a < b := by
  rcases Nat.lt_trichotomy a b with hab | rfl | hba
  · exact iff_of_true (precedes_of_full h.left h.right hab h.gt).1 hab
  · simp [precedes]
  · have hnot := (precedes_of_full h.right h.left hba h.lt).2
    exact iff_of_false (by rw [hnot]; simp) (lt_asymm hba)

/-- Ids on one side of the wraparound are ordered as numbers. -/
theorem precedes_of_lt (ha : isNormal a = true) (hb : isNormal b = true)
    (hbound : b < 2 ^ 32) (hlt : a < b) (hnear : b - a < 2 ^ 31) :
    precedes a b = true ∧ precedes b a = false := by
  unfold precedes
  simp only [ha, hb, Bool.and_self, if_true, decide_eq_true_eq, decide_eq_false_iff_not]
  omega

variable {xids : List Nat} {x : Nat}

theorem mem_sortXids : x ∈ sortXids xids ↔ x ∈ xids :=
  (List.perm_insertionSort _ xids).mem_iff

/-- Ids that differ are in increasing order once they are sorted. -/
theorem pairwise_sortXids (h : xids.Nodup) : (sortXids xids).Pairwise (· < ·) := by
  have hle : (sortXids xids).Pairwise (· ≤ ·) := List.pairwise_insertionSort _ xids
  have hne : (sortXids xids).Pairwise (· ≠ ·) := (List.perm_insertionSort _ xids).nodup_iff.mpr h
  exact (hle.and hne).imp fun h => lt_of_le_of_ne h.1 h.2

/-- The search by number finds what is there. -/
theorem search_lt_sortXids (h : xids.Nodup) :
    Base.search (fun a b => decide (a < b)) (sortXids xids) x = true ↔ x ∈ xids := by
  rw [← mem_sortXids]
  apply Base.search_iff_mem
  refine (pairwise_sortXids h).imp fun hab => ?_
  simp only [decide_eq_true_eq, decide_eq_false_iff_not]
  omega

/-- The search by `TransactionIdPrecedes` finds what is there when the ids do not wrap around. -/
theorem search_precedes_sortXids (h : xids.Nodup)
    (hnormal : ∀ y ∈ xids, isNormal y = true ∧ y < 2 ^ 32) (hwrap : NoWrap xids) :
    Base.search precedes (sortXids xids) x = true ↔ x ∈ xids := by
  rw [← mem_sortXids]
  apply Base.search_iff_mem
  refine (pairwise_sortXids h).imp_of_mem fun {a b} ha hb hab => ?_
  have ha' := mem_sortXids.mp ha
  have hb' := mem_sortXids.mp hb
  exact precedes_of_lt (hnormal a ha').1 (hnormal b hb').1 (hnormal b hb').2 hab
    (hwrap a ha' b hb' hab)

end Polar.SplitRead
