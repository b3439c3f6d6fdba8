import Polar.FlushList.System
import Mathlib.Data.List.Nodup

/-!
# Partitioned lists in the order of their keys

`oldest` gives an element its key, if it has one. The elements with a key are in the list of their
partition, in the order of their keys, so that the first element of each list has its smallest key.
-/

namespace Polar.FlushList

open Function

/-- `a` comes before `b` as far as the keys are concerned. -/
def KeyLe (oldest : Nat → Option Nat) (a b : Nat) : Prop :=
  ∀ A B, oldest a = some A → oldest b = some B → A ≤ B

/-- Each list has the buffers of its partition that have an oldest LSN, in order. -/
structure ListsOk (lists : Nat → List Nat) (oldest : Nat → Option Nat) : Prop where
  mem : ∀ p b, b ∈ lists p ↔ partition b = p ∧ (oldest b).isSome
  sorted : ∀ p, (lists p).Pairwise (KeyLe oldest)
  nodup : ∀ p, (lists p).Nodup

namespace ListsOk

variable {lists : Nat → List Nat} {oldest : Nat → Option Nat} {b lsn : Nat}

theorem init : ListsOk (fun _ => []) (fun _ => none) :=
  ⟨by simp, by simp, by simp⟩

/-- The order of other elements does not depend on the key of `b`. -/
theorem pairwise_update {list : List Nat} (h : list.Pairwise (KeyLe oldest)) (hb : b ∉ list)
    (key : Option Nat) : list.Pairwise (KeyLe (update oldest b key)) := by
  apply h.imp_of_mem
  intro x y hx hy hxy
  have hxb : x ≠ b := fun e => hb (e ▸ hx)
  have hyb : y ≠ b := fun e => hb (e ▸ hy)
  simpa only [KeyLe, update_of_ne hxb, update_of_ne hyb] using hxy

/-- With a key that is not smaller than any other, `b` belongs at the end. -/
theorem pairwise_append {list : List Nat} (h : list.Pairwise (KeyLe oldest)) (hb : b ∉ list)
    (hlsn : ∀ x L, oldest x = some L → L ≤ lsn) :
    (list ++ [b]).Pairwise (KeyLe (update oldest b (some lsn))) := by
  apply List.pairwise_append.mpr
  refine ⟨pairwise_update h hb _, List.pairwise_singleton _ _, ?_⟩
  intro x hx y hy A B hA hB
  obtain rfl : y = b := List.mem_singleton.mp hy
  have hxy : x ≠ y := fun e => hb (e ▸ hx)
  rw [update_of_ne hxy] at hA
  rw [update_self] at hB
  exact Option.some.inj hB ▸ hlsn x A hA

section

variable (h : ListsOk lists oldest)
include h

theorem notMem_of_ne {p : Nat} (hp : p ≠ partition b) : b ∉ lists p :=
  fun hb => hp ((h.mem p b).mp hb).1.symm

/-- `b` leaves its list for the list `list`, which replaces it, and has the key `key` there. -/
theorem replace {list : List Nat} {key : Option Nat}
    (mem : ∀ x, x ∈ list ↔ (x ≠ b ∧ x ∈ lists (partition b)) ∨ (x = b ∧ key.isSome))
    (sorted : list.Pairwise (KeyLe (update oldest b key))) (nodup : list.Nodup) :
    ListsOk (update lists (partition b) list) (update oldest b key) := by
  constructor
  · intro p x
    by_cases hp : p = partition b
    · subst hp
      rw [update_self, mem x, h.mem]
      by_cases hx : x = b
      · subst hx
        simp
      · simp [hx]
    · rw [update_of_ne hp, h.mem]
      by_cases hx : x = b
      · subst hx
        simp [Ne.symm hp]
      · rw [update_of_ne hx]
  · intro p
    by_cases hp : p = partition b
    · subst hp
      rwa [update_self]
    · rw [update_of_ne hp]
      exact pairwise_update (h.sorted p) (h.notMem_of_ne hp) _
  · intro p
    by_cases hp : p = partition b
    · subst hp
      rwa [update_self]
    · rw [update_of_ne hp]
      exact h.nodup p

theorem put (hb : oldest b = none) (hlsn : ∀ x L, oldest x = some L → L ≤ lsn) :
    ListsOk (update lists (partition b) (lists (partition b) ++ [b]))
      (update oldest b (some lsn)) := by
  have hmem : b ∉ lists (partition b) := by simp [h.mem, hb]
  apply h.replace
  · intro x
    by_cases hx : x = b <;> simp [hx]
  · exact pairwise_append (h.sorted _) hmem hlsn
  · apply List.nodup_append.mpr
    refine ⟨h.nodup _, by simp, ?_⟩
    intro x hx y hy e
    have hxb : x = b := e.trans (List.mem_singleton.mp hy)
    exact hmem (hxb ▸ hx)

theorem remove : ListsOk (update lists (partition b) ((lists (partition b)).erase b))
      (update oldest b none) := by
  have hmem : b ∉ (lists (partition b)).erase b := fun hb => ((h.nodup _).mem_erase_iff.mp hb).1 rfl
  apply h.replace
  · intro x
    simp [(h.nodup _).mem_erase_iff]
  · exact pairwise_update ((h.sorted _).sublist List.erase_sublist) hmem _
  · exact (h.nodup _).erase b

/-- A removed element can be put at the end again. -/
theorem move (hlsn : ∀ x L, oldest x = some L → L ≤ lsn) :
    ListsOk (update lists (partition b) ((lists (partition b)).erase b ++ [b]))
      (update oldest b (some lsn)) := by
  have hlsn' : ∀ x L, update oldest b none x = some L → L ≤ lsn := by
    intro x L hL
    by_cases hx : x = b
    · subst hx
      simp at hL
    · exact hlsn x L (by rwa [update_of_ne hx] at hL)
  have hput := h.remove.put (update_self b none oldest) hlsn'
  simpa only [update_self, update_idem] using hput

/-- The last element stays where it is when its key grows. -/
theorem raise (hlast : (lists (partition b)).getLast? = some b)
    (hlsn : ∀ x L, oldest x = some L → L ≤ lsn) :
    ListsOk lists (update oldest b (some lsn)) := by
  obtain ⟨front, hfront⟩ := List.getLast?_eq_some_iff.mp hlast
  have hnodup := h.nodup (partition b)
  rw [hfront] at hnodup
  have hb : b ∉ front := fun hb =>
    (List.nodup_append.mp hnodup).2.2 b hb b (List.mem_singleton_self b) rfl
  have herase : (lists (partition b)).erase b ++ [b] = lists (partition b) := by
    rw [hfront, List.erase_append_right _ hb]
    simp
  have hmove := h.move (b := b) hlsn
  rwa [herase, update_eq_self] at hmove

/-- The first element of a list has the smallest key of its partition. -/
theorem head_le {L : Nat} (hL : oldest b = some L) :
    ∃ a A, (lists (partition b)).head? = some a ∧ oldest a = some A ∧ A ≤ L := by
  have hb : b ∈ lists (partition b) := (h.mem _ b).mpr ⟨rfl, by simp [hL]⟩
  match hlist : lists (partition b), h.sorted (partition b) with
  | [], _ => simp [hlist] at hb
  | a :: rest, hsorted =>
    have ha : a ∈ lists (partition b) := hlist ▸ List.mem_cons_self
    obtain ⟨A, hA⟩ := Option.isSome_iff_exists.mp ((h.mem _ a).mp ha).2
    refine ⟨a, A, rfl, hA, ?_⟩
    rw [hlist] at hb
    cases hb with
    | head => exact (Option.some.inj (hA.symm.trans hL)).le
    | tail _ hrest => exact List.rel_of_pairwise_cons hsorted hrest A L hA hL

end

end ListsOk

end Polar.FlushList
