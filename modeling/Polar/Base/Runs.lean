import Mathlib.Data.List.Basic
import Mathlib.Tactic.Common

/-!
# A log kept as numbered runs

An append-only log is cut into runs, numbered from one. Entries go to the last run, or start a
new one.
-/

namespace Polar

open List

variable {α : Type*}

/-- The run with a number; runs that do not exist are empty. -/
def runAt (runs : List (List α)) (n : Nat) : List α :=
  if n = 0 then [] else runs[n - 1]?.getD []

/-- One entry is added, at the end of the last run or as a run of its own. -/
inductive Appends (x : α) : List (List α) → List (List α) → Prop
  | last (init : List (List α)) (run : List α) : Appends x (init ++ [run]) (init ++ [run ++ [x]])
  | fresh (runs : List (List α)) : Appends x runs (runs ++ [[x]])

theorem runAt_zero (runs : List (List α)) : runAt runs 0 = [] := rfl

theorem runAt_succ (runs : List (List α)) (n : Nat) : runAt runs (n + 1) = runs[n]?.getD [] := rfl

theorem runAt_append_of_le {runs more : List (List α)} {n : Nat} (h : n ≤ runs.length) :
    runAt (runs ++ more) n = runAt runs n := by
  cases n with
  | zero => rfl
  | succ n => rw [runAt_succ, runAt_succ, List.getElem?_append_left h]

theorem runAt_concat (runs : List (List α)) (run : List α) :
    runAt (runs ++ [run]) (runs.length + 1) = run := by
  rw [runAt_succ, List.getElem?_append_right (Nat.le_refl _), Nat.sub_self]
  rfl

theorem runAt_concat_length (runs : List (List α)) (run : List α) :
    runAt (runs ++ [run]) (runs ++ [run]).length = run := by
  rw [length_append]
  exact runAt_concat runs run

variable {runs : List (List α)} {x : α}

theorem mem_flatten_of_mem_runAt {n : Nat} (h : x ∈ runAt runs n) : x ∈ runs.flatten := by
  cases n with
  | zero => simp [runAt_zero] at h
  | succ n =>
    rw [runAt_succ] at h
    cases hn : runs[n]? with
    | none => simp [hn] at h
    | some run =>
      rw [hn] at h
      exact mem_flatten.mpr ⟨run, mem_of_getElem? hn, h⟩

/-- An entry of the log lies in one of its runs. -/
theorem exists_mem_runAt (h : x ∈ runs.flatten) :
    ∃ n, 0 < n ∧ n ≤ runs.length ∧ x ∈ runAt runs n := by
  obtain ⟨run, hrun, hx⟩ := mem_flatten.mp h
  obtain ⟨n, hn⟩ := List.getElem?_of_mem hrun
  obtain ⟨hlt, -⟩ := List.getElem?_eq_some_iff.mp hn
  refine ⟨n + 1, Nat.succ_pos n, hlt, ?_⟩
  rwa [runAt_succ, hn]

/-- The log up to a run is the log up to the run before, and the run. -/
theorem flatten_take_succ (runs : List (List α)) (n : Nat) :
    (runs.take (n + 1)).flatten = (runs.take n).flatten ++ runAt runs (n + 1) := by
  rw [take_add_one, flatten_append, runAt_succ]
  cases runs[n]? <;> simp

/-- The log from a run on is the run, and the log from the next one on. -/
theorem flatten_drop (runs : List (List α)) (n : Nat) :
    (runs.drop n).flatten = runAt runs (n + 1) ++ (runs.drop (n + 1)).flatten := by
  rw [runAt_succ]
  by_cases h : n < runs.length
  · rw [drop_eq_getElem_cons h, List.getElem?_eq_getElem h]
    rfl
  · rw [drop_eq_nil_of_le (by omega), drop_eq_nil_of_le (by omega),
      List.getElem?_eq_none (by omega)]
    rfl

theorem runAt_take {m n : Nat} (h : m ≤ n) : runAt (runs.take n) m = runAt runs m := by
  cases m with
  | zero => rfl
  | succ m => rw [runAt_succ, runAt_succ, List.getElem?_take_of_lt h]

/-- Entries of earlier runs stand before those of later runs. -/
theorem pairwise_runAt {R : α → α → Prop} (h : runs.flatten.Pairwise R)
    {m n : Nat} (hmn : m < n) {x y : α} (hx : x ∈ runAt runs m) (hy : y ∈ runAt runs n) :
    R x y := by
  cases n with
  | zero => simp [runAt_zero] at hy
  | succ n =>
    rw [← take_append_drop n runs, flatten_append, pairwise_append] at h
    refine h.2.2 x ?_ y ?_
    · rw [← runAt_take (Nat.le_of_lt_succ hmn)] at hx
      exact mem_flatten_of_mem_runAt hx
    · rw [flatten_drop]
      exact mem_append_left _ hy

theorem pairwise_of_runAt {R : α → α → Prop}
    (h : runs.flatten.Pairwise R) (n : Nat) : (runAt runs n).Pairwise R := by
  cases n with
  | zero => exact List.Pairwise.nil
  | succ n =>
    rw [← take_append_drop n runs, flatten_append, flatten_drop] at h
    exact (pairwise_append.mp (pairwise_append.mp h).2.1).1

/-! ## Entries with the number of their run -/

/-- The entries of the log, each with the number of its run, where the first run has number
`first`. -/
def numbered (first : Nat) : List (List α) → List (Nat × α)
  | [] => []
  | run :: runs => run.map (first, ·) ++ numbered (first + 1) runs

theorem numbered_append (first : Nat) (runs more : List (List α)) :
    numbered first (runs ++ more) = numbered first runs ++ numbered (first + runs.length) more := by
  induction runs generalizing first with
  | nil => rfl
  | cons run runs ih =>
    rw [cons_append, numbered, numbered, ih, append_assoc, length_cons,
      Nat.add_assoc, Nat.add_comm 1]

theorem numbered_map_snd (first : Nat) (runs : List (List α)) :
    (numbered first runs).map (·.2) = runs.flatten := by
  induction runs generalizing first with
  | nil => rfl
  | cons run runs ih =>
    rw [numbered, map_append, map_map, ih]
    exact congrArg (· ++ _) (map_id run)

theorem le_of_mem_numbered {first : Nat} {x : Nat × α}
    (h : x ∈ numbered first runs) : first ≤ x.1 := by
  induction runs generalizing first with
  | nil => simp [numbered] at h
  | cons run runs ih =>
    rcases mem_append.mp h with h | h
    · obtain ⟨y, -, rfl⟩ := mem_map.mp h
      exact Nat.le_refl _
    · exact Nat.le_of_succ_le (ih h)

/-- The entries of the first runs. -/
theorem filter_numbered (first n : Nat) (runs : List (List α)) :
    (numbered first runs).filter (·.1 < first + n) = numbered first (runs.take n) := by
  induction runs generalizing first n with
  | nil => simp [numbered]
  | cons run runs ih =>
    cases n with
    | zero =>
      rw [take_zero, numbered, filter_eq_nil_iff]
      intro x hx
      have := le_of_mem_numbered hx
      simpa using this
    | succ n =>
      have hrun : (run.map (first, ·)).filter (·.1 < first + (n + 1)) =
          run.map (first, ·) := by
        rw [filter_eq_self]
        intro x hx
        obtain ⟨y, -, rfl⟩ := mem_map.mp hx
        simp
      rw [take_succ_cons, numbered, numbered, filter_append, hrun, ← ih,
        Nat.add_right_comm, Nat.add_assoc]

theorem filter_numbered_le (n : Nat) (runs : List (List α)) :
    (numbered 1 runs).filter (·.1 ≤ n) = numbered 1 (runs.take n) := by
  rw [← filter_numbered]
  refine filter_congr fun x _ => decide_eq_decide.mpr ?_
  omega

theorem Appends.numbered {runs runs' : List (List α)} (h : Appends x runs runs') :
    Polar.numbered 1 runs' = Polar.numbered 1 runs ++ [(runs'.length, x)] := by
  cases h with
  | last init run | fresh runs => simp [numbered_append, Polar.numbered, Nat.add_comm]

end Polar
