import Mathlib.Algebra.GroupWithZero.Nat
import Mathlib.Tactic.Common

/-! # Runs of a partial step function, and invariants along them -/

namespace Polar

open Option

variable {σ ι : Type*}

/-- The states reached from `s` by enabled steps that all meet the side condition `ok`. -/
inductive Reaches (step : σ → ι → Option σ) (ok : σ → ι → Prop) (s : σ) : σ → Prop
  | refl : Reaches step ok s s
  | tail {t u : σ} {op : ι} (run : Reaches step ok s t) (hok : ok t op)
      (hstep : step t op = some u) : Reaches step ok s u

namespace Reaches

variable {step : σ → ι → Option σ} {ok ok' : σ → ι → Prop} {s t : σ}

/-- What holds at the start and is kept by every allowed step holds in every reached state. -/
theorem invariant (Inv : σ → Prop) (run : Reaches step ok s t) (init : Inv s)
    (keep : ∀ u op v, Inv u → ok u op → step u op = some v → Inv v) : Inv t := by
  induction run with
  | refl => exact init
  | tail _ hok hstep ih => exact keep _ _ _ ih hok hstep

end Reaches

/-- Run a list of operations. -/
def exec (step : σ → ι → Option σ) : σ → List ι → Option σ
  | s, [] => some s
  | s, op :: ops => (step s op).bind fun t => exec step t ops

/-- A run whose steps are steps that meet the side condition reaches its final state. -/
theorem reaches_of_exec_imp {step run : σ → ι → Option σ} {ok : σ → ι → Prop} {s t : σ}
    {ops : List ι} (h : exec run s ops = some t)
    (hstep : ∀ op ∈ ops, ∀ u v, run u op = some v → ok u op ∧ step u op = some v) :
    Reaches step ok s t := by
  suffices key : ∀ u, Reaches step ok s u → exec run u ops = some t → Reaches step ok s t from
    key s .refl h
  clear h
  induction ops with
  | nil =>
    rintro u reach ⟨⟩
    exact reach
  | cons op ops ih =>
    intro u reach h
    obtain ⟨v, hv, hrest⟩ := bind_eq_some_iff.mp h
    obtain ⟨hok, hv⟩ := hstep op List.mem_cons_self u v hv
    exact ih (fun op hop => hstep op (List.mem_cons_of_mem _ hop)) v (reach.tail hok hv) hrest

/-- Running a list of operations that all meet the side condition reaches the final state. -/
theorem reaches_of_exec {step : σ → ι → Option σ} {ok : σ → ι → Prop} {s t : σ} {ops : List ι}
    (h : exec step s ops = some t) (hok : ∀ u, ∀ op ∈ ops, ok u op) : Reaches step ok s t :=
  reaches_of_exec_imp h fun op hop u _ hv => ⟨hok u op hop, hv⟩

/-- The same for a side condition on the states, which is tested along the run. -/
theorem reaches_of_exec_tested {step : σ → ι → Option σ} {ok : σ → ι → Prop}
    [∀ s op, Decidable (ok s op)] {s t : σ} {ops : List ι}
    (h : exec (fun s op => if ok s op then step s op else none) s ops = some t) :
    Reaches step ok s t :=
  reaches_of_exec_imp h fun _ _ _ _ hv => ite_none_right_eq_some.mp hv

/-- A run whose outcome is decided reaches a state with that outcome. -/
theorem exists_reaches_any (step : σ → ι → Option σ) (s : σ) (ops : List ι) (P : σ → Prop)
    [DecidablePred P] (h : (exec step s ops).any (P ·) = true) :
    ∃ t, Reaches step (fun _ _ => True) s t ∧ P t := by
  obtain ⟨t, ht, hP⟩ := (any_eq_true _ _).mp h
  exact ⟨t, reaches_of_exec ht fun _ _ _ => trivial, of_decide_eq_true hP⟩

theorem exists_reaches_tested (step : σ → ι → Option σ) (ok : σ → ι → Prop)
    [∀ s op, Decidable (ok s op)] (s : σ) (ops : List ι) (P : σ → Prop) [DecidablePred P]
    (h : (exec (fun s op => if ok s op then step s op else none) s ops).any (P ·) = true) :
    ∃ t, Reaches step ok s t ∧ P t := by
  obtain ⟨t, ht, hP⟩ := (any_eq_true _ _).mp h
  exact ⟨t, reaches_of_exec_tested ht, of_decide_eq_true hP⟩

end Polar
