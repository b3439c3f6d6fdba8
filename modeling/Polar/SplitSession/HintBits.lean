import Polar.SplitSession.Session

/-!
# Hint bits and workers of a split transaction

Inside a split transaction the flag of the session is set, so that the session itself leaves no hint
bits. A worker gets the setting before it has a transaction block, and the hook refuses it.
-/

namespace Polar.SplitSession

open SplitRead (Hints)

namespace Xact

variable {x y : Xact} {v : Setting}

theorem splitEnd_clean (h : x.polarSplitXact = false → x.Clean) : x.splitEnd.Clean := by
  rw [splitEnd]
  split
  · next hflag => exact h (by simpa using hflag)
  · exact ⟨rfl, rfl, rfl⟩

theorem splitEnd_blockState (x : Xact) : x.splitEnd.blockState = x.blockState := by
  rw [splitEnd]
  split <;> rfl

/-- An assignment that succeeds ends the split, or begins one. The block stays. -/
theorem splitBegin_ok {primary : Bool} (h : x.splitBegin primary v = .ok y) :
    y.blockState = x.blockState ∧
      (v = .empty ∧ y = x.splitEnd ∨ v ≠ .empty ∧ y.polarSplitXact = true) := by
  cases v with
  | empty =>
    cases h
    exact ⟨x.splitEnd_blockState, .inl ⟨rfl, rfl⟩⟩
  | malformed =>
    simp only [splitBegin] at h
    split_ifs at h
  | list items =>
    simp only [splitBegin] at h
    split_ifs at h
    split at h
    · cases h
      exact ⟨x.splitEnd_blockState, .inr ⟨by simp, rfl⟩⟩
    · cases h

end Xact

namespace Session

variable {s t : Session} {stmt : Statement}

/-- What holds of the session between its steps. -/
structure Inv (s : Session) : Prop where
  tornDown : s.TornDown
  split : s.InTransaction → s.assigned ≠ .empty →
    s.xact.polarSplitXact = true ∧ s.setting = s.assigned

theorem Inv.init (hints : Nat → Hints) : Inv (.init hints) :=
  ⟨⟨fun _ => ⟨rfl, rfl⟩, fun _ => ⟨rfl, rfl, rfl⟩⟩, fun _ h => absurd rfl h⟩

/-- A transaction that is not split has no id. -/
theorem Inv.splitEnd_clean (h : Inv s) (hin : s.InTransaction) : s.xact.splitEnd.Clean := by
  apply Xact.splitEnd_clean
  intro hflag
  apply h.tornDown.cleared
  by_contra hne
  rw [(h.split hin hne).1] at hflag
  cases hflag

/-- The end of a transaction keeps the command id. -/
theorem cleanup_inv (h : s.assigned = .empty → s.xact.Clean) : Inv s.cleanup := by
  have hout : ¬s.cleanup.InTransaction := by
    rintro (h | h | h) <;> cases h
  exact ⟨⟨fun _ => ⟨rfl, rfl⟩, fun hempty => ⟨rfl, rfl, (h hempty).2.2⟩⟩, fun hin => absurd hin hout⟩

theorem restore_cases {prior : Option Setting} (hs : s.restore prior = some t) :
    prior = none ∧ t = s ∨ ∃ v x, prior = some v ∧ s.xact.splitBegin false v = .ok x ∧
      t = { s with xact := x, setting := v, assigned := v } := by
  cases prior with
  | none =>
    cases hs
    exact .inl ⟨rfl, rfl⟩
  | some v =>
    rw [restore] at hs
    cases hbegin : s.xact.splitBegin false v with
    | error e =>
      rw [hbegin] at hs
      cases hs
    | ok x =>
      rw [hbegin] at hs
      cases hs
      exact .inr ⟨v, x, rfl, hbegin, rfl⟩

/-- An assignment in a transaction that succeeds. -/
theorem Inv.assigned (h : Inv s) (hin : s.InTransaction) {v : Setting} {x : Xact}
    (hbegin : s.xact.splitBegin false v = .ok x) :
    Inv { s with xact := x, setting := v, assigned := v } := by
  obtain ⟨hframe, hcases⟩ := Xact.splitBegin_ok hbegin
  have hblock : x.blockState = .started ∨ x.blockState = .implicitInProgress ∨
      x.blockState = .inProgress := hframe ▸ hin
  refine ⟨⟨?_, ?_⟩, ?_⟩
  · intro hdefault
    rw [hdefault] at hblock
    simp at hblock
  · intro hempty
    rcases hcases with ⟨-, rfl⟩ | ⟨hne, -⟩
    · exact h.splitEnd_clean hin
    · exact absurd hempty hne
  · intro _ hne
    rcases hcases with ⟨hempty, -⟩ | ⟨-, hflag⟩
    · exact absurd hempty hne
    · exact ⟨hflag, rfl⟩

/-- The value given back at the end of a transaction, after its ids are taken out. -/
theorem clean_of_restore {prior : Option Setting} (hclean : s.xact.Clean)
    (hs : s.restore prior = some t) (hempty : t.assigned = .empty) : t.xact.Clean := by
  rcases restore_cases hs with ⟨-, rfl⟩ | ⟨v, x, -, hbegin, rfl⟩
  · exact hclean
  · obtain rfl : v = .empty := hempty
    obtain ⟨-, ⟨-, rfl⟩ | ⟨hne, -⟩⟩ := Xact.splitBegin_ok hbegin
    · exact Xact.splitEnd_clean fun _ => hclean
    · exact absurd rfl hne

theorem Inv.abort (h : Inv s) (hin : s.InTransaction) {prior : Option Setting}
    (hs : s.abortTransaction prior = some t) : Inv { t with xact.blockState := .abort } := by
  have hout : ¬({ t with xact.blockState := .abort } : Session).InTransaction := by
    rintro (h | h | h) <;> cases h
  have hclean : t.assigned = .empty → t.xact.Clean := clean_of_restore (h.splitEnd_clean hin) hs
  exact ⟨⟨nofun, hclean⟩, fun hin => absurd hin hout⟩

/-- Every command keeps the invariant. -/
theorem Inv.step (h : Inv s) {op : Op} (hs : s.step op = some t) : Inv t := by
  cases op <;> simp only [Session.step] at hs
  case start =>
    split at hs <;> cases hs
    exact ⟨⟨nofun, fun _ => ⟨rfl, rfl, rfl⟩⟩, fun _ h => absurd rfl h⟩
  case begin implicit =>
    split at hs <;> cases hs
    next hguard =>
    exact ⟨⟨fun h => (by cases implicit <;> cases h), h.tornDown.cleared⟩,
      fun _ => h.split (.inl hguard.1)⟩
  case assign v =>
    split at hs <;> cases hs
    next hguard =>
    rw [assign]
    cases hbegin : s.xact.splitBegin false v with
    | ok x => exact h.assigned hguard.1 hbegin
    | error e =>
      have hclean := h.splitEnd_clean hguard.1
      exact ⟨⟨fun _ => ⟨hclean.1, hclean.2.1⟩, fun _ => hclean⟩, fun _ h => absurd rfl h⟩
  case endSubtransaction prior =>
    split at hs
    · next hguard =>
      rcases restore_cases hs with ⟨-, rfl⟩ | ⟨v, x, -, hbegin, rfl⟩
      · exact h
      · exact h.assigned hguard.1 hbegin
    · cases hs
  case statement stmt =>
    split at hs <;> cases hs
    exact ⟨{ h.tornDown with }, h.split⟩
  case error prior =>
    split at hs
    · next hblock =>
      obtain ⟨u, hu, rfl⟩ := Option.map_eq_some_iff.mp hs
      exact h.abort (.inr (.inr hblock)) hu
    · split at hs
      · next hin =>
        obtain ⟨u, hu, rfl⟩ := Option.map_eq_some_iff.mp hs
        exact cleanup_inv (clean_of_restore (h.splitEnd_clean hin) hu)
      · cases hs
  case commit prior =>
    split at hs
    · next hguard =>
      obtain ⟨u, hu, rfl⟩ := Option.map_eq_some_iff.mp hs
      exact cleanup_inv (clean_of_restore (h.splitEnd_clean hguard.1) hu)
    · cases hs
  case rollback prior =>
    split at hs
    · next hguard =>
      obtain ⟨u, hu, rfl⟩ := Option.map_eq_some_iff.mp hs
      exact cleanup_inv (clean_of_restore (h.splitEnd_clean (.inr (.inr hguard.1))) hu)
    · split at hs <;> cases hs
      exact cleanup_inv h.tornDown.cleared

def noHints : Nat → Hints := fun _ => ⟨false, false, false, false⟩

/-- A list that was set in the transaction before is given back at a commit, and its command id
stays. -/
theorem commit_keeps_commandId : ∃ (hints : Nat → Hints) (s : Session),
    Reaches Session.step (fun _ _ => True) (.init hints) s ∧ s.xact.blockState = .default ∧
      s.xact.currentCommandId = 4 :=
  ⟨noHints, exists_reaches_any _ _ [.start, .begin false, .assign (.list [4, 700, 701]),
    .commit none, .start, .begin false, .assign (.list [6, 702]),
    .commit (some (.list [4, 700, 701]))] _ (by decide)⟩

end Session

end Polar.SplitSession
