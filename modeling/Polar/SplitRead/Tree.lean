import Polar.SplitRead.Transaction
import Mathlib.Data.List.Flatten

/-!
# The ids of the tree

From the top level to the current one, with the committed children of each, the ids increase. So the
arrays are in the order that the search on the primary needs, and what is current there is what is
reported.
-/

namespace Polar.SplitRead

open List Option
open State (assignTo)

/-- The ids from the top level to the current one. -/
def spine : List Level → List Nat
  | [] => []
  | l :: rest => spine rest ++ l.fulls

/-- The ids that are reported, the current level first. -/
def live (levels : List Level) : List Nat :=
  (levels.filter fun l => !l.aborted && l.fullTransactionId.isSome).flatMap Level.fulls

/-- A level gets an id after those below it, and its children after it. -/
def Assigned : List Level → Prop
  | [] => True
  | l :: rest => (l.fullTransactionId = none → l.children = []) ∧
      (l.fullTransactionId.isSome = true → ∀ p ∈ rest, p.fullTransactionId.isSome = true) ∧
      Assigned rest

/-- The ids of a transaction tree grow downwards. -/
structure TreeOk (levels : List Level) (members : List Nat) (nextFull : Nat) : Prop where
  assigned : Assigned levels
  sorted : (spine levels).Pairwise (· < ·)
  mem : ∀ f ∈ spine levels, f ∈ members
  below : ∀ m ∈ members, m < nextFull
  normal : ∀ m ∈ members, isNormal (xidFromFull m) = true
  near : ∀ a ∈ members, ∀ b ∈ members, a < b + 2 ^ 31
  /-- The top level is there as long as the transaction is. -/
  top : ∃ l, levels.getLast? = some l ∧ l.aborted = false

variable {l : Level}

theorem Level.fulls_of_none {rest : List Level} (h : Assigned (l :: rest))
    (hnone : l.fullTransactionId = none) : l.fulls = [] := by
  simp [Level.fulls, hnone, h.1 hnone]

theorem spine_perm (levels : List Level) : (spine levels).Perm (levels.flatMap Level.fulls) := by
  induction levels with
  | nil => exact .refl _
  | cons l rest ih =>
    calc spine rest ++ l.fulls
      _ |>.Perm (l.fulls ++ spine rest) := perm_append_comm
      _ |>.Perm (l.fulls ++ rest.flatMap Level.fulls) := ih.append_left _

theorem live_sublist (levels : List Level) : (live levels).Sublist (levels.flatMap Level.fulls) :=
  filter_sublist.flatMap _

variable {levels : List Level} {f : Nat}

theorem mem_live : f ∈ live levels ↔
    ∃ l ∈ levels, l.aborted = false ∧ l.fullTransactionId.isSome = true ∧ f ∈ l.fulls := by
  simp [live, and_assoc]

theorem mem_spine : f ∈ spine levels ↔ ∃ l ∈ levels, f ∈ l.fulls :=
  (spine_perm levels).mem_iff.trans mem_flatMap

theorem mem_spine_of_live (h : f ∈ live levels) : f ∈ spine levels := by
  obtain ⟨l, hl, -, -, hf⟩ := mem_live.mp h
  exact mem_spine.mpr ⟨l, hl, hf⟩

/-- The children of a level are in order. -/
theorem children_sublist (h : l ∈ levels) : l.children.Sublist (spine levels) := by
  induction levels with
  | nil => cases h
  | cons p rest ih =>
    rcases mem_cons.mp h with rfl | hrest
    · exact (sublist_append_right _ _).trans (sublist_append_right _ _)
    · exact (ih hrest).trans (sublist_append_left _ _)

namespace TreeOk

variable {levels : List Level} {members : List Nat} {nextFull : Nat}

section

variable (h : TreeOk levels members nextFull)
include h

theorem xid_inj {a b : Nat} (ha : a ∈ members)
    (hb : b ∈ members) (heq : xidFromFull a = xidFromFull b) : a = b := by
  rcases Nat.lt_trichotomy a b with hlt | rfl | hlt
  · exact absurd heq (xidFromFull_ne hlt (h.near b hb a ha))
  · rfl
  · exact absurd heq.symm (xidFromFull_ne hlt (h.near a ha b hb))

/-- The search in the array of a level finds what is there. -/
theorem search_childXids {l : Level} (hl : l ∈ levels)
    {x : Nat} : Base.search precedes l.childXids x = true ↔ x ∈ l.childXids := by
  apply Base.search_iff_mem
  have hsub := children_sublist hl
  refine pairwise_map.mpr ((h.sorted.sublist hsub).imp_of_mem fun {a b} ha hb hab => ?_)
  have ha := h.mem a (hsub.subset ha)
  have hb := h.mem b (hsub.subset hb)
  exact precedes_of_full (h.normal a ha) (h.normal b hb) hab (h.near b hb a ha)

/-- The top level is live once it has an id. -/
theorem top_live {full : Nat}
    (htop : levels.getLast?.bind Level.fullTransactionId = some full) : full ∈ live levels := by
  obtain ⟨l, hlast, hlive⟩ := h.top
  rw [hlast] at htop
  have hfull : l.fullTransactionId = some full := htop
  exact mem_live.mpr ⟨l, mem_of_getLast? hlast, hlive, by simp [hfull],
    by simp [Level.fulls, hfull]⟩

theorem nodup_live : ((live levels).map xidFromFull).Nodup := by
  have hnodup : (live levels).Nodup :=
    ((spine_perm levels).nodup_iff.mp (h.sorted.imp ne_of_lt)).sublist (live_sublist levels)
  refine Nodup.map_on (fun a ha b hb heq => ?_) hnodup
  exact h.xid_inj (h.mem a (mem_spine_of_live ha)) (h.mem b (mem_spine_of_live hb)) heq

theorem live_normal {x : Nat}
    (hx : x ∈ (live levels).map xidFromFull) : isNormal x = true ∧ x < 2 ^ 32 := by
  obtain ⟨f, hf, rfl⟩ := mem_map.mp hx
  exact ⟨h.normal f (h.mem f (mem_spine_of_live hf)), xidFromFull_lt f⟩

end

/-- What is current on the primary is what is live. -/
theorem isCurrent_iff {s : State} (h : TreeOk s.levels members nextFull) {x : Nat} :
    s.isCurrent x = true ↔ x ∈ (live s.levels).map xidFromFull := by
  constructor
  · intro hcur
    obtain ⟨-, hcur⟩ := Bool.and_eq_true_iff.mp hcur
    rcases Bool.or_eq_true_iff.mp hcur with htop | hany
    · obtain ⟨full, hfull, rfl⟩ := map_eq_some_iff.mp (beq_iff_eq.mp htop)
      exact mem_map_of_mem (h.top_live hfull)
    · obtain ⟨l, hl, hlevel⟩ := any_eq_true.mp hany
      obtain ⟨hlive, hfull⟩ := Bool.and_eq_true_iff.mp hlevel
      obtain ⟨full, hsome, hfound⟩ := (any_eq_true _ _).mp hfull
      have hmem : ∀ f ∈ l.fulls, f ∈ live s.levels := fun f hf =>
        mem_live.mpr ⟨l, hl, by simpa using hlive, by simp [hsome], hf⟩
      rcases Bool.or_eq_true_iff.mp hfound with heq | hsearch
      · obtain rfl := beq_iff_eq.mp heq
        exact mem_map_of_mem (hmem full (by simp [Level.fulls, hsome]))
      · obtain ⟨f, hf, rfl⟩ := mem_map.mp ((h.search_childXids hl).mp hsearch)
        exact mem_map_of_mem (hmem f (by simp [Level.fulls, hf]))
  · intro hx
    have hnormal := (h.live_normal hx).1
    obtain ⟨f, hf, rfl⟩ := mem_map.mp hx
    obtain ⟨l, hl, hlive, hsome, hmem⟩ := mem_live.mp hf
    obtain ⟨full, hfull⟩ := isSome_iff_exists.mp hsome
    have hfound : (xidFromFull full == xidFromFull f ||
        Base.search precedes l.childXids (xidFromFull f)) = true := by
      simp only [Level.fulls, hfull, toList_some, singleton_append,
        mem_cons] at hmem
      rcases hmem with rfl | hchild
      · simp
      · simp [(h.search_childXids hl).mpr (mem_map_of_mem hchild)]
    refine Bool.and_eq_true_iff.mpr ⟨hnormal, Bool.or_eq_true_iff.mpr (.inr ?_)⟩
    exact any_eq_true.mpr ⟨l, hl, by simp [hlive, hfull, hfound]⟩

/-! ## The operations on the stack -/

theorem start (h : TreeOk levels members nextFull) :
    TreeOk (⟨none, [], false⟩ :: levels) members nextFull where
  assigned := ⟨fun _ => rfl, fun hsome => absurd hsome (by simp), h.assigned⟩
  sorted := by simpa [spine, Level.fulls] using h.sorted
  mem := by simpa [spine, Level.fulls] using h.mem
  below := h.below
  normal := h.normal
  near := h.near
  top := by
    obtain ⟨l, hlast, hlive⟩ := h.top
    exact ⟨l, by simp [getLast?_cons, hlast], hlive⟩

variable {l p : Level} {rest : List Level}

section

variable (h : TreeOk (l :: p :: rest) members nextFull)
include h

/-- The top level is below the one that is changed. -/
theorem top_of_cons : ∃ t, (p :: rest).getLast? = some t ∧ t.aborted = false := by
  obtain ⟨t, hlast, hlive⟩ := h.top
  exact ⟨t, by rwa [getLast?_cons_cons] at hlast, hlive⟩

theorem cleanup : TreeOk (p :: rest) members nextFull where
  assigned := h.assigned.2.2
  sorted := h.sorted.sublist (sublist_append_left _ _)
  mem f hf := h.mem f (mem_append_left _ hf)
  below := h.below
  normal := h.normal
  near := h.near
  top := h.top_of_cons

theorem abort :
    TreeOk ({ l with children := [], aborted := true } :: p :: rest) members nextFull := by
  have hsub : (spine ({ l with children := [], aborted := true } :: p :: rest)).Sublist
      (spine (l :: p :: rest)) := by
    refine List.Sublist.append (.refl _) ?_
    simp [Level.fulls]
  refine ⟨⟨fun _ => rfl, h.assigned.2.1, h.assigned.2.2⟩, h.sorted.sublist hsub,
    fun f hf => h.mem f (hsub.subset hf), h.below, h.normal, h.near, ?_⟩
  obtain ⟨t, hlast, hlive⟩ := h.top_of_cons
  exact ⟨t, by rw [getLast?_cons_cons, hlast], hlive⟩

theorem release (hsome : l.fullTransactionId.isSome = true) :
    TreeOk ({ p with children := p.children ++ l.fulls } :: rest) members nextFull := by
  have hspine : spine ({ p with children := p.children ++ l.fulls } :: rest) =
      spine (l :: p :: rest) := by
    simp [spine, Level.fulls]
  have hp : p.fullTransactionId.isSome = true := h.assigned.2.1 hsome p mem_cons_self
  refine ⟨⟨fun hnone => ?_, h.assigned.2.2.2.1, h.assigned.2.2.2.2⟩, hspine ▸ h.sorted,
    hspine ▸ h.mem, h.below, h.normal, h.near, ?_⟩
  · have hnone' : p.fullTransactionId = none := hnone
    simp [hnone'] at hp
  · obtain ⟨t, hlast, hlive⟩ := h.top_of_cons
    cases rest with
    | nil =>
      obtain rfl : p = t := by simpa using hlast
      exact ⟨_, rfl, hlive⟩
    | cons q rest =>
      rw [getLast?_cons_cons] at hlast
      exact ⟨t, by rw [getLast?_cons_cons, hlast], hlive⟩

end

end TreeOk

/-! ## Assigning an id -/

/-- What `assignTo` does to a level. -/
def AssignedFrom (full : Nat) (l' l : Level) : Prop :=
  l'.aborted = l.aborted ∧ ∀ f ∈ l'.fulls, f ∈ l.fulls ∨ f = full

theorem AssignedFrom.self (full : Nat) (l : Level) : AssignedFrom full l l :=
  ⟨rfl, fun _ hf => .inl hf⟩

variable {full : Nat}

theorem AssignedFrom.assign (hnone : l.fullTransactionId = none) :
    AssignedFrom full { l with fullTransactionId := some full } l := by
  refine ⟨rfl, fun f hf => ?_⟩
  simp only [Level.fulls, toList_some, singleton_append, mem_cons] at hf
  rcases hf with rfl | hchild
  · exact .inr rfl
  · exact .inl (by simp [Level.fulls, hnone, hchild])

theorem assignTo_from (h : Assigned levels)
    (hhead : levels.head?.bind Level.fullTransactionId = none) :
    List.Forall₂ (AssignedFrom full) (assignTo full levels) levels := by
  fun_induction assignTo full levels with
  | case1 => exact .nil
  | case2 l => exact .cons (.assign hhead) .nil
  | case3 l p rest hsome =>
    exact .cons (.assign hhead) (forall₂_same.mpr fun l _ => .self full l)
  | case4 l p rest hsome ih =>
    exact .cons (.self full l) (ih h.2.2 (by simpa using hsome))

theorem spine_assignTo (h : Assigned levels)
    (hhead : levels.head?.bind Level.fullTransactionId = none) (hne : levels ≠ []) :
    spine (assignTo full levels) = spine levels ++ [full] := by
  fun_induction assignTo full levels with
  | case1 => exact absurd rfl hne
  | case2 l =>
    have hnone : l.fullTransactionId = none := hhead
    simp [spine, Level.fulls, hnone, h.1 hnone]
  | case3 l p rest hsome =>
    have hnone : l.fullTransactionId = none := hhead
    simp [spine, Level.fulls, hnone, h.1 hnone]
  | case4 l p rest hsome ih =>
    have hnone : l.fullTransactionId = none := hhead
    rw [spine, ih h.2.2 (by simpa using hsome) (cons_ne_nil _ _)]
    simp [spine, Level.fulls_of_none h hnone]

theorem assigned_assignTo (h : Assigned levels)
    (hhead : levels.head?.bind Level.fullTransactionId = none) :
    Assigned (assignTo full levels) := by
  fun_induction assignTo full levels with
  | case1 => trivial
  | case2 l => exact ⟨fun hnone => (some_ne_none _ hnone).elim, fun _ => by simp, trivial⟩
  | case3 l p rest hsome =>
    refine ⟨fun hnone => (some_ne_none _ hnone).elim, fun _ q hq => ?_, h.2.2⟩
    rcases mem_cons.mp hq with rfl | hrest
    · exact hsome
    · exact h.2.2.2.1 hsome q hrest
  | case4 l p rest hsome ih =>
    have hnone : l.fullTransactionId = none := hhead
    refine ⟨h.1, fun hl => ?_, ih h.2.2 (by simpa using hsome)⟩
    simp [hnone] at hl

theorem aborted_getLast_assignTo (full : Nat) (levels : List Level) :
    (assignTo full levels).getLast?.map Level.aborted =
      levels.getLast?.map Level.aborted := by
  fun_induction assignTo full levels with
  | case1 => rfl
  | case2 l => rfl
  | case3 l p rest hsome => rw [getLast?_cons_cons, getLast?_cons_cons]
  | case4 l p rest hsome ih =>
    rw [getLast?_cons_cons, ← ih]
    cases hrest : assignTo full (p :: rest) with
    | nil => cases rest <;> simp [assignTo] at hrest; split at hrest <;> cases hrest
    | cons q qs => rw [getLast?_cons_cons]

/-- A new id goes to the innermost level. -/
theorem TreeOk.assign {members : List Nat} {nextFull full : Nat}
    (h : TreeOk levels members nextFull)
    (hhead : levels.head?.bind Level.fullTransactionId = none) (hnext : nextFull ≤ full)
    (hnormal : isNormal (xidFromFull full) = true) (hnear : ∀ m ∈ members, full < m + 2 ^ 31) :
    TreeOk (assignTo full levels) (full :: members) (full + 1) := by
  have hne : levels ≠ [] := by
    rintro rfl
    obtain ⟨l, hlast, -⟩ := h.top
    cases hlast
  have hspine : spine (assignTo full levels) = spine levels ++ [full] :=
    spine_assignTo h.assigned hhead hne
  refine ⟨assigned_assignTo h.assigned hhead, ?_, ?_, ?_, ?_, ?_, ?_⟩
  · rw [hspine]
    refine pairwise_append.mpr ⟨h.sorted, pairwise_singleton _ _, fun a ha b hb => ?_⟩
    obtain rfl := mem_singleton.mp hb
    exact lt_of_lt_of_le (h.below a (h.mem a ha)) hnext
  · rw [hspine]
    exact forall_mem_append.mpr ⟨fun f hf => mem_cons_of_mem _ (h.mem f hf),
      forall_mem_singleton.mpr mem_cons_self⟩
  · intro m hm
    rcases mem_cons.mp hm with rfl | hold
    · exact Nat.lt_succ_self _
    · have := h.below m hold
      omega
  · exact forall_mem_cons.mpr ⟨hnormal, h.normal⟩
  · intro a ha b hb
    rcases mem_cons.mp ha with rfl | hold
    · rcases mem_cons.mp hb with rfl | hold
      · omega
      · exact hnear b hold
    · rcases mem_cons.mp hb with rfl | hold'
      · have := h.below a hold
        omega
      · exact h.near a hold b hold'
  · obtain ⟨l, hlast, hlive⟩ := h.top
    have hmap := aborted_getLast_assignTo full levels
    rw [hlast] at hmap
    obtain ⟨l', hl', haborted⟩ := map_eq_some_iff.mp hmap
    exact ⟨l', hl', haborted.trans hlive⟩

end Polar.SplitRead
