import Polar.SplitRead.Invariant

/-!
# The steps keep the invariant
-/

namespace Polar.SplitRead

open Option (map_eq_some_iff bind_eq_some_iff)

open List State

namespace Inv

variable {s : State}

/-! ## The stack -/

variable {levels : List Level}

theorem setStack (h : Inv s) {command : Option Nat} (htree : TreeOk levels s.members s.nextFull)
    (hbase : ∀ base, command = some base → base < levels.length)
    (hquiet : Quiet s.writers (quietLevels command levels)) :
    Inv { s with levels := levels, command := command } where
  tree := htree
  writers_mem := h.writers_mem
  unused := h.unused
  base_lt := hbase
  quiet := hquiet
  uncommitted := h.uncommitted
  session := h.session
  heap := h.heap

theorem begin (h : Inv s) {l : Level} {rest : List Level} (hlevels : s.levels = l :: rest)
    (hcommand : s.command = none) : Inv { s with command := some (s.levels.length - 1) } := by
  have hquiet := h.quiet
  rw [hcommand, hlevels] at hquiet
  refine h.setStack h.tree ?_ ?_
  · rintro base ⟨⟩
    simp [hlevels]
  · rw [hlevels]
    change Quiet s.writers (outer rest.length (l :: rest))
    rw [outer_cons l le_rfl, outer_length]
    exact hquiet.mono fun p hp => mem_cons_of_mem l hp

theorem fail (h : Inv s) {l p : Level} {rest : List Level} (hlevels : s.levels = l :: p :: rest)
    (hcommand : s.command = some (p :: rest).length) :
    Inv { s with
      levels := { l with children := [], aborted := true } :: p :: rest, command := none } := by
  have htree := h.tree
  have hquiet := h.quiet
  rw [hlevels] at htree hquiet
  rw [hcommand, quietLevels, outer_cons l le_rfl, outer_length] at hquiet
  exact h.setStack htree.abort nofun (hquiet.cons_aborted rfl)

theorem start (h : Inv s) : Inv { s with levels := ⟨none, [], false⟩ :: s.levels } := by
  refine h.setStack h.tree.start ?_ ?_
  · intro base hbase
    have := h.base_lt base hbase
    simp only [length_cons]
    omega
  · have hquiet := h.quiet
    have hlt := h.base_lt
    revert hquiet hlt
    cases s.command with
    | none =>
      intro hquiet _ p hp hlive f hf
      rcases mem_cons.mp hp with rfl | hrest
      · simp [Level.fulls] at hf
      · exact hquiet p hrest hlive f hf
    | some base =>
      intro hquiet hlt
      have := hlt base rfl
      rwa [quietLevels, outer_cons _ (by omega)]

variable {l p : Level} {rest : List Level}

/-- The levels below the command stay when the two levels at the current end become one or stay
two. -/
theorem quiet_replace (h : Inv s) (hlevels : s.levels = l :: p :: rest) (hpop : s.mayPop = true)
    (hnone : s.command = none → Quiet s.writers levels)
    (hsome : ∀ base, base ≤ rest.length → outer base levels = outer base rest) :
    Quiet s.writers (quietLevels s.command levels) := by
  have hquiet := h.quiet
  have hlt := mayPop_iff.mp hpop
  rw [hlevels] at hquiet hlt
  revert hquiet hlt hnone
  cases s.command with
  | none => exact fun hnone _ _ => hnone rfl
  | some base =>
    intro _ hquiet hlt
    have hle : base ≤ rest.length := by
      have := hlt base rfl
      simp only [length_cons] at this
      omega
    rw [quietLevels, outer_cons l (by rw [length_cons]; omega), outer_cons p hle] at hquiet
    rwa [quietLevels, hsome base hle]

theorem quiet_of_none (h : Inv s) (hcommand : s.command = none) : Quiet s.writers s.levels := by
  have hquiet := h.quiet
  rwa [hcommand] at hquiet

theorem base_lt_of_mayPop (hlevels : s.levels = l :: p :: rest) (hpop : s.mayPop = true)
    (base : Nat) (hbase : s.command = some base) : base < rest.length + 1 := by
  have := mayPop_iff.mp hpop base hbase
  rw [hlevels] at this
  simpa using this

theorem abort (h : Inv s) (hlevels : s.levels = l :: p :: rest) (hpop : s.mayPop = true) :
    Inv { s with levels := { l with children := [], aborted := true } :: p :: rest } := by
  have htree := h.tree
  rw [hlevels] at htree
  refine h.setStack htree.abort ?_ (h.quiet_replace hlevels hpop ?_ ?_)
  · intro base hbase
    have := base_lt_of_mayPop hlevels hpop base hbase
    simp only [length_cons]
    omega
  · intro hcommand
    refine Quiet.cons_aborted ((h.quiet_of_none hcommand).mono fun q hq => ?_) rfl
    exact hlevels ▸ mem_cons_of_mem l hq
  · intro base hle
    rw [outer_cons _ (by rw [length_cons]; omega), outer_cons p hle]

theorem pop (h : Inv s) (hlevels : s.levels = l :: p :: rest) (hpop : s.mayPop = true) :
    Inv { s with levels := p :: rest } := by
  have htree := h.tree
  rw [hlevels] at htree
  refine h.setStack htree.cleanup (base_lt_of_mayPop hlevels hpop)
    (h.quiet_replace hlevels hpop ?_ fun base hle => outer_cons p hle)
  intro hcommand
  exact (h.quiet_of_none hcommand).mono fun q hq => hlevels ▸ mem_cons_of_mem l hq

theorem release (h : Inv s) (hlevels : s.levels = l :: p :: rest) (hpop : s.mayPop = true)
    (hlive : l.aborted = false) (hsome : l.fullTransactionId.isSome = true) :
    Inv { s with levels := { p with children := p.children ++ l.fulls } :: rest } := by
  have htree := h.tree
  rw [hlevels] at htree
  refine h.setStack (htree.release hsome) (base_lt_of_mayPop hlevels hpop)
    (h.quiet_replace hlevels hpop ?_ fun base hle => outer_cons _ hle)
  intro hcommand q hq hq' f hf
  have hquiet := h.quiet_of_none hcommand
  rw [hlevels] at hquiet
  rcases mem_cons.mp hq with rfl | hrest
  · -- What the parent has now was its own or the child's.
    have hf' : f ∈ p.fulls ∨ f ∈ l.fulls := by
      simpa [Level.fulls, or_assoc] using hf
    rcases hf' with hp | hl
    · exact hquiet p (by simp) hq' f hp
    · exact hquiet l (by simp) hlive f hl
  · exact hquiet q (by simp [hrest]) hq' f hf

theorem quiet_assign {full : Nat} {writers : List Nat}
    {command : Option Nat} (h : Quiet writers (quietLevels command levels)) (hfull : full ∉ writers)
    (hfrom : List.Forall₂ (AssignedFrom full) (assignTo full levels) levels) :
    Quiet writers (quietLevels command (assignTo full levels)) := by
  have hrel : List.Forall₂ (AssignedFrom full) (quietLevels command (assignTo full levels))
      (quietLevels command levels) := by
    cases command with
    | none => exact hfrom
    | some base =>
      have hlength := hfrom.length_eq
      unfold quietLevels outer
      rw [hlength]
      exact forall₂_drop _ hfrom
  intro l' hl' hlive f hf hw
  obtain ⟨i, hi, rfl⟩ := getElem_of_mem hl'
  obtain ⟨haborted, hfulls⟩ := hrel.get hi (hrel.length_eq ▸ hi)
  rcases hfulls f hf with hold | rfl
  · exact h _ (get_mem _ _) (haborted ▸ hlive) f hold hw
  · exact hfull hw

theorem assign (h : Inv s) {full : Nat} (hhead : s.levels.head?.bind Level.fullTransactionId = none)
    (hnext : s.nextFull ≤ full) (hnormal : isNormal (xidFromFull full) = true)
    (hnear : ∀ m ∈ s.members, full < m + 2 ^ 31) (huses : s.usesXid (xidFromFull full) = false) :
    Inv { s with
      levels := assignTo full s.levels, nextFull := full + 1, members := full :: s.members } := by
  have hfrom : List.Forall₂ (AssignedFrom full) (assignTo full s.levels) s.levels :=
    assignTo_from h.tree.assigned hhead
  simp only [usesXid, Bool.or_eq_false_iff, any_eq_false] at huses
  obtain ⟨hcommits, hheap⟩ := huses
  refine ⟨h.tree.assign hhead hnext hnormal hnear, ?_, h.unused, ?_, ?_, ?_, h.session, ?_⟩
  · intro w hw
    exact mem_cons_of_mem _ (h.writers_mem w hw)
  · intro base hbase
    exact hfrom.length_eq ▸ h.base_lt base hbase
  · refine quiet_assign h.quiet (fun hw => ?_) hfrom
    have := h.tree.below full (h.writers_mem full hw)
    omega
  · intro m hm c hc
    rcases mem_cons.mp hm with rfl | hold
    · simpa using hcommits c hc
    · exact h.uncommitted m hold c hc
  · intro tup htup
    have hnot : ¬ (tup.xmin = xidFromFull full ∨ tup.deleter = some (xidFromFull full)) := by
      simpa using hheap tup htup
    exact (h.heap tup htup).assign (fun heq => hnot (.inl heq)) fun heq => hnot (.inr heq)

/-! ## The heap -/

section

variable (h : Inv s)
include h

variable {splittable : Bool}

theorem setHeap {heap : List Header} (hheap : ∀ tup ∈ heap,
      TupleOk s.members s.writers s.currentCommandId (s.committedBy s.sessionLsn) tup) :
    Inv { s with heap := heap, splittable := splittable } where
  tree := h.tree
  writers_mem := h.writers_mem
  unused := h.unused
  base_lt := h.base_lt
  quiet := h.quiet
  uncommitted := h.uncommitted
  session := h.session
  heap := hheap

variable {i : Nat} {tup : Header}

theorem setTuple
    (htup : TupleOk s.members s.writers s.currentCommandId (s.committedBy s.sessionLsn) tup) :
    Inv { s with heap := s.heap.set i tup, splittable := splittable } := by
  refine h.setHeap fun t ht => ?_
  rcases mem_or_eq_of_mem_set ht with hold | rfl
  · exact h.heap t hold
  · exact htup

theorem addTuple
    (htup : TupleOk s.members s.writers s.currentCommandId (s.committedBy s.sessionLsn) tup) :
    Inv { s with heap := s.heap ++ [tup] } := by
  exact h.setHeap (forall_mem_append.mpr ⟨h.heap, forall_mem_singleton.mpr htup⟩)

variable {full : Nat}

section

variable (hwriter : s.writer? = some full)
include hwriter

theorem writer_mem : full ∈ s.members := by
  obtain ⟨base, l, rest, -, hlevels, hfull⟩ := writer?_eq_some hwriter
  refine h.tree.mem full (mem_spine.mpr ⟨l, by simp [hlevels], ?_⟩)
  simp [Level.fulls, hfull]

/-- The writer is the current level, and its id is after all that are below. -/
theorem write (len : Nat) : Inv (s.write full len) where
  tree := h.tree
  writers_mem w hw := by
    rcases mem_cons.mp hw with rfl | hold
    · exact h.writer_mem hwriter
    · exact h.writers_mem w hold
  unused hused := by cases hused
  base_lt := h.base_lt
  quiet := by
    obtain ⟨base, l, rest, hcommand, hlevels, hfull⟩ := writer?_eq_some hwriter
    have hquiet := h.quiet
    have hlt := h.base_lt base hcommand
    have hsorted := h.tree.sorted
    rw [hlevels] at hquiet hlt hsorted
    have hle : base ≤ rest.length := Nat.le_of_lt_succ hlt
    rw [hcommand, quietLevels, outer_cons l hle] at hquiet
    change Quiet (full :: s.writers) (quietLevels s.command s.levels)
    rw [hcommand, hlevels, quietLevels, outer_cons l hle]
    intro p hp hlive f hf hw
    rcases mem_cons.mp hw with rfl | hold
    · have hbelow : f ∈ spine rest := mem_spine.mpr ⟨p, mem_of_mem_drop hp, hf⟩
      have hself : f ∈ l.fulls := by simp [Level.fulls, hfull]
      exact lt_irrefl f ((pairwise_append.mp hsorted).2.2 f hbelow f hself)
    · exact hquiet p hp hlive f hf hold
  uncommitted := h.uncommitted
  session := le_rfl
  heap tup htup := (h.heap tup htup).mono (fun w hw => mem_cons_of_mem _ hw)
    fun x hx => committedBy_mono (h.session.trans (Nat.le_add_right _ _)) hx

theorem insert (len : Nat) (lockers : Option Nat) :
    Inv { s.write full len with
      heap := s.heap ++ [⟨xidFromFull full, s.currentCommandId, lockers.getD 0, 0, 0, false,
        lockers.isSome⟩] } := by
  refine (h.write hwriter len).addTuple (TupleOk.of_deleter_none ?_ ?_)
  · intro m hm heq
    obtain rfl := h.tree.xid_inj (h.writer_mem hwriter) hm heq
    exact .inr ⟨mem_cons_self, rfl⟩
  · cases lockers <;> simp [Header.deleter]

theorem lock (len : Nat) (htup : tup ∈ s.heap) :
    Inv { s.write full len with
      heap := s.heap.set i { tup with
        xmax := xidFromFull full, xmaxIsMulti := false, xmaxLockedOnly := true } } := by
  have hinv := h.write hwriter len
  refine hinv.setTuple (TupleOk.of_deleter_none ?_ rfl)
  exact (hinv.heap tup htup).inserter

omit hwriter in
theorem member_of_isCurrent {x : Nat} (hx : s.isCurrent x = true) : x ∈ s.memberXids := by
  obtain ⟨f, hf, rfl⟩ := mem_map.mp (h.tree.isCurrent_iff.mp hx)
  exact mem_map_of_mem (h.tree.mem f (mem_spine_of_live hf))

theorem delete (len : Nat) (htup : tup ∈ s.heap)
    (hmodify : s.canModify tup = true) (multi : Option Nat) :
    Inv { s.write full len with
      heap := s.heap.set i { tup with
        xmax := multi.getD (xidFromFull full)
        cmax := s.currentCommandId
        updateXid := xidFromFull full
        xmaxIsMulti := multi.isSome
        xmaxLockedOnly := false }
      splittable := splittable } := by
  have hinv := h.write hwriter len
  have hmember := h.writer_mem hwriter
  have hnormal : 3 ≤ xidFromFull full := by simpa [isNormal] using h.tree.normal full hmember
  have hdel : Header.deleter { tup with
      xmax := multi.getD (xidFromFull full)
      cmax := s.currentCommandId
      updateXid := xidFromFull full
      xmaxIsMulti := multi.isSome
      xmaxLockedOnly := false } = some (xidFromFull full) := by
    cases multi with
    | none =>
      have : xidFromFull full ≠ 0 := by omega
      simp [Header.deleter, this]
    | some x => simp [Header.deleter]
  refine hinv.setTuple ⟨(hinv.heap tup htup).inserter, ?_, ?_, ?_⟩
  · intro m hm heq
    rw [hdel] at heq
    obtain rfl := h.tree.xid_inj hmember hm (Option.some.inj heq)
    exact .inr ⟨mem_cons_self, rfl⟩
  · intro m _ _
    obtain ⟨hthere, -⟩ := Bool.and_eq_true_iff.mp hmodify
    rcases Bool.or_eq_true_iff.mp hthere with hcur | hcommitted
    · exact .inl (h.member_of_isCurrent hcur)
    · exact .inr (committedBy_mono (Nat.le_add_right _ _) hcommitted)
  · intro x hx
    rw [hdel] at hx
    exact .inl (Option.some.inj hx ▸ mem_map_of_mem hmember)

end

theorem foreignInsert {xid cmin : Nat} (hxid : xid ∉ s.memberXids) :
    Inv { s with heap := s.heap ++ [⟨xid, cmin, 0, 0, 0, false, false⟩] } := by
  refine h.addTuple (TupleOk.of_deleter_none (fun m hm heq => ?_) rfl)
  exact absurd (mem_map.mpr ⟨m, hm, heq.symm⟩) hxid

theorem foreignDelete {i xid cmax : Nat} (hxid : xid ∉ s.memberXids)
    (hxmin : tup.xmin ∉ s.memberXids) :
    Inv { s with heap := s.heap.set i { tup with
      xmax := xid, cmax := cmax, xmaxIsMulti := false, xmaxLockedOnly := false } } := by
  have hdel : ∀ x, Header.deleter { tup with
      xmax := xid, cmax := cmax, xmaxIsMulti := false, xmaxLockedOnly := false } = some x →
      x = xid := by
    intro x hx
    by_cases hzero : xid = 0
    · simp [Header.deleter, hzero] at hx
    · simpa [Header.deleter, hzero, eq_comm] using hx
  have hnot : ∀ m ∈ s.members, Header.deleter { tup with
      xmax := xid, cmax := cmax, xmaxIsMulti := false, xmaxLockedOnly := false } ≠
      some (xidFromFull m) := by
    intro m hm heq
    exact hxid (hdel _ heq ▸ mem_map_of_mem hm)
  refine h.setTuple ⟨fun m hm heq => ?_, fun m hm heq => absurd heq (hnot m hm),
    fun m hm heq => absurd heq (hnot m hm), fun x _ => .inr hxmin⟩
  exact absurd (mem_map.mpr ⟨m, hm, heq.symm⟩) hxmin

theorem foreignLock {i multi : Nat} (htup : tup ∈ s.heap) :
    Inv { s with heap := s.heap.set i (match tup.deleter with
      | some x => { tup with xmax := multi, updateXid := x, xmaxIsMulti := true }
      | none => { tup with xmax := multi, xmaxLockedOnly := true }) } := by
  have hok := h.heap tup htup
  refine h.setTuple ?_
  split
  · next x hx =>
    have hlocked : tup.xmaxLockedOnly = false := by
      by_contra hlocked
      simp [Header.deleter, hlocked] at hx
    exact hok.of_deleter_eq rfl rfl rfl (by rw [hx]; simp [Header.deleter, hlocked])
  · exact TupleOk.of_deleter_none hok.inserter rfl

end

/-! ## Command ids and WAL -/

theorem increment (h : Inv s) : Inv s.increment := by
  unfold State.increment
  split
  · exact { h with
      writers_mem := fun w hw => absurd hw not_mem_nil, unused := fun _ => rfl,
      quiet := Quiet.nil _, heap := fun tup htup => (h.heap tup htup).increment }
  · exact h

/-- After a command that has not failed nothing is written with the current command id. -/
theorem finish (h : Inv s) : Inv { s.increment with command := none } := by
  have hwriters : s.increment.writers = [] := by
    unfold State.increment
    split
    · rfl
    · next hused => exact h.unused (by simpa using hused)
  refine h.increment.setStack h.increment.tree nofun ?_
  rw [hwriters]
  exact Quiet.nil _

theorem commit (h : Inv s) {xid len : Nat} (hxid : xid ∉ s.memberXids) :
    Inv { s with wal := s.wal + len, commits := s.commits ++ [(xid, s.wal + len)] } where
  tree := h.tree
  writers_mem := h.writers_mem
  unused := h.unused
  base_lt := h.base_lt
  quiet := h.quiet
  uncommitted m hm := forall_mem_append.mpr ⟨h.uncommitted m hm,
    forall_mem_singleton.mpr fun heq => hxid (mem_map.mpr ⟨m, hm, heq.symm⟩)⟩
  session := h.session.trans (Nat.le_add_right _ _)
  heap tup htup := (h.heap tup htup).mono (fun _ hw => hw) fun x hx => by
    obtain ⟨c, hc, hmatch⟩ := committedBy_iff.mp hx
    exact committedBy_iff.mpr ⟨c, mem_append_left _ hc, hmatch⟩

theorem log (h : Inv s) (len : Nat) (own : Bool) :
    Inv { s with
      wal := s.wal + len, sessionLsn := if own then s.wal + len else s.sessionLsn } where
  tree := h.tree
  writers_mem := h.writers_mem
  unused := h.unused
  base_lt := h.base_lt
  quiet := h.quiet
  uncommitted := h.uncommitted
  session := by
    have := h.session
    dsimp only
    split <;> omega
  heap tup htup := by
    refine (h.heap tup htup).mono (fun _ hw => hw) fun x hx => committedBy_mono ?_ hx
    have := h.session
    dsimp only
    split <;> omega

end Inv

/-- Every step keeps the invariant. -/
theorem inv_step {s t : State} {op : Op} (h : Inv s) (hs : s.step op = some t) : Inv t := by
  cases op <;> simp only [step] at hs
  case begin =>
    split at hs
    · next hcommand =>
      obtain ⟨l, hl, rfl⟩ := map_eq_some_iff.mp hs
      obtain ⟨rest, hlevels, -⟩ := current?_eq_some hl
      exact h.begin hlevels hcommand
    · cases hs
  case finish =>
    split at hs
    · obtain ⟨l, -, rfl⟩ := map_eq_some_iff.mp hs
      exact h.finish
    · cases hs
  case fail =>
    split at hs
    · next l p rest hlevels =>
      split at hs <;> cases hs
      next hcommand => exact h.fail hlevels hcommand
    · cases hs
  case start =>
    obtain ⟨l, -, rfl⟩ := map_eq_some_iff.mp hs
    exact h.start
  case assign others =>
    obtain ⟨l, hl, hs⟩ := bind_eq_some_iff.mp hs
    obtain ⟨rest, hlevels, -⟩ := current?_eq_some hl
    split at hs <;> cases hs
    next hguard =>
    obtain ⟨hnone, hnormal, hnear, huses⟩ := hguard
    refine h.assign ?_ (Nat.le_add_right _ _) hnormal hnear huses
    rwa [hlevels]
  case release =>
    split at hs
    · next l p rest hlevels =>
      split at hs
      · cases hs
      · next hguard =>
        simp only [Bool.or_eq_true, Bool.not_eq_true', not_or, Bool.not_eq_true,
          Bool.not_eq_false] at hguard
        split at hs <;> cases hs
        · next hsome => exact h.release hlevels hguard.2 hguard.1 hsome
        · exact h.pop hlevels hguard.2
    · cases hs
  case abort =>
    split at hs
    · next l p rest hlevels =>
      split at hs <;> cases hs
      next hguard =>
      simp only [Bool.or_eq_true, Bool.not_eq_true', not_or, Bool.not_eq_true,
        Bool.not_eq_false] at hguard
      exact h.abort hlevels hguard.2
    · cases hs
  case cleanup =>
    split at hs
    · next l p rest hlevels =>
      split at hs <;> cases hs
      next hguard => exact h.pop hlevels (Bool.and_eq_true_iff.mp hguard).2
    · cases hs
  case insert len lockers =>
    obtain ⟨full, hwriter, rfl⟩ := map_eq_some_iff.mp hs
    exact h.insert hwriter len lockers
  case delete i len multi =>
    obtain ⟨full, hwriter, hs⟩ := bind_eq_some_iff.mp hs
    obtain ⟨tup, htup, hs⟩ := bind_eq_some_iff.mp hs
    split at hs
    · next hmodify =>
      cases hs
      exact h.delete hwriter len (mem_of_getElem? htup) hmodify multi
    · cases hs
  case lock i len =>
    obtain ⟨full, hwriter, hs⟩ := bind_eq_some_iff.mp hs
    obtain ⟨tup, htup, hs⟩ := bind_eq_some_iff.mp hs
    split at hs <;> cases hs
    exact h.lock hwriter len (mem_of_getElem? htup)
  case commandCounterIncrement =>
    cases hs
    exact h.increment
  case foreignInsert xid cmin =>
    split at hs <;> cases hs
    next hxid => exact h.foreignInsert hxid
  case foreignDelete i xid cmax =>
    obtain ⟨tup, htup, hs⟩ := bind_eq_some_iff.mp hs
    split at hs <;> cases hs
    next hguard =>
    obtain ⟨hxid, hxmin, -⟩ := not_or.mp hguard |>.imp_right not_or.mp
    exact h.foreignDelete hxid hxmin
  case foreignLock i multi =>
    obtain ⟨tup, htup, rfl⟩ := map_eq_some_iff.mp hs
    exact h.foreignLock (mem_of_getElem? htup)
  case commit xid len =>
    split at hs <;> cases hs
    next hxid => exact h.commit hxid
  case log len own =>
    cases hs
    exact h.log len own

theorem inv_run {s t : State} (run : Reaches State.step (fun _ _ => True) s t) (h : Inv s) :
    Inv t :=
  run.invariant Inv h fun _ _ _ hinv _ hs => inv_step hinv hs

end Polar.SplitRead
