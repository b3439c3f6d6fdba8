import Polar.SplitRead.Steps

/-!
# A split read sees what the primary would see

On both sides a transaction is current when its id is one of those reported. The primary and the
parallel workers of the replica find all of them. The process that has begun the split searches an
array that is sorted by number as if it were sorted by `TransactionIdPrecedes`, and finds all of
them when they do not lie on both sides of the wraparound.
-/

namespace Polar.SplitRead

open List State Option
open State (init step)

theorem xidFromFull_xidFromFull (full : Nat) :
    xidFromFull (xidFromFull full) = xidFromFull full :=
  Nat.mod_mod _ _

variable {s : State} {info : Nat × List Nat}

/-- The ids of the report are the live ones. -/
theorem xactInfo_xids (h : s.xactInfo = some info) :
    info.1 = s.currentCommandId ∧ info.2.map xidFromFull = (live s.levels).map xidFromFull := by
  unfold xactInfo at h
  split at h
  · cases h
    refine ⟨rfl, ?_⟩
    unfold live
    rw [map_flatMap, map_flatMap]
    congr 1
    funext l
    simp [Level.fulls, Level.childXids, xidFromFull_xidFromFull]
  · cases h

namespace Split

variable {info : Nat × List Nat}

/-- The leader finds what is reported, when the ids after the first do not wrap around. -/
theorem isCurrent_iff (hnodup : (info.2.map xidFromFull).Nodup)
    (hnormal : ∀ x ∈ info.2.map xidFromFull, isNormal x = true ∧ x < 2 ^ 32)
    (hwrap : NoWrap (info.2.tail.map xidFromFull)) {x : Nat} :
    (splitBegin info).isCurrent x = true ↔ x ∈ info.2.map xidFromFull := by
  obtain ⟨cid, xids⟩ := info
  cases xids with
  | nil => simp [splitBegin, isCurrent]
  | cons full rest =>
    have hsearch := search_precedes_sortXids (nodup_cons.mp hnodup).2
      (fun y hy => hnormal y (mem_cons_of_mem _ hy)) hwrap (x := x)
    simp only [splitBegin, isCurrent, any_some, Bool.and_eq_true, Bool.or_eq_true,
      beq_iff_eq, hsearch, map_cons, mem_cons]
    constructor
    · rintro ⟨-, heq | hmem⟩
      · exact .inl heq.symm
      · exact .inr hmem
    · intro hx
      exact ⟨(hnormal x (mem_cons.mpr hx)).1, hx.imp_left Eq.symm⟩

/-- A parallel worker finds what is reported. -/
theorem isCurrentWorker_iff (hnodup : (info.2.map xidFromFull).Nodup)
    (hnormal : ∀ x ∈ info.2.map xidFromFull, isNormal x = true ∧ x < 2 ^ 32) {x : Nat} :
    (splitBegin info).isCurrentWorker x = true ↔ x ∈ info.2.map xidFromFull := by
  obtain ⟨cid, xids⟩ := info
  cases xids with
  | nil => simp [splitBegin, isCurrentWorker, parallelCurrentXids, sortXids, Base.search,
      Base.searchFrom]
  | cons full rest =>
    have hperm : (xidFromFull full :: sortXids (rest.map xidFromFull)).Perm
        ((full :: rest).map xidFromFull) :=
      (perm_insertionSort _ _).cons _
    have hsearch := search_lt_sortXids (hperm.nodup_iff.mpr hnodup) (x := x)
    rw [hperm.mem_iff] at hsearch
    constructor
    · intro h
      exact hsearch.mp (Bool.and_eq_true_iff.mp h).2
    · intro hx
      exact Bool.and_eq_true_iff.mpr ⟨(hnormal x hx).1, hsearch.mpr hx⟩

end Split

/-- The replica takes for current what the primary takes for current. -/
theorem isCurrent_split_eq (h : Inv s) (hinfo : s.xactInfo = some info) {worker : Bool}
    (hwrap : worker = true ∨ NoWrap (info.2.tail.map xidFromFull)) (replayed : Nat) (csn : Bool)
    (running : Nat → Bool) :
    ((splitBegin info).env s replayed worker csn running).isCurrent = s.isCurrent := by
  obtain ⟨-, hxids⟩ := xactInfo_xids hinfo
  have hnodup : (info.2.map xidFromFull).Nodup := hxids ▸ h.tree.nodup_live
  have hnormal : ∀ x ∈ info.2.map xidFromFull, isNormal x = true ∧ x < 2 ^ 32 := by
    rw [hxids]
    exact fun x => h.tree.live_normal
  funext x
  rw [Bool.eq_iff_iff, h.tree.isCurrent_iff, ← hxids]
  cases worker with
  | true => exact Split.isCurrentWorker_iff hnodup hnormal
  | false => exact Split.isCurrent_iff hnodup hnormal (hwrap.resolve_left Bool.false_ne_true)

namespace Inv

variable {s : State} {tup : Header}

variable (h : Inv s)
include h

theorem member_uncommitted {x : Nat} (hx : x ∈ s.memberXids) (lsn : Nat) :
    s.committedBy lsn x = false := by
  obtain ⟨m, hm, rfl⟩ := mem_map.mp hx
  rw [Bool.eq_false_iff]
  intro hcommitted
  obtain ⟨c, hc, heq, -⟩ := committedBy_iff.mp hcommitted
  exact h.uncommitted m hm c hc heq

/-- Between commands, a live member that has changed a tuple has done so in an earlier command. -/
theorem cid_lt (hcommand : s.command = none) {m cid : Nat} (hm : m ∈ s.members)
    (hcur : s.isCurrent (xidFromFull m) = true)
    (hcid : cid < s.currentCommandId ∨ m ∈ s.writers ∧ cid = s.currentCommandId) :
    cid < s.currentCommandId := by
  rcases hcid with hlt | ⟨hwriter, -⟩
  · exact hlt
  · obtain ⟨f, hf, heq⟩ := mem_map.mp (h.tree.isCurrent_iff.mp hcur)
    obtain rfl := h.tree.xid_inj (h.tree.mem f (mem_spine_of_live hf)) hm heq
    obtain ⟨l, hl, hlive, -, hmem⟩ := mem_live.mp hf
    exact absurd hwriter (h.quiet_of_none hcommand l hl hlive f hmem)

/-- The tuple is inserted or deleted by a member of the tree. -/
def Touched (s : State) (tup : Header) : Prop :=
  tup.xmin ∈ s.memberXids ∨ ∃ x ∈ s.memberXids, tup.deleter = some x

instance (s : State) (tup : Header) : Decidable (Touched s tup) :=
  inferInstanceAs (Decidable (_ ∨ _))

/-- What deletes a touched tuple is a member. -/
theorem deleter_mem (htup : tup ∈ s.heap) (htouched : Touched s tup) {x : Nat}
    (hdel : tup.deleter = some x) : x ∈ s.memberXids := by
  rcases htouched with hxmin | ⟨y, hy, hdel'⟩
  · exact ((h.heap tup htup).foreign x hdel).resolve_right (not_not_intro hxmin)
  · rw [hdel'] at hdel
    exact some.inj hdel ▸ hy

theorem settled (hcommand : s.command = none) (htup : tup ∈ s.heap)
    (htouched : Touched s tup) (lsn : Nat) :
    Settled s.isCurrent (s.committedBy lsn) tup s.currentCommandId where
  deleter x hdel := h.member_uncommitted (h.deleter_mem htup htouched hdel) lsn
  cmin hcur := by
    obtain ⟨m, hm, heq⟩ := mem_map.mp (h.member_of_isCurrent hcur)
    exact h.cid_lt hcommand hm (heq ▸ hcur) ((h.heap tup htup).inserter m hm heq.symm)
  cmax x hdel hcur := by
    obtain ⟨m, hm, rfl⟩ := mem_map.mp (h.member_of_isCurrent hcur)
    exact h.cid_lt hcommand hm hcur ((h.heap tup htup).deleter m hm hdel)

/-- The inserter of a touched tuple has committed before the last record of the session, or it has
not committed at all. -/
theorem committedBy_eq (htup : tup ∈ s.heap) (htouched : Touched s tup) {lsn : Nat}
    (hlsn : s.sessionLsn ≤ lsn) :
    s.committedBy lsn tup.xmin = s.committedBy s.sessionLsn tup.xmin := by
  have hmember : tup.xmin ∈ s.memberXids →
      s.committedBy lsn tup.xmin = s.committedBy s.sessionLsn tup.xmin := fun hxmin =>
    (h.member_uncommitted hxmin lsn).trans (h.member_uncommitted hxmin _).symm
  rcases htouched with hxmin | ⟨x, hx, hdel⟩
  · exact hmember hxmin
  · obtain ⟨m, hm, rfl⟩ := mem_map.mp hx
    rcases (h.heap tup htup).deleted m hm hdel with hxmin | hcommitted
    · exact hmember hxmin
    · rw [hcommitted, committedBy_mono hlsn hcommitted]

end Inv

/-- The hint bits of a tuple tell the truth on the primary. -/
def SoundPrimary (s : State) (tup : Header) (hints : Hints) : Prop :=
  hints.Sound (s.committedBy s.wal) s.isCurrent tup

/-- The hint bits of a tuple tell the truth on the replica. -/
def SoundReplica (s : State) (replayed : Nat) (tup : Header) (hints : Hints) : Prop :=
  hints.Sound (s.committedBy replayed) s.isCurrent tup

theorem Header.deleter_replayed (tup : Header) : tup.replayed.deleter = tup.deleter := rfl

variable {tup : Header}

/-- Redo loses the command ids, and the replica takes them for the first one. -/
theorem Settled.replayed {isCurrent committed : Nat → Bool} {curcid : Nat}
    (h : Settled isCurrent committed tup curcid) :
    Settled isCurrent committed tup.replayed curcid where
  deleter := h.deleter
  cmin hcur := Nat.zero_lt_of_lt (h.cmin hcur)
  cmax x hdel hcur := Nat.zero_lt_of_lt (h.cmax x hdel hcur)

theorem knows_of_running {env : Env} {committed running : Nat → Bool}
    (hsnapshot : env.inSnapshot = fun x => running x && !committed x)
    (hdid : env.didCommit = committed) (hcsn : env.visibleCSN = committed)
    (hcsn' : env.committedVisibleCSN = committed) : env.Knows committed where
  sees x := by
    unfold Env.sees
    rw [hsnapshot, hdid, hcsn]
    cases env.csn <;> cases hx : committed x <;> simp [hx]
  seesCommitted x hx := by
    unfold Env.seesCommitted
    rw [hsnapshot, hcsn']
    cases env.csn <;> simp [hx]

/-- The command id of the split is the reported one, and without an id nothing is current. -/
theorem settled_splitBegin (h : Inv s) (hinfo : s.xactInfo = some info) {committed : Nat → Bool}
    (hsettled : Settled s.isCurrent committed tup s.currentCommandId) :
    Settled s.isCurrent committed tup.replayed (splitBegin info).currentCommandId := by
  obtain ⟨hcid, hxids⟩ := xactInfo_xids hinfo
  obtain ⟨cid, xids⟩ := info
  cases xids with
  | nil =>
    have hnone : ∀ x, s.isCurrent x ≠ true := by
      intro x hx
      have hmem := h.tree.isCurrent_iff.mp hx
      rw [← hxids] at hmem
      cases hmem
    exact ⟨hsettled.deleter, fun hcur => absurd hcur (hnone _),
      fun x _ hcur => absurd hcur (hnone x)⟩
  | cons full rest =>
    obtain rfl : cid = s.currentCommandId := hcid
    exact hsettled.replayed

/-- For every point between commands, every tuple that a member has written or deleted, and every
position that the replica has replayed at least up to what the session has logged, the answer on the
replica is the one on the primary: in parallel workers, and in the leader when the ids after the
first do not lie on both sides of the wraparound. -/
theorem split_read_eq {nextFull wal : Nat} {commits : List (Nat × Nat)} {s : State}
    (run : Reaches step (fun _ _ => True) (init nextFull wal commits) s)
    (hcommand : s.command = none) {info : Nat × List Nat} (hinfo : s.xactInfo = some info)
    {tup : Header} (htup : tup ∈ s.heap) (htouched : Inv.Touched s tup)
    {replayed : Nat} (hreplayed : s.sessionLsn ≤ replayed) {worker : Bool}
    (hwrap : worker = true ∨ NoWrap (info.2.tail.map xidFromFull))
    (csn csn' : Bool) (running running' : Nat → Bool) {hints hints' : Hints}
    (hhints : SoundPrimary s tup hints) (hhints' : SoundReplica s replayed tup hints') :
    ((splitBegin info).env s replayed worker csn' running').satisfiesMVCC tup.replayed hints' =
      (s.env csn running).satisfiesMVCC tup hints := by
  have h := inv_run run (inv_init nextFull wal commits)
  have hcurrent := isCurrent_split_eq h hinfo hwrap replayed csn' running'
  have hprimary : (s.env csn running).satisfiesMVCC tup hints =
      ownAnswer s.isCurrent (s.committedBy s.wal) tup :=
    Env.satisfiesMVCC_eq (knows_of_running rfl rfl rfl rfl) hhints
      (h.settled hcommand htup htouched s.wal)
  have hreplica : ((splitBegin info).env s replayed worker csn' running').satisfiesMVCC tup.replayed
      hints' = ownAnswer s.isCurrent (s.committedBy replayed) tup.replayed := by
    rw [← hcurrent]
    refine Env.satisfiesMVCC_eq (knows_of_running rfl rfl rfl rfl) ?_ ?_
    · rw [hcurrent]
      exact { hhints' with }
    · rw [hcurrent]
      exact settled_splitBegin h hinfo (h.settled hcommand htup htouched replayed)
  rw [hprimary, hreplica]
  unfold ownAnswer
  rw [Header.deleter_replayed]
  change ((s.isCurrent tup.xmin || s.committedBy replayed tup.xmin) && _) = _
  rw [h.committedBy_eq htup htouched hreplayed, h.committedBy_eq htup htouched h.session]

/-- Two savepoints with an inserted row each, both released. The ids are those before the
wraparound, or those on both sides of it. -/
def twoSavepoints (others : Nat) : List Op :=
  [.begin, .assign 0, .finish,
    .start, .begin, .assign 0, .insert 10 none, .finish, .release,
    .start, .begin, .assign others, .insert 10 none, .finish, .release]

/-- The hint bits of a row that has just been inserted. -/
def freshHints : Hints := ⟨false, false, false, true⟩

theorem freshHints_sound {committed isCurrent : Nat → Bool}
    (hdel : tup.deleter = none) : freshHints.Sound committed isCurrent tup where
  xminCommitted h := by cases h
  xminInvalid h := by cases h
  xmaxCommitted h := by cases h
  xmaxInvalid _ x hx := by rw [hdel] at hx; cases hx
  no_xmax _ _ := rfl

/-- The first of two rows, as the primary has it. -/
def firstRow (xid : Nat) : Header := ⟨xid, 0, 0, 0, 0, false, false⟩

/-- What the runs below have in common. -/
theorem twoSavepoints_run (nextFull others xid : Nat) (xids : List Nat)
    (hview : (exec step (init nextFull 0 []) (twoSavepoints others)).map (fun s =>
        (s.command, s.xactInfo, s.heap.head?, decide (xid ∈ s.memberXids ∧ s.sessionLsn ≤ s.wal))) =
      some (none, some (2, xids), some (firstRow xid), true)) :
    ∃ s, exec step (init nextFull 0 []) (twoSavepoints others) = some s ∧
      Reaches step (fun _ _ => True) (init nextFull 0 []) s ∧
      s.command = none ∧ s.xactInfo = some (2, xids) ∧ firstRow xid ∈ s.heap ∧
      Inv.Touched s (firstRow xid) ∧ s.sessionLsn ≤ s.wal := by
  obtain ⟨s, hs, heq⟩ := map_eq_some_iff.mp hview
  simp only [Prod.mk.injEq, decide_eq_true_eq] at heq
  obtain ⟨hcommand, hinfo, hhead, hmember, hlsn⟩ := heq
  exact ⟨s, hs, reaches_of_exec hs fun _ _ _ => trivial, hcommand, hinfo,
    mem_of_head? hhead, .inl hmember, hlsn⟩

/-- With ids before the wraparound both rows are seen on the replica. -/
theorem split_read_eq_twoSavepoints : ∃ s,
    Reaches step (fun _ _ => True) (init 100 0 []) s ∧
      s.xactInfo = some (2, [100, 101, 102]) ∧ firstRow 101 ∈ s.heap ∧
      ((splitBegin (2, [100, 101, 102])).env s s.wal false true fun _ => true).satisfiesMVCC
          (firstRow 101).replayed freshHints =
        (s.env false fun _ => true).satisfiesMVCC (firstRow 101) freshHints := by
  obtain ⟨s, -, run, hcommand, hinfo, hrow, htouched, hlsn⟩ :=
    twoSavepoints_run 100 0 101 [100, 101, 102] (by decide +kernel)
  exact ⟨s, run, hinfo, hrow, split_read_eq run hcommand hinfo hrow htouched hlsn
    (.inr (by decide)) false true (fun _ => true) (fun _ => true)
    (freshHints_sound rfl) (freshHints_sound rfl)⟩

/-- With ids on both sides of the wraparound the leader on the replica does not see the first
row. -/
theorem split_read_wrapped : ∃ s info,
    Reaches step (fun _ _ => True) (init 4294967294 0 []) s ∧ s.command = none ∧
      s.xactInfo = some info ∧ firstRow 4294967295 ∈ s.heap ∧
      Inv.Touched s (firstRow 4294967295) ∧ s.sessionLsn ≤ s.wal ∧
      SoundPrimary s (firstRow 4294967295) freshHints ∧
      SoundReplica s s.wal (firstRow 4294967295) freshHints ∧
      (s.env false fun _ => true).satisfiesMVCC (firstRow 4294967295) freshHints = true ∧
      ((splitBegin info).env s s.wal false false fun _ => true).satisfiesMVCC
        (firstRow 4294967295).replayed freshHints = false := by
  obtain ⟨s, hs, run, hcommand, hinfo, hrow, htouched, hlsn⟩ :=
    twoSavepoints_run 4294967294 3 4294967295 [4294967294, 4294967295, 3] (by decide +kernel)
  have hview : (exec step (init 4294967294 0 []) (twoSavepoints 3)).map (fun s =>
      ((s.env false fun _ => true).satisfiesMVCC (firstRow 4294967295) freshHints,
        ((splitBegin (2, [4294967294, 4294967295, 3])).env s s.wal false false
          fun _ => true).satisfiesMVCC (firstRow 4294967295).replayed freshHints)) =
      some (true, false) := by
    decide +kernel
  rw [hs, map_some, some_inj, Prod.mk.injEq] at hview
  exact ⟨s, _, run, hcommand, hinfo, hrow, htouched, hlsn, freshHints_sound rfl,
    freshHints_sound rfl, hview.1, hview.2⟩

end Polar.SplitRead
