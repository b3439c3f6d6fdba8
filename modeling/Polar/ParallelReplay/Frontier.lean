import Polar.ParallelReplay.Invariant

/-!
# The oldest replayed LSN

The dispatcher reads the frontier and then the announcements of the backends. A backend that
announces itself after the frontier was read announces at least that frontier, and one that did so
before is found by the scan.
-/

namespace Polar.ParallelReplay

open Option

/-- The dispatcher has read the frontier, and scanned the backends before the given one. -/
structure Scanned (oldest bgReplayed : Nat) (backends : List Backend) (bg i result : Nat) : Prop where
  bg_le : bg ≤ bgReplayed
  oldest_le : oldest ≤ bg
  result_ge : result ≠ 0 → oldest ≤ result
  passed : ∀ q x, backends[q]? = some x → x.readMin ≠ 0 → q < i →
    bg ≤ x.readMin ∨ (result ≠ 0 ∧ result ≤ x.readMin)

namespace Scanned

variable {oldest bgReplayed bg i result : Nat} {backends : List Backend}

theorem grow (h : Scanned oldest bgReplayed backends bg i result) {bgReplayed' : Nat}
    (hle : bgReplayed ≤ bgReplayed') : Scanned oldest bgReplayed' backends bg i result :=
  { h with bg_le := h.bg_le.trans hle }

theorem minReplayLsn_le (result readMin : Nat) (h : readMin ≠ 0) :
    minReplayLsn result readMin ≠ 0 ∧ minReplayLsn result readMin ≤ readMin := by
  unfold minReplayLsn
  split
  · exact ⟨h, le_rfl⟩
  · next hnot => omega

theorem minReplayLsn_le_left (result readMin : Nat) (h : result ≠ 0) :
    minReplayLsn result readMin ≠ 0 ∧ minReplayLsn result readMin ≤ result := by
  unfold minReplayLsn
  split
  · next hor => omega
  · exact ⟨h, le_rfl⟩

theorem minReplayLsn_eq (result readMin : Nat) :
    minReplayLsn result readMin = readMin ∨ minReplayLsn result readMin = result := by
  unfold minReplayLsn
  split
  · exact .inl rfl
  · exact .inr rfl

section

variable (h : Scanned oldest bgReplayed backends bg i result)
include h

theorem next {x : Backend}
    (hx : backends[i]? = some x) (hannounced : x.readMin ≠ 0 → oldest ≤ x.readMin) :
    Scanned oldest bgReplayed backends bg (i + 1) (minReplayLsn result x.readMin) where
  bg_le := h.bg_le
  oldest_le := h.oldest_le
  result_ge := by
    intro hvalid
    rcases minReplayLsn_eq result x.readMin with heq | heq
    · rw [heq] at hvalid ⊢
      exact hannounced hvalid
    · rw [heq] at hvalid ⊢
      exact h.result_ge hvalid
  passed := by
    intro q y hy hvalid hq
    rcases Nat.lt_succ_iff_lt_or_eq.mp hq with hq | rfl
    · refine (h.passed q y hy hvalid hq).imp_right fun ⟨hne, hle⟩ => ?_
      have hmin := minReplayLsn_le_left result x.readMin hne
      exact ⟨hmin.1, hmin.2.trans hle⟩
    · cases hx.symm.trans hy
      exact .inr (minReplayLsn_le result x.readMin hvalid)

/-- A backend withdraws its announcement, keeps it, or announces at least the frontier. -/
theorem set {b : Nat} {x new : Backend} (hx : backends[b]? = some x)
    (hnew : new.readMin = 0 ∨ bgReplayed ≤ new.readMin ∨ new.readMin = x.readMin) :
    Scanned oldest bgReplayed (backends.set b new) bg i result := by
  refine { h with passed := ?_ }
  intro q y hy hvalid hq
  rw [List.getElem?_set] at hy
  split at hy
  · next heq =>
    subst heq
    split at hy <;> cases hy
    rcases hnew with hzero | hle | hsame
    · exact absurd hzero hvalid
    · exact .inl (h.bg_le.trans hle)
    · rw [hsame] at hvalid ⊢
      exact h.passed b x hx hvalid hq
  · exact h.passed q y hy hvalid hq

/-- What the dispatcher then writes does not go back, and is bounded by what it has read. -/
theorem oldestReplayed_ge : oldest ≤ oldestReplayed bg result := by
  unfold oldestReplayed
  split
  · next hvalid => exact h.result_ge hvalid.1
  · exact h.oldest_le

end

end Scanned

theorem oldestReplayed_le (bg result : Nat) : oldestReplayed bg result ≤ bg := by
  unfold oldestReplayed
  split
  · next hvalid => exact hvalid.2.le
  · exact le_rfl

theorem oldestReplayed_le_result {bg result : Nat} (h : result ≠ 0) :
    oldestReplayed bg result ≤ result := by
  unfold oldestReplayed
  split
  · exact le_rfl
  · next hnot => exact not_lt.mp fun hlt => hnot ⟨h, hlt⟩

/-- The dispatcher is not between the read of the frontier and the write of the oldest LSN. -/
def Pc.outside : Pc → Bool
  | .scan _ _ _ | .write _ _ | .panicked => false
  | _ => true

/-- A step that leaves the announcements and the oldest LSN alone, and lets the frontier grow. -/
structure Frame (s t : State) : Prop where
  oldest_eq : t.oldest = s.oldest
  backends_eq : t.backends = s.backends
  bg_le : s.bgReplayed ≤ t.bgReplayed
  pc : t.pc = s.pc ∨ t.pc.outside = true

/-- The steps of the dispatcher from the read of the frontier to the write of the oldest LSN. -/
inductive ScanStep (s : State) : State → Prop
  | read (hpc : s.pc = .readBg) : ScanStep s { s with pc := .scan s.bgReplayed 0 0 }
  | next {bg i result : Nat} {x : Backend} (hpc : s.pc = .scan bg i result)
      (hx : s.backends[i]? = some x) :
      ScanStep s { s with pc := .scan bg (i + 1) (minReplayLsn result x.readMin) }
  | stop {bg i result : Nat} (hpc : s.pc = .scan bg i result) (hnone : s.backends[i]? = none) :
      ScanStep s { s with pc := .write bg result }
  | write {bg result : Nat} (hpc : s.pc = .write bg result)
      (hle : s.oldest ≤ oldestReplayed bg result) :
      ScanStep s { s with oldest := oldestReplayed bg result, pc := .idle }
  | panic {bg result : Nat} (hpc : s.pc = .write bg result)
      (hnot : ¬ s.oldest ≤ oldestReplayed bg result) : ScanStep s { s with pc := .panicked }

/-- A step of a backend. -/
inductive BackendStep (s : State) (op : Op) : State → Prop
  | mk {b : Nat} {f : Backend → Option Backend} {x new : Backend}
      (hmove : backendMove s op = some (b, f)) (hx : s.backends[b]? = some x)
      (hnew : f x = some new) : BackendStep s op { s with backends := s.backends.set b new }

namespace Frame

variable {wal : Wal} {s t : State}

theorem of_dispatchLoop {batch : Nat} (hs : dispatchLoop wal batch s = some t) : Frame s t := by
  unfold dispatchLoop at hs
  split at hs
  · split at hs <;> cases hs <;> exact ⟨rfl, rfl, le_rfl, .inr rfl⟩
  · split at hs
    · cases hs
      exact ⟨rfl, rfl, le_rfl, .inr rfl⟩
    · split at hs <;> cases hs <;> exact ⟨rfl, rfl, le_rfl, .inr rfl⟩
  · obtain ⟨n, -, h⟩ := map_eq_some_iff.mp hs
    split at h <;> cases h <;> exact ⟨rfl, rfl, le_rfl, .inr rfl⟩
  · obtain ⟨n, -, h⟩ := map_eq_some_iff.mp hs
    cases h
    exact ⟨rfl, rfl, le_rfl, .inr rfl⟩
  · cases hs

theorem of_dispatchStep {batch : Nat} (hs : dispatchStep wal batch s = some t) :
    Frame s t ∨ ScanStep s t := by
  unfold dispatchStep at hs
  split at hs
  · cases hs
    exact .inl ⟨rfl, rfl, le_rfl, .inr rfl⟩
  · cases hs
    exact .inl ⟨rfl, rfl, le_rfl, .inr rfl⟩
  · split at hs <;> cases hs <;> exact .inl ⟨rfl, rfl, le_rfl, .inr rfl⟩
  · cases hs
    exact .inl ⟨rfl, rfl, le_max_left _ _, .inr rfl⟩
  · next hpc =>
    cases hs
    exact .inr (.read hpc)
  · next hpc =>
    split at hs <;> cases hs
    · next hnone => exact .inr (.stop hpc hnone)
    · next hx => exact .inr (.next hpc hx)
  · next hpc =>
    split at hs <;> cases hs
    · next hle => exact .inr (.write hpc hle)
    · next hnot => exact .inr (.panic hpc hnot)
  · cases hs
  · exact .inl (of_dispatchLoop hs)

theorem of_backend (op : Op)
    (hs : ((backendMove s op).bind fun m => backendStep s m.1 m.2) = some t) :
    BackendStep s op t := by
  obtain ⟨⟨b, f⟩, hmove, hs⟩ := bind_eq_some_iff.mp hs
  obtain ⟨new, hnew, rfl⟩ := map_eq_some_iff.mp hs
  obtain ⟨x, hx, hnew⟩ := bind_eq_some_iff.mp hnew
  exact .mk hmove hx hnew

theorem of_step {batch : Nat} {op : Op} (hs : step wal batch s op = some t) :
    Frame s t ∨ ScanStep s t ∨ BackendStep s op t := by
  cases op with
  | startup =>
    cases hs
    unfold startupStep
    split
    · exact .inl ⟨rfl, rfl, le_rfl, .inl rfl⟩
    · split <;> exact .inl ⟨rfl, rfl, le_rfl, .inl rfl⟩
  | dispatch => exact (of_dispatchStep hs).imp_right .inl
  | remove k =>
    simp only [step, removeStep] at hs
    split at hs <;> cases hs <;> exact .inl ⟨rfl, rfl, le_rfl, .inl rfl⟩
  | full =>
    simp only [step, fullStep] at hs
    split at hs <;> cases hs
    exact .inl ⟨rfl, rfl, le_rfl, .inr rfl⟩
  | task k =>
    simp only [step, taskStep] at hs
    split at hs
    · cases hs
    · split at hs <;> cases hs
      · exact .inl ⟨rfl, rfl, le_rfl, .inl rfl⟩
      · exact .inl ⟨rfl, rfl, le_rfl, .inl rfl⟩
      · exact .inl ⟨rfl, rfl, le_max_left _ _, .inl rfl⟩
      · exact .inl ⟨rfl, rfl, le_rfl, .inl rfl⟩
  | checkpoint lsn =>
    simp only [step] at hs
    split at hs <;> cases hs
    exact .inl ⟨rfl, rfl, le_rfl, .inl rfl⟩
  | announce b blocks => exact .inr (.inr (of_backend (.announce b blocks) hs))
  | invalidPage b => exact .inr (.inr (of_backend (.invalidPage b) hs))
  | block b => exact .inr (.inr (of_backend (.block b) hs))
  | abort b => exact .inr (.inr (of_backend (.abort b) hs))

end Frame

/-- Nobody reads before `oldest_replayed_lsn`. -/
structure OldestInv (s : State) : Prop where
  bg_pos : 0 < s.bgReplayed
  oldest_le : s.oldest ≤ s.bgReplayed
  announced : ∀ x ∈ s.backends, x.readMin ≠ 0 → s.oldest ≤ x.readMin
  scan : ∀ bg i result, s.pc = .scan bg i result →
    Scanned s.oldest s.bgReplayed s.backends bg i result
  write : ∀ bg result, s.pc = .write bg result →
    Scanned s.oldest s.bgReplayed s.backends bg s.backends.length result
  not_panicked : s.pc ≠ .panicked

namespace OldestInv

variable {wal : Wal} {s t : State}

theorem init (wal : Wal) (redo numBackends : Nat) :
    OldestInv (State.init wal redo numBackends) where
  bg_pos := wal.begin_pos
  oldest_le := le_rfl
  announced := by
    intro x hx hvalid
    rw [List.eq_of_mem_replicate hx] at hvalid
    exact absurd rfl hvalid
  scan := by simp [State.init]
  write := by simp [State.init]
  not_panicked := by simp [State.init]

theorem frame (h : OldestInv s) (hframe : Frame s t) : OldestInv t := by
  have hscan {pc : Pc} (ht : t.pc = pc) (hin : pc.outside = false) : s.pc = pc := by
    rcases hframe.pc with heq | hout
    · exact heq ▸ ht
    · rw [ht, hin] at hout
      cases hout
  obtain ⟨holdest, hbackends, hbg, -⟩ := hframe
  constructor
  · exact h.bg_pos.trans_le hbg
  · exact holdest ▸ h.oldest_le.trans hbg
  · exact holdest ▸ hbackends ▸ h.announced
  · exact fun bg i result ht => holdest ▸ hbackends ▸ (h.scan bg i result (hscan ht rfl)).grow hbg
  · exact fun bg result ht => holdest ▸ hbackends ▸ (h.write bg result (hscan ht rfl)).grow hbg
  · exact fun ht => h.not_panicked (hscan ht rfl)

theorem advanceOldest (h : OldestInv s) {bg result : Nat} (hpc : s.pc = .write bg result) :
    OldestInv { s with oldest := oldestReplayed bg result, pc := .idle } where
  bg_pos := h.bg_pos
  oldest_le := (oldestReplayed_le bg result).trans (h.write bg result hpc).bg_le
  announced := by
    intro x hx hvalid
    obtain ⟨q, hq⟩ := List.mem_iff_getElem?.mp hx
    have hlt : q < s.backends.length := (List.getElem?_eq_some_iff.mp hq).1
    rcases (h.write bg result hpc).passed q x hq hvalid hlt with hle | ⟨hne, hle⟩
    · exact (oldestReplayed_le bg result).trans hle
    · exact (oldestReplayed_le_result hne).trans hle
  scan := by simp
  write := by simp
  not_panicked := by simp

theorem scanStep (h : OldestInv s) (hs : ScanStep s t) : OldestInv t := by
  cases hs with
  | read hpc =>
    refine { h with scan := ?_, write := by simp, not_panicked := by simp }
    intro bg i result hpc
    obtain ⟨rfl, rfl, rfl⟩ := Pc.scan.inj hpc
    exact ⟨le_rfl, h.oldest_le, fun hne => absurd rfl hne,
      fun q _ _ _ hq => absurd hq (Nat.not_lt_zero q)⟩
  | next hpc hx =>
    have hscan := h.scan _ _ _ hpc
    refine { h with scan := ?_, write := by simp, not_panicked := by simp }
    intro bg i result hpc
    obtain ⟨rfl, rfl, rfl⟩ := Pc.scan.inj hpc
    exact hscan.next hx (h.announced _ (List.mem_of_getElem? hx))
  | stop hpc hnone =>
    have hscan := h.scan _ _ _ hpc
    refine { h with scan := by simp, write := ?_, not_panicked := by simp }
    intro bg result hpc
    obtain ⟨rfl, rfl⟩ := Pc.write.inj hpc
    have hlen := List.getElem?_eq_none_iff.mp hnone
    exact { hscan with passed := fun q x hx hv hq => hscan.passed q x hx hv (hq.trans_le hlen) }
  | write hpc _ => exact h.advanceOldest hpc
  | panic hpc hnot => exact absurd (h.write _ _ hpc).oldestReplayed_ge hnot

/-- What the moves of a backend do to its announcement. -/
theorem readMin_of_backendMove (hpos : 0 < s.bgReplayed) {op : Op} {b : Nat}
    {f : Backend → Option Backend} (hmove : backendMove s op = some (b, f)) {x new : Backend}
    (hnew : f x = some new) :
    new.readMin = 0 ∨ s.bgReplayed ≤ new.readMin ∨ new.readMin = x.readMin := by
  cases op with
  | announce b' blocks =>
    cases hmove
    dsimp only at hnew
    split at hnew <;> cases hnew
    exact .inr (.inl (by simp [announce, hpos.ne']))
  | invalidPage b' =>
    cases hmove
    obtain ⟨r, -, rfl⟩ := map_eq_some_iff.mp hnew
    exact .inr (.inr rfl)
  | block b' =>
    cases hmove
    obtain ⟨r, -, rfl⟩ := map_eq_some_iff.mp hnew
    refine .inl ?_
    unfold execBackendRedo
    split <;> rfl
  | abort b' =>
    cases hmove
    cases hnew
    exact .inl rfl
  | _ => cases hmove

theorem backendStep {op : Op} (h : OldestInv s) (hs : BackendStep s op t) : OldestInv t := by
  obtain ⟨hmove, hx, hnew⟩ := hs
  have hread := readMin_of_backendMove h.bg_pos hmove hnew
  refine { h with announced := ?_, scan := ?_, write := ?_ }
  · intro y hy hvalid
    rcases List.mem_or_eq_of_mem_set hy with hy | rfl
    · exact h.announced y hy hvalid
    · rcases hread with hzero | hle | hsame
      · exact absurd hzero hvalid
      · exact h.oldest_le.trans hle
      · rw [hsame] at hvalid ⊢
        exact h.announced _ (List.mem_of_getElem? hx) hvalid
  · exact fun bg i result hpc => (h.scan bg i result hpc).set hx hread
  · intro bg result hpc
    rw [List.length_set]
    exact (h.write bg result hpc).set hx hread

theorem step {batch : Nat} {op : Op} (h : OldestInv s) (hs : step wal batch s op = some t) :
    OldestInv t := by
  rcases Frame.of_step hs with hframe | hscan | hbackend
  · exact h.frame hframe
  · exact h.scanStep hscan
  · exact h.backendStep hbackend

end OldestInv

/-- The bounds of the frontier: `bg_replayed_lsn` by every record with a page that is not replayed,
`oldest_replayed_lsn` by that frontier and by every announcement. -/
structure Bounded (wal : Wal) (s : State) : Prop where
  bg_le : ∀ n, n ∉ s.replayed → s.bgReplayed ≤ wal.lsn n
  oldest_le : s.oldest ≤ s.bgReplayed
  oldest_le_readMin : ∀ x ∈ s.backends, x.readMin ≠ 0 → s.oldest ≤ x.readMin
  not_panicked : s.pc ≠ .panicked

/-- The oldest LSN is also bounded by the LSN from which a backend replays. -/
structure Frontier (wal : Wal) (s : State) : Prop extends Bounded wal s where
  oldest_le_replayFrom : ∀ x ∈ s.backends, ∀ r, x.replay = some r → s.oldest ≤ r.replayFrom

/-- The two LSNs do not go back. -/
structure Grows (s t : State) : Prop where
  bg_le : s.bgReplayed ≤ t.bgReplayed
  oldest_le : s.oldest ≤ t.oldest

namespace Grows

variable {wal : Wal} {s t u : State}

theorem trans (h : Grows s t) (h' : Grows t u) : Grows s u :=
  ⟨h.bg_le.trans h'.bg_le, h.oldest_le.trans h'.oldest_le⟩

theorem of_step {batch : Nat} {op : Op} (hs : step wal batch s op = some t) : Grows s t := by
  rcases Frame.of_step hs with hframe | hscan | hbackend
  · exact ⟨hframe.bg_le, hframe.oldest_eq.ge⟩
  · cases hscan with
    | write _ hle => exact ⟨le_rfl, hle⟩
    | read | next | stop | panic => exact ⟨le_rfl, le_rfl⟩
  · obtain ⟨_, _, _⟩ := hbackend
    exact ⟨le_rfl, le_rfl⟩

end Grows

/-- A backend announces itself for one block at a time, and finds its pages valid. -/
def OneBlock (_ : State) : Op → Prop
  | .announce _ blocks => blocks = 1
  | .invalidPage _ => False
  | _ => True

instance (s : State) : (op : Op) → Decidable (OneBlock s op)
  | .announce _ blocks => inferInstanceAs (Decidable (blocks = 1))
  | .invalidPage _ => .isFalse id
  | .startup | .dispatch | .remove _ | .full | .task _ | .block _ | .abort _ | .checkpoint _ =>
    .isTrue trivial

/-- A backend that replays has announced where it replays from. -/
structure Covered (x : Backend) : Prop where
  blocks : ∀ r, x.replay = some r → r.blocks = 1
  readMin : ∀ r, x.replay = some r → x.readMin = r.replayFrom ∧ x.readMin ≠ 0

namespace Covered

variable {wal : Wal} {s t : State}

theorem idle (readMin : Nat) : Covered ⟨readMin, none⟩ :=
  ⟨by simp, by simp⟩

theorem of_backendMove (hpos : 0 < s.bgReplayed) {op : Op} (hok : OneBlock s op) {b : Nat}
    {f : Backend → Option Backend} (hmove : backendMove s op = some (b, f)) {x new : Backend}
    (h : Covered x) (hnew : f x = some new) : Covered new := by
  cases op with
  | announce b' blocks =>
    cases hmove
    dsimp only at hnew
    split at hnew <;> cases hnew
    refine ⟨fun r hr => ?_, fun r hr => ?_⟩
    · cases hr
      exact hok
    · cases hr
      exact ⟨rfl, by simp [announce, hpos.ne']⟩
  | invalidPage b' => exact hok.elim
  | block b' =>
    cases hmove
    obtain ⟨r, hr, rfl⟩ := map_eq_some_iff.mp hnew
    rw [execBackendRedo, if_pos (h.blocks r hr).le]
    exact idle 0
  | abort b' =>
    cases hmove
    cases hnew
    exact idle 0
  | _ => cases hmove

theorem step {batch : Nat} {op : Op} (hpos : 0 < s.bgReplayed) (hok : OneBlock s op)
    (h : ∀ x ∈ s.backends, Covered x) (hs : step wal batch s op = some t) :
    ∀ x ∈ t.backends, Covered x := by
  rcases Frame.of_step hs with hframe | hscan | hbackend
  · exact hframe.backends_eq ▸ h
  · cases hscan <;> exact h
  · obtain ⟨hmove, hx, hnew⟩ := hbackend
    intro y hy
    rcases List.mem_or_eq_of_mem_set hy with hy | rfl
    · exact h y hy
    · exact of_backendMove hpos hok hmove (h _ (List.mem_of_getElem? hx)) hnew

end Covered

theorem inv_of_reaches {wal : Wal} {batch redo numBackends : Nat} {s : State}
    {ok : State → Op → Prop} (run : Reaches (step wal batch) ok (.init wal redo numBackends) s) :
    Inv wal s ∧ OldestInv s :=
  run.invariant (fun s => Inv wal s ∧ OldestInv s) ⟨.init .., .init ..⟩
    fun _ _ _ h _ hs => ⟨h.1.step hs, h.2.step hs⟩

theorem Bounded.of_inv {wal : Wal} {s : State} (h : Inv wal s ∧ OldestInv s) : Bounded wal s :=
  ⟨h.1.queue.bg_le, h.2.oldest_le, h.2.announced, h.2.not_panicked⟩

/-- In every run the frontier is bounded by what is not replayed, and it does not go back. In every
run in which a backend announces itself for each block that it replays, and finds its pages valid,
no backend replays from before the oldest LSN. -/
theorem parallel_frontier (wal : Wal) (batch redo numBackends : Nat) :
    (∀ s, Reaches (step wal batch) OneBlock (.init wal redo numBackends) s → Frontier wal s) ∧
      ∀ s t, Reaches (step wal batch) (fun _ _ => True) (.init wal redo numBackends) s →
        Reaches (step wal batch) (fun _ _ => True) s t → Bounded wal t ∧ Grows s t := by
  constructor
  · intro s run
    have h : OldestInv s ∧ ∀ x ∈ s.backends, Covered x := by
      refine run.invariant (fun s => OldestInv s ∧ ∀ x ∈ s.backends, Covered x)
        ⟨.init .., fun x hx => ?_⟩
        fun _ _ _ h hok hs => ⟨h.1.step hs, Covered.step h.1.bg_pos hok h.2 hs⟩
      rw [List.eq_of_mem_replicate hx]
      exact .idle 0
    refine { Bounded.of_inv (inv_of_reaches run) with oldest_le_replayFrom := fun x hx r hr => ?_ }
    obtain ⟨hread, hvalid⟩ := (h.2 x hx).readMin r hr
    exact hread ▸ h.1.announced x hx hvalid
  · intro s t run run'
    have h : (Inv wal t ∧ OldestInv t) ∧ Grows s t :=
      run'.invariant (fun t => (Inv wal t ∧ OldestInv t) ∧ Grows s t)
        ⟨inv_of_reaches run, le_rfl, le_rfl⟩
        fun _ _ _ h _ hs => ⟨⟨h.1.1.step hs, h.1.2.step hs⟩, h.2.trans (Grows.of_step hs)⟩
    exact ⟨.of_inv h.1, h.2⟩

/-- A WAL of records of ten bytes, each with one page. -/
def pageWal : Wal where
  begin := 10
  begin_pos := Nat.succ_pos 9
  readPtr := 0
  start i := 10 * (i + 1)
  stop i := 10 * (i + 2)
  begin_le := Nat.le_mul_of_pos_right 10 Nat.one_pos
  start_lt _ := by omega
  stop_le _ := by omega
  record n := n
  first i := i
  lt_first_iff _ _ := Iff.rfl

/-- The first record is published, dispatched, replayed and found replayed, with one backend. -/
def firstRecord : List Op :=
  List.replicate 3 .startup ++ List.replicate 13 .dispatch ++ List.replicate 3 (.task 0) ++
    [.dispatch, .remove 0] ++ List.replicate 9 .dispatch

/-- A backend that still replays holds the oldest LSN back. -/
theorem parallel_frontier_announced : ∃ s,
    Reaches (step pageWal 16) OneBlock (.init pageWal 5 1) s ∧ Frontier pageWal s ∧
      s.bgReplayed = 20 ∧ s.oldest = 10 := by
  obtain ⟨s, run, hview⟩ := exists_reaches_tested (step pageWal 16) OneBlock (.init pageWal 5 1)
    (.announce 0 1 :: firstRecord) (fun s => s.bgReplayed = 20 ∧ s.oldest = 10) (by decide +kernel)
  exact ⟨s, run, (parallel_frontier _ _ _ _).1 s run, hview⟩

/-- A backend reads two blocks, and resets its announcement after the first: it replays the second
one from before the oldest LSN. -/
theorem parallel_frontier_passed : ¬ ∀ (wal : Wal) (batch redo numBackends : Nat) (s : State),
    Reaches (step wal batch) (fun _ _ => True) (.init wal redo numBackends) s →
      Frontier wal s := by
  intro hall
  obtain ⟨s, run, holdest, hbackends⟩ := exists_reaches_any (step pageWal 16) (.init pageWal 5 1)
    (.announce 0 2 :: .block 0 :: firstRecord)
    (fun s => s.oldest = 20 ∧ s.backends = [⟨0, some ⟨10, 5, 1⟩⟩]) (by decide +kernel)
  have hle := (hall _ _ _ _ s run).oldest_le_replayFrom ⟨0, some ⟨10, 5, 1⟩⟩
    (by simp [hbackends]) ⟨10, 5, 1⟩ rfl
  rw [holdest] at hle
  exact absurd hle (by decide)

/-- An entry that was handed out is replayed, or its task is at work on it. -/
theorem no_entry_lost (wal : Wal) (batch redo numBackends : Nat) (s : State)
    (run : Reaches (step wal batch) (fun _ _ => True) (.init wal redo numBackends) s) (n : Nat)
    (hn : n < s.next) : n ∈ s.replayed ∨ ⟨n, .running⟩ ∈ s.running := by
  have h := (inv_of_reaches run).1.queue
  rcases h.cover n hn with hreplayed | ⟨⟨entry, phase⟩, ht, rfl⟩
  · exact .inl hreplayed
  · by_cases hphase : phase = .running
    · exact .inr (hphase ▸ ht)
    · exact .inl (h.done _ ht hphase)

/-- The first page is replayed, and its task is gone. -/
theorem no_entry_lost_first : ∃ s : State, s.running = [] ∧
    (0 ∈ s.replayed ∨ ⟨0, .running⟩ ∈ s.running) := by
  obtain ⟨s, run, hnext, hrunning⟩ := exists_reaches_any (step pageWal 16) (.init pageWal 5 1)
    firstRecord (fun s => s.next = 1 ∧ s.running = []) (by decide +kernel)
  exact ⟨s, hrunning, no_entry_lost _ _ _ _ s run 0 (by simp [hnext])⟩

end Polar.ParallelReplay
