import Polar.Csn.Horizon

/-!
# Retention of the csnlog

A checkpoint cuts the csnlog at the older of the horizon and the oldest active xid from before its
redo point, and removes the segments that end before that page. A backend whose xmin the scan has
seen holds the horizon back; one that publishes its xmin later has read the oldest active xid again
after that.
-/

namespace Polar.Csn

open Backend (act)

open Function Option List

variable {numProcs : Nat} {sh sh' : Shared} {b b' : Backend} {backends : Nat → Backend} {s t : State}

/-- A call of `polar_csnlog_get_csn` that `polar_xact_get_csn` can make. -/
def CsnlogRead (s : State) (p xid : Nat) : Prop :=
  (s.backends p).pc = .run ∧ xid < s.shared.nextXid ∧
    ∃ xmin, (s.backends p).transactionXmin = some xmin ∧ xmin ≤ xid

/-- The xmin the backend works with, or is going to: before the second read it has none. -/
def Settled (b : Backend) (xmin : Nat) : Prop :=
  match b.pc with
  | .snapPublished _ => False
  | .snapReread xmin' => xmin' = xmin
  | _ => b.xmin = some xmin

theorem Settled.of_xmin {xmin : Nat} (h : b.xmin = some xmin)
    (hpub : ∀ x, b.pc ≠ .snapPublished x) (hread : ∀ x, b.pc ≠ .snapReread x) :
    Settled b xmin := by
  unfold Settled
  split
  · next hpc => exact absurd hpc (hpub _)
  · next hpc => exact absurd hpc (hread _)
  · exact h

/-- The published xmin is not above the settled one. -/
theorem Local.settled {xmin : Nat} (loc : Local sh b) (h : Settled b xmin) :
    ∃ xmin', b.xmin = some xmin' ∧ xmin' ≤ xmin := by
  have hok := loc.pc
  unfold Settled at h
  split at h
  · exact h.elim
  · next hpc =>
    subst h
    simp only [PcOk, hpc] at hok
    exact hok.2.1
  · exact ⟨xmin, h, le_rfl⟩

/-- A new settled xmin is not below an old one, or is the oldest active xid. -/
theorem settled_next {k : Nat} (loc : Local sh b) (hk : k ≤ sh.oldestActiveXid)
    (hold : ∀ xmin, Settled b xmin → k ≤ xmin) (hs : b.next sh = some (sh', b')) :
    ∀ xmin, Settled b' xmin → k ≤ xmin := by
  -- most steps start and end outside the two reads and leave the xmin alone
  have hframe : ∀ b'' : Backend, b''.xmin = b.xmin → (∀ x, b.pc ≠ .snapPublished x) →
      (∀ x, b.pc ≠ .snapReread x) → (∀ x, b''.pc ≠ .snapReread x) →
      ∀ xmin, Settled b'' xmin → k ≤ xmin := by
    intro b'' hx hpub hread hread' xmin h
    refine hold xmin (.of_xmin ?_ hpub hread)
    unfold Settled at h
    split at h
    · exact h.elim
    · next hpc => exact absurd hpc (hread' _)
    · exact hx ▸ h
  cases hpc : b.pc with
  | run => simp [Backend.next, hpc] at hs
  | snapRead xmin =>
    simp only [Backend.next, hpc] at hs
    split at hs <;> cases hs
    · exact hframe _ rfl (by simp [hpc]) (by simp [hpc]) (by simp)
    · exact fun _ h => h.elim
  | snapPublished xmin =>
    simp only [Backend.next, hpc] at hs
    split at hs <;> cases hs
    · next heq =>
      have hok := loc.pc
      simp only [PcOk, hpc] at hok
      intro xmin' h
      obtain rfl : xmin = xmin' := some.inj (hok.2.1.symm.trans h)
      exact heq ▸ hk
    · rintro _ rfl
      exact hk
  | snapReread xmin =>
    rw [Backend.next, hpc] at hs
    cases hs
    intro xmin' h
    refine hold xmin' ?_
    simp only [Settled, hpc]
    simpa [Settled] using h
  | clearing myXid =>
    rw [Backend.next, hpc] at hs
    cases hs
    intro xmin h
    simp [Settled] at h
  | stamped =>
    simp only [Backend.next, hpc] at hs
    obtain ⟨xid, -, hs⟩ := bind_eq_some_iff.mp hs
    cases hs
    exact hframe _ rfl (by simp [hpc]) (by simp [hpc]) (by simp)
  | snapXmin | snapCsn =>
    rw [Backend.next, hpc] at hs
    cases hs
    exact hframe _ rfl (by simp [hpc]) (by simp [hpc]) (by simp)
  | _ =>
    obtain ⟨-, hxmin, -, -, hto⟩ := next_frame (by rw [hpc]; rfl) hs
    exact hframe _ hxmin (by simp [hpc]) (by simp [hpc]) hto

theorem settled_act {k : Nat} {a : Act} (loc : Local sh b) (hk : k ≤ sh.oldestActiveXid)
    (hold : ∀ xmin, Settled b xmin → k ≤ xmin) (hs : b.act sh a = some (sh', b')) :
    ∀ xmin, Settled b' xmin → k ≤ xmin := by
  -- the actions start outside any function
  have hxmin : b.pc = .run → ∀ xmin, b.xmin = some xmin → k ≤ xmin := fun hpc xmin hx =>
    hold xmin (.of_xmin hx (by simp [hpc]) (by simp [hpc]))
  cases a with
  | next => exact settled_next loc hk hold hs
  | resetXmin keep =>
    simp only [act] at hs
    obtain ⟨hcond, hs⟩ := ite_none_right_eq_some.mp hs
    have hrun := hxmin hcond.1
    split at hs
    · cases hs
      intro xmin h
      simp [Settled, hcond.1] at h
    · split at hs
      · next xmin₀ hx =>
        split at hs <;> cases hs
        · next hlt =>
          intro xmin h
          simp only [Settled, hcond.1, some.injEq] at h
          subst h
          exact (hrun xmin₀ hx).trans hlt.le
        · intro xmin h
          simp only [hcond.1] at h
          exact hrun xmin h
      · cases hs
  | endTransaction =>
    simp only [act] at hs
    split at hs <;> cases hs
    next hcond =>
    intro xmin h
    simp [Settled, hcond.1] at h
  | setFlags =>
    simp only [act] at hs
    split at hs <;> cases hs
    next hcond =>
    intro xmin h
    simp only [hcond.1] at h
    exact hxmin hcond.1 xmin h
  | snapshot =>
    simp only [act] at hs
    split at hs <;> cases hs
    next hpc => exact hxmin hpc
  | allocate | commit | abort | abortSub =>
    simp only [act] at hs
    split at hs <;> cases hs
    next hcond => exact hxmin hcond.1

/-- `MyProc->xmin` is `TransactionXmin` as long as it is set. -/
def Agrees (b : Backend) : Prop := ∀ xmin, b.xmin = some xmin → b.transactionXmin = some xmin

theorem agrees_act {a : Act} (h : Agrees b) (hs : b.act sh a = some (sh', b')) : Agrees b' := by
  have hnext : b.next sh = some (sh', b') → Agrees b' := by
    intro hs
    simp only [Backend.next] at hs
    repeat' split at hs
    all_goals first
      | (cases hs; done)
      | (cases hs; exact h)
      | (cases hs; exact fun _ hx => hx)
      | (cases hs; rintro _ ⟨⟩)
      | (obtain ⟨_, _, heq⟩ := bind_eq_some_iff.mp hs
         cases heq
         exact h)
  cases a with
  | next => exact hnext hs
  | _ =>
    simp only [act] at hs
    repeat' split at hs
    all_goals first
      | (cases hs; done)
      | (cases hs; exact h)
      | (cases hs; exact fun _ hx => hx)
      | (cases hs; rintro _ ⟨⟩)

/-- The scan is going to skip a flagged backend whose xmin is set. -/
def skipsXmin (backends : Nat → Backend) : Option Scan → Bool
  | some (.proc _ _ index true _) => (backends index).xmin.isSome
  | _ => false

/-- No scan skips a flagged backend with an xmin. -/
def SkipsNobody (s : State) : Op → Prop
  | .scan j _ _ => skipsXmin s.backends s.scans[j]? = false
  | _ => True

instance (s : State) : (op : Op) → Decidable (SkipsNobody s op)
  | .scan j _ _ => inferInstanceAs (Decidable (skipsXmin s.backends s.scans[j]? = false))
  | .backend _ _ | .scanner | .checkpoint _ => .isTrue trivial

/-- What a checkpoint knows. -/
def CheckpointOk (sh : Shared) (backends : Nat → Backend) : Scan → Prop
  | .redo oldest => oldest ≤ sh.oldestActiveXid
  | .procs (some oldest) horizon index | .proc (some oldest) horizon index _ _ =>
    oldest ≤ sh.oldestActiveXid ∧
      ∀ q < index, ∀ xmin, Settled (backends q) xmin → min horizon oldest ≤ xmin
  | .truncate oldest horizon =>
    oldest ≤ sh.oldestActiveXid ∧
      ∀ q xmin, Settled (backends q) xmin → min horizon oldest ≤ xmin
  | _ => True

/-- What every run keeps of the csnlog and its cutoff. -/
structure RetentionInv (numProcs : Nat) (s : State) : Prop where
  inv : Inv numProcs s.shared s.backends
  agrees : ∀ p, Agrees (s.backends p)
  scans : ∀ scan ∈ s.scans, CheckpointOk s.shared s.backends scan
  cutoff : ∃ xid ≤ s.shared.oldestActiveXid, s.cutoffPage = pageNo xid ∧
    ∀ q xmin, Settled (s.backends q) xmin → xid ≤ xmin
  removed : ∀ segment, s.removed segment = true →
    (segment + 1) * slruPagesPerSegment ≤ s.cutoffPage

theorem pageNo_mono {x y : Nat} (h : x ≤ y) : pageNo x ≤ pageNo y := Nat.div_le_div_right h

/-- What bounds all settled xmins from below keeps doing so. -/
theorem bound_keep {p q k : Nat} {a : Act} (inv : Inv numProcs sh backends)
    (hk : k ≤ sh.oldestActiveXid) (h : ∀ xmin, Settled (backends q) xmin → k ≤ xmin)
    (hs : (backends p).act sh a = some (sh', b')) :
    ∀ xmin, Settled (update backends p b' q) xmin → k ≤ xmin := by
  by_cases hqp : q = p
  · subst hqp
    rw [update_self]
    exact settled_act (inv.local_ q) hk h hs
  · rwa [update_of_ne hqp]

theorem bound_keep_all {p k : Nat} {a : Act} (inv : Inv numProcs sh backends)
    (hk : k ≤ sh.oldestActiveXid) (h : ∀ q xmin, Settled (backends q) xmin → k ≤ xmin)
    (hs : (backends p).act sh a = some (sh', b')) :
    ∀ q xmin, Settled (update backends p b' q) xmin → k ≤ xmin :=
  fun q => bound_keep inv hk (h q) hs

theorem CheckpointOk.keep {p : Nat} {scan : Scan} {a : Act} (h : CheckpointOk sh backends scan)
    (inv : Inv numProcs sh backends) (hs : (backends p).act sh a = some (sh', b')) :
    CheckpointOk sh' (update backends p b') scan := by
  have hle := (inv.moves hs).le.oldest
  have hmin : ∀ {oldest horizon : Nat}, oldest ≤ sh.oldestActiveXid →
      min horizon oldest ≤ sh.oldestActiveXid := fun h => (min_le_right _ _).trans h
  cases scan with
  | redo oldest => exact le_trans h hle
  | procs redo horizon index | proc redo horizon index flagged xid =>
    cases redo with
    | none => trivial
    | some oldest =>
      exact ⟨h.1.trans hle, fun q hq => bound_keep inv (hmin h.1) (h.2 q hq) hs⟩
  | truncate oldest horizon =>
    exact ⟨h.1.trans hle, bound_keep_all inv (hmin h.1) h.2 hs⟩
  | idle => trivial

namespace RetentionInv

theorem not_settled_init (xmin : Nat) : ¬ Settled Backend.init xmin := by
  simp [Settled, Backend.init]

theorem init (numProcs first : Nat) (rolledBack : Nat → Bool) (hfirst : 0 < first) :
    RetentionInv numProcs (.init first rolledBack) where
  inv := .init numProcs first rolledBack hfirst
  agrees p xmin h := by cases h
  scans := by simp [State.init]
  cutoff := ⟨0, Nat.zero_le _, by simp [State.init, pageNo], fun _ _ _ => Nat.zero_le _⟩
  removed := by simp [State.init]

section

variable (h : RetentionInv numProcs s)
include h

theorem backend {p : Nat} {a : Act}
    (hs : s.step numProcs (.backend p a) = some t) : RetentionInv numProcs t := by
  obtain ⟨hp, hs⟩ := ite_none_right_eq_some.mp hs
  obtain ⟨⟨sh', b'⟩, hact, rfl⟩ := map_eq_some_iff.mp hs
  have mv := h.inv.moves hact
  refine ⟨h.inv.keep hp mv, fun q => ?_, fun scan hscan => (h.scans scan hscan).keep h.inv hact,
    ?_, h.removed⟩
  · by_cases hq : q = p
    · subst hq
      dsimp only
      rw [update_self]
      exact agrees_act (h.agrees q) hact
    · dsimp only
      rw [update_of_ne hq]
      exact h.agrees q
  · obtain ⟨xid, hle, hpage, hbound⟩ := h.cutoff
    exact ⟨xid, hle.trans mv.le.oldest, hpage, bound_keep_all h.inv hle hbound hact⟩

theorem setScan {j : Nat} {scan : Scan}
    (hscan : CheckpointOk s.shared s.backends scan) : RetentionInv numProcs (s.setScan j scan) where
  inv := h.inv
  agrees := h.agrees
  scans scan' hmem := by
    obtain hmem | rfl := mem_or_eq_of_mem_set hmem
    · exact h.scans scan' hmem
    · exact hscan
  cutoff := h.cutoff
  removed := h.removed

/-- A truncation at an xid that no settled xmin precedes. -/
theorem csnlogTruncate {oldestXact : Nat} (hle : oldestXact ≤ s.shared.oldestActiveXid)
    (hbound : ∀ q xmin, Settled (s.backends q) xmin → oldestXact ≤ xmin) :
    RetentionInv numProcs (s.csnlogTruncate oldestXact) where
  inv := h.inv
  agrees := h.agrees
  scans := h.scans
  cutoff := by
    obtain ⟨xid, hxid, hpage, hold⟩ := h.cutoff
    refine ⟨max xid oldestXact, max_le hxid hle, ?_,
      fun q xmin hsettled => max_le (hold q xmin hsettled) (hbound q xmin hsettled)⟩
    simp only [State.csnlogTruncate, hpage]
    obtain hmax | hmax := le_total xid oldestXact
    · rw [max_eq_right hmax, max_eq_right (pageNo_mono hmax)]
    · rw [max_eq_left hmax, max_eq_left (pageNo_mono hmax)]
  removed segment hseg := by
    simp only [State.csnlogTruncate] at hseg ⊢
    have hold : s.removed segment = true → (segment + 1) * slruPagesPerSegment ≤
        max s.cutoffPage (pageNo oldestXact) :=
      fun hr => (h.removed segment hr).trans (le_max_left _ _)
    split at hseg
    · exact hold hseg
    · obtain hr | hdelete := Bool.or_eq_true_iff.mp hseg
      · exact hold hr
      · simp only [mayDeleteSegment, Bool.and_eq_true, decide_eq_true_eq] at hdelete
        refine le_trans ?_ (le_max_right _ _)
        simp only [slruPagesPerSegment] at hdelete ⊢
        omega

theorem scan_xmin {oldest horizon index : Nat} {flagged : Bool} {xid : Option Nat}
    (hbound : ∀ q < index, ∀ xmin, Settled (s.backends q) xmin → min horizon oldest ≤ xmin)
    (hskip : flagged = true → (s.backends index).xmin = none) :
    ∀ q < index + 1, ∀ xmin, Settled (s.backends q) xmin →
      min (if flagged then horizon else older (older horizon (s.backends index).xmin) xid)
        oldest ≤ xmin := by
  intro q hq xmin hsettled
  have hle : (if flagged then horizon else older (older horizon (s.backends index).xmin) xid) ≤
      horizon := by
    split
    · exact le_rfl
    · exact (older_le _ _).trans (older_le _ _)
  obtain hq | rfl := Nat.lt_succ_iff_lt_or_eq.mp hq
  · have := hbound q hq xmin hsettled
    omega
  · obtain ⟨xmin', hx, hle'⟩ := (h.inv.local_ q).settled hsettled
    have hflag : flagged = false := by
      by_contra hflag
      have := hskip (by simpa using hflag)
      simp [this] at hx
    rw [hflag, hx]
    refine (min_le_left _ _).trans (((older_le _ _).trans ?_).trans hle')
    exact min_le_right _ _

/-- A scanner goes on. -/
theorem scan {j : Nat} {slotXmin slotCatalogXmin : Option Nat}
    (hok : SkipsNobody s (.scan j slotXmin slotCatalogXmin))
    (hs : s.step numProcs (.scan j slotXmin slotCatalogXmin) = some t) :
    RetentionInv numProcs t := by
  obtain ⟨scan, hj, rfl⟩ := map_eq_some_iff.mp hs
  have hscan := h.scans scan (mem_of_getElem? hj)
  simp only [SkipsNobody, hj] at hok
  cases scan with
  | idle => exact h.setScan trivial
  | redo oldest => exact h.setScan ⟨hscan, fun q hq => absurd hq (Nat.not_lt_zero q)⟩
  | proc redo horizon index flagged xid =>
    refine h.setScan ?_
    cases redo with
    | none => trivial
    | some oldest =>
      refine ⟨hscan.1, h.scan_xmin hscan.2 ?_⟩
      rintro rfl
      simpa [skipsXmin] using hok
  | truncate oldest horizon =>
    have hset : RetentionInv numProcs (s.setScan j .idle) := h.setScan trivial
    exact hset.csnlogTruncate ((min_le_right _ _).trans hscan.1) hscan.2
  | procs redo horizon index =>
    simp only [State.scanStep]
    split
    · refine h.setScan ?_
      cases redo with
      | none => trivial
      | some oldest => exact hscan
    · next hge =>
      refine { h with scans := (h.setScan ?_).scans }
      cases redo with
      | none => trivial
      | some oldest =>
        refine ⟨hscan.1, fun q xmin hsettled => ?_⟩
        have hle : older (older horizon slotXmin) slotCatalogXmin ≤ horizon :=
          (older_le _ _).trans (older_le _ _)
        by_cases hq : q < index
        · have := hscan.2 q hq xmin hsettled
          omega
        · rw [h.inv.idle q (by omega)] at hsettled
          exact absurd hsettled (not_settled_init xmin)

theorem step {op : Op} (hok : SkipsNobody s op)
    (hs : s.step numProcs op = some t) : RetentionInv numProcs t := by
  cases op with
  | backend p a => exact h.backend hs
  | scanner =>
    cases hs
    exact { h with scans := forall_mem_append.mpr ⟨h.scans, forall_mem_singleton.mpr trivial⟩ }
  | checkpoint j =>
    simp only [State.step] at hs
    split at hs <;> cases hs
    exact h.setScan le_rfl
  | scan j slotXmin slotCatalogXmin => exact h.scan hok hs

end

end RetentionInv

/-- As long as no scan skips a flagged backend whose xmin is set, a backend whose xmin is set finds
every csnlog page it can ask for at or after the cutoff, in a segment that is still there. -/
theorem csnlog_retained (numProcs first : Nat) (rolledBack : Nat → Bool) (hfirst : 0 < first)
    (s : State) (run : Reaches (State.step numProcs) SkipsNobody (State.init first rolledBack) s) :
    ∀ p xid, CsnlogRead s p xid → (s.backends p).xmin.isSome = true →
      s.cutoffPage ≤ pageNo xid ∧ s.removed (segmentNo xid) = false := by
  have h := run.invariant (RetentionInv numProcs) (.init numProcs first rolledBack hfirst)
    fun _ _ _ h hok hs => h.step hok hs
  rintro p xid ⟨hpc, -, xmin, htx, hle⟩ hsome
  obtain ⟨xmin', hx⟩ := isSome_iff_exists.mp hsome
  obtain rfl : xmin' = xmin := some.inj ((h.agrees p xmin' hx).symm.trans htx)
  obtain ⟨cut, -, hpage, hbound⟩ := h.cutoff
  have hcut := hbound p xmin' (.of_xmin hx (by simp [hpc]) (by simp [hpc]))
  have hkept : s.cutoffPage ≤ pageNo xid := hpage ▸ pageNo_mono (hcut.trans hle)
  refine ⟨hkept, ?_⟩
  by_contra hgone
  have hend := h.removed _ (eq_true_of_ne_false hgone)
  simp only [segmentNo, slruPagesPerSegment] at hend
  omega

/-- What follows the step that clears the xid, with nothing else active. -/
def runAdvance (p : Nat) : List Op := replicate 7 (.backend p .next)

/-- The checkpoint removes the first segment, and a snapshot asks for the first xid of the second
one. -/
theorem csnlog_retained_next_segment :
    ∃ s, CsnlogRead s 0 32768 ∧ s.removed 0 = true ∧
      s.cutoffPage ≤ pageNo 32768 ∧ s.removed (segmentNo 32768) = false := by
  obtain ⟨s, run, hremoved, hnext, hpc, htx, hxmin⟩ := exists_reaches_tested (State.step 2)
    SkipsNobody (State.init 32767 fun _ => false)
    (runAssign 1 ++ runCommit 1 ++ runAdvance 1 ++ runSnapshot 0 ++ runAssign 1 ++
      .scanner :: .checkpoint 0 :: replicate 7 (.scan 0 none none))
    (fun s => s.removed 0 = true ∧ s.shared.nextXid = 32769 ∧ (s.backends 0).pc = .run ∧
      (s.backends 0).transactionXmin = some 32768 ∧ (s.backends 0).xmin = some 32768)
    (by decide +kernel)
  have hread : CsnlogRead s 0 32768 := ⟨hpc, by omega, 32768, htx, le_rfl⟩
  exact ⟨s, hread, hremoved, csnlog_retained 2 32767 (fun _ => false) (by decide) s
    run 0 32768 hread (by simp [hxmin])⟩

/-- A vacuum takes its snapshot before xid 32767 commits, the last one of its segment. The
checkpoint skips the vacuum and removes the segment, which the vacuum can still ask for. -/
theorem csnlog_removed :
    ∃ s, Reaches (State.step 2) (fun _ _ => True) (State.init 32767 fun _ => false) s ∧
      ∃ p xid, CsnlogRead s p xid ∧ ¬ s.cutoffPage ≤ pageNo xid ∧
        s.removed (segmentNo xid) = true := by
  obtain ⟨s, run, hcut, hremoved, hnext, hpc, htx⟩ := exists_reaches_any (State.step 2)
    (State.init 32767 fun _ => false)
    (.backend 0 .setFlags :: runSnapshot 0 ++ runAssign 1 ++ runCommit 1 ++ runAdvance 1 ++
      .scanner :: .checkpoint 0 :: replicate 7 (.scan 0 none none))
    (fun s => s.cutoffPage = 32 ∧ s.removed 0 = true ∧ s.shared.nextXid = 32768 ∧
      (s.backends 0).pc = .run ∧ (s.backends 0).transactionXmin = some 32767) (by decide +kernel)
  refine ⟨s, run, 0, 32767, ⟨hpc, by omega, 32767, htx, le_rfl⟩, ?_, hremoved⟩
  rw [hcut]
  decide

end Polar.Csn
