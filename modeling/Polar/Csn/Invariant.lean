import Polar.Csn.System

/-!
# What holds of every backend

Only the owner of an xid writes its csnlog entry, and it writes no entry that is final. So what a
backend has learned about final entries stays true whatever the others do.
-/

namespace Polar.Csn

variable {sh sh' : Shared} {b b' c : Backend} {x csn xmin : Nat}

/-- The transaction of the xid is over. -/
def Final (sh : Shared) (x : Nat) : Prop := (sh.csnlog x).final = true

/-- The xid may still commit, or did so at or after `csn`. -/
def Late (sh : Shared) (csn x : Nat) : Prop :=
  ¬ Final sh x ∨ ∃ c, sh.csnlog x = .committed c ∧ csn ≤ c

/-- Nothing before `xmin` is late for `csn`. -/
def Covers (sh : Shared) (xmin csn : Nat) : Prop := ∀ x, Late sh csn x → xmin ≤ x

/-- What the steps of any backend keep. -/
structure Shared.Le (sh sh' : Shared) : Prop where
  oldest : sh.oldestActiveXid ≤ sh'.oldestActiveXid
  nextXid : sh.nextXid ≤ sh'.nextXid
  latest : sh.latestCompletedXid ≤ sh'.latestCompletedXid
  nextCsn : sh.nextCsn ≤ sh'.nextCsn
  final : ∀ x, Final sh x → sh'.csnlog x = sh.csnlog x

namespace Shared.Le

theorem refl (sh : Shared) : sh.Le sh :=
  ⟨le_rfl, le_rfl, le_rfl, le_rfl, fun _ _ => rfl⟩

theorem final_of (le : sh.Le sh') (hx : Final sh x) : Final sh' x := by
  rwa [Final, le.final x hx]

theorem late_of (le : sh.Le sh') (h : Late sh' csn x) : Late sh csn x := by
  by_cases hx : Final sh x
  · rwa [Late, Final, le.final x hx] at h
  · exact .inl hx

theorem covers (le : sh.Le sh') (h : Covers sh xmin csn) : Covers sh' xmin csn :=
  fun x hx => h x (le.late_of hx)

end Shared.Le

theorem not_final_of_late (h : Late sh sh.nextCsn x)
    (hcsn : ∀ x c, sh.csnlog x = .committed c → c < sh.nextCsn) : ¬ Final sh x := by
  obtain h | ⟨c, hc, hle⟩ := h
  · exact h
  · exact absurd (hcsn x c hc) (Nat.not_lt.mpr hle)

/-- The backend may write the entry of the xid. -/
def Owns (b : Backend) (x : Nat) : Prop := x ∈ b.members ∨ ∃ parent, b.pc = .assign x parent

/-- What a backend knows at each place. -/
def PcOk (sh : Shared) (b : Backend) : Prop :=
  match b.pc with
  | .run => ∀ m ∈ b.members, ¬ Final sh m
  | .commitClog | .commitLatest | .commitMark => (∀ m ∈ b.members, ¬ Final sh m) ∧ b.xid.isSome = true
  | .assign xid parent =>
    (∀ m ∈ b.members, ¬ Final sh m ∧ m < xid) ∧ sh.csnlog xid = .inProgress ∧
      b.mayAllocate parent = true ∧ xid < sh.nextXid
  | .attach xid _ => (∀ m ∈ b.members, ¬ Final sh m) ∧ ∃ parent, (xid, parent) ∈ b.subxids
  | .snapRead xmin => (∀ m ∈ b.members, ¬ Final sh m) ∧ xmin ≤ sh.oldestActiveXid
  | .snapPublished xmin =>
    (∀ m ∈ b.members, ¬ Final sh m) ∧ b.xmin = some xmin ∧ xmin ≤ sh.oldestActiveXid ∧
      b.snapshots = []
  | .snapReread xmin =>
    (∀ m ∈ b.members, ¬ Final sh m) ∧ (∃ xmin', b.xmin = some xmin' ∧ xmin' ≤ xmin) ∧
      xmin ≤ sh.oldestActiveXid ∧ b.snapshots = []
  | .snapXmin xmin =>
    (∀ m ∈ b.members, ¬ Final sh m) ∧ b.xmin.isSome = true ∧ xmin ≤ sh.oldestActiveXid
  | .snapCsn xmin csn =>
    (∀ m ∈ b.members, ¬ Final sh m) ∧ xmin ≤ sh.oldestActiveXid ∧ Covers sh xmin csn ∧
      csn ≤ sh.nextCsn ∧ ∃ xmin', b.xmin = some xmin' ∧ Covers sh xmin' csn
  | .stamp value xids todo top =>
    value.final = true ∧ (∀ csn, value = .committed csn → csn < sh.nextCsn) ∧
      (∃ done, xids = done ++ todo ∧ ∀ m ∈ done, sh.csnlog m = value) ∧
      (∀ m ∈ todo, ¬ Final sh m) ∧ xids.Nodup ∧ b.xid.isSome = true ∧
      if top = true then xids = b.members
      else value = .aborted ∧ (∀ m ∈ xids, m ∈ b.subxids.map Prod.fst) ∧
        ∀ m ∈ b.members, m ∉ xids → ¬ Final sh m
  | .stamped => (∀ m ∈ b.members, Final sh m) ∧ b.xid.isSome = true
  | .clearing myXid =>
    b.xid = none ∧ Final sh myXid ∧ myXid < sh.nextXid ∧ b.snapshots = []
  | .advance myXid => b.xid = none ∧ Final sh myXid ∧ myXid < sh.nextXid
  | .advanceNext oldValue xid =>
    b.xid = none ∧ oldValue ≤ xid ∧ xid ≤ sh.nextXid ∧ ∀ x < xid, Final sh x
  | .advanceScan oldValue xid nextXid =>
    b.xid = none ∧ oldValue ≤ xid ∧ xid ≤ sh.nextXid ∧ nextXid ≤ sh.nextXid ∧
      ∀ x < xid, Final sh x
  | .advanceCas oldValue xid =>
    b.xid = none ∧ oldValue ≤ xid ∧ xid ≤ sh.nextXid ∧ ∀ x < xid, Final sh x

/-- What holds of one backend. -/
structure Local (sh : Shared) (b : Backend) : Prop where
  lt_nextXid : ∀ m ∈ b.members, m < sh.nextXid
  nodup : b.members.Nodup
  top_lt : ∀ xid, b.xid = some xid → ∀ sub ∈ b.subxids, xid < sub.1
  subxids : b.xid = none → b.subxids = []
  top : ∀ xid, b.xid = some xid → ∀ parent, sh.csnlog xid ≠ .subtrans parent
  xmin : ∀ xmin, b.xmin = some xmin → xmin ≤ sh.oldestActiveXid
  snapshots : ∀ snap ∈ b.snapshots, snap.xmin ≤ sh.oldestActiveXid ∧
    Covers sh snap.xmin snap.csn ∧ ∃ xmin, b.xmin = some xmin ∧ Covers sh xmin snap.csn
  pc : PcOk sh b

theorem Local.init (sh : Shared) : Local sh Backend.init where
  lt_nextXid := by simp [Backend.init, Backend.members]
  nodup := List.nodup_nil
  top_lt := by simp [Backend.init]
  subxids _ := rfl
  top := by simp [Backend.init]
  xmin := by simp [Backend.init]
  snapshots := by simp [Backend.init]
  pc := by simp [PcOk, Backend.init, Backend.members]

/-- What a backend knows of its snapshots stays true. -/
theorem Local.snapshots_le (h : Local sh c) (le : sh.Le sh') :
    ∀ snap ∈ c.snapshots, snap.xmin ≤ sh'.oldestActiveXid ∧
      Covers sh' snap.xmin snap.csn ∧ ∃ xmin, c.xmin = some xmin ∧ Covers sh' xmin snap.csn := by
  intro snap hs
  obtain ⟨hle, hcov, xmin, hx, hcov'⟩ := h.snapshots snap hs
  exact ⟨hle.trans le.oldest, le.covers hcov, xmin, hx, le.covers hcov'⟩

/-- What others write does not concern the backend. -/
theorem PcOk.frame (h : PcOk sh c) (le : sh.Le sh')
    (same : ∀ m, Owns c m → sh'.csnlog m = sh.csnlog m) : PcOk sh' c := by
  have hopen : ∀ m, Owns c m → ¬ Final sh m → ¬ Final sh' m := by
    intro m hm hnot
    rwa [Final, same m hm]
  have hmem : (∀ m ∈ c.members, ¬ Final sh m) → ∀ m ∈ c.members, ¬ Final sh' m :=
    fun hall m hm => hopen m (.inl hm) (hall m hm)
  have hbelow : ∀ {xid : Nat}, (∀ x < xid, Final sh x) → ∀ x < xid, Final sh' x :=
    fun hall x hx => le.final_of (hall x hx)
  unfold PcOk at h ⊢
  cases hpc : c.pc
  all_goals simp only [hpc] at h ⊢
  case run => exact hmem h
  case commitClog => exact h.imp_left hmem
  case commitLatest => exact h.imp_left hmem
  case commitMark => exact h.imp_left hmem
  case assign xid parent =>
    obtain ⟨hall, hprog, hmay, hlt⟩ := h
    refine ⟨fun m hm => ⟨hmem (fun m hm => (hall m hm).1) m hm, (hall m hm).2⟩, ?_, hmay,
      hlt.trans_le le.nextXid⟩
    rw [same xid (.inr ⟨parent, hpc⟩), hprog]
  case attach => exact h.imp_left hmem
  case snapRead => exact ⟨hmem h.1, h.2.trans le.oldest⟩
  case snapPublished => exact ⟨hmem h.1, h.2.1, h.2.2.1.trans le.oldest, h.2.2.2⟩
  case snapReread => exact ⟨hmem h.1, h.2.1, h.2.2.1.trans le.oldest, h.2.2.2⟩
  case snapXmin => exact ⟨hmem h.1, h.2.1, h.2.2.trans le.oldest⟩
  case snapCsn =>
    obtain ⟨hall, hle, hcov, hcsn, xmin', hx, hcov'⟩ := h
    exact ⟨hmem hall, hle.trans le.oldest, le.covers hcov, hcsn.trans le.nextCsn, xmin', hx,
      le.covers hcov'⟩
  case stamp value xids todo top =>
    obtain ⟨hval, hcsn, ⟨done, hdone, hfinal⟩, htodo, hnodup, hsome, htop⟩ := h
    have hsub : ∀ m ∈ xids, m ∈ c.members := by
      intro m hm
      by_cases ht : top = true
      · rw [if_pos ht] at htop
        exact htop ▸ hm
      · rw [if_neg ht] at htop
        obtain ⟨xid, hxid⟩ := Option.isSome_iff_exists.mp hsome
        simp only [Backend.members, hxid]
        exact List.mem_append_left _ (htop.2.1 m hm)
    refine ⟨hval, fun csn hv => (hcsn csn hv).trans_le le.nextCsn,
      ⟨done, hdone, fun m hm => ?_⟩,
      fun m hm => hopen m (.inl (hsub m ?_)) (htodo m hm), hnodup, hsome, ?_⟩
    · rw [le.final m (by rw [Final, hfinal m hm]; exact hval)]
      exact hfinal m hm
    · rw [hdone]
      exact List.mem_append_right _ hm
    · split
      · next ht => simpa only [if_pos ht] using htop
      · next ht =>
        rw [if_neg ht] at htop
        exact ⟨htop.1, htop.2.1, fun m hm hnot => hopen m (.inl hm) (htop.2.2 m hm hnot)⟩
  case stamped => exact ⟨fun m hm => le.final_of (h.1 m hm), h.2⟩
  case clearing => exact ⟨h.1, le.final_of h.2.1, h.2.2.1.trans_le le.nextXid, h.2.2.2⟩
  case advance => exact ⟨h.1, le.final_of h.2.1, h.2.2.trans_le le.nextXid⟩
  case advanceNext => exact ⟨h.1, h.2.1, h.2.2.1.trans le.nextXid, hbelow h.2.2.2⟩
  case advanceScan =>
    exact ⟨h.1, h.2.1, h.2.2.1.trans le.nextXid, h.2.2.2.1.trans le.nextXid, hbelow h.2.2.2.2⟩
  case advanceCas => exact ⟨h.1, h.2.1, h.2.2.1.trans le.nextXid, hbelow h.2.2.2⟩

theorem Local.frame (h : Local sh c) (le : sh.Le sh')
    (same : ∀ m, Owns c m → sh'.csnlog m = sh.csnlog m) : Local sh' c where
  lt_nextXid m hm := (h.lt_nextXid m hm).trans_le le.nextXid
  nodup := h.nodup
  top_lt := h.top_lt
  subxids := h.subxids
  top xid hxid := by
    rw [same xid (.inl (by simp [Backend.members, hxid]))]
    exact h.top xid hxid
  xmin xmin hx := (h.xmin xmin hx).trans le.oldest
  snapshots := h.snapshots_le le
  pc := h.pc.frame le same

end Polar.Csn
