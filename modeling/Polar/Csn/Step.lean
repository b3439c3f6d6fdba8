import Polar.Csn.Invariant

/-!
# The steps of a backend

What one step of a backend does to the shared state, and that it keeps what the backend knows.
-/

namespace Polar.Csn

open Backend (members)

open Shared (setCsn)

open List Function

variable {sh sh' : Shared} {b b' : Backend} {x xid : Nat}

/-- What is true of the shared state by itself. -/
structure Shared.Ok (sh : Shared) : Prop where
  active : ∀ x < sh.oldestActiveXid, Final sh x
  oldest_le : sh.oldestActiveXid ≤ sh.nextXid
  latest_lt : sh.latestCompletedXid < sh.nextXid
  csn : ∀ x csn, sh.csnlog x = .committed csn → csn < sh.nextCsn
  fresh : ∀ x, sh.nextXid ≤ x → sh.csnlog x = .inProgress

/-- What one step of a backend does. -/
structure Moves (sh : Shared) (b : Backend) (sh' : Shared) (b' : Backend) : Prop where
  le : sh.Le sh'
  after : Local sh' b'
  same : ∀ x, ¬ Owns b x → sh'.csnlog x = sh.csnlog x
  kept : ∀ x, Owns b x → Owns b' x ∨ sh'.csnlog x = .aborted ∨ b.pc = .stamped ∧ Final sh' x
  new : ∀ x, Owns b' x → Owns b x ∨ x = sh.nextXid ∧ sh'.nextXid = x + 1
  allocated : sh'.nextXid = sh.nextXid ∨ sh'.nextXid = sh.nextXid + 1 ∧ Owns b' sh.nextXid
  latest : ∀ k, sh.latestCompletedXid < k → (∀ m ∈ b.members, m < k) →
    sh'.latestCompletedXid < k
  lock : ∀ x parent, b'.pc = .assign x parent → sh'.xidGenLock = true ∧ x + 1 = sh'.nextXid ∧
    sh'.latestCompletedXid < x
  locked : sh.xidGenLock = true → sh'.xidGenLock = true ∧ sh'.nextXid = sh.nextXid ∨
    ∃ x parent, b.pc = .assign x parent
  active : ∀ x < sh'.oldestActiveXid, Final sh' x
  oldest_le : sh'.oldestActiveXid ≤ sh'.nextXid
  csn : ∀ x csn, sh'.csnlog x = .committed csn → csn < sh'.nextCsn

theorem foldl_max_lt {l : List Nat} {a k : Nat} (ha : a < k) (hl : ∀ m ∈ l, m < k) :
    l.foldl max a < k := by
  induction l generalizing a with
  | nil => exact ha
  | cons m l ih =>
    exact ih (max_lt ha (hl m mem_cons_self)) fun m' hm' =>
      hl m' (mem_cons_of_mem _ hm')

theorem le_foldl_max (l : List Nat) (a : Nat) : a ≤ l.foldl max a := by
  induction l generalizing a with
  | nil => exact le_rfl
  | cons m l ih => exact (le_max_left a m).trans (ih _)

theorem foldl_min_le (l : List Nat) (a : Nat) : l.foldl min a ≤ a ∧ ∀ m ∈ l, l.foldl min a ≤ m := by
  induction l generalizing a with
  | nil => simp
  | cons m l ih =>
    obtain ⟨hle, hall⟩ := ih (min a m)
    refine ⟨hle.trans (min_le_left _ _), fun m' hm' => ?_⟩
    obtain rfl | hm' := mem_cons.mp hm'
    · exact hle.trans (min_le_right _ _)
    · exact hall m' hm'

theorem subtree_sublist (sub : Nat) (subxids : List (Nat × Nat)) :
    (subtree sub subxids).Sublist (subxids.map Prod.fst) := by
  induction subxids with
  | nil => exact List.Sublist.slnil
  | cons head rest ih =>
    simp only [subtree, map_cons]
    split
    · exact ih.cons_cons _
    · exact ih.cons _

theorem mem_members_of_top (h : b.xid = some xid) : xid ∈ b.members := by
  simp [members, h]

theorem mem_members_of_sub {sub : Nat × Nat} (h : b.xid = some xid) (hsub : sub ∈ b.subxids) :
    sub.1 ∈ b.members := by
  simp only [members, h]
  exact mem_append_left _ (mem_map_of_mem hsub)

theorem xid_isSome_of_mem {m : Nat} (h : m ∈ b.members) : b.xid.isSome = true := by
  cases hx : b.xid with
  | none => simp [members, hx] at h
  | some xid => rfl

/-- Writing an entry that is not final. -/
theorem Shared.le_setCsn (value : Entry) (h : ¬ Final sh x) : sh.Le (sh.setCsn x value) := by
  refine ⟨le_rfl, le_rfl, le_rfl, le_rfl, fun y hy => ?_⟩
  have hne : y ≠ x := fun heq => h (heq ▸ hy)
  exact update_of_ne hne ..

theorem final_setCsn_of_ne {y : Nat} {value : Entry} (h : y ≠ x) :
    Final (sh.setCsn x value) y ↔ Final sh y := by
  simp [Final, setCsn, update_of_ne h]

theorem final_setCsn_self {value : Entry} : Final (sh.setCsn x value) x ↔ value.final = true := by
  simp [Final, setCsn]

/-- A backend at this place holds an xid that is not in its tree yet. -/
def Pc.assigning : Pc → Bool
  | .assign .. => true
  | _ => false

theorem Pc.ne_assign {pc : Pc} (h : pc.assigning = false) (x : Nat) (parent : Option Nat) :
    pc ≠ .assign x parent := by
  rintro rfl
  cases h

theorem Local.at_pc {pc : Pc} (loc : Local sh b) (hpc : b.pc = pc) :
    PcOk sh { b with pc := pc } := hpc ▸ loc.pc

namespace Moves

variable {pc : Pc}

/-- A step that keeps what the backend owns. -/
theorem ofOwns (howns : ∀ x, Owns b x ↔ Owns b' x) (hle : sh.Le sh') (hafter : Local sh' b')
    (hsame : ∀ x, ¬ Owns b x → sh'.csnlog x = sh.csnlog x)
    (hlatest : ∀ k, sh.latestCompletedXid < k → (∀ m ∈ b.members, m < k) →
      sh'.latestCompletedXid < k)
    (hnext : sh'.nextXid = sh.nextXid)
    (hlocked : sh'.xidGenLock = sh.xidGenLock ∨ ∃ x parent, b.pc = .assign x parent)
    (hactive : ∀ x < sh'.oldestActiveXid, Final sh' x) (hold : sh'.oldestActiveXid ≤ sh'.nextXid)
    (hcsn : ∀ x csn, sh'.csnlog x = .committed csn → csn < sh'.nextCsn)
    (hto : b'.pc.assigning = false) : Moves sh b sh' b' where
  le := hle
  after := hafter
  same := hsame
  kept x hx := .inl ((howns x).mp hx)
  new x hx := .inl ((howns x).mpr hx)
  allocated := .inl hnext
  latest := hlatest
  lock x parent hx := absurd hx (Pc.ne_assign hto x parent)
  locked hl := hlocked.imp_left fun hlock => ⟨hlock.trans hl, hnext⟩
  active := hactive
  oldest_le := hold
  csn := hcsn

/-- A backend that does not hold a new xid owns its tree. -/
theorem owns_iff (hpc : b.pc = pc) (hmem : b'.members = b.members)
    (hfrom : pc.assigning = false) (hto : b'.pc.assigning = false) (x : Nat) :
    Owns b x ↔ Owns b' x := by
  simp [Owns, hmem, hpc, Pc.ne_assign hfrom, Pc.ne_assign hto]

theorem ofBackend (ok : sh.Ok) (hpc : b.pc = pc) (hmem : b'.members = b.members)
    (hfrom : pc.assigning = false) (hto : b'.pc.assigning = false) (hafter : Local sh b') :
    Moves sh b sh b' :=
  ofOwns (owns_iff hpc hmem hfrom hto) (.refl sh) hafter (fun _ _ => rfl) (fun _ hk _ => hk) rfl
    (.inl rfl) ok.active ok.oldest_le ok.csn hto

theorem goto {pc' : Pc} (ok : sh.Ok) (loc : Local sh b) (hpc : b.pc = pc)
    (hfrom : pc.assigning = false) (hto : pc'.assigning = false)
    (h : PcOk sh { b with pc := pc' }) : Moves sh b sh { b with pc := pc' } :=
  ofBackend ok hpc rfl hfrom hto { loc with pc := h }

/-- A write to the log of an entry of the tree. -/
theorem ofSetCsn {value : Entry} (ok : sh.Ok) (hpc : b.pc = pc) (hmem : b'.members = b.members)
    (hfrom : pc.assigning = false) (hto : b'.pc.assigning = false) (hx : x ∈ b.members)
    (hnot : ¬ Final sh x) (hvalue : ∀ csn, value = .committed csn → csn < sh.nextCsn)
    (hafter : Local (sh.setCsn x value) b') :
    Moves sh b (sh.setCsn x value) b' := by
  have hle := sh.le_setCsn value hnot
  refine ofOwns (owns_iff hpc hmem hfrom hto) hle hafter (fun y hy => ?_) (fun _ hk _ => hk) rfl
    (.inl rfl) (fun y hy => hle.final_of (ok.active y hy)) ok.oldest_le (fun y csn hy => ?_) hto
  · exact update_of_ne (fun heq : y = x => hy (.inl (heq ▸ hx))) ..
  · by_cases heq : y = x
    · subst heq
      exact hvalue csn (by simpa [setCsn] using hy)
    · exact ok.csn y csn (by simpa [setCsn, update_of_ne heq] using hy)

/-- A step that covers part of the tree by `polar_latest_completed_xid`. -/
theorem ofLatest {xids : List Nat} (ok : sh.Ok) (loc : Local sh b) (hpc : b.pc = pc)
    {pc' : Pc} (hfrom : pc.assigning = false) (hto : pc'.assigning = false)
    (hsub : ∀ m ∈ xids, m ∈ b.members) (h : PcOk sh { b with pc := pc' }) :
    Moves sh b (sh.updateLatestCompleted xids) { b with pc := pc' } :=
  ofOwns (owns_iff hpc rfl hfrom hto) ⟨le_rfl, le_rfl, le_foldl_max _ _, le_rfl, fun _ _ => rfl⟩
    { loc with pc := h } (fun _ _ => rfl)
    (fun _ hk hall => foldl_max_lt hk fun m hm => hall m (hsub m hm)) rfl (.inl rfl) ok.active
    ok.oldest_le ok.csn hto

/-- Nothing before the oldest active xid is late for the next CSN. -/
theorem covers_nextCsn {xmin : Nat} (ok : sh.Ok) (hle : xmin ≤ sh.oldestActiveXid) :
    Covers sh xmin sh.nextCsn := by
  intro x hx
  by_contra hlt
  exact not_final_of_late hx ok.csn (ok.active x (by omega))

theorem members_eq_nil (h : b.xid = none) : b.members = [] := by simp [Backend.members, h]

theorem run_open (loc : Local sh b) (hpc : b.pc = .run) : ∀ m ∈ b.members, ¬ Final sh m := by
  have hok := loc.pc
  simpa only [PcOk, hpc] using hok

theorem pcOk_run (hpc : b.pc = .run) (hopen : ∀ m ∈ b.members, ¬ Final sh m) : PcOk sh b := by
  simpa only [PcOk, hpc] using hopen

/-- The new xid joins the tree. -/
theorem ofAssign {parent : Option Nat} (ok : sh.Ok) (hpc : b.pc = .assign xid parent)
    (hmem : ∀ y, y ∈ b'.members ↔ y = xid ∨ y ∈ b.members)
    (hafter : Local { sh with xidGenLock := false } b')
    (hto : b'.pc.assigning = false) : Moves sh b { sh with xidGenLock := false } b' :=
  ofOwns (fun y => by simp [Owns, hpc, hmem, Pc.ne_assign hto, or_comm, eq_comm])
    ⟨le_rfl, le_rfl, le_rfl, le_rfl, fun _ _ => rfl⟩ hafter (fun _ _ => rfl) (fun _ hk _ => hk) rfl
    (.inr ⟨xid, parent, hpc⟩) ok.active ok.oldest_le ok.csn hto

/-- A step outside any call, which stays outside. -/
theorem ofRun (ok : sh.Ok) (loc : Local sh b) (hpc : b.pc = .run) (hpc' : b'.pc = .run)
    (hmem : b'.members = b.members) (hafter : PcOk sh b' → Local sh b') : Moves sh b sh b' :=
  ofBackend ok hpc hmem rfl (hpc' ▸ rfl) (hafter (pcOk_run hpc' (hmem ▸ run_open loc hpc)))

/-- Back outside, without an xid. -/
theorem toRun (ok : sh.Ok) (loc : Local sh b) (hpc : b.pc = pc) (hnone : b.xid = none)
    (hfrom : pc.assigning = false) : Moves sh b sh { b with pc := .run } :=
  goto ok loc hpc hfrom rfl (by simp [PcOk, members, hnone])

section

variable (ok : sh.Ok) (loc : Local sh b)
include ok loc

theorem assign_none (hpc : b.pc = .assign xid none) :
    Moves sh b { sh with xidGenLock := false } { b with xid := some xid, pc := .run } := by
  obtain ⟨-, hprog, hmay, hlt⟩ := loc.at_pc hpc
  have hnone : b.xid = none := by simpa [Backend.mayAllocate] using hmay
  have hsubs := loc.subxids hnone
  have hmem' : ({ b with xid := some xid, pc := .run } : Backend).members = [xid] := by
    simp [members, hsubs]
  refine ofAssign ok hpc (fun y => by simp [hmem', members_eq_nil hnone])
    ⟨?_, ?_, ?_, ?_, ?_, loc.xmin, loc.snapshots, ?_⟩ rfl
  · rw [hmem']
    simpa using hlt
  · rw [hmem']
    simp
  · simp [hsubs]
  · rintro ⟨⟩
  · rintro _ ⟨⟩ parent h
    rw [hprog] at h
    cases h
  · simp only [PcOk, hmem', mem_singleton]
    rintro m rfl
    simp [Final, hprog, Entry.final]

theorem assign_some {parent : Nat} (hpc : b.pc = .assign xid (some parent)) :
    Moves sh b { sh with xidGenLock := false }
      { b with subxids := (xid, parent) :: b.subxids, pc := .attach xid parent } := by
  obtain ⟨hall, hprog, hmay, hlt⟩ := loc.at_pc hpc
  have hparent : parent ∈ b.members := of_decide_eq_true hmay
  obtain ⟨top, htop⟩ := Option.isSome_iff_exists.mp (xid_isSome_of_mem hparent)
  have hmem' : ({ b with subxids := (xid, parent) :: b.subxids, pc := .attach xid parent } :
      Backend).members = xid :: b.members := by
    simp [members, htop]
  have hopen : ¬ Final sh xid := by simp [Final, hprog, Entry.final]
  refine ofAssign ok hpc (fun y => by simp [hmem'])
    ⟨?_, ?_, ?_, ?_, loc.top, loc.xmin, loc.snapshots, ?_⟩ rfl
  · rw [hmem']
    exact forall_mem_cons.mpr ⟨hlt, loc.lt_nextXid⟩
  · rw [hmem']
    exact nodup_cons.mpr ⟨fun h => absurd (hall xid h).2 (lt_irrefl _), loc.nodup⟩
  · intro xid' hxid'
    have htop' : xid' ∈ b.members := mem_members_of_top hxid'
    exact forall_mem_cons.mpr ⟨(hall xid' htop').2, loc.top_lt xid' hxid'⟩
  · intro h
    exact absurd (htop.symm.trans h) (by simp)
  · simp only [PcOk, hmem']
    exact ⟨forall_mem_cons.mpr ⟨hopen, fun m hm => (hall m hm).1⟩, parent, mem_cons_self⟩

variable (hs : b.next sh = some (sh', b')) {xmin : Nat}
include hs

theorem attach {parent : Nat} (hpc : b.pc = .attach xid parent) : Moves sh b sh' b' := by
  simp only [Backend.next, hpc] at hs
  cases hs
  obtain ⟨hall, parent', hsub⟩ := loc.at_pc hpc
  have hsome : b.xid.isSome = true := by
    cases hx : b.xid with
    | none =>
      rw [loc.subxids hx] at hsub
      cases hsub
    | some xid => rfl
  obtain ⟨top, htop⟩ := Option.isSome_iff_exists.mp hsome
  have hmem : xid ∈ b.members := mem_members_of_sub htop hsub
  have hle := sh.le_setCsn (.subtrans parent) (hall xid hmem)
  refine ofSetCsn ok hpc rfl rfl rfl hmem (hall xid hmem) (by simp)
    { loc with top := ?_, snapshots := loc.snapshots_le hle, pc := ?_ }
  · intro top' htop' parent''
    have hne : top' ≠ xid := ne_of_lt (loc.top_lt top' htop' _ hsub)
    simpa [setCsn, update_of_ne hne] using loc.top top' htop' parent''
  · intro m hm
    by_cases heq : m = xid
    · subst heq
      simp [final_setCsn_self, Entry.final]
    · rw [final_setCsn_of_ne heq]
      exact hall m hm

theorem snapRead (hpc : b.pc = .snapRead xmin) : Moves sh b sh' b' := by
  obtain ⟨hall, hle⟩ := loc.at_pc hpc
  simp only [Backend.next, hpc] at hs
  split at hs <;> cases hs
  · next hsome =>
    exact goto ok loc hpc rfl rfl ⟨hall, hsome, hle⟩
  · next hsome =>
    -- without an xmin there is no snapshot
    have hempty : b.snapshots = [] := by
      refine eq_nil_iff_forall_not_mem.mpr fun snap hs => ?_
      obtain ⟨-, -, xmin', hx, -⟩ := loc.snapshots snap hs
      simp [hx] at hsome
    exact ofBackend ok hpc rfl rfl rfl { loc with
      xmin := by rintro _ ⟨⟩; exact hle
      snapshots := by simp [hempty]
      pc := ⟨hall, rfl, hle, hempty⟩ }

theorem snapPublished (hpc : b.pc = .snapPublished xmin) : Moves sh b sh' b' := by
  obtain ⟨hall, hxmin, hle, hempty⟩ := loc.at_pc hpc
  simp only [Backend.next, hpc] at hs
  split at hs <;> cases hs
  · exact goto ok loc hpc rfl rfl ⟨hall, Option.isSome_of_eq_some hxmin, hle⟩
  · exact goto ok loc hpc rfl rfl ⟨hall, ⟨xmin, hxmin, hle⟩, le_rfl, hempty⟩

theorem snapReread (hpc : b.pc = .snapReread xmin) : Moves sh b sh' b' := by
  simp only [Backend.next, hpc] at hs
  cases hs
  obtain ⟨hall, -, hle, (hempty : b.snapshots = [])⟩ := loc.at_pc hpc
  exact ofBackend ok hpc rfl rfl rfl { loc with
    xmin := by rintro _ ⟨⟩; exact hle
    snapshots := by simp [hempty]
    pc := ⟨hall, rfl, hle⟩ }

theorem snapXmin (hpc : b.pc = .snapXmin xmin) : Moves sh b sh' b' := by
  simp only [Backend.next, hpc] at hs
  cases hs
  obtain ⟨hall, hsome, hle⟩ := loc.at_pc hpc
  obtain ⟨xmin', hxmin⟩ := Option.isSome_iff_exists.mp hsome
  exact goto ok loc hpc rfl rfl ⟨hall, hle, covers_nextCsn ok hle, le_rfl, xmin', hxmin,
    covers_nextCsn ok (loc.xmin xmin' hxmin)⟩

theorem snapCsn {csn : Nat} (hpc : b.pc = .snapCsn xmin csn) : Moves sh b sh' b' := by
  simp only [Backend.next, hpc] at hs
  cases hs
  obtain ⟨hall, hle, hcov, -, hxmin⟩ := loc.at_pc hpc
  exact ofBackend ok hpc rfl rfl rfl { loc with
    snapshots := forall_mem_cons.mpr ⟨⟨hle, hcov, hxmin⟩, loc.snapshots⟩, pc := hall }

theorem commitClog (hpc : b.pc = .commitClog) : Moves sh b sh' b' := by
  simp only [Backend.next, hpc] at hs
  cases hs
  have hok := loc.at_pc hpc
  exact ofLatest ok loc hpc rfl rfl (fun _ hm => hm) hok

theorem commitLatest (hpc : b.pc = .commitLatest) : Moves sh b sh' b' := by
  obtain ⟨hall, hsome⟩ := loc.at_pc hpc
  simp only [Backend.next, hpc] at hs
  obtain ⟨top, htop, hs⟩ := Option.bind_eq_some_iff.mp hs
  cases hs
  have hmem := mem_members_of_top htop
  have hle := sh.le_setCsn .committing (hall top hmem)
  refine ofSetCsn ok hpc rfl rfl rfl hmem (hall top hmem) (by simp)
    { loc with top := ?_, snapshots := loc.snapshots_le hle, pc := ⟨?_, hsome⟩ }
  · intro top' htop'
    obtain rfl : top = top' := Option.some.inj (htop.symm.trans htop')
    simp [setCsn]
  · intro m hm
    by_cases heq : m = top
    · subst heq
      simp [final_setCsn_self, Entry.final]
    · rw [final_setCsn_of_ne heq]
      exact hall m hm

theorem commitMark (hpc : b.pc = .commitMark) : Moves sh b sh' b' := by
  simp only [Backend.next, hpc] at hs
  cases hs
  obtain ⟨hall, hsome⟩ := loc.at_pc hpc
  refine ofOwns (owns_iff hpc rfl rfl rfl) ⟨le_rfl, le_rfl, le_rfl, Nat.le_succ _, fun _ _ => rfl⟩
    { loc with pc := ⟨rfl, ?_, ⟨[], rfl, by simp⟩, hall, loc.nodup, hsome, rfl⟩ }
    (fun _ _ => rfl) (fun _ hk _ => hk) rfl (.inl rfl) ok.active ok.oldest_le
    (fun x csn hx => (ok.csn x csn hx).trans (Nat.lt_succ_self _)) rfl
  rintro _ ⟨⟩
  exact Nat.lt_succ_self _

variable {top : Bool}

/-- Writing the next entry in `polar_csnlog_set_csn`. -/
theorem stamp_cons {value : Entry} {xids todo : List Nat}
    (hpc : b.pc = .stamp value xids (xid :: todo) top) : Moves sh b sh' b' := by
  simp only [Backend.next, hpc] at hs
  cases hs
  obtain ⟨hval, hcsn, ⟨done, hdone, hfinal⟩, htodo, hnodup, hsome, htop⟩ := loc.at_pc hpc
  obtain ⟨t, ht⟩ := Option.isSome_iff_exists.mp hsome
  have hx : xid ∈ xids := by simp [hdone]
  have hmem : xid ∈ b.members := by
    cases top with
    | true => exact htop ▸ hx
    | false =>
      obtain ⟨sub, hsub, rfl⟩ := mem_map.mp (htop.2.1 xid hx)
      exact mem_members_of_sub ht hsub
  have hnot : ¬ Final sh xid := htodo xid mem_cons_self
  have hle := sh.le_setCsn value hnot
  have hne : ∀ m ∈ todo, m ≠ xid := by
    rintro m hm rfl
    rw [hdone] at hnodup
    exact (nodup_cons.mp (nodup_append.mp hnodup).2.1).1 hm
  refine ofSetCsn ok hpc rfl rfl rfl hmem hnot hcsn { loc with
    top := ?_, snapshots := loc.snapshots_le hle
    pc := ⟨hval, hcsn, ⟨done ++ [xid], by simp [hdone], ?_⟩, ?_, hnodup, hsome, ?_⟩ }
  · intro t' ht' parent
    by_cases heq : t' = xid
    · subst heq
      simp only [setCsn, update_self]
      rintro rfl
      cases hval
    · simpa [setCsn, update_of_ne heq] using loc.top t' ht' parent
  · refine forall_mem_append.mpr ⟨fun m hm => ?_, forall_mem_singleton.mpr (update_self ..)⟩
    rw [hle.final m (by rw [Final, hfinal m hm]; exact hval)]
    exact hfinal m hm
  · intro m hm
    rw [final_setCsn_of_ne (hne m hm)]
    exact htodo m (mem_cons_of_mem _ hm)
  · cases top with
    | true => exact htop
    | false =>
      refine ⟨htop.1, htop.2.1, fun m hm hnotin => ?_⟩
      have hmx : m ≠ xid := fun heq => hnotin (heq ▸ hx)
      rw [final_setCsn_of_ne hmx]
      exact htop.2.2 m hm hnotin

/-- All members have their csn. -/
theorem stamp_nil {value : Entry} {xids : List Nat} (hpc : b.pc = .stamp value xids [] top) :
    Moves sh b sh' b' := by
  simp only [Backend.next, hpc] at hs
  obtain ⟨hval, -, ⟨done, hdone, hvalue⟩, -, -, hsome, htop⟩ := loc.at_pc hpc
  rw [append_nil] at hdone
  subst hdone
  have hfinal : ∀ m ∈ xids, Final sh m := fun m hm => by rw [Final, hvalue m hm]; exact hval
  cases top with
  | true =>
    cases hs
    exact goto ok loc hpc rfl rfl ⟨fun m hm => hfinal m (htop ▸ hm), hsome⟩
  | false =>
    cases hs
    obtain ⟨t, (ht : b.xid = some t)⟩ := Option.isSome_iff_exists.mp hsome
    obtain ⟨rfl, hsub, hrest⟩ := htop
    set b' : Backend :=
      { b with subxids := b.subxids.filter fun sub => sub.1 ∉ xids, pc := .run } with hb'
    have hlist : b'.members = b.members.filter fun m => m ∉ xids := by
      have htxs : t ∉ xids := by
        intro h
        obtain ⟨sub, hs, heq⟩ := mem_map.mp (hsub t h)
        exact absurd (loc.top_lt t ht sub hs) (by omega)
      simp [members, hb', ht, htxs, filter_map, comp_def]
    have hmem : ∀ m, m ∈ b'.members ↔ m ∈ b.members ∧ m ∉ xids := by
      intro m
      simp [hlist]
    refine ⟨.refl sh, ⟨fun m hm => loc.lt_nextXid m ((hmem m).mp hm).1, ?_, ?_, ?_, loc.top,
      loc.xmin, loc.snapshots, ?_⟩, fun _ _ => rfl, ?_, ?_, .inl rfl, fun _ hk _ => hk,
      by simp, fun hl => .inl ⟨hl, rfl⟩, ok.active, ok.oldest_le, ok.csn⟩
    · rw [hlist]
      exact loc.nodup.filter _
    · exact fun top' htop' sub hs => loc.top_lt top' htop' sub (mem_filter.mp hs).1
    · intro h
      exact absurd (ht.symm.trans h) (by simp)
    · exact fun m hm => hrest m ((hmem m).mp hm).1 ((hmem m).mp hm).2
    · rintro x (hx | ⟨parent, hx⟩)
      · by_cases hin : x ∈ xids
        · exact .inr (.inl (hvalue x hin))
        · exact .inl (.inl ((hmem x).mpr ⟨hx, hin⟩))
      · simp [hpc] at hx
    · rintro x (hx | ⟨parent, hx⟩)
      · exact .inl (.inl ((hmem x).mp hx).1)
      · cases hx

theorem stamped (hpc : b.pc = .stamped) : Moves sh b sh' b' := by
  obtain ⟨hall, -⟩ := loc.at_pc hpc
  simp only [Backend.next, hpc] at hs
  obtain ⟨t, ht, hs⟩ := Option.bind_eq_some_iff.mp hs
  cases hs
  have hmem := mem_members_of_top ht
  refine ⟨.refl sh, ⟨by simp [members], by simp [members], by simp, by simp,
    by simp, loc.xmin, by simp, ?_⟩, fun _ _ => rfl, ?_, ?_, .inl rfl, fun _ hk _ => hk,
    by simp, fun hl => .inl ⟨hl, rfl⟩, ok.active, ok.oldest_le, ok.csn⟩
  · exact ⟨rfl, hall t hmem, loc.lt_nextXid t hmem, rfl⟩
  · rintro x (hx | ⟨parent, hx⟩)
    · exact .inr (.inr ⟨hpc, hall x hx⟩)
    · simp [hpc] at hx
  · rintro x (hx | ⟨parent, hx⟩)
    · simp [members] at hx
    · cases hx

theorem clearing {myXid : Nat} (hpc : b.pc = .clearing myXid) : Moves sh b sh' b' := by
  simp only [Backend.next, hpc] at hs
  cases hs
  obtain ⟨hnone, hfinal, hlt, (hempty : b.snapshots = [])⟩ := loc.at_pc hpc
  exact ofBackend ok hpc rfl rfl rfl { loc with
    xmin := by simp, snapshots := by simp [hempty], pc := ⟨hnone, hfinal, hlt⟩ }

theorem advance {myXid : Nat} (hpc : b.pc = .advance myXid) : Moves sh b sh' b' := by
  obtain ⟨hnone, hfinal, hlt⟩ := loc.at_pc hpc
  simp only [Backend.next, hpc] at hs
  split at hs <;> cases hs
  · next heq =>
    refine goto ok loc hpc rfl rfl ⟨hnone, Nat.le_succ _, hlt, fun x hx => ?_⟩
    obtain hx | rfl := Nat.lt_succ_iff_lt_or_eq.mp hx
    · exact ok.active x (heq ▸ hx)
    · exact hfinal
  · exact toRun ok loc hpc hnone rfl

theorem advanceNext {oldValue : Nat} (hpc : b.pc = .advanceNext oldValue xid) :
    Moves sh b sh' b' := by
  simp only [Backend.next, hpc] at hs
  cases hs
  obtain ⟨hnone, hold, hle, hbelow⟩ := loc.at_pc hpc
  exact goto ok loc hpc rfl rfl ⟨hnone, hold, hle, le_rfl, hbelow⟩

/-- A subtransaction is not the first xid that is not over: its top transaction comes before. -/
theorem advanceScan {oldValue nextXid : Nat}
    (hsubtrans : ∀ x parent, sh.csnlog x = .subtrans parent → ∃ y < x, ¬ Final sh y)
    (hpc : b.pc = .advanceScan oldValue xid nextXid) : Moves sh b sh' b' := by
  obtain ⟨hnone, hold, hle, hnext, hbelow⟩ := loc.at_pc hpc
  simp only [Backend.next, hpc] at hs
  split at hs
  · next hskip =>
    cases hs
    refine goto ok loc hpc rfl rfl
      ⟨hnone, hold.trans (Nat.le_succ _), hskip.1.trans_le hnext, hnext, fun x hx => ?_⟩
    obtain hx | rfl := Nat.lt_succ_iff_lt_or_eq.mp hx
    · exact hbelow x hx
    · have hinactive := hskip.2
      cases hentry : sh.csnlog x with
      | inProgress | committing => simp [hentry, Entry.active] at hinactive
      | subtrans parent =>
        obtain ⟨y, hy, hnot⟩ := hsubtrans x parent hentry
        exact absurd (hbelow y hy) hnot
      | committed csn | aborted => simp [Final, hentry, Entry.final]
  · split at hs <;> cases hs
    · exact toRun ok loc hpc hnone rfl
    · exact goto ok loc hpc rfl rfl ⟨hnone, hold, hle, hbelow⟩

theorem advanceCas {oldValue : Nat} (hpc : b.pc = .advanceCas oldValue xid) :
    Moves sh b sh' b' := by
  obtain ⟨hnone, hold, hle, hbelow⟩ := loc.at_pc hpc
  simp only [Backend.next, hpc] at hs
  split at hs <;> cases hs
  · next heq =>
    have hmono : sh.Le { sh with oldestActiveXid := xid } :=
      ⟨heq.le.trans hold, le_rfl, le_rfl, le_rfl, fun _ _ => rfl⟩
    have hloc := loc.frame hmono fun _ _ => rfl
    exact ofOwns (owns_iff hpc rfl rfl rfl) hmono { hloc with pc := ⟨hnone, le_rfl, hle, hbelow⟩ }
      (fun _ _ => rfl) (fun _ hk _ => hk) rfl (.inl rfl) hbelow hle ok.csn rfl
  · exact toRun ok loc hpc hnone rfl

theorem next (hsubtrans : ∀ x parent, sh.csnlog x = .subtrans parent → ∃ y < x, ¬ Final sh y) :
    Moves sh b sh' b' := by
  cases hpc : b.pc with
  | run => simp [Backend.next, hpc] at hs
  | assign xid parent =>
    simp only [Backend.next, hpc] at hs
    cases parent <;> cases hs
    · exact assign_none ok loc hpc
    · exact assign_some ok loc hpc
  | attach xid parent => exact attach ok loc hs hpc
  | snapRead xmin => exact snapRead ok loc hs hpc
  | snapPublished xmin => exact snapPublished ok loc hs hpc
  | snapReread xmin => exact snapReread ok loc hs hpc
  | snapXmin xmin => exact snapXmin ok loc hs hpc
  | snapCsn xmin csn => exact snapCsn ok loc hs hpc
  | commitClog => exact commitClog ok loc hs hpc
  | commitLatest => exact commitLatest ok loc hs hpc
  | commitMark => exact commitMark ok loc hs hpc
  | stamp value xids todo top =>
    cases todo with
    | cons xid todo => exact stamp_cons ok loc hs hpc
    | nil => exact stamp_nil ok loc hs hpc
  | stamped => exact stamped ok loc hs hpc
  | clearing myXid => exact clearing ok loc hs hpc
  | advance myXid => exact advance ok loc hs hpc
  | advanceNext oldValue xid => exact advanceNext ok loc hs hpc
  | advanceScan oldValue xid nextXid => exact advanceScan ok loc hs hsubtrans hpc
  | advanceCas oldValue xid => exact advanceCas ok loc hs hpc

omit hs

theorem allocate {parent : Option Nat}
    (hs : b.act sh (.allocate parent) = some (sh', b')) : Moves sh b sh' b' := by
  simp only [Backend.act] at hs
  split at hs <;> cases hs
  next hcond =>
  obtain ⟨hpc, hlock, hmay⟩ := hcond
  have hprog := ok.fresh sh.nextXid le_rfl
  have hle : sh.Le { sh with
      nextXid := sh.nextXid + 1, latestPage := sh.csnlogExtend sh.nextXid, xidGenLock := true } :=
    ⟨le_rfl, Nat.le_succ _, le_rfl, le_rfl, fun _ _ => rfl⟩
  have hloc := loc.frame hle fun _ _ => rfl
  refine ⟨hle, { hloc with
    pc := ⟨fun m hm => ⟨run_open loc hpc m hm, loc.lt_nextXid m hm⟩, hprog, hmay,
      Nat.lt_succ_self _⟩ }, fun _ _ => rfl, ?_, ?_, .inr ⟨rfl, .inr ⟨parent, rfl⟩⟩,
    fun _ hk _ => hk, ?_, ?_, ok.active, ok.oldest_le.trans (Nat.le_succ _), ok.csn⟩
  · rintro x (hx | ⟨parent', hx⟩)
    · exact .inl (.inl hx)
    · simp [hpc] at hx
  · rintro x (hx | ⟨parent', hx⟩)
    · exact .inl (.inl hx)
    · cases hx
      exact .inr ⟨rfl, rfl⟩
  · rintro x parent' ⟨⟩
    exact ⟨rfl, rfl, ok.latest_lt⟩
  · intro h
    rw [hlock] at h
    cases h

theorem resetXmin {keep : List Snapshot}
    (hs : b.act sh (.resetXmin keep) = some (sh', b')) : Moves sh b sh' b' := by
  simp only [Backend.act] at hs
  obtain ⟨hcond, hs⟩ := Option.ite_none_right_eq_some.mp hs
  obtain ⟨hpc, hkeep⟩ := hcond
  have hsnaps : ∀ snap ∈ keep, snap.xmin ≤ sh.oldestActiveXid ∧
      Covers sh snap.xmin snap.csn ∧ ∃ xmin, b.xmin = some xmin ∧ Covers sh xmin snap.csn :=
    fun snap hsnap => loc.snapshots snap (hkeep snap hsnap)
  split at hs
  · cases hs
    exact ofRun ok loc hpc hpc rfl fun h =>
      { loc with xmin := by simp, snapshots := by simp, pc := h }
  · next first rest hmap =>
    obtain ⟨hfirst, hrest⟩ := foldl_min_le rest first
    have hmin : ∀ snap ∈ keep, rest.foldl min first ≤ snap.xmin := by
      intro snap hsnap
      have : snap.xmin ∈ first :: rest := hmap ▸ mem_map_of_mem hsnap
      obtain heq | hm := mem_cons.mp this
      · exact heq ▸ hfirst
      · exact hrest _ hm
    have hold : rest.foldl min first ≤ sh.oldestActiveXid := by
      obtain ⟨snap, hsnap, heq⟩ := mem_map.mp (hmap ▸ mem_cons_self :
        first ∈ keep.map Snapshot.xmin)
      exact (hmin snap hsnap).trans (hsnaps snap hsnap).1
    split at hs
    · split at hs <;> cases hs
      · refine ofRun ok loc hpc hpc rfl fun h =>
          { loc with xmin := ?_, snapshots := ?_, pc := h }
        · rintro _ ⟨⟩
          exact hold
        · intro snap hsnap
          obtain ⟨hle, hcov, -⟩ := hsnaps snap hsnap
          exact ⟨hle, hcov, _, rfl, fun x hx => (hmin snap hsnap).trans (hcov x hx)⟩
      · exact ofRun ok loc hpc hpc rfl fun h => { loc with snapshots := hsnaps, pc := h }
    · cases hs

theorem abortTree {xids : List Nat}
    (hpc : b.pc = .run) (hsome : b.xid.isSome = true) (hsub : ∀ m ∈ xids, m ∈ b.members)
    (hnodup : xids.Nodup) (htop : if top = true then xids = b.members
      else Entry.aborted = .aborted ∧ (∀ m ∈ xids, m ∈ b.subxids.map Prod.fst) ∧
        ∀ m ∈ b.members, m ∉ xids → ¬ Final sh m) :
    Moves sh b (sh.updateLatestCompleted xids) { b with pc := .stamp .aborted xids xids top } :=
  ofLatest ok loc hpc rfl rfl hsub ⟨rfl, by simp, ⟨[], rfl, by simp⟩,
    fun m hm => run_open loc hpc m (hsub m hm), hnodup, hsome, htop⟩

/-- Every action of a backend is one of the moves. -/
theorem act {a : Act}
    (hsubtrans : ∀ x parent, sh.csnlog x = .subtrans parent → ∃ y < x, ¬ Final sh y)
    (hs : b.act sh a = some (sh', b')) : Moves sh b sh' b' := by
  cases a <;> simp only [Backend.act] at hs
  case next => exact next ok loc hs hsubtrans
  case allocate parent => exact allocate ok loc hs
  case snapshot =>
    split at hs <;> cases hs
    next hpc =>
    have hopen := run_open loc hpc
    exact goto ok loc hpc rfl rfl ⟨hopen, le_rfl⟩
  case resetXmin keep => exact resetXmin ok loc hs
  case endTransaction =>
    split at hs <;> cases hs
    next hcond =>
    exact ofRun ok loc hcond.1 hcond.1 rfl fun h =>
      { loc with xmin := by simp, snapshots := by simp, pc := h }
  case setFlags =>
    split at hs <;> cases hs
    next hcond => exact ofRun ok loc hcond.1 hcond.1 rfl fun h => { loc with pc := h }
  case commit =>
    split at hs <;> cases hs
    next hcond =>
    have hopen := run_open loc hcond.1
    exact goto ok loc hcond.1 rfl rfl ⟨hopen, hcond.2⟩
  case abort =>
    split at hs <;> cases hs
    next hcond => exact abortTree ok loc hcond.1 hcond.2 (fun _ hm => hm) loc.nodup rfl
  case abortSub sub =>
    split at hs <;> cases hs
    next hcond =>
    obtain ⟨hpc, hsome, -⟩ := hcond
    obtain ⟨t, ht⟩ := Option.isSome_iff_exists.mp hsome
    have hsublist := subtree_sublist sub b.subxids
    have hmem : ∀ m ∈ subtree sub b.subxids, m ∈ b.members := by
      intro m hm
      simp only [members, ht]
      exact mem_append_left _ (hsublist.subset hm)
    have hnodup : (subtree sub b.subxids).Nodup := by
      have := loc.nodup
      simp only [members, ht] at this
      exact hsublist.nodup (nodup_append.mp this).1
    exact abortTree ok loc hpc hsome hmem hnodup
      ⟨rfl, hsublist.subset, fun m hm _ => run_open loc hpc m hm⟩

end

end Moves

/-- The shared state and the backends. -/
structure Inv (numProcs : Nat) (sh : Shared) (backends : Nat → Backend) : Prop where
  ok : sh.Ok
  local_ : ∀ p, Local sh (backends p)
  disjoint : ∀ p q x, Owns (backends p) x → Owns (backends q) x → p = q
  owned : ∀ x < sh.nextXid, ¬ Final sh x → ∃ p, Owns (backends p) x
  lock : ∀ p x parent, (backends p).pc = .assign x parent → sh.xidGenLock = true ∧
    x + 1 = sh.nextXid ∧ sh.latestCompletedXid < x
  idle : ∀ p, numProcs ≤ p → backends p = .init

namespace Inv

variable {numProcs p : Nat} {backends : Nat → Backend}

theorem init (numProcs first : Nat) (rolledBack : Nat → Bool) (hfirst : 0 < first) :
    Inv numProcs (.init first rolledBack) fun _ => .init where
  ok := by
    refine ⟨fun x hx => ?_, le_rfl, Nat.sub_lt hfirst Nat.one_pos, fun x csn hx => ?_,
      fun x hx => ?_⟩
    · have : x < first := hx
      simp only [Final, Shared.init, if_pos this]
      split <;> rfl
    · simp only [Shared.init] at hx
      split at hx
      · split at hx <;> cases hx
        simp [Shared.init, csnFrozen, csnFirstNormal]
      · cases hx
    · have : ¬ x < first := Nat.not_lt.mpr hx
      simp only [Shared.init, if_neg this]
  local_ _ := .init _
  disjoint p q x hx _ := by simp [Owns, members, Backend.init] at hx
  owned x hx hnot := by
    refine absurd ?_ hnot
    have : x < first := hx
    simp only [Final, Shared.init, if_pos this]
    split <;> rfl
  lock p x parent h := by cases h
  idle _ _ := rfl

variable (inv : Inv numProcs sh backends)
include inv

theorem owns_lt {x : Nat} (h : Owns (backends p) x) :
    x < sh.nextXid := by
  obtain h | ⟨parent, h⟩ := h
  · exact (inv.local_ p).lt_nextXid x h
  · have := (inv.lock p x parent h).2.1
    omega

omit inv in
/-- A transaction with an open subtransaction is open. -/
theorem top_open (loc : Local sh b) (hx : b.xid = some xid) {m : Nat} (hm : m ∈ b.members)
    (hopen : ¬ Final sh m) : ¬ Final sh xid := by
  have hok := loc.pc
  have htop := mem_members_of_top hx
  unfold PcOk at hok
  split at hok
  case h_12 value xids todo top hpc =>
    obtain ⟨hval, -, ⟨done, hdone, hvalue⟩, htodo, -, -, hrest⟩ := hok
    cases top with
    | true =>
      -- the top xid is the last one to be stamped
      obtain rfl : xids = b.members := hrest
      have hin : m ∈ todo := by
        rw [hdone] at hm
        exact (mem_append.mp hm).resolve_left fun h =>
          hopen (by rw [Final, hvalue m h]; exact hval)
      have hlast : (done ++ todo).getLast? = some xid := by
        rw [← hdone]
        simp [members, hx]
      rw [List.getLast?_append, List.getLast?_eq_some_getLast (ne_nil_of_mem hin),
        Option.some_or, ← List.getLast?_eq_some_getLast] at hlast
      exact htodo xid (mem_of_getLast? hlast)
    | false =>
      refine hrest.2.2 xid htop fun h => ?_
      obtain ⟨sub, hs, heq⟩ := mem_map.mp (hrest.2.1 xid h)
      exact absurd (loc.top_lt xid hx sub hs) (by omega)
  all_goals first
    | exact hok xid htop
    | exact hok.1 xid htop
    | exact (hok.1 xid htop).1
    | exact absurd (hok.1 m hm) hopen
    | exact absurd (hx.symm.trans hok.1) (by simp)

/-- A subtransaction comes after its open top transaction. -/
theorem subtrans {x parent : Nat} (h : sh.csnlog x = .subtrans parent) : ∃ y < x, ¬ Final sh y := by
  have hopen : ¬ Final sh x := by simp [Final, h, Entry.final]
  have hlt : x < sh.nextXid := by
    by_contra hge
    rw [inv.ok.fresh x (Nat.le_of_not_lt hge)] at h
    cases h
  obtain ⟨p, hp | ⟨parent', hp⟩⟩ := inv.owned x hlt hopen
  · obtain ⟨top, htop⟩ := Option.isSome_iff_exists.mp (xid_isSome_of_mem hp)
    refine ⟨top, ?_, top_open (inv.local_ p) htop hp hopen⟩
    have hmem := hp
    simp only [members, htop, mem_append, mem_map, mem_singleton] at hmem
    obtain ⟨sub, hs, rfl⟩ | rfl := hmem
    · exact (inv.local_ p).top_lt top htop sub hs
    · exact absurd h ((inv.local_ p).top x htop parent)
  · have hok := (inv.local_ p).pc
    simp only [PcOk, hp] at hok
    rw [hok.2.1] at h
    cases h

theorem moves {a : Act}
    (hs : (backends p).act sh a = some (sh', b')) : Moves sh (backends p) sh' b' :=
  Moves.act inv.ok (inv.local_ p) (fun _ _ => inv.subtrans) hs

/-- What one backend does keeps the invariant of all. -/
theorem keep (hp : p < numProcs)
    (mv : Moves sh (backends p) sh' b') : Inv numProcs sh' (update backends p b') := by
  have hother : ∀ q, q ≠ p → update backends p b' q = backends q :=
    fun q hq => update_of_ne hq ..
  have hself : update backends p b' p = b' := update_self ..
  have hmembers : ∀ m ∈ (backends p).members, m < sh.nextXid := (inv.local_ p).lt_nextXid
  refine ⟨{ mv with latest_lt := ?_, fresh := fun x hx => ?_ }, fun q => ?_, ?_, ?_, ?_, ?_⟩
  · exact mv.latest _ (inv.ok.latest_lt.trans_le mv.le.nextXid) fun m hm =>
      (hmembers m hm).trans_le mv.le.nextXid
  · have hge := mv.le.nextXid.trans hx
    rw [mv.same x fun hown => absurd (inv.owns_lt hown) (Nat.not_lt.mpr hge)]
    exact inv.ok.fresh x hge
  · by_cases hq : q = p
    · rw [hq, hself]
      exact mv.after
    · rw [hother q hq]
      exact (inv.local_ q).frame mv.le fun m hm => mv.same m fun hown =>
        hq (inv.disjoint q p m hm hown)
  · -- a new xid is owned by nobody else
    have hnew : ∀ q x, q ≠ p → Owns (backends q) x → ¬ Owns b' x := by
      intro q x hq hown hown'
      obtain h | ⟨rfl, -⟩ := mv.new x hown'
      · exact hq (inv.disjoint q p x hown h)
      · exact absurd (inv.owns_lt hown) (lt_irrefl _)
    intro q r x hqx hrx
    by_cases hq : q = p <;> by_cases hr : r = p
    · rw [hq, hr]
    · rw [hq, hself] at hqx
      rw [hother r hr] at hrx
      exact absurd hqx (hnew r x hr hrx)
    · rw [hr, hself] at hrx
      rw [hother q hq] at hqx
      exact absurd hrx (hnew q x hq hqx)
    · rw [hother q hq] at hqx
      rw [hother r hr] at hrx
      exact inv.disjoint q r x hqx hrx
  · intro x hx hopen
    obtain hlt | hge := lt_or_ge x sh.nextXid
    · obtain ⟨q, hq⟩ := inv.owned x hlt fun h => hopen (mv.le.final_of h)
      by_cases hqp : q = p
      · refine ⟨p, ?_⟩
        rw [hself]
        obtain h | h | h := mv.kept x (hqp ▸ hq)
        · exact h
        · exact absurd (by simp [Final, h, Entry.final]) hopen
        · exact absurd h.2 hopen
      · exact ⟨q, by rw [hother q hqp]; exact hq⟩
    · obtain h | ⟨h, hown⟩ := mv.allocated
      · omega
      · obtain rfl : x = sh.nextXid := by omega
        exact ⟨p, by rw [hself]; exact hown⟩
  · intro q x parent hpc
    by_cases hq : q = p
    · rw [hq, hself] at hpc
      exact mv.lock x parent hpc
    · rw [hother q hq] at hpc
      obtain ⟨hlock, hnext, hlatest⟩ := inv.lock q x parent hpc
      have hnot : ¬ Owns (backends p) x := fun h =>
        hq (inv.disjoint q p x (.inr ⟨parent, hpc⟩) h)
      obtain ⟨hl, hn⟩ | ⟨y, parent', hy⟩ := mv.locked hlock
      · refine ⟨hl, hn ▸ hnext, mv.latest x hlatest fun m hm => ?_⟩
        have hne : m ≠ x := fun h => hnot (.inl (h ▸ hm))
        have := hmembers m hm
        omega
      · have := (inv.lock p y parent' hy).2.1
        obtain rfl : y = x := by omega
        exact absurd (.inr ⟨parent', hy⟩) hnot
  · intro q hq
    rw [hother q (by omega)]
    exact inv.idle q hq

end Inv

end Polar.Csn
