import Polar.Csn.Step

/-!
# Horizons against snapshots

A horizon is safe for a snapshot if nothing before it is late for the snapshot. While the scan is
under way, what is late must belong to a proc that the scan has still to look at. That a proc
clears its xid before the scan gets there is what breaks this.
-/

namespace Polar.Csn

open Backend (act members)

open List Function Option

variable {numProcs : Nat} {sh sh' : Shared} {b b' : Backend} {backends : Nat → Backend} {s t : State}

/-- The backend has read the CSN for a snapshot it uses or is going to use. -/
def Uses (b : Backend) (csn : Nat) : Prop :=
  (∃ snap ∈ b.snapshots, snap.csn = csn) ∨ ∃ xmin, b.pc = .snapCsn xmin csn

theorem Local.uses {csn : Nat} (loc : Local sh b) (h : Uses b csn) :
    ∃ xmin, b.xmin = some xmin ∧ Covers sh xmin csn := by
  obtain ⟨snap, hs, rfl⟩ | ⟨xmin, hpc⟩ := h
  · exact (loc.snapshots snap hs).2.2
  · have hok := loc.pc
    simp only [PcOk, hpc] at hok
    exact hok.2.2.2.2

theorem not_uses_init (csn : Nat) : ¬ Uses Backend.init csn := by
  simp [Uses, Backend.init]

/-- The places of `GetSnapshotData` and of the end of a transaction. -/
def Pc.snapping : Pc → Bool
  | .snapRead _ | .snapPublished _ | .snapReread _ | .snapXmin _ | .snapCsn .. | .stamped
  | .clearing _ => true
  | _ => false

/-- Elsewhere the snapshots, the xmin and the flags stay. -/
theorem next_frame (hpc : b.pc.snapping = false) (hs : b.next sh = some (sh', b')) :
    b'.snapshots = b.snapshots ∧ b'.xmin = b.xmin ∧ b'.flagged = b.flagged ∧
      (∀ xmin csn, b'.pc ≠ .snapCsn xmin csn) ∧ ∀ xmin, b'.pc ≠ .snapReread xmin := by
  cases hb : b.pc <;> rw [hb] at hpc <;> cases hpc
  all_goals simp only [Backend.next, hb] at hs
  all_goals repeat' split at hs
  all_goals first
    | contradiction
    | (cases hs; exact ⟨rfl, rfl, rfl, by simp, by simp⟩)
    | (obtain ⟨_, _, heq⟩ := bind_eq_some_iff.mp hs
       cases heq
       exact ⟨rfl, rfl, rfl, by simp, by simp⟩)

/-- A CSN comes into use with the read of `polar_next_csn`, in an unflagged or flagged backend. -/
theorem uses_next (loc : Local sh b) (hs : b.next sh = some (sh', b')) :
    (∀ csn, Uses b' csn → Uses b csn ∨ csn = sh'.nextCsn) ∧
      (b'.flagged = false → b.flagged = false ∨ ∀ csn, ¬ Uses b' csn) := by
  have hok := loc.pc
  -- most steps touch neither the snapshots nor the flags
  have hframe : ∀ b'' : Backend, b''.snapshots = b.snapshots → b''.flagged = b.flagged →
      (∀ xmin csn, b''.pc ≠ .snapCsn xmin csn) →
      (∀ csn, Uses b'' csn → Uses b csn ∨ csn = sh'.nextCsn) ∧
        (b''.flagged = false → b.flagged = false ∨ ∀ csn, ¬ Uses b'' csn) := by
    intro b'' hsnap hflag hpc
    refine ⟨fun csn h => ?_, fun h => .inl (hflag ▸ h)⟩
    obtain h | ⟨xmin, h⟩ := h
    · exact .inl (.inl (hsnap ▸ h))
    · exact absurd h (hpc xmin csn)
  cases hpc : b.pc with
  | run => simp [Backend.next, hpc] at hs
  | snapXmin xmin =>
    rw [Backend.next, hpc] at hs
    cases hs
    refine ⟨fun csn h => ?_, .inl⟩
    obtain h | ⟨xmin', h⟩ := h
    · exact .inl (.inl h)
    · cases h
      exact .inr rfl
  | snapCsn xmin csn =>
    rw [Backend.next, hpc] at hs
    cases hs
    refine ⟨fun csn' h => .inl ?_, .inl⟩
    obtain ⟨snap, hsnap, rfl⟩ | ⟨xmin', h⟩ := h
    · obtain rfl | hsnap := mem_cons.mp hsnap
      · exact .inr ⟨xmin, hpc⟩
      · exact .inl ⟨snap, hsnap, rfl⟩
    · cases h
  | stamped =>
    simp only [Backend.next, hpc] at hs
    obtain ⟨xid, -, hs⟩ := bind_eq_some_iff.mp hs
    cases hs
    exact ⟨fun csn h => by simp [Uses] at h, .inl⟩
  | clearing myXid =>
    simp only [PcOk, hpc] at hok
    rw [Backend.next, hpc] at hs
    cases hs
    have hnone : ∀ csn,
        ¬ Uses { b with xmin := none, flagged := false, pc := .advance myXid } csn := by
      simp [Uses, hok.2.2.2]
    exact ⟨fun csn h => absurd h (hnone csn), fun _ => .inr hnone⟩
  | snapRead | snapPublished =>
    simp only [Backend.next, hpc] at hs
    split at hs <;>
    · cases hs
      exact hframe _ rfl rfl (by simp)
  | snapReread xmin =>
    rw [Backend.next, hpc] at hs
    cases hs
    exact hframe _ rfl rfl (by simp)
  | _ =>
    obtain ⟨hsnap, -, hflag, hto, -⟩ := next_frame (by rw [hpc]; rfl) hs
    exact hframe _ hsnap hflag hto

variable {a : Act}

theorem uses_act (loc : Local sh b) (hs : b.act sh a = some (sh', b')) :
    (∀ csn, Uses b' csn → Uses b csn ∨ csn = sh'.nextCsn) ∧
      (b'.flagged = false → b.flagged = false ∨ ∀ csn, ¬ Uses b' csn) := by
  cases a with
  | next => exact uses_next loc hs
  | resetXmin keep =>
    simp only [act] at hs
    obtain ⟨hcond, hs⟩ := ite_none_right_eq_some.mp hs
    have hsub : ∀ (b'' : Backend), (∀ snap ∈ b''.snapshots, snap ∈ b.snapshots) →
        b''.pc = b.pc → ∀ csn, Uses b'' csn → Uses b csn ∨ csn = sh'.nextCsn := by
      rintro b'' hsnap hpc csn (⟨snap, hs, rfl⟩ | ⟨xmin, h⟩)
      · exact .inl (.inl ⟨snap, hsnap snap hs, rfl⟩)
      · exact .inl (.inr ⟨xmin, hpc ▸ h⟩)
    repeat' split at hs
    all_goals cases hs
    · exact ⟨hsub _ (by simp) rfl, .inl⟩
    all_goals exact ⟨hsub _ hcond.2 rfl, .inl⟩
  | endTransaction =>
    simp only [act] at hs
    split at hs <;> cases hs
    next hcond =>
    have hnone : ∀ csn, ¬ Uses { b with snapshots := [], xmin := none, flagged := false } csn := by
      simp [Uses, hcond.1]
    exact ⟨fun csn h => absurd h (hnone csn), fun _ => .inr hnone⟩
  | allocate | snapshot | commit | abort | abortSub =>
    simp only [act] at hs
    split at hs <;> cases hs
    refine ⟨fun csn h => .inl ?_, .inl⟩
    obtain h | ⟨xmin, h⟩ := h
    · exact .inl h
    · cases h
  | setFlags =>
    simp only [act] at hs
    split at hs <;> cases hs
    exact ⟨fun csn h => .inl h, by simp⟩

/-- The xid is open, or late for a snapshot of an unflagged backend in `seen`. -/
def LateFor (sh : Shared) (backends : Nat → Backend) (seen : Nat → Prop) (x : Nat) : Prop :=
  ¬ Final sh x ∨ ∃ q csn, seen q ∧ (backends q).flagged = false ∧ Uses (backends q) csn ∧ Late sh csn x

/-- What is late before the horizon belongs to a proc from `index` on. -/
def Guarded (sh : Shared) (backends : Nat → Backend) (seen : Nat → Prop) (horizon index : Nat) :
    Prop :=
  ∀ x < horizon, LateFor sh backends seen x → ∃ p, index ≤ p ∧ x ∈ (backends p).members

/-- What a scan knows. Between its two reads of a proc it has seen the snapshots of that proc only
if it is going to skip it. -/
def ScanOk (sh : Shared) (backends : Nat → Backend) : Scan → Prop
  | .procs _ horizon index =>
    horizon ≤ sh.latestCompletedXid + 1 ∧ Guarded sh backends (· < index) horizon index
  | .proc _ horizon index flagged xid =>
    horizon ≤ sh.latestCompletedXid + 1 ∧
      Guarded sh backends (fun q => q < index ∨ q = index ∧ flagged = true)
        (if flagged then horizon else older horizon xid) (index + 1)
  | _ => True

/-- The scan has read the xid of the proc. -/
def Scan.passed (p : Nat) : Scan → Prop
  | .procs _ _ index => p < index
  | .proc _ _ index _ _ => p ≤ index
  | _ => True

instance (p : Nat) : (scan : Scan) → Decidable (scan.passed p)
  | .procs _ _ index => inferInstanceAs (Decidable (p < index))
  | .proc _ _ index _ _ => inferInstanceAs (Decidable (p ≤ index))
  | .idle | .redo _ | .truncate _ _ => .isTrue trivial

/-- No proc's xid is cleared ahead of a scan, and flagged backends do without an xid. -/
def ClearedBehind (s : State) : Op → Prop
  | .backend p .next => (s.backends p).pc = .stamped → ∀ scan ∈ s.scans, scan.passed p
  | .backend p (.allocate _) => (s.backends p).flagged = false
  | _ => True

instance (s : State) : (op : Op) → Decidable (ClearedBehind s op)
  | .backend p .next =>
    inferInstanceAs (Decidable ((s.backends p).pc = .stamped → ∀ scan ∈ s.scans, scan.passed p))
  | .backend p (.allocate _) => inferInstanceAs (Decidable ((s.backends p).flagged = false))
  | .backend _ .snapshot | .backend _ (.resetXmin _) | .backend _ .endTransaction
  | .backend _ .setFlags | .backend _ .commit | .backend _ .abort | .backend _ (.abortSub _)
  | .scanner | .checkpoint _ | .scan _ _ _ => .isTrue trivial

/-- Flagged backends have no xid. -/
def Flagless (b : Backend) : Prop :=
  b.flagged = true → b.xid = none ∧ ∀ x parent, b.pc ≠ .assign x parent

theorem flagged_next (hs : b.next sh = some (sh', b')) :
    b'.flagged = b.flagged ∨ b'.flagged = false := by
  simp only [Backend.next] at hs
  repeat' split at hs
  all_goals first
    | (cases hs; done)
    | (cases hs; exact .inl rfl)
    | (cases hs; exact .inr rfl)
    | (obtain ⟨_, _, heq⟩ := bind_eq_some_iff.mp hs
       cases heq
       exact .inl rfl)

theorem no_xid_next (hnone : b.xid = none) (hpc : ∀ x parent, b.pc ≠ .assign x parent)
    (hs : b.next sh = some (sh', b')) : b'.xid = none ∧ ∀ x parent, b'.pc ≠ .assign x parent := by
  simp only [Backend.next, hnone] at hs
  repeat' split at hs
  all_goals first
    | (cases hs; done)
    | (next h => exact absurd h (hpc _ _))
    | (cases hs; exact ⟨rfl, by simp⟩)

theorem flagless_act (h : Flagless b)
    (hallocate : ∀ parent, a = .allocate parent → b.flagged = false)
    (hs : b.act sh a = some (sh', b')) : Flagless b' := by
  intro hflag
  cases a with
  | allocate parent =>
    have hnot := hallocate parent rfl
    simp only [act] at hs
    split at hs <;> cases hs
    exact absurd hflag (by simp [hnot])
  | next =>
    have hb : b.flagged = true := by
      obtain heq | heq := flagged_next hs
      · exact heq ▸ hflag
      · exact absurd hflag (by simp [heq])
    exact no_xid_next (h hb).1 (h hb).2 hs
  | snapshot =>
    simp only [act] at hs
    split at hs <;> cases hs
    exact ⟨(h hflag).1, by simp⟩
  | resetXmin keep =>
    simp only [act] at hs
    repeat' split at hs
    all_goals cases hs
    all_goals exact h hflag
  | endTransaction =>
    simp only [act] at hs
    split at hs <;> cases hs
    cases hflag
  | setFlags =>
    simp only [act] at hs
    split at hs <;> cases hs
    next hcond => exact ⟨hcond.2.1, by simp [hcond.1]⟩
  | commit | abort | abortSub sub =>
    simp only [act] at hs
    split at hs <;> cases hs
    next hcond => simp [(h hflag).1] at hcond

/-- A step of backend `p` keeps a scan that has passed `p`, or does not clear its xid. -/
theorem Guarded.keep {p horizon index : Nat} {seen : Nat → Prop}
    (h : Guarded sh backends seen horizon index) (inv : Inv numProcs sh backends)
    (hlatest : horizon ≤ sh.latestCompletedXid + 1)
    (hclear : (backends p).pc = .stamped → a = .next → p < index)
    (hs : (backends p).act sh a = some (sh', b')) :
    Guarded sh' (update backends p b') seen horizon index := by
  have mv := inv.moves hs
  obtain ⟨huses, hflag⟩ := uses_act (inv.local_ p) hs
  intro x hx hlate
  -- what is late now was late before
  have hold : LateFor sh backends seen x := by
    obtain hopen | ⟨q, csn, hseen, hunflagged, huse, hlate⟩ := hlate
    · exact .inl fun hfinal => hopen (mv.le.final_of hfinal)
    · by_cases hq : q = p
      · subst hq
        rw [update_self] at hunflagged huse
        obtain hold | rfl := huses csn huse
        · obtain hf | hf := hflag hunflagged
          · exact .inr ⟨q, csn, hseen, hf, hold, mv.le.late_of hlate⟩
          · exact absurd huse (hf csn)
        · exact .inl fun hfinal =>
            not_final_of_late hlate mv.csn (mv.le.final_of hfinal)
      · rw [update_of_ne hq] at hunflagged huse
        exact .inr ⟨q, csn, hseen, hunflagged, huse, mv.le.late_of hlate⟩
  obtain ⟨r, hr, hmem⟩ := h x hx hold
  refine ⟨r, hr, ?_⟩
  by_cases hrp : r = p
  · subst hrp
    rw [update_self]
    obtain (h | ⟨parent, h⟩) | h | ⟨h, -⟩ := mv.kept x (.inl hmem)
    · exact h
    · -- an xid that is being assigned is beyond the latest completed one
      have := (mv.lock x parent h).2.2
      have := mv.le.latest
      omega
    · -- an aborted xid is late for nobody
      obtain hopen | ⟨q, csn, -, -, -, hopen | ⟨c, hc, -⟩⟩ := hlate
      · exact absurd (by simp [Final, h, Entry.final]) hopen
      · exact absurd (by simp [Final, h, Entry.final]) hopen
      · simp [h] at hc
    · by_cases ha : a = .next
      · exact absurd (hclear h ha) (Nat.not_lt.mpr hr)
      · -- no other action is possible here
        exfalso
        cases a <;> simp [act, h] at hs ha
  · rwa [update_of_ne hrp]

theorem ScanOk.keep {p : Nat} {scan : Scan} (h : ScanOk sh backends scan)
    (inv : Inv numProcs sh backends)
    (hclear : (backends p).pc = .stamped → a = .next → scan.passed p)
    (hs : (backends p).act sh a = some (sh', b')) :
    ScanOk sh' (update backends p b') scan := by
  have hlatest := (inv.moves hs).le.latest
  cases scan with
  | procs redo horizon index =>
    exact ⟨h.1.trans (Nat.succ_le_succ hlatest), h.2.keep inv h.1 hclear hs⟩
  | proc redo horizon index flagged xid =>
    refine ⟨h.1.trans (Nat.succ_le_succ hlatest), h.2.keep inv ?_ ?_ hs⟩
    · split
      · exact h.1
      · cases xid with
        | none => exact h.1
        | some xid => exact (min_le_left _ _).trans h.1
    · exact fun hpc ha => Nat.lt_succ_of_le (hclear hpc ha)
  | _ => trivial

/-- What every run keeps of the horizons. -/
structure HorizonInv (numProcs : Nat) (s : State) : Prop where
  inv : Inv numProcs s.shared s.backends
  flagless : ∀ p, Flagless (s.backends p)
  scans : ∀ scan ∈ s.scans, ScanOk s.shared s.backends scan
  horizons : ∀ horizon ∈ s.horizons, horizon ≤ s.shared.latestCompletedXid + 1 ∧
    ∀ x < horizon, ¬ LateFor s.shared s.backends (fun _ => True) x

theorem older_le (xid : Nat) (other : Option Nat) : older xid other ≤ xid := by
  cases other with
  | none => exact le_rfl
  | some other => exact min_le_left _ _

theorem older_mono {xid xid' : Nat} (h : xid ≤ xid') (other : Option Nat) :
    older xid other ≤ older xid' other := by
  cases other with
  | none => exact h
  | some other => exact le_min ((min_le_left _ _).trans h) (min_le_right _ _)

theorem members_ge (loc : Local sh b) {top m : Nat} (htop : b.xid = some top)
    (hm : m ∈ b.members) : top ≤ m := by
  simp only [members, htop, mem_append, List.mem_map, mem_singleton] at hm
  obtain ⟨sub, hs, rfl⟩ | rfl := hm
  · exact (loc.top_lt top htop sub hs).le
  · exact le_rfl

namespace HorizonInv

theorem init (numProcs first : Nat) (rolledBack : Nat → Bool) (hfirst : 0 < first) :
    HorizonInv numProcs (.init first rolledBack) where
  inv := .init numProcs first rolledBack hfirst
  flagless _ h := by cases h
  scans := by simp [State.init]
  horizons := by simp [State.init]

section

variable (h : HorizonInv numProcs s)
include h

theorem backend {p : Nat} {a : Act}
    (hok : ClearedBehind s (.backend p a)) (hs : s.step numProcs (.backend p a) = some t) :
    HorizonInv numProcs t := by
  obtain ⟨hp, hs⟩ := ite_none_right_eq_some.mp hs
  obtain ⟨⟨sh', b'⟩, hact, rfl⟩ := map_eq_some_iff.mp hs
  have mv := h.inv.moves hact
  have hclear : ∀ scan ∈ s.scans, (s.backends p).pc = .stamped → a = .next →
      scan.passed p := by
    rintro scan hscan hpc rfl
    exact hok hpc scan hscan
  refine ⟨h.inv.keep hp mv, fun q => ?_, fun scan hscan => ?_, fun horizon hmem => ?_⟩
  · by_cases hq : q = p
    · subst hq
      dsimp only
      rw [update_self]
      refine flagless_act (h.flagless q) ?_ hact
      rintro parent rfl
      exact hok
    · dsimp only
      rw [update_of_ne hq]
      exact h.flagless q
  · exact (h.scans scan hscan).keep h.inv (hclear scan hscan) hact
  · -- a returned horizon is a scan with no proc left
    obtain ⟨hlatest, hnot⟩ := h.horizons horizon hmem
    have hguard : Guarded s.shared s.backends (fun _ => True) horizon numProcs :=
      fun y hy hlate => absurd hlate (hnot y hy)
    refine ⟨hlatest.trans (Nat.succ_le_succ mv.le.latest), fun x hx hlate => ?_⟩
    obtain ⟨q, hq, hmem'⟩ := hguard.keep h.inv hlatest (fun _ _ => hp) hact x hx hlate
    rw [(h.inv.keep hp mv).idle q hq] at hmem'
    simp [members, Backend.init] at hmem'

theorem setScan {j : Nat} {scan : Scan}
    (hscan : ScanOk s.shared s.backends scan) : HorizonInv numProcs (s.setScan j scan) where
  inv := h.inv
  flagless := h.flagless
  scans scan' hmem := by
    obtain hmem | rfl := mem_or_eq_of_mem_set hmem
    · exact h.scans scan' hmem
    · exact hscan
  horizons := h.horizons

/-- At the start every open xid up to the latest completed one is in the tree of some proc. -/
theorem scan_start : Guarded s.shared s.backends (· < 0) (s.shared.latestCompletedXid + 1) 0 := by
  intro x hx hlate
  obtain hopen | ⟨q, csn, hlt, -⟩ := hlate
  · obtain ⟨p, hp | ⟨parent, hp⟩⟩ := h.inv.owned x (by have := h.inv.ok.latest_lt; omega) hopen
    · exact ⟨p, Nat.zero_le _, hp⟩
    · have := (h.inv.lock p x parent hp).2.2
      omega
  · exact absurd hlt (Nat.not_lt_zero q)

variable {horizon index : Nat}

theorem scan_xid
    (hguard : Guarded s.shared s.backends (· < index) horizon index) : Guarded s.shared s.backends
      (fun q => q < index ∨ q = index ∧ (s.backends index).flagged = true)
      (if (s.backends index).flagged then horizon else older horizon (s.backends index).xid)
      (index + 1) := by
  intro x hx hlate
  have hx' : x < horizon := by
    split at hx
    · exact hx
    · exact hx.trans_le (older_le _ _)
  have hold : LateFor s.shared s.backends (· < index) x := by
    obtain hopen | ⟨q, csn, hq | ⟨rfl, hflag⟩, hunflagged, huse, hlate⟩ := hlate
    · exact .inl hopen
    · exact .inr ⟨q, csn, hq, hunflagged, huse, hlate⟩
    · exact absurd hflag (by simp [hunflagged])
  obtain ⟨p, hp, hmem⟩ := hguard x hx' hold
  refine ⟨p, lt_of_le_of_ne hp ?_, hmem⟩
  rintro rfl
  -- the proc itself has no xid if it is skipped, and its xid bounds the horizon if not
  obtain ⟨top, htop⟩ := isSome_iff_exists.mp (xid_isSome_of_mem hmem)
  have hge := members_ge (h.inv.local_ _) htop hmem
  split at hx
  · next hflag =>
    have := (h.flagless _ hflag).1
    simp [this] at htop
  · rw [htop] at hx
    exact absurd (hx.trans_le (min_le_right _ _)) (Nat.not_lt.mpr hge)

theorem scan_xmin {flagged : Bool} {xid : Option Nat}
    (hguard : Guarded s.shared s.backends (fun q => q < index ∨ q = index ∧ flagged = true)
      (if flagged then horizon else older horizon xid) (index + 1)) :
    Guarded s.shared s.backends (· < index + 1)
      (if flagged then horizon else older (older horizon (s.backends index).xmin) xid)
      (index + 1) := by
  intro x hx hlate
  cases flagged with
  | true =>
    refine hguard x hx (hlate.imp_right ?_)
    rintro ⟨q, csn, hq, hrest⟩
    exact ⟨q, csn, (Nat.lt_succ_iff_lt_or_eq.mp hq).imp_right fun heq => ⟨heq, rfl⟩, hrest⟩
  | false =>
    simp only [Bool.false_eq_true, if_false] at hx hguard
    have hx' : x < older horizon xid := by
      exact hx.trans_le (older_mono (older_le _ _) xid)
    refine hguard x hx' ?_
    obtain hopen | ⟨q, csn, hq, hunflagged, huse, hlate⟩ := hlate
    · exact .inl hopen
    · obtain hq | rfl := Nat.lt_succ_iff_lt_or_eq.mp hq
      · exact .inr ⟨q, csn, .inl hq, hunflagged, huse, hlate⟩
      · -- the published xmin is before everything late for the snapshot
        obtain ⟨xmin, hxmin, hcov⟩ := (h.inv.local_ q).uses huse
        have hle := hcov x hlate
        have hlt : x < xmin := by
          refine hx.trans_le ((older_le _ _).trans ?_)
          rw [hxmin]
          exact min_le_right _ _
        omega

/-- Behind the last proc there are neither trees nor snapshots. -/
theorem scan_end (hge : numProcs ≤ index)
    (hguard : Guarded s.shared s.backends (· < index) horizon index) :
    ∀ x < horizon, ¬ LateFor s.shared s.backends (fun _ => True) x := by
  have hidle : ∀ q, index ≤ q → s.backends q = .init := fun q hq =>
    h.inv.idle q (hge.trans hq)
  intro x hx hlate
  have hlate' : LateFor s.shared s.backends (· < index) x := by
    refine hlate.imp_right ?_
    rintro ⟨q, csn, -, hunflagged, huse, hlate⟩
    refine ⟨q, csn, ?_, hunflagged, huse, hlate⟩
    by_contra hq
    rw [hidle q (Nat.le_of_not_lt hq)] at huse
    exact not_uses_init csn huse
  obtain ⟨p, hp, hmem⟩ := hguard x hx hlate'
  rw [hidle p hp] at hmem
  simp [members, Backend.init] at hmem

theorem scan {j : Nat} {slotXmin slotCatalogXmin : Option Nat}
    (hs : s.step numProcs (.scan j slotXmin slotCatalogXmin) = some t) : HorizonInv numProcs t := by
  obtain ⟨scan, hj, rfl⟩ := map_eq_some_iff.mp hs
  have hok := h.scans scan (mem_of_getElem? hj)
  cases scan with
  | idle | redo oldest => exact h.setScan ⟨le_rfl, h.scan_start⟩
  | proc redo horizon index flagged xid =>
    refine h.setScan ⟨?_, h.scan_xmin hok.2⟩
    split
    · exact hok.1
    · exact ((older_le _ _).trans (older_le _ _)).trans hok.1
  | truncate oldest horizon =>
    have : HorizonInv numProcs (s.setScan j .idle) := h.setScan trivial
    exact { this with }
  | procs redo horizon index =>
    simp only [State.scanStep]
    split
    · exact h.setScan ⟨hok.1, h.scan_xid hok.2⟩
    · next hge =>
      have hle : older (older horizon slotXmin) slotCatalogXmin ≤ horizon :=
        (older_le _ _).trans (older_le _ _)
      refine ⟨h.inv, h.flagless, (h.setScan (by cases redo <;> trivial)).scans,
        forall_mem_cons.mpr ⟨?_, h.horizons⟩⟩
      exact ⟨hle.trans hok.1, fun x hx =>
        h.scan_end (Nat.le_of_not_lt hge) hok.2 x (hx.trans_le hle)⟩

theorem step {op : Op} (hok : ClearedBehind s op)
    (hs : s.step numProcs op = some t) : HorizonInv numProcs t := by
  cases op with
  | backend p a => exact h.backend hok hs
  | scanner =>
    cases hs
    exact { h with scans := forall_mem_append.mpr ⟨h.scans, forall_mem_singleton.mpr trivial⟩ }
  | checkpoint j =>
    simp only [State.step] at hs
    split at hs <;> cases hs
    exact h.setScan trivial
  | scan j slotXmin slotCatalogXmin => exact h.scan hs

end

end HorizonInv

/-- The horizon is safe: what precedes it is over and, if it committed, visible to every snapshot
that an unflagged backend uses. -/
def SafeHorizon (s : State) (horizon : Nat) : Prop :=
  ∀ x < horizon, Final s.shared x ∧ ∀ q, (s.backends q).flagged = false →
    ∀ snap ∈ (s.backends q).snapshots, s.shared.csnlog x = .aborted ∨
      ∃ csn, s.shared.csnlog x = .committed csn ∧ csn < snap.csn

/-- As long as no proc clears its xid ahead of a scan and no flagged backend has an xid, every
horizon that was returned is safe in every reached state. -/
theorem horizon_safe (numProcs first : Nat) (rolledBack : Nat → Bool) (hfirst : 0 < first)
    (s : State)
    (run : Reaches (State.step numProcs) ClearedBehind (State.init first rolledBack) s) :
    ∀ horizon ∈ s.horizons, SafeHorizon s horizon := by
  have h := run.invariant (HorizonInv numProcs) (.init numProcs first rolledBack hfirst)
    fun _ _ _ h hok hs => h.step hok hs
  intro horizon hmem x hx
  have hnot := (h.horizons horizon hmem).2 x hx
  have hfinal : Final s.shared x := by
    by_contra hopen
    exact hnot (.inl hopen)
  refine ⟨hfinal, fun q hunflagged snap hsnap => ?_⟩
  cases hentry : s.shared.csnlog x with
  | aborted => exact .inl rfl
  | committed csn =>
    refine .inr ⟨csn, rfl, ?_⟩
    by_contra hge
    exact hnot (.inr ⟨q, snap.csn, trivial, hunflagged, .inl ⟨snap, hsnap, rfl⟩,
      .inr ⟨csn, hentry, Nat.le_of_not_lt hge⟩⟩)
  | _ => simp [Final, hentry, Entry.final] at hfinal

/-- Backend `p` gets an xid. -/
def runAssign (p : Nat) : List Op :=
  [.backend p (.allocate none), .backend p .next]

/-- It commits, up to the step that clears its xid. -/
def runCommit (p : Nat) : List Op :=
  .backend p .commit :: List.replicate 6 (.backend p .next)

/-- A snapshot, with `polar_oldest_active_xid` unchanged at the second read. -/
def runSnapshot (p : Nat) : List Op :=
  .backend p .snapshot :: List.replicate 4 (.backend p .next)

/-- Xid 10 commits before the snapshot and the scan, and the horizon is past it. -/
theorem horizon_safe_after_commit :
    ∃ s, s.horizons = [11] ∧ (s.backends 0).snapshots = [⟨11, 11, 5⟩] ∧ SafeHorizon s 11 := by
  obtain ⟨s, run, hhorizons, hsnap⟩ := exists_reaches_tested (State.step 2) ClearedBehind
    (State.init 10 fun _ => false)
    (runAssign 1 ++ runCommit 1 ++ replicate 6 (.backend 1 .next) ++ runSnapshot 0 ++
      .scanner :: replicate 6 (.scan 0 none none))
    (fun s => s.horizons = [11] ∧ (s.backends 0).snapshots = [⟨11, 11, 5⟩]) (by decide +kernel)
  exact ⟨s, hhorizons, hsnap, horizon_safe 2 10 (fun _ => false) (by decide) s
    run 11 (by simp [hhorizons])⟩

/-- Backend 0 takes its snapshot when the scan has passed it; xid 10 of backend 1 commits then, and
is cleared when the scan gets to it. The horizon is past xid 10, whose commit the snapshot does not
see. -/
theorem horizon_unsafe :
    ∃ s, Reaches (State.step 3) (fun _ _ => True) (State.init 10 fun _ => false) s ∧
      ∃ horizon ∈ s.horizons, ¬ SafeHorizon s horizon := by
  obtain ⟨s, run, hhorizons, hsnap, hflag, hentry⟩ := exists_reaches_any (State.step 3)
    (State.init 10 fun _ => false)
    (runAssign 1 ++ runAssign 2 ++ runCommit 2 ++
      .scanner :: replicate 3 (.scan 0 none none) ++ runSnapshot 0 ++ runCommit 1 ++
      replicate 5 (.scan 0 none none))
    (fun s => s.horizons = [12] ∧ (s.backends 0).snapshots = [⟨10, 12, 5⟩] ∧
      (s.backends 0).flagged = false ∧ s.shared.csnlog 10 = .committed 5) (by decide +kernel)
  refine ⟨s, run, 12, by simp [hhorizons], fun hsafe => ?_⟩
  obtain h | ⟨csn, hcsn, hlt⟩ := (hsafe 10 (by decide)).2 0 hflag ⟨10, 12, 5⟩ (by simp [hsnap])
  · simp [hentry] at h
  · rw [hentry] at hcsn
    cases hcsn
    exact absurd hlt (by decide)

end Polar.Csn
