import Polar.Base.Hex
import Mathlib.Data.List.Basic
import Mathlib.Data.Nat.Find

/-!
# Removal of old WAL on a DataMax node

`polar_datamax_remove_old_wal` visits the directory of WAL segments once. It compares the names of
the files, without their timeline, with the name of the last segment to remove, and records the
smallest start of the files that stay, unless that is an invalid LSN.
-/

namespace Polar.DataMax

open List

/-- A file name, as character codes. -/
abbrev Name := List Nat

/-- `wal_segment_size`, a power of two. -/
structure SegSize where
  size : Nat
  size_pos : 0 < size
  size_dvd : size ∣ 2 ^ 32

/-- The text `.partial`. -/
def partialSuffix : Name := [46, 112, 97, 114, 116, 105, 97, 108]

/-- `IsXLogFileName`. -/
def isXLogFileName (name : Name) : Bool := name.length == 24 && name.all Hex.isDigit

/-- `IsPartialXLogFileName`. -/
def isPartialXLogFileName (name : Name) : Bool :=
  name.length == 32 && (name.take 24).all Hex.isDigit && name.drop 24 == partialSuffix

def isWalName (name : Name) : Bool := isXLogFileName name || isPartialXLogFileName name

namespace SegSize

variable (sz : SegSize)

/-- `XLogSegmentsPerXLogId`. -/
def perId : Nat := 2 ^ 32 / sz.size

/-- `XLogFileName`. -/
def xlogFileName (tli segno : Nat) : Name :=
  Hex.fixed 8 tli ++ (Hex.fixed 8 (segno / sz.perId) ++ Hex.fixed 8 (segno % sz.perId))

/-- The timeline that `XLogFromFileName` reads. -/
def tliOf (name : Name) : Nat := Hex.read (name.take 8)

/-- The segment number that `XLogFromFileName` reads. -/
def segnoOf (name : Name) : Nat :=
  Hex.read ((name.drop 8).take 8) * sz.perId + Hex.read ((name.drop 16).take 8)

/-- `XLogSegNoOffsetToRecPtr` at offset 0. -/
def startOf (segno : Nat) : Nat := segno * sz.size % 2 ^ 64

end SegSize

/-- What `polar_datamax_remove_old_wal` is given, and what it reads. LSN 0 is invalid. -/
structure Request where
  reservedLsn : Nat
  /-- `XLogGetReplicationSlotMinimumLSN`. -/
  slotMinimumLsn : Nat
  upstreamLastRemovedSegno : Nat
  force : Bool
  /-- `XLogArchiveCheckDone`. -/
  archiveCheckDone : Name → Bool
  /-- `polar_datamax_remove_wal_file(name) == 0`. -/
  removeWalFile : Name → Bool

namespace Request

variable (q : Request) (sz : SegSize)

/-- `min_lsn`. -/
def minLsn : Nat :=
  if q.slotMinimumLsn = 0 ∨ q.reservedLsn < q.slotMinimumLsn then q.reservedLsn
  else q.slotMinimumLsn

/-- The last segment to remove. -/
def lastSegno : Nat :=
  -- an unsigned decrement: segment 0 gives the largest number
  let segno := (q.minLsn / sz.size + (2 ^ 64 - 1)) % 2 ^ 64
  if segno > q.upstreamLastRemovedSegno then q.upstreamLastRemovedSegno else segno

/-- The file is removed. -/
def removes (name : Name) : Bool :=
  Hex.strLe (name.drop 8) ((sz.xlogFileName 0 (q.lastSegno sz)).drop 8) &&
    (q.force || q.archiveCheckDone name) && q.removeWalFile name

end Request

/-- The directory after some entries are visited, with the smallest start of those that stay. -/
structure Scan where
  files : List Name
  minReservedTli : Nat
  minReservedLsn : Nat
  deriving DecidableEq, Repr

/-- The directory of a DataMax node, and the minimum in its meta data. -/
structure Node where
  files : List Name
  minTimelineId : Nat
  minReceivedLsn : Nat
  deriving DecidableEq, Repr

/-- One entry of the directory. -/
def Scan.visit (sz : SegSize) (q : Request) (s : Scan) (name : Name) : Scan :=
  if !isWalName name then { s with files := s.files ++ [name] }
  else if q.removes sz name then s
  else
    let lsn := sz.startOf (sz.segnoOf name)
    if s.minReservedLsn = 0 ∨ s.minReservedLsn > lsn then
      ⟨s.files ++ [name], SegSize.tliOf name, lsn⟩
    else { s with files := s.files ++ [name] }

/-- `polar_datamax_update_min_received_info`: an invalid timeline or LSN is not stored. -/
def Node.updateMinReceivedInfo (node : Node) (tli lsn : Nat) : Node :=
  { node with
    minTimelineId := if tli = 0 then node.minTimelineId else tli
    minReceivedLsn := if lsn = 0 then node.minReceivedLsn else lsn }

/-- `polar_datamax_remove_old_wal`. -/
def removeOldWal (sz : SegSize) (q : Request) (node : Node) : Node :=
  if q.reservedLsn = 0 then node
  else
    let scan := node.files.foldl (Scan.visit sz q) ⟨[], 0, 0⟩
    { node with files := scan.files }.updateMinReceivedInfo scan.minReservedTli scan.minReservedLsn

/-! ## What is asked of the removal -/

/-- The segment has a file in the directory. -/
def Present (sz : SegSize) (files : List Name) (segno : Nat) : Prop :=
  ∃ name ∈ files, isWalName name = true ∧ sz.segnoOf name = segno

/-- Only what nobody needs is removed, the smallest start is recorded, and there is no hole. -/
structure Safe (sz : SegSize) (q : Request) (dir : List Name) (after : Node) : Prop where
  removed : ∀ name ∈ dir, isWalName name = true → name ∉ after.files →
    (sz.segnoOf name + 1) * sz.size ≤ q.reservedLsn ∧
    (q.slotMinimumLsn ≠ 0 → (sz.segnoOf name + 1) * sz.size ≤ q.slotMinimumLsn) ∧
    sz.segnoOf name ≤ q.upstreamLastRemovedSegno ∧
    (q.force = true ∨ q.archiveCheckDone name = true)
  smallest : ∀ segno, Present sz after.files segno → (∀ n, Present sz after.files n → segno ≤ n) →
    after.minReceivedLsn = segno * sz.size
  contiguous : ∀ last, (∃ first, ∀ n, Present sz dir n ↔ first ≤ n ∧ n ≤ last) →
    ∃ first stop, (first < stop → after.minReceivedLsn = first * sz.size) ∧
      ∀ n, Present sz after.files n ↔ first ≤ n ∧ n < stop

/-- Every WAL file of the directory is a segment, complete or partial, of some timeline. -/
def WalDir (sz : SegSize) (dir : List Name) : Prop :=
  ∀ name ∈ dir, isWalName name = true → ∃ tli segno suffix, tli < 2 ^ 32 ∧ segno * sz.size < 2 ^ 64 ∧
    (suffix = [] ∨ suffix = partialSuffix) ∧ name = sz.xlogFileName tli segno ++ suffix

/-! ## Names and numbers -/

namespace SegSize

variable {sz : SegSize}

theorem size_mul_perId : sz.size * sz.perId = 2 ^ 32 := Nat.mul_div_cancel' sz.size_dvd

theorem perId_pos : 0 < sz.perId := by
  rcases Nat.eq_zero_or_pos sz.perId with h | h
  · have hmul := sz.size_mul_perId
    rw [h] at hmul
    simp at hmul
  · exact h

theorem perId_le : sz.perId ≤ 2 ^ 32 := Nat.div_le_self _ _

/-- The two parts of a segment number have eight digits. -/
theorem div_perId_lt {segno : Nat} (h : segno * sz.size < 2 ^ 64) :
    segno / sz.perId < 16 ^ 8 := by
  rw [Nat.div_lt_iff_lt_mul perId_pos]
  apply Nat.lt_of_mul_lt_mul_right
  calc segno * sz.size < 2 ^ 64 := h
    _ = 16 ^ 8 * (sz.size * sz.perId) := by rw [size_mul_perId]; norm_num
    _ = 16 ^ 8 * sz.perId * sz.size := by ring

theorem mod_perId_lt (segno : Nat) : segno % sz.perId < 16 ^ 8 :=
  lt_of_lt_of_le (Nat.mod_lt _ perId_pos) perId_le

theorem drop_xlogFileName (tli segno : Nat) (suffix : Name) :
    (sz.xlogFileName tli segno ++ suffix).drop 8 =
      Hex.fixed 8 (segno / sz.perId) ++ (Hex.fixed 8 (segno % sz.perId) ++ suffix) := by
  simp [xlogFileName]

theorem startOf_eq {segno : Nat} (h : segno * sz.size < 2 ^ 64) :
    sz.startOf segno = segno * sz.size := Nat.mod_eq_of_lt h

/-- The segment number of a name is read back. -/
theorem segnoOf_xlogFileName {tli segno : Nat} (h : segno * sz.size < 2 ^ 64) (suffix : Name) :
    sz.segnoOf (sz.xlogFileName tli segno ++ suffix) = segno := by
  have hlog : ((sz.xlogFileName tli segno ++ suffix).drop 8).take 8 =
      Hex.fixed 8 (segno / sz.perId) := by
    rw [drop_xlogFileName, take_append_of_le_length (by simp), take_of_length_le (by simp)]
  have hseg : ((sz.xlogFileName tli segno ++ suffix).drop 16).take 8 =
      Hex.fixed 8 (segno % sz.perId) := by
    rw [show 16 = 8 + 8 from rfl, ← drop_drop, drop_xlogFileName, drop_left' (by simp),
      take_append_of_le_length (by simp), take_of_length_le (by simp)]
  rw [segnoOf, hlog, hseg, Hex.read_fixed, Hex.read_fixed, Nat.mod_eq_of_lt (div_perId_lt h),
    Nat.mod_eq_of_lt (mod_perId_lt segno), mul_comm]
  exact Nat.div_add_mod segno sz.perId

/-- Names without their timeline compare as the segment numbers; a suffix comes after. -/
theorem strLe_xlogFileName {tli segno last : Nat} (h : segno * sz.size < 2 ^ 64)
    (hlast : last * sz.size < 2 ^ 64) (suffix : Name) :
    Hex.strLe ((sz.xlogFileName tli segno ++ suffix).drop 8) ((sz.xlogFileName 0 last).drop 8) = true ↔
      segno < last ∨ segno = last ∧ Hex.strLe suffix [] = true := by
  have hname := sz.drop_xlogFileName 0 last []
  rw [append_nil, append_nil] at hname
  have hright : Hex.fixed 8 (last % sz.perId) = Hex.fixed 8 (last % sz.perId) ++ [] :=
    (append_nil _).symm
  rw [hname, drop_xlogFileName, hright, Hex.strLe_fixed_append, Hex.strLe_fixed_append,
    Nat.mod_eq_of_lt (div_perId_lt h), Nat.mod_eq_of_lt (div_perId_lt hlast),
    Nat.mod_eq_of_lt (mod_perId_lt segno), Nat.mod_eq_of_lt (mod_perId_lt last)]
  have hs := Nat.div_add_mod segno sz.perId
  have hl := Nat.div_add_mod last sz.perId
  have hms := Nat.mod_lt segno sz.perId_pos
  have hml := Nat.mod_lt last sz.perId_pos
  generalize segno / sz.perId = a at *
  generalize last / sz.perId = b at *
  rcases Nat.lt_trichotomy a b with hab | rfl | hab
  · have hmul : sz.perId * a + sz.perId ≤ sz.perId * b := by
      calc sz.perId * a + sz.perId = sz.perId * (a + 1) := (Nat.mul_succ _ _).symm
        _ ≤ sz.perId * b := Nat.mul_le_mul_left _ hab
    exact iff_of_true (.inl hab) (.inl (by omega))
  · constructor
    · rintro (h | ⟨-, h | ⟨h, hsuffix⟩⟩)
      · exact absurd h (lt_irrefl _)
      · exact .inl (by omega)
      · exact .inr ⟨by omega, hsuffix⟩
    · rintro (h | ⟨h, hsuffix⟩)
      · exact .inr ⟨rfl, .inl (by omega)⟩
      · exact .inr ⟨rfl, .inr ⟨by omega, hsuffix⟩⟩
  · have hmul : sz.perId * b + sz.perId ≤ sz.perId * a := by
      calc sz.perId * b + sz.perId = sz.perId * (b + 1) := (Nat.mul_succ _ _).symm
        _ ≤ sz.perId * a := Nat.mul_le_mul_left _ hab
    exact iff_of_false (by omega) (by omega)

end SegSize

/-- The recorded minimum after one more file. -/
def minStep (lsn next : Nat) : Nat := if lsn = 0 ∨ lsn > next then next else lsn

/-- A file that stays when `removes` says which WAL files go. -/
def keeps (removes : Name → Bool) (name : Name) : Bool := !(isWalName name && removes name)

/-- The starts of the WAL files of a list. -/
def walStarts (sz : SegSize) (files : List Name) : List Nat :=
  (files.filter isWalName).map fun name => sz.startOf (sz.segnoOf name)

/-- What the loop leaves, and the smallest start it finds. -/
theorem foldl_visit (sz : SegSize) (q : Request) (dir : List Name) (s : Scan) :
    (dir.foldl (Scan.visit sz q) s).files = s.files ++ dir.filter (keeps (q.removes sz)) ∧
    (dir.foldl (Scan.visit sz q) s).minReservedLsn =
      (walStarts sz (dir.filter (keeps (q.removes sz)))).foldl minStep s.minReservedLsn := by
  induction dir generalizing s with
  | nil => simp [walStarts]
  | cons name dir ih =>
    rw [foldl_cons]
    obtain ⟨hfiles, hmin⟩ := ih (s.visit sz q name)
    rw [hfiles, hmin]
    by_cases hwal : isWalName name = true
    · by_cases hremove : q.removes sz name = true
      · simp [Scan.visit, keeps, hwal, hremove]
      · have hkeep : keeps (q.removes sz) name = true := by simp [keeps, hremove]
        simp only [Scan.visit, hwal, hremove, Bool.not_true, Bool.false_eq_true, if_false,
          filter_cons, hkeep, if_true, walStarts, map_cons, foldl_cons, minStep]
        split <;> simp
    · simp [Scan.visit, keeps, walStarts, hwal]

/-! ## The recorded minimum -/

theorem foldl_minStep_spec {xs : List Nat} {lsn : Nat} (hlsn : lsn ≠ 0) (h : 0 ∉ xs) :
    xs.foldl minStep lsn ∈ lsn :: xs ∧ ∀ x ∈ lsn :: xs, xs.foldl minStep lsn ≤ x := by
  induction xs generalizing lsn with
  | nil => simp
  | cons y xs ih =>
    rw [mem_cons, not_or] at h
    have hmin : minStep lsn y = min lsn y := by
      simp only [minStep, hlsn, false_or]
      split <;> omega
    have hpos : minStep lsn y ≠ 0 := by
      omega
    obtain ⟨hmem, hle⟩ := ih hpos h.2
    rw [foldl_cons]
    have hfirst : xs.foldl minStep (minStep lsn y) ≤ min lsn y :=
      le_trans (hle _ mem_cons_self) (le_of_eq hmin)
    constructor
    · rcases mem_cons.mp hmem with heq | hmem
      · rw [heq, hmin]
        rcases le_total lsn y with h | h <;> simp [h]
      · exact mem_cons_of_mem _ (mem_cons_of_mem _ hmem)
    · intro x hx
      rcases mem_cons.mp hx with rfl | hx
      · omega
      · rcases mem_cons.mp hx with rfl | hx
        · omega
        · exact hle x (mem_cons_of_mem _ hx)

/-- Without a start 0, the smallest start is recorded. -/
theorem foldl_minStep_of_pos {xs : List Nat} (h : 0 ∉ xs) (hne : xs ≠ []) :
    xs.foldl minStep 0 ∈ xs ∧ ∀ x ∈ xs, xs.foldl minStep 0 ≤ x := by
  cases xs with
  | nil => exact absurd rfl hne
  | cons y xs =>
    rw [mem_cons, not_or] at h
    have hfirst : minStep 0 y = y := by simp [minStep]
    exact foldl_minStep_spec (fun hy => h.1 hy.symm) h.2

/-- A start 0 is recorded only if no other follows. -/
theorem foldl_minStep_eq_zero_iff {xs : List Nat} (hne : xs ≠ []) :
    xs.foldl minStep 0 = 0 ↔ xs.getLast? = some 0 := by
  obtain ⟨ys, y, rfl⟩ : ∃ ys y, xs = ys ++ [y] :=
    ⟨xs.dropLast, xs.getLast hne, (dropLast_append_getLast hne).symm⟩
  rw [foldl_append, foldl_cons, foldl_nil, List.getLast?_concat, Option.some.injEq]
  simp only [minStep]
  split <;> omega

/-! ## When the removal is safe -/

/-- The file is at or below segment `last`, a partial file below it, its archiving is done or not
asked for, and it can be unlinked. -/
def Request.goes (q : Request) (sz : SegSize) (last : Nat) (name : Name) : Bool :=
  (decide (sz.segnoOf name < last) || sz.segnoOf name == last && isXLogFileName name) &&
    (q.force || q.archiveCheckDone name) && q.removeWalFile name

/-- The last segment that lies below the reserved LSN and every slot and that the upstream has
removed. -/
def Request.expendable (q : Request) (sz : SegSize) : Nat :=
  min (q.minLsn / sz.size - 1) q.upstreamLastRemovedSegno

/-- The reserved position leaves segment 0, or no file that the upstream has removed can go. -/
def NoWrap (sz : SegSize) (q : Request) (dir : List Name) : Prop :=
  sz.size ≤ q.minLsn ∨ ∀ name ∈ dir, isWalName name = true →
    q.goes sz q.upstreamLastRemovedSegno name = false

/-- If a file of segment 0 stays, then no minimum is recorded yet and the last file that stays is
one of segment 0. -/
def ZeroLast (sz : SegSize) (removes : Name → Bool) (node : Node) : Prop :=
  0 ∈ walStarts sz (node.files.filter (keeps removes)) → node.minReceivedLsn = 0 ∧
    (walStarts sz (node.files.filter (keeps removes))).getLast? = some 0

/-- No segment loses all its files while one before it and one after it keep a file. -/
def NoGap (sz : SegSize) (removes : Name → Bool) (dir : List Name) : Prop :=
  ∀ low ∈ dir, ∀ high ∈ dir, isWalName low = true → isWalName high = true →
    removes low = false → removes high = false →
    ∀ n, Present sz dir n → sz.segnoOf low < n → n < sz.segnoOf high →
      ∃ name ∈ dir, isWalName name = true ∧ sz.segnoOf name = n ∧ removes name = false

section

variable {sz : SegSize} {q : Request} {dir : List Name} {removes : Name → Bool} {node : Node}

theorem minLsn_le_reservedLsn : q.minLsn ≤ q.reservedLsn := by
  simp only [Request.minLsn]
  split <;> omega

theorem minLsn_le_slotMinimumLsn (h : q.slotMinimumLsn ≠ 0) : q.minLsn ≤ q.slotMinimumLsn := by
  simp only [Request.minLsn, h, false_or]
  split <;> omega

theorem minLsn_eq : q.minLsn = q.reservedLsn ∨
    q.slotMinimumLsn ≠ 0 ∧ q.minLsn = q.slotMinimumLsn := by
  simp only [Request.minLsn]
  split
  · exact .inl rfl
  · next h =>
    rw [not_or] at h
    exact .inr ⟨h.1, rfl⟩

theorem lastSegno_le : q.lastSegno sz ≤ q.upstreamLastRemovedSegno := by
  simp only [Request.lastSegno]
  split <;> omega

/-- In segment 0 the decrement wraps around, and only the upstream bounds the removal. -/
theorem lastSegno_eq (hlt : q.minLsn < 2 ^ 64) (hup : q.upstreamLastRemovedSegno < 2 ^ 64) :
    q.lastSegno sz =
      if sz.size ≤ q.minLsn then q.expendable sz else q.upstreamLastRemovedSegno := by
  have hdiv : q.minLsn / sz.size ≤ q.minLsn := Nat.div_le_self _ _
  simp only [Request.lastSegno, Request.expendable]
  by_cases hle : sz.size ≤ q.minLsn
  · have hpos : 0 < q.minLsn / sz.size := Nat.div_pos hle sz.size_pos
    split <;> omega
  · rw [Nat.div_eq_of_lt (Nat.lt_of_not_le hle)]
    split <;> omega

/-- Names compare as the segment numbers, with a partial file after the complete one. -/
theorem removes_eq (hdir : WalDir sz dir) (hup : q.upstreamLastRemovedSegno * sz.size < 2 ^ 64)
    {name : Name} (hname : name ∈ dir) (hwal : isWalName name = true) :
    q.removes sz name = q.goes sz (q.lastSegno sz) name := by
  obtain ⟨tli, segno, suffix, -, hseg, hsuffix, rfl⟩ := hdir name hname hwal
  have hlast : q.lastSegno sz * sz.size < 2 ^ 64 :=
    lt_of_le_of_lt (Nat.mul_le_mul_right _ lastSegno_le) hup
  have hcomplete : Hex.strLe suffix [] = true ↔
      isXLogFileName (sz.xlogFileName tli segno ++ suffix) = true := by
    obtain rfl | rfl := hsuffix
    · refine iff_of_true rfl ?_
      simpa [isWalName, isPartialXLogFileName, SegSize.xlogFileName] using hwal
    · simp [isXLogFileName, SegSize.xlogFileName, partialSuffix, Hex.strLe]
  rw [Request.goes, SegSize.segnoOf_xlogFileName hseg]
  refine congrArg (· && _) (congrArg (· && _) (Bool.eq_iff_iff.mpr ?_))
  rw [SegSize.strLe_xlogFileName hseg hlast suffix, hcomplete, Bool.or_eq_true, decide_eq_true_eq,
    Bool.and_eq_true, beq_iff_eq]

theorem goes_mono {a b : Nat} {name : Name} (hab : a ≤ b) (h : q.goes sz a name = true) :
    q.goes sz b name = true := by
  simp only [Request.goes, Bool.and_eq_true, Bool.or_eq_true, decide_eq_true_eq, beq_iff_eq] at h ⊢
  refine ⟨⟨?_, h.1.2⟩, h.2⟩
  rcases h.1.1 with hlt | ⟨heq, hname⟩
  · exact .inl (hlt.trans_le hab)
  · exact (heq.trans_le hab).lt_or_eq.imp_right fun h => ⟨h, hname⟩

theorem goes_done {last : Nat} {name : Name} (h : q.goes sz last name = true) :
    sz.segnoOf name ≤ last ∧ (q.force = true ∨ q.archiveCheckDone name = true) := by
  simp only [Request.goes, Bool.and_eq_true, Bool.or_eq_true, decide_eq_true_eq, beq_iff_eq] at h
  exact ⟨by omega, h.1.2⟩

theorem present_filter_iff {n : Nat} : Present sz (dir.filter (keeps removes)) n ↔
    ∃ name ∈ dir, isWalName name = true ∧ sz.segnoOf name = n ∧ removes name = false := by
  constructor
  · rintro ⟨name, hname, hwal, hn⟩
    obtain ⟨hmem, hkeep⟩ := mem_filter.mp hname
    exact ⟨name, hmem, hwal, hn, by simpa [keeps, hwal] using hkeep⟩
  · rintro ⟨name, hname, hwal, hn, hkeep⟩
    exact ⟨name, mem_filter.mpr ⟨hname, by simp [keeps, hkeep]⟩, hwal, hn⟩

/-- The starts of the files that stay are those of the segments that stay. -/
theorem mem_walStarts_iff (hdir : WalDir sz dir) {x : Nat} :
    x ∈ walStarts sz (dir.filter (keeps removes)) ↔
      ∃ n, Present sz (dir.filter (keeps removes)) n ∧ x = n * sz.size := by
  have hstart : ∀ name ∈ dir.filter (keeps removes), isWalName name = true →
      sz.startOf (sz.segnoOf name) = sz.segnoOf name * sz.size := by
    intro name hname hwal
    obtain ⟨tli, segno, suffix, -, hseg, -, rfl⟩ :=
      hdir name (mem_filter.mp hname).1 hwal
    rw [SegSize.segnoOf_xlogFileName hseg, SegSize.startOf_eq hseg]
  simp only [walStarts, mem_map]
  constructor
  · rintro ⟨name, hname, rfl⟩
    obtain ⟨hmem, hwal⟩ := mem_filter.mp hname
    exact ⟨sz.segnoOf name, ⟨name, hmem, hwal, rfl⟩, hstart name hmem hwal⟩
  · rintro ⟨n, ⟨name, hmem, hwal, rfl⟩, rfl⟩
    exact ⟨name, mem_filter.mpr ⟨hmem, hwal⟩, hstart name hmem hwal⟩

/-- Above segment 0 what goes is needed by nobody. -/
theorem removed_safe (hle : sz.size ≤ q.minLsn) {name : Name}
    (h : q.goes sz (q.expendable sz) name = true) :
    (sz.segnoOf name + 1) * sz.size ≤ q.reservedLsn ∧
      (q.slotMinimumLsn ≠ 0 → (sz.segnoOf name + 1) * sz.size ≤ q.slotMinimumLsn) ∧
      sz.segnoOf name ≤ q.upstreamLastRemovedSegno ∧
      (q.force = true ∨ q.archiveCheckDone name = true) := by
  obtain ⟨hseg, hdone⟩ := goes_done h
  have hpos : 0 < q.minLsn / sz.size := Nat.div_pos hle sz.size_pos
  have hlast : sz.segnoOf name + 1 ≤ q.minLsn / sz.size ∧
      sz.segnoOf name ≤ q.upstreamLastRemovedSegno := by
    unfold Request.expendable at hseg
    omega
  have hend : (sz.segnoOf name + 1) * sz.size ≤ q.minLsn :=
    calc (sz.segnoOf name + 1) * sz.size ≤ q.minLsn / sz.size * sz.size :=
          Nat.mul_le_mul_right _ hlast.1
      _ ≤ q.minLsn := Nat.div_mul_le_self _ _
  exact ⟨hend.trans minLsn_le_reservedLsn, fun hne => hend.trans (minLsn_le_slotMinimumLsn hne),
    hlast.2, hdone⟩

/-- What is removed is needed by nobody if and only if the bound has not wrapped. -/
theorem removed_safe_iff (hdir : WalDir sz dir) (hreserved : q.reservedLsn < 2 ^ 64)
    (hup : q.upstreamLastRemovedSegno * sz.size < 2 ^ 64) :
    (∀ name ∈ dir, isWalName name = true → name ∉ dir.filter (keeps (q.removes sz)) →
      (sz.segnoOf name + 1) * sz.size ≤ q.reservedLsn ∧
      (q.slotMinimumLsn ≠ 0 → (sz.segnoOf name + 1) * sz.size ≤ q.slotMinimumLsn) ∧
      sz.segnoOf name ≤ q.upstreamLastRemovedSegno ∧
      (q.force = true ∨ q.archiveCheckDone name = true)) ↔ NoWrap sz q dir := by
  have hmin : q.minLsn < 2 ^ 64 := lt_of_le_of_lt minLsn_le_reservedLsn hreserved
  have hup' : q.upstreamLastRemovedSegno < 2 ^ 64 :=
    lt_of_le_of_lt (Nat.le_mul_of_pos_right _ sz.size_pos) hup
  have hout : ∀ name ∈ dir, isWalName name = true →
      (name ∉ dir.filter (keeps (q.removes sz)) ↔ q.goes sz (q.lastSegno sz) name = true) := by
    intro name hname hwal
    rw [← removes_eq hdir hup hname hwal]
    simp [hname, keeps, hwal]
  rw [lastSegno_eq hmin hup'] at hout
  by_cases hle : sz.size ≤ q.minLsn
  · rw [if_pos hle] at hout
    exact iff_of_true (fun name hname hwal hmem =>
      removed_safe hle ((hout name hname hwal).mp hmem)) (.inl hle)
  · rw [if_neg hle] at hout
    constructor
    · refine fun h => .inr fun name hname hwal => ?_
      by_contra hgoes
      rw [Bool.not_eq_false] at hgoes
      obtain ⟨hres, hslot, -⟩ := h name hname hwal ((hout name hname hwal).mpr hgoes)
      have hone : sz.size ≤ (sz.segnoOf name + 1) * sz.size :=
        Nat.le_mul_of_pos_left _ (Nat.succ_pos _)
      rcases minLsn_eq (q := q) with heq | ⟨hne, heq⟩
      · omega
      · omega
    · rintro (h | hnone) name hname hwal hmem
      · exact absurd h hle
      · have hgoes := (hout name hname hwal).mp hmem
        rw [hnone name hname hwal] at hgoes
        cases hgoes

/-- As long as the bound does not wrap, the files that go are those that are expendable. -/
theorem removes_eq_goes (hdir : WalDir sz dir) (hreserved : q.reservedLsn < 2 ^ 64)
    (hup : q.upstreamLastRemovedSegno * sz.size < 2 ^ 64) (hwrap : NoWrap sz q dir) {name : Name}
    (hname : name ∈ dir) (hwal : isWalName name = true) :
    q.removes sz name = q.goes sz (q.expendable sz) name := by
  have hmin : q.minLsn < 2 ^ 64 := lt_of_le_of_lt minLsn_le_reservedLsn hreserved
  have hup' : q.upstreamLastRemovedSegno < 2 ^ 64 :=
    lt_of_le_of_lt (Nat.le_mul_of_pos_right _ sz.size_pos) hup
  rw [removes_eq hdir hup hname hwal, lastSegno_eq hmin hup']
  split
  · rfl
  · next hle =>
    -- what is expendable the upstream has removed
    have hnone := hwrap.resolve_left hle name hname hwal
    rw [hnone, eq_comm, Bool.eq_false_iff]
    intro hgoes
    rw [goes_mono (min_le_right _ _) hgoes] at hnone
    cases hnone

/-- The minimum that a node records when the starts of the files that stay are `starts`. -/
def recordedMin (starts : List Nat) (old : Nat) : Nat :=
  if starts.foldl minStep 0 = 0 then old else starts.foldl minStep 0

/-- The smallest start is recorded if and only if a file of segment 0 that stays is the last one and
nothing was recorded before. -/
theorem smallest_iff (hdir : WalDir sz node.files) :
    (∀ segno, Present sz (node.files.filter (keeps removes)) segno →
      (∀ n, Present sz (node.files.filter (keeps removes)) n → segno ≤ n) →
      recordedMin (walStarts sz (node.files.filter (keeps removes))) node.minReceivedLsn =
        segno * sz.size) ↔
    ZeroLast sz removes node := by
  constructor
  · intro h hzero
    obtain ⟨n, hn, hx⟩ := (mem_walStarts_iff hdir).mp hzero
    obtain rfl : n = 0 := (Nat.mul_eq_zero.mp hx.symm).resolve_right (Nat.ne_of_gt sz.size_pos)
    have hrec := (h 0 hn fun _ _ => Nat.zero_le _).trans (Nat.zero_mul _)
    rw [← foldl_minStep_eq_zero_iff (ne_nil_of_mem hzero)]
    unfold recordedMin at hrec
    split at hrec
    · next hmin => exact ⟨hrec, hmin⟩
    · next hmin => exact absurd hrec hmin
  · intro h segno hpresent hleast
    have hmem : segno * sz.size ∈ walStarts sz (node.files.filter (keeps removes)) :=
      (mem_walStarts_iff hdir).mpr ⟨segno, hpresent, rfl⟩
    by_cases hzero : 0 ∈ walStarts sz (node.files.filter (keeps removes))
    · obtain ⟨n, hn, hx⟩ := (mem_walStarts_iff hdir).mp hzero
      have hn0 : n = 0 := (Nat.mul_eq_zero.mp hx.symm).resolve_right (Nat.ne_of_gt sz.size_pos)
      have hseg : segno = 0 := Nat.le_zero.mp (hn0 ▸ hleast n hn)
      obtain ⟨hold, hlast⟩ := h hzero
      have hmin := (foldl_minStep_eq_zero_iff (ne_nil_of_mem hzero)).mpr hlast
      rw [recordedMin, if_pos hmin, hold, hseg, Nat.zero_mul]
    · obtain ⟨hfound, hle⟩ := foldl_minStep_of_pos hzero (ne_nil_of_mem hmem)
      obtain ⟨n, hn, hx⟩ := (mem_walStarts_iff hdir).mp hfound
      rw [recordedMin, if_neg fun hmin => hzero (by rwa [hmin] at hfound)]
      apply le_antisymm (hle _ hmem)
      rw [hx]
      exact Nat.mul_le_mul_right _ (hleast n hn)

/-- If the segments were contiguous and no gap opens, then those that stay are contiguous. -/
theorem exists_range (hgap : NoGap sz removes dir) {first last : Nat}
    (hall : ∀ n, Present sz dir n ↔ first ≤ n ∧ n ≤ last)
    (hne : ∃ n, Present sz (dir.filter (keeps removes)) n) :
    ∃ low high, Present sz (dir.filter (keeps removes)) low ∧
      ∀ n, Present sz (dir.filter (keeps removes)) n ↔ low ≤ n ∧ n < high := by
  classical
  have hsub : ∀ n, Present sz (dir.filter (keeps removes)) n → Present sz dir n := by
    rintro n ⟨name, hname, hwal, hn⟩
    exact ⟨name, (mem_filter.mp hname).1, hwal, hn⟩
  have hbound : ∀ n, Present sz (dir.filter (keeps removes)) n → n ≤ last :=
    fun n hn => ((hall n).mp (hsub n hn)).2
  have hlow := Nat.find_spec hne
  obtain ⟨some, hsome⟩ := hne
  have hhigh := Nat.findGreatest_spec (P := Present sz (dir.filter (keeps removes)))
    (hbound some hsome) hsome
  refine ⟨Nat.find ⟨some, hsome⟩, Nat.findGreatest (Present sz (dir.filter (keeps removes))) last + 1,
    hlow, fun n => ⟨fun hn => ?_, fun ⟨hle, hlt⟩ => ?_⟩⟩
  · exact ⟨Nat.find_min' _ hn, Nat.lt_succ_of_le (Nat.le_findGreatest (hbound n hn) hn)⟩
  · -- a segment between the smallest and the largest was there, and does not go
    generalize Nat.find ⟨some, hsome⟩ = low at hlow hle
    generalize Nat.findGreatest (Present sz (dir.filter (keeps removes))) last = high at hhigh hlt
    rcases Nat.eq_or_lt_of_le hle with rfl | hle
    · exact hlow
    rcases Nat.eq_or_lt_of_le (Nat.le_of_lt_succ hlt) with rfl | hlt
    · exact hhigh
    have hpresent : Present sz dir n := by
      rw [hall]
      exact ⟨((hall low).mp (hsub low hlow)).1.trans hle.le, hlt.le.trans (hbound high hhigh)⟩
    obtain ⟨a, ha, hawal, rfl, hakeep⟩ := present_filter_iff.mp hlow
    obtain ⟨b, hb, hbwal, rfl, hbkeep⟩ := present_filter_iff.mp hhigh
    exact present_filter_iff.mpr (hgap a ha b hb hawal hbwal hakeep hbkeep n hpresent hle hlt)

theorem removeOldWal_eq (hvalid : q.reservedLsn ≠ 0) :
    (removeOldWal sz q node).files = node.files.filter (keeps (q.removes sz)) ∧
      (removeOldWal sz q node).minReceivedLsn =
        recordedMin (walStarts sz (node.files.filter (keeps (q.removes sz))))
          node.minReceivedLsn := by
  obtain ⟨hfiles, hmin⟩ := foldl_visit sz q node.files ⟨[], 0, 0⟩
  rw [removeOldWal, if_neg hvalid, recordedMin, ← hmin]
  exact ⟨hfiles, rfl⟩

/-- The removal is safe if and only if the bound has not wrapped, a file of segment 0 is neither
hidden behind another nor left out because its start is no valid LSN, and the files that go leave no
gap in a contiguous range. -/
theorem removeOldWal_safe_iff (hdir : WalDir sz node.files) (hvalid : q.reservedLsn ≠ 0)
    (hreserved : q.reservedLsn < 2 ^ 64) (hup : q.upstreamLastRemovedSegno * sz.size < 2 ^ 64) :
    Safe sz q node.files (removeOldWal sz q node) ↔
      NoWrap sz q node.files ∧ ZeroLast sz (q.goes sz (q.expendable sz)) node ∧
        ((∃ first last, ∀ n, Present sz node.files n ↔ first ≤ n ∧ n ≤ last) →
          NoGap sz (q.goes sz (q.expendable sz)) node.files) := by
  obtain ⟨hfiles, hmin⟩ := removeOldWal_eq hvalid
  have hkept : NoWrap sz q node.files →
      node.files.filter (keeps (q.removes sz)) =
        node.files.filter (keeps (q.goes sz (q.expendable sz))) := by
    refine fun hwrap => filter_congr fun name hname => ?_
    by_cases hwal : isWalName name = true
    · rw [keeps, keeps, removes_eq_goes hdir hreserved hup hwrap hname hwal]
    · simp [keeps, hwal]
  constructor
  · rintro ⟨hremoved, hsmallest, hcontiguous⟩
    have hwrap := (removed_safe_iff hdir hreserved hup).mp (hfiles ▸ hremoved)
    rw [hfiles, hkept hwrap] at hsmallest hcontiguous
    rw [hmin, hkept hwrap] at hsmallest
    refine ⟨hwrap, (smallest_iff hdir).mp hsmallest, ?_⟩
    rintro ⟨first, last, hall⟩ low hlow high hhigh hlowal hhiwal hlokeep hhikeep n - hlt hgt
    obtain ⟨a, b, -, hrange⟩ := hcontiguous last ⟨first, hall⟩
    have hlo := (hrange _).mp (present_filter_iff.mpr ⟨low, hlow, hlowal, rfl, hlokeep⟩)
    have hhi := (hrange _).mp (present_filter_iff.mpr ⟨high, hhigh, hhiwal, rfl, hhikeep⟩)
    exact present_filter_iff.mp ((hrange n).mpr ⟨hlo.1.trans hlt.le, hgt.trans hhi.2⟩)
  · rintro ⟨hwrap, hzero, hgap⟩
    have hsmallest := (smallest_iff hdir).mpr hzero
    refine ⟨hfiles ▸ (removed_safe_iff hdir hreserved hup).mpr hwrap, ?_, ?_⟩
    · rwa [hfiles, hmin, hkept hwrap]
    · rintro last ⟨first, hall⟩
      rw [hfiles, hmin, hkept hwrap]
      by_cases hne : ∃ n, Present sz (node.files.filter (keeps (q.goes sz (q.expendable sz)))) n
      · obtain ⟨low, high, hlow, hrange⟩ := exists_range (hgap ⟨first, last, hall⟩) hall hne
        exact ⟨low, high, fun _ => hsmallest low hlow fun n hn => ((hrange n).mp hn).1, hrange⟩
      · push Not at hne
        exact ⟨0, 0, fun h => absurd h (lt_irrefl 0), fun n => iff_of_false (hne n) (by omega)⟩

end

/-! ## Three segments -/

def mb16 : SegSize := ⟨2 ^ 24, by decide, by decide⟩

/-- Segments 1 to 3 of timeline 1. -/
def threeSegments : List Name := [mb16.xlogFileName 1 1, mb16.xlogFileName 1 2, mb16.xlogFileName 1 3]

/-- Everything below segment 3 may go, if its archiving is done. -/
def reserveThird (archiveCheckDone : Name → Bool) : Request :=
  ⟨3 * 2 ^ 24 + 100, 0, 5, false, archiveCheckDone, fun _ => true⟩

theorem present_iff_mem {sz : SegSize} {files : List Name} {n : Nat} :
    Present sz files n ↔ n ∈ (files.filter isWalName).map sz.segnoOf := by
  simp [Present, and_assoc]

theorem present_threeSegments (n : Nat) : Present mb16 threeSegments n ↔ 1 ≤ n ∧ n ≤ 3 := by
  have hsegnos : (threeSegments.filter isWalName).map mb16.segnoOf = [1, 2, 3] := by decide +kernel
  rw [present_iff_mem, hsegnos]
  simp only [mem_cons, not_mem_nil, or_false]
  omega

theorem walDir_threeSegments : WalDir mb16 threeSegments := by
  intro name hname _
  simp only [threeSegments, mem_cons, not_mem_nil, or_false] at hname
  rcases hname with rfl | rfl | rfl
  · exact ⟨1, 1, [], by decide, by decide, .inl rfl, (append_nil _).symm⟩
  · exact ⟨1, 2, [], by decide, by decide, .inl rfl, (append_nil _).symm⟩
  · exact ⟨1, 3, [], by decide, by decide, .inl rfl, (append_nil _).symm⟩

/-- The archiving of all three segments is done: segments 1 and 2 go, segment 3 is recorded. -/
theorem removeOldWal_safe_archived :
    removeOldWal mb16 (reserveThird fun _ => true) ⟨threeSegments, 1, 2 ^ 24⟩ =
        ⟨[mb16.xlogFileName 1 3], 1, 3 * 2 ^ 24⟩ ∧
      Safe mb16 (reserveThird fun _ => true) threeSegments
        (removeOldWal mb16 (reserveThird fun _ => true) ⟨threeSegments, 1, 2 ^ 24⟩) := by
  let q := reserveThird fun _ => true
  have hthird : ∀ name ∈ threeSegments, q.goes mb16 (q.expendable mb16) name = false →
      mb16.segnoOf name = 3 := by decide +kernel
  have hdir : WalDir mb16 (Node.files ⟨threeSegments, 1, 2 ^ 24⟩) := walDir_threeSegments
  refine ⟨by decide +kernel, (removeOldWal_safe_iff hdir (by decide) (by decide)
    (by decide)).mpr ⟨.inl (by decide), fun h => absurd h (by decide +kernel), ?_⟩⟩
  intro _ low hlow high hhigh _ _ hlokeep hhikeep n _ hlt hgt
  rw [hthird low hlow hlokeep] at hlt
  rw [hthird high hhigh hhikeep] at hgt
  omega

/-- Segment 2 is archived and segment 1 is not. Segment 2 goes, and leaves a hole. -/
theorem removeOldWal_hole :
    ∃ (sz : SegSize) (q : Request) (node : Node), WalDir sz node.files ∧
      q.reservedLsn ≠ 0 ∧ q.reservedLsn < 2 ^ 64 ∧ q.upstreamLastRemovedSegno * sz.size < 2 ^ 64 ∧
      (∀ n, Present sz node.files n ↔ 1 ≤ n ∧ n ≤ 3) ∧
      (removeOldWal sz q node).files = [sz.xlogFileName 1 1, sz.xlogFileName 1 3] ∧
      ¬Safe sz q node.files (removeOldWal sz q node) := by
  let q := reserveThird fun name => name == mb16.xlogFileName 1 2
  have hfiles : (removeOldWal mb16 q ⟨threeSegments, 1, 2 ^ 24⟩).files =
      [mb16.xlogFileName 1 1, mb16.xlogFileName 1 3] := by decide +kernel
  refine ⟨mb16, q, ⟨threeSegments, 1, 2 ^ 24⟩, walDir_threeSegments, by decide, by decide,
    by decide, present_threeSegments, hfiles, fun hsafe => ?_⟩
  have hsegnos : ([mb16.xlogFileName 1 1, mb16.xlogFileName 1 3].filter isWalName).map mb16.segnoOf =
      [1, 3] := by decide +kernel
  obtain ⟨first, stop, -, hrange⟩ := hsafe.contiguous 3 ⟨1, present_threeSegments⟩
  simp only [hfiles, present_iff_mem, hsegnos, mem_cons, not_mem_nil] at hrange
  have hone := (hrange 1).mp (by decide)
  have htwo := (hrange 2).not.mp (by decide)
  have hthree := (hrange 3).mp (by decide)
  omega

end Polar.DataMax
