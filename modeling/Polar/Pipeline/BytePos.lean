import Mathlib.Algebra.Order.Group.Nat
import Mathlib.Order.Monotone.Basic
import Mathlib.Tactic.Ring

/-!
# LSNs and usable byte positions

A WAL position is counted twice: as an LSN, page headers included, and as a byte position that
counts only the bytes usable for WAL data. `pages` is the number of pages of a segment.
-/

namespace Polar.Pipeline

def xlogBlcksz : Nat := 8192

def sizeOfXLogShortPHD : Nat := 24

def sizeOfXLogLongPHD : Nat := 40

/-- `UsableBytesInPage`. -/
def usableBytesInPage : Nat := xlogBlcksz - sizeOfXLogShortPHD

/-- `UsableBytesInSegment`. -/
def usableBytesInSegment (pages : Nat) : Nat :=
  pages * usableBytesInPage - (sizeOfXLogLongPHD - sizeOfXLogShortPHD)

def walSegmentSize (pages : Nat) : Nat := pages * xlogBlcksz

/-- `XLogBytePosToRecPtr`: a position on a page boundary is the first byte after the header. -/
def bytePosToRecPtr (pages bytepos : Nat) : Nat :=
  let fullsegs := bytepos / usableBytesInSegment pages
  let bytesleft := bytepos % usableBytesInSegment pages
  let segOffset :=
    if bytesleft < xlogBlcksz - sizeOfXLogLongPHD then bytesleft + sizeOfXLogLongPHD
    else
      let bytesleft := bytesleft - (xlogBlcksz - sizeOfXLogLongPHD)
      xlogBlcksz + bytesleft / usableBytesInPage * xlogBlcksz + bytesleft % usableBytesInPage +
        sizeOfXLogShortPHD
  fullsegs * walSegmentSize pages + segOffset

/-- `XLogBytePosToEndRecPtr`: a position on a page boundary is the boundary itself. -/
def bytePosToEndRecPtr (pages bytepos : Nat) : Nat :=
  let fullsegs := bytepos / usableBytesInSegment pages
  let bytesleft := bytepos % usableBytesInSegment pages
  let segOffset :=
    if bytesleft < xlogBlcksz - sizeOfXLogLongPHD then
      if bytesleft = 0 then 0 else bytesleft + sizeOfXLogLongPHD
    else
      let bytesleft := bytesleft - (xlogBlcksz - sizeOfXLogLongPHD)
      let fullpages := bytesleft / usableBytesInPage
      let bytesleft := bytesleft % usableBytesInPage
      if bytesleft = 0 then xlogBlcksz + fullpages * xlogBlcksz
      else xlogBlcksz + fullpages * xlogBlcksz + bytesleft + sizeOfXLogShortPHD
  fullsegs * walSegmentSize pages + segOffset

/-- `XLogRecPtrToBytePos`. -/
def recPtrToBytePos (pages ptr : Nat) : Nat :=
  let fullsegs := ptr / walSegmentSize pages
  let fullpages := ptr % walSegmentSize pages / xlogBlcksz
  let offset := ptr % xlogBlcksz
  if fullpages = 0 then
    fullsegs * usableBytesInSegment pages + if 0 < offset then offset - sizeOfXLogLongPHD else 0
  else
    fullsegs * usableBytesInSegment pages + (xlogBlcksz - sizeOfXLogLongPHD) +
      (fullpages - 1) * usableBytesInPage + if 0 < offset then offset - sizeOfXLogShortPHD else 0

/-- `INSERT_FREESPACE`. -/
def insertFreespace (ptr : Nat) : Nat :=
  if ptr % xlogBlcksz = 0 then 0 else xlogBlcksz - ptr % xlogBlcksz

/-- Step over the header of the page that begins at `ptr`. -/
def skipPageHeader (pages ptr : Nat) : Nat :=
  if ptr % walSegmentSize pages = 0 then ptr + sizeOfXLogLongPHD else ptr + sizeOfXLogShortPHD

section Pages

variable {pages : Nat}

/-- The size of the header of a page, by the number of the page. -/
def headerSize (pages page : Nat) : Nat :=
  if page % pages = 0 then sizeOfXLogLongPHD else sizeOfXLogShortPHD

/-- The byte position at which the data of a page begins. -/
def pageStart (pages page : Nat) : Nat :=
  page / pages * usableBytesInSegment pages +
    if page % pages = 0 then 0
    else xlogBlcksz - sizeOfXLogLongPHD + (page % pages - 1) * usableBytesInPage

theorem headerSize_pos (page : Nat) : 0 < headerSize pages page := by
  unfold headerSize
  split <;> decide

theorem headerSize_lt (page : Nat) : headerSize pages page < xlogBlcksz := by
  unfold headerSize
  split <;> decide

theorem pageStart_succ (hpages : 0 < pages) (page : Nat) :
    pageStart pages (page + 1) = pageStart pages page + (xlogBlcksz - headerSize pages page) := by
  have hlt := Nat.mod_lt page hpages
  obtain hlast | hlast : page % pages + 1 = pages ∨ page % pages + 1 < pages := by omega
  · -- the next page begins a segment
    have hdiv : (page + 1) / pages = page / pages + 1 := by
      have := Nat.div_add_mod page pages
      refine Nat.div_eq_of_lt_le ?_ ?_
      · rw [Nat.add_mul, mul_comm]; omega
      · rw [Nat.add_mul, Nat.add_mul, mul_comm]; omega
    have hmod : (page + 1) % pages = 0 := by
      rw [← Nat.mod_add_mod, hlast, Nat.mod_self]
    have husable : usableBytesInSegment pages = (pages - 1) * usableBytesInPage +
        (xlogBlcksz - sizeOfXLogLongPHD) := by
      obtain ⟨k, rfl⟩ : ∃ k, pages = k + 1 := ⟨pages - 1, by omega⟩
      simp [usableBytesInSegment, usableBytesInPage, xlogBlcksz, sizeOfXLogLongPHD,
        sizeOfXLogShortPHD]
      omega
    simp only [pageStart, headerSize, hdiv, hmod, if_true, Nat.add_mul, one_mul, husable]
    by_cases h0 : page % pages = 0
    · simp only [h0, if_true]
      have : pages = 1 := by omega
      subst this
      simp [xlogBlcksz, sizeOfXLogLongPHD]
    · simp only [h0, if_false]
      obtain ⟨j, hj⟩ : ∃ j, page % pages = j + 1 := ⟨page % pages - 1, by omega⟩
      have : pages - 1 = j + 1 := by omega
      simp only [hj, this, usableBytesInPage, xlogBlcksz, sizeOfXLogLongPHD, sizeOfXLogShortPHD]
      omega
  · have hdiv : (page + 1) / pages = page / pages := by
      have := Nat.div_add_mod page pages
      refine Nat.div_eq_of_lt_le ?_ ?_
      · rw [mul_comm]; omega
      · rw [Nat.add_mul, mul_comm]; omega
    have hmod : (page + 1) % pages = page % pages + 1 := by
      rw [← Nat.mod_add_mod, Nat.mod_eq_of_lt hlast]
    simp only [pageStart, headerSize, hdiv, hmod, Nat.succ_ne_zero, if_false]
    by_cases h0 : page % pages = 0
    · simp [h0]
    · simp only [h0, if_false]
      obtain ⟨j, hj⟩ : ∃ j, page % pages = j + 1 := ⟨page % pages - 1, by omega⟩
      simp only [hj, usableBytesInPage, xlogBlcksz, sizeOfXLogLongPHD, sizeOfXLogShortPHD]
      omega

theorem pageStart_strictMono (hpages : 0 < pages) : StrictMono (pageStart pages) := by
  refine strictMono_nat_of_lt_succ fun page => ?_
  have : headerSize pages page < xlogBlcksz := headerSize_lt page
  rw [pageStart_succ hpages]
  omega

/-- The data of a page ends where the data of the next one begins. -/
theorem page_eq_of_lt {p q v w : Nat} (hpages : 0 < pages)
    (hv : v < xlogBlcksz - headerSize pages p) (hw : w < xlogBlcksz - headerSize pages q)
    (h : pageStart pages p + v = pageStart pages q + w) : p = q := by
  have hmono := pageStart_strictMono hpages
  have hp := pageStart_succ hpages p
  have hq := pageStart_succ hpages q
  obtain hlt | heq | hlt := Nat.lt_trichotomy p q
  · have := hmono.monotone (show p + 1 ≤ q from hlt)
    omega
  · exact heq
  · have := hmono.monotone (show q + 1 ≤ p from hlt)
    omega

theorem recPtrToBytePos_eq (ptr : Nat) :
    recPtrToBytePos pages ptr = pageStart pages (ptr / xlogBlcksz) +
      (ptr % xlogBlcksz - headerSize pages (ptr / xlogBlcksz)) := by
  have hsegs : ptr / walSegmentSize pages = ptr / xlogBlcksz / pages := by
    rw [walSegmentSize, mul_comm, Nat.div_div_eq_div_mul]
  have hpage : ptr % walSegmentSize pages / xlogBlcksz = ptr / xlogBlcksz % pages := by
    rw [walSegmentSize, mul_comm, Nat.mod_mul_right_div_self]
  simp only [recPtrToBytePos, hsegs, hpage, pageStart, headerSize]
  by_cases h0 : ptr / xlogBlcksz % pages = 0
  · simp only [h0, if_true]
    split <;> omega
  · simp only [h0, if_false]
    split <;> omega

/-- A page and a place in it. -/
theorem div_mod_page (page : Nat) {off : Nat} (hoff : off < xlogBlcksz) :
    (page * xlogBlcksz + off) / xlogBlcksz = page ∧
      (page * xlogBlcksz + off) % xlogBlcksz = off := by
  have hpos : 0 < xlogBlcksz := by decide
  constructor
  · rw [add_comm, Nat.add_mul_div_right _ _ hpos, Nat.div_eq_of_lt hoff, zero_add]
  · rw [add_comm, Nat.add_mul_mod_self_right, Nat.mod_eq_of_lt hoff]

/-- The page of a byte position, and the two LSNs that stand for it. -/
theorem exists_page (hpages : 0 < pages) (bytepos : Nat) :
    ∃ page v, bytepos = pageStart pages page + v ∧ v < xlogBlcksz - headerSize pages page ∧
      bytePosToRecPtr pages bytepos = page * xlogBlcksz + (headerSize pages page + v) ∧
      bytePosToEndRecPtr pages bytepos =
        page * xlogBlcksz + if v = 0 then 0 else headerSize pages page + v := by
  have hseg : 0 < usableBytesInSegment pages := by
    simp only [usableBytesInSegment, usableBytesInPage, xlogBlcksz, sizeOfXLogLongPHD,
      sizeOfXLogShortPHD]
    omega
  have hsplit := Nat.div_add_mod bytepos (usableBytesInSegment pages)
  have hleft := Nat.mod_lt bytepos hseg
  simp only [bytePosToRecPtr, bytePosToEndRecPtr]
  generalize bytepos / usableBytesInSegment pages = seg at *
  generalize bytepos % usableBytesInSegment pages = left at *
  by_cases hfirst : left < xlogBlcksz - sizeOfXLogLongPHD
  · have hdiv : seg * pages / pages = seg := Nat.mul_div_cancel _ hpages
    have hmod : seg * pages % pages = 0 := Nat.mul_mod_left _ _
    have hhdr : headerSize pages (seg * pages) = sizeOfXLogLongPHD := by
      simp [headerSize, hmod]
    refine ⟨seg * pages, left, ?_, by rwa [hhdr], ?_, ?_⟩
    · simp only [pageStart, hdiv, hmod, if_true]
      rw [mul_comm] at hsplit
      omega
    · simp only [if_pos hfirst, hhdr, walSegmentSize]
      ring
    · simp only [if_pos hfirst, hhdr, walSegmentSize]
      split
      · ring
      · ring
  · -- a later page: `n` full pages after the first one
    have hpos : 0 < usableBytesInPage := by decide
    have hrest := Nat.div_add_mod (left - (xlogBlcksz - sizeOfXLogLongPHD)) usableBytesInPage
    have hv := Nat.mod_lt (left - (xlogBlcksz - sizeOfXLogLongPHD)) hpos
    generalize (left - (xlogBlcksz - sizeOfXLogLongPHD)) / usableBytesInPage = n at *
    generalize (left - (xlogBlcksz - sizeOfXLogLongPHD)) % usableBytesInPage = v at *
    have hn : n + 1 < pages := by
      simp only [usableBytesInSegment, usableBytesInPage, xlogBlcksz, sizeOfXLogLongPHD,
        sizeOfXLogShortPHD] at *
      omega
    have hdiv : (seg * pages + (n + 1)) / pages = seg := by
      rw [add_comm, Nat.add_mul_div_right _ _ hpages, Nat.div_eq_of_lt hn, zero_add]
    have hmod : (seg * pages + (n + 1)) % pages = n + 1 := by
      rw [add_comm, Nat.add_mul_mod_self_right, Nat.mod_eq_of_lt hn]
    have hhdr : headerSize pages (seg * pages + (n + 1)) = sizeOfXLogShortPHD := by
      simp [headerSize, hmod]
    refine ⟨seg * pages + (n + 1), v, ?_, by rwa [hhdr], ?_, ?_⟩
    · simp only [pageStart, hdiv, hmod, Nat.succ_ne_zero, if_false, Nat.add_sub_cancel]
      rw [mul_comm] at hsplit hrest
      omega
    · simp only [if_neg hfirst, hhdr, walSegmentSize]
      ring
    · simp only [if_neg hfirst, hhdr, walSegmentSize]
      split
      · ring
      · ring

/-- The LSN is in the data part of its page. -/
def Inside (pages ptr : Nat) : Prop := headerSize pages (ptr / xlogBlcksz) ≤ ptr % xlogBlcksz

/-- The LSN can end a record: it is a page boundary, or behind some data of its page. -/
def EndForm (pages ptr : Nat) : Prop :=
  ptr % xlogBlcksz = 0 ∨ headerSize pages (ptr / xlogBlcksz) < ptr % xlogBlcksz

variable {ptr n : Nat}

theorem recPtrToBytePos_page {page off : Nat} (hoff : off < xlogBlcksz) :
    recPtrToBytePos pages (page * xlogBlcksz + off) =
      pageStart pages page + (off - headerSize pages page) := by
  obtain ⟨hdiv, hmod⟩ := div_mod_page page hoff
  rw [recPtrToBytePos_eq, hdiv, hmod]

/-- Within the data of a page the two counts go together, up to the end of the page. -/
theorem recPtrToBytePos_add (hpages : 0 < pages) (h : Inside pages ptr)
    (hn : n ≤ xlogBlcksz - ptr % xlogBlcksz) :
    recPtrToBytePos pages (ptr + n) = recPtrToBytePos pages ptr + n := by
  have hpos : 0 < xlogBlcksz := by decide
  have hmod := Nat.mod_lt ptr hpos
  have hsplit := Nat.div_add_mod ptr xlogBlcksz
  rw [recPtrToBytePos_eq ptr]
  unfold Inside at h
  generalize ptr / xlogBlcksz = page at *
  generalize ptr % xlogBlcksz = off at *
  obtain hlt | heq : off + n < xlogBlcksz ∨ off + n = xlogBlcksz := by omega
  · have : ptr + n = page * xlogBlcksz + (off + n) := by rw [mul_comm]; omega
    rw [this, recPtrToBytePos_page hlt]
    omega
  · have : ptr + n = (page + 1) * xlogBlcksz + 0 := by rw [Nat.add_mul, mul_comm]; omega
    rw [this, recPtrToBytePos_page hpos, pageStart_succ hpages]
    omega

/-- The header of a page does not count. -/
theorem skipPageHeader_spec (pages : Nat) (h : ptr % xlogBlcksz = 0) :
    recPtrToBytePos pages (skipPageHeader pages ptr) = recPtrToBytePos pages ptr ∧
      Inside pages (skipPageHeader pages ptr) ∧
      skipPageHeader pages ptr % xlogBlcksz = headerSize pages (ptr / xlogBlcksz) := by
  have hpos : 0 < xlogBlcksz := by decide
  have hsplit : ptr = ptr / xlogBlcksz * xlogBlcksz + 0 := by
    have := Nat.div_add_mod ptr xlogBlcksz
    rw [mul_comm] at this
    omega
  have hskip : skipPageHeader pages ptr =
      ptr / xlogBlcksz * xlogBlcksz + headerSize pages (ptr / xlogBlcksz) := by
    have hseg : ptr % walSegmentSize pages = 0 ↔ ptr / xlogBlcksz % pages = 0 := by
      have hpage : ptr % walSegmentSize pages / xlogBlcksz = ptr / xlogBlcksz % pages := by
        rw [walSegmentSize, mul_comm, Nat.mod_mul_right_div_self]
      have hboundary : ptr % walSegmentSize pages % xlogBlcksz = 0 := by
        rw [walSegmentSize, Nat.mod_mul_left_mod, h]
      have := Nat.div_add_mod (ptr % walSegmentSize pages) xlogBlcksz
      rw [hpage, hboundary] at this
      constructor
      · intro h0
        rw [h0] at this
        simpa [hpos.ne'] using this
      · intro h0
        rw [h0] at this
        simpa using this.symm
    simp only [skipPageHeader, headerSize, hseg]
    split <;> omega
  have hlt : headerSize pages (ptr / xlogBlcksz) < xlogBlcksz := headerSize_lt _
  obtain ⟨hdiv, hmod⟩ := div_mod_page (ptr / xlogBlcksz) hlt
  refine ⟨?_, ?_, ?_⟩
  · rw [hskip, recPtrToBytePos_page hlt, Nat.sub_self, recPtrToBytePos_eq ptr, h, Nat.zero_sub]
  · unfold Inside
    rw [hskip, hdiv, hmod]
  · rw [hskip, hmod]

theorem recPtrToBytePos_endRecPtr (hpages : 0 < pages) (bytepos : Nat) :
    recPtrToBytePos pages (bytePosToEndRecPtr pages bytepos) = bytepos ∧
      EndForm pages (bytePosToEndRecPtr pages bytepos) := by
  obtain ⟨page, v, rfl, hv, -, hend⟩ := exists_page hpages bytepos
  rw [hend]
  split
  · next h0 =>
    obtain ⟨-, hmod⟩ := div_mod_page page (show 0 < xlogBlcksz by decide)
    exact ⟨by rw [recPtrToBytePos_page (by decide)]; omega, .inl hmod⟩
  · next h0 =>
    have hlt : headerSize pages page + v < xlogBlcksz := by omega
    obtain ⟨hdiv, hmod⟩ := div_mod_page page hlt
    exact ⟨by rw [recPtrToBytePos_page hlt]; omega, .inr (by rw [hdiv, hmod]; omega)⟩

theorem recPtrToBytePos_recPtr (hpages : 0 < pages) (bytepos : Nat) :
    recPtrToBytePos pages (bytePosToRecPtr pages bytepos) = bytepos ∧
      Inside pages (bytePosToRecPtr pages bytepos) := by
  obtain ⟨page, v, rfl, hv, hptr, -⟩ := exists_page hpages bytepos
  have hlt : headerSize pages page + v < xlogBlcksz := by omega
  obtain ⟨hdiv, hmod⟩ := div_mod_page page hlt
  rw [hptr]
  exact ⟨by rw [recPtrToBytePos_page hlt]; omega, by unfold Inside; rw [hdiv, hmod]; omega⟩

/-- LSNs that can end a record are determined by their byte position. -/
theorem EndForm.inj {p q : Nat} (hpages : 0 < pages) (hp : EndForm pages p) (hq : EndForm pages q)
    (h : recPtrToBytePos pages p = recPtrToBytePos pages q) : p = q := by
  have hpos : 0 < xlogBlcksz := by decide
  have hp' := Nat.div_add_mod p xlogBlcksz
  have hq' := Nat.div_add_mod q xlogBlcksz
  have hpm := Nat.mod_lt p hpos
  have hqm := Nat.mod_lt q hpos
  rw [recPtrToBytePos_eq, recPtrToBytePos_eq] at h
  unfold EndForm at hp hq
  have hhp : headerSize pages (p / xlogBlcksz) < xlogBlcksz := headerSize_lt _
  have hhq : headerSize pages (q / xlogBlcksz) < xlogBlcksz := headerSize_lt _
  have hpage := page_eq_of_lt hpages (by omega) (by omega) h
  rw [hpage] at h hp hp'
  omega

/-- A usable byte whose LSN is below the end LSN of a byte position is below that position. -/
theorem lt_of_recPtr_lt_endRecPtr (hpages : 0 < pages) {b r : Nat}
    (h : bytePosToRecPtr pages b < bytePosToEndRecPtr pages r) : b < r := by
  obtain ⟨p, v, rfl, hv, hptr, -⟩ := exists_page hpages b
  obtain ⟨q, w, rfl, hw, -, hend⟩ := exists_page hpages r
  rw [hptr, hend] at h
  have hmono := pageStart_strictMono hpages
  have hsucc := pageStart_succ hpages p
  have hend' : (if w = 0 then 0 else headerSize pages q + w) < xlogBlcksz := by
    split
    · decide
    · omega
  obtain hlt | rfl | hlt := Nat.lt_trichotomy p q
  · have := hmono.monotone (show p + 1 ≤ q from hlt)
    omega
  · split at h <;> omega
  · have := Nat.mul_le_mul_right xlogBlcksz (show q + 1 ≤ p from hlt)
    rw [Nat.add_mul] at this
    omega

end Pages

end Polar.Pipeline
