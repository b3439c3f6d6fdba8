import Polar.Pipeline.BytePos

/-!
# Copying a record into the WAL buffers

`CopyXLogRecordToWAL` copies the data of a record page by page and adds a link for every piece it
has copied, for the alignment padding and, after a log switch, for the rest of the segment. The
links of a record span the byte positions reserved for it without a gap.
-/

namespace Polar.Pipeline

open List

/-- A link: the LSNs where a copied piece starts and ends. -/
abbrev Link := Nat × Nat

/-- Copy `len` bytes of one `XLogRecData` from `cur` on: the links, and the position after it. -/
def copyData (pages : Nat) : Nat → Nat → Nat → List Link × Nat
  | 0, cur, _ => ([], cur)
  | fuel + 1, cur, len =>
    let freespace := insertFreespace cur
    if freespace < len then
      -- write what fits on this page, and continue on the next page
      let rest := copyData pages fuel (skipPageHeader pages (cur + freespace)) (len - freespace)
      (if freespace ≠ 0 then (cur, cur + freespace) :: rest.1 else rest.1, rest.2)
    else (if len ≠ 0 then [(cur, cur + len)] else [], cur + len)

/-- Copy the chain of data of a record, given by its lengths. -/
def copyRdata (pages : Nat) : List Nat → Nat → List Link × Nat
  | [], cur => ([], cur)
  | len :: rdata, cur =>
    let first := copyData pages (len + 2) cur len
    let rest := copyRdata pages rdata first.2
    (first.1 ++ rest.1, rest.2)

/-- The whole pages from `cur` to `endPos` after a log switch. -/
def padPages (endPos : Nat) : Nat → Nat → List Link
  | 0, _ => []
  | fuel + 1, cur =>
    if cur < endPos then (cur, cur + xlogBlcksz) :: padPages endPos fuel (cur + xlogBlcksz)
    else []

/-- The links that `CopyXLogRecordToWAL` adds. -/
def copyXLogRecordToWAL (pages : Nat) (isLogSwitch : Bool) (rdata : List Nat)
    (startPos endPos : Nat) : List Link :=
  let data := copyRdata pages rdata startPos
  let cur := data.2
  if isLogSwitch ∧ cur % walSegmentSize pages ≠ 0 then
    let freespace := insertFreespace cur
    data.1 ++ (if freespace ≠ 0 then [(cur, cur + freespace)] else []) ++
      padPages endPos (endPos - cur) (cur + freespace)
  else data.1 ++ if cur ≠ endPos then [(cur, endPos)] else []

/-- `MAXALIGN`. -/
def maxAlign (n : Nat) : Nat := (n + 7) / 8 * 8

def sizeOfXLogRecord : Nat := 24

/-- A reserved range: `StartPos`, `EndPos` and the byte position after it. -/
structure Reservation where
  startPos : Nat
  endPos : Nat
  endBytePos : Nat
  deriving DecidableEq, Repr

/-- `ReserveXLogInsertLocation`. -/
def reserveXLogInsertLocation (pages bytepos size : Nat) : Option Reservation :=
  if sizeOfXLogRecord < size then
    let endBytePos := bytepos + maxAlign size
    some ⟨bytePosToRecPtr pages bytepos, bytePosToEndRecPtr pages endBytePos, endBytePos⟩
  else none

/-- `ReserveXLogSwitch`; there is nothing to do at the start of a segment. -/
def reserveXLogSwitch (pages bytepos size : Nat) : Option Reservation :=
  if size = sizeOfXLogRecord ∧
      bytePosToEndRecPtr pages bytepos % walSegmentSize pages ≠ 0 then
    let endPos := bytePosToEndRecPtr pages (bytepos + maxAlign size)
    let segleft := walSegmentSize pages - endPos % walSegmentSize pages
    if segleft ≠ walSegmentSize pages then
      -- consume the rest of the segment
      some ⟨bytePosToRecPtr pages bytepos, endPos + segleft,
        recPtrToBytePos pages (endPos + segleft)⟩
    else some ⟨bytePosToRecPtr pages bytepos, endPos, bytepos + maxAlign size⟩
  else none

/-- The reservation of a record, or of a log switch. -/
def reserve (pages : Nat) (isLogSwitch : Bool) (bytepos size : Nat) : Option Reservation :=
  if isLogSwitch then reserveXLogSwitch pages bytepos size
  else reserveXLogInsertLocation pages bytepos size

/-- The links follow each other from byte position `a` to byte position `b`, none of them empty. -/
def Spans (pages : Nat) (a : Nat) : List Link → Nat → Prop
  | [], b => a = b
  | (s, e) :: links, b =>
    recPtrToBytePos pages s = a ∧ a < recPtrToBytePos pages e ∧
      Spans pages (recPtrToBytePos pages e) links b

section Spans

variable {pages a b c x : Nat} {links links' : List Link} {l l' : Link}

theorem Spans.append (h : Spans pages a links b) (h' : Spans pages b links' c) :
    Spans pages a (links ++ links') c := by
  induction links generalizing a with
  | nil =>
    obtain rfl : a = b := h
    exact h'
  | cons l links ih => exact ⟨h.1, h.2.1, ih h.2.2⟩

theorem Spans.le (h : Spans pages a links b) : a ≤ b := by
  induction links generalizing a with
  | nil => exact le_of_eq h
  | cons l links ih => exact h.2.1.le.trans (ih h.2.2)

/-- A single link, left out if it is empty. -/
theorem Spans.link {s e : Nat} {p : Prop} [Decidable p]
    (h : p → recPtrToBytePos pages s < recPtrToBytePos pages e)
    (h' : ¬ p → recPtrToBytePos pages s = recPtrToBytePos pages e) :
    Spans pages (recPtrToBytePos pages s) (if p then [(s, e)] else [])
      (recPtrToBytePos pages e) := by
  split
  · next hp => exact ⟨rfl, h hp, rfl⟩
  · next hp => exact h' hp

section

variable (h : Spans pages a links b)
include h

theorem Spans.mem (hl : l ∈ links) :
    a ≤ recPtrToBytePos pages l.1 ∧ recPtrToBytePos pages l.1 < recPtrToBytePos pages l.2 ∧
      recPtrToBytePos pages l.2 ≤ b := by
  induction links generalizing a with
  | nil => cases hl
  | cons k links ih =>
    obtain ⟨hk, hlt, hrest⟩ := h
    obtain rfl | hl := mem_cons.mp hl
    · exact ⟨hk.ge, by rw [hk]; exact hlt, hrest.le⟩
    · obtain ⟨h1, h2⟩ := ih hrest hl
      exact ⟨hlt.le.trans h1, h2⟩

/-- Every byte position of the range is in a link. -/
theorem Spans.cover (ha : a ≤ x) (hb : x < b) :
    ∃ l ∈ links, recPtrToBytePos pages l.1 ≤ x ∧ x < recPtrToBytePos pages l.2 := by
  induction links generalizing a with
  | nil =>
    obtain rfl : a = b := h
    omega
  | cons k links ih =>
    obtain ⟨hk, hlt, hrest⟩ := h
    by_cases hx : x < recPtrToBytePos pages k.2
    · exact ⟨k, mem_cons_self, by rw [hk]; exact ha, hx⟩
    · obtain ⟨l, hl, hlx⟩ := ih hrest (Nat.le_of_not_lt hx)
      exact ⟨l, mem_cons_of_mem _ hl, hlx⟩

/-- A link that starts later starts behind the whole of the other. -/
theorem Spans.stop_le (hl : l ∈ links) (hl' : l' ∈ links)
    (hlt : recPtrToBytePos pages l.1 < recPtrToBytePos pages l'.1) :
    recPtrToBytePos pages l.2 ≤ recPtrToBytePos pages l'.1 := by
  induction links generalizing a with
  | nil => cases hl
  | cons k links ih =>
    obtain ⟨hk, hstop, hrest⟩ := h
    obtain rfl | hm := mem_cons.mp hl <;> obtain rfl | hm' := mem_cons.mp hl'
    · omega
    · exact (hrest.mem hm').1
    · have := (hrest.mem hm).1
      omega
    · exact ih hrest hm hm'

theorem Spans.eq_of_start (hl : l ∈ links) (hl' : l' ∈ links)
    (heq : recPtrToBytePos pages l.1 = recPtrToBytePos pages l'.1) : l = l' := by
  induction links generalizing a with
  | nil => cases hl
  | cons k links ih =>
    obtain ⟨hk, hstop, hrest⟩ := h
    obtain rfl | hm := mem_cons.mp hl <;> obtain rfl | hm' := mem_cons.mp hl'
    · rfl
    · have := (hrest.mem hm').1
      omega
    · have := (hrest.mem hm).1
      omega
    · exact ih hrest hm hm'

theorem Spans.nodup : links.Nodup := by
  induction links generalizing a with
  | nil => exact nodup_nil
  | cons k links ih =>
    obtain ⟨hk, hstop, hrest⟩ := h
    refine nodup_cons.mpr ⟨fun hmem => ?_, ih hrest⟩
    have := (hrest.mem hmem).1
    omega

/-- Where a link ends, the next one starts. -/
theorem Spans.next (hl : l ∈ links) : recPtrToBytePos pages l.2 = b ∨
      ∃ k ∈ links, recPtrToBytePos pages k.1 = recPtrToBytePos pages l.2 := by
  obtain ⟨-, -, hle⟩ := h.mem hl
  obtain heq | hlt := Nat.eq_or_lt_of_le hle
  · exact .inl heq
  · obtain ⟨k, hk, hlo, hhi⟩ := h.cover (by have := h.mem hl; omega) hlt
    refine .inr ⟨k, hk, le_antisymm hlo ?_⟩
    refine h.stop_le hl hk ?_
    -- the link at the end of `l` does not start before it
    by_contra hge
    have hmem := h.mem hl
    obtain heq | hlt' := Nat.eq_or_lt_of_le (Nat.le_of_not_lt hge)
    · obtain rfl := h.eq_of_start hk hl heq
      omega
    · have := h.stop_le hk hl hlt'
      omega

end

end Spans

section Copy

variable {pages cur len : Nat}

/-- A position of the copy loop: a page boundary or in the data of a page. -/
def AtData (pages cur : Nat) : Prop := cur % xlogBlcksz = 0 ∨ Inside pages cur

theorem EndForm.atData (h : EndForm pages cur) : AtData pages cur :=
  h.imp_right le_of_lt

theorem Inside.insertFreespace_eq (h : Inside pages cur) :
    insertFreespace cur = xlogBlcksz - cur % xlogBlcksz ∧ 0 < insertFreespace cur := by
  have hpos : 0 < headerSize pages (cur / xlogBlcksz) := headerSize_pos _
  have hlt := Nat.mod_lt cur (show 0 < xlogBlcksz by decide)
  unfold Inside at h
  have hne : cur % xlogBlcksz ≠ 0 := by omega
  rw [insertFreespace, if_neg hne]
  exact ⟨rfl, by omega⟩

/-- The free space ends at a page boundary. -/
theorem add_insertFreespace_mod (cur : Nat) : (cur + insertFreespace cur) % xlogBlcksz = 0 := by
  have hlt := Nat.mod_lt cur (show 0 < xlogBlcksz by decide)
  have hsplit := Nat.div_add_mod cur xlogBlcksz
  unfold insertFreespace
  split
  · simpa
  · have : cur + (xlogBlcksz - cur % xlogBlcksz) = xlogBlcksz * (cur / xlogBlcksz + 1) := by
      rw [Nat.mul_add_one]
      omega
    rw [this, Nat.mul_mod_right]

/-- Behind some data of a page stands a position that can end a record. -/
theorem Inside.endForm_add (h : Inside pages cur) (hlen : 0 < len)
    (hle : len ≤ xlogBlcksz - cur % xlogBlcksz) : EndForm pages (cur + len) := by
  have hpos : 0 < xlogBlcksz := by decide
  have hsplit := Nat.div_add_mod cur xlogBlcksz
  obtain heq | hin : cur % xlogBlcksz + len = xlogBlcksz ∨ cur % xlogBlcksz + len < xlogBlcksz := by
    omega
  · left
    have : cur + len = xlogBlcksz * (cur / xlogBlcksz + 1) := by
      rw [Nat.mul_add_one]
      omega
    rw [this, Nat.mul_mod_right]
  · right
    have : cur + len = cur / xlogBlcksz * xlogBlcksz + (cur % xlogBlcksz + len) := by
      rw [mul_comm]
      omega
    obtain ⟨hdiv, hmod⟩ := div_mod_page (cur / xlogBlcksz) hin
    rw [this, hdiv, hmod]
    exact lt_of_le_of_lt h (Nat.lt_add_of_pos_right hlen)

/-- What one piece of data contributes. -/
structure Copied (pages cur len : Nat) (r : List Link × Nat) : Prop where
  spans : Spans pages (recPtrToBytePos pages cur) r.1 (recPtrToBytePos pages r.2)
  bytePos : recPtrToBytePos pages r.2 = recPtrToBytePos pages cur + len
  empty : len = 0 → r.2 = cur
  endForm : 0 < len → EndForm pages r.2

theorem Copied.atData {r : List Link × Nat} (h : Copied pages cur len r)
    (hcur : AtData pages cur) : AtData pages r.2 := by
  obtain hlen | hlen := Nat.eq_zero_or_pos len
  · rwa [h.empty hlen]
  · exact (h.endForm hlen).atData

theorem copyData_succ (fuel : Nat) :
    copyData pages (fuel + 1) cur len =
      if insertFreespace cur < len then
        let rest := copyData pages fuel (skipPageHeader pages (cur + insertFreespace cur))
          (len - insertFreespace cur)
        (if insertFreespace cur ≠ 0 then (cur, cur + insertFreespace cur) :: rest.1 else rest.1,
          rest.2)
      else (if len ≠ 0 then [(cur, cur + len)] else [], cur + len) := rfl

variable (hpages : 0 < pages)
include hpages

theorem copyData_inside {fuel : Nat} (h : Inside pages cur)
    (hfuel : len < fuel) : Copied pages cur len (copyData pages fuel cur len) := by
  induction fuel generalizing cur len with
  | zero => exact absurd hfuel (Nat.not_lt_zero _)
  | succ fuel ih =>
    obtain ⟨hfree, hpos⟩ := h.insertFreespace_eq
    rw [copyData_succ]
    split
    · next hlt =>
      have hboundary : (cur + insertFreespace cur) % xlogBlcksz = 0 := add_insertFreespace_mod cur
      obtain ⟨hskip, hinside, -⟩ := skipPageHeader_spec pages hboundary
      have hadd : recPtrToBytePos pages (cur + insertFreespace cur) =
          recPtrToBytePos pages cur + insertFreespace cur :=
        recPtrToBytePos_add hpages h hfree.le
      have hrest : Copied pages _ (len - insertFreespace cur) _ := ih hinside (by omega)
      simp only [if_pos hpos.ne']
      refine ⟨⟨rfl, by omega, ?_⟩, ?_, fun h0 => by omega, fun _ => hrest.endForm (by omega)⟩
      · rw [← hskip]
        exact hrest.spans
      · rw [hrest.bytePos, hskip]
        omega
    · next hle =>
      have hadd : recPtrToBytePos pages (cur + len) = recPtrToBytePos pages cur + len :=
        recPtrToBytePos_add hpages h (by omega)
      refine ⟨Spans.link (fun hne => by omega) fun h0 => by omega, hadd, fun h0 => by omega,
        fun hlen => h.endForm_add hlen (by omega)⟩

theorem copyData_spec (h : AtData pages cur) :
    Copied pages cur len (copyData pages (len + 2) cur len) := by
  obtain hboundary | hinside := h
  · have hfree : insertFreespace cur = 0 := by simp [insertFreespace, hboundary]
    rw [copyData_succ, hfree]
    split
    · next hlt =>
      obtain ⟨hskip, hinside, -⟩ := skipPageHeader_spec pages hboundary
      have hrest := copyData_inside hpages hinside (show len < len + 1 by omega)
      simp only [ne_eq, not_true_eq_false, add_zero, Nat.sub_zero]
      refine ⟨hskip ▸ hrest.spans, by rw [hrest.bytePos, hskip], fun h0 => by omega,
        hrest.endForm⟩
    · next hle =>
      obtain rfl : len = 0 := by omega
      exact ⟨rfl, rfl, fun _ => rfl, fun h0 => by omega⟩
  · exact copyData_inside hpages hinside (by omega)

theorem copyRdata_spec (rdata : List Nat) (h : AtData pages cur) :
    Copied pages cur rdata.sum (copyRdata pages rdata cur) := by
  induction rdata generalizing cur with
  | nil => exact ⟨rfl, rfl, fun _ => rfl, fun h0 => absurd h0 (lt_irrefl 0)⟩
  | cons len rdata ih =>
    have hfirst : Copied pages cur len _ := copyData_spec hpages h
    have hrest := ih (hfirst.atData h)
    simp only [copyRdata, sum_cons]
    refine ⟨hfirst.spans.append hrest.spans, ?_, fun h0 => ?_, fun hpos => ?_⟩
    · rw [hrest.bytePos, hfirst.bytePos]
      omega
    · rw [hrest.empty (by omega), hfirst.empty (by omega)]
    · obtain h0 | hpos' := Nat.eq_zero_or_pos rdata.sum
      · rw [hrest.empty h0]
        exact hfirst.endForm (by omega)
      · exact hrest.endForm hpos'

theorem padPages_spec {endPos fuel : Nat} (hcur : cur % xlogBlcksz = 0)
    (hend : endPos % xlogBlcksz = 0) (hle : cur ≤ endPos) (hfuel : endPos - cur ≤ fuel) :
    Spans pages (recPtrToBytePos pages cur) (padPages endPos fuel cur)
      (recPtrToBytePos pages endPos) := by
  induction fuel generalizing cur with
  | zero =>
    obtain rfl : cur = endPos := by omega
    rfl
  | succ fuel ih =>
    simp only [padPages]
    split
    · next hlt =>
      obtain ⟨page, rfl⟩ := Nat.dvd_of_mod_eq_zero hcur
      obtain ⟨endPage, rfl⟩ := Nat.dvd_of_mod_eq_zero hend
      have hpage : page < endPage := Nat.lt_of_mul_lt_mul_left hlt
      have hnext : xlogBlcksz * page + xlogBlcksz = xlogBlcksz * (page + 1) :=
        (Nat.mul_add_one _ _).symm
      have hbytes : ∀ k, recPtrToBytePos pages (xlogBlcksz * k) = pageStart pages k := by
        intro k
        have : recPtrToBytePos pages (k * xlogBlcksz + 0) =
            pageStart pages k + (0 - headerSize pages k) := recPtrToBytePos_page (by decide)
        rw [add_zero, mul_comm] at this
        omega
      refine ⟨rfl, ?_, ih ?_ ?_ ?_⟩
      · rw [hnext, hbytes, hbytes]
        exact pageStart_strictMono hpages (Nat.lt_add_one page)
      · rw [hnext, Nat.mul_mod_right]
      · rw [hnext]
        exact Nat.mul_le_mul_left _ hpage
      · have : 0 < xlogBlcksz := by decide
        omega
    · next hge =>
      obtain rfl : cur = endPos := by omega
      rfl

omit hpages in
/-- The first page boundary is not beyond the end of the segment. -/
theorem add_insertFreespace_le {endPos : Nat} (hend : endPos % xlogBlcksz = 0)
    (hle : cur ≤ endPos) : cur + insertFreespace cur ≤ endPos := by
  obtain ⟨k, hk⟩ := Nat.dvd_of_mod_eq_zero (add_insertFreespace_mod cur)
  obtain ⟨m, rfl⟩ := Nat.dvd_of_mod_eq_zero hend
  have hpos : 0 < xlogBlcksz := by decide
  have hlt : insertFreespace cur < xlogBlcksz := by
    unfold insertFreespace
    split <;> omega
  rw [hk]
  refine Nat.mul_le_mul_left _ ?_
  by_contra hgt
  have := Nat.mul_le_mul_left xlogBlcksz (show m + 1 ≤ k by omega)
  rw [Nat.mul_add_one] at this
  omega

/-- The links of a record span what has been reserved for it. -/
theorem copyXLogRecordToWAL_spans {isLogSwitch : Bool} {rdata : List Nat}
    {bytepos : Nat} {r : Reservation} (h : reserve pages isLogSwitch bytepos rdata.sum = some r) :
    Spans pages bytepos (copyXLogRecordToWAL pages isLogSwitch rdata r.startPos r.endPos)
      r.endBytePos ∧ bytepos ≤ r.endBytePos := by
  obtain ⟨hstart, hinside⟩ := recPtrToBytePos_recPtr hpages bytepos
  have hdata := copyRdata_spec hpages rdata (.inr hinside)
  have halign : rdata.sum ≤ maxAlign rdata.sum := by unfold maxAlign; omega
  simp only [reserve] at h
  split at h
  · -- a log switch
    next hswitch =>
    simp only [reserveXLogSwitch] at h
    obtain ⟨hguard, h⟩ := Option.ite_none_right_eq_some.mp h
    obtain ⟨hsize, -⟩ := hguard
    have hmax : maxAlign rdata.sum = rdata.sum := by rw [hsize]; decide
    rw [hmax] at h
    obtain ⟨hbyte, hform⟩ := recPtrToBytePos_endRecPtr hpages (bytepos + rdata.sum)
    have hform' := hdata.endForm (by rw [hsize]; decide)
    have hcur : (copyRdata pages rdata (bytePosToRecPtr pages bytepos)).2 =
        bytePosToEndRecPtr pages (bytepos + rdata.sum) := by
      refine hform'.inj hpages hform ?_
      rw [hdata.bytePos, hstart, hbyte]
    have hspans := hdata.spans
    rw [hstart, hcur, hbyte] at hspans
    have hsegpos : 0 < walSegmentSize pages := Nat.mul_pos hpages (by decide)
    have hsegmod := Nat.mod_lt (bytePosToEndRecPtr pages (bytepos + rdata.sum)) hsegpos
    generalize bytePosToEndRecPtr pages (bytepos + rdata.sum) = cur at *
    split at h
    · next hleft =>
      cases h
      have hne : cur % walSegmentSize pages ≠ 0 := by omega
      have hendmod : (cur + (walSegmentSize pages - cur % walSegmentSize pages)) %
          xlogBlcksz = 0 := by
        have hsplit := Nat.div_add_mod cur (walSegmentSize pages)
        have : cur + (walSegmentSize pages - cur % walSegmentSize pages) =
            xlogBlcksz * (pages * (cur / walSegmentSize pages + 1)) := by
          rw [← mul_assoc, mul_comm xlogBlcksz pages]
          change _ = walSegmentSize pages * _
          rw [Nat.mul_add_one]
          omega
        rw [this, Nat.mul_mod_right]
      simp only [copyXLogRecordToWAL, hswitch, hcur, true_and, if_pos hne]
      have hfree : recPtrToBytePos pages (cur + insertFreespace cur) =
          recPtrToBytePos pages cur + insertFreespace cur := by
        obtain hboundary | hin := hform.atData
        · simp [insertFreespace, hboundary]
        · exact recPtrToBytePos_add hpages hin hin.insertFreespace_eq.1.le
      have hlink : Spans pages (recPtrToBytePos pages cur)
          (if insertFreespace cur ≠ 0 then [(cur, cur + insertFreespace cur)] else [])
          (recPtrToBytePos pages (cur + insertFreespace cur)) :=
        Spans.link (fun h0 => by omega) fun h0 => by omega
      have hle := add_insertFreespace_le hendmod (Nat.le_add_right cur _)
      have hpad := padPages_spec hpages (add_insertFreespace_mod cur) hendmod hle
        (show _ ≤ cur + (walSegmentSize pages - cur % walSegmentSize pages) - cur by omega)
      rw [hbyte] at hlink
      have hall := (hspans.append hlink).append hpad
      exact ⟨hall, hall.le⟩
    · next hleft =>
      cases h
      have h0 : cur % walSegmentSize pages = 0 := by omega
      simp only [copyXLogRecordToWAL, hcur, h0, ne_eq, not_true_eq_false, and_false, if_false,
        append_nil]
      exact ⟨hspans, Nat.le_add_right _ _⟩
  · next hswitch =>
    obtain ⟨hsize, ⟨⟩⟩ := Option.ite_none_right_eq_some.mp h
    obtain ⟨hbyte, hform⟩ := recPtrToBytePos_endRecPtr hpages (bytepos + maxAlign rdata.sum)
    have hform' := hdata.endForm (by omega)
    have hspans := hdata.spans
    have hbytes := hdata.bytePos
    rw [hstart] at hspans hbytes
    simp only [copyXLogRecordToWAL, hswitch, Bool.false_eq_true, false_and]
    generalize (copyRdata pages rdata (bytePosToRecPtr pages bytepos)) = data at *
    refine ⟨?_, Nat.le_add_right _ _⟩
    generalize bytePosToEndRecPtr pages (bytepos + maxAlign rdata.sum) = endPos at *
    have hpad : Spans pages (recPtrToBytePos pages data.2)
        (if data.2 ≠ endPos then [(data.2, endPos)] else []) (recPtrToBytePos pages endPos) := by
      refine Spans.link (fun hne => ?_) fun heq => by rw [not_not.mp heq]
      -- both can end a record, so different LSNs have different byte positions
      refine lt_of_le_of_ne (by omega) fun heq => hne (hform'.inj hpages hform heq)
    have hall := hspans.append hpad
    rwa [hbyte] at hall

end Copy

end Polar.Pipeline
