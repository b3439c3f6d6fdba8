import Polar.Wal.Decode

/-!
# Assembled headers are read back

Every block header `XLogRecordAssemble` writes passes the cross-checks of the decoders and yields
the block reference it was written for.
-/

namespace Polar.Wal

open List Reader Option

variable {short : DecodeError} {rest : List UInt8}

theorem readHeader_bytes (h : XLogRecord) :
    readHeader short (h.bytes ++ rest) = .ok (h, rest) := by
  simp only [readHeader, XLogRecord.bytes, append_assoc, cons_append]
  rw [run_ok_bind (nat_append (by simpa using h.totLen.toNat_lt)),
    run_ok_bind (nat_append (by simpa using h.xid.toNat_lt)),
    run_ok_bind (nat_append (by simpa using h.prev.toNat_lt)),
    run_ok_bind byte_cons, run_ok_bind byte_cons, run_ok_bind byte_cons, run_ok_bind byte_cons,
    run_ok_bind (nat_append (by simpa using h.crc.toNat_lt)), run_pure]
  simp

theorem readRelFileLocator_bytes (r : RelFileLocator) :
    readRelFileLocator short (r.bytes ++ rest) = .ok (r, rest) := by
  simp only [readRelFileLocator, RelFileLocator.bytes, append_assoc]
  rw [run_ok_bind (nat_append (by simpa using r.spcOid.toNat_lt)),
    run_ok_bind (nat_append (by simpa using r.dbOid.toNat_lt)),
    run_ok_bind (nat_append (by simpa using r.relNumber.toNat_lt)), run_pure]
  simp

/-- What the decoders require of an image header. -/
structure ImageMeta.Valid (img : ImageMeta) : Prop where
  holeOffset_lt : img.holeOffset < blcksz
  holeLength_le : img.holeLength ≤ blcksz
  hasHole : hasFlag img.bimgInfo bkpimageHasHole = decide (img.holeLength ≠ 0)
  holeOffset_iff : img.holeOffset = 0 ↔ img.holeLength = 0
  compressed : bkpimageCompressed img.bimgInfo → img.bimgLen < blcksz
  uncompressed : bkpimageCompressed img.bimgInfo = false → img.bimgLen = blcksz - img.holeLength

theorem readHoleLength_bytes {img : ImageMeta} (h : img.Valid) :
    readHoleLength short img.bimgLen img.bimgInfo
      ((if img.holeLength ≠ 0 ∧ bkpimageCompressed img.bimgInfo then
        Bytes.ofNat 2 img.holeLength else []) ++ rest) = .ok (img.holeLength, rest) := by
  have hle := h.holeLength_le
  simp only [blcksz] at hle
  unfold readHoleLength
  rw [h.hasHole]
  by_cases hc : bkpimageCompressed img.bimgInfo
  · by_cases hz : img.holeLength = 0
    · simp [hc, hz, run_pure]
    · simp only [hc, hz, ne_eq, not_false_eq_true]
      exact nat_append (by omega)
  · have hlen := h.uncompressed (by simpa using hc)
    have hhole : (blcksz + 65536 - img.bimgLen) % 65536 = img.holeLength := by
      simp only [blcksz] at hlen ⊢
      omega
    simp [hc, hhole, run_pure]

theorem readImage_bytes {img : ImageMeta} (h : img.Valid) :
    readImage short (img.bytes ++ rest) = .ok (img, rest) := by
  have hoff := h.holeOffset_lt
  have hlen : img.bimgLen < 65536 := by
    by_cases hc : bkpimageCompressed img.bimgInfo
    · have := h.compressed hc
      simp only [blcksz] at this
      omega
    · have := h.uncompressed (by simpa using hc)
      simp only [blcksz] at this
      omega
  have hfull : img.holeLength ≠ 0 ∨ bkpimageCompressed img.bimgInfo → img.bimgLen ≠ blcksz := by
    intro hor
    by_cases hc : bkpimageCompressed img.bimgInfo
    · exact Nat.ne_of_lt (h.compressed hc)
    · have := h.uncompressed (by simpa using hc)
      have hz := hor.resolve_right hc
      omega
  simp only [readImage, ImageMeta.bytes, append_assoc, cons_append]
  rw [run_ok_bind (nat_append hlen), run_ok_bind (nat_append (by simp only [blcksz] at hoff; omega)),
    run_ok_bind byte_cons, run_ok_bind (readHoleLength_bytes h), h.hasHole]
  have hiff := h.holeOffset_iff
  rw [run_ok_bind (check_ok ?_), run_ok_bind (check_ok ?_), run_ok_bind (check_ok ?_),
    run_ok_bind (check_ok ?_), run_pure]
  · by_cases hz : img.holeLength = 0
    · by_cases hc : bkpimageCompressed img.bimgInfo
      · simp [hc]
      · have := h.uncompressed (by simpa using hc)
        simp [hz, this]
    · simp [hz]
  · by_cases hc : bkpimageCompressed img.bimgInfo
    · simp [hfull (Or.inr hc)]
    · simp [hc]
  · by_cases hz : img.holeLength = 0
    · simp [hz, hiff.mpr hz]
    · simp [hz]
  · by_cases hz : img.holeLength = 0
    · simp [hz]
    · simp [hz, mt hiff.mp hz, hfull (Or.inl hz)]

/-- What the decoders require of a block reference that follows a block of relation `prev`. -/
structure BlockRef.Valid (prev : Option RelFileLocator) (ref : BlockRef) : Prop where
  id_le : ref.id ≤ xlrMaxBlockId
  forknum : ref.forknum = ref.flags &&& bkpblockForkMask
  hasImage : ref.hasImage = hasFlag ref.flags bkpblockHasImage
  hasData : ref.hasData = hasFlag ref.flags bkpblockHasData
  dataLen_lt : ref.dataLen < 65536
  hasData_iff : ref.hasData = true ↔ ref.dataLen ≠ 0
  image_isSome : ref.image.isSome = ref.hasImage
  image_valid : ∀ img, ref.image = some img → img.Valid
  applyImage : ref.applyImage = ref.image.elim false fun img => hasFlag img.bimgInfo bkpimageApply
  sameRel : hasFlag ref.flags bkpblockSameRel → prev = some ref.rlocator

theorem readImage?_bytes {image : Option ImageMeta} (h : ∀ img, image = some img → img.Valid) :
    readImage? short image.isSome (image.elim [] ImageMeta.bytes ++ rest) = .ok (image, rest) := by
  cases image with
  | none => rfl
  | some img =>
    change (readImage short >>= fun i => pure (some i)) (img.bytes ++ rest) = _
    rw [run_ok_bind (readImage_bytes (h img rfl)), run_pure]

theorem readRel_bytes {prev : Option RelFileLocator} {r : RelFileLocator} {sameRel : Bool}
    (h : sameRel → prev = some r) :
    readRel short sameRel prev ((if sameRel then [] else r.bytes) ++ rest) = .ok (r, rest) := by
  cases sameRel with
  | true =>
    rw [h rfl]
    rfl
  | false => exact readRelFileLocator_bytes r

/-- A valid block header is read back as its block reference. -/
theorem readBlock_bytes {ref : BlockRef} {st : HeaderState} (h : ref.Valid st.rlocator)
    (hid : st.nextBlockId ≤ ref.id.toNat) :
    readBlock short ref.id st (ref.bytes.tail ++ rest) = .ok (st.addRef ref, rest) := by
  have hdata : hasFlag ref.flags bkpblockHasData = decide (ref.dataLen ≠ 0) := by
    rw [← h.hasData, Bool.eq_iff_iff, h.hasData_iff, decide_eq_true_eq]
  have hlen : ref.dataLen = 0 ∨ ref.dataLen ≠ 0 := Nat.eq_zero_or_pos _ |>.imp_right Nat.ne_of_gt
  simp only [readBlock, BlockRef.bytes, tail_cons, append_assoc, cons_append]
  rw [run_ok_bind (check_ok (by simpa using hid)), run_ok_bind byte_cons,
    run_ok_bind (nat_append h.dataLen_lt), hdata,
    run_ok_bind (check_ok (by simpa using hlen)),
    run_ok_bind (check_ok (by simpa using hlen.symm)), ← h.hasImage, ← h.image_isSome,
    run_ok_bind (readImage?_bytes h.image_valid), run_ok_bind (readRel_bytes h.sameRel),
    run_ok_bind (nat_append (by simpa using ref.blkno.toNat_lt)), run_pure]
  rw [h.image_isSome, ← hdata, ← h.hasData, ← h.forknum, ← h.applyImage]
  simp

/-! ### Assembled block references are valid -/

theorem blockFlags_read (fork : Fin 16) (willInit hasImage hasData sameRel : Bool) :
    let flags := UInt8.ofNat fork.val ||| (if willInit then bkpblockWillInit else 0) |||
      (if hasImage then bkpblockHasImage else 0) ||| (if hasData then bkpblockHasData else 0) |||
      (if sameRel then bkpblockSameRel else 0)
    flags &&& bkpblockForkMask = UInt8.ofNat fork.val ∧
      hasFlag flags bkpblockHasImage = hasImage ∧ hasFlag flags bkpblockHasData = hasData ∧
      hasFlag flags bkpblockSameRel = sameRel := by
  revert fork willInit hasImage hasData sameRel
  decide

theorem imageInfo_read (hole apply : Bool) :
    let info := (if hole then bkpimageHasHole else 0) ||| (if apply then bkpimageApply else 0)
    (hasFlag info bkpimageHasHole = hole ∧ hasFlag info bkpimageApply = apply ∧
      bkpimageCompressed info = false) ∧
    ∀ method : WalCompression, hasFlag (info ||| method.flag) bkpimageHasHole = hole ∧
      hasFlag (info ||| method.flag) bkpimageApply = apply ∧
      bkpimageCompressed (info ||| method.flag) = true := by
  cases hole <;> cases apply <;> refine ⟨by decide, fun method => ?_⟩ <;> cases method <;> decide

namespace RegisteredBuffer

variable (buf : RegisteredBuffer)

theorem hole_spec : buf.hole.1 < blcksz ∧ buf.hole.1 + buf.hole.2 ≤ blcksz ∧
    (buf.hole.1 = 0 ↔ buf.hole.2 = 0) := by
  unfold hole
  split
  · next h =>
    simp only [sizeOfPageHeaderData] at h ⊢
    omega
  · decide

theorem length_imageChunks : buf.imageChunks.flatten.length = blcksz - buf.hole.2 := by
  obtain ⟨-, hle, hiff⟩ := buf.hole_spec
  unfold imageChunks
  split
  · next h => simp [h]
  · simp only [flatten_cons, flatten_nil, append_nil, length_append,
      Ring.length_slice]
    omega

theorem compressBackupBlock_lt {compress : List UInt8 → Option (List UInt8)} {dest : List UInt8}
    (h : buf.compressBackupBlock compress = some dest) : dest.length < blcksz := by
  simp only [compressBackupBlock] at h
  cases hc : compress buf.imageChunks.flatten with
  | none => simp [hc] at h
  | some d =>
    simp only [hc, ite_none_right_eq_some, some.injEq] at h
    obtain ⟨hlt, rfl⟩ := h
    omega

end RegisteredBuffer

namespace Insertion

variable (ins : Insertion) (buf : RegisteredBuffer)

/-- The image header is valid, announces the bytes that are logged and tells whether to apply. -/
theorem image_spec : (ins.image buf).1.Valid ∧
    (ins.image buf).2.flatten.length = (ins.image buf).1.bimgLen ∧
    hasFlag (ins.image buf).1.bimgInfo bkpimageApply = buf.needsBackup ins := by
  obtain ⟨hoff, hle, hiff⟩ := buf.hole_spec
  have hinfo := imageInfo_read (decide (buf.hole.2 ≠ 0)) (buf.needsBackup ins)
  have hflag : (if buf.hole.2 = 0 then (0 : UInt8) else bkpimageHasHole) =
      if decide (buf.hole.2 ≠ 0) then bkpimageHasHole else 0 := by
    by_cases hz : buf.hole.2 = 0 <;> simp [hz]
  obtain ⟨⟨hhole, happly, hcomp⟩, hmethod⟩ := hinfo
  unfold image
  simp only [hflag]
  split
  · next method dest hsome =>
    obtain ⟨hhole, happly, hcomp⟩ := hmethod method
    obtain ⟨c, -, hc⟩ := bind_eq_some_iff.mp hsome
    obtain ⟨d, hd, heq⟩ := map_eq_some_iff.mp hc
    obtain ⟨rfl, rfl⟩ := Prod.mk.inj heq
    have hlt := buf.compressBackupBlock_lt hd
    exact ⟨⟨hoff, by dsimp only; omega, hhole, hiff, fun _ => hlt,
      fun hf => Bool.noConfusion (hcomp.symm.trans hf)⟩, by simp, happly⟩
  · exact ⟨⟨hoff, by dsimp only; omega, hhole, hiff,
      fun hf => Bool.noConfusion (hcomp.symm.trans hf), fun _ => rfl⟩,
      buf.length_imageChunks, happly⟩

/-- An assembled block reference is valid and announces the bytes that are logged with it. -/
theorem assembleBlock_spec (prev : Option RelFileLocator) {id : Nat} (hid : id ≤ 32) :
    (ins.assembleBlock prev id buf).ref.Valid prev ∧
      (ins.assembleBlock prev id buf).image.flatten.length =
        (ins.assembleBlock prev id buf).ref.imageLen ∧
      (ins.assembleBlock prev id buf).data.flatten.length =
        (ins.assembleBlock prev id buf).ref.dataLen := by
  obtain ⟨himg, hlen, happly⟩ := ins.image_spec buf
  have hflags := blockFlags_read buf.forkno
    (decide (buf.flags &&& regbufWillInit = regbufWillInit))
    (buf.needsBackup ins || hasFlag ins.fullInfo xlrCheckConsistency) (buf.needsData ins)
    (decide (prev = some buf.rlocator))
  simp only [decide_eq_true_eq] at hflags
  obtain ⟨hfork, himage, hdata, hsame⟩ := hflags
  have hrdata := buf.rdata_le
  have hneeds : buf.needsData ins → buf.rdata.flatten.length ≠ 0 := by
    intro hn hz
    simp [RegisteredBuffer.needsData, hz] at hn
  refine ⟨?_, ?_, ?_⟩
  · exact
      { id_le := by
          simp only [assembleBlock, UInt8.le_iff_toNat_le]
          exact Nat.le_trans (Nat.mod_le _ _) hid
        forknum := hfork.symm
        hasImage := himage.symm
        hasData := hdata.symm
        dataLen_lt := by
          simp only [assembleBlock]
          split <;> omega
        hasData_iff := by
          simp only [assembleBlock]
          by_cases hn : buf.needsData ins
          · simpa only [hn, if_true, true_iff] using hneeds hn
          · simp [hn]
        image_isSome := by
          simp only [assembleBlock]
          split <;> simp [*]
        image_valid := by
          intro img hsome
          simp only [assembleBlock] at hsome
          split at hsome
          · obtain rfl := some.inj hsome
            exact himg
          · cases hsome
        applyImage := by
          simp only [assembleBlock]
          split <;> simp [*]
        sameRel := by
          intro hs
          have hprev : hasFlag (ins.assembleBlock prev id buf).ref.flags bkpblockSameRel =
            decide (prev = some buf.rlocator) := hsame
          rw [hprev] at hs
          exact of_decide_eq_true hs }
  · simp only [assembleBlock]
    split
    · exact hlen
    · rfl
  · simp only [assembleBlock]
    split <;> simp

end Insertion

end Polar.Wal
