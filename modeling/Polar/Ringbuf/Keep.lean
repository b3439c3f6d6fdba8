import Polar.Ringbuf.Preservation

/-!
# The data-keep reference

`polar_ringbuf_ref_keep_data` moves the data-keep reference by the packet lengths it finds, until
at most `keepSize` bytes lie between the reference and `pwrite`. Nothing in the loop looks at the
ready flag, and `pwrite` counts reserved packets whose length is not yet written.
-/

namespace Polar.Ringbuf

/-- The loop of `polar_ringbuf_ref_keep_data` for one value of `pwrite`. -/
def keepLoop (ref : Ref) (keepSize pwrite : Nat) : Nat → Ringbuf → Ringbuf
  | 0, rb => rb
  | fuel + 1, rb =>
    if pwrite > (rb.slot ref.slot).pread + keepSize then
      keepLoop ref keepSize pwrite fuel (rb.updateRef ref)
    else
      rb

/-- A call of `polar_ringbuf_ref_keep_data`, up to its update of the read position, during which
no other process acts. Every turn of the loop passes a packet head, so `pwrite` turns suffice. -/
def Sys.keepData (s : Sys) (ref : Ref) (keepSize : Nat) : Ringbuf :=
  keepLoop ref keepSize s.rb.pwrite s.rb.pwrite (s.adoptNewPread ref keepSize).rb

variable {s : Sys} {ref : Ref} {keepSize : Nat}

theorem updateRef_pread (rb : Ringbuf) (ref : Ref) :
    (rb.slot ref.slot).pread < ((rb.updateRef ref).slot ref.slot).pread := by
  simp only [Ringbuf.updateRef, Function.update_self, pktHdrSize]
  omega

/-- The loop ends with at most `keepSize` bytes kept. -/
theorem keepLoop_exhausts (pwrite fuel : Nat) (rb : Ringbuf)
    (hfuel : pwrite ≤ (rb.slot ref.slot).pread + fuel) :
    pwrite ≤ ((keepLoop ref keepSize pwrite fuel rb).slot ref.slot).pread + keepSize := by
  induction fuel generalizing rb with
  | zero =>
    rw [keepLoop]
    omega
  | succ fuel ih =>
    rw [keepLoop]
    split
    · have := updateRef_pread rb ref
      exact ih _ (by omega)
    · omega

/-- Up to the first unpublished packet the loop only passes published ones. -/
theorem keepLoop_settled {pwrite : Nat} (fuel : Nat) (h : Inv s)
    (hocc : s.rb.occupied ref.slot) (hpwrite : pwrite ≤ s.rb.pwrite)
    (hkeep : pwrite ≤ firstUnpublished s.pkts s.rb.pwrite + keepSize) :
    s.settled ((keepLoop ref keepSize pwrite fuel s.rb).slot ref.slot).pread := by
  induction fuel generalizing s with
  | zero => exact (h.slots _ hocc).2
  | succ fuel ih =>
    rw [keepLoop]
    split
    · next hwork =>
      obtain ⟨pk, hpk, hstart⟩ := (h.slots _ hocc).2.exists_start h.layout (by omega)
      have hpub : pk.phase = .published := by
        by_contra hphase
        have := firstUnpublished_le h.layout hpk hphase
        omega
      exact ih (h.updateRef hocc hpk hstart hpub).2 hocc hpwrite hkeep
    · exact (h.slots _ hocc).2

/-- A settled position is not beyond the first unpublished packet. -/
theorem Settled.le_firstUnpublished {pkts : List Packet} {w p : Nat} (h : Settled pkts w p) :
    p ≤ firstUnpublished pkts w := by
  unfold firstUnpublished
  split
  · next pk hfind =>
    have hphase : pk.phase ≠ .published := by simpa using List.find?_some hfind
    by_contra hlt
    exact hphase (h.before pk (List.mem_of_find?_eq_some hfind) (by omega)).2
  · exact h.le_pwrite

theorem adoptNewPread_frame (s : Sys) (ref : Ref) (keepSize : Nat) :
    (s.adoptNewPread ref keepSize).pkts = s.pkts ∧
      (s.adoptNewPread ref keepSize).rb.pwrite = s.rb.pwrite ∧
      (s.adoptNewPread ref keepSize).rb.occupied = s.rb.occupied := by
  unfold Sys.adoptNewPread
  split
  · exact ⟨rfl, rfl, rfl⟩
  · split <;> exact ⟨rfl, rfl, rfl⟩

/-- A call leaves the data-keep reference on a settled position exactly when `pwrite` is at most
`keepSize` beyond the first unpublished packet. -/
theorem keepData_iff (h : Inv s) (hlive : s.live ref) :
    s.settled ((s.keepData ref keepSize).slot ref.slot).pread ↔
      s.rb.pwrite ≤ firstUnpublished s.pkts s.rb.pwrite + keepSize := by
  obtain ⟨hpkts, hpwrite, hocc⟩ := adoptNewPread_frame s ref keepSize
  have hocc' : (s.adoptNewPread ref keepSize).rb.occupied ref.slot := by
    rw [hocc]
    exact h.occupied_of_live hlive
  constructor
  · intro hsettled
    have hle := hsettled.le_firstUnpublished
    have hkept : s.rb.pwrite ≤ ((s.keepData ref keepSize).slot ref.slot).pread + keepSize :=
      keepLoop_exhausts _ _ _ (Nat.le_add_left _ _)
    omega
  · intro hkeep
    have hkeep' : s.rb.pwrite ≤ firstUnpublished (s.adoptNewPread ref keepSize).pkts
        (s.adoptNewPread ref keepSize).rb.pwrite + keepSize := by
      rwa [hpkts, hpwrite]
    have hsettled := keepLoop_settled s.rb.pwrite h.adoptNewPread hocc' hpwrite.ge hkeep'
    rwa [Sys.settled, hpkts, hpwrite] at hsettled

/-- In every run in which `polar_ringbuf_ref_keep_data` reads `pwrite` only while it is at most
`keepSize` beyond the first unpublished packet, the read position and every reference stay on
packet boundaries before which everything is published; and from every state of such a run a call
keeps to this exactly under that condition. -/
theorem keepData_settled {size refNum : Nat} (hsize : 0 < size) {s : Sys}
    (run : Reaches Sys.step Sys.keepsToPublished (Sys.init size refNum) s) :
    s.settled s.rb.pread ∧
      (∀ ref, s.live ref → s.settled (s.rb.slot ref.slot).pread) ∧
      ∀ ref keepSize, s.live ref →
        (s.settled ((s.keepData ref keepSize).slot ref.slot).pread ↔
          s.rb.pwrite ≤ firstUnpublished s.pkts s.rb.pwrite + keepSize) := by
  have h : Inv s := run.invariant Inv (Inv.init hsize refNum) fun _ _ _ hi hok => hi.step hok
  exact ⟨h.pread_settled, fun _ hlive => (h.slots _ (h.occupied_of_live hlive)).2,
    fun _ _ hlive => keepData_iff h hlive⟩

/-- A packet of 20 bytes is reserved and not yet written; a third of 64 bytes is to be kept. -/
def keepOverUnpublished : List Op :=
  [.newRef true, .reserve 20, .keepBegin ⟨1, 0, true⟩ 21, .keepSample, .keepAdvance, .keepSample,
    .keepEnd, .updateBegin, .updateScan, .updateClear, .updatePublish]

/-- The data-keep reference and the read position end up inside a packet that is not published. -/
theorem keepData_inside_unpublished :
    ∃ s, Reaches Sys.step (fun _ _ => True) (Sys.init 64 0) s ∧ s.live ⟨1, 0, true⟩ = true ∧
      ∃ pk ∈ s.pkts, pk.phase ≠ .published ∧
        (pk.start < (s.rb.slot 0).pread ∧ (s.rb.slot 0).pread < pk.stop) ∧
        pk.start < s.rb.pread ∧ s.rb.pread < pk.stop :=
  exists_reaches_any _ _ keepOverUnpublished _ (by decide)

/-- The conditions of `keepData_settled` are met once the packet is published. -/
theorem keepData_settled_published :
    ∃ s : Sys, s.live ⟨1, 0, true⟩ = true ∧ s.rb.pwrite = 25 ∧ s.settled s.rb.pread ∧
      s.settled ((s.keepData ⟨1, 0, true⟩ 21).slot 0).pread := by
  have hall : ((exec Sys.step (Sys.init 64 0)
      [.newRef true, .reserve 20, .waitForSpace 0, .setPktLength 0,
        .setPktFlag 0 (pktWalMeta ||| pktReady)]).map fun s =>
      s.live ⟨1, 0, true⟩ && decide (s.rb.pwrite = 25 ∧
        s.rb.pwrite ≤ firstUnpublished s.pkts s.rb.pwrite + 21)) = some true := by decide
  obtain ⟨s, hs, hfin⟩ := Option.map_eq_some_iff.mp hall
  obtain ⟨hlive, hkeep⟩ := (Bool.and_eq_true _ _).mp hfin
  obtain ⟨hpwrite, hkeep⟩ := of_decide_eq_true hkeep
  have hrun : Reaches Sys.step Sys.keepsToPublished (Sys.init 64 0) s := by
    refine reaches_of_exec hs fun u op hop => ?_
    simp only [List.mem_cons, List.not_mem_nil, or_false] at hop
    rcases hop with rfl | rfl | rfl | rfl | rfl <;> trivial
  obtain ⟨hpread, -, hiff⟩ := keepData_settled (by decide) hrun
  exact ⟨s, hlive, hpwrite, hpread, (hiff _ 21 hlive).mpr hkeep⟩

end Polar.Ringbuf
