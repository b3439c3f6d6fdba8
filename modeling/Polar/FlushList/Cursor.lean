import Polar.Base.Run
import Mathlib.Data.List.Nodup

/-!
# The batch cursor of a flush list

The workers that write dirty buffers take them from a list in batches. The list keeps the position
of the next batch, which the removal of a buffer may have to move. The buffers along `flush_next`
are a list here; the links are its order.
-/

namespace Polar.FlushList

open List

/-- A buffer id, or one of the two sentinels that stand for none. -/
inductive Pos where
  /-- `POLAR_FLUSHNEXT_END_OF_LIST`. -/
  | endOfList
  /-- `POLAR_FLUSHNEXT_NOT_IN_LIST`. -/
  | notInList
  | buffer (b : Nat)
  deriving DecidableEq, Repr

/-- The fields of `FlushList` that hold the buffers and the cursor. -/
structure Partition where
  buffers : List Nat
  currentPos : Pos
  latestFlushCount : Nat
  deriving DecidableEq, Repr

/-- The first buffer of a list. -/
def firstOf : List Nat → Pos
  | [] => .endOfList
  | b :: _ => .buffer b

/-- `flush_next` of a buffer in the list. -/
def flushNext (buffers : List Nat) (b : Nat) : Pos :=
  firstOf (buffers.dropWhile (· ≠ b)).tail

namespace Partition

/-- An empty list. -/
def init : Partition := { buffers := [], currentPos := .notInList, latestFlushCount := 0 }

/-- `remove_one_buffer`. -/
def removeOneBuffer (p : Partition) (b : Nat) : Partition :=
  let buffers := p.buffers.erase b
  let next := flushNext p.buffers b
  { p with
    buffers
    currentPos :=
      if p.currentPos = .buffer b then
        if next = .endOfList then firstOf buffers else next
      else p.currentPos }

/-- `append_one_buffer`. -/
def appendOneBuffer (p : Partition) (b : Nat) : Partition :=
  { p with buffers := p.buffers ++ [b] }

/-- The loop of `polar_get_batch_buffer`, with the position behind it. -/
def collect (buffers : List Nat) : Nat → Pos → List Nat × Pos
  | n + 1, .buffer b =>
    let (batch, pos) := collect buffers n (flushNext buffers b)
    (b :: batch, pos)
  | _, pos => ([], pos)

/-- `polar_get_batch_buffer`; `batchSize` is `polar_bgwriter_batch_size`. -/
def getBatchBuffer (batchSize : Nat) (p : Partition) (n : Nat) : List Nat × Partition :=
  if p.buffers = [] then ([], p)
  else
    let pos := if p.currentPos = .notInList then firstOf p.buffers else p.currentPos
    let (batch, pos) := collect p.buffers n pos
    -- The cursor also goes back to the head once a round has got long.
    if pos = .endOfList ∨ batchSize < p.latestFlushCount + batch.length then
      (batch, { p with currentPos := firstOf p.buffers, latestFlushCount := 0 })
    else
      (batch, { p with
        currentPos := pos, latestFlushCount := p.latestFlushCount + batch.length })

/-- A call that changes the list. -/
inductive Op where
  /-- `polar_put_buffer_to_flush_list`. -/
  | put (b : Nat)
  /-- `polar_adjust_position_in_flush_list`. -/
  | adjust (b : Nat)
  /-- `polar_remove_buffer_from_flush_list`. -/
  | remove (b : Nat)
  | batch (n : Nat)
  deriving DecidableEq, Repr

/-- A call, if the buffer is in the list, or not in it, as the assertions say. -/
def step (batchSize : Nat) (p : Partition) : Op → Option Partition
  | .put b => if b ∈ p.buffers then none else some (p.appendOneBuffer b)
  | .adjust b =>
    if b ∈ p.buffers then
      some (if flushNext p.buffers b = .endOfList then p
        else (p.removeOneBuffer b).appendOneBuffer b)
    else none
  | .remove b => if b ∈ p.buffers then some (p.removeOneBuffer b) else none
  | .batch n => some (p.getBatchBuffer batchSize n).2

/-- Successive calls of `polar_get_batch_buffer` on a list that nobody changes. -/
def getBatches (batchSize : Nat) : Partition → List Nat → List Nat × Partition
  | p, [] => ([], p)
  | p, n :: ns =>
    let (batch, p) := p.getBatchBuffer batchSize n
    let (batches, p) := getBatches batchSize p ns
    (batch ++ batches, p)

end Partition

/-! ## The loop along the list -/

variable {pre post rest : List Nat} {b : Nat}

theorem flushNext_append (hb : b ∉ pre) : flushNext (pre ++ b :: post) b = firstOf post := by
  have hpre : ∀ a ∈ pre, decide (a ≠ b) = true := fun a ha =>
    decide_eq_true fun e => hb (e ▸ ha)
  rw [flushNext, dropWhile_append_of_pos hpre, dropWhile_cons_of_neg (by simp),
    tail_cons]

theorem firstOf_eq_endOfList {list : List Nat} : firstOf list = .endOfList ↔ list = [] := by
  cases list <;> simp [firstOf]

theorem firstOf_ne_notInList (list : List Nat) : firstOf list ≠ .notInList := by
  cases list <;> simp [firstOf]

/-- From the first buffer of `rest` on, the loop takes the next `n` buffers. -/
theorem collect_append (hnodup : (pre ++ rest).Nodup) (n : Nat) :
    Partition.collect (pre ++ rest) n (firstOf rest) = (rest.take n, firstOf (rest.drop n)) := by
  induction n generalizing pre rest with
  | zero => cases rest <;> rfl
  | succ n ih =>
    cases rest with
    | nil => rfl
    | cons b post =>
      have hb : b ∉ pre := fun hpre =>
        (nodup_append.mp hnodup).2.2 b hpre b mem_cons_self rfl
      have hsplit : pre ++ b :: post = (pre ++ [b]) ++ post := by simp
      rw [firstOf, Partition.collect, flushNext_append hb, hsplit, ih (hsplit ▸ hnodup)]
      rfl

/-! ## The cursor -/

namespace Partition

variable {batchSize : Nat} {p q : Partition}

/-- The cursor is at a buffer of the list, or at none. -/
structure Good (p : Partition) : Prop where
  nodup : p.buffers.Nodup
  mem : ∀ b, p.currentPos = .buffer b → b ∈ p.buffers

theorem mem_of_firstOf {list : List Nat} (h : firstOf list = .buffer b) : b ∈ list := by
  cases list with
  | nil => cases h
  | cons c _ => exact Pos.buffer.inj h ▸ mem_cons_self

/-- What is left from the cursor on, if it is usable. -/
def FromCursor (p : Partition) (pre rest : List Nat) : Prop :=
  p.buffers = pre ++ rest ∧ rest ≠ [] ∧
    (p.currentPos = firstOf rest ∨ p.currentPos = .notInList ∧ pre = [])

theorem FromCursor.good (h : p.FromCursor pre rest) (hnodup : p.buffers.Nodup) : p.Good where
  nodup := hnodup
  mem b hb := by
    rcases h.2.2 with hpos | ⟨hpos, -⟩
    · rw [h.1]
      exact mem_append_right _ (mem_of_firstOf (hpos.symm.trans hb))
    · rw [hpos] at hb
      cases hb

theorem Good.exists_fromCursor (h : p.Good) (hne : p.buffers ≠ [])
    (hpos : p.currentPos ≠ .endOfList) : ∃ pre rest, p.FromCursor pre rest := by
  cases hcur : p.currentPos with
  | endOfList => exact absurd hcur hpos
  | notInList => exact ⟨[], p.buffers, rfl, hne, .inr ⟨hcur, rfl⟩⟩
  | buffer b =>
    obtain ⟨pre, post, hsplit⟩ := append_of_mem (h.mem b hcur)
    exact ⟨pre, b :: post, hsplit, by simp, .inl hcur⟩

/-- The buffers of a batch, and where it leaves the cursor. -/
theorem FromCursor.getBatchBuffer (h : p.FromCursor pre rest) (hgood : p.Good) (n : Nat) :
    p.getBatchBuffer batchSize n = (rest.take n,
      if rest.length ≤ n ∨ batchSize < p.latestFlushCount + (rest.take n).length then
        { p with currentPos := firstOf p.buffers, latestFlushCount := 0 }
      else
        { p with
          currentPos := firstOf (rest.drop n)
          latestFlushCount := p.latestFlushCount + (rest.take n).length }) := by
  obtain ⟨hsplit, hne, hpos⟩ := h
  have hstart : (if p.currentPos = .notInList then firstOf p.buffers else p.currentPos) =
      firstOf rest := by
    rcases hpos with hpos | ⟨hpos, rfl⟩
    · rw [hpos, if_neg (firstOf_ne_notInList rest)]
    · rw [if_pos hpos, hsplit, nil_append]
  have hbuffers : p.buffers ≠ [] := by simp [hsplit, hne]
  rw [Partition.getBatchBuffer, if_neg hbuffers, hstart]
  simp only [hsplit, collect_append (hsplit ▸ hgood.nodup), firstOf_eq_endOfList,
    drop_eq_nil_iff]
  split <;> rfl

/-- A cursor at the end of the list yields no buffer. -/
theorem getBatchBuffer_endOfList (hne : p.buffers ≠ []) (hpos : p.currentPos = .endOfList)
    {n : Nat} :
    p.getBatchBuffer batchSize n =
      ([], { p with currentPos := firstOf p.buffers, latestFlushCount := 0 }) := by
  have hempty : collect p.buffers n .endOfList = ([], .endOfList) := by cases n <;> rfl
  rw [getBatchBuffer, if_neg hne, hpos, if_neg (by simp)]
  simp only [hempty, true_or, if_true]

theorem Good.init : Partition.init.Good := ⟨nodup_nil, by simp [Partition.init]⟩

theorem Good.removeOneBuffer (h : p.Good) (hb : b ∈ p.buffers) : (p.removeOneBuffer b).Good := by
  refine ⟨h.nodup.erase b, fun a ha => ?_⟩
  obtain ⟨pre, post, hsplit⟩ := append_of_mem hb
  have hpre : b ∉ pre := fun hmem =>
    (nodup_append.mp (hsplit ▸ h.nodup)).2.2 b hmem b mem_cons_self rfl
  have herase : p.buffers.erase b = pre ++ post := by
    rw [hsplit, erase_append_right _ hpre, erase_cons_head]
  simp only [Partition.removeOneBuffer, herase] at ha ⊢
  rw [hsplit, flushNext_append hpre] at ha
  split at ha
  · split at ha
    · exact mem_of_firstOf ha
    · exact mem_append_right _ (mem_of_firstOf ha)
  · next hcur =>
    rw [← herase]
    refine (h.nodup.mem_erase_iff).mpr ⟨?_, h.mem a ha⟩
    rintro rfl
    exact hcur ha

theorem Good.appendOneBuffer (h : p.Good) (hb : b ∉ p.buffers) : (p.appendOneBuffer b).Good where
  nodup := nodup_append.mpr ⟨h.nodup, nodup_singleton b, by
    rintro a ha c hc rfl
    exact hb (mem_singleton.mp hc ▸ ha)⟩
  mem a ha := mem_append_left _ (h.mem a ha)

theorem Good.batch (h : p.Good) (n : Nat) : (p.getBatchBuffer batchSize n).2.Good := by
  by_cases hne : p.buffers = []
  · rwa [getBatchBuffer, if_pos hne]
  by_cases hpos : p.currentPos = .endOfList
  · rw [getBatchBuffer_endOfList hne hpos]
    exact ⟨h.nodup, fun _ => mem_of_firstOf⟩
  · obtain ⟨pre, rest, hfrom⟩ := h.exists_fromCursor hne hpos
    rw [hfrom.getBatchBuffer h]
    split
    · exact ⟨h.nodup, fun _ => mem_of_firstOf⟩
    · refine ⟨h.nodup, fun b hb => ?_⟩
      rw [hfrom.1]
      exact mem_append_right _ (mem_of_mem_drop (mem_of_firstOf hb))

theorem Good.step (h : p.Good) {op : Op} (hs : p.step batchSize op = some q) : q.Good := by
  cases op with
  | put b =>
    simp only [Partition.step] at hs
    split at hs <;> cases hs
    next hb => exact h.appendOneBuffer hb
  | adjust b =>
    simp only [Partition.step] at hs
    split at hs <;> cases hs
    next hb =>
      split
      · exact h
      · refine (h.removeOneBuffer hb).appendOneBuffer ?_
        exact h.nodup.not_mem_erase
  | remove b =>
    simp only [Partition.step] at hs
    split at hs <;> cases hs
    next hb => exact h.removeOneBuffer hb
  | batch n =>
    cases hs
    exact h.batch n

theorem Good.of_reaches (h : Reaches (Partition.step batchSize) (fun _ _ => True) .init p) :
    p.Good :=
  h.invariant _ .init fun _ _ _ hu _ hs => hu.step hs

/-! ## Batches -/

/-- Calls from the cursor on, each before the end of the list is reached: the batches are what is
left of the list, one after the other, unless a call sends the cursor back to the head too early. -/
theorem FromCursor.getBatches {ns : List Nat} (h : p.FromCursor pre rest) (hgood : p.Good)
    (hbefore : ∀ k < ns.length, (ns.take k).sum < rest.length)
    (hround : ∀ k < ns.length, 0 < k → p.latestFlushCount + (ns.take k).sum ≤ batchSize) :
    (p.getBatches batchSize ns).1 = rest.take ns.sum ∧
      (rest.length ≤ ns.sum → (p.getBatches batchSize ns).2.currentPos = firstOf p.buffers) := by
  induction ns generalizing p pre rest with
  | nil =>
    refine ⟨by simp [Partition.getBatches], fun hle => ?_⟩
    exact absurd (length_eq_zero_iff.mp (Nat.le_zero.mp hle)) h.2.1
  | cons n ns ih =>
    rw [Partition.getBatches, h.getBatchBuffer hgood]
    cases ns with
    | nil =>
      refine ⟨by simp [Partition.getBatches], fun hle => ?_⟩
      rw [if_pos (.inl (by simpa using hle))]
      rfl
    | cons m ns =>
      have hn := hbefore 1 (by simp)
      have hcount := hround 1 (by simp) Nat.one_pos
      simp only [take_succ_cons, take_zero, sum_cons] at hn hcount
      have hlen : (rest.take n).length = n := by rw [length_take]; omega
      have hdrop : (rest.drop n).length = rest.length - n := length_drop
      rw [if_neg (by omega), hlen]
      have hfrom : FromCursor { p with
          currentPos := firstOf (rest.drop n), latestFlushCount := p.latestFlushCount + n }
          (pre ++ rest.take n) (rest.drop n) := by
        refine ⟨?_, ne_nil_of_length_pos (by omega), .inl rfl⟩
        rw [append_assoc, take_append_drop]
        exact h.1
      obtain ⟨hbatches, hpos⟩ := ih hfrom (hfrom.good hgood.nodup)
        (fun k hk => by
          have := hbefore (k + 1) (Nat.succ_lt_succ hk)
          rw [take_succ_cons, sum_cons] at this
          omega)
        (fun k hk _ => by
          have := hround (k + 1) (Nat.succ_lt_succ hk) k.succ_pos
          rw [take_succ_cons, sum_cons] at this
          show p.latestFlushCount + n + ((m :: ns).take k).sum ≤ batchSize
          omega)
      rw [sum_cons]
      refine ⟨?_, fun hle => hpos (by omega)⟩
      show rest.take n ++ _ = _
      rw [hbatches, take_add]

/-- The batch is a run of the list that starts at the cursor, or at the head if the cursor is at no
buffer. -/
def BatchOk (p : Partition) (batch : List Nat) (n : Nat) : Prop :=
  batch ≠ [] ∧ batch.length ≤ n ∧ ∃ pre post, p.buffers = pre ++ batch ++ post ∧
    (p.currentPos = firstOf batch ∨ (∀ b, p.currentPos ≠ .buffer b) ∧ pre = [])

/-- A call on a list with buffers returns a batch unless the list has been emptied under the cursor.
Calls from the head return the whole list, each buffer once, before the first one comes again, if no
call before the end of the list takes the count of the round beyond `polar_bgwriter_batch_size`. -/
theorem batches_from_cursor (batchSize : Nat) (p : Partition)
    (h : Reaches (Partition.step batchSize) (fun _ _ => True) .init p) :
    (∀ n, 0 < n → p.buffers ≠ [] →
      (BatchOk p (p.getBatchBuffer batchSize n).1 n ↔ p.currentPos ≠ .endOfList)) ∧
    p.buffers.Nodup ∧
    ∀ ns : List Nat, p.buffers ≠ [] →
      p.currentPos = firstOf p.buffers ∨ p.currentPos = .notInList →
      (∀ k < ns.length, (ns.take k).sum < p.buffers.length) →
      (∀ k < ns.length, 0 < k → p.latestFlushCount + (ns.take k).sum ≤ batchSize) →
      (p.getBatches batchSize ns).1 = p.buffers.take ns.sum ∧
        (p.buffers.length ≤ ns.sum →
          (p.getBatches batchSize ns).2.currentPos = firstOf p.buffers) := by
  have hgood := Good.of_reaches h
  refine ⟨fun n hn hne => ⟨fun hok hpos => hok.1 ?_, fun hpos => ?_⟩, hgood.nodup,
    fun ns hne hpos hbefore hround => ?_⟩
  · rw [getBatchBuffer_endOfList hne hpos]
  · obtain ⟨pre, rest, hfrom⟩ := hgood.exists_fromCursor hne hpos
    rw [hfrom.getBatchBuffer hgood]
    obtain ⟨hsplit, hrest, hcur⟩ := hfrom
    have htake : firstOf (rest.take n) = firstOf rest := by
      obtain ⟨n, rfl⟩ := Nat.exists_eq_add_one_of_ne_zero (Nat.ne_of_gt hn)
      cases rest <;> rfl
    refine ⟨?_, length_take_le _ _, pre, rest.drop n, ?_, ?_⟩
    · rwa [Ne, ← firstOf_eq_endOfList, htake, firstOf_eq_endOfList]
    · rw [append_assoc, take_append_drop]
      exact hsplit
    · rw [htake]
      exact hcur.imp_right fun ⟨hcur, hpre⟩ => ⟨by simp [hcur], hpre⟩
  · have hfrom : p.FromCursor [] p.buffers := ⟨rfl, hne, hpos.imp_right fun hpos => ⟨hpos, rfl⟩⟩
    exact hfrom.getBatches hgood hbefore hround

/-- Three buffers, in batches of two. -/
theorem batches_from_cursor_three : ∃ p,
    Reaches (Partition.step 100) (fun _ _ => True) .init p ∧ p.buffers = [5, 7, 9] ∧
      (p.getBatches 100 [2, 2]).1 = [5, 7, 9] := by
  have hexec : exec (Partition.step 100) .init [.put 5, .put 7, .put 9] =
      some { buffers := [5, 7, 9], currentPos := .notInList, latestFlushCount := 0 } := by decide
  have run := reaches_of_exec hexec fun _ _ _ => trivial
  refine ⟨_, run, rfl, ?_⟩
  refine ((batches_from_cursor 100 _ run).2.2 [2, 2] (by decide) (.inr rfl) ?_ ?_).1 <;> decide

/-- The only buffer is removed while the cursor is at it, and comes back: the next call returns
nothing. -/
theorem batch_empty_after_refill : ¬ ∀ (batchSize : Nat) (p : Partition) (n : Nat),
    Reaches (Partition.step batchSize) (fun _ _ => True) .init p → 0 < n → p.buffers ≠ [] →
      (p.getBatchBuffer batchSize n).1 ≠ [] := by
  intro hall
  have hexec : exec (Partition.step 100) .init [.put 0, .batch 1, .remove 0, .put 0] =
      some { buffers := [0], currentPos := .endOfList, latestFlushCount := 0 } := by decide
  exact hall 100 _ 1 (reaches_of_exec hexec fun _ _ _ => trivial) Nat.one_pos (by decide)
    (by decide)

end Partition

end Polar.FlushList
