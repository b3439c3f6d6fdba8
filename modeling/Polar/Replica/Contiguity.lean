import Polar.Replica.Invariant

/-!
# The startup process reads every record once and in order

Each action keeps the invariant, except the exit of a walreceiver on `SIGTERM` that leaves packets
behind while `polar_use_xlog_queue` is clear: no marker separates them from what a later walreceiver
stores.
-/

namespace Polar.Replica

open State (coming cursor horizon inUse stream)

open List Cursor

namespace Inv

variable {wal : Wal} {first : Nat} {s t : State}

section Sender

variable {snd : Sender}

/-- The check leaves the reference at most at the first record that was not sent. -/
theorem checkLoop_le (startPoint inserted fuel ref : Nat) (ret : Bool)
    (href : ret = true → ref ≤ wal.seek startPoint) :
    (checkLoop wal startPoint inserted fuel ref ret).1 = true →
      (checkLoop wal startPoint inserted fuel ref ret).2 ≤ wal.seek startPoint := by
  induction fuel generalizing ref ret with
  | zero => exact href
  | succ fuel ih =>
    rw [checkLoop]
    split
    · exact href
    · simp only [Wal.readRecPtr_eq]
      split
      · intro hret
        rcases Bool.or_eq_true_iff.mp hret with hret | hle
        · exact href hret
        · exact wal.le_seek (of_decide_eq_true hle)
      · next hlt =>
        exact ih _ _ fun _ => wal.lt_seek_iff.mpr (Nat.lt_of_not_le hlt)

theorem check (h : Inv wal first s) (hsnd : s.sender = some snd) :
    Inv wal first { s with sender := some (sendQueueCheck wal s.kept s.inserted snd) } := by
  have hpos := h.sentPtr_pos snd hsnd
  have heq : sendQueueCheck wal s.kept s.inserted snd =
      { snd with
        checkSucceed := (checkLoop wal snd.sentPtr s.inserted
          (s.inserted - snd.ref.getD s.kept + 1) (snd.ref.getD s.kept) false).1
        ref := some (checkLoop wal snd.sentPtr s.inserted
          (s.inserted - snd.ref.getD s.kept + 1) (snd.ref.getD s.kept) false).2 } :=
    if_neg hpos.ne'
  rw [heq]
  refine h.withSender hpos (h.sent snd hsnd) fun hret r hr => ?_
  rw [← Option.some.inj hr]
  exact checkLoop_le _ _ _ _ _ (fun h => Bool.noConfusion h) hret

theorem sendQueue (h : Inv wal first s) (hsnd : s.sender = some snd)
    (hcheck : snd.checkSucceed = true) {count : Nat} (hstep : s.sendQueue wal count snd = some t) :
    Inv wal first t := by
  have hpos := h.sentPtr_pos snd hsnd
  have hsent := h.sent snd hsnd
  rw [State.sendQueue] at hstep
  split at hstep
  · cases hstep
    exact h.withSender hpos hsent fun hret => Bool.noConfusion hret
  · next ref href =>
    have hle : ref ≤ wal.seek snd.sentPtr := h.ref snd hsnd hcheck ref href
    split at hstep
    · cases hstep
      obtain ⟨hflows, hallows⟩ := flows_range (hsent.of_le hle) count
      rcases Nat.eq_zero_or_pos count with rfl | hcount
      · exact h.send (.xlogMeta []) (by rw [expand_xlogMeta]; trivial)
          (by rw [expand_xlogMeta]
              intro hclear
              exact h.clearedAtEnd (by simpa [inUseAfter] using hclear))
          hpos (by rw [expand_xlogMeta]; exact hsent)
          (fun _ r hr => Option.some.inj hr ▸ hle)
      · have hptr : (if count = 0 then snd.sentPtr else wal.stop (ref + count - 1)) =
            wal.stop (ref + count - 1) := if_neg hcount.ne'
        have hseek : wal.seek (wal.stop (ref + count - 1)) = ref + count := by
          rw [wal.seek_stop]
          omega
        have hused : (range' ref count).isEmpty = false := by
          rw [isEmpty_eq_false_iff]
          exact fun hnil => hcount.ne' (by simpa using hnil)
        rw [hptr]
        exact h.send (.xlogMeta (range' ref count)) (by rw [expand_xlogMeta]; exact hflows)
          (by simp [inUseAfter, hused])
          (Nat.zero_lt_of_lt (wal.start_lt_stop _))
          (by rw [expand_xlogMeta, hseek]; exact hallows)
          (fun _ r hr => Option.some.inj hr ▸ hseek.ge)
    · cases hstep

theorem sendPhysical (h : Inv wal first s) {endptr : Nat} (hpos : 0 < endptr)
    (hcheck : snd.checkSucceed = false) :
    Inv wal first { s with
      sender := some { snd with sentPtr := endptr }
      channel := s.channel ++ [.physical] } := by
  have hfile : ((s.horizon wal).atEnd
      (expand (inUseAfter s.inUse s.channel) [.physical])).IsFile := by
    cases hused : inUseAfter s.inUse s.channel with
    | true => trivial
    | false => exact h.clearedAtEnd hused
  refine h.send .physical ?_ (fun _ => hfile) hpos (hfile.allows _)
    fun hret => absurd hret (by simp [hcheck])
  cases inUseAfter s.inUse s.channel <;> trivial

end Sender

section Receiver

theorem atEnd_begin_isFile (c : Cursor) (ps : List Packet) :
    (c.atEnd (ps ++ [.walStorageBegin])).IsFile := by
  rw [atEnd_append]
  trivial

variable (h : Inv wal first s)
include h

/-- The walreceiver handles a message. -/
theorem receiveMsg (hpush : s.pushing = none) {msg : Msg} {msgs : List Msg}
    (hchan : s.channel = msg :: msgs) :
    Inv wal first ({ s with channel := msgs }.receiveMsg msg) := by
  have honline : s.sender ≠ none := by
    intro hnone
    rw [(h.offline hnone).1] at hchan
    cases hchan
  have hidle : ∀ p ∈ s.pushing, p.copied = 0 := by
    simp [hpush]
  cases msg with
  | physical =>
    cases hused : s.useXlogQueue with
    | true =>
      refine h.sameStream ?_ ?_ ?_ ?_ ?_ ?_ ?_ ?_ honline <;>
        simp only [State.receiveMsg, hused, if_true, stream, coming, inUse,
          hpush, hchan, Option.isSome_none, Option.elim, Bool.false_or, expand, inUseAfter,
          map_nil, nil_append, append_assoc, cons_append]
      · exact fun _ _ => atEnd_begin_isFile _ _
      · simp
    | false =>
      refine h.sameStream ?_ ?_ ?_ ?_ ?_ ?_ ?_ ?_ honline <;>
        simp only [State.receiveMsg, hused, Bool.false_eq_true, if_false, stream,
          coming, inUse, hpush, hchan, Option.isSome_none, Option.elim,
          Bool.false_or, expand, inUseAfter]
      · exact fun _ _ => h.cleared hused hidle
      · simp
  | xlogMeta is =>
    cases is with
    | nil =>
      refine h.sameStream rfl rfl rfl rfl ?_ ?_ (fun hused _ => h.cleared hused hidle)
        (by simp [State.receiveMsg, hpush]) honline
      · simp [State.receiveMsg, stream, coming, inUse, hchan, expand]
      · simp [State.receiveMsg, inUse, hchan, inUseAfter]
    | cons i is =>
      refine h.sameStream rfl rfl rfl rfl ?_ ?_ (fun hused _ => h.cleared hused hidle) ?_
        honline
      · simp [State.receiveMsg, stream, coming, inUse, hpush, hchan, expand]
      · simp [State.receiveMsg, inUse, hchan, inUseAfter]
      · rintro p hp
        cases hp
        exact cons_ne_nil _ _

theorem pushPacket {copied i : Nat} {todo : List Nat}
    (hpush : s.pushing = some ⟨copied, i :: todo⟩) :
    Inv wal first (s.pushPacket copied i todo) := by
  have honline : s.sender ≠ none := by
    intro hnone
    rw [(h.offline hnone).2] at hpush
    cases hpush
  rw [State.pushPacket]
  split
  · next hdone =>
    subst hdone
    refine h.sameStream rfl rfl rfl rfl ?_ ?_ (fun hused => Bool.noConfusion hused) nofun honline
    · simp [stream, coming, inUse, hpush]
    · simp [inUse, hpush]
  · next hmore =>
    refine h.sameStream rfl rfl rfl rfl ?_ ?_ ?_ ?_ honline
    · simp [stream, coming, inUse, hpush]
    · simp [inUse, hpush]
    · exact fun _ hzero => absurd (hzero _ rfl) (Nat.succ_ne_zero copied)
    · rintro p hp
      cases hp
      exact hmore

/-- The connection ends; what was not stored is lost. -/
theorem exit (shutdownRequestPending : Bool)
    (hclean : shutdownRequestPending = true → s.useXlogQueue = false →
      ∀ p ∈ s.pushing, p.copied = 0) :
    Inv wal first { s with
      sender := none
      channel := []
      pushing := none
      queue := if shutdownRequestPending then s.queue else s.queue ++ [.walStorageBegin] } := by
  have hflows : Flows (s.cursor wal) s.queue := (flows_append.mp h.flows).1
  cases shutdownRequestPending with
  | true =>
    have hcleared : s.useXlogQueue = false → ((s.cursor wal).atEnd s.queue).IsFile :=
      fun hused => h.cleared hused (hclean rfl hused)
    exact
      { h with
        flows := flows_append.mpr ⟨hflows, trivial⟩
        cleared := fun hused _ => hcleared hused
        clearedAtEnd := by
          intro hused
          rw [horizon, stream, atEnd_append]
          exact hcleared hused
        sentPtr_pos := by simp
        sent := by simp
        ref := by simp
        todo := by simp
        offline := fun _ => ⟨rfl, rfl⟩ }
  | false =>
    exact
      { h with
        flows := flows_append.mpr ⟨flows_append.mpr ⟨hflows, trivial⟩, trivial⟩
        cleared := fun _ _ => atEnd_begin_isFile _ _
        clearedAtEnd := by
          intro _
          rw [horizon, stream, atEnd_append]
          exact atEnd_begin_isFile _ _
        sentPtr_pos := by simp
        sent := by simp
        ref := by simp
        todo := by simp
        offline := fun _ => ⟨rfl, rfl⟩ }

/-- A further marker in front of what is coming only weakens what the reader relies on. -/
theorem standbyTrigger :
    Inv wal first { s with queue := s.queue ++ [.walStorageBegin] } := by
  obtain ⟨hflows, hcoming⟩ := flows_append.mp h.flows
  have hle : LE ((s.cursor wal).atEnd s.queue)
      ((s.cursor wal).atEnd (s.queue ++ [.walStorageBegin])) := by
    rw [atEnd_append]
    generalize (s.cursor wal).atEnd s.queue = c
    cases c <;> exact le_rfl
  have hhorizon : LE (s.horizon wal)
      (horizon wal { s with queue := s.queue ++ [.walStorageBegin] }) := by
    rw [horizon, horizon, stream, stream, atEnd_append, atEnd_append]
    exact atEnd_mono hle hcoming
  exact
    { h with
      flows := flows_append.mpr ⟨flows_append.mpr ⟨hflows, trivial⟩, hcoming.mono hle⟩
      cleared := fun _ _ => atEnd_begin_isFile _ _
      clearedAtEnd := fun hused => (h.clearedAtEnd hused).mono hhorizon
      sent := fun snd hsnd => (h.sent snd hsnd).mono hhorizon }

theorem restart {startPoint : Nat}
    (hpos : 0 < startPoint) (hle : startPoint ≤ s.reader.nextRecPtr) :
    Inv wal first { s with sender := some ⟨startPoint, false, some s.kept⟩ } := by
  refine h.withSender hpos ?_ nofun
  have hseek : wal.seek startPoint ≤ (s.cursor wal).level := by
    rw [cursor, level_ofMode]
    exact wal.seek_mono hle
  exact allows_of_le_level (hseek.trans (level_le_atEnd _ _))

end Receiver

section Startup

theorem atEnd_of_lt {c : Cursor} {ps : List Packet}
    (h : ∀ p ∈ ps, ∃ i, p = .walMeta i ∧ i < c.level) : c.atEnd ps = c := by
  induction ps with
  | nil => rfl
  | cons p ps ih =>
    obtain ⟨i, rfl, hi⟩ := h p mem_cons_self
    have hafter : c.after (.walMeta i) = c := by
      cases c with
      | file n => exact if_pos hi
      | queue n => exact congrArg Cursor.queue (max_eq_left hi)
    change (c.after (.walMeta i)).atEnd ps = c
    rw [hafter]
    exact ih fun q hq => h q (mem_cons_of_mem _ hq)

/-- The removed packets start at or before the last decoded record. -/
theorem removeOutdate_spec (decodeRecPtr : Nat) (ps : List Packet) :
    ∃ pre, (∀ p ∈ pre, ∃ i, p = .walMeta i ∧ wal.start i ≤ decodeRecPtr) ∧
      ps = pre ++ (removeOutdate wal decodeRecPtr ps).2 ∧
      ((removeOutdate wal decodeRecPtr ps).1 ≤ decodeRecPtr ∨
        ∃ i qs, (removeOutdate wal decodeRecPtr ps).2 = .walMeta i :: qs ∧
          (removeOutdate wal decodeRecPtr ps).1 = wal.start i) := by
  fun_induction removeOutdate wal decodeRecPtr ps with
  | case1 i hle j qs ih =>
    obtain ⟨pre, hpre, hsplit, hptr⟩ := ih
    rw [Wal.readRecPtr_eq] at hle
    refine ⟨.walMeta i :: pre, ?_, congrArg (_ :: ·) hsplit, hptr⟩
    exact forall_mem_cons.mpr ⟨⟨i, rfl, hle⟩, hpre⟩
  | case2 i hle ps hother =>
    rw [Wal.readRecPtr_eq] at hle ⊢
    refine ⟨[.walMeta i], ?_, rfl, .inl hle⟩
    exact forall_mem_singleton.mpr ⟨i, rfl, hle⟩
  | case3 i ps hgt => exact ⟨[], nofun, rfl, .inr ⟨i, ps, rfl, Wal.readRecPtr_eq wal i⟩⟩
  | case4 ps hother => exact ⟨[], nofun, rfl, .inl (Nat.zero_le _)⟩

/-- The skipped packets start before `currRecPtr`, the returned one does not. -/
theorem popRecord_spec (currRecPtr : Nat) (ps : List Packet) :
    ∃ pre, (∀ p ∈ pre, ∃ i, p = .walMeta i ∧ wal.start i < currRecPtr) ∧
      match (popRecord wal currRecPtr ps).1 with
      | none => ps = pre ++ (popRecord wal currRecPtr ps).2
      | some i => ps = pre ++ .walMeta i :: (popRecord wal currRecPtr ps).2 ∧
          currRecPtr ≤ wal.start i := by
  fun_induction popRecord wal currRecPtr ps with
  | case1 i ps hge =>
    rw [Wal.readRecPtr_eq] at hge
    exact ⟨[], nofun, rfl, hge⟩
  | case2 i ps hlt ih =>
    obtain ⟨pre, hpre, hsplit⟩ := ih
    rw [Wal.readRecPtr_eq] at hlt
    refine ⟨.walMeta i :: pre,
      forall_mem_cons.mpr ⟨⟨i, rfl, Nat.lt_of_not_le hlt⟩, hpre⟩, ?_⟩
    revert hsplit
    cases (popRecord wal currRecPtr ps).1 with
    | none => exact fun hsplit => congrArg (_ :: ·) hsplit
    | some j => exact fun hsplit => ⟨congrArg (_ :: ·) hsplit.1, hsplit.2⟩
  | case3 ps hother => exact ⟨[], nofun, rfl⟩

variable (h : Inv wal first s)
include h

/-- The reader passes the packets `pre` and reads at most the record it needs. -/
theorem consume (pre : List Packet) {queue : List Packet}
    (hqueue : s.queue = pre ++ queue) {reader : Reader} {got : List Nat} (catchUp : Bool)
    (hread : reader = s.reader ∧ got = s.got ∨
      reader = ⟨wal.start (s.next wal), wal.stop (s.next wal)⟩ ∧ got = s.got ++ [s.next wal])
    (hle : LE ((s.cursor wal).atEnd pre) (ofMode catchUp (wal.seek reader.nextRecPtr))) :
    Inv wal first { s with queue := queue, reader := reader, catchUp := catchUp, got := got } := by
  have hstream : s.stream = pre ++ (queue ++ s.coming) := by
    rw [stream, hqueue, append_assoc]
  obtain ⟨-, hflows⟩ := flows_append.mp (hstream ▸ h.flows)
  have hqueueEnd : LE ((s.cursor wal).atEnd s.queue) 
      ((ofMode catchUp (wal.seek reader.nextRecPtr)).atEnd queue) := by
    rw [hqueue, atEnd_append]
    exact atEnd_mono hle (flows_append.mp hflows).1
  have hhorizon : LE (s.horizon wal) 
      ((ofMode catchUp (wal.seek reader.nextRecPtr)).atEnd (queue ++ s.coming)) := by
    rw [horizon, hstream, atEnd_append]
    exact atEnd_mono hle hflows
  have hcount : got = range' first got.length ∧
      wal.seek reader.nextRecPtr = first + got.length ∧
      ∀ i, wal.start i ≤ reader.decodeRecPtr → i < wal.seek reader.nextRecPtr := by
    rcases hread with ⟨rfl, rfl⟩ | ⟨rfl, rfl⟩
    · exact ⟨h.got, h.next, h.decoded⟩
    · simp only [length_append, length_singleton, wal.seek_stop, h.next]
      refine ⟨?_, rfl, fun i hi => ?_⟩
      · rw [range'_concat, ← h.got, one_mul]
      · exact Nat.lt_succ_of_le (wal.start_strictMono.le_iff_le.mp hi)
  exact
    { h with
      got := hcount.1
      next := hcount.2.1
      decoded := hcount.2.2
      flows := hflows.mono hle
      cleared := fun hused hidle => (h.cleared hused hidle).mono hqueueEnd
      clearedAtEnd := fun hused => (h.clearedAtEnd hused).mono hhorizon
      sent := fun snd hsnd => (h.sent snd hsnd).mono hhorizon }

/-- Reading from the file, after the packets `pre` were passed. -/
theorem readAhead (pre : List Packet) {queue : List Packet} (hqueue : s.queue = pre ++ queue)
    (hpre : (s.cursor wal).atEnd pre = .file (s.next wal)) (available : Bool) :
    Inv wal first { (Replica.readAhead wal available s).2 with
      queue := queue, catchUp := false } := by
  cases available with
  | true =>
    refine h.consume pre hqueue false (.inr ⟨rfl, rfl⟩) ?_
    change LE _ (.file (wal.seek (wal.stop (s.next wal))))
    rw [hpre, wal.seek_stop]
    exact Nat.le_succ _
  | false =>
    refine h.consume pre hqueue false (.inl ⟨rfl, rfl⟩) ?_
    rw [hpre]
    exact le_refl (s.next wal)

omit h in
theorem atEnd_pre {pre : List Packet} (hpre : ∀ p ∈ pre, ∃ i, p = .walMeta i ∧ i < s.next wal) :
    (s.cursor wal).atEnd pre = s.cursor wal := by
  apply atEnd_of_lt
  rwa [cursor, level_ofMode]

theorem popUntilCatchUp (hfile : s.catchUp = false) (available : Bool) :
    Inv wal first (Replica.popUntilCatchUp wal available s) := by
  obtain ⟨pre, hpre, hsplit, hptr⟩ := @removeOutdate_spec wal s.reader.decodeRecPtr s.queue
  have hend : (s.cursor wal).atEnd pre = .file (s.next wal) := by
    rw [atEnd_pre fun p hp => ?_, cursor, hfile]
    · rfl
    · obtain ⟨i, rfl, hi⟩ := hpre p hp
      exact ⟨i, rfl, h.decoded i hi⟩
  have hread := h.readAhead pre hsplit hend available
  rw [Replica.popUntilCatchUp]
  cases available with
  | false => simpa only [Replica.readAhead, hfile, Bool.false_eq_true, if_false] using hread
  | true =>
    simp only [Replica.readAhead, if_true, hfile] at hread ⊢
    split
    · next hmatch =>
      rcases hptr with hle | ⟨i, qs, hrest, hstart⟩
      · have hself := h.decoded (s.next wal) (hmatch.trans_le hle)
        exact absurd hself (lt_irrefl _)
      · obtain rfl : s.next wal = i :=
          wal.start_strictMono.injective (hmatch.trans hstart)
        have hqueue : s.queue = (pre ++ [.walMeta (s.next wal)]) ++ qs := by
          rw [hsplit, hrest, append_assoc]
          rfl
        have hafter : (s.cursor wal).atEnd (pre ++ [.walMeta (s.next wal)]) =
            .queue (s.next wal + 1) := by
          rw [atEnd_append, hend]
          exact if_neg (lt_irrefl _)
        rw [hrest]
        refine h.consume _ hqueue true (.inr ⟨rfl, rfl⟩) ?_
        rw [hafter, wal.seek_stop]
        exact le_refl (s.next wal + 1)
    · exact hread

theorem popFromQueue (hcatch : s.catchUp = true) :
    Inv wal first (Replica.popFromQueue wal s) := by
  obtain ⟨pre, hpre, hsplit⟩ := @popRecord_spec wal s.reader.nextRecPtr s.queue
  have hend : (s.cursor wal).atEnd pre = .queue (s.next wal) := by
    rw [atEnd_pre fun p hp => ?_, cursor, hcatch]
    · rfl
    · obtain ⟨i, rfl, hi⟩ := hpre p hp
      exact ⟨i, rfl, wal.lt_seek_iff.mpr hi⟩
  simp only [Replica.popFromQueue]
  split
  · next hnone =>
    rw [hnone] at hsplit
    refine h.consume pre hsplit s.catchUp (.inl ⟨rfl, rfl⟩) ?_
    rw [hend, hcatch]
    exact le_refl (s.next wal)
  · next i hsome =>
    rw [hsome] at hsplit
    obtain ⟨hqueue, hge⟩ := hsplit
    have hi : i = s.next wal := by
      have hflows := (flows_append.mp h.flows).1
      rw [hqueue, flows_append, hend] at hflows
      have hle : i ≤ s.next wal := hflows.2.1
      have hnot : ¬ i < s.next wal := fun hlt => (wal.lt_seek_iff.mp hlt).not_ge hge
      omega
    subst hi
    have hafter : (s.cursor wal).atEnd (pre ++ [.walMeta (s.next wal)]) =
        .queue (s.next wal + 1) := by
      rw [atEnd_append, hend]
      exact congrArg Cursor.queue (max_eq_right (Nat.le_succ _))
    rw [Wal.readRecPtr_eq]
    refine h.consume (pre ++ [.walMeta (s.next wal)]) ?_ s.catchUp (.inr ⟨rfl, rfl⟩) ?_
    · rwa [append_assoc]
    · rw [hafter, hcatch, wal.seek_stop]
      exact le_refl (s.next wal + 1)

theorem refPopAhead (available : Bool) :
    Inv wal first (Replica.refPopAhead wal available s) := by
  cases hqueue : s.queue with
  | nil =>
    simp only [Replica.refPopAhead, hqueue]
    cases hcatch : s.catchUp with
    | true => exact h
    | false =>
      have hread := h.readAhead [] hqueue (by rw [cursor, hcatch]; rfl) available
      cases available with
      | false => exact h
      | true => simpa only [Replica.readAhead, hcatch, hqueue, Bool.not_false, if_true] using hread
  | cons p ps =>
    cases p with
    | walMeta i =>
      simp only [Replica.refPopAhead, hqueue]
      cases hcatch : s.catchUp with
      | true => exact h.popFromQueue hcatch
      | false => exact h.popUntilCatchUp hcatch available
    | walStorageBegin =>
      simp only [Replica.refPopAhead, hqueue]
      exact h.readAhead [.walStorageBegin] hqueue
        (congrArg Cursor.file (level_ofMode _ _)) available

end Startup

end Inv

/-- The exit leaves no packets behind that lack a marker: it stores one itself, or the flag will
make the next position message store one, or no packet of the current message is stored yet. -/
def Op.keepsMarker (s : State) : Op → Prop
  | .exit true => s.useXlogQueue = false → ∀ p ∈ s.pushing, p.copied = 0
  | _ => True

instance (s : State) (op : Op) : Decidable (op.keepsMarker s) := by
  unfold Op.keepsMarker
  split <;> infer_instance

theorem Inv.step {wal : Wal} {first : Nat} {s t : State} {op : Op} (h : Inv wal first s)
    (hop : op.keepsMarker s) (hstep : s.step wal op = some t) : Inv wal first t := by
  cases op with
  | insert =>
    cases hstep
    exact { h with }
  | trim =>
    simp only [State.step, Option.ite_none_right_eq_some, Option.some.injEq] at hstep
    obtain ⟨-, rfl⟩ := hstep
    exact { h with }
  | evict =>
    obtain ⟨snd, hsnd, hstep⟩ := Option.bind_eq_some_iff.mp hstep
    simp only [Option.ite_none_right_eq_some, Option.some.injEq] at hstep
    obtain ⟨-, rfl⟩ := hstep
    exact h.withSender (h.sentPtr_pos snd hsnd) (h.sent snd hsnd) nofun
  | check =>
    obtain ⟨snd, hsnd, hstep⟩ := Option.bind_eq_some_iff.mp hstep
    simp only [Option.ite_none_right_eq_some, Option.some.injEq] at hstep
    obtain ⟨-, rfl⟩ := hstep
    exact h.check hsnd
  | sendQueue count =>
    obtain ⟨snd, hsnd, hstep⟩ := Option.bind_eq_some_iff.mp hstep
    simp only [Option.ite_none_right_eq_some] at hstep
    exact h.sendQueue hsnd hstep.1 hstep.2
  | sendPhysical endptr =>
    obtain ⟨snd, hsnd, hstep⟩ := Option.bind_eq_some_iff.mp hstep
    simp only [Option.ite_none_right_eq_some, Option.some.injEq] at hstep
    obtain ⟨⟨hcheck, hlt, -⟩, rfl⟩ := hstep
    exact h.sendPhysical (Nat.zero_lt_of_lt hlt) hcheck
  | receive =>
    simp only [State.step] at hstep
    split at hstep
    · next hpush hchan =>
      cases hstep
      exact h.receiveMsg hpush hchan
    · cases hstep
  | push =>
    simp only [State.step] at hstep
    split at hstep
    · next hpush =>
      cases hstep
      exact h.pushPacket hpush
    · cases hstep
  | exit shutdownRequestPending =>
    simp only [State.step, Option.ite_none_right_eq_some, Option.some.injEq] at hstep
    obtain ⟨-, rfl⟩ := hstep
    exact h.exit shutdownRequestPending fun hpending => by rw [hpending] at hop; exact hop
  | restart startPoint =>
    simp only [State.step, Option.ite_none_right_eq_some, Option.some.injEq] at hstep
    obtain ⟨⟨-, hpos, hle⟩, rfl⟩ := hstep
    exact h.restart hpos hle
  | pop available =>
    cases hstep
    exact h.refPopAhead available
  | standbyTrigger =>
    simp only [State.step, Option.ite_none_right_eq_some, Option.some.injEq] at hstep
    obtain ⟨-, rfl⟩ := hstep
    exact h.standbyTrigger

/-- In every run whose exits keep a marker, the records returned to the startup process are those
from the initial position on, each once and in order. -/
theorem got_contiguous (wal : Wal) (nextRecPtr : Nat) (s : State)
    (run : Reaches (State.step wal) (fun u op => op.keepsMarker u) (State.init nextRecPtr) s) :
    s.got = range' (wal.seek nextRecPtr) s.got.length :=
  (run.invariant (Inv wal (wal.seek nextRecPtr)) (.init nextRecPtr)
    fun _ _ _ h hop hstep => h.step hop hstep).got

/-- Records of ten bytes. -/
def tens : Wal where
  start := fun i => 10 * i + 10
  stop := fun i => 10 * i + 20
  start_pos := by decide
  start_lt_stop _ := by omega
  stop_le_start _ := by omega

/-- Records come from the file, from the queue, and, once the walreceiver was terminated and has
reconnected, from the file and the queue again. -/
def reconnected : List Op :=
  [.insert, .restart 10, .check, .evict, .sendQueue 0, .sendPhysical 20, .receive, .pop true,
    .insert, .insert, .check, .sendQueue 2, .receive, .push, .push, .pop true, .exit true,
    .trim, .trim, .trim, .insert, .restart 30, .check, .sendPhysical 50, .receive,
    .insert, .check, .sendQueue 1, .receive, .push, .pop true, .pop true, .pop true]

/-- Five records arrive in order across a reconnection. -/
theorem got_contiguous_reconnected : ∃ s : State,
    Reaches (State.step tens) (fun u op => op.keepsMarker u) (State.init 10) s ∧
      s.got = [0, 1, 2, 3, 4] ∧ s.got = range' (tens.seek 10) s.got.length := by
  obtain ⟨s, run, hgot⟩ := exists_reaches_tested (State.step tens) (fun u op => op.keepsMarker u)
    (State.init 10) reconnected (·.got = [0, 1, 2, 3, 4]) (by decide +kernel)
  exact ⟨s, run, hgot, got_contiguous tens 10 s run⟩

/-- The walreceiver is terminated after it has stored the first of two packets, the first ones
since a marker. Its successor gets a position message and then packets from further on. -/
def terminated : List Op :=
  [.insert, .restart 10, .check, .evict, .sendQueue 0, .sendPhysical 20, .receive, .pop true,
    .insert, .insert, .check, .sendQueue 2, .receive, .push, .exit true, .pop true,
    .trim, .trim, .trim, .insert, .restart 30, .check, .sendPhysical 50, .receive,
    .insert, .check, .sendQueue 1, .receive, .push, .pop true]

/-- The startup process then misses the records in between. -/
theorem got_gap_terminated : ∃ s : State,
    Reaches (State.step tens) (fun _ _ => True) (State.init 10) s ∧
      s.got = [0, 1, 4] ∧ s.got ≠ range' (tens.seek 10) s.got.length :=
  exists_reaches_any _ _ terminated _ (by decide)

end Polar.Replica
