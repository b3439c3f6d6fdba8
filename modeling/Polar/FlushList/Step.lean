import Polar.FlushList.Invariant

/-! # The steps on one buffer -/

namespace Polar.FlushList

open Function Option

variable {copyBuffers : Nat} {s t : State} {b : Nat} {buf : Buffer}

theorem Buffer.holds_congr {buf' : Buffer} (hcopy : buf'.copy = buf.copy)
    (hslot : buf'.task.slot = buf.task.slot) (hinv : buf'.invalidators = buf.invalidators)
    (c : Nat) :
    buf'.Holds c ↔ buf.Holds c := by
  simp only [Buffer.Holds, hcopy, hslot, hinv]

theorem Buffer.holds_iff (hnil : buf.invalidators = []) (c : Nat) :
    buf.Holds c ↔ buf.copy = some c ∨ buf.task.slot = some c := by
  simp [Buffer.Holds, hnil]

theorem State.resetOldest_invalidators (s : State) (b : Nat) :
    ((s.resetOldest b).buffers b).invalidators = (s.buffers b).invalidators := by
  unfold State.resetOldest
  split <;> simp [State.setBuffer]

theorem State.resetOldest_task (s : State) (b : Nat) :
    ((s.resetOldest b).buffers b).task = (s.buffers b).task := by
  unfold State.resetOldest
  split <;> simp [State.setBuffer]

theorem State.freeStep_frame (s : State) (b : Nat) (r : Release) :
    ((s.freeStep b r).1.buffers b).invalidators = (s.buffers b).invalidators ∧
      ((s.freeStep b r).1.buffers b).unwritten = (s.buffers b).unwritten ∧
      ((s.freeStep b r).1.buffers b).task = (s.buffers b).task ∧
      ((s.freeStep b r).1.buffers b).tagged = (s.buffers b).tagged := by
  unfold State.freeStep
  split
  · split <;> simp [State.setBuffer]
  all_goals exact ⟨rfl, rfl, rfl, rfl⟩

/-- A new task without a copy buffer in its hand. -/
theorem Inv.setTask (h : Inv copyBuffers s) (hnil : (s.buffers b).invalidators = []) {task : Task}
    (hslot : task.slot = (s.buffers b).task.slot)
    (htask : TaskOk s.copies { s.buffers b with task } task) :
    Change copyBuffers s (s.setTask b task) b := by
  apply h.setBuffer ((h.buffers b).setTask hnil htask)
  · exact Buffer.holds_congr rfl hslot rfl
  · rfl

section Release

/-- The copy of the buffer is being freed, by its task or by an invalidation. -/
def Buffer.Releasing (buf : Buffer) (r : Release) : Prop :=
  (∃ reset, buf.task = .release r reset ∧ buf.invalidators = [] ∧
    (reset = true → buf.unwritten = [])) ∨
  buf.task = .free ∧ buf.invalidators = [r] ∧ buf.tagged = false ∧ buf.unwritten = []

namespace Buffer.Releasing

variable {r : Release}

variable (hr : buf.Releasing r)
include hr

theorem holds_iff (c : Nat) :
    buf.Holds c ↔ buf.copy = some c ∨ r.slot = some c := by
  rcases hr with ⟨reset, htask, hnil, _⟩ | ⟨htask, hr, _⟩
  · simp [Buffer.Holds, htask, hnil, Task.slot]
  · simp [Buffer.Holds, htask, hr, Task.slot]

theorem releaseOk {insertLsn : Nat} {copies : Nat → CopyBuffer}
    (ok : BufOk insertLsn copies buf) : ReleaseOk copies buf r := by
  rcases hr with ⟨reset, htask, _⟩ | ⟨_, hr, _⟩
  · have := ok.task
    rw [htask] at this
    exact this.1
  · rcases ok.invalidated with hnil | ⟨r', hr', _, _, _, hok⟩
    · simp [hr] at hnil
    · obtain rfl : r = r' := by simpa using hr.symm.trans hr'
      exact hok

/-- Once the copy is unlinked. -/
theorem bufOk {insertLsn : Nat} {copies : Nat → CopyBuffer}
    (hcopy : buf.copy = none) (hcovered : buf.Covered)
    (oldest_le : ∀ L, buf.oldest = some L → L ≤ insertLsn) (hok : ReleaseOk copies buf r) :
    BufOk insertLsn copies buf := by
  rcases hr with ⟨reset, htask, hnil, hreset⟩ | ⟨htask, hr, htag, hun⟩
  · exact .of_copy_none hcopy hcovered oldest_le (by rw [htask]; exact ⟨hok, hreset⟩) (.inl hnil)
  · exact .of_copy_none hcopy hcovered oldest_le (by rw [htask]; trivial)
      (.inr ⟨r, hr, htag, htask, hun, hok⟩)

end Buffer.Releasing

/-- A step of `polar_free_copy_buffer`; `f` notes in the buffer how far it is. -/
theorem Inv.freeStep (h : Inv copyBuffers s) {r : Release} (hr : (s.buffers b).Releasing r)
    (hne : r ≠ .freed) (f : Buffer → Buffer) (oldest : ∀ buf, (f buf).oldest = buf.oldest)
    (copy : ∀ buf, (f buf).copy = buf.copy) (unwritten : ∀ buf, (f buf).unwritten = buf.unwritten)
    (hr' : (f ((s.freeStep b r).1.buffers b)).Releasing (s.freeStep b r).2) :
    Change copyBuffers s ((s.freeStep b r).1.setBuffer b (f ((s.freeStep b r).1.buffers b))) b := by
  have ok := h.buffers b
  have hok := hr.releaseOk ok
  have hcovered : ∀ buf' : Buffer, buf'.oldest = (s.buffers b).oldest →
      buf'.unwritten = (s.buffers b).unwritten → (s.buffers b).Covered → buf'.Covered := by
    intro buf' ho hu hcov m hm
    rw [ho]
    exact hcov m (hu ▸ hm)
  cases r with
  | freeCopy =>
    cases hc : (s.buffers b).copy with
    | none =>
      simp only [State.freeStep, hc] at hr' ⊢
      apply h.setBuffer
      · exact hr'.bufOk ((copy _).trans hc) (hcovered _ (oldest _) (unwritten _) hok)
          (by rw [oldest]; exact ok.oldest_le) ((copy _).trans hc)
      · intro x
        rw [hr'.holds_iff, hr.holds_iff, copy]
        rfl
      · exact oldest _
    | some c =>
      simp only [State.freeStep, hc, State.setBuffer, update_self,
        update_idem] at hr' ⊢
      obtain ⟨C, L, _, hL, _⟩ := ok.linked c hc
      apply h.setBuffer
      · exact hr'.bufOk (copy _) (hcovered _ (oldest _) (unwritten _) hok)
          (by rw [oldest]; exact ok.oldest_le) ⟨copy _, by rw [oldest]; simp [hL]⟩
      · intro x
        rw [hr'.holds_iff, hr.holds_iff, copy, hc]
        simp [Release.slot]
      · exact oldest _
  | freeOldest c =>
    apply h.setCopy
    · exact hr'.bufOk ((copy _).trans hok.1)
        (hcovered _ (oldest _) (unwritten _) (ok.covered_of_copy_none hok.1))
        (by rw [oldest]; exact ok.oldest_le) ⟨(copy _).trans hok.1, by simp⟩
    · exact oldest _
    · exact .inl ((hr.holds_iff c).mpr (.inr rfl))
    · intro x _
      rw [hr'.holds_iff, hr.holds_iff, copy]
      rfl
    · intro _
      exact (h.used b c ((hr.holds_iff c).mpr (.inr rfl))).1
    · rintro C ⟨⟩
  | freeSlot c =>
    simp only [State.freeStep] at hr' ⊢
    apply h.setCopy
    · exact hr'.bufOk ((copy _).trans hok.1)
        (hcovered _ (oldest _) (unwritten _) (ok.covered_of_copy_none hok.1))
        (by rw [oldest]; exact ok.oldest_le) ((copy _).trans hok.1)
    · exact oldest _
    · exact .inl ((hr.holds_iff c).mpr (.inr rfl))
    · intro x hx
      rw [hr'.holds_iff, hr.holds_iff, copy]
      simp [State.setCopy, Release.slot, Ne.symm hx]
    · intro hc
      rw [hr'.holds_iff, copy] at hc
      simp [State.setCopy, hok.1, Release.slot] at hc
    · intro C hC
      exact absurd (hok.2.symm.trans hC) (by simp)
  | freed => exact absurd rfl hne

/-- The end of a flush or of an invalidation: the buffer leaves its list. -/
theorem Inv.resetOldest (h : Inv copyBuffers s) (hr : (s.buffers b).Releasing .freed)
    (hun : (s.buffers b).unwritten = []) (f : Buffer → Buffer)
    (hf : ∀ buf, (f buf).oldest = buf.oldest ∧ (f buf).copy = buf.copy ∧
      (f buf).unwritten = buf.unwritten)
    (hend : (f ((s.resetOldest b).buffers b)).task = .free ∧
      (f ((s.resetOldest b).buffers b)).invalidators = []) :
    Change copyBuffers s ((s.resetOldest b).setBuffer b (f ((s.resetOldest b).buffers b))) b := by
  have hcopy : (s.buffers b).copy = none := hr.releaseOk (h.buffers b)
  have hs : ∀ c, ¬ (s.buffers b).Holds c := by
    intro c
    simp [hr.holds_iff, hcopy, Release.slot]
  have done : ∀ buf' : Buffer, buf'.copy = none → buf'.unwritten = [] → buf'.oldest = none →
      buf'.task = .free ∧ buf'.invalidators = [] →
      BufOk s.insertLsn s.copies buf' ∧ ∀ c, ¬ buf'.Holds c := by
    intro buf' hc hu ho he
    constructor
    · exact .of_copy_none hc (by simp [Buffer.Covered, hu]) (by simp [ho])
        (by rw [he.1]; trivial) (.inl he.2)
    · intro c
      simp [Buffer.holds_iff he.2, hc, he.1, Task.slot]
  cases ho : (s.buffers b).oldest with
  | none =>
    simp only [State.resetOldest, ho] at hend ⊢
    obtain ⟨ok, hnot⟩ := done (f (s.buffers b)) ((hf _).2.1.trans hcopy)
      ((hf _).2.2.trans hun) ((hf _).1.trans ho) hend
    exact h.setBuffer ok (fun c => iff_of_false (hnot c) (hs c)) (hf _).1
  | some L =>
    simp only [State.resetOldest, ho, State.setBuffer, State.setList, update_self,
      update_idem] at hend ⊢
    obtain ⟨ok, hnot⟩ := done (f { s.buffers b with oldest := none, touched := false })
      ((hf _).2.1.trans hcopy) ((hf _).2.2.trans hun) (hf _).1 hend
    have hkey : (f { s.buffers b with oldest := none, touched := false }).oldest = none :=
      (hf _).1
    exact h.setOldest ok (fun c => iff_of_false (hnot c) (hs c))
      (.inr ⟨hkey, fun c hc => absurd hc (hnot c)⟩) (hkey.symm ▸ h.lists.remove)

end Release

section Dirty

/-- The buffer becomes dirty and enters its list. -/
theorem Inv.markDirty (h : Inv copyBuffers s)
    (htask : (s.buffers b).task = .locked ∨ (s.buffers b).task = .dirtied) :
    Change copyBuffers s (s.markDirty b) b := by
  have ok := h.buffers b
  have hnil : (s.buffers b).invalidators = [] := by
    apply ok.invalidators_nil_of_task
    rcases htask with ht | ht <;> simp [ht]
  have hslot : (s.buffers b).task.slot = none := by
    rcases htask with ht | ht <;> simp [ht, Task.slot]
  have setTask : ∀ task : Task, task.slot = none →
      TaskOk s.copies { s.buffers b with dirty := true, task } task →
      Change copyBuffers s (s.setBuffer b { s.buffers b with dirty := true, task }) b := by
    intro task hs hok
    apply h.setBuffer
    · exact { ok with dirty := fun _ _ => rfl, task := hok, invalidated := .inl hnil }
    · exact Buffer.holds_congr rfl (hs.trans hslot.symm) rfl
    · rfl
  simp only [State.markDirty, State.putBuffer, State.setTask, State.setBuffer, State.setList,
    update_self, update_idem]
  split
  · next ho =>
    have hcopy : (s.buffers b).copy = none := by
      cases hc : (s.buffers b).copy with
      | none => rfl
      | some c =>
        obtain ⟨C, L, _, hL, _⟩ := ok.linked c hc
        exact absurd (ho.symm.trans hL) (by simp)
    have hok : BufOk s.insertLsn s.copies
        { s.buffers b with dirty := true, oldest := some s.insertLsn, task := .dirtied } := by
      refine BufOk.of_copy_none ?_ ?_ ?_ ?_ ?_
      · exact hcopy
      · intro m hm
        obtain ⟨L, hL, _⟩ := ok.covered_of_copy_none hcopy m hm
        exact absurd (ho.symm.trans hL) (by simp)
      · intro L hL
        exact (some.inj hL).ge
      · exact ⟨rfl, .inl hcopy⟩
      · exact .inl hnil
    have holds : ∀ c, Buffer.Holds
        { s.buffers b with dirty := true, oldest := some s.insertLsn, task := .dirtied } c ↔
          (s.buffers b).Holds c :=
      Buffer.holds_congr rfl hslot.symm rfl
    exact h.setOldest hok holds (.inl rfl) (h.lists.put ho h.oldest_le)
  · next ho =>
    have hsome : (s.buffers b).oldest.isSome := isSome_iff_ne_none.mpr ho
    split
    · next hfirst => exact setTask .touching rfl hfirst
    · next hfirst =>
      apply setTask .dirtied rfl
      refine ⟨hsome, ?_⟩
      by_cases hc : (s.buffers b).copy = none
      · exact .inl hc
      · refine .inr ?_
        by_contra htouched
        exact hfirst ⟨isSome_iff_ne_none.mpr hc, Bool.eq_false_iff.mpr htouched⟩

/-- The bound of the copy takes over before the buffer gets a new one. -/
theorem BufOk.adjust {insertLsn : Nat} {copies : Nat → CopyBuffer}
    (ok : BufOk insertLsn copies buf) (hcopy : buf.copy.isSome) (htouched : buf.touched = false)
    (hnil : buf.invalidators = []) :
    BufOk insertLsn copies { buf with oldest := some insertLsn, task := .adjusted } where
  bounded m hm := by
    obtain ⟨c, hc⟩ := isSome_iff_exists.mp hcopy
    obtain ⟨C, L, hC, hL, hle⟩ := ok.linked c hc
    refine .inr ⟨c, C, hc, hC, ?_⟩
    rcases ok.bounded m hm with ⟨L', hL', hm⟩ | ⟨c', C', hc', hC', hm⟩
    · obtain rfl : L = L' := some.inj (hL.symm.trans hL')
      exact hle.trans hm
    · obtain rfl : c = c' := some.inj (hc.symm.trans hc')
      exact some.inj (hC.symm.trans hC') ▸ hm
  linked c hc := by
    obtain ⟨C, L, hC, hL, hle⟩ := ok.linked c hc
    exact ⟨C, insertLsn, hC, rfl, hle.trans (ok.oldest_le L hL)⟩
  fresh c hc m hm hnot :=
    absurd ((ok.fresh c hc m hm hnot).1.symm.trans htouched) (by decide)
  oldest_le L hL := (some.inj hL).ge
  dirty := ok.dirty
  task := ⟨rfl, htouched⟩
  invalidated := .inl hnil

theorem Inv.adjustPosition (h : Inv copyBuffers s) (htask : (s.buffers b).task = .touching) :
    Change copyBuffers s (s.adjustPosition b) b := by
  have ok := h.buffers b
  have hnil := ok.invalidators_nil_of_task (by simp [htask])
  have hok := ok.task
  rw [htask] at hok
  have holds : ∀ c, Buffer.Holds
      { s.buffers b with oldest := some s.insertLsn, task := .adjusted } c ↔
        (s.buffers b).Holds c :=
    Buffer.holds_congr rfl (by rw [htask]; rfl) rfl
  simp only [State.adjustPosition]
  split
  · next hlast =>
    exact h.setOldest (ok.adjust hok.1 hok.2 hnil) holds (.inl rfl)
      (h.lists.raise hlast h.oldest_le)
  · exact h.setOldest (ok.adjust hok.1 hok.2 hnil) holds (.inl rfl) (h.lists.move h.oldest_le)

end Dirty

section Tasks

variable (h : Inv copyBuffers s)
include h

/-- Linking the copy: from now on it bounds what it has. -/
theorem Inv.link {c : Nat} (htask : (s.buffers b).task = .copyOldest c) :
    Change copyBuffers s (s.setBuffer b { s.buffers b with copy := some c, task := .free }) b := by
  have ok := h.buffers b
  have hnil := ok.invalidators_nil_of_task (by simp [htask])
  have hok := ok.task
  rw [htask] at hok
  obtain ⟨hdirty, hcopy, hsome, hmods, hold⟩ := hok
  obtain ⟨L, hL⟩ := isSome_iff_exists.mp hsome
  apply h.setBuffer
  · constructor
    · intro m hm
      exact .inl (ok.covered_of_copy_none hcopy m hm)
    · intro c' hc'
      obtain rfl : c = c' := some.inj hc'
      exact ⟨L, L, hold.trans hL, hL, le_rfl⟩
    · intro c' hc' m hm hnot
      obtain rfl : c = c' := some.inj hc'
      exact absurd (hmods ▸ hm) hnot
    · exact ok.oldest_le
    · exact fun _ _ => hdirty
    · trivial
    · exact .inl hnil
  · intro x
    simp [Buffer.Holds, htask, hcopy, Task.slot]
  · rfl

/-- A page write with `written` in it leaves the rest, which the buffer covers. -/
theorem Inv.write {unwritten : List Nat} {reset : Bool}
    (hnil : (s.buffers b).invalidators = []) (hslot : (s.buffers b).task.slot = none)
    (hsub : unwritten ⊆ (s.buffers b).unwritten)
    (hcovered : Buffer.Covered { s.buffers b with unwritten })
    (hreset : reset = true → unwritten = []) :
    Change copyBuffers s (s.setBuffer b
      { s.buffers b with unwritten, task := .release .freeCopy reset }) b := by
  have ok := h.buffers b
  apply h.setBuffer
  · exact ⟨fun m hm => ok.bounded m (hsub hm), ok.linked, fun c hc m hm => ok.fresh c hc m (hsub hm),
      ok.oldest_le, ok.dirty, ⟨hcovered, hreset⟩, .inl hnil⟩
  · exact Buffer.holds_congr rfl hslot.symm rfl
  · rfl

/-- Whoever works on the buffer goes on. -/
theorem Inv.nextTask (hs : s.nextTask b = some t) :
    Change copyBuffers s t b := by
  have ok := h.buffers b
  have hok := ok.task
  have hnil : (s.buffers b).task ≠ .free → (s.buffers b).invalidators = [] :=
    ok.invalidators_nil_of_task
  cases htask : (s.buffers b).task <;> simp only [htask, State.nextTask] at hs hok hnil
  case free => cases hs
  case locked => cases hs
  case dirtied => cases hs
  case touching =>
    cases hs
    exact h.adjustPosition htask
  case adjusted =>
    cases hs
    apply h.setBuffer
    · refine { ok with
        fresh := ?_, task := ⟨hok.1, .inr rfl⟩, invalidated := .inl (hnil (by simp)) }
      intro c hc m hm hnot
      exact absurd ((ok.fresh c hc m hm hnot).1.symm.trans hok.2) (by decide)
    · exact Buffer.holds_congr rfl (by rw [htask]; rfl) rfl
    · rfl
  case copyTaken c =>
    cases hs
    obtain ⟨hdirty, hcopy, hsome, hnone⟩ := hok
    have hheld : (s.buffers b).Holds c := .inr (.inl (by simp [htask, Task.slot]))
    apply h.setCopy
    · exact .of_copy_none hcopy (ok.covered_of_copy_none hcopy) ok.oldest_le
        ⟨hdirty, hcopy, hsome, by simp [State.setCopy]⟩ (.inl (hnil (by simp)))
    · rfl
    · exact .inl hheld
    · intro x _
      apply Buffer.holds_congr
      · rfl
      · rw [htask]
        rfl
      · rfl
    · intro _
      exact (h.used b c hheld).1
    · intro C hC
      exact absurd (hnone.symm.trans hC) (by simp)
  case copyContent c =>
    cases hs
    obtain ⟨hdirty, hcopy, hsome, hmods⟩ := hok
    have hheld : (s.buffers b).Holds c := .inr (.inl (by simp [htask, Task.slot]))
    apply h.setCopy
    · exact .of_copy_none hcopy (ok.covered_of_copy_none hcopy) ok.oldest_le
        ⟨hdirty, hcopy, hsome, by simpa [State.setCopy] using hmods, by simp [State.setCopy]⟩
        (.inl (hnil (by simp)))
    · rfl
    · exact .inl hheld
    · intro x _
      apply Buffer.holds_congr
      · rfl
      · rw [htask]
        rfl
      · rfl
    · intro _
      exact (h.used b c hheld).1
    · intro C hC
      exact ⟨.inr (.inl rfl), hC⟩
  case copyOldest c =>
    cases hs
    exact h.link htask
  case copyFlush =>
    obtain ⟨c, hc, rfl⟩ := map_eq_some_iff.mp hs
    apply h.write (hnil (by simp)) (by simp [htask, Task.slot])
    · exact List.filter_subset_self _
    · intro m hm
      obtain ⟨hm, hnot⟩ := List.mem_filter.mp hm
      exact (ok.fresh c hc m hm (by simpa using hnot)).2
    · simp
  case flush =>
    cases hs
    exact h.write (hnil (by simp)) (by simp [htask, Task.slot]) (List.nil_subset _)
      (by simp [Buffer.Covered]) (fun _ => rfl)
  case release r reset =>
    have hr : (s.buffers b).Releasing r := .inl ⟨reset, htask, hnil (by simp), hok.2⟩
    by_cases hfreed : r = .freed
    · subst hfreed
      cases reset with
      | false =>
        cases hs
        exact h.setTask (hnil (by simp)) (by simp [htask, Task.slot, Release.slot]) trivial
      | true =>
        cases hs
        apply h.resetOldest hr (hok.2 rfl) (fun buf => { buf with dirty := false, task := .free })
        · exact fun _ => ⟨rfl, rfl, rfl⟩
        · exact ⟨rfl, (State.resetOldest_invalidators s b).trans (hnil (by simp))⟩
    · have hs' : (s.freeStep b r).1.setTask b (.release (s.freeStep b r).2 reset) = t := by
        cases r with
        | freed => exact absurd rfl hfreed
        | freeCopy | freeOldest c | freeSlot c => simpa using hs
      subst hs'
      apply h.freeStep hr hfreed (fun buf => { buf with task := .release (s.freeStep b r).2 reset })
        (fun _ => rfl) (fun _ => rfl) (fun _ => rfl)
      obtain ⟨hinv, hun, _⟩ := State.freeStep_frame s b r
      exact .inl ⟨reset, rfl, hinv.trans (hnil (by simp)), fun e => hun.trans (hok.2 e)⟩

/-- A step of an invalidation: it is the only one, and it is alone with the buffer. -/
theorem Inv.invalidatorStep {k : Nat} {r : Release} (hk : (s.buffers b).invalidators[k]? = some r) :
    Change copyBuffers s (s.invalidatorStep b k r) b := by
  have ok := h.buffers b
  rcases ok.invalidated with hnil | ⟨r', hr', htag, htask, hun, _⟩
  · simp [hnil] at hk
  · have hk0 : k = 0 ∧ r' = r := by
      rw [hr'] at hk
      cases k with
      | zero => exact ⟨rfl, by simpa using hk⟩
      | succ k => simp at hk
    obtain ⟨rfl, rfl⟩ := hk0
    have hr : (s.buffers b).Releasing r' := .inr ⟨htask, hr', htag, hun⟩
    by_cases hfreed : r' = .freed
    · subst hfreed
      apply h.resetOldest hr hun
        (fun buf => { buf with invalidators := buf.invalidators.eraseIdx 0 })
      · exact fun _ => ⟨rfl, rfl, rfl⟩
      · rw [State.resetOldest_invalidators, hr']
        exact ⟨(State.resetOldest_task s b).trans htask, rfl⟩
    · have hstep : s.invalidatorStep b 0 r' = (s.freeStep b r').1.setBuffer b
          { (s.freeStep b r').1.buffers b with
            invalidators := ((s.freeStep b r').1.buffers b).invalidators.set 0
              (s.freeStep b r').2 } := by
        cases r' with
        | freed => exact absurd rfl hfreed
        | freeCopy | freeOldest c | freeSlot c => rfl
      rw [hstep]
      apply h.freeStep hr hfreed
        (fun buf => { buf with invalidators := buf.invalidators.set 0 (s.freeStep b r').2 })
        (fun _ => rfl) (fun _ => rfl) (fun _ => rfl)
      obtain ⟨hinv, hun', htask', htag'⟩ := State.freeStep_frame s b r'
      refine .inr ⟨htask'.trans htask, ?_, htag'.trans htag, hun'.trans hun⟩
      rw [hinv, hr']
      rfl

end Tasks

end Polar.FlushList
