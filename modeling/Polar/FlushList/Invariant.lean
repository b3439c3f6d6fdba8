import Polar.FlushList.Lists

/-!
# What holds of a buffer while its task runs

The modifications of a buffer that are not on storage are bounded from below by the oldest LSN of
the buffer or by that of its copy. A copy buffer has one holder: the buffer it is linked to, or the
one whose task or invalidation has taken it and not yet given it back.
-/

namespace Polar.FlushList

open Function

/-- The copy buffer that is being freed and is not linked any more. -/
def Release.slot : Release → Option Nat
  | .freeCopy | .freed => none
  | .freeOldest c | .freeSlot c => some c

/-- The copy buffer that the task has in hand. -/
def Task.slot : Task → Option Nat
  | .copyTaken c | .copyContent c | .copyOldest c => some c
  | .release r _ => r.slot
  | _ => none

/-- The copy buffer belongs to the buffer, or to who works on it. -/
def Buffer.Holds (buf : Buffer) (c : Nat) : Prop :=
  buf.copy = some c ∨ buf.task.slot = some c ∨ ∃ r ∈ buf.invalidators, r.slot = some c

/-- The oldest LSN of the buffer bounds its unwritten modifications. -/
def Buffer.Covered (buf : Buffer) : Prop :=
  ∀ m ∈ buf.unwritten, ∃ L, buf.oldest = some L ∧ L ≤ m

/-- What holds of a buffer whose copy is being freed. -/
def ReleaseOk (copies : Nat → CopyBuffer) (buf : Buffer) : Release → Prop
  | .freeCopy => buf.Covered
  | .freeOldest _ => buf.copy = none ∧ buf.oldest.isSome
  | .freeSlot c => buf.copy = none ∧ (copies c).oldest = none
  | .freed => buf.copy = none

/-- What holds of a task. -/
def TaskOk (copies : Nat → CopyBuffer) (buf : Buffer) : Task → Prop
  | .free | .locked | .flush => True
  | .touching => buf.copy.isSome ∧ buf.touched = false
  | .adjusted => buf.oldest.isSome ∧ buf.touched = false
  | .dirtied => buf.oldest.isSome ∧ (buf.copy = none ∨ buf.touched = true)
  | .copyTaken c => buf.dirty ∧ buf.copy = none ∧ buf.oldest.isSome ∧ (copies c).oldest = none
  | .copyContent c =>
    buf.dirty ∧ buf.copy = none ∧ buf.oldest.isSome ∧ (copies c).modifications = buf.unwritten
  | .copyOldest c =>
    buf.dirty ∧ buf.copy = none ∧ buf.oldest.isSome ∧
      (copies c).modifications = buf.unwritten ∧ (copies c).oldest = buf.oldest
  | .copyFlush => buf.copy.isSome
  | .release r reset => ReleaseOk copies buf r ∧ (reset = true → buf.unwritten = [])

/-- An oldest LSN stands for each unwritten modification. -/
structure BufOk (insertLsn : Nat) (copies : Nat → CopyBuffer) (buf : Buffer) : Prop where
  bounded : ∀ m ∈ buf.unwritten, (∃ L, buf.oldest = some L ∧ L ≤ m) ∨
    ∃ c C, buf.copy = some c ∧ (copies c).oldest = some C ∧ C ≤ m
  linked : ∀ c, buf.copy = some c →
    ∃ C L, (copies c).oldest = some C ∧ buf.oldest = some L ∧ C ≤ L
  /-- A modification that the copy does not have came after the first touch. -/
  fresh : ∀ c, buf.copy = some c → ∀ m ∈ buf.unwritten, m ∉ (copies c).modifications →
    buf.touched = true ∧ ∃ L, buf.oldest = some L ∧ L ≤ m
  oldest_le : ∀ L, buf.oldest = some L → L ≤ insertLsn
  dirty : buf.invalidators = [] → buf.copy.isSome → buf.dirty = true
  task : TaskOk copies buf buf.task
  /-- While the buffer is being invalidated, nobody else works on it. -/
  invalidated : buf.invalidators = [] ∨ ∃ r, buf.invalidators = [r] ∧ buf.tagged = false ∧
    buf.task = .free ∧ buf.unwritten = [] ∧ ReleaseOk copies buf r

namespace BufOk

variable {insertLsn : Nat} {copies copies' : Nat → CopyBuffer} {buf : Buffer}

theorem init : BufOk insertLsn copies .init where
  bounded := by simp [Buffer.init]
  linked := by simp [Buffer.init]
  fresh := by simp [Buffer.init]
  oldest_le := by simp [Buffer.init]
  dirty := by simp [Buffer.init]
  task := trivial
  invalidated := .inl rfl

section

variable (h : BufOk insertLsn copies buf)
include h

/-- A buffer depends on the copy buffers it holds only, and the WAL may grow. -/
theorem frame {insertLsn' : Nat} (hle : insertLsn ≤ insertLsn')
    (hcopies : ∀ c, buf.Holds c → copies' c = copies c) : BufOk insertLsn' copies' buf := by
  have release : ∀ r, (∀ c, r.slot = some c → buf.Holds c) →
      ReleaseOk copies buf r → ReleaseOk copies' buf r := by
    intro r hr hok
    cases r with
    | freeCopy | freeOldest c | freed => exact hok
    | freeSlot c => exact ⟨hok.1, by rw [hcopies c (hr c rfl)]; exact hok.2⟩
  have slot : ∀ c, buf.task.slot = some c → copies' c = copies c :=
    fun c hc => hcopies c (.inr (.inl hc))
  constructor
  · intro m hm
    rcases h.bounded m hm with hL | ⟨c, C, hc, hC, hle⟩
    · exact .inl hL
    · exact .inr ⟨c, C, hc, by rwa [hcopies c (.inl hc)], hle⟩
  · intro c hc
    rw [hcopies c (.inl hc)]
    exact h.linked c hc
  · intro c hc
    rw [hcopies c (.inl hc)]
    exact h.fresh c hc
  · intro L hL
    exact (h.oldest_le L hL).trans hle
  · exact h.dirty
  · have htask := h.task
    cases hbuf : buf.task <;> simp only [hbuf, TaskOk] at htask ⊢ <;> try exact htask
    case copyTaken c => rwa [slot c (by simp [hbuf, Task.slot])]
    case copyContent c => rwa [slot c (by simp [hbuf, Task.slot])]
    case copyOldest c => rwa [slot c (by simp [hbuf, Task.slot])]
    case release r reset =>
      exact ⟨release r (fun c hc => .inr (.inl (by simp [hbuf, Task.slot, hc]))) htask.1, htask.2⟩
  · rcases h.invalidated with hnil | ⟨r, hr, htag, htask, hun, hok⟩
    · exact .inl hnil
    · exact .inr ⟨r, hr, htag, htask, hun,
        release r (fun c hc => .inr (.inr ⟨r, by simp [hr], hc⟩)) hok⟩

theorem invalidators_nil_of_task (htask : buf.task ≠ .free) : buf.invalidators = [] := by
  rcases h.invalidated with hnil | ⟨r, _, _, hfree, _⟩
  · exact hnil
  · exact absurd hfree htask

theorem invalidators_nil_of_tagged (htag : buf.tagged = true) : buf.invalidators = [] := by
  rcases h.invalidated with hnil | ⟨r, _, hfalse, _⟩
  · exact hnil
  · exact absurd (htag.symm.trans hfalse) (by decide)

/-- Only the task changes, and no copy buffer is in its hand before or after. -/
theorem setTask (hnil : buf.invalidators = []) {task : Task}
    (htask : TaskOk copies { buf with task } task) :
    BufOk insertLsn copies { buf with task } where
  bounded := h.bounded
  linked := h.linked
  fresh := h.fresh
  oldest_le := h.oldest_le
  dirty := h.dirty
  task := htask
  invalidated := .inl hnil

end

/-- Without a copy, the oldest LSN of the buffer has to cover everything. -/
theorem of_copy_none (hcopy : buf.copy = none) (hcovered : buf.Covered)
    (oldest_le : ∀ L, buf.oldest = some L → L ≤ insertLsn) (task : TaskOk copies buf buf.task)
    (invalidated : buf.invalidators = [] ∨ ∃ r, buf.invalidators = [r] ∧ buf.tagged = false ∧
      buf.task = .free ∧ buf.unwritten = [] ∧ ReleaseOk copies buf r) :
    BufOk insertLsn copies buf where
  bounded m hm := .inl (hcovered m hm)
  linked := by simp [hcopy]
  fresh := by simp [hcopy]
  oldest_le := oldest_le
  dirty := by simp [hcopy]
  task := task
  invalidated := invalidated

/-- Without a copy that covers modifications, the buffer itself covers them. -/
theorem covered_of_copy_none (h : BufOk insertLsn copies buf) (hcopy : buf.copy = none) :
    buf.Covered := by
  intro m hm
  rcases h.bounded m hm with hL | ⟨c, C, hc, _⟩
  · exact hL
  · exact absurd (hcopy.symm.trans hc) (by simp)

end BufOk

/-- What every run keeps of the flush lists and the copy buffers. -/
structure Inv (copyBuffers : Nat) (s : State) : Prop where
  buffers : ∀ b, BufOk s.insertLsn s.copies (s.buffers b)
  /-- A copy buffer with an oldest LSN belongs to a buffer in a flush list. -/
  holder : ∀ c C, (s.copies c).oldest = some C →
    ∃ b, (s.buffers b).Holds c ∧ (s.buffers b).oldest.isSome
  used : ∀ b c, (s.buffers b).Holds c → (s.copies c).used = true ∧ c < copyBuffers
  exclusive : ∀ a b c, (s.buffers a).Holds c → (s.buffers b).Holds c → a = b
  lists : ListsOk s.lists fun b => (s.buffers b).oldest

theorem Inv.init (copyBuffers insertLsn consistentLsn : Nat) :
    Inv copyBuffers (.init insertLsn consistentLsn) where
  buffers _ := .init
  holder := by simp [State.init, CopyBuffer.init]
  used := by simp [State.init, Buffer.init, Buffer.Holds, Task.slot]
  exclusive := by simp [State.init, Buffer.init, Buffer.Holds, Task.slot]
  lists := .init

section

variable {copyBuffers : Nat}

theorem Inv.oldest_le {s : State} (h : Inv copyBuffers s) (b L : Nat)
    (hL : (s.buffers b).oldest = some L) :
    L ≤ s.insertLsn :=
  (h.buffers b).oldest_le L hL

/-- The copy buffers that a step on `b` may change: its own ones and the free ones. -/
def State.Mine (copyBuffers : Nat) (s : State) (b c : Nat) : Prop :=
  (s.buffers b).Holds c ∨ (s.copies c).used = false ∧ c < copyBuffers

/-- What a step on buffer `b` can do. -/
structure Change (copyBuffers : Nat) (s t : State) (b : Nat) : Prop where
  insertLsn : t.insertLsn = s.insertLsn
  consistentLsn : t.consistentLsn = s.consistentLsn
  calcs : t.calcs = s.calcs
  panicked : t.panicked = s.panicked
  others : ∀ x, x ≠ b → t.buffers x = s.buffers x
  copies : ∀ c, t.copies c = s.copies c ∨ s.Mine copyBuffers b c
  ok : BufOk t.insertLsn t.copies (t.buffers b)
  held : ∀ c, (t.buffers b).Holds c → (t.copies c).used = true ∧ s.Mine copyBuffers b c
  kept : ∀ c C, s.Mine copyBuffers b c → (t.copies c).oldest = some C →
    (t.buffers b).Holds c ∧ (t.buffers b).oldest.isSome
  lists : ListsOk t.lists fun x => (t.buffers x).oldest
  /-- A new oldest LSN of the buffer is the insert position. -/
  oldest : ∀ L, (t.buffers b).oldest = some L → (s.buffers b).oldest = some L ∨ L = s.insertLsn
  /-- A new oldest LSN of a copy is that of the buffer. -/
  copied : ∀ c C, (t.copies c).oldest = some C →
    (s.copies c).oldest = some C ∨ (s.buffers b).oldest = some C

/-- Nobody else holds a copy buffer that a step on `b` may change. -/
theorem Inv.not_mine {s : State} (h : Inv copyBuffers s) {a b c : Nat} (hne : a ≠ b)
    (ha : (s.buffers a).Holds c) : ¬ s.Mine copyBuffers b c := by
  rintro (hb | ⟨hfree, _⟩)
  · exact hne (h.exclusive a b c ha hb)
  · exact absurd ((h.used a c ha).1.symm.trans hfree) (by decide)

/-- A copy buffer with an oldest LSN that a step on `b` may change is held by `b`. -/
theorem Inv.holds_of_mine {s : State} (h : Inv copyBuffers s) {b c C : Nat}
    (hmine : s.Mine copyBuffers b c) (hC : (s.copies c).oldest = some C) :
    (s.buffers b).Holds c ∧ (s.buffers b).oldest.isSome := by
  obtain ⟨a, ha, hsome⟩ := h.holder c C hC
  by_cases hab : a = b
  · exact hab ▸ ⟨ha, hsome⟩
  · exact absurd hmine (h.not_mine hab ha)

/-- A change of one buffer keeps the invariant. -/
theorem Inv.change {s t : State} {b : Nat} (h : Inv copyBuffers s) (d : Change copyBuffers s t b) :
    Inv copyBuffers t := by
  have copies_other : ∀ a c, a ≠ b → (t.buffers a).Holds c →
      (s.buffers a).Holds c ∧ t.copies c = s.copies c := by
    intro a c hab ha
    rw [d.others a hab] at ha
    exact ⟨ha, (d.copies c).resolve_right (h.not_mine hab ha)⟩
  constructor
  · intro a
    by_cases hab : a = b
    · subst hab
      exact d.ok
    · rw [d.others a hab]
      apply (h.buffers a).frame d.insertLsn.ge
      intro c hc
      exact (copies_other a c hab (by rwa [d.others a hab])).2
  · intro c C hC
    rcases d.copies c with heq | hmine
    · obtain ⟨a, ha, hsome⟩ := h.holder c C (heq ▸ hC)
      by_cases hab : a = b
      · subst hab
        exact ⟨a, d.kept c C (.inl ha) hC⟩
      · exact ⟨a, by rw [d.others a hab]; exact ⟨ha, hsome⟩⟩
    · exact ⟨b, d.kept c C hmine hC⟩
  · intro a c ha
    by_cases hab : a = b
    · subst hab
      refine ⟨(d.held c ha).1, ?_⟩
      rcases (d.held c ha).2 with hs | hfree
      · exact (h.used a c hs).2
      · exact hfree.2
    · obtain ⟨hs, heq⟩ := copies_other a c hab ha
      rw [heq]
      exact h.used a c hs
  · intro a a' c ha ha'
    by_cases hab : a = b
    · subst hab
      by_contra hne
      exact h.not_mine (Ne.symm hne) (copies_other a' c (Ne.symm hne) ha').1 (d.held c ha).2
    · have hs := (copies_other a c hab ha).1
      by_cases hab' : a' = b
      · subst hab'
        exact absurd (d.held c ha').2 (h.not_mine hab hs)
      · exact h.exclusive a a' c hs (copies_other a' c hab' ha').1
  · exact d.lists

variable {s : State} {b : Nat} {buf : Buffer}

theorem oldest_setBuffer (s : State) (b : Nat) (buf : Buffer) :
    (fun x => ((s.setBuffer b buf).buffers x).oldest) =
      update (fun x => (s.buffers x).oldest) b buf.oldest := by
  funext x
  exact apply_update (fun _ => Buffer.oldest) s.buffers b buf x

variable (h : Inv copyBuffers s)
include h

/-- A step that leaves the copy buffers as they are. -/
theorem Inv.setLists {lists : Nat → List Nat}
    (ok : BufOk s.insertLsn s.copies buf) (holds : ∀ c, buf.Holds c ↔ (s.buffers b).Holds c)
    (oldest : ∀ L, buf.oldest = some L → (s.buffers b).oldest = some L ∨ L = s.insertLsn)
    (kept : (s.buffers b).oldest.isSome → ∀ c, buf.Holds c → (s.copies c).oldest.isSome →
      buf.oldest.isSome)
    (hlists : ListsOk lists (update (fun x => (s.buffers x).oldest) b buf.oldest)) :
    Change copyBuffers s (State.setBuffer { s with lists } b buf) b where
  insertLsn := rfl
  consistentLsn := rfl
  calcs := rfl
  panicked := rfl
  others _ hx := update_of_ne hx ..
  copies _ := .inl rfl
  ok := by simpa only [State.setBuffer, update_self] using ok
  held c hc := by
    simp only [State.setBuffer, update_self] at hc
    have hs := (holds c).mp hc
    exact ⟨(h.used b c hs).1, .inl hs⟩
  kept c C hmine hC := by
    simp only [State.setBuffer, update_self]
    obtain ⟨hs, hsome⟩ := h.holds_of_mine hmine hC
    have hbuf := (holds c).mpr hs
    exact ⟨hbuf, kept hsome c hbuf (Option.isSome_of_eq_some hC)⟩
  lists := oldest_setBuffer { s with lists } b buf ▸ hlists
  oldest L hL := by
    simp only [State.setBuffer, update_self] at hL
    exact oldest L hL
  copied _ _ hC := .inl hC

/-- A step that leaves the oldest LSN, the lists and the copy buffers as they are. -/
theorem Inv.setBuffer (ok : BufOk s.insertLsn s.copies buf)
    (holds : ∀ c, buf.Holds c ↔ (s.buffers b).Holds c)
    (oldest : buf.oldest = (s.buffers b).oldest) :
    Change copyBuffers s (s.setBuffer b buf) b :=
  h.setLists ok holds (fun _ hL => .inl (oldest ▸ hL)) (fun hsome _ _ _ => oldest ▸ hsome)
    (by rw [oldest, update_eq_self]; exact h.lists)

/-- A step that also changes copy buffer `c`. -/
theorem Inv.setCopy {c : Nat} {copy : CopyBuffer}
    (ok : BufOk s.insertLsn (update s.copies c copy) buf)
    (oldest : buf.oldest = (s.buffers b).oldest) (mine : s.Mine copyBuffers b c)
    (holds : ∀ x, x ≠ c → (buf.Holds x ↔ (s.buffers b).Holds x))
    (held : buf.Holds c → copy.used = true)
    (kept : ∀ C, copy.oldest = some C → buf.Holds c ∧ buf.oldest = some C) :
    Change copyBuffers s ((s.setCopy c copy).setBuffer b buf) b where
  insertLsn := rfl
  consistentLsn := rfl
  calcs := rfl
  panicked := rfl
  others _ hx := update_of_ne hx ..
  copies x := by
    by_cases hx : x = c
    · exact .inr (hx ▸ mine)
    · exact .inl (update_of_ne hx ..)
  ok := by simpa only [State.setBuffer, State.setCopy, update_self] using ok
  held x hx := by
    simp only [State.setBuffer, State.setCopy, update_self] at hx ⊢
    by_cases hxc : x = c
    · subst hxc
      exact ⟨by rw [update_self]; exact held hx, mine⟩
    · rw [update_of_ne hxc]
      have hs := (holds x hxc).mp hx
      exact ⟨(h.used b x hs).1, .inl hs⟩
  kept x C hmine hC := by
    simp only [State.setBuffer, State.setCopy, update_self] at hC ⊢
    by_cases hxc : x = c
    · subst hxc
      rw [update_self] at hC
      exact ⟨(kept C hC).1, by simp [(kept C hC).2]⟩
    · rw [update_of_ne hxc] at hC
      obtain ⟨hs, hsome⟩ := h.holds_of_mine hmine hC
      exact ⟨(holds x hxc).mpr hs, oldest ▸ hsome⟩
  lists := by
    rw [oldest_setBuffer, oldest]
    exact (update_eq_self b fun x => (s.buffers x).oldest).symm ▸ h.lists
  oldest L hL := by
    simp only [State.setBuffer, update_self] at hL
    exact .inl (oldest ▸ hL)
  copied x C hC := by
    simp only [State.setBuffer, State.setCopy] at hC
    by_cases hxc : x = c
    · subst hxc
      rw [update_self] at hC
      exact .inr (oldest ▸ (kept C hC).2)
    · rw [update_of_ne hxc] at hC
      exact .inl hC

/-- A step that changes the oldest LSN of the buffer and the lists. -/
theorem Inv.setOldest {lists : Nat → List Nat} (ok : BufOk s.insertLsn s.copies buf)
    (holds : ∀ c, buf.Holds c ↔ (s.buffers b).Holds c) (oldest : buf.oldest = some s.insertLsn ∨
      buf.oldest = none ∧ ∀ c, buf.Holds c → (s.copies c).oldest = none)
    (hlists : ListsOk lists (update (fun x => (s.buffers x).oldest) b buf.oldest)) :
    Change copyBuffers s (State.setBuffer { s with lists } b buf) b := by
  refine h.setLists ok holds (fun L hL => ?_) (fun _ c hc hsome => ?_) hlists
  · rcases oldest with heq | ⟨hnone, _⟩
    · exact .inr (Option.some.inj (hL.symm.trans heq))
    · cases hnone.symm.trans hL
  · rcases oldest with heq | ⟨_, hnone⟩
    · exact Option.isSome_of_eq_some heq
    · simp [hnone c hc] at hsome

end

end Polar.FlushList
