import Polar.LockReplay.System
import Mathlib.Data.List.Nodup
import Mathlib.Order.Nat

/-!
# What the tables hold

The lock table is kept in the order of insertion. The worker has been through a first part of it, is
at one entry at most, and the rest is the queue. The position of the worker is not behind what it
has been through, and not ahead of what it has not.
-/

namespace Polar.LockReplay

open List

/-- Two members of a pairwise list are related, one way or the other. -/
theorem pairwise_mem {α : Type} {R : α → α → Prop} {l : List α} (h : l.Pairwise R) {a b : α}
    (ha : a ∈ l) (hb : b ∈ l) : a = b ∨ R a b ∨ R b a := by
  induction h with
  | nil => cases ha
  | cons hhead _ ih =>
    rcases mem_cons.mp ha with rfl | ha'
    · rcases mem_cons.mp hb with rfl | hb'
      · exact .inl rfl
      · exact .inr (.inl (hhead b hb'))
    · rcases mem_cons.mp hb with rfl | hb'
      · exact .inr (.inr (hhead a ha'))
      · exact ih ha' hb'

/-- Where the worker is in the lock table. -/
def WorkerOk (tbl : List Entry) : Worker → Prop
  | .idle => ∀ e ∈ tbl, e.state ≠ .getting
  | .getting l => ∃ e ∈ tbl, e.lock = l ∧ e.state = .getting
  | .got l => (∃ e ∈ tbl, e.lock = l ∧ e.state = .got) ∧ ∀ e ∈ tbl, e.state ≠ .getting

/-- The entry is before the worker, or the worker is still at it. -/
def Entry.Ahead (worker : Worker) (e : Entry) : Prop :=
  e.state.pending = true ∨ worker = .got e.lock

/-- The order of two entries of the lock table. -/
def Entry.Before (a b : Entry) : Prop :=
  a.lsn ≤ b.lsn ∧ (a.state.pending = true → b.state = .idle)

/-- The table of the locks and the queue agree. -/
structure TblOk (tbl : List Entry) (q : List Lock) (w : Worker) (pos : Nat) : Prop where
  nodup : (tbl.map Entry.lock).Nodup
  order : tbl.Pairwise Entry.Before
  queue : q = (tbl.filter (·.state = .idle)).map Entry.lock
  worker : WorkerOk tbl w
  lsn : ∀ e ∈ tbl, e.Ahead w → 0 < pos ∧ pos ≤ e.lsn

namespace TblOk

variable {tbl pre post : List Entry} {queue : List Lock} {worker : Worker} {lsn : Nat} {e : Entry}
  {l : Lock}

/-- A lock has one entry. -/
theorem eq_of_lock (h : TblOk tbl queue worker lsn) {a b : Entry} (ha : a ∈ tbl) (hb : b ∈ tbl)
    (hab : a.lock = b.lock) : a = b :=
  inj_on_of_nodup_map h.nodup ha hb hab

theorem find_eq (h : TblOk tbl queue worker lsn) (he : e ∈ tbl) :
    tbl.find? (·.lock = e.lock) = some e := by
  obtain ⟨a, ha⟩ : ∃ a, tbl.find? (·.lock = e.lock) = some a :=
    Option.isSome_iff_exists.mp (List.find?_isSome.mpr ⟨e, he, by simp⟩)
  have hlock : a.lock = e.lock := by simpa using List.find?_some ha
  rw [ha, h.eq_of_lock (mem_of_find?_eq_some ha) he hlock]

theorem map_state (h : TblOk (pre ++ e :: post) queue worker lsn) (state : LockState) :
    ((pre ++ e :: post).map fun a => if a.lock = e.lock then { a with state } else a) =
      pre ++ { e with state } :: post := by
  have hnodup := h.nodup
  simp only [map_append, map_cons, nodup_append, nodup_cons] at hnodup
  have hpre : ∀ a ∈ pre, a.lock ≠ e.lock := fun a ha =>
    hnodup.2.2 a.lock (mem_map_of_mem ha) e.lock mem_cons_self
  have hpost : ∀ a ∈ post, a.lock ≠ e.lock := fun a ha heq =>
    hnodup.2.1.1 (heq ▸ mem_map_of_mem ha)
  have hsame : ∀ l : List Entry, (∀ a ∈ l, a.lock ≠ e.lock) →
      (l.map fun a => if a.lock = e.lock then { a with state } else a) = l := by
    intro l hl
    exact (map_congr_left fun a ha => if_neg (hl a ha)).trans (map_id l)
  simp only [map_append, map_cons, if_true, hsame pre hpre, hsame post hpost]

theorem init : TblOk [] [] .idle 0 :=
  ⟨nodup_nil, .nil, rfl, by simp [WorkerOk], by simp⟩

/-- A lock is put at the end of the table and of the queue. -/
theorem add (h : TblOk tbl queue worker lsn) (hnew : ∀ a ∈ tbl, a.lock ≠ l) {stop lsn' : Nat}
    (hstop : ∀ a ∈ tbl, a.lsn ≤ stop) (hle : lsn' ≤ stop) (hpos : 0 < lsn')
    (hlsn : lsn ≠ 0 → lsn' = lsn) :
    TblOk (tbl ++ [{ lock := l, lsn := stop, state := .idle }]) (queue ++ [l]) worker lsn' where
  nodup := by
    rw [map_append, nodup_append]
    refine ⟨h.nodup, by simp, ?_⟩
    intro a ha b hb
    obtain ⟨x, hx, rfl⟩ := mem_map.mp ha
    obtain rfl : b = l := by simpa using hb
    exact hnew x hx
  order := by
    rw [pairwise_append]
    refine ⟨h.order, pairwise_singleton _ _, ?_⟩
    intro a ha b hb
    obtain rfl : b = _ := mem_singleton.mp hb
    exact ⟨hstop a ha, fun _ => rfl⟩
  queue := by
    rw [h.queue]
    simp [filter_append]
  worker := by
    have hw := h.worker
    have hidle : (∀ a ∈ tbl, a.state ≠ .getting) →
        ∀ a ∈ tbl ++ [{ lock := l, lsn := stop, state := .idle }], a.state ≠ .getting :=
      fun hall => forall_mem_append.mpr ⟨hall, forall_mem_singleton.mpr (by simp)⟩
    cases worker with
    | idle => exact hidle hw
    | getting k =>
      obtain ⟨a, ha, hlock⟩ := hw
      exact ⟨a, mem_append_left _ ha, hlock⟩
    | got k =>
      obtain ⟨⟨a, ha, hlock⟩, hall⟩ := hw
      exact ⟨⟨a, mem_append_left _ ha, hlock⟩, hidle hall⟩
  lsn := by
    refine forall_mem_append.mpr ⟨fun a ha hahead => ?_, forall_mem_singleton.mpr fun _ => ⟨hpos, hle⟩⟩
    obtain ⟨hlt, hle⟩ := h.lsn a ha hahead
    rw [hlsn (Nat.ne_of_gt hlt)]
    exact ⟨hlt, hle⟩

/-- Entries are removed while the worker is idle. -/
theorem filter (h : TblOk tbl queue .idle lsn) (p : Lock → Bool) :
    TblOk (tbl.filter fun e => p e.lock) (queue.filter p) .idle lsn where
  nodup := h.nodup.sublist (filter_sublist.map _)
  order := h.order.sublist filter_sublist
  queue := by
    rw [h.queue, filter_map, filter_filter, filter_filter]
    simp only [Function.comp_def, Bool.and_comm]
  worker a ha := h.worker a (mem_of_mem_filter ha)
  lsn a ha hahead := h.lsn a (mem_of_mem_filter ha) hahead

theorem clear (h : TblOk tbl [] .idle lsn) : TblOk tbl [] .idle 0 where
  nodup := h.nodup
  order := h.order
  queue := h.queue
  worker := h.worker
  lsn a ha hahead := by
    have hidle : a.state ≠ .idle := by
      intro hidle
      have hmem : a.lock ∈ (tbl.filter (·.state = .idle)).map Entry.lock :=
        mem_map_of_mem (mem_filter.mpr ⟨ha, by simp [hidle]⟩)
      rw [← h.queue] at hmem
      cases hmem
    have hgetting := h.worker a ha
    rcases hahead with hpending | hgot
    · cases hs : a.state <;> simp_all [LockState.pending]
    · cases hgot

/-- The head of the queue is the first entry that the worker has not been at. -/
theorem split_head (h : TblOk tbl (l :: queue) .idle lsn) : ∃ pre e post,
    tbl = pre ++ e :: post ∧ e.lock = l ∧ e.state = .idle ∧
      (∀ a ∈ pre, a.state.pending = false) ∧
      queue = (post.filter (·.state = .idle)).map Entry.lock := by
  obtain ⟨e, rest, hfilter, hlock, hrest⟩ := map_eq_cons_iff.mp h.queue.symm
  obtain ⟨pre, post, rfl, hpre, hidle, hpost⟩ := filter_eq_cons_iff.mp hfilter
  refine ⟨pre, e, post, rfl, hlock, by simpa using hidle, ?_, hrest ▸ hpost ▸ rfl⟩
  intro a ha
  have hgetting := h.worker a (mem_append_left _ ha)
  cases hs : a.state <;> simp_all [LockState.pending]

theorem order_set (h : TblOk (pre ++ e :: post) queue worker lsn) {state : LockState}
    (hpre : ∀ a ∈ pre, a.state.pending = false)
    (hpost : state.pending = true → ∀ b ∈ post, b.state = .idle) :
    (pre ++ { e with state } :: post).Pairwise Entry.Before := by
  have horder := h.order
  rw [pairwise_append, pairwise_cons] at horder ⊢
  obtain ⟨hppre, ⟨hepost, hppost⟩, hcross⟩ := horder
  refine ⟨hppre, ⟨fun b hb => ⟨(hepost b hb).1, fun hp => hpost hp b hb⟩, hppost⟩, ?_⟩
  intro a ha b hb
  refine ⟨?_, fun hp => absurd (hp.symm.trans (hpre a ha)) (by decide)⟩
  rcases mem_cons.mp hb with rfl | hb
  · exact (hcross a ha e mem_cons_self).1
  · exact (hcross a ha b (mem_cons_of_mem _ hb)).1

theorem nodup_set (h : TblOk (pre ++ e :: post) queue worker lsn) (state : LockState) :
    ((pre ++ { e with state } :: post).map Entry.lock).Nodup := by
  have hnodup := h.nodup
  simp only [map_append] at hnodup ⊢
  exact hnodup

/-- What the worker is done with is not idle. -/
theorem filter_idle (hpre : ∀ a ∈ pre, a.state.pending = false) :
    pre.filter (·.state = .idle) = [] := by
  rw [filter_eq_nil_iff]
  intro a ha
  have := hpre a ha
  cases hs : a.state <;> simp_all [LockState.pending]

theorem take (h : TblOk (pre ++ e :: post) queue .idle lsn) (hidle : e.state = .idle)
    (hpre : ∀ a ∈ pre, a.state.pending = false) :
    TblOk (pre ++ { e with state := .getting } :: post)
      ((post.filter (·.state = .idle)).map Entry.lock) (.getting e.lock) lsn where
  nodup := h.nodup_set _
  order := h.order_set hpre fun _ b hb => by
    have horder := h.order
    rw [pairwise_append, pairwise_cons] at horder
    exact (horder.2.1.1 b hb).2 (by rw [hidle]; rfl)
  queue := by simp [filter_idle hpre]
  worker := ⟨_, mem_append_right _ mem_cons_self, rfl, rfl⟩
  lsn a ha hahead := by
    have hpos := h.lsn e (mem_append_right _ mem_cons_self) (.inl (by rw [hidle]; rfl))
    rcases hahead with hpending | hgot
    · rcases mem_append.mp ha with ha | ha
      · exact absurd (hpending.symm.trans (hpre a ha)) (by decide)
      · rcases mem_cons.mp ha with rfl | ha
        · exact hpos
        · exact h.lsn a (mem_append_right _ (mem_cons_of_mem _ ha)) (.inl hpending)
    · cases hgot

theorem skip (h : TblOk (pre ++ e :: post) queue .idle lsn) (hidle : e.state = .idle)
    (hpre : ∀ a ∈ pre, a.state.pending = false) :
    TblOk (pre ++ { e with state := .skip } :: post)
      ((post.filter (·.state = .idle)).map Entry.lock) .idle e.lsn where
  nodup := h.nodup_set _
  order := h.order_set hpre nofun
  queue := by simp [filter_idle hpre]
  worker a ha := by
    rcases mem_append.mp ha with ha | ha
    · exact h.worker a (mem_append_left _ ha)
    · rcases mem_cons.mp ha with rfl | ha
      · simp
      · exact h.worker a (mem_append_right _ (mem_cons_of_mem _ ha))
  lsn a ha hahead := by
    have hpos := h.lsn e (mem_append_right _ mem_cons_self) (.inl (by rw [hidle]; rfl))
    have horder := h.order
    rw [pairwise_append, pairwise_cons] at horder
    rcases hahead with hpending | hgot
    · rcases mem_append.mp ha with ha | ha
      · exact absurd (hpending.symm.trans (hpre a ha)) (by decide)
      · rcases mem_cons.mp ha with rfl | ha
        · cases hpending
        · exact ⟨lt_of_lt_of_le hpos.1 hpos.2, (horder.2.1.1 a ha).1⟩
    · cases hgot

/-- The worker has acquired the lock. -/
theorem got (h : TblOk (pre ++ e :: post) queue (.getting e.lock) lsn)
    (hgetting : e.state = .getting) :
    TblOk (pre ++ { e with state := .got } :: post) queue (.got e.lock) lsn where
  nodup := h.nodup_set _
  order := by
    apply h.order_set
    · intro a ha
      have horder := h.order
      rw [pairwise_append] at horder
      by_contra hp
      have := (horder.2.2 a ha e mem_cons_self).2 (by simpa using hp)
      simp [hgetting] at this
    · rintro ⟨⟩
  queue := by
    rw [h.queue]
    simp [hgetting]
  worker := by
    refine ⟨⟨_, mem_append_right _ mem_cons_self, rfl, rfl⟩, ?_⟩
    have horder := h.order
    rw [pairwise_append, pairwise_cons] at horder
    intro a ha
    rcases mem_append.mp ha with ha | ha
    · intro hs
      have := (horder.2.2 a ha e mem_cons_self).2 (by rw [hs]; rfl)
      simp [hgetting] at this
    · rcases mem_cons.mp ha with rfl | ha
      · simp
      · rw [(horder.2.1.1 a ha).2 (by rw [hgetting]; rfl)]
        simp
  lsn a ha hahead := by
    have he := h.lsn e (mem_append_right _ mem_cons_self) (.inl (by rw [hgetting]; rfl))
    have hmem : a.state.pending = true → a ∈ pre ++ e :: post := by
      intro hp
      rcases mem_append.mp ha with ha | ha
      · exact mem_append_left _ ha
      · rcases mem_cons.mp ha with rfl | ha
        · cases hp
        · exact mem_append_right _ (mem_cons_of_mem _ ha)
    rcases hahead with hpending | hlock
    · exact h.lsn a (hmem hpending) (.inl hpending)
    · have heq : a = { e with state := .got } :=
        inj_on_of_nodup_map (h.nodup_set .got) ha
          (mem_append_right _ mem_cons_self) (Worker.got.inj hlock).symm
      rwa [heq]

/-- The worker moves its position to the lock that it has acquired. -/
theorem publish (h : TblOk tbl queue (.got e.lock) lsn) (he : e ∈ tbl) (hgot : e.state = .got) :
    TblOk tbl queue .idle e.lsn where
  nodup := h.nodup
  order := h.order
  queue := h.queue
  worker := h.worker.2
  lsn a ha hahead := by
    have hpos := h.lsn e he (.inr rfl)
    refine ⟨lt_of_lt_of_le hpos.1 hpos.2, ?_⟩
    rcases hahead with hpending | hgot'
    · rcases pairwise_mem h.order he ha with rfl | hbefore | hbefore
      · exact le_rfl
      · exact hbefore.1
      · have := hbefore.2 hpending
        simp [hgot] at this
    · cases hgot'

/-! ### The steps of the worker -/

variable {s : State}

/-- The state is all that changes. -/
theorem setState_same (l : Lock) (state : LockState) (e : Entry) :
    (if e.lock = l then { e with state } else e).lock = e.lock ∧
      (if e.lock = l then { e with state } else e).lsn = e.lsn := by
  split <;> exact ⟨rfl, rfl⟩

theorem setState_lockTbl (h : TblOk s.lockTbl queue worker lsn) (heq : s.lockTbl = pre ++ e :: post)
    (state : LockState) : (s.setState e.lock state).lockTbl = pre ++ { e with state } :: post := by
  rw [heq] at h
  rw [← h.map_state, ← heq]
  rfl

/-- The worker is at the end of the queue, or at an idle lock. -/
theorem popHead_cases (h : TblOk s.lockTbl s.queue .idle s.lsn) :
    s.queue = [] ∧ s.popHead = { s with lsn := 0 } ∨ ∃ e queue, e ∈ s.lockTbl ∧ e.state = .idle ∧
      ((e.lock.xid = 0 ∨ e.lock.xid ∈ s.clog) ∧
          s.popHead = { s.setState e.lock .skip with queue, lsn := e.lsn } ∧
          TblOk (s.setState e.lock .skip).lockTbl queue .idle e.lsn ∨
        s.popHead = { s.setState e.lock .getting with queue, worker := .getting e.lock } ∧
          TblOk (s.setState e.lock .getting).lockTbl queue (.getting e.lock) s.lsn) := by
  cases hq : s.queue with
  | nil => exact .inl ⟨rfl, by simp only [State.popHead, hq]⟩
  | cons l queue =>
    rw [hq] at h
    obtain ⟨pre, e, post, heq, rfl, hstate, hpre, hrest⟩ := h.split_head
    have he : e ∈ s.lockTbl := heq ▸ mem_append_right _ mem_cons_self
    have hfind : s.findLock e.lock = some e := h.find_eq he
    refine .inr ⟨e, queue, he, hstate, ?_⟩
    rw [h.setState_lockTbl heq, h.setState_lockTbl heq]
    rw [heq] at h
    simp only [State.popHead, hq, hfind, Option.map_some]
    split
    · next hskip => exact .inl ⟨hskip, rfl, hrest ▸ h.skip hstate hpre⟩
    · exact .inr ⟨rfl, hrest ▸ h.take hstate hpre⟩

theorem getting_setState (h : TblOk s.lockTbl queue (.getting l) lsn) :
    ∃ e ∈ s.lockTbl, e.lock = l ∧ e.state = .getting ∧
      TblOk (s.setState l .got).lockTbl queue (.got l) lsn := by
  obtain ⟨e, he, rfl, hstate⟩ := h.worker
  obtain ⟨pre, post, heq⟩ := append_of_mem he
  refine ⟨e, he, rfl, hstate, ?_⟩
  rw [h.setState_lockTbl heq]
  exact (heq ▸ h).got hstate

theorem got_lsn (h : TblOk s.lockTbl queue (.got l) lsn) : ∃ e ∈ s.lockTbl, e.lock = l ∧
    e.state = .got ∧ ((s.findLock l).map Entry.lsn).getD 0 = e.lsn := by
  obtain ⟨⟨e, he, rfl, hstate⟩, _⟩ := h.worker
  have hfind : s.findLock e.lock = some e := h.find_eq he
  exact ⟨e, he, rfl, hstate, by simp [hfind]⟩

end TblOk

/-- The last entry of an xid in the lock table is the last lock of its xact. -/
def IsLast (tbl : List Entry) (x : Xact) : Prop :=
  ∃ pre e post, tbl = pre ++ e :: post ∧ e.lock = x.lastLock ∧ x.lastLock.xid = x.xid ∧
    ∀ b ∈ post, b.lock.xid ≠ x.xid

namespace IsLast

variable {tbl : List Entry} {x : Xact}

theorem xid_eq (h : IsLast tbl x) : x.lastLock.xid = x.xid := by
  obtain ⟨_, _, _, _, _, hxid, _⟩ := h
  exact hxid

/-- Entries other than the last one are removed. -/
theorem filter (h : IsLast tbl x) {p : Entry → Bool}
    (hkeep : ∀ e ∈ tbl, e.lock = x.lastLock → p e = true) : IsLast (tbl.filter p) x := by
  obtain ⟨pre, e, post, rfl, hlock, hxid, hpost⟩ := h
  have he : p e = true := hkeep e (mem_append_right _ mem_cons_self) hlock
  refine ⟨pre.filter p, e, post.filter p, ?_, hlock, hxid, ?_⟩
  · rw [filter_append, filter_cons_of_pos he]
  · exact fun b hb => hpost b (mem_of_mem_filter hb)

end IsLast

/-- The table of the transactions agrees with that of the locks. -/
structure XactOk (tbl : List Entry) (xacts : List Xact) : Prop where
  nodup : (xacts.map Xact.xid).Nodup
  entry : ∀ e ∈ tbl, ∃ x ∈ xacts, x.xid = e.lock.xid ∧ e.lock ∈ x.locks
  locks : ∀ x ∈ xacts, ∀ l ∈ x.locks, l.xid = x.xid
  last : ∀ x ∈ xacts, IsLast tbl x

namespace XactOk

variable {tbl : List Entry} {xacts : List Xact} {l : Lock}

theorem init : XactOk [] [] :=
  ⟨nodup_nil, by simp, by simp, by simp⟩

section

variable (h : XactOk tbl xacts)
include h

theorem eq_of_xid {x y : Xact} (hx : x ∈ xacts) (hy : y ∈ xacts) (hxy : x.xid = y.xid) : x = y :=
  inj_on_of_nodup_map h.nodup hx hy hxy

/-- The states of the locks do not matter. -/
theorem mapTbl {f : Entry → Entry} (hf : ∀ e, (f e).lock = e.lock) : XactOk (tbl.map f) xacts where
  nodup := h.nodup
  entry e he := by
    obtain ⟨a, ha, rfl⟩ := mem_map.mp he
    rw [hf a]
    exact h.entry a ha
  locks := h.locks
  last x hx := by
    obtain ⟨pre, e, post, rfl, hlock, hxid, hpost⟩ := h.last x hx
    refine ⟨pre.map f, f e, post.map f, by simp, (hf e).trans hlock, hxid, ?_⟩
    intro b hb
    obtain ⟨a, ha, rfl⟩ := mem_map.mp hb
    rw [hf a]
    exact hpost a ha

/-- Neither does whether a transaction runs. -/
theorem mark (p : Nat → Bool) :
    XactOk tbl (xacts.map fun x => if p x.xid then { x with running := false } else x) := by
  have same : ∀ x : Xact, (if p x.xid then { x with running := false } else x).xid = x.xid ∧
      (if p x.xid then { x with running := false } else x).locks = x.locks ∧
      (if p x.xid then { x with running := false } else x).lastLock = x.lastLock := by
    intro x
    split <;> exact ⟨rfl, rfl, rfl⟩
  refine ⟨?_, ?_, ?_, ?_⟩
  · rw [map_map]
    simpa only [Function.comp_def, (same _).1] using h.nodup
  · intro e he
    obtain ⟨x, hx, hxid, hlock⟩ := h.entry e he
    refine ⟨_, mem_map_of_mem hx, (same x).1.trans hxid, ?_⟩
    rwa [(same x).2.1]
  · intro y hy k hk
    obtain ⟨x, hx, rfl⟩ := mem_map.mp hy
    rw [(same x).2.1] at hk
    exact (h.locks x hx k hk).trans (same x).1.symm
  · intro y hy
    obtain ⟨x, hx, rfl⟩ := mem_map.mp hy
    obtain ⟨pre, e, post, htbl, hlock, hxid, hpost⟩ := h.last x hx
    refine ⟨pre, e, post, htbl, ?_, ?_, ?_⟩
    · rwa [(same x).2.2]
    · rw [(same x).2.2, (same x).1]
      exact hxid
    · rwa [(same x).1]

theorem release :
    XactOk (tbl.filter (·.lock ∉ (xacts.filter fun x => !x.running).flatMap Xact.locks))
      (xacts.filter Xact.running) where
  nodup := h.nodup.sublist (filter_sublist.map _)
  entry e he := by
    obtain ⟨he, hgone⟩ := mem_filter.mp he
    obtain ⟨x, hx, hxid, hlock⟩ := h.entry e he
    refine ⟨x, mem_filter.mpr ⟨hx, ?_⟩, hxid, hlock⟩
    by_contra hrun
    refine absurd (of_decide_eq_true hgone) (not_not.mpr (mem_flatMap.mpr ⟨x, ?_, hlock⟩))
    exact mem_filter.mpr ⟨hx, by simpa using hrun⟩
  locks x hx := h.locks x (mem_of_mem_filter hx)
  last x hx := by
    obtain ⟨hx, hrun⟩ := mem_filter.mp hx
    have hlast := h.last x hx
    apply hlast.filter
    intro e _ hlock
    apply decide_eq_true
    intro hgone
    obtain ⟨y, hy, hmem⟩ := mem_flatMap.mp hgone
    obtain ⟨hy, hdead⟩ := mem_filter.mp hy
    have hyx : y.xid = x.xid := by rw [← h.locks y hy _ hmem, hlock, hlast.xid_eq]
    rw [h.eq_of_xid hy hx hyx, hrun] at hdead
    cases hdead

/-- A lock is added to its transaction, which may be new. -/
theorem add (e : Entry) {xacts' : List Xact}
    (hfound : ∀ x ∈ xacts, x.xid = e.lock.xid → xacts' = xacts.map fun x =>
      if x.xid = e.lock.xid then { x with locks := x.locks ++ [e.lock], lastLock := e.lock } else x)
    (hnew : (∀ x ∈ xacts, x.xid ≠ e.lock.xid) → xacts' =
      xacts ++ [{ xid := e.lock.xid, running := true, locks := [e.lock], lastLock := e.lock }]) :
    XactOk (tbl ++ [e]) xacts' := by
  have hlast : ∀ x : Xact, x.xid = e.lock.xid → x.lastLock = e.lock → IsLast (tbl ++ [e]) x :=
    fun x hxid hlock => ⟨tbl, e, [], rfl, hlock.symm, by rw [hlock, hxid], by simp⟩
  have hother : ∀ x ∈ xacts, x.xid ≠ e.lock.xid → IsLast (tbl ++ [e]) x := by
    intro x hx hxid
    obtain ⟨pre, a, post, rfl, hlock, hlx, hpost⟩ := h.last x hx
    exact ⟨pre, a, post ++ [e], by simp, hlock, hlx,
      forall_mem_append.mpr ⟨hpost, forall_mem_singleton.mpr hxid.symm⟩⟩
  by_cases hex : ∃ x ∈ xacts, x.xid = e.lock.xid
  · obtain ⟨x, hx, hxid⟩ := hex
    rw [hfound x hx hxid]
    -- the xact of the lock gets it, and the others stay as they are
    have hcases : ∀ y ∈ xacts, (if y.xid = e.lock.xid then
        { y with locks := y.locks ++ [e.lock], lastLock := e.lock } else y).xid = y.xid := by
      intro y _
      split <;> rfl
    refine ⟨?_, ?_, ?_, ?_⟩
    · have hmap := map_congr_left hcases
      rw [map_map]
      exact hmap ▸ h.nodup
    · intro a ha
      rcases mem_append.mp ha with ha | ha
      · obtain ⟨y, hy, hyxid, hlock⟩ := h.entry a ha
        refine ⟨_, mem_map_of_mem hy, (hcases y hy).trans hyxid, ?_⟩
        split
        · exact mem_append_left _ hlock
        · exact hlock
      · rw [mem_singleton.mp ha]
        refine ⟨_, mem_map_of_mem hx, (hcases x hx).trans hxid, ?_⟩
        rw [if_pos hxid]
        exact mem_append_right _ (mem_singleton.mpr rfl)
    · intro y' hy' k hk
      obtain ⟨y, hy, rfl⟩ := mem_map.mp hy'
      rw [hcases y hy]
      split at hk
      · next heq =>
        rcases mem_append.mp hk with hk | hk
        · exact h.locks y hy k hk
        · rw [mem_singleton.mp hk, heq]
      · exact h.locks y hy k hk
    · intro y' hy'
      obtain ⟨y, hy, rfl⟩ := mem_map.mp hy'
      split
      · next heq => exact hlast _ heq rfl
      · next hne => exact hother y hy hne
  · have hnone : ∀ x ∈ xacts, x.xid ≠ e.lock.xid := fun x hx hxid => hex ⟨x, hx, hxid⟩
    rw [hnew hnone]
    refine ⟨?_, ?_, ?_, ?_⟩
    · rw [map_append, nodup_append]
      refine ⟨h.nodup, by simp, ?_⟩
      intro a ha b hb
      obtain ⟨x, hx, rfl⟩ := mem_map.mp ha
      obtain rfl : b = e.lock.xid := by simpa using hb
      exact hnone x hx
    · refine forall_mem_append.mpr ⟨fun a ha => ?_, forall_mem_singleton.mpr
        ⟨_, mem_append_right _ (mem_singleton.mpr rfl), rfl, by simp⟩⟩
      obtain ⟨y, hy, hyxid, hlock⟩ := h.entry a ha
      exact ⟨y, mem_append_left _ hy, hyxid, hlock⟩
    · exact forall_mem_append.mpr ⟨h.locks, forall_mem_singleton.mpr (by simp)⟩
    · exact forall_mem_append.mpr ⟨fun y hy => hother y hy (hnone y hy),
        forall_mem_singleton.mpr (hlast _ rfl rfl)⟩

/-- Once the last lock of a transaction is done with, all of them are. -/
theorem done {queue : List Lock} {worker : Worker} {lsn : Nat}
    (htbl : TblOk tbl queue worker lsn) {x : Xact} (hx : x ∈ xacts) {e a : Entry} (he : e ∈ tbl)
    (hlast : e.lock = x.lastLock) (hdone : e.state.pending = false) (ha : a ∈ tbl)
    (hxid : a.lock.xid = x.xid) : a.state.pending = false := by
  obtain ⟨pre, b, post, rfl, hlock, hbx, hpost⟩ := h.last x hx
  obtain rfl : b = e := htbl.eq_of_lock (mem_append_right _ mem_cons_self) he
    (hlock.trans hlast.symm)
  have horder := htbl.order
  rw [pairwise_append] at horder
  rcases mem_append.mp ha with ha | ha
  · by_contra hp
    have hidle := (horder.2.2 a ha b mem_cons_self).2 (by simpa using hp)
    rw [hidle] at hdone
    cases hdone
  · rcases mem_cons.mp ha with rfl | ha
    · exact hdone
    · exact absurd hxid (hpost a ha)

end

end XactOk

end Polar.LockReplay
