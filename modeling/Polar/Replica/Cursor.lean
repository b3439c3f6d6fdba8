import Mathlib.Order.Lattice.Nat
import Mathlib.Tactic.Common

/-!
# Streams of record packets with markers

The receive queue holds packets of single records, numbered in WAL order, and markers that send
the reader back to the WAL file. A cursor says which packet the reader can meet next without
missing a record.
-/

namespace Polar.Replica

/-- An entry of the receive queue. -/
inductive Packet where
  /-- `POLAR_RINGBUF_PKT_WAL_META` of the record with this number. -/
  | walMeta (i : Nat)
  /-- `POLAR_RINGBUF_PKT_WAL_STORAGE_BEGIN`. -/
  | walStorageBegin
deriving DecidableEq, Repr

/-- What the reader relies on at a point of the stream. -/
inductive Cursor where
  /-- Records below `n` are read; further ones come from the file until a packet is met. -/
  | file (n : Nat)
  /-- Records below `n` are read and the following ones are expected in the stream. -/
  | queue (n : Nat)
deriving DecidableEq, Repr

namespace Cursor

/-- The cursor of a reader that has read the records below `n`. -/
def ofMode (catchUp : Bool) (n : Nat) : Cursor := if catchUp then .queue n else .file n

/-- The record may come next. -/
def Allows : Cursor → Nat → Prop
  | .file _, _ => True
  | .queue n, i => i ≤ n

/-- The number of records known to be read. -/
def level : Cursor → Nat
  | .file n => n
  | .queue n => n

/-- The cursor after a packet; packets of records the file has delivered are ignored. -/
def after : Cursor → Packet → Cursor
  | c, .walStorageBegin => .file c.level
  | .file n, .walMeta i => if i < n then .file n else .queue (i + 1)
  | .queue n, .walMeta i => .queue (max n (i + 1))

/-- No packet of the stream is ahead of the reader. -/
def Flows : Cursor → List Packet → Prop
  | _, [] => True
  | c, .walMeta i :: ps => c.Allows i ∧ Flows (c.after (.walMeta i)) ps
  | c, .walStorageBegin :: ps => Flows (c.after .walStorageBegin) ps

/-- The cursor at the end of the stream. -/
def atEnd (c : Cursor) (ps : List Packet) : Cursor := ps.foldl after c

/-- The reader is sent to the file before it meets a further packet. -/
def IsFile : Cursor → Prop
  | .file _ => True
  | .queue _ => False

/-- `c'` relies on less than `c`. -/
def LE : Cursor → Cursor → Prop
  | .file a, .file b => a ≤ b
  | .queue a, .queue b => a ≤ b
  | .queue a, .file b => a ≤ b
  | .file _, .queue _ => False

variable {c c' : Cursor} {i : Nat} {ps qs : List Packet}

theorem Allows.mono (h : LE c c') (hi : c.Allows i) : c'.Allows i := by
  cases c <;> cases c'
  · trivial
  · exact h.elim
  · trivial
  · exact le_trans hi h

theorem Allows.of_le {j : Nat} (hi : c.Allows i) (hj : j ≤ i) : c.Allows j := by
  cases c with
  | file n => trivial
  | queue n => exact le_trans hj hi

theorem IsFile.allows (h : c.IsFile) (i : Nat) : c.Allows i := by
  cases c with
  | file n => trivial
  | queue n => exact h.elim

theorem IsFile.mono (h : LE c c') (hc : c.IsFile) : c'.IsFile := by
  cases c <;> cases c'
  · trivial
  · exact h.elim
  · exact hc.elim
  · exact hc.elim

theorem after_mono (h : LE c c') (hi : c.Allows i) :
    LE (c.after (.walMeta i)) (c'.after (.walMeta i)) := by
  cases c with
  | file a =>
    cases c' with
    | file b =>
      have hab : a ≤ b := h
      simp only [after]
      split <;> split
      · exact hab
      · omega
      · change i + 1 ≤ b
        omega
      · exact le_rfl
    | queue b => exact h.elim
  | queue a =>
    cases c' with
    | file b =>
      have hab : a ≤ b := h
      simp only [after]
      split
      · change max a (i + 1) ≤ b
        omega
      · change max a (i + 1) ≤ i + 1
        omega
    | queue b =>
      have hab : a ≤ b := h
      change max a (i + 1) ≤ max b (i + 1)
      omega

theorem level_mono (h : LE c c') : c.level ≤ c'.level := by
  cases c <;> cases c'
  · exact h
  · exact h.elim
  · exact h
  · exact h

theorem Flows.mono (h : LE c c') (hf : Flows c ps) : Flows c' ps := by
  induction ps generalizing c c' with
  | nil => trivial
  | cons p ps ih =>
    cases p with
    | walMeta i => exact ⟨hf.1.mono h, ih (after_mono h hf.1) hf.2⟩
    | walStorageBegin =>
      exact ih (show LE (.file c.level) (.file c'.level) from level_mono h) hf

theorem atEnd_mono (h : LE c c') (hf : Flows c ps) : LE (c.atEnd ps) (c'.atEnd ps) := by
  induction ps generalizing c c' with
  | nil => exact h
  | cons p ps ih =>
    cases p with
    | walMeta i => exact ih (after_mono h hf.1) hf.2
    | walStorageBegin =>
      exact ih (show LE (.file c.level) (.file c'.level) from level_mono h) hf

theorem atEnd_append : c.atEnd (ps ++ qs) = (c.atEnd ps).atEnd qs := List.foldl_append

theorem flows_append : Flows c (ps ++ qs) ↔ Flows c ps ∧ Flows (c.atEnd ps) qs := by
  induction ps generalizing c with
  | nil => exact ⟨fun h => ⟨trivial, h⟩, And.right⟩
  | cons p ps ih =>
    cases p with
    | walMeta i => exact (and_congr_right fun _ => ih).trans and_assoc.symm
    | walStorageBegin => exact ih

/-- Consecutive records flow once the first is allowed, and allow the one after the last. -/
theorem flows_range (hi : c.Allows i) (k : Nat) :
    Flows c ((List.range' i k).map .walMeta) ∧
      (c.atEnd ((List.range' i k).map .walMeta)).Allows (i + k) := by
  induction k generalizing c i with
  | zero => exact ⟨trivial, hi⟩
  | succ k ih =>
    have hnext : (c.after (.walMeta i)).Allows (i + 1) := by
      cases c with
      | file n =>
        simp only [after]
        split
        · trivial
        · exact le_rfl
      | queue n => exact le_max_right _ _
    obtain ⟨hflows, hallows⟩ := ih hnext
    rw [Nat.add_right_comm] at hallows
    exact ⟨⟨hi, hflows⟩, hallows⟩

theorem level_le_after (p : Packet) : c.level ≤ (c.after p).level := by
  cases p with
  | walStorageBegin => exact le_rfl
  | walMeta i =>
    cases c with
    | file n =>
      simp only [after]
      split
      · exact le_rfl
      · change n ≤ i + 1
        omega
    | queue n => exact le_max_left _ _

theorem level_le_atEnd (c : Cursor) (ps : List Packet) : c.level ≤ (c.atEnd ps).level := by
  induction ps generalizing c with
  | nil => exact le_rfl
  | cons p ps ih => exact le_trans (level_le_after p) (ih _)

@[simp] theorem level_ofMode (catchUp : Bool) (n : Nat) : (ofMode catchUp n).level = n := by
  cases catchUp <;> rfl

theorem allows_of_le_level (h : i ≤ c.level) : c.Allows i := by
  cases c with
  | file n => trivial
  | queue n => exact h

end Cursor

end Polar.Replica
