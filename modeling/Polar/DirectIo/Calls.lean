import Polar.DirectIo.File

/-!
# Calls on a file that may fail

A program is a sequence of calls. Any of them may fail, and the program then ends, with what it has
done so far. A write may also be short; a read is short only at the end of the file. The log keeps
every call, with its alignment and its outcome.
-/

namespace Polar.DirectIo

/-- `PG_IO_ALIGN_SIZE` and `polar_max_direct_io_size`, which is a multiple of it. -/
structure Params where
  align : Nat
  maxIo : Nat
  align_pos : 0 < align
  maxIo_pos : 0 < maxIo
  maxIo_dvd : align ∣ maxIo

/-- `POLAR_DIRECTIO_IS_ALIGNED`. -/
def Params.IsAligned (p : Params) (n : Nat) : Prop := n % p.align = 0

instance (p : Params) (n : Nat) : Decidable (p.IsAligned n) := inferInstanceAs (Decidable (_ = _))

/-- One call. The size and the truncation of a file do not access its data. -/
inductive Access where
  | transfer (bufAligned : Bool) (off len : Nat)
  | inode
  /-- A read at a negative offset, which fails. -/
  | invalid
  deriving DecidableEq, Repr

/-- A system call, and whether it succeeded. -/
structure Call where
  access : Access
  ok : Bool
  deriving DecidableEq, Repr

/-- The data is accessed with aligned buffer, offset and length. -/
def Call.Aligned (p : Params) (c : Call) : Prop :=
  match c.access with
  | .transfer bufAligned off len => bufAligned = true ∧ p.IsAligned off ∧ p.IsAligned len
  | _ => True

/-- The outcomes of the calls, in the order they are made. A short write takes at least one byte:
`short n = some k` lets the call take `k + 1` bytes. -/
structure Outcomes where
  fails : Nat → Bool
  short : Nat → Option Nat

/-- Every write fails or takes all its bytes. -/
def Outcomes.Whole (o : Outcomes) : Prop := ∀ n, o.short n = none

/-- The file, and the calls made up to now. -/
structure World (β : Type*) [Zero β] where
  file : File β
  log : List Call

/-- A program; `none` is a negative result. -/
def Io (β : Type*) [Zero β] (α : Type*) := World β → Option α × World β

variable {β : Type*} [Zero β] {α α' : Type*}

namespace Io

def pure (a : α) : Io β α := fun w => (some a, w)

def bind (m : Io β α) (k : α → Io β α') : Io β α' := fun w =>
  match m w with
  | (some a, w') => k a w'
  | (none, w') => (none, w')

/-- A negative result. -/
def fail : Io β α := fun w => (none, w)

/-- The result of a program, as a value. -/
def attempt (m : Io β α) : Io β (Option α) := fun w => (some (m w).1, (m w).2)

/-- A call, which fails if it is one of those that fail. -/
def call (o : Outcomes) (access : Access) (run : File β → α × File β) : Io β α := fun w =>
  if o.fails w.log.length then (none, ⟨w.file, w.log ++ [⟨access, false⟩]⟩)
  else (some (run w.file).1, ⟨(run w.file).2, w.log ++ [⟨access, true⟩]⟩)

variable (o : Outcomes)

/-- `pread` on a file opened with `O_DIRECT`. -/
def pread (bufAligned : Bool) (len off : Nat) : Io β (List β) :=
  call o (.transfer bufAligned off len) fun f => (f.pread off len, f)

/-- `pwrite` on such a file. -/
def pwrite (bufAligned : Bool) (data : List β) (off : Nat) : Io β Nat :=
  fun w =>
    let taken := data.take (((o.short w.log.length).map (· + 1)).getD data.length)
    call o (.transfer bufAligned off data.length) (fun f => (taken.length, f.pwrite off taken)) w

/-- A read at a negative offset. -/
def preadInvalid : Io β α := fun w => (none, ⟨w.file, w.log ++ [⟨.invalid, false⟩]⟩)

/-- `st_size`. -/
def fstat : Io β Nat := call o .inode fun f => (f.size, f)

def ftruncate (len : Nat) : Io β Unit := call o .inode fun f => ((), f.ftruncate len)

variable {o}

theorem pwrite_of_whole (h : o.Whole) (bufAligned : Bool) (data : List β) (off : Nat) :
    pwrite o bufAligned data off =
      call o (.transfer bufAligned off data.length) fun f => (data.length, f.pwrite off data) := by
  funext w
  rw [pwrite, h, Option.map_none, Option.getD_none, List.take_length]

end Io

/-! ## What a program does -/

/-- From file `f` the program yields `v` and file `f'` if none of its calls fails, and a negative
result otherwise. It accesses the data aligned. -/
def Runs (p : Params) (o : Outcomes) (m : Io β α) (f f' : File β) (v : α) : Prop :=
  ∀ log, ∃ calls : List Call, (∀ c ∈ calls, c.Aligned p) ∧
    ((m ⟨f, log⟩ = (some v, ⟨f', log ++ calls⟩) ∧ ∀ c ∈ calls, c.ok = true) ∨
      ∃ g, m ⟨f, log⟩ = (none, ⟨g, log ++ calls⟩) ∧ (∃ c ∈ calls, c.ok = false) ∧
        ∃ n, o.fails n = true)

namespace Runs

variable {p : Params} {o : Outcomes} {f f' f'' : File β}

theorem pure (a : α) : Runs p o (Io.pure a) f f a := by
  intro log
  exact ⟨[], by simp, .inl ⟨by simp [Io.pure], by simp⟩⟩

theorem bind {m : Io β α} {k : α → Io β α'} {a : α} {b : α'} (h : Runs p o m f f' a)
    (h' : Runs p o (k a) f' f'' b) : Runs p o (m.bind k) f f'' b := by
  intro log
  obtain ⟨calls, halign, ⟨heq, hok⟩ | ⟨g, heq, hfail⟩⟩ := h log
  · obtain ⟨calls', halign', hrest⟩ := h' (log ++ calls)
    refine ⟨calls ++ calls', ?_, ?_⟩
    · intro c hc
      exact (List.mem_append.mp hc).elim (halign c) (halign' c)
    · simp only [Io.bind, heq, ← List.append_assoc]
      rcases hrest with ⟨heq', hok'⟩ | ⟨g, heq', ⟨c, hc, hfail⟩, hn⟩
      · refine .inl ⟨heq', ?_⟩
        intro c hc
        exact (List.mem_append.mp hc).elim (hok c) (hok' c)
      · exact .inr ⟨g, heq', ⟨c, List.mem_append_right _ hc, hfail⟩, hn⟩
  · exact ⟨calls, halign, .inr ⟨g, by simp [Io.bind, heq], hfail⟩⟩

theorem call {access : Access} {run : File β → α × File β} (h : ∀ ok, Call.Aligned p ⟨access, ok⟩) :
    Runs p o (Io.call o access run) f (run f).2 (run f).1 := by
  intro log
  by_cases hf : o.fails log.length = true
  · exact ⟨[⟨access, false⟩], by simp [h], .inr ⟨f, by simp [Io.call, hf], by simp, _, hf⟩⟩
  · exact ⟨[⟨access, true⟩], by simp [h], .inl ⟨by simp [Io.call, hf], by simp⟩⟩

theorem pread {len off : Nat} (hoff : p.IsAligned off) (hlen : p.IsAligned len) :
    Runs p o (Io.pread o true len off) f f (f.pread off len) :=
  call fun _ => ⟨rfl, hoff, hlen⟩

theorem pwrite {data : List β} {off : Nat} (hwhole : o.Whole) (hoff : p.IsAligned off)
    (hlen : p.IsAligned data.length) :
    Runs p o (Io.pwrite o true data off) f (f.pwrite off data) data.length := by
  rw [Io.pwrite_of_whole hwhole]
  exact call fun _ => ⟨rfl, hoff, hlen⟩

theorem fstat : Runs p o (Io.fstat o) f f f.size := call fun _ => trivial

theorem ftruncate {len : Nat} : Runs p o (Io.ftruncate o len) f (f.ftruncate len) () :=
  call fun _ => trivial

end Runs

/-- The program does not change the file, also if it fails. -/
def Keeps (m : Io β α) : Prop := ∀ w, (m w).2.file = w.file

namespace Keeps

theorem pure (a : α) : Keeps (Io.pure a : Io β α) := fun _ => rfl

theorem bind {m : Io β α} {k : α → Io β α'} (h : Keeps m) (h' : ∀ a, Keeps (k a)) :
    Keeps (m.bind k) := by
  intro w
  have hm := h w
  rw [Io.bind]
  split
  · next a w' heq => rw [h' a w', ← hm, heq]
  · next w' heq => rw [← hm, heq]

theorem pread (o : Outcomes) (bufAligned : Bool) (len off : Nat) :
    Keeps (Io.pread o bufAligned len off : Io β (List β)) := by
  intro w
  simp only [Io.pread, Io.call]
  split <;> rfl

end Keeps

/-! ## Alignment -/

namespace Params

variable (p : Params)

/-- `POLAR_DIRECTIO_ALIGN_DOWN`. -/
def alignDown (n : Nat) : Nat := n / p.align * p.align

/-- `POLAR_DIRECTIO_ALIGN`. -/
def alignUp (n : Nat) : Nat := (n + (p.align - 1)) / p.align * p.align

variable {p}

theorem mod_lt (n : Nat) : n % p.align < p.align := Nat.mod_lt _ p.align_pos

variable {n : Nat}

variable {a b : Nat}

end Params

end Polar.DirectIo
