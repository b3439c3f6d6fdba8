import Polar.Base.Bytes

/-!
# Readers of byte sequences

A reader consumes bytes from the front of a list and may fail. The lemmas run a reader on an image
that starts with what the reader expects.
-/

namespace Polar

/-- A computation that consumes bytes and may fail. -/
abbrev Reader (ε α : Type) := StateT (List UInt8) (Except ε) α

namespace Reader

variable {ε α β : Type}

/-- Take `n` bytes, or fail with `short` when fewer are left. -/
def take (short : ε) (n : Nat) : Reader ε (List UInt8) :=
  fun bs => if bs.length < n then .error short else .ok (bs.take n, bs.drop n)

/-- Read a little-endian number of `k` bytes. -/
def nat (short : ε) (k : Nat) : Reader ε Nat := do
  return Bytes.toNat (← take short k)

/-- Go on only if `cond` holds. -/
def check (cond : Bool) (err : ε) : Reader ε Unit :=
  fun bs => if cond then .ok ((), bs) else .error err

variable {bs : List UInt8}

theorem check_ok {cond : Bool} {err : ε} (h : cond = true) : check cond err bs = .ok ((), bs) := by
  rw [check, if_pos h]

theorem run_ok_bind {m : Reader ε α} {f : α → Reader ε β} {bs rest : List UInt8} {a : α}
    (h : m bs = .ok (a, rest)) : (m >>= f) bs = f a rest := by
  change (m bs >>= fun p => f p.1 p.2) = _
  rw [h]
  rfl

theorem run_get_bind {f : List UInt8 → Reader ε β} :
    ((get : Reader ε (List UInt8)) >>= f) bs = f bs bs := rfl

theorem run_modify_bind {g : List UInt8 → List UInt8} {f : PUnit → Reader ε β} :
    ((modify g : Reader ε PUnit) >>= f) bs = f ⟨⟩ (g bs) := rfl

theorem run_set_bind {bs' : List UInt8} {f : PUnit → Reader ε β} :
    ((set bs' : Reader ε PUnit) >>= f) bs = f ⟨⟩ bs' := rfl

theorem run_pure (a : α) (bs : List UInt8) : (pure a : Reader ε α) bs = .ok (a, bs) := rfl

variable {short : ε}

theorem take_append {xs rest : List UInt8} {n : Nat} (h : xs.length = n) :
    take short n (xs ++ rest) = .ok (xs, rest) := by
  have hlen : ¬ (xs ++ rest).length < n := by
    rw [List.length_append]
    omega
  rw [take, if_neg hlen, List.take_left' h, List.drop_left' h]

theorem nat_append {k v : Nat} {rest : List UInt8} (h : v < 256 ^ k) :
    nat short k (Bytes.ofNat k v ++ rest) = .ok (v, rest) := by
  rw [nat, run_ok_bind (take_append (Bytes.length_ofNat k v)), Bytes.toNat_ofNat_of_lt h]
  rfl

/-- Read one byte. -/
def byte (short : ε) : Reader ε UInt8 :=
  fun bs => match bs with
    | [] => .error short
    | b :: rest => .ok (b, rest)

theorem byte_cons {b : UInt8} {rest : List UInt8} : byte short (b :: rest) = .ok (b, rest) := rfl

end Reader

end Polar
