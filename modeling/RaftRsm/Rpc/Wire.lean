/-
  File:      RaftRsm/Rpc/Wire.lean
  Subject:   The bounds-checked little-endian cursors (`rpc/wire.h`).

  A `Reader` is what is left to read and whether every read so far was in bounds. A read past the
  end turns `ok` off for good, gives 0 and does not move. A `Writer` is the size of the buffer, what
  was written into it so far and whether it all had room.
-/
import RaftRsm.Rpc.Messages

namespace Rsm.Rpc

/-- The number that a byte string is in little-endian order. -/
def leNat : Bytes → ℕ
  | [] => 0
  | b :: bs => b.toNat + 256 * leNat bs

/-- The low `n` bytes of a number in little-endian order. -/
def leBytes : ℕ → ℕ → Bytes
  | 0, _ => []
  | n + 1, v => UInt8.ofNat v :: leBytes n (v / 256)

@[simp] theorem length_leBytes (n v : ℕ) : (leBytes n v).length = n := by
  induction n generalizing v with
  | zero => rfl
  | succ n ih => simp [leBytes, ih]

theorem leNat_lt (b : Bytes) : leNat b < 256 ^ b.length := by
  induction b with
  | nil => simp [leNat]
  | cons x b ih =>
      have hx := x.toNat_lt
      simp only [leNat, List.length_cons, Nat.pow_succ]
      omega

theorem leNat_leBytes (n v : ℕ) : leNat (leBytes n v) = v % 256 ^ n := by
  induction n generalizing v with
  | zero => simp [leBytes, leNat, Nat.mod_one]
  | succ n ih =>
      simp only [leBytes, leNat, ih, UInt8.toNat_ofNat']
      rw [show 256 ^ (n + 1) = 256 * 256 ^ n from Nat.pow_succ', Nat.mod_mul]

theorem leBytes_leNat (b : Bytes) : leBytes b.length (leNat b) = b := by
  induction b with
  | nil => rfl
  | cons x b ih =>
      have hx := x.toNat_lt
      have hdiv : (x.toNat + 256 * leNat b) / 256 = leNat b := by omega
      have hmod : UInt8.ofNat (x.toNat + 256 * leNat b) = x := by
        apply UInt8.toNat_inj.mp
        rw [UInt8.toNat_ofNat']
        omega
      simp only [leNat, List.length_cons, leBytes, hdiv, hmod, ih]

/-- Only the low bytes of a number are written. -/
theorem leBytes_mod (n v : ℕ) : leBytes n (v % 256 ^ n) = leBytes n v := by
  have h := leBytes_leNat (leBytes n v)
  rwa [length_leBytes, leNat_leBytes] at h

/-- Bytes are a number and what follows it. -/
theorem exists_leBytes {n : ℕ} {b : Bytes} (h : n ≤ b.length) :
    ∃ v rest, v < 256 ^ n ∧ b = leBytes n v ++ rest := by
  have hn : (b.take n).length = n := List.length_take_of_le h
  have hlt := leNat_lt (b.take n)
  have hback := leBytes_leNat (b.take n)
  rw [hn] at hlt hback
  exact ⟨leNat (b.take n), b.drop n, hlt, by rw [hback, List.take_append_drop]⟩

structure Reader where
  rest : Bytes
  ok : Bool := true
  deriving DecidableEq, Repr

namespace Reader

def remaining (r : Reader) : ℕ := r.rest.length

def exhausted (r : Reader) : Bool := r.ok && r.rest.isEmpty

/-- `take`, and `readBytes`, which differs from it in where the bytes go only. -/
def readBytes (r : Reader) (n : ℕ) : Option Bytes × Reader :=
  if !r.ok || n > r.remaining then (none, { r with ok := false })
  else (some (r.rest.take n), { r with rest := r.rest.drop n })

/-- An unsigned number of `n` bytes. -/
def uint (n : ℕ) (r : Reader) : ℕ × Reader :=
  match r.readBytes n with
  | (none, r) => (0, r)
  | (some b, r) => (leNat b, r)

def u8 (r : Reader) : ℕ × Reader := r.uint 1

def u16 (r : Reader) : ℕ × Reader := r.uint 2

def u32 (r : Reader) : ℕ × Reader := r.uint 4

def u64 (r : Reader) : ℕ × Reader := r.uint 8

/-! ## What a read leaves -/

/-- What a read in bounds found. -/
theorem uint_of_ok {r : Reader} {n : ℕ} (h : (r.uint n).2.ok = true) :
    r.ok = true ∧ n ≤ r.rest.length ∧ (r.uint n).2.rest = r.rest.drop n := by
  unfold uint readBytes remaining at h ⊢
  by_cases hc : (!r.ok || decide (n > r.rest.length)) = true
  · rw [if_pos hc] at h
    cases h
  · rw [if_neg hc] at h ⊢
    rw [Bool.or_eq_true, not_or, Bool.not_eq_true', Bool.not_eq_false, decide_eq_true_eq] at hc
    exact ⟨hc.1, Nat.le_of_not_lt hc.2, rfl⟩

/-- A reader that has failed stays where it is. -/
@[simp] theorem uint_failed (n : ℕ) (rest : Bytes) : uint n ⟨rest, false⟩ = (0, ⟨rest, false⟩) := rfl

/-- Bytes that are there are read. -/
theorem readBytes_append {b : Bytes} {n : ℕ} (h : b.length = n) (rest : Bytes) :
    readBytes ⟨b ++ rest, true⟩ n = (some b, ⟨rest, true⟩) := by
  subst h
  simp [readBytes, remaining]

/-- A number that is there is read. -/
theorem uint_append {b : Bytes} {n : ℕ} (h : b.length = n) (rest : Bytes) :
    uint n ⟨b ++ rest, true⟩ = (leNat b, ⟨rest, true⟩) := by
  simp [uint, readBytes_append h]

/-- What was written is read back. -/
theorem uint_leBytes (n v : ℕ) (rest : Bytes) :
    uint n ⟨leBytes n v ++ rest, true⟩ = (v % 256 ^ n, ⟨rest, true⟩) := by
  rw [uint_append (length_leBytes n v), leNat_leBytes]

theorem uint_leBytes_of_lt {n v : ℕ} (h : v < 256 ^ n) (rest : Bytes) :
    uint n ⟨leBytes n v ++ rest, true⟩ = (v, ⟨rest, true⟩) := by
  rw [uint_leBytes, Nat.mod_eq_of_lt h]

/-- The reader fails, or what it has read is what would be written. -/
theorem uint_cases (n : ℕ) (b : Bytes) :
    uint n ⟨b, true⟩ = (0, ⟨b, false⟩) ∨
      ∃ v rest, v < 256 ^ n ∧ b = leBytes n v ++ rest ∧ uint n ⟨b, true⟩ = (v, ⟨rest, true⟩) := by
  by_cases h : n ≤ b.length
  · obtain ⟨v, rest, hv, rfl⟩ := exists_leBytes h
    exact .inr ⟨v, rest, hv, rfl, uint_leBytes_of_lt hv rest⟩
  · exact .inl (by simp [uint, readBytes, remaining, Nat.lt_of_not_le h])

end Reader

structure Writer where
  size : ℕ
  out : Bytes := []
  ok : Bool := true
  deriving DecidableEq, Repr

namespace Writer

def written (w : Writer) : ℕ := w.out.length

def put (w : Writer) (p : Bytes) : Writer :=
  if !w.ok || p.length > w.size - w.written then { w with ok := false }
  else { w with out := w.out ++ p }

def u8 (w : Writer) (v : ℕ) : Writer := w.put (leBytes 1 v)

def u16 (w : Writer) (v : ℕ) : Writer := w.put (leBytes 2 v)

def u32 (w : Writer) (v : ℕ) : Writer := w.put (leBytes 4 v)

def u64 (w : Writer) (v : ℕ) : Writer := w.put (leBytes 8 v)

def bytes (w : Writer) (p : Bytes) : Writer := w.put p

/-! ## Writing with room -/

/-- There is room for `n` more bytes. -/
structure Room (w : Writer) (n : ℕ) : Prop where
  ok : w.ok = true
  fits : w.out.length + n ≤ w.size

/-- The writer after `b` was written. -/
def wrote (w : Writer) (b : Bytes) : Writer := { w with out := w.out ++ b }

@[simp] theorem wrote_out (w : Writer) (b : Bytes) : (w.wrote b).out = w.out ++ b := rfl

@[simp] theorem wrote_wrote (w : Writer) (b c : Bytes) : (w.wrote b).wrote c = w.wrote (b ++ c) := by
  simp [wrote]

@[simp] theorem wrote_nil (w : Writer) : w.wrote [] = w := by simp [wrote]

theorem Room.wrote {w : Writer} {n k : ℕ} (h : w.Room n) {b : Bytes} (hb : b.length + k ≤ n) :
    (w.wrote b).Room k := by
  refine ⟨h.ok, ?_⟩
  have := h.fits
  simp only [Writer.wrote, List.length_append]
  omega

theorem put_eq {w : Writer} {p : Bytes} (h : w.Room p.length) : w.put p = w.wrote p := by
  have := h.fits
  have hle : ¬ p.length > w.size - w.out.length := by omega
  simp [put, wrote, written, h.ok, hle]

/-- Writes one after the other, with room for all of them. -/
theorem puts_eq (ps : List Bytes) {w : Writer} (h : w.Room ps.flatten.length) :
    ps.foldl put w = w.wrote ps.flatten := by
  induction ps generalizing w with
  | nil => simp
  | cons p ps ih =>
      rw [List.flatten_cons, List.length_append] at h
      have hp : w.Room p.length := ⟨h.ok, by have := h.fits; omega⟩
      rw [List.foldl_cons, put_eq hp, ih (h.wrote (Nat.le_refl _)), wrote_wrote, List.flatten_cons]

end Writer

end Rsm.Rpc
