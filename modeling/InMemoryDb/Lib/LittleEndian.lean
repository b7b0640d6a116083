import Mathlib.Tactic

/-!
# Fixed-width little-endian fields

Every length, sequence number and checksum of a byte format is a fixed-width
little-endian field.  The encoder below keeps the low `width` bytes of its
argument, so a value that does not fit is truncated exactly as a narrowing
cast truncates it; the decoder reads the bytes back.
-/

namespace InMemoryDb.LittleEndian

/-- The low `width` bytes of `value`, least significant byte first. -/
def leBytes : ℕ → ℕ → List UInt8
  | 0, _ => []
  | width + 1, value => UInt8.ofNat value :: leBytes width (value / 256)

/-- The number denoted by a little-endian byte string. -/
def leNat : List UInt8 → ℕ
  | [] => 0
  | byte :: bytes => byte.toNat + 256 * leNat bytes

@[simp]
theorem length_leBytes (width value : ℕ) :
    (leBytes width value).length = width := by
  induction width generalizing value with
  | zero => rfl
  | succ width ih => simp [leBytes, ih]

/-- Reading a field back gives the value modulo the field's range. -/
theorem leNat_leBytes (width value : ℕ) :
    leNat (leBytes width value) = value % 256 ^ width := by
  induction width generalizing value with
  | zero => simp [leBytes, leNat, Nat.mod_one]
  | succ width ih =>
      have hbyte : (UInt8.ofNat value).toNat = value % 256 := by simp
      rw [leBytes, leNat, ih, hbyte, pow_succ', Nat.mod_mul]

theorem leNat_leBytes_of_lt {width value : ℕ} (hlt : value < 256 ^ width) :
    leNat (leBytes width value) = value := by
  rw [leNat_leBytes, Nat.mod_eq_of_lt hlt]

/-- Writing a number back gives the field it was read from. -/
theorem leBytes_leNat (bytes : List UInt8) : leBytes bytes.length (leNat bytes) = bytes := by
  induction bytes with
  | nil => rfl
  | cons byte bytes ih =>
      have hbyte : byte.toNat < 256 := byte.toNat_lt
      have hlow : UInt8.ofNat (byte.toNat + 256 * leNat bytes) = byte := by
        apply UInt8.toNat_inj.mp
        rw [UInt8.toNat_ofNat']
        omega
      rw [List.length_cons, leNat, leBytes, hlow]
      congr 1
      rw [show (byte.toNat + 256 * leNat bytes) / 256 = leNat bytes by omega]
      exact ih

end InMemoryDb.LittleEndian
