import Mathlib.Algebra.Group.Nat.Defs

/-!
# Little-endian integers

Fixed-width little-endian encodings of natural numbers as byte strings, and the two facts a
binary format needs of them: their length, and that reading back what was written loses only what
the width cannot hold.

* `toLE`, `ofLE` — to bytes and back.
* `ofLE_toLE` — to bytes and back is the number modulo `256 ^ n`.
* `toLE_ofLE` — from bytes and back is the bytes, if there are as many of them.
* `field` — one field of a packed structure.

Numbers are natural numbers here, and so is the width; a format brings its own fixed-width integers and
uses `toNat` and `ofNat` at its borders.
-/

set_option autoImplicit false

/-- A string of bytes. -/
abbrev Bytes := List UInt8

/-- The `n` low-order bytes of `x`, least significant first. -/
def toLE : Nat → Nat → Bytes
  | 0, _ => []
  | n + 1, x => UInt8.ofNat x :: toLE n (x / 256)

/-- The number whose little-endian bytes these are. -/
def ofLE : Bytes → Nat
  | [] => 0
  | b :: bs => b.toNat + 256 * ofLE bs

@[simp] theorem length_toLE (n x : Nat) : (toLE n x).length = n := by
  induction n generalizing x with
  | zero => rfl
  | succ n ih => simp [toLE, ih]

@[simp] theorem toLE_ne_nil (n x : Nat) : toLE (n + 1) x ≠ [] := by simp [toLE]

/-- Reading back an encoding gives the number modulo what the width can hold. -/
theorem ofLE_toLE (n x : Nat) : ofLE (toLE n x) = x % 256 ^ n := by
  induction n generalizing x with
  | zero => simp [toLE, ofLE, Nat.mod_one]
  | succ n ih =>
    have hpow : 256 ^ (n + 1) = 256 * 256 ^ n := Nat.pow_succ'
    rw [toLE, ofLE, ih, UInt8.toNat_ofNat', hpow, Nat.mod_mul]

theorem ofLE_lt (bs : Bytes) : ofLE bs < 256 ^ bs.length := by
  induction bs with
  | nil => simp [ofLE]
  | cons b bs ih =>
    have hb := b.toNat_lt
    rw [ofLE, List.length_cons, Nat.pow_succ]
    omega

/-- Writing back what was read gives the bytes that were there. -/
theorem toLE_ofLE (bs : Bytes) : toLE bs.length (ofLE bs) = bs := by
  induction bs with
  | nil => rfl
  | cons b bs ih =>
    have hb : b.toNat < 256 := b.toNat_lt
    have hd : (b.toNat + 256 * ofLE bs) / 256 = ofLE bs := by omega
    have hm : UInt8.ofNat (b.toNat + 256 * ofLE bs) = b := by
      apply UInt8.toNat_inj.1
      rw [UInt8.toNat_ofNat']
      omega
    rw [List.length_cons, ofLE, toLE, hd, hm, ih]

/-- Only what the width can hold is written. -/
theorem toLE_mod (n x : Nat) : toLE n (x % 256 ^ n) = toLE n x := by
  have h := toLE_ofLE (toLE n x)
  rwa [length_toLE, ofLE_toLE] at h

/-! ## Fixed-width fields

A packed structure is its fields' encodings one after the other.  Reading the field at a given
position skips the encodings in front of it (`field_toLE_append`) and reads the one that is there
(`field_toLE`). -/

/-- The `n`-byte field at position `pos`. -/
def field (bs : Bytes) (pos n : Nat) : Nat := ofLE ((bs.drop pos).take n)

theorem field_toLE_append {k x pos : Nat} {bs : Bytes} {n : Nat} (h : k ≤ pos) :
    field (toLE k x ++ bs) pos n = field bs (pos - k) n := by
  rw [field, field, List.drop_append, List.drop_eq_nil_of_le (by rw [length_toLE]; exact h),
    List.nil_append, length_toLE]

theorem field_toLE {n x : Nat} {bs : Bytes} : field (toLE n x ++ bs) 0 n = x % 256 ^ n := by
  rw [field, List.drop_zero, List.take_append_of_le_length (by simp),
    List.take_of_length_le (by simp), ofLE_toLE]

/-- Writing a field back gives the bytes it was read from. -/
theorem toLE_field {bs : Bytes} {pos n : Nat} (h : pos + n ≤ bs.length) :
    toLE n (field bs pos n) = (bs.drop pos).take n := by
  have hlen : ((bs.drop pos).take n).length = n := by
    rw [List.length_take, List.length_drop]
    omega
  calc toLE n (field bs pos n)
      = toLE ((bs.drop pos).take n).length (ofLE ((bs.drop pos).take n)) := by rw [hlen]; rfl
    _ = (bs.drop pos).take n := toLE_ofLE _
