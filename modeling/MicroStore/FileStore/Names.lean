import MicroStore.FileStore.State

/-!
# The names of the store files

Under a prefix short enough for the generated names to fit their buffers, different store files
have different names.

The names are printed into a `char[USTORE_MAX_FILENAME_LEN]`, so a long prefix leaves no room for what
tells the files apart, and then two of them have the same name.  Everything that is proved about a store
and its files needs the names to be different, and takes it as `NamesOk`.

* `StoreFile.Valid` — the files a store can have: the number of a segment comes from a `uint8_t` count.
* `NamesOk` — different files have different names.
* `namesOk_of_length_le` — 48 characters are short enough.

Which prefixes leave room, exactly, and what two stores do to each other that share their files, is in
`Naming.lean`.
-/

set_option autoImplicit false

namespace MicroStore

/-- The store files a `uint8_t` segment count can reach. -/
def StoreFile.Valid : StoreFile → Prop
  | .segment id => id < 256
  | .index | .journal | .tmp => True

/-- Different store files have different names. -/
def NamesOk (pre : Path) : Prop :=
  ∀ a b : StoreFile, a.Valid → b.Valid → storePath pre a = storePath pre b → a = b

/-- Decimal numerals determine their number. -/
theorem toDigits_inj {m n : Nat} (h : Nat.toDigits 10 m = Nat.toDigits 10 n) : m = n := by
  rw [← Nat.ofDigitChars_toDigits (b := 10) (n := m) (by decide) (by decide), h,
    Nat.ofDigitChars_toDigits (by decide) (by decide)]

theorem StoreFile.suffix_inj {a b : StoreFile} (h : a.suffix = b.suffix) : a = b := by
  cases a <;> cases b <;> simp [StoreFile.suffix] at h ⊢
  exact toDigits_inj h

theorem StoreFile.length_suffix_le {a : StoreFile} (h : a.Valid) : a.suffix.length ≤ 11 := by
  cases a with
  | segment id =>
    have hlen : (Nat.toDigits 10 id).length ≤ 3 :=
      (Nat.length_toDigits_le_iff (by decide) (by decide)).2 (Nat.lt_trans h (by decide))
    simp [StoreFile.suffix]
    omega
  | index | journal | tmp => simp [StoreFile.suffix]

/-- A name that fits its buffer is not cut. -/
theorem storePath_eq {pre : Path} (hpre : pre.length ≤ 48) {a : StoreFile} (ha : a.Valid) :
    storePath pre a = pre ++ (prefixSep pre ++ a.suffix) := by
  have hsep : (prefixSep pre).length ≤ 1 := by
    rw [prefixSep]
    split <;> simp
  have hlen := StoreFile.length_suffix_le ha
  refine List.take_of_length_le ?_
  simp only [List.length_append, maxFilenameLen]
  omega

/-- **The files of a store do not collide** when its prefix has at most 48 characters. -/
theorem namesOk_of_length_le {pre : Path} (hpre : pre.length ≤ 48) : NamesOk pre := by
  intro a b ha hb h
  rw [storePath_eq hpre ha, storePath_eq hpre hb] at h
  exact StoreFile.suffix_inj (List.append_cancel_left (List.append_cancel_left h))

namespace NamesOk

variable {pre : Path} (h : NamesOk pre)
include h

theorem ne {a b : StoreFile} (ha : a.Valid) (hb : b.Valid) (hab : a ≠ b) :
    storePath pre a ≠ storePath pre b :=
  fun he => hab (h a b ha hb he)

end NamesOk

end MicroStore
