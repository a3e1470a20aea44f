import MicroStore.PosixFile
import MicroStore.Overloads

/-!
# `File.h`: the running CRC of a file

A `File` forwards its calls to a `FileImpl` and keeps a CRC of what went through them.  The
implementation is a parameter: its methods may transfer less than they are asked for, as those of
`PosixFile` do when the kernel makes them.

## What is here

* `FileImpl` — the virtual methods, with what may be relied on: no more is transferred than was asked
  for.
* `FileObject` — a file with its implementation and its CRC, and the methods of `File` that read or
  write.
* `FileCall`, `FileCall.run` — runs, with the bytes that were transferred.
* `FileCall.Whole` — the condition on a call: a call whose bytes go into the CRC before it is known how
  many are transferred transfers them all.
* `crc_perform`, `running_crc` — the CRC is that of the bytes transferred, after every call of a run
  that meets the condition.
* `crc_of_short_write` — a write that falls short, where it is not.

A read into a buffer needs no condition, since it folds in what was read.
-/

set_option autoImplicit false

namespace MicroStore

/-- `FileImpl`, over the states of its objects.  `none` is `EOF` where the method answers an `int`, and
`(size_t)-1` where it answers a `size_t`; a method that fills a buffer answers the bytes. -/
structure FileImpl (σ : Type) where
  /-- How much is left. -/
  available : σ → Int × σ
  /-- One byte, if there is one. -/
  readByte : σ → Option UInt8 × σ
  /-- How many bytes were written. -/
  writeByte : UInt8 → σ → Option Nat × σ
  /-- The bytes that were read, or a failure. -/
  read : Nat → σ → Option Bytes × σ
  /-- How many bytes were written, or a failure. -/
  write : Buf → σ → Option Nat × σ
  /-- The new position, or a failure. -/
  seek : UInt32 → SeekMode → σ → Option Nat × σ
  /-- No more is read than was asked for. -/
  read_le : ∀ {n s bs}, (read n s).1 = some bs → bs.length ≤ n
  /-- No more than one byte is written. -/
  writeByte_le : ∀ {b s n}, (writeByte b s).1 = some n → n ≤ 1
  /-- No more is written than was given. -/
  write_le : ∀ {buf s n}, (write buf s).1 = some n → n ≤ buf.bytes.length

/-- `File`: `_impl`, with the state of the object it points to, and `_crc`. -/
structure FileObject (σ : Type) where
  /-- The implementation. -/
  impl : FileImpl σ
  /-- Its state. -/
  state : σ
  /-- The CRC so far. -/
  crc : UInt32

namespace FileObject

variable {σ : Type}

/-- `File(FileImpl*)`. -/
def new (impl : FileImpl σ) (state : σ) : FileObject σ := ⟨impl, state, 0⟩

/-- `read()`.  The CRC takes `(uint8_t)ch`, which for `EOF` is `0xFF`. -/
def readByte (f : FileObject σ) : Option UInt8 × FileObject σ :=
  let (n, state) := f.impl.available f.state
  if n ≤ 0 then (none, { f with state := state })
  else
    let (ch, state) := f.impl.readByte state
    (ch, { f with state := state, crc := crc32 f.crc (.at [ch.getD 0xFF]) })

/-- `write(byte)`. -/
def writeByte (f : FileObject σ) (byte : UInt8) : Option Nat × FileObject σ :=
  let crc := crc32 f.crc (.at [byte])
  let (n, state) := f.impl.writeByte byte f.state
  (n, { f with state := state, crc := crc })

/-- `read(uint8_t*, size)`. -/
def read (f : FileObject σ) (size : Nat) : Option Bytes × FileObject σ :=
  let (r, state) := f.impl.read size f.state
  let crc := match r with
    | some bs => if 0 < bs.length then crc32 f.crc (.at bs) else f.crc
    | none => f.crc
  (r, { f with state := state, crc := crc })

/-- `read(void*, size)`. -/
def readVoid (f : FileObject σ) (size : Nat) : Option Bytes × FileObject σ := f.read size

/-- `write(const uint8_t*, size)`. -/
def write (f : FileObject σ) (buffer : Buf) : Option Nat × FileObject σ :=
  let crc := crc32 f.crc buffer
  let (n, state) := f.impl.write buffer f.state
  (n, { f with state := state, crc := crc })

/-- `write(const void*, size)`. -/
def writeVoid (f : FileObject σ) (buffer : Buf) : Option Nat × FileObject σ := f.write buffer

/-- `write(const char*)`. -/
def writeStr (f : FileObject σ) (str : CStr) : Option Nat × FileObject σ := f.write (.at str.chars)

/-- `seek(pos, mode)`. -/
def seek (f : FileObject σ) (pos : UInt32) (mode : SeekMode) : Option Nat × FileObject σ :=
  let (r, state) := f.impl.seek pos mode f.state
  (r, { f with state := state })

end FileObject

/-! ## Runs

A run is a list of calls; the bytes transferred are in the order of the calls. -/

/-- A call of one of the overloads. -/
inductive FileCall
  | readByte
  | read (size : Nat)
  | readVoid (size : Nat)
  | writeByte (byte : UInt8)
  | write (buffer : Buf)
  | writeVoid (buffer : Buf)
  | writeStr (str : CStr)
  | seek (pos : UInt32) (mode : SeekMode)

namespace FileCall

variable {σ : Type}

/-- The bytes a write transferred. -/
def sent (buffer : Buf) (n : Option Nat) : Bytes := buffer.bytes.take (n.getD 0)

/-- The bytes a call reads from the file or writes to it, and the file after it. -/
def perform (f : FileObject σ) : FileCall → Bytes × FileObject σ
  | .readByte => (f.readByte.1.toList, f.readByte.2)
  | .read size => ((f.read size).1.getD [], (f.read size).2)
  | .readVoid size => ((f.readVoid size).1.getD [], (f.readVoid size).2)
  | .writeByte byte => (sent (.at [byte]) (f.writeByte byte).1, (f.writeByte byte).2)
  | .write buffer => (sent buffer (f.write buffer).1, (f.write buffer).2)
  | .writeVoid buffer => (sent buffer (f.writeVoid buffer).1, (f.writeVoid buffer).2)
  | .writeStr str => (sent (.at str.chars) (f.writeStr str).1, (f.writeStr str).2)
  | .seek pos mode => ([], (f.seek pos mode).2)

/-- The bytes a run of calls reads and writes, in order, and the file after it. -/
def run : List FileCall → FileObject σ → Bytes × FileObject σ
  | [], f => ([], f)
  | c :: calls, f => ((c.perform f).1 ++ (run calls (c.perform f).2).1, (run calls (c.perform f).2).2)

/-- The write transfers all of its bytes, and a null pointer comes when the CRC is zero anyway. -/
def WritesAll (f : FileObject σ) (buffer : Buf) : Prop :=
  (f.impl.write buffer f.state).1.getD 0 = buffer.bytes.length ∧ (buffer = .null → f.crc = 0)

instance (f : FileObject σ) (buffer : Buf) : Decidable (WritesAll f buffer) :=
  inferInstanceAs (Decidable (_ ∧ (_ → _)))

/-- The call transfers what it folds into the CRC: a single byte that is announced is read, and writes
are not cut short. -/
def Whole (f : FileObject σ) : FileCall → Prop
  | .readByte => 0 < (f.impl.available f.state).1 →
      (f.impl.readByte (f.impl.available f.state).2).1.isSome
  | .writeByte byte => (f.impl.writeByte byte f.state).1 = some 1
  | .write buffer | .writeVoid buffer => WritesAll f buffer
  | .writeStr str => WritesAll f (.at str.chars)
  | .read _ | .readVoid _ | .seek .. => True

instance (f : FileObject σ) : (c : FileCall) → Decidable (c.Whole f)
  | .readByte => inferInstanceAs (Decidable (_ → _))
  | .writeByte _ => inferInstanceAs (Decidable (_ = _))
  | .write _ | .writeVoid _ | .writeStr _ => inferInstanceAs (Decidable (WritesAll _ _))
  | .read _ | .readVoid _ | .seek .. => isTrue trivial

/-- All calls of the run do. -/
def AllWhole : List FileCall → FileObject σ → Prop
  | [], _ => True
  | c :: calls, f => c.Whole f ∧ AllWhole calls (c.perform f).2

instance : (calls : List FileCall) → (f : FileObject σ) → Decidable (AllWhole calls f)
  | [], _ => isTrue trivial
  | _ :: calls, _ =>
    have := instDecidableAllWhole calls
    inferInstanceAs (Decidable (_ ∧ _))

/-! ## The CRC of the bytes transferred

The CRC of some bytes can be continued with others, so it suffices that each call folds in what it
transferred. -/

/-- The CRC does not depend on how the bytes are cut into chunks. -/
theorem crc32_append (crc : UInt32) (x y : Bytes) :
    crc32 (crc32 crc (.at x)) (.at y) = crc32 crc (.at (x ++ y)) := by
  rw [crc32, crc32, crc32, UInt32.not_not, List.foldl_append]

/-- No bytes, no change. -/
theorem crc32_nil (crc : UInt32) : crc32 crc (.at []) = crc := UInt32.not_not

variable {f : FileObject σ}

/-- A write that transfers everything. -/
theorem crc_write {buffer : Buf} (h : WritesAll f buffer) :
    (f.write buffer).2.crc = crc32 f.crc (.at (sent buffer (f.write buffer).1)) := by
  obtain ⟨hall, hnull⟩ := h
  show crc32 f.crc buffer = crc32 f.crc (.at (buffer.bytes.take ((f.impl.write buffer f.state).1.getD 0)))
  rw [hall, List.take_length]
  cases buffer with
  | null =>
    rw [hnull rfl]
    exact (crc32_nil 0).symm
  | «at» bs => rfl

/-- A read. -/
theorem crc_read (f : FileObject σ) (size : Nat) :
    (f.read size).2.crc = crc32 f.crc (.at ((f.read size).1.getD [])) := by
  rw [FileObject.read]
  dsimp only
  split
  · next bs hr =>
    rw [hr, Option.getD_some]
    split
    · rfl
    · next hlen =>
      obtain rfl : bs = [] := List.length_eq_zero_iff.1 (Nat.eq_zero_of_not_pos hlen)
      exact (crc32_nil _).symm
  · next hr =>
    rw [hr, Option.getD_none]
    exact (crc32_nil _).symm

/-- One call folds into the CRC the bytes it transfers. -/
theorem crc_perform {c : FileCall} (h : c.Whole f) :
    (c.perform f).2.crc = crc32 f.crc (.at (c.perform f).1) := by
  cases c with
  | readByte =>
    show f.readByte.2.crc = crc32 f.crc (.at f.readByte.1.toList)
    rw [FileObject.readByte]
    dsimp only
    split
    · exact (crc32_nil _).symm
    · next hn =>
      obtain ⟨ch, hch⟩ := Option.isSome_iff_exists.1 (h (Int.not_le.1 hn))
      rw [hch]
      rfl
  | read size => exact crc_read f size
  | readVoid size => exact crc_read f size
  | writeByte byte =>
    have hone : (f.impl.writeByte byte f.state).1 = some 1 := h
    show crc32 f.crc (.at [byte]) = crc32 f.crc (.at (sent (.at [byte]) (f.impl.writeByte byte f.state).1))
    rw [hone]
    rfl
  | write buffer => exact crc_write h
  | writeVoid buffer => exact crc_write h
  | writeStr str => exact crc_write h
  | seek pos mode => exact (crc32_nil _).symm

/-- A run. -/
theorem crc_run {calls : List FileCall} (h : AllWhole calls f) :
    (run calls f).2.crc = crc32 f.crc (.at (run calls f).1) := by
  induction calls generalizing f with
  | nil => exact (crc32_nil _).symm
  | cons c calls ih =>
    rw [run]
    dsimp only
    rw [ih h.2, crc_perform h.1, crc32_append]

/-- The first calls of a run that meets the condition meet it. -/
theorem AllWhole.of_prefix {calls calls' : List FileCall} (h : AllWhole calls f) (hp : calls' <+: calls) :
    AllWhole calls' f := by
  induction calls' generalizing calls f with
  | nil => exact trivial
  | cons c calls' ih =>
    obtain ⟨rest, rfl⟩ := hp
    exact ⟨h.1, ih h.2 ⟨rest, rfl⟩⟩

/-- **The running CRC describes the bytes transferred.**  In every run of calls on a fresh file, over any
implementation, in which the calls transfer what they fold into the CRC, the CRC is at every point that
of the bytes read and written so far. -/
theorem running_crc (impl : FileImpl σ) (state : σ) {calls : List FileCall}
    (h : AllWhole calls (.new impl state)) :
    ∀ calls', calls' <+: calls →
      (run calls' (.new impl state)).2.crc = crc32 0 (.at (run calls' (.new impl state)).1) :=
  fun _ hp => crc_run (h.of_prefix hp)

end FileCall

/-! ## Over a descriptor

The implementation of `PosixFile.lean`, as an instance. -/

/-- A descriptor writes no more than it was given. -/
theorem OpenFile.sysWrite_le {f : OpenFile} {t : Transfer} {bs : Bytes} {n : Nat}
    (h : (f.sysWrite t bs).1 = some n) : n ≤ bs.length := by
  obtain ⟨k, -, rfl, -⟩ := OpenFile.remaining_sysWrite (Prod.ext h rfl)
  exact List.length_take_le' _ _

/-- A `PosixFile` whose calls the kernel treats in order as the stream says. -/
def PosixFile.impl : FileImpl (PosixFile × (Nat → Transfer)) where
  available := fun s => (s.1.availableInt, s)
  readByte := fun s => ((s.1.readByte (s.2 0)).1, (s.1.readByte (s.2 0)).2, fun i => s.2 (i + 1))
  writeByte := fun b s =>
    ((s.1.writeByte (s.2 0) b).1, (s.1.writeByte (s.2 0) b).2, fun i => s.2 (i + 1))
  read := fun n s => (some (s.1.read (s.2 0) n).1, (s.1.read (s.2 0) n).2, fun i => s.2 (i + 1))
  write := fun buf s => (some (s.1.write (s.2 0) buf.bytes).1, (s.1.write (s.2 0) buf.bytes).2,
    fun i => s.2 (i + 1))
  seek := fun pos mode s => ((s.1.seek pos mode).1, (s.1.seek pos mode).2, s.2)
  read_le := by
    intro n s bs h
    obtain rfl : (s.1.read (s.2 0) n).1 = bs := Option.some.inj h
    rw [PosixFile.read]
    split
    · exact Nat.zero_le _
    · next hr => exact OpenFile.length_sysRead_le hr
  writeByte_le := by
    intro b s n h
    dsimp only at h
    rw [PosixFile.writeByte] at h
    split at h
    · cases h
    · cases h
      exact Nat.zero_le _
    · cases h
      exact Nat.le_refl 1
  write_le := by
    intro buf s n h
    obtain rfl : (s.1.write (s.2 0) buf.bytes).1 = n := Option.some.inj h
    rw [PosixFile.write]
    split
    · exact Nat.zero_le _
    · next hr => exact OpenFile.sysWrite_le (congrArg Prod.fst hr)

/-- Two bytes are written, then read back one by one, by a kernel that transfers `k` bytes at most. -/
def FileCall.echo : List FileCall :=
  [.write (.at [1, 2]), .seek 0 .set, .readByte, .readByte, .readByte]

/-- A file opened to read and write, under that kernel. -/
def FileObject.sample (k : Nat) : FileObject (PosixFile × (Nat → Transfer)) :=
  .new PosixFile.impl (.opened .readWrite [], fun _ => some k)

theorem FileCall.running_crc_sample :
    (run echo (.sample 2)).2.crc = crc32 0 (.at (run echo (.sample 2)).1) :=
  running_crc PosixFile.impl (.opened .readWrite [], fun _ => some 2)
    (show AllWhole echo _ by decide +kernel) echo (List.prefix_refl _)

/-- A kernel that takes one of the two bytes: the CRC is that of both. -/
theorem FileCall.crc_of_short_write : ¬∀ (σ : Type) (impl : FileImpl σ) (state : σ) (calls : List FileCall),
    (run calls (.new impl state)).2.crc = crc32 0 (.at (run calls (.new impl state)).1) := by
  intro h
  have hshort := h _ PosixFile.impl (.opened .readWrite [], fun _ => some 1) [.write (.at [1, 2])]
  exact absurd hshort (by decide +kernel)

end MicroStore
