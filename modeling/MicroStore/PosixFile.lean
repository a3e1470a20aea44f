import MicroStore.File

/-!
# `PosixFileSystem.h`: how much of a file is left

`PosixFileSystem::FileImpl` keeps the number of bytes between the position and the end of the file in
`_available`, and its methods adjust the number instead of asking for it.  The kernel's side is an
`OpenFile`; a read or a write may fail or transfer less than it was asked for, and each call says how.

## What is here

* `OpenFile` with `sysRead`, `sysWrite` and `lseek` — a descriptor: the contents, the position and the
  mode it was opened with.  A write through a descriptor that appends goes to the end.
* `PosixFile` — the class, with its methods as the source has them.  `availableInt` is the number as the
  caller gets it, an `int`.
* `FileStep` and `FileStep.states` — runs of the methods, with the state after each.
* `PosixFile.Exact` — the number is that of the bytes from the position to the end; `PosixFile.Tells` —
  the caller is told so.
* `FileStep.Meets` — the condition on a step: if it appends anything, it appends at least as much as was
  left of the file, because the method takes what was written from that number.
* `write_exact_iff`, `perform_exact_iff`, `tells_iff` — the condition is exact, for one call and for a
  run.
* `available_tracks_iff` — the result, and `available_drifts`, the overwriting that a test of the
  repository does.
-/

set_option autoImplicit false

namespace MicroStore

/-! ## The kernel

What `read(2)`, `write(2)` and `lseek(2)` do to an open file.  How much they transfer is up to the
`Transfer` of the call. -/

/-- What the kernel makes of a read or a write: it fails, or it transfers so many bytes at most. -/
abbrev Transfer := Option Nat

/-- The open file behind a descriptor. -/
structure OpenFile where
  /-- The contents. -/
  data : Bytes
  /-- The position. -/
  pos : Nat
  /-- The mode it was opened with. -/
  mode : Mode
  deriving DecidableEq, Repr

namespace OpenFile

/-- `read(2)`. -/
def sysRead (f : OpenFile) (t : Transfer) (n : Nat) : Option Bytes × OpenFile :=
  match t with
  | none => (none, f)
  | some k =>
    if f.mode.canRead then
      let bs := (f.data.drop f.pos).take (min k n)
      (some bs, { f with pos := f.pos + bs.length })
    else (none, f)

/-- `write(2)`.  With `O_APPEND` the bytes go to the end of the file, and the position after them; a
write of no bytes has no effect. -/
def sysWrite (f : OpenFile) (t : Transfer) (bs : Bytes) : Option Nat × OpenFile :=
  match t with
  | none => (none, f)
  | some k =>
    if f.mode.canWrite then
      let bs := bs.take k
      if bs = [] then (some 0, f)
      else if f.mode.appends then
        (some bs.length, { f with data := f.data ++ bs, pos := f.data.length + bs.length })
      else
        (some bs.length, { f with data := overwrite f.data f.pos bs, pos := f.pos + bs.length })
    else (none, f)

/-- Where `SEEK_SET`, `SEEK_CUR` and `SEEK_END` count from. -/
def seekBase (f : OpenFile) : SeekMode → Nat
  | .set => 0
  | .cur => f.pos
  | .end => f.data.length

/-- `lseek(2)`, which fails where an `off_t` cannot hold the position. -/
def lseek (f : OpenFile) (offset : Nat) (whence : SeekMode) : Option Nat × OpenFile :=
  let pos := f.seekBase whence + offset
  if pos < 2 ^ 63 then (some pos, { f with pos := pos }) else (none, f)

/-- The bytes from the position on. -/
def remaining (f : OpenFile) : Nat := f.data.length - f.pos

end OpenFile

/-! ## The file

The members and methods of `FileImpl`. -/

/-- `PosixFileSystem::FileImpl`: the file of `_fd`, and `_available`. -/
structure PosixFile where
  /-- The open file. -/
  file : OpenFile
  /-- `_available`. -/
  available : Nat
  deriving DecidableEq, Repr

namespace PosixFile

/-- `FileSystemImpl::open` on a file with these bytes, or on none, which is created empty.  The
constructor of `FileImpl` sets `_available` to the size. -/
def opened (mode : Mode) (old : Bytes) : PosixFile :=
  let data := if mode.truncates then [] else old
  ⟨⟨data, 0, mode⟩, data.length⟩

/-- `size`. -/
def size (f : PosixFile) : Nat := f.file.data.length

/-- `read()`; `none` is `EOF`. -/
def readByte (f : PosixFile) (t : Transfer) : Option UInt8 × PosixFile :=
  if f.available = 0 then (none, f)
  else
    match f.file.sysRead t 1 with
    | (some (ch :: _), file) => (some ch, ⟨file, f.available - 1⟩)
    | (_, file) => (none, { f with file := file })

/-- `write(ch)`; `none` is `(size_t)-1`. -/
def writeByte (f : PosixFile) (t : Transfer) (ch : UInt8) : Option Nat × PosixFile :=
  match f.file.sysWrite t [ch] with
  | (none, file) => (none, { f with file := file })
  | (some 0, file) => (some 0, { f with file := file })
  | (some _, file) => (some 1, ⟨file, if 0 < f.available then f.available - 1 else 0⟩)

/-- `read(buffer, size)`: the bytes put into the buffer.  The subtraction is one of `size_t`. -/
def read (f : PosixFile) (t : Transfer) (size : Nat) : Bytes × PosixFile :=
  match f.file.sysRead t size with
  | (none, file) => ([], { f with file := file })
  | (some bs, file) => (bs, ⟨file, (f.available + 2 ^ 64 - bs.length) % 2 ^ 64⟩)

/-- `write(buffer, size)`. -/
def write (f : PosixFile) (t : Transfer) (bs : Bytes) : Nat × PosixFile :=
  match f.file.sysWrite t bs with
  | (none, file) => (0, { f with file := file })
  | (some wrote, file) =>
    (wrote, ⟨file, if wrote ≤ f.available then f.available - wrote else 0⟩)

/-- `available()`, which converts the `size_t` to an `int`. -/
def availableInt (f : PosixFile) : Int := (f.available : Int).bmod (2 ^ 32)

/-- `peek()`; `none` is `EOF`.  The position goes back over the byte. -/
def peek (f : PosixFile) (t : Transfer) : Option UInt8 × PosixFile :=
  if f.available = 0 then (none, f)
  else
    match f.file.sysRead t 1 with
    | (some (ch :: _), file) => (some ch, { f with file := { file with pos := file.pos - 1 } })
    | (_, file) => (none, { f with file := file })

/-- `tell()`. -/
def tell (f : PosixFile) : Nat := f.file.pos

/-- `seek(pos, mode)`. -/
def seek (f : PosixFile) (pos : UInt32) (mode : SeekMode) : Option Nat × PosixFile :=
  match f.file.lseek pos.toNat mode with
  | (none, file) => (none, { f with file := file })
  | (some newPos, file) =>
    (some newPos, ⟨file, if newPos ≤ file.data.length then file.data.length - newPos else 0⟩)

end PosixFile

/-! ## Runs

A run starts with the state that `open` leaves. -/

/-- A call on the file, and what the kernel makes of it. -/
inductive FileStep
  | readByte (t : Transfer)
  | writeByte (t : Transfer) (ch : UInt8)
  | read (t : Transfer) (size : Nat)
  | write (t : Transfer) (bs : Bytes)
  | peek (t : Transfer)
  | seek (pos : UInt32) (mode : SeekMode)

namespace FileStep

/-- The file after the call. -/
def perform (f : PosixFile) : FileStep → PosixFile
  | .readByte t => (f.readByte t).2
  | .writeByte t ch => (f.writeByte t ch).2
  | .read t size => (f.read t size).2
  | .write t bs => (f.write t bs).2
  | .peek t => (f.peek t).2
  | .seek pos mode => (f.seek pos mode).2

/-- The file at the start, between the calls and at the end. -/
def states : List FileStep → PosixFile → List PosixFile
  | [], f => [f]
  | s :: steps, f => f :: states steps (s.perform f)

/-- The bytes the call writes, if the kernel lets it. -/
def writes : FileStep → Bytes
  | .writeByte (some k) ch => [ch].take k
  | .write (some k) bs => bs.take k
  | .writeByte none _ | .write none _ | .readByte _ | .read .. | .peek _ | .seek .. => []

/-- Bytes that the call appends leave none behind them that were after the position before. -/
def Meets (f : PosixFile) (s : FileStep) : Prop :=
  f.file.mode.appends = true → s.writes ≠ [] → f.file.remaining ≤ s.writes.length

instance (f : PosixFile) (s : FileStep) : Decidable (s.Meets f) := inferInstanceAs (Decidable (_ → _))

/-- Every call of the run meets the condition, and an `int` holds what is left of the file. -/
def MeetsAll : List FileStep → PosixFile → Prop
  | [], f => f.file.remaining < 2 ^ 31
  | s :: steps, f => f.file.remaining < 2 ^ 31 ∧ s.Meets f ∧ MeetsAll steps (s.perform f)

end FileStep

namespace PosixFile

/-- `available()` answers what is left of the file. -/
def Tells (f : PosixFile) : Prop := f.availableInt = f.file.remaining

instance (f : PosixFile) : Decidable f.Tells := Int.instDecidableEq _ _

/-- The count is exact. -/
def Exact (f : PosixFile) : Prop := f.available = f.file.remaining

variable {f : PosixFile}

/-- A number below `2 ^ 31` is an `int`. -/
theorem availableInt_eq (h : f.available < 2 ^ 31) : f.availableInt = f.available := by
  unfold availableInt Int.bmod
  simp only [Nat.reducePow] at h ⊢
  omega

/-- An exact count is told exactly when an `int` holds it. -/
theorem Exact.tells_iff (h : f.Exact) : f.Tells ↔ f.file.remaining < 2 ^ 31 := by
  constructor
  · intro ht
    have hlt : f.availableInt < 2 ^ 31 := by
      unfold availableInt Int.bmod
      simp only [Nat.reducePow, Int.reducePow]
      omega
    rw [ht] at hlt
    omega
  · intro hlt
    rw [Tells, availableInt_eq (h ▸ hlt), h]

/-- Below that the caller is told the number. -/
theorem tells_iff_exact (h : f.available < 2 ^ 31) : f.Tells ↔ f.Exact := by
  rw [Tells, availableInt_eq h, Exact]
  exact Int.ofNat_inj

/-- It is exact after `open`. -/
theorem opened_exact (mode : Mode) (old : Bytes) : (opened mode old).Exact := rfl

end PosixFile

/-! ## One call

Reads and seeks keep the number exact.  A write does exactly under the condition. -/

section step

variable {f : PosixFile}

/-- The length of a file after a write. -/
theorem length_overwrite (old bs : Bytes) (pos : Nat) :
    (overwrite old pos bs).length = max old.length (pos + bs.length) := by
  simp only [overwrite, List.length_append, List.length_take, List.length_replicate, List.length_drop]
  omega

/-- Reading moves the position over the bytes read. -/
theorem OpenFile.remaining_sysRead {f file : OpenFile} {t : Transfer} {n : Nat} {bs : Bytes}
    (h : f.sysRead t n = (some bs, file)) :
    file.remaining + bs.length = f.remaining ∧ file.data = f.data ∧ file.pos = f.pos + bs.length := by
  rw [sysRead.eq_def] at h
  cases t with
  | none => cases h
  | some k =>
    dsimp only at h
    split at h
    · cases h
      refine ⟨?_, rfl, rfl⟩
      simp only [remaining, List.length_take, List.length_drop]
      omega
    · cases h

/-- No more is read than was asked for. -/
theorem OpenFile.length_sysRead_le {f file : OpenFile} {t : Transfer} {n : Nat} {bs : Bytes}
    (h : f.sysRead t n = (some bs, file)) : bs.length ≤ n := by
  rw [sysRead.eq_def] at h
  cases t with
  | none => cases h
  | some k =>
    dsimp only at h
    split at h
    · cases h
      exact Nat.le_trans (List.length_take_le _ _) (Nat.min_le_right _ _)
    · cases h

/-- A read that fails leaves the file alone. -/
theorem OpenFile.sysRead_none {f file : OpenFile} {t : Transfer} {n : Nat}
    (h : f.sysRead t n = (none, file)) : file = f := by
  rw [sysRead.eq_def] at h
  cases t with
  | none => cases h; rfl
  | some k =>
    dsimp only at h
    split at h
    · cases h
    · cases h; rfl

/-- A read that yields no byte leaves the count exact. -/
theorem OpenFile.exact_of_no_byte (h : f.Exact) {t : Transfer} {n : Nat} {r : Option Bytes}
    {file : OpenFile} (hr : f.file.sysRead t n = (r, file)) (hno : ∀ ch tail, r ≠ some (ch :: tail)) :
    ({ f with file := file } : PosixFile).Exact := by
  cases r with
  | none =>
    rw [sysRead_none hr]
    exact h
  | some bs =>
    cases bs with
    | cons ch tail => exact absurd rfl (hno ch tail)
    | nil => exact h.trans (remaining_sysRead hr).1.symm

/-- Writing at the position takes its bytes from what was left; appending leaves nothing. -/
theorem OpenFile.remaining_sysWrite {f file : OpenFile} {t : Transfer} {bs : Bytes} {n : Nat}
    (h : f.sysWrite t bs = (some n, file)) :
    ∃ k, t = some k ∧ n = (bs.take k).length ∧
      file.remaining = if f.mode.appends ∧ bs.take k ≠ [] then 0 else f.remaining - n := by
  rw [sysWrite.eq_def] at h
  cases t with
  | none => cases h
  | some k =>
    refine ⟨k, rfl, ?_⟩
    dsimp only at h
    split at h
    · split at h
      · next hnil =>
        cases h
        rw [hnil]
        exact ⟨rfl, (if_neg (by simp)).symm⟩
      split at h
      · next hnil happ =>
        cases h
        rw [if_pos ⟨happ, hnil⟩]
        exact ⟨rfl, by simp [remaining]⟩
      · next hnil happ =>
        cases h
        rw [if_neg (fun hc => happ hc.1)]
        refine ⟨rfl, ?_⟩
        rw [remaining, remaining]
        dsimp only
        rw [length_overwrite]
        omega
    · cases h

/-- A write that fails leaves the file alone, and was not one the kernel would let append. -/
theorem OpenFile.sysWrite_none {f file : OpenFile} {t : Transfer} {bs : Bytes}
    (h : f.sysWrite t bs = (none, file)) : file = f ∧ (f.mode.appends = true → t = none) := by
  rw [sysWrite.eq_def] at h
  cases t with
  | none =>
    cases h
    exact ⟨rfl, fun _ => rfl⟩
  | some k =>
    dsimp only at h
    split at h
    · split at h
      · cases h
      split at h <;> cases h
    · next hno =>
      cases h
      refine ⟨rfl, fun happ => absurd ?_ hno⟩
      cases hm : f.mode <;> first | rfl | (rw [hm] at happ; cases happ)

/-- A seek that fails does nothing. -/
theorem OpenFile.lseek_none {f file : OpenFile} {offset : Nat} {whence : SeekMode}
    (h : f.lseek offset whence = (none, file)) : file = f := by
  unfold lseek at h
  dsimp only at h
  split at h
  · cases h
  · cases h
    rfl

/-- One that succeeds sets the position. -/
theorem OpenFile.lseek_some {f file : OpenFile} {offset newPos : Nat} {whence : SeekMode}
    (h : f.lseek offset whence = (some newPos, file)) : file.pos = newPos := by
  unfold lseek at h
  dsimp only at h
  split at h
  · cases h
    rfl
  · cases h

/-- The saturating subtraction of the write methods. -/
theorem saturate (a n : Nat) : (if n ≤ a then a - n else 0) = a - n := by
  split
  · rfl
  · omega

/-- The position goes forward by a read, and the count with it. -/
theorem PosixFile.read_exact (h : f.Exact) (hlt : f.file.remaining < 2 ^ 31) (t : Transfer)
    (size : Nat) : (f.read t size).2.Exact := by
  rw [read]
  split
  · next file hr =>
    rw [OpenFile.sysRead_none hr]
    exact h
  · next bs file hr =>
    have hrem := (OpenFile.remaining_sysRead hr).1
    rw [Exact] at h ⊢
    dsimp only
    omega

/-- Reading a byte keeps the number exact. -/
theorem PosixFile.readByte_exact (h : f.Exact) (t : Transfer) : (f.readByte t).2.Exact := by
  rw [readByte]
  split
  · exact h
  split
  · next ch tail file hr =>
    have hrem := (OpenFile.remaining_sysRead hr).1
    have hone := OpenFile.length_sysRead_le hr
    rw [Exact] at h ⊢
    dsimp only
    rw [List.length_cons] at hrem hone
    omega
  · next file hno hr =>
    exact OpenFile.exact_of_no_byte h hr fun ch tail he => hno ch tail he

/-- So does looking at one. -/
theorem PosixFile.peek_exact (h : f.Exact) (t : Transfer) : (f.peek t).2.Exact := by
  rw [peek]
  split
  · exact h
  split
  · next ch tail file hr =>
    obtain ⟨-, hdata, hpos⟩ := OpenFile.remaining_sysRead hr
    have hone := OpenFile.length_sysRead_le hr
    have hback : ({ file with pos := file.pos - 1 } : OpenFile).remaining = f.file.remaining := by
      rw [List.length_cons] at hpos hone
      rw [OpenFile.remaining, OpenFile.remaining, hdata]
      dsimp only
      omega
    exact h.trans hback.symm
  · next file hno hr =>
    exact OpenFile.exact_of_no_byte h hr fun ch tail he => hno ch tail he

/-- So does a seek. -/
theorem PosixFile.seek_exact (h : f.Exact) (pos : UInt32) (mode : SeekMode) :
    (f.seek pos mode).2.Exact := by
  rw [seek]
  split
  · next file hs =>
    rw [OpenFile.lseek_none hs]
    exact h
  · next newPos file hs =>
    rw [Exact, OpenFile.remaining, OpenFile.lseek_some hs]
    exact saturate _ _

/-- A write counts right exactly when it is none that appends in front of bytes to read. -/
theorem PosixFile.write_exact_iff (h : f.Exact) {t : Transfer} {bs : Bytes} {n : Nat}
    {file : OpenFile} (hw : f.file.sysWrite t bs = (some n, file)) :
    (⟨file, f.available - n⟩ : PosixFile).Exact ↔ (FileStep.write t bs).Meets f := by
  obtain ⟨k, rfl, rfl, hrem⟩ := OpenFile.remaining_sysWrite hw
  rw [Exact] at h ⊢
  rw [FileStep.Meets, FileStep.writes, hrem]
  dsimp only
  split
  · next hc =>
    constructor
    · intro he _ _
      omega
    · intro hm
      have hle := hm hc.1 hc.2
      omega
  · next hc =>
    constructor
    · intro _ happ hne
      exact absurd ⟨happ, hne⟩ hc
    · intro _
      rw [h]

end step

namespace FileStep

variable {f : PosixFile} {s : FileStep}

/-- What a write leaves, exact or not, an `int` holds. -/
theorem perform_exact_iff (h : f.Exact) (hlt : f.file.remaining < 2 ^ 31) :
    ((s.perform f).Exact ↔ s.Meets f) ∧ ((s.perform f).Tells → s.Meets f) := by
  have free (hw : s.writes = []) (he : (s.perform f).Exact) :
      ((s.perform f).Exact ↔ s.Meets f) ∧ ((s.perform f).Tells → s.Meets f) :=
    ⟨iff_of_true he fun _ hne => absurd hw hne, fun _ _ hne => absurd hw hne⟩
  -- a write through, whichever of the two methods makes it
  have written {t : Transfer} {bs : Bytes} {n : Nat} {file : OpenFile}
      (hs : s.writes = (write t bs).writes) (hp : s.perform f = ⟨file, f.available - n⟩)
      (hw : f.file.sysWrite t bs = (some n, file)) :
      ((s.perform f).Exact ↔ s.Meets f) ∧ ((s.perform f).Tells → s.Meets f) := by
    have hiff := PosixFile.write_exact_iff h hw
    have hsmall : (⟨file, f.available - n⟩ : PosixFile).available < 2 ^ 31 := by
      have ha : f.available < 2 ^ 31 := h ▸ hlt
      exact Nat.lt_of_le_of_lt (Nat.sub_le _ _) ha
    rw [hp, Meets, hs]
    exact ⟨hiff, fun ht => hiff.1 ((PosixFile.tells_iff_exact hsmall).1 ht)⟩
  have failed {t : Transfer} {bs : Bytes} {file : OpenFile} (hs : s.writes = (write t bs).writes)
      (hp : s.perform f = { f with file := file }) (hw : f.file.sysWrite t bs = (none, file)) :
      ((s.perform f).Exact ↔ s.Meets f) ∧ ((s.perform f).Tells → s.Meets f) := by
    obtain ⟨rfl, hnone⟩ := OpenFile.sysWrite_none hw
    have hm : s.Meets f := fun happ hne => by
      rw [hs, hnone happ] at hne
      exact absurd rfl hne
    rw [hp]
    exact ⟨iff_of_true h hm, fun _ => hm⟩
  cases s with
  | readByte t => exact free rfl (PosixFile.readByte_exact h t)
  | read t size => exact free rfl (PosixFile.read_exact h hlt t size)
  | peek t => exact free rfl (PosixFile.peek_exact h t)
  | seek pos mode => exact free rfl (PosixFile.seek_exact h pos mode)
  | writeByte t ch =>
    have hp : (writeByte t ch).perform f = (f.writeByte t ch).2 := rfl
    have hs : (writeByte t ch).writes = (write t [ch]).writes := by cases t <;> rfl
    rw [PosixFile.writeByte] at hp
    split at hp
    · next file hw => exact failed hs hp hw
    · next file hw => exact written hs hp hw
    · next n file hzero hw =>
      obtain ⟨k, -, rfl, -⟩ := OpenFile.remaining_sysWrite hw
      have hone : ([ch].take k).length = 1 := by
        have hle : ([ch].take k).length ≤ 1 := List.length_take_le' _ _
        have hpos : ([ch].take k).length ≠ 0 := hzero
        omega
      rw [hone] at hw
      have hsub : (if 0 < f.available then f.available - 1 else 0) = f.available - 1 :=
        saturate f.available 1
      rw [hsub] at hp
      exact written hs hp hw
  | write t bs =>
    have hp : (write t bs).perform f = (f.write t bs).2 := rfl
    rw [PosixFile.write] at hp
    split at hp
    · next file hw => exact failed rfl hp hw
    · next n file hw =>
      rw [saturate] at hp
      exact written rfl hp hw

/-- A run that starts from an exact count. -/
theorem tells_iff (h : f.Exact) (steps : List FileStep) :
    (∀ g ∈ states steps f, g.Tells) ↔ MeetsAll steps f := by
  induction steps generalizing f with
  | nil => simpa [states, MeetsAll] using h.tells_iff
  | cons s steps ih =>
    rw [states, List.forall_mem_cons, h.tells_iff, MeetsAll]
    refine and_congr_right fun hlt => ?_
    obtain ⟨hexact, htells⟩ := perform_exact_iff (s := s) h hlt
    constructor
    · intro hall
      have hm := htells (hall _ (by cases steps <;> exact List.mem_cons_self))
      exact ⟨hm, (ih (hexact.2 hm)).1 hall⟩
    · rintro ⟨hm, hall⟩
      exact (ih (hexact.2 hm)).2 hall

/-- **`available()` tracks the position** exactly in the runs that never append in front of bytes still
to be read, as long as an `int` holds what is left.  The file is opened in any mode, on any bytes, and
the kernel lets the calls fail or fall short as it likes. -/
theorem available_tracks_iff (mode : Mode) (old : Bytes) (steps : List FileStep) :
    (∀ g ∈ states steps (.opened mode old), g.availableInt = max 0 ((g.file.data.length : Int) - g.file.pos))
      ↔ MeetsAll steps (.opened mode old) := by
  rw [← tells_iff (PosixFile.opened_exact mode old)]
  refine forall_congr' fun g => imp_congr_right fun _ => ?_
  rw [PosixFile.Tells, OpenFile.remaining]
  omega

/-- Ten bytes, opened to read and append: back to the start, four bytes read, three written. -/
def overwriteTest : List FileStep :=
  [.seek 0 .set, .read (some 4) 4, .write (some 3) [0xAA, 0xBB, 0xCC]]

/-- After the write nothing is left, and `available()` answers three. -/
theorem available_drifts : ¬∀ (mode : Mode) (old : Bytes) (steps : List FileStep),
    ∀ g ∈ states steps (.opened mode old),
      g.availableInt = max 0 ((g.file.data.length : Int) - g.file.pos) := by
  intro h
  have hall := h .readAppend [0, 1, 2, 3, 4, 5, 6, 7, 8, 9] overwriteTest
  exact absurd hall (by decide)

end FileStep

end MicroStore
