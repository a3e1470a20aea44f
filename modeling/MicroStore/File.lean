import MicroStore.Library.Prog
import MicroStore.Library.Bytes

/-!
# `File.h` and `FileSystem.h`: the filesystem a store runs on

A store reaches its filesystem through the calls of `FileSystem` and `File`, and `Call` lists the
ones it makes.  A file handle knows the inode it was opened on, its position and its mode; a
`File` is a handle or nothing, the latter being an unopened, failed or closed file.

The filesystem itself is a directory of names over numbered inodes, as POSIX has it: a handle goes
on working on its inode after the name is gone, and bytes written through it do not reach a file
created under that name later.

## What is here

* `Mode`, `Handle`, `File` — what the store holds of an open file.
* `Call` and `Call.Reply` — one constructor for each function of the filesystem that a store calls, with
  what it answers.  `FsM` are the programs over these calls; the functions of the store are such programs,
  so one definition runs on every filesystem below.
* `FileSystem` — names over inodes, with `create`, `unlink`, `move` and `setData` as its only changes.
* `posix` — the filesystem whose calls do not fail.
* `faulty` — the same with a pattern of faults, which is consulted at every call: an open that yields
  nothing, a read or a write that falls short, a rename that does nothing.

What the calls leave alone, and how programs are reasoned about, is in `FileSpec.lean`; the POSIX
adapter, one level below these calls, is in `PosixFile.lean`.
-/

set_option autoImplicit false

namespace MicroStore

/-- A file name, as the characters of a C string. -/
abbrev Path := List Char

/-- `File::Mode`. -/
inductive Mode
  | read
  | write
  | append
  | readWrite
  | readAppend
  deriving DecidableEq, Repr

/-- `SeekMode`. -/
inductive SeekMode
  | set
  | cur
  | «end»
  deriving DecidableEq, Repr

/-- An open file: the inode behind it, the read/write position and the mode it was opened in. -/
structure Handle where
  /-- The file that was opened, whatever its name is now. -/
  ino : Nat
  /-- Where the next read or write starts. -/
  pos : Nat
  /-- The mode of `open`. -/
  mode : Mode
  deriving DecidableEq, Repr

/-- A `File` object.  `none` is a file for which `isValid()` is false. -/
abbrev File := Option Handle

/-- May the handle be read? -/
def Mode.canRead : Mode → Bool
  | .read | .readWrite | .readAppend => true
  | .write | .append => false

/-- May the handle be written? -/
def Mode.canWrite : Mode → Bool
  | .read => false
  | .write | .append | .readWrite | .readAppend => true

/-- Do writes go to the end of the file (`O_APPEND`)? -/
def Mode.appends : Mode → Bool
  | .append | .readAppend => true
  | .read | .write | .readWrite => false

/-- Does opening create a missing file (`O_CREAT`)? -/
def Mode.creates : Mode → Bool
  | .read => false
  | .write | .append | .readWrite | .readAppend => true

/-- Does opening cut the file to nothing (`O_TRUNC`)? -/
def Mode.truncates : Mode → Bool
  | .write | .readWrite => true
  | .read | .append | .readAppend => false

/-! ## Calls -/

/-- The filesystem calls a store makes. -/
inductive Call
  | «open» (path : Path) (mode : Mode)
  | read (f : Handle) (size : Nat)
  | write (f : Handle) (data : Bytes)
  | seek (f : Handle) (pos : Nat) (mode : SeekMode)
  | tell (f : Handle)
  | flush (f : Handle)
  | close (f : Handle)
  | remove (path : Path)
  | rename (src dst : Path)
  | mkdir (path : Path)
  deriving DecidableEq, Repr

/-- What a call answers.  A read answers the bytes it transferred, a write their number; both, like
a seek, also answer the handle with its new position. -/
def Call.Reply : Call → Type
  | .open .. => File
  | .read .. => Bytes × Handle
  | .write .. => Nat × Handle
  | .seek .. => Handle
  | .tell .. => Nat
  | .flush .. | .close .. => Unit
  | .remove .. | .rename .. | .mkdir .. => Bool

/-- Programs over the filesystem. -/
abbrev FsM := Prog Call Call.Reply

/-! ## The filesystem -/

/-- The files: names over inodes, and the contents of every inode ever used.  Inodes are not used again,
so a handle on a file that has been removed keeps what it had.  A name's inode has
been used, and no inode has two names. -/
structure FileSystem where
  /-- The directory: the inode of a name. -/
  dir : Path → Option Nat
  /-- The contents of an inode. -/
  data : Nat → Bytes
  /-- The inode that will be used next. -/
  next : Nat
  /-- A name's inode has been used. -/
  lt_next : ∀ {p i}, dir p = some i → i < next
  /-- No inode has two names. -/
  inj : ∀ {p q i}, dir p = some i → dir q = some i → p = q

namespace FileSystem

/-- No files. -/
def empty : FileSystem := ⟨fun _ => none, fun _ => [], 0, nofun, nofun⟩

/-- The contents of the file of that name, if there is one. -/
def file (fs : FileSystem) (p : Path) : Option Bytes := (fs.dir p).map fs.data

/-- Set the contents of an inode. -/
def setData (fs : FileSystem) (i : Nat) (bs : Bytes) : FileSystem :=
  { fs with data := fun j => if j = i then bs else fs.data j }

/-- Give the name a new, empty inode. -/
def create (fs : FileSystem) (p : Path) : FileSystem where
  dir := fun q => if q = p then some fs.next else fs.dir q
  data := fun j => if j = fs.next then [] else fs.data j
  next := fs.next + 1
  lt_next := by
    intro q i h
    split at h
    · cases h; omega
    · exact Nat.lt_succ_of_lt (fs.lt_next h)
  inj := by
    intro q r i hq hr
    split at hq <;> split at hr
    · simp_all
    · cases hq; exact absurd (fs.lt_next hr) (Nat.lt_irrefl _)
    · cases hr; exact absurd (fs.lt_next hq) (Nat.lt_irrefl _)
    · exact fs.inj hq hr

/-- Drop the name. -/
def unlink (fs : FileSystem) (p : Path) : FileSystem where
  dir := fun q => if q = p then none else fs.dir q
  data := fs.data
  next := fs.next
  lt_next := by
    intro q i h
    split at h
    · cases h
    · exact fs.lt_next h
  inj := by
    intro q r i hq hr
    split at hq <;> split at hr
    · cases hq
    · cases hq
    · cases hr
    · exact fs.inj hq hr

/-- Move the inode of `src` to the name `dst`. -/
def move (fs : FileSystem) (src dst : Path) : FileSystem where
  dir := fun q => if q = dst then fs.dir src else if q = src then none else fs.dir q
  data := fs.data
  next := fs.next
  lt_next := by
    intro q i h
    split at h
    · exact fs.lt_next h
    · split at h
      · cases h
      · exact fs.lt_next h
  inj := by
    intro q r i hq hr
    have key : ∀ {x}, (if x = dst then fs.dir src else if x = src then none else fs.dir x) = some i →
        x = dst ∧ fs.dir src = some i ∨ x ≠ src ∧ x ≠ dst ∧ fs.dir x = some i := by
      intro x hx
      split at hx
      · exact .inl ⟨‹_›, hx⟩
      · split at hx
        · cases hx
        · exact .inr ⟨‹_›, ‹_›, hx⟩
    rcases key hq with ⟨rfl, h1⟩ | ⟨h1, -, h2⟩ <;> rcases key hr with ⟨rfl, h3⟩ | ⟨h3, -, h4⟩
    · rfl
    · exact absurd (fs.inj h4 h1) h3
    · exact absurd (fs.inj h2 h3) h1
    · exact fs.inj h2 h4

end FileSystem

/-- Overwrite the bytes from `pos` on; a gap past the end reads as zeros. -/
def overwrite (old : Bytes) (pos : Nat) (bs : Bytes) : Bytes :=
  old.take pos ++ List.replicate (pos - old.length) 0 ++ bs ++ old.drop (pos + bs.length)

/-! ## The calls that do not fail -/

/-- The filesystem whose calls do not fail. -/
def posix : (c : Call) → FileSystem → c.Reply × FileSystem
  | .open p mode, fs =>
    match fs.dir p with
    | some i => (some ⟨i, 0, mode⟩, if mode.truncates then fs.setData i [] else fs)
    | none => if mode.creates then (some ⟨fs.next, 0, mode⟩, fs.create p) else (none, fs)
  | .read f n, fs =>
    let bs := if f.mode.canRead then ((fs.data f.ino).drop f.pos).take n else []
    ((bs, { f with pos := f.pos + bs.length }), fs)
  | .write f bs, fs =>
    if f.mode.appends then
      ((bs.length, { f with pos := (fs.data f.ino).length + bs.length }),
        fs.setData f.ino (fs.data f.ino ++ bs))
    else if f.mode.canWrite then
      ((bs.length, { f with pos := f.pos + bs.length }),
        fs.setData f.ino (overwrite (fs.data f.ino) f.pos bs))
    else ((0, f), fs)
  | .seek f pos .set, fs => ({ f with pos := pos }, fs)
  | .seek f pos .cur, fs => ({ f with pos := f.pos + pos }, fs)
  | .seek f pos .end, fs => ({ f with pos := (fs.data f.ino).length + pos }, fs)
  | .tell f, fs => (f.pos, fs)
  | .flush _, fs => ((), fs)
  | .close _, fs => ((), fs)
  | .remove p, fs => ((fs.dir p).isSome, fs.unlink p)
  | .rename src dst, fs =>
    if (fs.dir src).isSome then (true, if src = dst then fs else fs.move src dst) else (false, fs)
  | .mkdir _, fs => (true, fs)

/-! ## Faults -/

/-- The outcome of a call that fails: an open yields no file, a read or a write transfers only the
first `n` bytes, a rename does nothing.  The other calls cannot fail. -/
def failing (n : Nat) : (c : Call) → FileSystem → c.Reply × FileSystem
  | .open _ _, fs => (none, fs)
  | .read f size, fs => posix (.read f (min n size)) fs
  | .write f bs, fs => posix (.write f (bs.take n)) fs
  | .rename _ _, fs => (false, fs)
  | .seek f pos mode, fs => posix (.seek f pos mode) fs
  | .tell f, fs => posix (.tell f) fs
  | .flush f, fs => posix (.flush f) fs
  | .close f, fs => posix (.close f) fs
  | .remove p, fs => posix (.remove p) fs
  | .mkdir p, fs => posix (.mkdir p) fs

/-- A filesystem with the number of calls made on it so far. -/
structure World where
  /-- The files. -/
  fs : FileSystem
  /-- How many calls have been made. -/
  calls : Nat

/-- A pattern of faults: for the `n`-th call, made on these files, either no fault or how many
bytes still get through. -/
abbrev Faults := Nat → FileSystem → Call → Option Nat

/-- The filesystem on which the calls fail as `φ` says. -/
def faulty (φ : Faults) (c : Call) (w : World) : c.Reply × World :=
  let r := match φ w.calls w.fs c with
    | none => posix c w.fs
    | some n => failing n c w.fs
  (r.1, ⟨r.2, w.calls + 1⟩)

end MicroStore
