import MicroStore.FileStore.Buffer

/-!
# Reasoning about filesystem calls

The functions of a store are programs over filesystem calls.  This file brings the program logic of
`Library/Prog.lean` to these calls, and says what each call does to the files.

## The circumstances of a run

What is proved of a program depends on what its calls may do.  An `Env` fixes that: which calls may fail
(`allowed`), what may be assumed of the files whenever a call is made (`rely`), and what has to hold
whenever one is made (`inv`).  So one statement `E.wp p Q fs` serves several purposes:

* with nothing allowed to fail it is a postcondition of a run without faults (`Env.plain_exec`);
* with every fallible call allowed to fail it holds on every faulty filesystem (`Faulting.lean`);
* its `inv` is an assertion about every moment at which the power may go (`Env.trace_of_wp`), because a
  power loss leaves the files as they are before some call.

`Env.wp_call` is the rule for a call that cannot fail and `Env.wp_call_faulty` the one for a call that may.

## Frames

Most of what has to be said of an operation is what it leaves alone.  `Frame S` is that condition: a
change that leaves every file whose name is not in `S` alone, its inode and its contents.  Frames
compose, and each of the filesystem's changes is one.
-/

set_option autoImplicit false

namespace MicroStore

/-! ## Environments -/

/-- The circumstances a program is run under. -/
structure Env where
  /-- The calls that may fail, in these files. -/
  allowed : FileSystem → Call → Prop
  /-- What may be assumed of the files at a call. -/
  rely : FileSystem → Prop
  /-- What has to be shown of the files at a call, before it. -/
  inv : Call → FileSystem → Prop

namespace Env

/-- The outcomes of a call: the one without a fault, and the failing ones if it may fail. -/
def Outcome (E : Env) (c : Call) (fs : FileSystem) (r : c.Reply) (fs' : FileSystem) : Prop :=
  E.rely fs ∧ ((r, fs') = posix c fs ∨ E.allowed fs c ∧ ∃ n, (r, fs') = failing n c fs)

/-- Weakest preconditions under these circumstances. -/
abbrev wp (E : Env) {α : Type} (p : FsM α) (Q : α → FileSystem → Prop) (fs : FileSystem) : Prop :=
  Prog.wp E.Outcome E.inv p Q fs

variable {E : Env} {α β : Type}

/-- A program that is over. -/
theorem wp_ret {a : α} {Q : α → FileSystem → Prop} {fs : FileSystem} (h : Q a fs) :
    E.wp (pure a) Q fs := h

/-- A step that makes no call. -/
theorem wp_pure_bind {a : α} {f : α → FsM β} {Q : β → FileSystem → Prop} {fs : FileSystem}
    (h : E.wp (f a) Q fs) : E.wp (pure a >>= f) Q fs := h

/-- Sequencing. -/
theorem wp_seq {p : FsM α} {f : α → FsM β} {Q : α → FileSystem → Prop}
    {Q' : β → FileSystem → Prop} {fs : FileSystem} (h : E.wp p Q fs)
    (hf : ∀ a fs', Q a fs' → E.wp (f a) Q' fs') : E.wp (p >>= f) Q' fs :=
  Prog.wp_seq h hf

/-- A call that may fail. -/
theorem wp_call_faulty {c : Call} {f : c.Reply → FsM β} {Q : β → FileSystem → Prop}
    {fs : FileSystem} (hinv : E.inv c fs)
    (h : E.rely fs → E.wp (f (posix c fs).1) Q (posix c fs).2)
    (hfail : ∀ n, E.allowed fs c → E.wp (f (failing n c fs).1) Q (failing n c fs).2) :
    E.wp (call c >>= f) Q fs := by
  refine ⟨hinv, fun r fs' ⟨hrely, hr⟩ => ?_⟩
  rcases hr with hr | ⟨ha, n, hr⟩
  · obtain ⟨rfl, rfl⟩ := Prod.ext_iff.1 hr
    exact h hrely
  · obtain ⟨rfl, rfl⟩ := Prod.ext_iff.1 hr
    exact hfail n ha

/-- A call that cannot fail. -/
theorem wp_call {c : Call} {f : c.Reply → FsM β} {Q : β → FileSystem → Prop} {fs : FileSystem}
    (hinv : E.inv c fs) (hq : ¬E.allowed fs c)
    (h : E.rely fs → E.wp (f (posix c fs).1) Q (posix c fs).2) : E.wp (call c >>= f) Q fs :=
  wp_call_faulty hinv h fun _ ha => absurd ha hq

/-- A call that cannot fail, at the end of a program. -/
theorem wp_last {c : Call} {Q : c.Reply → FileSystem → Prop} {fs : FileSystem}
    (hinv : E.inv c fs) (hq : ¬E.allowed fs c)
    (h : E.rely fs → Q (posix c fs).1 (posix c fs).2) : E.wp (call c) Q fs :=
  wp_call (f := pure) hinv hq h

/-- A fault-free run: whatever the precondition promises comes true, if the files are at every call
as they are relied upon to be. -/
theorem exec_of_wp {p : FsM α} {Q : α → FileSystem → Prop} {fs : FileSystem} (h : E.wp p Q fs)
    (hrely : ∀ x ∈ Prog.trace posix p fs, E.rely x.2) :
    Q (Prog.exec posix p fs).1 (Prog.exec posix p fs).2 :=
  Prog.wp_exec (π := id) h fun x hx => ⟨hrely x hx, .inl rfl⟩

/-- Where nothing may fail, there is only the fault-free run. -/
theorem wp_exec {p : FsM α} {Q : α → FileSystem → Prop} {fs : FileSystem} (h : E.wp p Q fs)
    (hno : ∀ fs c, ¬E.allowed fs c) :
    E.wp p (fun a fs' => Q a fs' ∧ (a, fs') = Prog.exec posix p fs) fs := by
  induction p generalizing fs with
  | ret a => exact ⟨h, rfl⟩
  | call c k ih =>
    refine ⟨h.1, fun r fs' hr => ?_⟩
    obtain he := hr.2.resolve_right fun hfail => hno fs c hfail.1
    obtain ⟨hr₁, hfs₁⟩ := Prod.ext_iff.1 he
    refine Prog.wp_mono (ih r (h.2 r fs' hr)) fun a s hx => ⟨hx.1, hx.2.trans ?_⟩
    dsimp only at hr₁ hfs₁
    rw [Prog.exec, hr₁, hfs₁]

/-- In a fault-free run, `inv` holds at every call. -/
theorem trace_of_wp {p : FsM α} {Q : α → FileSystem → Prop} {fs : FileSystem} (h : E.wp p Q fs)
    (hrely : ∀ x ∈ Prog.trace posix p fs, E.rely x.2) :
    ∀ x ∈ Prog.trace posix p fs, E.inv x.1 x.2 :=
  Prog.wp_trace (π := id) h fun x hx => ⟨hrely x hx, .inl rfl⟩

/-- Any program can be run when nothing is demanded. -/
theorem wp_trivial (hinv : ∀ c fs, E.inv c fs) (p : FsM α) (fs : FileSystem) :
    E.wp p (fun _ _ => True) fs := by
  induction p generalizing fs with
  | ret a => exact trivial
  | call c k ih => exact ⟨hinv c fs, fun r fs' _ => ih r fs'⟩

/-- No call fails, and nothing is relied upon or demanded. -/
def plain : Env := ⟨fun _ _ => False, fun _ => True, fun _ _ => True⟩

/-- Nothing is demanded of a run without faults. -/
theorem plain_wp (p : FsM α) (fs : FileSystem) : plain.wp p (fun _ _ => True) fs :=
  wp_trivial (fun _ _ => trivial) p fs

/-- What is proved of a run without faults holds of it. -/
theorem plain_exec {p : FsM α} {Q : α → FileSystem → Prop} {fs : FileSystem}
    (h : plain.wp p Q fs) : Q (Prog.exec posix p fs).1 (Prog.exec posix p fs).2 :=
  exec_of_wp h fun _ _ => trivial

end Env

/-! ## The files after a call

What the changes `create`, `unlink`, `move` and `setData` do to the names and to the contents.  A change
of names leaves all contents alone, which is why a handle survives the name it was opened under. -/

namespace FileSystem

variable {fs : FileSystem} {p q : Path} {i j : Nat} {bs : Bytes}

@[simp] theorem dir_setData : (fs.setData i bs).dir = fs.dir := rfl

@[simp] theorem next_setData : (fs.setData i bs).next = fs.next := rfl

theorem data_setData : (fs.setData i bs).data j = if j = i then bs else fs.data j := rfl

@[simp] theorem data_setData_self : (fs.setData i bs).data i = bs := if_pos rfl

@[simp] theorem setData_setData (bs' : Bytes) :
    (fs.setData i bs).setData i bs' = fs.setData i bs' := by
  simp only [setData, mk.injEq, true_and, and_true]
  funext j
  split <;> rfl

/-- Writing what is there changes nothing. -/
@[simp] theorem setData_data : fs.setData i (fs.data i) = fs := by
  have h : (fun j => if j = i then fs.data i else fs.data j) = fs.data := by
    funext j
    split
    · next hj => rw [hj]
    · rfl
  simp only [setData, h]

theorem dir_create : (fs.create p).dir q = if q = p then some fs.next else fs.dir q := rfl

@[simp] theorem dir_create_self : (fs.create p).dir p = some fs.next := if_pos rfl

@[simp] theorem data_create_next : (fs.create p).data fs.next = [] := if_pos rfl

theorem dir_unlink : (fs.unlink p).dir q = if q = p then none else fs.dir q := rfl

@[simp] theorem dir_unlink_self : (fs.unlink p).dir p = none := if_pos rfl

@[simp] theorem data_unlink : (fs.unlink p).data = fs.data := rfl

theorem dir_move {src dst : Path} :
    (fs.move src dst).dir q = if q = dst then fs.dir src else if q = src then none else fs.dir q :=
  rfl

@[simp] theorem data_move {src dst : Path} : (fs.move src dst).data = fs.data := rfl

theorem file_eq_some (h : fs.dir p = some i) : fs.file p = some (fs.data i) := by
  rw [file, h, Option.map_some]

theorem file_eq_none : fs.file p = none ↔ fs.dir p = none := Option.map_eq_none_iff

end FileSystem

/-! ## Frames

The names in `S` are those a program may touch.  Two names never lead to one inode, so writing through a
handle is a change of one file. -/

/-- Every file whose name is not in `S` keeps its inode, and the inode its contents. -/
def Frame (S : Path → Prop) (fs fs' : FileSystem) : Prop :=
  ∀ p, ¬S p → fs'.dir p = fs.dir p ∧ ∀ i, fs.dir p = some i → fs'.data i = fs.data i

namespace Frame

variable {S T : Path → Prop} {fs fs' fs'' : FileSystem} {p q : Path} {i : Nat} {bs : Bytes}

/-- Doing nothing. -/
theorem refl (S : Path → Prop) (fs : FileSystem) : Frame S fs fs :=
  fun _ _ => ⟨rfl, fun _ _ => rfl⟩

/-- One change after another. -/
theorem trans (h : Frame S fs fs') (h' : Frame S fs' fs'') : Frame S fs fs'' := by
  intro p hp
  obtain ⟨h1, h2⟩ := h p hp
  obtain ⟨h3, h4⟩ := h' p hp
  exact ⟨h3.trans h1, fun i hi => (h4 i (h1.trans hi)).trans (h2 i hi)⟩

/-- A change of fewer files. -/
theorem mono (h : Frame S fs fs') (hST : ∀ p, S p → T p) : Frame T fs fs' :=
  fun p hp => h p fun hS => hp (hST p hS)

/-- Names outside the frame keep their inodes. -/
theorem dir (h : Frame S fs fs') (hp : ¬S p) : fs'.dir p = fs.dir p := (h p hp).1

/-- These inodes keep their contents. -/
theorem data (h : Frame S fs fs') (hp : ¬S p) (hi : fs.dir p = some i) :
    fs'.data i = fs.data i := (h p hp).2 i hi

/-- So these files stay as they are. -/
theorem file (h : Frame S fs fs') (hp : ¬S p) : fs'.file p = fs.file p := by
  rw [FileSystem.file, FileSystem.file, h.dir hp]
  cases hi : fs.dir p with
  | none => rfl
  | some i => exact congrArg some (h.data hp hi)

/-- Writing to a file whose name is in the frame. -/
theorem setData (hq : fs.dir q = some i) (hS : S q) : Frame S fs (fs.setData i bs) := by
  refine fun p hp => ⟨rfl, fun j hj => ?_⟩
  have hne : j ≠ i := by
    rintro rfl
    exact hp (fs.inj hj hq ▸ hS)
  exact if_neg hne

theorem ne_of_not (hp : ¬S p) (hq : S q) : p ≠ q := by
  rintro rfl
  exact hp hq

theorem create (hS : S p) : Frame S fs (fs.create p) := by
  refine fun q hq => ⟨if_neg (ne_of_not hq hS), fun j hj => if_neg ?_⟩
  exact Nat.ne_of_lt (fs.lt_next hj)

theorem unlink (hS : S p) : Frame S fs (fs.unlink p) :=
  fun _ hq => ⟨if_neg (ne_of_not hq hS), fun _ _ => rfl⟩

theorem move (hp : S p) (hq : S q) : Frame S fs (fs.move p q) := by
  refine fun r hr => ⟨?_, fun _ _ => rfl⟩
  rw [FileSystem.dir_move, if_neg (ne_of_not hr hq), if_neg (ne_of_not hr hp)]

end Frame

end MicroStore
