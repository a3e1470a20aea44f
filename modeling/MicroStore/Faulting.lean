import MicroStore.Writing

/-!
# When any call may fail

The rules for a filesystem on which any call fails that can: an open may yield no file, a read or a
write may fall short, a rename may do nothing.  Nothing is relied upon and nothing is demanded, so
what is proved here holds of every run on every `faulty` filesystem (`Env.harsh_exec`).

## What is here

* `Call.Fallible` — the calls that can fail.  Moving along a file, closing it and removing it do not.
* `Env.harsh` — the circumstances in which each of them may fail at any time.
* `harsh_read`, `harsh_openRead`, `harsh_write` and so on — one rule for each kind of call, with the
  outcomes a program has to be prepared for.
* `harsh_writeAll` — several writes in a row, of which any may fall short.

These are used where a property is about failures: the cooldown after a compaction that could not
be carried out, the bound on the number of records, the write buffer.
-/

set_option autoImplicit false

namespace MicroStore

/-- The calls that may fail. -/
def Call.Fallible : Call → Prop
  | .open .. | .read .. | .write .. | .rename .. => True
  | .seek .. | .tell .. | .flush .. | .close .. | .remove .. | .mkdir .. => False

/-- A fault does nothing to a call that cannot fail. -/
theorem failing_eq {c : Call} (h : ¬c.Fallible) (n : Nat) (fs : FileSystem) :
    failing n c fs = posix c fs := by
  cases c with
  | «open» | read | write | rename => exact absurd trivial h
  | seek | tell | flush | close | remove | mkdir => rfl

namespace Env

/-- Any call may fail. -/
def harsh : Env := ⟨fun _ c => c.Fallible, fun _ => True, fun _ _ => True⟩

variable {α β : Type} {fs : FileSystem}

/-- **What is proved of the harsh environment** holds whatever the faults. -/
theorem harsh_exec {p : FsM α} {Q : α → FileSystem → Prop} {w : World} (h : harsh.wp p Q w.fs)
    (φ : Faults) :
    Q (Prog.exec (faulty φ) p w).1 (Prog.exec (faulty φ) p w).2.fs := by
  refine Prog.wp_exec (π := World.fs) h fun x _ => ⟨trivial, ?_⟩
  obtain ⟨c, w⟩ := x
  rw [faulty]
  dsimp only
  cases φ w.calls w.fs c with
  | none => exact .inl rfl
  | some n =>
    by_cases hc : c.Fallible
    · exact .inr ⟨hc, n, rfl⟩
    · dsimp only
      rw [failing_eq hc]
      exact .inl rfl

/-- Nothing is demanded. -/
theorem harsh_wp (p : FsM α) (fs : FileSystem) : harsh.wp p (fun _ _ => True) fs :=
  wp_trivial (fun _ _ => trivial) p fs

/-- A call that cannot fail. -/
theorem harsh_call {c : Call} {k : c.Reply → FsM β} {Q : β → FileSystem → Prop} (hc : ¬c.Fallible)
    (h : harsh.wp (k (posix c fs).1) Q (posix c fs).2) : harsh.wp (call c >>= k) Q fs :=
  wp_call trivial hc fun _ => h

/-- A program whose result does not matter. -/
theorem harsh_ignore {p : FsM α} {k : α → FsM β} {Q : β → FileSystem → Prop}
    (h : ∀ a fs', harsh.wp (k a) Q fs') : harsh.wp (p >>= k) Q fs :=
  wp_seq (harsh_wp p fs) fun a fs' _ => h a fs'

/-- A read transfers a part of what is there, all that was asked for if it transfers as much. -/
theorem harsh_read {f : Handle} {n : Nat} {k : Bytes × Handle → FsM β} {Q : β → FileSystem → Prop}
    (h : ∀ bs (f' : Handle), f'.ino = f.ino → f'.mode = f.mode →
      (bs.length = n → f.mode.canRead = true → bs = (f.rest fs).take n ∧ f'.pos = f.pos + n) →
      harsh.wp (k (bs, f')) Q fs) : harsh.wp (f.readBytes n >>= k) Q fs := by
  refine wp_call_faulty trivial (fun _ => ?_) fun m _ => ?_
  · refine h _ _ rfl rfl fun hlen hread => ?_
    rw [if_pos hread] at hlen ⊢
    exact ⟨rfl, congrArg (f.pos + ·) hlen⟩
  · refine h _ _ rfl rfl fun hlen hread => ?_
    rw [if_pos hread] at hlen ⊢
    -- as many bytes as were asked for means that nothing was cut off
    have hle : n ≤ min m n := Nat.le_trans (Nat.le_of_eq hlen.symm) (List.length_take_le _ _)
    rw [Nat.min_eq_right (Nat.le_trans hle (Nat.min_le_left _ _))] at hlen ⊢
    exact ⟨rfl, congrArg (f.pos + ·) hlen⟩

/-- Opening a file for reading. -/
theorem harsh_openRead {p : Path} {k : File → FsM β} {Q : β → FileSystem → Prop}
    (h : ∀ f : File, (∀ g, f = some g → fs.dir p = some g.ino ∧ g.pos = 0 ∧ g.mode = .read) →
      harsh.wp (k f) Q fs) : harsh.wp (openFile p .read >>= k) Q fs := by
  refine wp_call_faulty trivial (fun _ => ?_) fun _ _ => h none fun _ hg => nomatch hg
  cases hd : fs.dir p with
  | none =>
    have hp : posix (.open p .read) fs = (none, fs) := by
      rw [posix, hd]
      rfl
    rw [hp]
    exact h none fun _ hg => nomatch hg
  | some i =>
    have hp : posix (.open p .read) fs = (some ⟨i, 0, .read⟩, fs) := by
      rw [posix, hd]
      rfl
    rw [hp]
    refine h _ fun g hg => ?_
    obtain rfl := Option.some.inj hg
    exact ⟨hd, rfl, rfl⟩

/-- Opening a file to write it anew. -/
theorem harsh_openWrite {p : Path} {k : File → FsM β} {Q : β → FileSystem → Prop}
    (hsome : ∀ i, fs.dir p = some i → harsh.wp (k (some ⟨i, 0, .write⟩)) Q (fs.setData i []))
    (hnew : harsh.wp (k (some ⟨fs.next, 0, .write⟩)) Q (fs.create p)) (hnone : harsh.wp (k none) Q fs) :
    harsh.wp (openFile p .write >>= k) Q fs := by
  refine wp_call_faulty trivial (fun _ => ?_) fun _ _ => hnone
  cases hd : fs.dir p with
  | none =>
    have hp : posix (.open p .write) fs = (some ⟨fs.next, 0, .write⟩, fs.create p) := by
      rw [posix, hd]
      rfl
    rw [hp]
    exact hnew
  | some i =>
    have hp : posix (.open p .write) fs = (some ⟨i, 0, .write⟩, fs.setData i []) := by
      rw [posix, hd]
      rfl
    rw [hp]
    exact hsome i hd

theorem harsh_remove {p : Path} {k : Bool → FsM β} {Q : β → FileSystem → Prop}
    (h : ∀ b, harsh.wp (k b) Q (fs.unlink p)) : harsh.wp (removeFile p >>= k) Q fs :=
  harsh_call (by exact id) (h _)

end Env

/-! ## Writes anywhere in a file

Where a write has fallen short the next one does not land behind what it should have written, so the
rules speak of `overwrite` at a position instead of the end of the file. -/

/-- Two writes in a row are one. -/
theorem overwrite_overwrite (old : Bytes) (pos : Nat) (x y : Bytes) :
    overwrite (overwrite old pos x) (pos + x.length) y = overwrite old pos (x ++ y) := by
  obtain ⟨pad, hpad⟩ : ∃ pad, old.take pos ++ List.replicate (pos - old.length) 0 = pad := ⟨_, rfl⟩
  have hlen : pad.length = pos := by
    rw [← hpad, List.length_append, List.length_take, List.length_replicate]
    omega
  have hx : overwrite old pos x = (pad ++ x) ++ old.drop (pos + x.length) := by
    rw [overwrite, hpad]
  have hpx : (pad ++ x).length = pos + x.length := by rw [List.length_append, hlen]
  have hgap : pos + x.length - (overwrite old pos x).length = 0 := by
    rw [hx, List.length_append, hpx]
    omega
  rw [overwrite, hgap, hx, List.take_left' hpx, ← List.drop_drop, List.drop_left' hpx,
    List.drop_drop, overwrite, hpad, List.length_append, Nat.add_assoc]
  simp

namespace Env

variable {β : Type} {f : Handle} {fs : FileSystem}

/-- A write transfers what it is given, or the beginning of it. -/
theorem harsh_write {bs : Bytes} (hmode : f.mode = .write) {k : Nat × Handle → FsM β}
    {Q : β → FileSystem → Prop}
    (h : ∀ x : Bytes, x <+: bs →
      harsh.wp (k (x.length, { f with pos := f.pos + x.length })) Q
        (fs.setData f.ino (overwrite (fs.data f.ino) f.pos x))) :
    harsh.wp (f.writeBytes bs >>= k) Q fs := by
  have hposix (x : Bytes) : posix (.write f x) fs
      = ((x.length, { f with pos := f.pos + x.length }),
        fs.setData f.ino (overwrite (fs.data f.ino) f.pos x)) := by
    rw [posix, if_neg (by rw [hmode]; decide), if_pos (by rw [hmode]; rfl)]
    rfl
  refine wp_call_faulty trivial (fun _ => ?_) fun n _ => ?_
  · rw [hposix]
    exact h bs (List.prefix_refl bs)
  · rw [failing, hposix]
    exact h _ (List.take_prefix n bs)

/-- Several writes in a row, wherever the handle stands.  The count tells whether all of it has been
written. -/
theorem harsh_writeAll {c : Bytes} {chunks : List Bytes} (hmode : f.mode = .write)
    {Q : Nat × Handle → FileSystem → Prop}
    (h : ∀ n (f' : Handle) bs, f'.ino = f.ino → f'.mode = .write →
      n ≤ (c :: chunks).flatten.length →
      (n = (c :: chunks).flatten.length →
        bs = overwrite (fs.data f.ino) f.pos (c :: chunks).flatten ∧ f'.pos = f.pos + n) →
      Q (n, f') (fs.setData f.ino bs)) :
    harsh.wp (f.writeAll (c :: chunks)) Q fs := by
  induction chunks generalizing c f fs Q with
  | nil =>
    rw [Handle.writeAll]
    refine harsh_write hmode fun x hx => ?_
    have hflat : [c].flatten = c := by simp
    rw [hflat] at h
    refine h x.length _ _ rfl hmode hx.length_le fun hlen => ⟨?_, rfl⟩
    rw [hx.eq_of_length hlen]
  | cons d chunks ih =>
    rw [Handle.writeAll]
    refine harsh_write hmode fun x hx => ?_
    have hle := hx.length_le
    refine Prog.wp_bind.2 (@ih { f with pos := f.pos + x.length } _ d hmode _
      fun n f' bs hi hm hn hall => ?_)
    rw [FileSystem.data_setData_self] at hall
    rw [FileSystem.setData_setData]
    rw [List.flatten_cons, List.length_append] at h
    refine h (x.length + n) f' bs hi hm (by omega) fun hlen => ?_
    -- all of it has been written only if each of the two parts has
    have hxc : x = c := hx.eq_of_length (by omega)
    obtain ⟨hbs, hpos⟩ := hall (by omega)
    subst hxc
    rw [overwrite_overwrite] at hbs
    exact ⟨hbs, hpos.trans (Nat.add_assoc _ _ _)⟩

end Env

end MicroStore
