import MicroStore.Scan

/-!
# What the writing calls do

Every write of a store lands at the end of a file: the segments and the index file are opened for
appending, `compact.tmp` and the journal are cut to nothing when they are opened and written front
to back.  So a file only ever grows by what is written, and what is to be shown at each write is that the
file holds a prefix of what it is meant to hold.

## What is here

* `Handle.AtEnd` — the writes of this handle land at the end of its file; `posix_write` is what they do.
* `wp_writeAll` — the rule for several writes in a row, with or without faults.  The invariant of the
  circumstances has to hold at every prefix of the chunks, which is what a power loss in between needs.
* `Env.Streams`, `wp_flushBuffer`, `wp_appendBuffer` — the write buffer of the active segment.  Whatever the
  buffer holds back, the file and the buffer together are the stream of bytes put into it.

What a write does in the middle of a file, or when it falls short, is in `Faulting.lean`; the buffer on
any filesystem, and what it does when its file is not open, is in `Buffering.lean`.
-/

set_option autoImplicit false

namespace MicroStore

/-- The call keeps the invariant and does not fail. -/
def Env.Ok (E : Env) (c : Call) (fs : FileSystem) : Prop := E.inv c fs ∧ ¬E.allowed fs c

/-- Without faults every call is fine. -/
theorem Env.plain_ok (c : Call) (fs : FileSystem) : Env.plain.Ok c fs := ⟨trivial, id⟩

/-- Writes through the handle go to the end of the file. -/
def Handle.AtEnd (f : Handle) (fs : FileSystem) : Prop :=
  f.mode.appends = true ∨ f.mode.canWrite = true ∧ f.pos = (fs.data f.ino).length

/-- Writing at the end appends. -/
theorem overwrite_end (old bs : Bytes) : overwrite old old.length bs = old ++ bs := by
  simp [overwrite]

/-- A write at the end of the file. -/
theorem posix_write {f : Handle} {fs : FileSystem} (h : f.AtEnd fs) (bs : Bytes) :
    posix (.write f bs) fs = ((bs.length, { f with pos := (fs.data f.ino).length + bs.length }),
      fs.setData f.ino (fs.data f.ino ++ bs)) := by
  rw [posix]
  split
  · rfl
  · next happ =>
    obtain ⟨hw, hpos⟩ := h.resolve_left happ
    rw [if_pos hw, hpos, overwrite_end]
    rfl

/-- After a write the handle is at the end of the file again. -/
theorem Handle.AtEnd.write {f : Handle} {fs : FileSystem} (h : f.AtEnd fs) (bs : Bytes) :
    Handle.AtEnd { f with pos := (fs.data f.ino).length + bs.length }
      (fs.setData f.ino (fs.data f.ino ++ bs)) := by
  rcases h with h | h
  · exact .inl h
  · refine .inr ⟨h.1, ?_⟩
    rw [FileSystem.data_setData_self, List.length_append]

section writes

variable {E : Env} {β : Type} {fs : FileSystem}

/-- Several writes in a row.  Unless a fault gets in the way, which `F` then accounts for, the file
receives all the chunks; the count that is returned tells the two apart. -/
theorem wp_writeAll {F : Prop} {chunks : List Bytes} {f : Handle} (hf : f.AtEnd fs)
    (hinv : ∀ (f' : Handle) (x bs : Bytes), f'.ino = f.ino → f'.mode = f.mode →
      (x ++ bs <+: chunks.flatten ∨ F) →
      E.inv (.write f' bs) (fs.setData f.ino (fs.data f.ino ++ x)))
    (hfault : ∀ (f' : Handle) (x bs : Bytes), f'.ino = f.ino →
      E.allowed (fs.setData f.ino (fs.data f.ino ++ x)) (.write f' bs) → F)
    {Q : Nat × Handle → FileSystem → Prop}
    (hQ : ∀ (f' : Handle) (x : Bytes), f'.ino = f.ino → f'.mode = f.mode →
      f'.AtEnd (fs.setData f.ino (fs.data f.ino ++ x)) →
      (x = chunks.flatten ∨ F ∧ x.length < chunks.flatten.length) →
      Q (x.length, f') (fs.setData f.ino (fs.data f.ino ++ x))) :
    E.wp (f.writeAll chunks) Q fs := by
  induction chunks generalizing f fs Q with
  | nil =>
    have h := hQ f [] rfl rfl (by simpa using hf) (.inl rfl)
    exact Env.wp_ret (by simpa using h)
  | cons c chunks ih =>
    rw [Handle.writeAll]
    -- the first write transfers `c'`, all of `c` unless there was a fault
    have step (c' : Bytes) (hc' : c' = c ∨ F ∧ c'.length < c.length) :
        E.wp (Handle.writeAll { f with pos := (fs.data f.ino).length + c'.length } chunks >>=
          fun x => pure (c'.length + x.1, x.2)) Q
          (fs.setData f.ino (fs.data f.ino ++ c')) := by
      refine Prog.wp_bind.2 (ih (hf.write c') ?_ ?_ ?_)
      · intro f' x bs hi hm hx
        simp only [FileSystem.setData_setData, FileSystem.data_setData_self, List.append_assoc]
        refine hinv f' (c' ++ x) bs hi hm ?_
        rcases hc' with rfl | hc'
        · refine hx.imp_left fun hx => ?_
          rw [List.flatten_cons, List.append_assoc]
          exact (List.prefix_append_right_inj _).2 hx
        · exact .inr hc'.1
      · intro f' x bs hi ha
        simp only [FileSystem.setData_setData, FileSystem.data_setData_self,
          List.append_assoc] at ha
        exact hfault f' (c' ++ x) bs hi ha
      · intro f' x hi hm hend hx
        simp only [FileSystem.setData_setData, FileSystem.data_setData_self,
          List.append_assoc] at hend ⊢
        have h := hQ f' (c' ++ x) hi hm hend (by
          rcases hc' with rfl | hc'
          · refine hx.imp (fun hx => by rw [hx]; rfl) fun hx => ⟨hx.1, ?_⟩
            simp only [List.flatten_cons, List.length_append]
            omega
          · refine .inr ⟨hc'.1, ?_⟩
            have hle : x.length ≤ chunks.flatten.length := by
              rcases hx with rfl | hx
              · exact Nat.le_refl _
              · exact Nat.le_of_lt hx.2
            simp only [List.flatten_cons, List.length_append]
            omega)
        rw [List.length_append] at h
        exact h
    have hinv0 := hinv f [] c rfl rfl (.inl (by simp))
    have hfault0 := hfault f [] c rfl
    simp only [List.append_nil, FileSystem.setData_data] at hinv0 hfault0
    refine Env.wp_call_faulty hinv0 (fun _ => ?_) fun n ha => ?_
    · rw [posix_write hf]
      exact step c (.inl rfl)
    · rw [failing, posix_write hf]
      refine step (c.take n) ?_
      by_cases hn : c.length ≤ n
      · exact .inl (List.take_of_length_le hn)
      · refine .inr ⟨hfault0 ha, ?_⟩
        rw [List.length_take]
        omega

/-- Several writes in a row that do not fail. -/
theorem wp_writeAll_ok {chunks : List Bytes} {f : Handle} (hf : f.AtEnd fs)
    (hinv : ∀ (f' : Handle) (x bs : Bytes), f'.ino = f.ino → f'.mode = f.mode →
      x ++ bs <+: chunks.flatten →
      E.inv (.write f' bs) (fs.setData f.ino (fs.data f.ino ++ x)))
    (hfault : ∀ (f' : Handle) (x bs : Bytes), f'.ino = f.ino →
      ¬E.allowed (fs.setData f.ino (fs.data f.ino ++ x)) (.write f' bs))
    {Q : Nat × Handle → FileSystem → Prop}
    (hQ : ∀ (f' : Handle), f'.ino = f.ino → f'.mode = f.mode →
      f'.AtEnd (fs.setData f.ino (fs.data f.ino ++ chunks.flatten)) →
      Q (chunks.flatten.length, f') (fs.setData f.ino (fs.data f.ino ++ chunks.flatten))) :
    E.wp (f.writeAll chunks) Q fs := by
  refine wp_writeAll hf (fun f' x bs hi hm hx => hinv f' x bs hi hm (hx.resolve_right id)) hfault
    fun f' x hi hm hend hx => ?_
  obtain rfl := hx.resolve_right And.left
  exact hQ f' hi hm hend

/-! ## The write buffer

`append_buffer` fills the array and flushes it whenever it is full.  The invariant carries the whole
stream `full` from the start: what is in the file is a prefix of it, and so is what is in the file
together with what is in the buffer. -/

/-- Calls on a file to which `full` is being written, with `x` of it there already. -/
structure Env.Streams (E : Env) (fs : FileSystem) (i : Nat) (full : Bytes) : Prop where
  /-- A write that continues the stream is fine, with any prefix of it in the file. -/
  write : ∀ (f : Handle) (x bs : Bytes), f.ino = i → f.mode = .readAppend →
    fs.data i <+: x → x ++ bs <+: full → E.Ok (.write f bs) (fs.setData i x)
  /-- A flush is fine at any time. -/
  flush : ∀ (f : Handle) (x : Bytes), fs.data i <+: x → x <+: full →
    E.Ok (.flush f) (fs.setData i x)

/-- It stays so after a part has been written. -/
theorem Env.Streams.step {i : Nat} {full x : Bytes} (h : E.Streams fs i full)
    (hx : fs.data i <+: x) : E.Streams (fs.setData i x) i full where
  write f y bs hi hm hxy hy := by
    rw [FileSystem.setData_setData]
    rw [FileSystem.data_setData_self] at hxy
    exact h.write f y bs hi hm (hx.trans hxy) hy
  flush f y hxy hy := by
    rw [FileSystem.setData_setData]
    rw [FileSystem.data_setData_self] at hxy
    exact h.flush f y (hx.trans hxy) hy

/-- Flushing the buffer appends it to the active file. -/
theorem wp_flushBuffer {st : Store} {f : Handle} {full : Bytes} (hf : st.activeFile = some f)
    (hm : f.mode = .readAppend) (hE : E.Streams fs f.ino full)
    (hpre : fs.data f.ino ++ st.writeBuf <+: full) {Q : Bool × Store → FileSystem → Prop}
    (hQ : ∀ f' : Handle, f'.ino = f.ino → f'.mode = .readAppend →
      Q (true, { st with activeFile := some f', writeBuf := [] })
        (fs.setData f.ino (fs.data f.ino ++ st.writeBuf))) :
    E.wp st.flushBuffer Q fs := by
  rw [Store.flushBuffer]
  split
  · next hnil =>
    have h := hQ f rfl hm
    rw [hnil, List.append_nil, FileSystem.setData_data, ← hf, ← hnil] at h
    exact h
  · rw [hf]
    dsimp only
    have hend : f.AtEnd fs := .inl (by rw [hm]; rfl)
    have hw := hE.write f (fs.data f.ino) st.writeBuf rfl hm (List.prefix_refl _) hpre
    rw [FileSystem.setData_data] at hw
    refine Env.wp_call hw.1 hw.2 fun _ => ?_
    rw [posix_write hend]
    have hfl := hE.flush { f with pos := (fs.data f.ino).length + st.writeBuf.length }
      (fs.data f.ino ++ st.writeBuf) (List.prefix_append ..) hpre
    refine Env.wp_call hfl.1 hfl.2 fun _ => ?_
    exact hQ _ rfl hm

/-- **The write buffer is a stream**: after an append, what has reached the file and what the buffer
holds back are together what they were before, followed by the data. -/
theorem wp_appendLoop {data : Bytes} (fuel : Nat) {st : Store} {f : Handle} {full : Bytes}
    (hfuel : data.length ≤ fuel) (hf : st.activeFile = some f) (hm : f.mode = .readAppend)
    (hE : E.Streams fs f.ino full) (hpre : fs.data f.ino ++ (st.writeBuf ++ data) <+: full)
    (hlen : st.writeBuf.length < writeBufferSize) {Q : Store → FileSystem → Prop}
    (hQ : ∀ (f' : Handle) (x buf : Bytes), f'.ino = f.ino → f'.mode = .readAppend →
      x ++ buf = st.writeBuf ++ data → buf.length < writeBufferSize →
      Q { st with activeFile := some f', writeBuf := buf }
        (fs.setData f.ino (fs.data f.ino ++ x))) :
    E.wp (Store.appendLoop fuel st data) Q fs := by
  induction fuel generalizing fs st f data Q with
  | zero =>
    obtain rfl : data = [] := List.length_eq_zero_iff.1 (Nat.le_zero.1 hfuel)
    have h := hQ f [] st.writeBuf rfl hm (by simp) hlen
    rw [List.append_nil, FileSystem.setData_data, ← hf] at h
    exact h
  | succ fuel ih =>
    rw [Store.appendLoop]
    split
    · next hnil =>
      have h := hQ f [] st.writeBuf rfl hm (by simp [hnil]) hlen
      rw [List.append_nil, FileSystem.setData_data, ← hf] at h
      exact h
    next hne =>
    dsimp only
    generalize hn : (if data.length < writeBufferSize - st.writeBuf.length then data.length
      else writeBufferSize - st.writeBuf.length) = n
    have hdata : 0 < data.length := List.length_pos_iff.2 hne
    have hn0 : 0 < n := by
      rw [← hn]
      split <;> omega
    have hnle : n ≤ data.length ∧ st.writeBuf.length + n ≤ writeBufferSize := by
      rw [← hn]
      split <;> omega
    have hrest : (data.drop n).length ≤ fuel := by
      rw [List.length_drop]
      omega
    have hlen' : (st.writeBuf ++ data.take n).length = st.writeBuf.length + n := by
      rw [List.length_append, List.length_take, Nat.min_eq_left hnle.1]
    have hsplit : (st.writeBuf ++ data.take n) ++ data.drop n = st.writeBuf ++ data := by
      rw [List.append_assoc, List.take_append_drop]
    split
    · -- the buffer is full
      refine Prog.wp_bind.2 ?_
      refine wp_flushBuffer (by exact hf) hm hE ?_ fun f1 hi1 hm1 => ?_
      · refine List.IsPrefix.trans ⟨data.drop n, ?_⟩ hpre
        rw [← hsplit, List.append_assoc]
      · refine ih hrest rfl hm1 ?_ ?_ 
          (by exact Nat.zero_lt_of_lt hlen) fun f' x buf hi' hm' hx hbuf => ?_
        · rw [hi1]
          exact hE.step (List.prefix_append ..)
        · rw [hi1, FileSystem.data_setData_self, List.nil_append, List.append_assoc, hsplit]
          exact hpre
        · rw [hi1, FileSystem.data_setData_self, FileSystem.setData_setData, List.append_assoc]
          refine hQ f' _ buf (hi'.trans hi1) hm' ?_ hbuf
          rw [List.append_assoc, hx, List.nil_append, hsplit]
    · next hfull =>
      change E.wp (Store.appendLoop fuel { st with writeBuf := st.writeBuf ++ data.take n } _) Q fs
      refine ih hrest (by exact hf) hm hE ?_ ?_ fun f' x buf hi' hm' hx hbuf => ?_
      · change fs.data f.ino ++ ((st.writeBuf ++ data.take n) ++ data.drop n) <+: full
        rw [hsplit]
        exact hpre
      · have hlt := hnle.2
        rw [hlen'] at hfull
        change (st.writeBuf ++ data.take n).length < _
        omega
      · exact hQ f' x buf hi' hm' (hx.trans hsplit) hbuf

/-- The same of `append_buffer`, which has enough rounds for its data. -/
theorem wp_appendBuffer {data : Bytes} {st : Store} {f : Handle} {full : Bytes}
    (hf : st.activeFile = some f) (hm : f.mode = .readAppend)
    (hE : E.Streams fs f.ino full) (hpre : fs.data f.ino ++ (st.writeBuf ++ data) <+: full)
    (hlen : st.writeBuf.length < writeBufferSize) {Q : Store → FileSystem → Prop}
    (hQ : ∀ (f' : Handle) (x buf : Bytes), f'.ino = f.ino → f'.mode = .readAppend →
      x ++ buf = st.writeBuf ++ data → buf.length < writeBufferSize →
      Q { st with activeFile := some f', writeBuf := buf }
        (fs.setData f.ino (fs.data f.ino ++ x))) :
    E.wp (st.appendBuffer data) Q fs :=
  wp_appendLoop _ (Nat.le_refl _) hf hm hE hpre hlen hQ

end writes

end MicroStore
