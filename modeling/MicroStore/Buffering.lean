import MicroStore.Library.Lockstep
import MicroStore.Operating

/-!
# The write buffer, as an array

The store model keeps of `write_buf` only the part in use, so that there is nothing to overrun.  Here
are the array and the position in it, as the source has them, with what could go wrong with them:
`memcpy` answers nothing when it would write past the end (`memcpyBuf`), and so does the loop of
`append_buffer` when its rounds run out.  Neither happens, whatever becomes of the file: array and
position go in lockstep with the part in use (`lockstep_runBuffer`), and behind an open file they are a
stream (`write_buffer_streams`).

## What is here

* `sizeSub` — the subtraction of `size_t`, which wraps.
* `WriteBuffer` — the array, the position and the file; the array has its length as a field.
* `WriteBuffer.memcpyBuf`, `flushBuffer`, `appendLoop`, `appendBuffer` — the functions of the source
  over them.  They answer `none` where the source would write past the end or go on for ever.
* `BufferCall`, `runBuffer` — any sequence of appends and flushes, over the array and over the part in
  use.
* `WriteBuffer.Within` — the relation between the two: the position is within the array, and what is in
  front of it is the part in use.
* `lockstep_runBuffer` — the array goes along with the part in use, so it is never overrun and every
  loop ends.
* `write_buffer_streams` — the result: no overrun, termination and a position below the end for any file
  outcome, and the stream for an open file.
-/

set_option autoImplicit false

namespace MicroStore

/-- `a - b` in a `size_t`. -/
def sizeSub (a b : Nat) : Nat := (a + (2 ^ 64 - b)) % 2 ^ 64

/-- Where it does not wrap. -/
theorem sizeSub_eq {a b : Nat} (hb : b ≤ a) (ha : a < 2 ^ 64) : sizeSub a b = a - b := by
  have hsum : a + (2 ^ 64 - b) = a - b + 2 ^ 64 := by omega
  rw [sizeSub, hsum, Nat.add_mod_right, Nat.mod_eq_of_lt (by omega)]

/-- `active_file`, `write_buf` and `write_buf_pos`. -/
structure WriteBuffer where
  /-- The active file. -/
  activeFile : File
  /-- `write_buf`. -/
  writeBuf : Bytes
  /-- `write_buf_pos`. -/
  writeBufPos : Nat
  /-- The array has its size. -/
  length_writeBuf : writeBuf.length = writeBufferSize

namespace WriteBuffer

/-- `memcpy(write_buf + write_buf_pos, p, n)`, and nothing when the array ends before that. -/
def memcpyBuf (b : WriteBuffer) (bs : Bytes) : Option WriteBuffer :=
  if h : b.writeBufPos + bs.length ≤ writeBufferSize then
    some { b with
      writeBuf := b.writeBuf.take b.writeBufPos ++ bs ++ b.writeBuf.drop (b.writeBufPos + bs.length)
      length_writeBuf := by
        have hlen := b.length_writeBuf
        simp only [List.length_append, List.length_take, List.length_drop]
        omega }
  else none

/-- `write_buf_pos += n`. -/
def advance (b : WriteBuffer) (n : Nat) : WriteBuffer := { b with writeBufPos := b.writeBufPos + n }

/-- `flush_buffer`.  The count the write returns is not looked at. -/
def flushBuffer (b : WriteBuffer) : FsM (Bool × WriteBuffer) :=
  if b.writeBufPos = 0 then pure (true, b)
  else
    match b.activeFile with
    | none => pure (false, { b with writeBufPos := 0 })
    | some f => do
      let (_, f) ← f.writeBytes (b.writeBuf.take b.writeBufPos)
      f.flush
      pure (true, { b with activeFile := some f, writeBufPos := 0 })

/-- The loop of `append_buffer`.  It answers nothing when it would go on after the rounds it has, or
when a copy would go past the end. -/
def appendLoop : Nat → WriteBuffer → Bytes → FsM (Option WriteBuffer)
  | 0, b, data => pure (if data = [] then some b else none)
  | rounds + 1, b, data =>
    if data = [] then pure (some b)
    else
      let space := sizeSub writeBufferSize b.writeBufPos
      let n := if data.length < space then data.length else space
      match b.memcpyBuf (data.take n) with
      | none => pure none
      | some b => do
        let b := b.advance n
        let (_, b) ← if b.writeBufPos = writeBufferSize then b.flushBuffer else pure (true, b)
        appendLoop rounds b (data.drop n)

/-- `append_buffer`, with a round for every byte. -/
def appendBuffer (b : WriteBuffer) (data : Bytes) : FsM (Option WriteBuffer) :=
  appendLoop data.length b data

end WriteBuffer

/-! ## Runs

The calls that a store makes of its buffer. -/

/-- A call of `append_buffer` or of `flush_buffer`. -/
inductive BufferCall
  | append (data : Bytes)
  | flush

/-- All data that is appended. -/
def appended : List BufferCall → Bytes
  | [] => []
  | .append data :: calls => data ++ appended calls
  | .flush :: calls => appended calls

/-- A run of calls on the array. -/
def WriteBuffer.runBuffer : List BufferCall → WriteBuffer → FsM (Option WriteBuffer)
  | [], b => pure (some b)
  | .append data :: calls, b => do
    match ← b.appendBuffer data with
    | none => pure none
    | some b => runBuffer calls b
  | .flush :: calls, b => do
    let (_, b) ← b.flushBuffer
    runBuffer calls b

/-- A run of calls on a store. -/
def Store.runBuffer : List BufferCall → Store → FsM Store
  | [], st => pure st
  | .append data :: calls, st => do
    let st ← st.appendBuffer data
    runBuffer calls st
  | .flush :: calls, st => do
    let (_, st) ← st.flushBuffer
    runBuffer calls st

/-! ## The array and the part in use

Every access of the array is at a position below its end, and what is behind the position does not
matter. -/

namespace WriteBuffer

/-- The part in use. -/
def used (b : WriteBuffer) : Bytes := b.writeBuf.take b.writeBufPos

/-- A store with this file and buffer. -/
def inStore (b : WriteBuffer) (st : Store) : Store :=
  { st with activeFile := b.activeFile, writeBuf := b.used }

/-- As many bytes are in use as the position says. -/
theorem length_used {b : WriteBuffer} (h : b.writeBufPos ≤ writeBufferSize) :
    b.used.length = b.writeBufPos := by
  rw [used, List.length_take, b.length_writeBuf, Nat.min_eq_left h]

/-- A copy that fits adds to the part in use. -/
theorem memcpyBuf_eq {b : WriteBuffer} {bs : Bytes}
    (h : b.writeBufPos + bs.length ≤ writeBufferSize) :
    ∃ b', b.memcpyBuf bs = some b' ∧ b'.writeBufPos = b.writeBufPos ∧
      b'.activeFile = b.activeFile ∧ (b'.advance bs.length).used = b.used ++ bs := by
  refine ⟨_, dif_pos h, rfl, rfl, ?_⟩
  have hlen : (b.writeBuf.take b.writeBufPos ++ bs).length = b.writeBufPos + bs.length := by
    rw [List.length_append, List.length_take, b.length_writeBuf, Nat.min_eq_left (by omega)]
  exact List.take_left' hlen

/-- What a flush of the array and one of the part in use come to. -/
def Flushed (st : Store) (r : Bool × WriteBuffer) (r' : Bool × Store) : Prop :=
  r.1 = r'.1 ∧ r.2.writeBufPos = 0 ∧ r'.2 = r.2.inStore st

/-- What appending to the array and to the part in use come to: nothing went wrong, and there is space
left. -/
def Within (st : Store) (r : Option WriteBuffer) (st' : Store) : Prop :=
  ∃ b : WriteBuffer, r = some b ∧ b.writeBufPos < writeBufferSize ∧ st' = b.inStore st

/-- A flush empties the buffer, whether there is a file or not. -/
theorem lockstep_flushBuffer (st : Store) {b : WriteBuffer} (h : b.writeBufPos ≤ writeBufferSize) :
    Prog.Lockstep (Flushed st) b.flushBuffer (b.inStore st).flushBuffer := by
  have hlen := length_used h
  rw [flushBuffer, Store.flushBuffer]
  by_cases hpos : b.writeBufPos = 0
  · have hnil : (b.inStore st).writeBuf = [] := List.length_eq_zero_iff.1 (hlen.trans hpos)
    rw [if_pos hpos, if_pos hnil]
    exact .pure ⟨rfl, hpos, rfl⟩
  · have hcons : (b.inStore st).writeBuf ≠ [] := fun hnil =>
      hpos (hlen ▸ List.length_eq_zero_iff.2 hnil)
    rw [if_neg hpos, if_neg hcons]
    have hfile : (b.inStore st).activeFile = b.activeFile := rfl
    rw [hfile]
    cases b.activeFile with
    | none => exact .pure ⟨rfl, rfl, rfl⟩
    | some f => exact .perform fun r => .perform fun _ => .pure ⟨rfl, rfl, rfl⟩

/-- **No copy goes past the end, and the loop ends**: each round takes in some of the data, and leaves
space for the next. -/
theorem lockstep_appendLoop {st st' : Store} {b : WriteBuffer} {data : Bytes} {rounds : Nat}
    (hst : st' = b.inStore st) (hrounds : data.length ≤ rounds)
    (hpos : b.writeBufPos < writeBufferSize) :
    Prog.Lockstep (Within st) (b.appendLoop rounds data) (Store.appendLoop rounds st' data) := by
  induction rounds generalizing b data st' with
  | zero =>
    obtain rfl : data = [] := List.length_eq_zero_iff.1 (Nat.le_zero.1 hrounds)
    exact .pure ⟨b, rfl, hpos, hst⟩
  | succ rounds ih =>
    rw [appendLoop, Store.appendLoop]
    by_cases hnil : data = []
    · rw [if_pos hnil, if_pos hnil]
      exact .pure ⟨b, rfl, hpos, hst⟩
    · rw [if_neg hnil, if_neg hnil]
      have hused : st'.writeBuf.length = b.writeBufPos := by
        rw [hst]
        exact length_used hpos.le
      have hspace : sizeSub writeBufferSize b.writeBufPos = writeBufferSize - b.writeBufPos :=
        sizeSub_eq hpos.le (by decide)
      dsimp only
      rw [hspace, hused]
      -- `n` bytes go in: at least one, and as many as there is space for at most
      generalize hn : (if data.length < writeBufferSize - b.writeBufPos then data.length
        else writeBufferSize - b.writeBufPos) = n
      have hdata : 0 < data.length := List.length_pos_iff.2 hnil
      have hfits : 0 < n ∧ n ≤ data.length ∧ b.writeBufPos + n ≤ writeBufferSize := by
        rw [← hn]
        split <;> omega
      have htake : (data.take n).length = n := List.length_take_of_le hfits.2.1
      have hrest : (data.drop n).length ≤ rounds := by
        rw [List.length_drop]
        omega
      obtain ⟨c, hcopy, hcpos, hfile, htaken⟩ :=
        @memcpyBuf_eq b (data.take n) (htake.symm ▸ hfits.2.2)
      rw [htake] at htaken
      have hstore : { st' with writeBuf := st'.writeBuf ++ data.take n }
          = (c.advance n).inStore st := by
        rw [hst, inStore, inStore, htaken]
        simp only [advance, hfile]
      have hlen : (st'.writeBuf ++ data.take n).length = (c.advance n).writeBufPos := by
        rw [List.length_append, hused, htake, advance, hcpos]
      have hle : (c.advance n).writeBufPos ≤ writeBufferSize := by
        rw [advance, hcpos]
        exact hfits.2.2
      rw [hcopy]
      dsimp only
      by_cases hfull : (c.advance n).writeBufPos = writeBufferSize
      · -- the buffer is full, and empty after the flush
        rw [if_pos hfull, if_pos (hlen.trans hfull), hstore]
        refine (lockstep_flushBuffer st hle).bind ?_
        rintro ⟨_, c⟩ ⟨_, _⟩ ⟨rfl, hzero, rfl⟩
        exact ih rfl hrest (hzero ▸ Nat.zero_lt_of_lt hpos)
      · rw [if_neg hfull, if_neg fun h => hfull (hlen.symm.trans h), hstore]
        exact ih rfl hrest (lt_of_le_of_ne hle hfull)

/-- **The array goes along with the part in use**, in any run. -/
theorem lockstep_runBuffer (st : Store) {b : WriteBuffer} (calls : List BufferCall)
    (hpos : b.writeBufPos < writeBufferSize) :
    Prog.Lockstep (Within st) (runBuffer calls b) (Store.runBuffer calls (b.inStore st)) := by
  induction calls generalizing b with
  | nil => exact .pure ⟨b, rfl, hpos, rfl⟩
  | cons c calls ih =>
    cases c with
    | append data =>
      refine (lockstep_appendLoop rfl le_rfl hpos).bind ?_
      rintro _ _ ⟨b, rfl, hpos, rfl⟩
      exact ih hpos
    | flush =>
      refine (lockstep_flushBuffer st hpos.le).bind ?_
      rintro ⟨_, b⟩ ⟨_, _⟩ ⟨rfl, hzero, rfl⟩
      exact ih (hzero ▸ Nat.zero_lt_of_lt hpos)

end WriteBuffer

/-! ## The stream

For an open file that takes all that is written to it. -/

/-- Whatever is appended and flushed, the active file and the write buffer have taken it in. -/
theorem wp_runBuffer {st₀ st : Store} {f₀ : Handle} {fs₀ fs : FileSystem} {w : Bytes}
    (calls : List BufferCall) (h : Streamed st₀ f₀ fs₀ w st fs) :
    Env.plain.wp (Store.runBuffer calls st) (Streamed st₀ f₀ fs₀ (w ++ appended calls)) fs := by
  have hplain (full : Bytes) : Env.plain.Streams fs₀ f₀.ino full :=
    ⟨fun _ _ _ _ _ _ _ => Env.plain_ok _ _, fun _ _ _ _ => Env.plain_ok _ _⟩
  induction calls generalizing st fs w with
  | nil => simpa [appended, Store.runBuffer] using h
  | cons c calls ih =>
    cases c with
    | append data =>
      refine Env.wp_seq (wp_append_streamed h (hplain _) (List.prefix_refl _)) fun st fs h => ?_
      rw [appended, ← List.append_assoc]
      exact ih h
    | flush =>
      refine Env.wp_seq (wp_flush_streamed h (hplain _) (List.prefix_refl _)) ?_
      rintro ⟨_, st⟩ fs ⟨f, hi, hm, hst, rfl⟩
      cases hst
      exact ih ⟨f, w, [], rfl, hi, hm, rfl, List.append_nil w, by decide⟩

/-- **The write buffer streams faithfully.**  In every run of calls that append data and flush, no copy
goes past the end of the array, all calls return and leave space in it, whether there is a file to flush
to or not, and whatever becomes of what is written.  Behind an open active file, what has been written
and what is in the buffer are together all data appended, in order. -/
theorem write_buffer_streams {b : WriteBuffer} (hpos : b.writeBufPos < writeBufferSize)
    (calls : List BufferCall) :
    ((b.runBuffer calls).always fun r => ∃ b' : WriteBuffer,
        r = some b' ∧ b'.writeBufPos < writeBufferSize) ∧
      ∀ (f : Handle) (fs : FileSystem), b.activeFile = some f → f.mode = .readAppend →
        ∃ (b' : WriteBuffer) (written : Bytes),
          Prog.exec posix (b.runBuffer calls) fs
            = (some b', fs.setData f.ino (fs.data f.ino ++ written)) ∧
          written ++ b'.used = b.used ++ appended calls ∧ b'.writeBufPos < writeBufferSize := by
  obtain ⟨st⟩ : Nonempty Store := ⟨.new 0 0 .recent⟩
  have hlock := b.lockstep_runBuffer st calls hpos
  refine ⟨Prog.always_mono hlock.always ?_, fun f fs hf hm => ?_⟩
  · rintro _ ⟨_, b', rfl, hpos', -⟩
    exact ⟨b', rfl, hpos'⟩
  · have hstart : Streamed (b.inStore st) f fs b.used (b.inStore st) fs := by
      refine ⟨f, [], b.used, ?_, rfl, hm, ?_, rfl, ?_⟩
      · rw [← hf]
        rfl
      · rw [List.append_nil, FileSystem.setData_data]
      · rwa [WriteBuffer.length_used hpos.le]
    obtain ⟨⟨b', hb', hpos', hst⟩, hfs⟩ := hlock.exec posix fs
    obtain ⟨f', written, buf, hst', -, -, hwritten, hall, -⟩ :=
      Env.plain_exec (wp_runBuffer calls hstart)
    have hused : b'.used = buf := congrArg Store.writeBuf (hst.symm.trans hst')
    exact ⟨b', written, Prod.ext hb' (hfs.trans hwritten), hused ▸ hall, hpos'⟩

/-- An array of zeros, in front of a file. -/
def WriteBuffer.blank (file : File) : WriteBuffer where
  activeFile := file
  writeBuf := List.replicate writeBufferSize 0
  writeBufPos := 0
  length_writeBuf := List.length_replicate

/-- More than the array holds, a flush, and two bytes more. -/
theorem write_buffer_streams_across :
    ∃ (b' : WriteBuffer) (written : Bytes),
      Prog.exec posix ((WriteBuffer.blank (some ⟨0, 0, .readAppend⟩)).runBuffer
          [.append (List.replicate 600 7), .flush, .append [1, 2]]) .empty
        = (some b', FileSystem.empty.setData 0 (FileSystem.empty.data 0 ++ written)) ∧
      written ++ b'.used = List.replicate 600 7 ++ [1, 2] ∧ b'.writeBufPos < writeBufferSize :=
  (write_buffer_streams (b := .blank (some ⟨0, 0, .readAppend⟩)) (by decide) _).2
    ⟨0, 0, .readAppend⟩ .empty rfl rfl

end MicroStore
