import MicroStore.Standing

/-!
# Eviction and restarts

Eviction takes a key out of the index but not out of the index file, so a restart may bring it back
(`evicted_returns`).  Often it does not, because `init` evicts as well: the entries of the file are more
than the limit allows, and the key loses again.

## What is here

* `Store.Hidden` — a key is to be seen neither by a lookup nor by `exists` nor in the list of all keys,
  and is not counted.
* `Setup.StaysOut` — the condition on a run, which looks at the bytes of the index file wherever the run
  restarts: no entry counts for the key any more, or as many others as there may be outrank the one that
  does (`Outlasted`, from `Standing.lean`).
* `evicted_stays_hidden` — a key that is out of the index, by eviction or otherwise, stays hidden until
  it is put again, in every run that meets the condition.

The condition is one on the file before the restart; nothing of `init` is run in it.
-/

set_option autoImplicit false

namespace MicroStore

/-- The key is to be seen neither by a lookup nor in the list of all keys. -/
structure Store.Hidden (st : Store) (fs : FileSystem) (k : Key) : Prop where
  /-- A lookup finds nothing. -/
  get : ∀ (clk : Clock) (key : Buf), key.bytes = k →
    (Prog.exec posix (st.getValue clk key) fs).1.1 = none
  /-- `exists` answers no. -/
  «exists» : ∀ (clk : Clock) (key : Buf), key.bytes = k → (st.exists clk key).1 = false
  /-- The iterator does not yield it. -/
  iterate : ∀ e ∈ (Prog.exec posix st.iterate fs).1.1, e.key ≠ k
  /-- `size` is the number of other keys. -/
  size : ∃ ks : List Key, ks.Nodup ∧ (∀ k', k' ∈ ks ↔ (st.indexFind k').isSome) ∧ k ∉ ks ∧
    st.size = ks.length

/-- Wherever the run restarts, nothing of the key is left by the entries of the index file: none counts
for it, or enough others outrank the one that does. -/
def Setup.StaysOut (su : Setup) (k : Key) : List Operation → Store × FileSystem → Prop
  | [], _ => True
  | op :: ops, s =>
    (op.restarts = true → ∀ bs ∈ s.2.file (storePath su.basePrefix .index),
      su.Outlasted (indexEntries bs) k) ∧
    su.StaysOut k ops (Prog.exec posix (su.perform s.1 op) s.2)

instance decidableStaysOut (su : Setup) (k : Key) (ops : List Operation) (s : Store × FileSystem) :
    Decidable (su.StaysOut k ops s) := by
  induction ops generalizing s with
  | nil => exact .isTrue trivial
  | cons op ops ih => exact @instDecidableAnd _ _ _ (ih _)

section evicting

variable {su : Setup} {b : Bool} {m : Key → Option Record} {st : Store} {fs : FileSystem} {L : Log}

/-- A key the log does not show is hidden. -/
theorem Held.hidden (h : Held su b m st fs L) {k : Key} (hk : L.live k = none) : st.Hidden fs k where
  get clk key he := by
    rw [h.rep.getValue_exec, he, Store.visible, hk]
    rfl
  «exists» clk key he := by
    rw [h.rep.exists_fst, he, Store.visible, hk]
    rfl
  iterate := by
    refine @Env.plain_exec _ _ (fun (x : List Entry × Store) _ => ∀ e ∈ x.1, e.key ≠ k) fs ?_
    refine wp_iterate (Env.plain_reads fs) h.rep fun es _ hmem _ e he heq => ?_
    have hview := (hmem k).1 (heq ▸ List.mem_map_of_mem he)
    rw [Log.view, hk] at hview
    cases hview
  size := by
    refine ⟨st.index.keys, st.index.keys_nodup, fun k' => ?_, fun hmem => ?_, ?_⟩
    · rw [← AList.mem_keys, ← AList.lookup_isSome, Store.indexFind]
    · have hview := h.rep.mem_keys.1 hmem
      rw [Log.view, hk] at hview
      cases hview
    · rw [Store.size, if_neg (by rw [h.rep.valid]; decide)]
      rfl

/-- A restart whose index file has nothing left of a key does not show it. -/
theorem Held.restart_live (h : Held su b m st fs L) {order : IterationOrder}
    (hsmall : ∀ x ∈ Prog.trace posix (su.perform st (.restart order)) fs, su.Small x.2) {k : Key}
    (hout : ∀ bs ∈ fs.file (storePath su.basePrefix .index), su.Outlasted (indexEntries bs) k)
    {m' : Key → Option Record} {b' : Bool} {L₁ : Log}
    (h₁ : Held su b' m' (Prog.exec posix (su.perform st (.restart order)) fs).1
      (Prog.exec posix (su.perform st (.restart order)) fs).2 L₁) : L₁.live k = none := by
  obtain ⟨st₀, hloads, hindex⟩ := Env.exec_of_wp (h.wp_restart_loads order) hsmall
  have hfile := h.rep.disk.index
  rw [h.pre] at hfile
  have hgone := hloads.evicted (k := k) (h.entries_of_file hfile ▸ hout _ hfile)
  rw [Store.indexFind, ← hindex, h₁.rep.shows k, Option.map_eq_none_iff] at hgone
  exact hgone

/-- A key that the log does not show is not shown after the run either, unless it is put. -/
theorem Held.run_hidden {ops : List Operation} (h : Held su b m st fs L)
    (hsmall : su.SmallRun ops (st, fs)) (hord : Operation.Orderly b ops)
    {k : Key} (hout : su.StaysOut k ops (st, fs)) (hno : ∀ op ∈ ops, op.puts ≠ some k)
    (hk : L.live k = none) : (su.run ops (st, fs)).1.Hidden (su.run ops (st, fs)).2 k := by
  induction ops generalizing b m st fs L with
  | nil => exact h.hidden hk
  | cons op ops ih =>
    obtain ⟨L₁, h₁, hf⟩ := Env.exec_of_wp (h.wp_perform hord.1) hsmall.1
    refine ih h₁ hsmall.2 hord.2 hout.2 (fun op' h' => hno op' (List.mem_cons_of_mem _ h')) ?_
    have hnot : ¬(L.live k).isSome := by
      rw [hk]
      exact Bool.false_ne_true
    cases hk₁ : L₁.live k with
    | none => rfl
    | some t =>
      rcases hf.live k (by rw [hk₁]; rfl) with hput | hsome | ⟨hrestart, -⟩
      · exact absurd hput (hno op List.mem_cons_self)
      · exact absurd hsome hnot
      · cases op with
        | restart order => exact hk₁.symm.trans (h.restart_live hsmall.1 (hout.1 rfl) h₁)
        | put | get | «exists» | remove | size | iterate | clear | compact => cases hrestart

end evicting

/-- **An evicted key stays hidden** in every run that does not put it again, if wherever the run
restarts no entry of the index file counts for the key any more, or as many others as there may be
outrank the one that does. -/
theorem evicted_stays_hidden (su : Setup) (order : IterationOrder) (fs : FileSystem)
    (hstart : su.Starts order fs) (ops ops' : List Operation)
    (hsmall : su.SmallRun (ops ++ ops') (Prog.exec posix (su.start order) fs))
    (hord : Operation.Orderly false (ops ++ ops')) (k : Key)
    (hgone : (su.reach order fs ops).1.indexFind k = none) (hno : ∀ op ∈ ops', op.puts ≠ some k)
    (hout : su.StaysOut k ops' (su.reach order fs ops)) :
    (su.reach order fs (ops ++ ops')).1.Hidden (su.reach order fs (ops ++ ops')).2 k := by
  rw [Setup.smallRun_append] at hsmall
  rw [Operation.orderly_append] at hord
  obtain ⟨L, h, -⟩ := hstart.reach hsmall.1 hord.1
  have hlive : L.live k = none := by
    have hshows := h.rep.shows k
    rw [Store.indexFind] at hgone
    rw [hgone, eq_comm, Option.map_eq_none_iff] at hshows
    exact hshows
  rw [Setup.reach, Setup.run_append]
  exact h.run_hidden hsmall.2 hord.2 hout hno hlive

/-- At most eight records. -/
def cappedSetup : Setup := { sampleSetup with maxRecs := 8 }

/-- It starts on an empty disk. -/
theorem cappedSetup_starts : cappedSetup.Starts .recent .empty where
  names := namesOk_of_length_le (by decide)
  fresh _ _ := rfl
  small := by decide +kernel

/-- The last of nine puts evicts the key of the first. -/
def evictingPuts : List Operation :=
  [(97, 1), (98, 2), (99, 3), (100, 4), (101, 5), (102, 6), (103, 7), (104, 8), (105, 9)].map fun p =>
    .put ⟨0, 0, 0⟩ (.at [p.1]) (.at [1]) 0 p.2 0

/-- The index file still names the evicted key, but a restart evicts it again, and so does the next. -/
theorem evicted_stays_hidden_sample :
    let s := cappedSetup.reach .recent .empty
      (evictingPuts ++ [.restart .recent, .get ⟨0, 0, 0⟩ (.at [98]), .restart .recent])
    s.1.Hidden s.2 [97] :=
  evicted_stays_hidden cappedSetup .recent .empty cappedSetup_starts evictingPuts
    [.restart .recent, .get ⟨0, 0, 0⟩ (.at [98]), .restart .recent] (by decide +kernel) (by decide) [97]
    (by decide +kernel) (by decide) (by decide +kernel)

/-- Another key is removed, and a restart brings the evicted one back. -/
theorem evicted_returns :
    let s := cappedSetup.reach .recent .empty
      (evictingPuts ++ [.remove ⟨0, 0, 0⟩ (.at [98]) 0 0, .restart .recent])
    (cappedSetup.reach .recent .empty evictingPuts).1.indexFind [97] = none ∧ ¬s.1.Hidden s.2 [97] := by
  intro s
  refine ⟨by decide +kernel, fun h => ?_⟩
  have hex := h.exists ⟨0, 0, 0⟩ (.at [97]) rfl
  have hback : (s.1.exists ⟨0, 0, 0⟩ (.at [97])).1 = true := by decide +kernel
  cases hex.symm.trans hback

end MicroStore
