import MicroStore.Steady

/-!
# When the names of store files collide

A store prints the names of its files into buffers of 64 bytes: the prefix, cut to 63 characters, a
separator and a suffix, all of it cut to 63 characters again.  Neither cut is noticed: `init` returns
true whatever the prefix.  Two names can only meet in what was cut away, so the question is how much
room the prefix leaves for the characters that tell the suffixes apart.

## What is here

* `storeFiles`, `Store.fileNames` — the files a store works with, and their names.
* `stem` — the prefix with its separator, which all names of a store share; `telling` — how many
  characters behind it tell the files apart: the first one if there is no segment but 0, otherwise those
  up to the last digit of a segment number.
* `HasRoom` — the condition: that many characters fit.
* `nodup_names_iff` — the files of one store have different names exactly if there is room.
* `HasRoom.disjoint` — the files of two stores with room have different names, if their prefixes are
  different.  A separator cannot be mistaken for a part of the prefix, since suffixes have none.
* `names_apart_iff` — after `init` of any two stores: the condition is exact.
* `names_collide` — prefixes for which it fails, though `init` returns true.
-/

set_option autoImplicit false

namespace MicroStore

/-- The files of a store with this many segments. -/
def storeFiles (count : Nat) : List StoreFile :=
  (List.range count).map .segment ++ [.index, .journal, .tmp]

/-- The names a store generates for its files. -/
def Store.fileNames (st : Store) : List Path := (storeFiles st.count).map (storePath st.basePrefix)

/-- What stands in front of the suffix in the names of a store. -/
def stem (pre : Path) : Path := pre ++ prefixSep pre

/-- The number of characters that tell the suffixes of a store with this many segments apart: the first
one, when there is one segment at most, otherwise those up to the last digit. -/
def telling (count : Nat) : Nat :=
  if count ≤ 1 then 1 else if count ≤ 10 then 4 else if count ≤ 100 then 5 else 6

/-- The prefix leaves room for the characters that tell the files of the store apart. -/
def HasRoom (pre : Path) (count : Nat) : Prop :=
  (stem (pre.take (maxFilenameLen - 1))).length + telling count ≤ maxFilenameLen - 1

instance (pre : Path) (count : Nat) : Decidable (HasRoom pre count) := Nat.decLe _ _

/-- There is something to tell apart. -/
theorem telling_pos (count : Nat) : 0 < telling count := by
  rw [telling]
  split
  · decide
  split
  · decide
  split <;> decide

/-- The segments below the count and the three other files. -/
theorem mem_storeFiles {count : Nat} {a : StoreFile} :
    a ∈ storeFiles count ↔ ∀ id, a = .segment id → id < count := by
  cases a <;> simp [storeFiles]

/-- They are different files. -/
theorem nodup_storeFiles (count : Nat) : (storeFiles count).Nodup := by
  refine List.nodup_append.2 ⟨?_, by decide, ?_⟩
  · exact List.Nodup.map (fun i j h => StoreFile.segment.inj h) List.nodup_range
  · rintro a ha b hb rfl
    obtain ⟨id, -, rfl⟩ := List.mem_map.1 ha
    simp at hb

/-- The part of a name before the suffix, and what is left of the suffix. -/
theorem storePath_eq_append (pre : Path) (a : StoreFile) :
    storePath pre a = (stem pre).take (maxFilenameLen - 1)
      ++ a.suffix.take (maxFilenameLen - 1 - (stem pre).length) := by
  rw [storePath, ← List.append_assoc, List.take_append, stem]

/-- Two names are equal if what is left of their suffixes is. -/
theorem storePath_eq_iff {pre : Path} {a b : StoreFile} :
    storePath pre a = storePath pre b ↔
      a.suffix.take (maxFilenameLen - 1 - (stem pre).length)
        = b.suffix.take (maxFilenameLen - 1 - (stem pre).length) := by
  rw [storePath_eq_append, storePath_eq_append, List.append_cancel_left_eq]

/-! ## The files of one store

Segment suffixes differ in their digits only, and a number of fewer digits is not the beginning of
one with more: what follows the digits is no digit. -/

/-- The digits at the head of a suffix that was cut behind them. -/
theorem takeWhile_digits {id m : Nat} (h : id < 10 ^ m) (hm : 0 < m) (rest : Path) :
    ((Nat.toDigits 10 id ++ '.' :: rest).take m).takeWhile Char.isDigit = Nat.toDigits 10 id := by
  have hlen : (Nat.toDigits 10 id).length ≤ m := (Nat.length_toDigits_le_iff (by decide) hm).2 h
  have hdigit : ∀ c ∈ Nat.toDigits 10 id, c.isDigit = true := fun c hc =>
    Nat.isDigit_of_mem_toDigits (by decide) (by decide) hc
  rw [List.take_append, List.take_of_length_le hlen, List.takeWhile_append_of_pos hdigit]
  cases m - (Nat.toDigits 10 id).length with
  | zero => simp
  | succ n => simp [Char.isDigit]

/-- The digits that are left tell segments apart. -/
theorem segment_suffix_inj {i j m : Nat} (hm : 0 < m) (hi : i < 10 ^ m) (hj : j < 10 ^ m)
    (h : (StoreFile.segment i).suffix.take (3 + m) = (StoreFile.segment j).suffix.take (3 + m)) :
    i = j := by
  have hcut (id : Nat) : (StoreFile.segment id).suffix.take (3 + m)
      = ['s', 'e', 'g'] ++ (Nat.toDigits 10 id ++ ['.', 'd', 'a', 't']).take m := by
    rw [StoreFile.suffix, List.take_append]
    simp [Nat.add_comm 3 m]
  rw [hcut, hcut, List.append_cancel_left_eq] at h
  have hd := congrArg (List.takeWhile Char.isDigit) h
  rw [takeWhile_digits hi hm, takeWhile_digits hj hm] at hd
  exact toDigits_inj hd

/-- The characters that `telling` counts tell the files apart. -/
theorem suffix_take_inj {count : Nat} (hcount : count < 256) {a b : StoreFile}
    (ha : a ∈ storeFiles count) (hb : b ∈ storeFiles count)
    (h : a.suffix.take (telling count) = b.suffix.take (telling count)) : a = b := by
  obtain ⟨n, hn⟩ : ∃ n, telling count = n + 1 :=
    ⟨telling count - 1, (Nat.sub_add_cancel (telling_pos count)).symm⟩
  -- the first character tells what kind of file it is
  have first := h
  rw [hn] at first
  cases a <;> cases b <;> try (first | rfl | simp [StoreFile.suffix] at first)
  next i j =>
  have hi := mem_storeFiles.1 ha i rfl
  have hj := mem_storeFiles.1 hb j rfl
  rw [telling] at h
  split at h
  · exact congrArg _ (by omega)
  split at h
  · exact congrArg _ (segment_suffix_inj Nat.one_pos (by omega) (by omega) h)
  split at h
  · exact congrArg _ (segment_suffix_inj Nat.two_pos (by omega) (by omega) h)
  · exact congrArg _ (segment_suffix_inj (Nat.succ_pos 2) (by omega) (by omega) h)

/-- Fewer characters leave two of the files the same. -/
theorem exists_suffix_take_eq {count n : Nat} (h : n < telling count) :
    ∃ a ∈ storeFiles count, ∃ b ∈ storeFiles count, a ≠ b ∧ a.suffix.take n = b.suffix.take n := by
  have shorter {a b : StoreFile} {m : Nat} (hm : n ≤ m) (hab : a.suffix.take m = b.suffix.take m) :
      a.suffix.take n = b.suffix.take n := by
    rw [← Nat.min_eq_left hm, ← List.take_take, hab, List.take_take]
  have segments {i j m : Nat} (hi : i < count) (hj : j < count) (hij : i ≠ j) (hm : n ≤ m)
      (hsuffix : (StoreFile.segment i).suffix.take m = (StoreFile.segment j).suffix.take m) :
      ∃ a ∈ storeFiles count, ∃ b ∈ storeFiles count, a ≠ b ∧ a.suffix.take n = b.suffix.take n := by
    refine ⟨.segment i, mem_storeFiles.2 ?_, .segment j, mem_storeFiles.2 ?_, ?_, shorter hm hsuffix⟩
    · rintro id ⟨⟩
      exact hi
    · rintro id ⟨⟩
      exact hj
    · exact fun he => hij (StoreFile.segment.inj he)
  rw [telling] at h
  split at h
  · refine ⟨.index, mem_storeFiles.2 nofun, .journal, mem_storeFiles.2 nofun, by decide, ?_⟩
    exact shorter (Nat.lt_succ_iff.1 h) rfl
  split at h
  · exact segments (i := 0) (j := 1) (by omega) (by omega) (by decide) (Nat.lt_succ_iff.1 h) (by decide)
  split at h
  · exact segments (i := 1) (j := 10) (by omega) (by omega) (by decide) (Nat.lt_succ_iff.1 h)
      (by decide)
  · exact segments (i := 10) (j := 100) (by omega) (by omega) (by decide) (Nat.lt_succ_iff.1 h)
      (by decide)

/-- **The files of a store have different names** exactly when the prefix leaves room for them. -/
theorem nodup_names_iff {pre : Path} {count : Nat} (hcount : count < 256) :
    ((storeFiles count).map (storePath (pre.take (maxFilenameLen - 1)))).Nodup ↔ HasRoom pre count := by
  rw [List.nodup_map_iff_inj_on (nodup_storeFiles count), HasRoom]
  constructor
  · intro h
    by_contra hroom
    have hpos := telling_pos count
    have hlt : maxFilenameLen - 1 - (stem (pre.take (maxFilenameLen - 1))).length < telling count := by
      omega
    obtain ⟨a, ha, b, hb, hab, hsuffix⟩ := exists_suffix_take_eq hlt
    exact hab (h a ha b hb (storePath_eq_iff.2 hsuffix))
  · intro hroom a ha b hb hab
    have hle : telling count ≤ maxFilenameLen - 1 - (stem (pre.take (maxFilenameLen - 1))).length := by
      omega
    refine suffix_take_inj hcount ha hb ?_
    rw [← Nat.min_eq_left hle, ← List.take_take, storePath_eq_iff.1 hab, List.take_take]

/-! ## The files of two stores

Names of two stores can only be equal if their stems are, up to where the suffixes begin. -/

/-- A suffix holds neither of the characters a stem ends in. -/
theorem StoreFile.suffix_ne {a : StoreFile} {c : Char} (hc : c ∈ a.suffix) : c ≠ '_' ∧ c ≠ '/' := by
  have text {l : Path} (hl : (l.all fun c => decide (c ≠ '_' ∧ c ≠ '/')) = true) (hc : c ∈ l) :
      c ≠ '_' ∧ c ≠ '/' :=
    of_decide_eq_true (List.all_eq_true.1 hl c hc)
  cases a with
  | segment id =>
    simp only [suffix, List.mem_append] at hc
    rcases hc with hc | hc | hc
    · exact text (by decide) hc
    · have h := Nat.isDigit_of_mem_toDigits (by decide) (by decide) hc
      constructor <;> (rintro rfl; exact absurd h (by decide))
    · exact text (by decide) hc
  | index => exact text (by decide) hc
  | journal => exact text (by decide) hc
  | tmp => exact text (by decide) hc

/-- A stem ends with a separator. -/
theorem stem_getLast? (pre : Path) : (stem pre).getLast? = some '_' ∨ (stem pre).getLast? = some '/' := by
  rw [stem, prefixSep]
  split
  · next h => exact .inr (by rwa [List.append_nil])
  · exact .inl (by simp)

/-- A stem tells its prefix. -/
theorem stem_inj {pre pre' : Path} (h : stem pre = stem pre') : pre = pre' := by
  have hlast := congrArg List.getLast? h
  rw [stem, stem, prefixSep, prefixSep] at h hlast
  by_cases hp : pre.getLast? = some '/' <;> by_cases hp' : pre'.getLast? = some '/'
  · rwa [if_pos hp, if_pos hp', List.append_nil, List.append_nil] at h
  · rw [if_pos hp, if_neg hp', List.append_nil, hp] at hlast
    simp at hlast
  · rw [if_neg hp, if_pos hp', List.append_nil, hp'] at hlast
    simp at hlast
  · rw [if_neg hp, if_neg hp'] at h
    exact List.append_cancel_right h

/-- Stems that fit the buffer are the same when a name of the one is a name of the other. -/
theorem stem_eq_of_storePath_eq {pre pre' : Path} (hle : (stem pre).length ≤ (stem pre').length)
    (hlen : (stem pre').length ≤ maxFilenameLen - 1) {a b : StoreFile}
    (h : storePath pre a = storePath pre' b) : stem pre = stem pre' := by
  rw [storePath_eq_append, storePath_eq_append, List.take_of_length_le hlen,
    List.take_of_length_le (Nat.le_trans hle hlen)] at h
  obtain ⟨mid, hmid⟩ : stem pre <+: stem pre' :=
    List.prefix_of_prefix_length_le (h ▸ List.prefix_append _ _) (List.prefix_append _ _) hle
  rw [← hmid, List.append_assoc, List.append_cancel_left_eq] at h
  cases hm : mid.getLast? with
  | none => rw [← hmid, List.getLast?_eq_none_iff.1 hm, List.append_nil]
  | some c =>
    -- the last character of the longer stem would be one of a suffix
    have hc : c ∈ a.suffix := by
      refine List.mem_of_mem_take (i := maxFilenameLen - 1 - (stem pre).length) ?_
      rw [h]
      exact List.mem_append_left _ (List.mem_of_getLast? hm)
    have hlast : (stem pre').getLast? = some c := by
      rw [← hmid, List.getLast?_append, hm, Option.some_or]
    rcases stem_getLast? pre' with h' | h'
    · exact absurd (Option.some.inj (hlast.symm.trans h')) (StoreFile.suffix_ne hc).1
    · exact absurd (Option.some.inj (hlast.symm.trans h')) (StoreFile.suffix_ne hc).2

/-- Equal names have equal prefixes, where there is room for the stems. -/
theorem prefix_eq_of_storePath_eq {pre pre' : Path} (hlen : (stem pre).length ≤ maxFilenameLen - 1)
    (hlen' : (stem pre').length ≤ maxFilenameLen - 1) {a b : StoreFile}
    (h : storePath pre a = storePath pre' b) : pre = pre' := by
  rcases Nat.le_total (stem pre).length (stem pre').length with hle | hle
  · exact stem_inj (stem_eq_of_storePath_eq hle hlen' h)
  · exact (stem_inj (stem_eq_of_storePath_eq hle hlen h.symm)).symm

/-- A prefix that leaves some room is not cut. -/
theorem HasRoom.take_eq {pre : Path} {count : Nat} (h : HasRoom pre count) :
    pre.take (maxFilenameLen - 1) = pre := by
  have hpos := telling_pos count
  refine List.take_of_length_le (Nat.le_of_lt ?_)
  rw [HasRoom, stem, List.length_append, List.length_take] at h
  omega

/-- Two stores whose prefixes leave room have no name in common. -/
theorem HasRoom.disjoint {pre pre' : Path} {count count' : Nat} (h : HasRoom pre count)
    (h' : HasRoom pre' count') (hne : pre ≠ pre') :
    ((storeFiles count).map (storePath (pre.take (maxFilenameLen - 1)))).Disjoint
      ((storeFiles count').map (storePath (pre'.take (maxFilenameLen - 1)))) := by
  intro p hp hp'
  obtain ⟨a, -, rfl⟩ := List.mem_map.1 hp
  obtain ⟨b, -, hb⟩ := List.mem_map.1 hp'
  have hlen := h
  have hlen' := h'
  rw [HasRoom] at hlen hlen'
  rw [h.take_eq] at hb hlen
  rw [h'.take_eq] at hb hlen'
  exact hne (prefix_eq_of_storePath_eq (by omega) (by omega) hb.symm)

/-! ## After `init`

`init` cuts the prefix and checks nothing, so what it leaves is any store with the prefix cut to 63
characters. -/

/-- The store as some call of `init` with this prefix left it, on any filesystem, when it returned
true. -/
def Store.InitialisedAs (st : Store) (pre : Path) : Prop :=
  ∃ (σ : Type) (fs : (c : Call) → σ → c.Reply × σ) (s : σ) (st₀ : Store) (clearOnInit : Bool)
    (segmentSize : UInt32) (segmentCount : UInt8),
    (Prog.exec fs (st₀.init pre clearOnInit segmentSize segmentCount) s).1 = (true, st)

/-- The prefix that is kept. -/
theorem Store.InitialisedAs.basePrefix {st : Store} {pre : Path} (h : st.InitialisedAs pre) :
    st.basePrefix = pre.take (maxFilenameLen - 1) := by
  obtain ⟨σ, fs, s, st₀, clearOnInit, segmentSize, segmentCount, hrun⟩ := h
  have hs := Prog.always_exec fs (steady_init st₀ pre clearOnInit segmentSize segmentCount) s
  rw [hrun] at hs
  exact hs.2.basePrefix

/-- The names that are printed. -/
theorem Store.InitialisedAs.fileNames {st : Store} {pre : Path} (h : st.InitialisedAs pre) :
    st.fileNames = (storeFiles st.count).map (storePath (pre.take (maxFilenameLen - 1))) := by
  rw [Store.fileNames, h.basePrefix]

/-- **Store files do not collide** exactly when the prefixes leave room.  The files of two stores have
different names, each store on its own and, unless the prefixes are the same, the one from the other,
exactly when each prefix leaves room for the characters that tell the files of its store apart. -/
theorem names_apart_iff {st st' : Store} {pre pre' : Path} (h : st.InitialisedAs pre)
    (h' : st'.InitialisedAs pre') :
    (st.fileNames.Nodup ∧ st'.fileNames.Nodup ∧ (pre ≠ pre' → st.fileNames.Disjoint st'.fileNames)) ↔
      HasRoom pre st.count ∧ HasRoom pre' st'.count := by
  have hcount (st : Store) : st.count < 256 := st.segmentCount.toNat_lt
  rw [h.fileNames, h'.fileNames, nodup_names_iff (hcount st), nodup_names_iff (hcount st')]
  constructor
  · rintro ⟨hroom, hroom', -⟩
    exact ⟨hroom, hroom'⟩
  · rintro ⟨hroom, hroom'⟩
    exact ⟨hroom, hroom', hroom.disjoint hroom'⟩

/-- A store opened under this prefix on an empty filesystem. -/
def openedAs (pre : Path) : Bool × Store :=
  (Prog.exec posix ((Store.new 65536 8 .recent).init pre false 0 0) .empty).1

/-- It is one that `init` has left. -/
theorem openedAs_initialisedAs (pre : Path) : (openedAs pre).2.InitialisedAs pre := by
  refine ⟨_, posix, .empty, Store.new 65536 8 .recent, false, 0, 0, ?_⟩
  exact Prod.ext (Prog.always_exec posix (steady_init _ pre false 0 0) .empty).1 rfl

/-- A directory and a prefix of the same name are two stores. -/
theorem names_apart_iff_sample :
    (openedAs ['a']).2.fileNames.Nodup ∧ (openedAs ['a', '/']).2.fileNames.Nodup ∧
      ((['a'] : Path) ≠ ['a', '/'] →
        (openedAs ['a']).2.fileNames.Disjoint (openedAs ['a', '/']).2.fileNames) :=
  (names_apart_iff (openedAs_initialisedAs ['a']) (openedAs_initialisedAs ['a', '/'])).2
    (by decide +kernel)

/-- Under a prefix of 63 characters all files of the store have that prefix for their name, and so have
those of any longer prefix that begins with it. -/
theorem names_collide : ¬∀ (pre pre' : Path) (st st' : Store), st.InitialisedAs pre →
    st'.InitialisedAs pre' → st.fileNames.Nodup ∧ st'.fileNames.Nodup ∧
      (pre ≠ pre' → st.fileNames.Disjoint st'.fileNames) := by
  intro h
  have hnodup := (h (List.replicate 63 'a') [] _ _ (openedAs_initialisedAs _)
    (openedAs_initialisedAs _)).1
  exact absurd hnodup (by decide +kernel)

end MicroStore
