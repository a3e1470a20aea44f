import MicroStore.TieredRun

/-!
# Runs of a tiered store

A tiered store at work: a `Backing` says what the store below answers and does, and a run performs
operations one after the other, each in its own circumstances.

## What is here

* `Backing` — a store below at work.  Its circumstances `ε` are what differs from call to call, such as
  the time; `fine` are the calls that go well.
* `TieredOp`, `TieredState` — the operations, and a tiered store with the store below.  Along with them
  the run keeps which puts are in force (`TieredState.puts`).
* `TieredState.step`, `TieredState.run` — runs; `TieredState.All` says that every step of one meets a
  condition on its state.
* `Fine`, `Timely` — the calls of a run go well, and its clock does not go back.
* `PutFits`, `SyncFinds`, `GetKeeps` — the conditions on a step under which the aspects of the invariant
  survive it: the expiry of a put does not wrap, a `sync` finds the older copies of the changed slots,
  and a `get` promotes nothing that will expire.
* `Meets`, `Kept.step`, `Kept.run` — a run whose steps meet what the aspects demand keeps the invariant.

Every result on runs of a tiered store is an instance of `Kept.run` for some aspects, together with what
the invariant says of the last state.
-/

set_option autoImplicit false

namespace MicroStore

/-! ## The store below at work

The same programs run in two ways: against a relation, which gives the rules of proof, and against a
handler, which gives a run.  `exec_of_wp` connects the two. -/

/-- The store below: what the clock says, what a call answers and does, and which calls go well. -/
structure Backing (ε σ : Type) where
  /-- What the clock says. -/
  time : ε → UInt32
  /-- What a call answers, and what it does. -/
  handle : ε → (c : StoreCall) → σ → c.Reply × σ
  /-- The call goes well. -/
  fine : ε → StoreCall → σ → Prop
  /-- Which can be decided. -/
  decidableFine : ∀ e c s, Decidable (fine e c s)

namespace Backing

variable {ε σ α : Type} (B : Backing ε σ)

instance (e : ε) (c : StoreCall) (s : σ) : Decidable (B.fine e c s) := B.decidableFine e c s

/-- The outcome of a call that goes well. -/
def rel (e : ε) : StoreRel σ := fun c s r s' => B.fine e c s ∧ (r, s') = B.handle e c s

/-- Run a program over the store. -/
def exec (e : ε) (p : StoreM α) (s : σ) : α × σ := Prog.exec (B.handle e) p s

/-- All its calls go well. -/
def Fine (e : ε) (p : StoreM α) (s : σ) : Prop :=
  ∀ x ∈ Prog.trace (B.handle e) p s, B.fine e x.1 x.2

instance (e : ε) (p : StoreM α) (s : σ) : Decidable (B.Fine e p s) :=
  inferInstanceAs (Decidable (∀ _ ∈ _, _))

/-- What the store below answers to a `get`. -/
def get (e : ε) (k : Bytes) (s : σ) : Option Bytes := (B.handle e (.get k) s).1

/-- What the store below answers to an `exists`. -/
def «exists» (e : ε) (k : Bytes) (s : σ) : Bool := (B.handle e (.exists k) s).1

/-- The store below has the key, and says so. -/
def Finds (e : ε) (k : Bytes) (s : σ) : Prop := B.fine e (.exists k) s ∧ B.exists e k s = true

instance (e : ε) (k : Bytes) (s : σ) : Decidable (B.Finds e k s) :=
  inferInstanceAs (Decidable (_ ∧ _))

variable {B}

/-- A run whose calls go well ends as its precondition promises. -/
theorem exec_of_wp {e : ε} {p : StoreM α} {Q : α → σ → Prop} {s : σ} (h : (B.rel e).wp p Q s)
    (hfine : B.Fine e p s) : Q (B.exec e p s).1 (B.exec e p s).2 :=
  Prog.wp_exec (π := id) h fun x hx => ⟨hfine x hx, rfl⟩

end Backing

/-! ## Operations

`TieredOp.next` is what an operation makes of the puts in force, given its answer. -/

/-- The operations of a run. -/
inductive TieredOp (κ υ : Type)
  | put (key : κ) (value : υ) (ttl : UInt32) (priority : UInt8)
  | get (key : κ)
  | «exists» (key : κ)
  | remove (key : κ)
  | size
  | iterate
  | sync
  | clear

namespace Tiered

variable {κ υ σ ε : Type} [DecidableEq κ] [Inhabited κ] [Inhabited υ] (ty : Typed κ υ)

/-- Perform one operation, and tell whether it succeeds. -/
def perform (now : UInt32) (t : Tiered κ υ) : TieredOp κ υ → StoreM (Bool × Tiered κ υ)
  | .put key value ttl priority => put ty now t key value ttl priority
  | .get key => do
    let (v, t) ← get ty now t key
    pure (v.isSome, t)
  | .exists key => Tiered.exists ty now t key
  | .remove key => remove ty t key
  | .size => do
    let _ ← size ty t
    pure (true, t)
  | .iterate => do
    let (_, t) ← iterate ty now t
    pure (true, t)
  | .sync => sync ty now t
  | .clear => do
    let t ← clear t
    pure (true, t)

end Tiered

/-- The puts in force after an operation. -/
def TieredOp.next {κ υ : Type} [DecidableEq κ] (puts : κ → Option (TieredPut υ)) (now : UInt32)
    (ok : Bool) : TieredOp κ υ → κ → Option (TieredPut υ)
  | .put key value ttl _ =>
    if ok = true then Function.update puts key (some ⟨value, now, ttl⟩) else puts
  | .remove key => Function.update puts key none
  | .clear => fun _ => none
  | .get _ | .exists _ | .size | .iterate | .sync => puts

/-- A tiered store in a run: its slots, the store below, and the puts in force. -/
structure TieredState (κ υ σ : Type) where
  /-- The slots. -/
  tier : Tiered κ υ
  /-- The store below. -/
  store : σ
  /-- The last put of each key, if it has not been removed. -/
  puts : κ → Option (TieredPut υ)

namespace TieredState

variable {κ υ σ ε : Type} [DecidableEq κ] [Inhabited κ] [Inhabited υ] (B : Backing ε σ) (ty : Typed κ υ)

/-- A new tiered store. -/
def start (s : σ) : TieredState κ υ σ := ⟨Tiered.new, s, fun _ => none⟩

/-- Perform one operation. -/
def step (x : TieredState κ υ σ) (e : ε) (op : TieredOp κ υ) : TieredState κ υ σ :=
  let y := B.exec e (Tiered.perform ty (B.time e) x.tier op) x.store
  ⟨y.1.2, y.2, op.next x.puts (B.time e) y.1.1⟩

/-- Perform operations one after the other. -/
def run (x : TieredState κ υ σ) (ops : List (ε × TieredOp κ υ)) : TieredState κ υ σ :=
  ops.foldl (fun x op => x.step B ty op.1 op.2) x

/-- A condition on every step of a run. -/
def All (P : TieredState κ υ σ → ε → TieredOp κ υ → Prop) :
    List (ε × TieredOp κ υ) → TieredState κ υ σ → Prop
  | [], _ => True
  | (e, op) :: ops, x => P x e op ∧ All P ops (x.step B ty e op)

instance decidableAll (P : TieredState κ υ σ → ε → TieredOp κ υ → Prop) [∀ x e op, Decidable (P x e op)]
    (ops : List (ε × TieredOp κ υ)) (x : TieredState κ υ σ) : Decidable (All B ty P ops x) := by
  induction ops generalizing x with
  | nil => exact .isTrue trivial
  | cons op ops ih => exact @instDecidableAnd _ _ _ (ih _)

/-- A run in two parts. -/
theorem all_append {P : TieredState κ υ σ → ε → TieredOp κ υ → Prop} {ops ops' : List (ε × TieredOp κ υ)}
    {x : TieredState κ υ σ} :
    All B ty P (ops ++ ops') x ↔ All B ty P ops x ∧ All B ty P ops' (x.run B ty ops) := by
  induction ops generalizing x with
  | nil => exact (true_and _).symm ▸ Iff.rfl
  | cons op ops ih => exact (and_congr_right fun _ => ih).trans and_assoc.symm

/-- A weaker condition. -/
theorem All.mono {P P' : TieredState κ υ σ → ε → TieredOp κ υ → Prop} (hP : ∀ x e op, P x e op → P' x e op)
    {ops : List (ε × TieredOp κ υ)} {x : TieredState κ υ σ} (h : All B ty P ops x) :
    All B ty P' ops x := by
  induction ops generalizing x with
  | nil => trivial
  | cons op ops ih => exact ⟨hP _ _ _ h.1, ih h.2⟩

/-- All calls of the operation go well. -/
def Fine (x : TieredState κ υ σ) (e : ε) (op : TieredOp κ υ) : Prop :=
  B.Fine e (Tiered.perform ty (B.time e) x.tier op) x.store

instance (x : TieredState κ υ σ) (e : ε) (op : TieredOp κ υ) : Decidable (x.Fine B ty e op) :=
  inferInstanceAs (Decidable (B.Fine ..))

/-- The clock does not go back. -/
def Timely : UInt32 → List (ε × TieredOp κ υ) → Prop
  | _, [] => True
  | now, (e, _) :: ops => now ≤ B.time e ∧ Timely (B.time e) ops

instance decidableTimely (now : UInt32) (ops : List (ε × TieredOp κ υ)) :
    Decidable (Timely B now ops) := by
  induction ops generalizing now with
  | nil => exact .isTrue trivial
  | cons op ops ih => exact @instDecidableAnd _ _ _ (ih _)

omit [DecidableEq κ] [Inhabited κ] [Inhabited υ] in
/-- A run in two parts. -/
theorem timely_append {now : UInt32} {ops ops' : List (ε × TieredOp κ υ)} :
    Timely B now (ops ++ ops') ↔
      Timely B now ops ∧ Timely B (ops.foldl (fun _ op => B.time op.1) now) ops' := by
  induction ops generalizing now with
  | nil => exact (true_and _).symm ▸ Iff.rfl
  | cons op ops ih => exact (and_congr_right fun _ => ih).trans and_assoc.symm

/-- What the clock says last. -/
def lastTime (now : UInt32) (ops : List (ε × TieredOp κ υ)) : UInt32 :=
  ops.foldl (fun _ op => B.time op.1) now

/-- The put's expiry fits into 32 bits. -/
def PutFits (policy : UInt32) (_ : TieredState κ υ σ) (e : ε) : TieredOp κ υ → Prop
  | .put _ value ttl _ => TieredPut.Fits policy ⟨value, B.time e, ttl⟩
  | _ => True

instance (policy : UInt32) (x : TieredState κ υ σ) (e : ε) (op : TieredOp κ υ) :
    Decidable (x.PutFits B policy e op) := by
  cases op <;> dsimp only [PutFits] <;> infer_instance

/-- At a `sync` the store below still has what the changed slots replace. -/
def SyncFinds (x : TieredState κ υ σ) (e : ε) : TieredOp κ υ → Prop
  | .sync => ∀ i ∈ List.range ty.cacheSize.toNat,
    (x.tier.slots i).valid = true → (x.tier.slots i).dirty = true → (x.tier.slots i).inL2 = true →
    (x.tier.slots i).isExpired (B.time e) = false →
    B.Finds e (ty.keyCodec.encode (x.tier.slots i).key) x.store
  | _ => True

instance (x : TieredState κ υ σ) (e : ε) (op : TieredOp κ υ) : Decidable (x.SyncFinds B ty e op) := by
  cases op <;> dsimp only [SyncFinds] <;> infer_instance

/-- A `get` promotes nothing that will expire. -/
def GetKeeps (policy : UInt32) (x : TieredState κ υ σ) (e : ε) : TieredOp κ υ → Prop
  | .get key => Tiered.find ty x.tier key = none → ∀ p, x.puts key = some p →
    MicroStore.expiresAt p.time p.ttl = 0 ∨ p.Over policy (B.time e)
  | _ => True

instance (policy : UInt32) (x : TieredState κ υ σ) (e : ε) (op : TieredOp κ υ) :
    Decidable (x.GetKeeps B ty policy e op) := by
  cases op with
  | get key =>
    dsimp only [GetKeeps]
    cases x.puts key with
    | none => exact .isTrue fun _ => nofun
    | some p =>
      exact decidable_of_iff (Tiered.find ty x.tier key = none →
        MicroStore.expiresAt p.time p.ttl = 0 ∨ p.Over policy (B.time e))
        ⟨fun h hf q hq => by cases hq; exact h hf, fun h hf => h hf p rfl⟩
  | put | «exists» | remove | size | iterate | sync | clear => exact .isTrue trivial

/-! ## The invariant

`Kept` is `Tiered.Kept` of the state of a run. -/

/-- What the kept aspects demand of a step. -/
structure Meets (policy : UInt32) (asp : Tiered.Aspects) (x : TieredState κ υ σ) (e : ε)
    (op : TieredOp κ υ) : Prop where
  /-- The expiry of a put does not wrap. -/
  fits : x.PutFits B policy e op
  /-- A `sync` finds the older copies, unless nothing ever expires. -/
  finds : asp.timeless ∨ x.SyncFinds B ty e op
  /-- A `get` promotes nothing that will expire, if expiries are to be exact. -/
  keeps : asp.exact → x.GetKeeps B ty policy e op
  /-- No put has a TTL, if nothing is to expire. -/
  timeless : asp.timeless → policy = 0 ∧ ∀ k v ttl priority, op = .put k v ttl priority → ttl = 0

variable {B ty} {policy : UInt32} {accepts : Bytes → Bytes → Prop} {Rep : σ → Holdings → Prop}
  {asp : Tiered.Aspects} {x : TieredState κ υ σ} {e : ε} {op : TieredOp κ υ}

/-- The puts are kept track of. -/
abbrev Kept (ty : Typed κ υ) (policy : UInt32) (asp : Tiered.Aspects) (now : UInt32)
    (Rep : σ → Holdings → Prop) (x : TieredState κ υ σ) : Prop :=
  Tiered.Kept ty policy asp now Rep x.puts x.tier x.store

/-- One operation keeps track of the puts. -/
theorem Kept.step (hty : Tiered.RoundTrips ty)
    (hR : (B.rel e).Lawful policy False accepts (B.time e) Rep)
    (h : x.Kept ty policy asp (B.time e) Rep) (hb : ¬asp.backed) (hmeets : x.Meets B ty policy asp e op)
    (hfine : x.Fine B ty e op) : (x.step B ty e op).Kept ty policy asp (B.time e) Rep := by
  refine Backing.exec_of_wp (p := Tiered.perform ty (B.time e) x.tier op)
    (Q := fun y s' => Tiered.Kept ty policy asp (B.time e) Rep (op.next x.puts (B.time e) y.1) y.2 s')
    ?_ hfine
  cases op with
  | put k v ttl priority =>
    refine Prog.wp_mono (h.wp_put hty hR hb hmeets.fits fun ht => ?_) fun y s' hy => hy.1
    exact ⟨(hmeets.timeless ht).2 k v ttl priority rfl, (hmeets.timeless ht).1⟩
  | get k =>
    refine StoreRel.wp_seq (h.wp_get hty hR) fun y s' hy => hy.1 fun hx hc => ?_
    exact hmeets.keeps hx (Tiered.cell_eq_none.1 hc)
  | «exists» k => exact Prog.wp_mono (h.wp_exists hty hR) fun y s' hy => hy.1
  | remove k => exact h.wp_remove hty hR
  | size => exact StoreRel.wp_seq (h.size_kept hty hR) fun y s' hy => hy
  | iterate => exact StoreRel.wp_seq (h.iterate_kept hty hR) fun y s' hy => hy
  | sync =>
    refine Prog.wp_mono (h.wp_sync hty hR hb ?_) fun y s' hy => hy.1
    refine hmeets.finds.imp_right fun hfinds i hv hd hin hexp => ?_
    obtain ⟨hok, hyes⟩ := hfinds i (List.mem_range.2 (h.wf.lt i hv).1) hv hd hin hexp
    exact ⟨_, hok, Prod.ext hyes.symm rfl⟩
  | clear => exact StoreRel.wp_seq (h.wp_clear hty hR) fun y s' hy => hy

/-- A run keeps track of the puts. -/
theorem Kept.run {ops : List (ε × TieredOp κ υ)} {now : UInt32} (hty : Tiered.RoundTrips ty)
    (hB : ∀ e, (B.rel e).Lawful policy False accepts (B.time e) Rep)
    (h : x.Kept ty policy asp now Rep) (hb : ¬asp.backed) (htimes : asp.timeless ∨ Timely B now ops)
    (hmeets : All B ty (fun x e op => x.Meets B ty policy asp e op) ops x)
    (hfine : All B ty (fun x e op => x.Fine B ty e op) ops x) :
    (x.run B ty ops).Kept ty policy asp (lastTime B now ops) Rep := by
  induction ops generalizing x now with
  | nil => exact h
  | cons op ops ih =>
    obtain ⟨e, op⟩ := op
    refine ih (Kept.step hty (hB e) (Tiered.Kept.later h hb ?_) hb hmeets.1 hfine.1)
      (htimes.imp_right And.right) hmeets.2 hfine.2
    exact htimes.symm.imp_left And.left

end TieredState

end MicroStore
