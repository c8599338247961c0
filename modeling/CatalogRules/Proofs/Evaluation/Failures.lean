import CatalogRules.Proofs.Evaluation.Stored
import CatalogRules.Proofs.Predicate.Shape

/-! # What an evaluation may fail with

`Run.Fails kinds x` says of a computation that whatever it fails with is of one of the kinds. An
evaluation only looks into the store, and its predicates are accepted, so it fails only if the store
cannot be read; a commit fails, besides, if the results cannot be written, and actions do not fail it
at all (`Evaluation.fails_run`). In particular the rules of a definition that was read never fail an
evaluation (`accepted_rules_never_fail`). -/

namespace CatalogRules

namespace Run

variable {α β ι : Type}

/-- Whatever the computation fails with is of one of the kinds. -/
def Fails (kinds : List FailureKind) (x : Run α) : Prop :=
  ∀ p e, (x.run p).1 = .error e → e.kind ∈ kinds

namespace Fails

variable {kinds : List FailureKind} {x : Run α}

theorem pure (a : α) : Fails kinds (Pure.pure a : Run α) := by
  intro p e h
  cases h

theorem mono {kinds' : List FailureKind} (h : Fails kinds x) (hk : kinds ⊆ kinds') :
    Fails kinds' x := fun p e he => hk (h p e he)

theorem of_looks {P : Store → α → Prop} (h : ∀ s, Looks s x (P s)) :
    Fails [.entityStore] x := fun p _ he =>
  List.mem_singleton.mpr ((h p.store).failed rfl he)

theorem bind {f : α → Run β} (hx : Fails kinds x) (hf : ∀ a, Fails kinds (f a)) :
    Fails kinds (x >>= f) := by
  intro p e h
  rw [run_bind] at h
  rcases hxp : x.run p with ⟨e' | a, q⟩
  · rw [hxp] at h
    cases h
    exact hx p e (by rw [hxp])
  · rw [hxp] at h
    exact hf a q e h

theorem forM {f : ι → Run Unit} (hf : ∀ i, Fails kinds (f i)) : ∀ l : List ι,
    Fails kinds (l.forM f)
  | [] => pure ()
  | i :: l => by
    show Fails kinds (f i >>= fun _ => l.forM f)
    exact (hf i).bind fun _ => forM hf l

theorem tryCatch {h : Failure → Run α} (hh : ∀ e, Fails kinds (h e)) :
    Fails kinds (MonadExcept.tryCatch x h) := by
  intro p e he
  rw [run_tryCatch] at he
  rcases hxp : x.run p with ⟨e' | a, q⟩
  · rw [hxp] at he
    exact hh e' q e he
  · rw [hxp] at he
    cases he

theorem count (m : Meter) : Fails kinds (Run.count m) := by
  intro p e h
  cases h

theorem persistResult (u : Urn) (r : Results) : Fails [.persist] (Run.persistResult u r) := by
  refine bind (fun p e h => ?_) fun _ p e h => by cases h
  rw [run_call] at h
  cases ho : p.outage? (.persistResult u r) with
  | none =>
    rw [ho] at h
    cases h
  | some message =>
    rw [ho] at h
    cases h
    exact List.mem_singleton_self _

end Fails
end Run

/-! ### Evaluations -/

/-- What an evaluation may fail with. -/
def Mode.failures : Mode → List FailureKind
  | .evaluateOnly => [.entityStore]
  | .full => [.entityStore, .persist]

namespace Evaluation

/-- **No action fails a commit.** -/
theorem fails_applyAll (todo : List (Action × List Urn)) : Run.Fails [] (applyAll todo) := by
  refine Run.Fails.forM (fun (a, us) => ?_) todo
  unfold attempt
  exact (Run.Fails.tryCatch fun _ => .pure false).bind fun _ => .count _

theorem fails_commit (c : Snapshot) (sel : Selection) (rs : Evaluation) :
    Run.Fails Mode.full.failures (commit c sel rs) := by
  have hmerged : Run.Fails [.entityStore] (merged c sel rs) :=
    .of_looks fun s => looks_merged c sel s rs
  have hpersist (rs : Evaluation) : Run.Fails [.persist] (persist rs) :=
    .forM (fun (u, r) => .persistResult u r) rs
  unfold commit
  refine (hmerged.mono (by simp [Mode.failures])).bind fun rs' => ?_
  refine ((hpersist rs').mono (by simp [Mode.failures])).bind fun _ => ?_
  exact (fails_applyAll _).mono (List.nil_subset _)

/-- **An evaluation fails only if the store cannot be read or, in full mode, the results cannot be
written.** -/
theorem fails_run (r : Registry) {c : Snapshot} (hc : c.Loaded) (sel : Selection) (mode : Mode)
    (us : List Urn) : Run.Fails mode.failures (run r c sel mode us) := by
  have hevaluate : Run.Fails [.entityStore] (evaluate r c sel (Sorted.ofList us)) :=
    .of_looks fun s => looks_evaluate r s hc sel _
  unfold run
  cases mode with
  | evaluateOnly => exact hevaluate.bind fun rs => .pure rs
  | full =>
    refine (hevaluate.mono (by simp [Mode.failures])).bind fun rs => ?_
    exact (fails_commit c sel rs).bind fun _ => .pure rs

end Evaluation

theorem Engine.fails_evaluateOne {e : Engine} (he : e.snapshot.Loaded) (sel : Selection)
    (mode : Mode) (u : Urn) : Run.Fails mode.failures (e.evaluateOne sel mode u) :=
  (Evaluation.fails_run e.registry he sel mode [u]).bind fun _ => .pure _

/-! ### Caches that refreshes fill -/

/-- The cache is empty, or it was refreshed some times, from whatever platforms. -/
inductive Cache.Filled : Cache → Prop
  | empty (pageSize : Nat) : Filled (ofPageSize pageSize)
  | refreshed {c : Cache} (before : Filled c) (p : Platform) : Filled (c.refresh.run p).1.2

theorem Cache.Filled.loaded {c : Cache} (h : c.Filled) : c.snapshot.Loaded := by
  induction h with
  | empty pageSize => exact Snapshot.loaded_empty
  | refreshed before p ih => exact (refresh_loaded ih p).1

/-- **Every node of the rules and the conditions of a definition that was read is fit for its
operator and well shaped, so that they have a truth value whatever the values of their paths are.
Over a cache that refreshes fill no evaluation, of many entities or of one, of all tests or of some,
committed or not, fails on account of an operand.** -/
theorem accepted_rules_never_fail :
    (∀ id text d, Definition.read id text = .ok d →
      ∀ rule, (rule = d.rules ∨ d.conditions = some rule) →
        (∀ q ∈ rule.nodes, q.check = .ok () ∧ q.WellShaped) ∧
        ∀ v, ∃ b, rule.eval v = .ok b) ∧
    ∀ e : Engine, e.refresher.cache.Filled → ∀ sel mode p fault,
      (∀ us, ((e.evaluate sel mode us).run p).1 ≠ .error (.invalidOperand fault)) ∧
      ∀ u, ((e.evaluateOne sel mode u).run p).1 ≠ .error (.invalidOperand fault) := by
  refine ⟨fun id text d hread rule hrule => ?_, fun e he sel mode p fault => ?_⟩
  · have hd : d.Accepted := (Definition.accepted_read hread).2
    have hacc : rule.Accepted := by
      rcases hrule with rfl | hcond
      · exact hd.rules
      · exact hd.conditions rule hcond
    exact ⟨hacc.nodes, hacc.eval_ok⟩
  · have hkind : (Failure.invalidOperand fault).kind ∉ mode.failures := by
      cases mode <;> simp [Failure.kind, Mode.failures]
    have hloaded : e.snapshot.Loaded := he.loaded
    exact ⟨fun us h => hkind (Evaluation.fails_run e.registry hloaded sel mode us p _ h),
      fun u h => hkind (Engine.fails_evaluateOne hloaded sel mode u p _ h)⟩

/-- The platform with a single definition: things that are not owned by the one who is to be left
out. -/
def Platform.ofSelective : Platform :=
  ⟨.ofOwners, [], 0, .script [.ok ⟨[⟨"selective", selective⟩], 1⟩], [], [], [], 0, []⟩
where
  selective : String := "\x7b\"on\": \x7b\"types\": [\"thing\"]\x7d, \"rules\":
    \x7b\"not\": \x7b\"or\": [\x7b\"property\": \"owner.by.urn\", \"operator\": \"equals\", \"values\": \"out\"\x7d]\x7d\x7d\x7d"

theorem selective_rules_never_fail :
    let p := Platform.ofSelective
    let e : Engine := ⟨.ofOwners, ⟨((Cache.ofPageSize 1).refresh.run p).1.2, 0, none⟩⟩
    (∃ d, Definition.read "selective" Platform.ofSelective.selective = .ok d ∧
      d.rules.nodes.length = 3 ∧ ∀ q ∈ d.rules.nodes, q.check = .ok () ∧ q.WellShaped) ∧
    e.snapshot.size = 1 ∧
    ∀ fault, ((e.evaluateOne .all .full .thing).run p).1 ≠ .error (.invalidOperand fault) := by
  intro p e
  have hread : (Definition.read "selective" Platform.ofSelective.selective).toOption.map
      (·.rules.nodes.length) = some 3 := by decide +kernel
  have he : e.refresher.cache.Filled := (Cache.Filled.empty 1).refreshed p
  refine ⟨?_, by decide +kernel, fun fault => ?_⟩
  · cases hd : Definition.read "selective" Platform.ofSelective.selective with
    | error failure =>
      rw [hd] at hread
      cases hread
    | ok d =>
      rw [hd] at hread
      have hrules := accepted_rules_never_fail.1 _ _ d hd d.rules (Or.inl rfl)
      exact ⟨d, rfl, Option.some.inj hread, hrules.1⟩
  · exact (accepted_rules_never_fail.2 e he .all .full p fault).2 .thing

end CatalogRules
