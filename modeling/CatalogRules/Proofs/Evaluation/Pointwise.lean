import CatalogRules.Engine
import CatalogRules.Proofs.Cache.Loaded
import CatalogRules.Proofs.Resolution.Pooled

/-! # Evaluating many entities is evaluating each of them

`Snapshot.verdicts` says what the results of an entity are, without regard to other entities: of the
definitions about its type, in the order of the snapshot, those without a condition and those whose
condition is true for the entity have one outcome each, by their rules. Here a predicate is true for
an entity if it is so for the values that each of its paths has on the entity alone
(`Predicate.holds`).

All conditions are resolved together, and so are all rules; for each entity and each predicate that
is evaluated for it the truth value is the one that it has alone (`looks_valuesFor`). Hence an
evaluation gives for each entity its verdicts, as far as they are selected (`looks_evaluate`), and
an engine gives the same for one entity and for many, for all tests and for some
(`evaluate_eq_verdicts`). -/

namespace CatalogRules

/-- The predicate is true for the entity. -/
def Predicate.holds (p : Predicate) (r : Registry) (s : Store) (u : Urn) : Bool :=
  match p.eval fun path => Resolution.valuesOf r s u (Path.ofText path) with
  | .ok b => b
  | .error _ => false

/-- The definition has no condition, or its condition is true for the entity. -/
def Definition.applies (d : Definition) (r : Registry) (s : Store) (u : Urn) : Bool :=
  match d.conditions with
  | none => true
  | some p => p.holds r s u

namespace Snapshot

/-- The definitions that are applicable to an entity, in order. -/
def applicable (c : Snapshot) (r : Registry) (s : Store) (u : Urn) : List Definition :=
  (c.forType u.entityType).filter (·.applies r s u)

/-- **The results of an entity.** -/
def verdicts (c : Snapshot) (r : Registry) (s : Store) (u : Urn) : Results :=
  ⟨((c.applicable r s u).filter fun d => d.rules.holds r s u).map fun d => ⟨d.id, .success⟩,
    ((c.applicable r s u).filter fun d => !d.rules.holds r s u).map fun d => ⟨d.id, .failure⟩⟩

end Snapshot

/-- The outcomes of the selected tests, in order. -/
def Results.restrict (res : Results) : Selection → Results
  | .all => res
  | .only ids =>
    ⟨res.passing.filter fun o => ids.contains o.test,
      res.failing.filter fun o => ids.contains o.test⟩

namespace Evaluation

open Resolution

variable {r : Registry} {s : Store} {c : Snapshot} {u : Urn} {d : Definition} {p : Predicate}

/-! ### Truth values -/

/-- An accepted predicate is true or false for each entity. -/
theorem eval_eq_holds (hp : p.Accepted) (r : Registry) (s : Store) (u : Urn) :
    p.eval (fun path => valuesOf r s u (Path.ofText path)) = .ok (p.holds r s u) := by
  obtain ⟨b, hb⟩ := hp.eval_ok fun path => valuesOf r s u (Path.ofText path)
  rw [Predicate.holds, hb]

theorem looks_truth {A : Urn → Path → Prop} {res : Resolution} (hres : Answers r s A res)
    (hA : ∀ path ∈ p.paths, A u (Path.ofText path)) (hp : p.Accepted) :
    Run.Looks s (truth res u p) (· = p.holds r s u) := by
  have heval : p.eval (fun path => res.values u (Path.ofText path)) = .ok (p.holds r s u) := by
    rw [← eval_eq_holds hp]
    exact Predicate.eval_congr p fun path hpath => hres.asked (hA path hpath)
  unfold truth
  rw [heval]
  exact .pure rfl

/-- **What is resolved for some predicates on some entities gives each of them its truth value.** -/
theorem looks_valuesFor (r : Registry) (s : Store) (wanted : List (Urn × List Predicate)) :
    Run.Looks s (valuesFor r wanted) fun res => ∀ w ∈ wanted, ∀ p ∈ w.2, p.Accepted →
      Run.Looks s (truth res w.1 p) (· = p.holds r s w.1) := by
  unfold valuesFor
  refine (looks_resolve _ _ _ _).mono fun res hres w hw p hp hacc => ?_
  refine looks_truth hres (fun path hpath => ⟨?_, ?_⟩) hacc
  · have hne : (!w.2.isEmpty) = true := by simpa using List.ne_nil_of_mem hp
    exact List.mem_map_of_mem (List.mem_filter.mpr ⟨hw, hne⟩)
  · refine List.mem_map_of_mem (Sorted.mem_ofList.mpr ?_)
    exact List.mem_flatMap.mpr ⟨w, hw, List.mem_flatMap.mpr ⟨p, hp, hpath⟩⟩

/-! ### The two phases -/

/-- The definitions that are taken for the entities are accepted. -/
def Sound (assigned : Assignment) : Prop := ∀ e ∈ assigned, ∀ d ∈ e.2, d.Accepted

theorem looks_applicable {cands : Assignment} (hc : Sound cands) :
    Run.Looks s (applicable r cands) fun assigned =>
      assigned = cands.map fun e => (e.1, e.2.filter (·.applies r s e.1)) := by
  unfold applicable
  refine (looks_valuesFor r s _).bind fun res hres => ?_
  refine Run.Looks.mapM _ fun e he => ?_
  refine (Run.Looks.filterM e.2 fun d hd => ?_).bind fun ds hds => .pure (by rw [hds])
  unfold isApplicable
  cases hcond : d.conditions with
  | none => exact .pure (by rw [Definition.applies, hcond])
  | some p =>
    have hcond' := hres (e.1, e.2.filterMap (·.conditions)) (List.mem_map.mpr ⟨e, he, rfl⟩) p
    refine (hcond' ?_ ?_).mono ?_
    · exact List.mem_filterMap.mpr ⟨d, hd, hcond⟩
    · exact (hc e he d hd).conditions p hcond
    · intro b hb
      rw [hb, Definition.applies, hcond]

/-- The outcomes of some definitions for an entity. -/
def outcomesOf (r : Registry) (s : Store) (u : Urn) (ds : List Definition) : Results :=
  ds.foldl (fun res d => res.record d.id (d.rules.holds r s u)) .empty

theorem looks_outcomes {assigned : Assignment} (ha : Sound assigned) :
    Run.Looks s (outcomes r assigned) fun rs =>
      rs = assigned.map fun e => (e.1, outcomesOf r s e.1 e.2) := by
  unfold outcomes
  refine (looks_valuesFor r s _).bind fun res hres => ?_
  refine Run.Looks.mapM _ fun (u, ds) he => ?_
  have hfold : Run.Looks s (ds.foldlM (record res u) .empty) (· = outcomesOf r s u ds) := by
    refine Run.Looks.foldlM (I := fun done out => out = outcomesOf r s u done) rfl ?_
    intro done d rest out hl hout
    have hd : d ∈ ds := by rw [hl]; simp
    have htruth := hres (u, ds.map (·.rules)) (List.mem_map.mpr ⟨_, he, rfl⟩) d.rules
      (List.mem_map_of_mem hd) (ha _ he d hd).rules
    unfold record
    refine htruth.bind fun passed hpassed => ?_
    refine (Run.Looks.count _).bind fun _ _ => .pure ?_
    rw [hpassed, hout, outcomesOf, outcomesOf, List.foldl_append]
    rfl
  exact hfold.bind fun out hout => .pure (by rw [hout])

/-- The outcomes are those of the definitions whose rules are true and those of the others. -/
theorem outcomesOf_eq (r : Registry) (s : Store) (u : Urn) (ds : List Definition) :
    outcomesOf r s u ds = ⟨(ds.filter fun d => d.rules.holds r s u).map fun d => ⟨d.id, .success⟩,
      (ds.filter fun d => !d.rules.holds r s u).map fun d => ⟨d.id, .failure⟩⟩ := by
  have h : ∀ (ds : List Definition) (res : Results),
      ds.foldl (fun res d => res.record d.id (d.rules.holds r s u)) res =
        ⟨res.passing ++ (ds.filter fun d => d.rules.holds r s u).map fun d => ⟨d.id, .success⟩,
          res.failing ++ (ds.filter fun d => !d.rules.holds r s u).map fun d =>
            ⟨d.id, .failure⟩⟩ := by
    intro ds
    induction ds with
    | nil => simp
    | cons d ds ih =>
      intro res
      rw [List.foldl_cons, ih]
      cases hd : d.rules.holds r s u <;> simp [Results.record, hd]
  simpa [outcomesOf, Results.empty] using h ds .empty

/-- Selecting definitions is selecting outcomes. -/
theorem outcomesOf_selected (r : Registry) (s : Store) (u : Urn) (c : Snapshot) (sel : Selection) :
    outcomesOf r s u (((c.forType u.entityType).filter sel.includes).filter (·.applies r s u)) =
      (c.verdicts r s u).restrict sel := by
  rw [outcomesOf_eq, Snapshot.verdicts, Snapshot.applicable]
  cases sel with
  | all =>
    rw [show (c.forType u.entityType).filter Selection.all.includes = c.forType u.entityType from
      List.filter_true _]
    rfl
  | only ids =>
    simp only [Results.restrict, Selection.includes, List.filter_map, Function.comp_def,
      List.filter_filter, Bool.and_comm, Bool.and_assoc]

/-- **An evaluation gives for each entity its verdicts, as far as they are selected.** -/
theorem looks_evaluate (r : Registry) (s : Store) (hc : c.Loaded) (sel : Selection)
    (us : List Urn) : Run.Looks s (evaluate r c sel us) fun rs =>
      rs = us.map fun u => (u, (c.verdicts r s u).restrict sel) := by
  have hcands : Sound (candidates c sel us) := by
    intro e he d hd
    obtain ⟨u, -, rfl⟩ := List.mem_map.mp he
    exact hc.accepted (List.mem_filter.mp hd).1
  unfold evaluate
  refine (looks_applicable hcands).bind fun assigned hassigned => ?_
  have hsound : Sound assigned := by
    intro e he d hd
    rw [hassigned] at he
    obtain ⟨e, hmem, rfl⟩ := List.mem_map.mp he
    exact hcands e hmem d (List.mem_filter.mp hd).1
  refine (looks_outcomes hsound).bind fun rs hrs => ?_
  refine (Run.Looks.forM _ fun t _ => Run.Looks.count _).bind fun _ _ => .pure ?_
  rw [hrs, hassigned, candidates, List.map_map, List.map_map]
  refine List.map_congr_left fun u _ => ?_
  exact congrArg (Prod.mk u) (outcomesOf_selected r s u c sel)

end Evaluation

/-! ### The engine -/

namespace Snapshot

variable {c : Snapshot} {r : Registry} {s : Store} {u : Urn}

theorem applicable_sublist : (c.applicable r s u).Sublist (c.forType u.entityType) :=
  List.filter_sublist

/-- Each applicable definition has one outcome. -/
theorem tests_verdicts_perm :
    ((c.verdicts r s u).outcomes.map (·.test)).Perm ((c.applicable r s u).map (·.id)) := by
  simp only [Results.outcomes, verdicts, List.map_append, List.map_map, Function.comp_def]
  rw [← List.map_append]
  exact (List.filter_append_perm _ _).map _

theorem nodup_tests_verdicts (hc : c.Loaded) :
    ((c.verdicts r s u).outcomes.map (·.test)).Nodup := by
  refine tests_verdicts_perm.nodup_iff.mpr ?_
  exact (hc.nodup_forType u.entityType).sublist (applicable_sublist.map _)

/-- Only ids of the snapshot have outcomes. -/
theorem has_of_mem_verdicts (hc : c.Loaded) {o : Outcome}
    (ho : o ∈ (c.verdicts r s u).outcomes) : c.has o.test := by
  have hmem := tests_verdicts_perm.subset (List.mem_map_of_mem (f := Outcome.test) ho)
  obtain ⟨d, hd, heq⟩ := List.mem_map.mp hmem
  rw [← heq]
  exact hc.has_of_mem (applicable_sublist.subset hd)

/-- Ids that the snapshot does not have change nothing. -/
theorem restrict_known (hc : c.Loaded) (ids : List String) :
    (c.verdicts r s u).restrict (.only (ids.filter c.has)) =
      (c.verdicts r s u).restrict (.only ids) := by
  have hsame : ∀ o ∈ (c.verdicts r s u).outcomes,
      (ids.filter c.has).contains o.test = ids.contains o.test := by
    intro o ho
    rw [Bool.eq_iff_iff, List.contains_iff_mem, List.contains_iff_mem, List.mem_filter]
    exact and_iff_left (has_of_mem_verdicts hc ho)
  rw [Results.restrict, Results.restrict, Results.mk.injEq]
  exact ⟨List.filter_congr fun o ho => hsame o (List.mem_append_left _ ho),
    List.filter_congr fun o ho => hsame o (List.mem_append_right _ ho)⟩

end Snapshot

namespace Engine

theorem run_evaluateOnly (e : Engine) (sel : Selection) (us : List Urn) :
    e.evaluate sel .evaluateOnly us =
      Evaluation.evaluate e.registry e.snapshot sel (Sorted.ofList us) :=
  bind_pure _

/-- **An engine gives each entity its verdicts, be it evaluated alone or with others, and of some
tests those that it gives of all.** -/
theorem evaluate_eq_verdicts (e : Engine) (he : e.snapshot.Loaded) (p : Platform)
    (ho : p.outages = []) :
    let verdicts (u : Urn) : Results := e.snapshot.verdicts e.registry p.store u
    (∀ sel us, ∃ q, (e.evaluate sel .evaluateOnly us).run p =
      (.ok ((Sorted.ofList us).map fun u => (u, (verdicts u).restrict sel)), q) ∧ p.Alike q) ∧
    (∀ sel u, ∃ q, (e.evaluateOne sel .evaluateOnly u).run p =
      (.ok ((verdicts u).restrict sel), q) ∧ p.Alike q) ∧
    (∀ u ids, (verdicts u).restrict (.only (ids.filter e.snapshot.has)) =
      (verdicts u).restrict (.only ids)) ∧
    (∀ u, ((verdicts u).outcomes.map (·.test)).Nodup ∧ ((verdicts u).outcomes.map (·.test)).Perm
      ((e.snapshot.applicable e.registry p.store u).map (·.id))) ∧
    ∀ u, ∀ d ∈ e.snapshot.forType u.entityType, ∀ rule,
      (rule = d.rules ∨ d.conditions = some rule) →
      rule.eval (fun path => Resolution.valuesOf e.registry p.store u (Path.ofText path)) =
        .ok (rule.holds e.registry p.store u) := by
  intro verdicts
  have hmany : ∀ sel us, ∃ q, (e.evaluate sel .evaluateOnly us).run p =
      (.ok ((Sorted.ofList us).map fun u => (u, (verdicts u).restrict sel)), q) ∧ p.Alike q := by
    intro sel us
    obtain ⟨rs, q, hrun, halike, rfl⟩ :=
      (Evaluation.looks_evaluate e.registry p.store he sel (Sorted.ofList us)).gives rfl ho
    exact ⟨q, by rw [run_evaluateOnly, hrun], halike⟩
  refine ⟨hmany, fun sel u => ?_, fun u ids => Snapshot.restrict_known he ids,
    fun u => ⟨Snapshot.nodup_tests_verdicts he, Snapshot.tests_verdicts_perm⟩,
    fun u d hd rule hrule => ?_⟩
  · obtain ⟨q, hrun, halike⟩ := hmany sel [u]
    refine ⟨q, ?_, halike⟩
    unfold evaluateOne
    rw [Run.run_bind, hrun]
    simp [Sorted.ofList, Sorted.insert, Run.run_pure]
  · have hacc := he.accepted hd
    rcases hrule with rfl | hcond
    · exact Evaluation.eval_eq_holds hacc.rules _ _ _
    · exact Evaluation.eval_eq_holds (hacc.conditions rule hcond) _ _ _

end Engine

/-- The snapshot of a single definition: things are owned by someone who is known. -/
def Snapshot.ofOwned : Snapshot :=
  .ofDefinitions (Sweep.readable [⟨"owned", "\x7b\"on\": \x7b\"types\": [\"thing\"]\x7d, \"rules\":
    \x7b\"property\": \"owner.by.urn\", \"operator\": \"exists\"\x7d\x7d"⟩])

theorem Engine.evaluate_owned :
    let e : Engine := ⟨.ofOwners, ⟨⟨1, .ofOwned⟩, 0, none⟩⟩
    let p := Platform.ofStore .ofOwners [] 0
    e.snapshot.Loaded ∧ p.outages = [] ∧ ∃ q,
      (e.evaluateOne (.only ["owned", "lost"]) .evaluateOnly .thing).run p =
        (.ok ⟨[⟨"owned", .success⟩], []⟩, q) := by
  intro e p
  have he : e.snapshot.Loaded := ⟨_, rfl⟩
  obtain ⟨-, hone, -⟩ := evaluate_eq_verdicts e he p rfl
  obtain ⟨q, hrun, -⟩ := hone (.only ["owned", "lost"]) .thing
  refine ⟨he, rfl, q, ?_⟩
  rw [hrun]
  have hv : (e.snapshot.verdicts e.registry p.store .thing).restrict (.only ["owned", "lost"]) =
      ⟨[⟨"owned", .success⟩], []⟩ := by decide +kernel
  rw [hv]

end CatalogRules
