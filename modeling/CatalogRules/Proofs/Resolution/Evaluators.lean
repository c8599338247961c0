import CatalogRules.Proofs.Looking
import CatalogRules.Proofs.Resolution.Requests
import CatalogRules.Proofs.Resolution.Single
import CatalogRules.Proofs.Resolution.Tables

/-! # What the evaluators find

A resolution answers some requests if it holds the values of each path on each entity that is asked
for (`Resolution.valuesOf`), and nothing else (`Resolution.Answers`). Answers to requests that have
nothing in common can be merged (`Answers.merge`). Each evaluator answers for all entities of a type
and all paths that are assigned to it at once: the identity evaluator from the names alone
(`answers_identity`), the system evaluator by one look into the store (`looks_system`). -/

namespace CatalogRules

/-- The first evaluator that can resolve a path: by the name, by a plan, or by a derived time. -/
theorem Evaluator.firstEligible_standard (r : Registry) (t : String) (p : Path) :
    Evaluator.firstEligible r t p Evaluator.standard =
      if (IdentityField.ofPath? p).isSome then some .identity
      else if (Plan.of? r t p).isSome then some .aspect
      else if r.has t && (SystemField.ofPath? p).isSome then some .system else none := by
  have ha : Evaluator.isEligible r t p .aspect = (Plan.of? r t p).isSome := by
    cases p with
    | nil => rfl
    | cons a fields =>
      simp only [Evaluator.isEligible, Plan.of?, Option.bind_eq_bind]
      cases r.aspect? t a with
      | none => rfl
      | some spec => simp only [Option.bind_some]; split <;> rfl
  unfold Evaluator.firstEligible Evaluator.standard
  simp only [List.find?_cons, List.find?_nil, ha]
  simp only [Evaluator.isEligible]
  cases (IdentityField.ofPath? p).isSome <;> cases (Plan.of? r t p).isSome <;>
    cases r.has t && (SystemField.ofPath? p).isSome <;> rfl

namespace Resolution

/-- **The values of the paths that are asked for, and nothing else.** -/
structure Answers (r : Registry) (s : Store) (A : Urn → Path → Prop) (res : Resolution) :
    Prop where
  valid : res.Valid
  asked : ∀ {u p}, A u p → res.values u p = valuesOf r s u p
  silent : ∀ {u p}, ¬ A u p → res.values u p = []

variable {r : Registry} {s : Store} {A B : Urn → Path → Prop} {res other : Resolution}

namespace Answers

/-- Paths that have no values may be asked for as well. -/
theorem widen (h : Answers r s A res) (hAB : ∀ u p, A u p → B u p)
    (hB : ∀ u p, B u p → ¬ A u p → valuesOf r s u p = []) : Answers r s B res where
  valid := h.valid
  asked {u p} hb := by
    by_cases ha : A u p
    · exact h.asked ha
    · rw [h.silent ha, hB u p hb ha]
  silent hb := h.silent fun ha => hb (hAB _ _ ha)

theorem congr (h : Answers r s A res) (hAB : ∀ u p, A u p ↔ B u p) : Answers r s B res :=
  h.widen (fun u p => (hAB u p).mp) fun u p hb ha => absurd ((hAB u p).mpr hb) ha

/-- An empty resolution answers for paths that have no values. -/
theorem nil (h : ∀ u p, A u p → valuesOf r s u p = []) : Answers r s A [] where
  valid := .nil
  asked ha := (h _ _ ha).symm
  silent _ := rfl

/-- The answers to two requests that have nothing in common. -/
theorem merge (h : Answers r s A res) (k : Answers r s B other)
    (hd : ∀ u p, A u p → ¬ B u p) : Answers r s (fun u p => A u p ∨ B u p) (res.merge other) where
  valid := h.valid.merge other
  asked {u p} hab := by
    rw [values_merge k.valid]
    rcases hab with ha | hb
    · rw [h.asked ha, k.silent (hd u p ha), List.append_nil]
    · rw [k.asked hb, h.silent fun ha => hd u p ha hb, List.nil_append]
  silent {u p} hab := by
    rw [values_merge k.valid, h.silent fun ha => hab (Or.inl ha),
      k.silent fun hb => hab (Or.inr hb), List.append_nil]

end Answers
end Resolution

namespace Resolve

open Resolution

variable {r : Registry} {s : Store} {t : String} {us : List Urn} {ps : List Path}

/-! ### Names and times -/

theorem answers_singles {α : Type} {known : Urn → Option α}
    {value : Urn → α → Path → Option String} (hus : us.Pairwise (· < ·))
    (hps : ps.Pairwise (· < ·)) (h : ∀ u ∈ us, ∀ p ∈ ps,
      valuesOf r s u p = ((known u).bind fun a => value u a p).toList) :
    Answers r s (fun u p => u ∈ us ∧ p ∈ ps) (singles known value us ps) where
  valid := .singles hus hps
  asked {u p} hup := by rw [values_singles, if_pos hup, h u hup.1 p hup.2]
  silent {u p} hup := by rw [values_singles, if_neg hup]

theorem identity_eq_singles (us : List Urn) (ps : List Path) : identity us ps =
    singles (fun _ => some ()) (fun u _ p => (IdentityField.ofPath? p).map (·.value u)) us ps := by
  unfold identity singles
  simp only [Option.map_some, List.filterMap_eq_map', Option.map_map]
  rfl

theorem answers_identity (hus : us.Pairwise (· < ·)) (hps : ps.Pairwise (· < ·))
    (hi : ∀ p ∈ ps, (IdentityField.ofPath? p).isSome) :
    Answers r s (fun u p => u ∈ us ∧ p ∈ ps) (identity us ps) := by
  rw [identity_eq_singles]
  refine answers_singles hus hps fun u _ p hp => ?_
  obtain ⟨f, hf⟩ := Option.isSome_iff_exists.mp (hi p hp)
  rw [valuesOf_identity hf, hf]
  rfl

/-- The derived times in the aspects that were fetched. -/
theorem times_eq_singles (us : List Urn) (ps : List Path) (names : List String) :
    ((s.fetch us names).map fun (u, aspects) => (u,
      (ps.filterMap fun p => (SystemField.ofPath? p).map fun f => (p, f)).filterMap
        fun (p, f) => (f.derive aspects).map fun n => (p, [toString n]))) =
    singles (fun u => (s.entity? u).map fun a => a.filter fun e => names.contains e.1)
      (fun _ a p => (SystemField.ofPath? p).bind fun f => (f.derive a).map toString) us ps := by
  unfold Store.fetch singles
  rw [List.map_filterMap]
  refine List.filterMap_congr fun u _ => ?_
  rw [Option.map_map, Option.map_map]
  refine congrArg (fun g => Option.map g _) (funext fun a => ?_)
  simp only [Function.comp, List.filterMap_filterMap, Prod.mk.injEq, true_and]
  refine List.filterMap_congr fun p _ => ?_
  cases SystemField.ofPath? p with
  | none => rfl
  | some f => simp only [Option.map_some, Option.bind_some, Option.map_map]; rfl

theorem looks_system (hus : us.Pairwise (· < ·)) (hps : ps.Pairwise (· < ·))
    (ht : ∀ u ∈ us, u.entityType = t) (hr : r.has t)
    (hn : ∀ u ∈ us, ∀ p ∈ ps, valuesOf r s u p = timeOf r s u p) :
    Run.Looks s (system r t us ps) (Answers r s fun u p => u ∈ us ∧ p ∈ ps) := by
  unfold system
  dsimp only
  split_ifs with hf
  · refine .pure (.nil fun u p hup => ?_)
    have hnone := List.filterMap_eq_nil_iff.mp hf p hup.2
    rw [Option.map_eq_none_iff] at hnone
    rw [hn u hup.1 p hup.2, timeOf, hnone]
  · refine (Run.Looks.count _).bind fun _ _ => ?_
    refine (Run.Looks.fetchAspects _ _ _).bind fun fetched hfetched => .pure ?_
    rw [hfetched, times_eq_singles]
    refine answers_singles hus hps fun u hu p hp => ?_
    rw [hn u hu p hp, timeOf, ht u hu, hr]
    cases s.entity? u with
    | none => cases SystemField.ofPath? p <;> rfl
    | some a => cases SystemField.ofPath? p <;> rfl

end Resolve
end CatalogRules
