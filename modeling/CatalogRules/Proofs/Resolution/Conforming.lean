import CatalogRules.Proofs.Collections
import CatalogRules.Proofs.Resolution.Evaluators
import CatalogRules.Resolution.Validate

/-! # Paths that can be resolved on conforming stores

A path is resolvable on an entity type (`Path.Resolvable`) if it names the entity, stands for a
derived time, stays in an aspect, or hops and its rest is resolvable on some type that the reference
may lead to. This is what the validation of a path decides (`validate_iff_resolvable`).

A store conforms to the registry (`Store.Conforms`) if every entity that a declared reference field
refers to is of a declared type. On a conforming store only resolvable paths have values
(`resolvable_of_valuesOf`): a hop leads to an entity of a declared type, on which the rest of the
path has values. -/

namespace CatalogRules

/-! ### Written paths -/

namespace Text

theorem not_mem_of_mem_splitAt {sep : Char} : ∀ {cs part : List Char}, part ∈ splitAt sep cs →
    sep ∉ part
  | [], part, h => by
    rw [splitAt, List.mem_singleton] at h
    simp [h]
  | c :: cs, part, h => by
    unfold splitAt at h
    split_ifs at h with hc
    · rcases List.mem_cons.mp h with rfl | h
      · simp
      · exact not_mem_of_mem_splitAt h
    · cases hs : splitAt sep cs with
      | nil => exact absurd hs (splitAt_ne_nil sep cs)
      | cons q qs =>
        rw [hs] at h
        have hmem : ∀ part' ∈ q :: qs, sep ∉ part' := fun part' hp =>
          not_mem_of_mem_splitAt (hs ▸ hp)
        rcases List.mem_cons.mp h with rfl | h
        · rw [List.mem_cons, not_or]
          exact ⟨fun he => hc he.symm, hmem q List.mem_cons_self⟩
        · exact hmem part (List.mem_cons_of_mem _ h)

end Text

namespace Path

/-- No segment is empty, and none has a point. -/
def Plain (p : Path) : Prop := ∀ seg ∈ p, seg ≠ "" ∧ '.' ∉ seg.toList

theorem Plain.subset {p q : Path} (h : p.Plain) (hq : q ⊆ p) : q.Plain := fun seg hs =>
  h seg (hq hs)

theorem Plain.nonempty {p : Path} (h : p.Plain) : "" ∉ p := fun he => (h "" he).1 rfl

theorem not_mem_of_mem_ofText {s seg : String} (h : seg ∈ ofText s) : '.' ∉ seg.toList := by
  obtain ⟨part, hpart, rfl⟩ := List.mem_map.mp h
  rw [String.toList_ofList]
  exact Text.not_mem_of_mem_splitAt hpart

theorem plain_ofText {s : String} (h : "" ∉ ofText s) : (ofText s).Plain := fun _ hseg =>
  ⟨fun he => h (he ▸ hseg), not_mem_of_mem_ofText hseg⟩

theorem ofText_ne_nil (s : String) : ofText s ≠ [] :=
  fun h => Text.splitAt_ne_nil '.' s.toList (List.map_eq_nil_iff.mp h)

/-- A path is read back from its text, also if some segments are empty. -/
theorem ofText_text_of_not_mem {p : Path} (hne : p ≠ []) (hp : ∀ seg ∈ p, '.' ∉ seg.toList) :
    ofText p.text = p := by
  have hsplit : Text.splitAt '.' (Text.joinWith '.' (p.map String.toList)) = p.map String.toList := by
    refine Text.splitAt_joinWith (by simpa using hne) fun part hpart => ?_
    obtain ⟨seg, hseg, rfl⟩ := List.mem_map.mp hpart
    exact hp seg hseg
  rw [ofText, text, String.toList_ofList, hsplit, List.map_map]
  simp [Function.comp_def]

theorem ofText_text {p : Path} (hne : p ≠ []) (hp : p.Plain) : ofText p.text = p :=
  ofText_text_of_not_mem hne fun seg hseg => (hp seg hseg).2

end Path

/-! ### Plans -/

namespace Plan

variable {r : Registry} {t a : String} {p rest : Path} {fs ts : List String}

theorem cut?_targets {spec : AspectSpec} : ∀ {taken fields : List String},
    cut? spec taken fields = some (fs, ts, rest) →
      spec.references.lookup (Path.text fs) = some ts
  | _, [], h => by simp [cut?] at h
  | _, [_], h => by simp [cut?] at h
  | taken, f :: g :: more, h => by
    rw [cut?] at h
    cases hf : spec.references.lookup (Path.text (taken ++ [f])) with
    | some targets =>
      simp only [hf, Option.some.injEq, Prod.mk.injEq] at h
      obtain ⟨rfl, rfl, -⟩ := h
      exact hf
    | none =>
      simp only [hf] at h
      exact cut?_targets h

/-- A hop goes along a field that is declared as a reference to the types of the plan. -/
theorem of?_hop (h : of? r t p = some (.hop a fs ts rest)) :
    r.targets? t a (Path.text fs) = some ts ∧ fs ≠ [] ∧ p = a :: (fs ++ rest) := by
  cases p with
  | nil => simp [of?] at h
  | cons a' fields =>
    simp only [of?, Option.bind_eq_bind, Option.bind_eq_some_iff] at h
    obtain ⟨spec, hspec, h⟩ := h
    split at h
    · next part targets rest' hc =>
      cases h
      obtain ⟨n, -, h0, h1, rfl, rfl⟩ := cutAt?_of_cut? hc
      refine ⟨?_, ?_, by rw [List.take_append_drop]⟩
      · rw [Registry.targets?, hspec]
        exact cut?_targets hc
      · refine List.ne_nil_of_length_pos ?_
        rw [List.length_take]
        omega
    · cases h

theorem of?_hop_plain (h : of? r t p = some (.hop a fs ts rest)) (hp : p.Plain) :
    r.targets? t a (Path.text fs) = some ts ∧ fs ≠ [] ∧ Path.Plain fs ∧ Path.Plain rest := by
  obtain ⟨htargets, hfs, rfl⟩ := of?_hop h
  exact ⟨htargets, hfs,
    hp.subset fun _ hx => List.mem_cons_of_mem _ (List.mem_append_left _ hx),
    hp.subset fun _ hx => List.mem_cons_of_mem _ (List.mem_append_right _ hx)⟩

end Plan

/-! ### Resolvable paths -/

namespace Path

/-- **The path can be resolved on the entities of a type.** -/
inductive Resolvable (r : Registry) : String → Path → Prop
  | name {t : String} {p : Path} {f : IdentityField} (known : IdentityField.ofPath? p = some f) :
    Resolvable r t p
  | time {t : String} {p : Path} {f : SystemField} (unnamed : IdentityField.ofPath? p = none)
    (unplanned : Plan.of? r t p = none) (registered : r.has t = true)
    (known : SystemField.ofPath? p = some f) : Resolvable r t p
  | here {t a : String} {p : Path} {fs : List String} (unnamed : IdentityField.ofPath? p = none)
    (plan : Plan.of? r t p = some (.local a fs)) : Resolvable r t p
  | hop {t t' a : String} {p rest : Path} {fs ts : List String}
    (unnamed : IdentityField.ofPath? p = none)
    (plan : Plan.of? r t p = some (.hop a fs ts rest)) (target : t' ∈ ts)
    (below : Resolvable r t' rest) : Resolvable r t p

variable {r : Registry} {t : String} {p : Path}

/-- What is resolvable follows the plan of the path. -/
theorem resolvable_iff : Resolvable r t p ↔ match IdentityField.ofPath? p, Plan.of? r t p with
    | some _, _ => True
    | none, none => r.has t = true ∧ (SystemField.ofPath? p).isSome
    | none, some (.local _ _) => True
    | none, some (.hop _ _ ts rest) => ∃ t' ∈ ts, Resolvable r t' rest := by
  constructor
  · intro h
    cases h with
    | name known => simp [known]
    | time unnamed unplanned registered known => simp [unnamed, unplanned, registered, known]
    | here unnamed plan => simp [unnamed, plan]
    | hop unnamed plan target below =>
      simp only [unnamed, plan]
      exact ⟨_, target, below⟩
  · intro h
    split at h
    · next hi => exact .name hi
    · next hi hp =>
      obtain ⟨f, hf⟩ := Option.isSome_iff_exists.mp h.2
      exact .time hi hp h.1 hf
    · next hi hp => exact .here hi hp
    · next hi hp =>
      obtain ⟨t', ht', hbelow⟩ := h
      exact .hop hi hp ht' hbelow

/-- **Validation decides which paths are resolvable.** -/
theorem validateWithin_iff : ∀ {fuel : Nat} {p : Path} {t : String}, p.length < fuel → "" ∉ p →
    ((validateWithin Evaluator.standard r fuel p [t]).valid = true ↔ Resolvable r t p)
  | 0, p, t, hf, _ => absurd hf (Nat.not_lt_zero _)
  | fuel + 1, p, t, hf, hp => by
    have hsome : ∀ v : Validation, (Validation.all [v]).valid = v.valid := fun v => Bool.true_and _
    have hempty : p.contains "" = false := by simpa using hp
    rw [validateWithin, hempty, if_neg Bool.false_ne_true, List.map_singleton, hsome,
      resolvable_iff, Evaluator.firstEligible_standard]
    cases hi : IdentityField.ofPath? p with
    | some f => simp [validateBy, Validation.ok]
    | none =>
      cases hplan : Plan.of? r t p with
      | none =>
        cases r.has t <;> cases SystemField.ofPath? p <;>
          simp [validateBy, Validation.ok, Validation.problem]
      | some plan =>
        cases plan with
        | «local» a fs => simp [validateBy, validatePlan, hplan, Validation.ok]
        | hop a fs ts rest =>
          have hlength := (Plan.length_rest hplan).2
          have hrest : "" ∉ rest := by
            obtain ⟨-, -, rfl⟩ := Plan.of?_hop hplan
            exact fun h => hp (List.mem_cons_of_mem _ (List.mem_append_right _ h))
          have hbelow : ∀ t', (validateWithin Evaluator.standard r fuel rest [t']).valid = true ↔
              Resolvable r t' rest := fun t' => validateWithin_iff (by omega) hrest
          simp only [Option.isSome_none, Option.isSome_some, Bool.false_eq_true, if_false, if_true,
            validateBy, validatePlan, hplan]
          rw [← exists_congr fun t' => and_congr_right fun _ => hbelow t', ← List.any_eq_true]
          split_ifs with hany <;> simp [hany, Validation.ok, Validation.problem]

theorem validate_iff_resolvable (hp : "" ∉ p) :
    (p.validate Evaluator.standard r [t]).valid = true ↔ Resolvable r t p :=
  validateWithin_iff (Nat.lt_succ_self _) hp

end Path

/-! ### Conforming stores -/

/-- **Whatever a declared reference field of an entity refers to is of a declared type.** -/
def Store.Conforms (s : Store) (r : Registry) : Prop :=
  ∀ u aspect field targets, (s.entity? u).isSome →
    r.targets? u.entityType aspect field = some targets →
    ∀ text ∈ Resolution.textsAt s u aspect (Path.ofText field), ∀ v, Urn.ofText? text = some v →
      v.entityType ∈ targets

namespace Resolution

variable {r : Registry} {s : Store}

theorem isSome_of_mem_textsAt {u : Urn} {a text : String} {fs : List String}
    (h : text ∈ textsAt s u a fs) : (s.entity? u).isSome := by
  cases hu : s.entity? u with
  | none =>
    rw [textsAt_absent hu] at h
    cases h
  | some aspects => rfl

/-- A path that hops has values if its rest has values on a target that is in the store. -/
theorem hop_ne_nil_iff {u : Urn} {p rest : Path} {a : String} {fs ts : List String}
    (hi : IdentityField.ofPath? p = none)
    (hplan : Plan.of? r u.entityType p = some (.hop a fs ts rest)) :
    valuesOf r s u p ≠ [] ↔ ∃ v ∈ (textsAt s u a fs).filterMap Urn.ofText?,
      (s.entity? v).isSome ∧ valuesOf r s v rest ≠ [] := by
  have hone : ∀ v, (if (s.entity? v).isSome then valuesOf r s v rest else []) ≠ [] ↔
      (s.entity? v).isSome ∧ valuesOf r s v rest ≠ [] := by
    intro v
    split_ifs with hv <;> simp [hv]
  rw [valuesOf_hop hi hplan, Ne, List.flatMap_eq_nil_iff]
  simp only [not_forall, exists_prop]
  exact exists_congr fun v => and_congr_right fun _ => hone v

/-- **On a conforming store only resolvable paths have values.** -/
theorem resolvable_of_valuesOf (hs : s.Conforms r) {p : Path} {u : Urn} (hp : p.Plain)
    (h : valuesOf r s u p ≠ []) : p.Resolvable r u.entityType := by
  cases hi : IdentityField.ofPath? p with
  | some f => exact .name hi
  | none =>
    cases hplan : Plan.of? r u.entityType p with
    | none =>
      rw [valuesOf_time hi hplan, timeOf] at h
      cases hf : SystemField.ofPath? p with
      | none => simp [hf] at h
      | some f =>
        refine .time hi hplan ?_ hf
        by_contra hr
        cases hu : s.entity? u <;> simp [hf, hu, hr] at h
    | some plan =>
      cases plan with
      | «local» a fs => exact .here hi hplan
      | hop a fs ts rest =>
        have hlength := (Plan.length_rest hplan).2
        obtain ⟨htargets, hfs, hplain, hrest⟩ := Plan.of?_hop_plain hplan hp
        obtain ⟨v, hv, -, hbelow⟩ := (hop_ne_nil_iff hi hplan).mp h
        obtain ⟨text, htext, hparse⟩ := List.mem_filterMap.mp hv
        refine .hop hi hplan ?_ (resolvable_of_valuesOf hs hrest hbelow)
        refine hs u a (Path.text fs) ts (isSome_of_mem_textsAt htext) htargets text ?_ v hparse
        rw [Path.ofText_text hfs hplain]
        exact htext
termination_by p.length

end Resolution
end CatalogRules
