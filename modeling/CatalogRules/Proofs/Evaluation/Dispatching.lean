import CatalogRules.Proofs.Evaluation.Pipeline
import Mathlib.Data.Prod.Lex

/-! # The actions of an evaluation

An action is listed for an entity (`Evaluation.Listed`) if some outcome of the entity belongs to a
definition that lists it for the verdict. The results of an evaluation go from entities to outcomes;
`Evaluation.dispatch` turns them round, from each listed action to the entities that it is listed
for (`mem_dispatch`). Actions stand in order of their kinds and then of their parameters
(`Action.lt_iff`), so that results which are gone through in another order give the same calls.

`applyAll_exact` puts this together with what is logged: one call for each listed action, whichever
of the calls fail. -/

namespace CatalogRules

/-! ### Maps to sets -/

namespace Sorted

section Order
variable {α : Type} [LT α] [IsStrictTotalOrder α (· < ·)]

/-- A list whose keys increase is determined by its elements. -/
theorem eq_of_mem_iff {γ : Type} (key : γ → α) {xs ys : List γ}
    (hx : (xs.map key).Pairwise (· < ·)) (hy : (ys.map key).Pairwise (· < ·))
    (h : ∀ e, e ∈ xs ↔ e ∈ ys) : xs = ys := by
  have hperm : xs.Perm ys := (List.perm_ext_iff_of_nodup (nodup_of_pairwise hx).of_map
    (nodup_of_pairwise hy).of_map).mpr h
  have hantisymm : ∀ d e, d ∈ xs → e ∈ ys → key d < key e → key e < key d → d = e :=
    fun d e _ _ hde hed => absurd hed (asymm_of (· < ·) hde)
  exact hperm.eq_of_pairwise hantisymm (List.pairwise_map.mp hx) (List.pairwise_map.mp hy)

end Order

variable {α β : Type} [LT α] [DecidableLT α] [DecidableEq α] [LT β] [DecidableLT β] [DecidableEq β]

/-- Adds an element to the set under a key. -/
def enter (m : List (α × List β)) (e : α × β) : List (α × List β) :=
  alter e.1 (fun xs => insert e.2 (xs.getD [])) m

variable {m : List (α × List β)} {es : List (α × β)} {k : α} {x : β}

theorem lookup_enter (m : List (α × List β)) (e : α × β) (k : α) :
    (enter m e).lookup k = if k = e.1 then some (insert e.2 ((m.lookup e.1).getD [])) else
      m.lookup k :=
  lookup_alter e.1 k _ m

theorem mem_keys_foldl_enter :
    k ∈ (es.foldl enter m).map (·.1) ↔ (∃ x, (k, x) ∈ es) ∨ k ∈ m.map (·.1) := by
  induction es generalizing m with
  | nil => simp
  | cons e es ih =>
    rw [List.foldl_cons, ih, enter, mem_keys_alter]
    simp only [List.mem_cons, exists_or]
    constructor
    · rintro (h | rfl | h)
      · exact Or.inl (Or.inr h)
      · exact Or.inl (Or.inl ⟨e.2, rfl⟩)
      · exact Or.inr h
    · rintro ((⟨x, rfl⟩ | h) | h)
      · exact Or.inr (Or.inl rfl)
      · exact Or.inl h
      · exact Or.inr (Or.inr h)

/-- The set under a key has the elements that were added under it. -/
theorem mem_foldl_enter :
    x ∈ ((es.foldl enter m).lookup k).getD [] ↔ (k, x) ∈ es ∨ x ∈ (m.lookup k).getD [] := by
  induction es generalizing m with
  | nil => simp
  | cons e es ih =>
    rw [List.foldl_cons, ih, lookup_enter, List.mem_cons]
    by_cases hk : k = e.1
    · subst hk
      rw [if_pos rfl, Option.getD_some, mem_insert, or_left_comm, ← or_assoc]
      refine or_congr_left (or_congr_left ⟨fun h => by rw [h], fun h => by rw [← h]⟩)
    · rw [if_neg hk]
      have hne : (k, x) ≠ e := fun h => hk (by rw [← h])
      simp [hne]

theorem pairwise_keys_foldl_enter [IsStrictTotalOrder α (· < ·)] (es : List (α × β))
    (h : (m.map (·.1)).Pairwise (· < ·)) : ((es.foldl enter m).map (·.1)).Pairwise (· < ·) :=
  List.foldlRecOn (motive := fun (m : List (α × List β)) => (m.map (·.1)).Pairwise (· < ·)) es _ h
    fun _ hm _ _ => pairwise_alter _ _ hm

theorem pairwise_foldl_enter [IsStrictTotalOrder β (· < ·)] (es : List (α × β))
    (h : ∀ k, ((m.lookup k).getD []).Pairwise (· < ·)) (k : α) :
    (((es.foldl enter m).lookup k).getD []).Pairwise (· < ·) := by
  refine List.foldlRecOn (motive := fun (m : List (α × List β)) =>
    ∀ k, ((m.lookup k).getD []).Pairwise (· < ·)) es _ h (fun m hm e _ k => ?_) k
  rw [lookup_enter]
  split_ifs
  · exact pairwise_insert e.2 (hm e.1)
  · exact hm k

end Sorted

/-! ### The order of actions -/

/-- One list of parameters comes before another: names and values are compared in turn. -/
def Params.Before : Params → Params → Prop := List.Lex (Prod.Lex (· < ·) (· < ·))

namespace Action

/-- One action comes before another: by their kinds and, for one kind, by their parameters. -/
def Before (a b : Action) : Prop :=
  a.kind.rank < b.kind.rank ∨ a.kind = b.kind ∧ a.params.Before b.params

theorem rank_lt (k : ActionKind) : k.rank < 10 := by
  cases k <;> decide

theorem rank_injective {k l : ActionKind} (h : k.rank = l.rank) : k = l := by
  cases k <;> cases l <;> first | rfl | exact absurd h (by decide)

/-- The names and values of parameters in turn. -/
def paramsKey (ps : Params) : List (List String) := ps.flatMap fun p => [[p.1], p.2]

theorem paramsKey_cons (p : String × List String) (ps : Params) :
    paramsKey (p :: ps) = [p.1] :: p.2 :: paramsKey ps := rfl

theorem paramsKey_injective : ∀ {ps qs : Params}, paramsKey ps = paramsKey qs → ps = qs
  | [], [], _ => rfl
  | [], _ :: _, h => by cases h
  | _ :: _, [], h => by cases h
  | p :: ps, q :: qs, h => by
    rw [paramsKey_cons, paramsKey_cons, List.cons.injEq, List.cons.injEq, List.cons.injEq] at h
    obtain ⟨⟨hname, -⟩, hvalues, hrest⟩ := h
    rw [Prod.ext hname hvalues, paramsKey_injective hrest]

theorem paramsKey_lt : ∀ ps qs : Params, paramsKey ps < paramsKey qs ↔ ps.Before qs
  | [], [] => by simp [paramsKey, Params.Before]
  | [], q :: qs => by simp [paramsKey, Params.Before]
  | p :: ps, [] => by simp [paramsKey, Params.Before]
  | p :: ps, q :: qs => by
    have hrest := paramsKey_lt ps qs
    rw [Params.Before] at hrest ⊢
    rw [List.cons_lex_cons_iff, Prod.lex_def, Prod.ext_iff, paramsKey_cons, paramsKey_cons,
      List.cons_lt_cons_iff, List.cons_lt_cons_iff, List.cons_lt_cons_iff, hrest]
    simp only [List.not_lt_nil, and_false, or_false, List.cons.injEq, and_true]
    tauto

/-- What a kind is compared by. -/
def rankKey (k : ActionKind) : List String := [String.singleton (Char.ofNat (48 + k.rank))]

theorem sortKey_eq (a : Action) : a.sortKey = rankKey a.kind :: paramsKey a.params := rfl

/-- The ranks are single digits, so their texts are in the same order. -/
theorem rankKey_lt (k l : ActionKind) : rankKey k < rankKey l ↔ k.rank < l.rank := by
  have hdigits : ∀ i < 10, ∀ j < 10, Char.ofNat (48 + i) < Char.ofNat (48 + j) ↔ i < j := by
    decide
  rw [rankKey, rankKey, List.cons_lt_cons_iff, String.lt_iff, String.toList_singleton,
    String.toList_singleton, List.cons_lt_cons_iff, hdigits _ (rank_lt k) _ (rank_lt l)]
  simp

theorem rankKey_inj {k l : ActionKind} : rankKey k = rankKey l ↔ k = l := by
  refine ⟨fun h => rank_injective ?_, congrArg rankKey⟩
  have hnot : ∀ {i j : ActionKind}, rankKey i = rankKey j → ¬ i.rank < j.rank := fun hij hlt =>
    lt_irrefl _ (hij ▸ (rankKey_lt _ _).mpr hlt)
  exact le_antisymm (not_lt.mp (hnot h.symm)) (not_lt.mp (hnot h))

theorem sortKey_injective {a b : Action} (h : a.sortKey = b.sortKey) : a = b := by
  obtain ⟨kind, params⟩ := a
  obtain ⟨kind', params'⟩ := b
  obtain ⟨hkind, hparams⟩ := List.cons.inj h
  exact congrArg₂ Action.mk (rankKey_inj.mp hkind) (paramsKey_injective hparams)

/-- **Actions are ordered by their kinds and then by their parameters.** -/
theorem lt_iff {a b : Action} : a < b ↔ a.Before b := by
  show a.sortKey < b.sortKey ↔ _
  rw [sortKey_eq, sortKey_eq, List.cons_lt_cons_iff, rankKey_lt, rankKey_inj, paramsKey_lt]
  exact Iff.rfl

end Action

instance : IsStrictTotalOrder Action (· < ·) :=
  Function.Injective.isStrictTotalOrder_onFun (r := (· < ·)) (f := Action.sortKey)
    fun _ _ => Action.sortKey_injective

/-! ### Listed actions -/

namespace Evaluation

variable {s : Snapshot} {rs : Evaluation} {a : Action} {u : Urn} {us : List Urn}

/-- The action is listed for an outcome of the entity, by the definition of its test and for its
verdict. -/
def Listed (s : Snapshot) (rs : Evaluation) (a : Action) (u : Urn) : Prop :=
  ∃ r, (u, r) ∈ rs ∧ ∃ o ∈ r.outcomes, ∃ d, s.get? o.test = some d ∧ a ∈ d.actions.of o.verdict

/-- The actions that are listed for the entities, with repetitions. -/
def listings (s : Snapshot) (rs : Evaluation) : List (Action × Urn) :=
  rs.flatMap fun (u, r) => (r.outcomes.flatMap (actionsFor s)).map fun a => (a, u)

theorem dispatch_eq (s : Snapshot) (rs : Evaluation) :
    dispatch s rs = (listings s rs).foldl Sorted.enter [] := rfl

theorem mem_actionsFor {o : Outcome} :
    a ∈ actionsFor s o ↔ ∃ d, s.get? o.test = some d ∧ a ∈ d.actions.of o.verdict := by
  unfold actionsFor
  cases s.get? o.test <;> simp

theorem mem_listings : (a, u) ∈ listings s rs ↔ Listed s rs a u := by
  unfold listings Listed
  simp only [List.mem_flatMap, List.mem_map, Prod.mk.injEq, mem_actionsFor, Prod.exists]
  constructor
  · rintro ⟨v, r, hr, b, ⟨o, ho, hd⟩, rfl, rfl⟩
    exact ⟨r, hr, o, ho, hd⟩
  · rintro ⟨r, hr, o, ho, hd⟩
    exact ⟨u, r, hr, a, ⟨o, ho, hd⟩, rfl, rfl⟩

theorem pairwise_keys_dispatch (s : Snapshot) (rs : Evaluation) :
    ((dispatch s rs).map (·.1)).Pairwise (· < ·) :=
  Sorted.pairwise_keys_foldl_enter (listings s rs) List.Pairwise.nil

/-- **Each listed action goes to the entities that it is listed for, in order.** -/
theorem mem_dispatch : (a, us) ∈ dispatch s rs ↔
    (∃ u, Listed s rs a u) ∧ us.Pairwise (· < ·) ∧ ∀ u, u ∈ us ↔ Listed s rs a u := by
  have hkeys : a ∈ (dispatch s rs).map (·.1) ↔ ∃ u, Listed s rs a u := by
    rw [dispatch_eq, Sorted.mem_keys_foldl_enter]
    simp [mem_listings]
  have hmem (u : Urn) : u ∈ ((dispatch s rs).lookup a).getD [] ↔ Listed s rs a u := by
    rw [dispatch_eq, Sorted.mem_foldl_enter]
    simp [mem_listings]
  have hsorted : (((dispatch s rs).lookup a).getD []).Pairwise (· < ·) :=
    Sorted.pairwise_foldl_enter (listings s rs) (fun _ => List.Pairwise.nil) a
  have hnodup := Sorted.nodup_of_pairwise (pairwise_keys_dispatch s rs)
  constructor
  · intro h
    rw [lookup_of_mem hnodup h] at hmem hsorted
    exact ⟨hkeys.mp (List.mem_map_of_mem h), hsorted, hmem⟩
  · rintro ⟨hlisted, hus, husmem⟩
    cases hl : (dispatch s rs).lookup a with
    | none => exact absurd (hkeys.mpr hlisted) (lookup_eq_none.mp hl)
    | some us' =>
      rw [hl] at hmem hsorted
      have heq : us = us' := by
        refine Sorted.eq_of_mem_iff id (by simpa using hus) (by simpa using hsorted) ?_
        exact fun u => (husmem u).trans (hmem u).symm
      rw [heq]
      exact mem_of_lookup hl

/-- **The order in which the results are gone through does not matter.** -/
theorem dispatch_perm {rs' : Evaluation} (h : rs'.Perm rs) : dispatch s rs' = dispatch s rs := by
  have hlisted (a : Action) (u : Urn) : Listed s rs' a u ↔ Listed s rs a u := by
    unfold Listed
    simp only [h.mem_iff]
  refine Sorted.eq_of_mem_iff _ (pairwise_keys_dispatch s rs') (pairwise_keys_dispatch s rs) ?_
  rintro ⟨a, us⟩
  simp only [mem_dispatch, hlisted]

/-- **Each listed action is applied once, to exactly the entities that it is listed for.** The
actions are applied in order, to entities in order, and all of them are, whatever fails. -/
theorem applyAll_exact (s : Snapshot) (rs : Evaluation) :
    ((dispatch s rs).map (·.1)).Pairwise Action.Before ∧ ((dispatch s rs).map (·.1)).Nodup ∧
    (∀ a us, (a, us) ∈ dispatch s rs ↔
      (∃ u, Listed s rs a u) ∧ us.Pairwise (· < ·) ∧ ∀ u, u ∈ us ↔ Listed s rs a u) ∧
    (∀ rs', rs'.Perm rs → dispatch s rs' = dispatch s rs) ∧
    ∀ p : Platform, ∃ q, (applyAll (dispatch s rs)).run p = (.ok (), q) ∧
      q.calls = p.calls ++ (dispatch s rs).map fun e => .applyAction e.1.kind e.2 e.1.params := by
  refine ⟨(pairwise_keys_dispatch s rs).imp Action.lt_iff.mp,
    Sorted.nodup_of_pairwise (pairwise_keys_dispatch s rs), fun a us => mem_dispatch,
    fun rs' => dispatch_perm, fun p => ?_⟩
  obtain ⟨q, hrun, hcalls, -⟩ := run_applyAll (dispatch s rs) p
  exact ⟨q, hrun, hcalls⟩

end Evaluation

/-- A snapshot of two tests that list the same action, for one verdict each, the second one twice. -/
def Snapshot.ofShared (a : Action) : Snapshot :=
  .ofDefinitions [⟨"kept", ["thing"], none, .ofProperty .exists "urn", ⟨[a], []⟩⟩,
    ⟨"lost", ["thing"], none, .ofProperty .exists "urn", ⟨[], [a, a]⟩⟩]

open Evaluation in
theorem Evaluation.applyAll_shared :
    let a : Action := ⟨.addTags, [("values", ["urn:li:tag:seen"])]⟩
    let s := Snapshot.ofShared a
    let other : Urn := { Urn.thing with key := "2", key_ne := by decide }
    let rs : Evaluation :=
      [(other, ⟨[], [⟨"lost", .failure⟩]⟩), (.thing, ⟨[⟨"kept", .success⟩], []⟩)]
    rs.reverse.Perm rs ∧ dispatch s rs.reverse = dispatch s rs ∧
      dispatch s rs = [(a, [.thing, other])] := by
  intro a s other rs
  have hperm : rs.reverse.Perm rs := List.reverse_perm rs
  obtain ⟨-, -, -, horder, -⟩ := applyAll_exact s rs
  exact ⟨hperm, horder _ hperm, by decide +kernel⟩

end CatalogRules
