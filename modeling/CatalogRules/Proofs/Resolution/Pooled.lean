import CatalogRules.Proofs.Resolution.Aspects

/-! # Pooled resolution is resolution one by one

All paths on all entities are resolved at once, and the values of each path on each entity are those
that it has on its own (`resolve_eq_valuesOf`).

Every path of a request is assigned to the first evaluator that can resolve it (`mem_assigned`),
which answers for it as `Resolution.valuesOf` does (`looks_evaluator`); so a request is answered
(`looks_request`), and requests are answered, by induction on the bound on their paths
(`looks_requestsWithin`), which decreases with each hop. -/

namespace CatalogRules
namespace Resolve

open Resolution

variable {r : Registry} {s : Store} {t : String} {us : List Urn} {ps : List Path} {p : Path}
  {e : Evaluator}

/-! ### One request -/

/-- The paths that are assigned to an evaluator: those that it can resolve first of all. -/
def assignedTo (r : Registry) (t : String) (ps : List Path) (e : Evaluator) : List Path :=
  ps.filter fun p => Evaluator.firstEligible r t p Evaluator.standard == some e

theorem assigned_eq_assignedTo : ∀ e ∈ Evaluator.standard.zipIdx,
    assigned Evaluator.standard r t ps e.2 = assignedTo r t ps e.1 := by
  have h : ∀ p, ∀ e ∈ Evaluator.standard.zipIdx,
      (Evaluator.standard.findIdx? (·.isEligible r t p) == some e.2) =
        (Evaluator.firstEligible r t p Evaluator.standard == some e.1) := by
    intro p
    simp only [Evaluator.firstEligible, Evaluator.standard, List.findIdx?_cons,
      List.findIdx?_nil, List.find?_cons, List.find?_nil]
    cases Evaluator.isEligible r t p .identity <;> cases Evaluator.isEligible r t p .aspect <;>
      cases Evaluator.isEligible r t p .system <;> decide
  exact fun e he => List.filter_congr fun p _ => h p e he

theorem mem_assignedTo : p ∈ assignedTo r t ps e ↔
    p ∈ ps ∧ Evaluator.firstEligible r t p Evaluator.standard = some e := by
  simp [assignedTo]

/-- An evaluator has what it takes to resolve the path, and those before it have not. -/
def Suits (r : Registry) (t : String) (p : Path) : Evaluator → Prop
  | .identity => (IdentityField.ofPath? p).isSome
  | .aspect => IdentityField.ofPath? p = none ∧ (Plan.of? r t p).isSome
  | .system => IdentityField.ofPath? p = none ∧ Plan.of? r t p = none ∧ r.has t

theorem suits_of_firstEligible (h : Evaluator.firstEligible r t p Evaluator.standard = some e) :
    Suits r t p e := by
  rw [Evaluator.firstEligible_standard] at h
  split_ifs at h with hi hp hs <;> cases h
  · exact hi
  · exact ⟨by simpa using hi, hp⟩
  · exact ⟨by simpa using hi, by simpa using hp, (Bool.and_eq_true_iff.mp hs).1⟩

/-- A path that no evaluator can resolve has no values. -/
theorem valuesOf_of_firstEligible_eq_none {u : Urn}
    (h : Evaluator.firstEligible r u.entityType p Evaluator.standard = none) :
    valuesOf r s u p = [] := by
  rw [Evaluator.firstEligible_standard] at h
  split_ifs at h with hi hp hs
  rw [valuesOf_time (by simpa using hi) (by simpa using hp), timeOf]
  cases hf : SystemField.ofPath? p with
  | none => rfl
  | some f =>
    have hr : r.has u.entityType = false := by simpa [hf] using hs
    cases s.entity? u <;> simp [hr]

/-- The nested requests are answered up to a length of their paths. -/
def NestedAnswers (r : Registry) (s : Store) (n : Nat) (nested : Requests → Run Resolution) :
    Prop :=
  ∀ rs : Requests, rs.Valid → rs.Within (fun _ => True) (·.length < n) →
    Run.Looks s (nested rs) (Answers r s rs.Asks)

variable {n : Nat} {nested : Requests → Run Resolution}

/-- **Each evaluator answers for the paths that are assigned to it.** -/
theorem looks_evaluator (hnested : NestedAnswers r s n nested) (hus : us.Pairwise (· < ·))
    (hps : ps.Pairwise (· < ·)) (ht : ∀ u ∈ us, u.entityType = t)
    (hn : ∀ p ∈ ps, p.length < n + 1) (hne : assignedTo r t ps e ≠ []) :
    Run.Looks s (evaluator Evaluator.standard r nested t us (assignedTo r t ps e) e)
      (Answers r s fun u p => u ∈ us ∧ p ∈ assignedTo r t ps e) := by
  have hsub : (assignedTo r t ps e).Sublist ps := List.filter_sublist
  have hsorted := hps.sublist hsub
  have hfirst : ∀ p ∈ assignedTo r t ps e, Suits r t p e := fun p hp =>
    suits_of_firstEligible (mem_assignedTo.mp hp).2
  cases e with
  | identity => exact .pure (answers_identity hus hsorted hfirst)
  | aspect =>
    exact looks_aspect hus hsorted ht (fun p hp => (hfirst p hp).1) (fun p hp => (hfirst p hp).2)
      (fun p hp => hn p (hsub.subset hp)) hnested
  | system =>
    obtain ⟨p, hp⟩ := List.exists_mem_of_ne_nil _ hne
    refine looks_system hus hsorted ht (hfirst p hp).2.2 fun u hu p hp => ?_
    refine valuesOf_time (hfirst p hp).1 ?_
    rw [ht u hu]
    exact (hfirst p hp).2.1

/-- **A request is answered.** -/
theorem looks_request {q : Request} (hnested : NestedAnswers r s n nested)
    (hus : q.urns.Pairwise (· < ·)) (hps : q.paths.Pairwise (· < ·))
    (ht : ∀ u ∈ q.urns, u.entityType = t) (hn : ∀ p ∈ q.paths, p.length < n + 1) :
    Run.Looks s (request Evaluator.standard r nested t q)
      (Answers r s fun u p => u ∈ q.urns ∧ p ∈ q.paths) := by
  unfold request
  split_ifs with hnil
  · refine .pure (.nil fun u p hup => ?_)
    rcases hnil with h | h
    · simp [h] at hup
    · simp [h] at hup
  -- after some evaluators the paths that are assigned to one of them are answered
  refine (Run.Looks.foldlM (I := fun done => Answers r s fun u p => u ∈ q.urns ∧
    ∃ e ∈ done, p ∈ assignedTo r t q.paths e.1) (.nil (by simp)) ?_).mono fun res hres => ?_
  · intro done e rest res hl hres
    have hmem : e ∈ Evaluator.standard.zipIdx := by rw [hl]; simp
    have hstep : ∀ {other}, Answers r s (fun u p => u ∈ q.urns ∧ p ∈ assignedTo r t q.paths e.1)
        other → Answers r s (fun u p => u ∈ q.urns ∧
          ∃ e' ∈ done ++ [e], p ∈ assignedTo r t q.paths e'.1) (res.merge other) := by
      intro other hother
      refine (hres.merge hother fun u p h k => ?_).congr fun u p => ?_
      · obtain ⟨-, e', he', hp⟩ := h
        have heq := Option.some.inj ((mem_assignedTo.mp hp).2.symm.trans (mem_assignedTo.mp k.2).2)
        have hnodup : (Evaluator.standard.zipIdx.map (·.1)).Nodup := by decide
        rw [hl, List.map_append, List.nodup_append] at hnodup
        exact hnodup.2.2 _ (List.mem_map_of_mem he') _ (by simp) heq
      · simp only [List.mem_append, List.mem_singleton]
        grind
    dsimp only
    rw [assigned_eq_assignedTo e hmem]
    split_ifs with hne
    · have := @hstep [] (.nil (by simp [hne]))
      exact .pure this
    · exact (looks_evaluator hnested hus hps ht hn hne).bind fun other hother =>
        .pure (hstep hother)
  · refine hres.widen (fun u p h => ?_) fun u p h hno => ?_
    · obtain ⟨hu, e, -, hp⟩ := h
      exact ⟨hu, (mem_assignedTo.mp hp).1⟩
    · refine valuesOf_of_firstEligible_eq_none ?_
      rw [ht u h.1]
      cases he : Evaluator.firstEligible r t p Evaluator.standard with
      | none => rfl
      | some e =>
        refine absurd ⟨h.1, ?_⟩ hno
        have hmem : ∃ i, (e, i) ∈ Evaluator.standard.zipIdx := by
          cases e
          exacts [⟨0, by decide⟩, ⟨1, by decide⟩, ⟨2, by decide⟩]
        obtain ⟨i, hi⟩ := hmem
        exact ⟨(e, i), hi, mem_assignedTo.mpr ⟨h.2, he⟩⟩

/-! ### All requests -/

/-- **Requests are answered, if their paths are shorter than the bound.** -/
theorem looks_requestsWithin (n : Nat) :
    NestedAnswers r s n (requestsWithin Evaluator.standard r n) := by
  induction n with
  | zero =>
    intro rs _ hw
    refine .pure (.nil fun u p h => ?_)
    exact absurd (hw.of_asks h).2 (Nat.not_lt_zero _)
  | succ n ih =>
    intro rs hrs hw
    have hnodup := Sorted.nodup_of_pairwise hrs.types
    -- after some requests these are answered
    refine (Run.Looks.foldlM (I := fun done => Answers r s fun u p =>
      ∃ e ∈ done, u ∈ e.2.urns ∧ p ∈ e.2.paths) (.nil (by simp)) ?_).mono fun res hres => ?_
    · intro done e rest res hl hres
      have he : e ∈ rs := by rw [hl]; simp
      have hreq := looks_request ih (hrs.urns e he) (hrs.paths e he) (hrs.typed e he) (hw e he).2
      refine hreq.bind fun other hother => .pure ?_
      refine (hres.merge hother fun u p h k => ?_).congr fun u p => ?_
      · obtain ⟨e', he', hu, -⟩ := h
        have ht := (hrs.typed e' (by rw [hl]; simp [he']) u hu).symm.trans (hrs.typed e he u k.1)
        rw [hl, List.map_append, List.nodup_append] at hnodup
        exact hnodup.2.2 _ (List.mem_map_of_mem he') _ (by simp) ht
      · simp only [List.mem_append, List.mem_singleton]
        grind
    · refine hres.congr fun u p => ⟨fun h => ?_, fun h => ?_⟩
      · obtain ⟨e, he, hu, hp⟩ := h
        refine ⟨e.2, ?_, hu, hp⟩
        rw [hrs.typed e he u hu]
        exact lookup_of_mem hnodup he
      · obtain ⟨q, hq, hu, hp⟩ := h
        exact ⟨_, mem_of_lookup hq, hu, hp⟩

end Resolve

open Resolution in
/-- Resolving only looks, and it answers for all paths on all entities. -/
theorem looks_resolve (r : Registry) (s : Store) (us : List Urn) (ps : List Path) :
    Run.Looks s (resolve Evaluator.standard r us ps)
      (Answers r s fun u p => u ∈ us ∧ p ∈ ps) := by
  unfold resolve Resolve.requests
  split_ifs with hnil
  · refine .pure (.nil fun u p hup => ?_)
    rcases hnil with h | h
    · simp [h] at hup
    · simp [h] at hup
  · refine (Resolve.looks_requestsWithin _ _ (.ofUrns us ps) fun e he => ?_).mono fun res hres => ?_
    · refine ⟨fun _ _ => trivial, fun p hp => ?_⟩
      exact Nat.lt_succ_of_le (Requests.length_le_longest e he p hp)
    · exact hres.congr fun u p => Requests.asks_ofUrns

open Resolution in
/-- **Resolving all paths on all entities at once finds for each of them the values that the path
has on the entity on its own, and has no entry where there are none.** -/
theorem resolve_eq_valuesOf (r : Registry) (us : List Urn) (ps : List Path) (p : Platform)
    (ho : p.outages = []) : ∃ res q,
      (resolve Evaluator.standard r us ps).run p = (.ok res, q) ∧ p.Alike q ∧ res.Valid ∧
      ∀ u path, res.row? u path =
        if u ∈ us ∧ path ∈ ps ∧ valuesOf r p.store u path ≠ [] then
          some (valuesOf r p.store u path)
        else none := by
  obtain ⟨res, q, hrun, halike, hres⟩ := (looks_resolve r p.store us ps).gives rfl ho
  refine ⟨res, q, hrun, halike, hres.valid, fun u path => ?_⟩
  rw [hres.valid.row?_eq]
  by_cases hup : u ∈ us ∧ path ∈ ps
  · rw [hres.asked hup]
    by_cases hv : valuesOf r p.store u path = []
    · simp [hv]
    · simp [hv, hup]
  · rw [hres.silent hup, if_pos rfl, if_neg fun h => hup ⟨h.1, h.2.1⟩]

/-- Things have owners, which are persons. -/
def Registry.ofOwners : Registry :=
  [("thing", ⟨"key", [("owner", AspectSpec.plain.refer "by" ["person"])]⟩),
    ("person", .ofKey "key")]

/-- A thing. -/
def Urn.thing : Urn := ⟨"thing", "1", by decide, by decide, by decide⟩

/-- The store has the second of the two owners of the thing. -/
def Store.ofOwners : Store :=
  ⟨[(⟨"person", "ann", by decide, by decide, by decide⟩, []), (.thing, [("owner", .ofValue (.object
    [("by", .array [.string "urn:li:person:bob", .string "urn:li:person:ann"])]))])], []⟩

theorem resolve_owners : (Platform.ofStore .ofOwners [] 0).outages = [] ∧ ∃ res q,
    (resolve Evaluator.standard .ofOwners [.thing] [["owner", "by", "urn"]]).run
      (Platform.ofStore .ofOwners [] 0) = (.ok res, q) ∧
    res.row? .thing ["owner", "by", "urn"] = some ["urn:li:person:ann"] := by
  obtain ⟨res, q, hrun, -, -, hrow⟩ := resolve_eq_valuesOf .ofOwners [.thing]
    [["owner", "by", "urn"]] (Platform.ofStore .ofOwners [] 0) rfl
  refine ⟨rfl, res, q, hrun, ?_⟩
  rw [hrow]
  decide +kernel

end CatalogRules
