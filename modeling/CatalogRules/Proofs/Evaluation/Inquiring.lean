import CatalogRules.Proofs.Evaluation.History
import CatalogRules.Proofs.Inquiry

/-! # Evaluating is inquiring

Resolving paths, evaluating definitions and reading the prior results do nothing but ask the store
(`inquires_resolve`, `inquires_evaluate`, `inquires_merged`). Whatever they are answered, the
evaluation has results for just the entities that it is about, and these are results of selected
tests of the snapshot. -/

namespace CatalogRules

open Run (Inquires)

/-! ### Resolving -/

namespace Resolve

variable {evs : List Evaluator} {r : Registry} {nested : Requests → Run Resolution} {t : String}
  {us : List Urn} {ps : List Path}

theorem inquires_system : Inquires (system r t us ps) fun _ => True := by
  unfold system
  dsimp only
  split_ifs
  · exact .pure trivial
  · exact (Inquires.count _).bind fun _ _ => (Inquires.fetchAspects _ _ _).bind fun _ _ =>
      .pure trivial

theorem inquires_dropMissing : ∀ rs : Requests, Inquires (dropMissing evs r rs) fun _ => True
  | [] => .pure trivial
  | (t, q) :: rest => by
    unfold dropMissing
    split_ifs
    · refine (Inquires.count _).bind fun _ _ => (Inquires.fetchAspects _ _ _).bind fun _ _ => ?_
      exact (inquires_dropMissing rest).bind fun _ _ => .pure trivial
    · exact (inquires_dropMissing rest).bind fun _ _ => .pure trivial

theorem inquires_aspect (hn : ∀ rs, Inquires (nested rs) fun _ => True) :
    Inquires (aspect evs r nested t us ps) fun _ => True := by
  unfold aspect
  dsimp only
  split_ifs
  · exact .pure trivial
  · refine (Inquires.count _).bind fun _ _ => (Inquires.fetchAspects _ _ _).bind fun fetched _ => ?_
    split_ifs
    · exact .pure trivial
    · refine (inquires_dropMissing _).bind fun (requests, missing) _ => ?_
      exact (hn requests).bind fun _ _ => .pure trivial

theorem inquires_evaluator (hn : ∀ rs, Inquires (nested rs) fun _ => True) (e : Evaluator) :
    Inquires (evaluator evs r nested t us ps e) fun _ => True := by
  cases e with
  | identity => exact .pure trivial
  | aspect => exact inquires_aspect hn
  | system => exact inquires_system

theorem inquires_request (hn : ∀ rs, Inquires (nested rs) fun _ => True) (q : Request) :
    Inquires (request evs r nested t q) fun _ => True := by
  unfold request
  split_ifs
  · exact .pure trivial
  · refine Inquires.foldlM (I := fun _ _ => True) trivial fun _ (e, i) res _ _ => ?_
    dsimp only
    split_ifs
    · exact .pure trivial
    · exact (inquires_evaluator hn e).bind fun _ _ => .pure trivial

theorem inquires_requestsWithin : ∀ (fuel : Nat) (rs : Requests),
    Inquires (requestsWithin evs r fuel rs) fun _ => True
  | 0, _ => .pure trivial
  | fuel + 1, rs => by
    refine Inquires.foldlM (I := fun _ _ => True) trivial fun _ (t, q) res _ _ => ?_
    exact (inquires_request (inquires_requestsWithin fuel) q).bind fun _ _ => .pure trivial

end Resolve

theorem inquires_resolve (evs : List Evaluator) (r : Registry) (us : List Urn) (ps : List Path) :
    Inquires (resolve evs r us ps) fun _ => True := by
  unfold resolve
  split_ifs
  · exact .pure trivial
  · exact Resolve.inquires_requestsWithin _ _

/-! ### Evaluating -/

namespace Evaluation

variable {r : Registry} {c : Snapshot} {sel : Selection} {us : List Urn}

theorem inquires_truth (res : Resolution) (u : Urn) (p : Predicate) :
    Inquires (truth res u p) fun _ => True := by
  unfold truth
  split
  · exact .pure trivial
  · exact .throw _

theorem inquires_valuesFor (wanted : List (Urn × List Predicate)) :
    Inquires (valuesFor r wanted) fun _ => True := inquires_resolve _ _ _ _

/-- The applicable definitions are some of the candidates, in the same order. -/
theorem inquires_applicable (cands : Assignment) : Inquires (applicable r cands) <|
    List.Forall₂ (fun e e' => e'.1 = e.1 ∧ e'.2.Sublist e.2) cands := by
  unfold applicable
  refine (inquires_valuesFor _).bind fun res _ => ?_
  refine Inquires.mapM _ fun (u, ds) _ => ?_
  refine (Inquires.filterM ds fun d => ?_).bind fun ds' hds' => .pure ⟨rfl, hds'⟩
  unfold isApplicable
  split
  · exact .pure trivial
  · exact inquires_truth _ _ _

/-- The results have one outcome for each of the definitions, which is in its place. -/
structure Judges (ds : List Definition) (res : Results) : Prop where
  tests : (res.outcomes.map (·.test)).Perm (ds.map (·.id))
  passing : ∀ o ∈ res.passing, o.verdict = .success
  failing : ∀ o ∈ res.failing, o.verdict = .failure

theorem judges_nil : Judges [] .empty := ⟨.nil, by simp [Results.empty], by simp [Results.empty]⟩

theorem Judges.record {ds : List Definition} {res : Results} (h : Judges ds res) (d : Definition)
    (passed : Bool) : Judges (ds ++ [d]) (res.record d.id passed) := by
  have hperm : (res.record d.id passed).outcomes.Perm
      (res.outcomes ++ [⟨d.id, if passed then .success else .failure⟩]) := by
    cases passed with
    | true =>
      simp only [Results.record, Results.outcomes, if_true, List.append_assoc]
      exact List.Perm.append_left _ List.perm_append_comm
    | false => simp [Results.record, Results.outcomes]
  have htests : ((res.record d.id passed).outcomes.map (·.test)).Perm ((ds ++ [d]).map (·.id)) := by
    refine (hperm.map _).trans ?_
    rw [List.map_append, List.map_append]
    exact h.tests.append_right _
  cases passed with
  | true => exact ⟨htests, by simpa [Results.record, or_imp, forall_and] using h.passing, h.failing⟩
  | false => exact ⟨htests, h.passing, by simpa [Results.record, or_imp, forall_and] using h.failing⟩

theorem inquires_outcomes (assigned : Assignment) : Inquires (outcomes r assigned) <|
    List.Forall₂ (fun e e' => e'.1 = e.1 ∧ Judges e.2 e'.2) assigned := by
  unfold outcomes
  refine (inquires_valuesFor _).bind fun res _ => ?_
  refine Inquires.mapM _ fun (u, ds) _ => ?_
  have hfold : Inquires (ds.foldlM (record res u) .empty) (Judges ds) := by
    refine Inquires.foldlM (I := Judges) judges_nil fun done d out _ hout => ?_
    unfold record
    refine (inquires_truth _ _ _).bind fun passed _ => ?_
    exact (Inquires.count _).bind fun _ _ => .pure (hout.record d passed)
  exact hfold.bind fun out hout => .pure ⟨rfl, hout⟩

/-- **The results are about just these entities**, and they are results of selected tests of the
snapshot if it is a loaded one. -/
structure Answers (c : Snapshot) (sel : Selection) (us : List Urn) (rs : Evaluation) : Prop where
  urns : rs.map (·.1) = us
  results : c.Loaded → ∀ e ∈ rs, About c sel e.2 ∧ e.2.WellFormed

/-- Definitions that are selected for a type are judged by results of selected tests. -/
theorem about_of_judges (hc : c.Loaded) {t : String} {ds : List Definition} {res : Results}
    (hds : ds.Sublist ((c.forType t).filter sel.includes)) (hres : Judges ds res) :
    About c sel res ∧ res.WellFormed := by
  refine ⟨fun o ho => ?_, ?_, hres.passing, hres.failing⟩
  · obtain ⟨d, hd, heq⟩ := List.mem_map.mp
      (hres.tests.subset (List.mem_map_of_mem (f := Outcome.test) ho))
    obtain ⟨hmem, hsel⟩ := List.mem_filter.mp (hds.subset hd)
    rw [← heq]
    refine ⟨hc.has_of_mem hmem, fun ids hids => ?_⟩
    rw [hids] at hsel
    exact List.contains_iff_mem.mp hsel
  · refine hres.tests.nodup_iff.mpr ?_
    exact (hc.nodup_forType t).sublist ((hds.trans List.filter_sublist).map _)

theorem answers_of_judges {assigned : Assignment} {rs : Evaluation}
    (ha : List.Forall₂ (fun e e' => e'.1 = e.1 ∧ e'.2.Sublist e.2) (candidates c sel us) assigned)
    (hr : List.Forall₂ (fun e e' => e'.1 = e.1 ∧ Judges e.2 e'.2) assigned rs) :
    Answers c sel us rs := by
  unfold candidates at ha
  induction us generalizing assigned rs with
  | nil =>
    cases ha
    cases hr
    exact ⟨rfl, by simp⟩
  | cons u us ih =>
    rw [List.map_cons] at ha
    obtain ⟨⟨v, ds⟩, assigned', ⟨hv, hds⟩, ha', rfl⟩ := List.forall₂_cons_left_iff.mp ha
    obtain ⟨⟨w, res⟩, rs', ⟨hw, hres⟩, hr', rfl⟩ := List.forall₂_cons_left_iff.mp hr
    obtain ⟨hurns, hresults⟩ := ih ha' hr'
    refine ⟨?_, fun hc e he => ?_⟩
    · rw [List.map_cons, hurns, show w = u from hw.trans hv]
    · rcases List.mem_cons.mp he with rfl | he
      · exact about_of_judges hc hds hres
      · exact hresults hc e he

/-- **An evaluation is an inquiry.** -/
theorem inquires_evaluate (r : Registry) (c : Snapshot) (sel : Selection) (us : List Urn) :
    Inquires (evaluate r c sel us) (Answers c sel us) := by
  unfold evaluate
  refine (inquires_applicable _).bind fun assigned hassigned => ?_
  refine (inquires_outcomes assigned).bind fun rs hrs => ?_
  refine (Inquires.forM _ fun _ => .count _).bind fun _ _ => ?_
  exact .pure (answers_of_judges hassigned hrs)

/-! ### Prior results -/

theorem inquires_prior (us : List Urn) : Inquires (prior us) fun _ => True := by
  refine Inquires.foldlM (I := fun _ _ => True) trivial fun _ t found _ _ => ?_
  exact (Inquires.fetchAspects _ _ _).bind fun _ _ => .pure trivial

/-- **Reading what is to be stored is an inquiry.** -/
theorem inquires_merged (c : Snapshot) (sel : Selection) (rs : Evaluation) :
    Inquires (merged c sel rs) fun rs' => rs'.map (·.1) = rs.map (·.1) := by
  unfold merged
  split
  · exact .pure rfl
  · refine (inquires_prior _).bind fun stored _ => .pure ?_
    rw [mergeAll, List.map_map]
    rfl

end Evaluation
end CatalogRules
