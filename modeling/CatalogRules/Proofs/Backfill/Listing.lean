import CatalogRules.Proofs.Evaluation.Dispatching

/-! # Evaluations leave the listing

An evaluation stores results and applies actions, and either may make an entity known that the store
did not have. It does so for its own entities only, however, which the store has if they come from
its listing. `Run.Upkeeps names x P` says of a computation on a store with these names that it
leaves the names, as well as what answers searches and which calls fail, and that it does not search
itself (`Platform.Upkept`); what it gives has the property `P`. All evaluations of entities among the
names are like this, committed or not, and whether they succeed or fail (`Evaluation.upkeeps_run`).
-/

namespace CatalogRules

/-! ### Names -/

/-- A known key keeps its place. -/
theorem Sorted.keys_put_of_mem {α β : Type} [LT α] [DecidableLT α] [DecidableEq α]
    [IsStrictTotalOrder α (· < ·)] {k : α} {v : β} {m : List (α × β)}
    (hm : (m.map (·.1)).Pairwise (· < ·)) (hk : k ∈ m.map (·.1)) :
    (put k v m).map (·.1) = m.map (·.1) := by
  induction m with
  | nil => simp at hk
  | cons e rest ih =>
    obtain ⟨j, w⟩ := e
    rw [List.map_cons, List.pairwise_cons] at hm
    unfold put
    split_ifs with hlt heq
    · -- a key below the first one is not among them
      rcases List.mem_cons.mp hk with rfl | hk
      · exact absurd hlt (irrefl_of (· < ·) k)
      · exact absurd (trans_of (· < ·) hlt (hm.1 k hk)) (irrefl_of (· < ·) k)
    · simp [heq]
    · rw [List.map_cons, List.map_cons, ih hm.2]
      exact (List.mem_cons.mp hk).resolve_left heq

namespace Store

/-- The names of the entities. -/
def names (s : Store) : List Urn := s.entities.map (·.1)

variable {s : Store} {u : Urn}

theorem names_putAspect (hs : s.names.Pairwise (· < ·)) (hu : u ∈ s.names) (name : String)
    (e : Envelope) : (s.putAspect u name e).names = s.names :=
  Sorted.keys_put_of_mem hs hu

theorem names_edit {now : Int} {kind : ActionKind} {args : Arguments} {us : List Urn}
    (hs : s.names.Pairwise (· < ·)) (hus : us ⊆ s.names) :
    (Edit.store now kind args s us).names = s.names := by
  unfold Edit.store
  induction us generalizing s with
  | nil => rfl
  | cons u us ih =>
    obtain ⟨hu, hus⟩ := List.cons_subset.mp hus
    have hone : (s.modifyAspect now u kind.target.aspect
        (Edit.value kind.target kind.editMode args)).names = s.names := names_putAspect hs hu _ _
    rw [List.foldl_cons, ih (by rwa [hone]) (by rwa [hone]), hone]

end Store

theorem Handlers.names_apply {h : Handlers} {now : Int} {kind : ActionKind} {params : Params}
    {us : List Urn} {s s' : Store} (hs : s.names.Pairwise (· < ·)) (hus : us ⊆ s.names)
    (ha : h.apply now kind params us s = .ok s') : s'.names = s.names := by
  obtain ⟨_, -, ha⟩ := bind_eq_ok.mp ha
  split_ifs at ha
  · cases ha
    rfl
  · unfold handle at ha
    split at ha
    · cases ha
      exact Store.names_edit hs hus
    · cases ha

/-! ### Upkeep -/

namespace Platform

/-- From the one platform to the other some calls of a kind were logged; the names in the store are
the same, and so is what answers searches and which calls fail. -/
structure Upkept (P : Call → Prop) (p q : Platform) : Prop where
  names : q.store.names = p.store.names
  searches : q.searches = p.searches
  outages : q.outages = p.outages
  calls : ∃ log, q.calls = p.calls ++ log ∧ ∀ c ∈ log, P c

variable {P Q : Call → Prop} {p q o : Platform}

theorem Upkept.refl (P : Call → Prop) (p : Platform) : p.Upkept P p :=
  ⟨rfl, rfl, rfl, [], (List.append_nil _).symm, by simp⟩

theorem Upkept.trans (h : p.Upkept P q) (k : q.Upkept P o) : p.Upkept P o := by
  obtain ⟨log, hlog, hP⟩ := h.calls
  obtain ⟨log', hlog', hP'⟩ := k.calls
  refine ⟨k.names.trans h.names, k.searches.trans h.searches, k.outages.trans h.outages,
    log ++ log', by rw [hlog', hlog, List.append_assoc], fun c hc => ?_⟩
  exact (List.mem_append.mp hc).elim (hP c) (hP' c)

theorem Upkept.mono (h : p.Upkept P q) (hPQ : ∀ c, P c → Q c) : p.Upkept Q q := by
  obtain ⟨log, hlog, hP⟩ := h.calls
  exact ⟨h.names, h.searches, h.outages, log, hlog, fun c hc => hPQ c (hP c hc)⟩

/-- What was logged remains where it is. -/
theorem Upkept.getElem? (h : p.Upkept P q) {n : Nat} (hn : n < p.calls.length) :
    q.calls[n]? = p.calls[n]? := by
  obtain ⟨log, hlog, -⟩ := h.calls
  rw [hlog, List.getElem?_append_left hn]

/-- What was logged in between is of the kind. -/
theorem Upkept.of_getElem? (h : p.Upkept P q) {n : Nat} {c : Call} (hn : p.calls.length ≤ n)
    (hc : q.calls[n]? = some c) : P c := by
  obtain ⟨log, hlog, hP⟩ := h.calls
  rw [hlog, List.getElem?_append_right hn] at hc
  exact hP c (List.mem_of_getElem? hc)

theorem Upkept.length_le (h : p.Upkept P q) : p.calls.length ≤ q.calls.length := by
  obtain ⟨log, hlog, -⟩ := h.calls
  rw [hlog, List.length_append]
  exact Nat.le_add_right _ _

end Platform

namespace Run

variable {α β ι : Type}

/-- On a store with these names the computation keeps them and does not search; what it gives has
the property. -/
def Upkeeps (names : List Urn) (x : Run α) (P : α → Prop) : Prop :=
  ∀ p : Platform, p.store.names = names →
    p.Upkept (·.sort ≠ .scroll) (x.run p).2 ∧ ∀ a, (x.run p).1 = .ok a → P a

namespace Upkeeps

variable {names : List Urn} {x : Run α} {P : α → Prop} {Q : β → Prop}

theorem pure {a : α} (h : P a) : Upkeeps names (Pure.pure a) P := fun p _ =>
  ⟨.refl _ p, fun b hb => by cases hb; exact h⟩

theorem bind {f : α → Run β} (hx : Upkeeps names x P) (hf : ∀ a, P a → Upkeeps names (f a) Q) :
    Upkeeps names (x >>= f) Q := by
  intro p hp
  obtain ⟨hu, hP⟩ := hx p hp
  rw [run_bind]
  rcases hxp : x.run p with ⟨e | a, q⟩ <;> rw [hxp] at hu hP
  · exact ⟨hu, fun b hb => by cases hb⟩
  · obtain ⟨hu', hQ⟩ := hf a (hP a rfl) q (hu.names.trans hp)
    exact ⟨hu.trans hu', hQ⟩

theorem forM {f : ι → Run Unit} (l : List ι) (hf : ∀ i ∈ l, Upkeeps names (f i) fun _ => True) :
    Upkeeps names (l.forM f) fun _ => True := by
  induction l with
  | nil => exact pure trivial
  | cons i l ih =>
    show Upkeeps names (f i >>= fun _ => l.forM f) _
    exact (hf i List.mem_cons_self).bind fun _ _ => ih fun j hj => hf j (List.mem_cons_of_mem _ hj)

theorem tryCatch {h : Failure → Run α} (hx : Upkeeps names x P)
    (hh : ∀ e, Upkeeps names (h e) P) : Upkeeps names (MonadExcept.tryCatch x h) P := by
  intro p hp
  obtain ⟨hu, hP⟩ := hx p hp
  rw [run_tryCatch]
  rcases hxp : x.run p with ⟨e | a, q⟩ <;> rw [hxp] at hu hP
  · obtain ⟨hu', hP'⟩ := hh e q (hu.names.trans hp)
    exact ⟨hu.trans hu', hP'⟩
  · exact ⟨hu, hP⟩

theorem count (m : Meter) : Upkeeps names (Run.count m) fun _ => True := fun p _ =>
  ⟨⟨rfl, rfl, rfl, [], (List.append_nil _).symm, by simp⟩, fun _ _ => trivial⟩

theorem call {c : Call} (hc : c.sort ≠ .scroll) : Upkeeps names (Run.call c) fun _ => True := by
  intro p _
  rw [run_call]
  exact ⟨⟨rfl, rfl, rfl, [c], rfl, by simpa using hc⟩, fun _ _ => trivial⟩

theorem of_inquires (h : Inquires x P) : Upkeeps names x P := by
  intro p _
  obtain ⟨t, rfl, hgives⟩ := h
  obtain ⟨log, hlog, hsort, -⟩ := t.log_run p
  have halike := t.alike_run p
  refine ⟨⟨by rw [halike.store], halike.searches, halike.outages, log, hlog, fun c hc => ?_⟩,
    fun a ha => t.gives_run hgives ha⟩
  rw [hsort c hc]
  decide

variable {us : List Urn} {u : Urn}

theorem persistResult (hn : names.Pairwise (· < ·)) (hu : u ∈ names) (r : Results) :
    Upkeeps names (Run.persistResult u r) fun _ => True := by
  refine (call (by simp [Call.sort])).bind fun _ _ p hp => ⟨⟨?_, rfl, rfl, [], ?_, by simp⟩,
    fun _ _ => trivial⟩
  · exact Store.names_putAspect (by rwa [hp]) (by rwa [hp]) _ _
  · exact (List.append_nil _).symm

theorem applyAction (hn : names.Pairwise (· < ·)) (hus : us ⊆ names) (a : Action) :
    Upkeeps names (Run.applyAction a us) fun _ => True := by
  refine (call (by simp [Call.sort])).bind fun _ _ p hp => ?_
  rw [run_get_bind]
  cases ha : p.handlers.apply p.now a.kind a.params us p.store with
  | error e => exact ⟨.refl _ p, fun _ _ => trivial⟩
  | ok s =>
    have hs : s.names = p.store.names := Handlers.names_apply (by rwa [hp]) (by rwa [hp]) ha
    exact ⟨⟨hs, rfl, rfl, [], (List.append_nil _).symm, by simp⟩, fun _ _ => trivial⟩

end Upkeeps
end Run

namespace Evaluation

variable {names : List Urn} {rs : Evaluation}

/-- Actions are applied to entities that have results. -/
theorem subset_of_mem_dispatch {c : Snapshot} {a : Action} {us : List Urn}
    (h : (a, us) ∈ dispatch c rs) : us ⊆ rs.map (·.1) := by
  intro u hu
  obtain ⟨r, hr, -⟩ := ((mem_dispatch.mp h).2.2 u).mp hu
  exact List.mem_map_of_mem hr

theorem upkeeps_persist (hn : names.Pairwise (· < ·)) (hrs : rs.map (·.1) ⊆ names) :
    Run.Upkeeps names (persist rs) fun _ => True :=
  .forM rs fun (_, r) he => .persistResult hn (hrs (List.mem_map_of_mem he)) r

theorem upkeeps_attempt {us : List Urn} (hn : names.Pairwise (· < ·)) (hus : us ⊆ names)
    (a : Action) : Run.Upkeeps names (attempt a us) fun _ => True := by
  unfold attempt
  refine Run.Upkeeps.bind (P := fun _ => True) ?_ fun _ _ => .count _
  refine Run.Upkeeps.tryCatch ?_ fun _ => .pure trivial
  exact (Run.Upkeeps.applyAction hn hus a).bind fun _ _ => .pure trivial

theorem upkeeps_commit (hn : names.Pairwise (· < ·)) (hrs : rs.map (·.1) ⊆ names) (c : Snapshot)
    (sel : Selection) : Run.Upkeeps names (commit c sel rs) fun _ => True := by
  unfold commit
  refine (Run.Upkeeps.of_inquires (inquires_merged c sel rs)).bind fun stored hstored => ?_
  refine (upkeeps_persist hn (by rwa [hstored])).bind fun _ _ => ?_
  refine Run.Upkeeps.forM _ fun (a, us) he => upkeeps_attempt hn ?_ a
  exact List.Subset.trans (subset_of_mem_dispatch he) hrs

/-- **An evaluation of listed entities leaves the listing and does not search.** -/
theorem upkeeps_run (r : Registry) (c : Snapshot) (sel : Selection) (mode : Mode) {us : List Urn}
    (hn : names.Pairwise (· < ·)) (hus : us ⊆ names) :
    Run.Upkeeps names (run r c sel mode us) fun _ => True := by
  unfold run
  refine (Run.Upkeeps.of_inquires (inquires_evaluate r c sel (Sorted.ofList us))).bind
    fun rs hrs => ?_
  cases mode with
  | evaluateOnly => exact .pure trivial
  | full =>
    have hsub : rs.map (·.1) ⊆ names := by
      rw [hrs.urns]
      exact fun u hu => hus (Sorted.mem_ofList.mp hu)
    exact (upkeeps_commit hn hsub c sel).bind fun _ _ => .pure trivial

end Evaluation
end CatalogRules
