import CatalogRules.Proofs.Logging
import CatalogRules.Proofs.Resolution.Realized
import Mathlib.Algebra.BigOperators.Intervals
import Mathlib.Algebra.BigOperators.Ring.Finset
import Mathlib.Data.Finset.Card
import Mathlib.Tactic.Ring

/-! # How often a resolution asks the store

The number of calls of a resolution depends on the entity types that are met and on the lengths of
the paths, not on the numbers of entities and paths (`resolve_calls`). A request, which is about a
single type, asks once for aspects and once for derived times; its hops lead to one new request for
each type that they meet, and for each there may be one more call to find the missing targets
(`logs_aspect`, `logs_request`). Each hop makes a path shorter by two segments at least, so the
calls are counted by induction on the bound on the lengths (`logs_requestsWithin`).

If no path hops and no time is derived, there is at most one call for each type, and so there are at
most as many calls as pairs of a type and an aspect are fetched (`OncePerType.length_le`). Otherwise
this need not be so: requests that are made for different sources are not put together
(`resolve_shared`). -/

namespace CatalogRules

/-- Every entity that some text in the store names is of one of the types. -/
def Store.Names (s : Store) (K : List String) : Prop :=
  ∀ u aspect fields, ∀ text ∈ Resolution.textsAt s u aspect fields, ∀ v,
    Urn.ofText? text = some v → v.entityType ∈ K

/-- The aspects hold nothing but a text each. -/
theorem Store.names_of_nest {s : Store} {K : List String} (h : ∀ e ∈ s.entities, ∀ a ∈ e.2,
    ∃ fs x, a.2.value = Path.nest fs (.string x) ∧
      ∀ v, Urn.ofText? x = some v → v.entityType ∈ K) : s.Names K := by
  intro u aspect fields text htext v hv
  unfold Resolution.textsAt at htext
  split at htext
  · rename_i e he
    obtain ⟨aspects, hu, ha⟩ := Option.bind_eq_some_iff.mp he
    obtain ⟨fs, x, hvalue, hx⟩ := h _ (mem_of_lookup hu) _ (mem_of_lookup ha)
    rw [hvalue] at htext
    obtain ⟨-, rfl⟩ := Path.urn_of_nest htext hv
    exact hx v hv
  · cases htext

/-- A bound on the calls for the hops of a request, given the number of types and the number of hops
of a path: for each type one call to find the missing targets, and a new request. -/
def hopCalls (k : Nat) : Nat → Nat
  | 0 => 0
  | h + 1 => k * (3 + hopCalls k h)

theorem hopCalls_eq (k : Nat) : ∀ h, hopCalls k h = 3 * ∑ i ∈ Finset.range h, k ^ (i + 1)
  | 0 => rfl
  | h + 1 => by
    have hstep : ∑ i ∈ Finset.range h, k ^ (i + 1 + 1) = k * ∑ i ∈ Finset.range h, k ^ (i + 1) := by
      rw [Finset.mul_sum]
      exact Finset.sum_congr rfl fun i _ => pow_succ' k (i + 1)
    rw [hopCalls, hopCalls_eq k h, Finset.sum_range_succ', hstep]
    ring

namespace Requests

variable {rs : Requests} {K : List String}

theorem length_le_of_types (hrs : rs.Valid) (hK : ∀ e ∈ rs, e.1 ∈ K) : rs.length ≤ K.length := by
  have hsub : rs.map (·.1) ⊆ K := by
    intro t ht
    obtain ⟨e, he, rfl⟩ := List.mem_map.mp ht
    exact hK e he
  calc rs.length = (rs.map (·.1)).length := (List.length_map _).symm
    _ ≤ K.length := (List.subperm_of_subset (Sorted.nodup_of_pairwise hrs.types) hsub).length_le

theorem types_addAll {wanted : List (Urn × List Path)} (h : ∀ e ∈ rs, e.1 ∈ K)
    (hw : ∀ w ∈ wanted, w.1.entityType ∈ K) : ∀ e ∈ rs.addAll wanted, e.1 ∈ K := by
  induction wanted generalizing rs with
  | nil => exact h
  | cons w wanted ih =>
    have h' : ∀ e ∈ rs.add w.1.entityType [w.1] w.2, e.1 ∈ K := by
      intro e he
      rcases mem_add he with rfl | he
      · exact hw w List.mem_cons_self
      · exact h e he
    exact ih h' fun x hx => hw x (List.mem_cons_of_mem _ hx)

theorem types_ofUrns {us : List Urn} (hus : ∀ u ∈ us, u.entityType ∈ K) (ps : List Path) :
    ∀ e ∈ ofUrns us ps, e.1 ∈ K := by
  rw [ofUrns_eq_addAll]
  refine types_addAll (by simp) fun w hw => ?_
  obtain ⟨u, hu, rfl⟩ := List.mem_map.mp hw
  exact hus u hu

end Requests

namespace Resolve

open Resolution
open Run (Logs Few Looks)

variable {r : Registry} {s : Store} {t : String} {us : List Urn} {ps : List Path} {K : List String}

/-! ### The types that hops meet -/

theorem textsAt_of_found {u : Urn} {a : Aspects} {names : List String} {plan : Plan} {text : String}
    (hu : (u, a) ∈ s.fetch us names) (ht : text ∈ found a plan) :
    text ∈ textsAt s u plan.aspect plan.fields := by
  obtain ⟨u', -, hu⟩ := List.mem_filterMap.mp hu
  obtain ⟨b, hb, heq⟩ := Option.map_eq_some_iff.mp hu
  obtain ⟨rfl, rfl⟩ := Prod.mk.inj heq
  unfold found at ht
  rw [lookup_filter_keys (fun k => names.contains k)] at ht
  split_ifs at ht with hn
  · rw [textsAt, Store.aspect?, hb]
    exact ht
  · cases ht

/-- What a hop of a plan leads to. -/
theorem mem_hops_iff {fetched : List (Urn × Aspects)} {plans : List (Path × Plan)} {h : Hop}
    (hh : h ∈ hops fetched plans) : ∃ a p b fs ts, (h.source, a) ∈ fetched ∧
      (p, Plan.hop b fs ts h.rest) ∈ plans ∧
      h.targets = (found a (.hop b fs ts h.rest)).filterMap Urn.ofText? := by
  obtain ⟨⟨u, a⟩, he, hh⟩ := List.mem_flatMap.mp hh
  obtain ⟨⟨p, plan⟩, hplan, hh⟩ := List.mem_filterMap.mp hh
  cases plan with
  | «local» b fs => cases hh
  | hop b fs ts rest =>
    simp only [Option.ite_none_left_eq_some, Option.some.injEq] at hh
    obtain ⟨-, rfl⟩ := hh
    exact ⟨a, p, b, fs, ts, he, hplan, rfl⟩

theorem types_hopRequests (hs : s.Names K) (us : List Urn) (names : List String)
    (plans : List (Path × Plan)) : ∀ e ∈ hopRequests (hops (s.fetch us names) plans), e.1 ∈ K := by
  rw [hopRequests_eq_addAll]
  refine Requests.types_addAll (by simp) fun w hw => ?_
  obtain ⟨h, hh, hw⟩ := List.mem_flatMap.mp hw
  obtain ⟨v, hv, rfl⟩ := List.mem_map.mp hw
  obtain ⟨a, p, b, fs, ts, hu, -, htargets⟩ := mem_hops_iff hh
  rw [htargets] at hv
  obtain ⟨text, htext, hparse⟩ := List.mem_filterMap.mp hv
  exact hs _ _ _ text (textsAt_of_found hu htext) v hparse

theorem types_keepAll {rs : Requests} (hK : ∀ e ∈ rs, e.1 ∈ K) : ∀ e ∈ keepAll r s rs, e.1 ∈ K := by
  intro e' he'
  obtain ⟨e, he, rfl⟩ := List.mem_map.mp he'
  exact hK e he

/-- The path has a plan that does not hop, or none. -/
def Stays (r : Registry) (t : String) (p : Path) : Prop :=
  ∀ a fs ts rest, Plan.of? r t p ≠ some (.hop a fs ts rest)

theorem stays_of_length {p : Path} (hp : p.length ≤ 2) : Stays r t p := by
  intro a fs ts rest h
  have := Plan.length_rest h
  omega

theorem hops_eq_nil (h : ∀ p ∈ ps, Stays r t p) (fetched : List (Urn × Aspects)) :
    hops fetched (plansFor r t ps) = [] := by
  refine List.eq_nil_iff_forall_not_mem.mpr fun hop hhop => ?_
  obtain ⟨a, p, b, fs, ts, -, hplan, -⟩ := mem_hops_iff hhop
  obtain ⟨p', hp', hplan⟩ := List.mem_filterMap.mp hplan
  obtain ⟨plan, hof, heq⟩ := Option.map_eq_some_iff.mp hplan
  obtain ⟨rfl, rfl⟩ := Prod.mk.inj heq
  exact h p' hp' b fs ts hop.rest hof

/-! ### Counting the calls -/

theorem logs_dropMissing (rs : Requests) :
    Logs s (dropMissing Evaluator.standard r rs) (Few rs.length) := by
  induction rs with
  | nil => exact .pure (.nil 0)
  | cons e rs ih =>
    obtain ⟨t, q⟩ := e
    unfold dropMissing
    rw [List.length_cons, Nat.add_comm]
    split_ifs
    · refine Logs.bind_count ?_
      refine Logs.bind_few (Looks.fetchAspects _ _ _) (.fetchAspects (.fetch _ _ _)) fun _ _ => ?_
      exact ih.bind_silent fun _ _ => rfl
    · exact (ih.mono fun _ h => h.mono (Nat.le_add_left _ _)).bind_silent fun _ _ => rfl

/-- The nested requests take few calls, if their paths hop at most so often. -/
def NestedFew (s : Store) (K : List String) (n h : Nat)
    (nested : Requests → Run Resolution) : Prop :=
  ∀ rs : Requests, rs.Valid → (∀ e ∈ rs, e.1 ∈ K) → rs.Within (fun _ => True) (·.length < n) →
    rs.Within (fun _ => True) (·.length ≤ 2 * h + 2) →
    Logs s (nested rs) (Few (rs.length * (2 + hopCalls K.length h)))

variable {n h : Nat} {nested : Requests → Run Resolution}

/-- **The aspect evaluator takes one call, and one call and a new request for each type that its hops
meet.** -/
theorem logs_aspect (hs : s.Names K) (hn : ∀ p ∈ ps, p.length < n + 1)
    (hh : ∀ p ∈ ps, p.length ≤ 2 * h + 2)
    (hnested : ∀ h', h = h' + 1 → NestedFew s K n h' nested) :
    Logs s (aspect Evaluator.standard r nested t us ps) (Few (1 + hopCalls K.length h)) := by
  unfold aspect
  dsimp only
  split_ifs
  · exact .pure (.nil _)
  refine Logs.bind_count ?_
  refine Logs.bind_few (Looks.fetchAspects _ _ _) (.fetchAspects (.fetch _ _ _)) fun fetched hf => ?_
  split_ifs with hnil
  · exact .pure (.nil _)
  cases h with
  | zero =>
    -- two segments are too few for a hop
    have hnone := hops_eq_nil (r := r) (t := t) (fun p hp => stays_of_length (hh p hp)) fetched
    exact absurd (List.isEmpty_iff.mpr hnone) hnil
  | succ h =>
    have htypes := types_hopRequests hs us (aspectsOf (plansFor r t ps)) (plansFor r t ps)
    rw [show s.fetch us (aspectsOf (plansFor r t ps)) = fetched from hf.symm] at htypes
    have hvalid := valid_hopRequests (hops fetched (plansFor r t ps))
    have hshort := within_hopRequests (r := r) (t := t) fetched fun p hp =>
      Nat.lt_succ_of_lt (hn p hp)
    have hhops := within_hopRequests (r := r) (t := t) (n := 2 * h + 3) fetched fun p hp =>
      Nat.lt_succ_of_le (hh p hp)
    have hcalls : ∀ {l}, Few ((hopRequests (hops fetched (plansFor r t ps))).length +
        (hopRequests (hops fetched (plansFor r t ps))).length * (2 + hopCalls K.length h)) l →
        Few (hopCalls K.length (h + 1)) l := by
      intro l hl
      refine hl.mono ?_
      calc _ = _ * (3 + hopCalls K.length h) := by ring
        _ ≤ K.length * (3 + hopCalls K.length h) :=
          Nat.mul_le_mul_right _ (Requests.length_le_of_types hvalid htypes)
    refine (Logs.bind_few (looks_dropMissing _) (logs_dropMissing _) fun out hout => ?_).mono
      fun l => hcalls
    subst hout
    have hbelow := hnested h rfl (keepAll r s (hopRequests (hops fetched (plansFor r t ps))))
      (valid_keepAll hvalid) (types_keepAll htypes) (within_keepAll hshort)
      (within_keepAll fun e he =>
        ⟨fun _ _ => trivial, fun p hp => Nat.le_of_lt_succ ((hhops e he).2 p hp)⟩)
    have hlength : (keepAll r s (hopRequests (hops fetched (plansFor r t ps)))).length =
        (hopRequests (hops fetched (plansFor r t ps))).length := List.length_map _
    rw [hlength] at hbelow
    exact hbelow.bind_silent fun _ _ => rfl

theorem logs_system : Logs s (system r t us ps) (Few 1) := by
  unfold system
  dsimp only
  split_ifs
  · exact .pure (.nil 1)
  · refine Logs.bind_count ?_
    exact (Logs.fetchAspects (.fetch _ _ _)).bind_silent fun _ _ => rfl

/-- A bound on the calls of an evaluator, given the number of types and the number of hops of a
path. -/
def evaluatorCalls (k h : Nat) : Evaluator → Nat
  | .identity => 0
  | .aspect => 1 + hopCalls k h
  | .system => 1

theorem sum_evaluatorCalls (k h : Nat) :
    (Evaluator.standard.zipIdx.map fun e => evaluatorCalls k h e.1).sum = 2 + hopCalls k h := by
  show 0 + ((1 + hopCalls k h) + (1 + 0)) = _
  omega

/-- What one evaluator adds to the answer to a request. -/
def ask (r : Registry) (nested : Requests → Run Resolution) (t : String) (q : Request)
    (res : Resolution) (e : Evaluator × Nat) : Run Resolution := do
  let ps := assigned Evaluator.standard r t q.paths e.2
  if ps = [] then return res
  else return res.merge (← evaluator Evaluator.standard r nested t q.urns ps e.1)

theorem request_eq (r : Registry) (nested : Requests → Run Resolution) (t : String) (q : Request) :
    request Evaluator.standard r nested t q =
      if q.urns = [] ∨ q.paths = [] then return []
      else Evaluator.standard.zipIdx.foldlM (ask r nested t q) [] := rfl

variable {q : Request}

theorem looks_ask (hanswers : NestedAnswers r s n nested) (hus : q.urns.Pairwise (· < ·))
    (hps : q.paths.Pairwise (· < ·)) (ht : ∀ u ∈ q.urns, u.entityType = t)
    (hn : ∀ p ∈ q.paths, p.length < n + 1) {e : Evaluator × Nat} (he : e ∈ Evaluator.standard.zipIdx)
    (res : Resolution) : Looks s (ask r nested t q res e) fun _ => True := by
  unfold ask
  dsimp only
  rw [assigned_eq_assignedTo e he]
  split_ifs with hne
  · exact .pure trivial
  · exact (looks_evaluator hanswers hus hps ht hn hne).bind fun _ _ => .pure trivial

/-- **A request takes two calls, and those for its hops.** -/
theorem logs_request (hs : s.Names K) (hanswers : NestedAnswers r s n nested)
    (hus : q.urns.Pairwise (· < ·)) (hps : q.paths.Pairwise (· < ·))
    (ht : ∀ u ∈ q.urns, u.entityType = t) (hn : ∀ p ∈ q.paths, p.length < n + 1)
    (hh : ∀ p ∈ q.paths, p.length ≤ 2 * h + 2)
    (hnested : ∀ h', h = h' + 1 → NestedFew s K n h' nested) :
    Logs s (request Evaluator.standard r nested t q) (Few (2 + hopCalls K.length h)) := by
  rw [request_eq]
  split_ifs
  · exact .pure (.nil _)
  rw [← sum_evaluatorCalls]
  refine Logs.foldlM_few _ (fun e he res => looks_ask hanswers hus hps ht hn he res)
    fun e he res => ?_
  unfold ask
  dsimp only
  rw [assigned_eq_assignedTo e he]
  have hsub : ∀ p ∈ assignedTo r t q.paths e.1, p ∈ q.paths := fun p hp => (mem_assignedTo.mp hp).1
  split_ifs
  · exact .pure (.nil _)
  · refine Logs.bind_silent ?_ fun _ _ => rfl
    obtain ⟨e, i⟩ := e
    cases e with
    | identity => exact .pure (.nil _)
    | aspect =>
      exact logs_aspect hs (fun p hp => hn p (hsub p hp)) (fun p hp => hh p (hsub p hp)) hnested
    | system => exact logs_system

/-- **Requests take the calls of each of them.** -/
theorem logs_requestsWithin (hs : s.Names K) : ∀ n h : Nat,
    NestedFew s K n h (requestsWithin Evaluator.standard r n)
  | 0, _ => fun _ _ _ _ _ => .pure (.nil _)
  | n + 1, h => by
    intro rs hrs hK hlt hle
    have hanswers : NestedAnswers r s n (requestsWithin Evaluator.standard r n) :=
      looks_requestsWithin n
    have hsum : (rs.map fun _ => 2 + hopCalls K.length h).sum =
        rs.length * (2 + hopCalls K.length h) := by simp
    rw [← hsum]
    refine Logs.foldlM_few _ (fun e he res => ?_) fun e he res => ?_
    · exact (looks_request hanswers (hrs.urns e he) (hrs.paths e he) (hrs.typed e he)
        (hlt e he).2).bind fun _ _ => .pure trivial
    · exact (logs_request hs hanswers (hrs.urns e he) (hrs.paths e he) (hrs.typed e he)
        (hlt e he).2 (hle e he).2 fun h' _ => logs_requestsWithin hs n h').bind_silent fun _ _ => rfl

/-! ### One call for each type -/

/-- There is at most one call for each of some types; each fetches some aspects. -/
def OncePerType (ts : List String) (log : List Call) : Prop :=
  (log.map Call.subject).Sublist ts ∧
    ∀ c ∈ log, ∃ us names, names ≠ [] ∧ c = .fetchAspects c.subject us names

theorem OncePerType.nil (ts : List String) : OncePerType ts [] := ⟨List.nil_sublist ts, by simp⟩

theorem OncePerType.append {ts ts' : List String} {log log' : List Call} (h : OncePerType ts log)
    (k : OncePerType ts' log') : OncePerType (ts ++ ts') (log ++ log') := by
  refine ⟨?_, fun c hc => ?_⟩
  · rw [List.map_append]
    exact h.1.append k.1
  · rcases List.mem_append.mp hc with hc | hc
    · exact h.2 c hc
    · exact k.2 c hc

/-- A loop makes one call for each type that its elements are about. -/
theorem logs_foldlM_once {β ι : Type} {f : β → ι → Run β} {l : List ι} {b : β}
    (types : ι → List String) (hl : ∀ i ∈ l, ∀ b, Looks s (f b i) fun _ => True)
    (hf : ∀ i ∈ l, ∀ b, Logs s (f b i) (OncePerType (types i))) :
    Logs s (l.foldlM f b) (OncePerType (l.flatMap types)) := by
  refine Logs.foldlM (I := fun done => OncePerType (done.flatMap types)) (.nil _) hl
    (Q := fun i => OncePerType (types i)) hf (fun done rest log h => ?_)
    fun done i log log' _ h k => ?_
  · rw [List.flatMap_append]
    exact ⟨h.1.trans (List.sublist_append_left _ _), h.2⟩
  · rw [List.flatMap_append, List.flatMap_singleton]
    exact h.append k

theorem logs_aspect_once (hstay : ∀ p ∈ ps, Stays r t p) :
    Logs s (aspect Evaluator.standard r nested t us ps) (OncePerType [t]) := by
  unfold aspect
  dsimp only
  split_ifs with hnone
  · exact .pure (.nil _)
  have hne : aspectsOf (plansFor r t ps) ≠ [] := by
    obtain ⟨e, he⟩ := List.exists_mem_of_ne_nil _ hnone
    refine List.ne_nil_of_mem (Sorted.mem_ofList.mpr (List.mem_map_of_mem he))
  refine Logs.bind_count ?_
  refine Logs.bind_silent (Logs.fetchAspects ⟨List.Sublist.refl _, fun c hc => ?_⟩) ?_
  · rw [List.mem_singleton.mp hc]
    exact ⟨us, _, hne, rfl⟩
  · intro fetched p
    have hnil := hops_eq_nil hstay fetched
    unfold plansFor at hnil
    rw [hnil]
    rfl

/-- The path neither hops nor stands for a derived time. -/
def InPlace (r : Registry) (t : String) (p : Path) : Prop :=
  Stays r t p ∧ Evaluator.firstEligible r t p Evaluator.standard ≠ some .system

theorem logs_request_once (hanswers : NestedAnswers r s n nested) (hus : q.urns.Pairwise (· < ·))
    (hps : q.paths.Pairwise (· < ·)) (ht : ∀ u ∈ q.urns, u.entityType = t)
    (hn : ∀ p ∈ q.paths, p.length < n + 1) (hplace : ∀ p ∈ q.paths, InPlace r t p) :
    Logs s (request Evaluator.standard r nested t q) (OncePerType [t]) := by
  rw [request_eq]
  split_ifs
  · exact .pure (.nil _)
  let types (e : Evaluator × Nat) : List String := if e.1 = .aspect then [t] else []
  have htypes : Evaluator.standard.zipIdx.flatMap types = [t] := rfl
  rw [← htypes]
  refine logs_foldlM_once types (fun e he res => looks_ask hanswers hus hps ht hn he res)
    fun e he res => ?_
  unfold ask
  dsimp only
  rw [assigned_eq_assignedTo e he]
  split_ifs with hne
  · exact .pure (.nil _)
  · refine Logs.bind_silent ?_ fun _ _ => rfl
    obtain ⟨e, i⟩ := e
    cases e with
    | identity => exact .pure (.nil _)
    | aspect => exact logs_aspect_once fun p hp => (hplace p (mem_assignedTo.mp hp).1).1
    | system =>
      obtain ⟨p, hp⟩ := List.exists_mem_of_ne_nil _ hne
      obtain ⟨hp, hfirst⟩ := mem_assignedTo.mp hp
      exact absurd hfirst (hplace p hp).2

theorem logs_requestsWithin_once {rs : Requests} (hrs : rs.Valid)
    (hlt : rs.Within (fun _ => True) (·.length < n))
    (hplace : ∀ e ∈ rs, ∀ p ∈ e.2.paths, InPlace r e.1 p) :
    Logs s (requestsWithin Evaluator.standard r n rs) (OncePerType (rs.map (·.1))) := by
  cases n with
  | zero => exact .pure (.nil _)
  | succ n =>
    have hanswers : NestedAnswers r s n (requestsWithin Evaluator.standard r n) :=
      looks_requestsWithin n
    have htypes : rs.flatMap (fun e => [e.1]) = rs.map (·.1) := List.flatMap_pure_eq_map _ rs
    rw [← htypes]
    refine logs_foldlM_once _ (fun e he res => ?_) fun e he res => ?_
    · exact (looks_request hanswers (hrs.urns e he) (hrs.paths e he) (hrs.typed e he)
        (hlt e he).2).bind fun _ _ => .pure trivial
    · exact (logs_request_once hanswers (hrs.urns e he) (hrs.paths e he) (hrs.typed e he)
        (hlt e he).2 (hplace e he)).bind_silent fun _ _ => rfl

end Resolve

/-! ### Pairs of a type and an aspect -/

/-- The pairs of a type and an aspect that a call fetches. -/
def Call.pairs : Call → List (String × String)
  | .fetchAspects t _ names => names.map fun a => (t, a)
  | _ => []

/-- The pairs of a type and an aspect that some calls fetch. -/
def fetchedPairs (log : List Call) : Finset (String × String) := (log.flatMap Call.pairs).toFinset

/-- Calls for different types fetch different pairs. -/
theorem Resolve.OncePerType.length_le {ts : List String} {log : List Call} (h : OncePerType ts log)
    (hts : ts.Nodup) : log.length ≤ (fetchedPairs log).card := by
  have hsub : (log.map Call.subject).toFinset ⊆ (fetchedPairs log).image Prod.fst := by
    intro t ht
    obtain ⟨c, hc, rfl⟩ := List.mem_map.mp (List.mem_toFinset.mp ht)
    obtain ⟨us, names, hne, heq⟩ := h.2 c hc
    obtain ⟨a, ha⟩ := List.exists_mem_of_ne_nil _ hne
    refine Finset.mem_image.mpr ⟨(c.subject, a), ?_, rfl⟩
    refine List.mem_toFinset.mpr (List.mem_flatMap.mpr ⟨c, hc, ?_⟩)
    rw [heq]
    exact List.mem_map_of_mem ha
  calc log.length = (log.map Call.subject).toFinset.card := by
        rw [List.toFinset_card_of_nodup (hts.sublist h.1), List.length_map]
    _ ≤ ((fetchedPairs log).image Prod.fst).card := Finset.card_le_card hsub
    _ ≤ (fetchedPairs log).card := Finset.card_image_le

open Resolve in
/-- **How many calls a resolution takes** depends on the types that are met and on the lengths of the
paths alone: for paths with at most `2 * h + 2` segments there are two calls for each type, and three
for each chain of further types that up to `h` hops may lead along. If no path hops and no time is
derived, there are no more calls than pairs of a type and an aspect. -/
theorem resolve_calls (r : Registry) (us : List Urn) (ps : List Path) (p : Platform)
    (K : List String) (hus : ∀ u ∈ us, u.entityType ∈ K) (hK : p.store.Names K) (h : Nat)
    (hps : ∀ path ∈ ps, path.length ≤ 2 * h + 2) : ∃ log,
      ((resolve Evaluator.standard r us ps).run p).2.calls = p.calls ++ log ∧
      (∀ c ∈ log, c.sort = .fetchAspects) ∧
      log.length ≤ K.length * (2 + 3 * ∑ i ∈ Finset.range h, K.length ^ (i + 1)) ∧
      ((∀ u ∈ us, ∀ path ∈ ps, InPlace r u.entityType path) →
        log.length ≤ (fetchedPairs log).card) := by
  unfold resolve
  split_ifs with hnone
  · exact ⟨[], (List.append_nil _).symm, by simp, Nat.zero_le _, fun _ => Nat.zero_le _⟩
  have hvalid := Requests.Valid.ofUrns us ps
  have htypes := Requests.types_ofUrns hus ps
  have hwithin := Requests.within_ofUrns us ps
  have hlongest : (Requests.ofUrns us ps).Within (fun _ => True)
      (·.length < (Requests.ofUrns us ps).longest + 1) := fun e he =>
    ⟨fun _ _ => trivial, fun path hpath =>
      Nat.lt_succ_of_le (Requests.length_le_longest e he path hpath)⟩
  have hlength : (Requests.ofUrns us ps).Within (fun _ => True) (·.length ≤ 2 * h + 2) :=
    fun e he => ⟨fun _ _ => trivial, fun path hpath => hps path ((hwithin e he).2 path hpath)⟩
  obtain ⟨log, hlog, hfew, hsort⟩ :=
    logs_requestsWithin hK _ h _ hvalid htypes hlongest hlength p rfl
  refine ⟨log, hlog, hsort, ?_, fun hplace => ?_⟩
  · rw [← hopCalls_eq]
    exact hfew.trans (Nat.mul_le_mul_right _ (Requests.length_le_of_types hvalid htypes))
  · have hplaced : ∀ e ∈ Requests.ofUrns us ps, ∀ path ∈ e.2.paths, InPlace r e.1 path := by
      intro e he path hpath
      obtain ⟨u, hu, heq⟩ := List.mem_map.mp
        (Requests.types_ofUrns (K := us.map (·.entityType)) (fun u => List.mem_map_of_mem) ps e he)
      exact heq ▸ hplace u hu path ((hwithin e he).2 path hpath)
    obtain ⟨log', hlog', honce⟩ := logs_requestsWithin_once hvalid hlongest hplaced p rfl
    have hsame : log' = log := List.append_cancel_left (hlog'.symm.trans hlog)
    exact hsame ▸ honce.length_le (Sorted.nodup_of_pairwise hvalid.types)

/-- A chart, a container, and a dataset. -/
def Urn.chart : Urn := ⟨"chart", "b", by decide, by decide, by decide⟩

@[inherit_doc Urn.chart]
def Urn.container : Urn := ⟨"container", "c", by decide, by decide, by decide⟩

@[inherit_doc Urn.chart]
def Urn.dataset : Urn := ⟨"dataset", "a", by decide, by decide, by decide⟩

/-- The chart and the dataset are in the container, which has a name. -/
def Store.ofContainer : Store :=
  ⟨[(.chart, [("container", .ofValue (.object [("container", .string Urn.container.text)]))]),
    (.container, [("containerProperties", .ofValue (.object [("name", .string "N")]))]),
    (.dataset, [("container", .ofValue (.object [("container", .string Urn.container.text)]))])],
    []⟩

theorem resolve_calls_ofContainer :
    let K := ["chart", "container", "dataset"]
    let path := ["container", "container", "containerProperties", "name"]
    (∀ u ∈ [Urn.chart, Urn.dataset], u.entityType ∈ K) ∧ Store.ofContainer.Names K ∧
    (∀ p ∈ [path], p.length ≤ 2 * 1 + 2) ∧
    ((resolve Evaluator.standard .standard [.chart, .dataset] [path]).run
      (.ofStore .ofContainer [] 0)).2.calls.length ≤ 33 := by
  intro K path
  have hus : ∀ u ∈ [Urn.chart, Urn.dataset], u.entityType ∈ K := by decide
  have hcontainer : ∀ v, Urn.ofText? Urn.container.text = some v → v.entityType ∈ K := by
    intro v hv
    rw [Urn.ofText?_text] at hv
    cases hv
    decide
  have hname : ∀ v, Urn.ofText? "N" = some v → v.entityType ∈ K := by
    intro v hv
    cases hv
  have hnames : Store.ofContainer.Names K := by
    refine Store.names_of_nest fun e he a ha => ?_
    simp only [Store.ofContainer, List.mem_cons, List.not_mem_nil, or_false] at he
    rcases he with rfl | rfl | rfl <;> obtain rfl := List.mem_singleton.mp ha
    · exact ⟨["container"], _, rfl, hcontainer⟩
    · exact ⟨["name"], _, rfl, hname⟩
    · exact ⟨["container"], _, rfl, hcontainer⟩
  have hpath : ∀ p ∈ [path], p.length ≤ 2 * 1 + 2 := by decide
  obtain ⟨log, hlog, -, hlength, -⟩ := resolve_calls .standard [.chart, .dataset] [path]
    (.ofStore .ofContainer [] 0) K hus hnames 1 hpath
  refine ⟨hus, hnames, hpath, ?_⟩
  rw [hlog]
  exact hlength

/-- The properties of the container are fetched twice, for the chart and for the dataset: there are
four calls for three pairs of a type and an aspect. -/
theorem resolve_shared :
    let log := ((resolve Evaluator.standard .standard [.chart, .dataset]
      [["container", "container", "containerProperties", "name"]]).run
        (.ofStore .ofContainer [] 0)).2.calls
    log = [.fetchAspects "chart" [.chart] ["container"],
      .fetchAspects "container" [.container] ["containerProperties"],
      .fetchAspects "dataset" [.dataset] ["container"],
      .fetchAspects "container" [.container] ["containerProperties"]] ∧
    fetchedPairs log = {("chart", "container"), ("container", "containerProperties"),
      ("dataset", "container")} ∧
    (fetchedPairs log).card < log.length := by
  decide +kernel

end CatalogRules
