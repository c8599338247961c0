import CatalogRules.Proofs.Resolution.Evaluators

/-! # What the aspect evaluator finds

The aspect evaluator follows a path into an aspect; where the path hops, it pools the targets of all
entities into new requests, takes out those that are not in the store and asks for the rest at once.

Each hop finds on each of its targets what the rest of its path has there, if the new requests are
answered (`answers_hops`). They ask for every target of every hop (`asks_hopRequests`) with shorter
paths (`within_hopRequests`). `dropMissing` takes out targets only that are not in the store, and
all such targets of which a path could be answered from the name alone (`looks_dropMissing`,
`asks_keepAll`, `entity?_of_mem_droppedAll`, `identity_of_not_dropped`). Together: if shorter
requests are answered, so are those of the aspect evaluator (`looks_aspect`). -/

namespace CatalogRules.Resolve

open Resolution

variable {r : Registry} {s : Store} {t : String} {us : List Urn} {ps : List Path}

/-! ### Plans and what they find -/

theorem keys_fetch {names : List String} (u : Urn) (y : Urn × Aspects)
    (h : ((s.entity? u).map fun a => (u, a.filter fun e => names.contains e.1)) = some y) :
    y.1 = u := by
  obtain ⟨a, -, rfl⟩ := Option.map_eq_some_iff.mp h
  rfl

theorem lookup_fetch (us : List Urn) (names : List String) (u : Urn) :
    (s.fetch us names).lookup u = if u ∈ us then
      (s.entity? u).map fun a => a.filter fun e => names.contains e.1 else none := by
  unfold Store.fetch
  rw [lookup_filterMap keys_fetch]
  by_cases hu : u ∈ us <;> simp [hu, Function.comp_def]

theorem nodup_fetch (hus : us.Pairwise (· < ·)) (names : List String) :
    ((s.fetch us names).map (·.1)).Nodup :=
  Sorted.nodup_of_pairwise (hus.sublist (keys_filterMap_sublist keys_fetch us))

/-- The plans of the paths that have one. -/
def plansFor (r : Registry) (t : String) (ps : List Path) : List (Path × Plan) :=
  ps.filterMap fun p => (Plan.of? r t p).map fun plan => (p, plan)

theorem keys_plansFor (p : Path) (y : Path × Plan)
    (h : ((Plan.of? r t p).map fun plan => (p, plan)) = some y) : y.1 = p := by
  obtain ⟨plan, -, rfl⟩ := Option.map_eq_some_iff.mp h
  rfl

theorem lookup_plansFor (p : Path) :
    (plansFor r t ps).lookup p = if p ∈ ps then Plan.of? r t p else none := by
  unfold plansFor
  rw [lookup_filterMap keys_plansFor]
  by_cases hp : p ∈ ps <;> simp [hp, Function.comp_def]

theorem nodup_plansFor (hps : ps.Pairwise (· < ·)) :
    ((plansFor r t ps).map (·.1)).Nodup :=
  Sorted.nodup_of_pairwise (hps.sublist (keys_filterMap_sublist keys_plansFor ps))

/-- The names of the aspects that some plans look into. -/
def aspectsOf (plans : List (Path × Plan)) : List String :=
  Sorted.ofList (plans.map fun (_, plan) => plan.aspect)

/-- What a plan finds in the fetched aspects is what it finds in the store. -/
theorem found_eq_textsAt {u : Urn} {p : Path} {a : Aspects} {plan : Plan}
    {plans : List (Path × Plan)} (hu : s.entity? u = some a) (hp : plans.lookup p = some plan) :
    found (a.filter fun e => (aspectsOf plans).contains e.1) plan =
      textsAt s u plan.aspect plan.fields := by
  have hm : (aspectsOf plans).contains plan.aspect = true := by
    rw [List.contains_iff_mem, aspectsOf, Sorted.mem_ofList]
    exact List.mem_map.mpr ⟨_, mem_of_lookup hp, rfl⟩
  unfold found textsAt Store.aspect?
  rw [lookup_filter_keys (fun k => (aspectsOf plans).contains k), hm, hu]
  rfl

/-- What a plan without a hop contributes. -/
def localPart (a : Aspects) : Plan → List String
  | .local b fs => found a (.local b fs)
  | .hop _ _ _ _ => []

/-- What a plan with a hop contributes, given the missing targets and the values below. -/
def hopPart (missing : List Urn) (below : Resolution) (a : Aspects) : Plan → List String
  | .local _ _ => []
  | .hop b fs ts rest => (((found a (.hop b fs ts rest)).filterMap Urn.ofText?).filter
      fun t => ¬ missing.contains t).flatMap fun t => below.values t rest

theorem append_nil (res : Resolution) (u : Urn) (p : Path) : res.append u p [] = res := rfl

theorem localValues_eq (fetched : List (Urn × Aspects)) (plans : List (Path × Plan)) :
    localValues fetched plans = appendAll [] (grid fetched plans localPart) := by
  unfold localValues appendAll grid
  rw [List.foldl_flatMap]
  refine List.foldl_ext _ _ _ fun res e _ => ?_
  rw [List.foldl_map]
  refine List.foldl_ext _ _ _ fun res x _ => ?_
  obtain ⟨p, plan⟩ := x
  cases plan with
  | «local» b fs => rfl
  | hop b fs ts rest => exact (append_nil res e.1 p).symm

theorem hopValues_eq (fetched : List (Urn × Aspects)) (plans : List (Path × Plan))
    (missing : List Urn) (below : Resolution) : hopValues (hops fetched plans) missing below =
      appendAll [] (grid fetched plans (hopPart missing below)) := by
  unfold hopValues hops appendAll grid
  rw [List.foldl_flatMap, List.foldl_flatMap]
  refine List.foldl_ext _ _ _ fun res e _ => ?_
  rw [List.foldl_map, List.foldl_filterMap]
  refine List.foldl_ext _ _ _ fun res x _ => ?_
  obtain ⟨p, plan⟩ := x
  cases plan with
  | «local» b fs => exact (append_nil res e.1 p).symm
  | hop b fs ts rest =>
    by_cases ht : (found e.2 (.hop b fs ts rest)).filterMap Urn.ofText? = []
    · simp only [ht, if_true, hopPart, List.filter_nil, List.flatMap_nil]
      exact (append_nil res e.1 p).symm
    · simp only [ht, if_false, hopPart]

/-- A hop that a path takes is among the hops. -/
theorem mem_hops {fetched : List (Urn × Aspects)} {plans : List (Path × Plan)} {u : Urn}
    {p rest : Path} {a : Aspects} {b : String} {fs ts : List String}
    (hu : fetched.lookup u = some a) (hp : plans.lookup p = some (.hop b fs ts rest))
    (hne : (found a (.hop b fs ts rest)).filterMap Urn.ofText? ≠ []) :
    ⟨u, p, rest, (found a (.hop b fs ts rest)).filterMap Urn.ofText?⟩ ∈ hops fetched plans := by
  refine List.mem_flatMap.mpr ⟨_, mem_of_lookup hu, ?_⟩
  refine List.mem_filterMap.mpr ⟨_, mem_of_lookup hp, ?_⟩
  simp only [if_neg hne]

theorem flatMap_filter_eq {α β : Type} (l : List α) (q : α → Bool) (f g : α → List β)
    (h : ∀ x ∈ l, (if q x then f x else []) = g x) : (l.filter q).flatMap f = l.flatMap g := by
  induction l with
  | nil => rfl
  | cons x l ih =>
    have hx := h x List.mem_cons_self
    have hl := ih fun y hy => h y (List.mem_cons_of_mem _ hy)
    rw [List.flatMap_cons, ← hx, ← hl]
    cases hq : q x <;> simp [hq]

/-- **Each hop finds on each of its targets what the rest of its path has there.** -/
theorem answers_hops (hus : us.Pairwise (· < ·)) (hps : ps.Pairwise (· < ·))
    (ht : ∀ u ∈ us, u.entityType = t) (hi : ∀ p ∈ ps, IdentityField.ofPath? p = none)
    (hplan : ∀ p ∈ ps, (Plan.of? r t p).isSome) {fetched : List (Urn × Aspects)}
    (hfetched : fetched = s.fetch us (aspectsOf (plansFor r t ps))) {missing : List Urn}
    {below : Resolution} (hb : ∀ h ∈ hops fetched (plansFor r t ps), ∀ v ∈ h.targets,
      (if ¬ missing.contains v then below.values v h.rest else []) =
        if (s.entity? v).isSome then valuesOf r s v h.rest else []) :
    Answers r s (fun u p => u ∈ us ∧ p ∈ ps) ((localValues fetched (plansFor r t ps)).merge
      (hopValues (hops fetched (plansFor r t ps)) missing below)) := by
  have hnf : (fetched.map (·.1)).Nodup := by rw [hfetched]; exact nodup_fetch hus _
  have hnp := nodup_plansFor (r := r) (t := t) hps
  have hvalid : ∀ rows, (appendAll [] rows).Valid := fun rows => Valid.nil.appendAll rows
  -- the values of a path are its local part and its hop part, one of which is empty
  have hvalues : ∀ u p, values ((localValues fetched (plansFor r t ps)).merge
      (hopValues (hops fetched (plansFor r t ps)) missing below)) u p =
      ((fetched.lookup u).bind fun a => ((plansFor r t ps).lookup p).map (localPart a)).getD [] ++
      ((fetched.lookup u).bind fun a =>
        ((plansFor r t ps).lookup p).map (hopPart missing below a)).getD [] := by
    intro u p
    rw [localValues_eq, hopValues_eq, values_merge (hvalid _), values_appendAll, values_appendAll,
      gathered_grid hnf hnp, gathered_grid hnf hnp]
    rfl
  refine ⟨by rw [localValues_eq]; exact (hvalid _).merge _, fun {u p} hup => ?_,
    fun {u p} hup => ?_⟩
  · obtain ⟨plan, hpl⟩ := Option.isSome_iff_exists.mp (hplan p hup.2)
    have hlp : (plansFor r t ps).lookup p = some plan := by rw [lookup_plansFor, if_pos hup.2, hpl]
    have hlu : fetched.lookup u = (s.entity? u).map fun a =>
        a.filter fun e => (aspectsOf (plansFor r t ps)).contains e.1 := by
      rw [hfetched, lookup_fetch, if_pos hup.1]
    rw [← ht u hup.1] at hpl
    rw [hvalues, hlp, hlu]
    cases ha : s.entity? u with
    | none => rw [valuesOf_absent ha (hi p hup.2)]; rfl
    | some a =>
      have hfound := found_eq_textsAt ha hlp
      simp only [Option.map_some, Option.bind_some, Option.getD_some]
      cases plan with
      | «local» b fs =>
        rw [valuesOf_local (hi p hup.2) hpl, localPart, hopPart, List.append_nil, hfound]
        rfl
      | hop b fs ts rest =>
        rw [valuesOf_hop (hi p hup.2) hpl, localPart, hopPart, List.nil_append, hfound]
        refine flatMap_filter_eq _ _ _ _ fun v hv => ?_
        have hmem := mem_hops (by rw [hlu, ha]; rfl) hlp
          (by rw [hfound]; exact List.ne_nil_of_mem hv)
        simpa using hb _ hmem v (by rw [hfound]; exact hv)
  · rw [hvalues, hfetched, lookup_fetch, lookup_plansFor]
    by_cases hu : u ∈ us
    · have hp : p ∉ ps := fun hp => hup ⟨hu, hp⟩
      cases s.entity? u <;> simp [hu, hp]
    · simp [hu]

/-! ### The requests for the targets -/

/-- The targets of some hops, each with the rest of the path. -/
def wanted (hs : List Hop) : List (Urn × List Path) :=
  hs.flatMap fun h => h.targets.map fun t => (t, [h.rest])

theorem hopRequests_eq_addAll (hs : List Hop) :
    hopRequests hs = Requests.addAll [] (wanted hs) := by
  unfold hopRequests Requests.addAll wanted
  rw [List.foldl_flatMap]
  refine List.foldl_ext _ _ _ fun rs h _ => ?_
  rw [List.foldl_map]

theorem valid_hopRequests (hs : List Hop) : (hopRequests hs).Valid := by
  rw [hopRequests_eq_addAll]
  exact Requests.Valid.nil.addAll _

/-- Every target of every hop is asked for. -/
theorem asks_hopRequests {hs : List Hop} {h : Hop} (hh : h ∈ hs) {v : Urn} (hv : v ∈ h.targets) :
    (hopRequests hs).Asks v h.rest := by
  rw [hopRequests_eq_addAll]
  refine Requests.asks_addAll (List.mem_flatMap.mpr ⟨h, hh, ?_⟩) (List.mem_singleton.mpr rfl)
  exact List.mem_map.mpr ⟨v, hv, rfl⟩

/-- The paths that are asked for are shorter by two than the paths that hop. -/
theorem within_hopRequests (fetched : List (Urn × Aspects)) {n : Nat}
    (hn : ∀ p ∈ ps, p.length < n + 2) :
    (hopRequests (hops fetched (plansFor r t ps))).Within (fun _ => True) (·.length < n) := by
  rw [hopRequests_eq_addAll]
  refine Requests.Within.addAll (by simp [Requests.Within]) fun w hw => ⟨trivial, ?_⟩
  obtain ⟨h, hh, hw⟩ := List.mem_flatMap.mp hw
  obtain ⟨v, -, rfl⟩ := List.mem_map.mp hw
  obtain ⟨e, -, hh⟩ := List.mem_flatMap.mp hh
  obtain ⟨⟨p, plan⟩, hpl, hh⟩ := List.mem_filterMap.mp hh
  obtain ⟨p', hp', hpl⟩ := List.mem_filterMap.mp hpl
  obtain ⟨plan', hplan, heq⟩ := Option.map_eq_some_iff.mp hpl
  obtain ⟨rfl, rfl⟩ := Prod.mk.inj heq
  intro q hq
  cases plan' with
  | «local» b fs => simp at hh
  | hop b fs ts rest =>
    have hl := (Plan.length_rest hplan).2
    have hp := hn p' hp'
    simp only [Option.ite_none_left_eq_some, Option.some.injEq] at hh
    obtain ⟨-, rfl⟩ := hh
    rw [List.mem_singleton.mp hq]
    show rest.length < n
    omega

/-! ### Missing targets -/

/-- What is left of a request when the targets that are not in the store are taken out. -/
def keep (r : Registry) (s : Store) (t : String) (q : Request) : Request :=
  if hasStoreless Evaluator.standard r t q then
    { q with urns := q.urns.filter fun u => (s.entity? u).isSome }
  else q

/-- The targets that are taken out of a request. -/
def dropped (r : Registry) (s : Store) (t : String) (q : Request) : List Urn :=
  if hasStoreless Evaluator.standard r t q then
    q.urns.filter fun u => !(s.entity? u).isSome
  else []

/-- The requests without the targets that were taken out. -/
def keepAll (r : Registry) (s : Store) (rs : Requests) : Requests :=
  rs.map fun e => (e.1, keep r s e.1 e.2)

/-- The targets that were taken out of the requests. -/
def droppedAll (r : Registry) (s : Store) (rs : Requests) : List Urn :=
  rs.flatMap fun e => dropped r s e.1 e.2

/-- **`dropMissing` takes out of each request the targets that are not in the store, if the request
would not notice.** -/
theorem looks_dropMissing (rs : Requests) :
    Run.Looks s (dropMissing Evaluator.standard r rs) fun out =>
      out = (keepAll r s rs, droppedAll r s rs) := by
  induction rs with
  | nil => exact .pure rfl
  | cons e rs ih =>
    obtain ⟨t, q⟩ := e
    unfold dropMissing
    by_cases hst : hasStoreless Evaluator.standard r t q
    · simp only [hst, if_true]
      refine (Run.Looks.count _).bind fun _ _ => ?_
      refine (Run.Looks.fetchAspects _ _ _).bind fun existing hex => ?_
      refine ih.bind fun out hout => .pure ?_
      have hknown : ∀ u ∈ q.urns, (existing.lookup u).isSome = (s.entity? u).isSome := by
        intro u hu
        rw [hex, lookup_fetch, if_pos hu, Option.isSome_map]
      simp only [hout, keepAll, droppedAll, List.map_cons, List.flatMap_cons, keep, dropped, hst,
        if_true]
      rw [List.filter_congr hknown, List.filter_congr fun u hu => congrArg Bool.not (hknown u hu)]
    · simp only [hst]
      refine ih.bind fun out hout => .pure ?_
      simp only [hout, keepAll, droppedAll, List.map_cons, List.flatMap_cons, keep, dropped, hst]
      rfl

theorem urns_keep_sublist (q : Request) : (keep r s t q).urns.Sublist q.urns := by
  unfold keep
  split_ifs
  · exact List.filter_sublist
  · exact List.Sublist.refl _

theorem paths_keep (q : Request) : (keep r s t q).paths = q.paths := by
  unfold keep
  split_ifs <;> rfl

theorem valid_keepAll {rs : Requests} (h : rs.Valid) : (keepAll r s rs).Valid := by
  refine ⟨?_, fun e' he' => ?_, fun e' he' => ?_, fun e' he' => ?_⟩
  · rw [keepAll, List.map_map]
    exact h.types
  all_goals obtain ⟨e, he, rfl⟩ := List.mem_map.mp he'
  · exact (h.urns e he).sublist (urns_keep_sublist _)
  · exact fun u hu => h.typed e he u ((urns_keep_sublist _).subset hu)
  · simp only [paths_keep]
    exact h.paths e he

theorem within_keepAll {rs : Requests} {U : Urn → Prop} {P : Path → Prop} (h : rs.Within U P) :
    (keepAll r s rs).Within U P := by
  intro e' he'
  obtain ⟨e, he, rfl⟩ := List.mem_map.mp he'
  refine ⟨fun u hu => (h e he).1 u ((urns_keep_sublist _).subset hu), ?_⟩
  simp only [paths_keep]
  exact (h e he).2

theorem lookup_keepAll (rs : Requests) (t : String) :
    (keepAll r s rs).lookup t = (rs.lookup t).map (keep r s t) :=
  lookup_map_values (keep r s) rs t

/-- Targets that are taken out are not in the store. -/
theorem entity?_of_mem_droppedAll {rs : Requests} {v : Urn} (h : v ∈ droppedAll r s rs) :
    s.entity? v = none := by
  obtain ⟨e, -, hv⟩ := List.mem_flatMap.mp h
  unfold dropped at hv
  split_ifs at hv
  · simpa using (List.mem_filter.mp hv).2
  · simp at hv

/-- A path that is answered from the name is resolved without a look into the store. -/
theorem hasStoreless_of_identity {q : Request} {p : Path} (hp : p ∈ q.paths)
    (hi : (IdentityField.ofPath? p).isSome) : hasStoreless Evaluator.standard r t q := by
  refine List.any_eq_true.mpr ⟨p, hp, ?_⟩
  rw [Evaluator.firstEligible_standard, if_pos hi]
  rfl

variable {rs : Requests} {v : Urn} {p : Path}

/-- Targets that are not in the store and were left cannot be answered from the name. -/
theorem identity_of_not_dropped (h : rs.Asks v p) (hd : v ∉ droppedAll r s rs)
    (hv : s.entity? v = none) : IdentityField.ofPath? p = none := by
  obtain ⟨q, hq, hu, hp⟩ := h
  by_contra hi
  refine hd (List.mem_flatMap.mpr ⟨_, mem_of_lookup hq, ?_⟩)
  simp only [dropped, hasStoreless_of_identity hp (Option.isSome_iff_ne_none.mpr hi), if_true]
  exact List.mem_filter.mpr ⟨hu, by simp [hv]⟩

/-- What was asked for and not taken out is still asked for. -/
theorem asks_keepAll (h : rs.Asks v p) (hd : v ∉ droppedAll r s rs) :
    (keepAll r s rs).Asks v p := by
  obtain ⟨q, hq, hu, hp⟩ := h
  refine ⟨keep r s v.entityType q, by rw [lookup_keepAll, hq]; rfl, ?_, by rwa [paths_keep]⟩
  unfold keep
  split_ifs with hst
  · refine List.mem_filter.mpr ⟨hu, ?_⟩
    by_contra hv
    refine hd (List.mem_flatMap.mpr ⟨_, mem_of_lookup hq, ?_⟩)
    simp only [dropped, hst, if_true]
    exact List.mem_filter.mpr ⟨hu, by simpa using hv⟩
  · exact hu

/-- What the hops read of the answers below is what the rest of the path has on the target, if the
target is in the store. -/
theorem below_eq {below : Resolution} (hb : Answers r s (keepAll r s rs).Asks below)
    (h : rs.Asks v p) : (if ¬ (droppedAll r s rs).contains v then below.values v p else []) =
      if (s.entity? v).isSome then valuesOf r s v p else [] := by
  by_cases hd : v ∈ droppedAll r s rs
  · simp [hd, entity?_of_mem_droppedAll hd]
  · have hc : ¬ (droppedAll r s rs).contains v := by simpa using hd
    rw [if_pos hc, hb.asked (asks_keepAll h hd)]
    split_ifs with hv
    · rfl
    · have hv' : s.entity? v = none := by simpa using hv
      exact valuesOf_absent hv' (identity_of_not_dropped h hd hv')

/-! ### The evaluator -/

/-- **The aspect evaluator answers its requests, if shorter requests are answered.** -/
theorem looks_aspect (hus : us.Pairwise (· < ·)) (hps : ps.Pairwise (· < ·))
    (ht : ∀ u ∈ us, u.entityType = t) (hi : ∀ p ∈ ps, IdentityField.ofPath? p = none)
    (hplan : ∀ p ∈ ps, (Plan.of? r t p).isSome) {nested : Requests → Run Resolution} {n : Nat}
    (hn : ∀ p ∈ ps, p.length < n + 1) (hnested : ∀ rs : Requests, rs.Valid →
      rs.Within (fun _ => True) (·.length < n) → Run.Looks s (nested rs) (Answers r s rs.Asks)) :
    Run.Looks s (aspect Evaluator.standard r nested t us ps)
      (Answers r s fun u p => u ∈ us ∧ p ∈ ps) := by
  unfold aspect
  dsimp only
  split_ifs with hnone
  · -- no path has a plan, hence there is no path
    refine .pure (.nil fun u p hup => ?_)
    have := List.filterMap_eq_nil_iff.mp hnone p hup.2
    obtain ⟨plan, hpl⟩ := Option.isSome_iff_exists.mp (hplan p hup.2)
    simp [hpl] at this
  · refine (Run.Looks.count _).bind fun _ _ => ?_
    refine (Run.Looks.fetchAspects _ _ _).bind fun fetched hfetched => ?_
    have hanswers := @answers_hops r s t us ps hus hps ht hi hplan fetched hfetched
    split_ifs with hnil
    · have hnil' : hops fetched (plansFor r t ps) = [] := List.isEmpty_iff.mp hnil
      have := @hanswers [] [] (by simp [hnil'])
      rw [hnil'] at this
      exact .pure this
    · refine (looks_dropMissing _).bind fun out hout => ?_
      subst hout
      have hbelow := hnested (keepAll r s (hopRequests (hops fetched (plansFor r t ps))))
        (valid_keepAll (valid_hopRequests _)) (within_keepAll (within_hopRequests fetched
          fun p hp => (hn p hp).trans (Nat.lt_succ_self _)))
      refine hbelow.bind fun below hb => .pure (hanswers fun h hh v hv => ?_)
      exact below_eq hb (asks_hopRequests hh hv)

end CatalogRules.Resolve
