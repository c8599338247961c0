import CatalogRules.Proofs.Recursion
import CatalogRules.Proofs.Resolution.Calls
import CatalogRules.Proofs.Resolution.Conforming

/-! # Nested hops

Resolving and validating recur where a path hops: the rest of the path (`Path.RestOf`) is resolved on
the targets, and it is validated on the types of the targets. The steps of these recursions
(`Resolve.step`, `Path.validateStep`) call themselves for rests of paths only, whatever the store has
(`Resolve.descends`, `Path.descends`). A rest has two segments less, so that the bounds on the number
of hops are never reached and hops are nested half as deep as the paths are long, also where entity
types and entities refer to themselves (`hops_terminate`). -/

namespace CatalogRules

open Recursion

/-! ### Rests of paths -/

namespace Path

variable {r : Registry} {t : String} {p rest : Path}

/-- On an entity type the path hops, and the rest remains. -/
def RestOf (r : Registry) (t : String) (rest p : Path) : Prop :=
  ∃ a fs ts, Plan.of? r t p = some (.hop a fs ts rest)

theorem RestOf.length (h : RestOf r t rest p) : 0 < rest.length ∧ rest.length + 2 ≤ p.length := by
  obtain ⟨a, fs, ts, hplan⟩ := h
  exact Plan.length_rest hplan

/-- The text of a rest is split into the same segments again. -/
theorem RestOf.ofText_text (h : RestOf r t rest p) (hp : ofText p.text = p) :
    ofText rest.text = rest := by
  have hne : rest ≠ [] := List.ne_nil_of_length_pos h.length.1
  obtain ⟨a, fs, ts, hplan⟩ := h
  obtain ⟨-, -, hcut⟩ := Plan.of?_hop hplan
  refine ofText_text_of_not_mem hne fun seg hseg => not_mem_of_mem_ofText (s := p.text) ?_
  rw [hp, hcut]
  exact List.mem_cons_of_mem _ (List.mem_append_right _ hseg)

end Path

/-! ### Resolving -/

namespace Run

variable {α β ι : Type}

theorem bind_congr {x : Run α} {f g : α → Run β}
    (h : ∀ p a q, x.run p = (.ok a, q) → f a = g a) : x >>= f = x >>= g := by
  have hrun : ∀ p, (x >>= f).run p = (x >>= g).run p := fun p => by
    rw [run_bind, run_bind]
    rcases hx : x.run p with ⟨e | a, q⟩
    · rfl
    · exact congrArg (fun y => y.run q) (h p a q hx)
  exact funext hrun

theorem foldlM_congr {f g : β → ι → Run β} : ∀ {l : List ι} {b : β},
    (∀ i ∈ l, ∀ b, f b i = g b i) → l.foldlM f b = l.foldlM g b
  | [], _, _ => rfl
  | i :: l, b, h => by
    rw [List.foldlM_cons, List.foldlM_cons, h i List.mem_cons_self]
    exact bind_congr fun _ _ _ _ => foldlM_congr fun j hj => h j (List.mem_cons_of_mem _ hj)

end Run

theorem Requests.longest_le {rs : Requests} {n : Nat}
    (h : ∀ e ∈ rs, ∀ p ∈ e.2.paths, p.length ≤ n) : rs.longest ≤ n := by
  have hfold : ∀ (l : List Path) (m : Nat), m ≤ n → (∀ p ∈ l, p.length ≤ n) →
      l.foldl (fun m p => max m p.length) m ≤ n := by
    intro l
    induction l with
    | nil => exact fun m hm _ => hm
    | cons p l ih =>
      intro m hm hl
      exact ih _ (Nat.max_le.mpr ⟨hm, hl p List.mem_cons_self⟩)
        fun q hq => hl q (List.mem_cons_of_mem _ hq)
  have hpooled : rs.longest = (rs.flatMap (·.2.paths)).foldl (fun m p => max m p.length) 0 := by
    rw [List.foldl_flatMap]
    rfl
  rw [hpooled]
  refine hfold _ 0 (Nat.zero_le n) fun p hp => ?_
  obtain ⟨e, he, hp⟩ := List.mem_flatMap.mp hp
  exact h e he p hp

namespace Resolve

variable {evs : List Evaluator} {r : Registry} {t : String} {us : List Urn} {ps : List Path}
  {f g : Requests → Run Resolution}

/-- One level of resolving: the requests are answered in turn, those of their hops by `nested`. -/
def step (evs : List Evaluator) (r : Registry) (nested : Requests → Run Resolution)
    (rs : Requests) : Run Resolution :=
  rs.foldlM (fun res e => do return res.merge (← request evs r nested e.1 e.2)) []

theorem requestsWithin_eq_unroll (n : Nat) :
    requestsWithin evs r n = unroll (step evs r) (fun _ => pure []) n := by
  induction n with
  | zero => rfl
  | succ n ih =>
    rw [unroll, ← ih]
    rfl

/-- Requests for rests of some paths on an entity type; there is at least one. -/
def AreRests (r : Registry) (t : String) (ps : List Path) (rs : Requests) : Prop :=
  (∃ e ∈ rs, e.2.paths ≠ []) ∧ rs.Within (fun _ => True) fun rest => ∃ p ∈ ps, Path.RestOf r t rest p

theorem targets_ne_nil {fetched : List (Urn × Aspects)} {plans : List (Path × Plan)} {h : Hop}
    (hh : h ∈ hops fetched plans) : h.targets ≠ [] := by
  obtain ⟨⟨u, a⟩, -, hh⟩ := List.mem_flatMap.mp hh
  obtain ⟨⟨p, plan⟩, -, hh⟩ := List.mem_filterMap.mp hh
  cases plan with
  | «local» b fs => cases hh
  | hop b fs ts rest =>
    simp only [Option.ite_none_left_eq_some, Option.some.injEq] at hh
    obtain ⟨hne, rfl⟩ := hh
    exact hne

/-- Whatever was fetched, the targets of hops are asked for rests. -/
theorem areRests_hopRequests (fetched : List (Urn × Aspects))
    (hne : hops fetched (plansFor r t ps) ≠ []) :
    AreRests r t ps (hopRequests (hops fetched (plansFor r t ps))) := by
  constructor
  · obtain ⟨h, hh⟩ := List.exists_mem_of_ne_nil _ hne
    obtain ⟨v, hv⟩ := List.exists_mem_of_ne_nil _ (targets_ne_nil hh)
    obtain ⟨q, hq, -, hp⟩ := asks_hopRequests hh hv
    exact ⟨_, mem_of_lookup hq, List.ne_nil_of_mem hp⟩
  · rw [hopRequests_eq_addAll]
    refine Requests.Within.addAll (by simp [Requests.Within]) fun w hw => ⟨trivial, ?_⟩
    obtain ⟨h, hh, hw⟩ := List.mem_flatMap.mp hw
    obtain ⟨v, -, rfl⟩ := List.mem_map.mp hw
    obtain ⟨a, p, b, fs, ts, -, hplan, -⟩ := mem_hops_iff hh
    obtain ⟨p', hp', hplan⟩ := List.mem_filterMap.mp hplan
    obtain ⟨plan, hof, heq⟩ := Option.map_eq_some_iff.mp hplan
    obtain ⟨rfl, rfl⟩ := Prod.mk.inj heq
    intro rest hrest
    rw [List.mem_singleton.mp hrest]
    exact ⟨p', hp', b, fs, ts, hof⟩

/-- Taking out missing targets leaves the paths that are asked for. -/
theorem paths_dropMissing : ∀ {rs : Requests} {p q : Platform} {out : Requests × List Urn},
    (dropMissing evs r rs).run p = (.ok out, q) → out.1.map (·.2.paths) = rs.map (·.2.paths)
  | [], p, q, out, h => by
    cases h
    rfl
  | (t, q) :: rs, p, o, out, h => by
    unfold dropMissing at h
    split_ifs at h
    · obtain ⟨_, _, -, h⟩ := Run.run_bind_ok h
      obtain ⟨_, _, -, h⟩ := Run.run_bind_ok h
      obtain ⟨out', _, hrest, h⟩ := Run.run_bind_ok h
      cases h
      exact congrArg (q.paths :: ·) (paths_dropMissing hrest)
    · obtain ⟨out', _, hrest, h⟩ := Run.run_bind_ok h
      cases h
      exact congrArg (q.paths :: ·) (paths_dropMissing hrest)

theorem AreRests.of_paths {rs rs' : Requests} (h : AreRests r t ps rs)
    (hpaths : rs'.map (·.2.paths) = rs.map (·.2.paths)) : AreRests r t ps rs' := by
  have hmem : ∀ {l}, (∃ e ∈ rs', e.2.paths = l) ↔ ∃ e ∈ rs, e.2.paths = l := fun {l} => by
    rw [← List.mem_map, hpaths, List.mem_map]
  obtain ⟨⟨e, he, hne⟩, hwithin⟩ := h
  constructor
  · obtain ⟨e', he', heq⟩ := hmem.mpr ⟨e, he, rfl⟩
    exact ⟨e', he', heq ▸ hne⟩
  · intro e' he'
    obtain ⟨e, he, heq⟩ := hmem.mp ⟨e', he', rfl⟩
    exact ⟨fun _ _ => trivial, heq ▸ (hwithin e he).2⟩

/-- **The aspect evaluator asks for rests only.** -/
theorem aspect_congr (hfg : ∀ rs, AreRests r t ps rs → f rs = g rs) :
    aspect evs r f t us ps = aspect evs r g t us ps := by
  unfold aspect
  dsimp only
  split_ifs
  · rfl
  refine Run.bind_congr fun _ _ _ _ => Run.bind_congr fun _ fetched _ _ => ?_
  split_ifs with hnil
  · rfl
  refine Run.bind_congr fun p out q hdrop => ?_
  have hrests : AreRests r t ps (hopRequests (hops fetched (plansFor r t ps))) :=
    areRests_hopRequests fetched fun h => hnil (List.isEmpty_iff.mpr h)
  rw [hfg out.1 (hrests.of_paths (paths_dropMissing hdrop))]

theorem evaluator_congr (hfg : ∀ rs, AreRests r t ps rs → f rs = g rs) (e : Evaluator) :
    evaluator evs r f t us ps e = evaluator evs r g t us ps e := by
  cases e with
  | identity => rfl
  | aspect => exact aspect_congr hfg
  | system => rfl

theorem AreRests.mono {ps' : List Path} {rs : Requests} (h : AreRests r t ps rs) (hps : ps ⊆ ps') :
    AreRests r t ps' rs := by
  refine ⟨h.1, fun e he => ⟨fun _ _ => trivial, fun rest hrest => ?_⟩⟩
  obtain ⟨p, hp, hrest⟩ := (h.2 e he).2 rest hrest
  exact ⟨p, hps hp, hrest⟩

theorem request_congr {q : Request} (hfg : ∀ rs, AreRests r t q.paths rs → f rs = g rs) :
    request evs r f t q = request evs r g t q := by
  unfold request
  split_ifs
  · rfl
  refine Run.foldlM_congr fun e _ res => ?_
  dsimp only
  split_ifs
  · rfl
  have hsub : assigned evs r t q.paths e.2 ⊆ q.paths := List.filter_sublist.subset
  rw [evaluator_congr fun rs hrs => hfg rs (hrs.mono hsub)]

/-- The requests are for rests of the paths of one of some requests. -/
def Below (r : Registry) (rs' rs : Requests) : Prop := ∃ e ∈ rs, AreRests r e.1 e.2.paths rs'

/-- **Resolving calls itself for rests of paths only.** -/
theorem descends (evs : List Evaluator) (r : Registry) :
    Descends (step evs r) Requests.longest (Below r) where
  congr := fun {f g rs} hfg => Run.foldlM_congr fun e he res => by
    rw [request_congr fun rs' hrs' => hfg rs' ⟨e, he, hrs'⟩]
  pos := by
    rintro rs' rs ⟨e, -, ⟨e', he', hne⟩, hwithin⟩
    obtain ⟨rest, hrest⟩ := List.exists_mem_of_ne_nil _ hne
    obtain ⟨p, -, h⟩ := (hwithin e' he').2 rest hrest
    exact h.length.1.trans_le (Requests.length_le_longest e' he' rest hrest)
  add_two_le := by
    rintro rs' rs ⟨e, he, ⟨e', he', hne⟩, hwithin⟩
    have hle : ∀ e' ∈ rs', ∀ rest ∈ e'.2.paths, rest.length + 2 ≤ rs.longest := by
      intro e' he' rest hrest
      obtain ⟨p, hp, h⟩ := (hwithin e' he').2 rest hrest
      exact h.length.2.trans (Requests.length_le_longest e he p hp)
    obtain ⟨rest, hrest⟩ := List.exists_mem_of_ne_nil _ hne
    have htwo := hle e' he' rest hrest
    have hlongest : rs'.longest ≤ rs.longest - 2 :=
      Requests.longest_le fun e' he' rest hrest => by
        have := hle e' he' rest hrest
        omega
    omega

theorem requests_eq_unroll (bottom : Requests → Run Resolution) {n : Nat} {rs : Requests} (h0 : 0 < n)
    (hn : rs.longest ≤ 2 * n) : requests evs r rs = unroll (step evs r) bottom n rs := by
  rw [requests, requestsWithin_eq_unroll]
  exact (descends evs r).unroll_eq (Nat.succ_pos _) h0 (by omega) hn

/-- Resolving is the recursion of its step. -/
theorem requests_eq_step (rs : Requests) : requests evs r rs = step evs r (requests evs r) rs := by
  rw [requests_eq_unroll (requests evs r) (n := rs.longest + 1 + 1) (Nat.succ_pos _) (by omega), unroll]
  refine (descends evs r).congr fun rs' hrs' => ?_
  have hle := (descends evs r).add_two_le hrs'
  exact (requests_eq_unroll _ (Nat.succ_pos _) (by omega)).symm

end Resolve

/-! ### Validating -/

namespace Path

variable {evs : List Evaluator} {r : Registry}

/-- One level of validating a path on some entity types. -/
def validateStep (evs : List Evaluator) (r : Registry)
    (validate : Path × List String → Validation) (a : Path × List String) : Validation :=
  if a.1.contains "" then .problem ("属性路径 '" ++ a.1.text ++ "' 含有空段")
  else .all <| a.2.map fun t =>
    match Evaluator.firstEligible r t a.1 evs with
    | some e => validateBy r (fun rest t => validate (rest, [t])) t a.1 e
    | none => .problem (s!"实体类型 '{t}' 无法解析属性路径 '" ++ a.1.text ++ "'")

theorem validateWithin_eq_unroll : ∀ (n : Nat) (p : Path) (types : List String),
    validateWithin evs r n p types = unroll (validateStep evs r) (fun _ => .ok) n (p, types)
  | 0, _, _ => rfl
  | n + 1, p, types => by
    have hrest : (fun rest t => validateWithin evs r n rest [t]) =
        fun rest t => unroll (validateStep evs r) (fun _ => .ok) n (rest, [t]) :=
      funext fun rest => funext fun t => validateWithin_eq_unroll n rest [t]
    rw [validateWithin, hrest]
    rfl

/-- The rest of the path on one of some entity types, and the type of a target. -/
def Below (r : Registry) (a' a : Path × List String) : Prop :=
  ∃ t ∈ a.2, RestOf r t a'.1 a.1 ∧ ∃ t', a'.2 = [t']

/-- **Validating calls itself for rests of paths only.** -/
theorem descends (evs : List Evaluator) (r : Registry) :
    Descends (validateStep evs r) (·.1.length) (Below r) where
  congr := by
    intro f g a hfg
    have hone : ∀ t ∈ a.2, ∀ e, validateBy r (fun rest t => f (rest, [t])) t a.1 e =
        validateBy r (fun rest t => g (rest, [t])) t a.1 e := by
      intro t ht e
      cases e with
      | identity => rfl
      | system => rfl
      | aspect =>
        unfold validateBy
        cases hplan : Plan.of? r t a.1 with
        | none => rfl
        | some plan =>
          cases plan with
          | «local» b fs => rfl
          | hop b fs ts rest =>
            have hrest : ∀ t', f (rest, [t']) = g (rest, [t']) := fun t' =>
              hfg _ ⟨t, ht, ⟨b, fs, ts, hplan⟩, t', rfl⟩
            simp only [validatePlan, hrest]
    unfold validateStep
    split_ifs
    · rfl
    · congr 1
      refine List.map_congr_left fun t ht => ?_
      split
      · exact hone t ht _
      · rfl
  pos := by
    rintro a' a ⟨t, -, h, -⟩
    exact h.length.1
  add_two_le := by
    rintro a' a ⟨t, -, h, -⟩
    exact h.length.2

theorem validate_eq_unroll (bottom : Path × List String → Validation) {n : Nat} {p : Path}
    {types : List String} (h0 : 0 < n) (hn : p.length ≤ 2 * n) :
    p.validate evs r types = unroll (validateStep evs r) bottom n (p, types) := by
  rw [validate, validateWithin_eq_unroll]
  exact (descends evs r).unroll_eq (Nat.succ_pos _) h0 (by dsimp only; omega) hn

/-- Validating is the recursion of its step. -/
theorem validate_eq_step (p : Path) (types : List String) :
    p.validate evs r types = validateStep evs r (fun a => a.1.validate evs r a.2) (p, types) := by
  rw [validate_eq_unroll (fun a => a.1.validate evs r a.2) (n := p.length + 1 + 1) (Nat.succ_pos _)
    (by omega), unroll]
  refine (descends evs r).congr fun a ha => ?_
  have hle := (descends evs r).add_two_le ha
  dsimp only at hle
  exact (validate_eq_unroll _ (Nat.succ_pos _) (by omega)).symm

end Path

/-! ### Both -/

/-- **Resolving and validating end, whatever refers to whatever.** Each of them is the recursion of its
step, and there are no endless chains of calls. Every call is for rests of the paths asked for; a rest
has at least one segment, two less than the path, and is what is read back from its text. So a chain
of calls is at most half as long as the paths are, without their first segments; and it does not
matter what would be done one level deeper, on any platform. -/
theorem hops_terminate (evs : List Evaluator) (r : Registry) :
    (∀ rs, Resolve.requests evs r rs = Resolve.step evs r (Resolve.requests evs r) rs) ∧
    (∀ p types, Path.validate evs r p types =
      Path.validateStep evs r (fun a => a.1.validate evs r a.2) (p, types)) ∧
    WellFounded (Calls (Resolve.step evs r)) ∧ WellFounded (Calls (Path.validateStep evs r)) ∧
    (∀ rs' rs, Calls (Resolve.step evs r) rs' rs → (∃ e' ∈ rs', e'.2.paths ≠ []) ∧
      ∃ e ∈ rs, ∀ e' ∈ rs', ∀ rest ∈ e'.2.paths, ∃ p ∈ e.2.paths, Path.RestOf r e.1 rest p) ∧
    (∀ rest types' p types, Calls (Path.validateStep evs r) (rest, types') (p, types) →
      ∃ t ∈ types, Path.RestOf r t rest p ∧ ∃ t', types' = [t']) ∧
    (∀ t rest p, Path.RestOf r t rest p → 0 < rest.length ∧ rest.length + 2 ≤ p.length ∧
      (Path.ofText p.text = p → Path.ofText rest.text = rest)) ∧
    (∀ n us ps, (∀ p ∈ ps, p.length ≤ n) →
      (∀ k rs, Chain (Resolve.step evs r) k rs (Requests.ofUrns us ps) → k ≤ (n - 1) / 2) ∧
      ∀ bottom, resolve evs r us ps = if us = [] ∨ ps = [] then return []
        else unroll (Resolve.step evs r) bottom ((n - 1) / 2 + 1) (Requests.ofUrns us ps)) ∧
    ∀ p types,
      (∀ k a, Chain (Path.validateStep evs r) k a (p, types) → k ≤ (p.length - 1) / 2) ∧
      ∀ bottom, Path.validate evs r p types =
        unroll (Path.validateStep evs r) bottom ((p.length - 1) / 2 + 1) (p, types) := by
  have hresolve := Resolve.descends evs r
  have hvalidate := Path.descends evs r
  refine ⟨Resolve.requests_eq_step, Path.validate_eq_step, hresolve.wellFounded,
    hvalidate.wellFounded, fun rs' rs hc => ?_, fun rest types' p types hc => ?_,
    fun t rest p h => ⟨h.length.1, h.length.2, h.ofText_text⟩, fun n us ps hn => ?_,
    fun p types => ⟨fun k a hk => ?_, fun bottom => Path.validate_eq_unroll bottom ?_ ?_⟩⟩
  · obtain ⟨e, he, hne, hwithin⟩ := hresolve.related_of_calls hc
    exact ⟨hne, e, he, fun e' he' => (hwithin e' he').2⟩
  · exact hvalidate.related_of_calls hc
  · have hlongest : (Requests.ofUrns us ps).longest ≤ n :=
      Requests.longest_le fun e he p hp => hn p ((Requests.within_ofUrns us ps e he).2 p hp)
    refine ⟨fun k rs hk => ?_, fun bottom => ?_⟩
    · obtain ⟨hsum, hpos⟩ := hresolve.chain_le hk
      omega
    · unfold resolve
      rw [Resolve.requests_eq_unroll bottom (n := (n - 1) / 2 + 1) (Nat.succ_pos _) (by omega)]
  · obtain ⟨hsum, hpos⟩ := hvalidate.chain_le hk
    dsimp only at hsum hpos
    omega
  · exact Nat.succ_pos _
  · omega

/-- Things refer to things. -/
def Registry.ofThings : Registry :=
  [("thing", ⟨"key", [("next", AspectSpec.plain.refer "to" ["thing"])]⟩)]

/-- The thing refers to itself. -/
def Store.ofLoop : Store :=
  ⟨[(.thing, [("next", .ofValue (.object [("to", .string "urn:li:thing:1")]))])], []⟩

/-- A path goes around the loop three times, which takes three nested calls, and no fewer. -/
theorem resolve_loop :
    let r := Registry.ofThings
    let rest : Path := ["next", "to", "next", "to", "urn"]
    let p : Path := "next" :: "to" :: rest
    let rs := Requests.ofUrns [.thing] [p]
    let below : Requests := [("thing", ⟨[.thing], [rest]⟩)]
    let refused : Requests → Run Resolution := fun _ => throw .json
    let o := Platform.ofStore .ofLoop [] 0
    Calls (Resolve.step Evaluator.standard r) below rs ∧
    Calls (Path.validateStep Evaluator.standard r) (rest, ["thing"]) (p, ["thing"]) ∧
    Path.RestOf r "thing" rest p ∧ Path.ofText rest.text = rest ∧
    resolve Evaluator.standard r [.thing] [p] =
      unroll (Resolve.step Evaluator.standard r) refused 4 rs ∧
    ((resolve Evaluator.standard r [.thing] [p]).run o).1.toOption.map (·.values .thing p) =
      some ["urn:li:thing:1"] ∧
    ((unroll (Resolve.step Evaluator.standard r) refused 3 rs).run o).1.toOption = none ∧
    (Path.validate Evaluator.standard r p ["thing"]).valid = true := by
  intro r rest p rs below refused o
  have hresolve : Calls (Resolve.step Evaluator.standard r) below rs := by
    refine ⟨fun _ => pure [], fun z => if z = below then refused z else pure [],
      fun z hz => (if_neg hz).symm, fun heq => ?_⟩
    have hgives : ((Resolve.step Evaluator.standard r (fun _ => pure []) rs).run o).1.toOption =
      some [] := by decide +kernel
    rw [heq] at hgives
    exact absurd hgives (by decide +kernel)
  have hvalidate : Calls (Path.validateStep Evaluator.standard r) (rest, ["thing"]) (p, ["thing"]) :=
    ⟨fun _ => .ok, fun z => if z = (rest, ["thing"]) then .problem "" else .ok,
      fun z hz => (if_neg hz).symm, by decide +kernel⟩
  obtain ⟨-, -, -, -, hbelow, hrests, hshorter, hdeep, -⟩ := hops_terminate Evaluator.standard r
  have hrs : rs = [("thing", ⟨[.thing], [p]⟩)] := by decide +kernel
  obtain ⟨-, e, he, hpaths⟩ := hbelow below rs hresolve
  rw [hrs, List.mem_singleton] at he
  obtain ⟨p', hp', hrest⟩ := hpaths _ List.mem_cons_self rest List.mem_cons_self
  subst he
  rw [List.mem_singleton.mp hp'] at hrest
  obtain ⟨t, ht, hrest', -⟩ := hrests rest ["thing"] p ["thing"] hvalidate
  rw [List.mem_singleton.mp ht] at hrest'
  exact ⟨hresolve, hvalidate, hrest, (hshorter "thing" rest p hrest').2.2 (by decide +kernel),
    (hdeep 7 [.thing] [p] (by simp [p, rest])).2 refused, by decide +kernel, by decide +kernel,
    by decide +kernel⟩

end CatalogRules
