import CatalogRules.Proofs.Resolution.Conforming
import CatalogRules.Proofs.Resolution.Pooled
import CatalogRules.Registry.Standard

/-! # Resolvable paths have values on some store

For each path that is resolvable on an entity type there is a conforming store with an entity of the
type on which the path has values (`Path.Resolvable.realized`). The store is built from the end of
the path on: an entity with what the last part of the path looks for, then an entity for each hop,
whose aspect holds nothing but the name of the entity before (`nest`). The keys of the entities grow,
so that each is new; the values of a path on an entity that was there before stay
(`valuesOf_ne_nil_of_extends`).

With the converse, `resolvable_of_valuesOf`, validation is sound and complete for conforming stores
(`validate_iff_resolves`). -/

namespace CatalogRules

open Json (Value)

/-! ### Nested values -/

namespace Path

/-- A value at the end of some field names, and nothing else. -/
def nest : List String → Value → Value
  | [], v => v
  | f :: fs, v => .object [(f, nest fs v)]

theorem walk_nest (x : String) : ∀ fs : List String, walk (nest fs (.string x)) fs = [.string x]
  | [] => by rw [nest, walk]; simp
  | f :: fs => by rw [nest, walk, walkField, if_pos rfl, walk_nest x fs]

theorem values_nest (x : String) (fs : List String) : values (nest fs (.string x)) fs = [x] := by
  rw [values, walk_nest]
  rfl

/-- Besides the value itself there are objects only. -/
theorem mem_walk_nest {x : String} {v : Value} : ∀ {fs names : List String},
    v ∈ walk (nest fs (.string x)) names → names = fs ∧ v = .string x ∨ ∃ fields, v = .object fields
  | [], [], h => by
    rw [nest, walk] at h
    · exact Or.inl ⟨rfl, List.mem_singleton.mp h⟩
    · simp
  | [], name :: names, h => by
    rw [nest, walk] at h
    · cases h
    all_goals simp
  | f :: fs, [], h => by
    rw [nest, walk] at h
    · exact Or.inr ⟨_, List.mem_singleton.mp h⟩
    · simp
  | f :: fs, name :: names, h => by
    rw [nest, walk, walkField] at h
    split_ifs at h with hf
    · rcases mem_walk_nest h with ⟨rfl, rfl⟩ | hv
      · exact Or.inl ⟨by rw [hf], rfl⟩
      · exact Or.inr hv
    · cases h

/-- The text of an object names no entity. -/
theorem urn_of_object (fields : List (String × Value)) :
    Urn.ofText? (Value.object fields).text = none := by
  have h : (Value.object fields).text.toList = '\x7b' :: (Json.writeFields fields ++ ['\x7d']) := by
    rw [Value.text, Json.write, String.toList_ofList]
    rfl
  rw [Urn.ofText?, h]
  rfl

/-- A nested text names an entity at the end of the names only. -/
theorem urn_of_nest {x text : String} {fs names : List String} {u : Urn}
    (h : text ∈ values (nest fs (.string x)) names) (hu : Urn.ofText? text = some u) :
    names = fs ∧ text = x := by
  obtain ⟨v, hv, hrender⟩ := List.mem_filterMap.mp h
  rcases mem_walk_nest hv with ⟨rfl, rfl⟩ | ⟨fields, rfl⟩
  · exact ⟨rfl, (Option.some.inj hrender).symm⟩
  · have htext : (Value.object fields).text = text := Option.some.inj hrender
    rw [← htext, urn_of_object] at hu
    cases hu

end Path

/-! ### Stores that grow -/

namespace Store

/-- The entities, and the aspects of each, are in order. -/
structure Ordered (s : Store) : Prop where
  entities : (s.entities.map (·.1)).Pairwise (· < ·)
  aspects : ∀ e ∈ s.entities, (e.2.map (·.1)).Pairwise (· < ·)

/-- The other store has all entities, with their aspects. -/
def Extends (s' s : Store) : Prop := ∀ u a, s.entity? u = some a → s'.entity? u = some a

variable {r : Registry} {s : Store} {u : Urn} {a : Aspects}

theorem ordered_empty : empty.Ordered := ⟨List.Pairwise.nil, by simp [empty]⟩

theorem conforms_empty : empty.Conforms r := by
  intro u _ _ _ hu
  cases hu

theorem extends_putEntity (hu : s.entity? u = none) : (s.putEntity u a).Extends s := by
  intro v b hv
  rw [entity?_putEntity, if_neg, hv]
  rintro rfl
  rw [hu] at hv
  cases hv

theorem Ordered.putEntity (hs : s.Ordered) (ha : (a.map (·.1)).Pairwise (· < ·)) :
    (s.putEntity u a).Ordered := by
  refine ⟨Sorted.pairwise_put u a hs.entities, fun e he => ?_⟩
  rcases Sorted.mem_put he with rfl | he
  · exact ha
  · exact hs.aspects e he

/-- An entity may be put if what its reference fields refer to is of a declared type. -/
theorem Conforms.putEntity (hs : s.Conforms r) (ha : ∀ aspect field targets e,
      a.lookup aspect = some e → r.targets? u.entityType aspect field = some targets →
        ∀ text ∈ Path.values e.value (Path.ofText field), ∀ v, Urn.ofText? text = some v →
          v.entityType ∈ targets) : (s.putEntity u a).Conforms r := by
  intro v aspect field targets hv htargets text htext
  by_cases hvu : v = u
  · subst hvu
    rw [Resolution.textsAt, aspect?, entity?_putEntity, if_pos rfl] at htext
    cases he : a.lookup aspect with
    | none => simp [he] at htext
    | some e =>
      simp only [Option.bind_eq_bind, Option.bind_some, he] at htext
      exact ha aspect field targets e he htargets text htext
  · rw [entity?_putEntity, if_neg hvu] at hv
    rw [Resolution.textsAt, aspect?, entity?_putEntity, if_neg hvu] at htext
    exact hs v aspect field targets hv htargets text htext

end Store

namespace Resolution

variable {r : Registry} {s s' : Store}

theorem textsAt_of_entity? {u : Urn} {aspects : Aspects} {a : String} {e : Envelope}
    (hu : s.entity? u = some aspects) (he : aspects.lookup a = some e) (fs : List String) :
    textsAt s u a fs = Path.values e.value fs := by
  rw [textsAt, Store.aspect?, hu, Option.bind_eq_bind, Option.bind_some, he]

/-- What has values on a store has values on a store that has more entities. -/
theorem valuesOf_ne_nil_of_extends (hs : s'.Extends s) {u : Urn} {p : Path}
    (h : valuesOf r s u p ≠ []) : valuesOf r s' u p ≠ [] := by
  cases hi : IdentityField.ofPath? p with
  | some f =>
    rw [valuesOf_identity hi]
    exact List.cons_ne_nil _ _
  | none =>
    cases hu : s.entity? u with
    | none => exact absurd (valuesOf_absent hu hi) h
    | some aspects =>
      have hu' : s'.entity? u = some aspects := hs u aspects hu
      have htexts : ∀ a fs, textsAt s' u a fs = textsAt s u a fs := by
        intro a fs
        rw [textsAt, textsAt, Store.aspect?, Store.aspect?, hu, hu']
      cases hplan : Plan.of? r u.entityType p with
      | none =>
        rw [valuesOf_time hi hplan, timeOf, hu] at h
        rw [valuesOf_time hi hplan, timeOf, hu']
        exact h
      | some plan =>
        cases plan with
        | «local» a fs =>
          rw [valuesOf_local hi hplan] at h
          rw [valuesOf_local hi hplan, htexts]
          exact h
        | hop a fs ts rest =>
          have hlength := (Plan.length_rest hplan).2
          obtain ⟨v, hv, hknown, hrest⟩ := (hop_ne_nil_iff hi hplan).mp h
          obtain ⟨b, hb⟩ := Option.isSome_iff_exists.mp hknown
          refine (hop_ne_nil_iff hi hplan).mpr ⟨v, by rw [htexts]; exact hv, ?_, ?_⟩
          · rw [hs v b hb]
            rfl
          · exact valuesOf_ne_nil_of_extends hs hrest
termination_by p.length

end Resolution

/-! ### A store for each resolvable path -/

/-- Each entity type has its key aspect among its aspects. -/
def Registry.KeysDeclared (r : Registry) : Prop :=
  ∀ t e, r.lookup t = some e → (e.aspects.lookup e.keyAspect).isSome

/-- A text that may be the type of an entity. -/
def Urn.IsType (t : String) : Prop := t ≠ "" ∧ ':' ∉ t.toList

/-- References lead to types that entities may have. -/
def Registry.TargetsNamed (r : Registry) : Prop :=
  ∀ t aspect field targets, r.targets? t aspect field = some targets → ∀ t' ∈ targets, Urn.IsType t'

theorem Registry.keysDeclared_of_forall {r : Registry}
    (h : ∀ e ∈ r, (e.2.aspects.lookup e.2.keyAspect).isSome) : r.KeysDeclared := fun _ _ ht =>
  h _ (mem_of_lookup ht)

theorem Registry.targetsNamed_of_forall {r : Registry} (h : ∀ e ∈ r, ∀ a ∈ e.2.aspects,
    ∀ field ∈ a.2.references, ∀ t ∈ field.2, t ≠ "" ∧ ':' ∉ t.toList) : r.TargetsNamed := by
  intro t aspect field targets hf t' ht'
  obtain ⟨spec, hspec, hf⟩ := Option.bind_eq_some_iff.mp hf
  obtain ⟨e, he, hspec⟩ := Option.bind_eq_some_iff.mp hspec
  exact h _ (mem_of_lookup he) _ (mem_of_lookup hspec) _ (mem_of_lookup hf) t' ht'

/-- The entity of a type whose key has a given length. -/
def Urn.ofLength (t : String) (ht : Urn.IsType t) (n : Nat) : Urn where
  entityType := t
  key := String.ofList (List.replicate (n + 1) 'x')
  type_ne := ht.1
  no_colon := ht.2
  key_ne h := by simpa using congrArg String.length h

/-- An envelope from which every time can be derived. -/
def Envelope.observed : Envelope := ⟨.null, some ⟨0, none⟩, some ⟨some "run", some 0⟩⟩

theorem SystemField.derive_observed (f : SystemField) (name : String) :
    (f.derive [(name, .observed)]).isSome := by
  cases f <;> rfl

namespace Path

/-- A conforming store with an entity on which a path has values; the keys of its entities are not
longer than the path. -/
structure Realized (r : Registry) (t : String) (p : Path) (s : Store) (u : Urn) : Prop where
  ordered : s.Ordered
  conforms : s.Conforms r
  typed : u.entityType = t
  known : (s.entity? u).isSome
  found : Resolution.valuesOf r s u p ≠ []
  small : ∀ v, (s.entity? v).isSome → v.key.length ≤ p.length + 1

variable {r : Registry} {t : String} {p : Path}

/-- A new entity with aspects on which the path has values is put into a store. -/
theorem Realized.of_put {s : Store} (hs : s.Ordered) (hc : s.Conforms r)
    (hsmall : ∀ v, (s.entity? v).isSome → v.key.length ≤ p.length) (ht : Urn.IsType t)
    {a : Aspects} (ha : (a.map (·.1)).Pairwise (· < ·))
    (hfields : ∀ aspect field targets e, a.lookup aspect = some e →
      r.targets? t aspect field = some targets → ∀ text ∈ values e.value (ofText field),
        ∀ v, Urn.ofText? text = some v → v.entityType ∈ targets)
    (hfound : ∀ s' : Store, ∀ u : Urn, u.entityType = t → s'.entity? u = some a → s'.Extends s →
      Resolution.valuesOf r s' u p ≠ []) : ∃ s' u, Realized r t p s' u := by
  have hlength : (Urn.ofLength t ht p.length).key.length = p.length + 1 := by simp [Urn.ofLength]
  have hnew : s.entity? (Urn.ofLength t ht p.length) = none := by
    by_contra hold
    have hle := hsmall _ (Option.isSome_iff_ne_none.mpr hold)
    omega
  have hput : (s.putEntity (Urn.ofLength t ht p.length) a).entity? (Urn.ofLength t ht p.length) =
      some a := by
    rw [Store.entity?_putEntity, if_pos rfl]
  refine ⟨_, _, hs.putEntity ha, hc.putEntity hfields, rfl, by rw [hput]; rfl,
    hfound _ _ rfl hput (Store.extends_putEntity hnew), fun v hv => ?_⟩
  rw [Store.entity?_putEntity] at hv
  split_ifs at hv with hvu
  · rw [hvu, hlength]
  · exact (hsmall v hv).trans (Nat.le_succ _)

theorem values_null (s : String) : values .null (ofText s) = [] := by
  rw [values]
  cases h : ofText s with
  | nil => exact absurd h (ofText_ne_nil s)
  | cons seg segs => simp [walk]

theorem lookup_singleton {k j : String} {e d : Envelope} (h : [(k, e)].lookup j = some d) :
    j = k ∧ d = e := by
  have hmem := List.mem_singleton.mp (mem_of_lookup h)
  exact ⟨congrArg Prod.fst hmem, congrArg Prod.snd hmem⟩

section Cases

variable (ht : Urn.IsType t)
include ht

/-- A new entity that is alone in the store. -/
theorem Realized.of_alone {a : Aspects} (ha : (a.map (·.1)).Pairwise (· < ·))
    (hfields : ∀ aspect field targets e, a.lookup aspect = some e →
      r.targets? t aspect field = some targets → ∀ text ∈ values e.value (ofText field),
        ∀ v, Urn.ofText? text = some v → v.entityType ∈ targets)
    (hfound : ∀ s : Store, ∀ u : Urn, u.entityType = t → s.entity? u = some a →
      Resolution.valuesOf r s u p ≠ []) : ∃ s u, Realized r t p s u := by
  have hsmall : ∀ v, (Store.empty.entity? v).isSome → v.key.length ≤ p.length := by
    intro v hv
    cases hv
  exact of_put Store.ordered_empty Store.conforms_empty hsmall ht ha hfields
    fun s u hu hs _ => hfound s u hu hs

theorem Realized.of_name {f : IdentityField} (known : IdentityField.ofPath? p = some f) :
    ∃ s u, Realized r t p s u := by
  refine of_alone ht (a := []) List.Pairwise.nil (fun _ _ _ e he => by cases he) fun s u _ _ => ?_
  rw [Resolution.valuesOf_identity known]
  exact List.cons_ne_nil _ _

/-- The key aspect of the entity tells every time. -/
theorem Realized.of_time (hkeys : r.KeysDeclared) {f : SystemField}
    (unnamed : IdentityField.ofPath? p = none) (unplanned : Plan.of? r t p = none)
    (registered : r.has t = true) (known : SystemField.ofPath? p = some f) :
    ∃ s u, Realized r t p s u := by
  obtain ⟨spec, hspec⟩ := Option.isSome_iff_exists.mp registered
  have hnames : (r.aspectNames t).contains spec.keyAspect = true := by
    obtain ⟨a, ha⟩ := Option.isSome_iff_exists.mp (hkeys t spec hspec)
    rw [Registry.aspectNames, hspec, List.contains_iff_mem]
    exact List.mem_map.mpr ⟨_, mem_of_lookup ha, rfl⟩
  have hfilter : [(spec.keyAspect, Envelope.observed)].filter
      (fun a => (r.aspectNames t).contains a.1) = [(spec.keyAspect, .observed)] := by
    simp only [List.filter_singleton, hnames, cond_true]
  obtain ⟨n, hn⟩ := Option.isSome_iff_exists.mp (f.derive_observed spec.keyAspect)
  refine of_alone ht (a := [(spec.keyAspect, .observed)]) (List.pairwise_singleton _ _) ?_
    fun s u hu hs => ?_
  · intro aspect field targets e he _ text htext
    obtain ⟨-, rfl⟩ := lookup_singleton he
    rw [show Envelope.observed.value = .null from rfl, values_null] at htext
    cases htext
  · rw [Resolution.valuesOf_time unnamed (by rw [hu]; exact unplanned), Resolution.timeOf, known,
      hs, hu]
    dsimp only
    rw [if_pos registered, hfilter, hn]
    exact List.cons_ne_nil _ _

/-- The aspect holds a text at the end of the path. -/
theorem Realized.of_local {a : String} {fs : List String}
    (unnamed : IdentityField.ofPath? p = none) (plan : Plan.of? r t p = some (.local a fs)) :
    ∃ s u, Realized r t p s u := by
  refine of_alone ht (a := [(a, .ofValue (nest fs (.string "x")))]) (List.pairwise_singleton _ _) ?_
    fun s u hu hs => ?_
  · intro aspect field targets e he _ text htext v hv
    obtain ⟨-, rfl⟩ := lookup_singleton he
    obtain ⟨-, rfl⟩ := urn_of_nest htext hv
    cases hv
  · have htexts : Resolution.textsAt s u a fs = ["x"] :=
      (Resolution.textsAt_of_entity? hs List.lookup_cons_self fs).trans (values_nest _ fs)
    rw [Resolution.valuesOf_local unnamed (by rw [hu]; exact plan), htexts]
    exact List.cons_ne_nil _ _

/-- The aspect holds the name of an entity on which the rest of the path has values. -/
theorem Realized.of_hop {t' a : String} {rest : Path} {fs ts : List String} (hp : p.Plain)
    (unnamed : IdentityField.ofPath? p = none) (plan : Plan.of? r t p = some (.hop a fs ts rest))
    (target : t' ∈ ts) {s : Store} {v : Urn} (hs : Realized r t' rest s v) :
    ∃ s u, Realized r t p s u := by
  obtain ⟨hdeclared, -, -, -⟩ := Plan.of?_hop_plain plan hp
  have hlength := (Plan.length_rest plan).2
  refine of_put (a := [(a, .ofValue (nest fs (.string v.text)))]) hs.ordered hs.conforms
    (fun w hw => (hs.small w hw).trans (by omega)) ht (List.pairwise_singleton _ _) ?_
    fun s' u hu hs' hext => ?_
  · -- the only reference field with an entity name is the one that the path hops along
    intro aspect field targets e he htargets text htext w hw
    obtain ⟨rfl, rfl⟩ := lookup_singleton he
    obtain ⟨rfl, rfl⟩ := urn_of_nest htext hw
    rw [Urn.ofText?_text] at hw
    cases hw
    rw [text_ofText, htargets] at hdeclared
    cases hdeclared
    rw [hs.typed]
    exact target
  · obtain ⟨b, hb⟩ := Option.isSome_iff_exists.mp hs.known
    have htexts : Resolution.textsAt s' u a fs = [v.text] :=
      (Resolution.textsAt_of_entity? hs' List.lookup_cons_self fs).trans (values_nest _ fs)
    refine (Resolution.hop_ne_nil_iff unnamed (by rw [hu]; exact plan)).mpr ⟨v, ?_, ?_, ?_⟩
    · rw [htexts]
      exact List.mem_filterMap.mpr ⟨_, List.mem_singleton_self _, Urn.ofText?_text v⟩
    · rw [hext v b hb]
      rfl
    · exact Resolution.valuesOf_ne_nil_of_extends hext hs.found

end Cases

/-- **Each resolvable path has values on some conforming store.** -/
theorem Resolvable.realized (hkeys : r.KeysDeclared) (htargets : r.TargetsNamed)
    (h : Resolvable r t p) : Urn.IsType t → p.Plain → ∃ s u, Realized r t p s u := by
  induction h with
  | name known => exact fun ht _ => Realized.of_name ht known
  | time unnamed unplanned registered known =>
    exact fun ht _ => Realized.of_time ht hkeys unnamed unplanned registered known
  | here unnamed plan => exact fun ht _ => Realized.of_local ht unnamed plan
  | @hop t t' a p rest fs ts unnamed plan target below ih =>
    intro ht hp
    obtain ⟨hdeclared, -, -, hrest⟩ := Plan.of?_hop_plain plan hp
    obtain ⟨s, v, hs⟩ := ih (htargets t a _ ts hdeclared t' target) hrest
    exact Realized.of_hop ht hp unnamed plan target hs

end Path

/-! ### Validation -/

/-- **Validation is sound and complete.** A path is valid on an entity type if and only if some batch
finds a value of it on an entity of the type in a conforming store. -/
theorem validate_iff_resolves (r : Registry) (hkeys : r.KeysDeclared) (htargets : r.TargetsNamed)
    (t : String) (ht : Urn.IsType t) (text : String) (hsegments : "" ∉ Path.ofText text) :
    ((Path.ofText text).validate Evaluator.standard r [t]).valid = true ↔
      ∃ (p : Platform) (u : Urn), p.outages = [] ∧ p.store.Ordered ∧ p.store.Conforms r ∧
        u.entityType = t ∧ (p.store.entity? u).isSome ∧ ∃ us ps res q, u ∈ us ∧
          Path.ofText text ∈ ps ∧ (resolve Evaluator.standard r us ps).run p = (.ok res, q) ∧
          (res.row? u (Path.ofText text)).isSome := by
  have hplain := Path.plain_ofText hsegments
  rw [Path.validate_iff_resolvable hsegments]
  constructor
  · intro h
    obtain ⟨s, u, hs⟩ := h.realized hkeys htargets ht hplain
    obtain ⟨res, q, hrun, -, hres⟩ := (looks_resolve r s [u] [Path.ofText text]).gives
      (p := Platform.ofStore s [] 0) rfl rfl
    refine ⟨.ofStore s [] 0, u, rfl, hs.ordered, hs.conforms, hs.typed, hs.known, [u],
      [Path.ofText text], res, q, List.mem_cons_self, List.mem_cons_self, hrun, ?_⟩
    rw [hres.valid.row?_eq, hres.asked ⟨List.mem_cons_self, List.mem_cons_self⟩, if_neg hs.found]
    rfl
  · rintro ⟨p, u, -, -, hconforms, rfl, -, us, ps, res, q, hu, hpath, hrun, hrow⟩
    obtain ⟨-, hres⟩ := (looks_resolve r p.store us ps).gave rfl hrun
    refine Resolution.resolvable_of_valuesOf hconforms hplain fun hnone => ?_
    rw [hres.valid.row?_eq, hres.asked ⟨hu, hpath⟩, if_pos hnone] at hrow
    cases hrow

/-- In the standard registry a dataset has owners, whose manager may have a name, but no parts. -/
theorem validate_standard :
    Registry.standard.KeysDeclared ∧ Registry.standard.TargetsNamed ∧ Urn.IsType "dataset" ∧
    (∃ (p : Platform) (u : Urn), u.entityType = "dataset" ∧ p.store.Conforms .standard ∧
      ∃ us ps res q, (resolve Evaluator.standard Registry.standard us ps).run p = (.ok res, q) ∧
        (res.row? u ["ownership", "owners", "owner", "corpUserInfo", "managerUrn", "urn"]).isSome) ∧
    ((Path.ofText "ownership.owners.owner.parts").validate Evaluator.standard Registry.standard
      ["dataset"]).valid = false := by
  have hkeys : Registry.standard.KeysDeclared :=
    Registry.keysDeclared_of_forall (by decide +kernel)
  have htargets : Registry.standard.TargetsNamed :=
    Registry.targetsNamed_of_forall (by decide +kernel)
  have ht : Urn.IsType "dataset" := ⟨by decide, by decide⟩
  have hpath : Path.ofText "ownership.owners.owner.corpUserInfo.managerUrn.urn" =
      ["ownership", "owners", "owner", "corpUserInfo", "managerUrn", "urn"] := by decide +kernel
  obtain ⟨p, u, -, -, hconforms, hu, -, us, ps, res, q, -, -, hrun, hrow⟩ :=
    (validate_iff_resolves Registry.standard hkeys htargets "dataset" ht
      "ownership.owners.owner.corpUserInfo.managerUrn.urn" (by decide +kernel)).mp (by decide +kernel)
  rw [hpath] at hrow
  exact ⟨hkeys, htargets, ht, ⟨p, u, hu, hconforms, us, ps, res, q, hrun, hrow⟩, by decide +kernel⟩

end CatalogRules
