import CatalogRules.Proofs.Collections
import CatalogRules.Resolution.Resolve

/-! # Requests

Requests ask for paths on entities (`Requests.Asks`). They are kept by entity type; in valid
requests the types, the entities and the paths are in order, and the entities are of the type they
are kept under (`Requests.Valid`). All requests are made by adding an entity with some paths after
the other (`Requests.addAll`): what was added is asked for (`asks_addAll`), and nothing is asked for
that was not added (`Within.addAll`). -/

namespace CatalogRules.Requests

/-- The types, entities and paths are in order, the entities are of their type. -/
structure Valid (rs : Requests) : Prop where
  types : (rs.map (·.1)).Pairwise (· < ·)
  urns : ∀ e ∈ rs, e.2.urns.Pairwise (· < ·)
  typed : ∀ e ∈ rs, ∀ u ∈ e.2.urns, u.entityType = e.1
  paths : ∀ e ∈ rs, e.2.paths.Pairwise (· < ·)

/-- The path is asked for on the entity. -/
def Asks (rs : Requests) (u : Urn) (p : Path) : Prop :=
  ∃ q, rs.lookup u.entityType = some q ∧ u ∈ q.urns ∧ p ∈ q.paths

/-- Nothing is asked for but some paths on some entities. -/
def Within (rs : Requests) (U : Urn → Prop) (P : Path → Prop) : Prop :=
  ∀ e ∈ rs, (∀ u ∈ e.2.urns, U u) ∧ ∀ p ∈ e.2.paths, P p

variable {rs : Requests} {u : Urn} {p : Path} {U : Urn → Prop} {P : Path → Prop}

theorem Valid.nil : Valid [] := ⟨List.Pairwise.nil, by simp, by simp, by simp⟩

theorem Within.of_asks (h : rs.Within U P) (ha : rs.Asks u p) : U u ∧ P p := by
  obtain ⟨q, hq, hu, hp⟩ := ha
  have hm := h _ (mem_of_lookup hq)
  exact ⟨hm.1 u hu, hm.2 p hp⟩

/-! ### Adding an entity -/

/-- The request of a type before an addition. -/
def before (rs : Requests) (entityType : String) : Request :=
  (rs.lookup entityType).getD ⟨[], []⟩

theorem lookup_add (t j : String) (us : List Urn) (ps : List Path) :
    (rs.add t us ps).lookup j = if j = t then
      some ⟨us.foldl (fun s u => Sorted.insert u s) (rs.before t).urns,
        ps.foldl (fun s p => Sorted.insert p s) (rs.before t).paths⟩
    else rs.lookup j :=
  Sorted.lookup_alter t j _ rs

theorem mem_add {t : String} {us : List Urn} {ps : List Path} {e : String × Request}
    (h : e ∈ rs.add t us ps) :
    e = (t, ⟨us.foldl (fun s u => Sorted.insert u s) (rs.before t).urns,
      ps.foldl (fun s p => Sorted.insert p s) (rs.before t).paths⟩) ∨ e ∈ rs :=
  Sorted.mem_put h

/-- What holds of each request holds of the one before an addition, which may be empty. -/
theorem before_of_forall {C : String × Request → Prop} (h : ∀ e ∈ rs, C e) {t : String}
    (h0 : C (t, ⟨[], []⟩)) : C (t, rs.before t) := by
  unfold before
  cases hq : rs.lookup t with
  | none => exact h0
  | some q => exact h _ (mem_of_lookup hq)

theorem Valid.add (h : rs.Valid) (u : Urn) (ps : List Path) :
    (rs.add u.entityType [u] ps).Valid := by
  refine ⟨Sorted.pairwise_alter _ _ h.types, fun e he => ?_, fun e he => ?_, fun e he => ?_⟩
  · rcases mem_add he with rfl | he
    · refine Sorted.pairwise_foldl_insert [u] ?_
      exact before_of_forall (C := fun e => e.2.urns.Pairwise (· < ·)) h.urns List.Pairwise.nil
    · exact h.urns e he
  · rcases mem_add he with rfl | he
    · intro v hv
      rcases Sorted.mem_foldl_insert.mp hv with hv | hv
      · rw [List.mem_singleton.mp hv]
      · exact before_of_forall (C := fun e => ∀ v ∈ e.2.urns, v.entityType = e.1) h.typed
          (by simp) v hv
    · exact h.typed e he
  · rcases mem_add he with rfl | he
    · refine Sorted.pairwise_foldl_insert ps ?_
      exact before_of_forall (C := fun e => e.2.paths.Pairwise (· < ·)) h.paths List.Pairwise.nil
    · exact h.paths e he

theorem Within.add (h : rs.Within U P) {ps : List Path} (hu : U u) (hp : ∀ p ∈ ps, P p) :
    (rs.add u.entityType [u] ps).Within U P := by
  intro e he
  rcases mem_add he with rfl | he
  · have hb := before_of_forall (t := u.entityType)
      (C := fun e => (∀ u ∈ e.2.urns, U u) ∧ ∀ p ∈ e.2.paths, P p) h (by simp)
    refine ⟨fun v hv => ?_, fun q hq => ?_⟩
    · rcases Sorted.mem_foldl_insert.mp hv with hv | hv
      · rw [List.mem_singleton.mp hv]; exact hu
      · exact hb.1 v hv
    · rcases Sorted.mem_foldl_insert.mp hq with hq | hq
      · exact hp q hq
      · exact hb.2 q hq
  · exact h e he

theorem asks_add_self {ps : List Path} (hp : p ∈ ps) : (rs.add u.entityType [u] ps).Asks u p := by
  refine ⟨_, by rw [lookup_add, if_pos rfl], ?_, ?_⟩
  · exact Sorted.mem_foldl_insert.mpr (Or.inl (List.mem_singleton.mpr rfl))
  · exact Sorted.mem_foldl_insert.mpr (Or.inl hp)

theorem Asks.add (h : rs.Asks u p) (v : Urn) (ps : List Path) :
    (rs.add v.entityType [v] ps).Asks u p := by
  obtain ⟨q, hq, hu, hp⟩ := h
  by_cases ht : u.entityType = v.entityType
  · have hb : rs.before v.entityType = q := by
      unfold before
      rw [← ht, hq]
      rfl
    refine ⟨_, by rw [lookup_add, if_pos ht], ?_, ?_⟩
    · exact Sorted.mem_foldl_insert.mpr (Or.inr (by rw [hb]; exact hu))
    · exact Sorted.mem_foldl_insert.mpr (Or.inr (by rw [hb]; exact hp))
  · exact ⟨q, by rw [lookup_add, if_neg ht, hq], hu, hp⟩

/-! ### Adding many -/

/-- Adds entities with their paths one after the other. -/
def addAll (rs : Requests) (wanted : List (Urn × List Path)) : Requests :=
  wanted.foldl (fun rs w => rs.add w.1.entityType [w.1] w.2) rs

theorem Valid.addAll (h : rs.Valid) (wanted : List (Urn × List Path)) :
    (rs.addAll wanted).Valid := by
  induction wanted generalizing rs with
  | nil => exact h
  | cons w wanted ih => exact ih (h.add w.1 w.2)

theorem Within.addAll (h : rs.Within U P) {wanted : List (Urn × List Path)}
    (hw : ∀ w ∈ wanted, U w.1 ∧ ∀ p ∈ w.2, P p) : (rs.addAll wanted).Within U P := by
  induction wanted generalizing rs with
  | nil => exact h
  | cons w wanted ih =>
    have hw0 := hw w List.mem_cons_self
    exact ih (h.add hw0.1 hw0.2) fun x hx => hw x (List.mem_cons_of_mem _ hx)

theorem Asks.addAll (h : rs.Asks u p) (wanted : List (Urn × List Path)) :
    (rs.addAll wanted).Asks u p := by
  induction wanted generalizing rs with
  | nil => exact h
  | cons w wanted ih => exact ih (h.add w.1 w.2)

theorem asks_addAll {wanted : List (Urn × List Path)} {ps : List Path} (hw : (u, ps) ∈ wanted)
    (hp : p ∈ ps) : (rs.addAll wanted).Asks u p := by
  induction wanted generalizing rs with
  | nil => simp at hw
  | cons w wanted ih =>
    rcases List.mem_cons.mp hw with rfl | hw
    · exact Asks.addAll (asks_add_self hp) wanted
    · exact ih hw

/-! ### The requests for some paths on some entities -/

theorem ofUrns_eq_addAll (us : List Urn) (ps : List Path) :
    ofUrns us ps = addAll [] (us.map fun u => (u, ps)) := by
  unfold ofUrns addAll
  rw [List.foldl_map]

theorem Valid.ofUrns (us : List Urn) (ps : List Path) : (Requests.ofUrns us ps).Valid := by
  rw [ofUrns_eq_addAll]
  exact Valid.nil.addAll _

theorem within_ofUrns (us : List Urn) (ps : List Path) :
    (ofUrns us ps).Within (· ∈ us) (· ∈ ps) := by
  rw [ofUrns_eq_addAll]
  refine Within.addAll (by simp [Within]) fun w hw => ?_
  obtain ⟨v, hv, rfl⟩ := List.mem_map.mp hw
  exact ⟨hv, fun q hq => hq⟩

/-- **Every path is asked for on every entity, and nothing else is.** -/
theorem asks_ofUrns {us : List Urn} {ps : List Path} :
    (ofUrns us ps).Asks u p ↔ u ∈ us ∧ p ∈ ps := by
  refine ⟨(within_ofUrns us ps).of_asks, fun h => ?_⟩
  rw [ofUrns_eq_addAll]
  exact asks_addAll (List.mem_map.mpr ⟨u, h.1, rfl⟩) h.2

/-! ### The longest path -/

theorem le_foldl_max {ι : Type} (f : ι → Nat) (l : List ι) (n : Nat) :
    n ≤ l.foldl (fun n i => max n (f i)) n ∧ ∀ i ∈ l, f i ≤ l.foldl (fun n i => max n (f i)) n := by
  induction l generalizing n with
  | nil => simp
  | cons i l ih =>
    obtain ⟨h1, h2⟩ := ih (max n (f i))
    simp only [List.foldl_cons, List.mem_cons, forall_eq_or_imp]
    exact ⟨by omega, by omega, h2⟩

theorem length_le_longest : ∀ e ∈ rs, ∀ p ∈ e.2.paths, p.length ≤ rs.longest := by
  intro e he p hp
  have hpooled : rs.longest =
      (rs.flatMap (·.2.paths)).foldl (fun n p => max n p.length) 0 := by
    rw [List.foldl_flatMap]
    rfl
  have hmem : p ∈ rs.flatMap (·.2.paths) := List.mem_flatMap.mpr ⟨e, he, hp⟩
  rw [hpooled]
  exact (le_foldl_max List.length _ 0).2 p hmem

end CatalogRules.Requests
