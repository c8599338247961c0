import CatalogRules.Proofs.Predicate.Unmark

/-! # The shape of accepted predicates

A node is well shaped (`Predicate.WellShaped`) if its operands are numbered from zero on, if a
logical operator stands over predicates and over as many as it takes, and if any other operator
stands over a property with a path that is not empty, followed by lists of strings. Every node of an
accepted predicate, at every depth, is well shaped and fit for its operator (`Accepted.nodes`). -/

namespace CatalogRules.Predicate

/-- The root is a logical operator over predicates, or it compares a property with lists of
strings. -/
structure WellShaped (p : Predicate) : Prop where
  indices : p.operands.map (·.index) = List.range p.operands.length
  variadic : p.operator = .and ∨ p.operator = .or → p.operands ≠ []
  negation : p.operator = .not → p.operands.length = 1
  logical : p.operator.isLogical = true → ∀ x ∈ p.operands, ∃ q, x.expression = .nested q
  leaf : p.operator.isLogical = false → ∃ path rest, path ≠ "" ∧
    p.operands = ⟨0, some propertyName, .property path⟩ :: rest ∧
    ∀ x ∈ rest, ∃ vs, x.expression = .strings vs

/-! ### Nodes below the root -/

theorem mem_operandNodes {q : Predicate} : ∀ {xs : List (Operand Predicate)},
    q ∈ operandNodes xs → ∃ x ∈ xs, ∃ p, x.expression = .nested p ∧ q ∈ p.nodes
  | ⟨i, name, .nested p⟩ :: xs, h => by
    rcases List.mem_append.mp h with h | h
    · exact ⟨_, List.mem_cons_self, p, rfl, h⟩
    · obtain ⟨x, hx, hq⟩ := mem_operandNodes h
      exact ⟨x, List.mem_cons_of_mem _ hx, hq⟩
  | ⟨_, _, .property _⟩ :: xs, h => by
    obtain ⟨x, hx, hq⟩ := @mem_operandNodes _ xs h
    exact ⟨x, List.mem_cons_of_mem _ hx, hq⟩
  | ⟨_, _, .strings _⟩ :: xs, h => by
    obtain ⟨x, hx, hq⟩ := @mem_operandNodes _ xs h
    exact ⟨x, List.mem_cons_of_mem _ hx, hq⟩

/-- A node is the root, or it is a node of a predicate that the root stands over. -/
theorem mem_nodes {p q : Predicate} (h : q ∈ p.nodes) :
    q = p ∨ ∃ x ∈ p.operands, ∃ p', x.expression = .nested p' ∧ q ∈ p'.nodes := by
  obtain ⟨op, xs, n⟩ := p
  rcases List.mem_cons.mp h with rfl | h
  · exact Or.inl rfl
  · exact Or.inr (mem_operandNodes h)

theorem map_index_literals : ∀ (i : Nat) (params : List (String × List String)),
    (literals i params).map (·.index) = List.range' i (literals i params).length
  | _, [] => rfl
  | i, (name, vs) :: params => by
    rw [literals, List.map_cons, map_index_literals (i + 1) params, List.length_cons,
      List.range'_succ]

theorem map_index_compose (op : Operator) (ps : List Predicate) :
    (compose op ps).operands.map (·.index) = List.range (compose op ps).operands.length := by
  refine List.ext_getElem (by simp) fun i _ _ => ?_
  simp [compose, operands]

namespace Accepted
variable [Pattern.Library]

/-- The root of an accepted predicate is well shaped. -/
theorem wellShaped {p : Predicate} (h : p.Accepted) : p.WellShaped := by
  cases h with
  | @leaf op path params n nonempty distinct fit =>
    have hop : op.isLogical = false := isLogical_of_leaf fit
    refine ⟨?_, fun _ => List.cons_ne_nil _ _, fun hnot => ?_, fun hlogical => ?_, fun _ => ?_⟩
    · show (0 :: (literals 1 params).map (·.index)) = List.range ((literals 1 params).length + 1)
      rw [map_index_literals, List.range_eq_range', List.range'_succ]
    · rw [show op = .not from hnot] at hop
      cases hop
    · rw [show op.isLogical = true from hlogical] at hop
      cases hop
    · exact ⟨path, literals 1 params, nonempty, rfl, fun _ => mem_literals⟩
  | @logical op ps n fit below =>
    have hlength : (compose op ps).operands.length = ps.length := by simp [compose, operands]
    have hne : (compose op ps).operands ≠ [] := by
      rw [← List.length_pos_iff, hlength, List.length_pos_iff]
      rcases logical_of_compose fit with ⟨-, hne⟩ | ⟨-, p, rfl⟩
      · exact hne
      · exact List.cons_ne_nil _ _
    refine ⟨map_index_compose op ps, fun _ => hne, fun hnot => ?_, fun _ x hx => ?_, fun hleaf => ?_⟩
    · refine hlength.trans ?_
      rw [show op = .not from hnot] at fit
      rcases logical_of_compose fit with ⟨hop | hop, -⟩ | ⟨-, p, rfl⟩
      · cases hop
      · cases hop
      · rfl
    · have hx : x ∈ (compose op ps).operands := hx
      obtain ⟨p, -, hp⟩ := mem_compose hx
      exact ⟨p, hp⟩
    · rcases logical_of_compose fit with ⟨rfl | rfl, -⟩ | ⟨rfl, -⟩
      all_goals cases hleaf

theorem check {p : Predicate} (h : p.Accepted) : p.check = .ok () := by
  cases h with
  | leaf _ _ fit => exact fit
  | logical fit _ => exact fit

/-- Every node of an accepted predicate is accepted. -/
theorem of_mem_nodes {p q : Predicate} (h : p.Accepted) (hq : q ∈ p.nodes) : q.Accepted := by
  induction h with
  | leaf nonempty distinct fit =>
    rcases mem_nodes hq with rfl | ⟨x, hx, p', hp', -⟩
    · exact .leaf nonempty distinct fit
    · rcases List.mem_cons.mp hx with rfl | hx
      · cases hp'
      · obtain ⟨vs, hvs⟩ := mem_literals hx
        rw [hvs] at hp'
        cases hp'
  | @logical op ps n fit below ih =>
    rcases mem_nodes hq with rfl | ⟨x, hx, p', hp', hq⟩
    · exact .logical fit below
    · have hx : x ∈ (compose op ps).operands := hx
      obtain ⟨p, hp, he⟩ := mem_compose hx
      rw [he] at hp'
      cases hp'
      exact ih _ hp hq

/-- **Every node of an accepted predicate is well shaped and fit for its operator.** -/
theorem nodes {p : Predicate} (h : p.Accepted) :
    ∀ q ∈ p.nodes, q.check = .ok () ∧ q.WellShaped := fun _ hq =>
  ⟨(h.of_mem_nodes hq).check, (h.of_mem_nodes hq).wellShaped⟩

end Accepted
end CatalogRules.Predicate
