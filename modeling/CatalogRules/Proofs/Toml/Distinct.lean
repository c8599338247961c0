import CatalogRules.Proofs.Toml.Paths
import CatalogRules.Toml.Document
import Mathlib.Tactic.SplitIfs

/-! # Distinct keys in documents

A document writes a map of maps: no table has two fields of one name (`Value.Distinct`). Reading
keeps the tables under construction so (`Fields.Distinct`), because a field is only ever put under
its key: a step into a table, which makes the tables on its way, preserves it if what is done at the
end of the way does (`Fields.Distinct.edit`), and so do headers, keys with values, lines and whole
documents. The main statement is `distinct_of_ofText?`. -/

namespace CatalogRules.Toml

/-! ### Tables under construction -/

/-- No table under construction at or below the node, those in lists apart, has two fields of one
name. -/
inductive Node.Distinct : Node → Prop
  | value {v : Value} (h : v.Distinct) : (Node.value v).Distinct
  | table {origin : Origin} {fs : Fields} (hkeys : (fs.map (·.1)).Nodup)
      (hnodes : ∀ e ∈ fs, e.2.Distinct) : (Node.table origin fs).Distinct
  | tables {closed : List Fields} {last : Fields} : (Node.tables closed last).Distinct

/-- The fields have distinct names, and so have those of the tables below them. -/
structure Fields.Distinct (fs : Fields) : Prop where
  keys : (fs.map (·.1)).Nodup
  nodes : ∀ e ∈ fs, e.2.Distinct

theorem Node.toFields_eq_map : ∀ fs : Fields, toFields fs = fs.map fun e => (e.1, toValue e.2)
  | [] => rfl
  | (k, n) :: fs => by rw [toFields, toFields_eq_map fs, List.map_cons]

/-- A finished table has the names that it had under construction. -/
theorem Node.Distinct.toValue {n : Node} (h : n.Distinct) : n.toValue.Distinct := by
  induction h with
  | value h => exact h
  | @table origin fs hkeys _ ih =>
    rw [Node.toValue, Node.toFields_eq_map]
    refine .table (by rw [List.map_map]; exact hkeys) fun e he => ?_
    obtain ⟨f, hf, rfl⟩ := List.mem_map.mp he
    exact ih f hf
  | tables => exact .plain nofun

namespace Fields

theorem Distinct.nil : Distinct [] := ⟨List.nodup_nil, nofun⟩

theorem Distinct.toTable {fs : Fields} (h : Distinct fs) :
    (Value.table (Node.toFields fs)).Distinct := by
  have hn : (Node.table .header fs).Distinct := .table h.keys h.nodes
  simpa only [Node.toValue] using hn.toValue

theorem Distinct.put {fs : Fields} (h : Distinct fs) (k : String) {n : Node} (hn : n.Distinct) :
    Distinct (Keyed.put k n fs) := by
  refine ⟨Keyed.nodup_put k n h.keys, fun e he => ?_⟩
  rcases Keyed.mem_put he with rfl | he
  · exact hn
  · exact h.nodes e he

theorem Distinct.below {fs sub : Fields} {origin : Origin} {k : String} (h : Distinct fs)
    (hk : fs.lookup k = some (.table origin sub)) : Distinct sub := by
  have hn : (Node.table origin sub).Distinct := h.nodes _ (mem_of_lookup hk)
  cases hn with
  | table hkeys hnodes => exact ⟨hkeys, hnodes⟩

/-! ### Steps of the construction -/

/-- A change of a table that keeps the names of fields distinct. -/
def Preserves (f : Origin → Fields → Option Fields) : Prop :=
  ∀ origin fs after, Distinct fs → f origin fs = some after → Distinct after

/-- A change at the end of a path is a change of the table where the path begins. -/
theorem Preserves.edit {f : Origin → Fields → Option Fields} (hf : Preserves f) (viaKey : Bool) :
    ∀ path, Preserves (Fields.edit viaKey f path)
  | [], origin, fs, after, hd, h => hf origin fs after hd h
  | k :: ks, _, fs, after, hd, h => by
    have ih := hf.edit viaKey ks
    rw [Fields.edit] at h
    split at h
    · obtain ⟨sub, hsub, rfl⟩ : ∃ sub, Fields.edit viaKey f ks _ [] = some sub ∧ _ = after := by
        simpa [Option.bind_eq_some_iff] using h
      have hsub := ih _ _ _ .nil hsub
      exact hd.put k (.table hsub.keys hsub.nodes)
    · simp at h
    · next origin sub hk =>
      split_ifs at h
      obtain ⟨new, hnew, rfl⟩ :
          ∃ new, Fields.edit viaKey f ks origin sub = some new ∧ _ = after := by
        simpa [Option.bind_eq_some_iff] using h
      have hnew := ih _ _ _ (hd.below hk) hnew
      exact hd.put k (.table hnew.keys hnew.nodes)
    · obtain ⟨new, -, rfl⟩ : ∃ new, Fields.edit viaKey f ks .header _ = some new ∧ _ = after := by
        simpa [Option.bind_eq_some_iff] using h
      exact hd.put k .tables

theorem preserves_openTable (k : String) : Preserves (openTable k) := by
  intro origin fs after hd h
  unfold openTable at h
  split at h
  · cases h
    exact hd.put k (.table List.nodup_nil nofun)
  · next hk =>
    cases h
    have hsub := hd.below hk
    exact hd.put k (.table hsub.keys hsub.nodes)
  · cases h

theorem preserves_openNext (k : String) : Preserves (openNext k) := by
  intro origin fs after hd h
  unfold openNext at h
  split at h
  all_goals cases h
  all_goals exact hd.put k .tables

theorem preserves_assign (isDotted : Bool) (k : String) {v : Value} (hv : v.Distinct) :
    Preserves (assign isDotted k v) := by
  intro origin fs after hd h
  unfold assign at h
  split_ifs at h
  cases h
  exact hd.put k (.value hv)

theorem preserves_put? (key : List String) {v : Value} (hv : v.Distinct) :
    Preserves (put? key v) := by
  intro origin fs after hd h
  obtain ⟨⟨before, k⟩, -, h⟩ := Option.bind_eq_some_iff.mp h
  exact (preserves_assign _ k hv).edit true before origin fs after hd h

end Fields

/-! ### Values -/

theorem distinct_integer? {n : Int} {v : Value} (h : integer? n = some v) : v.Distinct := by
  unfold integer? at h
  split_ifs at h
  cases h
  exact .plain nofun

theorem distinct_based? {base : Nat} {cs : List Char} {v : Value} (h : based? base cs = some v) :
    v.Distinct := by
  obtain ⟨ds, -, h⟩ := Option.bind_eq_some_iff.mp h
  exact distinct_integer? h

theorem distinct_float? {minus : Bool} {whole part : List Char} {exponent : Int} {v : Value}
    (h : float? minus whole part exponent = some v) : v.Distinct := by
  obtain ⟨x, -, h⟩ := Option.bind_eq_some_iff.mp h
  cases h
  exact .plain nofun

theorem distinct_unsigned? {minus : Bool} {cs : List Char} {v : Value}
    (h : unsigned? minus cs = some v) : v.Distinct := by
  obtain ⟨whole, -, h⟩ := Option.bind_eq_some_iff.mp h
  split at h
  · exact distinct_integer? h
  · obtain ⟨part, -, h⟩ := Option.bind_eq_some_iff.mp h
    split at h
    · exact distinct_float? h
    · obtain ⟨e, -, h⟩ := Option.bind_eq_some_iff.mp h
      exact distinct_float? h
  · obtain ⟨e, -, h⟩ := Option.bind_eq_some_iff.mp h
    exact distinct_float? h

theorem distinct_number? {cs : List Char} {v : Value} (h : number? cs = some v) : v.Distinct := by
  unfold number? at h
  split at h
  · exact distinct_based? h
  · exact distinct_based? h
  · exact distinct_based? h
  · dsimp only at h
    split_ifs at h
    · cases h
      exact .plain nofun
    · cases h
      exact .plain nofun
    · exact distinct_unsigned? h

theorem distinct_scalarValue? {cs : List Char} {v : Value} (h : scalarValue? cs = some v) :
    v.Distinct := by
  unfold scalarValue? at h
  split_ifs at h
  · cases h
    exact .plain nofun
  · cases h
    exact .plain nofun
  · split at h
    · cases h
      exact .plain nofun
    · exact distinct_number? h

mutual

theorem distinct_value? : ∀ {fuel : Nat} {cs : List Char} {v : Value} {rest : List Char},
    value? fuel cs = some (v, rest) → v.Distinct
  | 0, _, _, _, h => by
    rw [value?] at h
    cases h
  | fuel + 1, cs, v, rest, h => by
    rw [value?.eq_def] at h
    dsimp only at h
    split at h
    · cases h
    · obtain ⟨⟨items, _⟩, -, h⟩ := Option.bind_eq_some_iff.mp h
      cases h
      exact .plain nofun
    · split at h
      · cases h
        exact Value.distinct_empty
      · obtain ⟨⟨fs, _⟩, hfs, h⟩ := Option.bind_eq_some_iff.mp h
        cases h
        exact (distinct_fields? .nil hfs).toTable
    · split_ifs at h
      · obtain ⟨⟨s, _⟩, -, h⟩ := Option.bind_eq_some_iff.mp h
        cases h
        exact .plain nofun
      · obtain ⟨w, hw, h⟩ := Option.bind_eq_some_iff.mp h
        cases h
        exact distinct_scalarValue? hw

theorem distinct_fields? : ∀ {fuel : Nat} {done fs : Fields} {cs rest : List Char},
    Fields.Distinct done → fields? fuel done cs = some (fs, rest) → Fields.Distinct fs
  | 0, _, _, _, _, _, h => by
    rw [fields?] at h
    cases h
  | fuel + 1, done, fs, cs, rest, hd, h => by
    rw [fields?] at h
    obtain ⟨⟨key, cs⟩, -, h⟩ := Option.bind_eq_some_iff.mp h
    dsimp only at h
    split at h
    · obtain ⟨⟨v, _⟩, hv, h⟩ := Option.bind_eq_some_iff.mp h
      obtain ⟨new, hnew, h⟩ := Option.bind_eq_some_iff.mp h
      have hd := Fields.preserves_put? key (distinct_value? hv) _ _ _ hd hnew
      dsimp only at h
      split at h
      · exact distinct_fields? hd h
      · cases h
        exact hd
      · cases h
    · cases h

end

/-! ### Documents -/

theorem distinct_enter? {p q : Progress} {key : List String}
    {f : String → Origin → Fields → Option Fields} (hf : ∀ k, Fields.Preserves (f k))
    (hd : Fields.Distinct p.root) (h : p.enter? key f = some q) : Fields.Distinct q.root := by
  obtain ⟨⟨before, k⟩, -, h⟩ := Option.bind_eq_some_iff.mp h
  obtain ⟨root, hroot, h⟩ := Option.bind_eq_some_iff.mp h
  cases h
  exact (hf k).edit false before _ _ _ hd hroot

theorem distinct_assign? {p q : Progress} {key : List String} {v : Value} (hv : v.Distinct)
    (hd : Fields.Distinct p.root) (h : p.assign? key v = some q) : Fields.Distinct q.root := by
  obtain ⟨root, hroot, h⟩ := Option.bind_eq_some_iff.mp h
  cases h
  exact (Fields.preserves_put? key hv).edit false p.header _ _ _ hd hroot

/-- A line changes the tables by a header, by a key with its value, or not at all. -/
theorem distinct_line? {p q : Progress} {cs rest : List Char} (hd : Fields.Distinct p.root)
    (h : line? p cs = some (q, rest)) : Fields.Distinct q.root := by
  have hend : ∀ {r : Progress} {cs}, Fields.Distinct r.root →
      ((lineEnd? cs).bind fun after => some (r, after)) = some (q, rest) →
      Fields.Distinct q.root := by
    intro r cs hd h
    obtain ⟨after, -, h⟩ := Option.bind_eq_some_iff.mp h
    cases h
    exact hd
  unfold line? at h
  dsimp only at h
  split at h
  · obtain ⟨⟨key, _⟩, -, h⟩ := Option.bind_eq_some_iff.mp h
    dsimp only at h
    split at h
    · obtain ⟨r, hr, h⟩ := Option.bind_eq_some_iff.mp h
      exact hend (distinct_enter? Fields.preserves_openNext hd hr) h
    · cases h
  · obtain ⟨⟨key, _⟩, -, h⟩ := Option.bind_eq_some_iff.mp h
    dsimp only at h
    split at h
    · obtain ⟨r, hr, h⟩ := Option.bind_eq_some_iff.mp h
      exact hend (distinct_enter? Fields.preserves_openTable hd hr) h
    · cases h
  · split_ifs at h
    · exact hend hd h
    · obtain ⟨⟨key, _⟩, -, h⟩ := Option.bind_eq_some_iff.mp h
      dsimp only at h
      split at h
      · obtain ⟨⟨v, _⟩, hv, h⟩ := Option.bind_eq_some_iff.mp h
        obtain ⟨r, hr, h⟩ := Option.bind_eq_some_iff.mp h
        exact hend (distinct_assign? (distinct_value? hv) hd hr) h
      · cases h

theorem distinct_lines {fuel : Nat} {p q : Progress} {cs : List Char} (hd : Fields.Distinct p.root)
    (h : lines fuel p cs = some q) : Fields.Distinct q.root := by
  induction fuel generalizing p cs with
  | zero => cases h
  | succ fuel ih =>
    cases cs with
    | nil =>
      cases h
      exact hd
    | cons c cs =>
      obtain ⟨⟨r, rest⟩, hr, h⟩ := Option.bind_eq_some_iff.mp h
      exact ih (distinct_line? hd hr) h

/-- **No table that a document writes has two fields of one name**, tables in arrays apart. -/
theorem distinct_of_ofText? {text : String} {v : Value} (h : ofText? text = some v) :
    v.Distinct := by
  obtain ⟨p, hp, h⟩ := Option.bind_eq_some_iff.mp h
  cases h
  exact (distinct_lines .nil hp).toTable

end CatalogRules.Toml
