import CatalogRules.Json.Document
import CatalogRules.Json.Writer
import CatalogRules.Proofs.Json.Distinct

/-! # Reading what was written

The compact text of a value without numbers is read as the document of the value
(`Document.read?_text`): each character of a string is read back (`Document.pieces?_escape`), and
the values, items and fields are read in the order in which they are written (`value?_write`,
`items?_write`, `fields?_write`). This document is taken as the value again if it is not nested too
deep (`Document.toValue?_ofValue`). So the text is read back if and only if the value has no more
levels than the reader allows (`Value.Textual.ofText?_text`). -/

namespace CatalogRules.Json

/-! ### Numbers and levels in a value -/

mutual

/-- There are no numbers in the value. -/
def Value.Numberless : Value → Prop
  | .number _ => False
  | .array items => NumberlessItems items
  | .object fields => NumberlessFields fields
  | _ => True

/-- There are no numbers in the items. -/
def NumberlessItems : List Value → Prop
  | [] => True
  | v :: vs => v.Numberless ∧ NumberlessItems vs

/-- There are no numbers in the values of the fields. -/
def NumberlessFields : List (String × Value) → Prop
  | [] => True
  | (_, v) :: fs => v.Numberless ∧ NumberlessFields fs

end

mutual

/-- The number of nested arrays and objects of a value. -/
def Value.levels : Value → Nat
  | .array items => levelsOfItems items + 1
  | .object fields => levelsOfFields fields + 1
  | _ => 0

/-- The greatest number of levels of an item. -/
def levelsOfItems : List Value → Nat
  | [] => 0
  | v :: vs => max v.levels (levelsOfItems vs)

/-- The greatest number of levels of the value of a field. -/
def levelsOfFields : List (String × Value) → Nat
  | [] => 0
  | (_, v) :: fs => max v.levels (levelsOfFields fs)

end

theorem levelsOfItems_le_iff {n : Nat} : ∀ {vs : List Value},
    levelsOfItems vs ≤ n ↔ ∀ v ∈ vs, v.levels ≤ n
  | [] => by simp [levelsOfItems]
  | v :: vs => by
    rw [levelsOfItems, Nat.max_le, levelsOfItems_le_iff, List.forall_mem_cons]

theorem levelsOfFields_le_iff {n : Nat} : ∀ {fs : List (String × Value)},
    levelsOfFields fs ≤ n ↔ ∀ f ∈ fs, f.2.levels ≤ n
  | [] => by simp [levelsOfFields]
  | (k, v) :: fs => by
    rw [levelsOfFields, Nat.max_le, levelsOfFields_le_iff, List.forall_mem_cons]

namespace Value

/-- The value has distinct keys and no numbers. -/
structure Textual (v : Value) : Prop where
  distinct : v.Distinct
  numberless : v.Numberless

theorem textual_string (s : String) : (Value.string s).Textual := ⟨trivial, trivial⟩

theorem textual_array : ∀ {vs : List Value}, (∀ v ∈ vs, v.Textual) → (Value.array vs).Textual
  | [], _ => ⟨trivial, trivial⟩
  | v :: vs, h => by
    obtain ⟨hv, hvs⟩ := List.forall_mem_cons.mp h
    have hrest := textual_array hvs
    exact ⟨⟨hv.distinct, hrest.distinct⟩, hv.numberless, hrest.numberless⟩

theorem numberlessFields_iff : ∀ {fs : List (String × Value)},
    NumberlessFields fs ↔ ∀ f ∈ fs, f.2.Numberless
  | [] => by simp [NumberlessFields]
  | (k, v) :: fs => by rw [NumberlessFields, numberlessFields_iff, List.forall_mem_cons]

theorem textual_object {fs : List (String × Value)} (hkeys : (fs.map (·.1)).Nodup)
    (h : ∀ f ∈ fs, f.2.Textual) : (Value.object fs).Textual :=
  ⟨⟨hkeys, distinctFields_iff.mpr fun f hf => (h f hf).distinct⟩,
    numberlessFields_iff.mpr fun f hf => (h f hf).numberless⟩

theorem textual_ofStrings (ss : List String) : (ofStrings ss).Textual :=
  textual_array fun v hv => by
    obtain ⟨s, -, rfl⟩ := List.mem_map.mp hv
    exact textual_string s

theorem levels_array_le {n : Nat} {vs : List Value} (h : ∀ v ∈ vs, v.levels ≤ n) :
    (Value.array vs).levels ≤ n + 1 :=
  Nat.succ_le_succ (levelsOfItems_le_iff.mpr h)

theorem levels_object_le {n : Nat} {fs : List (String × Value)} (h : ∀ f ∈ fs, f.2.levels ≤ n) :
    (Value.object fs).levels ≤ n + 1 :=
  Nat.succ_le_succ (levelsOfFields_le_iff.mpr h)

theorem levels_ofStrings_le (ss : List String) : (ofStrings ss).levels ≤ 1 :=
  levels_array_le fun v hv => by
    obtain ⟨s, -, rfl⟩ := List.mem_map.mp hv
    exact le_refl 0

end Value

namespace Document

/-! ### Strings -/

/-- What a written character is read as: control characters without a letter are written by number. -/
def piece (c : Char) : Piece := if (escape c).length = 6 then .unit c.toNat else .char c

theorem hex4?_hexDigit : ∀ n < 0x20, hex4? '0' '0' (hexDigit (n / 16)) (hexDigit (n % 16)) = some n := by
  decide

/-- Any other character than a quote and a backslash stands for itself. -/
theorem pieces?_cons {c : Char} (hc : 0x20 ≤ c.toNat) (hquote : c ≠ '"') (hback : c ≠ '\\')
    (cs : List Char) :
    pieces? (c :: cs) = (pieces? cs).map fun p => (.char c :: p.1, p.2) := by
  rw [pieces?.eq_def]
  split
  · next h => cases h
  · next h => exact absurd (List.cons.inj h).1 hquote
  · next h => exact absurd (List.cons.inj h).1 hback
  · next h => exact absurd (List.cons.inj h).1 hback
  · next h =>
    obtain ⟨rfl, rfl⟩ := List.cons.inj h
    rw [if_neg (by simp only [hback, or_false]; omega)]
    exact Option.map_eq_bind.symm

/-- A backslash and a letter stand for a character. -/
theorem pieces?_simple {e d : Char} (he : e ≠ 'u') (hd : simpleEscape? e = some d)
    (cs : List Char) :
    pieces? ('\\' :: e :: cs) = (pieces? cs).map fun p => (.char d :: p.1, p.2) := by
  rw [pieces?.eq_def]
  split
  · next h => cases h
  · next h => cases (List.cons.inj h).1
  · next h => exact absurd (List.cons.inj (List.cons.inj h).2).1 he
  · next h =>
    obtain ⟨rfl, rfl⟩ := List.cons.inj (List.cons.inj h).2
    rw [hd]
    exact Option.map_eq_bind.symm
  · next hno h =>
    cases h
    exact (hno _ _ rfl rfl).elim

/-- Four hexadecimal digits stand for a character by its number. -/
theorem pieces?_unit {n : Nat} (hn : n < 0x20) (cs : List Char) :
    pieces? ('\\' :: 'u' :: '0' :: '0' :: hexDigit (n / 16) :: hexDigit (n % 16) :: cs) =
      (pieces? cs).map fun p => (.unit n :: p.1, p.2) := by
  rw [pieces?, hex4?_hexDigit n hn]
  exact Option.map_eq_bind.symm

/-- A control character is written by a letter or by its number. -/
theorem escape_control {c : Char} (hlow : c.toNat < 0x20) :
    (∃ e, e ≠ 'u' ∧ simpleEscape? e = some c ∧ escape c = ['\\', e]) ∨
    escape c = ['\\', 'u', '0', '0', hexDigit (c.toNat / 16), hexDigit (c.toNat % 16)] := by
  have hquote : c ≠ '"' := by
    rintro rfl
    exact absurd hlow (by decide)
  have hback : c ≠ '\\' := by
    rintro rfl
    exact absurd hlow (by decide)
  have hletter : ∀ {n e}, c.toNat = n → simpleEscape? e = some (Char.ofNat n) →
      simpleEscape? e = some c := by
    rintro _ e rfl he
    rwa [Char.ofNat_toNat] at he
  rw [escape, if_neg hquote, if_neg hback, if_pos hlow]
  split_ifs with hb ht hn hf hr
  · exact Or.inl ⟨'b', by decide, hletter hb rfl, rfl⟩
  · exact Or.inl ⟨'t', by decide, hletter ht rfl, rfl⟩
  · exact Or.inl ⟨'n', by decide, hletter hn rfl, rfl⟩
  · exact Or.inl ⟨'f', by decide, hletter hf rfl, rfl⟩
  · exact Or.inl ⟨'r', by decide, hletter hr rfl, rfl⟩
  · exact Or.inr rfl

/-- **A written character is read back.** -/
theorem pieces?_escape (c : Char) (cs : List Char) :
    pieces? (escape c ++ cs) = (pieces? cs).map fun p => (piece c :: p.1, p.2) := by
  by_cases hquote : c = '"'
  · subst hquote
    exact pieces?_simple (by decide) rfl cs
  by_cases hback : c = '\\'
  · subst hback
    exact pieces?_simple (by decide) rfl cs
  by_cases hlow : c.toNat < 0x20
  · rcases escape_control hlow with ⟨e, he, hd, hescape⟩ | hescape
    · rw [piece, hescape]
      exact pieces?_simple he hd cs
    · rw [piece, hescape]
      exact pieces?_unit hlow cs
  · have hescape : escape c = [c] := by simp [escape, hquote, hback, hlow]
    rw [piece, hescape]
    exact pieces?_cons (Nat.le_of_not_lt hlow) hquote hback cs

theorem pieces?_escapes (rest : List Char) : ∀ cs : List Char,
    pieces? (cs.flatMap escape ++ '"' :: rest) = some (cs.map piece, rest)
  | [] => by rw [List.flatMap_nil, List.nil_append, pieces?, List.map_nil]
  | c :: cs => by
    rw [List.flatMap_cons, List.append_assoc, pieces?_escape, pieces?_escapes rest cs]
    rfl

theorem toNat_lt_of_length_escape {c : Char} (h : (escape c).length = 6) : c.toNat < 0x20 := by
  by_contra hlow
  simp only [escape, if_neg hlow] at h
  split_ifs at h <;> simp at h

theorem assemble?_pieces : ∀ cs : List Char, assemble? (cs.map piece) = some cs
  | [] => rfl
  | c :: cs => by
    rw [List.map_cons, piece, assemble?.eq_def]
    split_ifs with hlength
    · have hlow : c.toNat < 0xD800 := (toNat_lt_of_length_escape hlength).trans (by decide)
      dsimp only
      rw [if_pos (Or.inl hlow), assemble?_pieces cs, Char.ofNat_toNat]
      rfl
    · dsimp only
      rw [assemble?_pieces cs]
      rfl

/-- **A written string is read back.** -/
theorem string?_write (s : String) (rest : List Char) :
    string? (s.toList.flatMap escape ++ '"' :: rest) = some (some s, rest) := by
  rw [string?, pieces?_escapes]
  show some ((assemble? (s.toList.map piece)).map String.ofList, rest) = _
  rw [assemble?_pieces, Option.map_some, String.ofList_toList]

/-! ### One step of the reader -/

section Steps
variable {n : Nat} {c : Char} {k : String} {cs rest : List Char} {d : Document}

theorem skip_cons (hc : isSpace c = false) (cs : List Char) : skip (c :: cs) = c :: cs := by
  rw [skip, List.dropWhile_cons, hc]
  rfl

theorem writeString_append (s : String) (rest : List Char) :
    writeString s ++ rest = '"' :: (s.toList.flatMap escape ++ '"' :: rest) := by
  simp [writeString]

theorem value?_string (s : String) (rest : List Char) :
    value? (n + 1) (writeString s ++ rest) = some (.string (some s), rest) := by
  rw [writeString_append, value?, skip_cons (by decide)]
  show (string? _).bind _ = _
  rw [string?_write]
  rfl

theorem value?_emptyArray (rest : List Char) :
    value? (n + 1) ('[' :: ']' :: rest) = some (.array [], rest) := by
  rw [value?, skip_cons (by decide)]
  rfl

theorem value?_array (hspace : isSpace c = false) (hc : c ≠ ']') :
    value? (n + 1) ('[' :: c :: cs) = (items? n (c :: cs)).map fun r => (.array r.1, r.2) := by
  rw [value?, skip_cons (by decide)]
  split
  · next h => cases h
  · next h => cases (List.cons.inj h).1
  · next h =>
    cases h
    rw [skip_cons hspace]
    split
    · next h => exact absurd (List.cons.inj h).1 hc
    · exact Option.map_eq_bind.symm
  · next h => cases (List.cons.inj h).1
  · next hno _ h =>
    cases h
    exact (hno rfl).elim

theorem value?_emptyObject (rest : List Char) :
    value? (n + 1) ('\x7b' :: '\x7d' :: rest) = some (.object [], rest) := by
  rw [value?, skip_cons (by decide)]
  rfl

theorem value?_object : value? (n + 1) ('\x7b' :: '"' :: cs) =
    (fields? n ('"' :: cs)).map fun r => (.object r.1, r.2) := by
  rw [value?, skip_cons (by decide)]
  exact Option.map_eq_bind.symm

theorem items?_last (h : value? n cs = some (d, ']' :: rest)) :
    items? (n + 1) cs = some ([d], rest) := by
  rw [items?, h]
  rfl

theorem items?_more (h : value? n cs = some (d, ',' :: rest)) :
    items? (n + 1) cs = (items? n rest).map fun r => (d :: r.1, r.2) := by
  rw [items?, h]
  exact Option.map_eq_bind.symm

theorem fields?_last (h : value? n cs = some (d, '\x7d' :: rest)) :
    fields? (n + 1) (writeString k ++ ':' :: cs) = some ([(some k, d)], rest) := by
  rw [writeString_append, fields?, skip_cons (by decide)]
  show (string? _).bind _ = _
  rw [string?_write]
  show (value? n cs).bind _ = _
  rw [h]
  rfl

theorem fields?_more (h : value? n cs = some (d, ',' :: rest)) :
    fields? (n + 1) (writeString k ++ ':' :: cs) =
      (fields? n rest).map fun r => ((some k, d) :: r.1, r.2) := by
  rw [writeString_append, fields?, skip_cons (by decide)]
  show (string? _).bind _ = _
  rw [string?_write]
  show (value? n cs).bind _ = _
  rw [h]
  exact Option.map_eq_bind.symm

end Steps

/-! ### Values -/

/-- A written value begins neither with a blank nor with a closing bracket. -/
theorem exists_write_eq_cons {v : Value} (hv : v.Numberless) :
    ∃ c cs, write v = c :: cs ∧ isSpace c = false ∧ c ≠ ']' := by
  cases v with
  | number n => exact hv.elim
  | null => exact ⟨'n', _, rfl, by decide, by decide⟩
  | bool b => cases b <;> exact ⟨_, _, rfl, by decide, by decide⟩
  | string s => exact ⟨'"', _, rfl, by decide, by decide⟩
  | array items => exact ⟨'[', _, rfl, by decide, by decide⟩
  | object fields => exact ⟨'\x7b', _, rfl, by decide, by decide⟩

theorem writeItems_cons (v w : Value) (ws : List Value) :
    writeItems (v :: w :: ws) = write v ++ ',' :: writeItems (w :: ws) := rfl

theorem writeFields_cons (k : String) (v : Value) (f : String × Value)
    (fs : List (String × Value)) : writeFields ((k, v) :: f :: fs) =
      writeString k ++ ':' :: (write v ++ ',' :: writeFields (f :: fs)) := by
  show writeString k ++ ':' :: write v ++ ',' :: writeFields (f :: fs) = _
  rw [List.append_assoc, List.cons_append]

/-- Neither do written items, and written fields begin with a quote. -/
theorem exists_writeItems_eq_cons {v : Value} (hv : v.Numberless) (vs : List Value)
    (rest : List Char) :
    ∃ c cs, writeItems (v :: vs) ++ rest = c :: cs ∧ isSpace c = false ∧ c ≠ ']' := by
  obtain ⟨c, cs, hwrite, hc⟩ := exists_write_eq_cons hv
  cases vs with
  | nil => exact ⟨c, cs ++ rest, by rw [writeItems, hwrite, List.cons_append], hc⟩
  | cons w ws =>
    refine ⟨c, cs ++ ',' :: writeItems (w :: ws) ++ rest, ?_, hc⟩
    rw [writeItems_cons, hwrite, List.cons_append, List.cons_append]

theorem exists_writeFields_eq_cons (f : String × Value) (fs : List (String × Value))
    (rest : List Char) : ∃ cs, writeFields (f :: fs) ++ rest = '"' :: cs := by
  obtain ⟨k, v⟩ := f
  cases fs with
  | nil => exact ⟨_, by rw [writeFields, List.append_assoc, writeString_append]⟩
  | cons g gs => exact ⟨_, by rw [writeFields_cons, List.append_assoc, writeString_append]⟩

-- the bounds on the reader count the characters that are left: one for each level and each comma
mutual

/-- **A written value is read back.** -/
theorem value?_write : ∀ {v : Value} {n : Nat} (rest : List Char), v.Numberless →
    (write v).length < n → value? n (write v ++ rest) = some (ofValue v, rest)
  | _, 0, _, _, hn => absurd hn (Nat.not_lt_zero _)
  | .number _, _ + 1, _, hv, _ => hv.elim
  | .null, n + 1, rest, _, _ => by
    simp [write, value?, skip, isSpace, word?, ofValue]
  | .bool b, n + 1, rest, _, _ => by
    cases b <;> simp [write, value?, skip, isSpace, word?, ofValue]
  | .string s, n + 1, rest, _, _ => value?_string s rest
  | .array [], n + 1, rest, _, _ => value?_emptyArray rest
  | .array (v :: vs), n + 1, rest, hv, hn => by
    have hwrite : write (.array (v :: vs)) ++ rest = '[' :: (writeItems (v :: vs) ++ ']' :: rest) := by
      simp [write]
    have hlength : (write (.array (v :: vs))).length = (writeItems (v :: vs)).length + 2 := by
      simp [write]
    have hitems := items?_write (n := n) rest hv (by omega)
    obtain ⟨c, cs, hcons, hspace, hc⟩ := exists_writeItems_eq_cons hv.1 vs (']' :: rest)
    rw [hcons] at hitems
    rw [hwrite, hcons, value?_array hspace hc, hitems]
    rfl
  | .object [], n + 1, rest, _, _ => value?_emptyObject rest
  | .object (f :: fs), n + 1, rest, hv, hn => by
    have hwrite : write (.object (f :: fs)) ++ rest =
        '\x7b' :: (writeFields (f :: fs) ++ '\x7d' :: rest) := by
      simp [write]
    have hlength : (write (.object (f :: fs))).length = (writeFields (f :: fs)).length + 2 := by
      simp [write]
    have hfields := fields?_write (n := n) rest hv (by omega)
    obtain ⟨cs, hcons⟩ := exists_writeFields_eq_cons f fs ('\x7d' :: rest)
    rw [hcons] at hfields
    rw [hwrite, hcons, value?_object, hfields]
    rfl

/-- Written items are read back. -/
theorem items?_write : ∀ {v : Value} {vs : List Value} {n : Nat} (rest : List Char),
    NumberlessItems (v :: vs) → (writeItems (v :: vs)).length + 1 < n →
      items? n (writeItems (v :: vs) ++ ']' :: rest) = some (ofValues (v :: vs), rest)
  | _, _, 0, _, _, hn => absurd hn (Nat.not_lt_zero _)
  | v, [], n + 1, rest, hv, hn => by
    rw [writeItems] at hn
    exact items?_last (value?_write (']' :: rest) hv.1 (by omega))
  | v, w :: ws, n + 1, rest, hv, hn => by
    rw [writeItems_cons, List.length_append, List.length_cons] at hn
    have hvalue := value?_write (n := n) (',' :: (writeItems (w :: ws) ++ ']' :: rest)) hv.1
      (by omega)
    have hitems := items?_write (n := n) rest hv.2 (by omega)
    rw [writeItems_cons, List.append_assoc, List.cons_append, items?_more hvalue, hitems]
    rfl

/-- Written fields are read back. -/
theorem fields?_write : ∀ {f : String × Value} {fs : List (String × Value)} {n : Nat}
    (rest : List Char), NumberlessFields (f :: fs) → (writeFields (f :: fs)).length + 1 < n →
      fields? n (writeFields (f :: fs) ++ '\x7d' :: rest) = some (ofFields (f :: fs), rest)
  | _, _, 0, _, _, hn => absurd hn (Nat.not_lt_zero _)
  | (k, v), [], n + 1, rest, hv, hn => by
    rw [writeFields, List.length_append, List.length_cons] at hn
    have hvalue := value?_write (n := n) ('\x7d' :: rest) hv.1 (by omega)
    rw [writeFields, List.append_assoc, List.cons_append, fields?_last hvalue]
    rfl
  | (k, v), g :: gs, n + 1, rest, hv, hn => by
    rw [writeFields_cons, List.length_append, List.length_cons, List.length_append,
      List.length_cons] at hn
    have hvalue := value?_write (n := n) (',' :: (writeFields (g :: gs) ++ '\x7d' :: rest)) hv.1
      (by omega)
    have hfields := fields?_write (n := n) rest hv.2 (by omega)
    rw [writeFields_cons, List.append_assoc, List.cons_append, List.append_assoc, List.cons_append,
      fields?_more hvalue, hfields]
    rfl

end

/-- **The text of a value without numbers is read as the document of the value.** -/
theorem read?_text {v : Value} (hv : v.Numberless) : read? v.text = some (ofValue v) := by
  have hchars : v.text.toList = write v := String.toList_ofList
  have hvalue := value?_write (n := (write v).length + 1) [] hv (Nat.lt_succ_self _)
  rw [List.append_nil] at hvalue
  unfold read?
  rw [hchars]
  show (value? _ _).bind _ = _
  rw [hvalue]
  rfl

/-! ### Documents of values -/

mutual

/-- **The document of a value is taken as the value, if it is not nested too deep.** -/
theorem toValue?_ofValue : ∀ {v : Value} (n : Nat), v.Distinct →
    (ofValue v).toValue? n = if v.levels ≤ n then some v else none
  | .null, n, _ | .bool _, n, _ | .number _, n, _ | .string _, n, _ => rfl
  | .array items, n, hv => by
    rw [ofValue, toValue?, toValues?_ofValues (n - 1) hv, Value.levels]
    split_ifs <;> first | rfl | omega
  | .object fields, n, hv => by
    rw [ofValue, toValue?, toFields?_ofFields (n - 1) hv.2, Value.levels]
    split_ifs with h0 h1 h2 h2
    · omega
    · rfl
    · rw [Option.map_some, Keyed.ofPairs_self hv.1]
    · omega
    · omega
    · rfl

theorem toValues?_ofValues : ∀ {vs : List Value} (n : Nat), DistinctItems vs →
    toValues? n (ofValues vs) = if levelsOfItems vs ≤ n then some vs else none
  | [], _, _ => rfl
  | v :: vs, n, hv => by
    rw [ofValues, toValues?, toValue?_ofValue n hv.1, toValues?_ofValues n hv.2, levelsOfItems]
    split_ifs <;> first | rfl | omega

theorem toFields?_ofFields : ∀ {fs : List (String × Value)} (n : Nat), DistinctFields fs →
    toFields? n (ofFields fs) = if levelsOfFields fs ≤ n then some fs else none
  | [], _, _ => rfl
  | (k, v) :: fs, n, hv => by
    rw [ofFields, toFields?, toValue?_ofValue n hv.1, toFields?_ofFields n hv.2, levelsOfFields]
    split_ifs <;> first | rfl | omega

end

end Document

/-- **What was written is read back, if it is not nested too deep.** -/
theorem Value.Textual.ofText?_text {v : Value} (h : v.Textual) :
    Value.ofText? v.text = if v.levels ≤ maxLevels then some v else none := by
  unfold Value.ofText?
  rw [Document.read?_text h.numberless]
  exact Document.toValue?_ofValue maxLevels h.distinct

end CatalogRules.Json
