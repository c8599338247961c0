/-! # Parts of a text

Splitting a text at a separator and joining the parts again, and the relations *begins with* and
*contains*. -/

namespace CatalogRules.Text

/-- The parts between the occurrences of a separator; there is always at least one. -/
def splitAt (sep : Char) : List Char → List (List Char)
  | [] => [[]]
  | c :: cs =>
    if c = sep then [] :: splitAt sep cs
    else match splitAt sep cs with
      | [] => [[c]]
      | part :: parts => (c :: part) :: parts

/-- The parts with the separator between them. -/
def joinWith (sep : Char) : List (List Char) → List Char
  | [] => []
  | [part] => part
  | part :: parts => part ++ sep :: joinWith sep parts

theorem splitAt_ne_nil (sep : Char) (cs : List Char) : splitAt sep cs ≠ [] := by
  cases cs with
  | nil => simp [splitAt]
  | cons c cs => unfold splitAt; split <;> (try split) <;> simp

theorem joinWith_cons_cons (sep : Char) (p q : List Char) (ps : List (List Char)) :
    joinWith sep (p :: q :: ps) = p ++ sep :: joinWith sep (q :: ps) := rfl

theorem joinWith_splitAt (sep : Char) (cs : List Char) : joinWith sep (splitAt sep cs) = cs := by
  induction cs with
  | nil => rfl
  | cons c cs ih =>
    unfold splitAt
    split
    · next h =>
      subst h
      cases hs : splitAt c cs with
      | nil => exact absurd hs (splitAt_ne_nil c cs)
      | cons p ps => rw [joinWith_cons_cons, ← hs, ih]; rfl
    · cases hs : splitAt sep cs with
      | nil => exact absurd hs (splitAt_ne_nil sep cs)
      | cons p ps =>
        rw [hs] at ih
        cases ps with
        | nil => simp only [joinWith] at ih ⊢; rw [ih]
        | cons q qs => rw [joinWith_cons_cons] at ih ⊢; rw [← ih]; rfl

theorem splitAt_self {sep : Char} : ∀ {part : List Char}, sep ∉ part → splitAt sep part = [part]
  | [], _ => rfl
  | c :: cs, h => by
    obtain ⟨hc, hcs⟩ := not_or.mp (mt List.mem_cons.mpr h)
    rw [splitAt, if_neg (Ne.symm hc), splitAt_self hcs]

theorem splitAt_append {sep : Char} (rest : List Char) : ∀ {part : List Char}, sep ∉ part →
    splitAt sep (part ++ sep :: rest) = part :: splitAt sep rest
  | [], _ => by rw [List.nil_append, splitAt, if_pos rfl]
  | c :: cs, h => by
    obtain ⟨hc, hcs⟩ := not_or.mp (mt List.mem_cons.mpr h)
    rw [List.cons_append, splitAt, if_neg (Ne.symm hc), splitAt_append rest hcs]

theorem splitAt_joinWith {sep : Char} : ∀ {parts : List (List Char)}, parts ≠ [] →
    (∀ part ∈ parts, sep ∉ part) → splitAt sep (joinWith sep parts) = parts
  | [part], _, h => splitAt_self (h part List.mem_cons_self)
  | part :: q :: qs, _, h => by
    rw [joinWith_cons_cons, splitAt_append _ (h part List.mem_cons_self),
      splitAt_joinWith (List.cons_ne_nil q qs) fun x hx => h x (List.mem_cons_of_mem _ hx)]

/-- `part` occurs in `whole` at some place. -/
def contains (whole part : List Char) : Bool :=
  part.isPrefixOf whole || match whole with
    | [] => false
    | _ :: rest => contains rest part

/-- The text after the leading `lead`, if it begins so. -/
def dropLead? : (lead text : List Char) → Option (List Char)
  | [], text => some text
  | _ :: _, [] => none
  | a :: lead, c :: text => if a = c then dropLead? lead text else none

theorem dropLead?_append (lead text : List Char) : dropLead? lead (lead ++ text) = some text := by
  induction lead with
  | nil => rfl
  | cons a lead ih => simp [dropLead?, ih]

theorem eq_append_of_dropLead? {lead text rest : List Char} (h : dropLead? lead text = some rest) :
    text = lead ++ rest := by
  induction lead generalizing text with
  | nil => simpa [dropLead?] using h
  | cons a lead ih =>
    cases text with
    | nil => simp [dropLead?] at h
    | cons c text =>
      simp only [dropLead?] at h
      split at h
      · next hc => rw [hc, ih h]; rfl
      · simp at h

end CatalogRules.Text
