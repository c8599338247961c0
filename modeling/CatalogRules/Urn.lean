import CatalogRules.Text.Part
import CatalogRules.Sorted

/-! # Entity names

An entity is named by a text of the form `urn:li:<type>:<key>`. The type is not empty and has no
colon, the key is not empty and may have colons. Names are ordered by their text.

Main statements: a name is read back from its text (`ofText?_text`), and a text that can be read is
the text of what was read (`text_of_ofText?`). -/

namespace CatalogRules

/-- The name of an entity. -/
structure Urn where
  entityType : String
  key : String
  type_ne : entityType ≠ ""
  no_colon : ':' ∉ entityType.toList
  key_ne : key ≠ ""
  deriving DecidableEq

namespace Urn

/-- What every name begins with. -/
def lead : String := "urn:li:"

/-- The written name. -/
def text (u : Urn) : String := lead ++ u.entityType ++ ":" ++ u.key

instance : LT Urn := ⟨fun a b => a.text < b.text⟩

instance : DecidableLT Urn := fun a b => inferInstanceAs (Decidable (a.text < b.text))

/-- The name with the given type and key, if these are allowed. -/
def make? (entityType key : String) : Option Urn :=
  if h : entityType ≠ "" ∧ ':' ∉ entityType.toList ∧ key ≠ "" then
    some ⟨entityType, key, h.1, h.2.1, h.2.2⟩
  else none

/-- The name that a text writes. -/
def ofText? (s : String) : Option Urn :=
  match Text.dropLead? lead.toList s.toList with
  | none => none
  | some rest =>
    match rest.dropWhile (· ≠ ':') with
    | [] => none
    | _ :: key => make? (String.ofList (rest.takeWhile (· ≠ ':'))) (String.ofList key)

theorem make?_self (u : Urn) : make? u.entityType u.key = some u := by
  have h : u.entityType ≠ "" ∧ ':' ∉ u.entityType.toList ∧ u.key ≠ "" :=
    ⟨u.type_ne, u.no_colon, u.key_ne⟩
  unfold make?
  rw [dif_pos h]

theorem takeWhile_colon {t k : List Char} (h : ':' ∉ t) :
    (t ++ ':' :: k).takeWhile (· ≠ ':') = t ∧ (t ++ ':' :: k).dropWhile (· ≠ ':') = ':' :: k := by
  induction t with
  | nil => simp
  | cons c t ih =>
    have hc : c ≠ ':' := fun e => h (by simp [e])
    have := ih (fun e => h (by simp [e]))
    simp_all

theorem toList_text (u : Urn) :
    u.text.toList = lead.toList ++ (u.entityType.toList ++ ':' :: u.key.toList) := by
  simp [text]

theorem ofText?_text (u : Urn) : ofText? u.text = some u := by
  have h := takeWhile_colon (k := u.key.toList) u.no_colon
  simp only [ofText?, toList_text, Text.dropLead?_append]
  rw [h.2, h.1]
  simpa using make?_self u

theorem text_of_ofText? {s : String} {u : Urn} (h : ofText? s = some u) : u.text = s := by
  unfold ofText? at h
  split at h
  · simp at h
  · next rest hl =>
    split at h
    · simp at h
    · next c key hd =>
      unfold make? at h
      split at h
      · have hc : c = ':' := by
          have := List.head?_dropWhile_not (fun c : Char => decide (c ≠ ':')) rest
          rw [hd] at this
          simpa using this
        have hs := Text.eq_append_of_dropLead? hl
        have hr : rest.takeWhile (· ≠ ':') ++ ':' :: key = rest := by
          rw [hc] at hd; rw [← hd]; exact List.takeWhile_append_dropWhile
        simp only [Option.some.injEq] at h
        subst h
        apply String.toList_injective
        rw [toList_text]
        simp only [String.toList_ofList]
        rw [hr, ← hs]
      · simp at h

theorem text_injective {u v : Urn} (h : u.text = v.text) : u = v := by
  have := ofText?_text u
  rw [h, ofText?_text v] at this
  exact (Option.some.inj this).symm

end Urn
end CatalogRules
