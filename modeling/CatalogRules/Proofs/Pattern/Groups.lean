import CatalogRules.Proofs.Pattern.Classes

/-! # The beginning of a group before the closing text

After its opening parenthesis a group begins with a name, with flags, or with neither of them. Flags
end with a colon or with a parenthesis that closes them. -/

namespace CatalogRules.Pattern.Reader

variable {f : Flags} {n n' : Nat}

/-! ### The beginning of a group -/

theorem groupName?_exact : Exact groupName? := by
  refine ⟨fun {cs a rest} h => ?_, fun cs => ?_⟩
  · unfold groupName? at h
    split at h
    · cases h
    · next hdrop =>
      split at h
      · cases h
      · split_ifs at h
        obtain ⟨-, rfl⟩ := Prod.mk.inj (Option.some.inj h)
        have hsuffix := List.dropWhile_suffix (l := cs) fun c => decide (c ≠ '>')
        rw [hdrop] at hsuffix
        exact (List.suffix_cons _ _).trans hsuffix
  · unfold groupName?
    rcases cut_append (p := fun c => decide (c ≠ '>')) (by decide) cs with
      ⟨hdrop, hdrop'⟩ | ⟨c, rest, hdrop, hdrop', htake⟩
    · rw [hdrop, hdrop']
      rfl
    · rw [hdrop, hdrop', htake]
      dsimp only
      split
      · rfl
      · split_ifs <;> rfl

/-- What a group begins with after its flags: flags for the rest of the group around it, or a group
of its own. -/
def flagsOpening? (on : Bool) (seen : List Char) (f : Flags) (cs : List Char) :
    Option (Opening × List Char) := do
  let (g, any, rest) ← flags? on seen f cs
  match rest with
  | ')' :: rest => if any then some (.flags g, rest) else none
  | _ :: rest => some (.group g false none, rest)
  | [] => none

/-- The flags read so far: whether a flag is turned on, the characters seen and the flags. -/
abbrev FlagState := Bool × List Char × Flags

/-- The character after some flags ends them, if there is a result at all, or goes on. -/
def flagStep (s : FlagState) (c : Char) : Option Opening ⊕ FlagState :=
  if c = ':' ∨ c = ')' then
    .inl (if s.2.1.getLast? = some '-' then none
      else if c = ':' then some (.group s.2.2 false none)
      else if s.2.1 ≠ [] then some (.flags s.2.2) else none)
  else if c ∈ s.2.1 then .inl none
  else if c = '-' then .inr (false, s.2.1 ++ [c], s.2.2)
  else match s.2.2.set? c s.1 with
    | some g => .inr (s.1, s.2.1 ++ [c], g)
    | none => .inl none

theorem flagsOpening?_cons (on : Bool) (seen : List Char) (c : Char) (cs : List Char) :
    flagsOpening? on seen f (c :: cs) = (flagStep (on, seen, f) c).elim
      (fun r => r.map fun o => (o, cs)) fun s => flagsOpening? s.1 s.2.1 s.2.2 cs := by
  by_cases hc : c = ':' ∨ c = ')'
  · by_cases hlast : seen.getLast? = some '-'
    · simp [flagsOpening?, flags?, flagStep, hc, hlast]
    · rcases hc with rfl | rfl
      · simp [flagsOpening?, flags?, flagStep, hlast]
      · by_cases hseen : seen = [] <;> simp [flagsOpening?, flags?, flagStep, hlast, hseen]
  · by_cases hmem : c ∈ seen
    · simp [flagsOpening?, flags?, flagStep, hc, hmem]
    · by_cases hminus : c = '-'
      · subst hminus
        simp [flagsOpening?, flags?, flagStep, hmem]
      · cases hset : f.set? c on with
        | none => simp [flagsOpening?, flags?, flagStep, hc, hmem, hminus, hset]
        | some g => simp [flagsOpening?, flags?, flagStep, hc, hmem, hminus, hset]

theorem scans_flagsOpening? :
    Scans flagStep fun s : FlagState => flagsOpening? s.1 s.2.1 s.2.2 where
  nil _ := rfl
  cons s := flagsOpening?_cons s.1 s.2.1
  stop _ := ⟨_, if_pos (.inr rfl)⟩

theorem flagsOpening?_parallel (on : Bool) (seen : List Char) :
    Parallel n (flagsOpening? on seen f) (flagsOpening? on seen f) :=
  scans_flagsOpening?.parallel (on, seen, f)

/-- The beginning of a group with a name. -/
def namedOpening? (f : Flags) (cs : List Char) : Option (Opening × List Char) :=
  (groupName? cs).map fun p => (.group f true (some p.1), p.2)

theorem namedOpening?_parallel : Parallel n (namedOpening? f) (namedOpening? f) :=
  groupName?_exact.parallel.map fun name => Opening.group f true (some name)

theorem groupOpening?_eq (cs : List Char) : groupOpening? f cs =
    onPrefix ['?']
      (onPrefix ['='] (fun _ => none) (onPrefix ['!'] (fun _ => none)
        (onPrefix ['<'] (onPrefix ['='] (fun _ => none) (onPrefix ['!'] (fun _ => none)
          (namedOpening? f))) (onPrefix ['P', '<'] (namedOpening? f) (flagsOpening? true [] f)))))
      (fun rest => some (.group f true none, rest)) (skip f cs) := by
  have hnamed : ∀ rest, namedOpening? f rest =
      (groupName? rest).bind fun p => some (.group f true (some p.1), p.2) := by
    intro rest
    unfold namedOpening?
    cases groupName? rest <;> rfl
  unfold groupOpening?
  split
  · next hskip => rw [hskip, onPrefix_cons, onPrefix_cons]
  · next hskip => rw [hskip]; rfl
  · next hskip => rw [hskip]; rfl
  · next hskip => rw [hskip]; rfl
  · next hskip => rw [hskip]; exact (hnamed _).symm
  · next hahead hnotAhead hskip =>
    rw [hskip, onPrefix_cons, onPrefix_cons_of_ne (by decide), onPrefix_cons_of_ne (by decide),
      onPrefix_cons, onPrefix_of_ne hahead, onPrefix_of_ne hnotAhead, hnamed]
    rfl
  · next hequal hbang _ _ hname hangle hskip =>
    rw [hskip, onPrefix_cons, onPrefix_of_ne hequal, onPrefix_of_ne hbang, onPrefix_of_ne hangle,
      onPrefix_of_ne hname]
    rfl
  · next hskip => rw [onPrefix_of_ne hskip]

theorem groupOpening?_parallel : Parallel n (groupOpening? f) (groupOpening? f) := by
  have hbehind : Parallel n (onPrefix ['='] (fun _ => none) (onPrefix ['!'] (fun _ => none)
      (namedOpening? f))) _ :=
    .onPrefix .none (.onPrefix .none namedOpening?_parallel (by decide)) (by decide)
  have hflags : Parallel n (onPrefix ['P', '<'] (namedOpening? f) (flagsOpening? true [] f)) _ :=
    .onPrefix namedOpening?_parallel (flagsOpening?_parallel true []) (by decide)
  refine Parallel.congr ?_ groupOpening?_eq groupOpening?_eq
  refine Parallel.comp (.onPrefix ?_ (.pure _) (by decide)) (passes_skip f)
  exact .onPrefix .none (.onPrefix .none (.onPrefix hbehind hflags (by decide)) (by decide))
    (by decide)

end CatalogRules.Pattern.Reader
