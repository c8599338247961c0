import CatalogRules.Proofs.Pattern.Escapes

/-! # Character classes before the closing text

The readers of classes go in parallel once two refusals are put off. A range that ends the text is
refused at once, as is the beginning of a class that ends it; since the rest of a class needs a
character at least, `settledRange?` and `beginning` read on and leave the refusal to it
(`bind_settledRange?`, `bind_beginning`). -/

namespace CatalogRules.Pattern.Reader

open Function (uncurry uncurry_def)

variable {f : Flags} {n n' : Nat}

/-! ### Elements and ranges -/

/-- An element of a class that begins with a given character, with a settled escape. -/
def settledElement? (f : Flags) (c : Char) (cs : List Char) : Option (Primitive × List Char) :=
  if c = '\\' then settledEscape? f cs else some (.literal c.toNat false, cs)

theorem settledElement?_parallel (c : Char) :
    Parallel n (settledElement? f c) (settledElement? f c) :=
  .ite (fun _ => settledEscape?_parallel) fun _ => .pure _

theorem settledElement?_or (c : Char) (cs : List Char) :
    settledElement? f c cs = element? f (c :: cs) ∨ settledElement? f c cs = none ∧
      ∃ l rest, element? f (c :: cs) = some (.assertion l, '\x7b' :: rest) := by
  by_cases hc : c = '\\'
  · subst hc
    rcases settledEscape?_or (f := f) cs with h | ⟨hnone, l, rest, hsome, -⟩
    · exact .inl h
    · exact .inr ⟨hnone, l, rest, hsome⟩
  · simp [settledElement?, element?, hc]

/-- A hyphen that stands for itself, before the end of a class or another hyphen. -/
def endsInHyphen (f : Flags) : List Char → Bool :=
  behind f '-' (Option.any fun c => c == ']' || c == '-')

/-- The class of an element by itself. -/
def single? (f : Flags) (first : Primitive) (cs : List Char) : Option (CharClass × List Char) :=
  (member? f first).bind fun c => some (c, cs)

theorem single?_parallel (first : Primitive) : Parallel n (single? f first) (single? f first) :=
  .guard fun c => .pure c

/-- The class of an element, or of the range that it begins. -/
def rangeFrom? (f : Flags) (first : Primitive) (cs : List Char) : Option (CharClass × List Char) :=
  if endsInHyphen f cs then single? f first cs
  else onPrefix ['-'] (fun after => next (fun c rest =>
      (settledElement? f c rest).bind (uncurry fun last rest =>
        (literal? f first).bind fun low => (literal? f last).bind fun high =>
          if low ≤ high then some (.range low high, rest) else none)) (skip f after))
    (single? f first) cs

theorem rangeFrom?_parallel (first : Primitive) :
    Parallel n (rangeFrom? f first) (rangeFrom? f first) := by
  refine .cond (fun h => ?_) (single?_parallel first) ?_
  · rw [endsInHyphen, behind_of_follows (by decide) rfl h]
  refine .onPrefix (Parallel.comp (.next fun c => ?_) (passes_skip f)) (single?_parallel first)
    (by decide)
  exact (settledElement?_parallel c).bind fun last => .guard fun low => .guard fun high =>
    .ite (fun _ => .pure _) fun _ => .none

/-- An element or a range that begins with a given character; it may end the text. -/
def settledRange? (f : Flags) (c : Char) (cs : List Char) : Option (CharClass × List Char) :=
  (settledElement? f c cs).bind (uncurry fun first rest => rangeFrom? f first (skip f rest))

theorem settledRange?_parallel (c : Char) : Parallel n (settledRange? f c) (settledRange? f c) :=
  (settledElement?_parallel c).bind fun first => (rangeFrom?_parallel first).comp (passes_skip f)

theorem skip_brace (rest : List Char) : skip f ('\x7b' :: rest) = '\x7b' :: rest := by
  unfold skip
  split_ifs <;> rfl

/-- The class of an element, or of the range that it begins; it may not end the text. -/
def rangeRest? (f : Flags) (first : Primitive) (cs : List Char) : Option (CharClass × List Char) :=
  match cs with
  | [] => none
  | '-' :: after =>
    match skip f after with
    | ']' :: _ => single? f first cs
    | '-' :: _ => single? f first cs
    | [] => none
    | after => do
      let (last, rest) ← element? f after
      let low ← literal? f first
      let high ← literal? f last
      if low ≤ high then some (.range low high, rest) else none
  | _ => single? f first cs

theorem range?_eq (cs : List Char) : range? f cs =
    (element? f cs).bind (uncurry fun first rest => rangeRest? f first (skip f rest)) := rfl

theorem rangeFrom?_cons (first : Primitive) (c : Char) (cs : List Char) :
    rangeFrom? f first (c :: cs) = rangeRest? f first (c :: cs) := by
  by_cases hc : c = '-'
  · subst hc
    rcases hskip : skip f cs with _ | ⟨d, after⟩
    · simp [rangeFrom?, rangeRest?, endsInHyphen, behind, onPrefix_cons, hskip, next]
    by_cases hd : d = ']' ∨ d = '-'
    · have hends : endsInHyphen f ('-' :: cs) = true := by simp [endsInHyphen, behind, hskip, hd]
      rw [rangeFrom?, if_pos hends, rangeRest?]
      rcases hd with rfl | rfl <;> simp only [hskip]
    · have hends : endsInHyphen f ('-' :: cs) ≠ true := by
        simpa [endsInHyphen, behind, hskip] using hd
      rw [not_or] at hd
      rw [rangeFrom?, if_neg hends, onPrefix_cons, hskip, next, rangeRest?]
      rcases settledElement?_or (f := f) d after with heq | ⟨hnone, l, rest, hsome⟩
      · simp only [heq, hskip, List.cons.injEq, hd, false_and, imp_self, implies_true]
        rfl
      · simp only [hnone, hskip, List.cons.injEq, hd, false_and, imp_self, implies_true, hsome,
          Option.bind_none]
        cases literal? f first <;> rfl
  · have hends : endsInHyphen f (c :: cs) ≠ true := by simp [endsInHyphen, behind, hc]
    rw [rangeFrom?, if_neg hends, onPrefix_cons_of_ne hc]
    simp [rangeRest?, hc]

/-- A range that ends the text may be refused later if something has to follow. -/
theorem bind_settledRange? {β : Type} {K : CharClass × List Char → Option β}
    (hK : ∀ a, K (a, []) = none) (c : Char) (cs : List Char) :
    (settledRange? f c cs).bind K = (range? f (c :: cs)).bind K := by
  rw [settledRange?, range?_eq]
  rcases settledElement?_or (f := f) c cs with heq | ⟨hnone, l, rest, hsome⟩
  · rw [heq, Option.bind_assoc, Option.bind_assoc]
    refine Option.bind_congr fun (first, rest) _ => ?_
    dsimp only [uncurry_def]
    cases skip f rest with
    | nil =>
      show (single? f first []).bind K = none
      unfold single?
      cases member? f first with
      | none => rfl
      | some a => exact hK a
    | cons d after => rw [rangeFrom?_cons]
  · rw [hnone, hsome]
    dsimp only [Option.bind_some, uncurry_def]
    rw [skip_brace]
    rfl

/-! ### The beginning of a class -/

theorem hyphens_parallel (h : n ≤ n') :
    Parallel n (fun cs => some (hyphens f n cs)) (fun cs => some (hyphens f n' cs)) := by
  refine parallel_gather f (fun _ n => n + 1) (· == '-') (by decide) (fun _ => rfl) (fun _ => rfl)
    (fun n c cs => ?_) h
  by_cases hc : c = '-'
  · subst hc
    rfl
  · simp [hyphens, hc]

/-- The class of a hyphen. -/
def hyphen : Class := ⟨.single '-'.toNat, 0⟩

/-- What stands for itself at the beginning of a class. -/
def literals (f : Flags) (cs : List Char) : Option (List Class × List Char) :=
  (some (hyphens f (cs.length + 0) cs)).bind (uncurry fun k rest =>
    if k = 0 then
      onPrefix [']'] (fun rest => some ([⟨.single ']'.toNat, 0⟩], skip f rest))
        (fun rest => some ([], rest)) rest
    else some (List.replicate k hyphen, rest))

/-- The beginning of a class after its opening bracket; it may end the text. -/
def beginning (f : Flags) (cs : List Char) : Option ((Bool × List Class) × List Char) :=
  onPrefix ['^'] (fun rest => (literals f (skip f rest)).map fun p => ((true, p.1), p.2))
    (fun rest => (literals f rest).map fun p => ((false, p.1), p.2)) (skip f cs)

theorem literals_parallel : Parallel n (literals f) (literals f) := by
  refine (Parallel.sized hyphens_parallel passes_id 0).bind fun k => ?_
  refine .ite (fun _ => ?_) fun _ => .pure _
  exact .onPrefix ((Parallel.pure _).comp (passes_skip f)) (.pure _) (by decide)

theorem beginning_parallel : Parallel n (beginning f) (beginning f) := by
  have hsign : Parallel n
      (onPrefix ['^'] (fun rest => (literals f (skip f rest)).map fun p => ((true, p.1), p.2))
        fun rest => (literals f rest).map fun p => ((false, p.1), p.2)) _ :=
    .onPrefix ((literals_parallel.comp (passes_skip f)).map _) (literals_parallel.map _) (by decide)
  exact hsign.comp (passes_skip f)

/-- The beginning of a class after the sign of a complement. -/
def openingAt? (f : Flags) (negated : Bool) (cs : List Char) :
    Option (Bool × List Class × List Char) :=
  let (k, cs) := hyphens f cs.length cs
  match cs with
  | [] => none
  | ']' :: rest =>
    if k = 0 then
      if skip f rest = [] then none
      else some (negated, [⟨.single ']'.toNat, 0⟩], skip f rest)
    else some (negated, List.replicate k hyphen, cs)
  | _ => some (negated, List.replicate k hyphen, cs)

theorem opening?_eq (cs : List Char) : opening? f cs = match skip f cs with
    | '^' :: rest => openingAt? f true (skip f rest)
    | rest => openingAt? f false rest := by
  unfold opening?
  rcases skip f cs with _ | ⟨c, rest⟩
  · rfl
  by_cases hc : c = '^'
  · subst hc
    rfl
  · simp only [List.cons.injEq, hc, false_and, imp_self, implies_true]
    rfl

section
variable {β : Type} {K : Bool → List Class → List Char → Option β}

theorem bind_literals (hK : ∀ negated items, K negated items [] = none) (negated : Bool)
    (cs : List Char) : ((literals f cs).bind fun p => K negated p.1 p.2) =
      (openingAt? f negated cs).bind fun p => K p.1 p.2.1 p.2.2 := by
  unfold literals openingAt?
  rw [Nat.add_zero]
  rcases hyphens f cs.length cs with ⟨k, _ | ⟨c, rest⟩⟩
  · by_cases hk : k = 0
    · simp [hk, uncurry_def, onPrefix, hK]
    · simp [hk, uncurry_def, hK]
  by_cases hc : c = ']'
  · subst hc
    by_cases hk : k = 0
    · by_cases hrest : skip f rest = []
      · simp [hk, uncurry_def, onPrefix_cons, hrest, hK]
      · simp [hk, uncurry_def, onPrefix_cons, hrest]
    · simp [hk, uncurry_def]
  · by_cases hk : k = 0
    · simp [hk, hc, uncurry_def, onPrefix_cons_of_ne]
    · simp [hk, hc, uncurry_def]

/-- A class that ends with its beginning may be refused later. -/
theorem bind_beginning (hK : ∀ negated items, K negated items [] = none) (cs : List Char) :
    ((beginning f cs).bind fun p => K p.1.1 p.1.2 p.2) =
      (opening? f cs).bind fun p => K p.1 p.2.1 p.2.2 := by
  have hbind : ∀ negated cs, (((literals f cs).map fun p => ((negated, p.1), p.2)).bind
      fun p => K p.1.1 p.1.2 p.2) = (openingAt? f negated cs).bind fun p => K p.1 p.2.1 p.2.2 := by
    intro negated cs
    rw [← bind_literals hK]
    cases literals f cs <;> rfl
  rw [opening?_eq, beginning]
  split
  · next hskip => rw [hskip, onPrefix_cons, hbind]
  · next hskip => rw [onPrefix_of_ne hskip, hbind]

end

/-! ### ASCII classes -/

/-- An ASCII class after its colon and the sign of a complement. -/
def namedClass? (f : Flags) (negated : Bool) (cs : List Char) : Option (CharClass × List Char) :=
  match cs.dropWhile (· ≠ ':') with
  | ':' :: ']' :: rest => do
    let ranges ← Named.ascii? (String.ofList (cs.takeWhile (· ≠ ':')))
    some (.negateIf negated (fold f (.ofRanges ranges)), rest)
  | _ => none

theorem asciiClass?_eq (cs : List Char) : asciiClass? f cs =
    onPrefix [':'] (onPrefix ['^'] (namedClass? f true) (namedClass? f false))
      (fun _ => none) cs := by
  unfold asciiClass?
  split
  · next rest =>
    rw [onPrefix_cons]
    rcases rest with _ | ⟨c, rest⟩
    · rfl
    by_cases hc : c = '^'
    · subst hc
      rfl
    · rw [onPrefix_cons_of_ne hc]
      simp only [List.cons.injEq, hc, false_and, imp_self, implies_true]
      rfl
  · next hne => rw [onPrefix_of_ne hne]

theorem namedClass?_exact (negated : Bool) : Exact (namedClass? f negated) := by
  refine ⟨fun {cs a rest} h => ?_, fun cs => ?_⟩
  · unfold namedClass? at h
    split at h
    · next after hdrop =>
      obtain ⟨_, -, h⟩ := Option.bind_eq_some_iff.mp h
      obtain ⟨-, rfl⟩ := Prod.mk.inj (Option.some.inj h)
      have hsuffix : ':' :: ']' :: after <:+ cs := hdrop ▸ List.dropWhile_suffix _
      exact ((List.suffix_cons _ _).trans (List.suffix_cons _ _)).trans hsuffix
    · cases h
  · unfold namedClass?
    rcases cut_append (p := fun c => decide (c ≠ ':')) (by decide) cs with
      ⟨hdrop, hdrop'⟩ | ⟨c, rest, hdrop, hdrop', htake⟩
    · rw [hdrop, hdrop']
      rfl
    · rw [hdrop, hdrop', htake]
      by_cases hc : c = ':'
      · subst hc
        rcases rest with _ | ⟨d, rest⟩
        · rfl
        by_cases hd : d = ']'
        · subst hd
          show Option.bind _ _ = Option.map _ (Option.bind _ _)
          cases Named.ascii? (String.ofList (cs.takeWhile fun c => decide (c ≠ ':'))) <;> rfl
        · simp [hd]
      · simp [hc]

theorem asciiClass?_exact : Exact (asciiClass? f) := by
  rw [funext asciiClass?_eq]
  exact .onPrefix (.onPrefix (namedClass?_exact true) (namedClass?_exact false) (by decide)) .none
    (by decide)

/-! ### Classes -/

theorem class?_nil (fuel : Nat) (negated : Bool) (left : Option (SetOp × Class))
    (items : List Class) : class? f fuel negated left items [] = none := by
  cases fuel with
  | zero => rfl
  | succ fuel =>
    unfold class? skip
    split_ifs <;> rfl

/-- What has been read of a class: whether it is a complement, the operation that waits and the
items since then. -/
abbrev Partial := Bool × Option (SetOp × Class) × List Class

/-- The rest of a class after what has been read. -/
def classFrom? (f : Flags) (fuel : Nat) (i : Partial) : List Char → Option (Class × List Char) :=
  class? f fuel i.1 i.2.1 i.2.2

theorem classFrom?_succ (fuel : Nat) (i : Partial) (cs : List Char) : classFrom? f (fuel + 1) i cs =
    onPrefix [']']
      (fun rest => some (⟨.negateIf i.1 (fold f (complete f i.2.1 i.2.2).set),
        (complete f i.2.1 i.2.2).depth + 1⟩, rest))
      (onPrefix ['&', '&'] (classFrom? f fuel (i.1, some (.inter, complete f i.2.1 i.2.2), []))
        (onPrefix ['-', '-'] (classFrom? f fuel (i.1, some (.diff, complete f i.2.1 i.2.2), []))
          (onPrefix ['~', '~'] (classFrom? f fuel (i.1, some (.symm, complete f i.2.1 i.2.2), []))
            (onPrefix ['[']
              (fun rest => if (asciiClass? f rest).isSome then
                (asciiClass? f rest).bind (uncurry fun c rest =>
                  classFrom? f fuel (i.1, i.2.1, i.2.2 ++ [⟨c, 0⟩]) rest)
                else (beginning f rest).bind (uncurry fun b rest =>
                  (classFrom? f fuel (b.1, none, b.2) rest).bind (uncurry fun c rest =>
                    classFrom? f fuel (i.1, i.2.1, i.2.2 ++ [c]) rest)))
              (next fun c rest => (settledRange? f c rest).bind (uncurry fun set rest =>
                classFrom? f fuel (i.1, i.2.1, i.2.2 ++ [⟨set, 0⟩]) rest))))))
      (skip f cs) := by
  obtain ⟨negated, left, items⟩ := i
  unfold classFrom?
  dsimp only
  rw [class?]
  split
  · next hskip => rw [hskip]; rfl
  · next hskip => rw [hskip, onPrefix_cons]
  · next rest hskip => rw [hskip]; rfl
  · next rest hskip => rw [hskip]; rfl
  · next rest hskip => rw [hskip]; rfl
  · next rest hskip =>
    rw [hskip, onPrefix_cons_of_ne (by decide), onPrefix_cons_of_ne (by decide),
      onPrefix_cons_of_ne (by decide), onPrefix_cons_of_ne (by decide), onPrefix_cons]
    cases asciiClass? f rest with
    | some p => rfl
    | none =>
      refine (bind_beginning (K := fun innerNegated innerItems rest =>
        (class? f fuel innerNegated none innerItems rest).bind fun p =>
          class? f fuel negated left (items ++ [p.1]) p.2) (fun _ _ => ?_) rest).symm
      rw [class?_nil]
      rfl
  · next hnil hclose hinter hdiff hsymm hopen =>
    rw [onPrefix_of_ne hclose, onPrefix_of_ne hinter, onPrefix_of_ne hdiff, onPrefix_of_ne hsymm,
      onPrefix_of_ne hopen]
    cases hskip : skip f cs with
    | nil => exact (hnil hskip).elim
    | cons c rest =>
      refine (bind_settledRange? (K := fun p =>
        class? f fuel negated left (items ++ [⟨p.1, 0⟩]) p.2) (fun _ => class?_nil ..) c rest).symm

theorem classFrom?_parallel (h : n ≤ n') (i : Partial) :
    Parallel n (classFrom? f n i) (classFrom? f n' i) := by
  refine Parallel.rounds (F := fun n i => classFrom? f n i) (fun _ => .none) (fun i => ?_) ?_ h i
  · unfold classFrom?
    rw [class?_nil, class?_nil]
  · intro n n' ih i
    refine Parallel.congr ?_ (classFrom?_succ n i) (classFrom?_succ n' i)
    refine Parallel.comp (.onPrefix (.pure _) ?_ (by decide)) (passes_skip f)
    refine .onPrefix_of_le (ih _) ?_ (by decide) (by simp)
    refine .onPrefix_of_le (ih _) ?_ (by decide) (by simp)
    refine .onPrefix_of_le (ih _) ?_ (by decide) (by simp)
    refine .onPrefix_of_le (m := n) ?_ (.next_of_le (fun c => ?_) le_rfl) (by decide) (by simp)
    · refine .cond (fun h => by rw [asciiClass?_exact.isSome_of_follows h]) ?_ ?_
      · exact asciiClass?_exact.parallel.bind fun c => ih _
      · exact beginning_parallel.bind fun b => (ih _).bind fun c => ih _
    · exact (settledRange?_parallel c).bind fun set => ih _

end CatalogRules.Pattern.Reader
