import CatalogRules.Proofs.Pattern.Parallel

/-! # Numbers and escapes before the closing text

The readers of numbers and escapes go in parallel but for one case. After `\b` an opening brace is
left alone if no name of a boundary follows, and it is met again as the beginning of a repetition.
With nothing behind it the pattern alone is refused at once, and before the closing text it is
refused with that repetition. `settledEscape?` refuses both at once (`settledEscape?_or`). -/

namespace CatalogRules.Pattern.Reader

open Function (uncurry uncurry_def)

variable {f : Flags} {n n' : Nat}

/-! ### Blanks and numbers -/

theorem skipFrom_suffix (inComment : Bool) : ∀ cs : List Char, skipFrom inComment cs <:+ cs
  | [] => List.suffix_rfl
  | c :: cs => by
    have ih := fun b => (skipFrom_suffix b cs).trans (List.suffix_cons c cs)
    unfold skipFrom
    split_ifs
    · exact ih _
    · exact ih _
    · exact ih _
    · exact List.suffix_rfl

/-- A comment at the end of a text goes on through the closing text. -/
theorem skipFrom_append (inComment : Bool) : ∀ cs : List Char,
    Follows (skipFrom inComment cs) (skipFrom inComment (cs ++ closing))
  | [] => by
    cases inComment with
    | false => exact .inl rfl
    | true => exact .inr ⟨rfl, rfl⟩
  | c :: cs => by
    rw [List.cons_append]
    unfold skipFrom
    split_ifs
    · exact skipFrom_append _ cs
    · exact skipFrom_append _ cs
    · exact skipFrom_append _ cs
    · exact follows_append (c :: cs)

theorem passes_skip (f : Flags) : Passes (skip f) := by
  unfold skip
  split_ifs
  · exact ⟨skipFrom_suffix false, skipFrom_append false⟩
  · exact passes_id

theorem passes_blanks : Passes fun cs => cs.dropWhile Text.isBlank := passes_dropWhile (by decide)

/-- What is gathered over the characters with some property. -/
theorem parallel_gather (f : Flags) {β : Type} {zero : β} (add : Char → β → β) (p : Char → Bool)
    {F : Nat → List Char → β × List Char} (hp : p ')' = false)
    (hzero : ∀ cs, F 0 cs = (zero, cs)) (hnil : ∀ n, F (n + 1) [] = (zero, []))
    (hcons : ∀ n c cs, F (n + 1) (c :: cs) =
      if p c then (add c (F n (skip f cs)).1, (F n (skip f cs)).2) else (zero, c :: cs))
    (h : n ≤ n') : Parallel n (fun cs => some (F n cs)) (fun cs => some (F n' cs)) := by
  have hround : ∀ n cs, some (F (n + 1) cs) =
      if cs.head?.any p = true then
        next (fun c rest => (some (F n (skip f rest))).bind fun q => some (add c q.1, q.2)) cs
      else some (zero, cs) := by
    rintro n (_ | ⟨c, cs⟩)
    · rw [hnil]
      rfl
    · rw [hcons, apply_ite some]
      rfl
  have htest : ∀ {cs cs' : List Char}, Follows cs cs' →
      (cs'.head?.any p = true ↔ cs.head?.any p = true) := by
    intro cs cs' hfollows
    rw [show cs'.head?.any p = cs.head?.any p from hfollows.test_head? hp]
  refine Parallel.rounds (F := fun n (_ : Unit) cs => some (F n cs)) ?_ ?_ ?_ h ()
  · intro _
    exact (Parallel.pure zero).congr (fun cs => by rw [hzero]) fun cs => by rw [hzero]
  · intro _
    rw [hzero, hnil]
  · intro n n' ih _
    refine Parallel.congr ?_ (hround n) (hround n')
    refine .cond htest (.next_of_le (fun c => ?_) le_rfl) (.pure zero)
    exact ((ih ()).comp (passes_skip f)).map (add c)

theorem digits_parallel (h : n ≤ n') :
    Parallel n (fun cs => some (digits f n cs)) (fun cs => some (digits f n' cs)) :=
  parallel_gather f List.cons Char.isDigit (by decide) (fun _ => rfl) (fun _ => rfl)
    (fun _ _ _ => rfl) h

theorem number?_eq (cs : List Char) : number? f cs =
    (some (digits f (cs.length + 0) (cs.dropWhile Text.isBlank))).bind (uncurry fun ds rest =>
      if ds = [] then some (none, rest.dropWhile Text.isBlank)
      else if value ds < Nat.pow 2 32 then some (some (value ds), rest.dropWhile Text.isBlank)
      else none) := rfl

theorem number?_parallel : Parallel n (number? f) (number? f) := by
  refine Parallel.congr ?_ number?_eq number?_eq
  refine (Parallel.sized digits_parallel passes_blanks 0).bind fun ds => ?_
  refine .ite (fun _ => (Parallel.pure none).comp passes_blanks) fun _ => ?_
  exact .ite (fun _ => (Parallel.pure (some (value ds))).comp passes_blanks) fun _ => .none

/-- The bounds of a repetition, as one result. -/
def boundsPair? (f : Flags) (cs : List Char) : Option ((Nat × Option Nat) × List Char) :=
  (bounds? f cs).map fun b => ((b.1, b.2.1), b.2.2)

theorem boundsPair?_eq (cs : List Char) : boundsPair? f cs =
    (number? f (skip f cs)).bind (uncurry fun low => onPrefix [',']
      (fun rest => onPrefix ['\x7d'] (fun rest => low.bind fun l => some ((l, none), skip f rest))
        (fun rest => low.bind fun l => (number? f rest).bind (uncurry fun high rest =>
          high.bind fun h => onPrefix ['\x7d']
            (fun rest => if l ≤ h then some ((l, some h), skip f rest) else none)
            (fun _ => none) rest)) (skip f rest))
      (onPrefix ['\x7d'] (fun rest => low.bind fun l => some ((l, some l), skip f rest))
        fun _ => none)) := by
  unfold boundsPair? bounds?
  cases hn : number? f (skip f cs) with
  | none => rfl
  | some q =>
    obtain ⟨low, rest⟩ := q
    simp only [Option.bind_eq_bind, Option.bind_some, uncurry_def]
    split
    · next after =>
      rw [onPrefix_cons]
      split
      · next hskip =>
        rw [hskip, onPrefix_cons]
        cases low <;> rfl
      · next hne =>
        rw [onPrefix_of_ne hne]
        cases low with
        | none => rfl
        | some l =>
          cases number? f (skip f after) with
          | none => rfl
          | some q =>
            obtain ⟨_ | h, rest⟩ := q
            · rfl
            · simp only [Option.bind_some]
              split
              · rw [onPrefix_cons]
                split_ifs <;> rfl
              · next hne =>
                rw [onPrefix_of_ne hne]
                rfl
    · rw [onPrefix_cons_of_ne (by decide), onPrefix_cons]
      cases low <;> rfl
    · next hcomma hbrace =>
      rw [onPrefix_of_ne hcomma, onPrefix_of_ne hbrace]
      rfl

theorem boundsPair?_parallel : Parallel n (boundsPair? f) (boundsPair? f) := by
  have hend : ∀ b : Nat × Option Nat,
      Parallel n (fun cs => some (b, skip f cs)) (fun cs => some (b, skip f cs)) := fun b =>
    (Parallel.pure b).comp (passes_skip f)
  have hhigh : ∀ l, Parallel n
      (fun rest => (number? f rest).bind (uncurry fun high rest => high.bind fun h =>
        onPrefix ['\x7d'] (fun rest => if l ≤ h then some ((l, some h), skip f rest) else none)
          (fun _ => none) rest)) _ := fun l =>
    number?_parallel.bind fun high => .guard fun h =>
      .onPrefix (.ite (fun _ => hend (l, some h)) fun _ => .none) .none (by decide)
  refine Parallel.congr ?_ boundsPair?_eq boundsPair?_eq
  refine (number?_parallel.comp (passes_skip f)).bind fun low => ?_
  refine .onPrefix ?_ (.onPrefix (.guard fun l => hend (l, some l)) .none (by decide))
    (by decide)
  refine Parallel.comp ?_ (passes_skip f)
  exact .onPrefix (.guard fun l => hend (l, none)) (.guard hhigh) (by decide)

/-! ### Escapes -/

theorem hexDigits?_parallel : ∀ (k m : Nat),
    Parallel n (hexDigits? f k m) (hexDigits? f k m)
  | 0, m => Parallel.pure m
  | k + 1, m => by
    have hnext : ∀ cs, hexDigits? f (k + 1) m cs = next (fun c rest =>
        (hex? c).bind fun d => hexDigits? f k (16 * m + d) (skip f rest)) cs := by
      rintro (_ | ⟨c, rest⟩) <;> rfl
    refine Parallel.congr ?_ hnext hnext
    refine .next fun c => .guard fun d => ?_
    exact (hexDigits?_parallel k _).comp (passes_skip f)

theorem hexBrace?_parallel (h : n ≤ n') (m : Option Nat) :
    Parallel n (hexBrace? f n m) (hexBrace? f n' m) := by
  have hnext : ∀ n m cs, hexBrace? f (n + 1) m cs =
      next (fun c rest => if c = '\x7d' then m.bind fun k => some (k, rest)
        else (hex? c).bind fun d =>
          hexBrace? f n (some (min (16 * m.getD 0 + d) (Nat.pow 2 32))) (skip f rest)) cs := by
    rintro n m (_ | ⟨c, rest⟩)
    · rfl
    · cases m <;> rfl
  refine Parallel.rounds (F := fun n m => hexBrace? f n m) (fun _ => .none) (fun _ => rfl) ?_ h m
  intro n n' ih m
  refine Parallel.congr ?_ (hnext n m) (hnext n' m)
  refine .next_of_le (fun c => .ite (fun _ => ?_) fun _ => ?_) le_rfl
  · exact .guard fun k => .pure k
  · exact .guard fun d => (ih _).comp (passes_skip f)

theorem upToBrace?_parallel (h : n ≤ n') : Parallel n (upToBrace? f n) (upToBrace? f n') := by
  have hnext : ∀ n cs, upToBrace? f (n + 1) cs =
      next (fun c rest => if c = '\x7d' then some ([], rest)
        else (upToBrace? f n (skip f rest)).map fun p => (c :: p.1, p.2)) cs := by
    rintro n (_ | ⟨c, rest⟩)
    · rfl
    · rw [upToBrace?, next]
      cases upToBrace? f n (skip f rest) <;> rfl
  refine Parallel.rounds (F := fun n (_ : Unit) => upToBrace? f n) (fun _ => .none) (fun _ => rfl)
    ?_ h ()
  intro n n' ih _
  refine Parallel.congr ?_ (hnext n) (hnext n')
  refine .next_of_le (fun c => .ite (fun _ => .pure []) fun _ => ?_) le_rfl
  exact ((ih ()).comp (passes_skip f)).map (c :: ·)

theorem property?_eq (negated : Bool) (cs : List Char) : property? f negated cs =
    onPrefix ['\x7b']
      (fun rest => (upToBrace? f (rest.length + 1) (skip f rest)).bind (uncurry fun name rest =>
        (braced? name).bind fun q => some (.property q.1 (negated != q.2), rest)))
      (onPrefix ['\\'] (fun _ => none) (next fun c rest =>
        (Named.byName? [c]).bind fun cls => some (.property cls negated, skip f rest)))
      (skip f cs) := by
  unfold property?
  split
  · next hskip => rw [hskip]; rfl
  · next hskip => rw [hskip, onPrefix_cons]; rfl
  · next hskip => rw [hskip, onPrefix_cons_of_ne (by decide), onPrefix_cons]
  · next hbrace hslash hskip =>
    rw [hskip, onPrefix_cons_of_ne fun h => hbrace h, onPrefix_cons_of_ne fun h => hslash h]
    rfl

theorem property?_parallel (negated : Bool) :
    Parallel n (property? f negated) (property? f negated) := by
  refine Parallel.congr ?_ (property?_eq negated) (property?_eq negated)
  refine Parallel.comp ?_ (passes_skip f)
  refine .onPrefix ?_ (.onPrefix .none (.next fun c => ?_) (by decide))
    (by decide)
  · exact (Parallel.sized upToBrace?_parallel (passes_skip f) 1).bind fun name =>
      .guard fun q => .pure _
  · exact .guard fun cls => (Parallel.pure _).comp (passes_skip f)

theorem hexEscape?_eq {width : Nat} (hwidth : width ≠ 0) (cs : List Char) :
    hexEscape? f width cs = onPrefix ['\x7b']
      (fun rest => (hexBrace? f (rest.length + 1) none (skip f rest)).bind (uncurry fun n rest =>
        (scalar? n).bind fun n => some (.literal n false, rest)))
      (fun rest => (hexDigits? f width 0 rest).bind (uncurry fun n rest =>
        (scalar? n).bind fun n => some (.literal n (width == 2), rest)))
      (skip f cs) := by
  unfold hexEscape?
  split
  · next hskip =>
    obtain ⟨k, rfl⟩ := Nat.exists_eq_succ_of_ne_zero hwidth
    rw [hskip]
    rfl
  · next hskip => rw [hskip, onPrefix_cons]; rfl
  · next hbrace => rw [onPrefix_of_ne hbrace]; rfl

theorem hexEscape?_parallel {width : Nat} (hwidth : width ≠ 0) :
    Parallel n (hexEscape? f width) (hexEscape? f width) := by
  refine Parallel.congr ?_ (hexEscape?_eq hwidth) (hexEscape?_eq hwidth)
  refine Parallel.comp (.onPrefix ?_ ?_ (by decide)) (passes_skip f)
  · exact (Parallel.sized (fun h => hexBrace?_parallel h none) (passes_skip f) 1).bind fun n =>
      .guard fun n => .pure _
  · exact (hexDigits?_parallel width 0).bind fun n => .guard fun n => .pure _

theorem boundaryName_parallel (h : n ≤ n') :
    Parallel n (fun cs => some (boundaryName f n cs)) (fun cs => some (boundaryName f n' cs)) :=
  parallel_gather f List.cons (fun c => decide (c.isAlpha ∨ c = '-')) (by decide) (fun _ => rfl)
    (fun _ => rfl) (fun n c cs => by rw [boundaryName]; simp only [decide_eq_true_iff]) h

/-- A test of the character behind a given one. -/
def behind (f : Flags) (lead : Char) (test : Option Char → Bool) : List Char → Bool
  | [] => false
  | c :: rest => c == lead && test (skip f rest).head?

theorem behind_of_follows {lead : Char} {test : Option Char → Bool} (hlead : lead ≠ ')')
    (htest : test (some ')') = test none) {cs cs' : List Char} (h : Follows cs cs') :
    behind f lead test cs' = behind f lead test cs := by
  cases cs with
  | nil =>
    rcases h.of_nil with rfl | rfl
    · simp [behind, closing, hlead.symm]
    · rfl
  | cons c cs =>
    obtain ⟨rest, rfl, hrest⟩ := h.of_cons
    rw [behind, behind, ((passes_skip f).follows hrest).test_head? htest]

/-- A brace with the beginning of a name behind it. -/
def namesBoundary (f : Flags) : List Char → Bool :=
  behind f '\x7b' (Option.any fun c => c.isAlpha || c == '-')

/-- A brace with nothing but a closing parenthesis behind it. -/
def opensNothing (f : Flags) : List Char → Bool := behind f '\x7b' (Option.all (· == ')'))

/-- What follows `\b`, unless a brace opens nothing. -/
def settledBoundary? (f : Flags) (cs : List Char) : Option (Primitive × List Char) :=
  if opensNothing f cs then none else wordBoundary? f cs

/-- The element after a backslash, unless it is a boundary before a brace that opens nothing. -/
def settledEscape? (f : Flags) : List Char → Option (Primitive × List Char) :=
  next fun c cs => if c = 'b' then settledBoundary? f cs else escape? f (c :: cs)

/-- The word boundary of the name that follows. -/
def namedBoundary? (f : Flags) : List Char → Option (Primitive × List Char) :=
  onPrefix ['\x7b'] (fun rest =>
    (some (boundaryName f ((skip f rest).length + 0) (skip f rest))).bind (uncurry fun name =>
      onPrefix ['\x7d'] (fun rest =>
        (boundary? f.unicode (String.ofList name)).bind fun l => some (.assertion l, rest))
        fun _ => none)) fun _ => none

theorem settledBoundary?_eq (cs : List Char) : settledBoundary? f cs =
    if namesBoundary f cs then namedBoundary? f cs
    else if opensNothing f cs then none
    else some (.assertion (.wordBoundary f.unicode), cs) := by
  rcases cs with _ | ⟨c, rest⟩
  · rfl
  by_cases hc : c = '\x7b'
  · subst hc
    cases hskip : skip f rest with
    | nil => simp [settledBoundary?, namesBoundary, opensNothing, behind, hskip]
    | cons d inner =>
      by_cases hd : d.isAlpha ∨ d = '-'
      · have hne : d ≠ ')' := by
          rintro rfl
          simp at hd
        have hnames : namesBoundary f ('\x7b' :: rest) = true := by
          simp [namesBoundary, behind, hskip, hd]
        have hopens : opensNothing f ('\x7b' :: rest) ≠ true := by
          simp [opensNothing, behind, hskip, hne]
        rw [settledBoundary?, if_neg hopens, if_pos hnames, namedBoundary?, onPrefix_cons]
        simp only [wordBoundary?, hskip, if_pos hd, Option.bind_some, List.length_cons,
          Nat.add_zero]
        generalize boundaryName f (inner.length + 1) (d :: inner) = q
        obtain ⟨name, after⟩ := q
        dsimp only [uncurry_def]
        split
        · rw [onPrefix_cons]
          rfl
        · next hbrace => rw [onPrefix_of_ne hbrace]
      · simp [settledBoundary?, wordBoundary?, namesBoundary, opensNothing, behind, hskip, hd]
  · simp [settledBoundary?, wordBoundary?, namesBoundary, opensNothing, behind, hc]

theorem namedBoundary?_parallel : Parallel n (namedBoundary? f) (namedBoundary? f) := by
  refine .onPrefix ?_ .none (by decide)
  refine Parallel.bind ?_ fun name => .onPrefix (.guard fun l => .pure _) .none (by decide)
  exact (Parallel.sized boundaryName_parallel passes_id 0).comp (passes_skip f)

theorem settledBoundary?_parallel : Parallel n (settledBoundary? f) (settledBoundary? f) := by
  refine Parallel.congr ?_ settledBoundary?_eq settledBoundary?_eq
  refine .cond (fun h => ?_) namedBoundary?_parallel (.cond (fun h => ?_) .none (.pure _))
  · rw [namesBoundary, behind_of_follows (by decide) rfl h]
  · rw [opensNothing, behind_of_follows (by decide) rfl h]

theorem escape?_parallel {c : Char} (hc : c ≠ 'b') :
    Parallel n (fun cs => escape? f (c :: cs)) (fun cs => escape? f (c :: cs)) := by
  unfold escape?
  dsimp only
  repeat' refine Parallel.ite (fun h => ?_) fun _ => ?_
  all_goals first
    | exact .none
    | exact .pure _
    | exact hexEscape?_parallel (by decide)
    | exact property?_parallel _
    | exact absurd h hc

theorem settledEscape?_parallel : Parallel n (settledEscape? f) (settledEscape? f) :=
  .next fun _ => .ite (fun _ => settledBoundary?_parallel) escape?_parallel

theorem exists_of_opensNothing {cs : List Char} (h : opensNothing f cs = true) :
    ∃ rest, cs = '\x7b' :: rest ∧ (skip f rest = [] ∨ ∃ after, skip f rest = ')' :: after) := by
  rcases cs with _ | ⟨c, rest⟩
  · cases h
  obtain ⟨hc, hhead⟩ := Bool.and_eq_true_iff.mp h
  refine ⟨rest, by rw [beq_iff_eq.mp hc], ?_⟩
  cases hskip : skip f rest with
  | nil => exact .inl rfl
  | cons d after =>
    rw [hskip, List.head?_cons, Option.all_some, beq_iff_eq] at hhead
    exact .inr ⟨after, by rw [hhead]⟩

/-- Before a closing parenthesis there are no bounds of a repetition. -/
theorem bounds?_of_skip {rest after : List Char} (h : skip f rest = ')' :: after) :
    bounds? f rest = none := by
  unfold bounds?
  rw [h]
  rfl

theorem settledEscape?_or (cs : List Char) : settledEscape? f cs = escape? f cs ∨
    settledEscape? f cs = none ∧ ∃ l rest, escape? f cs = some (.assertion l, '\x7b' :: rest) ∧
      bounds? f rest = none := by
  rcases cs with _ | ⟨c, cs⟩
  · exact .inl rfl
  by_cases hc : c = 'b'
  · subst hc
    have hescape : escape? f ('b' :: cs) = wordBoundary? f cs := rfl
    have hsettled : settledEscape? f ('b' :: cs) =
        if opensNothing f cs then none else wordBoundary? f cs := rfl
    rw [hescape, hsettled]
    split_ifs with hopens
    · obtain ⟨rest, rfl, hskip | ⟨after, hskip⟩⟩ := exists_of_opensNothing hopens
      · simp [wordBoundary?, hskip]
      · refine .inr ⟨rfl, .wordBoundary f.unicode, rest, ?_, bounds?_of_skip hskip⟩
        simp [wordBoundary?, hskip]
    · exact .inl rfl
  · exact .inl (if_neg hc)

end CatalogRules.Pattern.Reader
