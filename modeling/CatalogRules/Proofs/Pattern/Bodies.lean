import CatalogRules.Proofs.Pattern.Groups

/-! # Bodies before the closing text

The reader of a body takes one token after another (`bodyFrom?_succ`): an item, a bar, flags, a
repetition, or the opening or the closing of a group. A body that ends with a closing parenthesis is
read in parallel (`closedBody?_parallel`). A body that ends with the text ends with the parenthesis
of the closing text instead, unless a comment hides that (`bodyFrom?_forth`), and there is no other
way to come to it (`bodyFrom?_back`). -/

namespace CatalogRules.Pattern.Reader

open Function (uncurry uncurry_def)

variable {n n' : Nat}

/-! ### Tokens -/

/-- The parts of a body that open and close no group. -/
inductive Part where
  | bar
  | item (piece : Piece)
  | times (least : Nat) (most : Option Nat)
  | flags (f : Flags)

/-- The tokens of a body. -/
inductive Token where
  | close
  | part (p : Part)
  | group (f : Flags) (captures : Bool) (name : Option String)

/-- The token for the beginning of a group. -/
def Opening.token : Opening → Token
  | .flags f => .part (.flags f)
  | .group f captures name => .group f captures name

/-- An item with a given piece, if there is one. -/
def itemToken? (piece : Option Piece) (rest : List Char) : Option (Token × List Char) :=
  piece.bind fun p => some (.part (.item p), rest)

/-- A repetition, which may be followed by a question mark. -/
def timesToken (least : Nat) (most : Option Nat) : List Char → Option (Token × List Char) :=
  onPrefix ['?'] (fun rest => some (.part (.times least most), rest))
    fun rest => some (.part (.times least most), rest)

/-- A class after its opening bracket. -/
def classToken? (f : Flags) (rest : List Char) : Option (Token × List Char) :=
  (beginning f rest).bind (uncurry fun b rest =>
    (classFrom? f (rest.length + 1) (b.1, none, b.2) rest).bind (uncurry fun c rest =>
      itemToken? ((restrict? f c.set).map fun set => ofClass set c.depth) rest))

/-- The piece of an assertion. -/
def lookPiece (l : Look) : Piece := ⟨.atom (.look l), 0, stateWeight⟩

/-- The token that begins with a given character. -/
def tokenAt? (f : Flags) (c : Char) (rest : List Char) : Option (Token × List Char) :=
  if c = ')' then some (.close, rest)
  else if c = '|' then some (.part .bar, rest)
  else if c = '(' then (groupOpening? f rest).map fun p => (p.1.token, p.2)
  else if c = '[' then classToken? f rest
  else if c = '?' then timesToken 0 (some 1) rest
  else if c = '*' then timesToken 0 none rest
  else if c = '+' then timesToken 1 none rest
  else if c = '\x7b' then (boundsPair? f rest).bind (uncurry fun b rest => timesToken b.1 b.2 rest)
  else if c = '\\' then (settledEscape? f rest).bind (uncurry fun p rest =>
    itemToken? (ofPrimitive? f p) rest)
  else if c = '.' then itemToken? (dot? f) rest
  else if c = '^' then
    some (.part (.item (lookPiece (if f.multiline then .startLine f.crlf else .startText))), rest)
  else if c = '$' then
    some (.part (.item (lookPiece (if f.multiline then .endLine f.crlf else .endText))), rest)
  else itemToken? (ofPrimitive? f (.literal c.toNat false)) rest

theorem itemToken?_parallel (piece : Option Piece) :
    Parallel n (itemToken? piece) (itemToken? piece) :=
  .guard fun p => .pure (Token.part (.item p))

theorem timesToken_parallel (least : Nat) (most : Option Nat) :
    Parallel n (timesToken least most) (timesToken least most) :=
  .onPrefix (.pure _) (.pure _) (by decide)

theorem classToken?_parallel {f : Flags} : Parallel n (classToken? f) (classToken? f) :=
  beginning_parallel.bind fun _ =>
    (Parallel.sized (fun h => classFrom?_parallel h _) passes_id 1).bind fun _ =>
      itemToken?_parallel _

theorem tokenAt?_parallel {f : Flags} (c : Char) : Parallel n (tokenAt? f c) (tokenAt? f c) := by
  unfold tokenAt?
  repeat' refine Parallel.ite (fun _ => ?_) fun _ => ?_
  all_goals first
    | exact .pure _
    | exact groupOpening?_parallel.map _
    | exact classToken?_parallel
    | exact timesToken_parallel _ _
    | exact itemToken?_parallel _
    | exact boundsPair?_parallel.bind fun _ => timesToken_parallel _ _
    | exact settledEscape?_parallel.bind fun _ => itemToken?_parallel _

/-! ### The state of a body -/

/-- What the reader of a body knows at a place: the flags in force, the names of groups, and the
items and alternatives before it in reverse order. -/
structure State where
  flags : Flags
  names : List String
  items : List Item
  alts : List Piece

namespace State

/-- The state at the beginning of a body. -/
def start (f : Flags) (names : List String) : State := ⟨f, names, [], []⟩

/-- The piece of what has been read. -/
def piece (s : State) : Piece :=
  match (sequence s.items.reverse :: s.alts).reverse with
  | [] => sequence []
  | first :: others => choice first others

/-- The state with one more item. -/
def add (s : State) (piece : Piece) : State := { s with items := ⟨piece, true⟩ :: s.items }

/-- The state after a part. -/
def after? (s : State) : Part → Option State
  | .bar => some { s with items := [], alts := sequence s.items.reverse :: s.alts }
  | .item piece => some (s.add piece)
  | .times least most =>
    match s.items with
    | ⟨piece, true⟩ :: before =>
      some { s with items := ⟨repetition piece least most, true⟩ :: before }
    | _ => none
  | .flags f => some { s with flags := f, items := ⟨⟨.empty, 0, 0⟩, false⟩ :: s.items }

/-- The state at the beginning of a group; its name must be a new one. -/
def enter? (s : State) (f : Flags) (name : Option String) : Option State :=
  match name with
  | some n => if n ∈ s.names then none else some (start f (n :: s.names))
  | none => some (start f s.names)

/-- The state after a group. -/
def leave (s : State) (captures : Bool) (name : Option String) (piece : Piece)
    (names : List String) : State :=
  let more := if name.isSome ∨ captures then 2 * stateWeight else 0
  { s with names := names }.add ⟨piece.regex, piece.depth + 1, piece.weight + more⟩

end State

/-- The body from a place on. -/
def bodyFrom? (fuel : Nat) (s : State) (cs : List Char) : Option Body :=
  body? fuel s.flags s.names s.items s.alts cs

/-- The piece and the names of groups of a body that ends with a closing parenthesis. -/
def closedBody? (fuel : Nat) (s : State) (cs : List Char) :
    Option ((Piece × List String) × List Char) :=
  (bodyFrom? fuel s cs).bind fun b => if b.closed then some ((b.piece, b.names), b.rest) else none

/-- What follows a token, given readers for the body of a group, for the rest of the body, and for
what follows the end of the body. -/
def follow {β : Type} (inner : State → List Char → Option ((Piece × List String) × List Char))
    (go : State → List Char → Option β) (close : List Char → Option β) (s : State) (t : Token)
    (rest : List Char) : Option β :=
  match t with
  | .close => close rest
  | .group f captures name => (s.enter? f name).bind fun s' =>
    (inner s' rest).bind (uncurry fun p rest => go (s.leave captures name p.1 p.2) rest)
  | .part p => (s.after? p).bind fun s' => go s' rest

section
variable {β : Type} {inner : State → List Char → Option ((Piece × List String) × List Char)}
  {go : State → List Char → Option β} {close : List Char → Option β} {s : State}

theorem bind_itemToken? (piece : Option Piece) (rest : List Char) :
    (itemToken? piece rest).bind (uncurry (follow inner go close s)) =
      piece.bind fun p => go (s.add p) rest := by
  cases piece <;> rfl

theorem bind_timesToken (least : Nat) (most : Option Nat) (rest : List Char) :
    (timesToken least most rest).bind (uncurry (follow inner go close s)) =
      (s.after? (.times least most)).bind fun s' => go s' (match rest with
        | '?' :: rest => rest
        | rest => rest) := by
  unfold timesToken
  split
  · rw [onPrefix_cons]
    rfl
  · next hne =>
    rw [onPrefix_of_ne hne]
    rfl

end

/-- A brace without bounds ends the body. -/
theorem bodyFrom?_brace {fuel : Nat} {s : State} {rest : List Char}
    (h : bounds? s.flags rest = none) : bodyFrom? fuel s ('\x7b' :: rest) = none := by
  cases fuel with
  | zero => rfl
  | succ fuel =>
    unfold bodyFrom? body?
    simp only [skip_brace, h]
    rfl

theorem bind_group (fuel : Nat) (s : State) (rest : List Char) (close : List Char → Option Body) :
    ((groupOpening? s.flags rest).map fun p => (p.1.token, p.2)).bind
      (uncurry (follow (closedBody? fuel) (bodyFrom? fuel) close s)) =
    match groupOpening? s.flags rest with
    | none => none
    | some (.flags g, rest) =>
      body? fuel g s.names (⟨⟨.empty, 0, 0⟩, false⟩ :: s.items) s.alts rest
    | some (.group g captures name, rest) =>
      match name with
      | some n =>
        if n ∈ s.names then none
        else
          match body? fuel g (n :: s.names) [] [] rest with
          | some ⟨p, names, true, rest⟩ =>
            body? fuel s.flags names
              (⟨⟨p.regex, p.depth + 1, p.weight + 2 * stateWeight⟩, true⟩ :: s.items) s.alts rest
          | _ => none
      | none =>
        match body? fuel g s.names [] [] rest with
        | some ⟨p, names, true, rest⟩ =>
          let more := if captures then 2 * stateWeight else 0
          body? fuel s.flags names
            (⟨⟨p.regex, p.depth + 1, p.weight + more⟩, true⟩ :: s.items) s.alts rest
        | _ => none := by
  rcases groupOpening? s.flags rest with _ | ⟨g | ⟨g, captures, _ | n⟩, rest⟩
  · rfl
  · rfl
  · dsimp only [Option.map_some, Opening.token, Option.bind_some, uncurry_def, follow, State.enter?,
      closedBody?, bodyFrom?, State.start]
    rcases body? fuel g s.names [] [] rest with _ | ⟨p, names, _ | _, rest⟩
    · rfl
    · rfl
    · cases captures <;> rfl
  · dsimp only [Option.map_some, Opening.token, Option.bind_some, uncurry_def, follow, State.enter?,
      closedBody?, bodyFrom?, State.start]
    split_ifs
    · rfl
    · rw [Option.bind_some]
      dsimp only
      rcases body? fuel g (n :: s.names) [] [] rest with _ | ⟨p, names, _ | _, rest⟩ <;> rfl

theorem bind_classToken? (fuel : Nat) (s : State) (rest : List Char)
    (close : List Char → Option Body) :
    (classToken? s.flags rest).bind (uncurry (follow (closedBody? fuel) (bodyFrom? fuel) close s)) =
      (opening? s.flags rest).bind fun b =>
        (class? s.flags (b.2.2.length + 1) b.1 none b.2.1 b.2.2).bind fun c =>
          (restrict? s.flags c.1.set).bind fun set =>
            bodyFrom? fuel (s.add (ofClass set c.1.depth)) c.2 := by
  rw [← bind_beginning (K := fun negated items rest =>
    (class? s.flags (rest.length + 1) negated none items rest).bind fun c =>
      (restrict? s.flags c.1.set).bind fun set =>
        bodyFrom? fuel (s.add (ofClass set c.1.depth)) c.2) fun _ _ => by rw [class?_nil]; rfl]
  unfold classToken?
  rcases beginning s.flags rest with _ | ⟨b, rest⟩
  · rfl
  · dsimp only [Option.bind_some, uncurry_def, classFrom?]
    rcases class? s.flags (rest.length + 1) b.1 none b.2 rest with _ | ⟨c, rest⟩
    · rfl
    · dsimp only [Option.bind_some, uncurry_def]
      cases restrict? s.flags c.set <;> rfl

theorem bind_escapeToken? (fuel : Nat) (s : State) (rest : List Char)
    (close : List Char → Option Body) :
    ((settledEscape? s.flags rest).bind (uncurry fun p rest =>
      itemToken? (ofPrimitive? s.flags p) rest)).bind
        (uncurry (follow (closedBody? fuel) (bodyFrom? fuel) close s)) =
      (escape? s.flags rest).bind fun p => (ofPrimitive? s.flags p.1).bind fun piece =>
        bodyFrom? fuel (s.add piece) p.2 := by
  rcases settledEscape?_or (f := s.flags) rest with heq | ⟨hnone, l, after, hsome, hbounds⟩
  · rw [heq]
    rcases escape? s.flags rest with _ | ⟨p, rest⟩
    · rfl
    · exact bind_itemToken? (ofPrimitive? s.flags p) rest
  · -- the brace is refused here, or as a repetition one token later
    rw [hnone, hsome]
    exact (bodyFrom?_brace (s := s.add (lookPiece l)) hbounds).symm

theorem bind_repeated (fuel : Nat) (s : State) (least : Nat) (most : Option Nat)
    (rest : List Char) (close : List Char → Option Body) :
    (timesToken least most rest).bind
      (uncurry (follow (closedBody? fuel) (bodyFrom? fuel) close s)) =
    match s.items with
    | ⟨piece, true⟩ :: before =>
      body? fuel s.flags s.names (⟨repetition piece least most, true⟩ :: before) s.alts
        (match rest with
          | '?' :: rest => rest
          | rest => rest)
    | _ => none := by
  rw [bind_timesToken]
  unfold State.after?
  rcases s.items with _ | ⟨⟨piece, _ | _⟩, before⟩ <;> rfl

/-- The alternatives before the end of a body are its piece. -/
theorem finish_eq (s : State) (closed : Bool) (rest : List Char) :
    (match (sequence s.items.reverse :: s.alts).reverse with
      | [] => none
      | first :: others => some (Body.mk (choice first others) s.names closed rest)) =
      some ⟨s.piece, s.names, closed, rest⟩ := by
  unfold State.piece
  split
  · next hnil => simp at hnil
  · rfl

/-- The body from a place on, token by token. -/
theorem bodyFrom?_succ (fuel : Nat) (s : State) (cs : List Char) : bodyFrom? (fuel + 1) s cs =
    match skip s.flags cs with
    | [] => some ⟨s.piece, s.names, false, []⟩
    | c :: rest => (tokenAt? s.flags c rest).bind (uncurry
        (follow (closedBody? fuel) (bodyFrom? fuel)
          (fun rest => some ⟨s.piece, s.names, true, rest⟩) s)) := by
  rw [bodyFrom?, body?]
  dsimp only
  split
  · next hskip =>
    rw [hskip]
    exact finish_eq s false []
  · next rest hskip =>
    rw [hskip]
    exact finish_eq s true rest
  · next hskip =>
    rw [hskip]
    rfl
  · next rest hskip =>
    rw [hskip]
    exact (bind_group fuel s rest _).symm
  · next rest hskip =>
    rw [hskip]
    exact (bind_classToken? fuel s rest _).symm
  · next rest hskip =>
    rw [hskip]
    exact (bind_repeated fuel s 0 (some 1) rest _).symm
  · next rest hskip =>
    rw [hskip]
    exact (bind_repeated fuel s 0 none rest _).symm
  · next rest hskip =>
    rw [hskip]
    exact (bind_repeated fuel s 1 none rest _).symm
  · next rest hskip =>
    rw [hskip]
    show _ = ((boundsPair? s.flags rest).bind _).bind _
    unfold boundsPair?
    rcases bounds? s.flags rest with _ | ⟨least, most, rest⟩
    · rfl
    · exact (bind_repeated fuel s least most rest _).symm
  · next rest hskip =>
    rw [hskip]
    exact (bind_escapeToken? fuel s rest _).symm
  · next rest hskip =>
    rw [hskip]
    show _ = (itemToken? _ rest).bind (uncurry (follow (closedBody? fuel) (bodyFrom? fuel) _ s))
    rw [bind_itemToken?]
    rfl
  · next hskip =>
    rw [hskip]
    rfl
  · next hskip =>
    rw [hskip]
    rfl
  · next c rest hclose hbar hgroup hclass hoption hstar hplus hbrace hescape hdot hstart hend
      hskip =>
    rw [hskip]
    dsimp only
    rw [tokenAt?, if_neg hclose, if_neg hbar, if_neg hgroup, if_neg hclass, if_neg hoption,
      if_neg hstar, if_neg hplus, if_neg hbrace, if_neg hescape, if_neg hdot, if_neg hstart,
      if_neg hend, bind_itemToken?]
    rfl

/-! ### What follows a token -/

theorem closedBody?_eq_some {fuel : Nat} {s : State} {cs : List Char} {p : Piece × List String}
    {rest : List Char} : closedBody? fuel s cs = some (p, rest) ↔
      bodyFrom? fuel s cs = some ⟨p.1, p.2, true, rest⟩ := by
  unfold closedBody?
  rcases bodyFrom? fuel s cs with _ | ⟨piece, names, _ | _, rest'⟩
  · simp
  · simp
  · simp [Prod.ext_iff, and_assoc]

/-- What follows a token in a body: the end of the body, its rest, or a group and the rest after
that. -/
inductive Goes (fuel : Nat) (s : State) : Token → List Char → Body → Prop
  | close {rest : List Char} : Goes fuel s .close rest ⟨s.piece, s.names, true, rest⟩
  | part {p : Part} {s' : State} {rest : List Char} {b : Body} (hs' : s.after? p = some s')
    (hb : bodyFrom? fuel s' rest = some b) : Goes fuel s (.part p) rest b
  | group {f : Flags} {captures : Bool} {name : Option String} {s' : State} {piece : Piece}
    {names : List String} {rest after : List Char} {b : Body} (hs' : s.enter? f name = some s')
    (hp : bodyFrom? fuel s' rest = some ⟨piece, names, true, after⟩)
    (hb : bodyFrom? fuel (s.leave captures name piece names) after = some b) :
    Goes fuel s (.group f captures name) rest b

theorem goes_iff {fuel : Nat} {s : State} {t : Token} {rest : List Char} {b : Body} :
    follow (closedBody? fuel) (bodyFrom? fuel) (fun rest => some ⟨s.piece, s.names, true, rest⟩)
      s t rest = some b ↔ Goes fuel s t rest b := by
  constructor
  · intro h
    cases t with
    | close =>
      cases h
      exact .close
    | part p =>
      obtain ⟨s', hs', hb⟩ := Option.bind_eq_some_iff.mp h
      exact .part hs' hb
    | group f captures name =>
      obtain ⟨s', hs', h⟩ := Option.bind_eq_some_iff.mp h
      obtain ⟨⟨p, after⟩, hp, hb⟩ := Option.bind_eq_some_iff.mp h
      exact .group hs' (closedBody?_eq_some.mp hp) hb
  · rintro (_ | ⟨hs', hb⟩ | ⟨hs', hp, hb⟩)
    · rfl
    · exact Option.bind_eq_some_iff.mpr ⟨_, hs', hb⟩
    · have hp' := (closedBody?_eq_some (p := (_, _))).mpr hp
      exact Option.bind_eq_some_iff.mpr ⟨_, hs', Option.bind_eq_some_iff.mpr ⟨_, hp', hb⟩⟩

/-- **A body is read from a place on if the text ends there, or if a token is read and what follows
that.** -/
theorem bodyFrom?_eq_some {fuel : Nat} {s : State} {cs : List Char} {b : Body} :
    bodyFrom? (fuel + 1) s cs = some b ↔
      skip s.flags cs = [] ∧ b = ⟨s.piece, s.names, false, []⟩ ∨
      ∃ c rest t after, skip s.flags cs = c :: rest ∧
        tokenAt? s.flags c rest = some (t, after) ∧ Goes fuel s t after b := by
  rw [bodyFrom?_succ]
  cases hskip : skip s.flags cs with
  | nil => simp [eq_comm]
  | cons c rest =>
    dsimp only
    constructor
    · intro h
      obtain ⟨⟨t, after⟩, ht, hgo⟩ := Option.bind_eq_some_iff.mp h
      exact .inr ⟨c, rest, t, after, rfl, ht, goes_iff.mp hgo⟩
    · rintro (⟨hnil, -⟩ | ⟨_, _, t, after, heq, ht, hgo⟩)
      · cases hnil
      · cases heq
        exact Option.bind_eq_some_iff.mpr ⟨(t, after), ht, goes_iff.mpr hgo⟩

/-! ### Bodies that end with a parenthesis -/

section
variable {β : Type} {inner : State → List Char → Option ((Piece × List String) × List Char)}
  {go : State → List Char → Option β} {close : List Char → Option β} {s : State}

theorem bind_follow {γ : Type} (g : β → Option γ) (t : Token) (rest : List Char) :
    (follow inner go close s t rest).bind g =
      follow inner (fun s cs => (go s cs).bind g) (fun cs => (close cs).bind g) s t rest := by
  cases t with
  | close => rfl
  | part p => exact Option.bind_assoc ..
  | group f captures name =>
    dsimp only [follow]
    rw [Option.bind_assoc]
    refine Option.bind_congr fun s' _ => ?_
    exact Option.bind_assoc ..

end

theorem closedBody?_succ (fuel : Nat) (s : State) (cs : List Char) :
    closedBody? (fuel + 1) s cs = next (fun c rest =>
      (tokenAt? s.flags c rest).bind (uncurry (follow (closedBody? fuel) (closedBody? fuel)
        (fun rest => some ((s.piece, s.names), rest)) s))) (skip s.flags cs) := by
  rw [closedBody?, bodyFrom?_succ]
  rcases skip s.flags cs with _ | ⟨c, rest⟩
  · rfl
  · dsimp only [next]
    rw [Option.bind_assoc]
    refine Option.bind_congr fun p _ => ?_
    exact bind_follow _ p.1 p.2

theorem follow_parallel {s : State} (h : ∀ s, Parallel n (closedBody? n s) (closedBody? n' s))
    (t : Token) : Parallel n
      (follow (closedBody? n) (closedBody? n)
        (fun rest => some ((s.piece, s.names), rest)) s t)
      (follow (closedBody? n') (closedBody? n')
        (fun rest => some ((s.piece, s.names), rest)) s t) := by
  cases t with
  | close => exact .pure _
  | part p => exact .guard h
  | group f captures name => exact .guard fun s' => (h s').bind fun p => h _

theorem closedBody?_parallel (h : n ≤ n') (s : State) :
    Parallel n (closedBody? n s) (closedBody? n' s) := by
  refine Parallel.rounds (F := fun n s => closedBody? n s) (fun _ => .none) (fun s => ?_) ?_ h s
  · rw [closedBody?_succ, (passes_skip s.flags).nil]
    rfl
  · intro n n' ih s
    refine Parallel.congr ?_ (closedBody?_succ n s) (closedBody?_succ n' s)
    refine Parallel.comp (.next_of_le (fun c => ?_) le_rfl) (passes_skip s.flags)
    exact (tokenAt?_parallel c).bind (follow_parallel ih)

/-- Only a closing parenthesis closes a body. -/
theorem eq_of_tokenAt?_close {f : Flags} {c : Char} {rest after : List Char}
    (h : tokenAt? f c rest = some (.close, after)) : c = ')' ∧ after = rest := by
  have hitem : ∀ piece rest, itemToken? piece rest ≠ some (.close, after) := by
    rintro (_ | piece) rest h <;> cases h
  have htimes : ∀ least most rest, timesToken least most rest ≠ some (.close, after) := by
    intro least most rest h
    unfold timesToken onPrefix at h
    split_ifs at h <;> cases h
  have hite : ∀ {p : Prop} [Decidable p] {x y : Option (Token × List Char)},
      x ≠ some (.close, after) → y ≠ some (.close, after) →
        (if p then x else y) ≠ some (.close, after) := by
    intro p _ x y hx hy
    split_ifs
    · exact hx
    · exact hy
  by_cases hc : c = ')'
  · rw [tokenAt?, if_pos hc] at h
    cases h
    exact ⟨hc, rfl⟩
  · exfalso
    revert h
    rw [tokenAt?, if_neg hc]
    refine hite nofun (hite ?_ (hite ?_ ?_))
    · intro h
      obtain ⟨⟨o, _⟩, -, h⟩ := Option.map_eq_some_iff.mp h
      cases o <;> cases h
    · intro h
      obtain ⟨_, -, h⟩ := Option.bind_eq_some_iff.mp h
      obtain ⟨_, -, h⟩ := Option.bind_eq_some_iff.mp h
      exact hitem _ _ h
    · refine hite (htimes _ _ _) (hite (htimes _ _ _) (hite (htimes _ _ _) (hite ?_ (hite ?_ ?_))))
      · intro h
        obtain ⟨_, -, h⟩ := Option.bind_eq_some_iff.mp h
        exact htimes _ _ _ h
      · intro h
        obtain ⟨_, -, h⟩ := Option.bind_eq_some_iff.mp h
        exact hitem _ _ h
      · exact hite (hitem _ _) (hite nofun (hite nofun (hitem _ _)))

theorem suffix_of_closed : ∀ {fuel : Nat} {s : State} {cs : List Char} {b : Body},
    bodyFrom? fuel s cs = some b → b.closed = true → ')' :: b.rest <:+ cs
  | 0, _, _, _, h, _ => by cases h
  | fuel + 1, s, cs, b, h, hclosed => by
    rcases bodyFrom?_eq_some.mp h with ⟨-, rfl⟩ | ⟨c, rest, t, after, hskip, ht, hgo⟩
    · cases hclosed
    · have hcons : c :: rest <:+ cs := hskip ▸ (passes_skip s.flags).suffix cs
      have hafter : after <:+ cs :=
        (((tokenAt?_parallel (n := 0) c).suffix ht).trans (List.suffix_cons c rest)).trans hcons
      cases hgo with
      | close =>
        obtain ⟨rfl, rfl⟩ := eq_of_tokenAt?_close ht
        exact hcons
      | part _ hb => exact (suffix_of_closed hb hclosed).trans hafter
      | group _ hp hb =>
        have hinner := (suffix_of_closed hp rfl).trans hafter
        exact ((suffix_of_closed hb hclosed).trans (List.suffix_cons ')' _)).trans hinner

/-- More fuel than is needed changes nothing. -/
theorem bodyFrom?_mono : ∀ {n n' : Nat} {s : State} {cs : List Char} {b : Body}, n ≤ n' →
    bodyFrom? n s cs = some b → bodyFrom? n' s cs = some b
  | 0, _, _, _, _, _, h => by cases h
  | n + 1, 0, _, _, _, hle, _ => absurd hle (Nat.not_succ_le_zero n)
  | n + 1, n' + 1, s, cs, b, hle, h => by
    have hle' := Nat.le_of_succ_le_succ hle
    refine bodyFrom?_eq_some.mpr ((bodyFrom?_eq_some.mp h).imp id ?_)
    rintro ⟨c, rest, t, after, hskip, ht, hgo⟩
    refine ⟨c, rest, t, after, hskip, ht, ?_⟩
    cases hgo with
    | close => exact .close
    | part hs' hb => exact .part hs' (bodyFrom?_mono hle' hb)
    | group hs' hp hb => exact .group hs' (bodyFrom?_mono hle' hp) (bodyFrom?_mono hle' hb)

/-! ### Bodies that end with the text -/

theorem length_lt_of_skip {f : Flags} {c : Char} {cs rest : List Char}
    (h : skip f cs = c :: rest) : rest.length < cs.length := by
  have hlength := ((passes_skip f).suffix cs).length_le
  rw [h, List.length_cons] at hlength
  exact hlength

/-- A body that ends with the text ends with the closing parenthesis behind the text, or a comment
goes on to its end. -/
theorem bodyFrom?_forth : ∀ {n n' : Nat} {s : State} {cs cs' : List Char} {b : Body},
    cs.length < n → n ≤ n' → Follows cs cs' → bodyFrom? n s cs = some b → b.closed = false →
    bodyFrom? n' s cs' = some ⟨b.piece, b.names, true, ['$']⟩ ∨ bodyFrom? n' s cs' = some b
  | 0, _, _, _, _, _, hlt, _, _, _, _ => absurd hlt (Nat.not_lt_zero _)
  | n + 1, 0, _, _, _, _, _, hle, _, _, _ => absurd hle (Nat.not_succ_le_zero n)
  | n + 1, n' + 1, s, cs, cs', b, hlt, hle, hfollows, h, hopen => by
    have hle' := Nat.le_of_succ_le_succ hle
    have hskips := (passes_skip s.flags).follows hfollows
    rcases bodyFrom?_eq_some.mp h with ⟨hskip, rfl⟩ | ⟨c, rest, t, after, hskip, ht, hgo⟩
    · rw [hskip] at hskips
      rcases hskips.of_nil with hskip' | hskip'
      · exact .inl (bodyFrom?_eq_some.mpr (.inr ⟨')', ['$'], .close, ['$'], hskip', rfl, .close⟩))
      · exact .inr (bodyFrom?_eq_some.mpr (.inl ⟨hskip', rfl⟩))
    · have hrestlt := length_lt_of_skip hskip
      rw [hskip] at hskips
      obtain ⟨rest', hskip', hrest⟩ := hskips.of_cons
      obtain ⟨after', ht', hafter, hafterle⟩ :=
        (tokenAt?_parallel c).forth_le (n := n) (by omega) hrest ht
      have hread : ∀ {b'}, Goes n' s t after' b' → bodyFrom? (n' + 1) s cs' = some b' :=
        fun hgo' => bodyFrom?_eq_some.mpr (.inr ⟨c, rest', t, after', hskip', ht', hgo'⟩)
      cases hgo with
      | close => cases hopen
      | part hs' hb =>
        exact (bodyFrom?_forth (by omega) hle' hafter hb hopen).imp
          (fun hb' => hread (.part hs' hb')) fun hb' => hread (.part hs' hb')
      | group hs' hp hb =>
        obtain ⟨last', hp', hlast, hlastle⟩ := (closedBody?_parallel hle' _).forth_le (by omega)
          hafter (closedBody?_eq_some (p := (_, _)).mpr hp)
        rw [closedBody?_eq_some] at hp'
        exact (bodyFrom?_forth (by omega) hle' hlast hb hopen).imp
          (fun hb' => hread (.group hs' hp' hb')) fun hb' => hread (.group hs' hp' hb')

/-- A body that ends with the parenthesis of the closing text ends with the text before that. -/
theorem bodyFrom?_back : ∀ {n n' : Nat} {s : State} {cs : List Char} {piece : Piece}
    {names : List String}, cs.length < n → n ≤ n' →
    bodyFrom? n' s (cs ++ closing) = some ⟨piece, names, true, ['$']⟩ →
    bodyFrom? n s cs = some ⟨piece, names, false, []⟩
  | 0, _, _, _, _, _, hlt, _, _ => absurd hlt (Nat.not_lt_zero _)
  | n + 1, 0, _, _, _, _, _, hle, _ => absurd hle (Nat.not_succ_le_zero n)
  | n + 1, n' + 1, s, cs, piece, names, hlt, hle, h => by
    have hle' := Nat.le_of_succ_le_succ hle
    -- a body that ends this way leaves the closing text to all that is read before
    have hclosing : ∀ {s' after}, bodyFrom? n' s' after = some ⟨piece, names, true, ['$']⟩ →
        ∃ cs, after = cs ++ closing := fun {s' after} h => by
      have hsuffix : [] ++ closing <:+ after := suffix_of_closed h rfl
      obtain ⟨cs, hcs, -⟩ := eq_append_of_suffix hsuffix
      exact ⟨cs, hcs⟩
    rcases bodyFrom?_eq_some.mp h with ⟨-, hb⟩ | ⟨c, rest', t, after', hskip', ht', hgo⟩
    · cases hb
    rcases (passes_skip s.flags).append cs with happend | ⟨-, hnil⟩
    · rw [happend] at hskip'
      cases hskip : skip s.flags cs with
      | nil =>
        rw [hskip] at hskip'
        obtain ⟨rfl, rfl⟩ := List.cons.inj hskip'
        obtain ⟨rfl, rfl⟩ : t = .close ∧ after' = ['$'] := by
          rw [tokenAt?, if_pos rfl] at ht'
          simpa [eq_comm] using ht'
        cases hgo
        exact bodyFrom?_eq_some.mpr (.inl ⟨hskip, rfl⟩)
      | cons c' rest =>
        have hrestlt := length_lt_of_skip hskip
        rw [hskip, List.cons_append] at hskip'
        obtain ⟨rfl, rfl⟩ := List.cons.inj hskip'
        have htoken := tokenAt?_parallel (f := s.flags) (n := n) c'
        cases hgo with
        | close =>
          have hlength := congrArg List.length (eq_of_tokenAt?_close ht').2
          simp [closing] at hlength
        | part hs' hb =>
          obtain ⟨after, rfl⟩ := hclosing hb
          obtain ⟨ht, hafterle⟩ := htoken.back_le (by omega) ht'
          have hb' := bodyFrom?_back (n := n) (by omega) hle' hb
          exact bodyFrom?_eq_some.mpr (.inr ⟨c', rest, _, after, hskip, ht, .part hs' hb'⟩)
        | group hs' hp hb =>
          have hinner := closedBody?_parallel hle'
          rw [← closedBody?_eq_some (p := (_, _))] at hp
          obtain ⟨last, rfl⟩ := hclosing hb
          obtain ⟨after, rfl, -⟩ := eq_append_of_suffix ((hinner _).suffix hp)
          obtain ⟨ht, hafterle⟩ := htoken.back_le (by omega) ht'
          obtain ⟨hp', hlastle⟩ := (hinner _).back_le (by omega) hp
          have hb' := bodyFrom?_back (n := n) (by omega) hle' hb
          exact bodyFrom?_eq_some.mpr (.inr
            ⟨c', rest, _, after, hskip, ht, .group hs' (closedBody?_eq_some.mp hp') hb'⟩)
    · rw [hnil] at hskip'
      cases hskip'

end CatalogRules.Pattern.Reader
