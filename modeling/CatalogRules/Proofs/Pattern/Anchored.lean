import CatalogRules.Proofs.Pattern.Bodies
import CatalogRules.Proofs.Pattern.Lawful
import CatalogRules.Proofs.Pattern.Matching

/-! # Anchored patterns

A pattern is anchored by pasting its text between `^(?:` and `)$`. If the reader reads the anchored
form, then either the pattern closes the group around it by a parenthesis of its own, or it is read
alone and the anchored form writes the same expression between the marks for the start and the end
of the text (`exists_of_piece?_anchored`). Conversely a pattern that is read alone is read in its
anchored form, unless a comment at its end hides the closing text (`piece?_anchored`). So the reader
keeps to the laws of expressions. -/

namespace CatalogRules.Pattern

open Reader

/-- The piece of a pattern that is read to its end. -/
def piece? (pattern : List Char) : Option Piece :=
  (bodyFrom? (pattern.length + 1) (.start {} []) pattern).bind fun b =>
    if b.closed then none else some b.piece

/-- The pattern as far as a closing parenthesis that is met while no group of it is open. -/
def overclosed? (pattern : List Char) : Option ((Piece × List String) × List Char) :=
  closedBody? (pattern.length + 1) (.start {} []) pattern

/-- A piece between the marks for the start and the end of the text, in a group of its own. -/
def enclose (p : Piece) : Piece :=
  ⟨.seq (.atom (.look .startText)) (.seq p.regex (.seq (.atom (.look .endText)) .empty)),
    p.depth + 2, p.weight + 2 * stateWeight⟩

theorem parse_eq (pattern : String) : Reader.parse pattern =
    match piece? pattern.toList, overclosed? pattern.toList with
    | some p, _ => .ok p
    | none, some _ => .error .unopened
    | none, none => .error .other := by
  unfold Reader.parse piece? overclosed? closedBody? bodyFrom? State.start
  dsimp only
  rcases body? (pattern.toList.length + 1) {} [] [] [] pattern.toList with
    _ | ⟨p, names, _ | _, rest⟩ <;> rfl

/-- The characters of a pattern in its anchored form. -/
def pasted (cs : List Char) : List Char := '^' :: '(' :: '?' :: ':' :: (cs ++ closing)

theorem toList_anchored (pattern : String) : (anchored pattern).toList = pasted pattern.toList := by
  rw [anchored, String.toList_append, String.toList_append, List.append_assoc]
  rfl

theorem length_pasted (cs : List Char) : (pasted cs).length + 1 = cs.length + 5 + 2 := by
  simp [pasted, closing]

/-- The state after the group around an anchored pattern. -/
def afterGroup (p : Piece) (names : List String) : State :=
  ((State.start {} []).add (lookPiece .startText)).leave false none p names

theorem bodyFrom?_pasted (fuel : Nat) (cs : List Char) :
    bodyFrom? (fuel + 2) (.start {} []) ('^' :: '(' :: '?' :: ':' :: cs) =
      (closedBody? fuel (.start {} []) cs).bind fun q =>
        bodyFrom? fuel (afterGroup q.1.1 q.1.2) q.2 := by
  have hstart : bodyFrom? (fuel + 2) (.start {} []) ('^' :: '(' :: '?' :: ':' :: cs) =
      bodyFrom? (fuel + 1) ((State.start {} []).add (lookPiece .startText))
        ('(' :: '?' :: ':' :: cs) := bodyFrom?_succ (fuel + 1) _ _
  exact hstart.trans (bodyFrom?_succ fuel _ _)

theorem bodyFrom?_end (fuel : Nat) (p : Piece) (names : List String) :
    bodyFrom? (fuel + 2) (afterGroup p names) ['$'] = some ⟨enclose p, names, false, []⟩ := by
  have hpiece : ((afterGroup p names).add (lookPiece .endText)).piece = enclose p := by
    show Piece.mk _ _ _ = Piece.mk _ _ _
    congr 1
    · show 1 + max 0 (max (p.depth + 1) (max 0 0)) = p.depth + 2
      omega
    · show stateWeight + (p.weight + 0 + (stateWeight + 0)) = p.weight + 2 * stateWeight
      omega
  have hend : bodyFrom? (fuel + 2) (afterGroup p names) ['$'] =
      bodyFrom? (fuel + 1) ((afterGroup p names).add (lookPiece .endText)) [] :=
    bodyFrom?_succ (fuel + 1) _ _
  rw [← hpiece]
  exact hend.trans (bodyFrom?_succ fuel _ _)

/-- A group around a pattern is closed by the closing text or by the pattern. -/
theorem rest_of_closedBody? {fuel : Nat} {pattern : List Char} {q : Piece × List String}
    {rest : List Char}
    (h : closedBody? fuel (.start {} []) (pattern ++ closing) = some (q, rest)) :
    rest = ['$'] ∨ ∃ cs, rest = cs ++ closing := by
  have hsuffix : ')' :: rest <:+ pattern ++ closing :=
    suffix_of_closed (closedBody?_eq_some.mp h) rfl
  rcases List.suffix_or_suffix_of_suffix hsuffix (List.suffix_append pattern closing) with h | h
  · left
    simpa [closing, List.suffix_cons_iff] using h
  · rcases List.suffix_cons_iff.mp h with heq | ⟨cs, hcs⟩
    · exact .inl (List.cons.inj heq).2.symm
    · exact .inr ⟨cs, hcs.symm⟩

variable {cs : List Char} {p q : Piece}

theorem overclosed?_eq_none (h : piece? cs = some p) : overclosed? cs = none := by
  obtain ⟨b, hb, hopen⟩ := Option.bind_eq_some_iff.mp h
  unfold overclosed? closedBody?
  rw [hb, Option.bind_some]
  split_ifs at hopen ⊢
  rfl

/-- **The anchored form of a pattern that closes no group but its own is read as the pattern alone,
between the marks for the start and the end of the text.** -/
theorem exists_of_piece?_pasted (h : piece? (pasted cs) = some q) :
    (∃ p, piece? cs = some p ∧ q = enclose p) ∨ (overclosed? cs).isSome := by
  obtain ⟨b, hb, hopen⟩ := Option.bind_eq_some_iff.mp h
  rw [length_pasted, pasted, bodyFrom?_pasted] at hb
  obtain ⟨⟨⟨p, names⟩, rest⟩, hgroup, hb⟩ := Option.bind_eq_some_iff.mp hb
  rcases rest_of_closedBody? hgroup with rfl | ⟨after, rfl⟩
  · have hp := bodyFrom?_back (Nat.lt_succ_self _) (by omega) (closedBody?_eq_some.mp hgroup)
    have hb' : bodyFrom? (cs.length + 5) (afterGroup p names) ['$'] = some b := hb
    rw [bodyFrom?_end] at hb'
    cases hb'
    cases hopen
    exact .inl ⟨p, Option.bind_eq_some_iff.mpr ⟨_, hp, rfl⟩, rfl⟩
  · have hgroup' := (closedBody?_parallel (n := cs.length + 1) (by omega)
      (.start {} [])).back (Nat.le_succ _) hgroup
    exact .inr (Option.isSome_of_eq_some hgroup')

/-- **A pattern that is read is read in its anchored form as it is read alone, or it hides the
closing text.** -/
theorem piece?_pasted (h : piece? cs = some p) :
    piece? (pasted cs) = some (enclose p) ∨ piece? (cs ++ closing) = some p := by
  obtain ⟨⟨piece, names, _ | _, rest⟩, hb, hopen⟩ := Option.bind_eq_some_iff.mp h
  · obtain rfl : piece = p := Option.some.inj hopen
    have hle : cs.length + 1 ≤ (cs ++ closing).length + 1 := by simp
    have hle' : (cs ++ closing).length + 1 ≤ cs.length + 5 := by simp [closing]
    rcases bodyFrom?_forth (Nat.lt_succ_self _) hle (follows_append _) hb rfl with hclosed | hhidden
    · left
      refine Option.bind_eq_some_iff.mpr ⟨⟨enclose piece, names, false, []⟩, ?_, rfl⟩
      have hinner := (closedBody?_eq_some (p := (piece, names))).mpr (bodyFrom?_mono hle' hclosed)
      rw [length_pasted, pasted, bodyFrom?_pasted, hinner]
      exact bodyFrom?_end _ piece names
    · exact .inr (Option.bind_eq_some_iff.mpr ⟨_, hhidden, rfl⟩)
  · cases hopen

/-! ### The laws -/

section
variable {pattern : String} {fault : SyntaxFault}

theorem parse_eq_ok : Reader.parse pattern = .ok p ↔ piece? pattern.toList = some p := by
  rw [parse_eq]
  cases piece? pattern.toList with
  | some p' => simp
  | none => cases overclosed? pattern.toList <;> simp

theorem parse_eq_unopened (h : Reader.parse pattern = .error fault)
    (hclose : (overclosed? pattern.toList).isSome) : fault = .unopened := by
  obtain ⟨q, hq⟩ := Option.isSome_iff_exists.mp hclose
  rw [parse_eq, hq] at h
  cases hp : piece? pattern.toList with
  | some p =>
    rw [hp] at h
    cases h
  | none =>
    rw [hp] at h
    exact (Except.error.inj h).symm

/-- The anchored form of a pattern that can be read alone. -/
theorem eq_enclose (hp : Reader.parse pattern = .ok p)
    (hq : Reader.parse (anchored pattern) = .ok q) : q = enclose p := by
  rw [parse_eq_ok] at hp hq
  rw [toList_anchored] at hq
  rcases exists_of_piece?_pasted hq with ⟨p', hp', rfl⟩ | hclose
  · rw [Option.some.inj (hp.symm.trans hp')]
  · rw [overclosed?_eq_none hp] at hclose
    cases hclose

end

theorem parse_start : Reader.parse "^" = .ok (lookPiece .startText) := rfl

theorem parse_finish : Reader.parse "$" = .ok (lookPiece .endText) := rfl

/-- The piece matches the part of the text from the one place to the other. -/
def Reader.Piece.MatchesIn (p : Piece) (text : List Char) (i j : Nat) : Prop :=
  i ≤ text.length ∧ p.regex.Matches text.toArray i j

section
variable {text : List Char} {i j : Nat}

theorem matchesIn_startText : (lookPiece .startText).MatchesIn text i j ↔ i = 0 ∧ j = 0 := by
  constructor
  · rintro ⟨hi, h⟩
    obtain ⟨rfl, rfl⟩ := (Regex.next?_startText hi).mp h
    exact ⟨rfl, rfl⟩
  · rintro ⟨rfl, rfl⟩
    exact ⟨Nat.zero_le _, (Regex.next?_startText (Nat.zero_le _)).mpr ⟨rfl, rfl⟩⟩

theorem matchesIn_endText :
    (lookPiece .endText).MatchesIn text i j ↔ i = text.length ∧ j = text.length := by
  constructor
  · rintro ⟨hi, h⟩
    obtain ⟨rfl, rfl⟩ := (Regex.next?_endText hi).mp h
    exact ⟨rfl, rfl⟩
  · rintro ⟨rfl, rfl⟩
    exact ⟨le_rfl, (Regex.next?_endText le_rfl).mpr ⟨rfl, rfl⟩⟩

/-- A piece between the marks matches in a row with them. -/
theorem matchesIn_enclose {p : Piece} : (enclose p).MatchesIn text i j ↔
    ∃ k l, (lookPiece .startText).MatchesIn text i k ∧ p.MatchesIn text k l ∧
      (lookPiece .endText).MatchesIn text l j := by
  have hle : ∀ (r : Regex Atom) {i j : Nat}, i ≤ text.length → r.Matches text.toArray i j →
      j ≤ text.length := fun r {i j} hi h =>
    ((Regex.computes_reach text.toArray r).advances i j hi h).2
  constructor
  · rintro ⟨hi, k, hstart, l, hmatches, m, hend, rfl⟩
    have hk := hle (.atom (.look .startText)) hi hstart
    exact ⟨k, l, ⟨hi, hstart⟩, ⟨hk, hmatches⟩, hle p.regex hk hmatches, hend⟩
  · rintro ⟨k, l, ⟨hi, hstart⟩, ⟨-, hmatches⟩, -, hend⟩
    exact ⟨hi, k, hstart, l, hmatches, j, hend, rfl⟩

end

/-- The marks add to the depth and to the weight. -/
theorem excess?_of_enclose {p : Piece} (h : Reader.excess? (enclose p) = none) :
    Reader.excess? p = none := by
  unfold Reader.excess? at h ⊢
  split_ifs at h with hdepth hweight
  have hdepth' : p.depth + 2 ≤ maxDepth := Nat.le_of_not_lt hdepth
  have hweight' : p.weight + 2 * stateWeight ≤ maxWeight := Nat.le_of_not_lt hweight
  rw [if_neg (by omega), if_neg (by omega)]

/-- **The reader keeps to the laws of expressions.** -/
instance : LawfulLibrary where
  occursIn_iff := Regex.occursIn_iff
  start := ⟨_, parse_start, matchesIn_startText⟩
  finish := by
    refine ⟨_, parse_finish, fun {text i j} => ?_⟩
    rw [← String.length_toList]
    exact matchesIn_endText
  row {pattern s p f q} hs hp hf hq := by
    obtain rfl := Except.ok.inj (parse_start.symm.trans hs)
    obtain rfl := Except.ok.inj (parse_finish.symm.trans hf)
    obtain rfl := eq_enclose hp hq
    exact matchesIn_enclose
  group {pattern q fault} hq hfault := by
    have hq' := parse_eq_ok.mp hq
    rw [toList_anchored] at hq'
    rcases exists_of_piece?_pasted hq' with ⟨p, hp, -⟩ | hclose
    · cases (parse_eq_ok.mpr hp).symm.trans hfault
    · exact parse_eq_unopened hfault hclose
  comment {pattern p fault} hp hfault := by
    rcases piece?_pasted (parse_eq_ok.mp hp) with h | h
    · rw [← toList_anchored, ← parse_eq_ok] at h
      cases h.symm.trans hfault
    · refine ⟨p, parse_eq_ok.mpr ?_⟩
      rw [String.toList_append]
      exact h
  limits {pattern p q} hp hq hfits := by
    obtain rfl := eq_enclose hp hq
    exact excess?_of_enclose hfits

end CatalogRules.Pattern
