import CatalogRules.Pattern.Reader
import Mathlib.Data.List.Infix
import Mathlib.Data.List.TakeWhile

/-! # Readers that go in parallel

A pattern is anchored by a text before it and one behind it, so the reader meets the pattern with
the closing text behind it. `Parallel n R R'` says that a reader `R'` goes there as `R` goes on the
pattern alone: what `R` reads is read by `R'`, with the closing text still to come (or lost in a
comment), and what `R'` reads before the closing text is read by `R`. Nothing is said of what `R'`
reads with some of the closing text in it.

The lemmas of this module build such pairs in the way that the readers are built: from tests of the
next characters, from one reader after another, and from rounds that are bounded by the length of
the text (`Parallel.rounds`, `Parallel.sized`). -/

namespace CatalogRules.Pattern.Reader

open Function (uncurry)

/-- What follows the pattern in its anchored form. -/
def closing : List Char := [')', '$']

/-- A text continues another by the closing text, unless a comment took that away. -/
def Follows (cs cs' : List Char) : Prop := cs' = cs ++ closing ∨ cs = [] ∧ cs' = []

theorem follows_append (cs : List Char) : Follows cs (cs ++ closing) := .inl rfl

namespace Follows
variable {cs cs' : List Char} {c : Char}

theorem length_le (h : Follows cs cs') : cs.length ≤ cs'.length := by
  rcases h with rfl | ⟨rfl, rfl⟩
  · simp
  · rfl

theorem of_nil (h : Follows [] cs') : cs' = closing ∨ cs' = [] := h.imp id And.right

theorem of_cons (h : Follows (c :: cs) cs') : ∃ rest, cs' = c :: rest ∧ Follows cs rest := by
  rcases h with rfl | ⟨h, -⟩
  · exact ⟨cs ++ closing, rfl, follows_append cs⟩
  · cases h

/-- A test of the next character that takes the closing parenthesis for the end of the text. -/
theorem test_head? {β : Type} {test : Option Char → β} (htest : test (some ')') = test none)
    (h : Follows cs cs') : test cs'.head? = test cs.head? := by
  cases cs with
  | nil =>
    rcases h.of_nil with rfl | rfl
    · exact htest
    · rfl
  | cons c cs =>
    obtain ⟨_, rfl, -⟩ := h.of_cons
    rfl

/-- A suffix of the longer text leaves a part of the shorter one. -/
theorem length_le_of_suffix {rest rest' : List Char} (h : Follows cs cs')
    (hrest : Follows rest rest') (hsuffix : rest' <:+ cs') : rest.length ≤ cs.length := by
  rcases hrest with rfl | ⟨rfl, -⟩
  · have hlength := hsuffix.length_le
    rcases h with rfl | ⟨-, rfl⟩
    · simpa using hlength
    · simp [closing] at hlength
  · exact Nat.zero_le _

end Follows

/-- What is left before the closing text belongs to the text before it. -/
theorem eq_append_of_suffix {rest rest' : List Char} (h : rest ++ closing <:+ rest') :
    ∃ cs, rest' = cs ++ closing ∧ rest <:+ cs := by
  obtain ⟨front, rfl⟩ := h
  exact ⟨front ++ rest, (List.append_assoc front rest closing).symm, List.suffix_append front rest⟩

/-- A suffix of the closing text but for its parenthesis does not hold all of it. -/
theorem not_suffix_tail {rest : List Char} : ¬ rest ++ closing <:+ ['$'] := by
  intro h
  have hlength := h.length_le
  simp [closing] at hlength

/-! ### Steps that only pass over characters -/

/-- A step that drops characters from the front, without a look at the closing text. -/
structure Passes (u : List Char → List Char) : Prop where
  suffix : ∀ cs, u cs <:+ cs
  append : ∀ cs, Follows (u cs) (u (cs ++ closing))

namespace Passes
variable {u : List Char → List Char} {cs cs' : List Char}

theorem nil (hu : Passes u) : u [] = [] := List.suffix_nil.mp (hu.suffix [])

theorem follows (hu : Passes u) (h : Follows cs cs') : Follows (u cs) (u cs') := by
  rcases h with rfl | ⟨rfl, rfl⟩
  · exact hu.append cs
  · exact .inr ⟨hu.nil, hu.nil⟩

end Passes

theorem passes_id : Passes fun cs => cs := ⟨fun _ => List.suffix_rfl, follows_append⟩

theorem passes_dropWhile {p : Char → Bool} (hp : p ')' = false) :
    Passes fun cs => cs.dropWhile p := by
  refine ⟨fun _ => List.dropWhile_suffix p, fun cs => .inl ?_⟩
  rw [List.dropWhile_append]
  split_ifs with h
  · rw [List.isEmpty_iff.mp h]
    simp [closing, hp]
  · rfl

/-! ### Pairs of readers -/

variable {α β γ : Type} {n m : Nat}

/-- The second reader goes on a text with the closing text behind it as the first one goes on the
text alone, if that has at most `n` characters. -/
structure Parallel (n : Nat) (R R' : List Char → Option (α × List Char)) : Prop where
  suffix : ∀ {cs a rest}, R' cs = some (a, rest) → rest <:+ cs
  forth : ∀ {cs cs' a rest}, cs.length ≤ n → Follows cs cs' → R cs = some (a, rest) →
    ∃ rest', R' cs' = some (a, rest') ∧ Follows rest rest'
  back : ∀ {cs a rest}, cs.length ≤ n → R' (cs ++ closing) = some (a, rest ++ closing) →
    R cs = some (a, rest)

namespace Parallel
variable {R R' T T' : List Char → Option (α × List Char)}

theorem forth_le {cs cs' : List Char} {a : α} {rest : List Char} (h : Parallel n R R')
    (hcs : cs.length ≤ n) (hfollows : Follows cs cs') (hread : R cs = some (a, rest)) :
    ∃ rest', R' cs' = some (a, rest') ∧ Follows rest rest' ∧ rest.length ≤ cs.length := by
  obtain ⟨rest', hread', hrest⟩ := h.forth hcs hfollows hread
  exact ⟨rest', hread', hrest, hfollows.length_le_of_suffix hrest (h.suffix hread')⟩

theorem back_le {cs : List Char} {a : α} {rest : List Char} (h : Parallel n R R')
    (hcs : cs.length ≤ n) (hread : R' (cs ++ closing) = some (a, rest ++ closing)) :
    R cs = some (a, rest) ∧ rest.length ≤ cs.length :=
  ⟨h.back hcs hread,
    (follows_append cs).length_le_of_suffix (follows_append rest) (h.suffix hread)⟩

theorem congr {S S' : List Char → Option (α × List Char)} (h : Parallel n S S')
    (hR : ∀ cs, R cs = S cs) (hR' : ∀ cs, R' cs = S' cs) : Parallel n R R' := by
  rw [funext hR, funext hR']
  exact h

theorem none :
    Parallel n (fun _ => Option.none) (fun _ => (Option.none : Option (α × List Char))) :=
  ⟨nofun, nofun, nofun⟩

theorem pure (a : α) : Parallel n (fun cs => some (a, cs)) (fun cs => some (a, cs)) := by
  refine ⟨?_, ?_, ?_⟩
  · rintro cs _ _ ⟨⟩
    exact List.suffix_rfl
  · rintro cs cs' _ _ - h ⟨⟩
    exact ⟨cs', rfl, h⟩
  · intro cs b rest _ h
    obtain ⟨rfl, hrest⟩ := Prod.mk.inj (Option.some.inj h)
    rw [List.append_cancel_right hrest]

theorem comp {u : List Char → List Char} (h : Parallel n R R') (hu : Passes u) :
    Parallel n (fun cs => R (u cs)) (fun cs => R' (u cs)) := by
  have hle : ∀ {cs : List Char}, cs.length ≤ n → (u cs).length ≤ n := fun hcs =>
    (hu.suffix _).length_le.trans hcs
  refine ⟨fun hread => (h.suffix hread).trans (hu.suffix _),
    fun hcs hfollows => h.forth (hle hcs) (hu.follows hfollows), fun {cs a rest} hcs hread => ?_⟩
  rcases hu.append cs with happend | ⟨-, hnil⟩
  · rw [happend] at hread
    exact h.back (hle hcs) hread
  · rw [hnil] at hread
    obtain ⟨_, h, -⟩ := eq_append_of_suffix (h.suffix hread)
    simp [closing] at h

theorem bind {S S' : α → List Char → Option (β × List Char)} (hR : Parallel n R R')
    (hS : ∀ a, Parallel n (S a) (S' a)) :
    Parallel n (fun cs => (R cs).bind (uncurry S)) (fun cs => (R' cs).bind (uncurry S')) := by
  refine ⟨?_, ?_, ?_⟩
  · intro cs b rest h
    obtain ⟨⟨a, mid⟩, ha, hb⟩ := Option.bind_eq_some_iff.mp h
    exact ((hS a).suffix hb).trans (hR.suffix ha)
  · intro cs cs' b rest hcs hfollows h
    obtain ⟨⟨a, mid⟩, ha, hb⟩ := Option.bind_eq_some_iff.mp h
    obtain ⟨mid', ha', hmid, hle⟩ := hR.forth_le hcs hfollows ha
    obtain ⟨rest', hb', hrest⟩ := (hS a).forth (hle.trans hcs) hmid hb
    exact ⟨rest', Option.bind_eq_some_iff.mpr ⟨(a, mid'), ha', hb'⟩, hrest⟩
  · intro cs b rest hcs h
    obtain ⟨⟨a, mid'⟩, ha, hb⟩ := Option.bind_eq_some_iff.mp h
    -- the second reader leaves the closing text, so the first one has not touched it
    obtain ⟨mid, rfl, -⟩ := eq_append_of_suffix ((hS a).suffix hb)
    obtain ⟨ha', hle⟩ := hR.back_le hcs ha
    exact Option.bind_eq_some_iff.mpr ⟨(a, mid), ha', (hS a).back (hle.trans hcs) hb⟩

theorem map (g : α → β) (h : Parallel n R R') :
    Parallel n (fun cs => (R cs).map fun p => (g p.1, p.2))
      (fun cs => (R' cs).map fun p => (g p.1, p.2)) := by
  refine (h.bind fun a => Parallel.pure (g a)).congr (fun cs => ?_) fun cs => ?_
  · cases R cs <;> rfl
  · cases R' cs <;> rfl

theorem guard {x : Option γ} {S S' : γ → List Char → Option (α × List Char)}
    (h : ∀ d, Parallel n (S d) (S' d)) :
    Parallel n (fun cs => x.bind fun d => S d cs) (fun cs => x.bind fun d => S' d cs) := by
  cases x with
  | none => exact none
  | some d => exact h d

theorem ite {p : Prop} {_ : Decidable p} (hR : p → Parallel n R R') (hT : ¬ p → Parallel n T T') :
    Parallel n (fun cs => if p then R cs else T cs) (fun cs => if p then R' cs else T' cs) := by
  split_ifs with h
  · exact hR h
  · exact hT h

/-- A test of the characters ahead that the closing text does not pass. -/
theorem cond {p : List Char → Prop} {_ : DecidablePred p}
    (hp : ∀ {cs cs'}, Follows cs cs' → (p cs' ↔ p cs))
    (hR : Parallel n R R') (hT : Parallel n T T') :
    Parallel n (fun cs => if p cs then R cs else T cs)
      (fun cs => if p cs then R' cs else T' cs) := by
  refine ⟨?_, ?_, ?_⟩
  · intro cs a rest h
    split_ifs at h
    · exact hR.suffix h
    · exact hT.suffix h
  · intro cs cs' a rest hcs hfollows h
    simp only [hp hfollows]
    split_ifs at h ⊢
    · exact hR.forth hcs hfollows h
    · exact hT.forth hcs hfollows h
  · intro cs a rest hcs h
    simp only [hp (follows_append cs)] at h
    split_ifs at h ⊢
    · exact hR.back hcs h
    · exact hT.back hcs h

end Parallel

/-! ### Tests of the next characters -/

/-- A reader for each character that may come next; there must be one. -/
def next (S : Char → List Char → Option (α × List Char)) : List Char → Option (α × List Char)
  | [] => none
  | c :: cs => S c cs

theorem Parallel.next_of_le {S S' : Char → List Char → Option (α × List Char)}
    (h : ∀ c, Parallel m (S c) (S' c)) (hm : n ≤ m + 1) :
    Parallel n (Reader.next S) (Reader.next S') := by
  refine ⟨?_, ?_, ?_⟩
  · rintro (_ | ⟨c, cs⟩) a rest hread
    · cases hread
    · exact ((h c).suffix hread).trans (List.suffix_cons c cs)
  · rintro (_ | ⟨c, cs⟩) cs' a rest hcs hfollows hread
    · cases hread
    · obtain ⟨rest', rfl, hrest⟩ := hfollows.of_cons
      exact (h c).forth (by simp at hcs; omega) hrest hread
  · rintro (_ | ⟨c, cs⟩) a rest hcs hread
    · exact absurd ((h ')').suffix hread) not_suffix_tail
    · exact (h c).back (by simp at hcs; omega) hread

theorem Parallel.next {S S' : Char → List Char → Option (α × List Char)}
    (h : ∀ c, Parallel n (S c) (S' c)) : Parallel n (Reader.next S) (Reader.next S') :=
  next_of_le h (Nat.le_succ n)

/-- One reader after a given word, and another one if the text does not begin with it. -/
def onPrefix (w : List Char) (S T : List Char → Option (α × List Char)) (cs : List Char) :
    Option (α × List Char) :=
  if w <+: cs then S (cs.drop w.length) else T cs

variable {w : List Char} {S S' T T' : List Char → Option (α × List Char)}

theorem onPrefix_append (rest : List Char) : onPrefix w S T (w ++ rest) = S rest := by
  rw [onPrefix, if_pos (List.prefix_append w rest), List.drop_left]

theorem onPrefix_of_ne {cs : List Char} (h : ∀ rest, cs = w ++ rest → False) :
    onPrefix w S T cs = T cs :=
  if_neg fun ⟨rest, hrest⟩ => h rest hrest.symm

theorem onPrefix_cons (c : Char) (rest : List Char) : onPrefix [c] S T (c :: rest) = S rest :=
  onPrefix_append rest

theorem onPrefix_cons_of_ne {c d : Char} {rest : List Char} (h : d ≠ c) :
    onPrefix (c :: w) S T (d :: rest) = T (d :: rest) :=
  onPrefix_of_ne fun _ heq => h (List.cons.inj heq).1

/-- The closing text completes no word without a closing parenthesis. -/
theorem prefix_iff_of_follows (hw : ')' ∉ w) {cs cs' : List Char} (h : Follows cs cs') :
    w <+: cs' ↔ w <+: cs := by
  rcases h with rfl | ⟨rfl, rfl⟩
  · refine ⟨fun h => ?_, fun h => h.trans (List.prefix_append cs closing)⟩
    rcases le_total w.length cs.length with hlength | hlength
    · exact List.prefix_of_prefix_length_le h (List.prefix_append cs closing) hlength
    · obtain ⟨front, rfl⟩ :=
        List.prefix_of_prefix_length_le (List.prefix_append cs closing) h hlength
      have hfront : front <+: closing := (List.prefix_append_right_inj cs).mp h
      cases front with
      | nil => simp
      | cons c front =>
        obtain ⟨rfl, -⟩ := List.cons_prefix_cons.mp hfront
        simp at hw
  · rfl

theorem Parallel.onPrefix_of_le (hS : Parallel m S S') (hT : Parallel n T T') (hw : ')' ∉ w)
    (hm : n ≤ m + w.length) : Parallel n (Reader.onPrefix w S T) (Reader.onPrefix w S' T') := by
  refine ⟨?_, ?_, ?_⟩
  · intro cs a rest h
    unfold Reader.onPrefix at h
    split_ifs at h
    · exact (hS.suffix h).trans (List.drop_suffix _ _)
    · exact hT.suffix h
  · intro cs cs' a rest hcs hfollows h
    by_cases hprefix : w <+: cs
    · obtain ⟨tail, rfl⟩ := hprefix
      obtain ⟨tail', rfl⟩ := (prefix_iff_of_follows hw hfollows).mpr (List.prefix_append w tail)
      rw [onPrefix_append] at h ⊢
      have htail : Follows tail tail' := by
        rcases hfollows with heq | ⟨hnil, hnil'⟩
        · rw [List.append_assoc] at heq
          exact .inl (List.append_cancel_left heq)
        · exact .inr ⟨(List.append_eq_nil_iff.mp hnil).2, (List.append_eq_nil_iff.mp hnil').2⟩
      exact hS.forth (by rw [List.length_append] at hcs; omega) htail h
    · rw [Reader.onPrefix, if_neg hprefix] at h
      rw [Reader.onPrefix, if_neg ((prefix_iff_of_follows hw hfollows).not.mpr hprefix)]
      exact hT.forth hcs hfollows h
  · intro cs a rest hcs h
    by_cases hprefix : w <+: cs
    · obtain ⟨tail, rfl⟩ := hprefix
      rw [List.append_assoc, onPrefix_append] at h
      rw [onPrefix_append]
      exact hS.back (by rw [List.length_append] at hcs; omega) h
    · rw [Reader.onPrefix,
        if_neg ((prefix_iff_of_follows hw (follows_append cs)).not.mpr hprefix)] at h
      rw [Reader.onPrefix, if_neg hprefix]
      exact hT.back hcs h

theorem Parallel.onPrefix (hS : Parallel n S S') (hT : Parallel n T T') (hw : ')' ∉ w) :
    Parallel n (Reader.onPrefix w S T) (Reader.onPrefix w S' T') :=
  onPrefix_of_le hS hT hw (Nat.le_add_right n _)

/-- A reader that goes from character to character with a state, and stops at a closing parenthesis
at the latest. -/
structure Scans {σ : Type} (step : σ → Char → Option α ⊕ σ)
    (R : σ → List Char → Option (α × List Char)) : Prop where
  nil : ∀ s, R s [] = none
  cons : ∀ s c cs, R s (c :: cs) =
    (step s c).elim (fun r => r.map fun a => (a, cs)) fun s => R s cs
  stop : ∀ s, ∃ r, step s ')' = .inl r

namespace Scans
variable {σ : Type} {step : σ → Char → Option α ⊕ σ} {R : σ → List Char → Option (α × List Char)}
  {s : σ} {a : α} {c : Char} {cs cs' rest : List Char}

/-- A character ends the reading or leads to another state. -/
theorem cons_eq_some (h : Scans step R) : R s (c :: cs) = some (a, rest) ↔
    step s c = .inl (some a) ∧ rest = cs ∨ ∃ s', step s c = .inr s' ∧ R s' cs = some (a, rest) := by
  rw [h.cons]
  rcases step s c with (_ | b) | s'
  · simp
  · simp [eq_comm]
  · simp

theorem suffix (h : Scans step R) (hread : R s cs = some (a, rest)) : rest <:+ cs := by
  induction cs generalizing s with
  | nil =>
    rw [h.nil] at hread
    cases hread
  | cons c cs ih =>
    refine List.IsSuffix.trans ?_ (List.suffix_cons c cs)
    rcases h.cons_eq_some.mp hread with ⟨-, rfl⟩ | ⟨s', -, hread⟩
    · exact List.suffix_rfl
    · exact ih hread

theorem forth (h : Scans step R) (hfollows : Follows cs cs') (hread : R s cs = some (a, rest)) :
    ∃ rest', R s cs' = some (a, rest') ∧ Follows rest rest' := by
  induction cs generalizing s cs' with
  | nil =>
    rw [h.nil] at hread
    cases hread
  | cons c cs ih =>
    obtain ⟨cs', rfl, hfollows'⟩ := hfollows.of_cons
    rcases h.cons_eq_some.mp hread with ⟨hstep, rfl⟩ | ⟨s', hstep, hread⟩
    · exact ⟨cs', h.cons_eq_some.mpr (.inl ⟨hstep, rfl⟩), hfollows'⟩
    · obtain ⟨rest', hread', hrest⟩ := ih hfollows' hread
      exact ⟨rest', h.cons_eq_some.mpr (.inr ⟨s', hstep, hread'⟩), hrest⟩

theorem back (h : Scans step R) (hread : R s (cs ++ closing) = some (a, rest ++ closing)) :
    R s cs = some (a, rest) := by
  induction cs generalizing s with
  | nil =>
    -- the parenthesis of the closing text is read, so the closing text is not left
    obtain ⟨r, hr⟩ := h.stop s
    rcases h.cons_eq_some.mp hread with ⟨-, hrest⟩ | ⟨s', hstep, -⟩
    · have hlength := congrArg List.length hrest
      simp [closing] at hlength
    · rw [hr] at hstep
      cases hstep
  | cons c cs ih =>
    rcases h.cons_eq_some.mp hread with ⟨hstep, hrest⟩ | ⟨s', hstep, hread⟩
    · exact h.cons_eq_some.mpr (.inl ⟨hstep, List.append_cancel_right hrest⟩)
    · exact h.cons_eq_some.mpr (.inr ⟨s', hstep, ih hread⟩)

theorem parallel (h : Scans step R) (s : σ) : Parallel n (R s) (R s) :=
  ⟨h.suffix, fun _ => h.forth, fun _ => h.back⟩

end Scans

/-! ### Readers that find their end

A reader that stops at a character of its own takes nothing of the closing text, and it is refused
before the closing text if it is refused alone. -/

/-- A reader that reads a text with the closing text behind it as it reads the text alone. -/
structure Exact (R : List Char → Option (α × List Char)) : Prop where
  suffix : ∀ {cs a rest}, R cs = some (a, rest) → rest <:+ cs
  append : ∀ cs, R (cs ++ closing) = (R cs).map fun p => (p.1, p.2 ++ closing)

namespace Exact
variable {R : List Char → Option (α × List Char)}

theorem none : Exact fun _ => (Option.none : Option (α × List Char)) := ⟨nofun, fun _ => rfl⟩

theorem onPrefix (hS : Exact S) (hT : Exact T) (hw : ')' ∉ w) : Exact (Reader.onPrefix w S T) := by
  refine ⟨?_, fun cs => ?_⟩
  · intro cs a rest h
    unfold Reader.onPrefix at h
    split_ifs at h
    · exact (hS.suffix h).trans (List.drop_suffix _ _)
    · exact hT.suffix h
  · by_cases hprefix : w <+: cs
    · obtain ⟨tail, rfl⟩ := hprefix
      rw [List.append_assoc, onPrefix_append, onPrefix_append, hS.append]
    · have hprefix' := (prefix_iff_of_follows hw (follows_append cs)).not.mpr hprefix
      rw [Reader.onPrefix, Reader.onPrefix, if_neg hprefix, if_neg hprefix', hT.append]

theorem isSome_of_follows (h : Exact R) {cs cs' : List Char} (hfollows : Follows cs cs') :
    (R cs').isSome = (R cs).isSome := by
  rcases hfollows with rfl | ⟨rfl, rfl⟩
  · rw [h.append, Option.isSome_map]
  · rfl

theorem parallel (h : Exact R) : Parallel n R R := by
  refine ⟨h.suffix, ?_, ?_⟩
  · rintro cs cs' a rest - (rfl | ⟨rfl, rfl⟩) hread
    · exact ⟨rest ++ closing, by rw [h.append, hread]; rfl, follows_append rest⟩
    · have hrest := List.suffix_nil.mp (h.suffix hread)
      exact ⟨rest, hread, .inr ⟨hrest, hrest⟩⟩
  · intro cs a rest _ hread
    rw [h.append] at hread
    obtain ⟨⟨b, rest'⟩, hread', heq⟩ := Option.map_eq_some_iff.mp hread
    obtain ⟨rfl, hrest⟩ : b = a ∧ rest' ++ closing = rest ++ closing := Prod.mk.inj heq
    rw [hread', List.append_cancel_right hrest]

end Exact

/-- A character at which a text is cut is found in the text or not at all. -/
theorem cut_append {p : Char → Bool} (hp : closing.all p = true) : ∀ cs : List Char,
    cs.dropWhile p = [] ∧ (cs ++ closing).dropWhile p = [] ∨
      ∃ c rest, cs.dropWhile p = c :: rest ∧ (cs ++ closing).dropWhile p = c :: (rest ++ closing) ∧
        (cs ++ closing).takeWhile p = cs.takeWhile p
  | [] => .inl ⟨rfl, by
      rw [List.nil_append, List.dropWhile_eq_nil_iff]
      exact List.all_eq_true.mp hp⟩
  | c :: cs => by
    cases hc : p c with
    | true => simpa [List.takeWhile_cons, hc] using cut_append hp cs
    | false => simp [hc]

/-! ### Rounds -/

namespace Parallel
variable {ι : Type} {F : Nat → ι → List Char → Option (α × List Char)}

/-- Readers with a bound on their rounds: a round more goes in parallel if the rest does, and at
the end of the text no round is needed. -/
theorem rounds (zero : ∀ i, Parallel 0 (F 0 i) (F 0 i)) (stop : ∀ i, F 0 i [] = F 1 i [])
    (step : ∀ n n', (∀ i, Parallel n (F n i) (F n' i)) →
      ∀ i, Parallel (n + 1) (F (n + 1) i) (F (n' + 1) i)) :
    ∀ {n n' : Nat}, n ≤ n' → ∀ i, Parallel n (F n i) (F n' i)
  | 0, 0, _, i => zero i
  | 0, n' + 1, _, i => by
    have hone := step 0 n' (rounds zero stop step n'.zero_le) i
    refine ⟨hone.suffix, fun {cs cs' a rest} hcs hfollows h => ?_, fun {cs a rest} hcs h => ?_⟩
    · obtain rfl : cs = [] := List.eq_nil_of_length_eq_zero (by omega)
      exact hone.forth (Nat.zero_le _) hfollows (stop i ▸ h)
    · obtain rfl : cs = [] := List.eq_nil_of_length_eq_zero (by omega)
      rw [stop]
      exact hone.back (Nat.zero_le _) h
  | n + 1, 0, h, _ => absurd h (Nat.not_succ_le_zero n)
  | n + 1, n' + 1, h, i => step n n' (rounds zero stop step (Nat.le_of_succ_le_succ h)) i

/-- Readers whose rounds are bounded by the length of the text. -/
theorem sized {F : Nat → List Char → Option (α × List Char)}
    (h : ∀ {n n'}, n ≤ n' → Parallel n (F n) (F n')) {u : List Char → List Char} (hu : Passes u)
    (k : Nat) :
    Parallel n (fun cs => F (cs.length + k) (u cs)) (fun cs => F (cs.length + k) (u cs)) := by
  have hle : ∀ cs : List Char, (u cs).length ≤ cs.length + k := fun cs =>
    (hu.suffix cs).length_le.trans (Nat.le_add_right _ k)
  refine ⟨?_, ?_, ?_⟩
  · intro cs a rest hread
    exact ((h le_rfl).suffix hread).trans (hu.suffix cs)
  · intro cs cs' a rest _ hfollows hread
    have hfuel := Nat.add_le_add_right hfollows.length_le k
    exact (h hfuel).forth (hle cs) (hu.follows hfollows) hread
  · intro cs a rest _ hread
    have hfuel := Nat.add_le_add_right (follows_append cs).length_le k
    exact ((h hfuel).comp hu).back (Nat.le_add_right cs.length k) hread

end Parallel

end CatalogRules.Pattern.Reader
