import CatalogRules.Pattern.Regex
import Mathlib.Data.Nat.Bitwise
import Mathlib.Data.Nat.Log

/-! # Matches

A match of an expression ends at a place that is not before its beginning. The places that `Regex.reach` gives for a set of places are those at which a
match ends that begins at one of them (`computes_reach`). So an expression that occurs in a text has
a match somewhere (`occursIn_iff`).

Repetitions are bounded in `reach`, since the places of a text are: among more rounds than there
are places one round stays where it is, and that round may be left out or repeated
(`iterates_succ_iff`). -/

namespace CatalogRules.Pattern

namespace Regex

/-! ### Sets of places -/

variable {s i j n : Nat}

theorem testBit_two_pow_add {place rest : Nat} (h : rest < 2 ^ place) :
    (2 ^ place + rest).testBit i = true ↔ i = place ∨ rest.testBit i = true := by
  rcases lt_trichotomy i place with hi | rfl | hi
  · rw [Nat.testBit_two_pow_add_gt hi]
    simp [hi.ne]
  · rw [Nat.testBit_two_pow_add_eq, Nat.testBit_lt_two_pow h]
    simp
  · have hlt : 2 ^ place + rest < 2 ^ i := by
      have hpow : 2 ^ (place + 1) ≤ 2 ^ i := Nat.pow_le_pow_right (by omega) hi
      rw [Nat.pow_succ] at hpow
      omega
    rw [Nat.testBit_lt_two_pow hlt, Nat.testBit_lt_two_pow (by omega)]
    simp [hi.ne']

/-- The image of a set has the places to which its places lead. -/
theorem testBit_image (f : Nat → Option Nat) (j : Nat) : ∀ {fuel s : Nat}, s < 2 ^ fuel →
    ((image f fuel s).testBit j = true ↔ ∃ i, s.testBit i = true ∧ f i = some j)
  | 0, s, h => by
    obtain rfl : s = 0 := by omega
    simp [image]
  | fuel + 1, s, h => by
    rw [image]
    split_ifs with hs
    · subst hs
      simp
    · have hle : 2 ^ s.log2 ≤ s := Nat.log2_self_le hs
      have hlt : s < 2 ^ (s.log2 + 1) := Nat.lt_log2_self
      have hrest : s - 2 ^ s.log2 < 2 ^ s.log2 := by
        rw [Nat.pow_succ] at hlt
        omega
      have hfuel : s.log2 ≤ fuel := by
        have := (Nat.log2_lt hs).mpr h
        omega
      have ih := testBit_image f j (hrest.trans_le (Nat.pow_le_pow_right (by omega) hfuel))
      have hsplit : ∀ i, s.testBit i = true ↔
          i = s.log2 ∨ (s - 2 ^ s.log2).testBit i = true := by
        intro i
        rw [← testBit_two_pow_add hrest, Nat.add_sub_cancel' hle]
      have hiff : (∃ i, s.testBit i = true ∧ f i = some j) ↔
          f s.log2 = some j ∨ ∃ i, (s - 2 ^ s.log2).testBit i = true ∧ f i = some j := by
        simp only [hsplit, or_and_right, exists_or, exists_eq_left]
      rw [hiff, ← ih]
      dsimp only
      rw [show Nat.pow 2 s.log2 = 2 ^ s.log2 from rfl]
      cases f s.log2 with
      | none => simp
      | some next =>
        dsimp only
        rw [Nat.testBit_or, Bool.or_eq_true, or_comm, show Nat.pow 2 next = 2 ^ next from rfl,
          Nat.testBit_two_pow, decide_eq_true_iff, Option.some.injEq]

theorem le_of_testBit {size : Nat} (hs : s < 2 ^ (size + 1)) (hi : s.testBit i = true) :
    i ≤ size := by
  by_contra h
  have hpow : 2 ^ (size + 1) ≤ 2 ^ i := Nat.pow_le_pow_right (by omega) (by omega)
  rw [Nat.testBit_lt_two_pow (hs.trans_le hpow)] at hi
  cases hi

/-! ### Rounds -/

/-- Places lead to places of the text that are not before them. -/
def Advances (size : Nat) (R : Nat → Nat → Prop) : Prop :=
  ∀ i j, i ≤ size → R i j → i ≤ j ∧ j ≤ size

variable {size : Nat} {R : Nat → Nat → Prop}

theorem iterates_add {m n : Nat} : ∀ {i j : Nat},
    Iterates R (m + n) i j ↔ ∃ k, Iterates R m i k ∧ Iterates R n k j := by
  induction m with
  | zero => simp [Iterates]
  | succ m ih =>
    intro i j
    rw [Nat.succ_add, Iterates]
    simp only [Iterates, ih]
    constructor
    · rintro ⟨l, hl, k, hk, hj⟩
      exact ⟨k, ⟨l, hl, hk⟩, hj⟩
    · rintro ⟨k, ⟨l, hl, hk⟩, hj⟩
      exact ⟨l, hl, k, hk, hj⟩

theorem Advances.iterates (hR : Advances size R) : ∀ n, Advances size (Iterates R n)
  | 0, _, _, hi, h => ⟨h.le, h ▸ hi⟩
  | n + 1, _, _, hi, ⟨_, hk, h⟩ => by
    obtain ⟨hik, hk'⟩ := hR _ _ hi hk
    obtain ⟨hkj, hj⟩ := hR.iterates n _ _ hk' h
    exact ⟨hik.trans hkj, hj⟩

/-- Among more rounds than there are places left one stays where it is. -/
theorem iterates_succ_iff (hR : Advances size R) : ∀ {n i : Nat}, i ≤ size → size - i < n →
    (Iterates R (n + 1) i j ↔ Iterates R n i j)
  | 0, _, _, hn => absurd hn (Nat.not_lt_zero _)
  | n + 1, i, hi, hn => by
    have hlater : ∀ {k}, R i k → k ≠ i → (Iterates R (n + 1) k j ↔ Iterates R n k j) := by
      intro k hk hne
      obtain ⟨hik, hk'⟩ := hR _ _ hi hk
      exact iterates_succ_iff hR hk' (by omega)
    constructor
    · rintro ⟨k, hk, h⟩
      by_cases hki : k = i
      · rw [← hki]
        exact h
      · exact ⟨k, hk, (hlater hk hki).mp h⟩
    · rintro ⟨k, hk, h⟩
      by_cases hki : k = i
      · subst hki
        exact ⟨k, hk, k, hk, h⟩
      · exact ⟨k, hk, (hlater hk hki).mpr h⟩

/-- More rounds than there are places are all the same. -/
theorem iterates_iff_of_lt (hR : Advances size R) (hi : i ≤ size) {m n : Nat} (hm : size < m)
    (hn : size < n) : Iterates R m i j ↔ Iterates R n i j := by
  have hsteps : ∀ d, Iterates R (size + 1 + d) i j ↔ Iterates R (size + 1) i j := by
    intro d
    induction d with
    | zero => rfl
    | succ d ih =>
      have hlt : size - i < size + 1 + d := by omega
      exact (iterates_succ_iff hR hi hlt).trans ih
  have hm' := hsteps (m - (size + 1))
  have hn' := hsteps (n - (size + 1))
  rw [Nat.add_sub_cancel' hm] at hm'
  rw [Nat.add_sub_cancel' hn] at hn'
  exact hm'.trans hn'.symm

/-- A function on sets of places goes along a relation between places. -/
structure Computes (size : Nat) (f : Nat → Nat) (R : Nat → Nat → Prop) : Prop where
  advances : Advances size R
  testBit : ∀ {s j}, s < 2 ^ (size + 1) →
    ((f s).testBit j = true ↔ ∃ i, s.testBit i = true ∧ R i j)

namespace Computes
variable {f : Nat → Nat}

theorem lt (h : Computes size f R) (hs : s < 2 ^ (size + 1)) : f s < 2 ^ (size + 1) := by
  refine Nat.lt_pow_two_of_testBit _ fun j hj => ?_
  by_contra hbit
  obtain ⟨i, hi, hij⟩ := (h.testBit hs).mp (Bool.eq_true_of_not_eq_false hbit)
  have := (h.advances i j (le_of_testBit hs hi) hij).2
  omega

theorem rounds (h : Computes size f R) : ∀ n, Computes size (rounds f n) (Iterates R n)
  | 0 => ⟨h.advances.iterates 0, fun _ => by simp [Regex.rounds, Iterates]⟩
  | n + 1 => by
    refine ⟨h.advances.iterates (n + 1), fun {s j} hs => ?_⟩
    rw [Regex.rounds]
    split_ifs with hzero
    · subst hzero
      simp
    · rw [(h.rounds n).testBit (h.lt hs)]
      simp only [h.testBit hs, Iterates]
      constructor
      · rintro ⟨k, ⟨i, hi, hik⟩, hkj⟩
        exact ⟨i, hi, k, hik, hkj⟩
      · rintro ⟨i, hi, k, hik, hkj⟩
        exact ⟨k, ⟨i, hi, hik⟩, hkj⟩

/-- The places that a step finds anew. -/
theorem testBit_found (h : Computes size f R) {fresh : Nat} (hfresh : fresh < 2 ^ (size + 1))
    (seen k : Nat) : ((f fresh ||| seen) ^^^ seen).testBit k = true ↔
      (∃ i, fresh.testBit i = true ∧ R i k) ∧ seen.testBit k = false := by
  rw [← h.testBit hfresh, Nat.testBit_xor, Nat.testBit_or]
  cases (f fresh).testBit k <;> cases seen.testBit k <;> simp

end Computes

/-- The fresh places have been seen, and the others that have been seen lead to such places. -/
structure Searches (R : Nat → Nat → Prop) (fresh seen : Nat) : Prop where
  sub : ∀ i, fresh.testBit i = true → seen.testBit i = true
  stale : ∀ i j, seen.testBit i = true → fresh.testBit i = false → R i j → seen.testBit j = true

namespace Searches
variable {f : Nat → Nat} {fresh seen : Nat}

/-- One step from what has been seen leads to what has been seen or is found next. -/
theorem step (hs : Searches R fresh seen) (h : Computes size f R) (hfresh : fresh < 2 ^ (size + 1))
    (hi : seen.testBit i = true) (hij : R i j) :
    (seen ||| ((f fresh ||| seen) ^^^ seen)).testBit j = true := by
  rw [Nat.testBit_or, Bool.or_eq_true, h.testBit_found hfresh]
  by_cases hj : seen.testBit j = true
  · exact .inl hj
  · refine .inr ⟨⟨i, ?_, hij⟩, Bool.eq_false_of_not_eq_true hj⟩
    by_contra hstale
    exact hj (hs.stale i j hi (Bool.eq_false_of_not_eq_true hstale) hij)

theorem next (hs : Searches R fresh seen) (h : Computes size f R)
    (hfresh : fresh < 2 ^ (size + 1)) :
    Searches R ((f fresh ||| seen) ^^^ seen) (seen ||| ((f fresh ||| seen) ^^^ seen)) := by
  refine ⟨fun i hi => ?_, fun i j hi hstale hij => ?_⟩
  · rw [Nat.testBit_or, hi, Bool.or_true]
  · rw [Nat.testBit_or, hstale, Bool.or_false] at hi
    exact hs.step h hfresh hi hij

/-- A search that finds nothing has seen all that can be reached. -/
theorem of_iterates (hs : Searches R fresh seen) (h : Computes size f R)
    (hfresh : fresh < 2 ^ (size + 1)) (hzero : (f fresh ||| seen) ^^^ seen = 0) : ∀ {m i},
    Iterates R m i j → seen.testBit i = true → seen.testBit j = true
  | 0, _, hij, hi => hij ▸ hi
  | m + 1, i, ⟨k, hik, hkj⟩, hi => by
    have hk := hs.step h hfresh hi hik
    rw [hzero, Nat.or_zero] at hk
    exact hs.of_iterates h hfresh hzero hkj hk

end Searches

namespace Computes
variable {f : Nat → Nat}

/-- A search in rounds finds what a number of rounds reaches from the places seen. -/
theorem testBit_spread (h : Computes size f R) : ∀ {n fresh seen : Nat},
    fresh < 2 ^ (size + 1) → seen < 2 ^ (size + 1) → Searches R fresh seen →
    ((spread f n fresh seen).testBit j = true ↔
      ∃ m ≤ n, ∃ i, seen.testBit i = true ∧ Iterates R m i j)
  | 0, fresh, seen, _, _, _ => by
    simp [spread, Iterates]
  | n + 1, fresh, seen, hfresh, hseen, hs => by
    rw [spread]
    split_ifs with hzero
    · exact ⟨fun hj => ⟨0, Nat.zero_le _, j, hj, rfl⟩,
        fun ⟨_, _, _, hi, hij⟩ => hs.of_iterates h hfresh hzero hij hi⟩
    · have hlt : (f fresh ||| seen) ^^^ seen < 2 ^ (size + 1) :=
        Nat.xor_lt_two_pow (Nat.or_lt_two_pow (h.lt hfresh) hseen) hseen
      have hor : ∀ i, (seen ||| ((f fresh ||| seen) ^^^ seen)).testBit i = true ↔
          seen.testBit i = true ∨ ((f fresh ||| seen) ^^^ seen).testBit i = true := by
        intro i
        rw [Nat.testBit_or, Bool.or_eq_true]
      rw [testBit_spread h hlt (Nat.or_lt_two_pow hseen hlt) (hs.next h hfresh)]
      constructor
      · rintro ⟨m, hm, i, hi, hij⟩
        rcases (hor i).mp hi with hi | hi
        · exact ⟨m, by omega, i, hi, hij⟩
        · obtain ⟨⟨k, hk, hki⟩, -⟩ := (h.testBit_found hfresh seen i).mp hi
          exact ⟨m + 1, by omega, k, hs.sub k hk, i, hki, hij⟩
      · rintro ⟨m, hm, i, hi, hij⟩
        cases m with
        | zero => exact ⟨0, Nat.zero_le _, i, (hor i).mpr (.inl hi), hij⟩
        | succ m =>
          obtain ⟨k, hik, hkj⟩ := hij
          exact ⟨m, by omega, k, hs.step h hfresh hi hik, hkj⟩

end Computes

/-! ### Repetitions -/

/-- The greatest number of further rounds that `reach` goes. -/
def moreRounds (size least : Nat) : Option Nat → Nat
  | none => size + 1
  | some m => min (m - least) (size + 1)

theorem le_moreRounds {least : Nat} {most : Option Nat} {n : Nat} (hn : n ≤ size + 1)
    (h : ∀ m, most = some m → n ≤ m - least) : n ≤ moreRounds size least most := by
  cases most with
  | none => exact hn
  | some m => exact le_min (h m rfl) hn

/-- No more rounds are needed than the text has places. -/
theorem repeats_iff (hR : Advances size R) {least : Nat} {most : Option Nat} (hi : i ≤ size) :
    Repeats R least most i j ↔
      ∃ m ≤ moreRounds size least most, Iterates R (min least (size + 1) + m) i j := by
  constructor
  · rintro ⟨n, hn, hij⟩
    rcases le_or_gt least (size + 1) with hl | hl
    · rw [min_eq_left hl]
      rcases le_or_gt n (size + 1) with hle | hlt
      · exact ⟨n, le_moreRounds hle hn, hij⟩
      · refine ⟨size + 1, le_moreRounds le_rfl fun m hm => hlt.le.trans (hn m hm), ?_⟩
        exact (iterates_iff_of_lt hR hi (by omega) (by omega)).mp hij
    · refine ⟨0, Nat.zero_le _, ?_⟩
      rw [min_eq_right hl.le]
      exact (iterates_iff_of_lt hR hi (by omega) (by omega)).mp hij
  · rintro ⟨m, hm, hij⟩
    rcases le_or_gt least (size + 1) with hl | hl
    · rw [min_eq_left hl] at hij
      refine ⟨m, ?_, hij⟩
      rintro M rfl
      exact hm.trans (min_le_left _ _)
    · rw [min_eq_right hl.le] at hij
      refine ⟨0, fun _ _ => Nat.zero_le _, ?_⟩
      exact (iterates_iff_of_lt hR hi (by omega) (by omega)).mp hij

theorem Computes.times {f : Nat → Nat} (h : Computes size f R) (least : Nat) (most : Option Nat) :
    Computes size (fun s => spread f (moreRounds size least most)
      (Regex.rounds f (min least (size + 1)) s) (Regex.rounds f (min least (size + 1)) s))
      (Repeats R least most) := by
  refine ⟨fun i j hi ⟨n, _, hij⟩ => h.advances.iterates _ i j hi hij, fun {s j} hs => ?_⟩
  have hrounds := h.rounds (min least (size + 1))
  have hsearch : ∀ s, Searches R s s := fun s =>
    ⟨fun _ hi => hi, fun i _ hi hstale _ => absurd hi (Bool.eq_false_iff.mp hstale)⟩
  rw [h.testBit_spread (hrounds.lt hs) (hrounds.lt hs) (hsearch _)]
  constructor
  · rintro ⟨m, hm, k, hk, hkj⟩
    obtain ⟨i, hi, hik⟩ := (hrounds.testBit hs).mp hk
    exact ⟨i, hi, (repeats_iff h.advances (le_of_testBit hs hi)).mpr
      ⟨m, hm, iterates_add.mpr ⟨k, hik, hkj⟩⟩⟩
  · rintro ⟨i, hi, hij⟩
    obtain ⟨m, hm, hij⟩ := (repeats_iff h.advances (le_of_testBit hs hi)).mp hij
    obtain ⟨k, hik, hkj⟩ := iterates_add.mp hij
    exact ⟨m, hm, k, (hrounds.testBit hs).mpr ⟨i, hi, hik⟩, hkj⟩

/-! ### Expressions -/

variable {text : Array Char}

theorem advances_next? (a : Atom) : Advances text.size fun i j => a.next? text i = some j := by
  intro i j hi h
  cases a with
  | char c =>
    unfold Atom.next? at h
    dsimp only at h
    split at h
    · next x hx =>
      split_ifs at h
      cases h
      obtain ⟨hlt, -⟩ := Array.getElem?_eq_some_iff.mp hx
      exact ⟨Nat.le_succ i, hlt⟩
    · cases h
  | look l =>
    unfold Atom.next? at h
    dsimp only at h
    split_ifs at h
    all_goals
      cases h
      exact ⟨le_rfl, hi⟩

/-- **An expression leads from the places of a set to those at which its matches end.** -/
theorem computes_reach (text : Array Char) : ∀ r : Regex Atom,
    Computes text.size (reach text r) (r.Matches text)
  | .empty => by
    refine ⟨fun i j hi h => ⟨h.le, h ▸ hi⟩, fun _ => ?_⟩
    simp [reach, Matches]
  | .atom a => ⟨advances_next? a, fun hs => testBit_image _ _ hs⟩
  | .seq r t => by
    have hr := computes_reach text r
    have ht := computes_reach text t
    refine ⟨?_, fun {s j} hs => ?_⟩
    · rintro i j hi ⟨k, hik, hkj⟩
      obtain ⟨hle, hk⟩ := hr.advances i k hi hik
      obtain ⟨hle', hj⟩ := ht.advances k j hk hkj
      exact ⟨hle.trans hle', hj⟩
    · rw [reach, ht.testBit (hr.lt hs)]
      simp only [hr.testBit hs, Matches]
      constructor
      · rintro ⟨k, ⟨i, hi, hik⟩, hkj⟩
        exact ⟨i, hi, k, hik, hkj⟩
      · rintro ⟨i, hi, k, hik, hkj⟩
        exact ⟨k, ⟨i, hi, hik⟩, hkj⟩
  | .alt r t => by
    have hr := computes_reach text r
    have ht := computes_reach text t
    refine ⟨fun i j hi h => h.elim (hr.advances i j hi) (ht.advances i j hi), fun {s j} hs => ?_⟩
    rw [reach, Nat.testBit_or, Bool.or_eq_true, hr.testBit hs, ht.testBit hs]
    simp only [Matches, and_or_left, exists_or]
  | .times r least most => by
    have h := (computes_reach text r).times least most
    cases most <;> exact h

/-- **An expression occurs in a text if it has a match from some place of the text on.** -/
theorem occursIn_iff {r : Regex Atom} {text : List Char} :
    r.occursIn text = true ↔ ∃ i j, i ≤ text.length ∧ r.Matches text.toArray i j := by
  have hall : ∀ i, (2 ^ (text.length + 1) - 1).testBit i = true ↔ i ≤ text.length := by
    intro i
    rw [Nat.testBit_two_pow_sub_one, decide_eq_true_iff, Nat.lt_succ_iff]
  have hlt : 2 ^ (text.length + 1) - 1 < 2 ^ (text.toArray.size + 1) :=
    Nat.sub_lt (Nat.two_pow_pos _) Nat.one_pos
  unfold occursIn
  rw [bne_iff_ne, show Nat.pow 2 (text.length + 1) = 2 ^ (text.length + 1) from rfl]
  constructor
  · intro hne
    obtain ⟨j, hj⟩ := Nat.exists_testBit_of_ne_zero hne
    obtain ⟨i, hi, hij⟩ := ((computes_reach text.toArray r).testBit hlt).mp hj
    exact ⟨i, j, (hall i).mp hi, hij⟩
  · rintro ⟨i, j, hi, hij⟩ hzero
    have hj := ((computes_reach text.toArray r).testBit hlt).mpr ⟨i, (hall i).mpr hi, hij⟩
    rw [hzero, Nat.zero_testBit] at hj
    cases hj

theorem next?_look {text : Array Char} {l : Look} : (Atom.look l).next? text i = some j ↔
    l.holds (if i = 0 then none else text[i - 1]?) text[i]? = true ∧ i = j := by
  unfold Atom.next?
  dsimp only
  rw [Option.ite_none_right_eq_some, Option.some.injEq]

theorem next?_startText {text : Array Char} (hi : i ≤ text.size) :
    (Atom.look .startText).next? text i = some j ↔ i = 0 ∧ i = j := by
  rw [next?_look]
  refine and_congr_left' ?_
  show Option.isNone _ = true ↔ _
  split_ifs with hzero
  · simp [hzero]
  · rw [Array.getElem?_eq_getElem (by omega)]
    simp [hzero]

theorem next?_endText {text : Array Char} (hi : i ≤ text.size) :
    (Atom.look .endText).next? text i = some j ↔ i = text.size ∧ i = j := by
  rw [next?_look]
  refine and_congr_left' ?_
  show Option.isNone text[i]? = true ↔ _
  rcases hi.lt_or_eq with hlt | rfl
  · rw [Array.getElem?_eq_getElem hlt]
    simp [hlt.ne]
  · simp

end Regex
end CatalogRules.Pattern
