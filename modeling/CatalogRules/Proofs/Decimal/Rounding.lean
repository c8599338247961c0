import CatalogRules.Decimal.Numeral
import CatalogRules.Json.Value
import Mathlib.Algebra.Order.Ring.Abs
import Mathlib.Algebra.Order.Ring.Int
import Mathlib.Algebra.Ring.Divisibility.Basic
import Mathlib.Data.List.TakeWhile
import Mathlib.Tactic.Linarith
import Mathlib.Tactic.Ring

/-! # Integers as doubles

An integer is a double itself if it has at most 53 significant binary digits. `Double.Rounds n m` says
that `m` is the double nearest to the integer `n`, and the one with the even significand if two are
equally near: the one that a higher power of two divides. There is exactly one such double, and
rounding keeps the order (`Rounds.unique`, `Rounds.mono`).

The rounding of the model is this one (`rounds_nearestUnits`), be the integers counted in ones or in
units (`nearestUnits_mul_pow`), so a decimal without a point reads as the double nearest to it
(`ofDecimal_natural`). Two integers compare as their doubles do, unless these are the same
(`ofInt_lt_ofInt`).

The text of an integer of a document is read as the double of the integer (`ofText?_toString`). -/

namespace CatalogRules

namespace Double

/-! ### The nearest double -/

/-- The integer is a double: it has at most 53 significant binary digits. -/
def IsExact (m : Int) : Prop := ∃ (s : Int) (e : Nat), |s| < 2 ^ 53 ∧ m = s * 2 ^ e

/-- **The second integer is the double nearest to the first one**, with ties to even. -/
structure Rounds (n m : Int) : Prop where
  exact : IsExact m
  nearest : ∀ k, IsExact k → |m - n| ≤ |k - n|
  even : ∀ k, IsExact k → |k - n| = |m - n| → k = m ∨ ∃ e, 2 ^ e ∣ m ∧ ¬ 2 ^ e ∣ k

theorem isExact_of_abs_le {n : Int} (h : |n| ≤ 2 ^ 53) : IsExact n := by
  rcases h.lt_or_eq with h | h
  · exact ⟨n, 0, h, (mul_one n).symm⟩
  · rcases eq_or_eq_neg_of_abs_eq h with rfl | rfl
    · exact ⟨1, 53, by norm_num, (one_mul _).symm⟩
    · exact ⟨-1, 53, by norm_num, by ring⟩

theorem IsExact.neg {m : Int} (h : IsExact m) : IsExact (-m) := by
  obtain ⟨s, e, hs, rfl⟩ := h
  exact ⟨-s, e, by rwa [abs_neg], by ring⟩

namespace Rounds

variable {n m k l : Int}

theorem of_isExact (h : IsExact n) : Rounds n n where
  exact := h
  nearest k _ := by simp
  even k _ hk := by
    rw [sub_self, abs_zero, abs_eq_zero, sub_eq_zero] at hk
    exact .inl hk

theorem neg (h : Rounds n m) : Rounds (-n) (-m) := by
  have hdist : ∀ k : Int, |-k - -n| = |k - n| := fun k => by
    rw [neg_sub_neg, abs_sub_comm]
  refine ⟨h.exact.neg, fun k hk => ?_, fun k hk heq => ?_⟩
  · rw [hdist, ← neg_neg k, hdist]
    exact h.nearest _ hk.neg
  · rw [hdist, ← neg_neg k, hdist] at heq
    refine (h.even _ hk.neg heq).imp (fun h => by rw [← h, neg_neg]) fun ⟨e, hm, hk⟩ => ⟨e, ?_, ?_⟩
    · exact (dvd_neg).mpr hm
    · rwa [dvd_neg] at hk

/-- **An integer rounds to one double only.** -/
theorem unique (h : Rounds n m) (k : Rounds n l) : m = l := by
  have hdist : |m - n| = |l - n| := le_antisymm (h.nearest l k.exact) (k.nearest m h.exact)
  rcases h.even l k.exact hdist.symm with heq | ⟨e, hm, hl⟩
  · exact heq.symm
  rcases k.even m h.exact hdist with heq | ⟨e', hl', hm'⟩
  · exact heq
  -- a power of two divides one of them and not the other, and the other way round
  rcases le_total e e' with hle | hle
  · exact absurd ((pow_dvd_pow 2 hle).trans hl') hl
  · exact absurd ((pow_dvd_pow 2 hle).trans hm) hm'

/-- **Rounding keeps the order.** -/
theorem mono {n' m' : Int} (h : Rounds n m) (h' : Rounds n' m') (hle : n ≤ n') : m ≤ m' := by
  by_contra hlt
  -- the first integer is not below the middle of the doubles, and the second one is not above it
  have hlow : m + m' ≤ 2 * n := by
    have hnear := h.nearest m' h'.exact
    rcases abs_cases (m - n) with h1 | h1 <;> rcases abs_cases (m' - n) with h2 | h2 <;> omega
  have hhigh : 2 * n' ≤ m + m' := by
    have hnear := h'.nearest m h.exact
    rcases abs_cases (m - n') with h1 | h1 <;> rcases abs_cases (m' - n') with h2 | h2 <;> omega
  obtain rfl : n = n' := by omega
  exact hlt (h.unique h').le

/-- The order of two doubles is that of the integers that they are nearest to, unless these round to
the same double. -/
theorem lt_iff {n' m' : Int} (h : Rounds n m) (h' : Rounds n' m') : m < m' ↔ n < n' ∧ m ≠ m' := by
  constructor
  · intro hlt
    refine ⟨Int.not_le.mp fun hle => ?_, hlt.ne⟩
    exact absurd (h'.mono h hle) (not_le.mpr hlt)
  · rintro ⟨hlt, hne⟩
    exact lt_of_le_of_ne (h.mono h' hlt.le) hne

end Rounds

/-! ### The rounding of the model -/

theorem roundQuotient_spec (n : Nat) {g : Nat} (hg : 0 < g) :
    |2 * ((roundQuotient n g : Int) * g - n)| ≤ g ∧
      (|2 * ((roundQuotient n g : Int) * g - n)| = g → 2 ∣ roundQuotient n g) := by
  have hdiv : (n : Int) = (n / g : Nat) * g + (n % g : Nat) := by
    have h := Nat.div_add_mod n g
    rw [Nat.mul_comm] at h
    exact_mod_cast h.symm
  have hmod : n % g < g := Nat.mod_lt n hg
  unfold roundQuotient
  dsimp only
  generalize n / g = q at *
  generalize n % g = r at *
  have hup : 2 * (((q + 1 : Nat) : Int) * g - n) = 2 * (g - r) := by
    rw [hdiv]
    push_cast
    ring
  have hdown : 2 * ((q : Int) * g - n) = -(2 * r) := by
    rw [hdiv]
    ring
  split_ifs with h
  · rw [hup, abs_of_nonneg (by omega)]
    refine ⟨by omega, fun heq => ?_⟩
    have hodd : q % 2 = 1 := (h.resolve_left (by omega)).2
    omega
  · rw [hdown, abs_neg, abs_of_nonneg (by omega)]
    refine ⟨by omega, fun heq => ?_⟩
    have heven : ¬ q % 2 = 1 := fun hodd => h (.inr ⟨by omega, hodd⟩)
    omega

theorem roundQuotient_mul (n g : Nat) {c : Nat} (hc : 0 < c) :
    roundQuotient (n * c) (g * c) = roundQuotient n g := by
  unfold roundQuotient
  rw [Nat.mul_div_mul_right _ _ hc, Nat.mul_mod_mul_right, ← Nat.mul_assoc]
  have hlt : g * c < 2 * (n % g) * c ↔ g < 2 * (n % g) := Nat.mul_lt_mul_right hc
  have heq : 2 * (n % g) * c = g * c ↔ 2 * (n % g) = g := Nat.mul_left_inj hc.ne'
  simp only [hlt, heq]

theorem roundQuotient_one (n : Nat) : roundQuotient n 1 = n := by
  simp [roundQuotient, Nat.mod_one]

theorem nearestUnits_eq (n : Nat) :
    nearestUnits n 1 = roundQuotient n (2 ^ (n.log2 - 52)) * 2 ^ (n.log2 - 52) := by
  simp [nearestUnits]

/-- An integer with more than 53 binary digits lies between two powers of two. -/
theorem pow_le_of_places {n : Nat} (hp : 0 < n.log2 - 52) :
    2 ^ 52 * 2 ^ (n.log2 - 52) ≤ n ∧ n < 2 ^ 53 * 2 ^ (n.log2 - 52) := by
  have hn : n ≠ 0 := by
    rintro rfl
    simp at hp
  rw [← Nat.pow_add, ← Nat.pow_add]
  have hlog := (Nat.log2_eq_iff hn (k := n.log2)).mp rfl
  rwa [show 52 + (n.log2 - 52) = n.log2 by omega, show 53 + (n.log2 - 52) = n.log2 + 1 by omega]

/-- Doubles of which a power of two is no divisor are small. -/
theorem IsExact.abs_lt {k : Int} {p : Nat} (h : IsExact k) (hk : ¬ 2 ^ p ∣ k) :
    |k| < 2 ^ 52 * 2 ^ p := by
  obtain ⟨s, e, hs, rfl⟩ := h
  have hep : e + 1 ≤ p := by
    by_contra hpe
    exact hk ((pow_dvd_pow 2 (by omega)).trans (dvd_mul_left _ s))
  have hpow : (2 : Int) ^ (e + 1) ≤ 2 ^ p := pow_le_pow_right₀ (by norm_num) hep
  rw [abs_mul, abs_of_pos (show (0 : Int) < 2 ^ e by positivity)]
  calc |s| * 2 ^ e < 2 ^ 53 * 2 ^ e := by gcongr
    _ = 2 ^ 52 * 2 ^ (e + 1) := by ring
    _ ≤ 2 ^ 52 * 2 ^ p := by gcongr

/-- A multiple of a step that is within half a step is the nearest one; another one is as near only
if it is next to it and half a step away. -/
theorem abs_le_of_half {n q j g : Int} (hg : 0 < g) (hq : |2 * (q * g - n)| ≤ g) :
    |q * g - n| ≤ |j * g - n| ∧ (|j * g - n| = |q * g - n| →
      j = q ∨ (|2 * (q * g - n)| = g ∧ (j = q + 1 ∨ j = q - 1))) := by
  have htwo : |2 * (q * g - n)| = 2 * |q * g - n| := abs_mul 2 _
  have hapart : |j - q| * g ≤ |j * g - n| + |q * g - n| := by
    calc |j - q| * g = |(j * g - n) - (q * g - n)| := by
          rw [sub_sub_sub_cancel_right, ← sub_mul, abs_mul, abs_of_pos hg]
      _ ≤ |j * g - n| + |q * g - n| := abs_sub _ _
  rcases eq_or_ne j q with rfl | hne
  · exact ⟨le_rfl, fun _ => .inl rfl⟩
  have hstep : g ≤ |j - q| * g := le_mul_of_one_le_left hg.le (Int.one_le_abs (sub_ne_zero.mpr hne))
  refine ⟨by omega, fun heq => .inr ⟨by omega, ?_⟩⟩
  have hnext : |j - q| ≤ 1 := le_of_mul_le_mul_right (by omega) hg
  rcases abs_cases (j - q) with h | h <;> omega

section Step
variable {n q : Int} {p : Nat}

/-- The multiple of the step that is nearest is a double. -/
theorem isExact_of_half (hn : n < 2 ^ 53 * 2 ^ p) (hq : |2 * (q * 2 ^ p - n)| ≤ 2 ^ p)
    (hpos : 0 ≤ q) : IsExact (q * 2 ^ p) := by
  have hg : (0 : Int) < 2 ^ p := by positivity
  have hle : 2 * (q * 2 ^ p - n) ≤ 2 ^ p := (le_abs_self _).trans hq
  have hbound : q ≤ 2 ^ 53 := by
    have hmul : (2 * q) * 2 ^ p < (2 * 2 ^ 53 + 1) * 2 ^ p := by linarith
    have := lt_of_mul_lt_mul_right hmul hg.le
    omega
  rcases hbound.lt_or_eq with hlt | heq
  · exact ⟨q, p, by rwa [abs_of_nonneg hpos], rfl⟩
  · exact ⟨1, 53 + p, by norm_num, by rw [heq, pow_add, one_mul]⟩

/-- Doubles between the multiples of the step are farther away, because they are below the power of
two that is one of the multiples. -/
theorem abs_lt_of_not_dvd {k : Int} (hn : 2 ^ 52 * 2 ^ p ≤ n)
    (hq : |2 * (q * 2 ^ p - n)| ≤ 2 ^ p) (hk : IsExact k) (hdvd : ¬ (2 : Int) ^ p ∣ k) :
    |q * 2 ^ p - n| < |k - n| := by
  have hlt := hk.abs_lt hdvd
  refine lt_of_le_of_lt (abs_le_of_half (j := 2 ^ 52) (by positivity) hq).1 ?_
  rw [abs_sub_comm, abs_of_nonneg (sub_nonneg.mpr hn), abs_sub_comm]
  exact lt_of_lt_of_le (by linarith [le_abs_self k]) (le_abs_self _)

end Step

/-- An integer of few digits is its own rounding. -/
theorem rounds_of_places_eq_zero {n : Nat} (hp : n.log2 - 52 = 0) : Rounds n n := by
  have hlt : n < 2 ^ 53 := by
    rcases eq_or_ne n 0 with rfl | hn
    · norm_num
    · exact (Nat.log2_lt hn).mp (by omega)
  refine .of_isExact (isExact_of_abs_le ?_)
  rw [abs_of_nonneg (Int.natCast_nonneg n)]
  exact_mod_cast hlt.le

/-- **The rounding of the model is to the nearest double.** -/
theorem rounds_nearestUnits (n : Nat) : Rounds n (nearestUnits n 1) := by
  rw [nearestUnits_eq]
  generalize hp : n.log2 - 52 = p
  rcases Nat.eq_zero_or_pos p with rfl | hpos
  · rw [Nat.pow_zero, roundQuotient_one, Nat.mul_one]
    exact rounds_of_places_eq_zero hp
  obtain ⟨hlow, hhigh⟩ := pow_le_of_places (n := n) (by omega)
  rw [hp] at hlow hhigh
  obtain ⟨hhalf, htie⟩ := roundQuotient_spec n (Nat.two_pow_pos p)
  generalize roundQuotient n (2 ^ p) = q at hhalf htie
  push_cast at hhalf htie ⊢
  have hg : (0 : Int) < 2 ^ p := by positivity
  have hbest (j : Int) := abs_le_of_half (n := n) (j := j) hg hhalf
  have hsmall : ∀ k, IsExact k → ¬ (2 : Int) ^ p ∣ k → |(q : Int) * 2 ^ p - n| < |k - n| :=
    fun k => abs_lt_of_not_dvd (by exact_mod_cast hlow) hhalf
  refine ⟨isExact_of_half (by exact_mod_cast hhigh) hhalf (Int.natCast_nonneg q), fun k hk => ?_,
    fun k hk heq => ?_⟩
  · by_cases hdvd : (2 : Int) ^ p ∣ k
    · obtain ⟨j, rfl⟩ := hdvd
      rw [mul_comm (2 ^ p)]
      exact (hbest j).1
    · exact (hsmall k hk hdvd).le
  · by_cases hdvd : (2 : Int) ^ p ∣ k
    · obtain ⟨j, rfl⟩ := hdvd
      rw [mul_comm (2 ^ p)] at heq ⊢
      rcases (hbest j).2 heq with rfl | ⟨htwo, hj⟩
      · exact .inl rfl
      · have heven := htie htwo
        refine .inr ⟨p + 1, ?_, fun hdvd => ?_⟩
        · rw [pow_succ, mul_comm]
          exact mul_dvd_mul_right (by exact_mod_cast heven) _
        · rw [pow_succ, mul_comm] at hdvd
          have := (mul_dvd_mul_iff_right hg.ne').mp hdvd
          omega
    · exact absurd heq (hsmall k hk hdvd).ne'

/-! ### Units and decimals -/

theorem log2_mul_pow {n : Nat} (hn : n ≠ 0) (t : Nat) : (n * 2 ^ t).log2 = n.log2 + t := by
  obtain ⟨hlow, hhigh⟩ := (Nat.log2_eq_iff hn (k := n.log2)).mp rfl
  rw [Nat.log2_eq_iff (Nat.mul_ne_zero hn (Nat.two_pow_pos t).ne'), Nat.pow_add,
    Nat.add_right_comm, Nat.pow_add]
  exact ⟨Nat.mul_le_mul_right _ hlow, Nat.mul_lt_mul_of_pos_right hhigh (Nat.two_pow_pos t)⟩

/-- Rounding is the same in ones and in units. -/
theorem nearestUnits_mul_pow (n : Nat) {t : Nat} (ht : 52 ≤ t) :
    nearestUnits (n * 2 ^ t) 1 = nearestUnits n 1 * 2 ^ t := by
  rcases eq_or_ne n 0 with rfl | hn
  · simp [nearestUnits, roundQuotient]
  rw [nearestUnits_eq, nearestUnits_eq, log2_mul_pow hn]
  rcases Nat.le_total 52 n.log2 with h | h
  · rw [show n.log2 + t - 52 = n.log2 - 52 + t by omega, Nat.pow_add,
      roundQuotient_mul _ _ (Nat.two_pow_pos t), Nat.mul_assoc]
  · -- nothing is rounded away
    have hsplit : (2 : Nat) ^ t = 2 ^ (52 - n.log2) * 2 ^ (n.log2 + t - 52) := by
      rw [← Nat.pow_add]
      congr 1
      omega
    have hone := roundQuotient_mul (n * 2 ^ (52 - n.log2)) 1 (Nat.two_pow_pos (n.log2 + t - 52))
    rw [Nat.one_mul, roundQuotient_one, Nat.mul_assoc, ← hsplit] at hone
    rw [hone, show n.log2 - 52 = 0 by omega, Nat.pow_zero, roundQuotient_one, Nat.mul_one,
      Nat.mul_assoc, ← hsplit]

-- the exponents are given by equations, lest the powers are computed
theorem exists_one_eq : ∃ t, t = 1074 ∧ one = Nat.pow 2 t := by
  refine ⟨_, rfl, ?_⟩
  unfold one
  with_reducible rfl

theorem exists_bound_eq : ∃ t, t = 2098 ∧ bound = Nat.pow 2 t := by
  refine ⟨_, rfl, ?_⟩
  unfold bound
  with_reducible rfl

theorem one_pos : 0 < one := by
  obtain ⟨t, -, hone⟩ := exists_one_eq
  rw [hone, Nat.pow_eq]
  exact Nat.two_pow_pos t

theorem nearestUnits_mul_one (n : Nat) : nearestUnits (n * one) 1 = nearestUnits n 1 * one := by
  obtain ⟨t, ht, hone⟩ := exists_one_eq
  rw [hone, Nat.pow_eq]
  exact nearestUnits_mul_pow n (by omega)

theorem nearestUnits_le {n : Nat} (hn : n ≤ Word.bound) : nearestUnits n 1 ≤ Word.bound := by
  have hexact : IsExact (Word.bound : Nat) := ⟨1, 64, by norm_num, by norm_num [Word.bound]⟩
  exact_mod_cast (rounds_nearestUnits n).mono (.of_isExact hexact) (by exact_mod_cast hn)

theorem nearestUnits_mul_one_lt {n : Nat} (hn : n ≤ Word.bound) :
    nearestUnits n 1 * one < bound := by
  obtain ⟨s, hs, hone⟩ := exists_one_eq
  obtain ⟨t, ht, hbound⟩ := exists_bound_eq
  have hword : Word.bound = 2 ^ 64 := rfl
  refine lt_of_le_of_lt (Nat.mul_le_mul_right one (nearestUnits_le hn)) ?_
  rw [hone, hbound, hword, Nat.pow_eq, Nat.pow_eq, ← Nat.pow_add]
  exact Nat.pow_lt_pow_right (by decide) (by omega)

/-- **The double of a decimal without a point** is finite and the nearest one. -/
theorem ofDecimal_natural (negative : Bool) {n : Nat} (hn : n ≤ Word.bound) :
    ofDecimal negative n 0 = some ⟨negative, nearestUnits n 1 * one⟩ := by
  rcases eq_or_ne n 0 with rfl | h0
  · simp [ofDecimal, nearestUnits, roundQuotient]
  have hlog : n.log2 < 65 := (Nat.log2_lt h0).mpr (lt_of_le_of_lt hn (by decide))
  have hdigits : n * Nat.pow 10 (0 : Int).toNat = n := Nat.mul_one n
  unfold ofDecimal
  rw [if_neg h0, if_neg (by omega), if_neg (by omega), if_pos le_rfl, nearest, hdigits,
    nearestUnits_mul_one]
  exact if_pos (nearestUnits_mul_one_lt hn)

/-! ### Comparing -/

/-- The integers round to the same double. -/
def SameDouble (n n' : Int) : Prop := ∃ m, Rounds n m ∧ Rounds n' m

/-- Small integers are told apart. -/
theorem SameDouble.eq_of_abs_le {n n' : Int} (h : SameDouble n n') (hn : |n| ≤ 2 ^ 53)
    (hn' : |n'| ≤ 2 ^ 53) : n = n' := by
  obtain ⟨m, hm, hm'⟩ := h
  exact ((Rounds.of_isExact (isExact_of_abs_le hn)).unique hm).trans
    ((Rounds.of_isExact (isExact_of_abs_le hn')).unique hm').symm

/-- The double of an integer. -/
def ofInt (n : Int) : Double := ⟨decide (n < 0), nearestUnits n.natAbs 1 * one⟩

theorem rounds_ofInt (n : Int) : ∃ m, Rounds n m ∧ (ofInt n).value = m * one := by
  have h := rounds_nearestUnits n.natAbs
  by_cases hn : n < 0
  · have hneg := h.neg
    rw [Int.ofNat_natAbs_of_nonpos hn.le, neg_neg] at hneg
    refine ⟨_, hneg, (if_pos (decide_eq_true hn)).trans ?_⟩
    rw [ofInt, Nat.cast_mul, neg_mul]
  · rw [Int.natAbs_of_nonneg (not_lt.mp hn)] at h
    refine ⟨_, h, (if_neg (by simpa [ofInt] using hn)).trans ?_⟩
    rw [ofInt, Nat.cast_mul]

/-- **The doubles of integers are in the order of these**, unless they are the same. -/
theorem ofInt_lt_ofInt (n n' : Int) : ofInt n < ofInt n' ↔ n < n' ∧ ¬ SameDouble n n' := by
  obtain ⟨m, hm, hvalue⟩ := rounds_ofInt n
  obtain ⟨m', hm', hvalue'⟩ := rounds_ofInt n'
  have hsame : SameDouble n n' ↔ m = m' := by
    refine ⟨fun ⟨k, hk, hk'⟩ => (hm.unique hk).trans (hk'.unique hm'), ?_⟩
    rintro rfl
    exact ⟨m, hm, hm'⟩
  rw [hsame, ← ne_eq, ← hm.lt_iff hm']
  show (ofInt n).value < (ofInt n').value ↔ m < m'
  rw [hvalue, hvalue']
  exact mul_lt_mul_iff_left₀ (by exact_mod_cast one_pos)

end Double

/-! ### Texts of integers -/

theorem Text.strip_self {cs : List Char} (h : ∀ c ∈ cs, isBlank c = false) : strip cs = cs := by
  have hdrop : ∀ l : List Char, (∀ c ∈ l, isBlank c = false) → l.dropWhile isBlank = l := by
    intro l hl
    cases l with
    | nil => rfl
    | cons c l => exact List.dropWhile_cons_of_neg (by simp [hl c])
  rw [strip, hdrop cs h, hdrop _ (by simpa using h), List.reverse_reverse]

theorem Text.isBlank_of_isDigit {c : Char} (h : c.isDigit) : isBlank c = false := by
  have hrange : 48 ≤ c.toNat ∧ c.toNat ≤ 57 := by
    simpa [Char.isDigit, UInt32.le_iff_toNat_le] using h
  simp only [isBlank, Bool.or_eq_false_iff, Bool.and_eq_false_iff, beq_eq_false_iff_ne,
    decide_eq_false_iff_not]
  omega

theorem isDigit_of_mem_toDigits {n : Nat} {c : Char} (h : c ∈ Nat.toDigits 10 n) : c.isDigit :=
  Nat.isDigit_of_mem_toDigits (b := 10) (by decide) (by decide) h

namespace Numeral

theorem digitsValue_toDigits (n : Nat) : digitsValue (Nat.toDigits 10 n) = n := by
  rw [digitsValue, ← Nat.ofDigitChars_eq_foldl, Nat.ofDigitChars_ten_toDigits]

/-- The characters of an integer. -/
def intChars (n : Int) : List Char :=
  if n < 0 then '-' :: Nat.toDigits 10 n.natAbs else Nat.toDigits 10 n.natAbs

theorem sign_intChars (n : Int) : sign (intChars n) = (decide (n < 0), Nat.toDigits 10 n.natAbs) := by
  unfold intChars
  split_ifs with hn
  · simp [sign, hn]
  · -- digits do not begin with a sign
    have hdigit : ∀ c ∈ Nat.toDigits 10 n.natAbs, c.isDigit := fun c => isDigit_of_mem_toDigits
    rw [decide_eq_false hn]
    generalize Nat.toDigits 10 n.natAbs = ds at hdigit
    unfold sign
    split
    · exact absurd (hdigit '+' List.mem_cons_self) (by decide)
    · exact absurd (hdigit '-' List.mem_cons_self) (by decide)
    · rfl

theorem parts?_intChars (n : Int) : parts? (intChars n) = some (decide (n < 0), n.natAbs, 0) := by
  have hdigit : ∀ c ∈ Nat.toDigits 10 n.natAbs, c.isDigit = true :=
    fun c => isDigit_of_mem_toDigits
  have hrest : (Nat.toDigits 10 n.natAbs).dropWhile Char.isDigit = [] :=
    List.dropWhile_eq_nil_iff.mpr hdigit
  have hwhole : (Nat.toDigits 10 n.natAbs).takeWhile Char.isDigit = Nat.toDigits 10 n.natAbs :=
    List.takeWhile_eq_self_iff.mpr hdigit
  unfold parts?
  rw [sign_intChars]
  dsimp only
  rw [hrest, hwhole]
  simp [exponent?, digitsValue_toDigits]

theorem strip_intChars (n : Int) : Text.strip (intChars n) = intChars n := by
  refine Text.strip_self fun c hc => ?_
  unfold intChars at hc
  split_ifs at hc
  · rcases List.mem_cons.mp hc with rfl | hc
    · decide
    · exact Text.isBlank_of_isDigit (isDigit_of_mem_toDigits hc)
  · exact Text.isBlank_of_isDigit (isDigit_of_mem_toDigits hc)

theorem toList_toString (n : Int) : (toString n).toList = intChars n := by
  cases n with
  | ofNat n =>
    show (Nat.repr n).toList = Nat.toDigits 10 n
    rw [Nat.repr_eq_ofList_toDigits, String.toList_ofList]
  | negSucc n =>
    rw [intChars, if_pos (Int.negSucc_lt_zero n)]
    show ("-" ++ Nat.repr (n + 1)).toList = '-' :: Nat.toDigits 10 (n + 1)
    simp [Nat.repr_eq_ofList_toDigits]

/-- **An integer is read as the double nearest to it.** -/
theorem ofText?_toString {n : Int} (hn : n.natAbs ≤ Word.bound) :
    ofText? (toString n) = some (Double.ofInt n) := by
  rw [ofText?, toList_toString, strip_intChars, read?, parts?_intChars]
  exact Double.ofDecimal_natural _ hn

end Numeral

theorem Json.Number.text_int (n : Int) : (Number.int n).text = toString n := by
  rw [text, ← String.toList_inj, String.toList_ofList, Numeral.toList_toString]
  rfl

end CatalogRules
