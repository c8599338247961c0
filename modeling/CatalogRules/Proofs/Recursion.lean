import Mathlib.Order.WellFounded

/-! # Recursive functions

A recursive function is given by its step, which makes of the function for the recursive calls the
function itself; `unroll step bottom n` calls itself up to `n` deep. What a step gives at an argument
may depend on what the function gives at other arguments, which are those that it is called at
(`Calls`). If these are smaller by a measure (`Descends`), calls end (`Descends.wellFounded`), and
if the measure decreases by two each time they are nested half as deep as the measure is, whatever
is at the bottom (`Descends.unroll_eq`). -/

namespace CatalogRules.Recursion

variable {α β : Type} {step : (α → β) → α → β} {bottom bottom' : α → β}

/-- The function that calls itself up to `n` deep. -/
def unroll (step : (α → β) → α → β) (bottom : α → β) : Nat → α → β
  | 0 => bottom
  | n + 1 => step (unroll step bottom n)

/-- The step at `y` calls the function at `x`: what it gives depends on what the function gives
there. -/
def Calls (step : (α → β) → α → β) (x y : α) : Prop :=
  ∃ f g : α → β, (∀ z, z ≠ x → f z = g z) ∧ step f y ≠ step g y

/-- `Chain step n x y`: from `y` on there are `n` calls, each made by the one before, the last at
`x`. -/
def Chain (step : (α → β) → α → β) : Nat → α → α → Prop
  | 0, x, y => x = y
  | n + 1, x, y => ∃ z, Calls step z y ∧ Chain step n x z

/-- Calls are made at related arguments only, and the measure of these is smaller by two. -/
structure Descends (step : (α → β) → α → β) (measure : α → Nat) (related : α → α → Prop) :
    Prop where
  congr : ∀ {f g y}, (∀ x, related x y → f x = g x) → step f y = step g y
  pos : ∀ {x y}, related x y → 0 < measure x
  add_two_le : ∀ {x y}, related x y → measure x + 2 ≤ measure y

namespace Descends

variable {measure : α → Nat} {related : α → α → Prop} {x y : α}

theorem related_of_calls (h : Descends step measure related) (hc : Calls step x y) :
    related x y := by
  obtain ⟨f, g, hfg, hne⟩ := hc
  by_contra hr
  refine hne (h.congr fun z hz => hfg z ?_)
  rintro rfl
  exact hr hz

/-- There are no endless chains of calls. -/
theorem wellFounded (h : Descends step measure related) : WellFounded (Calls step) := by
  refine Subrelation.wf (r := InvImage (· < ·) measure) ?_ (InvImage.wf measure Nat.lt_wfRel.wf)
  intro x y hc
  have hle := h.add_two_le (h.related_of_calls hc)
  show measure x < measure y
  omega

/-- Every call of a chain takes two from the measure. -/
theorem chain_le (h : Descends step measure related) : ∀ {n : Nat} {x y : α},
    Chain step n x y → measure x + 2 * n ≤ measure y ∧ (0 < n → 0 < measure x)
  | 0, x, y, hc => by
    obtain rfl : x = y := hc
    exact ⟨le_refl _, fun h0 => absurd h0 (Nat.lt_irrefl 0)⟩
  | n + 1, x, y, hc => by
    obtain ⟨z, hz, hc⟩ := hc
    have hrel := h.related_of_calls hz
    have hle := h.add_two_le hrel
    have hpos := h.pos hrel
    obtain ⟨hsum, hx⟩ := h.chain_le hc
    refine ⟨by omega, fun _ => ?_⟩
    cases n with
    | zero =>
      obtain rfl : x = z := hc
      exact hpos
    | succ n => exact hx (Nat.succ_pos n)

/-- **What is at the bottom is never reached**, if there is one level for each two of the measure. -/
theorem unroll_eq (h : Descends step measure related) : ∀ {m n : Nat} {y : α}, 0 < m → 0 < n →
    measure y ≤ 2 * m → measure y ≤ 2 * n → unroll step bottom m y = unroll step bottom' n y
  | m + 1, n + 1, y, _, _, hm, hn => h.congr fun x hx => by
    have hpos := h.pos hx
    have hle := h.add_two_le hx
    exact h.unroll_eq (by omega) (by omega) (by omega) (by omega)

end Descends
end CatalogRules.Recursion
