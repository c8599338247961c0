import CatalogRules.Proofs.Looking

/-! # Computations that keep a part of the store

`Run.Keeps f x P` says of a computation that it leaves the view `f` of the store as it was, whether
it fails or not, and that what it gives has the property `P`. Unlike the computations of
`Run.Looks`, it may change the rest of the platform and may fail for any reason. -/

namespace CatalogRules
namespace Run

variable {α β γ ι : Type}

/-- The computation leaves the view of the store as it was, and what it gives has the property. -/
def Keeps (f : Store → γ) (x : Run α) (P : α → Prop) : Prop :=
  ∀ p : Platform, f (x.run p).2.store = f p.store ∧ ∀ a, (x.run p).1 = .ok a → P a

namespace Keeps

variable {f : Store → γ} {x : Run α} {P : α → Prop} {Q : β → Prop}

theorem pure {a : α} (h : P a) : Keeps f (Pure.pure a) P := fun p =>
  ⟨rfl, fun b hb => by cases hb; exact h⟩

theorem throw (e : Failure) : Keeps f (MonadExcept.throw e : Run α) P := fun p =>
  ⟨rfl, fun b hb => by cases hb⟩

theorem bind {g : α → Run β} (hx : Keeps f x P) (hg : ∀ a, P a → Keeps f (g a) Q) :
    Keeps f (x >>= g) Q := by
  intro p
  obtain ⟨hs, hP⟩ := hx p
  rw [run_bind]
  rcases hxp : x.run p with ⟨e | a, q⟩
  · rw [hxp] at hs
    exact ⟨hs, fun b hb => by cases hb⟩
  · rw [hxp] at hs hP
    obtain ⟨hs', hQ⟩ := hg a (hP a rfl) q
    exact ⟨hs'.trans hs, hQ⟩

theorem forM {g : ι → Run Unit} (l : List ι) (hg : ∀ i ∈ l, Keeps f (g i) fun _ => True) :
    Keeps f (l.forM g) fun _ => True := by
  induction l with
  | nil => exact pure trivial
  | cons i l ih =>
    show Keeps f (g i >>= fun _ => l.forM g) _
    exact (hg i List.mem_cons_self).bind fun _ _ => ih fun j hj => hg j (List.mem_cons_of_mem _ hj)

theorem count (m : Meter) : Keeps f (Run.count m) fun _ => True := fun _ =>
  ⟨rfl, fun _ _ => trivial⟩

theorem gauge (m : Meter) (n : Nat) : Keeps f (Run.gauge m n) fun _ => True := fun _ =>
  ⟨rfl, fun _ _ => trivial⟩

theorem call (c : Call) : Keeps f (Run.call c) fun _ => True := by
  intro p
  rw [run_call]
  exact ⟨rfl, fun _ _ => trivial⟩

theorem tryCatch {h : Failure → Run α} (hx : Keeps f x P) (hh : ∀ e, Keeps f (h e) P) :
    Keeps f (MonadExcept.tryCatch x h) P := by
  intro p
  obtain ⟨hs, hP⟩ := hx p
  rw [run_tryCatch]
  rcases hxp : x.run p with ⟨e | a, q⟩
  · rw [hxp] at hs
    obtain ⟨hs', hP'⟩ := hh e q
    exact ⟨hs'.trans hs, hP'⟩
  · rw [hxp] at hs hP
    exact ⟨hs, hP⟩

theorem fetchDefinitions (offset count : Nat) :
    Keeps f (Run.fetchDefinitions offset count) fun _ => True := by
  refine (call _).bind fun _ _ p => ⟨?_, fun _ _ => trivial⟩
  rw [run_get_bind]
  rcases p.definitions with _ | ⟨_ | ⟨_ | page, rest⟩⟩ <;> rfl

end Keeps
end Run
end CatalogRules
