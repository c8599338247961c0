import CatalogRules.Proofs.Looking
import Mathlib.Algebra.Ring.Nat

/-! # What computations log

`Run.Logs s x Q` says of a computation over the store `s` that the calls which it adds to the log
have the property `Q`, whether it fails or not. The rules build such a statement up part by part
(`Logs.bind`, `Logs.foldlM`); that the first part leaves the store as it was is known from
`Run.Looks`.

`Few n` allows for at most `n` calls, all of which fetch aspects. -/

namespace CatalogRules
namespace Run

variable {α β ι : Type}

/-- The calls that the computation adds to the log have the property. -/
def Logs (s : Store) (x : Run α) (Q : List Call → Prop) : Prop :=
  ∀ p : Platform, p.store = s → ∃ log, (x.run p).2.calls = p.calls ++ log ∧ Q log

namespace Logs

variable {s : Store} {x : Run α} {P : α → Prop} {Q Q₁ Q₂ : List Call → Prop}

theorem mono (h : Logs s x Q₁) (hQ : ∀ l, Q₁ l → Q l) : Logs s x Q := by
  intro p hs
  obtain ⟨log, hlog, hl⟩ := h p hs
  exact ⟨log, hlog, hQ log hl⟩

theorem pure {a : α} (h : Q []) : Logs s (Pure.pure a) Q := fun _ _ =>
  ⟨[], (List.append_nil _).symm, h⟩

theorem fetchAspects {t : String} {us : List Urn} {names : List String}
    (h : Q [.fetchAspects t us names]) : Logs s (Run.fetchAspects t us names) Q := by
  intro p _
  refine ⟨_, ?_, h⟩
  unfold Run.fetchAspects
  rw [run_bind, run_call]
  cases p.outage? (.fetchAspects t us names) <;> rfl

theorem bind_count {m : Meter} {f : Unit → Run β} (hf : Logs s (f ()) Q) :
    Logs s (Run.count m >>= f) Q := fun p hs =>
  hf { p with metrics := p.metrics.increment m } hs

/-- The second part may only be left out if the first one fails. -/
theorem bind {f : α → Run β} (hl : Looks s x P) (hx : Logs s x Q₁)
    (hf : ∀ a, P a → Logs s (f a) Q₂) (hfail : ∀ l, Q₁ l → Q l)
    (hQ : ∀ l l', Q₁ l → Q₂ l' → Q (l ++ l')) : Logs s (x >>= f) Q := by
  intro p hs
  obtain ⟨log, hlog, hq⟩ := hx p hs
  rw [run_bind]
  rcases hxp : x.run p with ⟨e | a, q⟩
  · rw [hxp] at hlog
    exact ⟨log, hlog, hfail log hq⟩
  · rw [hxp] at hlog
    obtain ⟨halike, hP⟩ := hl.gave hs hxp
    obtain ⟨log', hlog', hq'⟩ := hf a hP q (halike.store.trans hs)
    refine ⟨log ++ log', ?_, hQ log log' hq hq'⟩
    show ((f a).run q).2.calls = _
    rw [hlog', hlog, List.append_assoc]

/-- Nothing is logged after the first part. -/
theorem bind_silent {f : α → Run β} (hx : Logs s x Q)
    (hf : ∀ a p, ((f a).run p).2.calls = p.calls) : Logs s (x >>= f) Q := by
  intro p hs
  obtain ⟨log, hlog, hq⟩ := hx p hs
  refine ⟨log, ?_, hq⟩
  rw [run_bind]
  rcases hxp : x.run p with ⟨e | a, q⟩
  · rw [hxp] at hlog
    exact hlog
  · rw [hxp] at hlog
    exact (hf a q).trans hlog

/-- A loop logs what is logged for its elements, one after the other. -/
theorem foldlM {f : β → ι → Run β} {l : List ι} {b : β} {I : List ι → List Call → Prop}
    (h0 : I [] []) (hl : ∀ i ∈ l, ∀ b, Looks s (f b i) fun _ => True) {Q : ι → List Call → Prop}
    (hf : ∀ i ∈ l, ∀ b, Logs s (f b i) (Q i))
    (hfail : ∀ done rest log, I done log → I (done ++ rest) log)
    (hstep : ∀ done i log log', i ∈ l → I done log → Q i log' → I (done ++ [i]) (log ++ log')) :
    Logs s (l.foldlM f b) (I l) := by
  -- whatever was logged before, it is continued to a log of the whole loop
  have h : ∀ (rest done : List ι) (b : β), l = done ++ rest →
      Logs s (rest.foldlM f b) fun log' => ∀ log, I done log → I l (log ++ log') := by
    intro rest
    induction rest with
    | nil =>
      intro done b hlist
      rw [List.append_nil] at hlist
      exact pure fun log hlog => by rw [List.append_nil, hlist]; exact hlog
    | cons i rest ih =>
      intro done b hlist
      have hi : i ∈ l := by rw [hlist]; simp
      have hlist' : l = (done ++ [i]) ++ rest := by rw [hlist, List.append_assoc]; rfl
      rw [List.foldlM_cons]
      refine bind (hl i hi b) (hf i hi b) (fun b' _ => ih (done ++ [i]) b' hlist') ?_ ?_
      · intro log₁ hq log hlog
        rw [hlist']
        exact hfail _ rest _ (hstep done i log log₁ hi hlog hq)
      · intro log₁ log₂ hq hrest log hlog
        rw [← List.append_assoc]
        exact hrest _ (hstep done i log log₁ hi hlog hq)
  exact (h l [] b rfl).mono fun log' hlog' => hlog' [] h0

end Logs

/-! ### Counting -/

/-- At most so many calls, all of which fetch aspects. -/
def Few (n : Nat) (log : List Call) : Prop :=
  log.length ≤ n ∧ ∀ c ∈ log, c.sort = .fetchAspects

namespace Few

variable {n m : Nat} {log log' : List Call}

theorem nil (n : Nat) : Few n [] := ⟨Nat.zero_le _, by simp⟩

theorem fetch (t : String) (us : List Urn) (names : List String) :
    Few 1 [.fetchAspects t us names] := ⟨Nat.le_refl _, by simp [Call.sort]⟩

theorem mono (h : Few n log) (hn : n ≤ m) : Few m log := ⟨Nat.le_trans h.1 hn, h.2⟩

theorem append (h : Few n log) (k : Few m log') : Few (n + m) (log ++ log') := by
  refine ⟨?_, fun c hc => ?_⟩
  · rw [List.length_append]
    exact Nat.add_le_add h.1 k.1
  · rcases List.mem_append.mp hc with hc | hc
    · exact h.2 c hc
    · exact k.2 c hc

end Few

namespace Logs

variable {s : Store} {x : Run α} {P : α → Prop} {n m : Nat}

theorem bind_few {f : α → Run β} (hl : Looks s x P) (hx : Logs s x (Few n))
    (hf : ∀ a, P a → Logs s (f a) (Few m)) : Logs s (x >>= f) (Few (n + m)) :=
  bind hl hx hf (fun _ h => h.mono (Nat.le_add_right n m)) fun _ _ => Few.append

/-- A loop logs no more than its elements together. -/
theorem foldlM_few {f : β → ι → Run β} {l : List ι} {b : β} (cost : ι → Nat)
    (hl : ∀ i ∈ l, ∀ b, Looks s (f b i) fun _ => True)
    (hf : ∀ i ∈ l, ∀ b, Logs s (f b i) (Few (cost i))) :
    Logs s (l.foldlM f b) (Few (l.map cost).sum) := by
  refine foldlM (I := fun done => Few (done.map cost).sum) (Few.nil _) hl
    (Q := fun i => Few (cost i)) hf (fun done rest log h => ?_) fun done i log log' _ h k => ?_
  · rw [List.map_append, List.sum_append]
    exact h.mono (Nat.le_add_right _ _)
  · rw [List.map_append, List.sum_append]
    exact h.append (by simpa using k)

end Logs
end Run
end CatalogRules
