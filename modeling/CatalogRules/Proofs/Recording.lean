import CatalogRules.Proofs.Inquiry
import Mathlib.Algebra.Ring.Nat

/-! # The record of fetches

Among the metrics there is a counter of fetches for each entity type and evaluator. The platforms
before and after a computation are compared by `Platform.Accounts`: the counters have gone up by the
number of fetches in the log, apart from some of the calls, which are named. `Run.Counts` says
that there are no such calls.

A counter and its fetch are two steps of a computation, so that neither of them is accounted for by
itself; the rule for the two together is `Run.Counts.fetch`. The other rules are those for the
parts that computations are made of. -/

namespace CatalogRules

/-- The meter counts fetches from one of the entity types. -/
def Meter.countsFetches (P : String → Bool) : Meter → Bool
  | .aspectFetches entityType _ => P entityType
  | _ => false

/-- The call fetches aspects from one of the entity types. -/
def Call.fetches (P : String → Bool) : Call → Bool
  | .fetchAspects entityType _ _ => P entityType
  | _ => false

/-- The number of the calls that fetch aspects from some entity types. -/
def fetchCount (P : String → Bool) (log : List Call) : Nat := log.countP (Call.fetches P)

@[simp] theorem fetchCount_nil (P : String → Bool) : fetchCount P [] = 0 := rfl

@[simp] theorem fetchCount_append (P : String → Bool) (log log' : List Call) :
    fetchCount P (log ++ log') = fetchCount P log + fetchCount P log' := List.countP_append

theorem fetchCount_singleton (P : String → Bool) (c : Call) :
    fetchCount P [c] = if c.fetches P then 1 else 0 := List.countP_singleton

/-! ### The counters -/

namespace Metrics

/-- What the counters of fetches from some entity types add up to, over all labels. -/
def fetches (P : String → Bool) (ms : Metrics) : Nat :=
  ((ms.filter (·.1.countsFetches P)).map (·.2)).sum

variable {P : String → Bool} {m : Meter}

theorem fetches_cons (n : Nat) (ms : Metrics) :
    fetches P ((m, n) :: ms) = (if m.countsFetches P then n else 0) + fetches P ms := by
  unfold fetches
  rw [List.filter_cons]
  split_ifs <;> simp

theorem reading_cons (j : Meter) (n : Nat) (ms : Metrics) :
    reading ((j, n) :: ms) m = if j = m then n else reading ms m := by
  unfold reading
  rw [List.lookup_cons]
  by_cases h : j = m
  · simp [h]
  · rw [if_neg h, beq_eq_false_iff_ne.mpr (Ne.symm h)]

/-- A new reading takes the place of the old one. -/
theorem fetches_put (n : Nat) (ms : Metrics) :
    fetches P (Keyed.put m n ms) + (if m.countsFetches P then ms.reading m else 0) =
      fetches P ms + (if m.countsFetches P then n else 0) := by
  induction ms with
  | nil => simp [Keyed.put, fetches_cons, reading, Nat.add_comm]
  | cons r ms ih =>
    obtain ⟨j, k⟩ := r
    rw [Keyed.put, reading_cons]
    split_ifs with hj hm hm
    · subst hj
      rw [fetches_cons, fetches_cons, if_pos hm, if_pos hm]
      omega
    · subst hj
      rw [fetches_cons, fetches_cons, if_neg hm, if_neg hm]
    · rw [if_pos hm, if_pos hm] at ih
      rw [fetches_cons, fetches_cons]
      omega
    · rw [if_neg hm, if_neg hm] at ih
      rw [fetches_cons, fetches_cons]
      omega

theorem fetches_increment (ms : Metrics) :
    (ms.increment m).fetches P = ms.fetches P + if m.countsFetches P then 1 else 0 := by
  have h := fetches_put (P := P) (m := m) (ms.reading m + 1) ms
  unfold increment
  split_ifs at h ⊢ <;> omega

theorem fetches_set (hm : m.countsFetches P = false) (n : Nat) (ms : Metrics) :
    (ms.set m n).fetches P = ms.fetches P := by
  have h := fetches_put (P := P) (m := m) n ms
  rwa [hm, if_neg Bool.false_ne_true, if_neg Bool.false_ne_true] at h

end Metrics

/-! ### Before and after -/

namespace Platform

/-- **The counters went up by the number of new fetches, some of the calls apart.** -/
def Accounts (p : Platform) (apart : List Call) (q : Platform) : Prop :=
  ∃ log, q.calls = p.calls ++ log ∧ apart.Sublist log ∧
    ∀ P, fetchCount P log + p.metrics.fetches P = q.metrics.fetches P + fetchCount P apart

variable {p q o : Platform} {xs ys : List Call}

theorem Accounts.of_eq (hc : q.calls = p.calls) (hm : q.metrics = p.metrics) : p.Accounts [] q :=
  ⟨[], by rw [hc, List.append_nil], .slnil, fun P => by rw [hm, Nat.add_comm]⟩

theorem Accounts.refl (p : Platform) : p.Accounts [] p := .of_eq rfl rfl

theorem Accounts.trans (h : p.Accounts xs q) (k : q.Accounts ys o) : p.Accounts (xs ++ ys) o := by
  obtain ⟨log, hcalls, hsub, hcount⟩ := h
  obtain ⟨log', hcalls', hsub', hcount'⟩ := k
  refine ⟨log ++ log', by rw [hcalls', hcalls, List.append_assoc], hsub.append hsub', fun P => ?_⟩
  have h := hcount P
  have h' := hcount' P
  rw [fetchCount_append, fetchCount_append]
  omega

/-- New calls that leave the counters alone are apart. -/
theorem Accounts.of_calls (hc : q.calls = p.calls ++ xs) (hm : q.metrics = p.metrics) :
    p.Accounts xs q :=
  ⟨xs, hc, .refl xs, fun P => by rw [hm, Nat.add_comm]⟩

theorem Accounts.of_metrics (hc : q.calls = p.calls)
    (hm : ∀ P, q.metrics.fetches P = p.metrics.fetches P) : p.Accounts [] q :=
  ⟨[], by rw [hc, List.append_nil], .slnil, fun P => by rw [hm, Nat.add_comm]⟩

end Platform

/-! ### Computations -/

variable {α β ι : Type}

/-- Whatever the computation fetches is counted. -/
def Balances (x : StateM Platform α) : Prop := ∀ p : Platform, p.Accounts [] (x.run p).2

namespace Balances

theorem pure (a : α) : Balances (Pure.pure a : StateM Platform α) := fun p => .refl p

theorem bind {x : StateM Platform α} {f : α → StateM Platform β} (hx : Balances x)
    (hf : ∀ a, Balances (f a)) : Balances (x >>= f) := fun p =>
  (hx p).trans (hf (x.run p).1 (x.run p).2)

theorem foldlM {f : β → ι → StateM Platform β} (hf : ∀ b i, Balances (f b i)) (l : List ι)
    (b : β) : Balances (l.foldlM f b) := by
  induction l generalizing b with
  | nil => exact pure b
  | cons i l ih =>
    rw [List.foldlM_cons]
    exact (hf b i).bind ih

end Balances

namespace Run

/-- Whatever the computation fetches is counted, whether it fails or not. -/
def Counts (x : Run α) : Prop := Balances x.run

namespace Counts

theorem pure (a : α) : Counts (Pure.pure a : Run α) := fun p => .refl p

theorem throw (e : Failure) : Counts (MonadExcept.throw e : Run α) := fun p => .refl p

theorem bind {x : Run α} {f : α → Run β} (hx : Counts x) (hf : ∀ a, Counts (f a)) :
    Counts (x >>= f) := by
  intro p
  have h := hx p
  show p.Accounts [] ((x >>= f).run p).2
  rw [run_bind]
  rcases hxp : x.run p with ⟨e | a, q⟩
  · rwa [StateT.run, hxp] at h
  · rw [StateT.run, hxp] at h
    exact h.trans (hf a q)

theorem tryCatch {x : Run α} {h : Failure → Run α} (hx : Counts x)
    (hh : ∀ e, Counts (h e)) : Counts (MonadExcept.tryCatch x h) := by
  intro p
  have hp := hx p
  show p.Accounts [] ((MonadExcept.tryCatch x h).run p).2
  rw [run_tryCatch]
  rcases hxp : x.run p with ⟨e | a, q⟩
  · rw [StateT.run, hxp] at hp
    exact hp.trans (hh e q)
  · rwa [StateT.run, hxp] at hp

theorem foldlM {f : β → ι → Run β} (hf : ∀ b i, Counts (f b i)) (l : List ι) (b : β) :
    Counts (l.foldlM f b) := by
  induction l generalizing b with
  | nil => exact pure b
  | cons i l ih =>
    rw [List.foldlM_cons]
    exact (hf b i).bind ih

theorem forM {f : ι → Run Unit} (hf : ∀ i, Counts (f i)) (l : List ι) :
    Counts (l.forM f) := by
  induction l with
  | nil => exact pure ()
  | cons i l ih =>
    show Counts (f i >>= fun _ => l.forM f)
    exact (hf i).bind fun _ => ih

theorem mapM {f : ι → Run β} (hf : ∀ i, Counts (f i)) (l : List ι) :
    Counts (l.mapM f) := by
  induction l with
  | nil => exact pure []
  | cons i l ih =>
    rw [List.mapM_cons]
    exact (hf i).bind fun _ => ih.bind fun _ => pure _

theorem filterM {f : ι → Run Bool} (hf : ∀ i, Counts (f i)) (l : List ι) :
    Counts (l.filterM f) := by
  have h : ∀ l acc : List ι, Counts (l.filterAuxM f acc) := by
    intro l
    induction l with
    | nil => exact fun acc => pure acc
    | cons i l ih => exact fun acc => (hf i).bind fun _ => ih _
  exact (h l []).bind fun _ => pure _

/-! ### Steps -/

theorem count {m : Meter} (hm : ∀ P, m.countsFetches P = false) : Counts (Run.count m) :=
  fun p => .of_metrics rfl fun P => by
    show (p.metrics.increment m).fetches P = _
    rw [Metrics.fetches_increment, hm P]
    rfl

theorem gauge {m : Meter} (hm : ∀ P, m.countsFetches P = false) (n : Nat) :
    Counts (Run.gauge m n) :=
  fun _ => .of_metrics rfl fun P => Metrics.fetches_set (hm P) n _

theorem call {c : Call} (hc : ∀ P, c.fetches P = false) : Counts (Run.call c) := by
  intro p
  show p.Accounts [] ((Run.call c).run p).2
  rw [run_call]
  refine ⟨[c], rfl, List.nil_sublist _, fun P => ?_⟩
  rw [fetchCount_singleton, hc P, fetchCount_nil, Nat.add_comm]
  rfl

/-- **A fetch that is counted beforehand**, whether it succeeds or not. -/
theorem fetch (t evaluator : String) (us : List Urn) (names : List String)
    {f : List (Urn × Aspects) → Run β} (hf : ∀ found, Counts (f found)) :
    Counts (Run.count (.aspectFetches t evaluator) >>= fun _ =>
      Run.fetchAspects t us names >>= f) := by
  intro p
  have hone : ∀ q : Platform, q.calls = p.calls ++ [.fetchAspects t us names] →
      q.metrics = p.metrics.increment (.aspectFetches t evaluator) → p.Accounts [] q := by
    intro q hc hm
    refine ⟨_, hc, List.nil_sublist _, fun P => ?_⟩
    rw [hm, Metrics.fetches_increment, fetchCount_singleton, fetchCount_nil]
    exact Nat.add_comm _ _
  show p.Accounts [] ((Run.fetchAspects t us names >>= f).run
    { p with metrics := p.metrics.increment (.aspectFetches t evaluator) }).2
  rw [run_bind, Inquiry.run_fetchAspects]
  split
  case h_1 heq =>
    split at heq <;> cases heq
    exact (hone _ rfl rfl).trans (hf _ _)
  case h_2 heq =>
    split at heq <;> cases heq
    exact hone _ rfl rfl

end Counts
end Run
end CatalogRules
