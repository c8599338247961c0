import CatalogRules.Proofs.Looking
import Mathlib.Data.List.Forall2
import Mathlib.Tactic.Choose

/-! # Inquiries

An inquiry is the tree of a computation that asks the store for aspects, counts, and goes on with
what it was answered. Its leaves are results and failures of its own; a question may also fail
because the store is out. Reading the tree from the root is the computation (`Inquiry.run`).

`Run.Inquires x P` says that the computation `x` is an inquiry, whose results have the property `P`
whatever the answers are, be they from one store or from a store that changes in between. What holds
of all inquiries is shown once, by induction on the tree: they only add fetches to the log
(`Inquiry.log_run`), fail if one of these does (`Inquiry.failed_of_out`), and do the same on
platforms that do not differ for them (`Inquiry.same_run`). -/

namespace CatalogRules

/-- What a computation asks the store, one question after the other. -/
inductive Inquiry (α : Type) where
  | done (o : Except Failure α)
  | count (m : Meter) (rest : Inquiry α)
  | ask (entityType : String) (us : List Urn) (names : List String)
      (rest : List (Urn × Aspects) → Inquiry α)

namespace Inquiry

variable {α β : Type}

/-- The computation that the tree describes. -/
def run : Inquiry α → Run α
  | .done o => fun p => (o, p)
  | .count m rest => Run.count m >>= fun _ => rest.run
  | .ask t us names rest => Run.fetchAspects t us names >>= fun found => (rest found).run

/-- Goes on with another inquiry at each result. -/
def bind : Inquiry α → (α → Inquiry β) → Inquiry β
  | .done (.ok a), f => f a
  | .done (.error e), _ => .done (.error e)
  | .count m rest, f => .count m (rest.bind f)
  | .ask t us names rest, f => .ask t us names fun found => (rest found).bind f

/-- Each result has the property. -/
def Gives (P : α → Prop) : Inquiry α → Prop
  | .done o => ∀ a, o = .ok a → P a
  | .count _ rest => rest.Gives P
  | .ask _ _ _ rest => ∀ found, (rest found).Gives P

theorem run_bind (t : Inquiry α) (f : α → Inquiry β) :
    (t.bind f).run = t.run >>= fun a => (f a).run := by
  induction t with
  | done o => cases o <;> rfl
  | count m rest ih => simp only [bind, run, ih, bind_assoc]
  | ask t us names rest ih => simp only [bind, run, ih, bind_assoc]

theorem Gives.mono {P Q : α → Prop} {t : Inquiry α} (h : t.Gives P) (hP : ∀ a, P a → Q a) :
    t.Gives Q := by
  induction t with
  | done o => exact fun a ha => hP a (h a ha)
  | count m rest ih => exact ih h
  | ask t us names rest ih => exact fun found => ih found (h found)

theorem Gives.bind {P : α → Prop} {Q : β → Prop} {t : Inquiry α} {f : α → Inquiry β}
    (h : t.Gives P) (hf : ∀ a, P a → (f a).Gives Q) : (t.bind f).Gives Q := by
  induction t with
  | done o =>
    cases o with
    | ok a => exact hf a (h a rfl)
    | error e => exact fun a ha => nomatch ha
  | count m rest ih => exact ih h
  | ask t us names rest ih => exact fun found => ih found (h found)

/-! ### What an inquiry leaves behind -/

/-- The platform after a question was asked. -/
def asked (p : Platform) (t : String) (us : List Urn) (names : List String) : Platform :=
  { p with calls := p.calls ++ [.fetchAspects t us names], fetches := p.fetches + 1 }

theorem run_fetchAspects (t : String) (us : List Urn) (names : List String) (p : Platform) :
    (Run.fetchAspects t us names).run p = match p.outage? (.fetchAspects t us names) with
      | some message =>
        (.error (.entityStore message), { p with calls := p.calls ++ [.fetchAspects t us names] })
      | none => (.ok (p.store.fetch us names), asked p t us names) := by
  unfold Run.fetchAspects
  rw [Run.run_bind, Run.run_call]
  cases p.outage? (.fetchAspects t us names) <;> rfl

theorem run_ask (t : String) (us : List Urn) (names : List String)
    (rest : List (Urn × Aspects) → Inquiry α) (p : Platform) :
    (ask t us names rest).run.run p = match p.outage? (.fetchAspects t us names) with
      | some message =>
        (.error (.entityStore message), { p with calls := p.calls ++ [.fetchAspects t us names] })
      | none => (rest (p.store.fetch us names)).run.run (asked p t us names) := by
  rw [run, Run.run_bind, run_fetchAspects]
  cases p.outage? (.fetchAspects t us names) <;> rfl

theorem alike_run (t : Inquiry α) (p : Platform) : p.Alike (t.run.run p).2 := by
  induction t generalizing p with
  | done o => exact .refl p
  | count m rest ih =>
    have h := ih { p with metrics := p.metrics.increment m }
    exact ⟨h.store, h.handlers, h.now, h.definitions, h.searches, h.outages⟩
  | ask t us names rest ih =>
    rw [run_ask]
    cases p.outage? (.fetchAspects t us names) with
    | some message => exact ⟨rfl, rfl, rfl, rfl, rfl, rfl⟩
    | none =>
      have h := ih (p.store.fetch us names) (asked p t us names)
      exact ⟨h.store, h.handlers, h.now, h.definitions, h.searches, h.outages⟩

theorem gives_run {P : α → Prop} {t : Inquiry α} (h : t.Gives P) {p : Platform} {a : α}
    (ha : (t.run.run p).1 = .ok a) : P a := by
  induction t generalizing p with
  | done o => exact h a ha
  | count m rest ih => exact ih h ha
  | ask t us names rest ih =>
    rw [run_ask] at ha
    cases ho : p.outage? (.fetchAspects t us names) with
    | some message =>
      rw [ho] at ha
      cases ha
    | none =>
      rw [ho] at ha
      exact ih _ (h _) ha

end Inquiry

/-! ### The log -/

/-- Some of the calls is out if they are logged from some place on. -/
def Outages.Hit (os : Outages) (n : Nat) : List Call → Prop
  | [] => False
  | c :: log => (os.message? n c).isSome ∨ os.Hit (n + 1) log

namespace Platform

/-- Some of the calls is out if they come next. -/
def Out (p : Platform) (log : List Call) : Prop := p.outages.Hit p.calls.length log

/-- **The platforms differ at most in their metrics, in the handlers and in the outages of
actions.** -/
structure UpToActions (p q : Platform) : Prop where
  store : q.store = p.store
  now : q.now = p.now
  calls : q.calls = p.calls
  messages : ∀ n c, c.sort ≠ .applyAction → q.outages.message? n c = p.outages.message? n c

theorem UpToActions.outage? {p q : Platform} (h : p.UpToActions q) {c : Call}
    (hc : c.sort ≠ .applyAction) : q.outage? c = p.outage? c := by
  rw [Platform.outage?, Platform.outage?, h.calls, h.messages _ _ hc]

end Platform

namespace Inquiry

variable {α : Type}

/-- **An inquiry adds fetches to the log, and fails if one of them fails.** -/
theorem log_run (t : Inquiry α) (p : Platform) : ∃ log, (t.run.run p).2.calls = p.calls ++ log ∧
    (∀ c ∈ log, c.sort = .fetchAspects) ∧ (p.Out log → ∃ e, (t.run.run p).1 = .error e) := by
  induction t generalizing p with
  | done o => exact ⟨[], (List.append_nil _).symm, by simp, False.elim⟩
  | count m rest ih =>
    obtain ⟨log, hlog, hsort, hout⟩ := ih { p with metrics := p.metrics.increment m }
    exact ⟨log, hlog, hsort, hout⟩
  | ask t us names rest ih =>
    rw [run_ask]
    cases ho : p.outage? (.fetchAspects t us names) with
    | some message =>
      exact ⟨[.fetchAspects t us names], rfl, by simp [Call.sort], fun _ => ⟨_, rfl⟩⟩
    | none =>
      obtain ⟨log, hlog, hsort, hout⟩ := ih (p.store.fetch us names) (asked p t us names)
      refine ⟨.fetchAspects t us names :: log, ?_, ?_, ?_⟩
      · rw [hlog, asked, List.append_assoc, List.singleton_append]
      · simpa [Call.sort] using hsort
      · rintro (h | h)
        · rw [← Platform.outage?, ho] at h
          cases h
        · refine hout ?_
          unfold Platform.Out asked
          rw [List.length_append]
          exact h

/-- **An inquiry does not notice which actions fail.** -/
theorem same_run (t : Inquiry α) {p q : Platform} (h : p.UpToActions q) :
    (t.run.run q).1 = (t.run.run p).1 ∧ (t.run.run p).2.UpToActions (t.run.run q).2 := by
  induction t generalizing p q with
  | done o => exact ⟨rfl, h⟩
  | count m rest ih => exact ih ⟨h.store, h.now, h.calls, h.messages⟩
  | ask t us names rest ih =>
    have ho : q.outage? (.fetchAspects t us names) = p.outage? (.fetchAspects t us names) :=
      h.outage? (by simp [Call.sort])
    have hcalls : q.calls ++ [.fetchAspects t us names] = p.calls ++ [.fetchAspects t us names] := by
      rw [h.calls]
    rw [run_ask, run_ask, ho, h.store]
    cases p.outage? (.fetchAspects t us names) with
    | some message => exact ⟨rfl, ⟨rfl, h.now, hcalls, h.messages⟩⟩
    | none => exact ih _ ⟨h.store, h.now, hcalls, h.messages⟩

end Inquiry

/-! ### Computations that are inquiries -/

namespace Run

variable {α β ι : Type}

/-- The computation is an inquiry whose results have the property. -/
def Inquires (x : Run α) (P : α → Prop) : Prop := ∃ t : Inquiry α, t.run = x ∧ t.Gives P

namespace Inquires

variable {x : Run α} {P : α → Prop} {Q : β → Prop}

theorem pure {a : α} (h : P a) : Inquires (Pure.pure a) P :=
  ⟨.done (.ok a), rfl, fun b hb => by cases hb; exact h⟩

theorem throw (e : Failure) : Inquires (MonadExcept.throw e) P :=
  ⟨.done (.error e), rfl, fun b hb => by cases hb⟩

theorem mono {Q : α → Prop} (h : Inquires x P) (hP : ∀ a, P a → Q a) : Inquires x Q := by
  obtain ⟨t, rfl, hgives⟩ := h
  exact ⟨t, rfl, hgives.mono hP⟩

theorem bind {f : α → Run β} (hx : Inquires x P) (hf : ∀ a, P a → Inquires (f a) Q) :
    Inquires (x >>= f) Q := by
  classical
  obtain ⟨t, rfl, hgives⟩ := hx
  -- where the property does not hold, any tree will do; the results do not lead there
  have htrees : ∀ a, ∃ u : Inquiry β, P a → u.run = f a ∧ u.Gives Q := by
    intro a
    by_cases ha : P a
    · obtain ⟨u, hu⟩ := hf a ha
      exact ⟨u, fun _ => hu⟩
    · exact ⟨.done (.error .json), fun h => absurd h ha⟩
  choose u hu using htrees
  refine ⟨t.bind u, ?_, hgives.bind fun a ha => (hu a ha).2⟩
  rw [Inquiry.run_bind]
  clear hf
  induction t with
  | done o =>
    cases o with
    | ok a => exact (hu a (hgives a rfl)).1
    | error e => rfl
  | count m rest ih =>
    simp only [Inquiry.run, bind_assoc]
    rw [ih hgives]
  | ask t us names rest ih =>
    simp only [Inquiry.run, bind_assoc]
    exact congrArg _ (funext fun found => ih found (hgives found))

theorem count (m : Meter) : Inquires (Run.count m) fun _ => True :=
  ⟨.count m (.done (.ok ())), rfl, fun _ _ => trivial⟩

theorem fetchAspects (t : String) (us : List Urn) (names : List String) :
    Inquires (Run.fetchAspects t us names) fun _ => True :=
  ⟨.ask t us names fun found => .done (.ok found), bind_pure _, fun _ _ _ => trivial⟩

/-- A loop keeps an invariant that speaks of the part of the list that was gone through. -/
theorem foldlM {f : β → ι → Run β} {I : List ι → β → Prop} {l : List ι} {b : β} (h0 : I [] b)
    (hf : ∀ done i b, i ∈ l → I done b → Inquires (f b i) (I (done ++ [i]))) :
    Inquires (l.foldlM f b) (I l) := by
  have h : ∀ (rest done : List ι) (b : β), l = done ++ rest → I done b →
      Inquires (rest.foldlM f b) (I l) := by
    intro rest
    induction rest with
    | nil =>
      intro done b hl hb
      rw [hl, List.append_nil]
      exact pure hb
    | cons i rest ih =>
      intro done b hl hb
      rw [List.foldlM_cons]
      exact (hf done i b (by simp [hl]) hb).bind fun b' hb' => ih (done ++ [i]) b' (by simp [hl]) hb'
  exact h l [] b rfl h0

theorem forM {f : ι → Run Unit} (l : List ι) (hf : ∀ i, Inquires (f i) fun _ => True) :
    Inquires (l.forM f) fun _ => True := by
  induction l with
  | nil => exact pure trivial
  | cons i l ih =>
    show Inquires (f i >>= fun _ => l.forM f) _
    exact (hf i).bind fun _ _ => ih

theorem mapM {f : ι → Run β} {R : ι → β → Prop} (l : List ι)
    (hf : ∀ i ∈ l, Inquires (f i) (R i)) : Inquires (l.mapM f) (List.Forall₂ R l) := by
  induction l with
  | nil => exact pure .nil
  | cons i l ih =>
    rw [List.mapM_cons]
    refine (hf i List.mem_cons_self).bind fun b hb => ?_
    refine (ih fun j hj => hf j (List.mem_cons_of_mem _ hj)).bind fun bs hbs => ?_
    exact pure (.cons hb hbs)

theorem filterM {f : ι → Run Bool} (l : List ι) (hf : ∀ i, Inquires (f i) fun _ => True) :
    Inquires (l.filterM f) (·.Sublist l) := by
  -- the loop collects the elements in reverse order
  have h : ∀ (l acc : List ι), Inquires (l.filterAuxM f acc) fun is =>
      ∃ kept : List ι, kept.Sublist l ∧ is = kept.reverse ++ acc := by
    intro l
    induction l with
    | nil => exact fun acc => pure ⟨[], .slnil, rfl⟩
    | cons i l ih =>
      intro acc
      refine (hf i).bind fun b _ => (ih _).mono ?_
      rintro is ⟨kept, hkept, his⟩
      cases b with
      | false => exact ⟨kept, hkept.cons i, his⟩
      | true => exact ⟨i :: kept, hkept.cons_cons i, by simp [his]⟩
  refine (h l []).bind ?_
  rintro is ⟨kept, hkept, rfl⟩
  exact pure (by simpa using hkept)

end Inquires
end Run
end CatalogRules
