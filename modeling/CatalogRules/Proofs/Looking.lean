import CatalogRules.Platform.Basic
import Mathlib.Tactic.SplitIfs
import Mathlib.Tactic.Use

/-! # Computations that only look

Resolving and evaluating look into the store and leave everything as it was, but for the history of
the platform: the calls, the number of fetches and the metrics (`Platform.Alike`). `Run.Looks s x P`
says this of a computation `x` over the store `s`, and that whatever `x` gives has the property `P`;
it may fail only if there is an outage. The rules for the parts that computations are made of
(`Looks.pure`, `Looks.bind`, `Looks.foldlM`, …) build such a statement up, and `Looks.gives` and
`Looks.gave` take it apart: without outages there is a result, and any result has the property. -/

namespace CatalogRules

/-- The platforms differ in their histories only. -/
structure Platform.Alike (p q : Platform) : Prop where
  store : q.store = p.store
  handlers : q.handlers = p.handlers
  now : q.now = p.now
  definitions : q.definitions = p.definitions
  searches : q.searches = p.searches
  outages : q.outages = p.outages

theorem Platform.Alike.refl (p : Platform) : p.Alike p := ⟨rfl, rfl, rfl, rfl, rfl, rfl⟩

theorem Platform.Alike.trans {p q o : Platform} (h : p.Alike q) (k : q.Alike o) : p.Alike o where
  store := k.store.trans h.store
  handlers := k.handlers.trans h.handlers
  now := k.now.trans h.now
  definitions := k.definitions.trans h.definitions
  searches := k.searches.trans h.searches
  outages := k.outages.trans h.outages

namespace Run

variable {α β ι : Type}

/-! ### Running the parts of a computation -/

theorem run_pure (a : α) (p : Platform) : (pure a : Run α).run p = (.ok a, p) := rfl

theorem run_bind (x : Run α) (f : α → Run β) (p : Platform) :
    (x >>= f).run p = match x.run p with
      | (.ok a, q) => (f a).run q
      | (.error e, q) => (.error e, q) := by
  show (do let r ← x.run; ExceptT.bindCont f r : StateM Platform _) p = _
  simp only [bind, StateT.bind]
  rcases x.run p with ⟨_ | _, q⟩ <;> rfl

theorem run_get_bind (f : Platform → Run β) (p : Platform) :
    ((get : Run Platform) >>= f).run p = (f p).run p := rfl

/-- A result of two computations in a row is a result of the second after one of the first. -/
theorem run_bind_ok {x : Run α} {f : α → Run β} {p q : Platform} {b : β}
    (h : (x >>= f).run p = (.ok b, q)) :
    ∃ a o, x.run p = (.ok a, o) ∧ (f a).run o = (.ok b, q) := by
  rw [run_bind] at h
  rcases hx : x.run p with ⟨e | a, o⟩
  · rw [hx] at h
    cases h
  · rw [hx] at h
    exact ⟨a, o, rfl, h⟩

theorem run_tryCatch (x : Run α) (h : Failure → Run α) (p : Platform) :
    (tryCatch x h : Run α).run p = match x.run p with
      | (.ok a, q) => (.ok a, q)
      | (.error e, q) => (h e).run q := by
  simp only [tryCatch, tryCatchThe, MonadExceptOf.tryCatch, ExceptT.tryCatch, ExceptT.run_mk, bind,
    StateT.bind]
  rw [show x p = x.run p from rfl]
  rcases x.run p with ⟨_ | _, q⟩ <;> rfl

theorem run_call (c : Call) (p : Platform) :
    (call c).run p = (match p.outage? c with
      | some message => .error (c.failure message)
      | none => .ok (), { p with calls := p.calls ++ [c] }) := by
  show (match p.outage? c with
    | some message => (throw (c.failure message) : Run Unit)
    | none => pure ()).run { p with calls := p.calls ++ [c] } = _
  cases p.outage? c <;> rfl

theorem outages_ne_nil {p : Platform} {c : Call} {message : String}
    (h : p.outage? c = some message) : p.outages ≠ [] := by
  intro he
  simp [Platform.outage?, Outages.message?, he] at h

/-! ### Looking -/

/-- On the store `s` the computation gives a value with the property `P`, or fails to read the store
on account of an outage; in either case it changes nothing but the history. -/
def Looks (s : Store) (x : Run α) (P : α → Prop) : Prop :=
  ∀ p : Platform, p.store = s → p.Alike (x.run p).2 ∧
    ∀ o, (x.run p).1 = o → match o with
      | .ok a => P a
      | .error e => p.outages ≠ [] ∧ e.kind = .entityStore

namespace Looks

variable {s : Store} {x : Run α} {P : α → Prop} {Q : β → Prop}

/-- Without outages there is a result. -/
theorem gives (h : Looks s x P) {p : Platform} (hs : p.store = s) (ho : p.outages = []) :
    ∃ a q, x.run p = (.ok a, q) ∧ p.Alike q ∧ P a := by
  obtain ⟨ha, hr⟩ := h p hs
  rcases hx : x.run p with ⟨e | a, q⟩
  · exact absurd ho (hr (.error e) (by rw [hx])).1
  · refine ⟨a, q, rfl, ?_, hr (.ok a) (by rw [hx])⟩
    rw [hx] at ha; exact ha

/-- Any result has the property. -/
theorem gave (h : Looks s x P) {p q : Platform} {a : α} (hs : p.store = s)
    (hx : x.run p = (.ok a, q)) : p.Alike q ∧ P a := by
  obtain ⟨ha, hr⟩ := h p hs
  rw [hx] at ha
  exact ⟨ha, hr (.ok a) (by rw [hx])⟩

/-- Any failure is one of reading the store. -/
theorem failed (h : Looks s x P) {p : Platform} {e : Failure} (hs : p.store = s)
    (hx : (x.run p).1 = .error e) : e.kind = .entityStore :=
  ((h p hs).2 _ hx).2

theorem pure {a : α} (h : P a) : Looks s (Pure.pure a) P := by
  intro p _
  refine ⟨.refl p, ?_⟩
  rintro _ rfl
  exact h

theorem mono {P' : α → Prop} (h : Looks s x P) (hP : ∀ a, P a → P' a) : Looks s x P' := by
  intro p hs
  obtain ⟨ha, hr⟩ := h p hs
  refine ⟨ha, fun o ho => ?_⟩
  have := hr o ho
  cases o with
  | ok a => exact hP a this
  | error e => exact this

theorem bind {f : α → Run β} (hx : Looks s x P) (hf : ∀ a, P a → Looks s (f a) Q) :
    Looks s (x >>= f) Q := by
  intro p hs
  obtain ⟨ha, hr⟩ := hx p hs
  rw [run_bind]
  rcases hxp : x.run p with ⟨e | a, q⟩
  · rw [hxp] at ha hr
    refine ⟨ha, ?_⟩
    rintro _ rfl
    exact hr (.error e) rfl
  · rw [hxp] at ha hr
    have hPa : P a := hr (.ok a) rfl
    obtain ⟨hb, hr'⟩ := hf a hPa q (ha.store.trans hs)
    refine ⟨ha.trans hb, fun o ho => ?_⟩
    have := hr' o ho
    rw [ha.outages] at this
    exact this

theorem count (m : Meter) : Looks s (Run.count m) fun _ => True := by
  intro p _
  refine ⟨⟨rfl, rfl, rfl, rfl, rfl, rfl⟩, ?_⟩
  rintro _ rfl
  trivial

theorem fetchAspects (entityType : String) (us : List Urn) (names : List String) :
    Looks s (Run.fetchAspects entityType us names) fun found => found = s.fetch us names := by
  intro p hs
  unfold Run.fetchAspects
  rw [run_bind, run_call]
  cases ho : p.outage? (.fetchAspects entityType us names) with
  | none =>
    refine ⟨⟨rfl, rfl, rfl, rfl, rfl, rfl⟩, ?_⟩
    rintro _ rfl
    show p.store.fetch us names = _
    rw [hs]
  | some message =>
    refine ⟨⟨rfl, rfl, rfl, rfl, rfl, rfl⟩, ?_⟩
    rintro _ rfl
    exact ⟨outages_ne_nil ho, rfl⟩

/-- A loop keeps an invariant that speaks of the part of the list that was gone through. -/
theorem foldlM {f : β → ι → Run β} {I : List ι → β → Prop} {l : List ι} {b : β} (h0 : I [] b)
    (hf : ∀ done i rest b, l = done ++ i :: rest → I done b → Looks s (f b i) (I (done ++ [i]))) :
    Looks s (l.foldlM f b) (I l) := by
  have h : ∀ (rest done : List ι) (b : β), l = done ++ rest → I done b →
      Looks s (rest.foldlM f b) (I l) := by
    intro rest
    induction rest with
    | nil =>
      intro done b hl hb
      rw [hl, List.append_nil]
      exact pure hb
    | cons i rest ih =>
      intro done b hl hb
      rw [List.foldlM_cons]
      exact (hf done i rest b hl hb).bind fun b' hb' => ih (done ++ [i]) b' (by simp [hl]) hb'
  exact h l [] b rfl h0

theorem forM {f : ι → Run Unit} (l : List ι) (hf : ∀ i ∈ l, Looks s (f i) fun _ => True) :
    Looks s (l.forM f) fun _ => True := by
  induction l with
  | nil => exact pure trivial
  | cons i l ih =>
    show Looks s (f i >>= fun _ => l.forM f) _
    exact (hf i List.mem_cons_self).bind fun _ _ => ih fun j hj => hf j (List.mem_cons_of_mem _ hj)

/-- A loop that gives a value for each element gives the list of these. -/
theorem mapM {f : ι → Run β} {g : ι → β} (l : List ι)
    (hf : ∀ i ∈ l, Looks s (f i) fun b => b = g i) :
    Looks s (l.mapM f) fun bs => bs = l.map g := by
  induction l with
  | nil => exact pure rfl
  | cons i l ih =>
    rw [List.mapM_cons]
    refine (hf i List.mem_cons_self).bind fun b hb => ?_
    refine (ih fun j hj => hf j (List.mem_cons_of_mem _ hj)).bind fun bs hbs => ?_
    exact pure (by rw [hb, hbs]; rfl)

theorem filterM {f : ι → Run Bool} {g : ι → Bool} (l : List ι)
    (hf : ∀ i ∈ l, Looks s (f i) fun b => b = g i) :
    Looks s (l.filterM f) fun is => is = l.filter g := by
  -- the loop collects the elements in reverse order
  have h : ∀ (l acc : List ι), (∀ i ∈ l, Looks s (f i) fun b => b = g i) →
      Looks s (l.filterAuxM f acc) fun is => is = (l.filter g).reverse ++ acc := by
    intro l
    induction l with
    | nil => exact fun acc _ => pure rfl
    | cons i l ih =>
      intro acc hf
      refine (hf i List.mem_cons_self).bind fun b hb => ?_
      refine (ih _ fun j hj => hf j (List.mem_cons_of_mem _ hj)).mono fun is his => ?_
      rw [his, hb, List.filter_cons]
      cases g i <;> simp
  refine (h l [] hf).bind fun is his => pure ?_
  rw [his, List.append_nil, List.reverse_reverse]

end Looks
end Run
end CatalogRules
