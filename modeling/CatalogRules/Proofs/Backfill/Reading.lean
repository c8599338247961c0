import CatalogRules.Backfill
import CatalogRules.Proofs.Backfill.Listing
import CatalogRules.Proofs.Backfill.Pages

/-! # Reading the pages of a type

The pages of a type are read one after the other, while batches are evaluated in between.
`Backfill.Progress` says how far that has come: the batches so far are the first pages of the
listing, and either there is a page to be read, or reading is over. If it is over, all pages have
been read, or the last batch is the failure of the first search that is out (`Backfill.Covers`).

Reading a page is a step of this kind (`Progress.readPage`), and what is done in between does not
matter as long as it leaves the listing and does not search for the type (`Progress.later`). -/

namespace CatalogRules
namespace Backfill

variable {size : Nat} {t : String} {p q o : Platform}

/-- No search for the type is out, from where the log of the first platform ends up to a place in
the log of the second. -/
def Clear (t : String) (p q : Platform) (m : Nat) : Prop :=
  ∀ n c, p.calls.length ≤ n → n < m → q.calls[n]? = some c → c.sort = .scroll → c.subject = t →
    q.outages.message? n c = none

/-- The batches of some pages. -/
def batchesOf (ps : List (List Urn)) : List Batch := ps.map .ok

theorem length_batchesOf (ps : List (List Urn)) : (batchesOf ps).length = ps.length :=
  List.length_map _

theorem batchesOf_concat (ps : List (List Urn)) (us : List Urn) :
    batchesOf (ps ++ [us]) = batchesOf ps ++ [.ok us] := List.map_append

theorem mem_batchesOf {ps : List (List Urn)} {us : List Urn} : .ok us ∈ batchesOf ps ↔ us ∈ ps := by
  simp [batchesOf]

/-- **What is handed out of a type**: all pages of the listing if no search is out, else those before
the first one that is, and its failure. -/
inductive Covers (size : Nat) (t : String) (p q : Platform) : List Batch → Prop
  | complete (clear : Clear t p q q.calls.length) :
    Covers size t p q (batchesOf (pages size (p.store.urns t)))
  | cut (k n : Nat) (message : String) (page : k = 0 ∨ k < (pages size (p.store.urns t)).length)
    (place : p.calls.length ≤ n) (clear : Clear t p q n)
    (call : q.calls[n]? = some (.scroll t size (cursor size k)))
    (out : q.outages.message? n (.scroll t size (cursor size k)) = some message) :
    Covers size t p q (batchesOf ((pages size (p.store.urns t)).take k) ++ [.error (.search message)])

/-- How far the pages of a type have been read: the cursor of the next one and the batches so far. -/
inductive Progress (size : Nat) (t : String) (p q : Platform) :
    Option (Option String) → List Batch → Prop
  | reading (i : Nat) (page : i = 0 ∨ i < (pages size (p.store.urns t)).length)
    (clear : Clear t p q q.calls.length) :
    Progress size t p q (some (cursor size i)) (batchesOf ((pages size (p.store.urns t)).take i))
  | done {bs : List Batch} (covers : Covers size t p q bs) : Progress size t p q none bs

/-! ### What happens in between -/

theorem Store.urns_eq_of_names {s s' : Store} (h : s'.names = s.names) (t : String) :
    s'.urns t = s.urns t := by
  show s'.names.filter _ = s.names.filter _
  rw [h]

theorem Clear.later {m : Nat} (h : Clear t p q q.calls.length)
    (hq : q.Upkept (fun c => c.sort = .scroll → c.subject ≠ t) o) : Clear t p o m := by
  intro n c hn _ hc hsort hsubject
  rw [hq.outages]
  rcases Nat.lt_or_ge n q.calls.length with hlt | hge
  · exact h n c hn hlt (by rw [← hq.getElem? hlt, hc]) hsort hsubject
  · exact absurd hsubject (hq.of_getElem? hge hc hsort)

theorem Covers.later {bs : List Batch} (h : Covers size t p q bs)
    (hq : q.Upkept (fun c => c.sort = .scroll → c.subject ≠ t) o) : Covers size t p o bs := by
  cases h with
  | complete clear => exact .complete (clear.later hq)
  | cut k n message page place clear call out =>
    have hn : n < q.calls.length := (List.getElem?_eq_some_iff.mp call).1
    refine .cut k n message page place (fun j c hj hlt hc => ?_) ?_ ?_
    · rw [hq.outages]
      exact clear j c hj hlt (by rw [← hq.getElem? (hlt.trans hn), hc])
    · rw [hq.getElem? hn, call]
    · rw [hq.outages, out]

/-- **What neither searches for the type nor changes the listing is no progress.** -/
theorem Progress.later {next : Option (Option String)} {bs : List Batch}
    (h : Progress size t p q next bs)
    (hq : q.Upkept (fun c => c.sort = .scroll → c.subject ≠ t) o) : Progress size t p o next bs := by
  cases h with
  | reading i page clear => exact .reading i page (clear.later hq)
  | done covers => exact .done (covers.later hq)

/-- What was handed out of a type can be told from an earlier platform as well. -/
theorem Covers.earlier {bs : List Batch} {P : Call → Prop} (h : Covers size t p q bs)
    (hp : o.Upkept (fun c => c.sort = .scroll → c.subject ≠ t) p) (hq : p.Upkept P q) :
    Covers size t o q bs := by
  have hclear : ∀ m, Clear t p q m → Clear t o q m := by
    intro m hm n c hn hlt hc hsort hsubject
    rcases Nat.lt_or_ge n p.calls.length with hbefore | hge
    · rw [hq.getElem? hbefore] at hc
      exact absurd hsubject (hp.of_getElem? hn hc hsort)
    · exact hm n c hge hlt hc hsort hsubject
  have hurns : p.store.urns t = o.store.urns t := Store.urns_eq_of_names hp.names t
  cases h with
  | complete clear =>
    rw [hurns]
    exact .complete (hclear _ clear)
  | cut k n message page place clear call out =>
    rw [hurns] at page ⊢
    exact .cut k n message page (hp.length_le.trans place) (hclear n clear) call out

theorem Covers.length_le {bs : List Batch} (h : Covers size t p q bs) :
    bs.length ≤ (pages size (p.store.urns t)).length + 1 := by
  cases h with
  | complete clear => exact (length_batchesOf _).trans_le (Nat.le_succ _)
  | cut k n message page place clear call out =>
    rw [List.length_append, length_batchesOf, List.length_take, List.length_singleton]
    omega

theorem Progress.length_le {next : Option (Option String)} {bs : List Batch}
    (h : Progress size t p q next bs) :
    bs.length ≤ (pages size (p.store.urns t)).length + 1 := by
  cases h with
  | reading i page clear =>
    rw [length_batchesOf, List.length_take]
    omega
  | done covers => exact covers.length_le

/-- Batches that are no failures are pages. -/
theorem Progress.mem_pages {next : Option (Option String)} {bs : List Batch} {us : List Urn}
    (h : Progress size t p q next bs) (hus : .ok us ∈ bs) : us ∈ pages size (p.store.urns t) := by
  have htake : ∀ i, .ok us ∈ batchesOf ((pages size (p.store.urns t)).take i) →
      us ∈ pages size (p.store.urns t) :=
    fun i hi => List.mem_of_mem_take (mem_batchesOf.mp hi)
  cases h with
  | reading i page clear => exact htake i hus
  | done covers =>
    cases covers with
    | complete clear => exact mem_batchesOf.mp hus
    | cut k n message page place clear call out =>
      rcases List.mem_append.mp hus with hus | hus
      · exact htake k hus
      · simp at hus

/-! ### Reading -/

/-- The platforms on which the pages of a type can be read: the searches are answered by the store,
and a page is neither empty nor too long to be counted. -/
structure Searchable (size : Nat) (p : Platform) : Prop where
  searches : p.searches = []
  pos : 0 < size
  word : size < Word.bound
  many : p.store.names.length ≤ Word.half

theorem Searchable.upkept {P : Call → Prop} (h : Searchable size p) (hq : p.Upkept P q) :
    Searchable size q :=
  ⟨hq.searches.trans h.searches, h.pos, h.word, by rw [hq.names]; exact h.many⟩

theorem Searchable.length_urns_le (h : Searchable size p) (t : String) :
    (p.store.urns t).length ≤ Word.half :=
  (List.length_filter_le _ _).trans h.many

theorem upkept_scroll (q : Platform) (t : String) (size : Nat) (c : Option String) :
    q.Upkept (·.subject = t) { q with calls := q.calls ++ [Call.scroll t size c] } :=
  ⟨rfl, rfl, rfl, _, rfl, by simp [Call.subject]⟩

/-- A search that is not out leaves the log clear. -/
theorem Clear.scroll {c : Option String} (h : Clear t p q q.calls.length)
    (ho : q.outage? (.scroll t size c) = none) :
    Clear t p { q with calls := q.calls ++ [Call.scroll t size c] }
      (q.calls ++ [Call.scroll t size c]).length := by
  intro n c' hn hlt hc hsort hsubject
  rcases Nat.lt_or_ge n q.calls.length with hbefore | hge
  · exact h n c' hn hbefore (by rwa [List.getElem?_append_left hbefore] at hc) hsort hsubject
  · have hlast : n = q.calls.length := by
      rw [List.length_append, List.length_singleton] at hlt
      omega
    subst hlast
    rw [List.getElem?_append_right le_rfl, Nat.sub_self] at hc
    cases hc
    exact ho

/-- What comes of reading: the log only gets searches for the type, and there is progress. -/
structure Read (size : Nat) (t : String) (p : Platform) (handed : List Batch) (q : Platform)
    (r : Scroll × Platform) : Prop where
  upkept : q.Upkept (·.subject = t) r.2
  progress : Progress size t p r.2 r.1.next (handed ++ r.1.waiting)

theorem run_readPage (c : Option String) (waiting : List Batch) (q : Platform) :
    ((Scroll.mk (some c) waiting).readPage t size).run q = match (Run.scroll t size c).run q with
      | (.error e, r) => (⟨none, waiting ++ [.error e]⟩, r)
      | (.ok page, r) => if page.urns.isEmpty then (⟨none, waiting⟩, r)
        else (⟨page.next.map some, waiting ++ [.ok page.urns]⟩, r) := by
  show (Scroll.readPage t size ⟨some c, waiting⟩) q = _
  simp only [Scroll.readPage, bind, StateT.bind]
  rw [show (Run.scroll t size c).run q = ExceptT.run (Run.scroll t size c) q from rfl]
  rcases ExceptT.run (Run.scroll t size c) q with ⟨e | page, r⟩
  · rfl
  · dsimp only
    split_ifs <;> rfl

/-- A page with names is progress. -/
theorem Progress.page {i : Nat} (hsize : 0 < size) (hi : i < (pages size (p.store.urns t)).length)
    (clear : Clear t p q q.calls.length) : Progress size t p q
      ((if (i + 1) * size < (p.store.urns t).length then cursor size (i + 1) else none).map some)
      (batchesOf ((pages size (p.store.urns t)).take i) ++
        [.ok (((p.store.urns t).drop (i * size)).take size)]) := by
  rw [← batchesOf_concat, ← take_pages_succ hi]
  have hcount : i + 1 < (pages size (p.store.urns t)).length ↔
      (i + 1) * size < (p.store.urns t).length := by
    rw [length_pages, lt_pageCount hsize]
  split_ifs with hmore
  · rw [cursor_of_pos i.succ_pos, Option.map_some, ← cursor_of_pos i.succ_pos]
    exact .reading (i + 1) (.inr (hcount.mpr hmore)) clear
  · rw [List.take_of_length_le (Nat.le_of_not_lt fun h => hmore (hcount.mp h))]
    exact .done (.complete clear)

/-- An empty page is the only one, and its listing is empty. -/
theorem Progress.emptyPage {i : Nat} (hsize : 0 < size)
    (clear : Clear t p q q.calls.length)
    (hempty : ((p.store.urns t).drop (i * size)).take size = []) :
    Progress size t p q none (batchesOf ((pages size (p.store.urns t)).take i)) := by
  have hlen : (p.store.urns t).length ≤ i * size := by
    have h := congrArg List.length hempty
    rw [List.length_take, List.length_drop, List.length_nil] at h
    omega
  have hnot : ¬ i < (pages size (p.store.urns t)).length := by
    rw [length_pages, lt_pageCount hsize]
    exact Nat.not_lt.mpr hlen
  rw [List.take_of_length_le (Nat.le_of_not_lt hnot)]
  exact .done (.complete clear)

/-- **Reading a page is progress.** -/
theorem Progress.readPage {handed : List Batch} {s : Scroll} (hq : Searchable size q)
    (hnames : q.store.names = p.store.names) (hlog : p.calls.length ≤ q.calls.length)
    (h : Progress size t p q s.next (handed ++ s.waiting)) :
    Read size t p handed q ((s.readPage t size).run q) ∧
      (((s.readPage t size).run q).1.next = none ∨
        s.waiting.length + 1 ≤ ((s.readPage t size).run q).1.waiting.length) := by
  obtain ⟨next, waiting⟩ := s
  have hurns : q.store.urns t = p.store.urns t := Store.urns_eq_of_names hnames t
  generalize hbs : handed ++ waiting = bs at h
  cases h with
  | done covers =>
    subst hbs
    exact ⟨⟨.refl _ q, .done covers⟩, .inl rfl⟩
  | reading i page clear =>
    have hone := upkept_scroll q t size (cursor size i)
    have hscroll := Run.run_scroll (p := q) (t := t) (by rw [hq.searches]; rfl) size (cursor size i)
    rw [run_readPage]
    cases ho : q.outage? (.scroll t size (cursor size i)) with
    | some message =>
      rw [ho] at hscroll
      rw [hscroll]
      refine ⟨⟨hone, ?_⟩, .inl rfl⟩
      show Progress size t p _ none (handed ++ (waiting ++ [_]))
      rw [← List.append_assoc, hbs]
      refine .done (.cut i q.calls.length message page hlog (fun n c hn hlt hc => ?_) ?_ ho)
      · exact clear n c hn hlt (by rwa [List.getElem?_append_left hlt] at hc)
      · simp
    | none =>
      have hclear := clear.scroll ho
      have hin : i = 0 ∨ i * size < (q.store.urns t).length := by
        rw [hurns, ← lt_pageCount hq.pos, ← length_pages]
        exact page
      rw [ho] at hscroll
      dsimp only at hscroll
      rw [scroll_eq hq.pos hq.word (hq.length_urns_le t) hin, hurns, Option.getD_some] at hscroll
      rw [hscroll]
      dsimp only
      by_cases hempty : (((p.store.urns t).drop (i * size)).take size).isEmpty
      · rw [if_pos hempty]
        refine ⟨⟨hone, ?_⟩, .inl rfl⟩
        show Progress size t p _ none (handed ++ waiting)
        rw [hbs]
        exact .emptyPage hq.pos hclear (List.isEmpty_iff.mp hempty)
      · rw [if_neg hempty]
        refine ⟨⟨hone, ?_⟩, .inr (by simp)⟩
        show Progress size t p _ _ (handed ++ (waiting ++ [_]))
        rw [← List.append_assoc, hbs]
        refine .page hq.pos ?_ hclear
        rw [length_pages, lt_pageCount hq.pos]
        refine Nat.lt_of_not_le fun hle => hempty ?_
        rw [List.drop_of_length_le hle, List.take_nil]
        rfl

/-! ### Reading ahead -/

theorem readAhead_of_ended {s : Scroll} (h : s.next = none) (room : Nat) :
    (s.readAhead t size room).run q = (s, q) := by
  cases room with
  | zero => rfl
  | succ room =>
    unfold Scroll.readAhead
    rw [h]
    rfl

theorem run_readAhead_succ {s : Scroll} {c : Option String} (h : s.next = some c) (room : Nat) :
    (s.readAhead t size (room + 1)).run q =
      (((s.readPage t size).run q).1.readAhead t size room).run ((s.readPage t size).run q).2 := by
  rw [Scroll.readAhead, h]
  rfl

/-- **Reading ahead is progress**, and it fills the room that there is unless reading is over. -/
theorem Progress.readAhead {handed : List Batch} (room : Nat) {s : Scroll}
    (hq : Searchable size q) (hnames : q.store.names = p.store.names)
    (hlog : p.calls.length ≤ q.calls.length)
    (h : Progress size t p q s.next (handed ++ s.waiting)) :
    Read size t p handed q ((s.readAhead t size room).run q) ∧
      (((s.readAhead t size room).run q).1.next = none ∨
        s.waiting.length + room ≤ ((s.readAhead t size room).run q).1.waiting.length) := by
  induction room generalizing s q with
  | zero => exact ⟨⟨.refl _ q, h⟩, .inr le_rfl⟩
  | succ room ih =>
    cases hnext : s.next with
    | none =>
      rw [readAhead_of_ended hnext]
      exact ⟨⟨.refl _ q, h⟩, .inl hnext⟩
    | some c =>
      obtain ⟨hread, hmore⟩ := Progress.readPage hq hnames hlog h
      rw [run_readAhead_succ hnext]
      rcases hmore with hended | hmore
      · rw [readAhead_of_ended hended]
        exact ⟨hread, .inl hended⟩
      · obtain ⟨hahead, hfull⟩ := ih (hq.upkept hread.upkept)
          (hread.upkept.names.trans hnames) (hlog.trans hread.upkept.length_le) hread.progress
        exact ⟨⟨hread.upkept.trans hahead.upkept, hahead.progress⟩,
          hfull.imp_right fun hfull => by omega⟩

end Backfill
end CatalogRules
