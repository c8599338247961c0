import CatalogRules.Proofs.Backfill.Pages
import CatalogRules.Proofs.Resolution.Realized

/-! # Scrolling

A search for the entities of a type takes a cursor, which is the text of an offset, and serves the
names from there on (`Store.Serves`); the next cursor is the text of where the page ends. Any text
may be given as a cursor, so an offset may be anywhere in the range of words, and so may the size of
a page. They are added as words before the sum is cut to the listing: if the sum is a word, the page
is a part of the listing, and its next cursor lies behind the offset; if it is none, the program
stops, whether there are names behind the offset or not (`Store.scroll_serves`,
`Store.scroll_stops`).

A cursor that was served is below the number of the names, and its page as large as the one before.
So whoever follows the cursors from the first page on stays in the range of words as long as there
are at most `2⁶³` names, and sees each name once, in order (`Store.Scrolled`, `exists_scrolled`). -/

namespace CatalogRules

/-- The text writes the number: decimal digits, at least one, after a plus sign or not. -/
def WritesNatural (text : String) (n : Nat) : Prop :=
  ∃ ds : List Char, (text.toList = ds ∨ text.toList = '+' :: ds) ∧ ds ≠ [] ∧
    (∀ c ∈ ds, c.isDigit) ∧ Nat.ofDigitChars 10 ds 0 = n

namespace Store

/-! ### Cursors -/

/-- **A cursor is read if it writes a word.** -/
theorem offsetOf?_eq_some_iff {cursor : String} {n : Nat} :
    offsetOf? cursor = some n ↔ WritesNatural cursor n ∧ n < Word.bound := by
  -- what is made of the digits, once a sign is taken off
  have hread : ∀ ds : List Char, (if ds ≠ [] ∧ ds.all Char.isDigit then
      let m := ds.foldl (fun n c => 10 * n + (c.toNat - '0'.toNat)) 0
      if m < Word.bound then some m else none
    else none) = some n ↔
      (ds ≠ [] ∧ (∀ c ∈ ds, c.isDigit) ∧ Nat.ofDigitChars 10 ds 0 = n) ∧ n < Word.bound := by
    intro ds
    rw [← Nat.ofDigitChars_eq_foldl, ← List.all_eq_true]
    split_ifs with hds
    · dsimp only
      split_ifs with hm
      · rw [Option.some.injEq]
        exact ⟨fun h => ⟨⟨hds.1, hds.2, h⟩, h ▸ hm⟩, fun h => h.1.2.2⟩
      · exact ⟨nofun, fun h => absurd (h.1.2.2 ▸ h.2) hm⟩
    · exact ⟨nofun, fun h => absurd ⟨h.1.1, h.1.2.1⟩ hds⟩
  unfold offsetOf? WritesNatural
  split
  · next ds htext =>
    -- the sign itself is no digit
    rw [hread, htext]
    refine and_congr_left fun _ => ⟨fun h => ⟨ds, .inr rfl, h⟩, ?_⟩
    rintro ⟨ds', rfl | h, hds'⟩
    · exact absurd (hds'.2.1 '+' List.mem_cons_self) (by decide)
    · rwa [List.cons.inj h |>.2]
  · next ds hsign =>
    rw [hread]
    refine and_congr_left fun _ => ⟨fun h => ⟨_, .inl rfl, h⟩, ?_⟩
    rintro ⟨ds', rfl | h, hds'⟩
    · exact hds'
    · exact absurd h (hsign ds')

/-- The offset that a search begins at: the beginning without a cursor, else a word that the cursor
writes. -/
def StartsAt : Option String → Nat → Prop
  | none, offset => offset = 0
  | some cursor, offset => WritesNatural cursor offset ∧ offset < Word.bound

variable {s : Store} {t : String} {batch size offset : Nat} {l : List Urn}

theorem StartsAt.lt {cursor : Option String} (h : StartsAt cursor offset) :
    offset < Word.bound := by
  cases cursor with
  | none => exact h.symm ▸ by decide
  | some c => exact h.2

theorem scroll_of_startsAt {cursor : Option String} (h : StartsAt cursor offset) :
    s.scroll t batch cursor = (pageAt? (s.urns t) offset batch).map .ok := by
  cases cursor with
  | none => rw [show offset = 0 from h, scroll]
  | some c => rw [scroll, offsetOf?_eq_some_iff.mpr h]

/-! ### Pages -/

/-- The page has the names of a listing from an offset on, as many as fit, and leads to where it
ends if it has names and there are more. -/
structure Serves (l : List Urn) (offset size : Nat) (page : ScrollPage) : Prop where
  urns : page.urns = (l.drop offset).take size
  next : ∀ c, page.next = some c ↔ c = toString (offset + page.urns.length) ∧
    0 < page.urns.length ∧ offset + page.urns.length < l.length

/-- There is a page if its end is a word, and it serves the listing. -/
theorem exists_pageAt? (h : offset + max batch 1 < Word.bound) :
    ∃ page, pageAt? l offset batch = some page ∧ Serves l offset (max batch 1) page := by
  refine ⟨_, pageAt?_of_lt h, ?_⟩
  have hpos : 0 < max batch 1 := lt_max_of_lt_right Nat.one_pos
  generalize max batch 1 = size at hpos
  have hurns : (l.take (min (offset + size) l.length)).drop offset = (l.drop offset).take size := by
    rw [List.drop_take, List.take_eq_take_iff, List.length_drop]
    omega
  have hlength : ((l.take (min (offset + size) l.length)).drop offset).length =
      min size (l.length - offset) := by
    rw [hurns, List.length_take, List.length_drop]
  refine ⟨hurns, fun c => ?_⟩
  dsimp only
  rw [hlength]
  by_cases hmore : offset + size < l.length
  · rw [if_pos (by omega), Nat.min_eq_left hmore.le, Nat.min_eq_left (by omega), Option.some.injEq]
    exact ⟨fun h => ⟨h.symm, hpos, hmore⟩, fun h => h.1.symm⟩
  · rw [if_neg (by omega)]
    refine ⟨nofun, fun h => ?_⟩
    omega

/-- There is no page if its end is no word. -/
theorem pageAt?_of_le (h : Word.bound ≤ offset + max batch 1) : pageAt? l offset batch = none := by
  rw [pageAt?, Word.add?, if_neg (Nat.not_lt.mpr h)]
  rfl

/-! ### Following the cursors -/

/-- What is seen by following the cursors from one on: page after page, until there is no next. -/
inductive Scrolled (s : Store) (t : String) (batch : Nat) : Option String → List (List Urn) → Prop
  | last {c : Option String} {us : List Urn} (page : s.scroll t batch c = some (.ok ⟨us, none⟩)) :
    Scrolled s t batch c [us]
  | more {c : Option String} {us : List Urn} {c' : String} {rest : List (List Urn)}
    (page : s.scroll t batch c = some (.ok ⟨us, some c'⟩)) (h : Scrolled s t batch (some c') rest) :
    Scrolled s t batch c (us :: rest)

theorem Scrolled.unique {c : Option String} {ps qs : List (List Urn)}
    (h : Scrolled s t batch c ps) (k : Scrolled s t batch c qs) : ps = qs := by
  induction h generalizing qs with
  | last page =>
    cases k with
    | last page' =>
      rw [page] at page'
      cases page'
      rfl
    | more page' =>
      rw [page] at page'
      cases page'
  | more page _ ih =>
    cases k with
    | last page' =>
      rw [page] at page'
      cases page'
    | more page' k =>
      rw [page] at page'
      cases page'
      rw [ih k]

/-- A page of no names is taken for a page of one. -/
theorem scroll_max (c : Option String) : s.scroll t (max batch 1) c = s.scroll t batch c := by
  have hpage : ∀ offset,
      pageAt? (s.urns t) offset (max batch 1) = pageAt? (s.urns t) offset batch := by
    intro offset
    rw [pageAt?, pageAt?, Nat.max_eq_left (Nat.le_max_right batch 1)]
  simp only [scroll, hpage]

open Backfill in
/-- Following the cursors from a page on, one sees the rest of the listing. The induction is on a
number of pages that suffice. -/
theorem exists_scrolled (hsize : 0 < size) (hword : size < Word.bound)
    (hlong : (s.urns t).length ≤ Word.half) (k : Nat) : ∀ {i : Nat},
    i = 0 ∨ i * size < (s.urns t).length → (s.urns t).length ≤ (i + k + 1) * size →
    ∃ ps, Scrolled s t size (cursor size i) ps ∧ ps.flatten = (s.urns t).drop (i * size) := by
  induction k with
  | zero =>
    intro i hi hk
    have hpage := scroll_eq hsize hword hlong hi
    rw [if_neg (Nat.not_lt.mpr hk)] at hpage
    refine ⟨_, .last hpage, ?_⟩
    rw [List.flatten_singleton, List.take_of_length_le]
    rw [List.length_drop]
    rw [Nat.add_zero, Nat.succ_mul] at hk
    omega
  | succ k ih =>
    intro i hi hk
    have hpage := scroll_eq hsize hword hlong hi
    have hrest : (s.urns t).drop (i * size) = ((s.urns t).drop (i * size)).take size ++
        (s.urns t).drop ((i + 1) * size) := by
      rw [Nat.succ_mul, ← List.drop_drop, List.take_append_drop]
    split_ifs at hpage with hmore
    · have hcount : i + 1 + k + 1 = i + (k + 1) + 1 := by omega
      obtain ⟨ps, hps, hflatten⟩ := ih (.inr hmore) (by rwa [hcount])
      rw [cursor_of_pos i.succ_pos] at hpage hps
      refine ⟨_ :: ps, .more hpage hps, ?_⟩
      rw [List.flatten_cons, hflatten, ← hrest]
    · refine ⟨_, .last hpage, ?_⟩
      rw [List.flatten_singleton]
      conv_rhs => rw [hrest, List.drop_of_length_le (Nat.le_of_not_lt hmore), List.append_nil]

/-- **Following the cursors lists every name once, in order, and comes to an end.** -/
theorem exists_scrolled_all (hbatch : batch < Word.bound) (hlong : (s.urns t).length ≤ Word.half) :
    ∃ ps, (∀ qs, Scrolled s t batch none qs ↔ qs = ps) ∧ ps.flatten = s.urns t := by
  have hpos : 0 < max batch 1 := lt_max_of_lt_right Nat.one_pos
  have hword : max batch 1 < Word.bound := max_lt hbatch (by decide)
  obtain ⟨ps, hps, hflatten⟩ := exists_scrolled (s := s) (t := t) hpos hword hlong (s.urns t).length
    (i := 0) (.inl rfl) (Nat.le_trans (by omega) (Nat.le_mul_of_pos_right _ hpos))
  have hps : Scrolled s t batch none ps := by
    clear hflatten
    change Scrolled s t (max batch 1) none ps at hps
    generalize none = c at hps
    induction hps with
    | last page => exact .last (by rwa [scroll_max] at page)
    | more page _ ih => exact .more (by rwa [scroll_max] at page) ih
  refine ⟨ps, fun qs => ⟨fun h => h.unique hps, fun h => h ▸ hps⟩, ?_⟩
  rw [hflatten, Nat.zero_mul, List.drop_zero]

/-! ### All cursors -/

/-- **A search serves the listing as long as the end of the page is a word.** The listing has the
names of the known entities of the type in increasing order. For every cursor there is a page, or
the cursor writes no word and that is the failure, or the program stops, and it stops if and only if
the end of the page is no word. A page has the names from the offset on, and its next cursor is
behind the offset. Following the cursors from the first page on, one sees the listing, page by page,
and comes to an end. -/
theorem scroll_serves (s : Store) (hs : s.Ordered) (t : String) (batch : Nat)
    (hbatch : batch < Word.bound) :
    ((s.urns t).Pairwise (· < ·) ∧ ∀ u, u ∈ s.urns t ↔ u.entityType = t ∧ (s.entity? u).isSome) ∧
    (∀ cursor,
      (∃ offset, StartsAt cursor offset ∧
        ((offset + max batch 1 < Word.bound ∧
          ∃ page, s.scroll t batch cursor = some (.ok page) ∧
            Serves (s.urns t) offset (max batch 1) page ∧
            ∀ c, page.next = some c →
              ∃ next, StartsAt (some c) next ∧ next = offset + page.urns.length ∧ offset < next) ∨
        (Word.bound ≤ offset + max batch 1 ∧ s.scroll t batch cursor = none))) ∨
      ∃ c, cursor = some c ∧ (∀ n, WritesNatural c n → Word.bound ≤ n) ∧
        s.scroll t batch cursor = some (.error (.search ("无效的游标 '" ++ c ++ "'")))) ∧
    ((s.urns t).length ≤ Word.half →
      ∃ ps, (∀ qs, Scrolled s t batch none qs ↔ qs = ps) ∧ ps.flatten = s.urns t) := by
  refine ⟨⟨hs.entities.sublist List.filter_sublist, fun u => ?_⟩, fun cursor => ?_,
    exists_scrolled_all hbatch⟩
  · rw [urns, List.mem_filter, decide_eq_true_eq, and_comm, entity?, Option.isSome_iff_ne_none,
      Ne, lookup_eq_none, not_not]
  · by_cases hstart : ∃ offset, StartsAt cursor offset
    · obtain ⟨offset, hstart⟩ := hstart
      refine .inl ⟨offset, hstart, ?_⟩
      rw [scroll_of_startsAt hstart]
      rcases Nat.lt_or_ge (offset + max batch 1) Word.bound with hlt | hge
      · obtain ⟨page, hpage, hserves⟩ := exists_pageAt? (l := s.urns t) hlt
        refine .inl ⟨hlt, page, congrArg (Option.map Except.ok) hpage, hserves, fun c hc => ?_⟩
        obtain ⟨rfl, hpos, -⟩ := (hserves.next c).mp hc
        have hlength : page.urns.length ≤ max batch 1 := by
          rw [hserves.urns, List.length_take]
          exact Nat.min_le_left _ _
        exact ⟨_, offsetOf?_eq_some_iff.mp (offsetOf?_toString (by omega)), rfl, by omega⟩
      · exact .inr ⟨hge, congrArg (Option.map Except.ok) (pageAt?_of_le hge)⟩
    · cases cursor with
      | none => exact absurd ⟨0, rfl⟩ hstart
      | some c =>
        have hnone : ∀ n, WritesNatural c n → Word.bound ≤ n := fun n hn =>
          Nat.le_of_not_lt fun hlt => hstart ⟨n, hn, hlt⟩
        have hread : offsetOf? c = none := Option.eq_none_iff_forall_ne_some.mpr fun n hn =>
          hstart ⟨n, offsetOf?_eq_some_iff.mp hn⟩
        refine .inr ⟨c, rfl, hnone, ?_⟩
        rw [scroll, hread]

theorem second_ne : "2" ≠ "" := by decide

/-- Two things of which nothing is known. -/
def ofTwoThings : Store :=
  ⟨[(.thing, []), ({ Urn.thing with key := "2", key_ne := second_ne }, [])], []⟩

theorem scroll_twoThings : ofTwoThings.Ordered ∧ 1 < Word.bound ∧ WritesNatural "+1" 1 ∧
    (∃ page, ofTwoThings.scroll "thing" 1 (some "+1") = some (.ok page) ∧
      Serves (ofTwoThings.urns "thing") 1 1 page) ∧
    ∃ ps, Scrolled ofTwoThings "thing" 1 none ps ∧ ps.flatten = ofTwoThings.urns "thing" := by
  have hs : ofTwoThings.Ordered := ⟨by decide +kernel, by decide +kernel⟩
  have hone : WritesNatural "+1" 1 := ⟨['1'], .inr rfl, by decide, by simp, rfl⟩
  obtain ⟨-, hcursor, hall⟩ := scroll_serves ofTwoThings hs "thing" 1 (by decide)
  obtain ⟨ps, hps, hflatten⟩ := hall (by decide +kernel)
  refine ⟨hs, by decide, hone, ?_, ps, (hps ps).mpr rfl, hflatten⟩
  rcases hcursor (some "+1") with ⟨offset, hstart, h⟩ | ⟨c, ⟨⟩, hc, -⟩
  · have hoffset : offset = 1 := by
      have h := offsetOf?_eq_some_iff.mpr hstart
      exact (Option.some.inj ((offsetOf?_eq_some_iff.mpr ⟨hone, by decide⟩).symm.trans h)).symm
    subst hoffset
    rcases h with ⟨-, page, hpage, hserves, -⟩ | ⟨hstop, -⟩
    · exact ⟨page, hpage, hserves⟩
    · exact absurd hstop (by decide)
  · exact absurd (hc 1 hone) (by decide)

/-- **A search for as many names as can be asked for stops the program.** Behind the first of two
things is the second one, and there is a page that serves it. -/
theorem scroll_stops : StartsAt (some "1") 1 ∧
    Serves (ofTwoThings.urns "thing") 1 (Word.bound - 1)
      ⟨[{ Urn.thing with key := "2", key_ne := second_ne }], none⟩ ∧
    ofTwoThings.scroll "thing" (Word.bound - 1) (some "1") = none := by
  have hone : WritesNatural "1" 1 := ⟨['1'], .inl rfl, by decide, by simp, rfl⟩
  have hstart : StartsAt (some "1") 1 := ⟨hone, by decide⟩
  refine ⟨hstart, ⟨by decide +kernel, fun c => ⟨nofun, fun h => absurd h.2.2 (by decide)⟩⟩, ?_⟩
  rw [scroll_of_startsAt hstart, pageAt?_of_le (by decide)]
  rfl

end Store
end CatalogRules
