import CatalogRules.Proofs.Looking
import Mathlib.Order.Nat

/-! # The pages of a listing

The names of the entities of a type are served page by page; the cursor of a page is the number of
the names before it, and the first page needs none. Pages are cut from the listing as it is at the
time, so it is the length of the listing alone that makes them fit together: as long as the listing
stays the same, the pages are its consecutive parts (`take_pages_flatten`, `scroll_eq`). -/

namespace CatalogRules

/-! ### Cursors -/

/-- **A number is read back from its digits.** -/
theorem Store.offsetOf?_toString {n : Nat} (h : n < Word.bound) : offsetOf? (toString n) = some n := by
  have hlist : (toString n).toList = Nat.toDigits 10 n := by
    rw [Nat.toString_eq_ofList_toDigits, String.toList_ofList]
  have hdigit : ∀ c ∈ Nat.toDigits 10 n, c.isDigit := fun c hc =>
    Nat.isDigit_of_mem_toDigits (b := 10) (by decide) (by decide) hc
  have hvalue : (Nat.toDigits 10 n).foldl (fun n c => 10 * n + (c.toNat - '0'.toNat)) 0 = n := by
    rw [← Nat.ofDigitChars_eq_foldl, Nat.ofDigitChars_ten_toDigits]
  have hread : (if Nat.toDigits 10 n ≠ [] ∧ (Nat.toDigits 10 n).all Char.isDigit then
      let m := (Nat.toDigits 10 n).foldl (fun n c => 10 * n + (c.toNat - '0'.toNat)) 0
      if m < Word.bound then some m else none
    else none) = some n := by
    rw [if_pos ⟨Nat.toDigits_ne_nil, List.all_eq_true.mpr hdigit⟩, hvalue]
    exact if_pos h
  unfold offsetOf?
  rw [hlist]
  -- the digits do not begin with a sign
  split
  · next ds heq => exact absurd (hdigit '+' (by rw [heq]; exact List.mem_cons_self)) (by decide)
  · exact hread

/-- A page whose end is a word. -/
theorem Store.pageAt?_of_lt {l : List Urn} {offset batch : Nat}
    (h : offset + max batch 1 < Word.bound) : pageAt? l offset batch =
      some ⟨(l.take (min (offset + max batch 1) l.length)).drop offset,
        if min (offset + max batch 1) l.length < l.length
        then some (toString (min (offset + max batch 1) l.length)) else none⟩ := by
  rw [pageAt?, Word.add?, if_pos h]
  rfl

namespace Backfill

variable {size i k : Nat} {l : List Urn}

/-- The number of the pages of a listing with some names. -/
def pageCount (size n : Nat) : Nat := (n + size - 1) / size

/-- The consecutive parts of a listing; all but the last have the full size. -/
def pages (size : Nat) (l : List Urn) : List (List Urn) :=
  (List.range (pageCount size l.length)).map fun i => (l.drop (i * size)).take size

/-- The cursor of a page. -/
def cursor (size i : Nat) : Option String := if i = 0 then none else some (toString (i * size))

theorem cursor_of_pos (hi : 0 < i) : cursor size i = some (toString (i * size)) := if_neg hi.ne'

theorem lt_pageCount {n : Nat} (hsize : 0 < size) : i < pageCount size n ↔ i * size < n := by
  unfold pageCount
  rw [Nat.lt_iff_add_one_le, Nat.le_div_iff_mul_le hsize, Nat.succ_mul]
  omega

theorem length_pages : (pages size l).length = pageCount size l.length := by
  rw [pages, List.length_map, List.length_range]

theorem pageCount_le {n : Nat} (hsize : 0 < size) : pageCount size n ≤ n := by
  by_contra h
  have hlt := (lt_pageCount hsize).mp (Nat.lt_of_not_le h)
  exact absurd hlt (Nat.not_lt.mpr (Nat.le_mul_of_pos_right n hsize))

/-- The first pages are the names before the next one. -/
theorem take_pages_flatten (hk : k ≤ (pages size l).length) :
    ((pages size l).take k).flatten = l.take (k * size) := by
  rw [length_pages] at hk
  rw [pages, ← List.map_take, List.take_range, Nat.min_eq_left hk]
  clear hk
  induction k with
  | zero => simp
  | succ k ih =>
    rw [List.range_succ, List.map_append, List.flatten_append, ih, Nat.succ_mul, List.take_add]
    simp

/-- **The pages are the listing.** -/
theorem pages_flatten (hsize : 0 < size) : (pages size l).flatten = l := by
  have h : ((pages size l).take _).flatten = _ := take_pages_flatten le_rfl
  rw [List.take_length, length_pages] at h
  rw [h]
  refine List.take_of_length_le (Nat.le_of_not_lt fun hlt => ?_)
  exact lt_irrefl _ ((lt_pageCount hsize).mpr hlt)

theorem take_pages_succ (hi : i < (pages size l).length) : (pages size l).take (i + 1) =
    (pages size l).take i ++ [(l.drop (i * size)).take size] := by
  rw [List.take_add_one, List.getElem?_eq_getElem hi]
  simp [pages]

/-- **A page is served with the cursor of the next one.** -/
theorem scroll_eq {s : Store} {t : String} (hsize : 0 < size) (hword : size < Word.bound)
    (hlong : (s.urns t).length ≤ Word.half) (hi : i = 0 ∨ i * size < (s.urns t).length) :
    s.scroll t size (cursor size i) = some (.ok ⟨((s.urns t).drop (i * size)).take size,
      if (i + 1) * size < (s.urns t).length then cursor size (i + 1) else none⟩) := by
  have hbound : Word.bound = 2 * Word.half := by decide
  -- a further page begins behind a full one, so that its end is a word as well
  have hstop : i * size + size < Word.bound := by
    rcases hi with rfl | hi
    · omega
    · rcases Nat.eq_zero_or_pos i with rfl | hpos
      · omega
      · have := Nat.le_mul_of_pos_left size hpos
        omega
  have hpage : Store.pageAt? (s.urns t) (i * size) size =
      some ⟨((s.urns t).drop (i * size)).take size,
        if (i + 1) * size < (s.urns t).length then cursor size (i + 1) else none⟩ := by
    rw [Nat.succ_mul, Store.pageAt?_of_lt (by rwa [Nat.max_eq_left hsize]), Nat.max_eq_left hsize]
    simp only [Option.some.injEq, ScrollPage.mk.injEq]
    constructor
    · rw [List.drop_take, List.take_eq_take_iff, List.length_drop]
      omega
    · by_cases h : i * size + size < (s.urns t).length
      · rw [if_pos h, if_pos (by omega), Nat.min_eq_left h.le, cursor_of_pos i.succ_pos,
          Nat.succ_mul]
      · rw [if_neg h, if_neg (by omega)]
  unfold Store.scroll
  rcases Nat.eq_zero_or_pos i with rfl | hpos
  · rw [Nat.zero_mul] at hpage ⊢
    exact congrArg (Option.map Except.ok) hpage
  · rw [cursor_of_pos hpos]
    dsimp only
    rw [Store.offsetOf?_toString (by omega)]
    exact congrArg (Option.map Except.ok) hpage

end Backfill

/-- Pages that are served by the store. -/
theorem Run.run_scroll {p : Platform} {t : String} (hp : p.searches.lookup t = none) (size : Nat)
    (c : Option String) : (Run.scroll t size c).run p = match p.outage? (.scroll t size c) with
      | some message => (.error (.search message), { p with calls := p.calls ++ [.scroll t size c] })
      | none => ((p.store.scroll t size c).getD (.error (.search Word.overflow)),
          { p with calls := p.calls ++ [.scroll t size c] }) := by
  unfold Run.scroll
  rw [run_bind, run_call]
  cases p.outage? (.scroll t size c) with
  | some message => rfl
  | none =>
    dsimp only
    rw [run_get_bind]
    dsimp only
    rw [hp]
    cases (p.store.scroll t size c).getD (.error (.search Word.overflow)) <;> rfl

end CatalogRules
