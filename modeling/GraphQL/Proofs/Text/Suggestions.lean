import Mathlib
import GraphQL.Text.Suggestion

/-!
# What is suggested for a misspelt name

`alignment` is the distance of two texts by its definition: the least that can be said of their
last characters.  One of the two is left out, or they stand for one another, or they are the last
two characters of the other text exchanged; what is in front of them is aligned by itself.  The
texts are given from their last character on, so that their prefixes are the tails of the lists.

Two programs compute it.  `alignmentDistance` goes row by row and keeps two rows: `row` is the row
that a prefix of the first text should have, and a row comes out right if the two rows above it are
(`cells_eq`).  `fillTable?` fills a table with a cell for each two prefixes: its first column, its
first row, and all other cells row by row.  It checks every access to a cell or a character, and has
an answer only if none of them is out of bounds.  Its invariant is `Filled done`: the table has its
size, and the cells that `done` holds of have their value.

A cell counts an exchange of neighbours as much as a mismatch of the two characters, which is
nothing where they are alike.  That makes no difference: four characters that are alike are aligned
for nothing without an exchange (`alignment_cons_le`).

The distance of two names is that of their lower-case forms, in either order, and the options that
are suggested are those within the threshold, the closest first.  Sorting keeps options in their
order that are equally far away: for each distance, the options with it are those of the list
(`filter_close`).
-/

namespace GraphQL.Suggestion

/-! ## The distance of two texts -/

/-- What it costs to put one character in the place of another. -/
def mismatch (a b : Char) : ℕ := if a = b then 0 else 1

/-- The distance of two texts, each given from its last character on.  To leave out a character, to
put in one, to replace one and to exchange two neighbours costs one each. -/
def alignment : List Char → List Char → ℕ
  | [], bs => bs.length
  | a :: as, [] => (a :: as).length
  | a :: as, b :: bs =>
    let edited := min (min (alignment as (b :: bs) + 1) (alignment (a :: as) bs + 1))
      (alignment as bs + mismatch a b)
    if bs.head? = some a ∧ as.head? = some b then min edited (alignment as.tail bs.tail + 1)
    else edited
termination_by as bs => as.length + bs.length
decreasing_by
  all_goals simp only [List.length_cons, List.length_tail]; omega

section

variable {a b : Char} {as bs : List Char}

theorem mismatch_comm (a b : Char) : mismatch a b = mismatch b a := by
  simp only [mismatch, eq_comm]

@[simp]
theorem mismatch_self (a : Char) : mismatch a a = 0 := if_pos rfl

theorem eq_of_mismatch_eq_zero (h : mismatch a b = 0) : a = b := by
  by_contra hne
  rw [mismatch, if_neg hne] at h
  exact absurd h (by decide)

@[simp]
theorem alignment_nil_left (bs : List Char) : alignment [] bs = bs.length := by rw [alignment]

@[simp]
theorem alignment_nil_right (as : List Char) : alignment as [] = as.length := by
  cases as with
  | nil => rw [alignment]
  | cons a as => rw [alignment]

theorem alignment_comm (as bs : List Char) : alignment as bs = alignment bs as := by
  fun_induction alignment as bs with
  | case1 bs => rw [alignment_nil_right]
  | case2 a as => rw [alignment_nil_left]
  | case3 a as b bs edited hexchange ihLeft ihAbove ihBoth ihExchange =>
      rw [alignment, if_pos hexchange.symm, ← ihExchange, ← ihBoth, ← ihLeft, ← ihAbove,
        mismatch_comm b a]
      exact congrArg₂ min (congrArg₂ min (min_comm _ _) rfl) rfl
  | case4 a as b bs edited hexchange ihLeft ihAbove ihBoth =>
      rw [alignment, if_neg (mt And.symm hexchange), ← ihBoth, ← ihLeft, ← ihAbove,
        mismatch_comm b a]
      exact congrArg₂ min (min_comm _ _) rfl

/-- Of the ways to align the last characters none costs less than the distance. -/
theorem alignment_le : alignment (a :: as) (b :: bs) ≤ alignment as bs + mismatch a b := by
  rw [alignment]
  split
  · exact (min_le_left _ _).trans (min_le_right _ _)
  · exact min_le_right _ _

/-- Two characters that are alike cost nothing. -/
theorem alignment_cons_le (a : Char) (as bs : List Char) :
    alignment (a :: as) (a :: bs) ≤ alignment as bs := by
  have hle : alignment (a :: as) (a :: bs) ≤ alignment as bs + mismatch a a := alignment_le
  rwa [mismatch_self, Nat.add_zero] at hle

theorem alignment_self (as : List Char) : alignment as as = 0 := by
  induction as with
  | nil => rw [alignment_nil_left, List.length_nil]
  | cons a as ih => exact Nat.le_zero.mp ((alignment_cons_le a as as).trans ih.le)

theorem eq_of_alignment_eq_zero (h : alignment as bs = 0) : as = bs := by
  induction as generalizing bs with
  | nil =>
      rw [alignment_nil_left] at h
      exact (List.length_eq_zero_iff.mp h).symm
  | cons a as ih =>
      cases bs with
      | nil =>
          rw [alignment_nil_right] at h
          cases h
      | cons b bs =>
          -- the other ways to align the last characters cost at least one
          have hboth : alignment as bs + mismatch a b = 0 := by
            rw [alignment] at h
            split at h <;> omega
          obtain ⟨hrest, hlast⟩ := Nat.add_eq_zero_iff.mp hboth
          rw [eq_of_mismatch_eq_zero hlast, ih hrest]

theorem alignment_eq_zero_iff : alignment as bs = 0 ↔ as = bs :=
  ⟨eq_of_alignment_eq_zero, fun h => h ▸ alignment_self as⟩

/-! ## The value of one cell -/

/-- The value of a cell from the four cells that it depends on: those above it, to its left and in
between, and the one that is two rows and two columns back. -/
def cellValue (as bs : List Char) (a b : Char) (above left diagonal : ℕ) (start : ℕ) : ℕ :=
  let edited := min (min (above + 1) (left + 1)) (diagonal + mismatch a b)
  if bs.head? = some a ∧ as.head? = some b then min edited (start + mismatch a b) else edited

/-- The cell of two prefixes has their distance if the cells that it depends on have theirs; the
last of them is of no account where there is nothing to exchange. -/
theorem cellValue_eq {start : ℕ} (hstart : as ≠ [] → bs ≠ [] → start = alignment as.tail bs.tail) :
    cellValue as bs a b (alignment as (b :: bs)) (alignment (a :: as) bs) (alignment as bs) start =
      alignment (a :: as) (b :: bs) := by
  rw [cellValue, alignment]
  split
  · next hexchange =>
      obtain ⟨hb, ha⟩ := hexchange
      obtain ⟨bs, rfl⟩ := List.head?_eq_some_iff.mp hb
      obtain ⟨as, rfl⟩ := List.head?_eq_some_iff.mp ha
      rw [hstart (List.cons_ne_nil _ _) (List.cons_ne_nil _ _), List.tail_cons, List.tail_cons]
      by_cases hab : a = b
      · -- four characters that are alike
        subst hab
        have hle := alignment_cons_le a as bs
        rw [mismatch_self]
        omega
      · rw [mismatch, if_neg hab]
  · rfl

/-! ## Row by row -/

/-- The distances of the prefix `as` to the prefixes that start with `passed` and go on with the
rest of the second text. -/
def row (as passed : List Char) : (rest : List Char) → List ℕ
  | [] => [alignment as passed]
  | b :: rest => alignment as passed :: row as (b :: passed) rest

/-- The row of `as`, from two columns to the left on where there are two. -/
def rowBack (as : List Char) : (passed rest : List Char) → List ℕ
  | [], rest => row as [] rest
  | b :: passed, rest => row as passed (b :: rest)

variable {passed rest : List Char} {twoAbove : List ℕ}

theorem row_eq_cons (as passed rest : List Char) :
    row as passed rest = alignment as passed :: (row as passed rest).tail := by
  cases rest <;> rfl

/-- One column on, the two columns to the left move on too, unless there was but one. -/
theorem rowBack_cons (as passed rest : List Char) (b : Char) :
    (if passed.head?.isSome then (rowBack as passed (b :: rest)).tail
      else rowBack as passed (b :: rest)) = rowBack as (b :: passed) rest := by
  cases passed <;> rfl

/-- The next cell of a row has the distance of its prefixes, if the rows above are right. -/
theorem cells_cons (htwo : ∀ a' as', as = a' :: as' → twoAbove = rowBack as' passed (b :: rest)) :
    cells a as.head? (alignment (a :: as) passed) passed.head? (b :: rest)
        (row as passed (b :: rest)) twoAbove =
      alignment (a :: as) (b :: passed) ::
        cells a as.head? (alignment (a :: as) (b :: passed)) (some b) rest
          (row as (b :: passed) rest)
          (if passed.head?.isSome then twoAbove.tail else twoAbove) := by
  have hcell : cellValue as passed a b (alignment as (b :: passed)) (alignment (a :: as) passed)
      (alignment as passed) (alignment as.tail passed.tail) = alignment (a :: as) (b :: passed) :=
    cellValue_eq fun _ _ => rfl
  rw [row, row_eq_cons as (b :: passed) rest, ← hcell]
  cases as with
  | nil => simp [cells, cellValue, mismatch]
  | cons a' as =>
      cases passed with
      | nil => simp [cells, cellValue, mismatch]
      | cons b' passed =>
          obtain rfl := htwo a' as rfl
          simp [cells, cellValue, mismatch, rowBack, row, eq_comm]

/-- A row comes out right if the two rows above it are right. -/
theorem cells_eq (htwo : ∀ a' as', as = a' :: as' → twoAbove = rowBack as' passed rest) :
    cells a as.head? (alignment (a :: as) passed) passed.head? rest (row as passed rest) twoAbove =
      (row (a :: as) passed rest).tail := by
  induction rest generalizing passed twoAbove with
  | nil => rfl
  | cons b rest ih =>
      have hnext : ∀ a' as', as = a' :: as' →
          (if passed.head?.isSome then twoAbove.tail else twoAbove) =
            rowBack as' (b :: passed) rest := by
        intro a' as' has
        rw [htwo a' as' has, rowBack_cons]
      have hrest := ih hnext
      rw [List.head?_cons] at hrest
      rw [cells_cons htwo, hrest, row, List.tail_cons, ← row_eq_cons]

/-- From right rows the last row comes out right. -/
theorem lastRow_eq (htwo : ∀ a' as', as = a' :: as' → twoAbove = row as' [] rest)
    (more : List Char) :
    lastRow rest as.head? twoAbove (row as [] rest) more = row (more.reverse ++ as) [] rest := by
  induction more generalizing as twoAbove with
  | nil => rfl
  | cons a more ih =>
      have hfirst : (row as [] rest).headD 0 + 1 = alignment (a :: as) [] := by
        rw [row_eq_cons, List.headD_cons, alignment_nil_right, alignment_nil_right,
          List.length_cons]
      have hcells : cells a as.head? (alignment (a :: as) []) none rest (row as [] rest) twoAbove =
          (row (a :: as) [] rest).tail := cells_eq htwo
      have hnext : ∀ a' as', a :: as = a' :: as' → row as [] rest = row as' [] rest := by
        rintro _ _ ⟨⟩
        rfl
      have hrest := ih hnext
      rw [List.head?_cons] at hrest
      rw [lastRow, hfirst, hcells, ← row_eq_cons, hrest, List.reverse_cons, List.append_assoc,
        List.singleton_append]

/-- Before any character of the first text, the distance is the length of the second. -/
theorem row_nil (passed rest : List Char) :
    row [] passed rest = List.range' passed.length (rest.length + 1) := by
  induction rest generalizing passed with
  | nil => rw [row, alignment_nil_left]; rfl
  | cons b rest ih => rw [row, ih, alignment_nil_left]; rfl

theorem getLastD_row (as passed rest : List Char) :
    (row as passed rest).getLastD 0 = alignment as (rest.reverse ++ passed) := by
  induction rest generalizing passed with
  | nil => rfl
  | cons b rest ih =>
      rw [row, List.reverse_cons, List.append_assoc, List.singleton_append, ← ih, row_eq_cons]
      rfl

/-- What the table ends with is the distance. -/
theorem alignmentDistance_eq (as bs : List Char) :
    alignmentDistance as bs = alignment as.reverse bs.reverse := by
  have hfirst : List.range (bs.length + 1) = row [] [] bs := by
    rw [row_nil, List.range_eq_range', List.length_nil]
  have hnone : ∀ a' as', ([] : List Char) = a' :: as' → [] = row as' [] bs := nofun
  have hlast : lastRow bs none [] (row [] [] bs) as = row (as.reverse ++ []) [] bs :=
    lastRow_eq hnone as
  rw [alignmentDistance, hfirst, hlast, getLastD_row, List.append_nil, List.append_nil]

/-- Nothing is edited twice: the two neighbours cannot be exchanged with a third put in between. -/
example : alignmentDistance ['c', 'a'] ['a', 'b', 'c'] = 3 := rfl

end

/-! ## In a table -/

/-- The distances of prefixes, row by row. -/
abbrev Table := List (List ℕ)

/-- An index some places back, if there are so many. -/
def back? (i places : ℕ) : Option ℕ := if places ≤ i then some (i - places) else none

/-- The cell of a row and a column, if the table has it. -/
def Table.cell? (table : Table) (i j : ℕ) : Option ℕ := do (← table[i]?)[j]?

/-- The table with another value in a cell, if it has that cell. -/
def Table.put? (table : Table) (i j value : ℕ) : Option Table := do
  let cells ← table[i]?
  if j < cells.length then return table.set i (cells.set j value) else none

/-- The value of a cell, from the characters that its prefixes end with and the cells before it. -/
def nextCell? (as bs : List Char) (table : Table) (i j : ℕ) : Option ℕ := do
  let a ← as[← back? i 1]?
  let b ← bs[← back? j 1]?
  let above ← table.cell? (← back? i 1) j
  let left ← table.cell? i (← back? j 1)
  let diagonal ← table.cell? (← back? i 1) (← back? j 1)
  let edited := min (min (above + 1) (left + 1)) (diagonal + mismatch a b)
  if 1 < i ∧ 1 < j then
    let a' ← as[← back? i 2]?
    let b' ← bs[← back? j 2]?
    if a = b' ∧ a' = b then
      return min edited ((← table.cell? (← back? i 2) (← back? j 2)) + mismatch a b)
  return edited

/-- The table of two texts. -/
def fillTable? (as bs : List Char) : Option Table := do
  let blank : Table := List.replicate (as.length + 1) (List.replicate (bs.length + 1) 0)
  let column ← (List.range' 0 (as.length + 1)).foldlM (fun table i => Table.put? table i 0 i) blank
  let edges ← (List.range' 0 (bs.length + 1)).foldlM (fun table j => Table.put? table 0 j j) column
  (List.range' 1 as.length).foldlM (fun table i =>
    (List.range' 1 bs.length).foldlM (fun table j => do
      Table.put? table i j (← nextCell? as bs table i j)) table) edges

section

variable {table : Table} {as bs : List Char} {i j : ℕ}

/-- What a cell should have: the distance of the prefixes of its row and its column. -/
def prefixDistance (as bs : List Char) (i j : ℕ) : ℕ :=
  alignment (as.take i).reverse (bs.take j).reverse

/-- The table has its size, and some cells have their value. -/
structure Filled (as bs : List Char) (done : ℕ → ℕ → Prop) (table : Table) : Prop where
  rows : table.length = as.length + 1
  columns : ∀ cells ∈ table, cells.length = bs.length + 1
  cells : ∀ i j, i ≤ as.length → j ≤ bs.length → done i j →
    table.cell? i j = some (prefixDistance as bs i j)

variable {done more : ℕ → ℕ → Prop}

theorem Filled.mono (h : Filled as bs done table)
    (hmore : ∀ i j, i ≤ as.length → j ≤ bs.length → more i j → done i j) :
    Filled as bs more table where
  rows := h.rows
  columns := h.columns
  cells i j hi hj hij := h.cells i j hi hj (hmore i j hi hj hij)

theorem Filled.put (h : Filled as bs done table) (hi : i ≤ as.length) (hj : j ≤ bs.length) :
    ∃ table', table.put? i j (prefixDistance as bs i j) = some table' ∧
      Filled as bs (fun p q => done p q ∨ p = i ∧ q = j) table' := by
  have hrow : i < table.length := by rw [h.rows]; omega
  have hcolumn : j < table[i].length := by rw [h.columns _ (List.getElem_mem hrow)]; omega
  refine ⟨table.set i (table[i].set j (prefixDistance as bs i j)), ?_, ?_, ?_, ?_⟩
  · simp [Table.put?, hrow, hcolumn]
  · rw [List.length_set, h.rows]
  · intro cells hcells
    rcases List.mem_or_eq_of_mem_set hcells with hold | rfl
    · exact h.columns cells hold
    · rw [List.length_set, h.columns _ (List.getElem_mem hrow)]
  · intro p q hp hq hpq
    by_cases hsame : p = i ∧ q = j
    · obtain ⟨rfl, rfl⟩ := hsame
      simp [Table.cell?, hrow, hcolumn]
    · have hold := h.cells p q hp hq (hpq.resolve_right hsame)
      by_cases hpi : p = i
      · subst hpi
        have hne : j ≠ q := fun heq => hsame ⟨rfl, heq.symm⟩
        simpa [Table.cell?, hrow, hne] using hold
      · simpa [Table.cell?, Ne.symm hpi] using hold

/-! ### The next cell -/

theorem back?_add (i places : ℕ) : back? (i + places) places = some i := by
  rw [back?, if_pos (Nat.le_add_left _ _), Nat.add_sub_cancel]

theorem reverse_take_succ {n : ℕ} (h : n < as.length) :
    (as.take (n + 1)).reverse = as[n] :: (as.take n).reverse := by
  rw [List.take_add_one, List.getElem?_eq_getElem h, List.reverse_append]
  rfl

theorem prefixDistance_succ (hi : i < as.length) (hj : j < bs.length) :
    prefixDistance as bs (i + 1) (j + 1) =
      cellValue (as.take i).reverse (bs.take j).reverse as[i] bs[j] (prefixDistance as bs i (j + 1))
        (prefixDistance as bs (i + 1) j) (prefixDistance as bs i j)
        (alignment (as.take i).reverse.tail (bs.take j).reverse.tail) := by
  simp only [prefixDistance, reverse_take_succ hi, reverse_take_succ hj]
  exact (cellValue_eq fun _ _ => rfl).symm

/-- No access leaves the table or the texts, and the value is right, if the cells before are. -/
theorem nextCell?_eq (h : Filled as bs done table) (hi : i < as.length) (hj : j < bs.length)
    (habove : done i (j + 1)) (hleft : done (i + 1) j) (hdiagonal : done i j)
    (hstart : ∀ p q, i = p + 1 → j = q + 1 → done p q) :
    nextCell? as bs table (i + 1) (j + 1) = some (prefixDistance as bs (i + 1) (j + 1)) := by
  rw [prefixDistance_succ hi hj]
  simp only [nextCell?, back?_add, Option.bind_eq_bind, Option.bind_some,
    List.getElem?_eq_getElem hi, List.getElem?_eq_getElem hj, h.cells i (j + 1) hi.le hj habove,
    h.cells (i + 1) j hi hj.le hleft, h.cells i j hi.le hj.le hdiagonal]
  cases i with
  | zero => simp [cellValue]
  | succ p =>
      cases j with
      | zero => simp [cellValue]
      | succ q =>
          have hp : p < as.length := Nat.lt_of_succ_lt hi
          have hq : q < bs.length := Nat.lt_of_succ_lt hj
          have hcell := h.cells p q hp.le hq.le (hstart p q rfl rfl)
          have hback (n : ℕ) : back? (n + 1 + 1) 2 = some n := back?_add n 2
          simp only [hback, Option.bind_some, List.getElem?_eq_getElem hp,
            List.getElem?_eq_getElem hq, hcell, reverse_take_succ hp, reverse_take_succ hq,
            List.head?_cons, List.tail_cons, cellValue, Option.some.injEq]
          rw [if_pos ⟨by omega, by omega⟩]
          by_cases hexchange : as[p + 1] = bs[q] ∧ as[p] = bs[q + 1]
          · rw [if_pos hexchange, if_pos ⟨hexchange.1.symm, hexchange.2⟩]
            rfl
          · rw [if_neg hexchange, if_neg fun h => hexchange ⟨h.1.symm, h.2⟩]
            rfl

/-! ### Filling the table -/

/-- What holds all along a row of numbers, if each step goes on from it. -/
theorem exists_foldlM {σ : Type} {f : σ → ℕ → Option σ} (P : ℕ → σ → Prop) {start count : ℕ} {s : σ}
    (hs : P start s)
    (hstep : ∀ k t, start ≤ k → k < start + count → P k t → ∃ t', f t k = some t' ∧ P (k + 1) t') :
    ∃ t, (List.range' start count).foldlM f s = some t ∧ P (start + count) t := by
  induction count generalizing start s with
  | zero => exact ⟨s, rfl, hs⟩
  | succ count ih =>
      obtain ⟨t, ht, hPt⟩ := hstep start s le_rfl (by omega) hs
      obtain ⟨u, hu, hPu⟩ := ih hPt fun k v hk hlt => hstep k v (by omega) (by omega)
      refine ⟨u, ?_, by rwa [Nat.add_right_comm] at hPu⟩
      rw [List.range'_succ, List.foldlM_cons, ht]
      exact hu

theorem filled_blank (as bs : List Char) : Filled as bs (fun _ _ => False)
    (List.replicate (as.length + 1) (List.replicate (bs.length + 1) 0)) where
  rows := List.length_replicate
  columns cells hcells := by rw [List.eq_of_mem_replicate hcells, List.length_replicate]
  cells _ _ _ _ hdone := hdone.elim

theorem prefixDistance_zero_right (hi : i ≤ as.length) : prefixDistance as bs i 0 = i := by
  simp [prefixDistance, hi]

theorem prefixDistance_zero_left (hj : j ≤ bs.length) : prefixDistance as bs 0 j = j := by
  simp [prefixDistance, hj]

/-- A row is filled from left to right: the cells that the next one depends on are above it, or were
just filled. -/
theorem exists_fillRow (hi : i < as.length)
    (h : Filled as bs (fun p q => q = 0 ∨ p < i + 1) table) :
    ∃ table', (List.range' 1 bs.length).foldlM (fun table j => do
        Table.put? table (i + 1) j (← nextCell? as bs table (i + 1) j)) table = some table' ∧
      Filled as bs (fun p q => q = 0 ∨ p < i + 2) table' := by
  have hstep (k : ℕ) (t : Table) (hk : 1 ≤ k) (hlt : k < 1 + bs.length)
      (ht : Filled as bs (fun p q => q = 0 ∨ p < i + 1 ∨ p = i + 1 ∧ q < k) t) :
      ∃ t', (do Table.put? t (i + 1) k (← nextCell? as bs t (i + 1) k)) = some t' ∧
        Filled as bs (fun p q => q = 0 ∨ p < i + 1 ∨ p = i + 1 ∧ q < k + 1) t' := by
    obtain ⟨j, rfl⟩ : ∃ j, k = j + 1 := ⟨k - 1, by omega⟩
    have hnext := nextCell?_eq ht hi (by omega : j < bs.length) (by omega) (by omega) (by omega)
      fun p q _ _ => by omega
    obtain ⟨t', hput, ht'⟩ := ht.put (i := i + 1) (j := j + 1) hi (by omega)
    refine ⟨t', ?_, ht'.mono fun p q _ _ => by omega⟩
    simp only [hnext, Option.bind_eq_bind, Option.bind_some]
    exact hput
  obtain ⟨table', hfold, htable'⟩ := exists_foldlM _ (h.mono fun p q _ _ => by omega) hstep
  exact ⟨table', hfold, htable'.mono fun p q _ _ => by omega⟩

/-- The first column, before anything else is filled. -/
theorem exists_fillColumn (h : Filled as bs (fun _ _ => False) table) :
    ∃ table', (List.range' 0 (as.length + 1)).foldlM (fun table i => Table.put? table i 0 i) table =
        some table' ∧ Filled as bs (fun _ q => q = 0) table' := by
  have hstep (i : ℕ) (t : Table) (_ : 0 ≤ i) (hi : i < 0 + (as.length + 1))
      (ht : Filled as bs (fun p q => q = 0 ∧ p < i) t) :
      ∃ t', Table.put? t i 0 i = some t' ∧ Filled as bs (fun p q => q = 0 ∧ p < i + 1) t' := by
    obtain ⟨t', hput, ht'⟩ := ht.put (i := i) (j := 0) (by omega) (Nat.zero_le _)
    rw [prefixDistance_zero_right (by omega)] at hput
    exact ⟨t', hput, ht'.mono fun p q _ _ => by omega⟩
  obtain ⟨table', hfold, htable'⟩ := exists_foldlM _ (h.mono fun p q _ _ => by omega) hstep
  exact ⟨table', hfold, htable'.mono fun p q _ _ => by omega⟩

/-- The first row, after the first column. -/
theorem exists_fillFirstRow (h : Filled as bs (fun _ q => q = 0) table) :
    ∃ table', (List.range' 0 (bs.length + 1)).foldlM (fun table j => Table.put? table 0 j j) table =
        some table' ∧ Filled as bs (fun p q => q = 0 ∨ p < 1) table' := by
  have hstep (j : ℕ) (t : Table) (_ : 0 ≤ j) (hj : j < 0 + (bs.length + 1))
      (ht : Filled as bs (fun p q => q = 0 ∨ p = 0 ∧ q < j) t) :
      ∃ t', Table.put? t 0 j j = some t' ∧
        Filled as bs (fun p q => q = 0 ∨ p = 0 ∧ q < j + 1) t' := by
    obtain ⟨t', hput, ht'⟩ := ht.put (i := 0) (j := j) (Nat.zero_le _) (by omega)
    rw [prefixDistance_zero_left (by omega)] at hput
    exact ⟨t', hput, ht'.mono fun p q _ _ => by omega⟩
  obtain ⟨table', hfold, htable'⟩ := exists_foldlM _ (h.mono fun p q _ _ => by omega) hstep
  exact ⟨table', hfold, htable'.mono fun p q _ _ => by omega⟩

/-- No access leaves the table while it is filled, and in the end all of its cells are right. -/
theorem exists_fillTable (as bs : List Char) : ∃ table, fillTable? as bs = some table ∧
    Filled as bs (fun _ _ => True) table := by
  obtain ⟨column, hcolumn, hfilled⟩ := exists_fillColumn (filled_blank as bs)
  obtain ⟨edges, hedges, hfilled⟩ := exists_fillFirstRow hfilled
  have hstep (k : ℕ) (t : Table) (hk : 1 ≤ k) (hlt : k < 1 + as.length)
      (ht : Filled as bs (fun p q => q = 0 ∨ p < k) t) :
      ∃ t', (List.range' 1 bs.length).foldlM (fun table j => do
          Table.put? table k j (← nextCell? as bs table k j)) t = some t' ∧
        Filled as bs (fun p q => q = 0 ∨ p < k + 1) t' := by
    obtain ⟨i, rfl⟩ : ∃ i, k = i + 1 := ⟨k - 1, by omega⟩
    exact exists_fillRow (by omega) ht
  obtain ⟨table, htable, hfilled⟩ := exists_foldlM _ hfilled hstep
  refine ⟨table, ?_, hfilled.mono fun p q _ _ _ => by omega⟩
  simp only [fillTable?, hcolumn, hedges, Option.bind_eq_bind, Option.bind_some]
  exact htable

end

variable {name a b : String} {options : List String}

/-! ## The distance of two names -/

theorem distance_eq (a b : String) : distance a b =
    if a = b then 0
    else if lowerCaseText a.toList = lowerCaseText b.toList then 1
    else alignment (lowerCaseText a.toList).reverse (lowerCaseText b.toList).reverse := by
  simp only [distance, alignmentDistance_eq]

theorem distance_comm (a b : String) : distance a b = distance b a := by
  rw [distance_eq, distance_eq, alignment_comm]
  simp only [eq_comm]

theorem distance_eq_zero_iff : distance a b = 0 ↔ a = b := by
  rw [distance_eq]
  split
  · next h => exact iff_of_true rfl h
  · next h =>
      refine iff_of_false ?_ h
      split
      · exact Nat.one_ne_zero
      · next hlower =>
          intro hzero
          exact hlower (List.reverse_injective (alignment_eq_zero_iff.mp hzero))

/-! ## The options within the threshold -/

/-- An option is close enough to a name if half of the longer of them can be spelt otherwise, or one
character of it. -/
def Within (name option : String) : Prop :=
  (distance name option : ℚ) ≤ max (max ((name.length : ℚ) / 2) ((option.length : ℚ) / 2)) 1

instance (name option : String) : Decidable (Within name option) :=
  inferInstanceAs (Decidable (_ ≤ (_ : ℚ)))

theorem isClose_iff : isClose name a (distance name a) = true ↔ Within name a := by
  have half (d n : ℕ) : 2 * d ≤ n ↔ (d : ℚ) ≤ (n : ℚ) / 2 := by
    rw [le_div_iff₀ two_pos, mul_comm]
    exact_mod_cast Iff.rfl
  have hone := half (distance name a) 2
  rw [Nat.cast_ofNat, div_self two_ne_zero] at hone
  rw [isClose, decide_eq_true_iff, Within]
  simp only [le_max_iff]
  rw [half, half, hone]

/-! ## Sorting -/

section

variable {α : Type}

/-- Which of two entries may stand in front of the other. -/
def byFirst (x y : ℕ × α) : Bool := x.1 ≤ y.1

theorem byFirst_trans (x y z : ℕ × α) (hxy : byFirst x y) (hyz : byFirst y z) : byFirst x z :=
  decide_eq_true ((of_decide_eq_true hxy).trans (of_decide_eq_true hyz))

theorem byFirst_total (x y : ℕ × α) : byFirst x y || byFirst y x := by
  simpa [byFirst] using le_total x.1 y.1

/-- Sorting by a number puts no entry in front of one with a smaller number. -/
theorem pairwise_mergeSort_byFirst (entries : List (ℕ × α)) :
    (entries.mergeSort byFirst).Pairwise fun x y => x.1 ≤ y.1 :=
  (List.pairwise_mergeSort byFirst_trans byFirst_total entries).imp of_decide_eq_true

/-- Sorting by a number keeps the order of the entries that have the same number. -/
theorem filter_mergeSort_byFirst (entries : List (ℕ × α)) (d : ℕ) :
    (entries.mergeSort byFirst).filter (·.1 = d) = entries.filter (·.1 = d) := by
  have hsame : (entries.filter (·.1 = d)).Pairwise fun x y => byFirst x y = true := by
    refine List.pairwise_of_forall_mem_list fun x hx y hy => decide_eq_true (le_of_eq ?_)
    rw [of_decide_eq_true (List.mem_filter.mp hx).2, of_decide_eq_true (List.mem_filter.mp hy).2]
  have hkept : (entries.filter (·.1 = d)).Sublist (entries.mergeSort byFirst) :=
    List.sublist_mergeSort byFirst_trans byFirst_total hsame List.filter_sublist
  -- They stand in the sorted list in their order, and no others have the number.
  have hsub := hkept.filter (·.1 = d)
  rw [List.filter_filter] at hsub
  simp only [Bool.and_self] at hsub
  exact (hsub.eq_of_length ((List.mergeSort_perm ..).filter _).length_eq.symm).symm

end

/-! ## What is suggested -/

/-- The options that are close to a name, with their distances, in their order. -/
def near (name : String) (options : List String) : List (ℕ × String) :=
  (options.filter fun option => Within name option).map fun option => (distance name option, option)

theorem close_eq (name : String) (options : List String) :
    close name options = ((near name options).mergeSort byFirst).map (·.2) := by
  have hnear : (options.map fun option => (distance name option, option)).filter
      (fun entry => isClose name entry.2 entry.1) = near name options := by
    rw [near, List.filter_map]
    refine congrArg _ (List.filter_congr fun option _ => ?_)
    rw [Bool.eq_iff_iff, decide_eq_true_iff]
    exact isClose_iff
  rw [← hnear]
  rfl

theorem fst_of_mem_near {entry : ℕ × String} (h : entry ∈ near name options) :
    entry.1 = distance name entry.2 := by
  obtain ⟨option, -, rfl⟩ := List.mem_map.mp h
  rfl

theorem map_snd_near (name : String) (options : List String) :
    (near name options).map (·.2) = options.filter fun option => Within name option := by
  rw [near, List.map_map]
  exact List.map_id _

theorem close_perm (name : String) (options : List String) :
    (close name options).Perm (options.filter fun option => Within name option) := by
  rw [close_eq, ← map_snd_near]
  exact (List.mergeSort_perm _ _).map _

theorem pairwise_close (name : String) (options : List String) :
    (close name options).Pairwise fun x y => distance name x ≤ distance name y := by
  rw [close_eq, List.pairwise_map]
  refine (pairwise_mergeSort_byFirst _).imp_of_mem fun {x y} hx hy hle => ?_
  rwa [fst_of_mem_near ((List.mergeSort_perm _ _).subset hx),
    fst_of_mem_near ((List.mergeSort_perm _ _).subset hy)] at hle

theorem filter_close (name : String) (options : List String) (d : ℕ) :
    (close name options).filter (distance name · = d) =
      options.filter fun option => Within name option ∧ distance name option = d := by
  have hfirst (entries : List (ℕ × String)) (h : ∀ entry ∈ entries, entry ∈ near name options) :
      (entries.map (·.2)).filter (distance name · = d) = (entries.filter (·.1 = d)).map (·.2) := by
    rw [List.filter_map]
    refine congrArg _ (List.filter_congr fun entry hentry => ?_)
    rw [fst_of_mem_near (h entry hentry)]
    rfl
  rw [close_eq, hfirst _ fun _ h => (List.mergeSort_perm _ _).subset h, filter_mergeSort_byFirst,
    ← hfirst _ fun _ => id, map_snd_near, List.filter_filter]
  refine List.filter_congr fun option _ => ?_
  rw [Bool.and_comm, Bool.decide_and]

/-- The distance of two names is that of their lower-case forms, from a table that no access leaves;
and what is suggested for a name are the options within the threshold, in the order of their
distances and, among those with one distance, in their own. -/
theorem closest_by_alignment (a b name : String) (as bs : List Char) (options : List String) :
    (distance a b = distance b a ∧ (distance a b = 0 ↔ a = b) ∧
      distance a b =
        if a = b then 0
        else if lowerCaseText a.toList = lowerCaseText b.toList then 1
        else alignment (lowerCaseText a.toList).reverse (lowerCaseText b.toList).reverse) ∧
    (∃ table, fillTable? as bs = some table ∧ Filled as bs (fun _ _ => True) table ∧
      table.cell? as.length bs.length = some (alignmentDistance as bs)) ∧
    (close name options).Perm (options.filter fun option => Within name option) ∧
    (close name options).Pairwise (fun x y => distance name x ≤ distance name y) ∧
    ∀ d, (close name options).filter (distance name · = d) =
      options.filter fun option => Within name option ∧ distance name option = d := by
  obtain ⟨table, htable, hfilled⟩ := exists_fillTable as bs
  have hlast : table.cell? as.length bs.length = some (alignmentDistance as bs) := by
    rw [hfilled.cells _ _ le_rfl le_rfl trivial, prefixDistance, List.take_length,
      List.take_length, alignmentDistance_eq]
  exact ⟨⟨distance_comm a b, distance_eq_zero_iff, distance_eq a b⟩,
    ⟨table, htable, hfilled, hlast⟩,
    close_perm name options, pairwise_close name options, filter_close name options⟩

end GraphQL.Suggestion
