import Mathlib
import GraphQL.Json.Basic

/-!
# Rows by key

Both the validator and the executor sort fields into rows, one for each response key.
`Assoc.rows` is what they do; `mem_rows_iff` says what comes of it: the row of a key holds
the items of that key in their order, and no key has two rows.
-/

namespace GraphQL.Assoc

variable {α : Type}

/-! ## Keys -/

theorem get?_cons (entry : String × α) (entries : List (String × α)) (key : String) :
    get? (entry :: entries) key = if entry.1 = key then some entry.2 else get? entries key := by
  by_cases h : entry.1 = key <;> simp [get?, h]

theorem get?_append (entries more : List (String × α)) (key : String) :
    get? (entries ++ more) key = (get? entries key).or (get? more key) := by
  simp [get?, List.find?_append, Option.map_or]

theorem mem_of_get? {entries : List (String × α)} {key : String} {value : α}
    (h : get? entries key = some value) : (key, value) ∈ entries := by
  obtain ⟨entry, hfind, rfl⟩ := Option.map_eq_some_iff.mp h
  have hkey : entry.1 = key := by simpa using List.find?_some hfind
  exact hkey ▸ List.mem_of_find?_eq_some hfind

theorem get?_of_mem {entries : List (String × α)} (hnodup : (entries.map (·.1)).Nodup)
    {key : String} {value : α} (h : (key, value) ∈ entries) :
    get? entries key = some value := by
  induction entries with
  | nil => simp at h
  | cons entry rest ih =>
      rw [List.map_cons, List.nodup_cons] at hnodup
      rw [get?_cons]
      rcases List.mem_cons.mp h with rfl | h
      · rw [if_pos rfl]
      · rw [if_neg, ih hnodup.2 h]
        intro hkey
        exact hnodup.1 (hkey ▸ List.mem_map_of_mem (f := (·.1)) h)

theorem get?_isSome_iff {entries : List (String × α)} {key : String} :
    (get? entries key).isSome ↔ key ∈ entries.map (·.1) := by
  constructor
  · intro h
    obtain ⟨value, hvalue⟩ := Option.isSome_iff_exists.mp h
    exact List.mem_map_of_mem (mem_of_get? hvalue)
  · intro h
    induction entries with
    | nil => simp at h
    | cons entry rest ih =>
        rw [get?_cons]
        split
        · rfl
        · rename_i hne
          rcases List.mem_cons.mp h with rfl | h
          · exact absurd rfl hne
          · exact ih h

theorem get?_map {β : Type} (f : α → β) (entries : List (String × α)) (key : String) :
    get? (entries.map fun entry => (entry.1, f entry.2)) key = (get? entries key).map f := by
  induction entries with
  | nil => rfl
  | cons entry entries ih =>
      rw [List.map_cons, get?_cons, get?_cons, ih]
      split <;> rfl

theorem insert_of_notMem {entries : List (String × α)} {key : String}
    (h : key ∉ entries.map (·.1)) (value : α) : insert entries key value = entries ++ [(key, value)] := by
  induction entries with
  | nil => rfl
  | cons entry rest ih =>
      obtain ⟨hne, hrest⟩ := not_or.mp (List.mem_cons.not.mp h)
      rw [insert, if_neg (Ne.symm hne), ih hrest, List.cons_append]

/-- Nothing is lost when no key is used twice. -/
theorem ofList_of_nodup {entries : List (String × α)} (hnodup : (entries.map (·.1)).Nodup) :
    ofList entries = entries := by
  induction entries using List.reverseRecOn with
  | nil => rfl
  | append_singleton entries last ih =>
      rw [List.map_append, List.map_singleton, List.nodup_append] at hnodup
      obtain ⟨hnodup, -, hdisjoint⟩ := hnodup
      rw [ofList, List.foldl_append, ← ofList, ih hnodup]
      exact insert_of_notMem (fun hmem => hdisjoint _ hmem _ (List.mem_singleton_self _) rfl) _

theorem mem_insert {entries : List (String × α)} {key : String} {value : α}
    {entry : String × α} (h : entry ∈ insert entries key value) :
    entry = (key, value) ∨ entry ∈ entries := by
  induction entries with
  | nil => exact Or.inl (List.mem_singleton.mp h)
  | cons first rest ih =>
      obtain ⟨k, v⟩ := first
      rw [insert] at h
      split at h
      · rename_i hk
        rcases List.mem_cons.mp h with rfl | h
        · exact Or.inl (hk ▸ rfl)
        · exact Or.inr (List.mem_cons_of_mem _ h)
      · rcases List.mem_cons.mp h with rfl | h
        · exact Or.inr List.mem_cons_self
        · exact (ih h).imp_right (List.mem_cons_of_mem _)

theorem ofList_subset (entries : List (String × α)) : ofList entries ⊆ entries := by
  induction entries using List.reverseRecOn with
  | nil => exact List.Subset.refl _
  | append_singleton entries last ih =>
      rw [ofList, List.foldl_append, ← ofList]
      intro entry hentry
      rcases mem_insert hentry with rfl | hentry
      · exact List.mem_append_right _ (List.mem_singleton_self _)
      · exact List.mem_append_left _ (ih hentry)

/-- An entry under a key that is not used again is found. -/
theorem get?_ofList_of_mem {entries : List (String × α)} (hnodup : (entries.map (·.1)).Nodup)
    {key : String} {value : α} (h : (key, value) ∈ entries) :
    get? (ofList entries) key = some value := by
  induction entries using List.reverseRecOn with
  | nil => cases h
  | append_singleton entries last ih =>
      rw [List.map_append, List.map_singleton, List.nodup_append] at hnodup
      obtain ⟨hnodup, -, hdisjoint⟩ := hnodup
      rw [ofList, List.foldl_append, ← ofList]
      rcases List.mem_append.mp h with h | h
      · have hne := hdisjoint key (List.mem_map_of_mem (f := (·.1)) h) last.1
          (List.mem_singleton_self _)
        exact (get?_insert_of_ne _ _ hne).trans (ih hnodup h)
      · obtain rfl := List.mem_singleton.mp h
        exact get?_insert_self _ _ _

/-- Keys that are left when entries are dropped or changed under their keys. -/
theorem keys_filterMap_sublist {β : Type} {entries : List (String × α)}
    {f : String × α → Option (String × β)}
    (hf : ∀ entry found, f entry = some found → found.1 = entry.1) :
    ((entries.filterMap f).map (·.1)).Sublist (entries.map (·.1)) := by
  induction entries with
  | nil => exact .slnil
  | cons entry rest ih =>
      rw [List.filterMap_cons]
      split
      · exact ih.cons _
      · rename_i found hfound
        rw [List.map_cons, List.map_cons, hf entry found hfound]
        exact ih.cons_cons _

/-! ## Rows -/

/-- The items in rows, each under its key, in the order of the first use of each key. -/
def rows (key : α → String) (items : List α) : List (String × List α) :=
  items.foldl (fun rows item => push rows (key item) item) []

theorem get?_push (entries : List (String × List α)) (key : String) (value : α)
    (other : String) :
    get? (push entries key value) other =
      if key = other then some ((get? entries other).getD [] ++ [value])
      else get? entries other := by
  induction entries with
  | nil => rw [push, get?_cons]; simp [get?]
  | cons entry rest ih =>
      obtain ⟨k, values⟩ := entry
      rw [push, get?_cons]
      by_cases hk : k = key
      · subst hk
        by_cases ho : k = other
        · simp [get?_cons, ho]
        · simp [get?_cons, ho]
      · rw [if_neg hk, get?_cons, ih]
        by_cases ho : k = other
        · subst ho
          simp [Ne.symm hk]
        · simp [ho]

theorem mem_push {entries : List (String × List α)} {key other : String} {value item : α}
    {row : List α} (h : (other, row) ∈ push entries key value) (hitem : item ∈ row) :
    other = key ∧ item = value ∨ ∃ before, (other, before) ∈ entries ∧ item ∈ before := by
  induction entries with
  | nil =>
      obtain ⟨rfl, rfl⟩ : other = key ∧ row = [value] := by simpa [push] using h
      exact Or.inl ⟨rfl, List.mem_singleton.mp hitem⟩
  | cons entry rest ih =>
      obtain ⟨k, values⟩ := entry
      rw [push] at h
      split at h
      · rename_i hk
        rcases List.mem_cons.mp h with heq | h
        · obtain ⟨rfl, rfl⟩ := Prod.mk.inj heq
          rcases List.mem_append.mp hitem with hitem | hitem
          · exact Or.inr ⟨values, List.mem_cons_self, hitem⟩
          · exact Or.inl ⟨hk, List.mem_singleton.mp hitem⟩
        · exact Or.inr ⟨row, List.mem_cons_of_mem _ h, hitem⟩
      · rcases List.mem_cons.mp h with heq | h
        · obtain ⟨rfl, rfl⟩ := Prod.mk.inj heq
          exact Or.inr ⟨row, List.mem_cons_self, hitem⟩
        · refine (ih h).imp_right ?_
          rintro ⟨before, hmem, hitem⟩
          exact ⟨before, List.mem_cons_of_mem _ hmem, hitem⟩

theorem keys_push (entries : List (String × List α)) (key : String) (value : α) :
    (push entries key value).map (·.1) =
      if key ∈ entries.map (·.1) then entries.map (·.1) else entries.map (·.1) ++ [key] := by
  induction entries with
  | nil => simp [push]
  | cons entry rest ih =>
      obtain ⟨k, values⟩ := entry
      by_cases hk : k = key
      · simp [push, hk]
      · by_cases hmem : key ∈ rest.map (·.1)
        · simp only [push, hk, if_false, List.map_cons, ih, hmem, if_true, List.mem_cons,
            or_true]
        · simp only [push, hk, if_false, List.map_cons, ih, hmem, List.mem_cons, or_false,
            Ne.symm hk, List.cons_append]

theorem nodup_keys_push {entries : List (String × List α)} (h : (entries.map (·.1)).Nodup)
    (key : String) (value : α) : ((push entries key value).map (·.1)).Nodup := by
  rw [keys_push]
  split
  · exact h
  · rename_i hnew
    exact h.append (List.nodup_singleton key) (by simpa using hnew)

/-- No key has two rows. -/
theorem nodup_keys_rows (key : α → String) (items : List α) :
    ((rows key items).map (·.1)).Nodup := by
  induction items using List.reverseRecOn with
  | nil => simp [rows]
  | append_singleton items item ih =>
      rw [rows, List.foldl_append]
      exact nodup_keys_push ih _ _

theorem get?_rows (key : α → String) (items : List α) (k : String) :
    get? (rows key items) k =
      if items.filter (key · = k) = [] then none else some (items.filter (key · = k)) := by
  induction items using List.reverseRecOn with
  | nil => simp [rows, get?]
  | append_singleton items item ih =>
      rw [rows, List.foldl_append, List.foldl_cons, List.foldl_nil, get?_push, ← rows, ih,
        List.filter_append]
      by_cases hk : key item = k
      · by_cases hnil : items.filter (key · = k) = []
        · simp [hk, hnil]
        · simp [hk, hnil]
      · simp [hk]

/-- The row of a key holds the items of that key. -/
theorem mem_rows_iff {key : α → String} {items : List α} {k : String} {row : List α} :
    (k, row) ∈ rows key items ↔ row = items.filter (key · = k) ∧ row ≠ [] := by
  constructor
  · intro h
    have hget := get?_of_mem (nodup_keys_rows key items) h
    rw [get?_rows] at hget
    split at hget
    · simp at hget
    · rename_i hne
      cases hget
      exact ⟨rfl, hne⟩
  · rintro ⟨rfl, hne⟩
    apply mem_of_get?
    rw [get?_rows, if_neg hne]

/-- An item is in the row of its key. -/
theorem exists_row_of_mem (key : α → String) {items : List α} {item : α} (h : item ∈ items) :
    ∃ row, (key item, row) ∈ rows key items ∧ item ∈ row := by
  have hmem : item ∈ items.filter (key · = key item) := List.mem_filter.mpr ⟨h, by simp⟩
  exact ⟨_, mem_rows_iff.mpr ⟨rfl, List.ne_nil_of_mem hmem⟩, hmem⟩

/-! ## Values that are changed -/

section

variable {β : Type}

theorem insert_map (f : α → β) (entries : List (String × α)) (key : String) (value : α) :
    insert (entries.map fun entry => (entry.1, f entry.2)) key (f value) =
      (insert entries key value).map fun entry => (entry.1, f entry.2) := by
  induction entries with
  | nil => rfl
  | cons entry rest ih =>
      obtain ⟨k, v⟩ := entry
      simp only [List.map_cons, insert]
      split
      · rfl
      · rw [ih, List.map_cons]

theorem ofList_concat (entries : List (String × α)) (last : String × α) :
    ofList (entries ++ [last]) = insert (ofList entries) last.1 last.2 := by
  rw [ofList, List.foldl_append]
  rfl

theorem ofList_map (f : α → β) (entries : List (String × α)) :
    ofList (entries.map fun entry => (entry.1, f entry.2)) =
      (ofList entries).map fun entry => (entry.1, f entry.2) := by
  induction entries using List.reverseRecOn with
  | nil => rfl
  | append_singleton entries last ih =>
      rw [List.map_append, List.map_singleton, ofList_concat, ih, insert_map, ofList_concat]

/-- Rows that are changed, when a value makes a difference of one in its row. -/
theorem map_push (f : List α → List β) {entries : List (String × List α)} {key : String}
    {value : α} {value' : β} (hnil : f [value] = [value'])
    (h : ∀ row, (key, row) ∈ entries → f (row ++ [value]) = f row ++ [value']) :
    (push entries key value).map (fun entry => (entry.1, f entry.2)) =
      push (entries.map fun entry => (entry.1, f entry.2)) key value' := by
  induction entries with
  | nil => simp [push, hnil]
  | cons entry rest ih =>
      obtain ⟨k, values⟩ := entry
      simp only [push, List.map_cons]
      split
      · next hk => rw [List.map_cons, h values (by rw [← hk]; exact List.mem_cons_self)]
      · rw [List.map_cons, ih fun row hrow => h row (List.mem_cons_of_mem _ hrow)]

theorem push_map (f : α → β) (entries : List (String × List α)) (key : String) (value : α) :
    push (entries.map fun entry => (entry.1, entry.2.map f)) key (f value) =
      (push entries key value).map fun entry => (entry.1, entry.2.map f) :=
  (map_push (List.map f) rfl fun _ _ => List.map_append).symm

/-- A value that makes no difference in the row of its key makes none. -/
theorem map_push_of_eq (f : List α → List β) {entries : List (String × List α)} {key : String}
    {value : α} {row : List α} (hget : get? entries key = some row)
    (h : f (row ++ [value]) = f row) :
    (push entries key value).map (fun entry => (entry.1, f entry.2)) =
      entries.map fun entry => (entry.1, f entry.2) := by
  induction entries with
  | nil => cases hget
  | cons entry rest ih =>
      obtain ⟨k, values⟩ := entry
      rw [get?_cons] at hget
      simp only [push, List.map_cons]
      split
      · next hk =>
        obtain rfl := Option.some.inj ((if_pos hk).symm.trans hget)
        rw [List.map_cons, h]
      · next hk => rw [List.map_cons, ih ((if_neg hk).symm.trans hget)]

theorem rows_concat (key : α → String) (items : List α) (last : α) :
    rows key (items ++ [last]) = push (rows key items) (key last) last := by
  rw [rows, List.foldl_append]
  rfl

/-- Items that are changed, but not their keys, are in the same rows. -/
theorem rows_map (key : β → String) (f : α → β) (items : List α) :
    rows key (items.map f) =
      (rows (fun item => key (f item)) items).map fun entry => (entry.1, entry.2.map f) := by
  induction items using List.reverseRecOn with
  | nil => rfl
  | append_singleton items last ih =>
      rw [List.map_append, List.map_singleton, rows_concat, ih, push_map, rows_concat]

end

end GraphQL.Assoc
