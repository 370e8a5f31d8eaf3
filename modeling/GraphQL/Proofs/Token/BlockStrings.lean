import Mathlib
import GraphQL.Proofs.Token.Tiling

/-!
# The values of block strings

What a block string stands for is told by the specification in four steps, each of which is a
relation here: the quotes that are escaped (`BlockString.Quoted`), the lines of the text
(`BlockString.HasLines`), the indentation that comes off all lines but the first
(`BlockString.CommonIndent`), and the blank lines at both ends (`BlockString.IsValue`).

`StringValue.ofBlock` takes the indentation off a line only if the line is long enough.  A line of
fewer blanks should lose all of them, but stays as it is (`BlockString.HasStub`); unless such a
line is dropped at one of the ends, the value is not that of the specification.  This is the only
way to differ (`BlockString.isValue_iff_of_ofBlock`).

Indentation is counted in characters here.  Nothing else comes of counting bytes: blanks take one
byte, and what comes off a line are blanks (`BlockString.cut_at_boundary`).
-/

namespace GraphQL

open Token StringValue

/-! ## Items at both ends -/

section

variable {α β : Type} {p q : α → Bool} {items : List α} {item : α}

/-- A list without the items at both ends that `p` holds of. -/
def trimmed (p : α → Bool) (items : List α) : List α := (items.dropWhile p).rdropWhile p

theorem trimmed_map (p : β → Bool) (f : α → β) (items : List α) :
    trimmed p (items.map f) = (trimmed (p ∘ f) items).map f := by
  simp only [trimmed, List.rdropWhile, List.dropWhile_map, ← List.map_reverse]

theorem trimmed_congr (h : ∀ item ∈ items, p item = q item) : trimmed p items = trimmed q items := by
  have hdrop {items : List α} (h : ∀ item ∈ items, p item = q item) :
      items.dropWhile p = items.dropWhile q := by
    induction items with
    | nil => rfl
    | cons item rest ih =>
        rw [List.dropWhile_cons, List.dropWhile_cons, h item (.head _),
          ih fun other hother => h other (.tail _ hother)]
  rw [trimmed, trimmed, hdrop h, List.rdropWhile, List.rdropWhile, hdrop fun item hitem => ?_]
  exact h item ((List.dropWhile_sublist q).subset (List.mem_reverse.mp hitem))

theorem trimmed_append {before kept after : List α} (hbefore : ∀ item ∈ before, p item)
    (hafter : ∀ item ∈ after, p item) (hhead : ∀ item ∈ kept.head?, p item = false)
    (hlast : ∀ item ∈ kept.getLast?, p item = false) :
    trimmed p (before ++ kept ++ after) = kept := by
  rw [trimmed, List.append_assoc, List.dropWhile_append_of_pos hbefore]
  cases kept with
  | nil =>
      rw [List.nil_append, List.dropWhile_eq_nil_iff.mpr hafter]
      rfl
  | cons first rest =>
      have hfirst : ¬p first := by simpa using hhead first rfl
      have hself : (first :: rest).rdropWhile p = first :: rest := by
        refine List.rdropWhile_eq_self_iff.mpr fun hne => ?_
        simpa using hlast _ (List.getLast?_eq_some_getLast hne)
      rw [List.cons_append, List.dropWhile_cons_of_neg hfirst, ← List.cons_append, List.rdropWhile,
        List.reverse_append, List.dropWhile_append_of_pos (by simpa using hafter)]
      exact hself

theorem exists_trimmed (p : α → Bool) (items : List α) :
    ∃ before after, items = before ++ trimmed p items ++ after ∧ (∀ item ∈ before, p item) ∧
      (∀ item ∈ after, p item) ∧ (∀ item ∈ (trimmed p items).head?, p item = false) ∧
      ∀ item ∈ (trimmed p items).getLast?, p item = false := by
  refine ⟨items.takeWhile p, (items.dropWhile p).rtakeWhile p, ?_, ?_, ?_, ?_, ?_⟩
  · rw [trimmed, List.append_assoc, List.rdropWhile_append_rtakeWhile,
      List.takeWhile_append_dropWhile]
  · exact fun item hitem => List.mem_takeWhile_imp hitem
  · exact fun item hitem => List.mem_rtakeWhile_imp hitem
  · intro item hitem
    obtain ⟨rest, hrest⟩ := List.rdropWhile_prefix p (l := items.dropWhile p)
    have hhead : (items.dropWhile p).head? = some item := by
      rw [← hrest, List.head?_append, ← trimmed, Option.mem_def.mp hitem, Option.some_or]
    have hnot := List.head?_dropWhile_not p items
    rwa [hhead] at hnot
  · intro item hitem
    obtain ⟨hne, rfl⟩ := List.mem_getLast?_eq_getLast hitem
    exact Bool.eq_false_iff.mpr (List.rdropWhile_last_not p _ hne)

theorem mem_of_mem_trimmed (h : item ∈ trimmed p items) : item ∈ items := by
  obtain ⟨before, after, heq, -⟩ := exists_trimmed p items
  rw [heq]
  exact List.mem_append_left _ (List.mem_append_right _ h)

/-- An item that `p` holds of is kept if it stands between items that it does not hold of. -/
theorem mem_trimmed_iff (hitem : p item) : item ∈ trimmed p items ↔
    ∃ front back, items = front ++ item :: back ∧ (∃ other ∈ front, p other = false) ∧
      ∃ other ∈ back, p other = false := by
  constructor
  · intro hmem
    obtain ⟨before, after, heq, -, -, hhead, hlast⟩ := exists_trimmed p items
    obtain ⟨front, back, hkept⟩ := List.append_of_mem hmem
    rw [hkept] at heq hhead hlast
    refine ⟨before ++ front, back ++ after, by rw [heq]; simp, ?_, ?_⟩
    · cases front with
      | nil => exact absurd (hhead item rfl) (by simp [hitem])
      | cons other front => exact ⟨other, by simp, hhead other rfl⟩
    · rcases List.eq_nil_or_concat' back with rfl | ⟨back, other, rfl⟩
      · exact absurd (hlast item List.getLast?_concat) (by simp [hitem])
      · rw [← List.cons_append, ← List.append_assoc] at hlast
        exact ⟨other, by simp, hlast other List.getLast?_concat⟩
  · rintro ⟨front, back, rfl, hfront, hback⟩
    -- Dropping stops inside `front` on one side and inside `back` on the other.
    have hleft : (front.dropWhile p).isEmpty ≠ true := by
      rw [Ne, List.isEmpty_iff, List.dropWhile_eq_nil_iff]
      obtain ⟨other, hmem, hother⟩ := hfront
      exact fun hall => Bool.eq_false_iff.mp hother (hall other hmem)
    have hright : (back.reverse.dropWhile p).isEmpty ≠ true := by
      rw [Ne, List.isEmpty_iff, List.dropWhile_eq_nil_iff]
      obtain ⟨other, hmem, hother⟩ := hback
      exact fun hall => Bool.eq_false_iff.mp hother (hall other (List.mem_reverse.mpr hmem))
    rw [trimmed, List.dropWhile_append, if_neg hleft, List.rdropWhile, List.reverse_append,
      List.reverse_cons, List.append_assoc, List.dropWhile_append, if_neg hright]
    simp

end

namespace BlockString

/-! ## What a block string stands for -/

/-- What opens and closes a block string. -/
def quotes : List Char := ['"', '"', '"']

/-- With its escaped quotes resolved, `content`, which `behind` stands behind, is `raw`.  No
character of it starts quotes that are not escaped. -/
inductive Quoted (behind : List Char) : List Char → List Char → Prop
  | nil : Quoted behind [] []
  | escape {content raw} : Quoted behind content raw →
      Quoted behind ('\\' :: (quotes ++ content)) (quotes ++ raw)
  | char {c content raw} : ¬quotes <+: c :: (content ++ behind) →
      ¬ '\\' :: quotes <+: c :: (content ++ behind) → Quoted behind content raw →
      Quoted behind (c :: content) (c :: raw)

/-- A line feed, a carriage return, or both in this order end a line that `rest` stands behind. -/
inductive EndsLine (rest : List Char) : List Char → Prop
  | feed : EndsLine rest ['\n']
  | carriage : rest.head? ≠ some '\n' → EndsLine rest ['\r']
  | both : EndsLine rest ['\r', '\n']

/-- A text without line ends. -/
def IsLine (line : List Char) : Prop := ∀ c ∈ line, c ≠ '\n' ∧ c ≠ '\r'

/-- The text splits into the lines, at every line end. -/
inductive HasLines : List Char → List (List Char) → Prop
  | last {line} : IsLine line → HasLines line [line]
  | cons {line ending rest others} : IsLine line → EndsLine rest ending → HasLines rest others →
      HasLines (line ++ ending ++ rest) (line :: others)

/-- A text of nothing but spaces and tabs. -/
def Blank (line : List Char) : Prop := ∀ c ∈ line, c = ' ' ∨ c = '\t'

/-- The first `n` characters of the line are blank, and the next one, if any, is not. -/
def IndentedBy (line : List Char) (n : ℕ) : Prop :=
  ∃ blanks text, line = blanks ++ text ∧ Blank blanks ∧ blanks.length = n ∧
    ∀ c ∈ text.head?, c ≠ ' ' ∧ c ≠ '\t'

/-- The lines that are not blank are indented by `n` or more, and one by `n`; none is, and `n` is
zero. -/
def CommonIndent (others : List (List Char)) (n : ℕ) : Prop :=
  IsLeast {m | ∃ line ∈ others, ¬Blank line ∧ IndentedBy line m} n ∨
    (∀ line ∈ others, Blank line) ∧ n = 0

/-- The specification's value of `raw`: up to `n` characters, the common indentation, come off each
line but the first, then the blank lines at both ends; line feeds join the others. -/
def IsValue (raw value : List Char) : Prop :=
  ∃ first others n before kept after, HasLines raw (first :: others) ∧ CommonIndent others n ∧
    first :: others.map (·.drop n) = before ++ kept ++ after ∧
    (∀ line ∈ before, Blank line) ∧ (∀ line ∈ after, Blank line) ∧
    (∀ line ∈ kept.head?, ¬Blank line) ∧ (∀ line ∈ kept.getLast?, ¬Blank line) ∧
    value = ['\n'].intercalate kept

/-- A line with fewer characters than the common indentation, but some, stands between two that
are not blank. -/
def HasStub (raw : List Char) : Prop :=
  ∃ first others n front stub back, HasLines raw (first :: others) ∧ CommonIndent others n ∧
    others = front ++ stub :: back ∧ (∃ line ∈ first :: front, ¬Blank line) ∧
    (∃ line ∈ back, ¬Blank line) ∧ stub ≠ [] ∧ stub.length < n

/-- A control character other than a tab and the line ends. -/
def IsControl (c : Char) : Prop := c.toNat < 0x20 ∧ c ≠ '\t' ∧ c ≠ '\n' ∧ c ≠ '\r'

/-! ## Escaped quotes -/

section

variable {behind content raw rest : List Char}

theorem unescapeQuotes_of_quoted (h : Quoted behind content raw) :
    unescapeQuotes content = raw := by
  induction h with
  | nil => rfl
  | escape h ih => exact congrArg (quotes ++ ·) ih
  | @char c content raw hquotes hescape h ih =>
      rw [unescapeQuotes, ih]
      intro more hc hcontent
      exact hescape ⟨more ++ behind, by rw [hc, hcontent]; rfl⟩

/-- The quotes that close a block string are found. -/
theorem blockLength_of_quoted (h : Quoted (quotes ++ rest) content raw) :
    blockLength (content ++ (quotes ++ rest)) = (content.length, true) := by
  induction h with
  | nil => rfl
  | @escape content raw h ih =>
      have hcons : ('\\' :: (quotes ++ content)) ++ (quotes ++ rest) =
          '\\' :: '"' :: '"' :: '"' :: (content ++ (quotes ++ rest)) := rfl
      rw [hcons, blockLength, ih]
      rfl
  | @char c content raw hquotes hescape h ih =>
      rw [List.cons_append, blockLength, ih]
      · rfl
      · intro more hc hcontent
        exact hescape ⟨more, by rw [hc, hcontent]; rfl⟩
      · intro more hc hcontent
        exact hquotes ⟨more, by rw [hc, hcontent]; rfl⟩

theorem isAllowed_iff {c : Char} : isAllowed true c ↔ ¬IsControl c := by
  have hspace : ' ' ≤ c ↔ 0x20 ≤ c.toNat := Iff.rfl
  simp only [isAllowed, IsControl, Bool.true_and, Bool.or_eq_true, decide_eq_true_eq, hspace]
  by_cases h : 0x20 ≤ c.toNat
  · simp [h, Nat.not_lt.mpr h]
  · simp only [h, Nat.not_le.mp h, or_false, true_and]
    tauto

end

/-! ## Lines -/

section

variable {line : List Char}

theorem lines_ne_nil (cs : List Char) : lines cs ≠ [] := by
  fun_cases lines <;> simp_all

theorem lines_append {first cs : List Char} {others : List (List Char)} (hline : IsLine line)
    (h : lines cs = first :: others) : lines (line ++ cs) = (line ++ first) :: others := by
  induction line with
  | nil => exact h
  | cons c line ih =>
      obtain ⟨hfeed, hreturn⟩ := hline c (.head _)
      rw [List.cons_append, lines, if_neg (not_or.mpr ⟨hfeed, hreturn⟩),
        ih fun c hc => hline c (.tail _ hc)]
      · rfl
      · exact fun rest hc _ => hreturn hc

theorem lines_of_hasLines {text : List Char} {ls : List (List Char)} (h : HasLines text ls) :
    lines text = ls := by
  induction h with
  | @last line hline => simpa using lines_append hline (rfl : lines [] = [[]])
  | @cons line ending rest others hline hending hrest ih =>
      have hempty : lines (ending ++ rest) = [] :: others := by
        rw [← ih]
        cases hending with
        | feed => rfl
        | both => rfl
        | carriage hfeed =>
            rw [List.singleton_append, lines]
            · rfl
            · rintro more - rfl
              exact hfeed rfl
      rw [List.append_assoc, lines_append hline hempty, List.append_nil]

theorem HasLines.cons_char {c : Char} {text : List Char} {others : List (List Char)}
    (hc : c ≠ '\n' ∧ c ≠ '\r') (h : HasLines text (line :: others)) :
    HasLines (c :: text) ((c :: line) :: others) := by
  have hcons {line : List Char} (hline : IsLine line) : IsLine (c :: line) := by
    rintro d (_ | ⟨_, hd⟩)
    · exact hc
    · exact hline d hd
  cases h with
  | last hline => exact .last (hcons hline)
  | cons hline hending hrest => exact .cons (hcons hline) hending hrest

theorem hasLines_lines (text : List Char) : HasLines text (lines text) := by
  have hnil : IsLine [] := fun c hc => absurd hc List.not_mem_nil
  induction text using lines.induct with
  | case1 => exact .last hnil
  | case2 rest ih => exact .cons hnil .both ih
  | case3 c rest hnot hc ih =>
      rw [lines, if_pos hc]
      · rcases hc with rfl | rfl
        · exact .cons hnil .feed ih
        · refine .cons hnil (.carriage fun hhead => ?_) ih
          obtain ⟨more, rfl⟩ := List.head?_eq_some_iff.mp hhead
          exact hnot more rfl rfl
      · exact hnot
  | case4 c rest hnot hc hlines ih => exact absurd hlines (lines_ne_nil rest)
  | case5 c rest hnot hc line others hlines ih =>
      rw [lines, if_neg hc, hlines]
      · exact .cons_char (not_or.mp hc) (hlines ▸ ih)
      · exact hnot

end

/-! ## Indentation -/

section

variable {line : List Char} {others : List (List Char)} {n : ℕ}

theorem isIndent_iff {c : Char} : isIndent c ↔ c = ' ' ∨ c = '\t' := by
  simp [isIndent]

theorem isBlankLine_iff : isBlankLine line ↔ Blank line := by
  simp only [isBlankLine, List.all_eq_true, Blank, isIndent_iff]

theorem indentedBy_iff : IndentedBy line n ↔ indentation line = n := by
  constructor
  · rintro ⟨blanks, text, rfl, hblanks, rfl, htext⟩
    have hstop : text.takeWhile isIndent = [] := by
      cases text with
      | nil => rfl
      | cons c text =>
          refine List.takeWhile_cons_of_neg fun hc => ?_
          exact (isIndent_iff.mp hc).elim (htext c rfl).1 (htext c rfl).2
    rw [indentation, List.takeWhile_append_of_pos fun c hc => isIndent_iff.mpr (hblanks c hc),
      hstop, List.append_nil]
  · rintro rfl
    refine ⟨line.takeWhile isIndent, line.dropWhile isIndent, List.takeWhile_append_dropWhile.symm,
      fun c hc => isIndent_iff.mp (List.mem_takeWhile_imp hc), rfl, fun c hc => ?_⟩
    have hnot := List.head?_dropWhile_not isIndent line
    rw [Option.mem_def.mp hc] at hnot
    exact not_or.mp fun h => Bool.eq_false_iff.mp hnot (isIndent_iff.mpr h)

theorem commonIndent_iff : CommonIndent others n ↔ commonIndentation others = n := by
  have hmem (m : ℕ) : m ∈ (others.filter (!isBlankLine ·)).map indentation ↔
      m ∈ {m | ∃ line ∈ others, ¬Blank line ∧ IndentedBy line m} := by
    simp only [List.mem_map, List.mem_filter, Bool.not_eq_true', Bool.eq_false_iff, Ne,
      isBlankLine_iff, indentedBy_iff, Set.mem_ofPred_eq, and_assoc]
  have hleast (m : ℕ) : ((others.filter (!isBlankLine ·)).map indentation).min? = some m ↔
      IsLeast {m | ∃ line ∈ others, ¬Blank line ∧ IndentedBy line m} m := by
    simp only [List.min?_eq_some_iff, hmem, IsLeast, lowerBounds, Set.mem_ofPred_eq]
  have hnone : ((others.filter (!isBlankLine ·)).map indentation).min? = none ↔
      ∀ line ∈ others, Blank line := by
    simp only [List.min?_eq_none_iff, List.map_eq_nil_iff, List.filter_eq_nil_iff,
      Bool.not_eq_true', Bool.not_eq_false, isBlankLine_iff]
  unfold CommonIndent commonIndentation
  rw [← hleast, ← hnone]
  cases ((others.filter (!isBlankLine ·)).map indentation).min? <;> simp [eq_comm]

/-- What comes off a line is blank. -/
theorem blank_take (h : CommonIndent others n) (hline : line ∈ others) : Blank (line.take n) := by
  by_cases hblank : Blank line
  · exact fun c hc => hblank c (List.mem_of_mem_take hc)
  · rcases h with ⟨-, hle⟩ | ⟨hall, -⟩
    · obtain ⟨blanks, text, rfl, hblanks, hlength, htext⟩ : IndentedBy line (indentation line) :=
        indentedBy_iff.mpr rfl
      have hn : n ≤ blanks.length := by
        rw [hlength]
        exact hle ⟨_, hline, hblank, indentedBy_iff.mpr rfl⟩
      rw [List.take_append_of_le_length hn]
      exact fun c hc => hblanks c (List.mem_of_mem_take hc)
    · exact absurd (hall line hline) hblank

theorem blank_drop_iff (h : CommonIndent others n) (hline : line ∈ others) :
    Blank (line.drop n) ↔ Blank line := by
  constructor
  · intro hdrop c hc
    rw [← List.take_append_drop n line, List.mem_append] at hc
    exact hc.elim (blank_take h hline c) (hdrop c)
  · exact fun hblank c hc => hblank c (List.mem_of_mem_drop hc)

theorem byteLength_of_blank (h : Blank line) : byteLength line = line.length := by
  induction line with
  | nil => rfl
  | cons c line ih =>
      rw [byteLength_cons, ih fun c hc => h c (.tail _ hc), List.length_cons, add_comm]
      rcases h c (.head _) with rfl | rfl <;> rfl

/-- Cutting the common indentation off a line, counted in bytes, takes characters off it, or
nothing if the line is too short. -/
theorem cut_at_boundary (h : CommonIndent others n) (hline : line ∈ others) :
    (n ≤ byteLength line → ∃ cut, line = cut ++ dedent n line ∧ byteLength cut = n) ∧
      (byteLength line < n → dedent n line = line) := by
  have hcut := byteLength_of_blank (blank_take h hline)
  have hsum : byteLength line = byteLength (line.take n) + byteLength (line.drop n) := by
    rw [← byteLength_append, List.take_append_drop]
  have hshort : byteLength line < n ↔ line.length < n := by
    by_cases hlt : line.length < n
    · rw [List.take_of_length_le hlt.le] at hcut
      omega
    · rw [List.length_take_of_le (Nat.not_lt.mp hlt)] at hcut
      omega
  refine ⟨fun hle => ⟨line.take n, ?_, ?_⟩, fun hlt => if_pos (hshort.mp hlt)⟩
  · rw [dedent, if_neg (by omega), List.take_append_drop]
  · rw [hcut, List.length_take_of_le (by omega)]

end

/-! ## Values -/

section

variable {raw value first line : List Char} {ls ls' others : List (List Char)} {n : ℕ}

theorem isBlankLine_eq_false_iff : isBlankLine line = false ↔ ¬Blank line := by
  rw [Bool.eq_false_iff, Ne, isBlankLine_iff]

theorem isValue_iff (h : lines raw = first :: others) : IsValue raw value ↔
    value = ['\n'].intercalate (trimmed isBlankLine
      (first :: others.map (·.drop (commonIndentation others)))) := by
  constructor
  · rintro ⟨first', others', n, before, kept, after, hlines, hindent, heq, hbefore, hafter, hhead,
      hlast, rfl⟩
    obtain ⟨rfl, rfl⟩ := List.cons.inj (h.symm.trans (lines_of_hasLines hlines))
    rw [commonIndent_iff.mp hindent, heq,
      trimmed_append (fun line hline => isBlankLine_iff.mpr (hbefore line hline))
        (fun line hline => isBlankLine_iff.mpr (hafter line hline))
        (fun line hline => isBlankLine_eq_false_iff.mpr (hhead line hline))
        fun line hline => isBlankLine_eq_false_iff.mpr (hlast line hline)]
  · rintro rfl
    obtain ⟨before, after, heq, hbefore, hafter, hhead, hlast⟩ := exists_trimmed isBlankLine
      (first :: others.map (·.drop (commonIndentation others)))
    exact ⟨first, others, _, before, _, after, h ▸ hasLines_lines raw, commonIndent_iff.mpr rfl,
      heq, fun line hline => isBlankLine_iff.mp (hbefore line hline),
      fun line hline => isBlankLine_iff.mp (hafter line hline),
      fun line hline => isBlankLine_eq_false_iff.mp (hhead line hline),
      fun line hline => isBlankLine_eq_false_iff.mp (hlast line hline), rfl⟩

/-- The specification gives every text one value. -/
theorem existsUnique_isValue (raw : List Char) : ∃! value, IsValue raw value := by
  obtain ⟨first, others, h⟩ := List.exists_cons_of_ne_nil (lines_ne_nil raw)
  simp only [isValue_iff h, existsUnique_eq]

theorem hasStub_iff (h : lines raw = first :: others) : HasStub raw ↔
    ∃ front stub back, others = front ++ stub :: back ∧ (∃ line ∈ first :: front, ¬Blank line) ∧
      (∃ line ∈ back, ¬Blank line) ∧ stub ≠ [] ∧ stub.length < commonIndentation others := by
  constructor
  · rintro ⟨first', others', n, front, stub, back, hlines, hindent, hsplit, hrest⟩
    obtain ⟨rfl, rfl⟩ := List.cons.inj (h.symm.trans (lines_of_hasLines hlines))
    obtain rfl := commonIndent_iff.mp hindent
    exact ⟨front, stub, back, hsplit, hrest⟩
  · rintro ⟨front, stub, back, hrest⟩
    exact ⟨first, others, _, front, stub, back, h ▸ hasLines_lines raw, commonIndent_iff.mpr rfl,
      hrest⟩

theorem HasLines.isLine (h : HasLines raw ls) : ∀ line ∈ ls, IsLine line := by
  induction h with
  | last hline => simpa using hline
  | cons hline hending hrest ih => simpa using ⟨hline, ih⟩

theorem intercalate_inj (hlength : ls.length = ls'.length) (hls : ∀ line ∈ ls, IsLine line)
    (hls' : ∀ line ∈ ls', IsLine line) :
    ['\n'].intercalate ls = ['\n'].intercalate ls' ↔ ls = ls' := by
  refine ⟨fun h => ?_, congrArg _⟩
  have hfeed {ls : List (List Char)} (hls : ∀ line ∈ ls, IsLine line) :
      ∀ line ∈ ls, '\n' ∉ line := fun line hline hmem => (hls line hline _ hmem).1 rfl
  by_cases hnil : ls = []
  · subst hnil
    exact (List.eq_nil_of_length_eq_zero hlength.symm).symm
  · have hnil' : ls' ≠ [] := fun hnil' => hnil (List.eq_nil_of_length_eq_zero (by simp_all))
    rw [← List.splitOn_intercalate '\n' (hfeed hls) hnil, h,
      List.splitOn_intercalate '\n' (hfeed hls') hnil']

/-- Every line with up to `n` characters off it, and with `n` or none off it. -/
def rows (n : ℕ) (first : List Char) (others : List (List Char)) : List (List Char × List Char) :=
  (first, first) :: others.map fun line => (line.drop n, dedent n line)

theorem rows_map_fst : (rows n first others).map Prod.fst = first :: others.map (·.drop n) := by
  simp [rows]

theorem rows_map_snd : (rows n first others).map Prod.snd = first :: others.map (dedent n) := by
  simp [rows]

/-- Both sides of a row are the same, or the line is short, and the sides are nothing and all of
it. -/
theorem dedent_cases (n : ℕ) (line : List Char) :
    dedent n line = line.drop n ∨ line.length < n ∧ line ≠ [] ∧ line.drop n = [] ∧
      dedent n line = line := by
  by_cases hshort : line.length < n
  · rw [dedent, if_pos hshort, List.drop_of_length_le hshort.le]
    by_cases hnil : line = []
    · exact .inl hnil
    · exact .inr ⟨hshort, hnil, rfl, rfl⟩
  · exact .inl (if_neg hshort)

theorem isBlankLine_of_mem_rows (h : CommonIndent others n) :
    ∀ row ∈ rows n first others, isBlankLine row.2 = isBlankLine row.1 := by
  rintro row (_ | ⟨_, hrow⟩)
  · rfl
  · obtain ⟨line, hline, rfl⟩ := List.mem_map.mp hrow
    rcases dedent_cases n line with hsame | ⟨hshort, -, hdrop, hwhole⟩
    · exact congrArg isBlankLine hsame
    · have hblank : Blank (line.drop n) := hdrop ▸ fun c hc => absurd hc List.not_mem_nil
      rw [hwhole, isBlankLine_iff.mpr hblank]
      exact isBlankLine_iff.mpr ((blank_drop_iff h hline).mp hblank)

theorem isLine_of_mem_rows (h : ∀ line ∈ first :: others, IsLine line) :
    ∀ row ∈ rows n first others, IsLine row.1 ∧ IsLine row.2 := by
  rintro row (_ | ⟨_, hrow⟩)
  · exact ⟨h _ (.head _), h _ (.head _)⟩
  · obtain ⟨line, hline, rfl⟩ := List.mem_map.mp hrow
    have hall := h line (.tail _ hline)
    have hdrop : IsLine (line.drop n) := fun c hc => hall c (List.mem_of_mem_drop hc)
    refine ⟨hdrop, ?_⟩
    unfold dedent
    split
    · exact hall
    · exact hdrop

theorem exists_mem_map_iff (h : CommonIndent others n) (hls : ls ⊆ others) :
    (∃ row ∈ ls.map fun line => (line.drop n, dedent n line),
      (isBlankLine ∘ Prod.fst) row = false) ↔ ∃ line ∈ ls, ¬Blank line := by
  simp only [List.mem_map, exists_exists_and_eq_and]
  refine exists_congr fun line => and_congr_right fun hline => ?_
  rw [Function.comp_apply, isBlankLine_eq_false_iff, blank_drop_iff h (hls hline)]

theorem exists_mem_rows_iff (h : CommonIndent others n) (hls : ls ⊆ others) :
    (∃ row ∈ rows n first ls, (isBlankLine ∘ Prod.fst) row = false) ↔
      ∃ line ∈ first :: ls, ¬Blank line := by
  rw [rows, List.exists_mem_cons_iff, List.exists_mem_cons_iff, exists_mem_map_iff h hls,
    Function.comp_apply, isBlankLine_eq_false_iff]

/-- A row whose sides differ is kept exactly where a stub stands. -/
theorem exists_row_iff (h : CommonIndent others n) :
    (∃ row ∈ trimmed (isBlankLine ∘ Prod.fst) (rows n first others), row.2 ≠ row.1) ↔
      ∃ front stub back, others = front ++ stub :: back ∧ (∃ line ∈ first :: front, ¬Blank line) ∧
        (∃ line ∈ back, ¬Blank line) ∧ stub ≠ [] ∧ stub.length < n := by
  constructor
  · rintro ⟨row, hkept, hne⟩
    have hrow := mem_of_mem_trimmed hkept
    rw [rows, List.mem_cons, List.mem_map] at hrow
    obtain rfl | ⟨line, -, rfl⟩ := hrow
    · exact absurd rfl hne
    obtain hsame | ⟨-, -, hdrop, -⟩ := dedent_cases n line
    · exact absurd hsame hne
    have hblank : (isBlankLine ∘ Prod.fst) (line.drop n, dedent n line) := by
      rw [Function.comp_apply, hdrop]
      rfl
    obtain ⟨front, back, hsplit, hfront, hback⟩ := (mem_trimmed_iff hblank).mp hkept
    -- The row is not the first one, so it comes from one of the other lines.
    cases front with
    | nil => simp at hfront
    | cons head front =>
        obtain ⟨rfl, htail⟩ := List.cons.inj hsplit
        obtain ⟨front, stubs, rfl, rfl, hstubs⟩ := List.map_eq_append_iff.mp htail
        obtain ⟨stub, back, rfl, hstub, rfl⟩ := List.map_eq_cons_iff.mp hstubs
        rw [← hstub] at hne
        obtain hsame | ⟨hshort, hnil, -, -⟩ := dedent_cases n stub
        · exact absurd hsame hne
        · exact ⟨front, stub, back, rfl,
            (exists_mem_rows_iff h (List.subset_append_left _ _)).mp hfront,
            (exists_mem_map_iff h fun _ hmem =>
              List.mem_append_right _ (.tail _ hmem)).mp hback, hnil, hshort⟩
  · rintro ⟨front, stub, back, rfl, hfront, hback, hnil, hshort⟩
    have hdrop : stub.drop n = [] := List.drop_of_length_le hshort.le
    have hwhole : dedent n stub = stub := if_pos hshort
    have hblank : (isBlankLine ∘ Prod.fst) (stub.drop n, dedent n stub) := by
      rw [Function.comp_apply, hdrop]
      rfl
    refine ⟨(stub.drop n, dedent n stub), (mem_trimmed_iff hblank).mpr
      ⟨rows n first front, back.map fun line => (line.drop n, dedent n line), by simp [rows],
        (exists_mem_rows_iff h (List.subset_append_left _ _)).mpr hfront,
        (exists_mem_map_iff h fun _ hmem => List.mem_append_right _ (.tail _ hmem)).mpr hback⟩, ?_⟩
    rwa [hdrop, hwhole]

theorem ofBlock_cases (content : List Char) :
    (∃ c ∈ content, IsControl c) ∧ (∃ c, ofBlock content = .error (.character c)) ∨
      (∀ c ∈ content, ¬IsControl c) ∧ ofBlock content = .ok (['\n'].intercalate
        (trimBlankLines (dedentLines (lines (unescapeQuotes content))))) := by
  unfold ofBlock
  split
  · next c hfind =>
      refine .inl ⟨⟨c, List.mem_of_find?_eq_some hfind, ?_⟩, c, rfl⟩
      by_contra hnot
      have := List.find?_some hfind
      rw [isAllowed_iff.mpr hnot] at this
      cases this
  · next hfind =>
      refine .inr ⟨fun c hc => isAllowed_iff.mp ?_, rfl⟩
      simpa using List.find?_eq_none.mp hfind c hc

/-- The value is that of the specification, unless some line keeps blanks that it should lose. -/
theorem isValue_iff_of_ofBlock {content : List Char} (hraw : unescapeQuotes content = raw)
    (h : ofBlock content = .ok value) : IsValue raw value ↔ ¬HasStub raw := by
  obtain ⟨first, others, hlines⟩ := List.exists_cons_of_ne_nil (lines_ne_nil raw)
  have hindent : CommonIndent others (commonIndentation others) := commonIndent_iff.mpr rfl
  have hvalue : value = ['\n'].intercalate (trimmed isBlankLine
      (first :: others.map (dedent (commonIndentation others)))) := by
    obtain ⟨-, c, hfault⟩ | ⟨-, hvalue⟩ := ofBlock_cases content
    · cases hfault.symm.trans h
    · rw [hraw, hlines] at hvalue
      exact Except.ok.inj (h.symm.trans hvalue)
  -- Both values are the sides of the same rows, whose lines can be told from what joins them.
  have hsame : trimmed (isBlankLine ∘ Prod.snd) (rows (commonIndentation others) first others) =
      trimmed (isBlankLine ∘ Prod.fst) (rows (commonIndentation others) first others) :=
    trimmed_congr (isBlankLine_of_mem_rows hindent)
  have hlocal : ∀ row ∈ trimmed (isBlankLine ∘ Prod.fst)
      (rows (commonIndentation others) first others), IsLine row.1 ∧ IsLine row.2 :=
    fun row hrow => isLine_of_mem_rows (hlines ▸ hasLines_lines raw).isLine row
      (mem_of_mem_trimmed hrow)
  rw [isValue_iff hlines, hasStub_iff hlines, ← exists_row_iff hindent, hvalue, ← rows_map_fst,
    ← rows_map_snd, trimmed_map, trimmed_map, hsame,
    intercalate_inj (by rw [List.length_map, List.length_map])
      (List.forall_mem_map.mpr fun row hrow => (hlocal row hrow).2)
      (List.forall_mem_map.mpr fun row hrow => (hlocal row hrow).1), List.map_inj_left]
  simp only [not_exists, not_and, not_not]

end

end BlockString

open BlockString

namespace Token

/-- The token that a closed block string is scanned as. -/
theorem scan_quoted {content raw rest : List Char} (h : Quoted (quotes ++ rest) content raw) :
    scan (quotes ++ content ++ quotes ++ rest) =
      (stringToken .blockString (ofBlock content), content.length + 6) := by
  have htext : quotes ++ content ++ quotes ++ rest =
      '"' :: '"' :: '"' :: (content ++ (quotes ++ rest)) := by
    simp only [quotes, List.cons_append, List.nil_append, List.append_assoc]
  rw [htext, scan]
  simp only [Punctuator.ofChar?, scanString, blockLength_of_quoted h, if_true, List.take_left]
  rfl

end Token

/-- Where a lexer starts a token at a block string, the token covers it up to the quotes that
close it.  It is an error if there is a control character in between; otherwise its value is that
of the specification, of which there is one, exactly if no line is left with blanks that should
come off it.  What comes off a line, which is measured in bytes, are whole characters. -/
theorem Lexer.block_string_value {source : String} {byte : ℕ} {token : Token}
    {before content raw rest : List Char}
    (htoken : token ∈ (Lexer.atByte source.toList byte).tokens)
    (hsource : source.toList = before ++ (quotes ++ content ++ quotes ++ rest))
    (hstart : token.span.start = .after before) (hquoted : Quoted (quotes ++ rest) content raw) :
    token.span.stop = .after (before ++ (quotes ++ content ++ quotes)) ∧
      ((∃ c ∈ content, IsControl c) → ∃ fault, token.kind = .error fault) ∧
      ((∀ c ∈ content, ¬IsControl c) → ∃ value, token.kind = .blockString value ∧
        (IsValue raw value.toList ↔ ¬HasStub raw)) ∧
      (∃! value, IsValue raw value) ∧
      ∀ first others n, HasLines raw (first :: others) → CommonIndent others n →
        ∀ line ∈ others,
          (n ≤ byteLength line → ∃ cut, line = cut ++ dedent n line ∧ byteLength cut = n) ∧
          (byteLength line < n → dedent n line = line) := by
  have hlength : (quotes ++ content ++ quotes).length = content.length + 6 := by
    simp [quotes]
  have hscanned := scan_of_mem_atByte htoken hsource hstart
  rw [scan_quoted hquoted, ← hlength, List.take_left] at hscanned
  subst hscanned
  refine ⟨rfl, fun ⟨c, hc, hcontrol⟩ => ?_, fun hnone => ?_, existsUnique_isValue raw,
    fun first others n _ hindent line hline => cut_at_boundary hindent hline⟩
  · obtain ⟨-, d, hfault⟩ | ⟨hnone, -⟩ := ofBlock_cases content
    · exact ⟨_, by rw [hfault]; rfl⟩
    · exact absurd hcontrol (hnone c hc)
  · obtain ⟨⟨c, hc, hcontrol⟩, -⟩ | ⟨-, hvalue⟩ := ofBlock_cases content
    · exact absurd hcontrol (hnone c hc)
    · refine ⟨.ofList _, by rw [hvalue]; rfl, ?_⟩
      rw [String.toList_ofList]
      exact isValue_iff_of_ofBlock (unescapeQuotes_of_quoted hquoted) hvalue

/-- Two lines with a line of fewer blanks in between. -/
def stubbed : List Char := "\n    a\n  \n    b".toList

/-- The line in between keeps its blanks. -/
def stubbedToken : Token where
  kind := .blockString "a\n  \nb"
  span := ⟨.after [], .after (quotes ++ stubbed ++ quotes)⟩

theorem Lexer.block_string_value_of_stub :
    stubbedToken ∈ (Lexer.atByte "\"\"\"\n    a\n  \n    b\"\"\"".toList 0).tokens ∧
      "\"\"\"\n    a\n  \n    b\"\"\"".toList = [] ++ (quotes ++ stubbed ++ quotes ++ []) ∧
      stubbedToken.span.start = .after [] ∧ Quoted (quotes ++ []) stubbed stubbed ∧
      HasStub stubbed ∧ ¬IsValue stubbed "a\n  \nb".toList := by
  have htoken : stubbedToken ∈
      (Lexer.atByte "\"\"\"\n    a\n  \n    b\"\"\"".toList 0).tokens := by
    decide +kernel
  have hquoted : Quoted (quotes ++ []) stubbed stubbed := by
    unfold stubbed
    repeat refine .char (by decide) (by decide) ?_
    exact .nil
  have hlines : lines stubbed = [[], "    a".toList, "  ".toList, "    b".toList] := by decide
  have hstub : HasStub stubbed := by
    refine (hasStub_iff hlines).mpr ⟨["    a".toList], "  ".toList, ["    b".toList], rfl, ?_, ?_,
      by decide, by decide⟩
    · exact ⟨"    a".toList, by decide, isBlankLine_eq_false_iff.mp (by decide)⟩
    · exact ⟨"    b".toList, by decide, isBlankLine_eq_false_iff.mp (by decide)⟩
  have hallowed : stubbed.all (isAllowed true) := by decide
  have hnone : ∀ c ∈ stubbed, ¬IsControl c := fun c hc =>
    isAllowed_iff.mp (List.all_eq_true.mp hallowed c hc)
  obtain ⟨value, hkind, hiff⟩ := (block_string_value htoken rfl rfl hquoted).2.2.1 hnone
  obtain rfl : "a\n  \nb" = value := TokenKind.blockString.inj hkind
  exact ⟨htoken, rfl, rfl, hquoted, hstub, fun h => hiff.mp h hstub⟩

end GraphQL
