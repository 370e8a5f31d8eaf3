import Mathlib
import GraphQL.Token.Lexer

/-!
# Texts that spell tokens

`Spelled text kinds` builds a text up from the tokens it is to have: words, marks and
the characters between them.  A mark may stand anywhere.  A word is scanned as a whole
only if what comes after it does not run it on, which is what `startsApart` says of the
text after it.  The lexer reads a text that is built so as the tokens it was built from.
-/

namespace GraphQL

namespace Token

/-- Whether no name, number or string that stands in front of the text goes on in it. -/
def startsApart : List Char → Bool
  | [] => true
  | c :: _ => !(isNameContinue c || c = '.' || c = '"')

theorem startsApart_append {text other : List Char} (h : startsApart text)
    (hother : startsApart other) : startsApart (text ++ other) := by
  cases text with
  | nil => exact hother
  | cons c rest => exact h

theorem startsApart_of_isIgnored {c : Char} (h : isIgnored c) (text : List Char) :
    startsApart (c :: text) := by
  simp only [isIgnored, Bool.or_eq_true, decide_eq_true_eq] at h
  rcases h with ((((rfl | rfl) | rfl) | rfl) | rfl) | rfl <;> rfl

theorem ignoredLength_ignored {c : Char} (h : isIgnored c) (rest : List Char) :
    ignoredLength false (c :: rest) = ignoredLength false rest + 1 := by
  simp only [ignoredLength, h, if_true]

theorem ignoredLength_eq_zero {c : Char} (h : isIgnored c = false) (hcomment : c ≠ '#')
    (rest : List Char) : ignoredLength false (c :: rest) = 0 := by
  simp [ignoredLength, h, hcomment]

theorem scan_mark (p : Punctuator) (rest : List Char) :
    scan (p.text.toList ++ rest) = (.punctuator p, p.text.toList.length) := by
  cases p <;> rfl

/-- A text that is scanned as one token of the kind `kind`. -/
structure Word (text : List Char) (kind : TokenKind) : Prop where
  scan : ∀ {rest}, startsApart rest → Token.scan (text ++ rest) = (kind, text.length)
  starts : ∃ c rest, text = c :: rest ∧ isIgnored c = false ∧ c ≠ '#'
  oneLine : '\n' ∉ text
  clean : ∀ fault, kind ≠ .error fault

end Token

open Token

/-- The text spells tokens of the given kinds. -/
inductive Spelled : List Char → List TokenKind → Prop where
  | nil : Spelled [] []
  | ignored {c : Char} {text : List Char} {kinds : List TokenKind} :
      isIgnored c → Spelled text kinds → Spelled (c :: text) kinds
  | mark (p : Punctuator) {text : List Char} {kinds : List TokenKind} :
      Spelled text kinds → Spelled (p.text.toList ++ text) (.punctuator p :: kinds)
  | word {word text : List Char} {kind : TokenKind} {kinds : List TokenKind} :
      Word word kind → startsApart text → Spelled text kinds →
      Spelled (word ++ text) (kind :: kinds)

namespace Lexer

/-- A lexer within a text passes over an ignored character. -/
theorem tokens_ignored {cursor : Cursor} {c : Char} {text : List Char}
    (hrest : cursor.rest = c :: text) (hc : isIgnored c) :
    tokens ⟨cursor, false⟩ = tokens ⟨cursor.step, false⟩ := by
  have hskip : next? ⟨cursor, false⟩ = next? ⟨cursor.step, false⟩ := by
    have hstep : cursor.step.rest = text := by rw [Cursor.step_rest, hrest, List.drop_one, List.tail]
    rw [next?_eq, next?_eq, hrest, hstep, ignoredLength_ignored hc]
    rfl
  rw [tokens_of_next? (next?_eq cursor), tokens_of_next? (hskip.symm.trans (next?_eq cursor))]

/-- A lexer in front of a token gives it, and goes on behind it. -/
theorem kinds_token {cursor : Cursor} {word text : List Char} {kind : TokenKind}
    (hrest : cursor.rest = word ++ text)
    (hstarts : ∃ c rest, word = c :: rest ∧ isIgnored c = false ∧ c ≠ '#')
    (hscan : Token.scan (word ++ text) = (kind, word.length)) :
    (tokens ⟨cursor, false⟩).map (·.kind) =
      kind :: (tokens ⟨cursor.advance word.length, false⟩).map (·.kind) := by
  obtain ⟨c, rest, rfl, hc, hcomment⟩ := hstarts
  have hskip : cursor.advance (ignoredLength false cursor.rest) = cursor := by
    rw [hrest, List.cons_append, ignoredLength_eq_zero hc hcomment]
    rfl
  have hkind : kind ≠ .eof := by
    have hne := scan_cons_ne_eof c (rest ++ text)
    rw [← List.cons_append, hscan] at hne
    exact hne
  have hnext := next?_eq cursor
  rw [hskip] at hnext
  simp only [hrest, hscan, decide_eq_false hkind] at hnext
  rw [tokens_of_next? hnext]
  rfl

/-- The lexer finds the tokens that the text is made of. -/
theorem kinds_of_spelled {text : List Char} {kinds : List TokenKind} (h : Spelled text kinds) :
    ∀ {cursor : Cursor}, cursor.rest = text →
      (tokens ⟨cursor, false⟩).map (·.kind) = kinds ++ [.eof] := by
  induction h with
  | nil =>
      intro cursor hrest
      have hnext := next?_eq cursor
      simp only [hrest, ignoredLength, Cursor.advance, scan] at hnext
      rw [tokens_of_next? hnext, tokens_of_finished (by simp)]
      rfl
  | ignored hc _ ih =>
      intro cursor hrest
      rw [tokens_ignored hrest hc]
      exact ih (by rw [Cursor.step_rest, hrest, List.drop_one, List.tail])
  | @mark p text kinds _ ih =>
      -- Punctuators are read whatever stands behind them, words only where nothing runs them on.
      intro cursor hrest
      have hstarts : ∃ c rest, p.text.toList = c :: rest ∧ isIgnored c = false ∧ c ≠ '#' := by
        cases p <;> exact ⟨_, _, rfl, by decide, by decide⟩
      rw [kinds_token hrest hstarts (scan_mark p text),
        ih (by rw [Cursor.advance_rest, hrest, List.drop_left])]
      rfl
  | @word word text kind kinds hword hapart _ ih =>
      intro cursor hrest
      rw [kinds_token hrest hword.starts (hword.scan hapart),
        ih (by rw [Cursor.advance_rest, hrest, List.drop_left])]
      rfl

/-- What holds of every token that is scanned holds of all tokens of a text. -/
theorem forall_mem_tokens {P : TokenKind → Prop} (h : ∀ cs, P (Token.scan cs).1) {lexer : Lexer} :
    ∀ token ∈ lexer.tokens, P token.kind := by
  generalize hlength : lexer.cursor.rest.length = length
  induction length using Nat.strongRecOn generalizing lexer with
  | ind length ih =>
      obtain ⟨cursor, finished⟩ := lexer
      cases finished with
      | true => rw [tokens_of_finished rfl]; exact nofun
      | false =>
          have hnext := next?_eq cursor
          rw [tokens_of_next? hnext]
          intro token htoken
          rcases List.mem_cons.mp htoken with rfl | htoken
          · exact h _
          rcases length_lt_of_next? hnext with hfinished | hlt
          · rw [tokens_of_finished hfinished] at htoken
            exact absurd htoken List.not_mem_nil
          · exact ih _ (hlength ▸ hlt) rfl token htoken

end Lexer

/-- A text has the tokens it spells, and its end. -/
theorem Token.kinds_all {text : List Char} {kinds : List TokenKind} (h : Spelled text kinds) :
    (Token.all (.ofList text)).map (·.kind) = kinds ++ [.eof] := by
  have hstart : (Cursor.start (String.ofList text).toList).rest = text := String.toList_ofList
  exact Lexer.kinds_of_spelled h hstart

namespace Spelled

variable {text other : List Char} {kinds others : List TokenKind}

theorem clean (h : Spelled text kinds) (fault : LexicalFault) : .error fault ∉ kinds := by
  induction h with
  | nil => exact List.not_mem_nil
  | ignored _ _ ih => exact ih
  | mark p _ ih => exact List.not_mem_cons_of_ne_of_not_mem TokenKind.noConfusion ih
  | word hword _ _ ih => exact List.not_mem_cons_of_ne_of_not_mem (hword.clean fault).symm ih

/-- No tokens are spelled by nothing. -/
theorem eq_nil (h : Spelled [] kinds) : kinds = [] := by
  generalize hnil : ([] : List Char) = text at h
  cases h with
  | nil => rfl
  | ignored => cases hnil
  | mark p => cases p <;> cases hnil
  | word hword =>
      obtain ⟨c, rest, rfl, -⟩ := hword.starts
      cases hnil

/-- The first token is the one that the text starts with. -/
theorem head?_eq {c : Char} (h : Spelled (c :: text) kinds) (hc : isIgnored c = false) :
    kinds.head? = some (scan (c :: text)).1 := by
  generalize htext : c :: text = whole at h ⊢
  cases h with
  | nil => cases htext
  | ignored hd _ =>
      cases htext
      rw [hc] at hd
      cases hd
  | mark p _ => rw [scan_mark, List.head?_cons]
  | word hword hapart _ => rw [hword.scan hapart, List.head?_cons]

/-- Two texts next to one another, where the second does not run the first one on. -/
theorem append (h : Spelled text kinds) (hother : Spelled other others)
    (hapart : startsApart other) : Spelled (text ++ other) (kinds ++ others) := by
  induction h with
  | nil => exact hother
  | ignored hc _ ih => exact .ignored hc ih
  | mark p _ ih => rw [List.append_assoc]; exact .mark p ih
  | word hword hstarts _ ih =>
      rw [List.append_assoc]
      exact .word hword (startsApart_append hstarts hapart) ih

theorem of_word {kind : TokenKind} (h : Word text kind) : Spelled text [kind] := by
  simpa using Spelled.word h rfl .nil

end Spelled

end GraphQL
