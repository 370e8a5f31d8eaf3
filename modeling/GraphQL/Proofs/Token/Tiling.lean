import GraphQL.Proofs.Text.Positions

/-!
# Tokens tile the text

The tokens of a text, with what is ignored between them, make up the whole text: `Tiles before
rest tokens` builds `rest` up from stretches that nobody reads and the stretches that the tokens
cover, and says where each of them stands.  What a token covers is never looked at: a token that is
an error takes its place as every other does.

Since the lexer looks at nothing but the characters in front of it, what it gives behind a token
does not depend on how it came there.  A lexer that is set to the end of a token goes on as
the one did that read the text from its start.
-/

namespace GraphQL

open Token

/-! ## What stands between tokens -/

/-- A stretch of blanks, line ends, commas, byte order marks and whole comments in front
of `rest`. -/
inductive Ignorable (rest : List Char) : List Char → Prop where
  | nil : Ignorable rest []
  | character {c : Char} {gap : List Char} :
      isIgnored c → Ignorable rest gap → Ignorable rest (c :: gap)
  | comment {body gap : List Char} :
      (∀ c ∈ body, isLineEnd c = false) → (∀ c ∈ (gap ++ rest).head?, isLineEnd c) →
      Ignorable rest gap → Ignorable rest ('#' :: (body ++ gap))

/-- What is skipped: whole comments only, even if the text starts within one. -/
theorem exists_ignorable (cs : List Char) :
    Ignorable (cs.drop (ignoredLength false cs)) (cs.take (ignoredLength false cs)) ∧
      ∃ body gap, cs.take (ignoredLength true cs) = body ++ gap ∧
        (∀ c ∈ body, isLineEnd c = false) ∧
        (∀ c ∈ (gap ++ cs.drop (ignoredLength true cs)).head?, isLineEnd c) ∧
        Ignorable (cs.drop (ignoredLength true cs)) gap := by
  -- Both flags at once: a comment begins outside of one and ends inside.
  induction cs with
  | nil => exact ⟨.nil, [], [], rfl, nofun, nofun, .nil⟩
  | cons c rest ih =>
      obtain ⟨hgap, body, gap, htake, hbody, hends, hcomment⟩ := ih
      constructor
      · rw [ignoredLength]
        split
        · next hignored => exact .character hignored hgap
        split
        · next hmark =>
          subst hmark
          rw [List.take_succ_cons, List.drop_succ_cons, htake]
          exact .comment hbody hends hcomment
        · exact .nil
      · rw [ignoredLength, List.take_succ_cons, List.drop_succ_cons]
        by_cases hc : isLineEnd c
        · refine ⟨[], c :: rest.take (ignoredLength false rest), ?_, nofun, ?_, ?_⟩
          · rw [hc, List.nil_append, Bool.not_true]
          · rintro _ ⟨⟩
            exact hc
          · rw [hc, Bool.not_true]
            refine .character ?_ hgap
            simp only [isLineEnd, Bool.or_eq_true] at hc
            simp only [isIgnored, Bool.or_eq_true]
            tauto
        · rw [Bool.not_eq_true] at hc
          refine ⟨c :: body, gap, ?_, ?_, ?_, ?_⟩
          · rw [hc, Bool.not_false, htake, List.cons_append]
          · exact List.forall_mem_cons.mpr ⟨hc, hbody⟩
          · rwa [hc, Bool.not_false]
          · rwa [hc, Bool.not_false]

/-! ## Where tokens stand -/

/-- The tokens and what stands between them make up `rest`, which stands behind `before`. -/
inductive Tiles : (before rest : List Char) → List Token → Prop where
  | eof {before gap : List Char} :
      Ignorable [] gap → Tiles before gap [⟨.eof, .emptyAt (.after (before ++ gap))⟩]
  | token {before gap word rest : List Char} {kind : TokenKind} {tokens : List Token} :
      Ignorable (word ++ rest) gap → word ≠ [] → kind ≠ .eof →
      Tiles (before ++ gap ++ word) rest tokens →
      Tiles before (gap ++ word ++ rest)
        (⟨kind, .after (before ++ gap), .after (before ++ gap ++ word)⟩ :: tokens)

namespace Tiles

variable {before rest : List Char} {tokens : List Token}

/-- The end of the text is the last token, and the only one of its kind. -/
theorem exists_eof (h : Tiles before rest tokens) :
    ∃ others, tokens = others ++ [⟨.eof, .emptyAt (.after (before ++ rest))⟩] ∧
      ∀ token ∈ others, token.kind ≠ .eof ∧ token.span.start.byte < token.span.stop.byte := by
  induction h with
  | eof _ => exact ⟨[], rfl, nofun⟩
  | @token before gap word rest kind tokens _ hword hkind _ ih =>
      obtain ⟨others, rfl, hothers⟩ := ih
      refine ⟨⟨kind, .after (before ++ gap), .after (before ++ gap ++ word)⟩ :: others,
        by simp only [List.cons_append, List.append_assoc], ?_⟩
      refine List.forall_mem_cons.mpr ⟨⟨hkind, ?_⟩, hothers⟩
      have hpos := byteLength_pos hword
      simp only [Position.after_byte, byteLength_append]
      omega

/-- Every end of a token is a boundary of the text. -/
theorem exists_after (h : Tiles before rest tokens) {token : Token} (htoken : token ∈ tokens)
    {p : Position} (hp : p = token.span.start ∨ p = token.span.stop) :
    ∃ passed left, rest = passed ++ left ∧ p = .after (before ++ passed) := by
  induction h with
  | @eof before gap _ =>
      rw [List.mem_singleton.mp htoken] at hp
      exact ⟨gap, [], (List.append_nil gap).symm, hp.elim id id⟩
  | @token before gap word rest kind tokens _ _ _ _ ih =>
      rcases List.mem_cons.mp htoken with rfl | htoken
      · rcases hp with rfl | rfl
        · exact ⟨gap, word ++ rest, List.append_assoc gap word rest, rfl⟩
        · exact ⟨gap ++ word, rest, rfl, by rw [← List.append_assoc]⟩
      · obtain ⟨passed, left, rfl, rfl⟩ := ih htoken
        exact ⟨gap ++ word ++ passed, left, by simp only [List.append_assoc],
          by simp only [List.append_assoc]⟩

/-- Every token starts where the one before it ends, or behind. -/
theorem pairwise (h : Tiles before rest tokens) :
    tokens.Pairwise fun token next => token.span.stop.byte ≤ next.span.start.byte := by
  induction h with
  | eof _ => exact List.pairwise_singleton _ _
  | @token before gap word rest kind tokens _ _ _ htiles ih =>
      refine List.pairwise_cons.mpr ⟨fun next hnext => ?_, ih⟩
      obtain ⟨passed, left, -, hstart⟩ := htiles.exists_after hnext (.inl rfl)
      rw [hstart, Position.after_byte, Position.after_byte]
      exact byteLength_le_of_prefix (List.prefix_append _ passed)

end Tiles

/-! ## What the lexer gives -/

namespace Lexer

/-- Taking tokens until none is left gives these. -/
inductive Gives : Lexer → List Token → Prop where
  | done {lexer : Lexer} : lexer.next? = none → Gives lexer []
  | next {lexer after : Lexer} {token : Token} {tokens : List Token} :
      lexer.next? = some (token, after) → Gives after tokens → Gives lexer (token :: tokens)

theorem gives_of_finished {lexer : Lexer} (h : lexer.finished) : Gives lexer lexer.tokens := by
  rw [tokens_of_finished h]
  exact .done (by rw [next?, if_pos h])

/-- Every token shortens what is left, so taking tokens comes to an end. -/
theorem gives_tokens (lexer : Lexer) : Gives lexer lexer.tokens := by
  generalize hlength : lexer.cursor.rest.length = length
  induction length using Nat.strongRecOn generalizing lexer with
  | ind length ih =>
      obtain ⟨cursor, finished⟩ := lexer
      cases finished with
      | true => exact gives_of_finished rfl
      | false =>
          have hnext := next?_eq cursor
          rw [tokens_of_next? hnext]
          refine .next hnext ?_
          rcases length_lt_of_next? hnext with hfinished | hlt
          · exact gives_of_finished hfinished
          · exact ih _ (hlength ▸ hlt) _ rfl

/-- The tokens of a text from some point on: the end of the text, or a token and those behind
it. -/
theorem tokens_cases (before cs : List Char) :
    (Ignorable [] cs ∧
      tokens ⟨.behind before cs, false⟩ = [⟨.eof, .emptyAt (.after (before ++ cs))⟩]) ∨
    ∃ gap word rest kind, cs = gap ++ word ++ rest ∧ Ignorable (word ++ rest) gap ∧ word ≠ [] ∧
      kind ≠ .eof ∧ (Token.scan (word ++ rest)).1 = kind ∧
      (word ++ rest).take (Token.scan (word ++ rest)).2 = word ∧
      tokens ⟨.behind before cs, false⟩ =
        ⟨kind, .after (before ++ gap), .after (before ++ gap ++ word)⟩ ::
          tokens ⟨.behind (before ++ gap ++ word) rest, false⟩ := by
  -- What is skipped, and what is ahead of it: nothing, or something for a token to cover.
  have hgap := (exists_ignorable cs).1
  have hnext := next?_eq (.behind before cs)
  simp only [Cursor.behind_rest, Cursor.advance_behind, Cursor.behind_position] at hnext
  have hcs := List.take_append_drop (ignoredLength false cs) cs
  generalize cs.take (ignoredLength false cs) = gap at hgap hnext hcs
  generalize cs.drop (ignoredLength false cs) = ahead at hgap hnext hcs
  rw [tokens_of_next? hnext]
  cases ahead with
  | nil =>
      rw [List.append_nil] at hcs
      subst hcs
      refine .inl ⟨hgap, ?_⟩
      rw [tokens_of_finished (by rfl)]
      simp [Token.scan, Span.emptyAt]
  | cons c rest =>
      have hpos := scan_cons_pos c rest
      have hkind := scan_cons_ne_eof c rest
      generalize hscan : Token.scan (c :: rest) = scanned at hpos hkind
      obtain ⟨kind, length⟩ := scanned
      have hword : (c :: rest).take length ++ (c :: rest).drop length = c :: rest :=
        List.take_append_drop length (c :: rest)
      refine .inr ⟨gap, (c :: rest).take length, (c :: rest).drop length, kind, ?_, ?_, ?_, hkind,
        ?_, ?_, ?_⟩
      · rw [List.append_assoc, hword, hcs]
      · rwa [hword]
      · intro hnil
        rw [List.take_eq_nil_iff] at hnil
        exact hnil.elim hpos.ne' (List.cons_ne_nil c rest)
      · rw [hword, hscan]
      · rw [hword, hscan]
      · simp only [decide_eq_false hkind]

/-- What is given makes up the whole text. -/
theorem tiles_tokens (before cs : List Char) :
    Tiles before cs (tokens ⟨.behind before cs, false⟩) := by
  generalize hlength : cs.length = length
  induction length using Nat.strongRecOn generalizing before cs with
  | ind length ih =>
      rcases tokens_cases before cs with ⟨hgap, htokens⟩ |
        ⟨gap, word, rest, kind, rfl, hgap, hword, hkind, -, -, htokens⟩
      · rw [htokens]
        exact .eof hgap
      · rw [htokens]
        refine .token hgap hword hkind (ih rest.length ?_ _ rest rfl)
        have hpos := List.length_pos_iff.mpr hword
        simp only [List.length_append] at hlength
        omega

/-- Every token is scanned from what is ahead where it starts. -/
theorem exists_scan_of_mem {before cs : List Char} {token : Token}
    (h : token ∈ tokens ⟨.behind before cs, false⟩) :
    ∃ passed left, cs = passed ++ left ∧ token = ⟨(Token.scan left).1, .after (before ++ passed),
      .after (before ++ passed ++ left.take (Token.scan left).2)⟩ := by
  generalize hlength : cs.length = length
  induction length using Nat.strongRecOn generalizing before cs with
  | ind length ih =>
      rcases tokens_cases before cs with ⟨-, htokens⟩ |
        ⟨gap, word, rest, kind, rfl, -, hword, -, hkind, htake, htokens⟩
      · rw [htokens, List.mem_singleton] at h
        exact ⟨cs, [], (List.append_nil cs).symm, by rw [h, List.take_nil, List.append_nil]; rfl⟩
      · rw [htokens] at h
        rcases List.mem_cons.mp h with rfl | h
        · exact ⟨gap, word ++ rest, List.append_assoc gap word rest, by rw [hkind, htake]⟩
        · have hpos := List.length_pos_iff.mpr hword
          simp only [List.length_append] at hlength
          obtain ⟨passed, left, rfl, htoken⟩ := ih rest.length (by omega) h rfl
          refine ⟨gap ++ word ++ passed, left, by simp only [List.append_assoc], ?_⟩
          simpa only [List.append_assoc] using htoken

/-- Every token that a lexer gives, from whichever offset it starts, is scanned from the text
behind the place where it starts. -/
theorem scan_of_mem_atByte {text before ahead : List Char} {byte : ℕ} {token : Token}
    (h : token ∈ (Lexer.atByte text byte).tokens) (htext : text = before ++ ahead)
    (hstart : token.span.start = .after before) :
    token = ⟨(Token.scan ahead).1, .after before,
      .after (before ++ ahead.take (Token.scan ahead).2)⟩ := by
  obtain ⟨passed, rest, rfl, hseek, -⟩ := Cursor.exists_behind_of_atByte text byte
  rw [Lexer.atByte, hseek] at h
  obtain ⟨more, left, rfl, rfl⟩ := exists_scan_of_mem h
  rw [← List.append_assoc] at htext
  obtain rfl : passed ++ more = before :=
    eq_of_byteLength_eq htext (congrArg Position.byte hstart)
  rw [List.append_cancel_left htext]

/-- A lexer at the start of a text gives all its tokens. -/
theorem tokens_atByte_zero (text : String) :
    (Lexer.atByte text.toList 0).tokens = Token.all text := by
  have hseek : Cursor.atByte text.toList 0 = .start text.toList := by
    rw [Cursor.atByte]
    cases text.toList.length with
    | zero => rfl
    | succ n => exact if_neg (Nat.not_lt_zero _)
  rw [Lexer.atByte, hseek]
  rfl

end Lexer

/-! ## All tokens of a text -/

/-- Taking tokens ends; the last one is the end of the text and no other one is; the others take
characters, stand in order, and leave nothing between them but what is ignored. -/
theorem Token.tiles_all (text : String) :
    (Lexer.start text.toList).Gives (all text) ∧ Tiles [] text.toList (all text) ∧
      (∃ others, all text = others ++ [⟨.eof, .emptyAt (.after text.toList)⟩] ∧
        ∀ token ∈ others, token.kind ≠ .eof ∧ token.span.start.byte < token.span.stop.byte) ∧
      (all text).Pairwise fun token next => token.span.stop.byte ≤ next.span.start.byte := by
  have htiles : Tiles [] text.toList (all text) := Lexer.tiles_tokens [] text.toList
  exact ⟨Lexer.gives_tokens _, htiles, htiles.exists_eof, htiles.pairwise⟩

end GraphQL
