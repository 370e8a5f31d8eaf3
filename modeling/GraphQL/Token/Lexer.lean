import GraphQL.Text.Source
import GraphQL.Token.StringValue

/-!
# From text to tokens

`Token.scan` looks at the characters that are left and says which token they
start with and how many characters it takes; positions are no concern of it.
`Lexer` walks through a text with it: skip what is ignored, scan, and move the
cursor over the token.  Every token but the last, the end of the text, takes at
least one character, so `Token.all` comes to an end.
-/

namespace GraphQL

namespace Token

/-! ## Ignored characters -/

/-- A character that may stand between any two tokens. -/
def isIgnored (c : Char) : Bool :=
  c = ' ' || c = '\t' || c = '\n' || c = '\r' || c = ',' || c = '\ufeff'

/-- A character that ends a comment. -/
def isLineEnd (c : Char) : Bool := c = '\n' || c = '\r'

/-- The number of characters before the next token: blanks, commas and whole
comments.  `inComment` says whether the text starts within a comment. -/
def ignoredLength : (inComment : Bool) → List Char → Nat
  | _, [] => 0
  | true, c :: rest => ignoredLength (!isLineEnd c) rest + 1
  | false, c :: rest =>
    if isIgnored c then ignoredLength false rest + 1
    else if c = '#' then ignoredLength true rest + 1
    else 0

/-! ## Numbers -/

/-- The number of digits a text starts with. -/
def digitCount (cs : List Char) : Nat := (cs.takeWhile Char.isDigit).length

/-- A character that is taken along with a malformed number. -/
def isNumberDebris (c : Char) : Bool :=
  c.isAlphanum || c = '.' || c = '+' || c = '-' || c = '_'

/-- The token for a malformed number of which `read` characters were read. -/
def malformedNumber (fault : NumberFault) (cs : List Char) (read : Nat) : TokenKind × Nat :=
  let length := read + ((cs.drop read).takeWhile isNumberDebris).length
  (.error (.number fault (.ofList (cs.take length))), length)

/-- The length of the fraction that follows `read` characters of `cs`: zero if
there is none. -/
def fractionLength (cs : List Char) (read : Nat) : Except NumberFault Nat :=
  match cs.drop read with
  | '.' :: rest =>
    if digitCount rest = 0 then .error .noDigitAfterPoint else .ok (1 + digitCount rest)
  | _ => .ok 0

/-- The length of the sign that an exponent starts with. -/
def exponentSignLength : List Char → Nat
  | '+' :: _ | '-' :: _ => 1
  | _ => 0

/-- The length of the exponent that follows `read` characters of `cs`: zero if
there is none.  A mark without digits is a fault after so many characters. -/
def exponentLength (cs : List Char) (read : Nat) : Except Nat Nat :=
  match cs.drop read with
  | c :: rest =>
    if c = 'e' ∨ c = 'E' then
      let sign := exponentSignLength rest
      let digits := digitCount (rest.drop sign)
      if digits = 0 then .error (1 + sign) else .ok (1 + sign + digits)
    else .ok 0
  | [] => .ok 0

/-- Scans a number, given that the text starts with a digit or a minus sign. -/
def scanNumber (cs : List Char) : TokenKind × Nat :=
  let sign := if cs.head? = some '-' then 1 else 0
  let digits := digitCount (cs.drop sign)
  if digits = 0 then (.error .loneMinus, sign)
  else if (cs.drop sign).head? = some '0' ∧ 1 < digits then
    malformedNumber .leadingZero cs (sign + 1)
  else
    let whole := sign + digits
    match fractionLength cs whole with
    | .error fault => malformedNumber fault cs (whole + 1)
    | .ok fraction =>
      match exponentLength cs (whole + fraction) with
      | .error mark => malformedNumber .noExponentDigit cs (whole + fraction + mark)
      | .ok exponent =>
        let length := whole + fraction + exponent
        if ((cs.drop length).head?.any fun c => c = '.' || isNameStart c) then
          malformedNumber .unexpectedCharacter cs length
        else if fraction + exponent = 0 then (.int (.ofList (cs.take length)), length)
        else (.float (.ofList (cs.take length)), length)

/-! ## Strings -/

/-- The number of characters up to the quote that closes a string, or, if none
does, up to the end of the line.  The flag says whether the string is closed. -/
def quotedLength : List Char → Nat × Bool
  | [] => (0, false)
  | '\\' :: [] => (1, false)
  | '\\' :: c :: rest =>
    if isLineEnd c then (1, false)
    else let (n, closed) := quotedLength rest; (n + 2, closed)
  | c :: rest =>
    if c = '"' then (0, true)
    else if isLineEnd c then (0, false)
    else let (n, closed) := quotedLength rest; (n + 1, closed)

/-- The number of characters up to the quotes that close a block string, or, if
none do, up to the end of the text.  The flag says whether it is closed. -/
def blockLength : List Char → Nat × Bool
  | [] => (0, false)
  | '\\' :: '"' :: '"' :: '"' :: rest => let (n, closed) := blockLength rest; (n + 4, closed)
  | '"' :: '"' :: '"' :: _ => (0, true)
  | _ :: rest => let (n, closed) := blockLength rest; (n + 1, closed)

/-- The token of a string with the value or fault `value`. -/
def stringToken (make : String → TokenKind) : Except StringFault (List Char) → TokenKind
  | .ok value => make (.ofList value)
  | .error fault => .error (.string fault)

/-- Scans a string, given the text after its first quote. -/
def scanString (cs : List Char) : TokenKind × Nat :=
  match cs with
  | '"' :: '"' :: rest =>
    let (n, closed) := blockLength rest
    if closed then (stringToken .blockString (StringValue.ofBlock (rest.take n)), n + 6)
    else (.error .unterminatedBlockString, n + 3)
  | _ =>
    let (n, closed) := quotedLength cs
    if closed then (stringToken .string (StringValue.ofQuoted (cs.take n)), n + 2)
    else (.error .unterminatedString, n + 1)

/-! ## One token -/

/-- The kind of the token that a name is. -/
def ofName (name : String) : TokenKind :=
  if name = "true" then .boolean true
  else if name = "false" then .boolean false
  else if name = "null" then .null
  else .name name

/-- Scans a name. -/
def scanName (cs : List Char) : TokenKind × Nat :=
  let name := cs.takeWhile isNameContinue
  (ofName (.ofList name), name.length)

/-- Scans what starts with a dot, given the text after that dot. -/
def scanDots : List Char → TokenKind × Nat
  | '.' :: '.' :: _ => (.punctuator .ellipsis, 3)
  | '.' :: _ => (.error .twoDots, 2)
  | _ => (.error .oneDot, 1)

/-- The token that a text starts with, and its length. -/
def scan (cs : List Char) : TokenKind × Nat :=
  match cs with
  | [] => (.eof, 0)
  | c :: rest =>
    match Punctuator.ofChar? c with
    | some p => (.punctuator p, 1)
    | none =>
      if c = '.' then scanDots rest
      else if c = '"' then scanString rest
      else if isNameStart c then scanName cs
      else if c = '-' ∨ c.isDigit then scanNumber cs
      else (.error (.character c), 1)

end Token

/-! ## All tokens of a text -/

/-- A text read up to a token boundary.  `finished` says that its end was given
out as a token. -/
structure Lexer where
  cursor : Cursor
  finished : Bool
  deriving DecidableEq, Repr

namespace Lexer

def start (text : List Char) : Lexer := ⟨.start text, false⟩

/-- The lexer of `text` that goes on at the offset `byte`. -/
def atByte (text : List Char) (byte : Nat) : Lexer := ⟨.atByte text byte, false⟩

/-- The next token, unless the end of the text was reached before. -/
def next? (lexer : Lexer) : Option (Token × Lexer) :=
  if lexer.finished then none
  else
    let first := lexer.cursor.advance (Token.ignoredLength false lexer.cursor.rest)
    let (kind, length) := Token.scan first.rest
    let after := first.advance length
    some (⟨kind, first.position, after.position⟩, ⟨after, kind = .eof⟩)

/-- The tokens that are left, at most `limit` of them. -/
private def collect : (limit : Nat) → Lexer → List Token
  | 0, _ => []
  | limit + 1, lexer =>
    match lexer.next? with
    | none => []
    | some (token, after) => token :: collect limit after

/-- All tokens that are left. -/
def tokens (lexer : Lexer) : List Token := collect (lexer.cursor.rest.length + 1) lexer

end Lexer

/-! ## Every token takes characters -/

namespace Token

theorem scan_cons_pos (c : Char) (rest : List Char) : 0 < (scan (c :: rest)).2 := by
  simp only [scan]
  split
  · exact Nat.zero_lt_one
  split
  · unfold scanDots
    split <;> simp
  split
  · unfold scanString
    split <;> (simp only; split <;> simp)
  split
  · rename_i hstart
    have hcontinue : isNameContinue c = true := by
      simp only [isNameStart, isNameContinue, Char.isAlphanum, Bool.or_eq_true] at hstart ⊢
      exact hstart.imp_left Or.inl
    simp [scanName, hcontinue]
  split
  · rename_i hnumber
    have hdigits : c ≠ '-' → digitCount (c :: rest) ≠ 0 := by
      intro hne
      simp [digitCount, hnumber.resolve_left hne]
    unfold scanNumber malformedNumber
    by_cases hsign : c = '-'
    · simp only [hsign, List.head?_cons, if_true]
      repeat' split
      all_goals simp only; omega
    · simp only [List.head?_cons, Option.some.injEq, hsign, if_false, List.drop_zero,
        hdigits hsign]
      repeat' split
      all_goals simp only; have := hdigits hsign; omega
  · exact Nat.zero_lt_one

theorem scan_cons_ne_eof (c : Char) (rest : List Char) : (scan (c :: rest)).1 ≠ .eof := by
  have hstring {make : String → TokenKind} (hmake : ∀ text, make text ≠ .eof)
      (value : Except StringFault (List Char)) : stringToken make value ≠ .eof := by
    cases value with
    | error fault => exact TokenKind.noConfusion
    | ok value => exact hmake _
  simp only [scan]
  split
  · exact TokenKind.noConfusion
  split
  · unfold scanDots
    split <;> exact TokenKind.noConfusion
  split
  · unfold scanString
    split <;> (simp only; split)
    · exact hstring (fun _ => TokenKind.noConfusion) _
    · exact TokenKind.noConfusion
    · exact hstring (fun _ => TokenKind.noConfusion) _
    · exact TokenKind.noConfusion
  split
  · simp only [scanName, ofName]
    repeat' split
    all_goals exact TokenKind.noConfusion
  split
  · simp only [scanNumber, malformedNumber]
    repeat' split
    all_goals exact TokenKind.noConfusion
  · exact TokenKind.noConfusion

end Token

namespace Lexer

theorem next?_eq (text : Cursor) :
    next? ⟨text, false⟩ =
      let first := text.advance (Token.ignoredLength false text.rest)
      let after := first.advance (Token.scan first.rest).2
      some (⟨(Token.scan first.rest).1, first.position, after.position⟩,
        ⟨after, (Token.scan first.rest).1 = .eof⟩) := rfl

/-- Unless the end was reached, less is left after a token. -/
theorem length_lt_of_next? {lexer after : Lexer} {token : Token}
    (h : lexer.next? = some (token, after)) :
    after.finished ∨ after.cursor.rest.length < lexer.cursor.rest.length := by
  obtain ⟨text, finished⟩ := lexer
  cases finished with
  | true => cases h
  | false =>
      rw [next?_eq] at h
      obtain ⟨-, rfl⟩ := Prod.mk.inj (Option.some.inj h)
      cases hrest : (text.advance (Token.ignoredLength false text.rest)).rest with
      | nil => exact Or.inl rfl
      | cons c rest =>
          refine Or.inr ?_
          have hpos := Token.scan_cons_pos c rest
          have hlength := congrArg List.length hrest
          simp only [Cursor.advance_rest, List.length_drop, List.length_cons] at hlength ⊢
          omega

private theorem collect_eq_of_lt {n m : Nat} {lexer : Lexer}
    (hn : lexer.cursor.rest.length < n) (hm : lexer.cursor.rest.length < m) :
    collect n lexer = collect m lexer := by
  have hfinished {n : Nat} {lexer : Lexer} (h : lexer.finished) : collect n lexer = [] := by
    cases n with
    | zero => rfl
    | succ n => simp [collect, next?, h]
  induction n generalizing m lexer with
  | zero => exact absurd hn (Nat.not_lt_zero _)
  | succ n ih =>
      obtain ⟨m, rfl⟩ := Nat.exists_eq_succ_of_ne_zero (Nat.ne_of_gt (Nat.zero_lt_of_lt hm))
      rw [collect, collect]
      cases h : lexer.next? with
      | none => rfl
      | some next =>
          obtain ⟨token, after⟩ := next
          rcases length_lt_of_next? h with hafter | hafter
          · simp only [hfinished hafter]
          · simp only [ih (by omega) (by omega : after.cursor.rest.length < m)]

/-- The tokens of a text are the first one and those after it. -/
theorem tokens_of_next? {lexer after : Lexer} {token : Token}
    (h : lexer.next? = some (token, after)) : lexer.tokens = token :: after.tokens := by
  rw [tokens, collect, h, tokens]
  rcases length_lt_of_next? h with hafter | hafter
  · cases hlength : lexer.cursor.rest.length <;> simp [collect, next?, hafter]
  · simp only [collect_eq_of_lt hafter (Nat.lt_succ_self _)]

theorem tokens_of_finished {lexer : Lexer} (h : lexer.finished) : lexer.tokens = [] := by
  simp [tokens, collect, next?, h]

end Lexer

/-- All tokens of a text; the last one is its end. -/
def Token.all (text : String) : List Token := (Lexer.start text.toList).tokens

end GraphQL
