import GraphQL.Proofs.Token.Tiling
import GraphQL.Proofs.Token.Words

/-!
# Which numbers are tokens

The grammar of numbers leaves open where a number ends: `1` is in front of `12`, and so is `12`.
It is settled by what stands behind.  A text is scanned as a number if it is one and no digit,
point, letter or underscore comes next (`Token.EndsIn`).  That is one text at most, since a sign
within a number stands behind a letter, and if there is none the token is an error.
-/

namespace GraphQL

namespace Token

variable {text other rest cs : List Char}

/-! ## The grammar of numbers -/

/-- The text of an integer: digits without leading zeros, with or without a sign. -/
def IsInt (text : List Char) : Prop :=
  ∃ sign whole, IsNumber sign whole [] [] ∧ text = sign ++ whole

/-- The text of a float: an integer with a fraction, an exponent or both behind it. -/
def IsFloat (text : List Char) : Prop :=
  ∃ sign whole fraction exponent, IsNumber sign whole fraction exponent ∧
    fraction ++ exponent ≠ [] ∧ text = sign ++ (whole ++ (fraction ++ exponent))

/-- The text stands in front of `cs`, where no number goes on behind it. -/
def EndsIn (cs text : List Char) : Prop := ∃ rest, cs = text ++ rest ∧ endsNumber rest

/-! ## What is scanned -/

theorem scanNumber_int (h : IsInt text) (hrest : endsNumber rest) :
    scanNumber (text ++ rest) = (.int (.ofList text), text.length) := by
  obtain ⟨sign, whole, hnumber, rfl⟩ := h
  have hscan := scanNumber_append hnumber hrest
  simp only [List.append_nil] at hscan
  rw [hscan, numberKind]
  simp only [List.append_nil, List.length_nil, if_true]

theorem scanNumber_float (h : IsFloat text) (hrest : endsNumber rest) :
    scanNumber (text ++ rest) = (.float (.ofList text), text.length) := by
  obtain ⟨sign, whole, fraction, exponent, hnumber, hne, rfl⟩ := h
  have hlength : fraction.length + exponent.length ≠ 0 := by
    rw [← List.length_append]
    exact mt List.eq_nil_of_length_eq_zero hne
  rw [scanNumber_append hnumber hrest, numberKind]
  simp only [if_neg hlength]

/-- The text in front is a number that ends there, or else the token is an error. -/
theorem scanNumber_cases (cs : List Char) :
    (∃ text, IsInt text ∧ EndsIn cs text) ∨ (∃ text, IsFloat text ∧ EndsIn cs text) ∨
      ∃ fault, (scanNumber cs).1 = .error fault := by
  by_cases hfault : ∃ fault, (scanNumber cs).1 = .error fault
  · exact .inr (.inr hfault)
  · obtain ⟨sign, whole, fraction, exponent, rest, hnumber, hrest, rfl⟩ :=
      exists_isNumber (not_exists.mp hfault)
    by_cases hint : fraction ++ exponent = []
    · obtain ⟨rfl, rfl⟩ := List.append_eq_nil_iff.mp hint
      simp only [List.append_nil]
      exact .inl ⟨sign ++ whole, ⟨sign, whole, hnumber, rfl⟩, rest, rfl, hrest⟩
    · exact .inr (.inl ⟨_, ⟨sign, whole, fraction, exponent, hnumber, hint, rfl⟩, rest, rfl, hrest⟩)

theorem length_scanNumber (h : IsInt text ∨ IsFloat text) (hend : EndsIn cs text) :
    (scanNumber cs).2 = text.length := by
  obtain ⟨rest, rfl, hrest⟩ := hend
  rcases h with h | h
  · rw [scanNumber_int h hrest]
  · rw [scanNumber_float h hrest]

/-- Two numbers that end in the same text are the same. -/
theorem eq_of_endsIn (h : IsInt text ∨ IsFloat text) (hend : EndsIn cs text)
    (hother : IsInt other ∨ IsFloat other) (hend' : EndsIn cs other) : text = other := by
  have hlength : text.length = other.length :=
    (length_scanNumber h hend).symm.trans (length_scanNumber hother hend')
  obtain ⟨rest, rfl, -⟩ := hend
  obtain ⟨rest', heq, -⟩ := hend'
  exact (List.append_inj heq hlength).1

theorem scanNumber_eq_int_iff {value : String} :
    (scanNumber cs).1 = .int value ↔ IsInt value.toList ∧ EndsIn cs value.toList := by
  constructor
  · intro h
    rcases scanNumber_cases cs with ⟨text, hint, rest, rfl, hrest⟩ |
      ⟨text, hfloat, rest, rfl, hrest⟩ | ⟨fault, hfault⟩
    · rw [scanNumber_int hint hrest] at h
      cases h
      rw [String.toList_ofList]
      exact ⟨hint, rest, rfl, hrest⟩
    · rw [scanNumber_float hfloat hrest] at h
      cases h
    · rw [hfault] at h
      cases h
  · rintro ⟨hint, rest, rfl, hrest⟩
    rw [scanNumber_int hint hrest, String.ofList_toList]

theorem scanNumber_eq_float_iff {value : String} :
    (scanNumber cs).1 = .float value ↔ IsFloat value.toList ∧ EndsIn cs value.toList := by
  constructor
  · intro h
    rcases scanNumber_cases cs with ⟨text, hint, rest, rfl, hrest⟩ |
      ⟨text, hfloat, rest, rfl, hrest⟩ | ⟨fault, hfault⟩
    · rw [scanNumber_int hint hrest] at h
      cases h
    · rw [scanNumber_float hfloat hrest] at h
      cases h
      rw [String.toList_ofList]
      exact ⟨hfloat, rest, rfl, hrest⟩
    · rw [hfault] at h
      cases h
  · rintro ⟨hfloat, rest, rfl, hrest⟩
    rw [scanNumber_float hfloat hrest, String.ofList_toList]

end Token

open Token

/-- Where a lexer starts a token at a sign or a digit, the token is the one number that ends
there, and covers it.  If no number ends there, it is an error, and covers a character. -/
theorem Lexer.numbers_are_exact {source : String} {byte : ℕ} {token : Token}
    {before cs : List Char} (htoken : token ∈ (Lexer.atByte source.toList byte).tokens)
    (hsource : source.toList = before ++ cs) (hstart : token.span.start = .after before)
    (hnumber : cs.head?.any fun c => c = '-' || c.isDigit) :
    (∀ text, token.kind = .int text ↔ IsInt text.toList ∧ EndsIn cs text.toList) ∧
      (∀ text, token.kind = .float text ↔ IsFloat text.toList ∧ EndsIn cs text.toList) ∧
      {text | (IsInt text ∨ IsFloat text) ∧ EndsIn cs text}.Subsingleton ∧
      (∀ text, IsInt text ∨ IsFloat text → EndsIn cs text →
        token.span.stop = .after (before ++ text)) ∧
      ((∀ text, IsInt text ∨ IsFloat text → ¬EndsIn cs text) →
        (∃ fault, token.kind = .error fault) ∧
        ∃ word, word ≠ [] ∧ word <+: cs ∧ token.span.stop = .after (before ++ word)) := by
  obtain ⟨c, rest, rfl⟩ : ∃ c rest, cs = c :: rest := by
    cases cs with
    | nil => cases hnumber
    | cons c rest => exact ⟨c, rest, rfl⟩
  have hc : c = '-' ∨ c.isDigit := by simpa using hnumber
  have hpos := scan_cons_pos c rest
  have hscanned := scan_of_mem_atByte htoken hsource hstart
  rw [scan_eq_scanNumber hc] at hpos hscanned
  subst hscanned
  refine ⟨fun _ => scanNumber_eq_int_iff, fun _ => scanNumber_eq_float_iff, ?_, ?_, ?_⟩
  · rintro text ⟨htext, hend⟩ other ⟨hother, hend'⟩
    exact eq_of_endsIn htext hend hother hend'
  · intro text htext hend
    rw [length_scanNumber htext hend]
    obtain ⟨rest, hcs, -⟩ := hend
    rw [hcs, List.take_left]
  · intro hnone
    refine ⟨?_, (c :: rest).take (scanNumber (c :: rest)).2, ?_, List.take_prefix _ _, rfl⟩
    · rcases scanNumber_cases (c :: rest) with ⟨text, hint, hend⟩ | ⟨text, hfloat, hend⟩ | hfault
      · exact absurd hend (hnone text (.inl hint))
      · exact absurd hend (hnone text (.inr hfloat))
      · exact hfault
    · rw [Ne, List.take_eq_nil_iff]
      exact fun hnil => hnil.elim hpos.ne' (List.cons_ne_nil c rest)

/-- A float with all its parts, in brackets and with a string right behind it. -/
def bracketedFloat : Token where
  kind := .float "-10.5e+3"
  span := ⟨.after "[".toList, .after "[-10.5e+3".toList⟩

theorem Lexer.numbers_are_exact_of_float :
    bracketedFloat ∈ (Lexer.atByte "[-10.5e+3\"\"]".toList 0).tokens ∧
      "[-10.5e+3\"\"]".toList = "[".toList ++ "-10.5e+3\"\"]".toList ∧
      bracketedFloat.span.start = .after "[".toList ∧
      ("-10.5e+3\"\"]".toList.head?.any fun c => c = '-' || c.isDigit) ∧
      ∀ text, bracketedFloat.kind = .float text ↔
        IsFloat text.toList ∧ EndsIn "-10.5e+3\"\"]".toList text.toList := by
  have htoken : bracketedFloat ∈ (Lexer.atByte "[-10.5e+3\"\"]".toList 0).tokens := by
    decide +kernel
  exact ⟨htoken, rfl, rfl, rfl, (numbers_are_exact htoken rfl rfl rfl).2.1⟩

end GraphQL
