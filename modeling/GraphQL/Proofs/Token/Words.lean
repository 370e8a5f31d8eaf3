import Mathlib
import GraphQL.Document.Printer
import GraphQL.Proofs.Token.Spelled

/-!
# Names, numbers and strings as words

The words of the language, each as a text that is scanned as one token wherever nothing runs
it on: names and keywords; numbers, given by the parts they are made of; and any string
whatever, once it is written between quotes with its escapes.  Conversely, every name or
number that a text has among its tokens is a word (`Token.genuine_of_mem_all`).
-/

namespace GraphQL

namespace Token

/-! ## Names -/

theorem ofChar?_eq_none_of_isNameContinue {c : Char} (h : isNameContinue c) :
    Punctuator.ofChar? c = none := by
  unfold Punctuator.ofChar?
  split
  case h_14 => rfl
  all_goals exact absurd h (by decide)

theorem isNameContinue_of_isNameStart {c : Char} (h : isNameStart c) : isNameContinue c := by
  simp only [isNameStart, isNameContinue, Char.isAlphanum, Bool.or_eq_true] at h ⊢
  exact h.imp_left Or.inl

/-- Only characters below the letters and the braces are ignored or start a comment. -/
theorem not_isIgnored_of_isNameContinue {c : Char} (h : isNameContinue c) :
    isIgnored c = false ∧ c ≠ '#' ∧ c ≠ '\n' := by
  refine ⟨?_, ?_, ?_⟩
  · rw [Bool.eq_false_iff]
    intro hc
    simp only [isIgnored, Bool.or_eq_true, decide_eq_true_eq] at hc
    rcases hc with ((((rfl | rfl) | rfl) | rfl) | rfl) | rfl <;> exact absurd h (by decide)
  · rintro rfl
    exact absurd h (by decide)
  · rintro rfl
    exact absurd h (by decide)

theorem takeWhile_append_eq {p : Char → Bool} {text rest : List Char} (h : ∀ c ∈ text, p c)
    (hrest : rest.head?.any p = false) : (text ++ rest).takeWhile p = text := by
  rw [List.takeWhile_append_of_pos h]
  cases rest with
  | nil => simp
  | cons c rest =>
      have hc : p c = false := hrest
      simp [hc]

/-- A name as it may be written. -/
def isName (text : List Char) : Bool :=
  text.head?.any isNameStart && text.all isNameContinue

theorem word_name {text : List Char} (h : isName text) : Word text (ofName (.ofList text)) := by
  obtain ⟨hstart, hall⟩ := (Bool.and_eq_true ..).mp h
  obtain ⟨c, tail, rfl⟩ : ∃ c tail, text = c :: tail := by
    cases text with
    | nil => cases hstart
    | cons c tail => exact ⟨c, tail, rfl⟩
  have hstart : isNameStart c = true := hstart
  have hall : ∀ d ∈ c :: tail, isNameContinue d := List.all_eq_true.mp hall
  have hcontinue := hall c (.head _)
  refine ⟨?_, ⟨c, tail, rfl, (not_isIgnored_of_isNameContinue hcontinue).1,
    (not_isIgnored_of_isNameContinue hcontinue).2.1⟩,
    fun hmem => (not_isIgnored_of_isNameContinue (hall _ hmem)).2.2 rfl, ?_⟩
  · intro rest hrest
    have hhead : rest.head?.any isNameContinue = false := by
      cases rest with
      | nil => rfl
      | cons d rest =>
          simp only [startsApart, Bool.not_eq_true', Bool.or_eq_false_iff] at hrest
          exact hrest.1.1
    have hdot : c ≠ '.' := by
      rintro rfl
      exact absurd hstart (by decide)
    have hquote : c ≠ '"' := by
      rintro rfl
      exact absurd hstart (by decide)
    rw [List.cons_append, scan]
    simp only [ofChar?_eq_none_of_isNameContinue hcontinue, hdot, hquote, if_false]
    rw [if_pos hstart, ← List.cons_append, scanName]
    simp only [takeWhile_append_eq hall hhead]
  · intro fault
    unfold ofName
    repeat' split
    all_goals exact TokenKind.noConfusion

/-! ## Numbers -/

/-- A row of at least one digit. -/
structure IsDigits (text : List Char) : Prop where
  ne_nil : text ≠ []
  all : ∀ c ∈ text, c.isDigit

/-- The whole part of a number, without leading zeros. -/
structure IsWhole (text : List Char) : Prop extends IsDigits text where
  leading : text.head? = some '0' → text.length = 1

/-- The fraction of a number, if it has one. -/
inductive IsFraction : List Char → Prop where
  | none : IsFraction []
  | digits {text : List Char} : IsDigits text → IsFraction ('.' :: text)

/-- The exponent of a number, if it has one. -/
inductive IsExponent : List Char → Prop where
  | none : IsExponent []
  | digits {mark : Char} {sign text : List Char} : mark = 'e' ∨ mark = 'E' →
      sign = [] ∨ sign = ['+'] ∨ sign = ['-'] → IsDigits text → IsExponent (mark :: sign ++ text)

/-- A number as it may be written. -/
structure IsNumber (sign whole fraction exponent : List Char) : Prop where
  sign : sign = [] ∨ sign = ['-']
  whole : IsWhole whole
  fraction : IsFraction fraction
  exponent : IsExponent exponent

theorem digitCount_append {digits rest : List Char} (h : ∀ c ∈ digits, c.isDigit)
    (hrest : rest.head?.any Char.isDigit = false) :
    digitCount (digits ++ rest) = digits.length := by
  rw [digitCount, takeWhile_append_eq h hrest]

/-- The digits a text starts with, and what comes after them. -/
theorem exists_digits (cs : List Char) :
    ∃ digits rest, cs = digits ++ rest ∧ digits.length = digitCount cs ∧
      (∀ c ∈ digits, c.isDigit) ∧ rest.head?.any Char.isDigit = false := by
  refine ⟨cs.takeWhile Char.isDigit, cs.dropWhile Char.isDigit,
    List.takeWhile_append_dropWhile.symm, rfl, fun c hc => ?_, ?_⟩
  · exact List.all_eq_true.mp List.all_takeWhile c hc
  · cases hrest : cs.dropWhile Char.isDigit with
    | nil => rfl
    | cons c rest =>
        have hne : cs.dropWhile Char.isDigit ≠ [] := by rw [hrest]; exact List.cons_ne_nil c rest
        have hnot := List.head_dropWhile_not Char.isDigit hne
        simpa [hrest] using hnot

theorem fractionLength_append {before fraction rest : List Char} (h : IsFraction fraction)
    (hdigit : rest.head?.any Char.isDigit = false) (hpoint : rest.head? ≠ some '.') :
    fractionLength (before ++ (fraction ++ rest)) before.length = .ok fraction.length := by
  rw [fractionLength, List.drop_left]
  cases h with
  | none =>
      split
      · next heq => exact absurd (congrArg List.head? heq) hpoint
      · rfl
  | digits htext =>
      simp only [List.cons_append, digitCount_append htext.all hdigit]
      rw [if_neg (mt List.eq_nil_of_length_eq_zero htext.ne_nil), Nat.add_comm]
      rfl

theorem exponentLength_append {before exponent rest : List Char} (h : IsExponent exponent)
    (hdigit : rest.head?.any Char.isDigit = false) (hmark : rest.head?.any isNameStart = false) :
    exponentLength (before ++ (exponent ++ rest)) before.length = .ok exponent.length := by
  rw [exponentLength, List.drop_left]
  cases h with
  | none =>
      cases rest with
      | nil => rfl
      | cons c rest =>
          have hmark : isNameStart c = false := hmark
          have hne : ¬ (c = 'e' ∨ c = 'E') := by
            rintro (rfl | rfl) <;> exact absurd hmark (by decide)
          simp only [List.nil_append, if_neg hne]
          rfl
  | @digits mark sign text hmarked hsign htext =>
      have hlength : exponentSignLength (sign ++ text ++ rest) = sign.length := by
        rcases hsign with rfl | rfl | rfl
        · obtain ⟨d, digits, rfl⟩ := List.exists_cons_of_ne_nil htext.ne_nil
          have hd := htext.all d (.head _)
          simp only [List.nil_append, List.cons_append, List.length_nil, exponentSignLength]
          split
          · next heq => cases heq; exact absurd hd (by decide)
          · next heq => cases heq; exact absurd hd (by decide)
          · rfl
        · rfl
        · rfl
      have hdrop : (sign ++ text ++ rest).drop sign.length = text ++ rest := by
        rw [List.append_assoc, List.drop_left]
      simp only [List.cons_append, if_pos hmarked, hlength, hdrop,
        digitCount_append htext.all hdigit]
      rw [if_neg (mt List.eq_nil_of_length_eq_zero htext.ne_nil)]
      simp only [List.length_cons, List.length_append]
      congr 1
      omega

/-- Whether no number in front of the text goes on in it, as it would by a digit, a point, a letter
or an underscore. -/
def endsNumber (rest : List Char) : Bool := !rest.head?.any fun c => isNameContinue c || c = '.'

theorem isNameContinue_eq (c : Char) : isNameContinue c = (c.isDigit || isNameStart c) := by
  simp only [isNameContinue, isNameStart, Char.isAlphanum]
  cases c.isDigit <;> simp

theorem endsNumber_iff {rest : List Char} : endsNumber rest ↔
    rest.head?.any Char.isDigit = false ∧ rest.head?.any isNameStart = false ∧
      rest.head? ≠ some '.' := by
  cases rest with
  | nil => exact iff_of_true rfl ⟨rfl, rfl, nofun⟩
  | cons c rest =>
      simp [endsNumber, isNameContinue_eq, and_assoc]

theorem endsNumber_of_startsApart {rest : List Char} (h : startsApart rest) : endsNumber rest := by
  cases rest with
  | nil => rfl
  | cons c rest =>
      simp only [startsApart, Bool.not_eq_true', Bool.or_eq_false_iff] at h
      simpa [endsNumber] using h.1

theorem IsExponent.head {exponent rest : List Char} (h : IsExponent exponent)
    (hrest : endsNumber rest) : (exponent ++ rest).head?.any Char.isDigit = false ∧
      (exponent ++ rest).head? ≠ some '.' := by
  cases h with
  | none => exact ⟨(endsNumber_iff.mp hrest).1, (endsNumber_iff.mp hrest).2.2⟩
  | digits hmark => rcases hmark with rfl | rfl <;> exact ⟨rfl, by simp⟩

theorem IsFraction.head {fraction rest : List Char} (h : IsFraction fraction)
    (hrest : rest.head?.any Char.isDigit = false) :
    (fraction ++ rest).head?.any Char.isDigit = false := by
  cases h with
  | none => exact hrest
  | digits => rfl

theorem IsNumber.sign_eq {sign whole fraction exponent : List Char}
    (h : IsNumber sign whole fraction exponent) (rest : List Char) :
    (if (sign ++ (whole ++ rest)).head? = some '-' then 1 else 0) = sign.length := by
  rcases h.sign with rfl | rfl
  · obtain ⟨d, digits, rfl⟩ := List.exists_cons_of_ne_nil h.whole.ne_nil
    have hd : d ≠ '-' := by
      rintro rfl
      exact absurd (h.whole.all _ (.head _)) (by decide)
    simp [hd]
  · rfl

/-- The kind of a number with the given parts. -/
def numberKind (sign whole fraction exponent : List Char) : TokenKind :=
  let text := String.ofList (sign ++ (whole ++ (fraction ++ exponent)))
  if fraction.length + exponent.length = 0 then .int text else .float text

/-- A number is scanned up to its end. -/
theorem scanNumber_append {sign whole fraction exponent rest : List Char}
    (h : IsNumber sign whole fraction exponent) (hrest : endsNumber rest) :
    scanNumber (sign ++ (whole ++ (fraction ++ exponent)) ++ rest) =
      (numberKind sign whole fraction exponent,
        (sign ++ (whole ++ (fraction ++ exponent))).length) := by
  have htext : sign ++ (whole ++ (fraction ++ exponent)) ++ rest =
      sign ++ (whole ++ (fraction ++ (exponent ++ rest))) := by simp only [List.append_assoc]
  -- Part by part: each stops where the next one begins, as that does not go on with it.
  have hexponent := h.exponent.head hrest
  have hwhole : digitCount (whole ++ (fraction ++ (exponent ++ rest))) = whole.length :=
    digitCount_append h.whole.all (h.fraction.head hexponent.1)
  have hleading : ¬ ((whole ++ (fraction ++ (exponent ++ rest))).head? = some '0' ∧
      1 < whole.length) := by
    obtain ⟨d, digits, hcons⟩ := List.exists_cons_of_ne_nil h.whole.ne_nil
    rintro ⟨hzero, hlength⟩
    have := h.whole.leading (by rw [hcons] at hzero ⊢; exact hzero)
    omega
  have hfraction : fractionLength (sign ++ (whole ++ (fraction ++ (exponent ++ rest))))
      (sign.length + whole.length) = .ok fraction.length := by
    rw [← List.append_assoc, ← List.length_append]
    exact fractionLength_append h.fraction hexponent.1 hexponent.2
  have hexponentLength : exponentLength (sign ++ (whole ++ (fraction ++ (exponent ++ rest))))
      (sign.length + whole.length + fraction.length) = .ok exponent.length := by
    rw [← List.append_assoc, ← List.append_assoc, ← List.length_append, ← List.length_append]
    exact exponentLength_append h.exponent (endsNumber_iff.mp hrest).1 (endsNumber_iff.mp hrest).2.1
  have hlength : sign.length + whole.length + fraction.length + exponent.length =
      (sign ++ (whole ++ (fraction ++ exponent))).length := by
    simp only [List.length_append]
    omega
  have hend : ¬ (((sign ++ (whole ++ (fraction ++ exponent)) ++ rest).drop
      (sign ++ (whole ++ (fraction ++ exponent))).length).head?.any
        fun c => c = '.' || isNameStart c) = true := by
    rw [List.drop_left]
    cases rest with
    | nil => exact Bool.false_ne_true
    | cons c rest =>
        obtain ⟨-, hstart, hdot⟩ := endsNumber_iff.mp hrest
        have hstart : isNameStart c = false := hstart
        have hdot : c ≠ '.' := fun heq => hdot (congrArg some heq)
        simp [hstart, hdot]
  unfold scanNumber
  simp only [htext, h.sign_eq, List.drop_left, hwhole, hfraction, hexponentLength]
  rw [if_neg (mt List.eq_nil_of_length_eq_zero h.whole.ne_nil), if_neg hleading, hlength, ← htext,
    if_neg hend, List.take_left, numberKind]
  split <;> rfl

theorem isNameContinue_of_isDigit {c : Char} (h : c.isDigit) : isNameContinue c := by
  simp [isNameContinue, Char.isAlphanum, h]

theorem not_isNameStart_of_isDigit {c : Char} (h : c.isDigit) : isNameStart c = false := by
  rw [Bool.eq_false_iff]
  intro hstart
  simp only [isNameStart, Char.isAlpha, Char.isUpper, Char.isLower, Char.isDigit, Bool.or_eq_true,
    Bool.and_eq_true, decide_eq_true_eq, UInt32.le_iff_toNat_le, ge_iff_le] at h hstart
  have hnine : '9'.val.toNat = 57 := rfl
  have hA : 'A'.val.toNat = 65 := rfl
  have ha : 'a'.val.toNat = 97 := rfl
  rcases hstart with hstart | rfl
  · omega
  · exact absurd h.2 (by decide)

/-- The first character of a number. -/
theorem IsNumber.exists_cons {sign whole fraction exponent : List Char}
    (h : IsNumber sign whole fraction exponent) :
    ∃ c rest, sign ++ (whole ++ (fraction ++ exponent)) = c :: rest ∧ (c = '-' ∨ c.isDigit) := by
  rcases h.sign with rfl | rfl
  · obtain ⟨d, digits, rfl⟩ := List.exists_cons_of_ne_nil h.whole.ne_nil
    exact ⟨d, _, rfl, .inr (h.whole.all d (.head _))⟩
  · exact ⟨'-', _, rfl, .inl rfl⟩

theorem IsNumber.not_mem {sign whole fraction exponent : List Char} {c : Char}
    (h : IsNumber sign whole fraction exponent) (hdigit : c.isDigit = false)
    (hmark : c ∉ ['-', '+', '.', 'e', 'E']) :
    c ∉ sign ++ (whole ++ (fraction ++ exponent)) := by
  have hdigits {text : List Char} (htext : IsDigits text) : c ∉ text := fun hc =>
    absurd (htext.all c hc) (by rw [hdigit]; exact Bool.false_ne_true)
  simp only [List.mem_cons, List.not_mem_nil, or_false, not_or] at hmark
  obtain ⟨hminus, hplus, hdot, he, hE⟩ := hmark
  simp only [List.mem_append, not_or]
  refine ⟨?_, hdigits h.whole.toIsDigits, ?_, ?_⟩
  · rcases h.sign with rfl | rfl <;> simp [hminus]
  · cases h.fraction with
    | none => exact List.not_mem_nil
    | digits htext => simp [hdot, hdigits htext]
  · cases h.exponent with
    | none => exact List.not_mem_nil
    | digits hmarked hsign htext =>
        rcases hmarked with rfl | rfl <;> rcases hsign with rfl | rfl | rfl <;>
          simp [he, hE, hplus, hminus, hdigits htext]

theorem scan_eq_scanNumber {c : Char} (h : c = '-' ∨ c.isDigit) (rest : List Char) :
    scan (c :: rest) = scanNumber (c :: rest) := by
  rcases h with rfl | h
  · rfl
  · have hdot : c ≠ '.' := by
      rintro rfl
      exact absurd h (by decide)
    have hquote : c ≠ '"' := by
      rintro rfl
      exact absurd h (by decide)
    simp [scan, ofChar?_eq_none_of_isNameContinue (isNameContinue_of_isDigit h), hdot, hquote,
      not_isNameStart_of_isDigit h, h]

theorem word_number {sign whole fraction exponent : List Char}
    (h : IsNumber sign whole fraction exponent) :
    Word (sign ++ (whole ++ (fraction ++ exponent)))
      (numberKind sign whole fraction exponent) := by
  obtain ⟨c, tail, hcons, hc⟩ := h.exists_cons
  have hignored : isIgnored c = false ∧ c ≠ '#' := by
    rcases hc with rfl | hc
    · exact ⟨by decide, by decide⟩
    · have := not_isIgnored_of_isNameContinue (isNameContinue_of_isDigit hc)
      exact ⟨this.1, this.2.1⟩
  refine ⟨fun {rest} hrest => ?_, ⟨c, tail, hcons, hignored⟩,
    h.not_mem (by decide) (by decide), fun fault => ?_⟩
  · rw [← scanNumber_append h (endsNumber_of_startsApart hrest), hcons]
    exact scan_eq_scanNumber hc _
  · unfold numberKind
    simp only
    split <;> exact TokenKind.noConfusion

/-! ### The parts of a scanned number -/

theorem exists_fraction {before cs : List Char} {length : ℕ}
    (hdigit : cs.head?.any Char.isDigit = false)
    (h : fractionLength (before ++ cs) before.length = .ok length) :
    ∃ fraction rest, cs = fraction ++ rest ∧ fraction.length = length ∧ IsFraction fraction ∧
      rest.head?.any Char.isDigit = false := by
  rw [fractionLength, List.drop_left] at h
  split at h
  · next rest =>
      split at h
      · cases h
      · next hdigits =>
          obtain ⟨digits, after, rfl, hlength, hall, hafter⟩ := exists_digits rest
          refine ⟨'.' :: digits, after, rfl, ?_, .digits ⟨?_, hall⟩, hafter⟩
          · rw [List.length_cons, hlength, Nat.add_comm]
            exact Except.ok.inj h
          · rintro rfl
            exact hdigits hlength.symm
  · exact ⟨[], cs, rfl, Except.ok.inj h, .none, hdigit⟩

theorem exists_exponent {before cs : List Char} {length : ℕ}
    (hdigit : cs.head?.any Char.isDigit = false)
    (h : exponentLength (before ++ cs) before.length = .ok length) :
    ∃ exponent rest, cs = exponent ++ rest ∧ exponent.length = length ∧ IsExponent exponent ∧
      rest.head?.any Char.isDigit = false := by
  rw [exponentLength, List.drop_left] at h
  split at h
  · next mark rest =>
      split at h
      · next hmark =>
          simp only at h
          split at h
          · cases h
          · next hdigits =>
              -- The sign behind the mark is optional, the digits behind it are not.
              obtain ⟨sign, after, rfl, hsign, hlength⟩ : ∃ sign after, rest = sign ++ after ∧
                  (sign = [] ∨ sign = ['+'] ∨ sign = ['-']) ∧
                    exponentSignLength rest = sign.length := by
                unfold exponentSignLength
                split
                · exact ⟨['+'], _, rfl, .inr (.inl rfl), rfl⟩
                · exact ⟨['-'], _, rfl, .inr (.inr rfl), rfl⟩
                · exact ⟨[], _, rfl, .inl rfl, rfl⟩
              rw [hlength, List.drop_left] at h hdigits
              obtain ⟨digits, last, rfl, hcount, hall, hlast⟩ := exists_digits after
              refine ⟨mark :: sign ++ digits, last, ?_, ?_, .digits hmark hsign ⟨?_, hall⟩, hlast⟩
              · rw [List.cons_append, List.cons_append, List.append_assoc]
              · rw [← Except.ok.inj h, ← hcount]
                simp only [List.cons_append, List.length_cons, List.length_append]
                omega
              · rintro rfl
                exact hdigits hcount.symm
      · exact ⟨[], mark :: rest, rfl, Except.ok.inj h, .none, hdigit⟩
  · exact ⟨[], [], rfl, Except.ok.inj h, .none, rfl⟩

/-- A number that was scanned has all its parts, and ends where nothing goes on with it. -/
theorem exists_isNumber {cs : List Char} (h : ∀ fault, (scanNumber cs).1 ≠ .error fault) :
    ∃ sign whole fraction exponent rest, IsNumber sign whole fraction exponent ∧
      endsNumber rest ∧ cs = sign ++ (whole ++ (fraction ++ exponent)) ++ rest := by
  obtain ⟨sign, body, rfl, hsign, hlength⟩ : ∃ sign body, cs = sign ++ body ∧
      (sign = [] ∨ sign = ['-']) ∧ (if cs.head? = some '-' then 1 else 0) = sign.length := by
    cases cs with
    | nil => exact ⟨[], [], rfl, .inl rfl, rfl⟩
    | cons c rest =>
        by_cases hc : c = '-'
        · exact ⟨['-'], rest, by rw [hc]; rfl, .inr rfl, by simp [hc]⟩
        · exact ⟨[], c :: rest, rfl, .inl rfl, by simp [hc]⟩
  obtain ⟨whole, rest, rfl, hcount, hall, hrest⟩ := exists_digits body
  revert h
  unfold scanNumber malformedNumber
  simp only [hlength, List.drop_left, ← hcount]
  -- every way to stop early is an error
  split
  · exact fun h => absurd rfl (h _)
  rename_i hwhole
  split
  · exact fun h => absurd rfl (h _)
  rename_i hleading
  split
  · exact fun h => absurd rfl (h _)
  rename_i hfraction
  split
  · exact fun h => absurd rfl (h _)
  rename_i hexponent
  rw [← List.append_assoc, ← List.length_append] at hfraction
  obtain ⟨fraction, after, rfl, rfl, hisFraction, hafter⟩ := exists_fraction hrest hfraction
  rw [← List.length_append, ← List.length_append, ← List.append_assoc, ← List.append_assoc]
    at hexponent
  obtain ⟨exponent, last, rfl, rfl, hisExponent, hlast⟩ := exists_exponent hafter hexponent
  split
  · exact fun h => absurd rfl (h _)
  rename_i hend
  have hne : whole ≠ [] := fun hnil => hwhole (by rw [hnil]; rfl)
  have hone : whole.head? = some '0' → whole.length = 1 := by
    intro hzero
    have hpos := List.length_pos_iff.mpr hne
    have hhead : (whole ++ (fraction ++ (exponent ++ last))).head? = some '0' := by
      rw [List.head?_append, hzero, Option.some_or]
    have hle : ¬ 1 < whole.length := fun hlt => hleading ⟨hhead, hlt⟩
    omega
  have htext : sign ++ (whole ++ (fraction ++ (exponent ++ last))) =
      sign ++ (whole ++ (fraction ++ exponent)) ++ last := by simp only [List.append_assoc]
  have hdrop : (sign ++ (whole ++ (fraction ++ (exponent ++ last)))).drop
      (sign.length + whole.length + fraction.length + exponent.length) = last := by
    simp only [← List.append_assoc, ← List.length_append, List.drop_left]
  refine fun _ => ⟨sign, whole, fraction, exponent, last,
    ⟨hsign, ⟨⟨hne, hall⟩, hone⟩, hisFraction, hisExponent⟩, endsNumber_iff.mpr ⟨hlast, ?_⟩, htext⟩
  rw [hdrop] at hend
  cases last with
  | nil => exact ⟨rfl, nofun⟩
  | cons c last => simpa [and_comm] using hend

/-! ## Strings -/

/-- A character that stands for itself between single quotes. -/
def isPlain (c : Char) : Bool := !(c = '\\' || c = '"' || isLineEnd c)

theorem quotedLength_plain {c : Char} (h : isPlain c) (rest : List Char) :
    quotedLength (c :: rest) = ((quotedLength rest).1 + 1, (quotedLength rest).2) := by
  simp only [isPlain, Bool.not_eq_true', Bool.or_eq_false_iff, decide_eq_false_iff_not] at h
  obtain ⟨⟨hescape, hquote⟩, hend⟩ := h
  rw [quotedLength]
  · simp [hquote, hend]
  · exact fun heq => absurd heq hescape
  · exact fun c rest heq => absurd heq hescape

theorem quotedLength_append {text : List Char} (h : ∀ c ∈ text, isPlain c) (rest : List Char) :
    quotedLength (text ++ rest) = ((quotedLength rest).1 + text.length, (quotedLength rest).2) := by
  induction text with
  | nil => rfl
  | cons c text ih =>
      rw [List.cons_append, quotedLength_plain (h c (.head _)),
        ih fun d hd => h d (.tail _ hd), List.length_cons, Nat.add_assoc]

theorem quotedLength_escape {c : Char} (h : isLineEnd c = false) (rest : List Char) :
    quotedLength ('\\' :: c :: rest) =
      ((quotedLength rest).1 + 2, (quotedLength rest).2) := by
  rw [quotedLength]
  simp [h]

/-- The digits that a control character is written with. -/
theorem hexEscape_control {n : Nat} (h : n < 0x20 ∨ n = 0x7f) :
    ((hexDigits4 n).map Char.toUpper).length = 4 ∧
      ((hexDigits4 n).map Char.toUpper).all isPlain ∧
      (StringValue.hexEscape ((hexDigits4 n).map Char.toUpper)).toOption = some (Char.ofNat n) := by
  have hall : ∀ n < 128, (n < 0x20 ∨ n = 0x7f) →
      ((hexDigits4 n).map Char.toUpper).length = 4 ∧
        ((hexDigits4 n).map Char.toUpper).all isPlain ∧
        (StringValue.hexEscape ((hexDigits4 n).map Char.toUpper)).toOption =
          some (Char.ofNat n) := by
    decide +kernel
  exact hall n (by omega) h

theorem hexEscape_append {digits : List Char} {c : Char} (hlength : digits.length = 4)
    (h : (StringValue.hexEscape digits).toOption = some c) (rest : List Char) :
    StringValue.hexEscape (digits ++ rest) = .ok c := by
  have htake : (digits ++ rest).take 4 = digits.take 4 := by
    rw [List.take_append_of_le_length (by omega)]
  unfold StringValue.hexEscape at h ⊢
  rw [htake]
  simp only at h ⊢
  split at h
  · next hdigits =>
      rw [if_pos hdigits]
      split at h
      · exact congrArg Except.ok (Option.some.inj h)
      · cases h
  · cases h

/-- A character is written as a named escape, by its digits, or as itself. -/
theorem escapeChar_cases (c : Char) :
    (∃ d, Printer.escapeChar c = ['\\', d] ∧ StringValue.simpleEscape? d = some c ∧
        isLineEnd d = false ∧ d ≠ 'u') ∨
      (∃ digits, Printer.escapeChar c = '\\' :: 'u' :: digits ∧ digits.length = 4 ∧
        (∀ d ∈ digits, isPlain d) ∧ (StringValue.hexEscape digits).toOption = some c) ∨
      Printer.escapeChar c = [c] ∧ isPlain c ∧ StringValue.isAllowed false c := by
  unfold Printer.escapeChar
  split
  -- The last case is that of no named escape: a control character, or a plain one.
  case h_8 hquote hescape hline hreturn _ _ _ =>
    right
    split
    · next hcontrol =>
        obtain ⟨hlength, hplain, hvalue⟩ := hexEscape_control hcontrol
        rw [Char.ofNat_toNat] at hvalue
        exact .inl ⟨_, rfl, hlength, List.all_eq_true.mp hplain, hvalue⟩
    · next hcontrol =>
        have hle : ' ' ≤ c := by
          rw [Char.le_def, UInt32.le_iff_toNat_le]
          exact Nat.le_of_not_lt fun hlt => hcontrol (.inl hlt)
        refine .inr ⟨rfl, ?_, by simp [StringValue.isAllowed, hle]⟩
        simp only [isPlain, isLineEnd, Bool.not_eq_true', Bool.or_eq_false_iff,
          decide_eq_false_iff_not]
        exact ⟨⟨hescape, hquote⟩, hline, hreturn⟩
  all_goals exact .inl ⟨_, rfl, rfl, by decide, by decide⟩

/-- Each character of a string is read back from what is written for it. -/
theorem ofQuoted_escapeChar (c : Char) (rest : List Char) :
    StringValue.ofQuoted (Printer.escapeChar c ++ rest) =
      (StringValue.ofQuoted rest).map (c :: ·) := by
  have hbind (value : Except StringFault (List Char)) :
      (do return c :: (← value)) = value.map (c :: ·) := by cases value <;> rfl
  rcases escapeChar_cases c with ⟨d, heq, hvalue, -, hu⟩ | ⟨digits, heq, hlength, -, hvalue⟩ |
    ⟨heq, hplain, hallowed⟩
  · rw [heq, List.cons_append, List.singleton_append, StringValue.ofQuoted, hvalue]
    · exact hbind _
    · exact fun h => hu h
  · rw [heq, List.cons_append, List.cons_append, StringValue.ofQuoted,
      hexEscape_append hlength hvalue, ← hlength, List.drop_left]
    exact hbind _
  · have hescape : c ≠ '\\' := by
      rintro rfl
      exact absurd hplain (by decide)
    rw [heq, List.singleton_append, StringValue.ofQuoted, if_pos hallowed]
    · exact hbind _
    · exact fun h => absurd h hescape
    · exact fun _ h => absurd h hescape
    · exact fun _ _ h => absurd h hescape

theorem quotedLength_escapeChar (c : Char) (rest : List Char) :
    quotedLength (Printer.escapeChar c ++ rest) =
      ((quotedLength rest).1 + (Printer.escapeChar c).length, (quotedLength rest).2) := by
  rcases escapeChar_cases c with ⟨d, heq, -, hline, -⟩ | ⟨digits, heq, -, hplain, -⟩ |
    ⟨heq, hplain, -⟩
  · rw [heq]
    exact quotedLength_escape hline rest
  · rw [heq, List.cons_append, List.cons_append, quotedLength_escape rfl,
      quotedLength_append hplain]
    rfl
  · rw [heq]
    exact quotedLength_plain hplain rest

/-- What is written for a string between its quotes is scanned up to the second quote and
has the string as its value. -/
theorem quoted_flatMap (value : List Char) (rest : List Char) :
    quotedLength (value.flatMap Printer.escapeChar ++ '"' :: rest) =
        ((value.flatMap Printer.escapeChar).length, true) ∧
      StringValue.ofQuoted (value.flatMap Printer.escapeChar) = .ok value := by
  induction value with
  | nil =>
      refine ⟨?_, by rw [List.flatMap_nil, StringValue.ofQuoted]⟩
      rw [List.flatMap_nil, List.nil_append, quotedLength]
      · rfl
      · exact fun h => absurd h (by decide)
      · exact fun _ _ h => absurd h (by decide)
  | cons c value ih =>
      obtain ⟨hlength, hvalue⟩ := ih
      rw [List.flatMap_cons, List.append_assoc, quotedLength_escapeChar, hlength,
        ofQuoted_escapeChar, hvalue, List.length_append, Nat.add_comm]
      exact ⟨rfl, rfl⟩

/-- What is written for a string starts with no quote. -/
theorem exists_cons_flatMap {value : List Char} (h : value ≠ []) :
    ∃ c rest, value.flatMap Printer.escapeChar = c :: rest ∧ c ≠ '"' := by
  obtain ⟨c, value, rfl⟩ := List.exists_cons_of_ne_nil h
  rw [List.flatMap_cons]
  rcases escapeChar_cases c with ⟨d, heq, -⟩ | ⟨digits, heq, -⟩ | ⟨heq, hplain, -⟩
  · exact ⟨'\\', _, by rw [heq]; rfl, by decide⟩
  · exact ⟨'\\', _, by rw [heq]; rfl, by decide⟩
  · refine ⟨c, _, by rw [heq]; rfl, ?_⟩
    rintro rfl
    exact absurd hplain (by decide)

theorem oneLine_flatMap (value : List Char) : '\n' ∉ value.flatMap Printer.escapeChar := by
  intro h
  obtain ⟨c, -, hc⟩ := List.mem_flatMap.mp h
  rcases escapeChar_cases c with ⟨d, heq, -, hline, -⟩ | ⟨digits, heq, -, hplain, -⟩ |
    ⟨heq, hplain, -⟩ <;> rw [heq] at hc
  · simp only [List.mem_cons, List.not_mem_nil, or_false] at hc
    rcases hc with heq | rfl
    · exact absurd heq (by decide)
    · exact absurd hline (by decide)
  · simp only [List.mem_cons] at hc
    rcases hc with heq | heq | hc
    · exact absurd heq (by decide)
    · exact absurd heq (by decide)
    · exact absurd (hplain _ hc) (by decide)
  · rw [← List.mem_singleton.mp hc] at hplain
    exact absurd hplain (by decide)

/-- Every string can be written. -/
theorem word_string (value : String) : Word (Printer.string value) (.string value) := by
  refine ⟨fun {rest} hrest => ?_, ⟨'"', _, rfl, by decide, by decide⟩, ?_, fun _ => nofun⟩
  · obtain ⟨hlength, hvalue⟩ := quoted_flatMap value.toList rest
    have hscan : scanString (value.toList.flatMap Printer.escapeChar ++ '"' :: rest) =
        (.string value, (value.toList.flatMap Printer.escapeChar).length + 2) := by
      rw [scanString]
      · simp only [hlength, if_true, List.take_left, hvalue, stringToken, String.ofList_toList]
      · -- Two quotes in front open a block string only if a third one follows.
        intro after heq
        by_cases hempty : value.toList = []
        · rw [hempty] at heq
          have hhead : rest = '"' :: after := List.tail_eq_of_cons_eq heq
          rw [hhead] at hrest
          exact absurd hrest (by simp [startsApart])
        · obtain ⟨c, tail, hcons, hne⟩ := exists_cons_flatMap hempty
          rw [hcons] at heq
          exact hne (List.head_eq_of_cons_eq heq)
    have htext : Printer.string value ++ rest =
        '"' :: (value.toList.flatMap Printer.escapeChar ++ '"' :: rest) := by
      simp [Printer.string]
    rw [htext, scan]
    simp only [Punctuator.ofChar?, hscan, Printer.string, List.cons_append, List.length_cons,
      List.length_append]
    rfl
  · rw [Printer.string, List.cons_append, List.mem_cons, List.mem_append, List.mem_singleton]
    rintro (heq | hmem | heq)
    · exact absurd heq (by decide)
    · exact oneLine_flatMap _ hmem
    · exact absurd heq (by decide)

/-! ## The tokens of a text -/

end Token

/-- A name or a number with a text that is scanned as it. -/
def TokenKind.Genuine : TokenKind → Prop
  | .name text => Token.Word text.toList (.name text)
  | .int text => Token.Word text.toList (.int text)
  | .float text => Token.Word text.toList (.float text)
  | _ => True

namespace Token

theorem genuine_ofName {text : List Char} (h : isName text) :
    (ofName (.ofList text)).Genuine := by
  have hword := word_name h
  unfold ofName at hword ⊢
  split
  · exact trivial
  split
  · exact trivial
  split
  · exact trivial
  · next htrue hfalse hnull =>
      rw [if_neg htrue, if_neg hfalse, if_neg hnull] at hword
      rwa [TokenKind.Genuine, String.toList_ofList]

theorem genuine_numberKind {sign whole fraction exponent : List Char}
    (h : IsNumber sign whole fraction exponent) :
    (numberKind sign whole fraction exponent).Genuine := by
  have hword := word_number h
  simp only [numberKind] at hword ⊢
  split
  · next hint =>
      rw [if_pos hint] at hword
      rwa [TokenKind.Genuine, String.toList_ofList]
  · next hfloat =>
      rw [if_neg hfloat] at hword
      rwa [TokenKind.Genuine, String.toList_ofList]

theorem genuine_stringToken {make : String → TokenKind} (h : ∀ text, (make text).Genuine)
    (value : Except StringFault (List Char)) : (stringToken make value).Genuine := by
  cases value with
  | error fault => exact trivial
  | ok value => exact h _

theorem genuine_scan (cs : List Char) : (scan cs).1.Genuine := by
  unfold scan
  split
  · exact trivial
  split
  · exact trivial
  split
  · unfold scanDots
    split <;> exact trivial
  split
  · unfold scanString
    split <;> (simp only; split)
    · exact @genuine_stringToken .blockString (fun _ => trivial) _
    · exact trivial
    · exact @genuine_stringToken .string (fun _ => trivial) _
    · exact trivial
  split
  · next c rest _ _ _ _ hstart =>
      refine genuine_ofName ?_
      rw [isName, Bool.and_eq_true,
        List.takeWhile_cons_of_pos (isNameContinue_of_isNameStart hstart)]
      exact ⟨hstart, by simp [isNameContinue_of_isNameStart hstart]⟩
  split
  · next c rest _ _ _ _ _ _ =>
      -- A number that is malformed is an error, and of an error nothing is said.
      by_cases hfault : ∃ fault, (scanNumber (c :: rest)).1 = .error fault
      · obtain ⟨fault, heq⟩ := hfault
        rw [heq]
        exact trivial
      · obtain ⟨sign, whole, fraction, exponent, last, hnumber, hlast, heq⟩ :=
          exists_isNumber (not_exists.mp hfault)
        rw [heq, scanNumber_append hnumber hlast]
        exact genuine_numberKind hnumber
  · exact trivial

/-- Names and numbers are scanned from their own text wherever nothing runs them on. -/
theorem genuine_of_mem_all {text : String} {token : Token} (h : token ∈ Token.all text) :
    token.kind.Genuine :=
  Lexer.forall_mem_tokens genuine_scan token h

end Token

end GraphQL
