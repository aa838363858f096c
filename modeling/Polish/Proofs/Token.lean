import Polish.Proofs.Literal
import Polish.Token

/-
  Words — the kind of a token, from its text

  The labels of keywords and operators come first; no literal and no name is
  spelled like one of them. So a word that has the shape of a literal is a
  number, and one that has the shape of a name is a name, and the other way round.

  What is proved:
    1. `ofWord_label` — the label of a keyword or an operator has that kind.
    2. `isNumber_eq_isLiteral` — the scanner and the reader of literals, each with a test
       of its own, take the same words for numbers.
    3. `ofWord_of_isLiteral`, `isLiteral_of_ofWord` — numbers are literals.
    4. `ofWord_of_isName`, `isName_of_ofWord` — names are names.
    5. `ofWord_eq_finish_iff` — only the empty word marks the end.
-/

namespace Polish.TokenKind

theorem ofWord_label {kind : TokenKind} (h : kind ∈ fixedWords) : ofWord kind.label = kind := by
  have hall : ∀ kind ∈ fixedWords, ofWord kind.label = kind := by decide
  exact hall kind h

theorem isNumber_eq_isLiteral (word : Text) : isNumber word = Literal.isLiteral word := by
  cases word with
  | nil => rfl
  | cons b rest =>
    by_cases hminus : b = 45
    · simp [isNumber, Literal.isLiteral, Literal.isNumeral, hminus]
    · simp [isNumber, Literal.isLiteral, Literal.isNumeral, hminus]

/-- A word that is no label is a number or a name by its own shape. -/
theorem ofWord_of_not_fixed {word : Text} (hne : word ≠ [])
    (hfixed : ∀ kind ∈ fixedWords, kind.label ≠ word) :
    ofWord word =
      if Literal.isLiteral word then .number else if isName word then .name else .unknown := by
  have hfind : (fixedWords.find? fun kind => kind.label == word) = none := by
    rw [List.find?_eq_none]
    intro kind hkind heq
    exact hfixed kind hkind (beq_iff_eq.mp heq)
  rw [ofWord, hfind, if_neg (by simpa using hne), ← isNumber_eq_isLiteral]

theorem ofWord_of_isLiteral {word : Text} (h : Literal.isLiteral word = true) :
    ofWord word = .number := by
  have hall : ∀ kind ∈ fixedWords, Literal.isLiteral kind.label = false := by decide
  rw [ofWord_of_not_fixed, if_pos h]
  · rintro rfl
    cases h
  · rintro kind hkind rfl
    rw [hall kind hkind] at h
    cases h

theorem not_isDigit_of_isLetter {b : UInt8} (h : Text.isLetter b = true) :
    b ≠ 45 ∧ Text.isDigit b = false := by
  have hlow : 65 ≤ b.toNat := by
    simp only [Text.isLetter, Bool.or_eq_true, Bool.and_eq_true, decide_eq_true_eq,
      UInt8.le_iff_toNat_le] at h
    rcases h with ⟨h, -⟩ | ⟨h, -⟩
    · exact Nat.le_trans (by decide) h
    · exact h
  constructor
  · rintro rfl
    revert hlow
    decide
  · rw [← Bool.not_eq_true, Text.isDigit_iff]
    omega

theorem ofWord_of_isName {word : Text} (h : isName word = true) : ofWord word = .name := by
  have hall : ∀ kind ∈ fixedWords, isName kind.label = false := by decide
  -- a name starts with a letter, and so it is no literal
  have hliteral : Literal.isLiteral word = false := by
    cases word with
    | nil => rfl
    | cons b rest =>
      simp only [isName, Bool.and_eq_true] at h
      obtain ⟨hminus, hdigit⟩ := not_isDigit_of_isLetter h.1
      simp [Literal.isLiteral, Literal.isNumeral, hminus, hdigit]
  rw [ofWord_of_not_fixed, hliteral, if_pos h]
  · rfl
  · rintro rfl
    cases h
  · rintro kind hkind rfl
    rw [hall kind hkind] at h
    cases h

theorem shape_of_ofWord {word : Text} {kind : TokenKind} (h : ofWord word = kind)
    (hfixed : kind ∉ fixedWords) (hfinish : kind ≠ .finish) :
    (if Literal.isLiteral word then .number else if isName word then .name else .unknown)
      = kind := by
  unfold ofWord at h
  split at h
  · exact absurd h.symm hfinish
  · split at h
    · next found hfind => exact absurd (h ▸ List.mem_of_find?_eq_some hfind) hfixed
    · rwa [isNumber_eq_isLiteral] at h

theorem isLiteral_of_ofWord {word : Text} (h : ofWord word = .number) :
    Literal.isLiteral word = true := by
  have hshape := shape_of_ofWord h (by decide) (by decide)
  split at hshape
  · assumption
  · split at hshape <;> cases hshape

theorem isName_of_ofWord {word : Text} (h : ofWord word = .name) : isName word = true := by
  have hshape := shape_of_ofWord h (by decide) (by decide)
  split at hshape
  · cases hshape
  · split at hshape
    · assumption
    · cases hshape

theorem ofWord_eq_finish_iff {word : Text} : ofWord word = .finish ↔ word = [] := by
  constructor
  · intro h
    unfold ofWord at h
    split at h
    · next hempty => exact List.isEmpty_iff.mp hempty
    · split at h
      · next kind hfind =>
        have hfixed : ∀ kind ∈ fixedWords, kind ≠ .finish := by decide
        exact absurd h (hfixed kind (List.mem_of_find?_eq_some hfind))
      · split at h
        · cases h
        · split at h <;> cases h
  · rintro rfl
    rfl

/-! ## The bytes of names -/

theorem isNameByte_of_isDigit {b : UInt8} (h : Text.isDigit b = true) : isNameByte b = true := by
  simp [isNameByte, h]

theorem isNameByte_of_mem_decimal {n : Nat} {b : UInt8} (h : b ∈ Text.decimal n) :
    isNameByte b = true :=
  isNameByte_of_isDigit (Text.isDigit_of_mem_decimal h)

theorem isNameByte_of_mem {word : Text} (h : isName word = true) {b : UInt8} (hb : b ∈ word) :
    isNameByte b = true := by
  cases word with
  | nil => cases hb
  | cons first rest =>
    simp only [isName, Bool.and_eq_true, List.all_eq_true] at h
    rcases List.mem_cons.mp hb with rfl | hb
    · simp [isNameByte, h.1]
    · exact h.2 b hb

theorem isNameByte_of_word {word after t : Text} {b : UInt8} (hne : word ≠ [])
    (hword : ∀ c ∈ word, isNameByte c = true) (h : word ++ after = b :: t) :
    isNameByte b = true := by
  obtain ⟨c, tail, rfl⟩ := List.exists_cons_of_ne_nil hne
  rw [List.cons_append, List.cons.injEq] at h
  rw [← h.1]
  exact hword c List.mem_cons_self

theorem isName_decimal (n : Nat) : isName (Text.decimal n) = false := by
  cases hdecimal : Text.decimal n with
  | nil => rfl
  | cons b rest =>
    have hdigit : Text.isDigit b = true :=
      Text.isDigit_of_mem_decimal (hdecimal ▸ List.mem_cons_self)
    cases hletter : Text.isLetter b with
    | false => simp [isName, hletter]
    | true =>
      rw [(not_isDigit_of_isLetter hletter).2] at hdigit
      cases hdigit

end Polish.TokenKind

/-- The kind of a token and its text, without its place. -/
def Polish.Token.reading (t : Token) : TokenKind × Text := (t.kind, t.text)
