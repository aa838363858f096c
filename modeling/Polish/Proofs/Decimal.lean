import Mathlib.Data.Nat.Digits.Defs
import Polish.Proofs.Lines
import Polish.Proofs.Runs

/-
  Decimal literals, read exactly

  What a literal is, and which number it stands for, is said by writing it: digits,
  most significant first, behind a `-` or not. Reading takes a text for a literal by a
  test of its shape and adds up its digits from the left, with no bound on how many there
  are; only then is the range looked at.

  What is proved:
    1. `ofDigits_digits` — digits added up from the left have their decimal value.
    2. `spells_iff` — the texts of the shape of a literal are those that digits spell, and
       the number that is read is the number spelled.
    3. `kind_ne_of_parseCommand` — where a number is refused as no literal, its kind is
       not that of its text.
    4. `literals_read_exactly` — all this for every text, every value and every statement
       that was scanned from less than 2³² bytes.
    5. `malformed_integer_farNumber` — a number behind the first 2³² bytes.
-/

namespace Polish

namespace Literal

def digitBytes (digits : List (Fin 10)) : Text := digits.map fun d : Fin 10 => Text.digit d

/-- The decimal value of digits, most significant first. -/
def decimalValue (digits : List (Fin 10)) : Nat :=
  Nat.ofDigits 10 (digits.map Fin.val).reverse

/-- The text is a literal for the number: one digit or more, behind a `-` or not. Leading
zeros are allowed, and so is `-0`. -/
inductive Spells : Text → Int → Prop
  | plain {digits : List (Fin 10)} (nonempty : digits ≠ []) :
      Spells (digitBytes digits) (decimalValue digits)
  | negative {digits : List (Fin 10)} (nonempty : digits ≠ []) :
      Spells (45 :: digitBytes digits) (-(decimalValue digits))

/-! ## Digits -/

theorem ofDigits_digits (digits : List (Fin 10)) :
    Text.ofDigits (digitBytes digits) = decimalValue digits := by
  induction digits using List.reverseRecOn with
  | nil => rfl
  | append_singleton digits d ih =>
    have hd : (Text.digit d).toNat = 48 + d := Text.toNat_digit d.isLt
    have hvalue : decimalValue (digits ++ [d]) = d + 10 * decimalValue digits := by
      simp [decimalValue, Nat.ofDigits_cons]
    have hbytes : digitBytes (digits ++ [d]) = digitBytes digits ++ [Text.digit d] := by
      simp [digitBytes]
    rw [hbytes, Text.ofDigits_concat, ih, hvalue, hd]
    omega

theorem isDigit_of_mem_digitBytes {digits : List (Fin 10)} {b : UInt8}
    (h : b ∈ digitBytes digits) : Text.isDigit b = true := by
  obtain ⟨d, -, rfl⟩ := List.mem_map.mp h
  exact Text.isDigit_digit d.isLt

theorem exists_digit {b : UInt8} (h : Text.isDigit b = true) : ∃ d : Fin 10, Text.digit d = b := by
  obtain ⟨hlow, hhigh⟩ := Text.isDigit_iff.mp h
  have hd : b.toNat - 48 < 10 := by omega
  refine ⟨⟨b.toNat - 48, hd⟩, UInt8.toNat_inj.mp ?_⟩
  rw [Text.toNat_digit hd]
  omega

theorem exists_digits {t : Text} (h : ∀ b ∈ t, Text.isDigit b = true) :
    ∃ digits, digitBytes digits = t := by
  induction t with
  | nil => exact ⟨[], rfl⟩
  | cons b rest ih =>
    obtain ⟨hb, hrest⟩ := List.forall_mem_cons.mp h
    obtain ⟨d, hd⟩ := exists_digit hb
    obtain ⟨digits, hdigits⟩ := ih hrest
    exact ⟨d :: digits, by simp [digitBytes, ← hdigits, hd]⟩

theorem digitBytes_eq_nil_iff {digits : List (Fin 10)} : digitBytes digits = [] ↔ digits = [] :=
  List.map_eq_nil_iff

theorem isNumeral_iff {t : Text} :
    isNumeral t = true ↔ ∃ digits, digits ≠ [] ∧ digitBytes digits = t := by
  simp only [isNumeral, Bool.and_eq_true, List.all_eq_true, Bool.not_eq_true',
    List.isEmpty_eq_false_iff]
  constructor
  · rintro ⟨hne, hall⟩
    obtain ⟨digits, rfl⟩ := exists_digits hall
    exact ⟨digits, fun hnil => hne (digitBytes_eq_nil_iff.mpr hnil), rfl⟩
  · rintro ⟨digits, hne, rfl⟩
    exact ⟨fun hnil => hne (digitBytes_eq_nil_iff.mp hnil), fun b => isDigit_of_mem_digitBytes⟩

/-! ## Literals -/

/-- A numeral does not start with a `-`, so it is a literal as it is. -/
theorem of_isNumeral {t : Text} (h : isNumeral t = true) :
    isLiteral t = true ∧ spelled t = Text.ofDigits t := by
  cases t with
  | nil => cases h
  | cons b rest =>
    have hb : b ≠ 45 := by
      rintro rfl
      simp [isNumeral, Text.isDigit] at h
    rw [isLiteral, spelled, if_neg hb, if_neg hb]
    exact ⟨h, rfl⟩

/-- The texts of the shape of a literal are those that digits spell, and the number that
such a text gives is the one that is spelled. -/
theorem spells_iff {t : Text} {n : Int} : Spells t n ↔ isLiteral t = true ∧ spelled t = n := by
  constructor
  · intro h
    cases h with
    | @plain digits nonempty =>
      have hnumeral := isNumeral_iff.mpr ⟨digits, nonempty, rfl⟩
      rw [(of_isNumeral hnumeral).2, ofDigits_digits]
      exact ⟨(of_isNumeral hnumeral).1, rfl⟩
    | @negative digits nonempty =>
      refine ⟨isNumeral_iff.mpr ⟨digits, nonempty, rfl⟩, ?_⟩
      rw [spelled, if_pos rfl, ofDigits_digits]
  · rintro ⟨hliteral, rfl⟩
    cases t with
    | nil => cases hliteral
    | cons b rest =>
      by_cases hb : b = 45
      · subst hb
        obtain ⟨digits, hne, rfl⟩ := isNumeral_iff.mp hliteral
        rw [spelled, if_pos rfl, ofDigits_digits]
        exact .negative hne
      · rw [isLiteral, if_neg hb] at hliteral
        obtain ⟨digits, hne, hdigits⟩ := isNumeral_iff.mp hliteral
        rw [(of_isNumeral hliteral).2, ← hdigits, ofDigits_digits]
        exact .plain hne

theorem exists_spells_iff {t : Text} : (∃ n, Spells t n) ↔ isLiteral t = true := by
  simp [spells_iff]

theorem read_of_spells {t : Text} {n : Int} (h : Spells t n) :
    read t =
      if -2 ^ 63 ≤ n ∧ n ≤ 2 ^ 63 - 1 then .ok (Int64.ofInt n) else .error .outOfRange := by
  obtain ⟨hliteral, rfl⟩ := spells_iff.mp h
  have hmin : Int64.minValue.toInt = -2 ^ 63 := by decide
  have hmax : Int64.maxValue.toInt = 2 ^ 63 - 1 := by decide
  simp only [read, hliteral, if_true, hmin, hmax]

theorem read_of_not_spells {t : Text} (h : ∀ n, ¬ Spells t n) : read t = .error .notInteger := by
  have hliteral : ¬ isLiteral t = true := fun hliteral =>
    h (spelled t) (spells_iff.mpr ⟨hliteral, rfl⟩)
  rw [read, if_neg hliteral]

theorem toInt_ofInt_of_inRange {n : Int} (h : -2 ^ 63 ≤ n ∧ n ≤ 2 ^ 63 - 1) :
    (Int64.ofInt n).toInt = n :=
  Int64.toInt_ofInt_of_le (by omega) (by omega)

theorem read_eq_ok_iff {t : Text} {n : Int} :
    (∃ v, read t = .ok v ∧ v.toInt = n) ↔ Spells t n ∧ -2 ^ 63 ≤ n ∧ n ≤ 2 ^ 63 - 1 := by
  constructor
  · intro ⟨v, hread, hv⟩
    by_cases hspells : ∃ k, Spells t k
    · obtain ⟨k, hk⟩ := hspells
      rw [read_of_spells hk] at hread
      split at hread
      · next hrange =>
        cases hread
        rw [toInt_ofInt_of_inRange hrange] at hv
        exact hv ▸ ⟨hk, hrange⟩
      · cases hread
    · rw [read_of_not_spells fun k hk => hspells ⟨k, hk⟩] at hread
      cases hread
  · intro ⟨hn, hrange⟩
    refine ⟨Int64.ofInt n, ?_, toInt_ofInt_of_inRange hrange⟩
    rw [read_of_spells hn, if_pos hrange]

theorem read_eq_outOfRange_iff {t : Text} :
    read t = .error .outOfRange ↔ ∃ n, Spells t n ∧ ¬ (-2 ^ 63 ≤ n ∧ n ≤ 2 ^ 63 - 1) := by
  constructor
  · intro hread
    by_cases hspells : ∃ n, Spells t n
    · obtain ⟨n, hn⟩ := hspells
      rw [read_of_spells hn] at hread
      split at hread
      · cases hread
      · next hrange => exact ⟨n, hn, hrange⟩
    · rw [read_of_not_spells fun n hn => hspells ⟨n, hn⟩] at hread
      cases hread
  · intro ⟨n, hn, hrange⟩
    rw [read_of_spells hn, if_neg hrange]

theorem read_eq_notInteger_iff {t : Text} :
    read t = .error .notInteger ↔ ∀ n, ¬ Spells t n := by
  constructor
  · intro hread n hn
    rw [read_of_spells hn] at hread
    split at hread
    · cases hread
    · cases hread
  · exact read_of_not_spells

end Literal

/-! ## Numbers in statements -/

theorem parseExpr_suffix {tokens : List Token} {e : Expr Token} {rest : Shorter tokens}
    (h : parseExpr tokens = .ok (e, rest)) : rest.val <:+ tokens := by
  fun_induction parseExpr tokens generalizing e with
  | case2 t rest hkind value hread => cases h; exact List.suffix_cons t rest
  | case5 t rest hkind => cases h; exact List.suffix_cons t rest
  | case7 t rest op hkind operand rest₁ h₁ hparse ih =>
    cases h
    exact (ih hparse).trans (List.suffix_cons t rest)
  | case10 t rest op hkind left rest₁ h₁ hleft right rest₂ h₂ hright ihleft ihright =>
    cases h
    exact ((ihright hright).trans (ihleft hleft)).trans (List.suffix_cons t rest)
  | case1 | case3 | case4 | case6 | case8 | case9 | case11 | case12 | case13 | case14 => cases h

/-- Where a number is no literal, the kind of the token is not that of its text. -/
theorem kind_ne_of_parseExpr {tokens : List Token} {t : Token}
    (h : parseExpr tokens = .error (.malformedNumber t)) :
    t ∈ tokens ∧ t.kind ≠ .ofWord t.text := by
  fun_induction parseExpr tokens with
  | case4 u rest hkind hread =>
    cases h
    refine ⟨List.mem_cons_self, ?_⟩
    rw [hkind]
    intro hword
    -- of a literal only the range can be wrong
    obtain ⟨n, hn⟩ := Literal.exists_spells_iff.mpr (TokenKind.isLiteral_of_ofWord hword.symm)
    exact Literal.read_eq_notInteger_iff.mp hread n hn
  | case6 u rest op hkind e hparse ih =>
    cases h
    exact ⟨List.mem_cons_of_mem _ (ih hparse).1, (ih hparse).2⟩
  | case8 u rest op hkind e hleft ih =>
    cases h
    exact ⟨List.mem_cons_of_mem _ (ih hleft).1, (ih hleft).2⟩
  | case9 u rest op hkind left rest₁ h₁ hleft e hright ihleft ihright =>
    cases h
    obtain ⟨hmem, hkind'⟩ := ihright hright
    exact ⟨List.mem_cons_of_mem _ ((parseExpr_suffix hleft).subset hmem), hkind'⟩
  | case1 | case2 | case3 | case5 | case7 | case10 | case11 | case12 | case13 | case14 => cases h

theorem kind_ne_of_parseWholeExpr {tokens : List Token} {t : Token}
    (h : parseWholeExpr tokens = .error (.malformedNumber t)) :
    t ∈ tokens ∧ t.kind ≠ .ofWord t.text := by
  unfold parseWholeExpr at h
  split at h
  · next e hparse =>
    cases h
    exact kind_ne_of_parseExpr hparse
  · cases h
  · cases h

theorem kind_ne_of_parseCommand {tokens : List Token} {t : Token}
    (h : parseCommand tokens = .error (.malformedNumber t)) :
    t ∈ tokens ∧ t.kind ≠ .ofWord t.text := by
  have hvalue : ∀ {f : Expr Token → Command Token} {rest : List Token},
      (parseWholeExpr rest).map f = .error (.malformedNumber t) →
      t ∈ rest ∧ t.kind ≠ .ofWord t.text := by
    intro f rest h
    cases hparse : parseWholeExpr rest with
    | ok e => rw [hparse] at h; cases h
    | error e =>
      rw [hparse] at h
      cases h
      exact kind_ne_of_parseWholeExpr hparse
  unfold parseCommand at h
  split at h
  · cases h
  · split at h
    · split at h
      · cases h
      · split at h
        · obtain ⟨hmem, hkind⟩ := hvalue h
          exact ⟨List.mem_cons_of_mem _ (List.mem_cons_of_mem _ hmem), hkind⟩
        · cases h
    · obtain ⟨hmem, hkind⟩ := hvalue h
      exact ⟨List.mem_cons_of_mem _ hmem, hkind⟩
    · cases h

theorem GrammarError.eq_malformedNumber {g : GrammarError}
    (h : g.message = ascii "malformed integer") : ∃ t, g = .malformedNumber t := by
  cases g with
  | malformedNumber t => exact ⟨t, rfl⟩
  | emptyStatement | missingTarget | missingOperand => exact absurd h (by decide)
  | targetNotName | unknownKeyword | unexpectedToken | outOfRange | notOperand =>
    exact absurd h (by simp only [message]; decide)

theorem Statement.exists_of_parse_error {st : Statement} {d : Diagnostic}
    (h : st.parse = .error d) :
    ∃ g : GrammarError, parseCommand st.tokens = .error g ∧ g.diagnostic st = d := by
  unfold parse at h
  cases hparse : parseCommand st.tokens with
  | ok command => rw [hparse] at h; cases h
  | error g =>
    rw [hparse] at h
    cases h
    exact ⟨g, rfl, rfl⟩

/-- For every text: it reads as `n` exactly if it is a literal for `n` and `n` is in the
range of the values; it is out of range exactly if it is a literal for a number that is
not; and otherwise, and only then, it is no literal. Every value reads back from its own
literal. A word is a number for the scanner exactly if it is a literal, so no statement
that is scanned from less than 2³² bytes is refused because of a number that is none. -/
theorem literals_read_exactly :
    (∀ (t : Text) (n : Int), (∃ v, Literal.read t = .ok v ∧ v.toInt = n) ↔
      Literal.Spells t n ∧ -2 ^ 63 ≤ n ∧ n ≤ 2 ^ 63 - 1) ∧
    (∀ t, Literal.read t = .error .outOfRange ↔
      ∃ n, Literal.Spells t n ∧ ¬ (-2 ^ 63 ≤ n ∧ n ≤ 2 ^ 63 - 1)) ∧
    (∀ t, Literal.read t = .error .notInteger ↔ ∀ n, ¬ Literal.Spells t n) ∧
    (∀ v, Literal.read (Literal.write v) = .ok v) ∧
    (∀ word, TokenKind.ofWord word = .number ↔ Literal.isLiteral word = true) ∧
    ∀ (st : Statement) (d : Diagnostic), st.IsScanned → st.parse = .error d →
      d.message ≠ ascii "malformed integer" := by
  refine ⟨fun t n => Literal.read_eq_ok_iff, fun t => Literal.read_eq_outOfRange_iff,
    fun t => Literal.read_eq_notInteger_iff, Literal.read_write, ?_, ?_⟩
  · intro word
    exact ⟨TokenKind.isLiteral_of_ofWord, TokenKind.ofWord_of_isLiteral⟩
  · intro st d hscanned hparse hmessage
    obtain ⟨g, hg, rfl⟩ := Statement.exists_of_parse_error hparse
    obtain ⟨t, rfl⟩ := GrammarError.eq_malformedNumber hmessage
    obtain ⟨hmem, hkind⟩ := kind_ne_of_parseCommand hg
    exact hkind (hscanned.kind_of_mem hmem)

/-- The successor of the largest value, printed. -/
def tooLarge : Statement := Statement.ofText (ascii "@ 9223372036854775808")

/-- The least value has a literal, whatever zeros stand in front of it, and the successor
of the largest has none. A statement with that number is refused, and not because of the
shape of the number. -/
theorem literals_read_exactly_at_limits :
    (∃ v, Literal.read (ascii "-0009223372036854775808") = .ok v ∧ v.toInt = -2 ^ 63) ∧
    Literal.read (ascii "9223372036854775808") = .error .outOfRange ∧
    tooLarge.IsScanned ∧
    ∃ d, tooLarge.parse = .error d ∧ d.message ≠ ascii "malformed integer" := by
  obtain ⟨hok, hrange, -, -, -, hparse⟩ := literals_read_exactly
  have hleast : Literal.Spells (ascii "-0009223372036854775808") (-2 ^ 63) :=
    Literal.spells_iff.mpr ⟨by decide, by decide +kernel⟩
  have hnext : Literal.Spells (ascii "9223372036854775808") (2 ^ 63) :=
    Literal.spells_iff.mpr ⟨by decide, by decide +kernel⟩
  have hscanned : tooLarge.IsScanned :=
    .ofText (show (ascii "@ 9223372036854775808").length < UInt32.size by decide) rfl
  refine ⟨(hok _ _).mpr ⟨hleast, by decide⟩, (hrange _).mpr ⟨2 ^ 63, hnext, by decide⟩,
    hscanned, ?_⟩
  have hrefused : tooLarge.parse.toOption = none := by decide +kernel
  cases hd : tooLarge.parse with
  | ok command => rw [hd] at hrefused; cases hrefused
  | error d => exact ⟨d, rfl, hparse tooLarge d hscanned hd⟩

/-- Behind the first 2³² bytes of a source a number can be refused because of its shape:
what stands at its place, cut to 32 bits, is a name. -/
theorem malformed_integer_farNumber :
    Runs.farStatement ∈ Statement.ofSource Runs.farNumber.text ∧
      ∃ d, Runs.farStatement.parse = .error d ∧ d.message = ascii "malformed integer" :=
  ⟨Runs.farStatement_mem, _, Runs.parse_farStatement, rfl⟩

end Polish
