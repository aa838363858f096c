import Polish.Proofs.Evaluation

/-
  Infix texts of expressions, read from the left

  The infix form of an expression puts parentheses around every binary operation
  and writes a negation directly in front of what cannot be mistaken for a part of
  it. Read from the left, such a text gives away the tree it was made from. One
  thing it does not tell: `-3` is the text of a number and of the negation of a
  number. So trees are compared once every such sign has been taken into its number
  (`signed`), which changes neither the text nor the value of an expression.

  What is proved:
    1. `eval_signed`, `shown_signed` — signs change neither the value nor the text.
    2. `shown_of_word`, `shown_of_not_word` — what the front of a text says about the
       topmost node.
    3. `toldBy_texts` — an expression is told by its text, up to signs, and so is the
       place where its text ends.
-/

namespace Polish

/-! ## Signs -/

namespace Expr

variable {α : Type}

/-- The negation of an expression. That of a positive number is a number. -/
def negated (mark : α) : Expr α → Expr α
  | .number inner value =>
    if 0 < value then .number mark (-value) else .unary mark .negate (.number inner value)
  | e => .unary mark .negate e

/-- The expression with the sign in front of every positive number taken into the
number, from the inside out. -/
def signed : Expr α → Expr α
  | .number mark value => .number mark value
  | .name mark word => .name mark word
  | .unary mark .negate operand => operand.signed.negated mark
  | .unary mark .sqrt operand => .unary mark .sqrt operand.signed
  | .binary mark op left right => .binary mark op left.signed right.signed

theorem eval_negated (table : Table) (mark : α) (e : Expr α) :
    (e.negated mark).eval table = (Expr.unary mark .negate e).eval table := by
  cases e with
  | number inner value =>
    rw [negated]
    split
    · rfl
    · rfl
  | name | unary | binary => rfl

theorem eval_signed (table : Table) (e : Expr α) : e.signed.eval table = e.eval table := by
  induction e with
  | number mark value => rfl
  | name mark word => rfl
  | unary mark op operand ih =>
    cases op with
    | negate => rw [signed, eval_negated, eval, eval, ih]
    | sqrt => rw [signed, eval, eval, ih]
  | binary mark op left right ihl ihr => rw [signed, eval, eval, ihl, ihr]

end Expr

/-- The command with the signs in its value taken into the numbers. -/
def Command.signed {α : Type} : Command α → Command α
  | .assign mark targetMark target value => .assign mark targetMark target value.signed
  | .print mark value => .print mark value.signed

/-! ## The text of an expression -/

namespace Expr

variable {α : Type}

/-- The infix text of an expression, followed by `rest`. -/
def shown (e : Expr α) (rest : Text) : Text := e.outline.textOnto rest

/-- The text of an expression behind a minus sign: in parentheses, unless it can
stand there as it is. -/
def shownNegated (e : Expr α) (rest : Text) : Text :=
  if e.outline.isBare then e.shown rest else 40 :: e.shown (41 :: rest)

theorem shown_number (mark : α) (value : Int64) (rest : Text) :
    (Expr.number mark value).shown rest = Literal.write value ++ rest := rfl

theorem shown_name (mark : α) (word rest : Text) :
    (Expr.name mark word).shown rest = word ++ rest := rfl

theorem shown_sqrt (mark : α) (e : Expr α) (rest : Text) :
    (Expr.unary mark .sqrt e).shown rest = ascii "sqrt" ++ 40 :: e.shown (41 :: rest) := rfl

theorem shown_negate (mark : α) (e : Expr α) (rest : Text) :
    (Expr.unary mark .negate e).shown rest = 45 :: e.shownNegated rest := by
  unfold shown shownNegated
  simp only [outline, Outline.textOnto]
  rw [if_neg (by decide)]
  split
  · rfl
  · rfl

theorem shown_binary (mark : α) (op : BinaryOp) (l r : Expr α) (rest : Text) :
    (Expr.binary mark op l r).shown rest =
      40 :: l.shown (32 :: ((TokenKind.binary op).label ++ 32 :: r.shown (41 :: rest))) := by
  simp only [shown, outline, Outline.textOnto, TokenKind.labelOf?, Option.map_some,
    Option.getD_some]
  rw [List.append_assoc, List.append_assoc]
  rfl

theorem outline_plain (e : Expr α) : e.plain.outline = e.outline := by
  induction e with
  | number mark value => rfl
  | name mark word => rfl
  | unary mark op operand ih => exact congrArg (Outline.unary _) ih
  | binary mark op left right ihl ihr =>
    show Outline.binary _ left.plain.outline right.plain.outline = _
    rw [ihl, ihr, outline]

end Expr

/-! ## The front of a text -/

/-- What may stand behind an expression: nothing, or a byte that neither continues
a word nor makes it a root. -/
def Closes (rest : Text) : Prop :=
  ∀ b, rest.head? = some b → TokenKind.isNameByte b = false ∧ b ≠ 40

theorem closes_cons {b : UInt8} (hb : TokenKind.isNameByte b = false ∧ b ≠ 40) (rest : Text) :
    Closes (b :: rest) := by
  intro c hc
  cases hc
  exact hb

theorem Closes.stop {rest : Text} (h : Closes rest) {b : UInt8} (hb : rest.head? = some b) :
    TokenKind.isNameByte b = false :=
  (h b hb).1

theorem closes_space (rest : Text) : Closes (32 :: rest) := closes_cons (by decide) rest

theorem closes_paren (rest : Text) : Closes (41 :: rest) := closes_cons (by decide) rest

theorem closes_newline (rest : Text) : Closes (Text.newline :: rest) :=
  closes_cons (by decide) rest

namespace Expr

variable {α : Type}

theorem isName_of_hasNames {mark : α} {word : Text} (h : (Expr.name mark word).HasNames) :
    TokenKind.isName word = true :=
  h mark word (List.mem_singleton.mpr rfl)

theorem ne_nil_of_isName {word : Text} (h : TokenKind.isName word = true) : word ≠ [] := by
  rintro rfl
  cases h

/-- A text that starts with a word is that of a number, a name or a root. -/
theorem shown_of_word {e : Expr α} {rest word after : Text} (hnames : e.HasNames)
    (hrest : Closes rest) (hne : word ≠ []) (hword : ∀ b ∈ word, TokenKind.isNameByte b = true)
    (hafter : ∀ b, after.head? = some b → TokenKind.isNameByte b = false)
    (h : e.shown rest = word ++ after) :
    (∃ mark value, e = .number mark value ∧ 0 ≤ value ∧
      word = Text.decimal value.toInt.natAbs ∧ after = rest) ∨
    (∃ mark, e = .name mark word ∧ after = rest) ∨
    (∃ mark operand, e = .unary mark .sqrt operand ∧ word = ascii "sqrt" ∧
      after = 40 :: operand.shown (41 :: rest)) := by
  have hfront : ∀ b t, b :: t = word ++ after → TokenKind.isNameByte b = true :=
    fun b t heq => TokenKind.isNameByte_of_word hne hword heq.symm
  cases e with
  | number mark value =>
    rw [shown_number] at h
    rcases Int64.le_or_lt 0 value with hsign | hsign
    · rw [Literal.write_of_nonneg hsign] at h
      obtain ⟨hw, ha⟩ := Text.append_inj_of_stop
        (fun b hb => TokenKind.isNameByte_of_mem_decimal hb) (fun b hb => hrest.stop hb)
        hword hafter h
      exact .inl ⟨mark, value, rfl, hsign, hw.symm, ha.symm⟩
    · rw [Literal.write_of_neg hsign] at h
      exact absurd (hfront _ _ h) (by decide)
  | name mark w =>
    rw [shown_name] at h
    obtain ⟨rfl, ha⟩ := Text.append_inj_of_stop
      (fun b hb => TokenKind.isNameByte_of_mem (isName_of_hasNames hnames) hb)
      (fun b hb => hrest.stop hb) hword hafter h
    exact .inr (.inl ⟨mark, rfl, ha.symm⟩)
  | unary mark op operand =>
    cases op with
    | negate =>
      rw [shown_negate] at h
      exact absurd (hfront _ _ h) (by decide)
    | sqrt =>
      rw [shown_sqrt] at h
      obtain ⟨hw, ha⟩ := Text.append_inj_of_stop
        (fun b hb => TokenKind.isNameByte_of_mem (by decide) hb)
        (fun b hb => by cases hb; decide) hword hafter h
      exact .inr (.inr ⟨mark, operand, rfl, hw.symm, ha.symm⟩)
  | binary mark op left right =>
    rw [shown_binary] at h
    exact absurd (hfront _ _ h) (by decide)

theorem shown_of_not_word {e : Expr α} {rest t : Text} {b : UInt8} (hnames : e.HasNames)
    (hb : TokenKind.isNameByte b = false) (h : e.shown rest = b :: t) :
    (∃ mark value, e = .number mark value ∧ value < 0 ∧ b = 45 ∧
      t = Text.decimal value.toInt.natAbs ++ rest) ∨
    (∃ mark operand, e = .unary mark .negate operand ∧ b = 45 ∧ t = operand.shownNegated rest) ∨
    (∃ mark op left right, e = .binary mark op left right ∧ b = 40 ∧
      t = left.shown
        (32 :: ((TokenKind.binary op).label ++ 32 :: right.shown (41 :: rest)))) := by
  have hword : ∀ word after, word ≠ [] → (∀ c ∈ word, TokenKind.isNameByte c = true) →
      word ++ after ≠ b :: t := by
    intro word after hne hall heq
    rw [TokenKind.isNameByte_of_word hne hall heq] at hb
    cases hb
  cases e with
  | number mark value =>
    rw [shown_number] at h
    rcases Int64.le_or_lt 0 value with hsign | hsign
    · rw [Literal.write_of_nonneg hsign] at h
      exact absurd h (hword _ _ (Text.decimal_ne_nil _)
        fun c hc => TokenKind.isNameByte_of_mem_decimal hc)
    · rw [Literal.write_of_neg hsign] at h
      cases h
      exact .inl ⟨mark, value, rfl, hsign, rfl, rfl⟩
  | name mark word =>
    have hname := isName_of_hasNames hnames
    exact absurd h (hword _ _ (ne_nil_of_isName hname)
      fun c hc => TokenKind.isNameByte_of_mem hname hc)
  | unary mark op operand =>
    cases op with
    | negate =>
      rw [shown_negate] at h
      cases h
      exact .inr (.inl ⟨mark, operand, rfl, rfl, rfl⟩)
    | sqrt =>
      rw [shown_sqrt] at h
      exact absurd h (hword _ _ (by decide)
        fun c hc => TokenKind.isNameByte_of_mem (by decide) hc)
  | binary mark op left right =>
    rw [shown_binary] at h
    cases h
    exact .inr (.inr ⟨mark, op, left, right, rfl, rfl, rfl⟩)

theorem shown_of_decimal {e : Expr α} {n : Nat} {rest rest' : Text} (hnames : e.HasNames)
    (hrest : Closes rest) (hrest' : Closes rest') (h : e.shown rest = Text.decimal n ++ rest') :
    (∃ mark value, e = .number mark value ∧ 0 ≤ value ∧ value.toInt.natAbs = n) ∧
      rest = rest' := by
  rcases shown_of_word hnames hrest (Text.decimal_ne_nil n)
    (fun b hb => TokenKind.isNameByte_of_mem_decimal hb) (fun b hb => hrest'.stop hb) h with
    ⟨mark, value, rfl, hsign, hn, hr⟩ | ⟨mark, rfl, -⟩ | ⟨mark, operand, -, hsqrt, -⟩
  · exact ⟨⟨mark, value, rfl, hsign, (Text.decimal_injective hn).symm⟩, hr.symm⟩
  · have hname := isName_of_hasNames hnames
    rw [TokenKind.isName_decimal] at hname
    cases hname
  · have hname := TokenKind.isName_decimal n
    rw [hsqrt] at hname
    exact absurd hname (by decide)

theorem shownNegated_of_decimal {e : Expr α} {n : Nat} {rest rest' : Text} (hnames : e.HasNames)
    (hrest : Closes rest) (hrest' : Closes rest')
    (h : e.shownNegated rest = Text.decimal n ++ rest') :
    (∃ mark value, e = .number mark value ∧ 0 ≤ value ∧ value.toInt.natAbs = n) ∧
      rest = rest' := by
  unfold shownNegated at h
  split at h
  · exact shown_of_decimal hnames hrest hrest' h
  · have hparen := TokenKind.isNameByte_of_word (Text.decimal_ne_nil n)
      (fun b hb => TokenKind.isNameByte_of_mem_decimal hb) h.symm
    exact absurd hparen (by decide)

theorem signed_negate_number {mark inner : α} {value value' : Int64} (hsign : value < 0)
    (hsign' : 0 ≤ value') (h : value'.toInt.natAbs = value.toInt.natAbs) :
    (Expr.unary mark .negate (.number inner value')).signed = .number mark value := by
  have hlt : value.toInt < 0 := Int64.lt_iff_toInt_lt.mp hsign
  have hle : 0 ≤ value'.toInt := Int64.le_iff_toInt_le.mp hsign'
  have hneg : value'.toInt = -value.toInt := by omega
  have hpos : 0 < value' := Int64.lt_iff_toInt_lt.mpr (by rw [hneg]; exact Int.neg_pos.mpr hlt)
  have hvalue : -value' = value := by
    rw [← Int64.toInt_inj, Int64.toInt_neg, hneg, Int.neg_neg]
    have := value.le_toInt
    exact Int.bmod_eq_of_le (by omega) (by omega)
  rw [signed, signed, negated, if_pos hpos, hvalue]

/-! ## Reading a text from the left -/

/-- A way of writing expressions tells one of them from every other, up to signs,
and shows where its text ends. -/
def ToldBy (text : Expr Unit → Text → Text) (e : Expr Unit) : Prop :=
  ∀ (e' : Expr Unit) (rest rest' : Text), e'.HasNames → Closes rest → Closes rest' →
    text e rest = text e' rest' → e.signed = e'.signed ∧ rest = rest'

theorem ToldBy.closer {e e' : Expr Unit} {b b' : UInt8} {rest rest' : Text} (h : e.ToldBy shown)
    (hnames : e'.HasNames) (hb : Closes (b :: rest)) (hb' : Closes (b' :: rest'))
    (heq : e.shown (b :: rest) = e'.shown (b' :: rest')) : b = b' :=
  (List.cons.inj (h e' _ _ hnames hb hb' heq).2).1

/-- Behind a minus sign, the parenthesis of an operation is not one that was put
around an expression: inside the first the left operand is followed by a space,
inside the second the expression is followed by the closing parenthesis. -/
theorem toldBy_shownNegated {e : Expr Unit} (hnames : e.HasNames) (hshown : e.ToldBy shown)
    (hleft : ∀ mark op left right, e = .binary mark op left right → left.ToldBy shown) :
    e.ToldBy shownNegated := by
  intro e' rest rest' hnames' hrest hrest' h
  unfold shownNegated at h
  split at h
  · split at h
    · exact hshown e' rest rest' hnames' hrest hrest' h
    · rcases shown_of_not_word hnames (by decide) h with
        ⟨-, -, -, -, hb, -⟩ | ⟨-, -, -, hb, -⟩ | ⟨mark, op, left, right, rfl, -, ht⟩
      · cases hb
      · cases hb
      · have hb := (hleft mark op left right rfl).closer hnames' (closes_space _)
          (closes_paren rest') ht.symm
        cases hb
  · split at h
    · rcases shown_of_not_word hnames' (by decide) h.symm with
        ⟨-, -, -, -, hb, -⟩ | ⟨-, -, -, hb, -⟩ | ⟨mark, op, left, right, rfl, -, ht⟩
      · cases hb
      · cases hb
      · have hb := hshown.closer (hasNames_binary hnames').1 (closes_paren rest)
          (closes_space _) ht
        cases hb
    · obtain ⟨hsigned, hr⟩ := hshown e' _ _ hnames' (closes_paren rest) (closes_paren rest')
        (List.cons.inj h).2
      exact ⟨hsigned, (List.cons.inj hr).2⟩

theorem toldBy_number (mark : Unit) (value : Int64) : (Expr.number mark value).ToldBy shown := by
  intro e' rest rest' hnames' hrest hrest' h
  rw [shown_number] at h
  rcases Int64.le_or_lt 0 value with hsign | hsign
  · rw [Literal.write_of_nonneg hsign] at h
    obtain ⟨⟨mark', value', rfl, hsign', hn⟩, hr⟩ := shown_of_decimal hnames' hrest' hrest h.symm
    have hle : 0 ≤ value.toInt := Int64.le_iff_toInt_le.mp hsign
    have hle' : 0 ≤ value'.toInt := Int64.le_iff_toInt_le.mp hsign'
    have hvalue : value = value' := Int64.toInt_inj.mp (by omega)
    exact ⟨by rw [hvalue], hr.symm⟩
  · rw [Literal.write_of_neg hsign, List.cons_append] at h
    rcases shown_of_not_word hnames' (by decide) h.symm with
      ⟨mark', value', rfl, hsign', -, ht⟩ | ⟨mark', operand, rfl, -, ht⟩ | ⟨-, -, -, -, -, hb, -⟩
    · obtain ⟨hn, hr⟩ := Text.append_inj_of_stop
        (fun b hb => TokenKind.isNameByte_of_mem_decimal hb) (fun b hb => hrest.stop hb)
        (fun b hb => TokenKind.isNameByte_of_mem_decimal hb) (fun b hb => hrest'.stop hb) ht
      have hn := Text.decimal_injective hn
      have hlt : value.toInt < 0 := Int64.lt_iff_toInt_lt.mp hsign
      have hlt' : value'.toInt < 0 := Int64.lt_iff_toInt_lt.mp hsign'
      have hvalue : value = value' := Int64.toInt_inj.mp (by omega)
      exact ⟨by rw [hvalue], hr⟩
    · -- the same text is that of a negated number
      obtain ⟨⟨mark'', value', rfl, hsign', hn⟩, hr⟩ :=
        shownNegated_of_decimal (hasNames_unary hnames') hrest' hrest ht.symm
      exact ⟨(signed_negate_number hsign hsign' hn).symm, hr.symm⟩
    · cases hb

theorem toldBy_name {mark : Unit} {word : Text} (hname : TokenKind.isName word = true) :
    (Expr.name mark word).ToldBy shown := by
  intro e' rest rest' hnames' hrest hrest' h
  rw [shown_name] at h
  rcases shown_of_word hnames' hrest' (ne_nil_of_isName hname)
    (fun b hb => TokenKind.isNameByte_of_mem hname hb) (fun b hb => hrest.stop hb) h.symm with
    ⟨mark', value, -, -, hword, -⟩ | ⟨mark', rfl, hr⟩ | ⟨mark', operand, -, -, hr⟩
  · rw [hword, TokenKind.isName_decimal] at hname
    cases hname
  · exact ⟨rfl, hr⟩
  · -- a name that is spelled like the root is not followed by a parenthesis
    exact absurd rfl (hrest 40 (by rw [hr]; rfl)).2

theorem toldBy_sqrt {mark : Unit} {e : Expr Unit} (ih : e.ToldBy shown) :
    (Expr.unary mark .sqrt e).ToldBy shown := by
  intro e' rest rest' hnames' hrest hrest' h
  rw [shown_sqrt] at h
  have hsqrt : TokenKind.isName (ascii "sqrt") = true := by decide
  rcases shown_of_word hnames' hrest' (ne_nil_of_isName hsqrt)
    (fun b hb => TokenKind.isNameByte_of_mem hsqrt hb) (fun b hb => by cases hb; decide)
    h.symm with
    ⟨mark', value, -, -, hword, -⟩ | ⟨mark', rfl, hr⟩ | ⟨mark', operand, rfl, -, hr⟩
  · rw [hword, TokenKind.isName_decimal] at hsqrt
    cases hsqrt
  · exact absurd rfl (hrest' 40 (by rw [← hr]; rfl)).2
  · obtain ⟨hsigned, hr⟩ := ih operand _ _ (hasNames_unary hnames') (closes_paren rest)
      (closes_paren rest') (List.cons.inj hr).2
    exact ⟨by rw [signed, signed, hsigned], (List.cons.inj hr).2⟩

theorem toldBy_negate {mark : Unit} {e : Expr Unit} (hnames : e.HasNames)
    (ih : e.ToldBy shownNegated) : (Expr.unary mark .negate e).ToldBy shown := by
  intro e' rest rest' hnames' hrest hrest' h
  rw [shown_negate] at h
  rcases shown_of_not_word hnames' (by decide) h.symm with
    ⟨mark', value', rfl, hsign', -, ht⟩ | ⟨mark', operand, rfl, -, ht⟩ | ⟨-, -, -, -, -, hb, -⟩
  · obtain ⟨⟨mark'', value, rfl, hsign, hn⟩, hr⟩ := shownNegated_of_decimal hnames hrest hrest' ht
    exact ⟨signed_negate_number hsign' hsign hn, hr⟩
  · obtain ⟨hsigned, hr⟩ := ih operand rest rest' (hasNames_unary hnames') hrest hrest' ht
    exact ⟨by rw [signed, signed, hsigned], hr⟩
  · cases hb

theorem label_append_inj {op op' : BinaryOp} {t t' : Text}
    (h : (TokenKind.binary op).label ++ 32 :: t = (TokenKind.binary op').label ++ 32 :: t') :
    op = op' ∧ t = t' := by
  cases op <;> cases op' <;> cases h <;> exact ⟨rfl, rfl⟩

theorem toldBy_binary {mark : Unit} {op : BinaryOp} {left right : Expr Unit}
    (ihl : left.ToldBy shown) (ihr : right.ToldBy shown) :
    (Expr.binary mark op left right).ToldBy shown := by
  intro e' rest rest' hnames' hrest hrest' h
  rw [shown_binary] at h
  rcases shown_of_not_word hnames' (by decide) h.symm with
    ⟨-, -, -, -, hb, -⟩ | ⟨-, -, -, hb, -⟩ | ⟨mark', op', left', right', rfl, -, ht⟩
  · cases hb
  · cases hb
  · obtain ⟨hnamesl, hnamesr⟩ := hasNames_binary hnames'
    obtain ⟨hleft, hbehind⟩ := ihl left' _ _ hnamesl (closes_space _) (closes_space _) ht
    obtain ⟨hop, hbehind⟩ := label_append_inj (List.cons.inj hbehind).2
    obtain ⟨hright, hr⟩ :=
      ihr right' _ _ hnamesr (closes_paren rest) (closes_paren rest') hbehind
    exact ⟨by rw [signed, signed, hop, hleft, hright], (List.cons.inj hr).2⟩

/-- Every expression is told by its text, and by its text behind a minus sign. -/
theorem toldBy_texts {e : Expr Unit} (hnames : e.HasNames) :
    e.ToldBy shown ∧ e.ToldBy shownNegated := by
  induction e with
  | number mark value =>
    have h := toldBy_number mark value
    exact ⟨h, toldBy_shownNegated hnames h fun _ _ _ _ he => by cases he⟩
  | name mark word =>
    have h : (Expr.name mark word).ToldBy shown := toldBy_name (isName_of_hasNames hnames)
    exact ⟨h, toldBy_shownNegated hnames h fun _ _ _ _ he => by cases he⟩
  | unary mark op operand ih =>
    have hoperand := hasNames_unary hnames
    have h : (Expr.unary mark op operand).ToldBy shown := by
      cases op with
      | negate => exact toldBy_negate hoperand (ih hoperand).2
      | sqrt => exact toldBy_sqrt (ih hoperand).1
    exact ⟨h, toldBy_shownNegated hnames h fun _ _ _ _ he => by cases he⟩
  | binary mark op left right ihl ihr =>
    obtain ⟨hnamesl, hnamesr⟩ := hasNames_binary hnames
    have h : (Expr.binary mark op left right).ToldBy shown :=
      toldBy_binary (ihl hnamesl).1 (ihr hnamesr).1
    refine ⟨h, toldBy_shownNegated hnames h ?_⟩
    intro _ _ _ _ he
    cases he
    exact (ihl hnamesl).1

/-! ## Texts and signs -/

theorem neg_of_pos {value : Int64} (h : 0 < value) :
    -value < 0 ∧ (-value).toInt.natAbs = value.toInt.natAbs := by
  have hpos : 0 < value.toInt := Int64.lt_iff_toInt_lt.mp h
  have hmax := value.toInt_lt
  have hneg : (-value).toInt = -value.toInt := by
    rw [Int64.toInt_neg]
    exact Int.bmod_eq_of_le (by omega) (by omega)
  refine ⟨Int64.lt_iff_toInt_lt.mpr ?_, ?_⟩
  · rw [hneg]
    exact Int.neg_neg_of_pos hpos
  · rw [hneg, Int.natAbs_neg]

/-- A negation that has become a number is written as before, and cannot stand
behind a minus sign either. -/
theorem shown_negated (mark : α) (e : Expr α) (rest : Text) :
    (e.negated mark).shown rest = (Expr.unary mark .negate e).shown rest ∧
      (e.negated mark).outline.isBare = false := by
  cases e with
  | name | unary | binary => exact ⟨rfl, rfl⟩
  | number inner value =>
    rw [negated]
    split
    · next hpos =>
      obtain ⟨hneg, habs⟩ := neg_of_pos hpos
      have hnonneg : 0 ≤ value := Int64.le_of_lt hpos
      constructor
      · rw [shown_negate, shownNegated, if_pos (by simpa [outline, Outline.isBare] using hnonneg),
          shown_number, shown_number, Literal.write_of_neg hneg, habs,
          Literal.write_of_nonneg hnonneg, List.cons_append]
      · simpa [outline, Outline.isBare] using hneg
    · exact ⟨rfl, rfl⟩

theorem isBare_signed (e : Expr α) : e.signed.outline.isBare = e.outline.isBare := by
  cases e with
  | number | name | binary => rfl
  | unary mark op operand =>
    cases op with
    | sqrt => rfl
    | negate => exact (shown_negated mark operand.signed []).2

theorem shown_signed (e : Expr α) (rest : Text) : e.signed.shown rest = e.shown rest := by
  induction e generalizing rest with
  | number mark value => rfl
  | name mark word => rfl
  | unary mark op operand ih =>
    cases op with
    | sqrt => rw [signed, shown_sqrt, shown_sqrt, ih]
    | negate =>
      rw [signed, (shown_negated mark operand.signed rest).1, shown_negate, shown_negate,
        shownNegated, shownNegated, isBare_signed, ih, ih]
  | binary mark op left right ihl ihr => rw [signed, shown_binary, shown_binary, ihr, ihl]

end Expr

end Polish
