import Polish.Proofs.Grammar

/-
  Viable tokens — where a statement stops being the start of a valid one

  A parse error names a token, or none if the statement only ends too early. Both
  say something about all valid statements, while the parser reads each token once
  and never looks ahead. What carries this over is `Pending`: the tokens after which
  the parser is about to read an operand. Whatever it meets there, it has not judged
  yet, so these tokens can always be completed; and the error it raises there depends
  on nothing that follows.

  What is proved:
    1. `Pending.exists_completed`, `Pending.parseExpr_error` — pending tokens start an
       expression, and a failure behind them is a failure of the whole.
    2. `pending_of_parseExpr_error` — every failure inside an expression is met behind
       pending tokens, by the token there or by the lack of one.
    3. `verdict_of_parseCommand_error` — the same for commands, said of all valid ones.
    4. `parse_error_blames_first_misfit` — the token of a parse error is the first with
       which no valid statement goes on.
    5. `blame_of_farNumber` — a token behind the first 2³² bytes that is blamed and fits.
-/

namespace Polish

/-! ## Valid and viable tokens -/

/-- The kind of the token is that of its text. -/
def Token.IsSound (t : Token) : Prop := t.kind = .ofWord t.text

instance (t : Token) : Decidable t.IsSound := inferInstanceAs (Decidable (_ = _))

/-- The tokens of a valid statement: the rules derive them, each is what its text says, and
no number among them is out of range. -/
structure IsValid (tokens : List Token) : Prop where
  isCommand : IsCommand tokens
  sound : ∀ t ∈ tokens, t.IsSound
  inRange : ∀ t ∈ tokens, t.InRange

/-- Some valid statement starts with the tokens. -/
def IsViable (tokens : List Token) : Prop := ∃ more, IsValid (tokens ++ more)

/-- Some valid statement starts with the tokens and goes on. -/
def IsUnfinished (tokens : List Token) : Prop := ∃ more, more ≠ [] ∧ IsValid (tokens ++ more)

/-- Token number `i` is the first with which no valid statement goes on. -/
structure IsFirstMisfit (tokens : List Token) (i : Nat) : Prop where
  within : i < tokens.length
  misfit : ¬ IsViable (tokens.take (i + 1))
  first : ∀ j, j < i → IsViable (tokens.take (j + 1))

theorem isValid_of_spelled {tokens : List Token} {command : Command Token}
    (hsound : ∀ t ∈ tokens, t.IsSound) (h : command.SpelledBy tokens) : IsValid tokens := by
  obtain ⟨hcommand, hread⟩ := exists_spelled_iff.mp ⟨command, h⟩
  exact ⟨hcommand, hsound, fun t ht => (Token.isReadable_iff (hsound t ht)).mp (hread t ht)⟩

theorem not_isValid_of_error {tokens : List Token} {g : GrammarError}
    (h : parseCommand tokens = .error g) : ¬ IsValid tokens := by
  rintro ⟨hcommand, hsound, hrange⟩
  obtain ⟨command, hspelled⟩ := exists_spelled_iff.mpr
    ⟨hcommand, fun t ht => (Token.isReadable_iff (hsound t ht)).mpr (hrange t ht)⟩
  rw [parseCommand_eq_ok_iff.mpr hspelled] at h
  cases h

theorem IsUnfinished.isViable {tokens : List Token} (h : IsUnfinished tokens) :
    IsViable tokens := by
  obtain ⟨more, -, hvalid⟩ := h
  exact ⟨more, hvalid⟩

theorem IsViable.of_append {first second : List Token} (h : IsViable (first ++ second)) :
    IsViable first := by
  obtain ⟨more, hvalid⟩ := h
  exact ⟨second ++ more, List.append_assoc first second more ▸ hvalid⟩

theorem IsViable.take {tokens : List Token} (h : IsViable tokens) (n : Nat) :
    IsViable (tokens.take n) := by
  rw [← List.take_append_drop n tokens] at h
  exact h.of_append

theorem IsFirstMisfit.not_isUnfinished {tokens : List Token} {i : Nat}
    (h : IsFirstMisfit tokens i) : ¬ IsUnfinished tokens := by
  intro hunfinished
  exact h.misfit (hunfinished.isViable.take (i + 1))

/-- A token that fails whatever follows it is the first misfit, if what stands before it
is viable. -/
theorem IsFirstMisfit.of_split {before after : List Token} {t : Token} {g : GrammarError}
    (hviable : IsViable before) (hfail : ∀ more, parseCommand (before ++ t :: more) = .error g) :
    IsFirstMisfit (before ++ t :: after) before.length where
  within := by simp
  misfit := by
    have hupto : (before ++ t :: after).take (before.length + 1) = before ++ [t] := by
      rw [List.take_append, List.take_of_length_le (Nat.le_succ _), Nat.add_sub_cancel_left]
      rfl
    rintro ⟨more, hvalid⟩
    rw [hupto, List.append_assoc, List.singleton_append] at hvalid
    exact not_isValid_of_error (hfail more) hvalid
  first := by
    intro j hj
    rw [List.take_append_of_le_length hj]
    exact hviable.take (j + 1)

/-! ## Pending operands -/

/-- The expression `0`, the shortest way to complete anything. -/
def Expr.zero : Expr Token := .number (Word.token ⟨ascii "0", 0, 1⟩) 0

theorem Expr.faithful_zero : Expr.zero.Faithful :=
  Expr.faithful_number.mpr ⟨by decide, by decide⟩

theorem Expr.sound_zero : ∀ t ∈ Expr.zero.marks, t.IsSound := List.forall_mem_singleton.mpr rfl

/-- The tokens of an expression up to one of its operands. -/
inductive Pending : List Token → Prop
  | here : Pending []
  | unary {t : Token} {op : UnaryOp} {rest : List Token} (kind : t.kind = .unary op)
      (pending : Pending rest) : Pending (t :: rest)
  | left {t : Token} {op : BinaryOp} {rest : List Token} (kind : t.kind = .binary op)
      (pending : Pending rest) : Pending (t :: rest)
  | right {t : Token} {op : BinaryOp} {left : Expr Token} {rest : List Token}
      (kind : t.kind = .binary op) (faithful : left.Faithful) (pending : Pending rest) :
      Pending (t :: (left.marks ++ rest))

namespace Pending

/-- Pending tokens start an expression, and at least the operand is missing. -/
theorem exists_completed {before : List Token} (h : Pending before) :
    ∃ (e : Expr Token) (more : List Token),
      e.Faithful ∧ e.marks = before ++ more ∧ more ≠ [] ∧ ∀ t ∈ more, t.IsSound := by
  induction h with
  | here =>
    exact ⟨.zero, Expr.zero.marks, Expr.faithful_zero, rfl, List.cons_ne_nil _ _, Expr.sound_zero⟩
  | @unary t op rest kind _ ih =>
    obtain ⟨e, more, hfaithful, hmarks, hmore⟩ := ih
    refine ⟨.unary t op e, more, Expr.faithful_unary.mpr ⟨kind, hfaithful⟩, ?_, hmore⟩
    rw [Expr.marks_unary, hmarks, List.cons_append]
  | @left t op rest kind _ ih =>
    obtain ⟨e, more, hfaithful, hmarks, hmore, hsound⟩ := ih
    refine ⟨.binary t op e .zero, more ++ Expr.zero.marks,
      Expr.faithful_binary.mpr ⟨kind, hfaithful, Expr.faithful_zero⟩, ?_, by simp [hmore],
      List.forall_mem_append.mpr ⟨hsound, Expr.sound_zero⟩⟩
    rw [Expr.marks_binary, hmarks, List.cons_append, List.append_assoc]
  | @right t op left rest kind faithful _ ih =>
    obtain ⟨e, more, hfaithful, hmarks, hmore⟩ := ih
    refine ⟨.binary t op left e, more,
      Expr.faithful_binary.mpr ⟨kind, faithful, hfaithful⟩, ?_, hmore⟩
    rw [Expr.marks_binary, hmarks, List.cons_append, List.append_assoc]

theorem parseExpr_error {before rest : List Token} {g : GrammarError} (h : Pending before)
    (hrest : parseExpr rest = .error g) : parseExpr (before ++ rest) = .error g := by
  induction h with
  | here => exact hrest
  | unary kind _ ih =>
    rw [List.cons_append, parseExpr]
    simp only [kind, ih]
  | left kind _ ih =>
    rw [List.cons_append, parseExpr]
    simp only [kind, ih]
  | @right t op left inner kind faithful _ ih =>
    -- the left operand is read back, whatever stands behind it
    have hleft := parseExpr_of_spelled faithful rfl (left.length_lt_append (inner ++ rest))
    rw [List.cons_append, List.append_assoc, parseExpr]
    simp only [kind, hleft, ih]

end Pending

/-- A token that cannot start an operand is refused whatever follows it. -/
structure Refused (t : Token) (g : GrammarError) : Prop where
  token : g.token? = some t
  kind : g.kind = .illegalValue
  always : ∀ more, parseExpr (t :: more) = .error g

/-- An expression fails where an operand is pending: nothing is left, or the next
token cannot start one. -/
theorem pending_of_parseExpr_error {tokens : List Token} {g : GrammarError}
    (h : parseExpr tokens = .error g) :
    (Pending tokens ∧ g = .missingOperand) ∨
    ∃ before t after, tokens = before ++ t :: after ∧ Pending before ∧ Refused t g := by
  fun_induction parseExpr tokens with
  | case1 =>
    cases h
    exact .inl ⟨.here, rfl⟩
  | case3 t rest hkind hread | case4 t rest hkind hread =>
    cases h
    refine .inr ⟨[], t, rest, rfl, .here, rfl, rfl, ?_⟩
    intro more
    rw [parseExpr]
    simp only [hkind, hread]
  | case6 t rest op hkind e hparse ih =>
    cases h
    rcases ih hparse with ⟨hpending, rfl⟩ | ⟨before, u, after, rfl, hpending, hrefused⟩
    · exact .inl ⟨.unary hkind hpending, rfl⟩
    · exact .inr ⟨t :: before, u, after, rfl, .unary hkind hpending, hrefused⟩
  | case8 t rest op hkind e hparse ih =>
    cases h
    rcases ih hparse with ⟨hpending, rfl⟩ | ⟨before, u, after, rfl, hpending, hrefused⟩
    · exact .inl ⟨.left hkind hpending, rfl⟩
    · exact .inr ⟨t :: before, u, after, rfl, .left hkind hpending, hrefused⟩
  | case9 t rest op hkind left rest₁ h₁ hleft e hparse ihleft ihright =>
    cases h
    obtain ⟨hfaithful, hmarks⟩ := spelled_of_parseExpr hleft
    dsimp only at hmarks
    rcases ihright hparse with ⟨hpending, rfl⟩ | ⟨before, u, after, rfl, hpending, hrefused⟩
    · rw [← hmarks]
      exact .inl ⟨.right hkind hfaithful hpending, rfl⟩
    · refine .inr ⟨t :: (left.marks ++ before), u, after, ?_,
        .right hkind hfaithful hpending, hrefused⟩
      rw [List.cons_append, List.append_assoc, hmarks]
  | case11 t rest hkind | case12 t rest hkind | case13 t rest hkind | case14 t rest hkind =>
    cases h
    refine .inr ⟨[], t, rest, rfl, .here, rfl, rfl, ?_⟩
    intro more
    rw [parseExpr]
    simp only [hkind]
  | case2 | case5 | case7 | case10 => cases h

theorem parseWholeExpr_of_extra {e : Expr Token} (h : e.Faithful) (t : Token)
    (after : List Token) :
    parseWholeExpr (e.marks ++ t :: after) = .error (.unexpectedToken t) := by
  rw [parseWholeExpr, parseExpr_of_spelled h rfl (e.length_lt_append _)]

theorem parseWholeExpr_error_cases {tokens : List Token} {g : GrammarError}
    (h : parseWholeExpr tokens = .error g) :
    parseExpr tokens = .error g ∨
    ∃ (e : Expr Token) (t : Token) (after : List Token),
      e.Faithful ∧ tokens = e.marks ++ t :: after ∧ g = .unexpectedToken t := by
  unfold parseWholeExpr at h
  split at h
  · next g' hparse =>
    cases h
    exact .inl hparse
  · cases h
  · next e t after hlt hparse =>
    cases h
    obtain ⟨hfaithful, hmarks⟩ := spelled_of_parseExpr hparse
    exact .inr ⟨e, t, after, hfaithful, hmarks.symm, rfl⟩

/-! ## Commands -/

/-- The tokens of a command in front of its value. -/
inductive IsHead : List Token → Prop
  | assign {keyword target : Token} (keywordKind : keyword.kind = .assign)
      (targetKind : target.kind = .name) : IsHead [keyword, target]
  | print {keyword : Token} (keywordKind : keyword.kind = .print) : IsHead [keyword]

namespace IsHead

theorem isValid {head : List Token} (h : IsHead head) {e : Expr Token} (hfaithful : e.Faithful)
    (hsound : ∀ t ∈ head ++ e.marks, t.IsSound) : IsValid (head ++ e.marks) := by
  cases h with
  | assign hkeyword htarget =>
    exact isValid_of_spelled hsound (.assign hkeyword htarget hfaithful)
  | print hkeyword => exact isValid_of_spelled hsound (.print hkeyword hfaithful)

theorem isUnfinished {head before : List Token} (h : IsHead head) (hpending : Pending before)
    (hsound : ∀ t ∈ head ++ before, t.IsSound) : IsUnfinished (head ++ before) := by
  obtain ⟨e, more, hfaithful, hmarks, hmore, hsound'⟩ := hpending.exists_completed
  have hall := List.forall_mem_append.mpr ⟨hsound, hsound'⟩
  refine ⟨more, hmore, ?_⟩
  rw [List.append_assoc, ← hmarks] at hall ⊢
  exact h.isValid hfaithful hall

theorem parseCommand_error {head body : List Token} {g : GrammarError} (h : IsHead head)
    (hbody : parseWholeExpr body = .error g) : parseCommand (head ++ body) = .error g := by
  cases h with
  | assign hkeyword htarget => simp [parseCommand, hkeyword, htarget, hbody, Except.map]
  | print hkeyword => simp [parseCommand, hkeyword, hbody, Except.map]

theorem parseCommand_error_of_pending {head before rest : List Token} {g : GrammarError}
    (h : IsHead head) (hpending : Pending before) (hrest : parseExpr rest = .error g) :
    parseCommand (head ++ (before ++ rest)) = .error g := by
  apply h.parseCommand_error
  rw [parseWholeExpr, hpending.parseExpr_error hrest]

end IsHead

theorem isUnfinished_nil : IsUnfinished [] := by
  have hhead : IsHead [Word.token ⟨ascii "@", 0, 1⟩] := .print (by decide)
  refine ⟨_, List.cons_ne_nil _ _, hhead.isValid Expr.faithful_zero ?_⟩
  exact List.forall_mem_cons.mpr ⟨rfl, Expr.sound_zero⟩

theorem isUnfinished_assign {keyword : Token} (h : keyword.kind = .assign)
    (hsound : keyword.IsSound) : IsUnfinished [keyword] := by
  have hhead : IsHead [keyword, Word.token ⟨ascii "x", 0, 1⟩] := .assign h (by decide)
  refine ⟨_, List.cons_ne_nil _ _, hhead.isValid Expr.faithful_zero ?_⟩
  exact List.forall_mem_cons.mpr ⟨hsound, List.forall_mem_cons.mpr ⟨rfl, Expr.sound_zero⟩⟩

/-- The kind of the error at a token that does not fit behind `before`. -/
structure MisfitKind (before : List Token) (kind : Kind) : Prop where
  keyword : before = [] → kind = .unknownStatement
  extra : IsValid before → kind = .arityMismatch
  otherwise : before ≠ [] → ¬ IsValid before → kind = .illegalValue

theorem MisfitKind.illegalValue {before : List Token} {g : GrammarError} (hne : before ≠ [])
    (h : parseCommand before = .error g) : MisfitKind before .illegalValue :=
  ⟨fun hnil => absurd hnil hne, fun hvalid => absurd hvalid (not_isValid_of_error h),
    fun _ _ => rfl⟩

/-- What a grammar error says about all valid statements. -/
inductive Verdict (tokens : List Token) (g : GrammarError) : Prop
  | unfinished (token : g.token? = none) (kind : g.kind = .arityMismatch)
      (unfinished : IsUnfinished tokens)
  | misfit {before after : List Token} {t : Token} (split : tokens = before ++ t :: after)
      (token : g.token? = some t) (kind : MisfitKind before g.kind) (viable : IsViable before)
      (misfit : ∀ more, parseCommand (before ++ t :: more) = .error g)

theorem IsHead.verdict {head body : List Token} {g : GrammarError} (h : IsHead head)
    (hsound : ∀ t ∈ head ++ body, t.IsSound) (hbody : parseWholeExpr body = .error g) :
    Verdict (head ++ body) g := by
  rcases parseWholeExpr_error_cases hbody with hparse | ⟨e, t, after, hfaithful, rfl, rfl⟩
  · rcases pending_of_parseExpr_error hparse with
      ⟨hpending, rfl⟩ | ⟨before, t, after, rfl, hpending, hrefused⟩
    · exact .unfinished rfl rfl (h.isUnfinished hpending hsound)
    · rw [← List.append_assoc, List.forall_mem_append] at hsound
      -- up to the refused token an operand is missing, and it is refused whatever follows
      have hmissing : parseCommand (head ++ before) = .error .missingOperand := by
        have hnil : parseExpr [] = .error .missingOperand := by rw [parseExpr]
        simpa using h.parseCommand_error_of_pending hpending hnil
      have hne : head ++ before ≠ [] := by
        cases h <;> simp
      refine .misfit (List.append_assoc ..).symm hrefused.token ?_
        (h.isUnfinished hpending hsound.1).isViable ?_
      · rw [hrefused.kind]
        exact .illegalValue hne hmissing
      · intro more
        rw [List.append_assoc]
        exact h.parseCommand_error_of_pending hpending (hrefused.always more)
  · rw [← List.append_assoc, List.forall_mem_append] at hsound
    have hvalid := h.isValid hfaithful hsound.1
    refine .misfit (List.append_assoc ..).symm rfl ?_ ⟨[], by rwa [List.append_nil]⟩ ?_
    · refine ⟨?_, fun _ => rfl, fun _ hinvalid => absurd hvalid hinvalid⟩
      intro hnil
      cases h <;> simp at hnil
    · intro more
      rw [List.append_assoc]
      exact h.parseCommand_error (parseWholeExpr_of_extra hfaithful t more)

theorem verdict_of_parseCommand_error {tokens : List Token} {g : GrammarError}
    (hsound : ∀ t ∈ tokens, t.IsSound) (h : parseCommand tokens = .error g) :
    Verdict tokens g := by
  unfold parseCommand at h
  split at h
  · cases h
    exact .unfinished rfl rfl isUnfinished_nil
  · next keyword rest =>
    have hfirst := hsound keyword List.mem_cons_self
    split at h
    · next hkeyword =>
      split at h
      · cases h
        exact .unfinished rfl rfl (isUnfinished_assign hkeyword hfirst)
      · next target body =>
        split at h
        · next htarget =>
          cases hbody : parseWholeExpr body with
          | ok e => rw [hbody] at h; cases h
          | error g' =>
            rw [hbody] at h
            cases h
            exact (IsHead.assign hkeyword htarget).verdict hsound hbody
        · next htarget =>
          cases h
          have halone : parseCommand [keyword] = .error .missingTarget := by
            simp [parseCommand, hkeyword]
          refine @Verdict.misfit _ _ [keyword] body target rfl rfl
            (.illegalValue (by simp) halone) (isUnfinished_assign hkeyword hfirst).isViable ?_
          intro more
          simp only [List.singleton_append, parseCommand, hkeyword]
    · next hkeyword =>
      cases hbody : parseWholeExpr rest with
      | ok e => rw [hbody] at h; cases h
      | error g' =>
        rw [hbody] at h
        cases h
        exact (IsHead.print hkeyword).verdict hsound hbody
    · next hassign hprint =>
      cases h
      refine @Verdict.misfit _ _ [] rest keyword rfl rfl
        ⟨fun _ => rfl, ?_, fun hne => absurd rfl hne⟩ isUnfinished_nil.isViable ?_
      · intro hvalid
        exact absurd hvalid (not_isValid_of_error rfl)
      · intro more
        simp only [List.nil_append, parseCommand]

/-! ## Statements -/

/-- The diagnostic of a statement that does not parse names the line and the text of the
statement. Let the statement be scanned from less than 2³² bytes. Then the diagnostic names
no token exactly if a valid statement starts with the statement's tokens and goes on; then
the arity is at fault. Otherwise it names the first token with which no valid statement goes
on: an unknown statement if that is the first of all, an arity mismatch if what stands
before it is a valid statement already, and an illegal value in all other cases. -/
theorem parse_error_blames_first_misfit {st : Statement} {d : Diagnostic}
    (h : st.parse = .error d) :
    d.line = st.line ∧ d.statement = st.text ∧
    (st.IsScanned →
      (d.token = [] ↔ IsUnfinished st.tokens) ∧
      (IsUnfinished st.tokens → d.kind = .arityMismatch) ∧
      (¬ IsUnfinished st.tokens → ∃ i t, IsFirstMisfit st.tokens i ∧ st.tokens[i]? = some t ∧
        d.token = t.text ∧
        (i = 0 → d.kind = .unknownStatement) ∧
        (IsValid (st.tokens.take i) → d.kind = .arityMismatch) ∧
        (i ≠ 0 → ¬ IsValid (st.tokens.take i) → d.kind = .illegalValue))) := by
  unfold Statement.parse at h
  cases hparse : parseCommand st.tokens with
  | ok command => rw [hparse] at h; cases h
  | error g =>
    rw [hparse] at h
    cases h
    refine ⟨rfl, rfl, fun hst => ?_⟩
    cases verdict_of_parseCommand_error (fun _ => hst.kind_of_mem) hparse with
    | unfinished token kind unfinished =>
      have htoken : (g.diagnostic st).token = [] := by
        simp [GrammarError.diagnostic, Statement.diagnostic, token]
      exact ⟨⟨fun _ => unfinished, fun _ => htoken⟩, fun _ => kind,
        fun hfinished => absurd unfinished hfinished⟩
    | @misfit before after t split token kind viable misfit =>
      have htoken : (g.diagnostic st).token = t.text := by
        simp [GrammarError.diagnostic, Statement.diagnostic, token]
      have hmem : t ∈ st.tokens := by simp [split]
      have hbefore : st.tokens.take before.length = before := by simp [split]
      have hmisfit : IsFirstMisfit st.tokens before.length := split ▸ .of_split viable misfit
      have hfinished := hmisfit.not_isUnfinished
      refine ⟨⟨?_, ?_⟩, fun hunfinished => absurd hunfinished hfinished, ?_⟩
      · intro hnil
        exact absurd (htoken ▸ hnil) (hst.text_ne_nil hmem)
      · intro hunfinished
        exact absurd hunfinished hfinished
      · intro _
        refine ⟨before.length, t, hmisfit, by simp [split], htoken, ?_, ?_, ?_⟩
        · intro hzero
          exact kind.keyword (List.eq_nil_of_length_eq_zero hzero)
        · rw [hbefore]
          exact kind.extra
        · rw [hbefore]
          intro hpos
          exact kind.otherwise fun hnil => hpos (by rw [hnil]; rfl)

/-- The second operand of the sum is missing. -/
def unfinishedSum : Statement := Statement.ofText (ascii "@ + _ x")

/-- Neither of the last two words can stand where it does. -/
def twoMisfits : Statement := Statement.ofText (ascii ":= x * 7 9223372036854775808 @")

/-- The unfinished sum is blamed on no token; of two misfits the first is blamed, the
number that is out of range. -/
theorem parse_error_blames_first_misfit_of_two :
    (unfinishedSum.IsScanned ∧ ∃ d, unfinishedSum.parse = .error d ∧ d.token = [] ∧
      IsUnfinished unfinishedSum.tokens ∧ d.kind = .arityMismatch) ∧
    twoMisfits.IsScanned ∧ ∃ d, twoMisfits.parse = .error d ∧ ¬ IsUnfinished twoMisfits.tokens ∧
      ∃ i t, IsFirstMisfit twoMisfits.tokens i ∧ twoMisfits.tokens[i]? = some t ∧
        t.text = ascii "9223372036854775808" ∧
        (i ≠ 0 → ¬ IsValid (twoMisfits.tokens.take i) → d.kind = .illegalValue) := by
  have hsum : unfinishedSum.parse =
      .error (GrammarError.missingOperand.diagnostic unfinishedSum) := by decide +kernel
  have htwo : twoMisfits.parse =
      .error ((GrammarError.outOfRange (Word.token ⟨ascii "9223372036854775808", 9, 1⟩)).diagnostic
        twoMisfits) := by decide +kernel
  have hsumScanned : unfinishedSum.IsScanned :=
    .ofText (show (ascii "@ + _ x").length < UInt32.size by decide) rfl
  have htwoScanned : twoMisfits.IsScanned :=
    .ofText (show (ascii ":= x * 7 9223372036854775808 @").length < UInt32.size by decide) rfl
  constructor
  · obtain ⟨htoken, hkind, -⟩ := (parse_error_blames_first_misfit hsum).2.2 hsumScanned
    exact ⟨hsumScanned, _, hsum, rfl, htoken.mp rfl, hkind (htoken.mp rfl)⟩
  · obtain ⟨htoken, -, hmisfit⟩ := (parse_error_blames_first_misfit htwo).2.2 htwoScanned
    have hfinished : ¬ IsUnfinished twoMisfits.tokens := by
      intro hunfinished
      cases htoken.mpr hunfinished
    obtain ⟨i, t, hfirst, ht, hword, -, -, hillegal⟩ := hmisfit hfinished
    exact ⟨htwoScanned, _, htwo, hfinished, i, t, hfirst, ht, hword.symm, hillegal⟩

/-- Behind the first 2³² bytes of a source a statement can be refused whose words are a
valid one, with the blame on a number that fits. -/
theorem blame_of_farNumber :
    Runs.farWords <:+ words Runs.farNumber.text ∧
    Runs.farStatement ∈ Statement.ofSource Runs.farNumber.text ∧
    Runs.farStatement.tokens.map Token.toLexeme = Runs.farWords.map Word.lexeme ∧
    IsValid (Runs.farWords.map Word.token) ∧
    ∃ d, Runs.farStatement.parse = .error d ∧ d.kind = .illegalValue ∧ d.token = ascii "x" := by
  have hvalid : IsValid (Runs.farWords.map Word.token) :=
    ⟨.print (by decide) (.number (by decide)), by decide, by decide⟩
  exact ⟨Runs.farWords_suffix, Runs.farStatement_mem, by decide, hvalid, _,
    Runs.parse_farStatement, rfl, rfl⟩

end Polish
