import Polish.Proofs.Legible

/-
  Outlines — what the infix form of a program identifies

  A line of the infix form is that of an assignment or of a print. Which of them it
  is shows behind its first word, even where the target is spelled like the word in
  front of printed values. So the form of a whole program gives away its commands,
  up to the signs of numbers, and with them all that an evaluation shows.

  What is proved:
    1. `Command.shown_inj`, `shownAll_inj` — commands are told by their lines, up to
       signs.
    2. `perform_plain_signed`, `performAll_of_signed` — neither marks nor signs make a
       difference to what commands do.
    3. `outline_identifies_program` — both, for programs that parse.
    4. `outline_farSum` — a name behind the first 2³² bytes with the text of a sum.
-/

namespace Polish

/-! ## Commands -/

theorem Outline.textOnto_append (o : Outline) (rest more : Text) :
    o.textOnto (rest ++ more) = o.textOnto rest ++ more := by
  induction o generalizing rest with
  | hole => simp [textOnto]
  | number value => simp [textOnto]
  | name word => simp [textOnto]
  | unary op operand ih =>
    simp only [textOnto]
    split
    · rw [← List.append_assoc, ih, List.append_assoc]
    · split
      · rw [ih, List.append_assoc]
      · rw [← List.append_assoc, ih, List.append_assoc]
  | binary op left right ihl ihr =>
    simp only [textOnto]
    rw [← List.append_assoc, ihr, ← List.append_assoc, ihl, ← List.append_assoc]

namespace Command

variable {α : Type}

def shown (c : Command α) (rest : Text) : Text := c.outline.text ++ rest

theorem shown_assign (mark targetMark : α) (target : Text) (value : Expr α) (rest : Text) :
    (Command.assign mark targetMark target value).shown rest =
      target ++ 32 :: 58 :: 61 :: 32 :: value.shown rest := by
  have h := value.outline.textOnto_append [] rest
  rw [List.nil_append] at h
  simp only [shown, outline, CommandOutline.text, Expr.shown, Outline.text, h, List.append_assoc]
  rfl

theorem shown_print (mark : α) (value : Expr α) (rest : Text) :
    (Command.print mark value).shown rest = ascii "PRINT" ++ 32 :: value.shown rest := by
  have h := value.outline.textOnto_append [] rest
  rw [List.nil_append] at h
  simp only [shown, outline, CommandOutline.text, Expr.shown, Outline.text, h, List.append_assoc]
  rfl

theorem outline_plain (c : Command α) : c.plain.outline = c.outline := by
  cases c with
  | assign mark targetMark target value =>
    exact congrArg (CommandOutline.assign _) value.outline_plain
  | print mark value => exact congrArg CommandOutline.print value.outline_plain

theorem shown_signed (c : Command α) (rest : Text) : c.signed.shown rest = c.shown rest := by
  cases c with
  | assign mark targetMark target value =>
    rw [signed, shown_assign, shown_assign, value.shown_signed]
  | print mark value => rw [signed, shown_print, shown_print, value.shown_signed]

theorem name_append_inj {word word' t t' : Text} (hname : TokenKind.isName word = true)
    (hname' : TokenKind.isName word' = true) (h : word ++ 32 :: t = word' ++ 32 :: t') :
    word = word' ∧ t = t' := by
  obtain ⟨hword, ht⟩ := Text.append_inj_of_stop
    (fun b hb => TokenKind.isNameByte_of_mem hname hb) (fun b hb => (closes_space t).stop hb)
    (fun b hb => TokenKind.isNameByte_of_mem hname' hb) (fun b hb => (closes_space t').stop hb) h
  exact ⟨hword, (List.cons.inj ht).2⟩

/-- No expression starts with the sign of an assignment. -/
theorem shown_ne_colon {value : Expr α} {rest t : Text} (hnames : value.HasNames) :
    value.shown rest ≠ 58 :: t := by
  intro h
  rcases Expr.shown_of_not_word hnames (by decide) h with
    ⟨-, -, -, -, hb, -⟩ | ⟨-, -, -, hb, -⟩ | ⟨-, -, -, -, -, hb, -⟩
  · cases hb
  · cases hb
  · cases hb

/-- A command is told by its text, up to signs. This holds for a target that is
spelled like the word in front of printed values as well. -/
theorem shown_inj {c c' : Command Unit} {rest rest' : Text} (hnames : c.HasNames)
    (hnames' : c'.HasNames) (hrest : Closes rest) (hrest' : Closes rest')
    (h : c.shown rest = c'.shown rest') : c.signed = c'.signed ∧ rest = rest' := by
  have hprint : TokenKind.isName (ascii "PRINT") = true := by decide
  cases c with
  | assign mark targetMark target value =>
    cases c' with
    | assign mark' targetMark' target' value' =>
      rw [shown_assign, shown_assign] at h
      obtain ⟨htarget, hbehind⟩ := name_append_inj hnames.1 hnames'.1 h
      simp only [List.cons.injEq, true_and] at hbehind
      obtain ⟨hvalue, hr⟩ :=
        (Expr.toldBy_texts hnames.2).1 value' _ _ hnames'.2 hrest hrest' hbehind
      exact ⟨by rw [signed, signed, htarget, hvalue], hr⟩
    | print mark' value' =>
      rw [shown_assign, shown_print] at h
      exact absurd (name_append_inj hnames.1 hprint h).2.symm (shown_ne_colon hnames')
  | print mark value =>
    cases c' with
    | assign mark' targetMark' target' value' =>
      rw [shown_print, shown_assign] at h
      exact absurd (name_append_inj hprint hnames'.1 h).2 (shown_ne_colon hnames)
    | print mark' value' =>
      rw [shown_print, shown_print] at h
      obtain ⟨hvalue, hr⟩ := (Expr.toldBy_texts hnames).1 value' _ _ hnames' hrest hrest'
        (name_append_inj hprint hprint h).2
      exact ⟨by rw [signed, signed, hvalue], hr⟩

end Command

/-! ## Programs -/

def shownAll (commands : List (Command Unit)) : Text :=
  Text.unlines (commands.map fun c => c.outline.text)

theorem map_outline_plain {α : Type} (commands : List (Command α)) :
    (commands.map Command.plain).map (fun c => c.outline.text) =
      commands.map fun c => c.outline.text := by
  rw [List.map_map]
  apply List.map_congr_left
  intro c _
  rw [Function.comp_apply, c.outline_plain]

theorem shownAll_cons (c : Command Unit) (rest : List (Command Unit)) :
    shownAll (c :: rest) = c.shown (Text.newline :: shownAll rest) := by
  simp [shownAll, Text.unlines, Command.shown]

theorem shownAll_signed (commands : List (Command Unit)) :
    shownAll (commands.map Command.signed) = shownAll commands := by
  induction commands with
  | nil => rfl
  | cons c rest ih => rw [List.map_cons, shownAll_cons, shownAll_cons, ih, c.shown_signed]

theorem shownAll_inj {commands commands' : List (Command Unit)}
    (hnames : ∀ c ∈ commands, c.HasNames) (hnames' : ∀ c ∈ commands', c.HasNames)
    (h : shownAll commands = shownAll commands') :
    commands.map Command.signed = commands'.map Command.signed := by
  induction commands generalizing commands' with
  | nil =>
    cases commands' with
    | nil => rfl
    | cons c' rest' =>
      rw [shownAll_cons, Command.shown, eq_comm] at h
      exact absurd (List.append_eq_nil_iff.mp h).2 (List.cons_ne_nil _ _)
  | cons c rest ih =>
    cases commands' with
    | nil =>
      rw [shownAll_cons, Command.shown] at h
      exact absurd (List.append_eq_nil_iff.mp h).2 (List.cons_ne_nil _ _)
    | cons c' rest' =>
      rw [shownAll_cons, shownAll_cons] at h
      obtain ⟨hc, hrest⟩ := List.forall_mem_cons.mp hnames
      obtain ⟨hc', hrest'⟩ := List.forall_mem_cons.mp hnames'
      obtain ⟨hsigned, hmore⟩ :=
        Command.shown_inj hc hc' (closes_newline _) (closes_newline _) h
      rw [List.map_cons, List.map_cons, hsigned, ih hrest hrest' (List.cons.inj hmore).2]

theorem shownAll_of_signed {commands commands' : List (Command Unit)}
    (h : commands.map Command.signed = commands'.map Command.signed) :
    shownAll commands = shownAll commands' :=
  calc shownAll commands
      = shownAll (commands.map Command.signed) := (shownAll_signed commands).symm
    _ = shownAll (commands'.map Command.signed) := by rw [h]
    _ = shownAll commands' := shownAll_signed commands'

/-! ## Statements -/

theorem Expr.Faithful.hasNames {e : Expr Token} (h : e.Faithful)
    (hkinds : ∀ t ∈ e.marks, t.kind = .ofWord t.text) : e.HasNames := by
  intro mark word hmem
  have hmark : mark ∈ e.marks := List.mem_map.mpr ⟨_, hmem, rfl⟩
  obtain ⟨hkind, rfl⟩ := h _ hmem
  exact TokenKind.isName_of_ofWord ((hkinds mark hmark).symm.trans hkind)

theorem Expr.nodes_plain {α : Type} (e : Expr α) : e.plain.nodes = e.nodes.map Expr.plain := by
  induction e with
  | number mark value => rfl
  | name mark word => rfl
  | unary mark op operand ih => exact congrArg (_ :: ·) ih
  | binary mark op left right ihl ihr =>
    show _ :: (left.plain.nodes ++ right.plain.nodes) = _
    rw [ihl, ihr, nodes, List.map_cons, List.map_append]
    rfl

theorem Expr.hasNames_plain {α : Type} {e : Expr α} (h : e.HasNames) : e.plain.HasNames := by
  intro mark word hmem
  rw [nodes_plain] at hmem
  obtain ⟨node, hnode, hplain⟩ := List.mem_map.mp hmem
  cases node with
  | name mark' word' =>
    cases hplain
    exact h mark' word hnode
  | number | unary | binary => cases hplain

theorem Command.SpelledBy.hasNames {command : Command Token} {tokens : List Token}
    (h : command.SpelledBy tokens) (hkinds : ∀ t ∈ tokens, t.kind = .ofWord t.text) :
    command.HasNames := by
  cases h with
  | assign hkeyword htarget hfaithful =>
    rw [List.forall_mem_cons, List.forall_mem_cons] at hkinds
    exact ⟨TokenKind.isName_of_ofWord (hkinds.2.1.symm.trans htarget),
      hfaithful.hasNames hkinds.2.2⟩
  | print hkeyword hfaithful =>
    rw [List.forall_mem_cons] at hkinds
    exact hfaithful.hasNames hkinds.2

theorem Command.hasNames_plain {α : Type} {c : Command α} (h : c.HasNames) : c.plain.HasNames := by
  cases c with
  | assign mark targetMark target value => exact ⟨h.1, Expr.hasNames_plain h.2⟩
  | print mark value => exact Expr.hasNames_plain h

namespace Statement

theorem parseAll_cons_eq_ok {st : Statement} {rest : List Statement}
    {commands : List (Command Token)} :
    parseAll (st :: rest) = .ok commands ↔
      ∃ command more, st.parse = .ok command ∧ parseAll rest = .ok more ∧
        commands = command :: more := by
  unfold parseAll
  rw [List.mapM_cons]
  cases st.parse with
  | error d => simp [bind, Except.bind]
  | ok command =>
    cases rest.mapM parse with
    | error d => simp [bind, Except.bind]
    | ok more => simp [bind, Except.bind, pure, Except.pure, eq_comm]

theorem length_of_parseAll {program : List Statement} {commands : List (Command Token)}
    (h : parseAll program = .ok commands) : commands.length = program.length := by
  induction program generalizing commands with
  | nil => cases h; rfl
  | cons st rest ih =>
    obtain ⟨command, more, -, hrest, rfl⟩ := parseAll_cons_eq_ok.mp h
    exact congrArg (· + 1) (ih hrest)

theorem hasNames_of_parseAll {program : List Statement} {commands : List (Command Token)}
    (hscanned : ∀ st ∈ program, st.IsScanned) (h : parseAll program = .ok commands) :
    ∀ c ∈ commands.map Command.plain, c.HasNames := by
  induction program generalizing commands with
  | nil =>
    cases h
    exact fun c hc => absurd hc List.not_mem_nil
  | cons st rest ih =>
    obtain ⟨command, more, hst, hrest, rfl⟩ := parseAll_cons_eq_ok.mp h
    obtain ⟨hfirst, hscanned⟩ := List.forall_mem_cons.mp hscanned
    have hspelled := parseCommand_eq_ok_iff.mp (parse_eq_ok_iff.mp hst)
    have hcommand := Command.hasNames_plain (hspelled.hasNames fun _ => hfirst.kind_of_mem)
    exact List.forall_mem_cons.mpr ⟨hcommand, ih hscanned hrest⟩

theorem outlineAll_of_parseAll {program : List Statement} {commands : List (Command Token)}
    (h : parseAll program = .ok commands) :
    outlineAll program = .ok (shownAll (commands.map Command.plain)) := by
  rw [outlineAll, h, shownAll, map_outline_plain]
  rfl

end Statement

/-! ## Evaluation -/

theorem Expr.eval_plain {α : Type} (table : Table) (e : Expr α) :
    e.plain.eval table = e.eval table := by
  induction e with
  | number mark value => rfl
  | name mark word => rfl
  | unary mark op operand ih =>
    show (Expr.unary () op operand.plain).eval table = _
    rw [eval, eval, ih]
  | binary mark op left right ihl ihr =>
    show (Expr.binary () op left.plain right.plain).eval table = _
    rw [eval, eval, ihl, ihr]

namespace Evaluator

/-- Neither marks nor signs make a difference to what a command does. -/
theorem perform_plain_signed {α : Type} (v : Evaluator) (st : Statement) (c : Command α) :
    v.perform st c.plain.signed = v.perform st c := by
  cases c with
  | assign mark targetMark target value =>
    show v.perform st (.assign () () target value.plain.signed) = _
    rw [perform, perform, Command.value, Command.value, Expr.eval_signed, Expr.eval_plain]
  | print mark value =>
    show v.perform st (.print () value.plain.signed) = _
    rw [perform, perform, Command.value, Command.value, Expr.eval_signed, Expr.eval_plain]

/-- The kind of error with which an evaluation ends, if it ends with one. -/
def errorKind (stop : Option Stop) : Option Kind := stop.map fun s => s.evaluatorReport.kind

theorem perform_statement {α : Type} (v : Evaluator) (st st' : Statement) (c : Command α) :
    (v.perform st c).1 = (v.perform st' c).1 ∧
      errorKind (v.perform st c).2 = errorKind (v.perform st' c).2 := by
  unfold perform
  cases c.value.eval v.table with
  | error e => exact ⟨rfl, rfl⟩
  | ok value => cases c <;> exact ⟨rfl, rfl⟩

/-- Programs with the same commands, up to marks and signs, end alike. -/
theorem performAll_of_signed {A B : List Statement} {as bs : List (Command Token)}
    (hA : Statement.parseAll A = .ok as) (hB : Statement.parseAll B = .ok bs)
    (h : (as.map fun c => c.plain.signed) = bs.map fun c => c.plain.signed) (v : Evaluator) :
    (v.performAll A).1 = (v.performAll B).1 ∧
      errorKind (v.performAll A).2 = errorKind (v.performAll B).2 := by
  induction A generalizing as B bs v with
  | nil =>
    cases hA
    cases B with
    | nil => exact ⟨rfl, rfl⟩
    | cons st' rest' =>
      obtain ⟨c', more', -, -, rfl⟩ := Statement.parseAll_cons_eq_ok.mp hB
      cases h
  | cons st rest ih =>
    obtain ⟨c, more, hst, hrest, rfl⟩ := Statement.parseAll_cons_eq_ok.mp hA
    cases B with
    | nil =>
      cases hB
      cases h
    | cons st' rest' =>
      obtain ⟨c', more', hst', hrest', rfl⟩ := Statement.parseAll_cons_eq_ok.mp hB
      rw [List.map_cons, List.map_cons, List.cons.injEq] at h
      have hperform : v.perform st c = v.perform st c' :=
        calc v.perform st c
            = v.perform st c.plain.signed := (v.perform_plain_signed st c).symm
          _ = v.perform st c'.plain.signed := by rw [h.1]
          _ = v.perform st c' := v.perform_plain_signed st c'
      obtain ⟨hstate, hkind⟩ := v.perform_statement st st' c'
      simp only [performAll, hst, hst', hperform]
      -- both commands stop, or both go on from the same state
      cases hone : v.perform st c' with
      | mk v₁ stop =>
        cases hone' : v.perform st' c' with
        | mk v₂ stop' =>
          rw [hone, hone'] at hstate hkind
          cases stop with
          | none =>
            cases stop' with
            | none =>
              obtain rfl : v₁ = v₂ := hstate
              exact ih hrest hrest' h.2 v₁
            | some stop' => cases hkind
          | some stop =>
            cases stop' with
            | none => cases hkind
            | some stop' => exact ⟨hstate, hkind⟩

end Evaluator

/-- Two programs that parse and have equally many statements, whose trees are equal,
statement by statement, once the sign in front of every positive number has been taken into
the number, have the same infix text. Evaluating them into equal sinks leaves the same table
and the same log, and both go through or both end with an error of the same kind. If the
statements are scanned from less than 2³² bytes each, only such programs have the same infix
text, and so programs with the same infix text end alike. -/
theorem outline_identifies_program {A B : List Statement} {as bs : List (Command Token)}
    (hA : Statement.parseAll A = .ok as) (hB : Statement.parseAll B = .ok bs) :
    let sameTrees := A.length = B.length ∧
      (as.map fun c => c.plain.signed) = bs.map fun c => c.plain.signed
    let endAlike := ∀ sink,
      (evaluate sink A).1.table = (evaluate sink B).1.table ∧
      (evaluate sink A).1.printed = (evaluate sink B).1.printed ∧
      ((evaluate sink A).2.map fun stop => stop.evaluatorReport.kind) =
        (evaluate sink B).2.map fun stop => stop.evaluatorReport.kind
    ∃ s t, Statement.outlineAll A = .ok s ∧ Statement.outlineAll B = .ok t ∧
      (sameTrees → s = t ∧ endAlike) ∧
      ((∀ st ∈ A ++ B, st.IsScanned) → (s = t ↔ sameTrees) ∧ (s = t → endAlike)) := by
  intro sameTrees endAlike
  have hlengthA := Statement.length_of_parseAll hA
  have hlengthB := Statement.length_of_parseAll hB
  have hsame : sameTrees →
      shownAll (as.map Command.plain) = shownAll (bs.map Command.plain) ∧ endAlike := by
    rintro ⟨-, htrees⟩
    refine ⟨shownAll_of_signed (by rw [List.map_map, List.map_map]; exact htrees), fun sink => ?_⟩
    obtain ⟨hstate, hkind⟩ := Evaluator.performAll_of_signed hA hB htrees { sink }
    exact ⟨congrArg Evaluator.table hstate, congrArg Evaluator.printed hstate, hkind⟩
  refine ⟨_, _, Statement.outlineAll_of_parseAll hA, Statement.outlineAll_of_parseAll hB, hsame, ?_⟩
  intro hscanned
  obtain ⟨hscannedA, hscannedB⟩ := List.forall_mem_append.mp hscanned
  have htold : shownAll (as.map Command.plain) = shownAll (bs.map Command.plain) → sameTrees := by
    intro h
    have htrees := shownAll_inj (Statement.hasNames_of_parseAll hscannedA hA)
      (Statement.hasNames_of_parseAll hscannedB hB) h
    rw [List.map_map, List.map_map] at htrees
    have hlength := congrArg List.length htrees
    rw [List.length_map, List.length_map] at hlength
    exact ⟨by omega, htrees⟩
  exact ⟨⟨htold, fun h => (hsame h).1⟩, fun h => (hsame (htold h)).2⟩

/-- Two programs that differ in one sign and in the places of their words. Each
assigns a name that is spelled like the word in front of printed values, reads one
that is spelled like the root, and stops at the root of a negative number. -/
def negatingProgram : List Statement :=
  Statement.ofSource (ascii ":= sqrt 4\n:= PRINT _ 3\n@ _ _ 3\n@ - sqrt # PRINT")

def negativeProgram : List Statement :=
  Statement.ofSource (ascii ":= sqrt 4\n\n:= PRINT -3 ; minus three\n@ _ -3\n@ - sqrt # PRINT")

theorem outline_identifies_program_signs :
    (∀ st ∈ negatingProgram ++ negativeProgram, st.IsScanned) ∧
    Statement.outlineAll negatingProgram =
      .ok (ascii "sqrt := 4\nPRINT := -3\nPRINT -(-3)\nPRINT (sqrt - sqrt(PRINT))\n") ∧
    Statement.outlineAll negatingProgram = Statement.outlineAll negativeProgram ∧
    (evaluate {} negatingProgram).1.table = (evaluate {} negativeProgram).1.table ∧
    (evaluate {} negatingProgram).1.printed = (evaluate {} negativeProgram).1.printed ∧
    ((evaluate {} negatingProgram).2.map fun stop => stop.evaluatorReport.kind) =
      (evaluate {} negativeProgram).2.map fun stop => stop.evaluatorReport.kind := by
  have htextA : (Statement.outlineAll negatingProgram).toOption =
    some (ascii "sqrt := 4\nPRINT := -3\nPRINT -(-3)\nPRINT (sqrt - sqrt(PRINT))\n") := by
    decide +kernel
  have htextB : (Statement.outlineAll negativeProgram).toOption =
    (Statement.outlineAll negatingProgram).toOption := by decide +kernel
  have hscanned : ∀ st ∈ negatingProgram ++ negativeProgram, st.IsScanned := by
    rw [List.forall_mem_append]
    exact ⟨fun st hst => .ofSource (by decide) hst, fun st hst => .ofSource (by decide) hst⟩
  cases hA : Statement.parseAll negatingProgram with
  | error d => rw [Statement.outlineAll, hA] at htextA; cases htextA
  | ok as =>
    cases hB : Statement.parseAll negativeProgram with
    | error d =>
      rw [htextA, Statement.outlineAll, hB] at htextB
      cases htextB
    | ok bs =>
      obtain ⟨s, t, hs, ht, -, htold⟩ := outline_identifies_program hA hB
      rw [hs] at htextA htextB ⊢
      rw [ht] at htextB ⊢
      cases htextA
      cases htextB
      exact ⟨hscanned, rfl, rfl, (htold hscanned).2 rfl {}⟩

/-- A long comment with a sum in brackets, and behind the first 2³² bytes a print of a name
of seven letters, whose place is that of the sum. -/
def farSum : Runs :=
  Runs.ofText (ascii ";;(a + b)") ++ { byte := 59, count := 4294967286 } ::
    Runs.ofText (ascii "\n@ abcdefg")

/-- The name has the infix text of the sum of two others, which is another tree. -/
theorem outline_farSum :
    Statement.outlineAll (Statement.ofSource farSum.text) = .ok (ascii "PRINT (a + b)\n") ∧
    Statement.outlineAll (Statement.ofSource (ascii "@ + a b")) = .ok (ascii "PRINT (a + b)\n") ∧
    (Statement.parseAll (Statement.ofSource farSum.text)).map
      (List.map fun c => c.plain.signed) = .ok [.print () (.name () (ascii "(a + b)"))] ∧
    (Statement.parseAll (Statement.ofSource (ascii "@ + a b"))).map
      (List.map fun c => c.plain.signed) =
        .ok [.print () (.binary () .add (.name () (ascii "a")) (.name () (ascii "b")))] := by
  rw [Runs.ofSource_text]
  refine ⟨by decide +kernel, by decide +kernel, by decide +kernel, by decide +kernel⟩

end Polish
