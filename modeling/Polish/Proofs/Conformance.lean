import Polish.Proofs.Postfix

/-
  Conformance — the compiler and the parser apply one grammar

  The grammar is written down twice, in the parser and in the compiler, which
  also asks whether names have been assigned. It asks while it reads, so on a
  statement with two faults it may meet the unassigned name first. That is the
  only way in which the two can differ.

  What is proved:
    1. `extend_of_parse` — a statement that parses compiles to the postfix code of
       its tree, or is refused at the first name in it that is not assigned.
    2. `extend_of_parse_error` — a statement that does not parse is refused, with
       the same complaint or at a name that is not assigned.
    3. `extend_conforms_to_parse` — both, for every compiler and every statement.
-/

namespace Polish

/-- Two diagnostics blame the same token of the same statement for the same kind
of failure. -/
structure SameComplaint (d d' : Diagnostic) : Prop where
  kind : d'.kind = d.kind
  token : d'.token = d.token
  line : d'.line = d.line
  statement : d'.statement = d.statement

/-- The diagnostic blames a name in the statement that has not been assigned. -/
structure BlamesUnassigned (c : Compiler) (st : Statement) (d : Diagnostic) : Prop where
  kind : d.kind = .uninitialized
  named : ∃ t ∈ st.tokens, t.kind = .name ∧ c.symbols.contains t.text = false ∧ d.token = t.text

namespace Compiler

theorem find?_isUnassigned_eq_none_iff {α : Type} {c : Compiler} {e : Expr α} :
    e.nodes.find? c.isUnassigned = none ↔
      ∀ mark word, .name mark word ∈ e.nodes → c.symbols.contains word = true := by
  rw [List.find?_eq_none]
  constructor
  · intro h mark word hmem
    simpa [isUnassigned] using h _ hmem
  · intro h node hmem
    cases node with
    | name mark word => simp [isUnassigned, h mark word hmem]
    | _ => simp [isUnassigned]

/-- A statement that parses compiles to the postfix code of its tree, or is refused
at the first name in prefix order that has not been assigned. -/
theorem extend_of_parse {st : Statement} {command : Command Token} (h : st.parse = .ok command)
    (c : Compiler) :
    c.extend st = match command.value.nodes.find? c.isUnassigned with
      | none => .ok (command.code, c.commit ⟨command.code, command.assigned c.look⟩)
      | some node => .error ((CompileError.unassigned node.mark).diagnostic st) := by
  have hcompile := compileCommand_of_parseCommand (Statement.parse_eq_ok_iff.mp h) c
  rw [unassigned?_eq_find?] at hcompile
  rw [extend, hcompile]
  cases command.value.nodes.find? c.isUnassigned with
  | none => rfl
  | some node => rfl

theorem text_of_mem_nodes {st : Statement} {command : Command Token} {t : Token} {word : Text}
    (h : st.parse = .ok command) (hmem : .name t word ∈ command.value.nodes) : word = t.text := by
  have hspelled := parseCommand_eq_ok_iff.mp (Statement.parse_eq_ok_iff.mp h)
  exact (hspelled.faithful_value _ hmem).2

theorem extend_of_parse_error {st : Statement} {d : Diagnostic} (h : st.parse = .error d)
    (c : Compiler) :
    ∃ d', c.extend st = .error d' ∧ (SameComplaint d d' ∨ BlamesUnassigned c st d') := by
  unfold Statement.parse at h
  cases hparse : parseCommand st.tokens with
  | ok command => rw [hparse] at h; cases h
  | error g =>
    rw [hparse] at h
    cases h
    obtain ⟨e, hcompile, hlike⟩ := compileCommand_of_parseCommand_error hparse c
    refine ⟨e.diagnostic st, by rw [extend, hcompile], ?_⟩
    cases hlike with
    | same kind token =>
      -- the wording may differ, and nothing else
      refine .inl ⟨kind, ?_, rfl, rfl⟩
      simp only [CompileError.diagnostic, GrammarError.diagnostic, Statement.diagnostic, token]
    | unassigned mem isName absent => exact .inr ⟨rfl, _, mem, isName, absent, rfl⟩

end Compiler

/-- For every compiler and every statement. If the statement parses, it compiles
exactly if every name visited in its value has been assigned, to the postfix code
of the value and `STORE` or `PRINT`; otherwise the first name in the order of the
visit that has not been assigned is blamed. If it does not parse, it does not
compile, for the same kind of failure at the same token, or because of a name that
has not been assigned; the latter only if the statement has such a name. -/
theorem extend_conforms_to_parse (c : Compiler) (st : Statement) :
    (∀ command, st.parse = .ok command →
      ((∃ code c', c.extend st = .ok (code, c')) ↔
        ∀ t word, .name t word ∈ command.value.nodes → c.symbols.contains word = true) ∧
      (∀ code c', c.extend st = .ok (code, c') →
        code = command.value.code ++ [command.last]) ∧
      ((∃ t word, .name t word ∈ command.value.nodes ∧ c.symbols.contains word = false) →
        ∃ t word d, command.value.nodes.find? c.isUnassigned = some (.name t word) ∧
          c.extend st = .error d ∧ d.kind = .uninitialized ∧ d.token = word)) ∧
    ∀ d, st.parse = .error d →
      ∃ d', c.extend st = .error d' ∧
        (SameComplaint d d' ∨ BlamesUnassigned c st d') ∧
        ((∀ t ∈ st.tokens, t.kind = .name → c.symbols.contains t.text = true) →
          SameComplaint d d') := by
  constructor
  · intro command hparse
    have hextend := Compiler.extend_of_parse hparse c
    rw [← Compiler.find?_isUnassigned_eq_none_iff]
    cases hfirst : command.value.nodes.find? c.isUnassigned with
    | none =>
      rw [hfirst] at hextend
      refine ⟨⟨fun _ => rfl, fun _ => ⟨_, _, hextend⟩⟩, ?_, ?_⟩
      · intro code c' hcode
        rw [hextend] at hcode
        cases hcode
        rfl
      · rintro ⟨t, word, hmem, habsent⟩
        rw [Compiler.find?_isUnassigned_eq_none_iff.mp hfirst t word hmem] at habsent
        cases habsent
    | some node =>
      rw [hfirst] at hextend
      obtain ⟨t, word, rfl, hmem, -⟩ := Compiler.exists_name_of_find? hfirst
      refine ⟨⟨?_, fun hnone => by cases hnone⟩, ?_, ?_⟩
      · rintro ⟨code, c', hcode⟩
        rw [hextend] at hcode
        cases hcode
      · intro code c' hcode
        rw [hextend] at hcode
        cases hcode
      · intro _
        exact ⟨t, word, _, rfl, hextend, rfl, (Compiler.text_of_mem_nodes hparse hmem).symm⟩
  · intro d hparse
    obtain ⟨d', hextend, hlike⟩ := Compiler.extend_of_parse_error hparse c
    refine ⟨d', hextend, hlike, ?_⟩
    intro hassigned
    rcases hlike with hsame | hblames
    · exact hsame
    · obtain ⟨t, hmem, hname, habsent, -⟩ := hblames.named
      rw [hassigned t hmem hname] at habsent
      cases habsent

/-- A compiler that knows `x` and no other name. -/
def knowsX : Compiler := { symbols := Table.empty.insert (ascii "x") 1 }

def twoUnassigned : Statement := Statement.ofText (ascii "@ + x * y z")

def twoUnassignedCommand : Command Token :=
  .print (Word.token ⟨ascii "@", 0, 1⟩)
    (.binary (Word.token ⟨ascii "+", 2, 1⟩) .add
      (.name (Word.token ⟨ascii "x", 4, 1⟩) (ascii "x"))
      (.binary (Word.token ⟨ascii "*", 6, 1⟩) .multiply
        (.name (Word.token ⟨ascii "y", 8, 1⟩) (ascii "y"))
        (.name (Word.token ⟨ascii "z", 10, 1⟩) (ascii "z"))))

/-- The first number out of range stands behind a name. -/
def outOfRangeAfter (name : String) : Statement :=
  Statement.ofText (ascii "@ - " ++ ascii name ++ ascii " 9223372036854775808")

/-- Of two unassigned names, the first in prefix order is blamed. A number out of
range is blamed by parser and compiler alike if the name before it is assigned. -/
theorem extend_conforms_to_parse_knowsX :
    (twoUnassigned.parse = .ok twoUnassignedCommand ∧
      ∃ t word d, twoUnassignedCommand.value.nodes.find? knowsX.isUnassigned = some (.name t word) ∧
        knowsX.extend twoUnassigned = .error d ∧ d.kind = .uninitialized ∧ d.token = word) ∧
    (∃ d d', (outOfRangeAfter "y").parse = .error d ∧
      knowsX.extend (outOfRangeAfter "y") = .error d' ∧
      (SameComplaint d d' ∨ BlamesUnassigned knowsX (outOfRangeAfter "y") d')) ∧
    ∃ d d', (outOfRangeAfter "x").parse = .error d ∧
      knowsX.extend (outOfRangeAfter "x") = .error d' ∧ SameComplaint d d' := by
  have hparse : twoUnassigned.parse = .ok twoUnassignedCommand := by decide +kernel
  have hy : (outOfRangeAfter "y").parse.toOption = none := by decide +kernel
  have hx : (outOfRangeAfter "x").parse.toOption = none := by decide +kernel
  have hassigned : ∀ t ∈ (outOfRangeAfter "x").tokens, t.kind = .name →
      knowsX.symbols.contains t.text = true := by decide +kernel
  refine ⟨⟨hparse, ?_⟩, ?_, ?_⟩
  · obtain ⟨-, -, hfirst⟩ := (extend_conforms_to_parse knowsX twoUnassigned).1 _ hparse
    apply hfirst
    exact ⟨Word.token ⟨ascii "y", 8, 1⟩, ascii "y", by decide, by decide⟩
  · cases hd : (outOfRangeAfter "y").parse with
    | ok command => rw [hd] at hy; cases hy
    | error d =>
      obtain ⟨d', hd', hlike, -⟩ := (extend_conforms_to_parse knowsX (outOfRangeAfter "y")).2 d hd
      exact ⟨d, d', rfl, hd', hlike⟩
  · cases hd : (outOfRangeAfter "x").parse with
    | ok command => rw [hd] at hx; cases hx
    | error d =>
      obtain ⟨d', hd', -, hsame⟩ := (extend_conforms_to_parse knowsX (outOfRangeAfter "x")).2 d hd
      exact ⟨d, d', rfl, hd', hsame hassigned⟩

end Polish
