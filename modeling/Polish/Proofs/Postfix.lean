import Polish.Compiler
import Polish.Proofs.Grammar
import Polish.Proofs.Table

/-
  Postfix code — what the compiler writes, said on trees

  The compiler reads tokens and writes code in one pass. Here the same code is
  a function of the parsed tree, and the pass is compared with it.

  What is proved:
    1. `compileExpr_of_parseExpr` and `compileExpr_of_parseExpr_error` — where
       the parser reads a tree, the compiler writes the postfix code of that
       tree and leaves the same tokens, unless the tree reads a name that has no
       value yet; where the parser fails, the compiler fails in the same way,
       unless it met such a name before.
    2. `extend_eq_ok_iff` — a statement compiles exactly if it parses and every
       name it reads has been assigned; its code is that of its command.
    3. `extendAll_append` — statements compile one part after the other.
-/

namespace Polish

namespace Expr

variable {α : Type}

/-- The code of an expression: its operands from left to right, then its operator. -/
def code : Expr α → List Instruction
  | .number _ value => [.push value]
  | .name _ word => [.load word]
  | .unary _ op operand => operand.code ++ [.plain op.opcode]
  | .binary _ op left right => left.code ++ right.code ++ [.plain op.opcode]

/-- The names an expression reads, from left to right, each with its mark. -/
def reads : Expr α → List (α × Text)
  | .number _ _ => []
  | .name mark word => [(mark, word)]
  | .unary _ _ operand => operand.reads
  | .binary _ _ left right => left.reads ++ right.reads

/-- The value of an expression as it is worked out from those of its names. -/
def folded (look : Text → Folded) : Expr α → Folded
  | .number _ value => ⟨value, true⟩
  | .name _ word => look word
  | .unary _ op operand => .unary op (operand.folded look)
  | .binary _ op left right => .binary op (left.folded look) (right.folded look)

/-- The value of an expression as far as the values of its names are known. -/
def known (values : Text → Option Int64) : Expr α → Option Int64
  | .number _ value => some value
  | .name _ word => values word
  | .unary _ op operand => (operand.known values).bind fun a => (op.apply a).toOption
  | .binary _ op left right =>
    (left.known values).bind fun a => (right.known values).bind fun b => (op.apply a b).toOption

end Expr

namespace Command

variable {α : Type}

def last : Command α → Instruction
  | .assign _ _ target _ => .store target
  | .print _ _ => .plain .print

/-- The code of a command: that of its expression, then `STORE` or `PRINT`. -/
def code (command : Command α) : List Instruction := command.value.code ++ [command.last]

/-- The name a command assigns, with its value as it is worked out. -/
def assigned (look : Text → Folded) : Command α → Option (Text × Folded)
  | .assign _ _ target e => some (target, e.folded look)
  | .print _ _ => none

end Command

/-! ## Known values -/

namespace Folded

def constant? (f : Folded) : Option Int64 := if f.known then some f.value else none

theorem eq_of_constant? {f : Folded} {value : Int64} (h : f.constant? = some value) :
    f = ⟨value, true⟩ := by
  obtain ⟨v, known⟩ := f
  cases known with
  | false => cases h
  | true =>
    cases h
    rfl

theorem constant?_ofResult (r : Except ArithmeticError Int64) :
    (ofResult r).constant? = r.toOption := by
  cases r <;> rfl

theorem constant?_unary (op : UnaryOp) (a : Folded) :
    (unary op a).constant? = a.constant?.bind fun x => (op.apply x).toOption := by
  obtain ⟨value, known⟩ := a
  cases known with
  | false => rfl
  | true => exact constant?_ofResult _

theorem constant?_binary (op : BinaryOp) (a b : Folded) :
    (binary op a b).constant? =
      a.constant?.bind fun x => b.constant?.bind fun y => (op.apply x y).toOption := by
  obtain ⟨x, xKnown⟩ := a
  obtain ⟨y, yKnown⟩ := b
  cases xKnown with
  | false => rfl
  | true =>
    cases yKnown with
    | false => rfl
    | true => exact constant?_ofResult _

theorem value_ofResult {r : Except ArithmeticError Int64} (h : (ofResult r).known = false) :
    (ofResult r).value = 0 := by
  cases r with
  | ok value => cases h
  | error cause => rfl

end Folded

namespace Expr

variable {α : Type} {look : Text → Folded}

/-- What is known of an expression comes from what is known of its names alone. -/
theorem constant?_folded (e : Expr α) :
    (e.folded look).constant? = e.known fun name => (look name).constant? := by
  induction e with
  | number mark value => rfl
  | name mark word => rfl
  | unary mark op operand ih => rw [folded, known, Folded.constant?_unary, ih]
  | binary mark op left right ihl ihr =>
    rw [folded, known, Folded.constant?_binary, ihl, ihr]

/-- A value that is not known is worked out as 0, if that is so for every name. An
operation never hands on what it was given for an unknown operand. -/
theorem value_folded_of_unknown
    (hlook : ∀ name, (look name).known = false → (look name).value = 0) {e : Expr α}
    (h : (e.folded look).known = false) : (e.folded look).value = 0 := by
  cases e with
  | number mark value => cases h
  | name mark word => exact hlook word h
  | unary mark op operand =>
    simp only [folded, Folded.unary] at h ⊢
    split at h
    · next hknown =>
      rw [if_pos hknown]
      exact Folded.value_ofResult h
    · next hunknown => rw [if_neg hunknown]
  | binary mark op left right =>
    simp only [folded, Folded.binary] at h ⊢
    split at h
    · next hknown =>
      rw [if_pos hknown]
      exact Folded.value_ofResult h
    · next hunknown => rw [if_neg hunknown]

end Expr

namespace Compiler

/-- What the compiler has for a name; nothing is known of one that was not assigned. -/
def look (c : Compiler) (name : Text) : Folded := (c.folded? name).getD ⟨0, false⟩

theorem constant?_look (c : Compiler) (name : Text) :
    (c.look name).constant? = c.constant? name := by
  unfold look folded? constant?
  cases c.symbols.get? name with
  | none => simp [Folded.constant?]
  | some value => cases hunknown : c.unknown.contains name <;> simp [Folded.constant?]

theorem constant?_folded_look {α : Type} (c : Compiler) (e : Expr α) :
    (e.folded c.look).constant? = e.known c.constant? := by
  rw [Expr.constant?_folded]
  congr 1
  funext name
  exact c.constant?_look name

theorem folded?_eq {c : Compiler} {name : Text} :
    c.folded? name = if c.symbols.contains name then some (c.look name) else none := by
  unfold look folded? Table.contains
  cases c.symbols.get? name <;> rfl

/-- The mark of the first name in an expression that has not been assigned. -/
def unassigned? {α : Type} (c : Compiler) (e : Expr α) : Option α :=
  (e.reads.find? fun read => !c.symbols.contains read.2).map Prod.fst

theorem unassigned?_name {α : Type} (c : Compiler) (mark : α) (word : Text) :
    c.unassigned? (.name mark word) = if c.symbols.contains word then none else some mark := by
  cases h : c.symbols.contains word <;> simp [unassigned?, Expr.reads, h]

theorem unassigned?_unary {α : Type} (c : Compiler) (mark : α) (op : UnaryOp) (e : Expr α) :
    c.unassigned? (.unary mark op e) = c.unassigned? e := rfl

theorem unassigned?_binary {α : Type} (c : Compiler) (mark : α) (op : BinaryOp) (l r : Expr α) :
    c.unassigned? (.binary mark op l r) = (c.unassigned? l).or (c.unassigned? r) := by
  simp only [unassigned?, Expr.reads, List.find?_append, Option.map_or]

theorem unassigned?_eq_none_iff {α : Type} {c : Compiler} {e : Expr α} :
    c.unassigned? e = none ↔ ∀ read ∈ e.reads, c.symbols.contains read.2 = true := by
  simp [unassigned?]

/-- Whether the topmost node is a name that has not been assigned. -/
def isUnassigned {α : Type} (c : Compiler) : Expr α → Bool
  | .name _ word => !c.symbols.contains word
  | _ => false

theorem unassigned?_eq_find? {α : Type} (c : Compiler) (e : Expr α) :
    c.unassigned? e = (e.nodes.find? c.isUnassigned).map Expr.mark := by
  induction e with
  | number mark value => rfl
  | name mark word =>
    rw [unassigned?_name]
    cases h : c.symbols.contains word <;> simp [Expr.nodes, isUnassigned, h, Expr.mark]
  | unary mark op operand ih =>
    rw [unassigned?_unary, ih]
    simp [Expr.nodes, isUnassigned]
  | binary mark op left right ihl ihr =>
    rw [unassigned?_binary, ihl, ihr]
    simp [Expr.nodes, isUnassigned, Option.map_or]

theorem exists_name_of_find? {α : Type} {c : Compiler} {e node : Expr α}
    (h : e.nodes.find? c.isUnassigned = some node) :
    ∃ mark word, node = .name mark word ∧ .name mark word ∈ e.nodes ∧
      c.symbols.contains word = false := by
  have hmem := List.mem_of_find?_eq_some h
  have hnode := List.find?_some h
  cases node with
  | name mark word => exact ⟨mark, word, rfl, hmem, by simpa [isUnassigned] using hnode⟩
  | _ => cases hnode

/-! ## One expression -/

theorem appendList_push (code : Array Instruction) (added : List Instruction) (i : Instruction) :
    (code ++ added).push i = code ++ (added ++ [i]) :=
  Array.ext' (by simp)

theorem appendList_assoc (code : Array Instruction) (first second : List Instruction) :
    code ++ first ++ second = code ++ (first ++ second) :=
  Array.ext' (by simp)

/-- Where the parser reads a tree, the compiler puts the postfix code of that
tree behind `code`, or names the first name in it that has no value yet. -/
theorem compileExpr_of_parseExpr {tokens : List Token} {e : Expr Token} {rest : Shorter tokens}
    (h : parseExpr tokens = .ok (e, rest)) (c : Compiler) (code : Array Instruction) :
    c.compileExpr code tokens = match c.unassigned? e with
      | none => .ok (⟨code ++ e.code, e.folded c.look⟩, rest)
      | some t => .error (.unassigned t) := by
  fun_induction parseExpr tokens generalizing e code with
  | case2 t after hkind value hread =>
    cases h
    rw [compileExpr]
    simp only [hkind, hread]
    simp [unassigned?, Expr.reads, Expr.code, Expr.folded]
  | case5 t after hkind =>
    cases h
    rw [compileExpr, unassigned?_name]
    simp only [hkind, folded?_eq]
    split <;> simp_all [Expr.code, Expr.folded]
  | case7 t after op hkind operand rest₁ h₁ hparse ih =>
    cases h
    rw [compileExpr, unassigned?_unary]
    simp only [hkind, ih hparse code]
    cases hfirst : c.unassigned? operand with
    | none => simp [Compiled.unary, Expr.code, Expr.folded, appendList_push]
    | some t' => rfl
  | case10 t after op hkind left rest₁ h₁ hleft right rest₂ h₂ hright ihleft ihright =>
    cases h
    rw [compileExpr, unassigned?_binary]
    simp only [hkind, ihleft hleft code]
    cases hl : c.unassigned? left with
    | some t' => rfl
    | none =>
      -- the right operand's code goes behind that of the left one
      simp only [Option.none_or, ihright hright]
      cases hr : c.unassigned? right with
      | some t' => rfl
      | none => simp [Compiled.binary, Expr.code, Expr.folded, appendList_push, appendList_assoc]
  | case1 | case3 | case4 | case6 | case8 | case9 | case11 | case12 | case13 | case14 => cases h

/-- How the compiler fails on tokens that the parser refuses: for the same reason
and at the same token, or at a name among them that has not been assigned. -/
inductive FailsLike (c : Compiler) (tokens : List Token) (g : GrammarError) : CompileError → Prop
  | same {e : CompileError} (kind : e.kind = g.kind) (token : e.token? = g.token?) :
      FailsLike c tokens g e
  | unassigned {t : Token} (mem : t ∈ tokens) (isName : t.kind = .name)
      (absent : c.symbols.contains t.text = false) : FailsLike c tokens g (.unassigned t)

theorem FailsLike.mono {c : Compiler} {tokens tokens' : List Token} {g : GrammarError}
    {e : CompileError} (h : c.FailsLike tokens g e) (hsub : tokens ⊆ tokens') :
    c.FailsLike tokens' g e := by
  cases h with
  | same kind token => exact .same kind token
  | unassigned mem isName absent => exact .unassigned (hsub mem) isName absent

theorem FailsLike.of_unassigned? {c : Compiler} {tokens : List Token} {e : Expr Token}
    {rest : Shorter tokens} {t : Token} (hparse : parseExpr tokens = .ok (e, rest))
    (h : c.unassigned? e = some t) (g : GrammarError) :
    c.FailsLike tokens g (.unassigned t) := by
  rw [unassigned?_eq_find?] at h
  obtain ⟨node, hfind, rfl⟩ := Option.map_eq_some_iff.mp h
  obtain ⟨mark, word, rfl, hmem, habsent⟩ := exists_name_of_find? hfind
  obtain ⟨hfaithful, hmarks⟩ := spelled_of_parseExpr hparse
  obtain ⟨hkind, rfl⟩ := hfaithful _ hmem
  have hmark : mark ∈ e.marks := List.mem_map.mpr ⟨_, hmem, rfl⟩
  exact .unassigned (hmarks ▸ List.mem_append_left _ hmark) hkind habsent

theorem compileExpr_of_parseExpr_error {tokens : List Token} {g : GrammarError}
    (h : parseExpr tokens = .error g) (c : Compiler) (code : Array Instruction) :
    ∃ e, c.compileExpr code tokens = .error e ∧ c.FailsLike tokens g e := by
  fun_induction parseExpr tokens generalizing g code with
  | case2 | case5 | case7 | case10 => cases h
  | case6 t after op hkind g' hparse ih =>
    cases h
    obtain ⟨e, he, hlike⟩ := ih hparse code
    refine ⟨e, ?_, hlike.mono (List.subset_cons_self ..)⟩
    rw [compileExpr]
    simp only [hkind, he]
  | case8 t after op hkind g' hleft ih =>
    cases h
    obtain ⟨e, he, hlike⟩ := ih hleft code
    refine ⟨e, ?_, hlike.mono (List.subset_cons_self ..)⟩
    rw [compileExpr]
    simp only [hkind, he]
  | case9 t after op hkind left rest₁ h₁ hleft g' hright ihleft ihright =>
    cases h
    -- the left operand may already have failed, at a name without a value
    have hl := compileExpr_of_parseExpr hleft c code
    cases hfirst : c.unassigned? left with
    | some t' =>
      rw [hfirst] at hl
      have hlike := FailsLike.of_unassigned? hleft hfirst g'
      refine ⟨.unassigned t', ?_, hlike.mono (List.subset_cons_self ..)⟩
      rw [compileExpr]
      simp only [hkind, hl]
    | none =>
      rw [hfirst] at hl
      obtain ⟨e, he, hlike⟩ := ihright hright (code ++ left.code)
      have hsub : rest₁ ⊆ after := by
        rw [← (spelled_of_parseExpr hleft).2]
        exact List.subset_append_right ..
      refine ⟨e, ?_, hlike.mono (List.subset_cons_of_subset t hsub)⟩
      rw [compileExpr]
      simp only [hkind, hl, he]
  | case1 =>
    cases h
    exact ⟨_, by rw [compileExpr], .same rfl rfl⟩
  | case3 t after hkind hread | case4 t after hkind hread =>
    cases h
    exact ⟨_, by rw [compileExpr]; simp only [hkind, hread]; rfl, .same rfl rfl⟩
  | case11 t after hkind | case12 t after hkind | case13 t after hkind | case14 t after hkind =>
    cases h
    exact ⟨_, by rw [compileExpr]; simp only [hkind]; rfl, .same rfl rfl⟩

/-! ## One statement -/

theorem compileWholeExpr_of_parseWholeExpr {tokens : List Token} {e : Expr Token}
    (h : parseWholeExpr tokens = .ok e) (c : Compiler) :
    c.compileWholeExpr tokens = match c.unassigned? e with
      | none => .ok ⟨e.code.toArray, e.folded c.look⟩
      | some t => .error (.unassigned t) := by
  unfold parseWholeExpr at h
  split at h
  · cases h
  · next hparse =>
    cases h
    have hcompile := compileExpr_of_parseExpr hparse c #[]
    unfold compileWholeExpr
    rw [hcompile]
    cases c.unassigned? e with
    | none => simp
    | some t => rfl
  · cases h

theorem compileWholeExpr_of_parseWholeExpr_error {tokens : List Token} {g : GrammarError}
    (h : parseWholeExpr tokens = .error g) (c : Compiler) :
    ∃ e, c.compileWholeExpr tokens = .error e ∧ c.FailsLike tokens g e := by
  unfold parseWholeExpr at h
  unfold compileWholeExpr
  split at h
  · next hparse =>
    cases h
    obtain ⟨e, he, hlike⟩ := compileExpr_of_parseExpr_error hparse c #[]
    exact ⟨e, by rw [he], hlike⟩
  · cases h
  · next e extra after _ hparse =>
    cases h
    have hcompile := compileExpr_of_parseExpr hparse c #[]
    rw [hcompile]
    cases hfirst : c.unassigned? e with
    | none => exact ⟨_, rfl, .same rfl rfl⟩
    | some t => exact ⟨_, rfl, .of_unassigned? hparse hfirst _⟩

theorem compileCommand_of_parseCommand {tokens : List Token} {command : Command Token}
    (h : parseCommand tokens = .ok command) (c : Compiler) :
    c.compileCommand tokens = match c.unassigned? command.value with
      | none => .ok ⟨command.code, command.assigned c.look⟩
      | some t => .error (.unassigned t) := by
  rcases parseCommand_cases h with
    ⟨keyword, target, rest, e, rfl, hkeyword, htarget, hparse, rfl⟩ |
    ⟨keyword, rest, e, rfl, hkeyword, hparse, rfl⟩
  · simp only [compileCommand, hkeyword, htarget, compileWholeExpr_of_parseWholeExpr hparse c,
      Command.value]
    cases c.unassigned? e with
    | none => simp [Command.code, Command.value, Command.last, Command.assigned]
    | some t => rfl
  · simp only [compileCommand, hkeyword, compileWholeExpr_of_parseWholeExpr hparse c,
      Command.value]
    cases c.unassigned? e with
    | none => simp [Command.code, Command.value, Command.last, Command.assigned]
    | some t => rfl

theorem compileCommand_of_parseCommand_error {tokens : List Token} {g : GrammarError}
    (h : parseCommand tokens = .error g) (c : Compiler) :
    ∃ e, c.compileCommand tokens = .error e ∧ c.FailsLike tokens g e := by
  -- what stands in front of the expression is read alike by both
  unfold parseCommand at h
  split at h
  · cases h
    exact ⟨_, rfl, .same rfl rfl⟩
  · next keyword rest =>
    split at h
    · next hkeyword =>
      split at h
      · cases h
        refine ⟨.grammar .missingTarget, ?_, .same rfl rfl⟩
        simp only [compileCommand, hkeyword]
      · next target rest =>
        split at h
        · next htarget =>
          cases hparse : parseWholeExpr rest with
          | ok e => rw [hparse] at h; cases h
          | error g' =>
            rw [hparse] at h
            cases h
            obtain ⟨e, he, hlike⟩ := compileWholeExpr_of_parseWholeExpr_error hparse c
            refine ⟨e, by simp only [compileCommand, hkeyword, htarget, he], hlike.mono ?_⟩
            exact List.subset_cons_of_subset _ (List.subset_cons_self ..)
        · next htarget =>
          cases h
          refine ⟨.grammar (.targetNotName target), ?_, .same rfl rfl⟩
          simp only [compileCommand, hkeyword]
    · next hkeyword =>
      cases hparse : parseWholeExpr rest with
      | ok e => rw [hparse] at h; cases h
      | error g' =>
        rw [hparse] at h
        cases h
        obtain ⟨e, he, hlike⟩ := compileWholeExpr_of_parseWholeExpr_error hparse c
        refine ⟨e, by simp only [compileCommand, hkeyword, he], hlike.mono ?_⟩
        exact List.subset_cons_self ..
    · next hassign hprint =>
      cases h
      refine ⟨.grammar (.unknownKeyword keyword), ?_, .same rfl rfl⟩
      simp only [compileCommand]

/-- A statement compiles exactly if it parses and every name that it reads has
been assigned. Its code is that of its command. -/
theorem extend_eq_ok_iff {c c' : Compiler} {st : Statement} {code : List Instruction} :
    c.extend st = .ok (code, c') ↔
      ∃ command, st.parse = .ok command ∧ c.unassigned? command.value = none ∧
        code = command.code ∧ c' = c.commit ⟨command.code, command.assigned c.look⟩ := by
  unfold extend Statement.parse
  cases hparse : parseCommand st.tokens with
  | error g =>
    obtain ⟨e, he, -⟩ := compileCommand_of_parseCommand_error hparse c
    simp [he, Except.mapError]
  | ok command =>
    rw [compileCommand_of_parseCommand hparse c]
    cases hfirst : c.unassigned? command.value with
    | none => simp [Except.mapError, hfirst, eq_comm]
    | some t => simp [Except.mapError, hfirst]

theorem commit_program (c : Compiler) (addition : Addition) :
    (c.commit addition).program = c.program ++ addition.code := by
  unfold commit
  cases addition.assigned <;> rfl

theorem contains_commit (c : Compiler) (addition : Addition) (name : Text) :
    (c.commit addition).symbols.contains name =
      (decide (addition.assigned.map Prod.fst = some name) || c.symbols.contains name) := by
  unfold commit
  cases addition.assigned with
  | none => simp
  | some assigned => simp [assign, Table.contains_insert]

theorem extend_program {c c' : Compiler} {st : Statement} {code : List Instruction}
    (h : c.extend st = .ok (code, c')) : c'.program.toList = c.program.toList ++ code := by
  obtain ⟨command, -, -, rfl, rfl⟩ := extend_eq_ok_iff.mp h
  rw [commit_program, Array.toList_appendList]

/-! ## Several statements -/

theorem extendAll_append (c : Compiler) (first second : List Statement) :
    c.extendAll (first ++ second) = match c.extendAll first with
      | (c', none) => c'.extendAll second
      | (c', some d) => (c', some d) := by
  induction first generalizing c with
  | nil => rfl
  | cons st rest ih =>
    simp only [List.cons_append, extendAll]
    cases c.extend st with
    | error d => rfl
    | ok r => exact ih r.2

theorem extendAll_cons_eq_ok {c c' : Compiler} {st : Statement} {rest : List Statement}
    (h : c.extendAll (st :: rest) = (c', none)) :
    ∃ code c₁, c.extend st = .ok (code, c₁) ∧ c₁.extendAll rest = (c', none) := by
  rw [extendAll] at h
  cases hst : c.extend st with
  | error d => rw [hst] at h; cases h
  | ok r =>
    rw [hst] at h
    exact ⟨r.1, r.2, rfl, h⟩

theorem extendAll_split {c c' : Compiler} {before after : List Statement} {st : Statement}
    (h : c.extendAll (before ++ st :: after) = (c', none)) :
    ∃ c₁ code c₂, c.extendAll before = (c₁, none) ∧ c₁.extend st = .ok (code, c₂) ∧
      c₂.extendAll after = (c', none) := by
  rw [extendAll_append] at h
  cases hbefore : c.extendAll before with
  | mk c₁ failure =>
    cases failure with
    | some d => rw [hbefore] at h; cases h
    | none =>
      rw [hbefore] at h
      obtain ⟨code, c₂, hst, hafter⟩ := extendAll_cons_eq_ok h
      exact ⟨c₁, code, c₂, rfl, hst, hafter⟩

theorem extendAll_program {c c' : Compiler} {program : List Statement}
    (h : c.extendAll program = (c', none)) : c.program.toList <+: c'.program.toList := by
  induction program generalizing c with
  | nil =>
    cases h
    exact List.prefix_rfl
  | cons st rest ih =>
    obtain ⟨code, c₁, hst, hrest⟩ := extendAll_cons_eq_ok h
    refine List.IsPrefix.trans ?_ (ih hrest)
    rw [extend_program hst]
    exact List.prefix_append ..

end Compiler

theorem compile_eq_ok_iff {program : List Statement} {code : List Instruction} :
    compile program = .ok code ↔
      ∃ c, Compiler.extendAll {} program = (c, none) ∧ c.program.toList = code := by
  unfold compile
  cases Compiler.extendAll {} program with
  | mk c failure => cases failure <;> simp

theorem compile_eq_error_iff {program : List Statement} {d : Diagnostic} :
    compile program = .error d ↔ ∃ c, Compiler.extendAll {} program = (c, some d) := by
  unfold compile
  cases Compiler.extendAll {} program with
  | mk c failure => cases failure <;> simp

end Polish
