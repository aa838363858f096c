import Polish.Compiler
import Polish.Proofs.Token

/-
  Relocation — what is read depends on words, not on places

  Tokens can be moved: they keep their kinds and texts, but stand somewhere else.
  Parsing and compiling moved tokens gives what parsing and compiling the tokens gives,
  with the tokens in it moved. So statements with the same words have the same tree up
  to places, the same code, or the same diagnostic but for its line.

  What is proved:
    1. `parseExpr_map`, `parseCommand_map` — parsing moved tokens.
    2. `compileExpr_map`, `compileCommand_map` — compiling moved tokens.
    3. `parse_of_readings`, `extend_of_readings` — statements with the same words.
-/

namespace Polish

/-- The function moves tokens: it keeps their kinds and their texts. -/
structure KeepsReading (f : Token → Token) : Prop where
  kind : ∀ t, (f t).kind = t.kind
  text : ∀ t, (f t).text = t.text

def GrammarError.map (f : Token → Token) : GrammarError → GrammarError
  | .emptyStatement => .emptyStatement
  | .missingTarget => .missingTarget
  | .targetNotName t => .targetNotName (f t)
  | .unknownKeyword t => .unknownKeyword (f t)
  | .unexpectedToken t => .unexpectedToken (f t)
  | .missingOperand => .missingOperand
  | .outOfRange t => .outOfRange (f t)
  | .malformedNumber t => .malformedNumber (f t)
  | .notOperand t => .notOperand (f t)

def CompileError.map (f : Token → Token) : CompileError → CompileError
  | .grammar reason => .grammar (reason.map f)
  | .badNumber t reason => .badNumber (f t) reason
  | .unassigned t => .unassigned (f t)

def Shorter.map (f : Token → Token) {tokens : List Token} (rest : Shorter tokens) :
    Shorter (tokens.map f) :=
  ⟨rest.val.map f, by simpa using rest.property⟩

section

variable {f : Token → Token} (hf : KeepsReading f)
include hf

theorem GrammarError.diagnostic_map (g : GrammarError) (st : Statement) :
    (g.map f).diagnostic st = g.diagnostic st := by
  cases g <;> simp [diagnostic, Statement.diagnostic, map, kind, message, token?, hf.text]

theorem CompileError.diagnostic_map (e : CompileError) (st : Statement) :
    (e.map f).diagnostic st = e.diagnostic st := by
  cases e with
  | grammar g => exact g.diagnostic_map hf st
  | badNumber t reason =>
    simp [diagnostic, Statement.diagnostic, map, kind, message, token?, hf.text]
  | unassigned t => simp [diagnostic, Statement.diagnostic, map, kind, message, token?, hf.text]

/-! ## Parsing -/

/-- Reading an expression from moved tokens gives the expression, or the error, and the
tokens that are left, all moved. -/
theorem parseExpr_map (tokens : List Token) :
    parseExpr (tokens.map f) =
      ((parseExpr tokens).map fun (e, rest) => (e.map f, rest.map f)).mapError
        (GrammarError.map f) := by
  fun_induction parseExpr tokens with
  | case1 =>
    show parseExpr [] = _
    rw [parseExpr]
    rfl
  | case2 t rest hkind value hread =>
    show parseExpr (f t :: rest.map f) = _
    rw [parseExpr]
    simp only [hf.kind t, hkind, hf.text t, hread]
    rfl
  | case3 t rest hkind hread | case4 t rest hkind hread =>
    show parseExpr (f t :: rest.map f) = _
    rw [parseExpr]
    simp only [hf.kind t, hkind, hf.text t, hread]
    rfl
  | case5 t rest hkind =>
    show parseExpr (f t :: rest.map f) = _
    rw [parseExpr]
    simp only [hf.kind t, hkind, hf.text t]
    rfl
  | case6 t rest op hkind g hparse ih | case8 t rest op hkind g hparse ih =>
    rw [hparse] at ih
    show parseExpr (f t :: rest.map f) = _
    rw [parseExpr]
    simp only [hf.kind t, hkind, ih]
    rfl
  | case7 t rest op hkind operand rest₁ h₁ hparse ih =>
    rw [hparse] at ih
    show parseExpr (f t :: rest.map f) = _
    rw [parseExpr]
    simp only [hf.kind t, hkind, ih]
    rfl
  | case9 t rest op hkind left rest₁ h₁ hleft g hright ihleft ihright =>
    rw [hleft] at ihleft
    rw [hright] at ihright
    -- what the left operand leaves is moved as well, so the right one is read from there
    change parseExpr (rest.map f) = .ok (left.map f, ⟨rest₁.map f, by simpa using h₁⟩) at ihleft
    show parseExpr (f t :: rest.map f) = _
    rw [parseExpr]
    simp only [hf.kind t, hkind, ihleft, ihright]
    rfl
  | case10 t rest op hkind left rest₁ h₁ hleft right rest₂ h₂ hright ihleft ihright =>
    rw [hleft] at ihleft
    rw [hright] at ihright
    change parseExpr (rest.map f) = .ok (left.map f, ⟨rest₁.map f, by simpa using h₁⟩) at ihleft
    show parseExpr (f t :: rest.map f) = _
    rw [parseExpr]
    simp only [hf.kind t, hkind, ihleft, ihright]
    rfl
  | case11 t rest hkind | case12 t rest hkind | case13 t rest hkind | case14 t rest hkind =>
    show parseExpr (f t :: rest.map f) = _
    rw [parseExpr]
    simp only [hf.kind t, hkind]
    rfl

theorem parseWholeExpr_map (tokens : List Token) :
    parseWholeExpr (tokens.map f) =
      ((parseWholeExpr tokens).map (Expr.map f)).mapError (GrammarError.map f) := by
  unfold parseWholeExpr
  rw [parseExpr_map hf]
  cases parseExpr tokens with
  | error g => rfl
  | ok read =>
    obtain ⟨e, ⟨rest, h⟩⟩ := read
    cases rest with
    | nil => rfl
    | cons extra rest => rfl

theorem parseCommand_map (tokens : List Token) :
    parseCommand (tokens.map f) =
      ((parseCommand tokens).map (Command.map f)).mapError (GrammarError.map f) := by
  have hvalue : ∀ (rest : List Token) {g h : Expr Token → Command Token}
      (_ : ∀ e, h (e.map f) = (g e).map f),
      (parseWholeExpr (rest.map f)).map h =
        (((parseWholeExpr rest).map g).map (Command.map f)).mapError (GrammarError.map f) := by
    intro rest g h hcommute
    rw [parseWholeExpr_map hf]
    cases parseWholeExpr rest with
    | error e => rfl
    | ok e => exact congrArg Except.ok (hcommute e)
  cases tokens with
  | nil => rfl
  | cons keyword rest =>
    simp only [List.map_cons, parseCommand, hf.kind keyword]
    cases keyword.kind with
    | assign =>
      cases rest with
      | nil => rfl
      | cons target rest =>
        simp only [List.map_cons, hf.kind target, hf.text target]
        cases target.kind with
        | name => exact hvalue rest fun _ => rfl
        | _ => rfl
    | print => exact hvalue rest fun _ => rfl
    | _ => rfl

/-! ## Compiling -/

/-- Code holds no tokens, so moving them changes the error and the rest only. -/
theorem compileExpr_map (c : Compiler) (code : Array Instruction) (tokens : List Token) :
    c.compileExpr code (tokens.map f) =
      ((c.compileExpr code tokens).map fun (compiled, rest) => (compiled, rest.map f)).mapError
        (CompileError.map f) := by
  fun_induction c.compileExpr code tokens with
  | case1 code =>
    show c.compileExpr code [] = _
    rw [Compiler.compileExpr]
    rfl
  | case2 code t rest hkind value hread | case3 code t rest hkind reason hread =>
    show c.compileExpr code (f t :: rest.map f) = _
    rw [Compiler.compileExpr]
    simp only [hf.kind t, hkind, hf.text t, hread]
    rfl
  | case4 code t rest hkind folded hfolded =>
    show c.compileExpr code (f t :: rest.map f) = _
    rw [Compiler.compileExpr]
    simp only [hf.kind t, hkind, hf.text t, hfolded]
    rfl
  | case5 code t rest hkind hfree =>
    show c.compileExpr code (f t :: rest.map f) = _
    rw [Compiler.compileExpr]
    simp only [hf.kind t, hkind, hf.text t, hfree]
    rfl
  | case6 code t rest op hkind e hcompile ih | case8 code t rest op hkind e hcompile ih =>
    rw [hcompile] at ih
    show c.compileExpr code (f t :: rest.map f) = _
    rw [Compiler.compileExpr]
    simp only [hf.kind t, hkind, ih]
    rfl
  | case7 code t rest op hkind operand rest₁ h₁ hcompile ih =>
    rw [hcompile] at ih
    show c.compileExpr code (f t :: rest.map f) = _
    rw [Compiler.compileExpr]
    simp only [hf.kind t, hkind, ih]
    rfl
  | case9 code t rest op hkind code' left rest₁ h₁ hleft e hright ihleft ihright =>
    rw [hleft] at ihleft
    rw [hright] at ihright
    change c.compileExpr code (rest.map f) =
      .ok (⟨code', left⟩, ⟨rest₁.map f, by simpa using h₁⟩) at ihleft
    show c.compileExpr code (f t :: rest.map f) = _
    rw [Compiler.compileExpr]
    simp only [hf.kind t, hkind, ihleft, ihright]
    rfl
  | case10 code t rest op hkind code' left rest₁ h₁ hleft right rest₂ h₂ hright ihleft ihright =>
    rw [hleft] at ihleft
    rw [hright] at ihright
    change c.compileExpr code (rest.map f) =
      .ok (⟨code', left⟩, ⟨rest₁.map f, by simpa using h₁⟩) at ihleft
    show c.compileExpr code (f t :: rest.map f) = _
    rw [Compiler.compileExpr]
    simp only [hf.kind t, hkind, ihleft, ihright]
    rfl
  | case11 code t rest hkind | case12 code t rest hkind | case13 code t rest hkind
  | case14 code t rest hkind =>
    show c.compileExpr code (f t :: rest.map f) = _
    rw [Compiler.compileExpr]
    simp only [hf.kind t, hkind]
    rfl

theorem compileWholeExpr_map (c : Compiler) (tokens : List Token) :
    c.compileWholeExpr (tokens.map f) =
      (c.compileWholeExpr tokens).mapError (CompileError.map f) := by
  unfold Compiler.compileWholeExpr
  rw [compileExpr_map hf]
  cases c.compileExpr #[] tokens with
  | error e => rfl
  | ok compiled =>
    obtain ⟨e, ⟨rest, h⟩⟩ := compiled
    cases rest with
    | nil => rfl
    | cons extra rest => rfl

theorem compileCommand_map (c : Compiler) (tokens : List Token) :
    c.compileCommand (tokens.map f) =
      (c.compileCommand tokens).mapError (CompileError.map f) := by
  cases tokens with
  | nil => rfl
  | cons keyword rest =>
    simp only [List.map_cons, Compiler.compileCommand, hf.kind keyword]
    cases keyword.kind with
    | assign =>
      cases rest with
      | nil => rfl
      | cons target rest =>
        simp only [List.map_cons, hf.kind target, hf.text target, compileWholeExpr_map hf]
        cases target.kind with
        | name => cases c.compileWholeExpr rest <;> rfl
        | _ => rfl
    | print =>
      simp only [compileWholeExpr_map hf]
      cases c.compileWholeExpr rest <;> rfl
    | _ => rfl

end

/-! ## Statements with the same words -/

/-- The token at no place. -/
def Token.unplaced (t : Token) : Token := ⟨⟨t.kind, 0, 0, 0⟩, t.text⟩

theorem keepsReading_unplaced : KeepsReading Token.unplaced := ⟨fun _ => rfl, fun _ => rfl⟩

theorem map_unplaced_of_readings {tokens tokens' : List Token}
    (h : tokens'.map Token.reading = tokens.map Token.reading) :
    tokens'.map Token.unplaced = tokens.map Token.unplaced := by
  have hreadings : ∀ tokens : List Token, tokens.map Token.unplaced =
      (tokens.map Token.reading).map fun (kind, text) => ⟨⟨kind, 0, 0, 0⟩, text⟩ := by
    intro tokens
    rw [List.map_map]
    rfl
  rw [hreadings, hreadings, h]

theorem Expr.map_text_unplaced (e : Expr Token) :
    (e.map Token.unplaced).map Token.text = e.map Token.text := by
  induction e with
  | number mark value => rfl
  | name mark word => rfl
  | unary mark op operand ih => simp only [map, ih, Token.unplaced]
  | binary mark op left right ihl ihr => simp only [map, ihl, ihr, Token.unplaced]

theorem Command.map_text_unplaced (command : Command Token) :
    (command.map Token.unplaced).map Token.text = command.map Token.text := by
  cases command with
  | assign mark targetMark target e => simp only [map, e.map_text_unplaced, Token.unplaced]
  | print mark e => simp only [map, e.map_text_unplaced, Token.unplaced]

namespace Statement

theorem parse_unplaced (st : Statement) :
    st.parse.map (Command.map Token.text) =
      ((parseCommand (st.tokens.map Token.unplaced)).map (Command.map Token.text)).mapError
        (GrammarError.diagnostic st) := by
  rw [parseCommand_map keepsReading_unplaced, parse]
  cases parseCommand st.tokens with
  | ok command => exact congrArg Except.ok command.map_text_unplaced.symm
  | error g => exact congrArg Except.error (g.diagnostic_map keepsReading_unplaced st).symm

theorem extend_unplaced (st : Statement) (c : Compiler) :
    c.extend st =
      ((c.compileCommand (st.tokens.map Token.unplaced)).map fun addition =>
        (addition.code, c.commit addition)).mapError (CompileError.diagnostic st) := by
  rw [compileCommand_map keepsReading_unplaced, Compiler.extend]
  cases c.compileCommand st.tokens with
  | ok addition => rfl
  | error e => exact congrArg Except.error (e.diagnostic_map keepsReading_unplaced st).symm

variable {st st' : Statement} (h : st'.tokens.map Token.reading = st.tokens.map Token.reading)
include h

theorem text_of_readings : st'.text = st.text := by
  have htexts := congrArg (List.map Prod.snd) h
  rw [List.map_map, List.map_map] at htexts
  exact congrArg (Text.joinWith [32]) htexts

/-- Statements with the same words have the same tree up to places, or the same
diagnostic but for the line. -/
theorem parse_of_readings :
    st'.parse.map (Command.map Token.text) =
      (st.parse.map (Command.map Token.text)).mapError fun d => { d with line := st'.line } := by
  rw [parse_unplaced, parse_unplaced, map_unplaced_of_readings h]
  cases parseCommand (st.tokens.map Token.unplaced) with
  | ok command => rfl
  | error g =>
    show Except.error (g.diagnostic st') = Except.error { g.diagnostic st with line := st'.line }
    simp only [GrammarError.diagnostic, diagnostic, text_of_readings h]

/-- Statements with the same words compile to the same code and leave the same compiler,
or are refused with the same diagnostic but for the line. -/
theorem extend_of_readings (c : Compiler) :
    c.extend st' = (c.extend st).mapError fun d => { d with line := st'.line } := by
  rw [extend_unplaced, extend_unplaced, map_unplaced_of_readings h]
  cases c.compileCommand (st.tokens.map Token.unplaced) with
  | ok addition => rfl
  | error e =>
    show Except.error (e.diagnostic st') = Except.error { e.diagnostic st with line := st'.line }
    simp only [CompileError.diagnostic, diagnostic, text_of_readings h]

end Statement

end Polish
