import Polish.Proofs.Listing
import Polish.Proofs.Outline
import Polish.Proofs.Replay

/-
  Recompiling — a session's compiler against the lines it has recorded

  A session keeps the lines that compiled and forgets the others. Its compiler has
  taken them in one at a time, some of them before and some after lines that failed.
  Compiling the recorded lines once more, from the start, gives that compiler again:
  no recorded line is without tokens, so each is a statement with the number under
  which it was taken in. So the listing and the infix form that a session shows are
  those of one program.

  What is proved:
    1. `parseAll_of_extendAll` — statements that compile parse, and their code is that
       of their commands.
    2. `lines_outlines` — the infix form has one line for each command.
    3. `isRequest_of_ofLine?` — a line that spells a request is taken for one.
    4. `Recompiled.step`, `recompiled_follow` — the invariant, and
       `session_recompiles_recorded` what it says of any session.
-/

namespace Polish

/-! ## Programs that compile -/

theorem Compiler.parseAll_of_extendAll {c c' : Compiler} {program : List Statement}
    (h : c.extendAll program = (c', none)) :
    ∃ commands, Statement.parseAll program = .ok commands ∧
      c'.program.toList = c.program.toList ++ commands.flatMap Command.code := by
  induction program generalizing c with
  | nil =>
    cases h
    exact ⟨[], rfl, by simp⟩
  | cons st rest ih =>
    obtain ⟨code, c₁, hst, hrest⟩ := extendAll_cons_eq_ok h
    have hprogram := extend_program hst
    obtain ⟨command, hparse, -, rfl, -⟩ := extend_eq_ok_iff.mp hst
    obtain ⟨more, hmore, hcode⟩ := ih hrest
    refine ⟨command :: more, Statement.parseAll_cons_eq_ok.mpr ⟨_, _, hparse, hmore, rfl⟩, ?_⟩
    rw [hcode, hprogram, List.flatMap_cons, List.append_assoc]

/-! ## The lines of an outline -/

theorem Text.newline_of_mem_cons {b : UInt8} {t : Text} (hb : b ≠ newline)
    (h : newline ∈ b :: t) : newline ∈ t :=
  (List.mem_cons.mp h).resolve_left hb.symm

theorem Text.newline_of_mem_append {word t : Text} (hword : newline ∉ word)
    (h : newline ∈ word ++ t) : newline ∈ t :=
  (List.mem_append.mp h).resolve_left hword

/-- If there is no newline in the names that the code of an expression holds, then there is
none in its text, only in what follows it. -/
theorem Expr.newline_of_mem_shown {α : Type} {e : Expr α} {rest : Text}
    (hflat : ∀ i ∈ e.code, Text.newline ∉ i.name) (h : Text.newline ∈ e.shown rest) :
    Text.newline ∈ rest := by
  induction e generalizing rest with
  | number mark value =>
    rw [shown_number] at h
    refine Text.newline_of_mem_append (fun hmem => ?_) h
    exact absurd ((Literal.isWord_write value).visible _ hmem).1 (by decide)
  | name mark word =>
    exact Text.newline_of_mem_append (hflat (.load word) (List.mem_singleton.mpr rfl)) h
  | unary mark op operand ih =>
    obtain ⟨hoperand, -⟩ := List.forall_mem_append.mp hflat
    -- parentheses around the operand, or none
    have hclosed : Text.newline ∈ operand.shown (41 :: rest) → Text.newline ∈ rest :=
      fun hmem => Text.newline_of_mem_cons (by decide) (ih hoperand hmem)
    cases op with
    | sqrt =>
      rw [shown_sqrt] at h
      have hbehind := Text.newline_of_mem_append (by decide) h
      exact hclosed (Text.newline_of_mem_cons (by decide) hbehind)
    | negate =>
      rw [shown_negate, shownNegated] at h
      have hbehind := Text.newline_of_mem_cons (by decide) h
      split at hbehind
      · exact ih hoperand hbehind
      · exact hclosed (Text.newline_of_mem_cons (by decide) hbehind)
  | binary mark op left right ihl ihr =>
    obtain ⟨hoperands, -⟩ := List.forall_mem_append.mp hflat
    obtain ⟨hleft, hright⟩ := List.forall_mem_append.mp hoperands
    rw [shown_binary] at h
    have hbehind := ihl hleft (Text.newline_of_mem_cons (by decide) h)
    have hlabel : Text.newline ∉ (TokenKind.binary op).label := by cases op <;> decide
    have hoperand := Text.newline_of_mem_append hlabel
      (Text.newline_of_mem_cons (by decide) hbehind)
    exact Text.newline_of_mem_cons (by decide)
      (ihr hright (Text.newline_of_mem_cons (by decide) hoperand))

theorem Command.newline_not_mem_outline {α : Type} {c : Command α}
    (hflat : ∀ i ∈ c.code, Text.newline ∉ i.name) : Text.newline ∉ c.outline.text := by
  intro h
  obtain ⟨hvalue, hlast⟩ := List.forall_mem_append.mp hflat
  have hshown : Text.newline ∈ c.shown [] := by rwa [shown, List.append_nil]
  cases c with
  | assign mark targetMark target value =>
    rw [shown_assign] at hshown
    have hbehind : Text.newline ∈ ascii " := " ++ value.shown [] :=
      Text.newline_of_mem_append (hlast (.store target) (List.mem_singleton.mpr rfl)) hshown
    have hshown := Text.newline_of_mem_append (by decide) hbehind
    exact absurd (value.newline_of_mem_shown hvalue hshown) List.not_mem_nil
  | print mark value =>
    rw [shown_print] at hshown
    have hshown := Text.newline_of_mem_cons (by decide)
      (Text.newline_of_mem_append (by decide) hshown)
    exact absurd (value.newline_of_mem_shown hvalue hshown) List.not_mem_nil

theorem lines_outlines {α : Type} {commands : List (Command α)}
    (hflat : ∀ i ∈ commands.flatMap Command.code, Text.newline ∉ i.name) :
    Text.lines (Text.unlines (commands.map fun c => c.outline.text)) =
      commands.map fun c => c.outline.text := by
  refine Text.lines_unlines (List.forall_mem_map.mpr fun c hc => ?_)
  exact Command.newline_not_mem_outline fun i hi => hflat i (List.mem_flatMap_of_mem hc hi)

/-! ## Requests -/

namespace Text

/-- Folding gives a letter for a character, or leaves its bytes alone. -/
theorem Rune.folded_cases (r : Rune) :
    r.folded = r.bytes ∨ ∃ c, r.folded = [c] ∧ isLetter c = true := by
  unfold folded
  split
  · next code hcode =>
    split
    · next hcapital =>
      refine .inr ⟨_, rfl, ?_⟩
      simp only [Bool.and_eq_true, decide_eq_true_eq] at hcapital
      have hlow : (code + 32).toUInt8.toNat = code + 32 := by
        rw [Nat.toUInt8, UInt8.toNat_ofNat']
        exact Nat.mod_eq_of_lt (by omega)
      simp only [isLetter, Bool.or_eq_true, Bool.and_eq_true, decide_eq_true_eq,
        UInt8.le_iff_toNat_le, hlow]
      left
      exact ⟨Nat.add_le_add_right hcapital.1 32, Nat.add_le_add_right hcapital.2 32⟩
    · split
      · exact .inr ⟨_, rfl, by decide⟩
      · split
        · exact .inr ⟨_, rfl, by decide⟩
        · exact .inl rfl
  · exact .inl rfl

/-- A folded text starts with a byte that is no letter only if the text does. -/
theorem head_of_folded {b c : UInt8} {rest after : Text} (hc : isLetter c = false)
    (h : folded (b :: rest) = c :: after) : b = c := by
  rw [folded, runes_cons, List.flatMap_cons] at h
  obtain ⟨tail, -, -, hbytes⟩ := frontRune_bytes b rest
  rcases (frontRune b rest).folded_cases with hsame | ⟨letter, hfolded, hletter⟩
  · rw [hsame, hbytes] at h
    exact (List.cons.inj h).1
  · rw [hfolded] at h
    rw [(List.cons.inj h).1, hc] at hletter
    cases hletter

theorem folded_cons_of_ascii {b : UInt8} (h : b.toNat < 128) (rest : Text) :
    folded (b :: rest) = (Rune.ofByte b).folded ++ folded rest := by
  rw [folded, runes_cons, frontRune_of_ascii h, List.flatMap_cons]
  rfl

end Text

namespace Session

theorem folded_of_ofLine? {line : Text} {request : Request}
    (h : Request.ofLine? line = some request) :
    ∃ c rest, Text.folded line = 58 :: c :: rest ∧ Text.isLetter c = true := by
  unfold Request.ofLine? at h
  dsimp only at h
  split at h
  · next hword =>
    rcases hword with hword | hword | hword <;> exact ⟨_, _, hword, by decide⟩
  · split at h
    · next hword => exact ⟨_, _, hword, by decide⟩
    · split at h
      · next hword => exact ⟨_, _, hword, by decide⟩
      · split at h
        · next hword => exact ⟨_, _, hword, by decide⟩
        · split at h
          · next hword => exact ⟨_, _, hword, by decide⟩
          · split at h
            · next hword => exact ⟨_, _, hword, by decide⟩
            · cases h

/-- A line that spells a request, in any case, is neither idle nor a statement. -/
theorem isRequest_of_ofLine? {line : Text} {request : Request}
    (h : Request.ofLine? line = some request) : isIdle line = false ∧ isRequest line = true := by
  obtain ⟨c, after, hfolded, hletter⟩ := folded_of_ofLine? h
  cases line with
  | nil => simp [Text.folded, Text.runes, Text.runesOnto] at hfolded
  | cons b rest =>
    obtain rfl : b = 58 := Text.head_of_folded (by decide) hfolded
    refine ⟨rfl, ?_⟩
    cases rest with
    | nil => rfl
    | cons b rest =>
      -- an assignment sign would still be there in the folded line
      have hb : b ≠ 61 := by
        rintro rfl
        rw [Text.folded_cons_of_ascii (by decide), Text.folded_cons_of_ascii (by decide)] at hfolded
        obtain rfl : 61 = c := (List.cons.inj (List.cons.inj hfolded).2).1
        exact absurd hletter (by decide)
      have hassign : (ascii ":=").isPrefixOf (58 :: b :: rest) = false := by
        show List.isPrefixOf [58, 61] (58 :: b :: rest) = false
        simp [List.isPrefixOf, hb.symm]
      rw [isRequest, hassign]
      rfl

theorem respond_of_ofLine? (s : Session) {input : Text} {request : Request}
    (h : Request.ofLine? (Text.trim input) = some request) :
    s.respond input = s.serve (Text.trim input) := by
  obtain ⟨hidle, hrequest⟩ := isRequest_of_ofLine? h
  simp only [respond, hidle, hrequest, if_true, Bool.false_eq_true, if_false]

end Session

/-! ## The recorded lines -/

/-- Compiling the recorded lines gives the session's compiler, and each of them is
the statement with its number. Nothing is left of what was written before. -/
structure Recompiled (s : Session) : Prop where
  compiled : Compiler.extendAll {} (Statement.ofLines s.lines.toList) = (s.compiler, none)
  numbered : (Statement.ofLines s.lines.toList).map Statement.line =
    (List.range' 1 s.lines.size).map fun n : Nat => (n : Int)
  emptied : s.machine.sink.taken = #[]

namespace Recompiled

variable {s s' : Session}

theorem start {machine : Machine} (h : machine.sink.taken = #[]) : Recompiled { machine } :=
  ⟨rfl, rfl, h⟩

theorem record (h : Recompiled s) {line : Text} {code : List Instruction} {compiler : Compiler}
    (hc : s.compiler.extend (s.statement line) = .ok (code, compiler)) {machine : Machine}
    (hemptied : machine.sink.taken = #[]) :
    Recompiled { compiler, machine, lines := s.lines.push line } := by
  obtain ⟨command, hparse, -⟩ := Compiler.extend_eq_ok_iff.mp hc
  have htokens : tokenize line ≠ [] := Statement.tokens_ne_nil_of_parse hparse
  have hlines : Statement.ofLines (s.lines.push line).toList =
      Statement.ofLines s.lines.toList ++ [s.statement line] := by
    rw [Array.toList_push, Statement.ofLines_concat _ htokens, Array.length_toList]
    rfl
  refine ⟨?_, ?_, hemptied⟩
  · rw [hlines, Compiler.extendAll_append, h.compiled]
    simp only [Compiler.extendAll, hc]
  · rw [hlines, List.map_append, h.numbered, Array.size_push, List.range'_1_concat,
      List.map_append, Nat.add_comm 1]
    rfl

theorem step (h : Recompiled s) {line : Text} {outcome : Session.Outcome}
    (heffect : Session.Effect s line outcome s') : Recompiled s' := by
  cases heffect with
  | idle => exact h
  | told texts => exact ⟨h.compiled, h.numbered, rfl⟩
  | restarted => exact .start h.emptied
  | rejected compiled => exact h
  | stopped compiled ran => exact h.record compiled rfl
  | carriedOut compiled ran => exact h.record compiled rfl

end Recompiled

theorem recompiled_follow {s : Session} (h : Recompiled s) (inputs : List Text) :
    Recompiled (s.follow inputs) := by
  induction inputs generalizing s with
  | nil => exact h
  | cons input rest ih => exact ih (h.step (s.effect_respond input))

namespace Session

theorem Effect.mem_lines {s s' : Session} {input line : Text} {outcome : Outcome}
    (heffect : Effect s input outcome s') (h : line ∈ s'.lines) :
    line ∈ s.lines ∨ line = input := by
  cases heffect with
  | idle | told | rejected => exact .inl h
  | restarted => exact absurd h (Array.not_mem_empty line)
  | stopped | carriedOut => exact Array.mem_push.mp h

theorem mem_lines_follow {s : Session} {inputs : List Text} {line : Text}
    (h : line ∈ (s.follow inputs).lines) :
    line ∈ s.lines ∨ ∃ input ∈ inputs, line = Text.trim input := by
  induction inputs generalizing s with
  | nil => exact .inl h
  | cons input rest ih =>
    rcases ih h with hmem | ⟨later, hlater, rfl⟩
    · rcases (s.effect_respond input).mem_lines hmem with hold | rfl
      · exact .inl hold
      · exact .inr ⟨input, List.mem_cons_self, rfl⟩
    · exact .inr ⟨later, List.mem_cons_of_mem _ hlater, rfl⟩

end Session

theorem hasFlatNames_of_follow {writer : Writer} {inputs : List Text}
    (h : ∀ input ∈ inputs, Text.newline ∉ input ∨ input.length < UInt32.size) :
    let s := Session.follow { machine := { sink := ⟨writer, #[]⟩ } } inputs
    ∀ st ∈ Statement.ofLines s.lines.toList, st.HasFlatNames := by
  intro s st hst
  obtain ⟨line, hline, htokens⟩ := Statement.exists_of_mem_ofLines hst
  rcases Session.mem_lines_follow (Array.mem_toList_iff.mp hline) with hold | ⟨input, hinput, rfl⟩
  · exact absurd hold (Array.not_mem_empty line)
  · rcases h input hinput with hone | hshort
    · exact Statement.hasFlatNames_of_line htokens (mt ((Text.trim_sublist input).subset ·) hone)
    · have hscanned : st.IsScanned :=
        .ofText (Nat.lt_of_le_of_lt ((Text.trim_sublist input).length_le) hshort) htokens
      exact hscanned.hasFlatNames

/-- A text told to a session that has written nothing else is answered with what the
writer keeps of it. -/
theorem Recompiled.tell (h : Recompiled s) (t : Text) :
    (s.tell [t]).1 = { out := s.machine.sink.writer.answer.kept t } := by
  simp [Session.tell, Sink.offerAll, Sink.offer, Sink.text, h.emptied]

/-- After any inputs to a new session, whatever its writer does: compiling the
recorded lines from the start succeeds and gives the session's code, and the compiler
after it is the session's, with its names and constants. Each recorded line is one
statement, numbered by its place. The infix form of these statements has one line for
each, and the listing one line for each instruction of the same commands. So a request
for either, in any spelling, is answered with it and never with an error. The lines of
both can be told apart if every input is one line, however long, or has less than 2³²
bytes: no name has a newline in it then. -/
theorem session_recompiles_recorded (writer : Writer) (inputs : List Text) :
    let s := Session.follow { machine := { sink := ⟨writer, #[]⟩ } } inputs
    let program := Statement.ofLines s.lines.toList
    compile program = .ok s.compiler.program.toList ∧
    Compiler.extendAll {} program = (s.compiler, none) ∧
    program.length = s.lines.size ∧
    program.map Statement.line = (List.range' 1 s.lines.size).map (fun n : Nat => (n : Int)) ∧
    ∃ commands outline code, Statement.parseAll program = .ok commands ∧
      s.compiler.program.toList = commands.flatMap Command.code ∧
      Statement.outlineAll program = .ok outline ∧
      commands.length = s.lines.size ∧
      outline = Text.unlines (commands.map fun c => c.outline.text) ∧
      code = Text.unlines ((commands.flatMap Command.code).map Instruction.text) ∧
      ((∀ input ∈ inputs, Text.newline ∉ input ∨ input.length < UInt32.size) →
        Text.lines outline = commands.map (fun c => c.outline.text) ∧
        (Text.lines outline).length = s.lines.size ∧
        Text.lines code = (commands.flatMap Command.code).map Instruction.text) ∧
      ∀ input,
        (Session.Request.ofLine? (Text.trim input) = some .showOutline →
          s.respond input = s.tell [outline] ∧
          (s.tell [outline]).1 = { out := s.machine.sink.writer.answer.kept outline }) ∧
        (Session.Request.ofLine? (Text.trim input) = some .showListing →
          s.respond input = s.tell [code] ∧
          (s.tell [code]).1 = { out := s.machine.sink.writer.answer.kept code }) := by
  intro s program
  have h : Recompiled s := recompiled_follow (.start rfl) inputs
  have hlength : program.length = s.lines.size := by
    have := congrArg List.length h.numbered
    simpa using this
  have hcompile : compile program = .ok s.compiler.program.toList :=
    compile_eq_ok_iff.mpr ⟨_, h.compiled, rfl⟩
  obtain ⟨commands, hparse, hcode⟩ := Compiler.parseAll_of_extendAll h.compiled
  have hcommands : commands.length = s.lines.size :=
    (Statement.length_of_parseAll hparse).trans hlength
  have houtline := Statement.outlineAll_of_parseAll hparse
  have hshown : shownAll (commands.map Command.plain) =
      Text.unlines (commands.map fun c => c.outline.text) :=
    congrArg Text.unlines (map_outline_plain commands)
  have hlisting : listing s.compiler.program.toList =
      Text.unlines ((commands.flatMap Command.code).map Instruction.text) := by
    rw [hcode]
    rfl
  refine ⟨hcompile, h.compiled, hlength, h.numbered, commands, _, _, hparse, hcode, houtline,
    hcommands, hshown, hlisting, ?_, ?_⟩
  · intro hinputs
    have hflat := flat_of_compile (hasFlatNames_of_follow hinputs) hcompile
    have hlines : Text.lines (shownAll (commands.map Command.plain)) =
        commands.map (fun c => c.outline.text) := by
      rw [hshown]
      exact lines_outlines fun i hi => (hflat i (hcode ▸ hi)).1
    refine ⟨hlines, by rw [hlines, List.length_map, hcommands], ?_⟩
    rw [lines_listing fun i hi => (hflat i hi).2, hcode]
    rfl
  · intro input
    constructor
    · intro hrequest
      refine ⟨?_, h.tell _⟩
      rw [s.respond_of_ofLine? hrequest, Session.serve, hrequest]
      simp only [houtline]
    · intro hrequest
      refine ⟨?_, h.tell _⟩
      rw [s.respond_of_ofLine? hrequest, Session.serve, hrequest]

/-- Of `troubledInputs` the session has recorded the line that stopped, and not the one
that was rejected. Both requests show the same three commands. -/
theorem session_recompiles_recorded_troubled :
    let s := Session.follow {} troubledInputs
    (∀ input ∈ troubledInputs, Text.newline ∉ input ∨ input.length < UInt32.size) ∧
    s.lines = #[ascii ":= x 7", ascii ":= y / x 0", ascii "@ x"] ∧
    compile (Statement.ofLines s.lines.toList) = .ok s.compiler.program.toList ∧
    Session.Request.ofLine? (Text.trim (ascii " :Infix")) = some .showOutline ∧
    Session.Request.ofLine? (Text.trim (ascii ":LIST")) = some .showListing ∧
    ∃ commands outline code,
      Statement.parseAll (Statement.ofLines s.lines.toList) = .ok commands ∧
      (s.respond (ascii " :Infix")).1 = { out := outline } ∧
      outline = ascii "x := 7\ny := (x / 0)\nPRINT x\n" ∧
      Text.lines outline = commands.map (fun c => c.outline.text) ∧
      (s.respond (ascii ":LIST")).1 = { out := code } ∧
      code = ascii "PUSH 7\nSTORE x\nLOAD x\nPUSH 0\nDIV\nSTORE y\nLOAD x\nPRINT\n" ∧
      Text.lines code = (commands.flatMap Command.code).map Instruction.text := by
  intro s
  have hlines : s.lines = #[ascii ":= x 7", ascii ":= y / x 0", ascii "@ x"] := by decide +kernel
  have hinfix : Session.Request.ofLine? (Text.trim (ascii " :Infix")) = some .showOutline := by
    decide +kernel
  have hlist : Session.Request.ofLine? (Text.trim (ascii ":LIST")) = some .showListing := by
    decide +kernel
  have hkept : s.machine.sink.writer.answer = .taken := by decide +kernel
  have hout : (s.respond (ascii " :Infix")).1.out =
      ascii "x := 7\ny := (x / 0)\nPRINT x\n" := by decide +kernel
  have hout' : (s.respond (ascii ":LIST")).1.out =
      ascii "PUSH 7\nSTORE x\nLOAD x\nPUSH 0\nDIV\nSTORE y\nLOAD x\nPRINT\n" := by decide +kernel
  have hone : ∀ input ∈ troubledInputs, Text.newline ∉ input ∨ input.length < UInt32.size := by
    decide
  obtain ⟨hcompile, -, -, -, commands, outline, code, hparse, -, -, -, -, -, hlines', hanswer⟩ :=
    session_recompiles_recorded .unlimited troubledInputs
  obtain ⟨houtline, -, hcode⟩ := hlines' hone
  obtain ⟨hasked, htold⟩ := (hanswer _).1 hinfix
  obtain ⟨hasked', htold'⟩ := (hanswer _).2 hlist
  have hreply : (s.respond (ascii " :Infix")).1 = { out := outline } := by
    rw [hasked, htold, hkept]
    rfl
  have hreply' : (s.respond (ascii ":LIST")).1 = { out := code } := by
    rw [hasked', htold', hkept]
    rfl
  rw [hreply] at hout
  rw [hreply'] at hout'
  exact ⟨hone, hlines, hcompile, hinfix, hlist, commands, outline, code, hparse, hreply, hout,
    houtline, hreply', hout', hcode⟩

end Polish
