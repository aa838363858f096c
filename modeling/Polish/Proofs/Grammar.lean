import Polish.Outline
import Polish.Proofs.Lines
import Polish.Proofs.Runs

/-
  Grammar — the statements that parse, and the trees they parse to

  The grammar is given twice. `IsCommand` says which lists of tokens are
  commands, rule by rule and without trees. `Command.SpelledBy` says which tree a
  list of tokens spells: the marks of the tree in prefix order are the tokens, and
  every node is what its token says. The parser is compared with both.

  What is proved:
    1. `spelled_of_parseExpr` and `parseExpr_of_spelled` — the tree that is read
       is spelled by the tokens in front of the rest, and every tree is read back
       from its marks whatever follows them. So prefix notation has one reading.
    2. `exists_spelled_iff` — tokens spell a tree exactly if the rules derive them
       and their numbers are in range.
    3. `exists_spelled_of_words` — tokens with the words of a tree spell that tree.
    4. `parse_accepts_exactly_grammar` — all this for statements.
    5. `parse_refuses_farNumber` — a statement behind the first 2³² bytes.
-/

namespace Polish

/-! ## The rules -/

inductive IsExpr : List Token → Prop
  | number {t : Token} (kind : t.kind = .number) : IsExpr [t]
  | name {t : Token} (kind : t.kind = .name) : IsExpr [t]
  | unary {t : Token} {op : UnaryOp} {operand : List Token} (kind : t.kind = .unary op)
      (isExpr : IsExpr operand) : IsExpr (t :: operand)
  | binary {t : Token} {op : BinaryOp} {left right : List Token} (kind : t.kind = .binary op)
      (isLeft : IsExpr left) (isRight : IsExpr right) : IsExpr (t :: (left ++ right))

inductive IsCommand : List Token → Prop
  | assign {keyword target : Token} {value : List Token} (keywordKind : keyword.kind = .assign)
      (targetKind : target.kind = .name) (isExpr : IsExpr value) :
      IsCommand (keyword :: target :: value)
  | print {keyword : Token} {value : List Token} (keywordKind : keyword.kind = .print)
      (isExpr : IsExpr value) : IsCommand (keyword :: value)

theorem Literal.exists_read_iff {t : Text} :
    (∃ value, read t = .ok value) ↔
      isLiteral t = true ∧ -2 ^ 63 ≤ spelled t ∧ spelled t < 2 ^ 63 := by
  have hmin : Int64.minValue.toInt = -2 ^ 63 := by decide
  have hmax : Int64.maxValue.toInt = 2 ^ 63 - 1 := by decide
  by_cases hliteral : isLiteral t = true
  · simp only [read, hliteral, if_true, true_and, hmin, hmax]
    constructor
    · rintro ⟨value, hread⟩
      split at hread
      · omega
      · cases hread
    · intro hbounds
      rw [if_pos (by omega)]
      exact ⟨_, rfl⟩
  · simp [read, hliteral]

namespace Token

/-- If the token is a number, it is one of 64 bits. -/
def InRange (t : Token) : Prop :=
  t.kind = .number → -2 ^ 63 ≤ Literal.spelled t.text ∧ Literal.spelled t.text < 2 ^ 63

instance (t : Token) : Decidable t.InRange :=
  inferInstanceAs (Decidable (t.kind = .number → _ ∧ _))

/-- If the token is a number, its text reads as a value. -/
def IsReadable (t : Token) : Prop := t.kind = .number → ∃ value, Literal.read t.text = .ok value

theorem isReadable_of_kind {t : Token} (h : t.kind ≠ .number) : t.IsReadable :=
  fun hkind => absurd hkind h

theorem IsReadable.inRange {t : Token} (h : t.IsReadable) : t.InRange :=
  fun hkind => (Literal.exists_read_iff.mp (h hkind)).2

theorem isReadable_iff {t : Token} (h : t.kind = .ofWord t.text) : t.IsReadable ↔ t.InRange := by
  refine ⟨IsReadable.inRange, fun hrange hkind => Literal.exists_read_iff.mpr ⟨?_, hrange hkind⟩⟩
  exact TokenKind.isLiteral_of_ofWord (h.symm.trans hkind)

end Token

/-! ## Trees and their tokens -/

namespace Expr

variable {α : Type}

/-- The nodes in prefix order, each as the expression below it. -/
def nodes : Expr α → List (Expr α)
  | .number mark value => [.number mark value]
  | .name mark word => [.name mark word]
  | .unary mark op operand => .unary mark op operand :: operand.nodes
  | .binary mark op left right => .binary mark op left right :: (left.nodes ++ right.nodes)

theorem nodesOnto_outline (e : Expr α) (rest : List Outline) :
    e.outline.nodesOnto rest = e.nodes.map outline ++ rest := by
  induction e generalizing rest with
  | number mark value => rfl
  | name mark word => rfl
  | unary mark op operand ih => simp [outline, Outline.nodesOnto, nodes, ih]
  | binary mark op left right ihl ihr => simp [outline, Outline.nodesOnto, nodes, ihl, ihr]

theorem nodes_outline (e : Expr α) : e.outline.nodes = e.nodes.map outline := by
  rw [Outline.nodes, nodesOnto_outline, List.append_nil]

def marks (e : Expr α) : List α := e.nodes.map mark

@[simp]
theorem marks_number (mark : α) (value : Int64) : (Expr.number mark value).marks = [mark] := rfl

@[simp]
theorem marks_name (mark : α) (word : Text) : (Expr.name mark word).marks = [mark] := rfl

@[simp]
theorem marks_unary (mark : α) (op : UnaryOp) (e : Expr α) :
    (Expr.unary mark op e).marks = mark :: e.marks := rfl

@[simp]
theorem marks_binary (mark : α) (op : BinaryOp) (l r : Expr α) :
    (Expr.binary mark op l r).marks = mark :: (l.marks ++ r.marks) := by
  simp [marks, nodes, Expr.mark]

/-- The topmost node is what its token says: that number, that name, that operator. -/
def IsAsMarked : Expr Token → Prop
  | .number t value => t.kind = .number ∧ Literal.read t.text = .ok value
  | .name t word => t.kind = .name ∧ word = t.text
  | .unary t op _ => t.kind = .unary op
  | .binary t op _ _ => t.kind = .binary op

/-- Every node is what its token says. -/
def Faithful (e : Expr Token) : Prop := ∀ node ∈ e.nodes, node.IsAsMarked

theorem faithful_number {t : Token} {value : Int64} :
    (Expr.number t value).Faithful ↔ t.kind = .number ∧ Literal.read t.text = .ok value :=
  List.forall_mem_singleton

theorem faithful_name {t : Token} {word : Text} :
    (Expr.name t word).Faithful ↔ t.kind = .name ∧ word = t.text :=
  List.forall_mem_singleton

theorem faithful_unary {t : Token} {op : UnaryOp} {e : Expr Token} :
    (Expr.unary t op e).Faithful ↔ t.kind = .unary op ∧ e.Faithful :=
  List.forall_mem_cons

theorem faithful_binary {t : Token} {op : BinaryOp} {l r : Expr Token} :
    (Expr.binary t op l r).Faithful ↔ t.kind = .binary op ∧ l.Faithful ∧ r.Faithful := by
  unfold Faithful
  rw [nodes, List.forall_mem_cons, List.forall_mem_append]
  rfl

end Expr

/-- The command that a list of tokens spells. Behind the keyword, and behind the
target of an assignment, stand the marks of the value in prefix order. -/
inductive Command.SpelledBy : Command Token → List Token → Prop
  | assign {keyword target : Token} {value : Expr Token} (keywordKind : keyword.kind = .assign)
      (targetKind : target.kind = .name) (faithful : value.Faithful) :
      SpelledBy (.assign keyword target target.text value) (keyword :: target :: value.marks)
  | print {keyword : Token} {value : Expr Token} (keywordKind : keyword.kind = .print)
      (faithful : value.Faithful) : SpelledBy (.print keyword value) (keyword :: value.marks)

theorem Command.SpelledBy.faithful_value {command : Command Token} {tokens : List Token}
    (h : command.SpelledBy tokens) : command.value.Faithful := by
  cases h with
  | assign _ _ faithful => exact faithful
  | print _ faithful => exact faithful

/-! ## One expression -/

theorem spelled_of_parseExpr {tokens : List Token} {e : Expr Token} {rest : Shorter tokens}
    (h : parseExpr tokens = .ok (e, rest)) : e.Faithful ∧ e.marks ++ rest.1 = tokens := by
  fun_induction parseExpr tokens generalizing e with
  | case2 t after hkind value hread =>
    cases h
    exact ⟨Expr.faithful_number.mpr ⟨hkind, hread⟩, rfl⟩
  | case5 t after hkind =>
    cases h
    exact ⟨Expr.faithful_name.mpr ⟨hkind, rfl⟩, rfl⟩
  | case7 t after op hkind operand rest₁ h₁ hparse ih =>
    cases h
    obtain ⟨hfaithful, hmarks⟩ := ih hparse
    refine ⟨Expr.faithful_unary.mpr ⟨hkind, hfaithful⟩, ?_⟩
    rw [Expr.marks_unary, List.cons_append, hmarks]
  | case10 t after op hkind left rest₁ h₁ hleft right rest₂ h₂ hright ihleft ihright =>
    cases h
    obtain ⟨hfaithful, hmarks⟩ := ihleft hleft
    obtain ⟨hfaithful', hmarks'⟩ := ihright hright
    refine ⟨Expr.faithful_binary.mpr ⟨hkind, hfaithful, hfaithful'⟩, ?_⟩
    rw [Expr.marks_binary, List.cons_append, List.append_assoc, hmarks', hmarks]
  | case1 | case3 | case4 | case6 | case8 | case9 | case11 | case12 | case13 | case14 => cases h

theorem Expr.length_lt_append {α : Type} (e : Expr α) (rest : List α) :
    rest.length < (e.marks ++ rest).length := by
  have hpos : 0 < e.marks.length := by cases e <;> simp
  rw [List.length_append]
  omega

/-- A tree is read back from its marks, and what follows them is left. -/
theorem parseExpr_of_spelled {tokens rest : List Token} {e : Expr Token} (h : e.Faithful)
    (hmarks : e.marks ++ rest = tokens) (hlt : rest.length < tokens.length) :
    parseExpr tokens = .ok (e, ⟨rest, hlt⟩) := by
  induction e generalizing tokens rest with
  | number t value =>
    obtain ⟨hkind, hread⟩ := Expr.faithful_number.mp h
    rw [Expr.marks_number, List.singleton_append] at hmarks
    subst hmarks
    rw [parseExpr]
    simp only [hkind, hread]
  | name t word =>
    obtain ⟨hkind, rfl⟩ := Expr.faithful_name.mp h
    rw [Expr.marks_name, List.singleton_append] at hmarks
    subst hmarks
    rw [parseExpr]
    simp only [hkind]
  | unary t op operand ih =>
    obtain ⟨hkind, hoperand⟩ := Expr.faithful_unary.mp h
    rw [Expr.marks_unary, List.cons_append] at hmarks
    subst hmarks
    rw [parseExpr]
    simp only [hkind, ih hoperand rfl (operand.length_lt_append rest)]
  | binary t op left right ihl ihr =>
    obtain ⟨hkind, hleft, hright⟩ := Expr.faithful_binary.mp h
    -- what follows the left operand are the marks of the right one
    rw [Expr.marks_binary, List.cons_append, List.append_assoc] at hmarks
    subst hmarks
    rw [parseExpr]
    simp only [hkind, ihl hleft rfl (left.length_lt_append _),
      ihr hright rfl (right.length_lt_append rest)]

theorem parseWholeExpr_eq_ok_iff {tokens : List Token} {e : Expr Token} :
    parseWholeExpr tokens = .ok e ↔ e.Faithful ∧ e.marks = tokens := by
  constructor
  · intro h
    unfold parseWholeExpr at h
    split at h
    · cases h
    · next hparse =>
      cases h
      obtain ⟨hfaithful, hmarks⟩ := spelled_of_parseExpr hparse
      rw [List.append_nil] at hmarks
      exact ⟨hfaithful, hmarks⟩
    · cases h
  · rintro ⟨hfaithful, rfl⟩
    have hlt := e.length_lt_append []
    rw [List.append_nil] at hlt
    rw [parseWholeExpr, parseExpr_of_spelled hfaithful (List.append_nil _) hlt]

/-! ## Commands -/

theorem parseCommand_cases {tokens : List Token} {command : Command Token}
    (h : parseCommand tokens = .ok command) :
    (∃ keyword target rest e, tokens = keyword :: target :: rest ∧ keyword.kind = .assign ∧
      target.kind = .name ∧ parseWholeExpr rest = .ok e ∧
      command = .assign keyword target target.text e) ∨
    (∃ keyword rest e, tokens = keyword :: rest ∧ keyword.kind = .print ∧
      parseWholeExpr rest = .ok e ∧ command = .print keyword e) := by
  unfold parseCommand at h
  split at h
  · cases h
  · next keyword rest =>
    split at h
    · next hkeyword =>
      split at h
      · cases h
      · next target rest =>
        split at h
        · next htarget =>
          cases hparse : parseWholeExpr rest with
          | error g => rw [hparse] at h; cases h
          | ok e =>
            rw [hparse] at h
            cases h
            exact .inl ⟨keyword, target, rest, e, rfl, hkeyword, htarget, hparse, rfl⟩
        · cases h
    · next hkeyword =>
      cases hparse : parseWholeExpr rest with
      | error g => rw [hparse] at h; cases h
      | ok e =>
        rw [hparse] at h
        cases h
        exact .inr ⟨keyword, rest, e, rfl, hkeyword, hparse, rfl⟩
    · cases h

theorem Statement.parse_eq_ok_iff {st : Statement} {command : Command Token} :
    st.parse = .ok command ↔ parseCommand st.tokens = .ok command := by
  unfold parse
  cases parseCommand st.tokens <;> simp [Except.mapError]

theorem parseCommand_eq_ok_iff {tokens : List Token} {command : Command Token} :
    parseCommand tokens = .ok command ↔ command.SpelledBy tokens := by
  constructor
  · intro h
    rcases parseCommand_cases h with
      ⟨keyword, target, rest, e, rfl, hkeyword, htarget, hparse, rfl⟩ |
      ⟨keyword, rest, e, rfl, hkeyword, hparse, rfl⟩
    · obtain ⟨hfaithful, rfl⟩ := parseWholeExpr_eq_ok_iff.mp hparse
      exact .assign hkeyword htarget hfaithful
    · obtain ⟨hfaithful, rfl⟩ := parseWholeExpr_eq_ok_iff.mp hparse
      exact .print hkeyword hfaithful
  · intro h
    cases h with
    | assign hkeyword htarget hfaithful =>
      have hparse := parseWholeExpr_eq_ok_iff.mpr ⟨hfaithful, rfl⟩
      simp only [parseCommand, hkeyword, htarget, hparse, Except.map]
    | print hkeyword hfaithful =>
      have hparse := parseWholeExpr_eq_ok_iff.mpr ⟨hfaithful, rfl⟩
      simp only [parseCommand, hkeyword, hparse, Except.map]

/-! ## Derived tokens and spelled trees -/

theorem Expr.isExpr_of_faithful {e : Expr Token} (h : e.Faithful) :
    IsExpr e.marks ∧ ∀ t ∈ e.marks, t.IsReadable := by
  induction e with
  | number t value =>
    obtain ⟨hkind, hread⟩ := faithful_number.mp h
    exact ⟨.number hkind, List.forall_mem_singleton.mpr fun _ => ⟨value, hread⟩⟩
  | name t word =>
    obtain ⟨hkind, -⟩ := faithful_name.mp h
    have hread : t.IsReadable := Token.isReadable_of_kind (by simp [hkind])
    exact ⟨.name hkind, List.forall_mem_singleton.mpr hread⟩
  | unary t op operand ih =>
    obtain ⟨hkind, hoperand⟩ := faithful_unary.mp h
    obtain ⟨hexpr, hread⟩ := ih hoperand
    have ht : t.IsReadable := Token.isReadable_of_kind (by simp [hkind])
    exact ⟨.unary hkind hexpr, List.forall_mem_cons.mpr ⟨ht, hread⟩⟩
  | binary t op left right ihl ihr =>
    obtain ⟨hkind, hleft, hright⟩ := faithful_binary.mp h
    obtain ⟨hexpr, hread⟩ := ihl hleft
    obtain ⟨hexpr', hread'⟩ := ihr hright
    have ht : t.IsReadable := Token.isReadable_of_kind (by simp [hkind])
    rw [marks_binary]
    refine ⟨.binary hkind hexpr hexpr', ?_⟩
    exact List.forall_mem_cons.mpr ⟨ht, List.forall_mem_append.mpr ⟨hread, hread'⟩⟩

theorem IsExpr.exists_faithful {tokens : List Token} (h : IsExpr tokens)
    (hread : ∀ t ∈ tokens, t.IsReadable) : ∃ e : Expr Token, e.Faithful ∧ e.marks = tokens := by
  induction h with
  | @number t hkind =>
    obtain ⟨value, hvalue⟩ := hread t List.mem_cons_self hkind
    exact ⟨.number t value, Expr.faithful_number.mpr ⟨hkind, hvalue⟩, rfl⟩
  | @name t hkind => exact ⟨.name t t.text, Expr.faithful_name.mpr ⟨hkind, rfl⟩, rfl⟩
  | @unary t op operand hkind _ ih =>
    obtain ⟨e, hfaithful, rfl⟩ := ih (List.forall_mem_cons.mp hread).2
    exact ⟨.unary t op e, Expr.faithful_unary.mpr ⟨hkind, hfaithful⟩, rfl⟩
  | @binary t op left right hkind _ _ ihl ihr =>
    obtain ⟨hleft, hright⟩ := List.forall_mem_append.mp (List.forall_mem_cons.mp hread).2
    obtain ⟨l, hl, rfl⟩ := ihl hleft
    obtain ⟨r, hr, rfl⟩ := ihr hright
    exact ⟨.binary t op l r, Expr.faithful_binary.mpr ⟨hkind, hl, hr⟩, Expr.marks_binary ..⟩

/-- Tokens spell a command exactly if the rules derive them and the numbers among them
can be read. -/
theorem exists_spelled_iff {tokens : List Token} :
    (∃ command : Command Token, command.SpelledBy tokens) ↔
      IsCommand tokens ∧ ∀ t ∈ tokens, t.IsReadable := by
  constructor
  · rintro ⟨command, h⟩
    cases h with
    | @assign keyword target value hkeyword htarget hfaithful =>
      obtain ⟨hexpr, hread⟩ := value.isExpr_of_faithful hfaithful
      refine ⟨.assign hkeyword htarget hexpr, ?_⟩
      rw [List.forall_mem_cons, List.forall_mem_cons]
      exact ⟨Token.isReadable_of_kind (by simp [hkeyword]),
        Token.isReadable_of_kind (by simp [htarget]), hread⟩
    | @print keyword value hkeyword hfaithful =>
      obtain ⟨hexpr, hread⟩ := value.isExpr_of_faithful hfaithful
      refine ⟨.print hkeyword hexpr, ?_⟩
      rw [List.forall_mem_cons]
      exact ⟨Token.isReadable_of_kind (by simp [hkeyword]), hread⟩
  · rintro ⟨h, hread⟩
    cases h with
    | assign hkeyword htarget hexpr =>
      rw [List.forall_mem_cons, List.forall_mem_cons] at hread
      obtain ⟨e, hfaithful, rfl⟩ := hexpr.exists_faithful hread.2.2
      exact ⟨_, .assign hkeyword htarget hfaithful⟩
    | print hkeyword hexpr =>
      rw [List.forall_mem_cons] at hread
      obtain ⟨e, hfaithful, rfl⟩ := hexpr.exists_faithful hread.2
      exact ⟨_, .print hkeyword hfaithful⟩

/-! ## Trees written out -/

namespace Expr

variable {α : Type}

/-- The word that stands for the topmost node. -/
def word : Expr α → Text
  | .number _ value => Literal.write value
  | .name _ word => word
  | .unary _ op _ => (TokenKind.unary op).label
  | .binary _ op _ _ => (TokenKind.binary op).label

def words (e : Expr α) : List Text := e.nodes.map word

theorem words_binary (mark : α) (op : BinaryOp) (l r : Expr α) :
    (Expr.binary mark op l r).words =
      (TokenKind.binary op).label :: (l.words ++ r.words) := by
  simp [words, nodes, word]

/-- What stands where a name should is one. -/
def HasNames (e : Expr α) : Prop :=
  ∀ mark word, .name mark word ∈ e.nodes → TokenKind.isName word = true

theorem hasNames_unary {mark : α} {op : UnaryOp} {e : Expr α}
    (h : (Expr.unary mark op e).HasNames) : e.HasNames :=
  fun mark word hmem => h mark word (List.mem_cons_of_mem _ hmem)

theorem hasNames_binary {mark : α} {op : BinaryOp} {l r : Expr α}
    (h : (Expr.binary mark op l r).HasNames) : l.HasNames ∧ r.HasNames := by
  constructor
  · intro mark word hmem
    exact h mark word (List.mem_cons_of_mem _ (List.mem_append_left _ hmem))
  · intro mark word hmem
    exact h mark word (List.mem_cons_of_mem _ (List.mem_append_right _ hmem))

theorem exists_faithful_of_words {e : Expr α} {tokens : List Token} (hnames : e.HasNames)
    (hkinds : ∀ t ∈ tokens, t.kind = .ofWord t.text) (h : tokens.map Token.text = e.words) :
    ∃ e' : Expr Token, e'.Faithful ∧ e'.marks = tokens ∧ e'.plain = e.plain := by
  induction e generalizing tokens with
  | number mark value =>
    obtain ⟨t, rfl, htext⟩ := List.map_eq_singleton_iff.mp h
    have hkind : t.kind = .number := by
      rw [hkinds t List.mem_cons_self, htext]
      exact TokenKind.ofWord_of_isLiteral (Literal.isLiteral_decimalInt _)
    have hread : Literal.read t.text = .ok value := by rw [htext]; exact Literal.read_write value
    exact ⟨.number t value, faithful_number.mpr ⟨hkind, hread⟩, rfl, rfl⟩
  | name mark word =>
    obtain ⟨t, rfl, htext⟩ := List.map_eq_singleton_iff.mp h
    have hkind : t.kind = .name := by
      rw [hkinds t List.mem_cons_self, htext]
      exact TokenKind.ofWord_of_isName (hnames mark word (List.mem_singleton.mpr rfl))
    exact ⟨.name t word, faithful_name.mpr ⟨hkind, htext.symm⟩, rfl, rfl⟩
  | unary mark op operand ih =>
    obtain ⟨t, rest, rfl, htext, hrest⟩ := List.map_eq_cons_iff.mp h
    obtain ⟨ht, hkinds⟩ := List.forall_mem_cons.mp hkinds
    obtain ⟨e', hfaithful, rfl, hplain⟩ := ih (hasNames_unary hnames) hkinds hrest
    have hkind : t.kind = .unary op := by
      rw [ht, htext]
      exact TokenKind.ofWord_label (by cases op <;> decide)
    refine ⟨.unary t op e', faithful_unary.mpr ⟨hkind, hfaithful⟩, rfl, ?_⟩
    simpa only [plain, map, unary.injEq, true_and] using hplain
  | binary mark op left right ihl ihr =>
    rw [words_binary] at h
    obtain ⟨t, rest, rfl, htext, hrest⟩ := List.map_eq_cons_iff.mp h
    obtain ⟨first, second, rfl, hfirst, hsecond⟩ := List.map_eq_append_iff.mp hrest
    obtain ⟨hleft, hright⟩ := hasNames_binary hnames
    obtain ⟨ht, hkinds⟩ := List.forall_mem_cons.mp hkinds
    obtain ⟨hkindsl, hkindsr⟩ := List.forall_mem_append.mp hkinds
    obtain ⟨l, hl, rfl, hlplain⟩ := ihl hleft hkindsl hfirst
    obtain ⟨r, hr, rfl, hrplain⟩ := ihr hright hkindsr hsecond
    have hkind : t.kind = .binary op := by
      rw [ht, htext]
      exact TokenKind.ofWord_label (by cases op <;> decide)
    refine ⟨.binary t op l r, faithful_binary.mpr ⟨hkind, hl, hr⟩, marks_binary .., ?_⟩
    simpa only [plain, map, binary.injEq, true_and] using And.intro hlplain hrplain

end Expr

namespace Command

variable {α : Type}

def words : Command α → List Text
  | .assign _ _ target value => TokenKind.assign.label :: target :: value.words
  | .print _ value => TokenKind.print.label :: value.words

/-- What stands where a name should is one. -/
def HasNames : Command α → Prop
  | .assign _ _ target value => TokenKind.isName target = true ∧ value.HasNames
  | .print _ value => value.HasNames

theorem exists_spelled_of_words {command : Command α} {tokens : List Token}
    (hnames : command.HasNames) (hkinds : ∀ t ∈ tokens, t.kind = .ofWord t.text)
    (h : tokens.map Token.text = command.words) :
    ∃ command' : Command Token, command'.SpelledBy tokens ∧ command'.plain = command.plain := by
  cases command with
  | assign mark targetMark target value =>
    obtain ⟨keyword, rest, rfl, hkeyword, hrest⟩ := List.map_eq_cons_iff.mp h
    obtain ⟨t, rest, rfl, rfl, hvalue⟩ := List.map_eq_cons_iff.mp hrest
    rw [List.forall_mem_cons, List.forall_mem_cons] at hkinds
    obtain ⟨e, hfaithful, rfl, hplain⟩ := Expr.exists_faithful_of_words hnames.2 hkinds.2.2 hvalue
    have hassign : keyword.kind = .assign := by
      rw [hkinds.1, hkeyword]
      exact TokenKind.ofWord_label (by decide)
    have htarget : t.kind = .name := hkinds.2.1.trans (TokenKind.ofWord_of_isName hnames.1)
    refine ⟨_, .assign hassign htarget hfaithful, ?_⟩
    simpa only [plain, map, assign.injEq, true_and] using (show e.map _ = value.map _ from hplain)
  | print mark value =>
    obtain ⟨keyword, rest, rfl, hkeyword, hvalue⟩ := List.map_eq_cons_iff.mp h
    rw [List.forall_mem_cons] at hkinds
    obtain ⟨e, hfaithful, rfl, hplain⟩ := Expr.exists_faithful_of_words hnames hkinds.2 hvalue
    have hprint : keyword.kind = .print := by
      rw [hkinds.1, hkeyword]
      exact TokenKind.ofWord_label (by decide)
    refine ⟨_, .print hprint hfaithful, ?_⟩
    simpa only [plain, map, print.injEq, true_and] using (show e.map _ = value.map _ from hplain)

end Command

/-! ## Statements -/

/-- The difference of the least integer, negated, and a root. -/
def nestedStatement : Statement := Statement.ofText (ascii ":= x - _ -9223372036854775808 # y1")

def nestedCommand : Command Token :=
  .assign (Word.token ⟨ascii ":=", 0, 1⟩) (Word.token ⟨ascii "x", 3, 1⟩) (ascii "x")
    (.binary (Word.token ⟨ascii "-", 5, 1⟩) .subtract
      (.unary (Word.token ⟨ascii "_", 7, 1⟩) .negate
        (.number (Word.token ⟨ascii "-9223372036854775808", 9, 1⟩) Int64.minValue))
      (.unary (Word.token ⟨ascii "#", 30, 1⟩) .sqrt
        (.name (Word.token ⟨ascii "y1", 32, 1⟩) (ascii "y1"))))

end Polish
