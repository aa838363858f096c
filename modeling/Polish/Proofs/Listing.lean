import Polish.Instruction.Reader
import Polish.Proofs.Postfix
import Polish.Proofs.Rescan
import Polish.Proofs.Runs

/-
  Listings read back — a compiled program and its text

  A listing is words: an opcode, and behind it a literal or a name. Names are
  made of letters, digits and underscores, so no name is cut in two, trimmed or
  taken for a comment, even one that is spelled like an opcode. What can go wrong
  is length alone: a long name makes a line that the reader refuses. Behind the first
  2³² bytes of a source a name can be any text, and its listing can read differently.

  What is proved:
    1. `Instruction.Over.readsBack_of_isField` — the text of an instruction whose name
       is a field is one line, and that line reads as the instruction.
    2. `readLinesOnto_of_short` and `readLinesOnto_of_long` — lines of such
       instructions are read one after the other, up to one that is too long.
    3. `Compiler.Wrote.extendAll` — compiled code holds only such instructions,
       reads only names that the program assigns, and stores every one of them.
    4. `compiled_listing_reads_back` — the listing of a compiled program reads
       back as that program exactly if its lines are short enough, and those are
       short enough exactly if the assigned names are.
    5. `listing_farName_reads_differently` — a name behind the first 2³² bytes.
-/

namespace Polish

/-! ## Names are words -/

namespace TokenKind

theorem isVisible_of_isNameByte {b : UInt8} (h : isNameByte b = true) : Text.IsVisible b := by
  simp only [isNameByte, Text.isLetter, Text.isDigit, Bool.or_eq_true, Bool.and_eq_true,
    decide_eq_true_eq, beq_iff_eq] at h
  rcases h with ((⟨hlow, hhigh⟩ | ⟨hlow, hhigh⟩) | ⟨hlow, hhigh⟩) | rfl
  · exact .of_range hlow hhigh (by decide) (by decide)
  · exact .of_range hlow hhigh (by decide) (by decide)
  · exact .of_range hlow hhigh (by decide) (by decide)
  · exact ⟨by decide, by decide⟩

theorem isWord_of_isName {word : Text} (h : isName word = true) : Text.IsWord word := by
  cases word with
  | nil => cases h
  | cons b rest =>
    simp only [isName, Bool.and_eq_true, List.all_eq_true] at h
    refine ⟨List.cons_ne_nil _ _, ?_⟩
    intro c hc
    apply isVisible_of_isNameByte
    rcases List.mem_cons.mp hc with rfl | hc
    · simp [isNameByte, h.1]
    · exact h.2 c hc

end TokenKind

/-! ## One line -/

namespace Opcode

theorem isWord_name {op : Opcode} (h : op ∈ listed) : Text.IsWord op.name := by
  have hne : ∀ op ∈ listed, op.name ≠ [] := by decide
  have hvisible : ∀ op ∈ listed, op.name.all (fun b => 32 < b.toNat && b.toNat < 127) = true := by
    decide
  refine ⟨hne op h, ?_⟩
  intro b hb
  simpa [Text.IsVisible] using List.all_eq_true.mp (hvisible op h) b hb

theorem head?_name {op : Opcode} (h : op ∈ listed) : op.name.head? ≠ some 59 := by
  have hall : ∀ op ∈ listed, op.name.head? ≠ some 59 := by decide
  exact hall op h

end Opcode

namespace Instruction

def words (i : Instruction) : List Text :=
  match i.op with
  | .push => [i.op.name, Literal.write i.const]
  | .load | .store => [i.op.name, i.name]
  | op => [op.name]

theorem words_eq_cons (i : Instruction) : ∃ operands, i.words = i.op.name :: operands := by
  unfold words
  cases i.op with
  | _ => exact ⟨_, rfl⟩

theorem text_eq_joinWith (i : Instruction) : i.text = Text.joinWith [32] i.words := by
  unfold text words
  cases i.op with
  | push | load | store =>
    rw [Text.joinWith_pair]
    rfl
  | _ => exact List.intercalate_singleton.symm

/-- The instructions that compiled code is made of, where `names` are the names
it may hold. -/
inductive Over (names : List Text) : Instruction → Prop
  | push (value : Int64) : Over names (.push value)
  | load {name : Text} (h : name ∈ names) : Over names (.load name)
  | store {name : Text} (h : name ∈ names) : Over names (.store name)
  | plain {op : Opcode} (hlisted : op ∈ Opcode.listed) (hnone : op.operands = 0) :
      Over names (.plain op)

theorem Over.mono {names names' : List Text} {i : Instruction} (h : i.Over names)
    (hsub : ∀ name ∈ names, name ∈ names') : i.Over names' := by
  cases h with
  | push value => exact .push value
  | load h => exact .load (hsub _ h)
  | store h => exact .store (hsub _ h)
  | plain hlisted hnone => exact .plain hlisted hnone

theorem Over.op_listed {names : List Text} {i : Instruction} (h : i.Over names) :
    i.op ∈ Opcode.listed := by
  cases h with
  | push value =>
    show Opcode.push ∈ Opcode.listed
    decide
  | load h =>
    show Opcode.load ∈ Opcode.listed
    decide
  | store h =>
    show Opcode.store ∈ Opcode.listed
    decide
  | plain hlisted hnone => exact hlisted

theorem words_plain {op : Opcode} (hnone : op.operands = 0) : (plain op).words = [op.name] := by
  cases op with
  | push | load | store => cases hnone
  | _ => rfl

theorem Over.isField {names : List Text} {i : Instruction} (h : i.Over names)
    (hnames : ∀ name ∈ names, Text.IsField name) : ∀ word ∈ i.words, Text.IsField word := by
  have hop := (Opcode.isWord_name h.op_listed).isField
  have hpair : ∀ operand, Text.IsField operand → ∀ word ∈ [i.op.name, operand], Text.IsField word :=
    fun operand h => List.forall_mem_cons.mpr ⟨hop, List.forall_mem_singleton.mpr h⟩
  cases h with
  | push value => exact hpair _ (Literal.isWord_write value).isField
  | load h => exact hpair _ (hnames _ h)
  | store h => exact hpair _ (hnames _ h)
  | plain hlisted hnone =>
    rw [words_plain hnone]
    exact List.forall_mem_singleton.mpr hop

theorem Over.ofFields_words {names : List Text} {i : Instruction} (h : i.Over names) :
    ofFields i.words = .ok i := by
  cases h with
  | push value =>
    have hop : Opcode.ofName? Opcode.push.name = some .push := by decide
    show ofFields [Opcode.push.name, Literal.write value] = _
    simp [ofFields, hop, Opcode.operands, Literal.read_write]
  | load h => rfl
  | store h => rfl
  | @plain op hlisted hnone =>
    cases op with
    | push | load | store => cases hnone
    | unlisted code => simp [Opcode.listed] at hlisted
    | _ => rfl

theorem Over.newline_not_mem_name {names : List Text} {i : Instruction} (h : i.Over names)
    (hnames : ∀ name ∈ names, Text.newline ∉ name) : Text.newline ∉ i.name := by
  cases h with
  | push | plain => exact List.not_mem_nil
  | load h | store h => exact hnames _ h

/-- Only in a name can there be a newline. -/
theorem Over.newline_not_mem_text {names : List Text} {i : Instruction} (h : i.Over names)
    (hnames : ∀ name ∈ names, Text.newline ∉ name) : Text.newline ∉ i.text := by
  have hvisible : ∀ {word : Text}, Text.IsWord word → Text.newline ∉ word :=
    fun hword hmem => absurd (hword.visible _ hmem).1 (by decide)
  have hop := hvisible (Opcode.isWord_name h.op_listed)
  have hname := h.newline_not_mem_name hnames
  intro hmem
  rw [text_eq_joinWith] at hmem
  rcases Text.mem_joinWith hmem with hspace | ⟨word, hword, hb⟩
  · exact absurd hspace (by decide)
  · cases h with
    | push value =>
      rcases List.mem_pair.mp hword with rfl | rfl
      · exact hop hb
      · exact hvisible (Literal.isWord_write value) hb
    | load | store =>
      rcases List.mem_pair.mp hword with rfl | rfl
      · exact hop hb
      · exact hname hb
    | plain hlisted hnone =>
      rw [words_plain hnone, List.mem_singleton] at hword
      exact hop (hword ▸ hb)

/-- An instruction whose text is one line that reads as the instruction. -/
structure ReadsBack (i : Instruction) : Prop where
  oneLine : Text.newline ∉ i.text
  trimmed : Text.trim (Text.chomp i.text) = i.text
  nonempty : i.text ≠ []
  noComment : i.text.head? ≠ some 59
  read : Instruction.read i.text = .ok i

/-- What reads back is any instruction of the instruction set whose name is a field. -/
theorem Over.readsBack_of_isField {names : List Text} {i : Instruction} (h : i.Over names)
    (hnames : ∀ name ∈ names, Text.IsField name) : i.ReadsBack := by
  have hwords := h.isField hnames
  have hop := Opcode.isWord_name h.op_listed
  obtain ⟨operands, hcons⟩ := i.words_eq_cons
  constructor
  · rw [text_eq_joinWith]
    exact Text.newline_not_mem_joinWith hwords
  · rw [text_eq_joinWith, Text.chomp_joinWith hwords, Text.trim_joinWith hwords]
  · rw [text_eq_joinWith, hcons]
    exact Text.joinWith_ne_nil hop.ne_nil operands
  · rw [text_eq_joinWith, hcons, Text.head?_joinWith hop.ne_nil operands]
    exact Opcode.head?_name h.op_listed
  · have hne : i.words ≠ [] := hcons ▸ List.cons_ne_nil _ _
    rw [Instruction.read, text_eq_joinWith, Text.fields_joinWith hne hwords, h.ofFields_words]

theorem Over.readsBack {names : List Text} {i : Instruction} (h : i.Over names)
    (hnames : ∀ name ∈ names, TokenKind.isName name = true) : i.ReadsBack :=
  h.readsBack_of_isField fun name hname => (TokenKind.isWord_of_isName (hnames name hname)).isField

end Instruction

/-! ## Line after line -/

theorem readLinesOnto_text {i : Instruction} (h : i.ReadsBack) (hshort : i.text.length < longLine)
    (read : Array Instruction) (number : Nat) (rest : List Text) :
    readLinesOnto read number (i.text :: rest) = readLinesOnto (read.push i) (number + 1) rest := by
  rw [readLinesOnto, if_neg (Nat.not_le.mpr hshort)]
  simp only [h.trimmed, h.read, List.isEmpty_iff, h.nonempty, beq_iff_eq, h.noComment,
    Bool.or_eq_true, or_self, if_false]

theorem readLinesOnto_of_short {code : List Instruction} (h : ∀ i ∈ code, i.ReadsBack)
    (hshort : ∀ i ∈ code, i.text.length < longLine) (read : Array Instruction) (number : Nat) :
    readLinesOnto read number (code.map Instruction.text) = .ok (read ++ code) := by
  induction code generalizing read number with
  | nil => simp [readLinesOnto]
  | cons i rest ih =>
    have hrest := ih (fun j hj => h j (List.mem_cons_of_mem _ hj))
      (fun j hj => hshort j (List.mem_cons_of_mem _ hj)) (read.push i) (number + 1)
    rw [List.map_cons, readLinesOnto_text (h i List.mem_cons_self) (hshort i List.mem_cons_self),
      hrest]
    simp

theorem exists_error_of_long {lines : List Text} (h : ∃ line ∈ lines, longLine ≤ line.length)
    (read : Array Instruction) (number : Nat) :
    ∃ e, readLinesOnto read number lines = .error e := by
  fun_induction readLinesOnto read number lines with
  | case1 read number => simp at h
  | case2 read number line rest hlong => exact ⟨_, rfl⟩
  | case3 read number line rest hshort content hpassed ih =>
    exact ih (by simpa [hshort] using h)
  | case4 read number line rest hshort content hpassed i hread ih =>
    exact ih (by simpa [hshort] using h)
  | case5 => exact ⟨_, rfl⟩

/-- The lines before the first long one are read, and then reading ends. -/
theorem readLinesOnto_of_long {code : List Instruction} (h : ∀ i ∈ code, i.ReadsBack)
    (hlong : ∃ i ∈ code, longLine ≤ i.text.length) (read : Array Instruction) (number : Nat) :
    readLinesOnto read number (code.map Instruction.text) = .error .lineTooLong := by
  induction code generalizing read number with
  | nil =>
    obtain ⟨i, hi, -⟩ := hlong
    cases hi
  | cons i rest ih =>
    rw [List.map_cons]
    by_cases hi : longLine ≤ i.text.length
    · rw [readLinesOnto, if_pos hi]
    · obtain ⟨j, hj, hjlong⟩ := hlong
      rcases List.mem_cons.mp hj with rfl | hj
      · exact absurd hjlong hi
      · rw [readLinesOnto_text (h i List.mem_cons_self) (Nat.not_le.mp hi)]
        exact ih (fun k hk => h k (List.mem_cons_of_mem _ hk)) ⟨j, hj, hjlong⟩ _ _

/-! ## What compiling writes -/

def Statement.assigned? (st : Statement) : Option Text :=
  match st.tokens with
  | keyword :: target :: _ => if keyword.kind = .assign then some target.text else none
  | _ => none

def assignedNames (program : List Statement) : List Text := program.filterMap Statement.assigned?

theorem assignedNames_cons (st : Statement) (rest : List Statement) :
    assignedNames (st :: rest) = st.assigned?.toList ++ assignedNames rest := by
  simp only [assignedNames, List.filterMap_cons]
  cases st.assigned? <;> rfl

theorem Expr.over_of_mem_code {α : Type} {e : Expr α} {names : List Text} {i : Instruction}
    (hreads : ∀ read ∈ e.reads, read.2 ∈ names) (hi : i ∈ e.code) : i.Over names := by
  induction e with
  | number mark value =>
    rw [List.mem_singleton.mp hi]
    exact .push value
  | name mark word =>
    rw [List.mem_singleton.mp hi]
    exact .load (hreads (mark, word) (List.mem_singleton.mpr rfl))
  | unary mark op operand ih =>
    rcases List.mem_append.mp hi with hi | hi
    · exact ih hreads hi
    · rw [List.mem_singleton.mp hi]
      cases op <;> exact .plain (by decide) rfl
  | binary mark op left right ihleft ihright =>
    rw [Expr.code, List.append_assoc, List.mem_append, List.mem_append] at hi
    rcases hi with hi | hi | hi
    · exact ihleft (fun read hread => hreads read (List.mem_append_left _ hread)) hi
    · exact ihright (fun read hread => hreads read (List.mem_append_right _ hread)) hi
    · rw [List.mem_singleton.mp hi]
      cases op <;> exact .plain (by decide) rfl

theorem Statement.assigned?_of_assign {st : Statement} {keyword target : Token}
    {rest : List Token} (htokens : st.tokens = keyword :: target :: rest)
    (hkeyword : keyword.kind = .assign) : st.assigned? = some target.text := by
  simp [assigned?, htokens, hkeyword]

theorem Statement.assigned?_of_print {st : Statement} {keyword : Token} {rest : List Token}
    (htokens : st.tokens = keyword :: rest) (hkeyword : keyword.kind = .print) :
    st.assigned? = none := by
  unfold assigned?
  rw [htokens]
  cases rest with
  | nil => rfl
  | cons second rest => simp [hkeyword]

/-- The code of a statement ends by storing the name that the statement assigns,
if it assigns one. -/
theorem Statement.assigned?_of_parse {st : Statement} {command : Command Token}
    (h : st.parse = .ok command) (look : Text → Folded) :
    (command.assigned look).map Prod.fst = st.assigned? ∧
      command.last.Over st.assigned?.toList ∧
      ∀ name ∈ st.assigned?.toList, command.last = .store name := by
  rcases parseCommand_cases (parse_eq_ok_iff.mp h) with
    ⟨keyword, target, rest, e, htokens, hkeyword, -, -, rfl⟩ |
    ⟨keyword, rest, e, htokens, hkeyword, -, rfl⟩
  · rw [assigned?_of_assign htokens hkeyword]
    refine ⟨rfl, .store (List.mem_singleton.mpr rfl), ?_⟩
    intro name hname
    rw [List.mem_singleton.mp hname]
    rfl
  · rw [assigned?_of_print htokens hkeyword]
    exact ⟨rfl, .plain (by decide) rfl, fun name hname => absurd hname List.not_mem_nil⟩

theorem Statement.exists_of_assigned? {st : Statement} {command : Command Token}
    (h : st.parse = .ok command) {name : Text} (hname : name ∈ st.assigned?.toList) :
    ∃ t ∈ st.tokens, t.kind = .name ∧ t.text = name := by
  rcases parseCommand_cases (parse_eq_ok_iff.mp h) with
    ⟨keyword, target, rest, e, htokens, hkeyword, htarget, -, -⟩ |
    ⟨keyword, rest, e, htokens, hkeyword, -, -⟩
  · rw [assigned?_of_assign htokens hkeyword] at hname
    exact ⟨target, by simp [htokens], htarget, (List.mem_singleton.mp hname).symm⟩
  · rw [assigned?_of_print htokens hkeyword] at hname
    cases hname

/-- What a compiler has written once it took in statements that assign `names`:
it knows no other name, and has stored each of them. -/
structure Compiler.Wrote (c : Compiler) (names : List Text) : Prop where
  known : ∀ name, c.symbols.contains name = true → name ∈ names
  stored : ∀ name ∈ names, Instruction.store name ∈ c.program.toList
  code : ∀ i ∈ c.program.toList, i.Over names

namespace Compiler

theorem Wrote.start : Wrote {} [] where
  known name h := by simp [Table.contains_empty] at h
  stored name h := by cases h
  code i h := by cases h

theorem Wrote.extend {c c' : Compiler} {names : List Text} {st : Statement}
    {code : List Instruction} (hw : c.Wrote names) (h : c.extend st = .ok (code, c')) :
    c'.Wrote (names ++ st.assigned?.toList) := by
  have hprogram := extend_program h
  obtain ⟨command, hparse, hnone, rfl, rfl⟩ := extend_eq_ok_iff.mp h
  obtain ⟨hassigned, hlast, hstore⟩ := Statement.assigned?_of_parse hparse c.look
  -- the compiler only lets a name be read that an earlier statement assigned
  have hreads : ∀ read ∈ command.value.reads, read.2 ∈ names :=
    fun read hread => hw.known _ (unassigned?_eq_none_iff.mp hnone read hread)
  constructor
  · intro name hname
    rw [contains_commit, hassigned, Bool.or_eq_true, decide_eq_true_eq] at hname
    rcases hname with hnew | hold
    · exact List.mem_append_right _ (Option.mem_toList.mpr hnew)
    · exact List.mem_append_left _ (hw.known name hold)
  · intro name hname
    rw [hprogram]
    rcases List.mem_append.mp hname with hold | hnew
    · exact List.mem_append_left _ (hw.stored name hold)
    · rw [← hstore name hnew]
      exact List.mem_append_right _ (List.mem_append_right _ (List.mem_singleton.mpr rfl))
  · intro i hi
    rw [hprogram, Command.code, List.mem_append, List.mem_append, List.mem_singleton] at hi
    rcases hi with hold | hvalue | rfl
    · exact (hw.code i hold).mono fun name => List.mem_append_left _
    · exact (Expr.over_of_mem_code hreads hvalue).mono fun name => List.mem_append_left _
    · exact hlast.mono fun name => List.mem_append_right _

theorem Wrote.extendAll {c c' : Compiler} {names : List Text} {program : List Statement}
    (hw : c.Wrote names) (h : c.extendAll program = (c', none)) :
    c'.Wrote (names ++ assignedNames program) := by
  induction program generalizing c names with
  | nil =>
    cases h
    simpa [assignedNames] using hw
  | cons st rest ih =>
    obtain ⟨code, c₁, hst, hrest⟩ := extendAll_cons_eq_ok h
    rw [assignedNames_cons, ← List.append_assoc]
    exact ih (hw.extend hst) hrest

theorem forall_assignedNames {c c' : Compiler} {program : List Statement} {P : Text → Prop}
    (hnames : ∀ st ∈ program, ∀ t ∈ st.tokens, t.kind = .name → P t.text)
    (h : c.extendAll program = (c', none)) : ∀ name ∈ assignedNames program, P name := by
  induction program generalizing c with
  | nil => exact fun name hname => absurd hname List.not_mem_nil
  | cons st rest ih =>
    obtain ⟨code, c₁, hst, hrest⟩ := extendAll_cons_eq_ok h
    obtain ⟨hfirst, hnames⟩ := List.forall_mem_cons.mp hnames
    obtain ⟨command, hparse, -⟩ := extend_eq_ok_iff.mp hst
    rw [assignedNames_cons]
    refine List.forall_mem_append.mpr ⟨fun name hname => ?_, ih hnames hrest⟩
    obtain ⟨t, ht, hkind, rfl⟩ := Statement.exists_of_assigned? hparse hname
    exact hfirst t ht hkind

end Compiler

/-! ## Whole listings -/

/-- No line of the text has more than 65535 bytes, the newline not counted. -/
def HasShortLines (t : Text) : Prop := ∀ line ∈ Text.lines t, line.length ≤ 65535

instance (t : Text) : Decidable (HasShortLines t) :=
  inferInstanceAs (Decidable (∀ line ∈ Text.lines t, _))

theorem wrote_of_compile {program : List Statement} {code : List Instruction}
    (h : compile program = .ok code) :
    ∃ c : Compiler, Compiler.extendAll {} program = (c, none) ∧
      c.Wrote (assignedNames program) ∧ c.program.toList = code := by
  obtain ⟨c, hc, hcode⟩ := compile_eq_ok_iff.mp h
  exact ⟨c, hc, Compiler.Wrote.start.extendAll hc, hcode⟩

theorem flat_of_compile {program : List Statement} {code : List Instruction}
    (hflat : ∀ st ∈ program, st.HasFlatNames) (h : compile program = .ok code) :
    ∀ i ∈ code, Text.newline ∉ i.name ∧ Text.newline ∉ i.text := by
  obtain ⟨c, hc, hwrote, rfl⟩ := wrote_of_compile h
  have hnames : ∀ name ∈ assignedNames program, Text.newline ∉ name :=
    Compiler.forall_assignedNames hflat hc
  intro i hi
  exact ⟨(hwrote.code i hi).newline_not_mem_name hnames,
    (hwrote.code i hi).newline_not_mem_text hnames⟩

theorem lines_listing {code : List Instruction} (h : ∀ i ∈ code, Text.newline ∉ i.text) :
    Text.lines (listing code) = code.map Instruction.text :=
  Text.lines_unlines (List.forall_mem_map.mpr h)

theorem readListing_of_long {t : Text} (h : ¬ HasShortLines t) :
    ∃ e, readListing t = .error e := by
  have hlong : ∃ line ∈ Text.lines t, longLine ≤ line.length := by
    simpa [HasShortLines, longLine, Nat.lt_iff_add_one_le] using h
  obtain ⟨e, he⟩ := exists_error_of_long hlong #[] 1
  exact ⟨e, by rw [readListing, he]; rfl⟩

theorem hasShortLines_listing {code : List Instruction} (h : ∀ i ∈ code, i.ReadsBack) :
    HasShortLines (listing code) ↔ ∀ i ∈ code, i.text.length < longLine := by
  unfold HasShortLines longLine
  rw [lines_listing fun i hi => (h i hi).oneLine, List.forall_mem_map]
  exact forall₂_congr fun i hi => Nat.lt_succ_iff.symm

theorem Instruction.length_text_store (name : Text) :
    (store name).text.length = 6 + name.length := by
  show (ascii "STORE " ++ name).length = 6 + name.length
  rw [List.length_append, show (ascii "STORE ").length = 6 from rfl]

theorem Instruction.length_text_push {i : Instruction} (h : i.op = .push) : i.text.length ≤ 25 := by
  have hlength := Literal.length_write_le i.const
  have hname : Opcode.push.name.length = 4 := rfl
  rw [text_eq_joinWith, words, h, Text.joinWith_pair]
  simp only [List.length_append, List.length_cons, hname]
  omega

/-- Only a long name makes a long line. -/
theorem Instruction.Over.length_text {names : List Text} {i : Instruction} (h : i.Over names)
    (hnames : ∀ name ∈ names, name.length ≤ 65529) : i.text.length < longLine := by
  unfold longLine
  cases h with
  | push value => exact Nat.lt_of_le_of_lt (length_text_push rfl) (by decide)
  | @load name h =>
    have hlength := hnames name h
    show (ascii "LOAD " ++ name).length < 65536
    rw [List.length_append, show (ascii "LOAD ").length = 5 from rfl]
    omega
  | @store name h =>
    have hlength := hnames name h
    rw [length_text_store]
    omega
  | plain hlisted hnone =>
    have hall : ∀ op ∈ Opcode.listed, op.name.length < 65536 := by decide
    rw [text_eq_joinWith, words_plain hnone, Text.joinWith, List.intercalate_singleton]
    exact hall _ hlisted

theorem readsBack_of_compile {program : List Statement} {code : List Instruction}
    (hscanned : ∀ st ∈ program, st.IsScanned) (h : compile program = .ok code) :
    ∀ i ∈ code, i.ReadsBack := by
  obtain ⟨c, hc, hwrote, rfl⟩ := wrote_of_compile h
  have hnames : ∀ name ∈ assignedNames program, TokenKind.isName name = true :=
    Compiler.forall_assignedNames
      (fun st hst t ht hname =>
        TokenKind.isName_of_ofWord (((hscanned st hst).kind_of_mem ht).symm.trans hname)) hc
  exact fun i hi => (hwrote.code i hi).readsBack hnames

/-- The listing of a compiled program with a line that is not short enough is refused. Let
the program be compiled from statements scanned from less than 2³² bytes each. Then its
lines are short enough exactly if the names that it assigns are; if they are, the listing
reads back as the program, and otherwise it is refused because of the long line. -/
theorem compiled_listing_reads_back {program : List Statement} {code : List Instruction}
    (h : compile program = .ok code) :
    (¬ HasShortLines (listing code) → ∃ e, readListing (listing code) = .error e) ∧
    ((∀ st ∈ program, st.IsScanned) →
      (HasShortLines (listing code) ↔ ∀ name ∈ assignedNames program, name.length ≤ 65529) ∧
      (HasShortLines (listing code) → readListing (listing code) = .ok code) ∧
      (¬ HasShortLines (listing code) → readListing (listing code) = .error .lineTooLong)) := by
  refine ⟨readListing_of_long, fun hscanned => ?_⟩
  have hback := readsBack_of_compile hscanned h
  obtain ⟨c, -, hwrote, rfl⟩ := wrote_of_compile h
  rw [hasShortLines_listing hback, readListing, lines_listing fun i hi => (hback i hi).oneLine]
  refine ⟨⟨?_, ?_⟩, ?_, ?_⟩
  · intro hshort name hname
    -- every assigned name stands behind its `STORE` on some line
    have hline := hshort _ (hwrote.stored name hname)
    rw [Instruction.length_text_store, longLine] at hline
    omega
  · intro hnames i hi
    exact (hwrote.code i hi).length_text hnames
  · intro hshort
    rw [readLinesOnto_of_short hback hshort]
    simp [Except.map]
  · intro hlong
    have hlong' : ∃ i ∈ c.program.toList, longLine ≤ i.text.length := by
      simpa using hlong
    rw [readLinesOnto_of_long hback hlong']
    rfl

/-- A program with a name spelled like an opcode and the least integer. -/
def opcodeNamed : List Statement :=
  Statement.ofSource (ascii ":= STORE -9223372036854775808\n@ _ STORE\n")

def opcodeNamedCode : List Instruction :=
  [.push Int64.minValue, .store (ascii "STORE"), .load (ascii "STORE"), .plain .neg, .plain .print]

/-- The words of an assignment of 1 to the name of `n + 1` letters `a`. -/
def longNamedWords (n : Nat) : List Text := [ascii ":=", List.replicate (n + 1) 97, ascii "1"]

def longNamed (n : Nat) : Statement := Statement.ofText (Text.joinWith [32] (longNamedWords n))

theorem isName_replicate (n : Nat) : TokenKind.isName (List.replicate (n + 1) 97) = true := by
  show (List.replicate n 97).all TokenKind.isNameByte = true
  rw [List.all_eq_true]
  intro b hb
  rw [List.eq_of_mem_replicate hb]
  decide

theorem spelled_of_all {word : Text} (hne : word ≠ [])
    (hsolid : word.all (fun b => !Scanner.isSpace b) = true)
    (hstart : word[0]? ≠ some Scanner.commentMark) : Scanner.Spelled word [] where
  nonempty := hne
  solid b hb := by simpa using List.all_eq_true.mp hsolid b hb
  uncommented := hstart
  ends := by simp [Scanner.Vacant]

theorem length_longNamed (n : Nat) :
    (Text.joinWith [32] (longNamedWords n)).length = n + 6 := by
  rw [longNamedWords, Text.joinWith_cons_cons, Text.joinWith_pair]
  simp [ascii]

theorem tokens_longNamed {n : Nat} (h : n + 6 < UInt32.size) :
    (longNamed n).tokens = (Scanner.laidOut 0 1 (longNamedWords n)).map Word.token := by
  have hspelled : ∀ word ∈ longNamedWords n, Scanner.Spelled word [] := by
    simp only [longNamedWords, List.forall_mem_cons]
    refine ⟨?_, ?_, ?_, by simp⟩
    · exact spelled_of_all (by decide) (by decide) (by decide)
    · refine spelled_of_all (List.cons_ne_nil _ _) ?_ (by simp [Scanner.commentMark])
      rw [List.all_replicate, if_neg (Nat.succ_ne_zero n)]
      decide
    · exact spelled_of_all (by decide) (by decide) (by decide)
  show tokenize _ = _
  rw [Scanner.tokenize_of_short (by rw [length_longNamed]; exact h)]
  exact congrArg _ (Scanner.wordsFrom_joinWith hspelled 0 1)

theorem compile_longNamed {n : Nat} (h : n + 6 < UInt32.size) :
    compile [longNamed n] = .ok [.push 1, .store (List.replicate (n + 1) 97)] := by
  have hkeyword : TokenKind.ofWord (ascii ":=") = .assign := by decide
  have hname := TokenKind.ofWord_of_isName (isName_replicate n)
  have hone : TokenKind.ofWord (ascii "1") = .number := by decide
  have hread : Literal.read (ascii "1") = .ok 1 := rfl
  simp [compile, Compiler.extendAll, Compiler.extend, tokens_longNamed h, longNamedWords,
    Scanner.laidOut, Compiler.compileCommand, Word.token, Word.lexeme, hkeyword, hname, hone, hread,
    Compiler.compileWholeExpr, Compiler.compileExpr, Compiler.commit, Compiler.assign]

theorem assignedNames_longNamed {n : Nat} (h : n + 6 < UInt32.size) :
    assignedNames [longNamed n] = [List.replicate (n + 1) 97] := by
  have hkeyword : TokenKind.ofWord (ascii ":=") = .assign := by decide
  simp [assignedNames, Statement.assigned?, tokens_longNamed h, longNamedWords, Scanner.laidOut,
    Word.token, Word.lexeme, hkeyword]

/-- A name like an opcode and the least integer are read back, and a name one byte
too long is refused. -/
theorem compiled_listing_reads_back_at_limits :
    ((∀ st ∈ opcodeNamed, st.IsScanned) ∧ compile opcodeNamed = .ok opcodeNamedCode ∧
      readListing (listing opcodeNamedCode) = .ok opcodeNamedCode) ∧
    ((longNamed 65529).IsScanned ∧
      compile [longNamed 65529] = .ok [.push 1, .store (List.replicate 65530 97)] ∧
      readListing (listing [.push 1, .store (List.replicate 65530 97)]) = .error .lineTooLong) := by
  have hshort : compile opcodeNamed = .ok opcodeNamedCode := by decide +kernel
  have hnames : assignedNames opcodeNamed = [ascii "STORE"] := by decide +kernel
  have hscanned : ∀ st ∈ opcodeNamed, st.IsScanned := fun st hst => .ofSource (by decide) hst
  have hlimit : 65529 + 6 < UInt32.size := by decide
  have hlong := compile_longNamed hlimit
  have hlongScanned : (longNamed 65529).IsScanned :=
    .ofText (by rw [length_longNamed]; exact hlimit) rfl
  refine ⟨⟨hscanned, hshort, ?_⟩, hlongScanned, hlong, ?_⟩
  · have hback := (compiled_listing_reads_back hshort).2 hscanned
    apply hback.2.1
    rw [hback.1, hnames]
    decide
  · have hback := (compiled_listing_reads_back hlong).2 (List.forall_mem_singleton.mpr hlongScanned)
    apply hback.2.2
    rw [hback.1, assignedNames_longNamed hlimit]
    intro hlength
    have hname := hlength _ (List.mem_singleton.mpr rfl)
    rw [List.length_replicate] at hname
    omega

/-- A long comment with a space before a `y`, and behind the first 2³² bytes an assignment
to a name of two letters, whose place is that of the space and the `y`. -/
def farName : Runs :=
  Runs.ofText (ascii ";;; y 1") ++ { byte := 59, count := 4294967288 } ::
    Runs.ofText (ascii "\n:= ab 1")

/-- The listing of what it compiles to is read as another program, though its lines are
short. -/
theorem listing_farName_reads_differently :
    compile (Statement.ofSource farName.text) = .ok [.push 1, .store (ascii " y")] ∧
    HasShortLines (listing [.push 1, .store (ascii " y")]) ∧
    readListing (listing [.push 1, .store (ascii " y")]) = .ok [.push 1, .store (ascii "y")] := by
  refine ⟨?_, ?_, ?_⟩
  · rw [Runs.ofSource_text]
    decide +kernel
  · decide +kernel
  · decide +kernel

end Polish
