import Polish.Proofs.Lines
import Polish.Proofs.Relocation
import Polish.Proofs.Tiling

/-
  Rescanning — the text of a statement gives the statement back

  The text of a statement is its words with single spaces between them. A word that was
  scanned has no blank in it and does not start a comment, wherever it stands, so
  scanning the text finds the same words. They stand where the text puts them, all
  on one line; comments, other blanks and the places in the source are gone.

  What is proved:
    1. `spelled_of_mem` — a word that was scanned is one before any blank.
    2. `wordsFrom_joinWith` — the words of words with spaces between them.
    3. `length_joinWith_le`, `IsScanned.length_text_lt` — the text of a statement is not
       longer than its source.
    4. `rescanned_statement_agrees` — a statement scanned again has the same words, and
       parses and compiles alike.
-/

namespace Polish

namespace Scanner

/-! ## Words between single spaces -/

theorem spelled_of_mem {t : Text} {offset line : Nat} {w : Word}
    (h : w ∈ wordsFrom offset line t) : Spelled w.text [] := by
  induction t using piece_induction generalizing offset line with
  | nil => rw [wordsFrom_nil] at h; cases h
  | skipped piece rest hpiece ih =>
    rw [hpiece.wordsFrom_append] at h
    exact ih h
  | spelled word rest hpiece ih =>
    rw [hpiece.wordsFrom_append] at h
    rcases List.mem_cons.mp h with rfl | h
    · exact ⟨hpiece.nonempty, hpiece.solid, hpiece.uncommented, by simp [Vacant]⟩
    · exact ih h

theorem Spelled.before_space {word : Text} (h : Spelled word []) (rest : Text) :
    Spelled word (32 :: rest) :=
  ⟨h.nonempty, h.solid, h.uncommented, by simp [Vacant, blanks]⟩

/-- Words that stand on one line with a space between each and the next. -/
def laidOut (offset line : Nat) : List Text → List Word
  | [] => []
  | word :: rest => ⟨word, offset, line⟩ :: laidOut (offset + word.length + 1) line rest

theorem wordsFrom_joinWith {texts : List Text} (h : ∀ word ∈ texts, Spelled word [])
    (offset line : Nat) :
    wordsFrom offset line (Text.joinWith [32] texts) = laidOut offset line texts := by
  induction texts generalizing offset with
  | nil => exact wordsFrom_nil offset line
  | cons word rest ih =>
    obtain ⟨hword, hrest⟩ := List.forall_mem_cons.mp h
    cases rest with
    | nil =>
      have hone := hword.wordsFrom_append offset line
      rw [List.append_nil, wordsFrom_nil] at hone
      rw [Text.joinWith, List.intercalate_singleton, hone]
      rfl
    | cons second rest =>
      rw [Text.joinWith_cons_cons, (hword.before_space _).wordsFrom_append,
        wordsFrom_space (by decide) (by decide), ih hrest]
      rfl

theorem map_text_laidOut (offset line : Nat) (texts : List Text) :
    (laidOut offset line texts).map Word.text = texts := by
  induction texts generalizing offset with
  | nil => rfl
  | cons word rest ih => rw [laidOut, List.map_cons, ih]

theorem getElem?_laidOut (offset line : Nat) (texts : List Text) (k : Nat) :
    (laidOut offset line texts)[k]? = texts[k]?.map fun word =>
      ⟨word, offset + ((texts.take k).flatMap fun before => before ++ [32]).length, line⟩ := by
  induction texts generalizing offset k with
  | nil => rfl
  | cons word rest ih =>
    cases k with
    | zero => rfl
    | succ k =>
      rw [laidOut, List.getElem?_cons_succ, List.getElem?_cons_succ, ih]
      simp only [List.take_succ_cons, List.flatMap_cons, List.length_append, List.length_singleton,
        Nat.add_assoc]

/-- Words that stand one behind the other with something between them are not longer when
they are joined by single spaces. -/
theorem length_joinWith_le {ws : List Word} {start stop : Nat}
    (hpairs : ws.Pairwise fun a b => a.offset + a.length < b.offset)
    (hstart : ∀ w ∈ ws, start ≤ w.offset) (hstop : ∀ w ∈ ws, w.offset + w.length ≤ stop) :
    (Text.joinWith [32] (ws.map Word.text)).length ≤ stop - start := by
  induction ws generalizing start with
  | nil => exact Nat.zero_le _
  | cons w rest ih =>
    obtain ⟨hfirst, hpairs⟩ := List.pairwise_cons.mp hpairs
    obtain ⟨hstart, -⟩ := List.forall_mem_cons.mp hstart
    obtain ⟨hstop, hrest⟩ := List.forall_mem_cons.mp hstop
    have hjoined := ih hpairs hfirst hrest
    simp only [Word.length] at hstop hfirst hjoined
    cases rest with
    | nil =>
      rw [List.map_singleton, Text.joinWith, List.intercalate_singleton]
      omega
    | cons second more =>
      have hsecond := hfirst second List.mem_cons_self
      have hlast := hrest second List.mem_cons_self
      simp only [List.map_cons] at hjoined ⊢
      rw [Text.joinWith_cons_cons, List.length_append, List.length_cons]
      omega

end Scanner

open Scanner

namespace Statement

theorem IsScanned.length_text_lt {st : Statement} (h : st.IsScanned) :
    st.text.length < UInt32.size := by
  obtain ⟨source, ws, short, hws, htokens⟩ := h.exists_words
  have htext : st.text = Text.joinWith [32] (ws.map Word.text) := by
    rw [Statement.text, htokens, List.map_map]
    rfl
  have hle := length_joinWith_le ((pairwise_wordsFrom source 0 1).sublist hws)
    (fun _ _ => Nat.zero_le _) fun w hw => (isWordRun_of_mem (hws.subset hw)).1.run.stop_le
  rw [htext]
  exact Nat.lt_of_le_of_lt hle short

theorem IsScanned.words_text {st : Statement} (h : st.IsScanned) :
    words st.text = laidOut 0 1 (st.tokens.map Token.text) := by
  obtain ⟨source, ws, -, hws, htokens⟩ := h.exists_words
  apply wordsFrom_joinWith
  intro word hword
  rw [htokens, List.map_map] at hword
  obtain ⟨w, hw, rfl⟩ := List.mem_map.mp hword
  exact spelled_of_mem (hws.subset hw)

/-- A statement that was scanned, from a source, from lines or from a text of its own, is
given back by its text: as many tokens, of the same kinds and with the same words, and
the same text again. Each token stands where its word stands in the text, behind the
words before it with one space each. Parsing gives the same tree up to places, and
compiling, whatever was compiled before, the same code and the same compiler after it; or
both give the same diagnostic but for its line. -/
theorem rescanned_statement_agrees {st : Statement} (h : st.IsScanned) :
    let again := ofText st.text
    again.tokens.length = st.tokens.length ∧
    (again.tokens.map fun t => t.kind) = (st.tokens.map fun t => t.kind) ∧
    again.tokens.map Token.text = st.tokens.map Token.text ∧
    again.text = st.text ∧
    (∀ k t, again.tokens[k]? = some t →
      t.offset.toNat = ((st.tokens.take k).flatMap fun before => before.text ++ [32]).length ∧
      (st.text.drop t.offset.toNat).take t.length.toNat = t.text) ∧
    again.parse.map (Command.map Token.text) =
      (st.parse.map (Command.map Token.text)).mapError (fun d => { d with line := 1 }) ∧
    ∀ c : Compiler, c.extend again = (c.extend st).mapError fun d => { d with line := 1 } := by
  intro again
  have htokens : again.tokens = (words st.text).map Word.token :=
    tokenize_of_short h.length_text_lt
  have hwords := h.words_text
  have hreadings : again.tokens.map Token.reading = st.tokens.map Token.reading := by
    have htexts : (words st.text).map Word.text = st.tokens.map Token.text := by
      rw [hwords, map_text_laidOut]
    -- on both sides the kinds are those of the texts
    have hkinds := congrArg (List.map fun word => (TokenKind.ofWord word, word)) htexts
    rw [List.map_map, List.map_map] at hkinds
    rw [htokens, List.map_map]
    refine hkinds.trans (List.map_congr_left fun t ht => ?_)
    exact congrArg (·, t.text) (h.kind_of_mem ht).symm
  have hall : ∀ {β : Type} (f : TokenKind × Text → β),
      (again.tokens.map fun t => f t.reading) = st.tokens.map fun t => f t.reading := by
    intro β f
    have := congrArg (List.map f) hreadings
    rwa [List.map_map, List.map_map] at this
  refine ⟨?_, hall Prod.fst, hall Prod.snd, text_of_readings hreadings, ?_,
    parse_of_readings hreadings, extend_of_readings hreadings⟩
  · have hlength := congrArg List.length hreadings
    rwa [List.length_map, List.length_map] at hlength
  · intro k t ht
    rw [htokens, List.getElem?_map] at ht
    obtain ⟨w, hw, rfl⟩ := Option.map_eq_some_iff.mp ht
    have hmem := List.mem_of_getElem? hw
    obtain ⟨hoffset, hlength, -, -⟩ := lexeme_of_mem h.length_text_lt hmem
    simp only [Word.token, hoffset, hlength]
    refine ⟨?_, ?_⟩
    · rw [hwords, getElem?_laidOut] at hw
      obtain ⟨word, -, rfl⟩ := Option.map_eq_some_iff.mp hw
      simp only [Nat.zero_add, ← List.map_take, List.flatMap_map]
    · have hplace := (isWordRun_of_mem hmem).2.1
      rw [List.drop_take, Nat.add_sub_cancel_left] at hplace
      exact hplace.symm

/-- Two lines behind a comment, with comments of their own, blanks of other kinds, and in
the first a word that ends in `;`. -/
def commentedLines : Text := ascii "; sum\n\t@ +\r  y; 7 ; last\n:=  x_1\t+ 2 _ 7 ;;"

def refusedLine : Statement where
  line := 2
  tokens := [Word.token ⟨ascii "@", 7, 2⟩, Word.token ⟨ascii "+", 9, 2⟩,
    Word.token ⟨ascii "y;", 13, 2⟩, Word.token ⟨ascii "7", 16, 2⟩]

def acceptedLine : Statement where
  line := 3
  tokens := [Word.token ⟨ascii ":=", 25, 3⟩, Word.token ⟨ascii "x_1", 29, 3⟩,
    Word.token ⟨ascii "+", 33, 3⟩, Word.token ⟨ascii "2", 35, 3⟩, Word.token ⟨ascii "_", 37, 3⟩,
    Word.token ⟨ascii "7", 39, 3⟩]

/-- The first line is refused at the same word on both sides; the second one has the same
tree and the same code. -/
theorem rescanned_statement_agrees_commented :
    ofSource commentedLines = [refusedLine, acceptedLine] ∧
    (ofText refusedLine.text).tokens =
      [Word.token ⟨ascii "@", 0, 1⟩, Word.token ⟨ascii "+", 2, 1⟩, Word.token ⟨ascii "y;", 4, 1⟩,
        Word.token ⟨ascii "7", 7, 1⟩] ∧
    (∀ c : Compiler, c.extend (ofText refusedLine.text) =
      (c.extend refusedLine).mapError fun d => { d with line := 1 }) ∧
    (ofText acceptedLine.text).tokens =
      [Word.token ⟨ascii ":=", 0, 1⟩, Word.token ⟨ascii "x_1", 3, 1⟩,
        Word.token ⟨ascii "+", 7, 1⟩, Word.token ⟨ascii "2", 9, 1⟩, Word.token ⟨ascii "_", 11, 1⟩,
        Word.token ⟨ascii "7", 13, 1⟩] ∧
    acceptedLine.parse.map (Command.map Token.text) =
      .ok (.assign (ascii ":=") (ascii "x_1") (ascii "x_1")
        (.binary (ascii "+") .add (.number (ascii "2") 2)
          (.unary (ascii "_") .negate (.number (ascii "7") 7)))) ∧
    (ofText acceptedLine.text).parse.map (Command.map Token.text) =
      acceptedLine.parse.map (Command.map Token.text) ∧
    (({} : Compiler).extend acceptedLine).map Prod.fst =
      .ok [Instruction.push 2, .push 7, .plain .neg, .plain .add, .store (ascii "x_1")] ∧
    ({} : Compiler).extend (ofText acceptedLine.text) = ({} : Compiler).extend acceptedLine := by
  have hsource : ofSource commentedLines = [refusedLine, acceptedLine] := by decide +kernel
  have hscanned : ∀ st ∈ [refusedLine, acceptedLine], st.IsScanned := by
    rw [← hsource]
    exact fun st hst => .ofSource (by decide) hst
  obtain ⟨-, -, -, -, -, -, hrefused⟩ :=
    rescanned_statement_agrees (hscanned refusedLine (by simp))
  obtain ⟨-, -, -, -, -, hparse, hextend⟩ :=
    rescanned_statement_agrees (hscanned acceptedLine (by simp))
  have htree : acceptedLine.parse.map (Command.map Token.text) =
      .ok (.assign (ascii ":=") (ascii "x_1") (ascii "x_1")
        (.binary (ascii "+") .add (.number (ascii "2") 2)
          (.unary (ascii "_") .negate (.number (ascii "7") 7)))) := by decide +kernel
  have hcode : (({} : Compiler).extend acceptedLine).map Prod.fst =
      .ok [Instruction.push 2, .push 7, .plain .neg, .plain .add, .store (ascii "x_1")] := by
    decide +kernel
  refine ⟨hsource, by decide +kernel, hrefused, by decide +kernel, htree, ?_, hcode, ?_⟩
  · rw [hparse, htree]
    rfl
  · rw [hextend]
    cases h : ({} : Compiler).extend acceptedLine with
    | ok added => rfl
    | error d => rw [h] at hcode; cases hcode

end Statement

end Polish
