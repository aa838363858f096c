import Mathlib.Data.List.SplitBy
import Polish.Proofs.Text
import Polish.Proofs.Tiling
import Polish.Statement

/-
  Lines — a source split whole and split line by line

  The statements of a source are runs of tokens on one line, found by one scanner
  that counts the lines as it goes. The statements of a list of lines are found by a
  new scanner for each line, and numbered by its place in the list. Only the offsets
  of the tokens differ: a line inside a source is scanned like the line alone, and a
  run of tokens ends with its line.

  What is proved:
    1. `wording_of_line` — a line inside a source gives the statement that it gives
       alone, or none.
    2. `wording_of_joined` — so do lines with newlines between them.
    3. `ofSource_agrees_with_ofLines` — both ways to split a source give as many
       statements, with the same lines, kinds, words and texts.
    4. `IsScanned.exists_words`, `IsScanned.kind_of_mem`, `IsScanned.text_ne_nil` — the
       tokens of a statement that was scanned are words of a source: the kind of each is
       that of its text, and none of them is empty.
    5. `IsScanned.hasFlatNames`, `hasFlatNames_of_line` — there is no newline in a name
       that was scanned from less than 2³² bytes, or from a single line.
-/

namespace Polish

namespace Statement

open Scanner

/-- The line of a statement and its tokens, without their places. -/
def wording (st : Statement) : Int × List (TokenKind × Text) :=
  (st.line, st.tokens.map Token.reading)

def sameLine (a b : Token) : Bool := a.line == b.line

/-- The statement of a text with a line number, if it holds a token. -/
def ofNumbered? (source : Text × Nat) : Option Statement :=
  if (tokenize source.1).isEmpty then none else some ⟨source.2, tokenize source.1⟩

theorem ofTokens_of_line {tokens : List Token} {line : UInt32} (h : ∀ t ∈ tokens, t.line = line) :
    ofTokens tokens = if tokens.isEmpty then [] else [⟨line.toNat, tokens⟩] := by
  cases tokens with
  | nil => rfl
  | cons t rest =>
    have hchain : (t :: rest).IsChain fun a b => sameLine a b = true := by
      apply List.Pairwise.isChain
      apply List.pairwise_of_forall_mem_list
      intro a ha b hb
      rw [sameLine, h a ha, h b hb, beq_self_eq_true]
    show ((t :: rest).splitBy sameLine).filterMap ofRun? = _
    rw [List.splitBy_of_isChain (List.cons_ne_nil _ _) hchain]
    simp [ofRun?, h t List.mem_cons_self]

/-- A line inside a source gives the statement that it gives alone. -/
theorem wording_of_line {piece : Text} (hline : Text.newline ∉ piece) {line : Nat}
    (hfits : line + piece.length ≤ UInt32.size) (hpos : 0 < line) (offset : Nat) :
    (ofTokens ((wordsFrom offset line piece).map Word.token)).map wording =
      (ofNumbered? (piece, line)).toList.map wording := by
  have htexts : (wordsFrom offset line piece).map Word.text = (words piece).map Word.text :=
    texts_wordsFrom piece offset 0 line 1
  have hreadings : ((wordsFrom offset line piece).map Word.token).map Token.reading =
      (tokenize piece).map Token.reading := by
    rw [tokenize_of_short (by omega), List.map_map, List.map_map]
    have := congrArg (List.map fun word => (TokenKind.ofWord word, word)) htexts
    rwa [List.map_map, List.map_map] at this
  have hempty : ((wordsFrom offset line piece).map Word.token).isEmpty =
      (tokenize piece).isEmpty := by
    rw [← List.isEmpty_map (f := Token.reading), hreadings, List.isEmpty_map]
  have htokens : ∀ t ∈ (wordsFrom offset line piece).map Word.token, t.line = .ofNat line := by
    intro t ht
    obtain ⟨w, hw, rfl⟩ := List.mem_map.mp ht
    exact congrArg UInt32.ofNat (line_of_mem hline hw)
  rw [ofTokens_of_line htokens, ofNumbered?, hempty]
  split
  · rfl
  · next hsome =>
    have hlength : piece.length ≠ 0 := by
      intro hzero
      rw [List.length_eq_zero_iff.mp hzero] at hsome
      exact hsome (by decide +kernel)
    have hexact : (UInt32.ofNat line).toNat = line :=
      UInt32.toNat_ofNat_of_lt' (by omega)
    simp only [List.map_cons, List.map_nil, Option.toList_some, wording, hreadings, hexact]

theorem wording_of_joined {pieces : List Text} (hlines : ∀ piece ∈ pieces, Text.newline ∉ piece)
    {line : Nat} (hfits : line + (Text.joinWith [Text.newline] pieces).length ≤ UInt32.size)
    (hpos : 0 < line) (offset : Nat) :
    (ofTokens ((wordsFrom offset line (Text.joinWith [Text.newline] pieces)).map
        Word.token)).map wording =
      ((pieces.zipIdx line).filterMap ofNumbered?).map wording := by
  induction pieces generalizing offset line with
  | nil => rw [show Text.joinWith [Text.newline] [] = [] from rfl, wordsFrom_nil]; rfl
  | cons piece rest ih =>
    obtain ⟨hpiece, hrest⟩ := List.forall_mem_cons.mp hlines
    have hzip : ((piece :: rest).zipIdx line).filterMap ofNumbered? =
        (ofNumbered? (piece, line)).toList ++ (rest.zipIdx (line + 1)).filterMap ofNumbered? := by
      rw [List.zipIdx_cons, List.filterMap_cons]
      cases ofNumbered? (piece, line) <;> rfl
    cases rest with
    | nil =>
      rw [Text.joinWith, List.intercalate_singleton] at hfits ⊢
      rw [hzip, List.map_append, ← wording_of_line hpiece hfits hpos offset]
      exact (List.append_nil _).symm
    | cons second more =>
      rw [Text.joinWith_cons_cons, List.length_append, List.length_cons] at hfits
      have hone := wording_of_line hpiece (by omega) hpos offset
      rw [Text.joinWith_cons_cons, wordsFrom_append_newline hpiece, List.map_append, ofTokens,
        List.splitBy_append]
      · rw [List.filterMap_append, List.map_append, hzip, List.map_append, ← hone,
          ← ih hrest (by omega) (by omega)]
        rfl
      · -- the next line's tokens do not stand on this line
        intro a ha b hb
        obtain ⟨w, hw, rfl⟩ := List.mem_map.mp (List.mem_of_getLast? ha)
        obtain ⟨w', hw', rfl⟩ := List.mem_map.mp (List.mem_of_head? hb)
        have hline := line_of_mem hpiece hw
        have hnext := le_line_of_mem hw'
        have hlast := line_lt_of_mem hw'
        rw [beq_eq_false_iff_ne, Ne, ← UInt32.toNat_inj]
        simp only [Word.token, Word.lexeme, UInt32.toNat_ofNat']
        simp only [UInt32.size] at hfits
        omega

theorem wording_ofSource {source : Text} (short : source.length < UInt32.size) :
    (ofSource source).map wording =
      (ofLines (source.splitOn Text.newline)).map wording := by
  have hjoin : Text.joinWith [Text.newline] (source.splitOn Text.newline) = source := by
    rw [Text.joinWith, List.intercalate_splitOn]
  have hjoined := wording_of_joined
    (fun _ (hpiece : _ ∈ source.splitOn Text.newline) => Text.not_mem_of_mem_splitOn hpiece)
    (show 1 + _ ≤ UInt32.size by rw [hjoin]; omega) (by decide) 0
  rw [hjoin] at hjoined
  rw [ofSource, tokenize_of_short short]
  exact hjoined

/-- Splitting a whole source, shorter than 2³² bytes, and splitting the pieces between its
newlines one by one give equally many statements, and those at the same place have the
same line, the same kinds of tokens, the same words and the same text. -/
theorem ofSource_agrees_with_ofLines {source : Text} (short : source.length < UInt32.size) :
    let whole := ofSource source
    let pieces := ofLines (source.splitOn Text.newline)
    whole.length = pieces.length ∧
    whole.map Statement.line = pieces.map Statement.line ∧
    (whole.map fun st => st.tokens.map fun t => t.kind) =
      (pieces.map fun st => st.tokens.map fun t => t.kind) ∧
    (whole.map fun st => st.tokens.map Token.text) =
      (pieces.map fun st => st.tokens.map Token.text) ∧
    whole.map Statement.text = pieces.map Statement.text := by
  intro whole pieces
  have h : whole.map wording = pieces.map wording := wording_ofSource short
  -- all that is compared is a function of the line and the readings of the tokens
  have hall : ∀ {β : Type} (f : Int × List (TokenKind × Text) → β),
      (whole.map fun st => f st.wording) = pieces.map fun st => f st.wording := by
    intro β f
    have := congrArg (List.map f) h
    rwa [List.map_map, List.map_map] at this
  have hkinds := hall fun w => w.2.map Prod.fst
  have htexts := hall fun w => w.2.map Prod.snd
  have htext := hall fun w => Text.joinWith [32] (w.2.map Prod.snd)
  simp only [wording, List.map_map] at hkinds htexts htext
  refine ⟨?_, hall Prod.fst, hkinds, htexts, htext⟩
  have := congrArg List.length h
  rwa [List.length_map, List.length_map] at this

/-- A comment, a line of blanks only, and carriage returns before newlines. -/
def mixedLines : Text := ascii ":= x 1 ; one\r\n \t\r\n;@ x\n@ - x\r 2"

/-- The statements stand on lines one and four in either case. In the whole source the
second one has its tokens behind the first line, alone it starts at zero. -/
theorem ofSource_agrees_with_ofLines_mixed :
    mixedLines.length < UInt32.size ∧
    ofSource mixedLines =
      [⟨1, [⟨ascii ":=", 0, 1⟩, ⟨ascii "x", 3, 1⟩, ⟨ascii "1", 5, 1⟩].map Word.token⟩,
        ⟨4, [⟨ascii "@", 23, 4⟩, ⟨ascii "-", 25, 4⟩, ⟨ascii "x", 27, 4⟩,
          ⟨ascii "2", 30, 4⟩].map Word.token⟩] ∧
    ofLines (mixedLines.splitOn Text.newline) =
      [⟨1, [⟨ascii ":=", 0, 1⟩, ⟨ascii "x", 3, 1⟩, ⟨ascii "1", 5, 1⟩].map Word.token⟩,
        ⟨4, [⟨ascii "@", 0, 1⟩, ⟨ascii "-", 2, 1⟩, ⟨ascii "x", 4, 1⟩,
          ⟨ascii "2", 7, 1⟩].map Word.token⟩] ∧
    (ofSource mixedLines).map Statement.text =
      (ofLines (mixedLines.splitOn Text.newline)).map Statement.text := by
  have short : mixedLines.length < UInt32.size := by decide
  exact ⟨short, by decide +kernel, by decide +kernel, (ofSource_agrees_with_ofLines short).2.2.2.2⟩

/-! ## The words of a statement -/

/-- The statement was scanned, from less than 2³² bytes: from a text of its own, whatever
line it was given then, as part of a source, or as one of a list of lines. -/
inductive IsScanned (st : Statement) : Prop
  | ofText {source : Text} (short : source.length < UInt32.size)
      (tokens : st.tokens = (ofText source).tokens)
  | ofSource {source : Text} (short : source.length < UInt32.size) (mem : st ∈ ofSource source)
  | ofLines {lines : List Text} (short : ∀ line ∈ lines, line.length < UInt32.size)
      (mem : st ∈ ofLines lines)

theorem exists_of_mem_ofLines {st : Statement} {lines : List Text} (h : st ∈ ofLines lines) :
    ∃ line ∈ lines, st.tokens = tokenize line := by
  obtain ⟨⟨line, number⟩, hline, hst⟩ := List.mem_filterMap.mp h
  refine ⟨line, List.fst_mem_of_mem_zipIdx hline, ?_⟩
  dsimp only at hst
  split at hst
  · cases hst
  · cases hst
    rfl

/-- The tokens of a statement that was scanned are words of a source. -/
theorem IsScanned.exists_words {st : Statement} (h : st.IsScanned) :
    ∃ (source : Text) (ws : List Word), source.length < UInt32.size ∧ ws.Sublist (words source) ∧
      st.tokens = ws.map Word.token := by
  cases h with
  | @ofText source short tokens =>
    refine ⟨source, words source, short, .refl _, ?_⟩
    rw [tokens, Statement.ofText, tokenize_of_short short]
  | @ofSource source short mem =>
    obtain ⟨run, hrun, hst⟩ := List.mem_filterMap.mp mem
    obtain ⟨first, -, rfl⟩ := Option.map_eq_some_iff.mp hst
    have hsub := List.sublist_flatten_of_mem hrun
    rw [List.flatten_splitBy, tokenize_of_short short] at hsub
    obtain ⟨ws, hws, rfl⟩ := List.sublist_map_iff.mp hsub
    exact ⟨source, ws, short, hws, rfl⟩
  | @ofLines lines short mem =>
    obtain ⟨source, hsource, htokens⟩ := exists_of_mem_ofLines mem
    refine ⟨source, words source, short source hsource, .refl _, ?_⟩
    rw [htokens, tokenize_of_short (short source hsource)]

theorem IsScanned.kind_of_mem {st : Statement} (h : st.IsScanned) {t : Token}
    (ht : t ∈ st.tokens) : t.kind = .ofWord t.text := by
  obtain ⟨source, ws, -, -, htokens⟩ := h.exists_words
  rw [htokens] at ht
  obtain ⟨w, -, rfl⟩ := List.mem_map.mp ht
  rfl

theorem IsScanned.text_ne_nil {st : Statement} (h : st.IsScanned) {t : Token}
    (ht : t ∈ st.tokens) : t.text ≠ [] := by
  obtain ⟨source, ws, -, hws, htokens⟩ := h.exists_words
  rw [htokens] at ht
  obtain ⟨w, hw, rfl⟩ := List.mem_map.mp ht
  exact text_ne_nil_of_mem (hws.subset hw)

/-- No name among the tokens has a newline in it. -/
def HasFlatNames (st : Statement) : Prop :=
  ∀ t ∈ st.tokens, t.kind = .name → Text.newline ∉ t.text

theorem IsScanned.hasFlatNames {st : Statement} (h : st.IsScanned) : st.HasFlatNames := by
  intro t ht hname hmem
  have hword := TokenKind.isName_of_ofWord ((h.kind_of_mem ht).symm.trans hname)
  exact absurd (TokenKind.isNameByte_of_mem hword hmem) (by decide)

/-- A line however long has its own bytes in its names. -/
theorem hasFlatNames_of_line {st : Statement} {line : Text} (htokens : st.tokens = tokenize line)
    (h : Text.newline ∉ line) : st.HasFlatNames := by
  intro t ht _ hmem
  rw [htokens] at ht
  exact h (mem_of_mem_tokenize ht hmem)

end Statement

end Polish
