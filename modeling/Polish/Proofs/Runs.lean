import Polish.Expr.Parser
import Polish.Proofs.Scanner
import Polish.Token.Runs

/-
  Runs — scanning a long source run by run

  The tokens that are found run by run are those of the text that the runs stand for.
  So a source of 2³² bytes and more can be scanned, and what a statement behind its
  first 2³² bytes is taken for can be shown: places there are cut to 32 bits, and the
  text of a token is whatever stands at the start of the source.

  What is proved:
    1. `text_take`, `text_drop`, `slice_eq` — parts of a text, from its runs.
    2. `Cursor.skip_scanner`, `Cursor.nextWord_scanner` — one step of the scanner.
    3. `tokenize_text` — the tokens of a source.
    4. `farStatement_mem`, `parse_farStatement` — a number behind the first 2³² bytes.
-/

namespace Polish.Runs

theorem text_cons (run : Run) (rest : Runs) :
    text (run :: rest) = List.replicate run.count run.byte ++ text rest := rfl

theorem length_text (runs : Runs) : runs.text.length = runs.size := by
  induction runs with
  | nil => rfl
  | cons run rest ih => rw [text_cons, List.length_append, List.length_replicate, ih]; rfl

/-! ## Parts of a text -/

theorem text_take (k : Nat) (runs : Runs) : (runs.take k).text = runs.text.take k := by
  fun_induction take k runs with
  | case1 runs => rw [List.take_zero]; rfl
  | case2 k => rfl
  | case3 k run rest h =>
    have hlength : k + 1 ≤ (List.replicate run.count run.byte).length := by
      rw [List.length_replicate]
      omega
    rw [text_cons, text_cons, List.take_append_of_le_length hlength, List.take_replicate,
      Nat.min_eq_left h]
    exact List.append_nil _
  | case4 k run rest h ih =>
    rw [text_cons, text_cons, ih, List.take_append, List.length_replicate, List.take_replicate,
      Nat.min_eq_right (by omega)]

theorem text_drop (k : Nat) (runs : Runs) : (runs.drop k).text = runs.text.drop k := by
  fun_induction drop k runs with
  | case1 k => rw [show text [] = [] from rfl, List.drop_nil]
  | case2 k run rest h =>
    have hlength : k ≤ (List.replicate run.count run.byte).length := by
      rw [List.length_replicate]
      omega
    rw [text_cons, text_cons, List.drop_append_of_le_length hlength, List.drop_replicate]
  | case3 k run rest h ih =>
    rw [text_cons, ih, List.drop_append, List.length_replicate, List.drop_replicate,
      Nat.sub_eq_zero_of_le (Nat.not_lt.mp h), List.replicate_zero, List.nil_append]

theorem slice_eq (source : Runs) (l : Lexeme) : source.slice l = l.slice source.text.toArray := by
  rw [slice, text_drop, text_take, Lexeme.slice, Array.toList_extract, List.extract_eq_take_drop,
    List.drop_take]

section Span

variable (p : UInt8 → Bool)

theorem text_takeWhile (runs : Runs) :
    text (runs.takeWhile fun run => p run.byte) = runs.text.takeWhile p := by
  induction runs with
  | nil => rfl
  | cons run rest ih =>
    rw [text_cons, List.takeWhile_append, List.takeWhile_replicate, List.takeWhile_cons]
    have hpos := run.pos
    cases hp : p run.byte with
    | true => simp [text_cons, ih]
    | false => simp [text, Nat.ne_of_lt hpos]

theorem text_dropWhile (runs : Runs) :
    text (runs.dropWhile fun run => p run.byte) = runs.text.dropWhile p := by
  induction runs with
  | nil => rfl
  | cons run rest ih =>
    rw [text_cons, List.dropWhile_append, List.dropWhile_replicate, List.dropWhile_cons]
    have hpos := run.pos
    cases hp : p run.byte with
    | true => simp [ih]
    | false => simp [text_cons, Nat.ne_of_gt hpos]

end Span

/-! ## Scanning -/

section Skip

variable {inComment : Bool} {b : UInt8} (offset line : Nat) (t : Text)

theorem skipFrom_newlines {n : Nat} (h : 0 < n) :
    Scanner.skipFrom inComment offset line (List.replicate n Text.newline ++ t) =
      Scanner.skipFrom false (offset + n) (line + n) t := by
  induction n generalizing inComment offset line with
  | zero => cases h
  | succ n ih =>
    rw [List.replicate_succ, List.cons_append, Scanner.skipFrom, if_pos rfl]
    cases n with
    | zero => rfl
    | succ n => rw [ih _ _ (Nat.succ_pos n), Nat.add_assoc, Nat.add_assoc, Nat.add_comm 1]

theorem skipFrom_passed (hline : b ≠ Text.newline)
    (hpassed : (inComment || Scanner.isSpace b) = true) (n : Nat) :
    Scanner.skipFrom inComment offset line (List.replicate n b ++ t) =
      Scanner.skipFrom inComment (offset + n) line t := by
  induction n generalizing offset with
  | zero => rfl
  | succ n ih =>
    rw [List.replicate_succ, List.cons_append, Scanner.skipFrom, if_neg hline, if_pos hpassed, ih,
      Nat.add_assoc, Nat.add_comm 1]

end Skip

namespace Cursor

def scanner (c : Cursor) : Scanner := ⟨c.rest.text, c.offset, c.line⟩

theorem skip_scanner (inComment : Bool) (offset line : Nat) (runs : Runs) :
    Scanner.skipFrom inComment offset line runs.text =
      (skipFrom inComment offset line runs).scanner := by
  fun_induction skipFrom inComment offset line runs with
  | case1 => rfl
  | case2 inComment offset line run rest hline ih =>
    rw [text_cons, hline, skipFrom_newlines _ _ _ run.pos, ih]
  | case3 inComment offset line run rest hline hpassed ih =>
    rw [text_cons, skipFrom_passed _ _ _ hline hpassed, ih]
  | case4 inComment offset line run rest hline hpassed hmark ih =>
    -- the first byte of the run opens the comment, and the others are in it
    obtain ⟨n, hn⟩ := Nat.exists_eq_succ_of_ne_zero (Nat.ne_of_gt run.pos)
    have hoffset : offset + 1 + n = offset + run.count := by omega
    rw [text_cons, hn, List.replicate_succ, List.cons_append, Scanner.skipFrom, if_neg hline,
      if_neg hpassed, if_pos hmark, skipFrom_passed _ _ _ hline rfl, hoffset, ih, hn]
  | case5 inComment offset line run rest hline hpassed hmark =>
    obtain ⟨n, hn⟩ := Nat.exists_eq_succ_of_ne_zero (Nat.ne_of_gt run.pos)
    rw [scanner, text_cons, hn, List.replicate_succ, List.cons_append, Scanner.skipFrom,
      if_neg hline, if_neg hpassed, if_neg hmark]

theorem nextWord_scanner (c : Cursor) :
    c.scanner.nextWord = (c.nextWord.1, c.nextWord.2.scanner) := by
  have hskip : c.scanner.skip = (skipFrom false c.offset c.line c.rest).scanner := skip_scanner ..
  have hword := text_takeWhile (!Scanner.isSpace ·) (skipFrom false c.offset c.line c.rest).rest
  have hrest := text_dropWhile (!Scanner.isSpace ·) (skipFrom false c.offset c.line c.rest).rest
  simp only [Scanner.nextWord, nextWord, hskip, ← length_text, hword]
  simp only [scanner, hrest]

theorem words_scanner (c : Cursor) : c.scanner.drain.1 = c.words := by
  fun_induction words c with
  | case1 c word after hnext hend =>
    rw [Scanner.drain_eq, nextWord_scanner, hnext, if_pos hend]
  | case2 c word after hnext hword ih =>
    rw [Scanner.drain_eq, nextWord_scanner, hnext, if_neg hword, ih]

end Cursor

theorem words_text (source : Runs) : Polish.words source.text = (Cursor.mk source 0 1).words :=
  Cursor.words_scanner ⟨source, 0, 1⟩

/-- The tokens that are found run by run are those of the text. -/
theorem tokenize_text (source : Runs) : Polish.tokenize source.text = source.tokenize := by
  rw [Polish.tokenize, tokenize, words_text]
  exact List.map_congr_left fun word _ => by rw [slice_eq]

theorem ofSource_text (source : Runs) :
    Statement.ofSource source.text = Statement.ofTokens source.tokenize := by
  rw [Statement.ofSource, tokenize_text]

/-! ## Behind the first 2³² bytes -/

/-- A print of `x` with a long comment, and behind the first 2³² bytes a print of `7`. -/
def farNumber : Runs :=
  ofText (ascii "@ x ") ++ { byte := 59, count := 4294967291 } :: ofText (ascii "\n@ 7")

def farWords : List Word := [⟨ascii "@", 4294967296, 2⟩, ⟨ascii "7", 4294967298, 2⟩]

/-- The statement of the second line. The place of the number is that of the name. -/
def farStatement : Statement where
  line := 2
  tokens := [⟨⟨.print, 0, 1, 2⟩, ascii "@"⟩, ⟨⟨.number, 2, 1, 2⟩, ascii "x"⟩]

theorem farWords_suffix : farWords <:+ Polish.words farNumber.text := by
  have hwords : Polish.words farNumber.text =
      [⟨ascii "@", 0, 1⟩, ⟨ascii "x", 2, 1⟩] ++ farWords := by
    rw [words_text]
    decide +kernel
  rw [hwords]
  exact List.suffix_append ..

theorem farStatement_mem : farStatement ∈ Statement.ofSource farNumber.text := by
  have hsource : Statement.ofSource farNumber.text =
      [⟨1, [Word.token ⟨ascii "@", 0, 1⟩, Word.token ⟨ascii "x", 2, 1⟩]⟩, farStatement] := by
    rw [ofSource_text]
    decide +kernel
  rw [hsource]
  exact List.mem_cons_of_mem _ List.mem_cons_self

/-- It does not parse, since a name is no integer. -/
theorem parse_farStatement :
    farStatement.parse =
      .error (farStatement.diagnostic .illegalValue (some ⟨⟨.number, 2, 1, 2⟩, ascii "x"⟩)
        (ascii "malformed integer")) := by
  have hvalue : parseExpr [⟨⟨.number, 2, 1, 2⟩, ascii "x"⟩] =
      .error (.malformedNumber ⟨⟨.number, 2, 1, 2⟩, ascii "x"⟩) := by
    rw [parseExpr]
    rfl
  show ((parseWholeExpr _).map _).mapError _ = _
  rw [parseWholeExpr, hvalue]
  rfl

end Polish.Runs
