import Polish.Token.Scanner

/-
  Scanning, piece by piece — the words of a text from its front

  A scanner passes over a text in pieces: a newline, another space, a comment or a
  word. The definitions run byte by byte with a place and an accumulator; here the
  words of a text get one equation for each kind of piece, and an induction that
  takes a text apart the same way. Everything said about places and lines follows
  from these.

  What is proved:
    1. `wordsFrom_nil`, `…_newline`, `…_space`, `…_comment`, `…_word` — the words of
       a text, by the piece that it starts with.
    2. `scan_induction` — the induction over the pieces.
    3. `texts_wordsFrom`, `text_ne_nil_of_mem`, `le_line_of_mem`, `line_of_mem` — the
       words do not depend on the place and are not empty, and the lines of the words
       go up from that of the text at newlines only.
    4. `wordsFrom_append_newline` — a newline cuts the words in two: what follows is
       scanned as if the scanner started there.
-/

namespace Polish.Scanner

/-! ## The words of a text, by its first piece -/

theorem drainOnto_eq (read : Array Word) (s : Scanner) :
    s.drainOnto read =
      if s.nextWord.1.text = [] then (read, s.nextWord.2)
      else s.nextWord.2.drainOnto (read.push s.nextWord.1) := by
  rw [drainOnto]
  split
  next w after hnext =>
    rw [hnext]
    split <;> rfl

theorem length_lt_of_nextWord {s : Scanner} (h : s.nextWord.1.text ≠ []) :
    s.nextWord.2.rest.length < s.rest.length := by
  have hlength := length_nextWord s
  have hword := List.length_pos_iff.mpr h
  omega

theorem toList_drainOnto (read : Array Word) (s : Scanner) :
    (s.drainOnto read).1.toList = read.toList ++ s.drain.1 := by
  by_cases hend : s.nextWord.1.text = []
  · simp [drain, drainOnto_eq, hend]
  · have ih := fun read => toList_drainOnto read s.nextWord.2
    show _ = read.toList ++ (s.drainOnto #[]).1.toList
    rw [drainOnto_eq read, drainOnto_eq #[], if_neg hend, if_neg hend, ih, ih]
    simp
termination_by s.rest.length
decreasing_by exact length_lt_of_nextWord hend

theorem drain_eq (s : Scanner) :
    s.drain.1 = if s.nextWord.1.text = [] then [] else s.nextWord.1 :: s.nextWord.2.drain.1 := by
  show (s.drainOnto #[]).1.toList = _
  rw [drainOnto_eq]
  split
  · rfl
  · rw [toList_drainOnto]
    simp

/-- The words of a text that stands at the given place. -/
def wordsFrom (offset line : Nat) (t : Text) : List Word := (Scanner.mk t offset line).drain.1

theorem wordsFrom_congr {offset offset' line line' : Nat} {t t' : Text}
    (h : skipFrom false offset line t = skipFrom false offset' line' t') :
    wordsFrom offset line t = wordsFrom offset' line' t' := by
  have hnext : (Scanner.mk t offset line).nextWord = (Scanner.mk t' offset' line').nextWord := by
    simp only [nextWord, skip, h]
  rw [wordsFrom, wordsFrom, drain_eq ⟨t, offset, line⟩, drain_eq ⟨t', offset', line'⟩, hnext]

theorem wordsFrom_nil (offset line : Nat) : wordsFrom offset line [] = [] := by
  rw [wordsFrom, drain_eq]
  rfl

theorem wordsFrom_newline (offset line : Nat) (rest : Text) :
    wordsFrom offset line (Text.newline :: rest) = wordsFrom (offset + 1) (line + 1) rest :=
  wordsFrom_congr (by rw [skipFrom, if_pos rfl])

theorem wordsFrom_space {b : UInt8} (hb : isSpace b = true) (hne : b ≠ Text.newline)
    (offset line : Nat) (rest : Text) :
    wordsFrom offset line (b :: rest) = wordsFrom (offset + 1) line rest :=
  wordsFrom_congr (by rw [skipFrom, if_neg hne, hb, Bool.or_true, if_pos rfl])

theorem skipFrom_comment (offset line : Nat) (t : Text) :
    skipFrom true offset line t =
      skipFrom false (offset + (t.takeWhile (· != Text.newline)).length) line
        (t.dropWhile (· != Text.newline)) := by
  induction t generalizing offset with
  | nil => rfl
  | cons b rest ih =>
    by_cases hb : b = Text.newline
    · simp [skipFrom, hb]
    · rw [skipFrom, if_neg hb, Bool.true_or, if_pos rfl, ih]
      simp [hb, Nat.add_assoc, Nat.add_comm 1]

theorem wordsFrom_comment (offset line : Nat) (rest : Text) :
    wordsFrom offset line (commentMark :: rest) =
      wordsFrom (offset + 1 + (rest.takeWhile (· != Text.newline)).length) line
        (rest.dropWhile (· != Text.newline)) := by
  apply wordsFrom_congr
  rw [skipFrom, if_neg (by decide), if_neg (by decide), if_pos rfl, skipFrom_comment]

theorem wordsFrom_word {b : UInt8} (hspace : isSpace b = false) (hmark : b ≠ commentMark)
    (offset line : Nat) (rest : Text) :
    wordsFrom offset line (b :: rest) =
      ⟨(b :: rest).takeWhile (!isSpace ·), offset, line⟩ ::
        wordsFrom (offset + ((b :: rest).takeWhile (!isSpace ·)).length) line
          ((b :: rest).dropWhile (!isSpace ·)) := by
  have hne : b ≠ Text.newline := by
    rintro rfl
    cases hspace
  have hskip : (Scanner.mk (b :: rest) offset line).skip = ⟨b :: rest, offset, line⟩ := by
    rw [skip, skipFrom, if_neg hne, hspace, if_neg (by decide), if_neg hmark]
  have hnext : (Scanner.mk (b :: rest) offset line).nextWord.1.text ≠ [] := by
    simp [nextWord, hskip, hspace]
  rw [wordsFrom, drain_eq, if_neg hnext]
  simp only [nextWord, hskip]
  rfl

theorem dropWhile_word {b : UInt8} (h : isSpace b = false) (rest : Text) :
    (b :: rest).dropWhile (!isSpace ·) = rest.dropWhile (!isSpace ·) :=
  List.dropWhile_cons_of_pos (by rw [h]; rfl)

/-- To show something of every text, pass over it as a scanner does: a newline, any
other space, a comment or a word at a time. -/
theorem scan_induction {motive : Text → Prop} (nil : motive [])
    (newline : ∀ rest, motive rest → motive (Text.newline :: rest))
    (space : ∀ b rest, isSpace b = true → b ≠ Text.newline → motive rest → motive (b :: rest))
    (comment : ∀ rest, motive (rest.dropWhile (· != Text.newline)) →
      motive (commentMark :: rest))
    (word : ∀ b rest, isSpace b = false → b ≠ commentMark →
      motive ((b :: rest).dropWhile (!isSpace ·)) → motive (b :: rest))
    (t : Text) : motive t := by
  induction hn : t.length using Nat.strongRecOn generalizing t with
  | ind n ih =>
    subst hn
    cases t with
    | nil => exact nil
    | cons b rest =>
      cases hspace : isSpace b with
      | true =>
        have hrest : motive rest := ih _ (Nat.lt_succ_self _) rest rfl
        by_cases hb : b = Text.newline
        · subst hb
          exact newline rest hrest
        · exact space b rest hspace hb hrest
      | false =>
        by_cases hmark : b = commentMark
        · subst hmark
          have hle := (List.dropWhile_sublist (l := rest) (· != Text.newline)).length_le
          exact comment rest (ih _ (Nat.lt_succ_of_le hle) _ rfl)
        · refine word b rest hspace hmark (ih _ ?_ _ rfl)
          have hle := (List.dropWhile_sublist (l := rest) (!isSpace ·)).length_le
          rw [dropWhile_word hspace]
          exact Nat.lt_succ_of_le hle

/-! ## Tokens and their places -/

theorem texts_wordsFrom (t : Text) (offset offset' line line' : Nat) :
    (wordsFrom offset line t).map Word.text = (wordsFrom offset' line' t).map Word.text := by
  induction t using scan_induction generalizing offset offset' line line' with
  | nil => rw [wordsFrom_nil, wordsFrom_nil]
  | newline rest ih =>
    rw [wordsFrom_newline, wordsFrom_newline]
    exact ih ..
  | space b rest hspace hb ih =>
    rw [wordsFrom_space hspace hb, wordsFrom_space hspace hb]
    exact ih ..
  | comment rest ih =>
    rw [wordsFrom_comment, wordsFrom_comment]
    exact ih ..
  | word b rest hspace hmark ih =>
    rw [wordsFrom_word hspace hmark, wordsFrom_word hspace hmark, List.map_cons, List.map_cons]
    exact congrArg _ (ih ..)

theorem text_ne_nil_of_mem {t : Text} {offset line : Nat} {w : Word}
    (h : w ∈ wordsFrom offset line t) : w.text ≠ [] := by
  induction t using scan_induction generalizing offset line with
  | nil => rw [wordsFrom_nil] at h; cases h
  | newline rest ih =>
    rw [wordsFrom_newline] at h
    exact ih h
  | space b rest hspace hb ih =>
    rw [wordsFrom_space hspace hb] at h
    exact ih h
  | comment rest ih =>
    rw [wordsFrom_comment] at h
    exact ih h
  | word b rest hspace hmark ih =>
    rw [wordsFrom_word hspace hmark] at h
    rcases List.mem_cons.mp h with rfl | h
    · simp [hspace]
    · exact ih h

theorem le_line_of_mem {t : Text} {offset line : Nat} {w : Word}
    (h : w ∈ wordsFrom offset line t) : line ≤ w.line := by
  induction t using scan_induction generalizing offset line with
  | nil => rw [wordsFrom_nil] at h; cases h
  | newline rest ih =>
    rw [wordsFrom_newline] at h
    exact Nat.le_of_succ_le (ih h)
  | space b rest hspace hb ih =>
    rw [wordsFrom_space hspace hb] at h
    exact ih h
  | comment rest ih =>
    rw [wordsFrom_comment] at h
    exact ih h
  | word b rest hspace hmark ih =>
    rw [wordsFrom_word hspace hmark] at h
    rcases List.mem_cons.mp h with rfl | h
    · exact Nat.le_refl _
    · exact ih h

theorem line_of_mem {t : Text} (hline : Text.newline ∉ t) {offset line : Nat} {w : Word}
    (h : w ∈ wordsFrom offset line t) : w.line = line := by
  induction t using scan_induction generalizing offset with
  | nil => rw [wordsFrom_nil] at h; cases h
  | newline rest ih => exact absurd List.mem_cons_self hline
  | space b rest hspace hb ih =>
    rw [wordsFrom_space hspace hb] at h
    exact ih (fun hmem => hline (List.mem_cons_of_mem _ hmem)) h
  | comment rest ih =>
    rw [wordsFrom_comment] at h
    have hrest : Text.newline ∉ rest := fun hmem => hline (List.mem_cons_of_mem _ hmem)
    exact ih (fun hmem => hrest ((List.dropWhile_sublist _).subset hmem)) h
  | word b rest hspace hmark ih =>
    rw [wordsFrom_word hspace hmark] at h
    rcases List.mem_cons.mp h with rfl | h
    · rfl
    · exact ih (fun hmem => hline ((List.dropWhile_sublist _).subset hmem)) h

theorem span_append_cons {p : UInt8 → Bool} {b : UInt8} (hb : p b = false) (t rest : Text) :
    (t ++ b :: rest).takeWhile p = t.takeWhile p ∧
      (t ++ b :: rest).dropWhile p = t.dropWhile p ++ b :: rest := by
  induction t with
  | nil => simp [hb]
  | cons c more ih => cases hc : p c <;> simp [hc, ih]

theorem length_span (p : UInt8 → Bool) (t : Text) :
    (t.takeWhile p).length + (t.dropWhile p).length = t.length := by
  rw [← List.length_append, List.takeWhile_append_dropWhile]

/-- The words of a line, its newline and what follows are those of the line, and
those of what follows on the next line. -/
theorem wordsFrom_append_newline {piece : Text} (hline : Text.newline ∉ piece) (rest : Text)
    (offset line : Nat) :
    wordsFrom offset line (piece ++ Text.newline :: rest) =
      wordsFrom offset line piece ++
        wordsFrom (offset + piece.length + 1) (line + 1) rest := by
  induction piece using scan_induction generalizing offset with
  | nil =>
    rw [List.nil_append, wordsFrom_newline, wordsFrom_nil]
    rfl
  | newline more ih => exact absurd List.mem_cons_self hline
  | space b more hspace hb ih =>
    have hmore : Text.newline ∉ more := fun hmem => hline (List.mem_cons_of_mem _ hmem)
    have hoffset : offset + 1 + more.length + 1 = offset + (b :: more).length + 1 := by
      rw [List.length_cons]
      omega
    rw [List.cons_append, wordsFrom_space hspace hb, wordsFrom_space hspace hb, ih hmore, hoffset]
  | comment more ih =>
    have hmore : Text.newline ∉ more.dropWhile (· != Text.newline) := fun hmem =>
      hline (List.mem_cons_of_mem _ ((List.dropWhile_sublist _).subset hmem))
    obtain ⟨htake, hdrop⟩ := span_append_cons (p := (· != Text.newline)) (b := Text.newline)
      (by decide) more rest
    have hlength := length_span (· != Text.newline) more
    have hoffset : offset + 1 + (more.takeWhile (· != Text.newline)).length +
        (more.dropWhile (· != Text.newline)).length + 1 =
          offset + (commentMark :: more).length + 1 := by
      rw [List.length_cons]
      omega
    rw [List.cons_append, wordsFrom_comment, wordsFrom_comment, htake, hdrop, ih hmore, hoffset]
  | word b more hspace hmark ih =>
    have hmore : Text.newline ∉ (b :: more).dropWhile (!isSpace ·) := fun hmem =>
      hline ((List.dropWhile_sublist _).subset hmem)
    obtain ⟨htake, hdrop⟩ := span_append_cons (p := (!isSpace ·)) (b := Text.newline)
      (by decide) (b :: more) rest
    have hlength := length_span (!isSpace ·) (b :: more)
    have hoffset : offset + ((b :: more).takeWhile (!isSpace ·)).length +
        ((b :: more).dropWhile (!isSpace ·)).length + 1 = offset + (b :: more).length + 1 := by
      omega
    rw [List.cons_append] at htake hdrop
    rw [List.cons_append, wordsFrom_word hspace hmark, wordsFrom_word hspace hmark, htake, hdrop,
      ih hmore, hoffset, List.cons_append]

end Polish.Scanner
