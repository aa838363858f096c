import Mathlib.Data.List.TakeWhile
import Polish.Proofs.Scanner
import Polish.Proofs.Token

/-
  Tiling — the words, the spaces and the comments of a source cover it

  What a word and a comment are is said of the places of a source, without a scanner:
  a run of bytes other than blanks that cannot be extended, and everything from a `;`
  that starts a run up to the end of its line. A scanner takes a source apart in
  pieces, of which a piece is either passed over or a word. Between two pieces
  nothing goes on (`Cut`), so a place behind a piece is judged by what is behind it
  alone, and every statement about places follows the pieces.

  What is proved:
    1. `Cut.isRun_append`, `Cut.inComment_append` — runs and comments behind a piece.
    2. `piece_induction` — the induction over the pieces.
    3. `mem_wordsFrom_iff` — the words are the runs outside of comments.
    4. `isTiled_of_lt` — every byte is in a word, a blank or in a comment.
    5. `nthWord_eq` — calling the scanner again and again gives the words, and then
       the end, for ever.
    6. `slice_of_mem`, `tokenize_of_short` — in a source of less than 2³² bytes, what
       stands at the place of a word, cut to 32 bits, is the word.
    7. `scanner_tiles_source` — all this for a source.
-/

namespace Polish.Scanner

/-! ## Words and comments, by their places -/

/-- Space, tab, carriage return and newline. -/
def blanks : Text := [32, 9, 13, 10]

/-- No byte of a word stands at place `p`: there is a blank, or nothing. -/
def Vacant (t : Text) (p : Nat) : Prop := ∀ b, t[p]? = some b → b ∈ blanks

/-- From `start` up to `stop` there are bytes other than blanks, as far as they go. -/
structure IsRun (t : Text) (start stop : Nat) : Prop where
  nonempty : start < stop
  solid : ∀ p, start ≤ p → p < stop → ¬ Vacant t p
  left : ∀ p, p + 1 = start → Vacant t p
  right : Vacant t stop

/-- There is a `;` at place `q`, and it is the first byte of a run. -/
structure Opens (t : Text) (q : Nat) : Prop where
  mark : t[q]? = some commentMark
  left : ∀ p, p + 1 = q → Vacant t p

/-- Place `p` is in a comment: at a `;` that is the first byte of a run, or behind it on
the same line. A `;` inside a comment adds nothing to it. -/
def InComment (t : Text) (p : Nat) : Prop :=
  ∃ q, q ≤ p ∧ Opens t q ∧ ∀ k, q ≤ k → k ≤ p → t[k]? ≠ some Text.newline

/-- A run outside of comments. -/
structure IsWordRun (t : Text) (start stop : Nat) : Prop where
  run : IsRun t start stop
  uncommented : ∀ p, start ≤ p → p < stop → ¬ InComment t p

/-- Place `p` is in a word, is a blank or is in a comment. -/
inductive IsTiled (t : Text) (p : Nat) : Prop
  | word {start stop : Nat} (isWordRun : IsWordRun t start stop) (le : start ≤ p) (lt : p < stop)
  | blank (vacant : Vacant t p)
  | comment (inComment : InComment t p)

/-- The word from `start` up to `stop`, in a text at the given place. -/
def wordAt (offset line : Nat) (t : Text) (start stop : Nat) : Word :=
  ⟨(t.take stop).drop start, offset + start, line + (t.take start).count Text.newline⟩

theorem mem_blanks_iff {b : UInt8} : b ∈ blanks ↔ isSpace b = true := by
  simp [blanks, isSpace, or_assoc]

theorem not_vacant {t : Text} {p : Nat} {b : UInt8} (h : t[p]? = some b)
    (hb : isSpace b = false) : ¬ Vacant t p := by
  intro hvacant
  rw [mem_blanks_iff.mp (hvacant b h)] at hb
  cases hb

theorem lt_length_of_not_vacant {t : Text} {p : Nat} (h : ¬ Vacant t p) : p < t.length := by
  by_cases hp : p < t.length
  · exact hp
  · refine absurd ?_ h
    intro b hb
    rw [List.getElem?_eq_none (Nat.not_lt.mp hp)] at hb
    cases hb

theorem Opens.not_vacant {t : Text} {q : Nat} (h : Opens t q) : ¬ Vacant t q :=
  Scanner.not_vacant h.mark (by decide)

theorem IsRun.stop_le {t : Text} {start stop : Nat} (h : IsRun t start stop) :
    stop ≤ t.length := by
  have hpos := h.nonempty
  have := lt_length_of_not_vacant (h.solid (stop - 1) (by omega) (by omega))
  omega

theorem length_wordAt {t : Text} {start stop : Nat} (h : IsRun t start stop)
    (offset line : Nat) : (wordAt offset line t start stop).length = stop - start := by
  have := h.stop_le
  simp only [wordAt, Word.length, List.length_drop, List.length_take]
  omega

/-! ## Places behind a piece -/

section Append

variable {piece rest : Text}

theorem getElem?_behind (piece rest : Text) (p : Nat) :
    (piece ++ rest)[piece.length + p]? = rest[p]? := by
  rw [List.getElem?_append_right (Nat.le_add_right ..), Nat.add_sub_cancel_left]

theorem vacant_behind {p : Nat} : Vacant (piece ++ rest) (piece.length + p) ↔ Vacant rest p := by
  simp only [Vacant, getElem?_behind]

theorem vacant_within {p : Nat} (h : p < piece.length) :
    Vacant (piece ++ rest) p ↔ Vacant piece p := by
  simp only [Vacant, List.getElem?_append_left h]

theorem opens_within {q : Nat} (h : q < piece.length) :
    Opens (piece ++ rest) q ↔ Opens piece q := by
  constructor
  · intro hopens
    refine ⟨List.getElem?_append_left h ▸ hopens.mark, ?_⟩
    intro p hp
    exact (vacant_within (by omega)).mp (hopens.left p hp)
  · intro hopens
    refine ⟨(List.getElem?_append_left h).trans hopens.mark, ?_⟩
    intro p hp
    exact (vacant_within (by omega)).mpr (hopens.left p hp)

theorem wordAt_behind (offset line start stop : Nat) :
    wordAt offset line (piece ++ rest) (piece.length + start) (piece.length + stop) =
      wordAt (offset + piece.length) (line + piece.count Text.newline) rest start stop := by
  simp only [wordAt, List.take_length_add_append, List.drop_length_add_append, List.count_append,
    Nat.add_assoc]

end Append

/-- No run goes on from the piece into what follows it, and no comment does, unless the
line ends there. -/
structure Cut (piece rest : Text) : Prop where
  vacant : (∀ p, p + 1 = piece.length → Vacant piece p) ∨ Vacant rest 0
  closed : (∀ q, ¬ Opens piece q) ∨ ∀ b, rest[0]? = some b → b = Text.newline

namespace Cut

variable {piece rest : Text}

theorem vacant_before (h : Cut piece rest) {p q : Nat} (hq : ¬ Vacant rest q)
    (hleft : ∀ p, p + 1 = q → Vacant rest p) (hp : p + 1 = piece.length + q) :
    Vacant (piece ++ rest) p := by
  cases q with
  | zero =>
    rw [vacant_within (by omega)]
    rcases h.vacant with hpiece | hrest
    · exact hpiece p hp
    · exact absurd hrest hq
  | succ q =>
    obtain rfl : p = piece.length + q := by omega
    exact vacant_behind.mpr (hleft q rfl)

theorem isRun_append (h : Cut piece rest) {start stop : Nat} :
    IsRun (piece ++ rest) (piece.length + start) (piece.length + stop) ↔
      IsRun rest start stop := by
  constructor
  · intro hrun
    refine ⟨by have := hrun.nonempty; omega, ?_, ?_, vacant_behind.mp hrun.right⟩
    · intro p hstart hstop hvacant
      exact hrun.solid (piece.length + p) (by omega) (by omega) (vacant_behind.mpr hvacant)
    · intro p hp
      exact vacant_behind.mp (hrun.left (piece.length + p) (by omega))
  · intro hrun
    refine ⟨by have := hrun.nonempty; omega, ?_, ?_, vacant_behind.mpr hrun.right⟩
    · intro p hstart hstop
      obtain ⟨p, rfl⟩ := Nat.exists_eq_add_of_le (Nat.le_of_add_right_le hstart)
      rw [vacant_behind]
      exact hrun.solid p (by omega) (by omega)
    · intro p hp
      exact h.vacant_before (hrun.solid start (Nat.le_refl _) hrun.nonempty) hrun.left hp

theorem opens_append (h : Cut piece rest) {q : Nat} :
    Opens (piece ++ rest) (piece.length + q) ↔ Opens rest q := by
  constructor
  · intro hopens
    refine ⟨getElem?_behind piece rest q ▸ hopens.mark, ?_⟩
    intro p hp
    exact vacant_behind.mp (hopens.left (piece.length + p) (by omega))
  · intro hopens
    refine ⟨(getElem?_behind piece rest q).trans hopens.mark, ?_⟩
    intro p hp
    exact h.vacant_before hopens.not_vacant hopens.left hp

theorem inComment_append (h : Cut piece rest) {p : Nat} (hp : p < rest.length) :
    InComment (piece ++ rest) (piece.length + p) ↔ InComment rest p := by
  constructor
  · rintro ⟨q, hq, hopens, hline⟩
    by_cases hpiece : q < piece.length
    · -- a comment that is opened in the piece ends with it
      rcases h.closed with hnone | hnewline
      · exact absurd ((opens_within hpiece).mp hopens) (hnone q)
      · have hfirst : rest[0]? = some rest[0] := List.getElem?_eq_getElem (by omega)
        rw [hnewline _ hfirst] at hfirst
        refine absurd ?_ (hline piece.length (by omega) (by omega))
        rw [← hfirst]
        exact getElem?_behind piece rest 0
    · obtain ⟨q, rfl⟩ := Nat.exists_eq_add_of_le (Nat.not_lt.mp hpiece)
      refine ⟨q, by omega, h.opens_append.mp hopens, ?_⟩
      intro k hqk hkp
      rw [← getElem?_behind piece]
      exact hline (piece.length + k) (by omega) (by omega)
  · rintro ⟨q, hq, hopens, hline⟩
    refine ⟨piece.length + q, by omega, h.opens_append.mpr hopens, ?_⟩
    intro k hqk hkp
    obtain ⟨k, rfl⟩ := Nat.exists_eq_add_of_le (Nat.le_of_add_right_le hqk)
    rw [getElem?_behind]
    exact hline k (by omega) (by omega)

theorem isWordRun_append (h : Cut piece rest) {start stop : Nat} :
    IsWordRun (piece ++ rest) (piece.length + start) (piece.length + stop) ↔
      IsWordRun rest start stop := by
  constructor
  · intro hword
    have hrun := h.isRun_append.mp hword.run
    have hle := hrun.stop_le
    refine ⟨hrun, ?_⟩
    intro p hstart hstop hcomment
    exact hword.uncommented (piece.length + p) (by omega) (by omega)
      ((h.inComment_append (by omega)).mpr hcomment)
  · intro hword
    have hle := hword.run.stop_le
    refine ⟨h.isRun_append.mpr hword.run, ?_⟩
    intro p hstart hstop
    obtain ⟨p, rfl⟩ := Nat.exists_eq_add_of_le (Nat.le_of_add_right_le hstart)
    rw [h.inComment_append (by omega)]
    exact hword.uncommented p (by omega) (by omega)

theorem exists_behind (h : Cut piece rest) {start stop : Nat}
    (hword : IsWordRun (piece ++ rest) start stop) (hstart : piece.length ≤ start) :
    ∃ start' stop', start = piece.length + start' ∧ stop = piece.length + stop' ∧
      IsWordRun rest start' stop' := by
  have hpos := hword.run.nonempty
  obtain ⟨start, rfl⟩ := Nat.exists_eq_add_of_le hstart
  obtain ⟨stop, rfl⟩ := Nat.exists_eq_add_of_le (show piece.length ≤ stop by omega)
  exact ⟨start, stop, rfl, rfl, h.isWordRun_append.mp hword⟩

theorem isTiled_append (h : Cut piece rest) {p : Nat} (hp : p < rest.length)
    (htiled : IsTiled rest p) : IsTiled (piece ++ rest) (piece.length + p) := by
  cases htiled with
  | word isWordRun le lt =>
    exact .word (h.isWordRun_append.mpr isWordRun) (by omega) (by omega)
  | blank vacant => exact .blank (vacant_behind.mpr vacant)
  | comment inComment => exact .comment ((h.inComment_append hp).mpr inComment)

end Cut

/-! ## The pieces of a text -/

/-- What a scanner passes over, and what it finds then: a blank, or a comment up to the
end of its line. -/
inductive Skipped : Text → Text → Prop
  | space {b : UInt8} {rest : Text} (isSpace : isSpace b = true) : Skipped [b] rest
  | comment {body rest : Text} (line : Text.newline ∉ body)
      (ends : ∀ b, rest[0]? = some b → b = Text.newline) : Skipped (commentMark :: body) rest

/-- A word, and what a scanner finds behind it. -/
structure Spelled (word rest : Text) : Prop where
  nonempty : word ≠ []
  solid : ∀ b ∈ word, isSpace b = false
  uncommented : word[0]? ≠ some commentMark
  ends : Vacant rest 0

theorem not_of_head_dropWhile {p : UInt8 → Bool} {t : Text} {b : UInt8}
    (h : (t.dropWhile p)[0]? = some b) : p b = false := by
  have hhead := List.head?_dropWhile_not p t
  rw [List.head?_eq_getElem?, h] at hhead
  exact hhead

theorem span_append {p : UInt8 → Bool} {t rest : Text} (h : ∀ b ∈ t, p b = true)
    (ends : ∀ b, rest[0]? = some b → p b = false) :
    (t ++ rest).takeWhile p = t ∧ (t ++ rest).dropWhile p = rest := by
  rw [List.takeWhile_append_of_pos h, List.dropWhile_append_of_pos h]
  cases rest with
  | nil => simp
  | cons b more => simp [ends b rfl]

/-- To show something of every text, take it apart in pieces as a scanner does. -/
theorem piece_induction {motive : Text → Prop} (nil : motive [])
    (skipped : ∀ piece rest, Skipped piece rest → motive rest → motive (piece ++ rest))
    (spelled : ∀ word rest, Spelled word rest → motive rest → motive (word ++ rest))
    (t : Text) : motive t := by
  induction t using scan_induction with
  | nil => exact nil
  | newline rest ih => exact skipped [Text.newline] rest (.space (by decide)) ih
  | space b rest hspace hb ih => exact skipped [b] rest (.space hspace) ih
  | comment rest ih =>
    have hpiece : Skipped (commentMark :: rest.takeWhile (· != Text.newline))
        (rest.dropWhile (· != Text.newline)) := by
      refine .comment ?_ ?_
      · intro hmem
        simpa using List.mem_takeWhile_imp hmem
      · intro b hb
        simpa using not_of_head_dropWhile hb
    have hmotive := skipped _ _ hpiece ih
    rwa [List.cons_append, List.takeWhile_append_dropWhile] at hmotive
  | word b rest hspace hmark ih =>
    have hpiece : Spelled ((b :: rest).takeWhile (!isSpace ·))
        ((b :: rest).dropWhile (!isSpace ·)) := by
      refine ⟨by simp [hspace], ?_, by simp [hspace, hmark], ?_⟩
      · intro c hc
        simpa using List.mem_takeWhile_imp hc
      · intro c hc
        rw [mem_blanks_iff]
        simpa using not_of_head_dropWhile hc
    have hmotive := spelled _ _ hpiece ih
    rwa [List.takeWhile_append_dropWhile] at hmotive

namespace Skipped

variable {piece rest : Text}

theorem cut (h : Skipped piece rest) : Cut piece rest := by
  cases h with
  | @space b rest hspace =>
    refine ⟨.inl ?_, .inl ?_⟩
    · intro p hp c hc
      obtain rfl : p = 0 := by simpa using hp
      obtain rfl : b = c := by simpa using hc
      exact mem_blanks_iff.mpr hspace
    · intro q hopens
      have hmem := List.mem_of_getElem? hopens.mark
      rw [List.mem_singleton] at hmem
      subst hmem
      cases hspace
  | comment line ends =>
    refine ⟨.inr ?_, .inr ends⟩
    intro b hb
    rw [ends b hb]
    decide

theorem vacant_or_inComment (h : Skipped piece rest) {p : Nat} (hp : p < piece.length) :
    Vacant (piece ++ rest) p ∨ InComment (piece ++ rest) p := by
  cases h with
  | @space b rest hspace =>
    obtain rfl : p = 0 := by simpa using hp
    refine .inl ?_
    intro c hc
    obtain rfl : b = c := by simpa using hc
    exact mem_blanks_iff.mpr hspace
  | @comment body rest line ends =>
    refine .inr ⟨0, Nat.zero_le p, ⟨rfl, by simp⟩, ?_⟩
    intro k _ hk hnewline
    rw [List.getElem?_append_left (by omega)] at hnewline
    rcases List.mem_cons.mp (List.mem_of_getElem? hnewline) with hmark | hmem
    · cases hmark
    · exact line hmem

theorem le_start (h : Skipped piece rest) {start stop : Nat}
    (hword : IsWordRun (piece ++ rest) start stop) : piece.length ≤ start := by
  by_cases hstart : start < piece.length
  · have hpos := hword.run.nonempty
    rcases h.vacant_or_inComment hstart with hvacant | hcomment
    · exact absurd hvacant (hword.run.solid start (Nat.le_refl _) hpos)
    · exact absurd hcomment (hword.uncommented start (Nat.le_refl _) hpos)
  · omega

theorem skipFrom_append (h : Skipped piece rest) (offset line : Nat) :
    skipFrom false offset line (piece ++ rest) =
      skipFrom false (offset + piece.length) (line + piece.count Text.newline) rest := by
  cases h with
  | @space b rest hspace =>
    rw [List.singleton_append, skipFrom]
    by_cases hb : b = Text.newline
    · simp [hb]
    · simp [hb, hspace]
  | @comment body rest hline ends =>
    have hbody : ∀ b ∈ body, (b != Text.newline) = true := by
      intro b hb
      rw [bne_iff_ne]
      rintro rfl
      exact hline hb
    have hends : ∀ b, rest[0]? = some b → (b != Text.newline) = false := by
      intro b hb
      rw [ends b hb]
      rfl
    obtain ⟨htake, hdrop⟩ := span_append hbody hends
    have hcount : line + (commentMark :: body).count Text.newline = line := by
      rw [Nat.add_eq_left, List.count_eq_zero]
      intro hmem
      rcases List.mem_cons.mp hmem with hmark | hmem
      · cases hmark
      · exact hline hmem
    rw [List.cons_append, skipFrom, if_neg (by decide), if_neg (by decide), if_pos rfl,
      skipFrom_comment, htake, hdrop, hcount, List.length_cons, Nat.add_assoc, Nat.add_comm 1]

theorem nextWord_append (h : Skipped piece rest) (offset line : Nat) :
    (Scanner.mk (piece ++ rest) offset line).nextWord =
      (Scanner.mk rest (offset + piece.length) (line + piece.count Text.newline)).nextWord := by
  simp only [nextWord, skip, h.skipFrom_append]

theorem wordsFrom_append (h : Skipped piece rest) (offset line : Nat) :
    wordsFrom offset line (piece ++ rest) =
      wordsFrom (offset + piece.length) (line + piece.count Text.newline) rest :=
  wordsFrom_congr (h.skipFrom_append offset line)

end Skipped

namespace Spelled

variable {word rest : Text}

theorem not_vacant (h : Spelled word rest) {p : Nat} (hp : p < word.length) :
    ¬ Vacant word p :=
  Scanner.not_vacant (List.getElem?_eq_getElem hp) (h.solid _ (List.getElem_mem hp))

theorem not_opens (h : Spelled word rest) (q : Nat) : ¬ Opens word q := by
  intro hopens
  cases q with
  | zero => exact h.uncommented hopens.mark
  | succ p =>
    have hlt := lt_length_of_not_vacant hopens.not_vacant
    exact h.not_vacant (by omega) (hopens.left p rfl)

theorem cut (h : Spelled word rest) : Cut word rest := ⟨.inr h.ends, .inl h.not_opens⟩

theorem count_newline (h : Spelled word rest) : word.count Text.newline = 0 := by
  rw [List.count_eq_zero]
  intro hmem
  cases h.solid _ hmem

theorem vacant_stop (h : Spelled word rest) : Vacant (word ++ rest) word.length :=
  vacant_behind (p := 0).mpr h.ends

theorem isWordRun (h : Spelled word rest) : IsWordRun (word ++ rest) 0 word.length := by
  refine ⟨⟨List.length_pos_iff.mpr h.nonempty, ?_, by simp, h.vacant_stop⟩, ?_⟩
  · intro p _ hp
    rw [vacant_within hp]
    exact h.not_vacant hp
  · rintro p _ hp ⟨q, hq, hopens, -⟩
    exact h.not_opens q ((opens_within (by omega)).mp hopens)

theorem eq_of_isRun (h : Spelled word rest) {start stop : Nat}
    (hrun : IsRun (word ++ rest) start stop) (hstart : start < word.length) :
    start = 0 ∧ stop = word.length := by
  have hzero : start = 0 := by
    cases start with
    | zero => rfl
    | succ p =>
      have hvacant := hrun.left p rfl
      rw [vacant_within (by omega)] at hvacant
      exact absurd hvacant (h.not_vacant (by omega))
  have hpos := hrun.nonempty
  refine ⟨hzero, ?_⟩
  rcases Nat.lt_trichotomy stop word.length with hlt | heq | hgt
  · exact absurd ((vacant_within hlt).mp hrun.right) (h.not_vacant hlt)
  · exact heq
  · exact absurd h.vacant_stop (hrun.solid word.length (by omega) hgt)

theorem nextWord_append (h : Spelled word rest) (offset line : Nat) :
    (Scanner.mk (word ++ rest) offset line).nextWord =
      (⟨word, offset, line⟩, ⟨rest, offset + word.length, line⟩) := by
  obtain ⟨b, more, rfl⟩ := List.exists_cons_of_ne_nil h.nonempty
  have hspace := h.solid b List.mem_cons_self
  have hmark : b ≠ commentMark := fun heq => h.uncommented (by rw [heq]; rfl)
  have hne : b ≠ Text.newline := by
    rintro rfl
    cases hspace
  have hskip : (Scanner.mk (b :: more ++ rest) offset line).skip =
      ⟨b :: more ++ rest, offset, line⟩ := by
    simp [skip, skipFrom, hne, hspace, hmark]
  have hsolid : ∀ c ∈ b :: more, (!isSpace c) = true := by
    intro c hc
    rw [h.solid c hc]
    rfl
  have hends : ∀ c, rest[0]? = some c → (!isSpace c) = false := by
    intro c hc
    rw [mem_blanks_iff.mp (h.ends c hc)]
    rfl
  obtain ⟨htake, hdrop⟩ := span_append hsolid hends
  simp only [nextWord, hskip, htake, hdrop]

theorem wordsFrom_append (h : Spelled word rest) (offset line : Nat) :
    wordsFrom offset line (word ++ rest) =
      ⟨word, offset, line⟩ :: wordsFrom (offset + word.length) line rest := by
  rw [wordsFrom, drain_eq, h.nextWord_append, if_neg h.nonempty]
  rfl

end Spelled

/-! ## The words of a text -/

theorem mem_wordsFrom_iff {t : Text} {offset line : Nat} {w : Word} :
    w ∈ wordsFrom offset line t ↔
      ∃ start stop, IsWordRun t start stop ∧ w = wordAt offset line t start stop := by
  induction t using piece_induction generalizing offset line with
  | nil =>
    rw [wordsFrom_nil]
    constructor
    · intro h
      cases h
    · rintro ⟨start, stop, hword, -⟩
      have hpos := hword.run.nonempty
      have hle := hword.run.stop_le
      rw [List.length_nil] at hle
      omega
  | skipped piece rest hpiece ih =>
    rw [hpiece.wordsFrom_append, ih]
    constructor
    · rintro ⟨start, stop, hword, rfl⟩
      exact ⟨piece.length + start, piece.length + stop, hpiece.cut.isWordRun_append.mpr hword,
        (wordAt_behind ..).symm⟩
    · rintro ⟨start, stop, hword, rfl⟩
      obtain ⟨start, stop, rfl, rfl, hrest⟩ :=
        hpiece.cut.exists_behind hword (hpiece.le_start hword)
      exact ⟨start, stop, hrest, wordAt_behind ..⟩
  | spelled word rest hpiece ih =>
    have hfirst : wordAt offset line (word ++ rest) 0 word.length = ⟨word, offset, line⟩ := by
      simp [wordAt]
    rw [hpiece.wordsFrom_append, List.mem_cons, ih]
    constructor
    · rintro (rfl | ⟨start, stop, hword, rfl⟩)
      · exact ⟨0, word.length, hpiece.isWordRun, hfirst.symm⟩
      · refine ⟨word.length + start, word.length + stop,
          hpiece.cut.isWordRun_append.mpr hword, ?_⟩
        rw [wordAt_behind, hpiece.count_newline, Nat.add_zero]
    · rintro ⟨start, stop, hword, rfl⟩
      by_cases hstart : start < word.length
      · obtain ⟨rfl, rfl⟩ := hpiece.eq_of_isRun hword.run hstart
        exact .inl hfirst
      · obtain ⟨start, stop, rfl, rfl, hrest⟩ :=
          hpiece.cut.exists_behind hword (Nat.not_lt.mp hstart)
        refine .inr ⟨start, stop, hrest, ?_⟩
        rw [wordAt_behind, hpiece.count_newline, Nat.add_zero]

theorem line_lt_of_mem {t : Text} {offset line : Nat} {w : Word} (h : w ∈ wordsFrom offset line t) :
    w.line < line + t.length := by
  obtain ⟨start, stop, hword, rfl⟩ := mem_wordsFrom_iff.mp h
  have hpos := hword.run.nonempty
  have hstop := hword.run.stop_le
  have hcount : (t.take start).count Text.newline ≤ start :=
    List.count_le_length.trans (List.length_take_le ..)
  simp only [wordAt]
  omega

theorem isTiled_of_lt {t : Text} {p : Nat} (hp : p < t.length) : IsTiled t p := by
  induction t using piece_induction generalizing p with
  | nil => simp at hp
  | skipped piece rest hpiece ih =>
    by_cases hplace : p < piece.length
    · rcases hpiece.vacant_or_inComment hplace with hvacant | hcomment
      · exact .blank hvacant
      · exact .comment hcomment
    · obtain ⟨p, rfl⟩ := Nat.exists_eq_add_of_le (Nat.not_lt.mp hplace)
      have hrest : p < rest.length := by simpa using hp
      exact hpiece.cut.isTiled_append hrest (ih hrest)
  | spelled word rest hpiece ih =>
    by_cases hplace : p < word.length
    · exact .word hpiece.isWordRun (Nat.zero_le p) hplace
    · obtain ⟨p, rfl⟩ := Nat.exists_eq_add_of_le (Nat.not_lt.mp hplace)
      have hrest : p < rest.length := by simpa using hp
      exact hpiece.cut.isTiled_append hrest (ih hrest)

theorem pairwise_wordsFrom (t : Text) (offset line : Nat) :
    (wordsFrom offset line t).Pairwise fun a b => a.offset + a.length < b.offset := by
  induction t using piece_induction generalizing offset line with
  | nil =>
    rw [wordsFrom_nil]
    exact .nil
  | skipped piece rest hpiece ih =>
    rw [hpiece.wordsFrom_append]
    exact ih ..
  | spelled word rest hpiece ih =>
    rw [hpiece.wordsFrom_append]
    refine .cons ?_ (ih ..)
    intro w hmem
    obtain ⟨start, stop, hword, rfl⟩ := mem_wordsFrom_iff.mp hmem
    -- behind the word comes a blank, so the next one does not start there
    have hstart : start ≠ 0 := by
      rintro rfl
      exact hword.run.solid 0 (Nat.le_refl 0) hword.run.nonempty hpiece.ends
    simp only [wordAt, Word.length]
    omega

/-! ## Calling a scanner again and again -/

def nthWord : Nat → Scanner → Word
  | 0, s => s.nextWord.1
  | k + 1, s => nthWord k s.nextWord.2

theorem nthWord_congr {s s' : Scanner} (h : s.nextWord = s'.nextWord) (k : Nat) :
    s.nthWord k = s'.nthWord k := by
  cases k with
  | zero => rw [nthWord, nthWord, h]
  | succ k => rw [nthWord, nthWord, h]

theorem nthWord_nil (k offset line : Nat) :
    (Scanner.mk [] offset line).nthWord k = ⟨[], offset, line⟩ := by
  induction k with
  | zero => rfl
  | succ k ih => exact ih

theorem nthWord_eq (t : Text) (k offset line : Nat) :
    (Scanner.mk t offset line).nthWord k =
      (wordsFrom offset line t)[k]?.getD
        ⟨[], offset + t.length, line + t.count Text.newline⟩ := by
  induction t using piece_induction generalizing k offset line with
  | nil => rw [wordsFrom_nil, nthWord_nil]; rfl
  | skipped piece rest hpiece ih =>
    rw [nthWord_congr (hpiece.nextWord_append offset line), ih, hpiece.wordsFrom_append,
      List.length_append, List.count_append, Nat.add_assoc, Nat.add_assoc]
  | spelled word rest hpiece ih =>
    rw [hpiece.wordsFrom_append, List.length_append, List.count_append, hpiece.count_newline,
      Nat.zero_add, ← Nat.add_assoc]
    cases k with
    | zero => rw [nthWord, hpiece.nextWord_append]; rfl
    | succ k => rw [nthWord, hpiece.nextWord_append, ih]; rfl

/-- What call number `k` returns, counted from zero. -/
def nthLexeme : Nat → Scanner → Lexeme
  | 0, s => s.next.1
  | k + 1, s => nthLexeme k s.next.2

theorem nthLexeme_eq (k : Nat) (s : Scanner) : s.nthLexeme k = (s.nthWord k).lexeme := by
  induction k generalizing s with
  | zero => rfl
  | succ k ih => exact ih s.nextWord.2

def lastLexeme (source : Text) : Lexeme :=
  ⟨.finish, .ofNat source.length, 0, .ofNat (1 + source.count Text.newline)⟩

theorem nthLexeme_ofText (source : Text) (k : Nat) :
    (ofText source).nthLexeme k =
      ((words source).map Word.lexeme)[k]?.getD (lastLexeme source) := by
  have hword : (ofText source).nthWord k =
      (words source)[k]?.getD ⟨[], source.length, 1 + source.count Text.newline⟩ := by
    have hcall := nthWord_eq source k 0 1
    rwa [Nat.zero_add] at hcall
  rw [nthLexeme_eq, hword, List.getElem?_map]
  cases (words source)[k]? <;> rfl

/-! ## Places in 32 bits -/

section Short

variable {source : Text} {w : Word}

theorem mem_words_iff :
    w ∈ words source ↔
      ∃ start stop, IsWordRun source start stop ∧ w = wordAt 0 1 source start stop :=
  mem_wordsFrom_iff

theorem isWordRun_of_mem (h : w ∈ words source) :
    IsWordRun source w.offset (w.offset + w.length) ∧
      w.text = (source.take (w.offset + w.length)).drop w.offset ∧
      w.line = 1 + (source.take w.offset).count Text.newline := by
  obtain ⟨start, stop, hword, rfl⟩ := mem_words_iff.mp h
  have hpos := hword.run.nonempty
  have hstop : start + (stop - start) = stop := by omega
  rw [length_wordAt hword.run]
  simp only [wordAt, Nat.zero_add, hstop]
  exact ⟨hword, trivial, trivial⟩

theorem lexeme_of_mem (short : source.length < UInt32.size) (h : w ∈ words source) :
    w.lexeme.offset.toNat = w.offset ∧ w.lexeme.length.toNat = w.length ∧
      w.lexeme.line.toNat = w.line ∧
      (w.lexeme.offset + w.lexeme.length).toNat = w.offset + w.length := by
  obtain ⟨hword, -, hline⟩ := isWordRun_of_mem h
  have hpos := hword.run.nonempty
  have hstop := hword.run.stop_le
  have hcount : (source.take w.offset).count Text.newline ≤ w.offset :=
    List.count_le_length.trans (List.length_take_le ..)
  simp only [Word.lexeme, UInt32.toNat_add, UInt32.toNat_ofNat']
  simp only [UInt32.size] at short
  omega

theorem slice_of_mem (short : source.length < UInt32.size) (h : w ∈ words source) :
    w.lexeme.slice source.toArray = w.text := by
  obtain ⟨hoffset, -, -, hstop⟩ := lexeme_of_mem short h
  rw [Lexeme.slice, hoffset, hstop, Array.toList_extract, List.extract_eq_take_drop,
    ← List.drop_take]
  exact (isWordRun_of_mem h).2.1.symm

end Short

/-- The tokens of a source shorter than 2³² bytes are its words: the text of each is the
word that was scanned, and its kind is that of its text. -/
theorem tokenize_of_short {source : Text} (short : source.length < UInt32.size) :
    tokenize source = (words source).map Word.token :=
  List.map_congr_left fun _ h => congrArg _ (slice_of_mem short h)

/-- A source of any size has all bytes of its tokens. -/
theorem mem_of_mem_tokenize {source : Text} {t : Token} {b : UInt8} (ht : t ∈ tokenize source)
    (hb : b ∈ t.text) : b ∈ source := by
  obtain ⟨word, -, rfl⟩ := List.mem_map.mp ht
  rw [Lexeme.slice, Array.toList_extract, List.extract_eq_take_drop] at hb
  exact List.mem_of_mem_drop (List.mem_of_mem_take hb)

theorem eq_replicate_iff_count {t : Text} {n : Nat} (hn : t.length ≤ n) :
    t.count Text.newline = n ↔ t = List.replicate n Text.newline := by
  constructor
  · intro h
    have hle : t.count Text.newline ≤ t.length := List.count_le_length
    have hlength : t.length = n := by omega
    refine List.eq_replicate_iff.mpr ⟨hlength, ?_⟩
    intro b hb
    exact (List.count_eq_length.mp (h.trans hlength.symm) b hb).symm
  · rintro rfl
    exact List.count_replicate_self

section Tokens

variable {source : Text} (short : source.length < UInt32.size)

include short

theorem isWordRun_of_mem_tokenize {t : Token} (h : t ∈ tokenize source) :
    IsWordRun source t.offset.toNat (t.offset.toNat + t.length.toNat) ∧
      t.text = (source.take (t.offset.toNat + t.length.toNat)).drop t.offset.toNat ∧
      t.line.toNat = 1 + (source.take t.offset.toNat).count Text.newline := by
  rw [tokenize_of_short short] at h
  obtain ⟨w, hw, rfl⟩ := List.mem_map.mp h
  obtain ⟨hoffset, hlength, hline, -⟩ := lexeme_of_mem short hw
  simp only [Word.token, hoffset, hlength, hline]
  exact isWordRun_of_mem hw

theorem kind_ne_finish_of_mem {t : Token} (h : t ∈ tokenize source) : t.kind ≠ .finish := by
  rw [tokenize_of_short short] at h
  obtain ⟨w, hw, rfl⟩ := List.mem_map.mp h
  exact fun hkind => text_ne_nil_of_mem hw (TokenKind.ofWord_eq_finish_iff.mp hkind)

theorem exists_token_of_isWordRun {start stop : Nat} (h : IsWordRun source start stop) :
    ∃ t ∈ tokenize source, t.offset.toNat = start ∧ t.offset.toNat + t.length.toNat = stop := by
  have hmem : wordAt 0 1 source start stop ∈ words source :=
    mem_words_iff.mpr ⟨start, stop, h, rfl⟩
  obtain ⟨hoffset, hlength, -, -⟩ := lexeme_of_mem short hmem
  have hpos := h.run.nonempty
  rw [tokenize_of_short short]
  refine ⟨_, List.mem_map_of_mem hmem, ?_⟩
  simp only [Word.token, hoffset, hlength, length_wordAt h.run]
  simp only [wordAt]
  omega

theorem pairwise_tokenize :
    (tokenize source).Pairwise fun a b => a.offset.toNat + a.length.toNat < b.offset.toNat := by
  rw [tokenize_of_short short, List.pairwise_map]
  refine (pairwise_wordsFrom source 0 1).imp_of_mem ?_
  intro a b ha hb hlt
  obtain ⟨haoffset, halength, -, -⟩ := lexeme_of_mem short ha
  obtain ⟨hboffset, -, -, -⟩ := lexeme_of_mem short hb
  simp only [Word.token, haoffset, halength, hboffset]
  exact hlt

/-- The line of the end fits unless all bytes are newlines, as many as a short source can
have. -/
theorem line_lastLexeme_iff :
    (lastLexeme source).line.toNat = 1 + source.count Text.newline ↔
      source ≠ List.replicate (UInt32.size - 1) Text.newline := by
  have hle : source.count Text.newline ≤ source.length := List.count_le_length
  rw [Ne, ← eq_replicate_iff_count (Nat.le_sub_one_of_lt short)]
  simp only [lastLexeme, UInt32.toNat_ofNat', UInt32.size] at short ⊢
  omega

end Tokens

/-- The calls of a scanner return the tokens of a source shorter than 2³² bytes one after
the other, and then for ever the same empty token at the end of the source. Before it no
token marks the end. The tokens stand one behind the other with something between them.
They are the runs of bytes other than blanks outside of comments, each with its bytes, its
place and its line, and there is one for each such run. All that is in no token is blank or
in a comment. The line of the end is one more than the newlines, unless the source has as
many as it can: then that number does not fit. -/
theorem scanner_tiles_source {source : Text} (short : source.length < UInt32.size) :
    let tokens := tokenize source
    let last := lastLexeme source
    (∀ k, (ofText source).nthLexeme k = (tokens.map Token.toLexeme)[k]?.getD last) ∧
    last.kind = .finish ∧ last.offset.toNat = source.length ∧ last.length = 0 ∧
    (last.line.toNat = 1 + source.count Text.newline ↔
      source ≠ List.replicate (UInt32.size - 1) Text.newline) ∧
    (∀ token ∈ tokens, token.kind ≠ .finish) ∧
    (tokens.Pairwise fun a b => a.offset.toNat + a.length.toNat < b.offset.toNat) ∧
    (∀ token ∈ tokens,
      IsWordRun source token.offset.toNat (token.offset.toNat + token.length.toNat) ∧
      token.text =
        (source.take (token.offset.toNat + token.length.toNat)).drop token.offset.toNat ∧
      token.line.toNat = 1 + (source.take token.offset.toNat).count Text.newline) ∧
    (∀ start stop, IsWordRun source start stop →
      ∃ token ∈ tokens,
        token.offset.toNat = start ∧ token.offset.toNat + token.length.toNat = stop) ∧
    ∀ p, p < source.length →
      (∃ token ∈ tokens,
        token.offset.toNat ≤ p ∧ p < token.offset.toNat + token.length.toNat) ∨
        Vacant source p ∨ InComment source p := by
  intro tokens last
  refine ⟨?_, rfl, ?_, rfl, line_lastLexeme_iff short, fun _ => kind_ne_finish_of_mem short,
    pairwise_tokenize short, fun _ => isWordRun_of_mem_tokenize short,
    fun _ _ => exists_token_of_isWordRun short, ?_⟩
  · intro k
    rw [nthLexeme_ofText, show tokens = _ from tokenize_of_short short, List.map_map]
    rfl
  · simp only [last, lastLexeme, UInt32.toNat_ofNat']
    exact Nat.mod_eq_of_lt short
  · intro p hp
    cases isTiled_of_lt hp with
    | word hword hle hlt =>
      obtain ⟨token, htoken, hstart, hstop⟩ := exists_token_of_isWordRun short hword
      exact .inl ⟨token, htoken, by omega, by omega⟩
    | blank hvacant => exact .inr (.inl hvacant)
    | comment hcomment => exact .inr (.inr hcomment)

/-- A mark inside a word, two comments of which one holds a mark, and no newline at the
end. -/
def markedSource : Text := ascii "a;b ;c ; d\r\n\t;;\n -1;"

/-- The mark inside the first word opens no comment, the second one does, up to the end
of its line. The third call and those after it return the end. -/
theorem scanner_tiles_markedSource :
    markedSource.length < UInt32.size ∧
    tokenize markedSource = [Word.token ⟨ascii "a;b", 0, 1⟩, Word.token ⟨ascii "-1;", 17, 3⟩] ∧
    IsWordRun markedSource 17 20 ∧ InComment markedSource 9 ∧
    ∀ k, (ofText markedSource).nthLexeme (k + 2) = ⟨.finish, 20, 0, 3⟩ := by
  have short : markedSource.length < UInt32.size := by decide
  have htokens : tokenize markedSource =
      [Word.token ⟨ascii "a;b", 0, 1⟩, Word.token ⟨ascii "-1;", 17, 3⟩] := by
    decide +kernel
  obtain ⟨hcalls, -, -, -, -, -, -, hword, -, htiled⟩ := scanner_tiles_source short
  rw [htokens] at hcalls hword htiled
  refine ⟨short, htokens, (hword (Word.token ⟨ascii "-1;", 17, 3⟩) (by decide)).1, ?_, ?_⟩
  · rcases htiled 9 (by decide) with htoken | hvacant | hcomment
    · exact absurd htoken (by decide)
    · exact absurd (hvacant 100 (by decide)) (by decide)
    · exact hcomment
  · intro k
    rw [hcalls (k + 2)]
    rfl

theorem wordsFrom_newlines (n offset line : Nat) :
    wordsFrom offset line (List.replicate n Text.newline) = [] := by
  induction n generalizing offset line with
  | zero => exact wordsFrom_nil offset line
  | succ n ih => rw [List.replicate_succ, wordsFrom_newline, ih]

theorem next_newlines (n : Nat) :
    (ofText (List.replicate n Text.newline)).next.1 = ⟨.finish, .ofNat n, 0, .ofNat (1 + n)⟩ := by
  have hcall := nthLexeme_ofText (List.replicate n Text.newline) 0
  have hwords : words (List.replicate n Text.newline) = [] := wordsFrom_newlines n 0 1
  rw [hwords, List.map_nil, List.getElem?_nil, Option.getD_none, lastLexeme,
    List.count_replicate_self, List.length_replicate] at hcall
  exact hcall

/-- After 2³² - 1 newlines and nothing else the end is on line 2³², which is returned as
line zero. -/
theorem line_of_end_wraps :
    (List.replicate (UInt32.size - 1) Text.newline).length < UInt32.size ∧
    1 + (List.replicate (UInt32.size - 1) Text.newline).count Text.newline = 4294967296 ∧
    (ofText (List.replicate (UInt32.size - 1) Text.newline)).next.1 =
      ⟨.finish, 4294967295, 0, 0⟩ := by
  rw [next_newlines, List.count_replicate_self, List.length_replicate]
  decide

end Polish.Scanner
