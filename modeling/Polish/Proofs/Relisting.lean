import Polish.Proofs.Listing

/-
  Listings of what was read — texts in any layout, and the listing they come down to

  A text that is read as a program need not be a listing: it may hold empty lines and
  comments, carriage returns, blanks of any kind around its words, and zeros in front
  of its numbers. Its names are not those of a source, either. They are whatever
  bytes stand between two blanks, and may be no characters at all. Listing the program
  takes the layout away and keeps these bytes.

  What is proved:
    1. `Instruction.over_of_ofFields` — what is read from fields is an instruction of
       the instruction set. Its name is one of the fields, and its words are these
       fields unless it holds a number.
    2. `Instruction.canonical_of_read` — an instruction read from a line is one that
       reads back, and its own line is short enough.
    3. `canonical_of_readLinesOnto` — so are the instructions read from lines.
    4. `relisting_reads_back` — a program that was read is the program that its
       listing reads as.
-/

namespace Polish

/-! ## One line -/

theorem Opcode.listed_of_ofName? {word : Text} {op : Opcode} (h : ofName? word = some op) :
    op ∈ listed ∧ op.name = word :=
  ⟨List.mem_of_find?_eq_some h, by simpa using List.find?_some h⟩

namespace Instruction

/-- What is read from fields holds no name but one of the fields, and has these fields
as its words, where a number may be spelled anew. -/
theorem over_of_ofFields {word : Text} {operands : List Text} {i : Instruction}
    (h : ofFields (word :: operands) = .ok i) :
    i.Over operands ∧ (i.op = .push ∨ i.words = word :: operands) := by
  rw [ofFields] at h
  cases hop : Opcode.ofName? word with
  | none =>
    rw [hop] at h
    cases h
  | some op =>
    obtain ⟨hlisted, rfl⟩ := Opcode.listed_of_ofName? hop
    rw [hop] at h
    dsimp only at h
    by_cases hcount : operands.length = op.operands
    · rw [if_neg (not_not.mpr hcount)] at h
      cases op with
      | push =>
        obtain ⟨operand, rfl⟩ := List.length_eq_one_iff.mp hcount
        dsimp only at h
        cases hread : Literal.read operand with
        | ok value =>
          rw [hread] at h
          cases h
          exact ⟨.push value, .inl rfl⟩
        | error reason =>
          rw [hread] at h
          cases h
      | load =>
        obtain ⟨operand, rfl⟩ := List.length_eq_one_iff.mp hcount
        cases h
        exact ⟨.load (List.mem_singleton.mpr rfl), .inr rfl⟩
      | store =>
        obtain ⟨operand, rfl⟩ := List.length_eq_one_iff.mp hcount
        cases h
        exact ⟨.store (List.mem_singleton.mpr rfl), .inr rfl⟩
      | unlisted code => simp [Opcode.listed] at hlisted
      | _ =>
        obtain rfl := List.length_eq_zero_iff.mp hcount
        cases h
        exact ⟨.plain hlisted rfl, .inr rfl⟩
    · rw [if_pos hcount] at h
      cases h

/-- An instruction whose line in a listing is read as the instruction: the line reads
back, and is not too long. -/
structure Canonical (i : Instruction) : Prop where
  readsBack : i.ReadsBack
  short : i.text.length < longLine

theorem canonical_of_read {line : Text} {i : Instruction} (h : read line = .ok i)
    (hshort : line.length < longLine) : i.Canonical := by
  have hlength := Text.length_joinWith_fields line
  have hfields : ∀ field ∈ Text.fields line, Text.IsField field :=
    fun field => Text.isField_of_mem_fields
  rw [read] at h
  cases hcut : Text.fields line with
  | nil =>
    rw [hcut] at h
    cases h
  | cons word operands =>
    rw [hcut] at h hlength hfields
    obtain ⟨hover, hwords⟩ := over_of_ofFields h
    refine ⟨hover.readsBack_of_isField (List.forall_mem_cons.mp hfields).2, ?_⟩
    rcases hwords with hpush | hwords
    · exact Nat.lt_of_le_of_lt (length_text_push hpush) (by decide)
    · rw [text_eq_joinWith, hwords]
      exact Nat.lt_of_le_of_lt hlength hshort

end Instruction

/-! ## Line after line -/

theorem canonical_of_readLinesOnto {lines : List Text} {read code : Array Instruction}
    {number : Nat} (h : readLinesOnto read number lines = .ok code)
    (hread : ∀ i ∈ read, i.Canonical) : ∀ i ∈ code, i.Canonical := by
  induction lines generalizing read number with
  | nil =>
    cases h
    exact hread
  | cons line rest ih =>
    rw [readLinesOnto] at h
    by_cases hlong : longLine ≤ line.length
    · rw [if_pos hlong] at h
      cases h
    · rw [if_neg hlong] at h
      dsimp only at h
      split at h
      · exact ih h hread
      · cases hi : Instruction.read (Text.trim (Text.chomp line)) with
        | error reason =>
          rw [hi] at h
          cases h
        | ok i =>
          rw [hi] at h
          have hlength : (Text.trim (Text.chomp line)).length < longLine :=
            calc (Text.trim (Text.chomp line)).length
                ≤ (Text.chomp line).length := (Text.trim_sublist _).length_le
              _ ≤ line.length := Text.length_chomp_le line
              _ < longLine := Nat.not_le.mp hlong
          apply ih h
          intro j hj
          rcases Array.mem_push.mp hj with hj | rfl
          · exact hread j hj
          · exact Instruction.canonical_of_read hi hlength

theorem canonical_of_readListing {t : Text} {program : List Instruction}
    (h : readListing t = .ok program) : ∀ i ∈ program, i.Canonical := by
  unfold readListing at h
  cases hcode : readLinesOnto #[] 1 (Text.lines t) with
  | error e =>
    rw [hcode] at h
    cases h
  | ok code =>
    rw [hcode] at h
    cases h
    intro i hi
    exact canonical_of_readLinesOnto hcode (by simp) i (Array.mem_toList_iff.mp hi)

/-- Whatever the layout of a text, the program that it is read as has a listing
without long lines, and that listing is read as the same program. -/
theorem relisting_reads_back {t : Text} {program : List Instruction}
    (h : readListing t = .ok program) :
    HasShortLines (listing program) ∧ readListing (listing program) = .ok program := by
  have hcanonical := canonical_of_readListing h
  have hback : ∀ i ∈ program, i.ReadsBack := fun i hi => (hcanonical i hi).readsBack
  have hshort : ∀ i ∈ program, i.text.length < longLine := fun i hi => (hcanonical i hi).short
  refine ⟨(hasShortLines_listing hback).mpr hshort, ?_⟩
  rw [readListing, lines_listing fun i hi => (hback i hi).oneLine,
    readLinesOnto_of_short hback hshort]
  simp [Except.map]

/-- A text with an empty line, a comment, carriage returns, a no-break and an ideographic
space, zeros in front of a number and no newline at its end. Its names are the first
two bytes of a line separator, and stray bytes around a semicolon. -/
def untidyText : Text :=
  ascii "; seven\r\n\r\n" ++ [0xC2, 0xA0] ++ ascii "PUSH" ++ [0xE3, 0x80, 0x80] ++
    ascii "-0007 \r\n\tSTORE   " ++ [0xE2, 0x80] ++ ascii "\r\nLOAD\t" ++ [0x80, 59, 0xC2] ++
    ascii "\n  PRINT"

def untidyProgram : List Instruction :=
  [.push (-7), .store [0xE2, 0x80], .load [0x80, 59, 0xC2], .plain .print]

theorem relisting_reads_back_untidy :
    readListing untidyText = .ok untidyProgram ∧ listing untidyProgram ≠ untidyText ∧
      HasShortLines (listing untidyProgram) ∧
      readListing (listing untidyProgram) = .ok untidyProgram := by
  have hread : readListing untidyText = .ok untidyProgram := by decide +kernel
  exact ⟨hread, by decide +kernel, relisting_reads_back hread⟩

end Polish
