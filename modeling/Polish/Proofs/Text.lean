import Mathlib.Data.List.Flatten
import Polish.Proofs.Rune
import Polish.Text.Lines

/-
  Fields and lines — texts that reading takes apart again

  Reading goes by runes, because white space is a property of characters. A field is
  any text without a blank rune. Its bytes need not be characters: a name may end in
  a lead byte, and the space behind it stays a space. What writing puts together
  with single spaces comes apart at the same places, and what reading cut out of a
  text is such that it can be put together again.

  What is proved:
    1. `ofByte_mem_runes` — an ASCII byte is a rune of its own, wherever it stands.
    2. `fields_joinWith` — fields with single spaces between them are the fields of
       the text they make.
    3. `trim_joinWith` and `chomp_joinWith` — such a text has no white space and no
       carriage return to take off.
    4. `isField_of_mem_fields`, `length_joinWith_fields` — what is cut out of a text
       are fields, and with single spaces between them they are not longer than it;
       nor is a text that was trimmed (`trim_sublist`, `length_chomp_le`).
    5. `lines_unlines` — texts without newlines are the lines of their listing.
-/

namespace Polish.Text

/-! ## ASCII bytes -/

def Rune.ofByte (b : UInt8) : Rune := ⟨[b], some b.toNat⟩

theorem frontRune_of_ascii {b : UInt8} (h : b.toNat < 128) (rest : Text) :
    frontRune b rest = Rune.ofByte b := by
  have hb : b < 0x80 := UInt8.lt_iff_toNat_lt.mpr h
  rw [frontRune, if_pos hb, Rune.ofByte]

theorem runes_ascii_cons {b : UInt8} (h : b.toNat < 128) (rest : Text) :
    runes (b :: rest) = Rune.ofByte b :: runes rest := by
  rw [runes_cons, frontRune_of_ascii h]
  rfl

/-- A text may be cut at an ASCII byte. -/
theorem runes_append_ascii {b : UInt8} (h : b.toNat < 128) (t rest : Text) :
    runes (t ++ b :: rest) = runes t ++ Rune.ofByte b :: runes rest := by
  have hopens : Opens (b :: rest) := by
    rw [opens_cons, isTrailing, Bool.and_eq_false_iff, decide_eq_false_iff_not]
    exact .inl (UInt8.not_le.mpr (UInt8.lt_iff_toNat_lt.mpr h))
  rw [runes_append t hopens, runes_ascii_cons h]

theorem ofByte_mem_runes {b : UInt8} {t : Text} (h : b.toNat < 128) (hmem : b ∈ t) :
    Rune.ofByte b ∈ runes t := by
  obtain ⟨before, after, rfl⟩ := List.append_of_mem hmem
  rw [runes_append_ascii h]
  exact List.mem_append_right _ List.mem_cons_self

theorem space_blank : (Rune.ofByte 32).isBlank = true := by decide

/-! ## Words and fields -/

/-- A byte that is seen: an ASCII character other than white space and controls. -/
def IsVisible (b : UInt8) : Prop := 32 < b.toNat ∧ b.toNat < 127

/-- A word is one visible byte or more. -/
structure IsWord (t : Text) : Prop where
  ne_nil : t ≠ []
  visible : ∀ b ∈ t, IsVisible b

/-- A field is one rune or more, none of them blank. -/
structure IsField (t : Text) : Prop where
  ne_nil : t ≠ []
  not_blank : ∀ r ∈ runes t, r.isBlank = false

theorem IsVisible.of_range {low high b : UInt8} (hlow : low ≤ b) (hhigh : b ≤ high)
    (hfirst : 32 < low.toNat) (hlast : high.toNat < 127) : IsVisible b := by
  rw [UInt8.le_iff_toNat_le] at hlow hhigh
  exact ⟨Nat.lt_of_lt_of_le hfirst hlow, Nat.lt_of_le_of_lt hhigh hlast⟩

theorem IsVisible.not_blank {b : UInt8} (h : IsVisible b) : (Rune.ofByte b).isBlank = false := by
  obtain ⟨hlow, hhigh⟩ := h
  simp only [Rune.ofByte, Rune.isBlank, Option.any_some, isBlankCode, Bool.or_eq_false_iff,
    Bool.and_eq_false_iff, decide_eq_false_iff_not, beq_eq_false_iff_ne]
  omega

theorem IsWord.isField {t : Text} (h : IsWord t) : IsField t := by
  refine ⟨h.ne_nil, ?_⟩
  have hvisible := h.visible
  clear h
  induction t with
  | nil =>
    intro r hr
    rw [runes_nil] at hr
    cases hr
  | cons b rest ih =>
    obtain ⟨hb, hrest⟩ := List.forall_mem_cons.mp hvisible
    have hascii : b.toNat < 128 := Nat.lt_trans hb.2 (by decide)
    rw [runes_ascii_cons hascii]
    exact List.forall_mem_cons.mpr ⟨hb.not_blank, ih hrest⟩

theorem IsField.not_mem {t : Text} (h : IsField t) {b : UInt8} (hb : b.toNat < 128)
    (hblank : (Rune.ofByte b).isBlank = true) : b ∉ t := by
  intro hmem
  rw [h.not_blank _ (ofByte_mem_runes hb hmem)] at hblank
  cases hblank

/-! ## Runs of bytes -/

theorem takeWhile_append_stop {p : UInt8 → Bool} {word rest : Text}
    (hword : ∀ b ∈ word, p b = true) (hrest : ∀ b, rest.head? = some b → p b = false) :
    (word ++ rest).takeWhile p = word := by
  rw [List.takeWhile_append_of_pos hword]
  cases rest with
  | nil => simp
  | cons b rest => simp [hrest b rfl]

/-- A run of bytes of one sort, up to the first byte of another, is read in one way. -/
theorem append_inj_of_stop {p : UInt8 → Bool} {word word' rest rest' : Text}
    (hword : ∀ b ∈ word, p b = true) (hrest : ∀ b, rest.head? = some b → p b = false)
    (hword' : ∀ b ∈ word', p b = true) (hrest' : ∀ b, rest'.head? = some b → p b = false)
    (h : word ++ rest = word' ++ rest') : word = word' ∧ rest = rest' := by
  have hfront : word = word' := by
    rw [← takeWhile_append_stop hword hrest, h, takeWhile_append_stop hword' hrest']
  subst hfront
  exact ⟨rfl, List.append_cancel_left h⟩

/-! ## Joined fields -/

theorem joinWith_cons_cons {b : UInt8} (first second : Text) (rest : List Text) :
    joinWith [b] (first :: second :: rest) = first ++ b :: joinWith [b] (second :: rest) := by
  simp [joinWith, List.intercalate_cons_cons]

theorem joinWith_pair (first second : Text) :
    joinWith [32] [first, second] = first ++ 32 :: second := by
  rw [joinWith_cons_cons, joinWith, List.intercalate_singleton]

theorem runes_joinWith_cons_cons (first second : Text) (rest : List Text) :
    runes (joinWith [32] (first :: second :: rest)) =
      runes first ++ Rune.ofByte 32 :: runes (joinWith [32] (second :: rest)) := by
  rw [joinWith_cons_cons, runes_append_ascii (by decide)]

theorem mem_joinWith {words : List Text} {b : UInt8} (h : b ∈ joinWith [32] words) :
    b = 32 ∨ ∃ word ∈ words, b ∈ word := by
  induction words with
  | nil => cases h
  | cons first rest ih =>
    cases rest with
    | nil => exact .inr ⟨first, List.mem_cons_self, by simpa [joinWith] using h⟩
    | cons second rest =>
      rw [joinWith_cons_cons, List.mem_append, List.mem_cons] at h
      rcases h with hfirst | hspace | hrest
      · exact .inr ⟨first, List.mem_cons_self, hfirst⟩
      · exact .inl hspace
      · rcases ih hrest with hspace | ⟨word, hword, hb⟩
        · exact .inl hspace
        · exact .inr ⟨word, List.mem_cons_of_mem _ hword, hb⟩

theorem splitOnP_joinWith {words : List Text} (hne : words ≠ [])
    (h : ∀ word ∈ words, IsField word) :
    (runes (joinWith [32] words)).splitOnP Rune.isBlank = words.map runes := by
  induction words with
  | nil => exact absurd rfl hne
  | cons first rest ih =>
    have hfirst := (h first List.mem_cons_self).not_blank
    cases rest with
    | nil => simpa [joinWith] using List.splitOnP_eq_singleton hfirst
    | cons second rest =>
      rw [runes_joinWith_cons_cons,
        List.splitOnP_append_cons_of_forall_mem hfirst _ space_blank, List.map_cons,
        ih (List.cons_ne_nil _ _) fun word hword => h word (List.mem_cons_of_mem _ hword)]

theorem fields_joinWith {words : List Text} (hne : words ≠ [])
    (h : ∀ word ∈ words, IsField word) : fields (joinWith [32] words) = words := by
  unfold fields
  rw [splitOnP_joinWith hne h, List.map_map]
  have hback : ofRunes ∘ runes = id := funext ofRunes_runes
  rw [hback, List.map_id, List.filter_eq_self]
  intro word hword
  simpa using (h word hword).ne_nil

/-! ## The ends of a line -/

theorem dropWhile_eq_self {α : Type} {p : α → Bool} {l : List α}
    (h : ∀ a, l.head? = some a → p a = false) : l.dropWhile p = l := by
  cases l with
  | nil => rfl
  | cons a rest => exact List.dropWhile_cons_of_neg (by simp [h a rfl])

theorem trim_eq_self {t : Text} (hhead : ∀ r, (runes t).head? = some r → r.isBlank = false)
    (hlast : ∀ r, (runes t).getLast? = some r → r.isBlank = false) : trim t = t := by
  have hback : (runes t).reverse.dropWhile Rune.isBlank = (runes t).reverse := by
    apply dropWhile_eq_self
    intro r hr
    rw [List.head?_reverse] at hr
    exact hlast r hr
  unfold trim
  simp only [dropWhile_eq_self hhead, hback, List.reverse_reverse, ofRunes_runes]

theorem chomp_eq_self {t : Text} (hlast : ∀ r, (runes t).getLast? = some r → r.isBlank = false) :
    chomp t = t := by
  apply if_neg
  intro hreturn
  obtain ⟨before, rfl⟩ := List.getLast?_eq_some_iff.mp hreturn
  have hblank := hlast (Rune.ofByte carriageReturn) (by
    rw [runes_append_ascii (by decide), runes_nil, List.getLast?_concat])
  revert hblank
  decide

theorem head?_joinWith {first : Text} (h : first ≠ []) (rest : List Text) :
    (joinWith [32] (first :: rest)).head? = first.head? := by
  cases rest with
  | nil => simp [joinWith]
  | cons second rest =>
    rw [joinWith_cons_cons]
    cases first with
    | nil => exact absurd rfl h
    | cons b first => rfl

theorem joinWith_ne_nil {first : Text} (h : first ≠ []) (rest : List Text) :
    joinWith [32] (first :: rest) ≠ [] := by
  intro hnil
  have hhead := head?_joinWith h rest
  rw [hnil, List.head?_nil, eq_comm, List.head?_eq_none_iff] at hhead
  exact h hhead

theorem head?_runes_joinWith {words : List Text} (h : ∀ word ∈ words, IsField word) {r : Rune}
    (hr : (runes (joinWith [32] words)).head? = some r) : r.isBlank = false := by
  cases words with
  | nil =>
    rw [show joinWith [32] [] = [] from rfl, runes_nil] at hr
    cases hr
  | cons first rest =>
    have hfirst := h first List.mem_cons_self
    apply hfirst.not_blank
    cases rest with
    | nil =>
      rw [joinWith, List.intercalate_singleton] at hr
      exact List.mem_of_head? hr
    | cons second rest =>
      obtain ⟨r₀, rs, hrunes⟩ := List.exists_cons_of_ne_nil (runes_ne_nil hfirst.ne_nil)
      rw [runes_joinWith_cons_cons, hrunes] at hr
      cases hr
      rw [hrunes]
      exact List.mem_cons_self

theorem getLast?_runes_joinWith {words : List Text} (h : ∀ word ∈ words, IsField word) {r : Rune}
    (hr : (runes (joinWith [32] words)).getLast? = some r) : r.isBlank = false := by
  induction words with
  | nil =>
    rw [show joinWith [32] [] = [] from rfl, runes_nil] at hr
    cases hr
  | cons first rest ih =>
    cases rest with
    | nil =>
      rw [joinWith, List.intercalate_singleton] at hr
      exact (h first List.mem_cons_self).not_blank r (List.mem_of_getLast? hr)
    | cons second rest =>
      have hrest : ∀ word ∈ second :: rest, IsField word :=
        fun word hword => h word (List.mem_cons_of_mem _ hword)
      have hne := runes_ne_nil (joinWith_ne_nil (hrest second List.mem_cons_self).ne_nil rest)
      apply ih hrest
      rw [runes_joinWith_cons_cons, List.getLast?_append, List.getLast?_cons,
        List.getLast?_eq_some_getLast hne] at hr
      rw [List.getLast?_eq_some_getLast hne]
      exact hr

theorem trim_joinWith {words : List Text} (h : ∀ word ∈ words, IsField word) :
    trim (joinWith [32] words) = joinWith [32] words :=
  trim_eq_self (fun _ => head?_runes_joinWith h) (fun _ => getLast?_runes_joinWith h)

theorem chomp_joinWith {words : List Text} (h : ∀ word ∈ words, IsField word) :
    chomp (joinWith [32] words) = joinWith [32] words :=
  chomp_eq_self fun _ => getLast?_runes_joinWith h

theorem newline_not_mem_joinWith {words : List Text} (h : ∀ word ∈ words, IsField word) :
    newline ∉ joinWith [32] words := by
  intro hnewline
  rcases mem_joinWith hnewline with hspace | ⟨word, hword, hmem⟩
  · revert hspace
    decide
  · exact (h word hword).not_mem (by decide) (by decide) hmem

/-! ## What is cut out of a text -/

/-- Induction along the places at which a list is split. -/
theorem splitOnP_induction {α : Type} {p : α → Bool} {motive : List α → List (List α) → Prop}
    (single : ∀ piece, (∀ a ∈ piece, p a = false) → motive piece [piece])
    (cons : ∀ piece a rest, (∀ a ∈ piece, p a = false) → p a = true →
      motive rest (rest.splitOnP p) → motive (piece ++ a :: rest) (piece :: rest.splitOnP p))
    (l : List α) : motive l (l.splitOnP p) := by
  cases hfind : l.find? p with
  | none =>
    have hall : ∀ a ∈ l, p a = false := by simpa using hfind
    rw [List.splitOnP_eq_singleton hall]
    exact single l hall
  | some a =>
    obtain ⟨ha, piece, rest, hsplit, hpiece⟩ := List.find?_eq_some_iff_append.mp hfind
    have hall : ∀ a ∈ piece, p a = false := by simpa using hpiece
    have ih := splitOnP_induction single cons rest
    rw [hsplit, List.splitOnP_append_cons_of_forall_mem hall a ha]
    exact cons piece a rest hall ha ih
termination_by l.length
decreasing_by
  rw [hsplit, List.length_append, List.length_cons]
  omega

theorem isSome_code_of_isBlank {r : Rune} (h : r.isBlank = true) : r.code.isSome = true := by
  cases hcode : r.code with
  | none => simp [Rune.isBlank, hcode] at h
  | some code => rfl

theorem runes_of_mem_splitOnP (t : Text) : ∀ piece ∈ (runes t).splitOnP Rune.isBlank,
    runes (ofRunes piece) = piece ∧ ∀ r ∈ piece, r.isBlank = false := by
  refine splitOnP_induction
    (motive := fun rs pieces => ∀ t, runes t = rs → ∀ piece ∈ pieces,
      runes (ofRunes piece) = piece ∧ ∀ r ∈ piece, r.isBlank = false) ?_ ?_ (runes t) t rfl
  · intro rs hall t ht piece hpiece
    rw [List.mem_singleton.mp hpiece]
    exact ⟨by rw [← ht, ofRunes_runes], hall⟩
  · intro first blank rest hfirst hblank ih t ht piece hpiece
    rcases List.mem_cons.mp hpiece with rfl | hpiece
    · -- the blank behind it is a character, so the text may be cut there
      refine ⟨runes_ofRunes_of_append ht ?_, hfirst⟩
      intro r hr
      cases hr
      exact isSome_code_of_isBlank hblank
    · rw [← List.singleton_append, ← List.append_assoc] at ht
      exact ih _ (runes_ofRunes_suffix ht) piece hpiece

theorem isField_of_mem_fields {t field : Text} (h : field ∈ fields t) : IsField field := by
  obtain ⟨hmem, hne⟩ := List.mem_filter.mp h
  obtain ⟨piece, hpiece, rfl⟩ := List.mem_map.mp hmem
  obtain ⟨hrunes, hblank⟩ := runes_of_mem_splitOnP t piece hpiece
  refine ⟨by simpa using hne, ?_⟩
  rw [hrunes]
  exact hblank

theorem trim_sublist (t : Text) : (trim t).Sublist t := by
  have hfront : ((runes t).dropWhile Rune.isBlank).Sublist (runes t) := List.dropWhile_sublist _
  have hback : (((runes t).dropWhile Rune.isBlank).reverse.dropWhile Rune.isBlank).reverse.Sublist
      ((runes t).dropWhile Rune.isBlank) :=
    List.reverse_sublist.mp (by simpa using List.dropWhile_sublist _)
  have hsub := List.Sublist.flatMap (hback.trans hfront) Rune.bytes
  rwa [show (runes t).flatMap Rune.bytes = t from ofRunes_runes t] at hsub

theorem length_chomp_le (t : Text) : (chomp t).length ≤ t.length := by
  unfold chomp
  split
  · rw [List.length_dropLast]
    omega
  · exact Nat.le_refl _

theorem length_joinWith_cons_le (first : Text) (rest : List Text) :
    (joinWith [32] (first :: rest)).length ≤ first.length + 1 + (joinWith [32] rest).length := by
  cases rest with
  | nil => simp [joinWith]
  | cons second rest =>
    rw [joinWith_cons_cons, List.length_append, List.length_cons]
    omega

/-- The fields of a text with single spaces between them are not longer than the
text, where at least one blank stands between any two of them. -/
theorem length_joinWith_fields (t : Text) : (joinWith [32] (fields t)).length ≤ t.length := by
  have hpieces : (∀ r ∈ runes t, 0 < r.bytes.length) →
      (joinWith [32] (fields t)).length ≤ (ofRunes (runes t)).length := by
    unfold fields
    refine splitOnP_induction (motive := fun rs pieces => (∀ r ∈ rs, 0 < r.bytes.length) →
      (joinWith [32] ((pieces.map ofRunes).filter fun field => !field.isEmpty)).length ≤
        (ofRunes rs).length) ?_ ?_ (runes t)
    · intro rs hall hpos
      by_cases hempty : (ofRunes rs).isEmpty
      · simp [hempty, joinWith]
      · simp [hempty, joinWith]
    · intro first blank rest hfirst hblank ih hpos
      have hrest := ih fun r hr => hpos r (List.mem_append_right _ (List.mem_cons_of_mem _ hr))
      have hone := hpos blank (List.mem_append_right _ List.mem_cons_self)
      have hlength : (ofRunes (first ++ blank :: rest)).length =
          (ofRunes first).length + (blank.bytes.length + (ofRunes rest).length) := by
        simp [ofRunes]
      rw [hlength, List.map_cons]
      by_cases hempty : (ofRunes first).isEmpty
      · rw [List.filter_cons_of_neg (by simpa using hempty)]
        omega
      · rw [List.filter_cons_of_pos (by simpa using hempty)]
        have hcons := length_joinWith_cons_le (ofRunes first)
          ((rest.splitOnP Rune.isBlank).map ofRunes |>.filter fun field => !field.isEmpty)
        omega
  rw [ofRunes_runes] at hpieces
  apply hpieces
  intro r hr
  obtain ⟨b, tail, hbytes, -⟩ := bytes_of_mem_runes hr
  rw [hbytes, List.length_cons]
  omega

/-! ## Lines -/

theorem splitOn_unlines {parts : List Text} (h : ∀ part ∈ parts, newline ∉ part) :
    (unlines parts).splitOn newline = parts ++ [[]] := by
  induction parts with
  | nil => rfl
  | cons part rest ih =>
    have hpart : ∀ b ∈ part, (b == newline) = false := by
      intro b hb
      simp only [beq_eq_false_iff_ne]
      rintro rfl
      exact h part List.mem_cons_self hb
    have hunlines : unlines (part :: rest) = part ++ newline :: unlines rest := by
      simp [unlines]
    rw [hunlines, List.splitOn,
      List.splitOnP_append_cons_of_forall_mem hpart newline (beq_self_eq_true _), List.cons_append,
      ← ih fun part hmem => h part (List.mem_cons_of_mem _ hmem), List.splitOn]

theorem not_mem_of_mem_splitOn {separator : UInt8} {t piece : Text}
    (h : piece ∈ t.splitOn separator) : separator ∉ piece := by
  have hpieces : ∀ piece ∈ t.splitOnP (· == separator), ∀ b ∈ piece, (b == separator) = false := by
    refine splitOnP_induction (motive := fun _ pieces => ∀ piece ∈ pieces, ∀ b ∈ piece,
      (b == separator) = false) ?_ ?_ t
    · intro piece hall other hother
      rwa [List.mem_singleton.mp hother]
    · intro piece _ rest hall _ ih other hother
      rcases List.mem_cons.mp hother with rfl | hrest
      · exact hall
      · exact ih other hrest
  intro hmem
  simpa using hpieces piece h separator hmem

theorem lines_unlines {parts : List Text} (h : ∀ part ∈ parts, newline ∉ part) :
    lines (unlines parts) = parts := by
  unfold lines
  simp only [splitOn_unlines h, List.getLast?_concat, List.dropLast_concat, if_true]

end Polish.Text
