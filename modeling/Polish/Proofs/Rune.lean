import Polish.Text.Blank

/-
  Runes — where a text may be cut

  A text is read rune by rune from the left, and what a byte is taken for depends
  on the bytes behind it: a lead byte needs its trailing bytes. So two texts, one
  after the other, may read otherwise than each alone. They do not if the second
  opens with a byte that cannot trail another one, and every character opens with
  such a byte. A text may thus be cut in front of any character, also where the
  bytes before it are no characters at all.

  What is proved:
    1. `runes_front`, `rune_induction` — the rune at the front and the rest.
    2. `ofRunes_runes` — the bytes of the runes are the text.
    3. `runes_append` — the runes of a text that may be cut are those of its parts.
    4. `runes_ofRunes_of_append` — the runes in front of a character are those of
       the text they make.
-/

namespace Polish.Text

/-! ## One at a time -/

theorem toList_runesOnto (read : Array Rune) (t : Text) :
    (runesOnto read t).toList = read.toList ++ runes t := by
  match t with
  | [] => simp [runes, runesOnto]
  | b :: rest =>
    have ih := fun read =>
      toList_runesOnto read (rest.drop ((frontRune b rest).bytes.length - 1))
    rw [runes, runesOnto, runesOnto, ih, ih]
    simp
termination_by t.length
decreasing_by simp only [List.length_drop, List.length_cons]; omega

theorem runes_nil : runes [] = [] := by
  rw [runes, runesOnto]

theorem runes_cons (b : UInt8) (rest : Text) :
    runes (b :: rest) =
      frontRune b rest :: runes (rest.drop ((frontRune b rest).bytes.length - 1)) := by
  rw [runes, runesOnto, toList_runesOnto]
  simp

/-- What a rune is made of: its first byte alone, or a lead byte and the trailing
bytes that it announces. -/
inductive IsFront (b : UInt8) (rest : Text) : Rune → Prop
  | ascii (h : b < 0x80) : IsFront b rest ⟨[b], some b.toNat⟩
  | stray : IsFront b rest ⟨[b], none⟩
  | character {n : Nat} {low high : UInt8} (announced : announced b = some (n, low, high))
      (length : (rest.take n).length = n) (trailing : (rest.take n).all isTrailing = true) :
      IsFront b rest ⟨b :: rest.take n, some (characterNumber b (rest.take n))⟩

theorem isFront_frontRune (b : UInt8) (rest : Text) : IsFront b rest (frontRune b rest) := by
  unfold frontRune
  split
  · next h => exact .ascii h
  · split
    · exact .stray
    · next n low high hannounced =>
      dsimp only
      split
      · next h =>
        simp only [Bool.and_eq_true, decide_eq_true_eq] at h
        exact .character hannounced h.1.1 h.1.2
      · exact .stray

theorem frontRune_bytes (b : UInt8) (rest : Text) :
    ∃ tail after, rest = tail ++ after ∧ (frontRune b rest).bytes = b :: tail := by
  generalize hrune : frontRune b rest = r
  have hfront : IsFront b rest r := hrune ▸ isFront_frontRune b rest
  cases hfront with
  | ascii h => exact ⟨[], rest, rfl, rfl⟩
  | stray => exact ⟨[], rest, rfl, rfl⟩
  | @character n low high announced length trailing =>
    exact ⟨rest.take n, rest.drop n, (List.take_append_drop n rest).symm, rfl⟩

theorem runes_front {b : UInt8} {tail after : Text}
    (h : (frontRune b (tail ++ after)).bytes = b :: tail) :
    runes (b :: (tail ++ after)) = frontRune b (tail ++ after) :: runes after := by
  rw [runes_cons, h, List.length_cons, Nat.add_sub_cancel, List.drop_left]

/-- Induction along the runes of a text. -/
theorem rune_induction {motive : Text → Prop} (nil : motive [])
    (front : ∀ b tail after, (frontRune b (tail ++ after)).bytes = b :: tail → motive after →
      motive (b :: (tail ++ after))) (t : Text) : motive t := by
  match t with
  | [] => exact nil
  | b :: rest =>
    obtain ⟨tail, after, hrest, hbytes⟩ := frontRune_bytes b rest
    have ih := rune_induction nil front after
    subst hrest
    exact front b tail after hbytes ih
termination_by t.length
decreasing_by
  subst hrest
  simp only [List.length_cons, List.length_append]
  omega

theorem ofRunes_append (rs rs' : List Rune) : ofRunes (rs ++ rs') = ofRunes rs ++ ofRunes rs' :=
  List.flatMap_append

theorem ofRunes_runes (t : Text) : ofRunes (runes t) = t := by
  induction t using rune_induction with
  | nil => rw [runes_nil]; rfl
  | front b tail after h ih =>
    rw [runes_front h]
    show (frontRune b (tail ++ after)).bytes ++ ofRunes (runes after) = _
    rw [h, ih]
    rfl

theorem runes_ne_nil {t : Text} (h : t ≠ []) : runes t ≠ [] := by
  intro hnil
  have hbytes := ofRunes_runes t
  rw [hnil] at hbytes
  exact h hbytes.symm

/-! ## Cutting a text -/

/-- The text does not start with a byte that may trail another one. -/
def Opens (t : Text) : Prop := ∀ b, t.head? = some b → isTrailing b = false

theorem opens_cons {b : UInt8} {t : Text} : Opens (b :: t) ↔ isTrailing b = false := by
  simp [Opens]

theorem mem_take_append {n : Nat} {rest : Text} (h : rest.length < n) (c : UInt8) (more : Text) :
    c ∈ (rest ++ c :: more).take n := by
  obtain ⟨k, hk⟩ := Nat.exists_eq_add_of_lt h
  have hleft : n - rest.length = k + 1 := by omega
  rw [List.take_append, hleft, List.take_succ_cons]
  exact List.mem_append_right _ List.mem_cons_self

/-- A lead byte that lacks trailing bytes does not find them in a text that opens
with another byte. -/
theorem frontRune_append (b : UInt8) (rest : Text) {more : Text} (h : Opens more) :
    frontRune b (rest ++ more) = frontRune b rest := by
  unfold frontRune
  split
  · rfl
  · cases announced b with
    | none => rfl
    | some announced =>
      obtain ⟨n, low, high⟩ := announced
      dsimp only
      by_cases hn : n ≤ rest.length
      · rw [List.take_append_of_le_length hn]
      · have hshort : (rest.take n).length ≠ n := by
          rw [List.length_take]
          omega
        have hrefused : ¬ (((rest ++ more).take n).length = n ∧
            ((rest ++ more).take n).all isTrailing = true) := by
          intro ⟨hlength, htrailing⟩
          cases more with
          | nil =>
            rw [List.append_nil] at hlength
            exact hshort hlength
          | cons c more =>
            have hmem := mem_take_append (Nat.not_le.mp hn) c more
            have hc := List.all_eq_true.mp htrailing c hmem
            rw [opens_cons.mp h] at hc
            cases hc
        rw [if_neg, if_neg]
        · simp only [Bool.and_eq_true, decide_eq_true_eq]
          exact fun hall => hshort hall.1.1
        · simp only [Bool.and_eq_true, decide_eq_true_eq]
          exact fun hall => hrefused hall.1

/-- The runes of a text that may be cut are those of its parts. -/
theorem runes_append (t : Text) {more : Text} (h : Opens more) :
    runes (t ++ more) = runes t ++ runes more := by
  induction t using rune_induction with
  | nil => rw [runes_nil, List.nil_append, List.nil_append]
  | front b tail after hbytes ih =>
    have hfront := frontRune_append b (tail ++ after) h
    rw [runes_front hbytes, List.cons_append, List.append_assoc]
    rw [List.append_assoc] at hfront
    rw [← hfront] at hbytes
    rw [runes_front hbytes, hfront, ih, List.cons_append]

theorem IsFront.not_isTrailing {b : UInt8} {rest : Text} {r : Rune} (h : IsFront b rest r)
    (hcode : r.code.isSome = true) : isTrailing b = false := by
  rw [isTrailing, Bool.and_eq_false_iff, decide_eq_false_iff_not, decide_eq_false_iff_not,
    UInt8.not_le, UInt8.not_le]
  cases h with
  | ascii h => exact .inl h
  | stray => cases hcode
  | character announced =>
    -- the least lead byte is larger than every trailing one
    refine .inr ?_
    unfold Text.announced at announced
    split at announced
    · cases announced
    · next hlead =>
      rw [UInt8.lt_iff_toNat_lt] at hlead ⊢
      exact Nat.lt_of_lt_of_le (by decide) (Nat.not_lt.mp hlead)

theorem bytes_of_mem_runes {t : Text} {r : Rune} (h : r ∈ runes t) :
    ∃ b tail, r.bytes = b :: tail ∧ (r.code.isSome = true → isTrailing b = false) := by
  induction t using rune_induction with
  | nil =>
    rw [runes_nil] at h
    cases h
  | front b tail after hbytes ih =>
    rw [runes_front hbytes, List.mem_cons] at h
    rcases h with rfl | h
    · exact ⟨b, tail, hbytes, (isFront_frontRune b (tail ++ after)).not_isTrailing⟩
    · exact ih h

/-- At any place among the runes of a text, the runes that follow are those of the
text that they make. -/
theorem runes_ofRunes_suffix {t : Text} {rs rs' : List Rune} (h : runes t = rs ++ rs') :
    runes (ofRunes rs') = rs' := by
  induction rs generalizing t with
  | nil =>
    rw [List.nil_append] at h
    rw [← h, ofRunes_runes]
  | cons r rs ih =>
    cases t with
    | nil =>
      rw [runes_nil] at h
      cases h
    | cons b rest =>
      rw [runes_cons, List.cons_append, List.cons.injEq] at h
      exact ih h.2

/-- In front of a character, and at the end, so are the runes that come before. -/
theorem runes_ofRunes_of_append {t : Text} {rs rs' : List Rune} (h : runes t = rs ++ rs')
    (hcode : ∀ r, rs'.head? = some r → r.code.isSome = true) : runes (ofRunes rs) = rs := by
  have hopens : Opens (ofRunes rs') := by
    cases rs' with
    | nil => exact fun b hb => by cases hb
    | cons r rs' =>
      have hmem : r ∈ runes t := by
        rw [h]
        exact List.mem_append_right _ List.mem_cons_self
      obtain ⟨b, tail, hbytes, hopens⟩ := bytes_of_mem_runes hmem
      show Opens (r.bytes ++ ofRunes rs')
      rw [hbytes, List.cons_append, opens_cons]
      exact hopens (hcode r rfl)
  have hparts := runes_append (ofRunes rs) hopens
  rw [← ofRunes_append, ← h, ofRunes_runes, h, runes_ofRunes_suffix h] at hparts
  exact (List.append_cancel_right hparts).symm

end Polish.Text
