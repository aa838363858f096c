import Mathlib.Data.List.Sort
import Polish.Proofs.Table
import Polish.Proofs.Token

/-
  Canonical texts — a table is told by its text

  The text of a table lists its entries in the order of their names. Tables that were
  filled in another order, through overwritten values, after a reset or as copies have
  the same text as long as they bind the same values, and no others have. What tables
  bind is said by functions from names to values, updated one change at a time.

  What is proved:
    1. `mem_entries_iff`, `eq_of_get?_eq` — the entries are the bindings, and tables that
       bind alike are equal.
    2. `text_inj` — the entries can be read off the text, if the names are names.
    3. `map_get?_performAll` — after any changes the tables bind what the functions say.
    4. `table_texts_canonical` — all this for tables that any changes lead to.
-/

namespace Polish.Table

/-! ## Tables and what they bind -/

theorem find?_eq_some_iff {entries : List (Text × Int64)} (h : Ascending entries) {name : Text}
    {value : Int64} :
    (entries.find? fun entry => entry.1 == name).map Prod.snd = some value ↔
      (name, value) ∈ entries := by
  induction entries with
  | nil => simp
  | cons first rest ih =>
    obtain ⟨hfirst, hrest⟩ := List.pairwise_cons.mp h
    by_cases hname : first.1 = name
    · have habsent : (name, value) ∉ rest := by
        intro hmem
        have hlt : first.1 < name := hfirst _ hmem
        rw [hname] at hlt
        exact List.lt_irrefl name hlt
      simp [hname, habsent, Prod.ext_iff, eq_comm]
    · have hne : (name, value) ≠ first := by
        rintro rfl
        exact hname rfl
      simp [hname, hne, ih hrest]

theorem mem_entries_iff {t : Table} {name : Text} {value : Int64} :
    (name, value) ∈ t.entries ↔ t.get? name = some value :=
  (find?_eq_some_iff t.ascending).symm

theorem mem_names_iff {t : Table} {name : Text} : name ∈ t.names ↔ t.contains name = true := by
  rw [contains_iff, names, List.mem_map]
  constructor
  · rintro ⟨⟨_, value⟩, hmem, rfl⟩
    exact ⟨value, mem_entries_iff.mp hmem⟩
  · rintro ⟨value, hvalue⟩
    exact ⟨(name, value), mem_entries_iff.mpr hvalue, rfl⟩

theorem pairwise_names (t : Table) : t.names.Pairwise (· < ·) :=
  List.pairwise_map.mpr t.ascending

theorem eq_of_get?_eq {t u : Table} (h : ∀ name, t.get? name = u.get? name) : t = u := by
  have hirrefl : Std.Irrefl fun a b : Text × Int64 => a.1 < b.1 :=
    ⟨fun a => List.lt_irrefl a.1⟩
  have hantisymm : Std.Antisymm fun a b : Text × Int64 => a.1 < b.1 :=
    ⟨fun a b hab hba => absurd hba (List.lt_asymm hab)⟩
  apply ext
  apply List.Pairwise.eq_of_mem_iff t.ascending u.ascending
  rintro ⟨name, value⟩
  rw [mem_entries_iff, mem_entries_iff, h]

/-! ## The text of a table, read from the left -/

def entryText (entry : Text × Int64) : Text := entry.1 ++ ascii "=" ++ Literal.write entry.2

/-- What stands behind an entry in the text of a table. -/
def textBehind : List (Text × Int64) → Text
  | [] => ascii "\x7d"
  | entry :: rest => ascii ", " ++ (entryText entry ++ textBehind rest)

/-- The text of a table behind its opening brace. -/
def textInside : List (Text × Int64) → Text
  | [] => ascii "\x7d"
  | entry :: rest => entryText entry ++ textBehind rest

theorem joinWith_entryText (entry : Text × Int64) (rest : List (Text × Int64)) :
    Text.joinWith (ascii ", ") ((entry :: rest).map entryText) ++ ascii "\x7d" =
      entryText entry ++ textBehind rest := by
  induction rest generalizing entry with
  | nil => simp [Text.joinWith, textBehind]
  | cons second rest ih =>
    have hrest := ih second
    simp only [List.map_cons, Text.joinWith] at hrest
    simp [Text.joinWith, List.intercalate_cons_cons, textBehind, hrest]

theorem text_eq (t : Table) : t.text = ascii "\x7b" ++ textInside t.entries := by
  show ascii "\x7b" ++ Text.joinWith (ascii ", ") (t.entries.map entryText) ++ ascii "\x7d" = _
  rw [List.append_assoc]
  cases t.entries with
  | nil => rfl
  | cons entry rest => rw [joinWith_entryText, textInside]

def isLiteralByte (b : UInt8) : Bool := Text.isDigit b || b == 45

theorem isLiteralByte_of_mem_write {v : Int64} {b : UInt8} (h : b ∈ Literal.write v) :
    isLiteralByte b = true := by
  have hdigit : ∀ {n}, b ∈ Text.decimal n → isLiteralByte b = true := by
    intro n hmem
    simp [isLiteralByte, Text.isDigit_of_mem_decimal hmem]
  rcases Int64.le_or_lt 0 v with hsign | hsign
  · rw [Literal.write_of_nonneg hsign] at h
    exact hdigit h
  · rw [Literal.write_of_neg hsign] at h
    rcases List.mem_cons.mp h with rfl | hmem
    · rfl
    · exact hdigit hmem

/-- Behind an entry comes a comma or the closing brace, no more of the value. -/
theorem textBehind_stops (entries : List (Text × Int64)) :
    ∀ b, (textBehind entries).head? = some b → isLiteralByte b = false := by
  cases entries with
  | nil =>
    intro b hb
    obtain rfl : 125 = b := Option.some.inj hb
    decide
  | cons entry rest =>
    intro b hb
    obtain rfl : 44 = b := Option.some.inj hb
    decide

/-- An entry is told by its text, and so is the place where its text ends: the name goes
up to the `=`, the value up to what stands behind the entry. -/
theorem entryText_append_inj {entry entry' : Text × Int64} {rest rest' : List (Text × Int64)}
    (hname : TokenKind.isName entry.1 = true) (hname' : TokenKind.isName entry'.1 = true)
    (h : entryText entry ++ textBehind rest = entryText entry' ++ textBehind rest') :
    entry = entry' ∧ textBehind rest = textBehind rest' := by
  obtain ⟨name, value⟩ := entry
  obtain ⟨name', value'⟩ := entry'
  simp only [entryText, List.append_assoc] at h
  have hequals : ∀ (t : Text) (b : UInt8), (ascii "=" ++ t).head? = some b →
      TokenKind.isNameByte b = false := by
    intro t b hb
    obtain rfl : 61 = b := Option.some.inj hb
    decide
  obtain ⟨rfl, htail⟩ := Text.append_inj_of_stop
    (fun b hb => TokenKind.isNameByte_of_mem hname hb) (hequals _)
    (fun b hb => TokenKind.isNameByte_of_mem hname' hb) (hequals _) h
  obtain ⟨hvalue, hrest⟩ := Text.append_inj_of_stop
    (fun b hb => isLiteralByte_of_mem_write hb) (textBehind_stops rest)
    (fun b hb => isLiteralByte_of_mem_write hb) (textBehind_stops rest')
    (List.append_cancel_left htail)
  rw [Literal.write_injective hvalue]
  exact ⟨rfl, hrest⟩

def HasNames (entries : List (Text × Int64)) : Prop :=
  ∀ entry ∈ entries, TokenKind.isName entry.1 = true

theorem textBehind_inj {entries entries' : List (Text × Int64)} (hnames : HasNames entries)
    (hnames' : HasNames entries') (h : textBehind entries = textBehind entries') :
    entries = entries' := by
  induction entries generalizing entries' with
  | nil =>
    cases entries' with
    | nil => rfl
    | cons entry' rest' => simp [textBehind, ascii] at h
  | cons entry rest ih =>
    cases entries' with
    | nil => simp [textBehind, ascii] at h
    | cons entry' rest' =>
      obtain ⟨hname, hrest⟩ := List.forall_mem_cons.mp hnames
      obtain ⟨hname', hrest'⟩ := List.forall_mem_cons.mp hnames'
      obtain ⟨rfl, hbehind⟩ := entryText_append_inj hname hname' (List.append_cancel_left h)
      rw [ih hrest hrest' hbehind]

theorem entryText_append_ne {entry : Text × Int64} (h : TokenKind.isName entry.1 = true)
    (rest : Text) : entryText entry ++ rest ≠ ascii "\x7d" := by
  intro heq
  have hne : entry.1 ≠ [] := by
    intro hnil
    rw [hnil] at h
    cases h
  rw [entryText, List.append_assoc, List.append_assoc] at heq
  have hbyte := TokenKind.isNameByte_of_word hne
    (fun b hb => TokenKind.isNameByte_of_mem h hb) heq
  revert hbyte
  decide

theorem text_inj {t u : Table} (ht : HasNames t.entries) (hu : HasNames u.entries)
    (h : t.text = u.text) : t = u := by
  rw [text_eq, text_eq] at h
  have hinside := List.append_cancel_left h
  apply ext
  cases hentries : t.entries with
  | nil =>
    cases hentries' : u.entries with
    | nil => rfl
    | cons entry' rest' =>
      rw [hentries, hentries'] at hinside
      rw [hentries'] at hu
      exact absurd hinside.symm (entryText_append_ne (hu entry' List.mem_cons_self) _)
  | cons entry rest =>
    rw [hentries] at ht hinside
    obtain ⟨hname, hrest⟩ := List.forall_mem_cons.mp ht
    cases hentries' : u.entries with
    | nil =>
      rw [hentries'] at hinside
      exact absurd hinside (entryText_append_ne hname _)
    | cons entry' rest' =>
      rw [hentries'] at hu hinside
      obtain ⟨hname', hrest'⟩ := List.forall_mem_cons.mp hu
      obtain ⟨rfl, hbehind⟩ := entryText_append_inj hname hname' hinside
      rw [textBehind_inj hrest hrest' hbehind]

/-! ## Changes of tables -/

section

variable {α β : Type} {values : List α} {i : Nat} {f : α → α}

theorem map_modify {view : α → β} {g : β → β}
    (h : ∀ a, view (f a) = g (view a)) :
    (values.modify i f).map view = (values.map view).modify i g := by
  apply List.ext_getElem?
  intro j
  rw [List.getElem?_map, List.getElem?_modify, List.getElem?_modify, List.getElem?_map]
  cases values[j]? with
  | none => rfl
  | some a =>
    by_cases hij : i = j
    · simp [hij, h]
    · simp [hij]

theorem forall_mem_modify {P : α → Prop} (h : ∀ a, P a → P (f a))
    (hvalues : ∀ a ∈ values, P a) : ∀ a ∈ values.modify i f, P a := by
  intro b hb
  obtain ⟨j, hj⟩ := List.mem_iff_getElem?.mp hb
  rw [List.getElem?_modify] at hj
  obtain ⟨a, ha, rfl⟩ := Option.map_eq_some_iff.mp hj
  have hmem := hvalues a (List.mem_of_getElem? ha)
  split
  · exact h a hmem
  · exact hmem

end

/-- What is done to the tables that there are, counted from zero: a name is bound in one
of them, one is emptied, or a copy of one becomes the last. -/
inductive Change where
  | declare (table : Nat) (name : Text) (value : Int64)
  | reset (table : Nat)
  | clone (table : Nat)
  deriving DecidableEq, Repr

namespace Change

/-- The tables after a change. One on a table that does not exist does nothing. -/
def perform (tables : List Table) : Change → List Table
  | .declare i name value => tables.modify i fun t => t.insert name value
  | .reset i => tables.modify i fun _ => .empty
  | .clone i => tables ++ tables[i]?.toList

/-- The tables after changes, which start with one table that is empty. -/
def performAll (changes : List Change) : List Table := changes.foldl perform [.empty]

/-- What the tables bind after a change: the name has the value bound last, and nothing
is bound after a reset. -/
def rebind (bindings : List (Text → Option Int64)) : Change → List (Text → Option Int64)
  | .declare i name value => bindings.modify i fun f => Function.update f name (some value)
  | .reset i => bindings.modify i fun _ _ => none
  | .clone i => bindings ++ bindings[i]?.toList

def rebindAll (changes : List Change) : List (Text → Option Int64) :=
  changes.foldl rebind [fun _ => none]

/-- Whether the name that a change binds, if it binds one, is a name. -/
def bindsName : Change → Bool
  | .declare _ name _ => TokenKind.isName name
  | .reset _ | .clone _ => true

/-- A change of the tables is the same change of what they bind. -/
theorem map_get?_perform (tables : List Table) (change : Change) :
    (perform tables change).map get? = rebind (tables.map get?) change := by
  cases change with
  | declare i name value =>
    apply map_modify
    intro t
    funext other
    rw [get?_insert, Function.update_apply]
    simp only [eq_comm]
  | reset i =>
    apply map_modify
    intro t
    rfl
  | clone i => simp [perform, rebind, Option.toList_map]

theorem map_get?_performAll (changes : List Change) :
    (performAll changes).map get? = rebindAll changes := by
  -- the induction is on the changes, for any tables they start from
  have hfrom : ∀ tables : List Table,
      (changes.foldl perform tables).map get? = changes.foldl rebind (tables.map get?) := by
    induction changes with
    | nil => exact fun _ => rfl
    | cons change rest ih =>
      intro tables
      rw [List.foldl_cons, List.foldl_cons, ih, map_get?_perform]
  exact hfrom [.empty]

theorem hasNames_insert {t : Table} (h : HasNames t.entries) {name : Text}
    (hname : TokenKind.isName name = true) (value : Int64) :
    HasNames (t.insert name value).entries := by
  intro entry hentry
  rcases mem_of_mem_insertEntry hentry with rfl | hold
  · exact hname
  · exact h entry hold

theorem hasNames_perform {tables : List Table} {change : Change} (hchange : change.bindsName = true)
    (h : ∀ t ∈ tables, HasNames t.entries) :
    ∀ t ∈ perform tables change, HasNames t.entries := by
  cases change with
  | declare i name value => exact forall_mem_modify (fun _ ht => hasNames_insert ht hchange value) h
  | reset i =>
    refine forall_mem_modify (fun _ _ => ?_) h
    intro entry hentry
    cases hentry
  | clone i =>
    intro t ht
    rcases List.mem_append.mp ht with hold | hcopy
    · exact h t hold
    · exact h t (List.mem_of_getElem? (Option.mem_toList.mp hcopy))

theorem hasNames_performAll {changes : List Change} (hchanges : ∀ a ∈ changes, a.bindsName = true) :
    ∀ t ∈ performAll changes, HasNames t.entries := by
  refine List.foldlRecOn (motive := fun tables => ∀ t ∈ tables, HasNames t.entries)
    changes perform ?_ ?_
  · intro t ht entry hentry
    rw [List.mem_singleton.mp ht] at hentry
    cases hentry
  · intro tables htables change hchange
    exact hasNames_perform (hchanges change hchange) htables

end Change

open Change

/-- Any two tables that changes lead to, if every name bound is a name, have the same text
exactly if they give every name the same value. What a table gives is what the changes
on it bound last, and its names stand in increasing order, each bound name once. -/
theorem table_texts_canonical {changes changes' : List Change}
    (hchanges : ∀ a ∈ changes, a.bindsName = true) (hchanges' : ∀ a ∈ changes', a.bindsName = true)
    {i i' : Nat} {t u : Table} (ht : (performAll changes)[i]? = some t)
    (hu : (performAll changes')[i']? = some u) :
    (rebindAll changes)[i]? = some t.get? ∧
      (t.text = u.text ↔ ∀ name, t.get? name = u.get? name) ∧
      t.names.Pairwise (· < ·) ∧
      t.names.length = t.size ∧
      ∀ name, name ∈ t.names ↔ t.contains name = true := by
  refine ⟨?_, ⟨fun htext => ?_, fun hget => ?_⟩, t.pairwise_names, List.length_map _,
    fun _ => mem_names_iff⟩
  · rw [← map_get?_performAll, List.getElem?_map, ht]
    rfl
  · have htnames := hasNames_performAll hchanges t (List.mem_of_getElem? ht)
    have hunames := hasNames_performAll hchanges' u (List.mem_of_getElem? hu)
    rw [text_inj htnames hunames htext]
    exact fun _ => rfl
  · rw [eq_of_get?_eq hget]

/-- Two names bound in falling order, one of them twice. -/
def boundTwice : List Change :=
  [.declare 0 (ascii "b") 1, .declare 0 (ascii "a") (-2), .declare 0 (ascii "b") 3]

/-- The same names bound in a copy that was emptied first. -/
def boundInCopy : List Change :=
  [.declare 0 (ascii "ab") 7, .clone 0, .reset 1, .declare 1 (ascii "a") (-2),
    .declare 1 (ascii "b") 3]

theorem table_texts_canonical_copy :
    ∃ t u v : Table, (performAll boundTwice)[0]? = some t ∧
      (performAll boundInCopy)[1]? = some u ∧ (performAll boundInCopy)[0]? = some v ∧
      t.text = ascii "\x7ba=-2, b=3\x7d" ∧
      (∀ name, t.get? name = u.get? name) ∧ ¬ ∀ name, t.get? name = v.get? name := by
  have hchanges : ∀ a ∈ boundTwice, a.bindsName = true := by decide
  have hchanges' : ∀ a ∈ boundInCopy, a.bindsName = true := by decide
  have ht : (performAll boundTwice)[0]? =
      some (((empty.insert (ascii "b") 1).insert (ascii "a") (-2)).insert (ascii "b") 3) := rfl
  have hu : (performAll boundInCopy)[1]? =
      some ((empty.insert (ascii "a") (-2)).insert (ascii "b") 3) := rfl
  have hv : (performAll boundInCopy)[0]? = some (empty.insert (ascii "ab") 7) := rfl
  have hvtext : (empty.insert (ascii "ab") 7).text = ascii "\x7bab=7\x7d" := by decide +kernel
  have httext : (((empty.insert (ascii "b") 1).insert (ascii "a") (-2)).insert
      (ascii "b") 3).text = ascii "\x7ba=-2, b=3\x7d" := by decide +kernel
  refine ⟨_, _, _, ht, hu, hv, httext, ?_, ?_⟩
  · exact (table_texts_canonical hchanges hchanges' ht hu).2.1.mp (by decide +kernel)
  · rw [← (table_texts_canonical hchanges hchanges' ht hv).2.1, httext, hvtext]
    decide

end Polish.Table
