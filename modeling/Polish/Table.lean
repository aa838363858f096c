import Polish.Integer.Literal

/-
  Tables — names and their values

  A table binds names to values. Its entries stand in strictly increasing order
  of their names, compared byte by byte, so two tables with the same bindings
  are equal and have the same text.

  Correspondence (dendron ↔ Lean):
    `Declare`, `Lookup`, `Has` ↔ `insert`, `get?`, `contains`
    `Len`, `Names`             ↔ `size`, `names`
    `String`, `dumpTable`      ↔ `text`, `dump`
-/

namespace Polish

/-- Entries in strictly increasing order of their names. -/
def Ascending (entries : List (Text × Int64)) : Prop :=
  entries.Pairwise fun a b => a.1 < b.1

structure Table where
  entries : List (Text × Int64) := []
  ascending : Ascending entries := by exact List.Pairwise.nil

namespace Table

def empty : Table := {}

instance : Inhabited Table := ⟨empty⟩

@[ext]
theorem ext {t u : Table} (h : t.entries = u.entries) : t = u := by
  cases t
  cases u
  cases h
  rfl

instance : DecidableEq Table := fun t u =>
  if h : t.entries = u.entries then isTrue (ext h) else isFalse fun e => h (e ▸ rfl)

/-- The entries with `name` bound to `value`, at the place of `name` in the order. -/
def insertEntry (name : Text) (value : Int64) : List (Text × Int64) → List (Text × Int64)
  | [] => [(name, value)]
  | entry :: rest =>
    if name < entry.1 then (name, value) :: entry :: rest
    else if name = entry.1 then (name, value) :: rest
    else entry :: insertEntry name value rest

theorem mem_of_mem_insertEntry {name : Text} {value : Int64} {entry : Text × Int64}
    {entries : List (Text × Int64)} (h : entry ∈ insertEntry name value entries) :
    entry = (name, value) ∨ entry ∈ entries := by
  induction entries with
  | nil => simpa [insertEntry] using h
  | cons first rest ih =>
    unfold insertEntry at h
    split at h
    · simpa using h
    · split at h
      · rcases List.mem_cons.mp h with h | h
        · exact .inl h
        · exact .inr (List.mem_cons_of_mem _ h)
      · rcases List.mem_cons.mp h with h | h
        · exact .inr (h ▸ List.mem_cons_self)
        · rcases ih h with h | h
          · exact .inl h
          · exact .inr (List.mem_cons_of_mem _ h)

theorem ascending_insertEntry {name : Text} {value : Int64} {entries : List (Text × Int64)}
    (h : Ascending entries) : Ascending (insertEntry name value entries) := by
  induction entries with
  | nil => exact List.pairwise_singleton _ _
  | cons first rest ih =>
    obtain ⟨hfirst, hrest⟩ := List.pairwise_cons.mp h
    unfold insertEntry
    split
    · next hlt =>
      refine List.pairwise_cons.mpr ⟨fun entry hentry => ?_, h⟩
      rcases List.mem_cons.mp hentry with rfl | hentry
      · exact hlt
      · exact List.lt_trans hlt (hfirst entry hentry)
    · next hlt =>
      split
      · next heq =>
        exact List.pairwise_cons.mpr ⟨fun entry hentry => heq ▸ hfirst entry hentry, hrest⟩
      · next hne =>
        refine List.pairwise_cons.mpr ⟨fun entry hentry => ?_, ih hrest⟩
        rcases mem_of_mem_insertEntry hentry with rfl | hentry
        · exact Decidable.byContradiction fun hge => hne (List.le_antisymm hge hlt)
        · exact hfirst entry hentry

def insert (t : Table) (name : Text) (value : Int64) : Table :=
  ⟨insertEntry name value t.entries, ascending_insertEntry t.ascending⟩

def get? (t : Table) (name : Text) : Option Int64 :=
  (t.entries.find? fun entry => entry.1 == name).map Prod.snd

def contains (t : Table) (name : Text) : Bool := (t.get? name).isSome

def size (t : Table) : Nat := t.entries.length

/-- The names that are bound, in increasing order. -/
def names (t : Table) : List Text := t.entries.map Prod.fst

/-- The table as one word: `{a=1, b=2}`. -/
def text (t : Table) : Text :=
  ascii "\x7b"
    ++ Text.joinWith (ascii ", ")
      (t.entries.map fun entry => entry.1 ++ ascii "=" ++ Literal.write entry.2)
    ++ ascii "\x7d"

/-- The lines of the table as an indented list, one name a line. -/
def dumpLines (t : Table) : List Text :=
  let rows :=
    if t.entries.isEmpty then [ascii "  (empty)"]
    else t.entries.map fun entry => ascii "  " ++ entry.1 ++ ascii " = " ++ Literal.write entry.2
  (ascii "Symbol table:" :: rows).map fun row => row ++ [Text.newline]

def dump (t : Table) : Text := t.dumpLines.flatten

end Table

end Polish
