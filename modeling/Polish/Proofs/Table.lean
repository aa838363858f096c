import Polish.Table

/-
  Tables, looked up after binding

  Binding a name gives that name the new value and leaves every other name with
  the value it had. All that later proofs use of tables is said here through
  `get?` and `contains`; none of them opens the list of entries.
-/

namespace Polish.Table

/-- The first entry of a name after binding: the new one for the name bound, and
for every other name the entry it had. -/
theorem find?_insertEntry (name : Text) (value : Int64) (other : Text)
    (entries : List (Text × Int64)) :
    ((insertEntry name value entries).find? fun entry => entry.1 == other) =
      if name = other then some (name, value) else entries.find? fun entry => entry.1 == other := by
  induction entries with
  | nil => by_cases h : name = other <;> simp [insertEntry, h]
  | cons first rest ih =>
    unfold insertEntry
    split
    · by_cases h : name = other <;> simp [List.find?_cons, h]
    · split
      · next heq =>
        -- the old entry of the name is the one that is replaced
        by_cases h : name = other
        · simp [h]
        · have hfirst : first.1 ≠ other := heq ▸ h
          simp [h, hfirst]
      · next hne =>
        rw [List.find?_cons, ih, List.find?_cons]
        by_cases h : name = other
        · have hfirst : (first.1 == other) = false := beq_false_of_ne (h ▸ Ne.symm hne)
          simp only [hfirst, h, if_true]
        · simp only [h, if_false]

theorem get?_insert (t : Table) (name : Text) (value : Int64) (other : Text) :
    (t.insert name value).get? other = if name = other then some value else t.get? other := by
  simp only [get?, insert, find?_insertEntry]
  split <;> rfl

@[simp]
theorem contains_empty (name : Text) : empty.contains name = false := rfl

@[simp]
theorem contains_insert (t : Table) (name : Text) (value : Int64) (other : Text) :
    (t.insert name value).contains other = (decide (name = other) || t.contains other) := by
  simp only [contains, get?_insert]
  by_cases h : name = other <;> simp [h]

theorem contains_iff {t : Table} {name : Text} :
    t.contains name = true ↔ ∃ value, t.get? name = some value :=
  Option.isSome_iff_exists

/-- Every name that `u` binds is bound by `t`. -/
def Covers (t u : Table) : Prop := ∀ name, u.contains name = true → t.contains name = true

theorem Covers.refl (t : Table) : t.Covers t := fun _ h => h

theorem Covers.insert {t u : Table} (h : t.Covers u) (name : Text) (a b : Int64) :
    (t.insert name a).Covers (u.insert name b) := by
  intro other hother
  rw [contains_insert, Bool.or_eq_true] at hother ⊢
  exact hother.imp_right (h other)

end Polish.Table
