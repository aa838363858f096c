import Polish.Loader
import Polish.Proofs.Path

/-
  Confinement — a loader finds nothing outside of its root

  A loader reads a path on its own before it puts it behind its root, and then looks at
  the text of the way from the root to the result. Both are detours: what counts is where
  the pieces of the root and of the path lead together, and whether that lies below the
  root, component by component.

  What is proved:
    1. `absolute_eq` — the root of a loader is where the pieces of the text lead that it
       was given.
    2. `resolve_eq` — a path is found exactly if it leads below the root.
    3. `resolve_confined_to_root` — all that a loader finds is below its root, in the one
       form that the loader does not change any more.
-/

namespace Polish

namespace Path

/-- The pieces of the path that a text names as seen from a directory: its own if it
starts at the root, and otherwise those of the directory and its own. -/
def piecesFrom (base : Path) (t : Text) : List Text :=
  if isRooted t then pieces t else pieces base.text ++ pieces t

theorem separator_not_mem_piecesFrom {base : Path} {t piece : Text}
    (h : piece ∈ base.piecesFrom t) : separator ∉ piece := by
  unfold piecesFrom at h
  split at h
  · exact separator_not_mem h
  · rcases List.mem_append.mp h with hbase | hpiece
    · exact separator_not_mem hbase
    · exact separator_not_mem hpiece

theorem isRooted_text {p : Path} (h : p.rooted = true) : isRooted p.text = true := by
  simp [isRooted, text, h]

theorem join_eq {base : Path} (h : base.rooted = true) (t : Text) :
    base.join t = ⟨true, enterAll [] (pieces base.text ++ pieces t)⟩ := by
  have hrooted : isRooted (base.text ++ [separator] ++ t) = true := by
    simp [isRooted, text, h]
  rw [join, ofText_of_isRooted hrooted, pieces_append]

/-- A text that is seen from a directory names where its pieces lead. -/
theorem absolute_eq {base : Path} (h : base.rooted = true) (t : Text) :
    base.absolute t = ⟨true, enterAll [] (base.piecesFrom t)⟩ := by
  unfold absolute piecesFrom
  split
  · next hrooted => exact ofText_of_isRooted hrooted
  · exact join_eq h t

end Path

namespace Loader

open Polish.Path

/-- The components that a path leads to as seen from the root of a loader. -/
def target (l : Loader) (given : Text) : List Text := enterAll [] (l.root.piecesFrom given)

theorem isComponent_of_mem_target {l : Loader} {given part : Text} (h : part ∈ l.target given) :
    IsComponent part :=
  isComponent_of_mem_enterAll (fun _ => separator_not_mem_piecesFrom) h

theorem resolve_eq {l : Loader} (h : l.root.rooted = true) (given : Text) :
    l.resolve given =
      if l.root.parts <+: l.target given then .ok ⟨true, l.target given⟩
      else .error .pathEscape := by
  have hpath : (if isRooted given then ofText given else l.root.join (ofText given).text) =
      ⟨true, l.target given⟩ := by
    unfold target piecesFrom
    split
    · next hrooted => exact ofText_of_isRooted hrooted
    · next hrooted =>
      -- the path was read before it was put behind the root
      rw [join_eq h, enterAll_append, enterAll_append,
        enterAll_ofText (Bool.not_eq_true _ ▸ hrooted)]
  have hcomponents : ∀ part ∈ (Path.mk true (l.target given)).parts, IsComponent part :=
    fun _ => isComponent_of_mem_target
  have hclimbs := climbs_relative_iff l.root hcomponents
  unfold resolve
  simp only [hpath]
  by_cases hbelow : l.root.parts <+: l.target given
  · rw [if_neg (by simpa [hclimbs] using hbelow), if_pos hbelow]
  · rw [if_pos (hclimbs.mpr hbelow), if_neg hbelow]

theorem resolve_text {l : Loader} (h : l.root.rooted = true) {parts : List Text}
    (hparts : ∀ part ∈ parts, IsComponent part) (hbelow : l.root.parts <+: parts) :
    l.resolve (Path.mk true parts).text = .ok ⟨true, parts⟩ := by
  have htarget : l.target (Path.mk true parts).text = parts := by
    unfold target piecesFrom
    rw [if_pos (isRooted_text rfl), enterAll_text fun part hpart => (hparts part hpart).whole,
      enterAll_of_components hparts, List.nil_append]
  rw [resolve_eq h, htarget, if_pos hbelow]

/-- The root of a loader is where the text that it was given leads from the working
directory. For every path, absolute or not: it is found exactly if the components of the
root start those that the path leads to, and is then the path from the root with these
components, each of them a proper one. Any other path is refused. What is found is found
again, unchanged, by its own text. -/
theorem resolve_confined_to_root (workingDirectory : Path)
    (hrooted : workingDirectory.rooted = true) (root : Text) (maxSize : Int64) (given : Text) :
    let loader := Loader.ofRoot workingDirectory root maxSize
    let parts := enterAll [] (loader.root.piecesFrom given)
    loader.root = ⟨true, enterAll [] (workingDirectory.piecesFrom root)⟩ ∧
    (∀ part ∈ parts, IsComponent part) ∧
    (∀ path, loader.resolve given = .ok path ↔
      loader.root.parts <+: parts ∧ path = ⟨true, parts⟩) ∧
    (¬ loader.root.parts <+: parts → loader.resolve given = .error .pathEscape) ∧
    ∀ path, loader.resolve given = .ok path →
      path.text = separator :: Text.joinWith [separator] parts ∧
      loader.resolve path.text = .ok path := by
  intro loader parts
  have hroot : loader.root = ⟨true, enterAll [] (workingDirectory.piecesFrom root)⟩ :=
    absolute_eq hrooted root
  have habsolute : loader.root.rooted = true := by rw [hroot]
  have hparts : ∀ part ∈ parts, IsComponent part := fun _ => isComponent_of_mem_target
  have hresolve : loader.resolve given =
      if loader.root.parts <+: parts then .ok ⟨true, parts⟩ else .error .pathEscape :=
    resolve_eq habsolute given
  have hfound : ∀ path, loader.resolve given = .ok path ↔
      loader.root.parts <+: parts ∧ path = ⟨true, parts⟩ := by
    intro path
    rw [hresolve]
    split
    · next hbelow => simp [hbelow, eq_comm]
    · next hbelow => simp [hbelow]
  refine ⟨hroot, hparts, hfound, ?_, ?_⟩
  · intro hbelow
    rw [hresolve, if_neg hbelow]
  · intro path hpath
    obtain ⟨hbelow, rfl⟩ := (hfound path).mp hpath
    exact ⟨rfl, resolve_text habsolute hparts hbelow⟩

/-- A path that leaves the root and comes back is found, by a component that starts with
two dots; a neighbour of the root whose name goes on from that of the root is not. -/
theorem resolve_confined_to_root_app :
    let loader := Loader.ofRoot ⟨true, [ascii "srv"]⟩ (ascii "lib/../app//") 0
    loader.resolve (ascii "..x/../../app/./a") = .ok ⟨true, [ascii "srv", ascii "app", ascii "a"]⟩ ∧
    loader.resolve (ascii "/srv/app/a") = .ok ⟨true, [ascii "srv", ascii "app", ascii "a"]⟩ ∧
    loader.resolve (ascii "/srv/app2") = .error .pathEscape := by
  intro loader
  obtain ⟨-, -, hfound, -, hagain⟩ := resolve_confined_to_root ⟨true, [ascii "srv"]⟩ rfl
    (ascii "lib/../app//") 0 (ascii "..x/../../app/./a")
  obtain ⟨-, -, -, hescapes, -⟩ := resolve_confined_to_root ⟨true, [ascii "srv"]⟩ rfl
    (ascii "lib/../app//") 0 (ascii "/srv/app2")
  have hpath := (hfound ⟨true, [ascii "srv", ascii "app", ascii "a"]⟩).mpr
    ⟨by decide +kernel, by decide +kernel⟩
  exact ⟨hpath, (hagain _ hpath).2, hescapes (by decide +kernel)⟩

end Loader

end Polish
