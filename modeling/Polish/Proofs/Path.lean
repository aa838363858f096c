import Polish.Path
import Polish.Proofs.Text

/-
  Paths, component by component

  Reading a path keeps its parts last first, and keeps a `..` that has nothing before
  it unless the path starts at the root. Where a path leads is a simpler matter: from a
  directory, each piece of the text stays there, goes up or goes down (`enter`). A path
  that is read and written again leads to the same place from every directory, although
  its `..` were taken away with other parts than they would be there.

  What is proved:
    1. `ofText_of_isRooted` — a path from the root is read as where its pieces lead.
    2. `enterAll_ofText` — reading a path and writing it again does not change where it
       leads, whatever the directory.
    3. `isComponent_of_mem_enterAll` — only proper components are left.
    4. `climbs_relative_iff` — the way from one path to another starts with `..` exactly
       if the first does not lead to the second going down.
-/

namespace Polish.Path

/-! ## Where a path leads -/

def pieces (t : Text) : List Text := t.splitOn separator

/-- Where a piece leads from the directory with the given components: an empty piece and
`.` stay there, `..` takes away the last component, if there is one, and any other piece
is one more component. -/
def enter (parts : List Text) (piece : Text) : List Text :=
  if piece = [] ∨ piece = here then parts
  else if piece = above then parts.dropLast
  else parts ++ [piece]

def enterAll (parts : List Text) (steps : List Text) : List Text := steps.foldl enter parts

@[simp]
theorem enter_nil (parts : List Text) : enter parts [] = parts := by simp [enter]

@[simp]
theorem enter_here (parts : List Text) : enter parts here = parts := by simp [enter]

@[simp]
theorem enter_above (parts : List Text) : enter parts above = parts.dropLast := by
  rw [enter, if_neg (by decide), if_pos rfl]

@[simp]
theorem enterAll_nil (parts : List Text) : enterAll parts [] = parts := rfl

@[simp]
theorem enterAll_cons (parts : List Text) (step : Text) (steps : List Text) :
    enterAll parts (step :: steps) = enterAll (enter parts step) steps := rfl

@[simp]
theorem enterAll_append (parts : List Text) (steps more : List Text) :
    enterAll parts (steps ++ more) = enterAll (enterAll parts steps) more :=
  List.foldl_append

theorem pieces_append (t rest : Text) :
    pieces (t ++ [separator] ++ rest) = pieces t ++ pieces rest := by
  rw [List.append_assoc, List.singleton_append]
  exact List.splitOn_append_cons_self t rest

theorem separator_not_mem {t piece : Text} (h : piece ∈ pieces t) : separator ∉ piece :=
  Text.not_mem_of_mem_splitOn h

/-! ## The parts that reading keeps -/

/-- A part that reading keeps: a name, or a `..` that nothing stands before. -/
structure IsKept (part : Text) : Prop where
  ne_nil : part ≠ []
  ne_here : part ≠ here
  whole : separator ∉ part

/-- A component of a path from the root: the name of something in a directory. -/
structure IsComponent (part : Text) : Prop extends IsKept part where
  ne_above : part ≠ above

theorem IsComponent.enter {part : Text} (h : IsComponent part) (parts : List Text) :
    enter parts part = parts ++ [part] := by
  simp [Path.enter, h.ne_nil, h.ne_here, h.ne_above]

theorem enterAll_of_components {steps : List Text} (h : ∀ step ∈ steps, IsComponent step)
    (parts : List Text) : enterAll parts steps = parts ++ steps := by
  induction steps generalizing parts with
  | nil => simp
  | cons step rest ih =>
    obtain ⟨hstep, hrest⟩ := List.forall_mem_cons.mp h
    rw [enterAll_cons, hstep.enter, ih hrest, List.append_assoc, List.singleton_append]

/-- What reading does with one more part. -/
inductive Followed (rooted : Bool) (parts : List Text) (piece : Text) : List Text → Prop
  | stays (stay : piece = [] ∨ piece = here) : Followed rooted parts piece parts
  | atRoot (up : piece = above) (root : rooted = true) (empty : parts = []) :
      Followed rooted parts piece []
  | keeps (up : piece = above) (nothing : rooted = false ∨ above ∈ parts) :
      Followed rooted parts piece (above :: parts)
  | takes {last : Text} {before : List Text} (up : piece = above) (cons : parts = last :: before)
      (ne_above : last ≠ above) : Followed rooted parts piece before
  | adds (ne_nil : piece ≠ []) (ne_here : piece ≠ here) (ne_above : piece ≠ above) :
      Followed rooted parts piece (piece :: parts)

theorem followed (rooted : Bool) (parts : List Text) (piece : Text) :
    Followed rooted parts piece (follow rooted parts piece) := by
  unfold follow
  split
  · next hstay => exact .stays hstay
  · next hstay =>
    rw [not_or] at hstay
    split
    · next hup =>
      split
      · split
        · next hrooted => exact .atRoot hup hrooted rfl
        · next hrooted => exact .keeps hup (.inl (Bool.not_eq_true _ ▸ hrooted))
      · split
        · next hlast => exact .keeps hup (.inr (hlast ▸ List.mem_cons_self))
        · next hlast => exact .takes hup rfl hlast
    · next hup => exact .adds hstay.1 hstay.2 hup

theorem Followed.isKept {rooted : Bool} {parts after : List Text} {piece : Text}
    (h : Followed rooted parts piece after) (hparts : ∀ part ∈ parts, IsKept part)
    (hpiece : separator ∉ piece) : ∀ part ∈ after, IsKept part := by
  cases h with
  | stays stay => exact hparts
  | atRoot up root empty => simp
  | keeps up nothing =>
    exact List.forall_mem_cons.mpr ⟨⟨by decide, by decide, by decide⟩, hparts⟩
  | takes up cons ne_above =>
    subst cons
    exact (List.forall_mem_cons.mp hparts).2
  | adds ne_nil ne_here ne_above =>
    exact List.forall_mem_cons.mpr ⟨⟨ne_nil, ne_here, hpiece⟩, hparts⟩

theorem isKept_foldl_follow {rooted : Bool} {parts steps : List Text}
    (hparts : ∀ part ∈ parts, IsKept part) (hsteps : ∀ step ∈ steps, separator ∉ step) :
    ∀ part ∈ steps.foldl (follow rooted) parts, IsKept part := by
  induction steps generalizing parts with
  | nil => exact hparts
  | cons step rest ih =>
    obtain ⟨hstep, hrest⟩ := List.forall_mem_cons.mp hsteps
    exact ih ((followed ..).isKept hparts hstep) hrest

theorem isKept_of_mem_ofText {t part : Text} (h : part ∈ (ofText t).parts) : IsKept part := by
  refine isKept_foldl_follow (fun _ hnil => ?_) (fun _ => separator_not_mem) part
    (List.mem_reverse.mp h)
  cases hnil

/-! ## Paths from the root -/

theorem Followed.above_not_mem {parts after : List Text} {piece : Text}
    (h : Followed true parts piece after) (hparts : above ∉ parts) : above ∉ after := by
  cases h with
  | stays stay => exact hparts
  | atRoot up root empty => exact List.not_mem_nil
  | keeps up nothing => exact absurd nothing (by simp [hparts])
  | takes up cons ne_above =>
    subst cons
    exact List.not_mem_of_not_mem_cons hparts
  | adds ne_nil ne_here ne_above =>
    exact List.not_mem_cons_of_ne_of_not_mem (Ne.symm ne_above) hparts

theorem Followed.reverse_eq {parts after : List Text} {piece : Text}
    (h : Followed true parts piece after) (hparts : above ∉ parts) :
    after.reverse = enter parts.reverse piece := by
  cases h with
  | stays stay => rw [enter, if_pos stay]
  | atRoot up root empty => simp [up, empty]
  | keeps up nothing => exact absurd nothing (by simp [hparts])
  | takes up cons ne_above => simp [up, cons]
  | adds ne_nil ne_here ne_above => simp [enter, ne_nil, ne_here, ne_above]

theorem reverse_foldl_follow {parts : List Text} (h : above ∉ parts) (steps : List Text) :
    (steps.foldl (follow true) parts).reverse = enterAll parts.reverse steps := by
  induction steps generalizing parts with
  | nil => rfl
  | cons step rest ih =>
    rw [List.foldl_cons, ih ((followed ..).above_not_mem h), (followed ..).reverse_eq h,
      enterAll_cons]

theorem ofText_of_isRooted {t : Text} (h : isRooted t = true) :
    ofText t = ⟨true, enterAll [] (pieces t)⟩ := by
  unfold ofText
  simp only [h, reverse_foldl_follow List.not_mem_nil]
  rfl

theorem above_not_mem_foldl_follow {parts : List Text} (h : above ∉ parts) (steps : List Text) :
    above ∉ steps.foldl (follow true) parts := by
  induction steps generalizing parts with
  | nil => exact h
  | cons step rest ih => exact ih ((followed ..).above_not_mem h)

theorem isComponent_of_mem_enterAll {steps : List Text} (h : ∀ step ∈ steps, separator ∉ step)
    {part : Text} (hpart : part ∈ enterAll [] steps) : IsComponent part := by
  have hfollow := reverse_foldl_follow List.not_mem_nil steps
  rw [List.reverse_nil] at hfollow
  rw [← hfollow, List.mem_reverse] at hpart
  refine ⟨isKept_foldl_follow (fun _ hnil => ?_) h part hpart, ?_⟩
  · cases hnil
  · rintro rfl
    exact above_not_mem_foldl_follow List.not_mem_nil steps hpart

/-! ## Paths that are read and written again -/

/-- Taking a piece into the parts of a path leads where the piece leads from the end of
the path. A part that is taken away would have been taken away there as well. -/
theorem Followed.enterAll_reverse {parts after : List Text} {piece : Text}
    (h : Followed false parts piece after) (hparts : ∀ part ∈ parts, IsKept part)
    (base : List Text) :
    enterAll base after.reverse = enter (enterAll base parts.reverse) piece := by
  cases h with
  | stays stay => rw [enter, if_pos stay]
  | atRoot up root empty => cases root
  | keeps up nothing => simp [up]
  | @takes last before up cons ne_above =>
    have hlast : IsComponent last := ⟨hparts last (by simp [cons]), ne_above⟩
    simp [up, cons, hlast.enter]
  | adds ne_nil ne_here ne_above => simp

theorem enterAll_reverse_foldl_follow {parts steps : List Text}
    (hparts : ∀ part ∈ parts, IsKept part) (hsteps : ∀ step ∈ steps, separator ∉ step)
    (base : List Text) :
    enterAll base (steps.foldl (follow false) parts).reverse =
      enterAll (enterAll base parts.reverse) steps := by
  induction steps generalizing parts with
  | nil => rfl
  | cons step rest ih =>
    obtain ⟨hstep, hrest⟩ := List.forall_mem_cons.mp hsteps
    rw [List.foldl_cons, ih ((followed ..).isKept hparts hstep) hrest,
      (followed ..).enterAll_reverse hparts, enterAll_cons]

theorem enterAll_text {p : Path} (h : ∀ part ∈ p.parts, separator ∉ part) (base : List Text) :
    enterAll base (pieces p.text) = enterAll base p.parts := by
  have hjoined : enterAll base (pieces (Text.joinWith [separator] p.parts)) =
      enterAll base p.parts := by
    by_cases hempty : p.parts = []
    · rw [hempty]
      exact enter_nil base
    · rw [pieces, Text.joinWith, List.splitOn_intercalate separator h hempty]
  unfold text
  split
  · -- the slash in front makes one more piece, an empty one
    have hslash : pieces (separator :: Text.joinWith [separator] p.parts) =
        [] :: pieces (Text.joinWith [separator] p.parts) :=
      List.splitOn_append_cons_self [] _
    rw [hslash, enterAll_cons, enter_nil, hjoined]
  · split
    · next hempty =>
      rw [List.isEmpty_iff.mp hempty, show pieces here = [here] by decide, enterAll_cons,
        enter_here]
    · exact hjoined

/-- Reading a path that does not start at the root, and writing it again, does not change
where it leads. -/
theorem enterAll_ofText {t : Text} (h : isRooted t = false) (base : List Text) :
    enterAll base (pieces (ofText t).text) = enterAll base (pieces t) := by
  rw [enterAll_text fun part hpart => (isKept_of_mem_ofText hpart).whole]
  unfold ofText
  simp only [h]
  exact enterAll_reverse_foldl_follow (fun _ hnil => by cases hnil)
    (fun _ => separator_not_mem) base

/-! ## The way from one path to another -/

theorem climbs_iff {t : Text} :
    climbs t = true ↔ ∃ rest, t = above ++ rest ∧ ∀ b, rest.head? = some b → b = separator := by
  simp only [climbs, Bool.or_eq_true, beq_iff_eq, List.isPrefixOf_iff_prefix]
  constructor
  · rintro (rfl | ⟨rest, rfl⟩)
    · exact ⟨[], by simp, by simp⟩
    · exact ⟨separator :: rest, by simp, by simp⟩
  · rintro ⟨rest, rfl, hrest⟩
    cases rest with
    | nil => simp
    | cons b rest =>
      obtain rfl := hrest b rfl
      exact .inr ⟨rest, by simp⟩

theorem climbs_joinWith {first : Text} (h : separator ∉ first) (rest : List Text) :
    climbs (Text.joinWith [separator] (first :: rest)) = true ↔ first = above := by
  have hjoin : ∃ tail, Text.joinWith [separator] (first :: rest) = first ++ tail ∧
      ∀ b, tail.head? = some b → b = separator := by
    cases rest with
    | nil => exact ⟨[], by simp [Text.joinWith], by simp⟩
    | cons second rest =>
      exact ⟨_, Text.joinWith_cons_cons first second rest, by simp⟩
  obtain ⟨tail, htail, hstop⟩ := hjoin
  rw [htail, climbs_iff]
  constructor
  · rintro ⟨tail', heq, hstop'⟩
    have hrun : ∀ part : Text, separator ∉ part → ∀ b ∈ part, (b != separator) = true := by
      intro part hpart b hb
      rw [bne_iff_ne]
      rintro rfl
      exact hpart hb
    refine (Text.append_inj_of_stop (hrun first h) ?_ (hrun above (by decide)) ?_ heq).1
    · intro b hb
      simp [hstop b hb]
    · intro b hb
      simp [hstop' b hb]
  · rintro rfl
    exact ⟨tail, rfl, hstop⟩

theorem dropShared_fst_eq_nil_iff {base target : List Text} :
    (dropShared base target).1 = [] ↔ base <+: target := by
  fun_induction dropShared base target with
  | case1 a base target ih => simp [ih, List.cons_prefix_cons]
  | case2 a base b target hne => simp [List.cons_prefix_cons, hne]
  | case3 base target hcons =>
    cases base with
    | nil => simp
    | cons a base =>
      cases target with
      | nil => simp
      | cons b target => exact absurd rfl (hcons a base b target rfl)

theorem dropShared_snd_suffix (base target : List Text) :
    (dropShared base target).2 <:+ target := by
  fun_induction dropShared base target with
  | case1 base a target ih => exact ih.trans (List.suffix_cons a target)
  | case2 a base b target hne => exact List.suffix_rfl
  | case3 base target hcons => exact List.suffix_rfl

/-- The way from one path to another starts with `..` exactly if the second does not lie
below the first. A component that only starts with two dots does not count. -/
theorem climbs_relative_iff (base : Path) {target : Path}
    (h : ∀ part ∈ target.parts, IsComponent part) :
    climbs (base.relative target).text = true ↔ ¬ base.parts <+: target.parts := by
  have hdown := dropShared_snd_suffix base.parts target.parts
  rw [← dropShared_fst_eq_nil_iff, relative]
  cases hdrop : dropShared base.parts target.parts with
  | mk up down =>
    rw [hdrop] at hdown
    cases up with
    | cons part up =>
      have hclimbs := (climbs_joinWith (show separator ∉ above by decide)
        (up.map (fun _ => above) ++ down)).mpr rfl
      simpa [text] using hclimbs
    | nil =>
      cases down with
      | nil => simp [text]; decide
      | cons part down =>
        have hpart := h part (hdown.subset List.mem_cons_self)
        have hclimbs := climbs_joinWith hpart.whole down
        simp [text, hclimbs, hpart.ne_above]

end Polish.Path
