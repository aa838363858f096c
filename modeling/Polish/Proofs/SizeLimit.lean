import Mathlib.Data.List.Basic
import Polish.Loader

/-
  The size limit — how much of a file is read

  A loader asks for one byte more than its limit allows, and refuses a file of which it
  gets that byte. So it never cuts off the end of a file without a word, as long as one
  more than the limit is an integer of 64 bits. For the largest limit it is not: it
  wraps around to the least integer, and the loader takes every file to be empty.

  What is proved:
    1. `maxSize_ofRoot_pos` — the limit of a loader is positive, whatever was asked for.
    2. `readEntry_of_ne_maxValue` and `readEntry_maxValue` — a file under a limit below
       the largest, and under the largest.
    3. `read_keeps_limit_iff` — a loader keeps its limit exactly if that is not the
       largest one or the file is empty.
    4. `largest_limit_drops_content` — a file whose content is lost.
-/

namespace Polish.Loader

/-- What a loader owes for a file: the whole content if it is within the limit, and a
refusal otherwise. -/
def owed (l : Loader) (content : Text) : Except LoadError Text :=
  if (content.length : Int) ≤ l.maxSize.toInt then .ok content else .error .fileTooLarge

/-- A file is read and loaded as the limit says: whole if its content is within the
limit, not at all if it is not, and never in part. -/
structure KeepsLimit (l : Loader) (v : Volume) (given content : Text) : Prop where
  within : (content.length : Int) ≤ l.maxSize.toInt →
    l.read v given = .ok content ∧ l.load v given = .ok (Statement.ofSource content)
  beyond : l.maxSize.toInt < content.length →
    l.read v given = .error .fileTooLarge ∧ l.load v given = .error .fileTooLarge
  whole : ∀ data, l.read v given = .ok data → data = content

theorem maxSize_ofRoot_pos (workingDirectory : Path) (root : Text) (maxSize : Int64) :
    0 < (ofRoot workingDirectory root maxSize).maxSize.toInt := by
  unfold ofRoot
  split
  · show 0 < defaultMaxSize.toInt
    decide
  · next h => simpa using Int64.lt_iff_toInt_lt.mp (Int64.not_le.mp h)

theorem maxSize_ofRoot_eq_maxValue_iff (workingDirectory : Path) (root : Text) (maxSize : Int64) :
    (ofRoot workingDirectory root maxSize).maxSize = Int64.maxValue ↔
      maxSize = Int64.maxValue := by
  unfold ofRoot
  split
  · next h =>
    have hdefault : defaultMaxSize ≠ Int64.maxValue := by decide
    refine ⟨fun hmax => absurd hmax hdefault, ?_⟩
    rintro rfl
    exact absurd h (by decide)
  · rfl

variable {l : Loader} {content : Text}

/-- One byte past the limit tells whether there are more. -/
theorem readEntry_of_ne_maxValue (hpos : 0 < l.maxSize.toInt) (hmax : l.maxSize ≠ Int64.maxValue)
    (given : Text) (path : Path) : l.readEntry given path (.file content) = l.owed content := by
  have hmost : (l.maxSize + 1).toInt = l.maxSize.toInt + 1 := Integer.toInt_add_one hmax
  have hread : ¬ l.maxSize + 1 ≤ 0 := by
    rw [Int64.le_iff_toInt_le, hmost, Int64.toInt_zero]
    omega
  simp only [readEntry, owed, if_neg hread, hmost, List.length_take]
  by_cases hfits : (content.length : Int) ≤ l.maxSize.toInt
  · rw [if_pos hfits, if_neg (by omega), List.take_of_length_le (by omega)]
  · rw [if_neg hfits, if_pos (by omega)]

/-- One more than the largest limit wraps around, and nothing is read. -/
theorem readEntry_maxValue (hmax : l.maxSize = Int64.maxValue) (given : Text) (path : Path)
    (entry : Entry) : l.readEntry given path entry = .ok [] := by
  have hwraps : l.maxSize + 1 ≤ 0 := by
    rw [hmax]
    decide
  simp only [readEntry, if_pos hwraps]

variable {v : Volume} {given : Text} {path : Path}

theorem read_of_openPath (hresolve : l.resolve given = .ok path)
    (hopen : v.openPath path = .ok (.file content)) :
    l.read v given = l.readEntry given path (.file content) := by
  simp only [read, hresolve, hopen]

theorem load_of_read {data : Text} (h : l.read v given = .ok data) :
    l.load v given = .ok (Statement.ofSource data) := by
  rw [load, h]
  rfl

theorem load_of_read_error {e : LoadError} (h : l.read v given = .error e) :
    l.load v given = .error e := by
  rw [load, h]
  rfl

theorem load_of_read_nil (h : l.read v given = .ok []) : l.load v given = .ok [] := by
  rw [load_of_read h]
  decide +kernel

theorem keepsLimit_of_read (h : l.read v given = l.owed content) :
    l.KeepsLimit v given content := by
  unfold owed at h
  refine ⟨fun hwithin => ?_, fun hbeyond => ?_, fun data hdata => ?_⟩
  · rw [if_pos hwithin] at h
    exact ⟨h, load_of_read h⟩
  · rw [if_neg (Int.not_le.mpr hbeyond)] at h
    exact ⟨h, load_of_read_error h⟩
  · rw [hdata] at h
    split at h
    · exact Except.ok.inj h
    · cases h

/-- A loader with any limit, and a file with any content that it resolves and can
open. The file is read and loaded as the limit says exactly if the limit is not the
largest integer, or if there is nothing to read. Under the largest one every file is
empty. -/
theorem read_keeps_limit_iff (workingDirectory : Path) (root : Text) (maxSize : Int64)
    (v : Volume) {given content : Text} {path : Path}
    (hresolve : (ofRoot workingDirectory root maxSize).resolve given = .ok path)
    (hopen : v.openPath path = .ok (.file content)) :
    let l := ofRoot workingDirectory root maxSize
    (l.KeepsLimit v given content ↔ maxSize ≠ Int64.maxValue ∨ content = []) ∧
    (maxSize = Int64.maxValue → l.read v given = .ok [] ∧ l.load v given = .ok []) := by
  intro l
  have hentry := read_of_openPath hresolve hopen
  have hpos : 0 < l.maxSize.toInt := maxSize_ofRoot_pos workingDirectory root maxSize
  have hlargest : l.maxSize = Int64.maxValue ↔ maxSize = Int64.maxValue :=
    maxSize_ofRoot_eq_maxValue_iff workingDirectory root maxSize
  have hempty : maxSize = Int64.maxValue → l.read v given = .ok [] := by
    intro hmax
    rw [hentry, readEntry_maxValue (hlargest.mpr hmax)]
  refine ⟨⟨fun hkeeps => ?_, fun hcases => ?_⟩, fun hmax =>
    ⟨hempty hmax, load_of_read_nil (hempty hmax)⟩⟩
  · by_cases hmax : maxSize = Int64.maxValue
    · exact .inr (hkeeps.whole [] (hempty hmax)).symm
    · exact .inl hmax
  · apply keepsLimit_of_read
    by_cases hmax : maxSize = Int64.maxValue
    · -- there is nothing that could be lost
      obtain rfl : content = [] := hcases.resolve_left (not_not.mpr hmax)
      rw [hempty hmax, owed, if_pos]
      exact Int.le_of_lt hpos
    · rw [hentry, readEntry_of_ne_maxValue hpos (mt hlargest.mp hmax)]

/-- A directory with one file of four bytes. -/
def fourBytes : Volume := Volume.addFile {} [ascii "srv", ascii "p.dd"] (ascii "@ 1\n")

/-- The limit is the size of the file, and then one less. -/
theorem read_keeps_limit_at_four :
    (ofRoot ⟨true, [ascii "srv"]⟩ [] 4).read fourBytes (ascii "p.dd") = .ok (ascii "@ 1\n") ∧
    (ofRoot ⟨true, [ascii "srv"]⟩ [] 3).read fourBytes (ascii "p.dd") = .error .fileTooLarge := by
  have hopen : fourBytes.openPath ⟨true, [ascii "srv", ascii "p.dd"]⟩ =
      .ok (.file (ascii "@ 1\n")) := by decide +kernel
  have hfour : (ofRoot ⟨true, [ascii "srv"]⟩ [] 4).resolve (ascii "p.dd") =
      .ok ⟨true, [ascii "srv", ascii "p.dd"]⟩ := by decide +kernel
  have hthree : (ofRoot ⟨true, [ascii "srv"]⟩ [] 3).resolve (ascii "p.dd") =
      .ok ⟨true, [ascii "srv", ascii "p.dd"]⟩ := by decide +kernel
  have hexact := (read_keeps_limit_iff _ _ 4 fourBytes hfour hopen).1.mpr (.inl (by decide))
  have hshort := (read_keeps_limit_iff _ _ 3 fourBytes hthree hopen).1.mpr (.inl (by decide))
  exact ⟨(hexact.within (by decide +kernel)).1, (hshort.beyond (by decide +kernel)).1⟩

/-- Under the largest limit the four bytes are lost: the file is read without an error,
as an empty one. -/
theorem largest_limit_drops_content :
    let l := ofRoot ⟨true, [ascii "srv"]⟩ [] Int64.maxValue
    l.resolve (ascii "p.dd") = .ok ⟨true, [ascii "srv", ascii "p.dd"]⟩ ∧
    fourBytes.openPath ⟨true, [ascii "srv", ascii "p.dd"]⟩ = .ok (.file (ascii "@ 1\n")) ∧
    l.read fourBytes (ascii "p.dd") = .ok [] ∧
    ¬ l.KeepsLimit fourBytes (ascii "p.dd") (ascii "@ 1\n") := by
  intro l
  have hread : l.read fourBytes (ascii "p.dd") = .ok [] := by decide +kernel
  refine ⟨by decide +kernel, by decide +kernel, hread, ?_⟩
  intro hkeeps
  exact absurd (hkeeps.whole [] hread) (by decide)

end Polish.Loader
