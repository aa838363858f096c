import Polish.Diagnostic

/-
  Output — where printed lines go

  A program prints whole lines, and each of them is one write. A writer answers a
  write: it takes the text, drops it, or keeps a part of it and fails. A writer is
  given by its answers in order, and whatever a writer does over a run is such a
  list. A run stops at the first write that fails, or at the first diagnostic.
-/

namespace Polish

/-- What a writer does with one write. -/
inductive Answer where
  | taken
  | dropped
  /-- At most so many bytes are kept, and the writer fails for the given reason. -/
  | failed (kept : Nat) (reason : Text)
  deriving DecidableEq, Repr

namespace Answer

/-- What is kept of a text. -/
def kept : Answer → Text → Text
  | .taken, t => t
  | .dropped, _ => []
  | .failed n _, t => t.take n

def reason? : Answer → Option Text
  | .taken | .dropped => none
  | .failed _ reason => some reason

end Answer

/-- The answers to the next writes, and the answer to all the writes after them. -/
structure Writer where
  next : List Answer := []
  later : Answer := .taken
  deriving DecidableEq, Repr

namespace Writer

/-- Where there is no writer, lines are dropped. -/
def absent : Writer := ⟨[], .dropped⟩

def unlimited : Writer := ⟨[], .taken⟩

/-- Takes `n` writes, and fails at all others without keeping anything. -/
def limited (n : Nat) (reason : Text) : Writer := ⟨List.replicate n .taken, .failed 0 reason⟩

def answer (w : Writer) : Answer := w.next.headD w.later

def advance (w : Writer) : Writer := { w with next := w.next.tail }

end Writer

/-- A writer and what it has kept of each write, oldest first. -/
structure Sink where
  writer : Writer := .unlimited
  taken : Array Text := #[]
  deriving DecidableEq, Repr

namespace Sink

/-- The sink after a text was written to it. -/
def offer (s : Sink) (t : Text) : Sink :=
  ⟨s.writer.advance, s.taken.push (s.writer.answer.kept t)⟩

def offerAll (s : Sink) (texts : List Text) : Sink := texts.foldl offer s

/-- All that has been kept. -/
def text (s : Sink) : Text := s.taken.toList.flatten

/-- The sink with nothing kept yet and the same answers to come. -/
def emptied (s : Sink) : Sink := { s with taken := #[] }

end Sink

/-- Why a run stopped before its end. -/
inductive Stop where
  | diagnosed (d : Diagnostic)
  | outputRefused (reason : Text)
  deriving DecidableEq, Repr

/-- Why a run stops at the next line that it prints, if it does. -/
def Sink.refusal (s : Sink) : Option Stop := s.writer.answer.reason?.map .outputRefused

namespace Sink

theorem refusal_congr {s t : Sink} (h : s.writer = t.writer) : s.refusal = t.refusal := by
  rw [refusal, refusal, h]

theorem refusal_ne_diagnosed (s : Sink) (d : Diagnostic) : s.refusal ≠ some (.diagnosed d) := by
  unfold refusal
  cases s.writer.answer.reason? <;> simp

/-- A refusal says nothing about the place or the stack. -/
theorem refusal_map {s : Sink} {f : Stop → Stop}
    (h : ∀ reason, f (.outputRefused reason) = .outputRefused reason) :
    s.refusal.map f = s.refusal := by
  unfold refusal
  cases s.writer.answer.reason? with
  | none => rfl
  | some reason => exact congrArg some (h reason)

theorem writer_offer_congr {s t : Sink} (h : s.writer = t.writer) (x y : Text) :
    (s.offer x).writer = (t.offer y).writer := by
  rw [offer, offer, h]

theorem text_offer (s : Sink) (t : Text) :
    (s.offer t).text = s.text ++ s.writer.answer.kept t := by
  simp [offer, text]

theorem offerAll_append (s : Sink) (first second : List Text) :
    s.offerAll (first ++ second) = (s.offerAll first).offerAll second :=
  List.foldl_append

end Sink

/-- A stop as it is reported by the runner with the given name. -/
def Stop.report (runner : Text) : Stop → Report
  | .diagnosed d => .diagnosed d
  | .outputRefused reason => .inContext runner (.inContext (ascii "print") (.plain reason))

end Polish
