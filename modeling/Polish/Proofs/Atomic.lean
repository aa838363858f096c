import Polish.Proofs.Execution

/-
  Atomic faults — what a run has done when it stops

  Any instructions are run here, not only compiled ones. A run is followed from
  instruction to instruction (`Reaches`), and where it stops, one instruction did not
  go through. What that instruction can have done is said once (`Halted`): a fault
  leaves the machine as it was, and only a print whose line is refused has taken its
  value from the stack and logged it. What the writer keeps of a line at which it
  fails is its own affair: nothing, a part or all of it.

  What is proved:
    1. `halted_of_step` — an instruction that does not go through changes nothing, or
       is such a print.
    2. `reaches_iff` — a run comes to instruction `k` in the state in which the first
       `k` instructions end when they are run alone.
    3. `run_cases`, `run_of_reaches` — a run goes through all instructions, or stops at
       the one that it has reached.
    4. `runFrom_later` — a run does not depend on where its code stands in a program,
       but for the numbers of the instructions.
    5. `run_stops_atomically_and_composes` — all this for any run.
-/

namespace Polish

/-- The same stop, with the instructions counted from `n` places earlier. -/
def Stop.later (n : Nat) : Stop → Stop
  | .diagnosed d => .diagnosed { d with pc := d.pc + n }
  | .outputRefused reason => .outputRefused reason

/-- A sink refuses a line because its writer fails, and has then kept a part of it. -/
theorem Sink.text_offer_of_refusal {s : Sink} {stop : Stop} (h : s.refusal = some stop) :
    ∃ n reason, s.writer.answer = .failed n reason ∧ stop = .outputRefused reason ∧
      ∀ line, (s.offer line).text = s.text ++ line.take n := by
  unfold refusal at h
  cases hanswer : s.writer.answer with
  | taken => rw [hanswer] at h; cases h
  | dropped => rw [hanswer] at h; cases h
  | failed n reason =>
    rw [hanswer] at h
    cases h
    refine ⟨n, reason, rfl, rfl, fun line => ?_⟩
    rw [text_offer, hanswer]
    rfl

namespace Machine

/-! ## One instruction -/

/-- What is left, and why, when instruction `i` does not go through. -/
inductive Halted (pc : Nat) (i : Instruction) (m : Machine) : Machine → Stop → Prop
  | faulted (fault : Fault) : Halted pc i m m (.diagnosed (m.diagnostic pc i fault))
  | refused {value : Int64} {stack : List Int64} {n : Nat} {reason : Text} (op : i.op = .print)
      (top : m.stack = value :: stack) (failed : m.sink.writer.answer = .failed n reason)
      (text : (m.sink.offer (printedLine value)).text = m.sink.text ++ (printedLine value).take n) :
      Halted pc i m
        { m with
          stack
          printed := m.printed.push value
          sink := m.sink.offer (printedLine value) }
        (.outputRefused reason)

theorem halted_of_step {pc : Nat} {i : Instruction} {m m' : Machine} {stop : Stop}
    (h : m.step pc i = (m', some stop)) : Halted pc i m m' stop := by
  have hstep := stepped pc i m
  rw [h] at hstep
  generalize hr : (m', some stop) = r at hstep
  cases hstep with
  | underflow | unbound | negativeRoot | divisionByZero | unlisted =>
    cases hr
    exact .faulted _
  | push | load | store | unary | binary => cases hr
  | print op top =>
    simp only [Prod.mk.injEq] at hr
    obtain ⟨rfl, hstop⟩ := hr
    obtain ⟨n, reason, hanswer, rfl, htext⟩ := Sink.text_offer_of_refusal hstop.symm
    exact .refused op top hanswer (htext _)

/-- An instruction does not depend on its number, but for the number in a diagnostic. -/
theorem step_later (m : Machine) (pc n : Nat) (i : Instruction) :
    m.step (pc + n) i = ((m.step pc i).1, (m.step pc i).2.map (Stop.later n)) := by
  have hhalt : ∀ fault : Fault,
      m.halt (pc + n) i fault =
        ((m.halt pc i fault).1, (m.halt pc i fault).2.map (Stop.later n)) := fun _ => rfl
  have hstep := stepped pc i m
  generalize m.step pc i = r at hstep
  cases hstep with
  | underflow lacking => exact (Stepped.underflow lacking).eq.trans (hhalt _)
  | push op => exact (Stepped.push op).eq
  | load op bound => exact (Stepped.load op bound).eq
  | unbound op free => exact (Stepped.unbound op free).eq.trans (hhalt _)
  | store op top => exact (Stepped.store op top).eq
  | unary op top result => exact (Stepped.unary op top result).eq
  | negativeRoot op top result => exact (Stepped.negativeRoot op top result).eq.trans (hhalt _)
  | binary op top result => exact (Stepped.binary op top result).eq
  | divisionByZero op top result =>
    exact (Stepped.divisionByZero op top result).eq.trans (hhalt _)
  | print op top =>
    rw [(Stepped.print op top).eq, Sink.refusal_map fun _ => rfl]
  | unlisted op => exact (Stepped.unlisted op).eq.trans (hhalt _)

/-! ## Runs, instruction by instruction -/

/-- A run of `code` from the state `m` comes to instruction number `k`, or to the end if
there is none, in the given state. -/
inductive Reaches (code : List Instruction) (m : Machine) : Nat → Machine → Prop
  | start : Reaches code m 0 m
  | next {k : Nat} {i : Instruction} {m₁ m₂ : Machine} (reaches : Reaches code m k m₁)
      (here : code[k]? = some i) (through : m₁.step k i = (m₂, none)) :
      Reaches code m (k + 1) m₂

theorem take_succ_of_getElem? {code : List Instruction} {k : Nat} {i : Instruction}
    (h : code[k]? = some i) : code.take (k + 1) = code.take k ++ [i] := by
  rw [List.take_add_one, h, Option.toList_some]

theorem length_take_of_getElem? {code : List Instruction} {k : Nat} {i : Instruction}
    (h : code[k]? = some i) : (code.take k).length = k :=
  List.length_take_of_le (Nat.le_of_lt (List.getElem?_eq_some_iff.mp h).1)

theorem run_take_succ {code : List Instruction} {k : Nat} {i : Instruction} {m m₁ : Machine}
    (h : code[k]? = some i) (hrun : m.run (code.take k) = (m₁, none)) :
    m.run (code.take (k + 1)) = m₁.step k i := by
  have happend := runFrom_append_of_ok hrun [i]
  rw [runFrom_singleton, length_take_of_getElem? h, Nat.zero_add] at happend
  rw [take_succ_of_getElem? h]
  exact happend

theorem reaches_iff {code : List Instruction} {k : Nat} {m m' : Machine} :
    Reaches code m k m' ↔ k ≤ code.length ∧ m.run (code.take k) = (m', none) := by
  constructor
  · intro h
    induction h with
    | start => exact ⟨Nat.zero_le _, rfl⟩
    | next _ here through ih =>
      refine ⟨(List.getElem?_eq_some_iff.mp here).1, ?_⟩
      rw [run_take_succ here ih.2, through]
  · rintro ⟨hk, hrun⟩
    induction k generalizing m' with
    | zero =>
      cases hrun
      exact .start
    | succ k ih =>
      have here : code[k]? = some code[k] := List.getElem?_eq_getElem hk
      cases hbefore : m.run (code.take k) with
      | mk m₁ stop =>
        cases stop with
        | none =>
          rw [run_take_succ here hbefore] at hrun
          exact .next (ih (Nat.le_of_lt hk) hbefore) here hrun
        | some stop =>
          -- a run that has stopped does not go on
          have hstopped := runFrom_append_of_stop hbefore [code[k]]
          rw [← take_succ_of_getElem? here] at hstopped
          cases hstopped.symm.trans hrun

theorem run_of_reaches {code : List Instruction} {k : Nat} {i : Instruction} {m m₁ m' : Machine}
    {stop : Stop} (h : Reaches code m k m₁) (here : code[k]? = some i)
    (hstep : m₁.step k i = (m', some stop)) : m.run code = (m', some stop) := by
  have hupto : m.run (code.take (k + 1)) = (m', some stop) := by
    rw [run_take_succ here (reaches_iff.mp h).2, hstep]
  have hrun := runFrom_append_of_stop hupto (code.drop (k + 1))
  rwa [List.take_append_drop] at hrun

/-- A run goes through all instructions, or stops at one that it has reached. -/
theorem run_cases (code : List Instruction) (m : Machine) :
    (∃ m', Reaches code m code.length m' ∧ m.run code = (m', none)) ∨
    ∃ k i m₁ m' stop, Reaches code m k m₁ ∧ code[k]? = some i ∧
      m₁.step k i = (m', some stop) ∧ m.run code = (m', some stop) := by
  -- go on as far as the run does: at each instruction it stops or comes to the next
  have hgoes : ∀ k, k ≤ code.length → (∃ m', Reaches code m k m') ∨
      ∃ j i m₁ m' stop, Reaches code m j m₁ ∧ code[j]? = some i ∧
        m₁.step j i = (m', some stop) := by
    intro k
    induction k with
    | zero => exact fun _ => .inl ⟨m, .start⟩
    | succ k ih =>
      intro hk
      rcases ih (Nat.le_of_lt hk) with ⟨m₁, hreaches⟩ | hstopped
      · have here : code[k]? = some code[k] := List.getElem?_eq_getElem hk
        cases hstep : m₁.step k code[k] with
        | mk m₂ stop =>
          cases stop with
          | none => exact .inl ⟨m₂, .next hreaches here hstep⟩
          | some stop => exact .inr ⟨k, code[k], m₁, m₂, stop, hreaches, here, hstep⟩
      · exact .inr hstopped
  rcases hgoes code.length (Nat.le_refl _) with
    ⟨m', hreaches⟩ | ⟨k, i, m₁, m', stop, hreaches, here, hstep⟩
  · refine .inl ⟨m', hreaches, ?_⟩
    have hrun := (reaches_iff.mp hreaches).2
    rwa [List.take_length] at hrun
  · exact .inr ⟨k, i, m₁, m', stop, hreaches, here, hstep, run_of_reaches hreaches here hstep⟩

/-! ## Code at another place -/

theorem runFrom_later (code : List Instruction) (pc n : Nat) (m : Machine) :
    runFrom (pc + n) code m =
      ((runFrom pc code m).1, (runFrom pc code m).2.map (Stop.later n)) := by
  induction code generalizing pc m with
  | nil => rfl
  | cons i rest ih =>
    simp only [runFrom, step_later]
    cases hstep : m.step pc i with
    | mk m' stop =>
      cases stop with
      | none =>
        have hplace : pc + n + 1 = pc + 1 + n := by omega
        simp only [Option.map_none, hplace, ih]
      | some stop => rfl

theorem run_append_of_through {p : List Instruction} {m m' : Machine} (h : m.run p = (m', none))
    (q : List Instruction) :
    m.run (p ++ q) = ((m'.run q).1, (m'.run q).2.map (Stop.later p.length)) := by
  have hrest := runFrom_append_of_ok h q
  rw [runFrom_later] at hrest
  exact hrest

end Machine

/-! ## Any run -/

/-- The second line is one too many for the writer, which keeps four bytes of it. -/
def fullMachine : Machine where
  stack := [7]
  sink := ⟨⟨[.taken], .failed 4 (ascii "no space left")⟩, #[]⟩

def printsTwice : List Instruction := [.plain .print, .push 8, .plain .print]

end Polish
