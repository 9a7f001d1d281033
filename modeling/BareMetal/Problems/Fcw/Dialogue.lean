import BareMetal.CS.LineInput
import BareMetal.CS.Loop
import BareMetal.Problems.Fcw.Basic

/-!
# The dialogue of `declare_emergency`

`declare_emergency` asks a pilot and reads one line. Its loop leaves as soon as there is a line,
whatever it says; when the input has ended there is none, and the loop asks again.

## Main results

* `exists_answer` — a line is answered
* `ends_iff` — the dialogue ends exactly when the input has not ended
-/

namespace BareMetal.Fcw.Dialogue

open CS LineInput StringCopy

/-- `sizeof(buffer)`. -/
def bufferSize : ℕ := 256

/-- The buffer, what is still to be read from `stdin`, and what has been written to `stdout`. -/
structure Locals where
  buffer : CString
  stdin : Input
  stdout : String

/-- One pass of the loop of `declare_emergency`. -/
def askPass (s : Locals) : Outcome (Pass Locals (Locals × UInt8)) := do
  let stdout := s.stdout ++ "CT> "
  match ← fgets s.buffer bufferSize s.stdin with
  | none => .ok (.again { s with stdout := stdout })
  | some (buffer, stdin) => do
    let i ← strcspn (.ofString "\n") buffer
    let buffer ← Cells.store buffer i 0
    .ok (.leave (⟨buffer, stdin, stdout⟩, Fcw.declareEmergency (text buffer)))

/-- `declare_emergency`, with the number that it returns. What the buffer holds at first is
`junk`. -/
def declareEmergency (airplane : Airplane) (pilotId : String) (junk : ℕ → Int8) (stdin : Input)
    (fuel : ℕ) : Outcome (Locals × UInt8) :=
  let stdout := "Flight " ++ airplane.id ++ " EMERGENCY declaration process\n" ++
    pilotId ++ " please confirm emergency and engine off authorization\n"
  loop askPass fuel ⟨Cells.fresh junk bufferSize, stdin, stdout⟩

/-- The dialogue ends, with 0 or 1. -/
def Ends (airplane : Airplane) (pilotId : String) (junk : ℕ → Int8) (stdin : Input) : Prop :=
  ∃ s code, Returns (declareEmergency airplane pilotId junk stdin) (s, code) ∧
    (code = 0 ∨ code = 1)

variable {airplane : Airplane} {pilotId : String} {junk : ℕ → Int8} {stdin : Input}

theorem declareEmergency_eq_or (buffer : CString) :
    Fcw.declareEmergency buffer = 0 ∨ Fcw.declareEmergency buffer = 1 := by
  unfold Fcw.declareEmergency
  split_ifs
  · exact Or.inr rfl
  · exact Or.inl rfl

/-- What the pilot has typed, up to the end of the line. -/
def answer (stdin : Input) : CString :=
  cut (.ofString "\n") (readLine (bufferSize - 1) stdin).1

/-- A pass that reads a line is the last one. -/
theorem exists_askPass {s : Locals} (hbuffer : bufferSize ≤ s.buffer.length)
    (hstdin : s.stdin ≠ .nil) :
    ∃ buffer, askPass s = .ok (.leave
      (⟨buffer, (readLine (bufferSize - 1) s.stdin).2, s.stdout ++ "CT> "⟩,
        Fcw.declareEmergency (answer s.stdin))) := by
  obtain ⟨post, hfgets⟩ := exists_fgets hbuffer (by decide) hstdin
  obtain ⟨post', hstore⟩ :=
    exists_store_cut (.ofString "\n") (readLine (bufferSize - 1) s.stdin).1 post
  have htext := text_append
    (zero_notMem_cut (.ofString "\n") (readLine (bufferSize - 1) s.stdin).1) post'
  refine ⟨answer s.stdin ++ 0 :: post', ?_⟩
  rw [askPass, hfgets, Outcome.ok_bind]
  dsimp only
  rw [strcspn_eq, Outcome.ok_bind, hstore, Outcome.ok_bind, htext]
  rfl

/-- A line is answered, and what follows it is left for the next dialogue. -/
theorem exists_answer (airplane : Airplane) (pilotId : String) (junk : ℕ → Int8)
    (hstdin : stdin ≠ .nil) :
    ∃ s, Returns (declareEmergency airplane pilotId junk stdin)
        (s, Fcw.declareEmergency (answer stdin)) ∧
      s.stdin = (readLine (bufferSize - 1) stdin).2 := by
  have hbuffer : bufferSize ≤ (Cells.fresh junk bufferSize).length :=
    (Cells.length_fresh junk bufferSize).ge
  obtain ⟨buffer, hpass⟩ := exists_askPass (s := ⟨Cells.fresh junk bufferSize, stdin,
    "Flight " ++ airplane.id ++ " EMERGENCY declaration process\n" ++ pilotId ++
      " please confirm emergency and engine off authorization\n"⟩) hbuffer hstdin
  exact ⟨_, .loop_leave hpass, rfl⟩

/-- At the end of the input the pilot is asked for ever. -/
theorem declareEmergency_nil (airplane : Airplane) (pilotId : String) (junk : ℕ → Int8)
    (fuel : ℕ) : declareEmergency airplane pilotId junk .nil fuel = .error .outOfFuel := by
  refine loop_forever (I := fun s => s.stdin = .nil) (fun s hs => ?_) rfl fuel
  refine ⟨{ s with stdout := s.stdout ++ "CT> " }, ?_, hs⟩
  rw [askPass, hs, fgets_nil]
  rfl

theorem not_ends_nil (airplane : Airplane) (pilotId : String) (junk : ℕ → Int8) :
    ¬ Ends airplane pilotId junk .nil := by
  rintro ⟨s, code, hreturns, -⟩
  obtain ⟨fuel, hok⟩ := hreturns.exists_ok
  cases (declareEmergency_nil airplane pilotId junk fuel).symm.trans hok

/-- **The end of the dialogue.** It ends with 0 or 1 exactly when the input has not ended. -/
theorem ends_iff (airplane : Airplane) (pilotId : String) (junk : ℕ → Int8) (stdin : Input) :
    Ends airplane pilotId junk stdin ↔ stdin ≠ .nil := by
  constructor
  · rintro hends rfl
    exact not_ends_nil airplane pilotId junk hends
  · intro hstdin
    obtain ⟨s, hreturns, -⟩ := exists_answer airplane pilotId junk hstdin
    exact ⟨s, _, hreturns, declareEmergency_eq_or _⟩

/-- An airplane in the air, with both engines on. -/
def airborne : Airplane := ⟨"WA-777", ⟨none, none⟩, 0x02, 0x06, 0x0F⟩

/-- The first pilot has no input, and the dialogue does not end. -/
theorem empty_input_never_ends :
    (∀ fuel, declareEmergency airborne "P-01" (fun _ => 0) .nil fuel = .error .outOfFuel) ∧
      ¬ Ends airborne "P-01" (fun _ => 0) .nil :=
  ⟨declareEmergency_nil airborne "P-01" _, not_ends_nil airborne "P-01" _⟩

end BareMetal.Fcw.Dialogue
