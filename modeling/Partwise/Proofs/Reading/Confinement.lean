import Partwise.Proofs.Reading.Disciplines
import Partwise.Proofs.Reading.Windows

/-!
# Reading · Confinement: what is read in a part concerns this part alone

Every procedure that reads music sees the part it stands in and the passage, and nothing else. To be
confined is a discipline that barlines keep, too (`Confined.discipline`), so `Move.confined` says it
of every move that is made between the beginning of a part and its end.
-/

namespace Partwise

open Markup

/-- To see and touch nothing but the part and the passage is a discipline. -/
theorem Confined.discipline : PartDiscipline fun _ x => Confined .part x where
  pure := .pure
  throw failure _ := .throw failure
  lift hx := .lift hx.blind
  bind := .bind
  look hsame := .get fun hr hs => hsame _ _ (hr.here.trans hs.here.symm)
    (hr.passage.trans hs.passage.symm)
  currentPart := .currentPart
  voiceAt := .voiceAt
  changePassage _ := .changePassage _
  changeMarks := .changePassage _
  drop := .lift (.find ..)
  hollow := .lift (.find ..)
  changePart := .changePart

/-! ## Moves within a part -/

/-- The move is one of music: neither a boundary of a part nor anything of the header. -/
def Move.IsMusic : Move → Prop
  | enterMeasure _ => True
  | leaveMeasure _ => True
  | leaf e => e.name ∉ headerNames
  | enterPart _ => False
  | leavePart _ => False
  | leavePartList _ => False

instance : DecidablePred Move.IsMusic
  | .enterMeasure _ => inferInstanceAs (Decidable True)
  | .leaveMeasure _ => inferInstanceAs (Decidable True)
  | .leaf e => inferInstanceAs (Decidable (e.name ∉ headerNames))
  | .enterPart _ => inferInstanceAs (Decidable False)
  | .leavePart _ => inferInstanceAs (Decidable False)
  | .leavePartList _ => inferInstanceAs (Decidable False)

/-- **A move of music** sees and touches the part it is made in, and no other. -/
theorem Move.confined {m : Move} (settings : Settings) (h : m.IsMusic) :
    Confined .part (m.perform settings) := by
  cases m with
  | enterMeasure e => exact Confined.discipline.discipline.enterMeasure
  | leaveMeasure e => exact Confined.discipline.discipline.leaveMeasure fun _ _ _ _ _ _ => .lift (.find ..)
  | leaf e => exact Confined.discipline.readMusic h fun _ =>
      ⟨fun _ _ => .lift (.demand _ _), fun _ _ _ _ => .lift (.find ..)⟩
  | enterPart | leavePart | leavePartList => exact h.elim

/-- Music is read within its part, however its elements lie inside each other. -/
theorem Confined.visitMusic {settings : Settings} {es : List Element}
    (h : ∀ m ∈ movesOfAll es, m.IsMusic) : Confined .part (visitAll settings es) := by
  rw [visitAll_eq]
  exact forM fun m hm => m.confined settings (h m hm)

end Partwise
