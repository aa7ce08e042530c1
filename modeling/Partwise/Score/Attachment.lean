import Partwise.Score.Vocabulary

/-!
# Score · Attachment: dynamics, wedges, words and pedal marks

What directions say about the note after them. `Attachments` gathers such marks by kind, each kind
in the order it was met; `++` puts one gathering behind another.
-/

namespace Partwise

/-! ## Dynamics -/

/-- The dynamic marks with a sign of their own. -/
inductive DynamicSign where
  | ppppp | pppp | ppp | pp | p | mp | mf | f | ff | fff | ffff | fffff
  | fp | sf | sfp | sfpp | sfz | sffz | fz | rf | rfz | pf | n
deriving DecidableEq, Repr

instance : Vocabulary DynamicSign where
  all := [.ppppp, .pppp, .ppp, .pp, .p, .mp, .mf, .f, .ff, .fff, .ffff, .fffff,
    .fp, .sf, .sfp, .sfpp, .sfz, .sffz, .fz, .rf, .rfz, .pf, .n]
  name
    | .ppppp => "PPPPP" | .pppp => "PPPP" | .ppp => "PPP" | .pp => "PP" | .p => "P"
    | .mp => "MP" | .mf => "MF"
    | .f => "F" | .ff => "FF" | .fff => "FFF" | .ffff => "FFFF" | .fffff => "FFFFF"
    | .fp => "FP" | .sf => "SF" | .sfp => "SFP" | .sfpp => "SFPP" | .sfz => "SFZ"
    | .sffz => "SFFZ" | .fz => "FZ" | .rf => "RF" | .rfz => "RFZ" | .pf => "PF" | .n => "N"
  words := [("ppppp", .ppppp), ("pppp", .pppp), ("ppp", .ppp), ("pp", .pp), ("p", .p),
    ("mp", .mp), ("mf", .mf),
    ("f", .f), ("ff", .ff), ("fff", .fff), ("ffff", .ffff), ("fffff", .fffff),
    ("fp", .fp), ("sf", .sf), ("sfp", .sfp), ("sfpp", .sfpp), ("sfz", .sfz),
    ("sffz", .sffz), ("fz", .fz), ("rf", .rf), ("rfz", .rfz), ("pf", .pf), ("n", .n)]
  find_name x := by cases x <;> decide

/-- A dynamic mark: a sign, or a text where there is no sign for it. -/
inductive Dynamics where
  | sign (s : DynamicSign)
  | other (text : String)
deriving DecidableEq, Repr

namespace Dynamics

/-- The mark that a document means by a word. -/
def ofWord? (word : String) : Option Dynamics :=
  (Vocabulary.ofWord? word).map sign

instance : ToJson Dynamics where
  toJson
    | sign s => toJson s
    | other text => .object [("Other", toJson text)]

instance : OfJson Dynamics where
  ofJson?
    | .object [("Other", text)] => (ofJson? text).map other
    | j => (ofJson? j).map sign

end Dynamics

/-! ## Wedges, words and pedals -/

/-- What a wedge does. -/
inductive WedgeKind where
  | crescendo | diminuendo | stop | continue
deriving DecidableEq, Repr

instance : Vocabulary WedgeKind where
  all := [.crescendo, .diminuendo, .stop, .continue]
  name
    | .crescendo => "Crescendo"
    | .diminuendo => "Diminuendo"
    | .stop => "Stop"
    | .continue => "Continue"
  words := [("crescendo", .crescendo), ("diminuendo", .diminuendo), ("stop", .stop),
    ("continue", .continue)]
  find_name x := by cases x <;> decide

/-- One end of a crescendo or diminuendo. -/
structure Wedge where
  kind : WedgeKind
  number : Nat
  /-- The wedge opens from nothing or closes to nothing. -/
  niente : Bool
deriving DecidableEq, Repr

instance : ToJson Wedge where
  toJson w := .object [("kind", toJson w.kind), ("number", toJson w.number),
    ("niente", toJson w.niente)]

instance : OfJson Wedge where
  ofJson? j := do
    some { kind := ← j.get? "kind", number := ← j.get? "number", niente := ← j.get? "niente" }

/-- On which side of the staff words stand. -/
inductive Placement where
  | above | below
deriving DecidableEq, Repr

instance : Vocabulary Placement where
  all := [.above, .below]
  name
    | .above => "Above" | .below => "Below"
  words := [("above", .above), ("below", .below)]
  find_name x := by cases x <;> decide

/-- Words over or under a note. -/
structure Words where
  text : String
  placement? : Option Placement
deriving DecidableEq, Repr

instance : ToJson Words where
  toJson w := .object [("text", toJson w.text), ("placement", toJson w.placement?)]

instance : OfJson Words where
  ofJson? j := do some { text := ← j.get? "text", placement? := ← j.get? "placement" }

/-- What a pedal mark says. -/
inductive PedalKind where
  | start | stop | change | continue | sostenuto | resume | discontinue
deriving DecidableEq, Repr

instance : Vocabulary PedalKind where
  all := [.start, .stop, .change, .continue, .sostenuto, .resume, .discontinue]
  name
    | .start => "Start"
    | .stop => "Stop"
    | .change => "Change"
    | .continue => "Continue"
    | .sostenuto => "Sostenuto"
    | .resume => "Resume"
    | .discontinue => "Discontinue"
  words := [("start", .start), ("stop", .stop), ("change", .change), ("continue", .continue),
    ("sostenuto", .sostenuto), ("resume", .resume), ("discontinue", .discontinue)]
  find_name x := by cases x <;> decide

/-! ## Gatherings -/

/-- Marks gathered from directions. -/
structure Attachments where
  dynamics : List Dynamics := []
  wedges : List Wedge := []
  words : List Words := []
  pedals : List PedalKind := []
deriving DecidableEq, Repr

namespace Attachments

/-- No mark at all. -/
def isEmpty (a : Attachments) : Bool :=
  a.dynamics.isEmpty && a.wedges.isEmpty && a.words.isEmpty && a.pedals.isEmpty

/-- The marks of the first gathering, then those of the second, kind by kind. -/
def append (a b : Attachments) : Attachments where
  dynamics := a.dynamics ++ b.dynamics
  wedges := a.wedges ++ b.wedges
  words := a.words ++ b.words
  pedals := a.pedals ++ b.pedals

instance : EmptyCollection Attachments := ⟨{}⟩
instance : Append Attachments := ⟨append⟩

theorem isEmpty_iff (a : Attachments) : a.isEmpty = true ↔ a = ∅ := by
  rcases a with ⟨d, w, t, p⟩
  simp [isEmpty, EmptyCollection.emptyCollection, and_assoc]

@[simp] theorem append_empty (a : Attachments) : a ++ (∅ : Attachments) = a := by
  rcases a with ⟨dynamics, wedges, words, pedals⟩
  show Attachments.mk (dynamics ++ []) (wedges ++ []) (words ++ []) (pedals ++ []) = _
  simp only [List.append_nil]

@[simp] theorem empty_append (a : Attachments) : (∅ : Attachments) ++ a = a := rfl

theorem append_assoc (a b c : Attachments) : a ++ b ++ c = a ++ (b ++ c) := by
  show Attachments.mk (_ ++ _ ++ _) (_ ++ _ ++ _) (_ ++ _ ++ _) (_ ++ _ ++ _) = _
  simp only [List.append_assoc]
  rfl

instance : ToJson Attachments where
  toJson a := .object [("dynamics", toJson a.dynamics), ("wedges", toJson a.wedges),
    ("words", toJson a.words), ("pedals", toJson a.pedals)]

instance : OfJson Attachments where
  ofJson? j := do
    some { dynamics := ← j.get? "dynamics", wedges := ← j.get? "wedges",
           words := ← j.get? "words", pedals := ← j.get? "pedals" }

end Attachments

end Partwise
