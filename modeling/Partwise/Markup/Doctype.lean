/-!
# Markup · Doctype: a document type declaration becomes blank space

The reader of documents takes no document type declaration. `blankDoctype` therefore overwrites the
first one, wherever it stands, with spaces; line feeds stay, so that no line number moves. A
declaration with an internal subset, one with a `[` before its first `>`, ends at the first `]>`;
any other ends at its first `>`. Without such an end nothing is overwritten.
-/

namespace Partwise.Markup

/-- What opens a document type declaration. -/
def doctypeOpening : List Char := "<!DOCTYPE".toList

/-- Cuts the text where the mark first stands: what is before it, and the rest from the mark on. -/
def splitAtFirst (mark : List Char) : List Char → Option (List Char × List Char)
  | [] => if mark.isEmpty then some ([], []) else none
  | c :: cs =>
    if mark.isPrefixOf (c :: cs) then some ([], c :: cs)
    else (splitAtFirst mark cs).map fun (before, rest) => (c :: before, rest)

/-- The length of the text up to the end of the first occurrence of the mark. -/
def lengthThrough (mark cs : List Char) : Option Nat :=
  (splitAtFirst mark cs).map fun (before, _) => before.length + mark.length

/-- The declaration that the text opens with has an internal subset: its first `[` comes before its
first `>`. -/
def hasInternalSubset (cs : List Char) : Bool :=
  match lengthThrough ['['] cs, lengthThrough ['>'] cs with
  | some subset, some close => subset < close
  | _, _ => false

/-- The length of the declaration that the text opens with. -/
def doctypeLength? (cs : List Char) : Option Nat :=
  if hasInternalSubset cs then lengthThrough [']', '>'] cs else lengthThrough ['>'] cs

/-- A character overwritten: a space, or the line feed it was. -/
def blanked (c : Char) : Char :=
  if c = '\n' then '\n' else ' '

/-- The text with its first document type declaration overwritten. -/
def blankDoctype (cs : List Char) : List Char :=
  match splitAtFirst doctypeOpening cs with
  | none => cs
  | some (before, rest) =>
    match doctypeLength? rest with
    | none => cs
    | some length => before ++ (rest.take length).map blanked ++ rest.drop length

/-! ## No character is added or lost -/

/-- The two parts of a cut are the text. -/
theorem append_of_splitAtFirst {mark cs before rest : List Char}
    (h : splitAtFirst mark cs = some (before, rest)) : before ++ rest = cs := by
  induction cs generalizing before rest with
  | nil =>
    unfold splitAtFirst at h
    split at h <;> simp_all
  | cons c cs ih =>
    unfold splitAtFirst at h
    split at h
    · simp_all
    · obtain ⟨⟨b, r⟩, hbr, heq⟩ := Option.map_eq_some_iff.mp h
      cases heq
      simp [ih hbr]

theorem length_blankDoctype (cs : List Char) : (blankDoctype cs).length = cs.length := by
  unfold blankDoctype
  split
  · rfl
  · next before rest h =>
    have happ := append_of_splitAtFirst h
    split
    · rfl
    · next length _ =>
      rw [← happ]
      simp only [List.length_append, List.length_map, List.length_take, List.length_drop]
      omega

end Partwise.Markup
