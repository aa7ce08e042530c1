import Partwise.Score.Part

/-!
# Score · Group: the forest of part groups

A group holds parts and further groups in the order they were declared in. `PartGroup.parts` lists
the parts of a group from the outermost to the innermost in that order.
-/

namespace Partwise

/-- The sign that joins the staves of a group. -/
inductive GroupSymbol where
  | none | brace | bracket | line | square
deriving DecidableEq, Repr

instance : Vocabulary GroupSymbol where
  all := [.none, .brace, .bracket, .line, .square]
  name
    | .none => "None"
    | .brace => "Brace"
    | .bracket => "Bracket"
    | .line => "Line"
    | .square => "Square"
  words := [("none", .none), ("brace", .brace), ("bracket", .bracket), ("line", .line),
    ("square", .square)]
  find_name x := by cases x <;> decide

mutual

/-- A group of parts. -/
structure PartGroup where
  /-- The number it has in the part list. -/
  id : String
  name? : Option String
  abbreviation? : Option String
  symbol : GroupSymbol
  /-- How far to the right its symbol stands; symbols further left enclose those to their right. -/
  orderingKey? : Option Binary32
  /-- Barlines are drawn through the staves of the group. -/
  barline : Bool
  /-- The part list does not have the group; parts outside all groups were given one. -/
  isImplicit : Bool
  members : List GroupMember
  line : Nat

/-- A member of a group. -/
inductive GroupMember where
  | group (g : PartGroup)
  | part (p : Part)

end

/-! ## Parts -/

mutual

/-- The parts of a group in order. -/
def PartGroup.parts : PartGroup → List Part
  | { members, .. } => partsOfMembers members

/-- The parts of a member in order. -/
def GroupMember.parts : GroupMember → List Part
  | .group g => g.parts
  | .part p => [p]

/-- The parts of a list of members in order. -/
def partsOfMembers : List GroupMember → List Part
  | [] => []
  | m :: ms => m.parts ++ partsOfMembers ms

end

/-! ## Equality -/

mutual

/-- Two groups are the same, part by part. -/
def PartGroup.same : PartGroup → PartGroup → Bool
  | ⟨a₁, b₁, c₁, d₁, e₁, f₁, g₁, ms, l₁⟩, ⟨a₂, b₂, c₂, d₂, e₂, f₂, g₂, ns, l₂⟩ =>
    a₁ = a₂ && b₁ = b₂ && c₁ = c₂ && d₁ = d₂ && e₁ = e₂ && f₁ = f₂ && g₁ = g₂ &&
      sameMembers ms ns && l₁ = l₂

/-- Two members are the same. -/
def GroupMember.same : GroupMember → GroupMember → Bool
  | .group g, .group h => g.same h
  | .part p, .part q => p = q
  | _, _ => false

/-- Two lists of members are the same, member by member. -/
def sameMembers : List GroupMember → List GroupMember → Bool
  | [], [] => true
  | m :: ms, n :: ns => m.same n && sameMembers ms ns
  | _, _ => false

end

mutual

theorem PartGroup.same_iff (g h : PartGroup) : g.same h = true ↔ g = h := by
  match g, h with
  | ⟨_, _, _, _, _, _, _, ms, _⟩, ⟨_, _, _, _, _, _, _, ns, _⟩ =>
    simp [PartGroup.same, sameMembers_iff ms ns, and_assoc]

theorem GroupMember.same_iff (m n : GroupMember) : m.same n = true ↔ m = n := by
  match m with
  | .group g =>
    cases n with
    | group h => simp [GroupMember.same, g.same_iff h]
    | part _ => simp [GroupMember.same]
  | .part _ => cases n <;> simp [GroupMember.same]

theorem sameMembers_iff (ms ns : List GroupMember) : sameMembers ms ns = true ↔ ms = ns := by
  match ms, ns with
  | [], [] => simp [sameMembers]
  | [], _ :: _ => simp [sameMembers]
  | _ :: _, [] => simp [sameMembers]
  | m :: ms, n :: ns => simp [sameMembers, m.same_iff n, sameMembers_iff ms ns]

end

instance : DecidableEq PartGroup := fun g h => decidable_of_iff _ (g.same_iff h)

/-! ## JSON form -/

mutual

/-- The JSON form of a group. -/
def PartGroup.form : PartGroup → Json
  | { id, name?, abbreviation?, symbol, orderingKey?, barline, isImplicit, members, line } =>
    .object [("id", toJson id), ("name", toJson name?), ("abbreviation", toJson abbreviation?),
      ("symbol", toJson symbol), ("ordering_key", toJson orderingKey?),
      ("barline", toJson barline), ("implicit", toJson isImplicit),
      ("elements", .array (formsOfGroupMembers members)), ("line", toJson line)]

/-- The JSON form of a member. -/
def GroupMember.form : GroupMember → Json
  | .group g => .object [("Group", g.form)]
  | .part p => .object [("Part", toJson p)]

/-- The JSON forms of a list of members. -/
def formsOfGroupMembers : List GroupMember → List Json
  | [] => []
  | m :: ms => m.form :: formsOfGroupMembers ms

end

mutual

/-- The group that a JSON form stands for. -/
def PartGroup.ofForm? (j : Json) : Option PartGroup := do
  let members ← (← j.items? "elements").mapM fun item => GroupMember.ofForm? item.val
  some { id := ← j.get? "id", name? := ← j.get? "name", abbreviation? := ← j.get? "abbreviation",
         symbol := ← j.get? "symbol", orderingKey? := ← j.get? "ordering_key",
         barline := ← j.get? "barline", isImplicit := ← j.get? "implicit",
         members := members, line := ← j.get? "line" }
termination_by sizeOf j
decreasing_by exact item.property

/-- The member that a JSON form stands for. -/
def GroupMember.ofForm? (j : Json) : Option GroupMember :=
  match j with
  | .object [("Group", g)] => (PartGroup.ofForm? g).map GroupMember.group
  | .object [("Part", p)] => (ofJson? p).map GroupMember.part
  | _ => none
termination_by sizeOf j

end

instance : ToJson PartGroup := ⟨PartGroup.form⟩
instance : OfJson PartGroup := ⟨PartGroup.ofForm?⟩

end Partwise
