import Partwise.Decimal.Shortest
import Partwise.Text.Quoted

/-!
# Json · Value: JSON values and their text

A number without fraction and exponent is a whole number of any size, any other is single precision.
An object keeps its members in the order they stand in, repeated ones too. `Json.render` is the
compact text: no blanks, and in a string only quotation marks, backslashes and control characters
are escaped.
-/

namespace Partwise

/-- A JSON value. -/
inductive Json where
  | null
  | bool (b : Bool)
  | whole (n : Int)
  | number (x : Binary32)
  | string (s : String)
  | array (items : List Json)
  | object (members : List (String × Json))
  /-- A value that is well formed but holds a string that names no text, one with half of a
  surrogate pair. -/
  | unreadable
deriving Inhabited

namespace Json

/-! ## Text -/

/-- How a string writes one of its characters. -/
def escaped (c : Char) : String :=
  match c with
  | '"' => "\\\""
  | '\\' => "\\\\"
  | '\x08' => "\\b"
  | '\t' => "\\t"
  | '\n' => "\\n"
  | '\x0c' => "\\f"
  | '\r' => "\\r"
  | c =>
    if c.toNat < 0x10 then "\\u000" ++ Text.hexDigits c.toNat
    else if c.toNat < 0x20 then "\\u00" ++ Text.hexDigits c.toNat
    else c.toString

/-- The text of a string. -/
def renderString (s : String) : String :=
  "\"" ++ String.join (s.toList.map escaped) ++ "\""

mutual

/-- The compact text of a value. What is not finite has no number and is written as null, and so is
what cannot be read. -/
def render : Json → String
  | null => "null"
  | bool b => if b then "true" else "false"
  | whole n => toString n
  | number x => Layout.json.text x
  | string s => renderString s
  | array items => "[" ++ renderItems items ++ "]"
  | object members => "\x7b" ++ renderMembers members ++ "\x7d"
  | unreadable => "null"

/-- The items of an array with commas between them. -/
def renderItems : List Json → String
  | [] => ""
  | [item] => item.render
  | item :: items => item.render ++ "," ++ renderItems items

/-- The members of an object with commas between them. -/
def renderMembers : List (String × Json) → String
  | [] => ""
  | [(name, value)] => renderString name ++ ":" ++ value.render
  | (name, value) :: members =>
    renderString name ++ ":" ++ value.render ++ "," ++ renderMembers members

end

/-! ## Parts of a value -/

/-- The value of the first member with a name. -/
def member? (name : String) : Json → Option Json
  | object members => members.lookup name
  | _ => none

end Json

/-! ## Parts are smaller than the whole -/

namespace Json

theorem sizeOf_lt_of_mem_array {items : List Json} {item : Json} (h : item ∈ items) :
    sizeOf item < sizeOf (array items) := by
  have := List.sizeOf_lt_of_mem h
  simp only [array.sizeOf_spec]
  omega

theorem sizeOf_lt_of_mem_object {members : List (String × Json)} {name : String} {value : Json}
    (h : (name, value) ∈ members) : sizeOf value < sizeOf (object members) := by
  have := List.sizeOf_lt_of_mem h
  simp only [object.sizeOf_spec, Prod.mk.sizeOf_spec] at this ⊢
  omega

theorem mem_of_lookup {members : List (String × Json)} {name : String} {value : Json}
    (h : members.lookup name = some value) : (name, value) ∈ members := by
  induction members with
  | nil => simp at h
  | cons m ms ih =>
    obtain ⟨first, v⟩ := m
    rw [List.lookup_cons] at h
    split at h
    · next heq =>
      cases beq_iff_eq.mp heq
      cases h
      exact List.mem_cons_self
    · exact List.mem_cons_of_mem _ (ih h)

theorem sizeOf_lt_of_member? {j value : Json} {name : String} (h : j.member? name = some value) :
    sizeOf value < sizeOf j := by
  cases j with
  | object members => exact sizeOf_lt_of_mem_object (mem_of_lookup h)
  | _ => simp [member?] at h

/-- The items of the array that a member is, each with the reason why it is smaller than the whole
object. -/
def items? (j : Json) (name : String) : Option (List { item : Json // sizeOf item < sizeOf j }) :=
  match h : j.member? name with
  | some (.array items) => some <| items.attach.map fun ⟨item, hitem⟩ =>
      ⟨item, Nat.lt_trans (sizeOf_lt_of_mem_array hitem) (sizeOf_lt_of_member? h)⟩
  | _ => none

/-- A member together with the reason why it is smaller than the whole object. -/
def part? (j : Json) (name : String) : Option { part : Json // sizeOf part < sizeOf j } :=
  match h : j.member? name with
  | some part => some ⟨part, sizeOf_lt_of_member? h⟩
  | none => none

end Json

/-! ## Values that are written and read as JSON -/

/-- Values with a JSON form. -/
class ToJson (α : Type) where
  toJson : α → Json

/-- Values that a JSON form may stand for. -/
class OfJson (α : Type) where
  ofJson? : Json → Option α

export ToJson (toJson)
export OfJson (ofJson?)

/-- The value of a member of an object. A member that is absent reads as null does. -/
def Json.get? {α : Type} [OfJson α] (j : Json) (name : String) : Option α :=
  ofJson? ((j.member? name).getD .null)

section Instances

variable {α β : Type}

instance : ToJson Json := ⟨id⟩
instance : ToJson Bool := ⟨.bool⟩
instance : ToJson Int := ⟨.whole⟩
instance : ToJson Nat := ⟨fun n => .whole n⟩
instance : ToJson Binary32 := ⟨fun x => if x.isFinite then .number x else .null⟩
instance : ToJson String := ⟨.string⟩
instance [ToJson α] : ToJson (Option α) := ⟨fun x? => x?.elim .null toJson⟩
instance [ToJson α] : ToJson (List α) := ⟨fun xs => .array (xs.map toJson)⟩
instance [ToJson α] [ToJson β] : ToJson (α × β) := ⟨fun p => .array [toJson p.1, toJson p.2]⟩

/-- A fraction is written as its numerator and its denominator. -/
instance : ToJson Rat := ⟨fun q => .array [.whole q.num, .whole q.den]⟩

instance : OfJson Json := ⟨some⟩

instance : OfJson Bool := ⟨fun j =>
  match j with
  | .bool b => some b
  | _ => none⟩

instance : OfJson Int := ⟨fun j =>
  match j with
  | .whole n => some n
  | _ => none⟩

instance : OfJson Nat := ⟨fun j =>
  match j with
  | .whole (.ofNat n) => some n
  | _ => none⟩

instance : OfJson Binary32 := ⟨fun j =>
  match j with
  | .whole n => some (Binary32.ofScaled (n < 0) n.natAbs 0)
  | .number x => some x
  | _ => none⟩

instance : OfJson String := ⟨fun j =>
  match j with
  | .string s => some s
  | _ => none⟩

instance [OfJson α] : OfJson (Option α) := ⟨fun j =>
  match j with
  | .null => some none
  | j => (ofJson? j).map some⟩

instance [OfJson α] : OfJson (List α) := ⟨fun j =>
  match j with
  | .array items => items.mapM ofJson?
  | _ => none⟩

instance [OfJson α] [OfJson β] : OfJson (α × β) := ⟨fun j =>
  match j with
  | .array [a, b] => do some (← ofJson? a, ← ofJson? b)
  | _ => none⟩

/-- A fraction is read in lowest terms; a denominator of zero stands for none. -/
instance : OfJson Rat := ⟨fun j =>
  match j with
  | .array [.whole n, .whole d] => if d = 0 then none else some ((n : Rat) / (d : Rat))
  | _ => none⟩

end Instances

end Partwise
