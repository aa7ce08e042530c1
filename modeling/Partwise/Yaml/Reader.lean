import Partwise.Yaml.Token

/-!
# Yaml · Reader: from text to YAML values

The tokens of a text say where collections begin and end, so values are read from the front, and
each reader returns the tokens that are left. Keys, values and items may be left out and are empty
then. Every call gets a smaller amount of fuel, and a text has enough of it for all its tokens.
-/

namespace Partwise.Yaml

/-- A YAML value. -/
inductive Value where
  | plain (text : String)
  | quoted (text : String)
  | list (items : List Value)
  | mapping (members : List (Value × Value))
deriving Inhabited

/-- What stands where a value is left out. -/
def Value.absent : Value := .plain ""

/-- The next token is one of those, or there is none. -/
def isNext (ends : List Token) (tokens : List Token) : Bool :=
  tokens.head?.all fun t => ends.contains t

/-- The tokens before which a key or a value of a block mapping is left out. -/
def memberEnds : List Token := [.key, .value, .blockEnd]

mutual

/-- A value. Block collections are not read within flow collections, and a block list without a
column of its own only as the key or value of a block mapping. -/
def value? : Nat → (inBlock inMember : Bool) → List Token → Option (Value × List Token)
  | 0, _, _, _ => none
  | _ + 1, _, _, [] => none
  | fuel + 1, inBlock, inMember, t :: ts =>
    match t with
    | .plain text => some (.plain text, ts)
    | .quoted text => some (.quoted text, ts)
    | .flowListStart => flowItems? fuel [] ts
    | .flowMappingStart => flowMembers? fuel [] ts
    | .blockListStart => if inBlock then blockItems? fuel [] ts else none
    | .blockMappingStart => if inBlock then blockMembers? fuel [] ts else none
    | .dash => if inMember then looseItems? fuel [] (t :: ts) else none
    | _ => none

/-- The items of a block list up to its end, those already read last first. -/
def blockItems? : Nat → List Value → List Token → Option (Value × List Token)
  | 0, _, _ => none
  | fuel + 1, items, .dash :: ts => do
    let (item, rest) ←
      if isNext [.dash, .blockEnd] ts then some (Value.absent, ts) else value? fuel true false ts
    blockItems? fuel (item :: items) rest
  | _ + 1, items, .blockEnd :: ts => some (.list items.reverse, ts)
  | _ + 1, _, _ => none

/-- The items of a block list in the column of the mapping around it; it ends with its last dash. -/
def looseItems? : Nat → List Value → List Token → Option (Value × List Token)
  | 0, _, _ => none
  | fuel + 1, items, .dash :: ts => do
    let (item, rest) ←
      if isNext (.dash :: memberEnds) ts then some (Value.absent, ts) else value? fuel true false ts
    looseItems? fuel (item :: items) rest
  | _ + 1, items, ts => some (.list items.reverse, ts)

/-- The members of a block mapping up to its end, those already read last first. -/
def blockMembers? : Nat → List (Value × Value) → List Token → Option (Value × List Token)
  | 0, _, _ => none
  | fuel + 1, members, .key :: ts => do
    let (key, rest) ← memberPart? fuel ts
    let (value, rest) ←
      match rest with
      | .value :: rest => memberPart? fuel rest
      | rest => some (Value.absent, rest)
    blockMembers? fuel ((key, value) :: members) rest
  | _ + 1, members, .blockEnd :: ts => some (.mapping members.reverse, ts)
  | _ + 1, _, _ => none

/-- A key or a value of a block mapping, which may be left out. -/
def memberPart? : Nat → List Token → Option (Value × List Token)
  | 0, _ => none
  | fuel + 1, ts => if isNext memberEnds ts then some (.absent, ts) else value? fuel true true ts

/-- The items of a flow list up to its end, those already read last first. -/
def flowItems? : Nat → List Value → List Token → Option (Value × List Token)
  | 0, _, _ => none
  | _ + 1, items, .flowListEnd :: ts => some (.list items.reverse, ts)
  | fuel + 1, items, ts => do
    let (item, rest) ←
      match ts with
      | .key :: ts => flowPair? fuel ts
      | ts => value? fuel false false ts
    match rest with
    | .comma :: rest => flowItems? fuel (item :: items) rest
    | .flowListEnd :: rest => some (.list (item :: items).reverse, rest)
    | _ => none

/-- An item of a flow list that is a mapping of one key. Where the key is left out, the token behind
it is passed over. -/
def flowPair? : Nat → List Token → Option (Value × List Token)
  | 0, _ => none
  | fuel + 1, ts => do
    let (key, rest) ←
      if isNext [.value, .comma, .flowListEnd] ts then some (Value.absent, ts.drop 1)
      else value? fuel false false ts
    let (value, rest) ← flowMember? fuel .flowListEnd rest
    some (.mapping [(key, value)], rest)

/-- The members of a flow mapping up to its end, those already read last first. -/
def flowMembers? : Nat → List (Value × Value) → List Token → Option (Value × List Token)
  | 0, _, _ => none
  | _ + 1, members, .flowMappingEnd :: ts => some (.mapping members.reverse, ts)
  | fuel + 1, members, ts => do
    let (member, rest) ←
      match ts with
      | .key :: ts => do
        let (key, rest) ←
          if isNext [.value, .comma, .flowMappingEnd] ts then some (Value.absent, ts)
          else value? fuel false false ts
        let (value, rest) ← flowMember? fuel .flowMappingEnd rest
        some ((key, value), rest)
      | ts => do
        let (key, rest) ← value? fuel false false ts
        some ((key, Value.absent), rest)
    match rest with
    | .comma :: rest => flowMembers? fuel (member :: members) rest
    | .flowMappingEnd :: rest => some (.mapping (member :: members).reverse, rest)
    | _ => none

/-- The value behind a key of a flow collection with that end, which may be left out. -/
def flowMember? : Nat → Token → List Token → Option (Value × List Token)
  | 0, _, _ => none
  | fuel + 1, stop, .value :: ts =>
    if isNext [.comma, stop] ts then some (.absent, ts) else value? fuel false false ts
  | _ + 1, _, ts => some (.absent, ts)

end

/-! ## Documents -/

/-- The value of the one document that the tokens may hold. Behind three dashes it may be left out;
three points may follow it. -/
def document? (tokens : List Token) : Option Value := do
  let fuel := 3 * tokens.length + 3
  let (value, rest) ←
    match tokens with
    | [] => some (Value.absent, [])
    | .documentStart :: ts =>
      if isNext [.documentStart, .documentEnd] ts then some (Value.absent, ts)
      else value? fuel true false ts
    | ts => value? fuel true false ts
  if rest.all (· = .documentEnd) then some value else none

/-- The value that a text writes. -/
def ofText? (text : String) : Option Value := do
  document? (← tokens? text.toList)

end Partwise.Yaml
