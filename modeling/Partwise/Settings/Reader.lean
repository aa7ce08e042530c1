import Partwise.Json.Reader
import Partwise.Settings.Fields
import Partwise.Yaml.Reader

/-!
# Settings · Reader: settings out of JSON and YAML

JSON gives settings as an object or as an array, YAML as a mapping. A file is read as JSON where its
name ends so, and as YAML otherwise.
-/

namespace Partwise

/-- Why there are no settings. -/
inductive SettingsFault where
  /-- There is no file, or it is no text. -/
  | unreadable
  | notJson
  | notYaml
deriving DecidableEq, Repr

namespace Settings

/-! ## JSON -/

/-- A number of settings fits 32 bits. -/
def fits32 (n : Nat) : Bool := Nat.blt n 0x100000000

/-- JSON values: the list of texts may be null, nothing else may. -/
def jsonReader : ValueReader Json where
  flag? := ofJson?
  number? j := (ofJson? j).filter fits32
  texts? := ofJson?

/-- The settings of a JSON text. -/
def ofJsonText? (text : String) : Option Settings :=
  match Json.ofText? text with
  | some (.object members) => ofMembers? jsonReader members
  | some (.array items) => ofPositions? jsonReader items
  | _ => none

/-! ## YAML -/

/-- The flag that a plain scalar writes. -/
def flagOfWord? (word : String) : Option Bool :=
  match word with
  | "true" => some true
  | "True" => some true
  | "TRUE" => some true
  | "false" => some false
  | "False" => some false
  | "FALSE" => some false
  | _ => none

/-- A plain scalar that stands for nothing. -/
def isNullWord (word : String) : Bool :=
  word == "" || word == "~" || word == "null" || word == "Null" || word == "NULL"

/-- The number that digits of a base write. -/
def numberInBase? (base : Nat) (cs : List Char) : Option Nat :=
  if cs.isEmpty then none
  else cs.foldlM (fun n c => do
    let digit ← Text.hexDigit? c
    if Nat.blt digit base then some (base * n + digit) else none) 0

/-- The number that a plain scalar writes, without sign or with a plus sign: in base sixteen, eight
or two behind a mark of the base, and otherwise in base ten without needless zeros. -/
def numberOfWord? (word : String) : Option Nat :=
  let chars := word.toList
  let body := if chars.head? = some '+' then chars.drop 1 else chars
  match body with
  | '0' :: 'x' :: digits => numberInBase? 16 digits
  | '0' :: 'o' :: digits => numberInBase? 8 digits
  | '0' :: 'b' :: digits => numberInBase? 2 digits
  | '0' :: _ :: _ => none
  | digits => Text.natural? digits

/-- The text that a scalar writes, whatever it looks like. -/
def textOfScalar? : Yaml.Value → Option String
  | .plain text => some text
  | .quoted text => some text
  | _ => none

/-- YAML values: flags and numbers are plain scalars, the list of texts may be left open. -/
def yamlReader : ValueReader Yaml.Value where
  flag? value :=
    match value with
    | .plain word => flagOfWord? word
    | _ => none
  number? value :=
    match value with
    | .plain word => (numberOfWord? word).filter fits32
    | _ => none
  texts? value :=
    match value with
    | .plain word => if isNullWord word then some none else none
    | .list items => (items.mapM textOfScalar?).map some
    | _ => none

/-- The settings of a YAML text. A text that holds nothing changes none of them. -/
def ofYamlText? (text : String) : Option Settings := do
  match ← Yaml.ofText? text with
  | .plain "" => some {}
  | .mapping members =>
    ofMembers? yamlReader (← members.mapM fun m => (textOfScalar? m.1).map fun name => (name, m.2))
  | _ => none

/-! ## Files -/

/-- What stands behind the last point of a file's name. A name that begins with its only point has
no extension. -/
def extension? (name : String) : Option String :=
  let reversed := name.toList.reverse
  let behind := reversed.takeWhile (· != '.')
  match reversed.dropWhile (· != '.') with
  | _ :: _ :: _ => some (String.ofList behind.reverse)
  | _ => none

/-- The settings of a file, given its name and what it holds, if it is there. -/
def ofFile (name : String) (content? : Option ByteArray) : Except SettingsFault Settings :=
  match content?.bind String.fromUTF8? with
  | none => .error .unreadable
  | some text =>
    if extension? name = some "json" then
      match ofJsonText? text with
      | some settings => .ok settings
      | none => .error .notJson
    else
      match ofYamlText? text with
      | some settings => .ok settings
      | none => .error .notYaml

end Settings

end Partwise
