import Gusher.Library.JsonText
import Gusher.Scheme.Number
import Gusher.Scheme.Time
import Gusher.Scheme.Utf8

/-!
# JSON and Scheme objects

The functions `json-encode` and `json-decode`.  The first tells association lists from other lists
by the first entry; both stand for the texts of JSON that libjansson writes and reads.
-/

namespace Gusher

/-- The part of libjansson that is used: `json_dumps` of an array or an object, with the flag
`JSON_COMPACT`, and `json_loads`. -/
structure Jansson where
  dumps : Json → List UInt8
  loads : List UInt8 → Option Json

/-- What the code relies on. -/
structure Jansson.Lawful (js : Jansson) : Prop where
  /-- `json_loads` undoes `json_dumps` and keeps the order of members -/
  loads_dumps : ∀ {j : Json}, j.Wf → j.NoReal → j.isContainer → js.loads (js.dumps j) = some j
  /-- the text is in UTF-8, is not empty and has no NUL -/
  exists_text : ∀ {j : Json}, j.Wf → j.NoReal → j.isContainer →
    ∃ t, js.dumps j = encodeUtf8 t ∧ t ≠ [] ∧ Char.ofNat 0 ∉ t
  /-- strings with a NUL and texts that are not an array or an object are rejected, and of members
  with one key only the last is kept -/
  loads_wf : ∀ {s : List UInt8} {j : Json}, js.loads s = some j → j.Wf ∧ j.isContainer

/-- The texts without reals that libjansson writes, and the texts without white space that it reads.  A
real is written with its own digits here, where the library prints 17 significant ones. -/
def jansson : Jansson where
  dumps j := encodeUtf8 j.print
  loads s := (fromUtf8 s).bind Json.read

/-! ### Encoding -/

/-- `scm_list_p`. -/
def Scm.isList : Scm → Bool
  | .nil => true
  | .pair _ cdr => cdr.isList
  | _ => false

/-- `make_key`; a key with a NUL is not converted. -/
def makeKey : Scm → Option Text
  | .str s | .symbol s => if Char.ofNat 0 ∈ s then none else some s
  | _ => none

/-- `json_string` of what `scm_to_utf8_string` gives, which raises an exception when there is
a NUL. -/
def jsonString (s : Text) : Option (Option Json) :=
  if Char.ofNat 0 ∈ s then none else some (some (.str s))

/-- `json_real` of a number that is no exact integer.  A fraction is exact but no `int`, and a
complex number is no `double`; what is not finite has no JSON. -/
def jsonReal (digits : Text) : Option (Option Json) :=
  if '/' ∈ digits ∨ digits.getLast? = some 'i' then none
  else if digits = "+inf.0".toList ∨ digits = "-inf.0".toList ∨ digits = "+nan.0".toList then
    some none
  else some (some (.real digits))

/-- `json_object_set_new`, which does nothing when there is no value. -/
def objectSetNew (members : List (Text × Json)) (key : Text) : Option Json → List (Text × Json)
  | none => members
  | some x => Json.set members key x

mutual

/-- `json_build`.  An exception, or the `car` of what is not a pair, gives `none`; `some none` is
the null pointer.  The first round of the loops over a list is the one for the first pair. -/
def jsonBuild : Scm → Option (Option Json)
  | .str s => jsonString s
  | .symbol name => jsonString name
  | .bool b => some (some (.bool b))
  | .int z => if IsInt z then some (some (.int (Int64.ofInt z))) else none
  | .number digits => jsonReal digits
  | .nil => some (some .null)
  | .pair (.pair (.symbol name) value) cdr =>
      if cdr.isList then
        (makeKey (.symbol name)).bind (fun key =>
          (jsonBuild value).bind (fun x => buildMembers (objectSetNew [] key x) cdr))
      else some (some .null)
  | .pair car cdr =>
      if cdr.isList then (jsonBuild car).bind (fun x => buildItems x.toList cdr)
      else some (some .null)
  | .time t => jsonString (formatTime t)
  | .other _ => some (some .null)

/-- The loop of `json_build` over an association list. -/
def buildMembers (members : List (Text × Json)) : Scm → Option (Option Json)
  | .pair (.pair k value) cdr =>
      (makeKey k).bind (fun key =>
        (jsonBuild value).bind (fun x => buildMembers (objectSetNew members key x) cdr))
  | .pair _ _ => none
  | _ => some (some (.obj members))

/-- The loop of `json_build` over any other list. -/
def buildItems (items : List Json) : Scm → Option (Option Json)
  | .pair car cdr => (jsonBuild car).bind (fun x => buildItems (items ++ x.toList) cdr)
  | _ => some (some (.arr items))

end

/-- `json_dumps`, which gives the null pointer unless there is an array or an object. -/
def Jansson.jsonDumps (js : Jansson) : Option Json → Option (List UInt8)
  | none => none
  | some root => if root.isContainer then some (js.dumps root) else none

def Jansson.jsonEncode (js : Jansson) (obj : Scm) : Option Scm :=
  (jsonBuild obj).bind (fun root =>
    match js.jsonDumps root with
    | none => some (.bool false)
    | some buf => (fromUtf8 buf).map .str)

/-! ### Decoding -/

mutual

/-- `parse` of JSON, which makes an `int` of every integer. -/
def jsonParse : Json → Scm
  | .str s => .str s
  | .int n => .int (Int.bmod n.toInt (2 ^ 32))
  | .real digits => .number digits
  | .bool b => .bool b
  | .null => .nil
  | .arr items => parseItems items
  | .obj members => parseMembers members .nil

/-- The loop of `parse` over the items of an array, from the last to the first. -/
def parseItems : List Json → Scm
  | [] => .nil
  | x :: items => .pair (jsonParse x) (parseItems items)

/-- The loop of `parse` over the members of an object. -/
def parseMembers : List (Text × Json) → Scm → Scm
  | [], list => list
  | (key, x) :: members, list =>
      parseMembers members (.pair (.pair (.symbol key) (jsonParse x)) list)

end

def Jansson.jsonDecode (js : Jansson) : Scm → Option Scm
  | .str s => (toUtf8 s).map (fun buf =>
      match js.loads buf with
      | none => .bool false
      | some root => jsonParse root)
  | _ => none

end Gusher
