import ExperienceCodex.Double
import ExperienceCodex.Text

/-!
# JSON values

The value type of `serde_json`: a number is an unsigned or negative 64-bit integer or a finite
double, and an object is its list of members in the order in which the map keeps them.  The
program compares values with the derived equality, under which objects are equal as maps and the
two zeros of a double are equal, and it searches the compact text of a value.  The shortest
decimal text of a double is a parameter `floatText`.
-/

namespace ExperienceCodex

open Text

/-- A number as `serde_json` keeps it. -/
inductive JsonNumber where
  | posInt (n : UInt64)
  | negInt (n : Int64)
  | float (x : FiniteF64)
deriving DecidableEq

namespace JsonNumber

def numEq : JsonNumber → JsonNumber → Bool
  | posInt m, posInt n => m == n
  | negInt m, negInt n => m == n
  | float x, float y => x.1.numEq y.1
  | _, _ => false

@[simp] theorem numEq_self (n : JsonNumber) : n.numEq n = true := by
  cases n <;> simp [numEq]

def text (floatText : F64 → String) : JsonNumber → String
  | posInt n => toString n.toNat
  | negInt n => toString n.toInt
  | float x => floatText x

end JsonNumber

inductive Json where
  | null
  | bool (b : Bool)
  | number (n : JsonNumber)
  | string (s : String)
  | array (values : List Json)
  | object (members : List (String × Json))

namespace Json

/-- `Value::get` with a text key: the member of an object. -/
def get (value : Json) (key : String) : Option Json :=
  match value with
  | object members => members.lookup key
  | _ => none

def asStr : Json → Option String
  | string s => some s
  | _ => none

def asArray : Json → Option (List Json)
  | array values => some values
  | _ => none

def asObject : Json → Option (List (String × Json))
  | object members => some members
  | _ => none

/-- `Value::as_i64`: an integer that fits a signed 64-bit integer. -/
def asI64 : Json → Option Int64
  | number (.posInt n) => if n.toNat < 2 ^ 63 then some n.toInt64 else none
  | number (.negInt n) => some n
  | _ => none

mutual
/-- The derived equality of values. -/
def jsonEq : Json → Json → Bool
  | null, null => true
  | bool a, bool b => a == b
  | number m, number n => m.numEq n
  | string s, string t => s == t
  | array xs, array ys => arrayEq xs ys
  | object xs, object ys => xs.length == ys.length && membersEq xs ys
  | _, _ => false
def arrayEq : List Json → List Json → Bool
  | [], [] => true
  | x :: xs, y :: ys => jsonEq x y && arrayEq xs ys
  | _, _ => false
/-- Every member on the left has an equal value under its key on the right. -/
def membersEq : List (String × Json) → List (String × Json) → Bool
  | [], _ => true
  | (key, x) :: xs, ys =>
    (match ys.lookup key with
      | some y => jsonEq x y
      | none => false) && membersEq xs ys
end

mutual
/-- Every object has each key once, as the map type of the source ensures. -/
def uniqueKeys : Json → Bool
  | array values => uniqueKeysArray values
  | object members => decide (members.map Prod.fst).Nodup && uniqueKeysMembers members
  | _ => true
def uniqueKeysArray : List Json → Bool
  | [] => true
  | value :: rest => uniqueKeys value && uniqueKeysArray rest
def uniqueKeysMembers : List (String × Json) → Bool
  | [] => true
  | (_, value) :: rest => uniqueKeys value && uniqueKeysMembers rest
end

/-- One character of a JSON text literal. -/
def escapeChar (c : Char) : List Char :=
  if c = '"' then ['\\', '"']
  else if c = '\\' then ['\\', '\\']
  else if c.toNat = 8 then ['\\', 'b']
  else if c.toNat = 9 then ['\\', 't']
  else if c.toNat = 10 then ['\\', 'n']
  else if c.toNat = 12 then ['\\', 'f']
  else if c.toNat = 13 then ['\\', 'r']
  else if c.toNat < 32 then
    ['\\', 'u', '0', '0', Nat.digitChar (c.toNat / 16), Nat.digitChar (c.toNat % 16)]
  else [c]

def quote (s : String) : String :=
  String.ofList (['"'] ++ s.toList.flatMap escapeChar ++ ['"'])

section Text
variable (floatText : F64 → String)

mutual
/-- `Value::to_string`: the compact text of a value. -/
def text : Json → String
  | null => "null"
  | bool b => if b then "true" else "false"
  | number n => n.text floatText
  | string s => quote s
  | array values => "[" ++ String.intercalate "," (arrayText values) ++ "]"
  | object members => "\x7b" ++ String.intercalate "," (membersText members) ++ "\x7d"
def arrayText : List Json → List String
  | [] => []
  | value :: rest => text value :: arrayText rest
def membersText : List (String × Json) → List String
  | [] => []
  | (key, value) :: rest => (quote key ++ ":" ++ text value) :: membersText rest
end

end Text

end Json

end ExperienceCodex
