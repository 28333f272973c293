import ExperienceCodex.Fallible
import ExperienceCodex.Json

/-!
# Codecs

A codec is a pair of a writer and a reader of JSON values that carries the proof that reading
undoes writing.  Records are read member by member: a member may be required, or it has a
default, and members that the record does not know are ignored.
-/

namespace ExperienceCodex

/-- A writer and a reader that undoes it. -/
structure Codec (α : Type) where
  encode : α → Json
  decode : Json → Except String α
  decode_encode : ∀ a, decode (encode a) = .ok a

namespace Codec

attribute [simp] decode_encode

/-- An uninterpreted value. -/
def json : Codec Json where
  encode := id
  decode := .ok
  decode_encode _ := rfl

def string : Codec String where
  encode := .string
  decode
    | .string s => .ok s
    | _ => .error "expected a string"
  decode_encode _ := rfl

def bool : Codec Bool where
  encode := .bool
  decode
    | .bool b => .ok b
    | _ => .error "expected a boolean"
  decode_encode _ := rfl

@[simp] theorem decode_json (value : Json) : json.decode value = .ok value := rfl

@[simp] theorem decode_string (s : String) : string.decode (.string s) = .ok s := rfl

@[simp] theorem decode_bool (b : Bool) : bool.decode (.bool b) = .ok b := rfl

def u64 : Codec UInt64 where
  encode n := .number (.posInt n)
  decode
    | .number (.posInt n) => .ok n
    | _ => .error "expected u64"
  decode_encode _ := rfl

def u32 : Codec UInt32 where
  encode n := .number (.posInt n.toUInt64)
  decode
    | .number (.posInt n) => if n.toNat < 2 ^ 32 then .ok n.toUInt32 else .error "expected u32"
    | _ => .error "expected u32"
  decode_encode n := by
    have hlt : n.toUInt64.toNat < 2 ^ 32 := by
      rw [UInt32.toNat_toUInt64]
      exact n.toNat_lt
    simp only [hlt, if_true, UInt32.toUInt32_toUInt64]

/-- Integers are accepted where a double is read. -/
def f64 : Codec FiniteF64 where
  encode x := .number (.float x)
  decode
    | .number (.float x) => .ok x
    | .number (.posInt n) => .ok ⟨.ofInt n.toNat, F64.ofInt_isFinite (by simpa using n.toNat_lt)⟩
    | .number (.negInt n) =>
      .ok ⟨.ofInt n.toInt, F64.ofInt_isFinite (by
        have hlow := n.le_toInt
        have hhigh := n.toInt_lt
        omega)⟩
    | _ => .error "expected f64"
  decode_encode _ := rfl

section
variable {α : Type}

/-- A variant without data is written as its name. -/
def variant (name : α → String) (variants : List α)
    (h : ∀ a, variants.find? (fun b => name b == name a) = some a) : Codec α where
  encode a := .string (name a)
  decode
    | .string s =>
      match variants.find? fun b => name b == s with
      | some a => .ok a
      | none => .error "unknown variant"
    | _ => .error "expected a variant"
  decode_encode a := by simp only [h]

def list (codec : Codec α) : Codec (List α) where
  encode values := .array (values.map codec.encode)
  decode
    | .array values => values.mapM codec.decode
    | _ => .error "expected a sequence"
  decode_encode values :=
    mapM_map_of_leftInverse codec.decode codec.encode values fun value _ =>
      codec.decode_encode value

/-- An absent value is written as `null`. -/
def option (codec : Codec α) (h : ∀ a, codec.encode a ≠ .null) : Codec (Option α) where
  encode
    | none => .null
    | some a => codec.encode a
  decode
    | .null => .ok none
    | value => do return some (← codec.decode value)
  decode_encode
    | none => rfl
    | some a => by
      have hsome : (codec.decode (codec.encode a) >>= fun a => pure (some a)) = .ok (some a) := by
        rw [codec.decode_encode]
        rfl
      split
      · rename_i heq
        exact absurd heq (h a)
      · exact hsome

lemma ofList_toList (entries : Std.ExtTreeMap String α) :
    Std.ExtTreeMap.ofList entries.toList = entries := by
  apply Std.ExtTreeMap.ext_getElem?
  intro key
  cases h : entries[key]? with
  | some value =>
    have hmem := Std.ExtTreeMap.mem_toList_iff_getElem?_eq_some.mpr h
    exact Std.ExtTreeMap.getElem?_ofList_of_mem Std.compare_self
      Std.ExtTreeMap.distinct_keys_toList hmem
  | none =>
    apply Std.ExtTreeMap.getElem?_ofList_of_contains_eq_false
    rw [← Bool.not_eq_true, List.contains_iff_mem]
    intro hmem
    rw [Std.ExtTreeMap.map_fst_toList_eq_keys, Std.ExtTreeMap.mem_keys] at hmem
    rw [← Std.ExtTreeMap.isSome_getElem?_iff_mem, h] at hmem
    cases hmem

/-- A map is an object with its members in the order of their keys. -/
def map (codec : Codec α) : Codec (Std.ExtTreeMap String α) where
  encode entries := .object (entries.toList.map fun (key, value) => (key, codec.encode value))
  decode
    | .object members => do
      let entries ← members.mapM fun (key, value) => do return (key, ← codec.decode value)
      return .ofList entries
    | _ => .error "expected a map"
  decode_encode entries := by
    have hread := mapM_map_of_leftInverse
      (fun member : String × Json =>
        (do return (member.1, ← codec.decode member.2) : Except String (String × α)))
      (fun entry : String × α => (entry.1, codec.encode entry.2)) entries.toList
      fun entry _ => by simp [codec.decode_encode]
    simp only [hread, ok_bind, ofList_toList]
    rfl

end

section
variable {α : Type}

/-- The members of a record. -/
def members : Json → Except String (List (String × Json))
  | .object members => .ok members
  | _ => .error "expected a struct"

/-- A member that must be present. -/
def field (codec : Codec α) (members : List (String × Json)) (name : String) :
    Except String α :=
  match members.lookup name with
  | some value => codec.decode value
  | none => .error ("missing field " ++ name)

/-- A member with a default. -/
def fieldD (codec : Codec α) (members : List (String × Json)) (name : String) (default : α) :
    Except String α :=
  match members.lookup name with
  | some value => codec.decode value
  | none => .ok default

end

end Codec

end ExperienceCodex
