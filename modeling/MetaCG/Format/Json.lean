import MetaCG.Graph.MetaData

/-! JSON values and the parts of `nlohmann::json` that the readers and writers use.

The fields of an object are a list with increasing keys (`std::map`). Numbers are unbounded; of a
floating-point number only the integer part is kept, which is all that a conversion to `int` uses. -/
namespace MetaCG
open Foundations
set_option autoImplicit false
set_option maxHeartbeats 250000
set_option maxRecDepth 120000

inductive Json where
  | null
  | bool (b : Bool)
  | int (z : ℤ)
  | float (integerPart : ℤ)
  | str (s : String)
  | arr (elems : List Json)
  | obj (fields : List (String × Json))

namespace Json

def is_null : Json → Bool
  | .null => true
  | _ => false

def is_object : Json → Bool
  | .obj _ => true
  | _ => false

/-- No elements; a string or a number has one. -/
def empty : Json → Bool
  | .null => true
  | .arr elems => elems.isEmpty
  | .obj fields => fields.isEmpty
  | _ => false

def contains (j : Json) (key : String) : Bool :=
  match j with
  | .obj fields => (Ordered.find key fields).isSome
  | _ => false

/-- `j.at(key)` -/
def at_ (j : Json) (key : String) : Except Exn Json :=
  match j with
  | .obj fields =>
    match Ordered.find key fields with
    | some v => .ok v
    | none => .error .outOfRange
  | _ => .error .typeError

/-- `j[key]` of a constant value. -/
def subscript (j : Json) (key : String) : Except Exn Json :=
  match j with
  | .obj fields =>
    match Ordered.find key fields with
    | some v => .ok v
    | none => .error .undefined
  | _ => .error .typeError

/-- `j[key]` of a variable: null becomes an object, and a missing key gets the value null. -/
def subscriptMut (j : Json) (key : String) : Except Exn Json :=
  match j with
  | .null => .ok .null
  | .obj fields => .ok ((Ordered.find key fields).getD .null)
  | _ => .error .typeError

/-- `j[key] = value` -/
def assign (j : Json) (key : String) (value : Json) : Except Exn Json :=
  match j with
  | .null => .ok (.obj [(key, value)])
  | .obj fields => .ok (.obj (Ordered.insert key value fields))
  | _ => .error .typeError

/-- `j.erase(key)` -/
def erase (j : Json) (key : String) : Except Exn Json :=
  match j with
  | .obj fields => .ok (.obj (Ordered.erase key fields))
  | _ => .error .typeError

def push_back (j value : Json) : Except Exn Json :=
  match j with
  | .null => .ok (.arr [value])
  | .arr elems => .ok (.arr (elems ++ [value]))
  | _ => .error .typeError

/-- `get<std::string>()` -/
def getStr : Json → Except Exn String
  | .str s => .ok s
  | _ => .error .typeError

/-- `get<bool>()` -/
def getBool : Json → Except Exn Bool
  | .bool b => .ok b
  | _ => .error .typeError

/-- `get<int>()` -/
def getInt : Json → Except Exn Int32
  | .int z => .ok (Int32.ofInt z)
  | .float z => .ok (Int32.ofInt z)
  | .bool b => .ok (if b then 1 else 0)
  | _ => .error .typeError

/-- `get<std::vector<std::string>>()` -/
def getStrings : Json → Except Exn (List String)
  | .arr elems => elems.mapM getStr
  | _ => .error .typeError

/-- The iterators of a value with their `key()`, which only objects have. -/
def iterator : Json → Except Exn (List (String × Json))
  | .null => .ok []
  | .arr [] => .ok []
  | .obj fields => .ok fields
  | _ => .error .invalidIterator

/-- The values of a range-based loop. -/
def values : Json → List Json
  | .null => []
  | .arr elems => elems
  | .obj fields => fields.map Prod.snd
  | j => [j]

/-- `items()`: elements of an array have their index as key, a single value has the empty key. -/
def items : Json → List (String × Json)
  | .null => []
  | .arr elems => elems.zipIdx.map fun e => (toString e.2, e.1)
  | .obj fields => fields
  | j => [("", j)]

/-- The object that an initializer list of pairs makes. -/
def ofFields (l : List (String × Json)) : Json := .obj (Ordered.ofList l)

@[simp] theorem is_null_obj (fields : List (String × Json)) : (Json.obj fields).is_null = false := rfl

@[simp] theorem is_null_ofFields (l : List (String × Json)) : (ofFields l).is_null = false := rfl

theorem at_ofFields {l : List (String × Json)} (hn : (l.map Prod.fst).Nodup) {key : String} {v : Json}
    (h : Ordered.find key l = some v) : (ofFields l).at_ key = .ok v := by
  rw [← Ordered.find_ofList hn] at h
  simp only [at_, ofFields, h]

theorem subscript_ofFields {l : List (String × Json)} (hn : (l.map Prod.fst).Nodup) {key : String} {v : Json}
    (h : Ordered.find key l = some v) : (ofFields l).subscript key = .ok v := by
  rw [← Ordered.find_ofList hn] at h
  simp only [subscript, ofFields, h]

theorem contains_ofFields {l : List (String × Json)} (hn : (l.map Prod.fst).Nodup) {key : String} {v : Json}
    (h : Ordered.find key l = some v) : (ofFields l).contains key = true := by
  rw [← Ordered.find_ofList hn] at h
  simp only [contains, ofFields, h, Option.isSome_some]

theorem subscriptMut_ofFields {l : List (String × Json)} (hn : (l.map Prod.fst).Nodup) {key : String} {v : Json}
    (h : Ordered.find key l = some v) : (ofFields l).subscriptMut key = .ok v := by
  rw [← Ordered.find_ofList hn] at h
  simp only [subscriptMut, ofFields, h, Option.getD_some]

theorem ofFields_cons_empty (e : String × Json) (l : List (String × Json)) : (ofFields (e :: l)).empty = false := by
  have hne : ∀ (l m : List (String × Json)), m ≠ [] → l.foldl (fun m e => Ordered.insert e.1 e.2 m) m ≠ [] := by
    intro l
    induction l with
    | nil => exact fun m hm => hm
    | cons e l ih =>
      intro m _
      refine ih _ fun hnil => ?_
      have hfind := Ordered.find_insert e.1 e.1 e.2 m
      rw [show Ordered.insert e.1 e.2 m = [] from hnil, if_pos rfl] at hfind
      cases hfind
  have h := hne l (Ordered.insert e.1 e.2 []) (by simp [Ordered.insert])
  simpa [ofFields, empty, Ordered.ofList] using h

end Json
end MetaCG
