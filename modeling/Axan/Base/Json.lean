import Axan.Base.Double
import Axan.Base.Pairs

/-!
# JSON values

A JSON document in memory. An object is a list of members in which a key that is set again keeps its
place.

* `Json.find`, `Json.set` — read and write a member.
* `Json.find_set` — what is read after a write.
-/

namespace Axan.Base

/-- A JSON value; its strings are UTF-8 texts. -/
inductive Json where
  | null
  | bool (b : Bool)
  | int (n : ℤ)
  | real (x : Double)
  | string (s : List Char)
  | array (vs : List Json)
  | object (members : List (String × Json))

namespace Json

/-- The member of an object with a key. -/
def find (json : Json) (key : String) : Option Json :=
  match json with
  | object members => members.lookup key
  | _ => none

/-- Set a member in a list of members. -/
def setMember (key : String) (value : Json) : List (String × Json) → List (String × Json)
  | [] => [(key, value)]
  | m :: members => if m.1 = key then (key, value) :: members else m :: setMember key value members

/-- Set a member of an object; another value becomes an object first. -/
def set (json : Json) (key : String) (value : Json) : Json :=
  match json with
  | object members => object (setMember key value members)
  | _ => object [(key, value)]

theorem lookup_setMember (key k : String) (value : Json) (members : List (String × Json)) :
    (setMember key value members).lookup k = if k = key then some value else members.lookup k := by
  induction members with
  | nil => exact lookup_cons_ite key k value []
  | cons m members ih =>
      unfold setMember
      by_cases hm : m.1 = key
      · rw [if_pos hm, lookup_cons_ite, lookup_cons_ite, hm]
        split_ifs <;> rfl
      · rw [if_neg hm, lookup_cons_ite, lookup_cons_ite, ih]
        by_cases h : k = m.1
        · rw [if_pos h, if_neg (h ▸ hm), if_pos h]
        · rw [if_neg h, if_neg h]

/-- **What is read after a write.** -/
theorem find_set (json value : Json) (key k : String) :
    (json.set key value).find k = if k = key then some value else json.find k := by
  cases json with
  | object members => exact lookup_setMember key k value members
  | _ => exact lookup_setMember key k value []

end Json

end Axan.Base
