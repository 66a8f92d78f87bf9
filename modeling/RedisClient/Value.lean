import Mathlib.Data.Int.Notation
import Mathlib.Data.List.Basic

/-! # The values of replies

`RedisValue` is what the parser delivers: nil, an integer, a byte string or an array. The flag
`error` of the source is set by one constructor only, the one for error strings, so here it belongs
to byte strings. -/

namespace RedisClient.Value

/-- The contents of a buffer of `char`. -/
abbrev Bytes := List UInt8

/-- The characters of a string, which are ASCII in the source. -/
def chars (s : String) : Bytes := s.toList.map fun c => c.val.toUInt8

/-- A reply. -/
inductive RedisValue where
  | null
  | int (i : ℤ)
  | bytes (buf : Bytes) (error : Bool)
  | array (items : List RedisValue)

namespace RedisValue

mutual

/-- Equality of replies is decided structurally. -/
def decEq : (v w : RedisValue) → Decidable (v = w)
  | null, null => isTrue rfl
  | int i, int j => decidable_of_iff (i = j) (by simp)
  | bytes b e, bytes b' e' => decidable_of_iff (b = b' ∧ e = e') (by simp)
  | array a, array b =>
    match decEqList a b with
    | isTrue h => isTrue (by rw [h])
    | isFalse h => isFalse fun h' => h (by injection h')
  | null, int _ | null, bytes _ _ | null, array _ | int _, null | int _, bytes _ _
  | int _, array _ | bytes _ _, null | bytes _ _, int _ | bytes _ _, array _
  | array _, null | array _, int _ | array _, bytes _ _ => isFalse nofun

def decEqList : (a b : List RedisValue) → Decidable (a = b)
  | [], [] => isTrue rfl
  | [], _ :: _ | _ :: _, [] => isFalse nofun
  | v :: a, w :: b =>
    match decEq v w, decEqList a b with
    | isTrue h, isTrue h' => isTrue (by rw [h, h'])
    | isFalse h, _ => isFalse fun h' => h (by injection h')
    | _, isFalse h => isFalse fun h' => h (by injection h')

end

instance : DecidableEq RedisValue := decEq

/-- `boost::get<std::vector<RedisValue>>` on the value: `none` where it throws `bad_get`. -/
def getArray : RedisValue → Option (List RedisValue)
  | array items => some items
  | _ => none

/-- `toArray`: a value of another kind is cast to the empty vector. -/
def toArray : RedisValue → List RedisValue
  | array items => items
  | _ => []

/-- `toByteArray`, and `toString` with the same characters. -/
def toByteArray : RedisValue → Bytes
  | bytes buf _ => buf
  | _ => []

/-- What is left in a value after `std::move`: the vectors are empty, the kind stays. -/
def movedFrom : RedisValue → RedisValue
  | bytes _ error => bytes [] error
  | array _ => array []
  | v => v

end RedisValue

end RedisClient.Value
