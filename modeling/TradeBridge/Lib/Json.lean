import Mathlib.Data.Rat.Defs
import TradeBridge.Lib.Bytes

/-!
# JSON values and the conversions of `nlohmann::json`

The value type of the library and what its documentation says of the conversions used here:
`at`, `get_to` of an `int`, of a `double` and of a `std::string`, the `from_json` / `to_json` of
`NLOHMANN_JSON_SERIALIZE_ENUM`, and the strict error handler of `dump`.

* A number is kept as the library keeps it: unsigned, signed or floating point. `getInt` casts any
  of them, and a boolean, to `int`; an integer wraps modulo `2^32`, a floating-point number loses
  its fraction. Outside the range of `int` the last cast is undefined in C++, and its value is the
  field `floatToInt` of `JsonLib`.
* `parse` is a parameter of the model (`JsonLib.parse`), `none` for a discarded value.
* The text `dump` writes is represented by the value itself; what is kept of `dump` is whether it
  throws (`Json.encodable`).

Results: `getInt_of_intValue` (an integer inside `int32` is read as it is), and which values the
other conversions take: `getInt_isOk_iff`, `getDouble_ok_iff`, `getString_ok`.
-/

namespace TradeBridge.Lib

/-- `nlohmann::json`. -/
inductive Json
  | null
  | boolean (b : Bool)
  | numberUnsigned (n : Nat)
  | numberInteger (i : Int)
  | numberFloat (q : Rat)
  | string (s : Bytes)
  | array (elems : List Json)
  | object (members : List (Bytes × Json))

/-- The exceptions of the library: `type_error` and `out_of_range`. -/
inductive JsonError
  | typeError
  | outOfRange
  deriving DecidableEq

/-- The parts of the library and of the C++ implementation that the model takes as parameters. -/
structure JsonLib where
  /-- `type::parse(sv, nullptr, false)`, `none` for a discarded value. -/
  parse : Bytes → Option Json
  /-- `static_cast<int>` of a floating-point number outside the range of `int`. -/
  floatToInt : Rat → Int32

namespace Json

/-! ## Reading -/

/-- `j.at(key)`. -/
def «at» (j : Json) (key : Bytes) : Except JsonError Json :=
  match j with
  | object members =>
    match members.lookup key with
    | some v => .ok v
    | none => .error .outOfRange
  | _ => .error .typeError

/-- `i` is a value of `int`. -/
def InInt32 (i : Int) : Prop := -2 ^ 31 ≤ i ∧ i < 2 ^ 31

instance (i : Int) : Decidable (InInt32 i) := inferInstanceAs (Decidable (_ ∧ _))

/-- `static_cast<int>` of a floating-point number. -/
def castFloat (lib : JsonLib) (q : Rat) : Int32 :=
  if InInt32 (q.num.tdiv q.den) then Int32.ofInt (q.num.tdiv q.den) else lib.floatToInt q

/-- The `double` nearest to an integer, ties to even. -/
def doubleOfInt (i : Int) : Rat :=
  let e := i.natAbs.log2 - 52
  let q := i.natAbs / 2 ^ e
  let r := i.natAbs % 2 ^ e
  let m := if 2 ^ e < 2 * r ∨ (2 * r = 2 ^ e ∧ q % 2 = 1) then q + 1 else q
  (i.sign * (m * 2 ^ e : Nat) : Int)

/-- `get_to` of an `int`: any number, or a boolean, by `static_cast`. -/
def getInt (lib : JsonLib) : Json → Except JsonError Int32
  | numberUnsigned n => .ok (Int32.ofInt n)
  | numberInteger i => .ok (Int32.ofInt i)
  | numberFloat q => .ok (castFloat lib q)
  | boolean b => .ok (if b then 1 else 0)
  | _ => .error .typeError

/-- The `double` a number converts to. -/
def doubleValue? : Json → Option Rat
  | numberUnsigned n => some (doubleOfInt n)
  | numberInteger i => some (doubleOfInt i)
  | numberFloat q => some q
  | _ => none

/-- `get_to` of a `double`: numbers only. -/
def getDouble (j : Json) : Except JsonError Rat :=
  match j.doubleValue? with
  | some q => .ok q
  | none => .error .typeError

/-- `get_to` of a `std::string`. -/
def getString : Json → Except JsonError Bytes
  | string s => .ok s
  | _ => .error .typeError

/-- `j == s` for a string `s`. -/
def isString (j : Json) (s : Bytes) : Bool :=
  match j with
  | string t => t == s
  | _ => false

theorem isString_iff {j : Json} {s : Bytes} : j.isString s = true ↔ j = string s := by
  cases j <;> simp [isString]

/-- The `from_json` of `NLOHMANN_JSON_SERIALIZE_ENUM`: the first pair whose JSON equals `j`, and
the first pair of all when there is none. -/
def getEnum {ε : Type} (first : ε × Bytes) (rest : List (ε × Bytes)) (j : Json) : ε :=
  (((first :: rest).find? fun p => j.isString p.2).getD first).1

/-- Its `to_json`: the first pair of that enumerator, and the first pair of all when there is
none. -/
def ofEnum {ε : Type} [DecidableEq ε] (first : ε × Bytes) (rest : List (ε × Bytes)) (e : ε) :
    Json :=
  string (((first :: rest).find? fun p => p.1 == e).getD first).2

/-- The value of a number that is an integer. -/
def intValue? : Json → Option Int
  | numberUnsigned n => some n
  | numberInteger i => some i
  | numberFloat q => if q.den = 1 then some q.num else none
  | _ => none

/-- The value of a number, whatever form it is kept in. -/
def rational? : Json → Option Rat
  | numberUnsigned n => some n
  | numberInteger i => some i
  | numberFloat q => some q
  | _ => none

/-- `j` is a number or a boolean, which `getInt` converts. -/
def castable : Json → Bool
  | numberUnsigned _ | numberInteger _ | numberFloat _ | boolean _ => true
  | _ => false

theorem getInt_isOk_iff (lib : JsonLib) {j : Json} :
    (∃ i, j.getInt lib = .ok i) ↔ j.castable = true := by
  cases j <;> simp [getInt, castable]

theorem getDouble_ok_iff {j : Json} {q : Rat} : j.getDouble = .ok q ↔ j.doubleValue? = some q := by
  unfold getDouble
  cases j.doubleValue? <;> simp

theorem getString_ok {j : Json} {s : Bytes} : j.getString = .ok s ↔ j = string s := by
  cases j <;> simp [getString]

/-- **An integer inside `int32` is read as it is**, in whichever of the three forms it is kept. -/
theorem getInt_of_intValue (lib : JsonLib) {j : Json} {i : Int} (h : j.intValue? = some i)
    (hi : InInt32 i) : j.getInt lib = .ok (Int32.ofInt i) := by
  cases j with
  | numberUnsigned n =>
    obtain rfl := Option.some.inj h
    rfl
  | numberInteger k =>
    obtain rfl := Option.some.inj h
    rfl
  | numberFloat q =>
    simp only [intValue?] at h
    split at h
    · rename_i hden
      obtain rfl := Option.some.inj h
      have ht : q.num.tdiv q.den = q.num := by rw [hden]; simp
      simp only [getInt, castFloat, ht, if_pos hi]
    · exact absurd h (by simp)
  | _ => exact absurd h (by simp [intValue?])

theorem toInt_ofInt_of_inInt32 {i : Int} (hi : InInt32 i) : (Int32.ofInt i).toInt = i :=
  Int32.toInt_ofInt_of_le hi.1 hi.2

/-! ## Writing -/

/-- `dump` with the strict handler does not throw: every string and every key is valid UTF-8. -/
def encodable : Json → Bool
  | string s => utf8Valid s
  | array elems => encodableElems elems
  | object members => encodableMembers members
  | _ => true
where
  encodableElems : List Json → Bool
    | [] => true
    | j :: js => j.encodable && encodableElems js
  encodableMembers : List (Bytes × Json) → Bool
    | [] => true
    | (k, j) :: ms => utf8Valid k && j.encodable && encodableMembers ms

end Json

end TradeBridge.Lib
