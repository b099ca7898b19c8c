import Mathlib.Data.Int.Log
import Mathlib.Data.Rat.Floor
import TradeBridge.Lib.Json

/-!
# Structs in Go's `encoding/json`

What the documentation of the package says of `Marshal` and `Unmarshal` of a struct whose fields
have names in their tags.

* `Marshal` writes the fields in order. A string is coerced to valid UTF-8, an invalid byte becoming
  U+FFFD; an `int` and a `float64` are numbers.
* `Unmarshal` goes through the members of the text in order. A member sets the field whose name is
  its key or, when there is none, one whose name is its key up to case; any other member is ignored.
  A `null` sets nothing. A value of another kind is an error, which is returned after the rest has
  been decoded; so is a number that the field has no room for, such as `1e400` in a `float64`. A
  field without a member keeps its value.

The text is represented by its `Json` value, with the members in the order of the text; parsing it
is a parameter. A number there is the exact value of its text, and a `numberFloat` where that has a
fraction or an exponent.

Results:
* `coerceUtf8_of_valid`: valid text is written as it is.
* `decodeMembers_ok`: without an error every member with a field is of the kind of that field.
* `decodeMembers_keeps`: what the fields that are set leave alone stays.
-/

namespace TradeBridge.Lib.Go

/-! ## Writing -/

/-- Each byte that begins no character becomes U+FFFD; `fuel` bytes are looked at. -/
def replaceInvalid : Nat → Bytes → Bytes
  | 0, _ => []
  | _ + 1, [] => []
  | fuel + 1, b :: s =>
    match [1, 2, 3, 4].find? fun n => utf8Valid ((b :: s).take n) with
    | some n => (b :: s).take n ++ replaceInvalid fuel ((b :: s).drop n)
    | none => [0xEF, 0xBF, 0xBD] ++ replaceInvalid fuel s

/-- A string coerced to valid UTF-8. -/
def coerceUtf8 (s : Bytes) : Bytes := replaceInvalid s.length s

/-- A `string`. -/
def string (s : Bytes) : Json := .string (coerceUtf8 s)

theorem replaceInvalid_of_valid : ∀ (fuel : Nat) {s : Bytes}, utf8Valid s = true →
    s.length ≤ fuel → replaceInvalid fuel s = s
  | 0, s, _, hfuel => (List.eq_nil_of_length_eq_zero (Nat.le_zero.mp hfuel)).symm
  | _ + 1, [], _, _ => rfl
  | fuel + 1, b :: s, hvalid, hfuel => by
    -- the first character has one to four bytes, so some prefix of that length is valid
    obtain ⟨l, hl⟩ := utf8Valid_iff.mp hvalid
    have hfirst : ∃ n ∈ [1, 2, 3, 4], utf8Valid ((b :: s).take n) = true := by
      cases l with
      | nil => cases hl
      | cons c l =>
        have htake : (b :: s).take c.utf8Size = String.utf8EncodeChar c := by
          rw [hl, List.flatMap_cons, ← String.length_utf8EncodeChar, List.take_left]
        refine ⟨c.utf8Size, ?_, ?_⟩
        · have hpos := c.utf8Size_pos
          have hle := c.utf8Size_le_four
          simp only [List.mem_cons, List.not_mem_nil, or_false]
          omega
        · rw [htake, ← List.append_nil (String.utf8EncodeChar c), utf8Valid_encodeChar_append]
          decide
    rw [replaceInvalid]
    cases hfind : [1, 2, 3, 4].find? fun n => utf8Valid ((b :: s).take n) with
    | none =>
      obtain ⟨n, hn, hv⟩ := hfirst
      exact absurd hv (List.find?_eq_none.mp hfind n hn)
    | some n =>
      have hfound := List.find?_some hfind
      have htake : utf8Valid ((b :: s).take n) = true := hfound
      have hdrop : utf8Valid ((b :: s).drop n) = true := by
        rw [← utf8Valid_append htake, List.take_append_drop]
        exact hvalid
      have hpos : 1 ≤ n := by
        have := List.mem_of_find?_eq_some hfind
        simp only [List.mem_cons, List.not_mem_nil, or_false] at this
        omega
      have hlen : ((b :: s).drop n).length ≤ fuel := by
        rw [List.length_drop]
        omega
      simp only
      rw [replaceInvalid_of_valid fuel hdrop hlen, List.take_append_drop]

/-- **Valid text is written as it is.** -/
theorem coerceUtf8_of_valid {s : Bytes} (h : utf8Valid s = true) : coerceUtf8 s = s :=
  replaceInvalid_of_valid _ h (Nat.le_refl _)

/-! ## Reading -/

/-- An `int`: a number without a fraction or an exponent, of 64 bits. -/
def readInt : Json → Option Int
  | .numberUnsigned n => if n < 2 ^ 63 then some n else none
  | .numberInteger i => if -2 ^ 63 ≤ i ∧ i < 2 ^ 63 then some i else none
  | _ => none

/-- The integer nearest to `x`, ties to even. -/
def nearestEven (x : Rat) : Int :=
  let n := x.floor
  if x - n < 1 / 2 ∨ x - n = 1 / 2 ∧ n % 2 = 0 then n else n + 1

/-- The exponent of the last bit of the `float64`s around `q`, which have 53 of them or are
subnormal. -/
def lastBit (q : Rat) : Int := max (Int.log 2 |q| - 52) (-1074)

/-- `strconv.ParseFloat(s, 64)` of a text with the value `q`: the nearest `float64`, ties to even,
and `none` for `ErrRange`. From half a bit above the largest `float64` on, that is the infinity. -/
def parseFloat (q : Rat) : Option Rat :=
  if |q| < 2 ^ 1024 - 2 ^ 970 then some (nearestEven (q / 2 ^ lastBit q) * 2 ^ lastBit q) else none

/-- A `float64`: a number inside its range. -/
def readFloat64 (j : Json) : Option Rat := j.rational?.bind parseFloat

example : readFloat64 (.numberUnsigned (10 ^ 400)) = none := by decide +kernel

example : readFloat64 (.numberFloat (1 / 10)) = some (3602879701896397 / 2 ^ 55) := by
  decide +kernel

/-- A `string`. -/
def readString : Json → Option Bytes
  | .string s => some (coerceUtf8 s)
  | _ => none

/-- A field of a struct: the name in its tag, and what a value does to the struct, `none` for an
`UnmarshalTypeError`. -/
structure Field (σ : Type) where
  name : Bytes
  set : Json → Option (σ → σ)

variable {σ α β : Type}

/-- The field with this name that is read by `read`. -/
def Field.of (name : Bytes) (read : Json → Option α) (put : α → σ → σ) : Field σ where
  name := name
  set
    | .null => some id
    | j => (read j).map put

/-- A name up to case. Among the letters beyond ASCII only U+017F and U+212A fold to an ASCII one,
so against an ASCII name the others may stay. -/
def foldName : Bytes → Bytes
  | 0xC5 :: 0xBF :: s => 83 :: foldName s
  | 0xE2 :: 0x84 :: 0xAA :: s => 75 :: foldName s
  | b :: s => (if 97 ≤ b ∧ b ≤ 122 then b - 32 else b) :: foldName s
  | [] => []

/-- The field a key sets. -/
def fieldOf (fields : List (Field σ)) (key : Bytes) : Option (Field σ) :=
  (fields.find? fun f => f.name == key).or
    (fields.find? fun f => foldName f.name == foldName key)

/-- One member: the struct so far, and whether there was no error so far. -/
def decodeMember (fields : List (Field σ)) (r : σ × Bool) (member : Bytes × Json) : σ × Bool :=
  match fieldOf fields member.1 with
  | none => r
  | some f =>
    match f.set member.2 with
    | some put => (put r.1, r.2)
    | none => (r.1, false)

/-- The members of a text, in order. -/
def decodeMembers (fields : List (Field σ)) (members : List (Bytes × Json)) (r : σ × Bool) :
    σ × Bool :=
  members.foldl (decodeMember fields) r

/-- A value into the struct `s`. -/
def decode (fields : List (Field σ)) (j : Json) (s : σ) : σ × Bool :=
  match j with
  | .null => (s, true)
  | .object members => decodeMembers fields members (s, true)
  | _ => (s, false)

/-- `json.Unmarshal(data, &s)`: the struct afterwards, and whether it returned no error. -/
def unmarshal (parse : Bytes → Option Json) (fields : List (Field σ)) (data : Bytes) (s : σ) :
    σ × Bool :=
  match parse data with
  | none => (s, false)
  | some j => decode fields j s

variable {fields : List (Field σ)}

theorem fieldOf_of_name {key : Bytes} {f : Field σ}
    (h : (fields.find? fun f => f.name == key) = some f) : fieldOf fields key = some f := by
  unfold fieldOf
  rw [h, Option.some_or]

/-- The key of a member that sets a field is its name up to case. -/
theorem foldName_of_fieldOf {key : Bytes} {f : Field σ} (h : fieldOf fields key = some f) :
    f ∈ fields ∧ foldName f.name = foldName key := by
  rcases Option.or_eq_some_iff.mp h with h | ⟨-, h⟩
  · have hname := List.find?_some h
    exact ⟨List.mem_of_find?_eq_some h, congrArg foldName (beq_iff_eq.mp hname)⟩
  · have hname := List.find?_some h
    exact ⟨List.mem_of_find?_eq_some h, beq_iff_eq.mp hname⟩

/-- **Without an error every member with a field is of its kind.** -/
theorem decodeMembers_ok : ∀ (members : List (Bytes × Json)) {r : σ × Bool},
    (decodeMembers fields members r).2 = true → r.2 = true ∧
      ∀ m ∈ members, ∀ f, fieldOf fields m.1 = some f → ∃ put, f.set m.2 = some put
  | [], _, h => ⟨h, fun m hm => absurd hm List.not_mem_nil⟩
  | member :: members, r, h => by
    obtain ⟨hr, hrest⟩ := decodeMembers_ok members h
    have hmember : r.2 = true ∧
        ∀ f, fieldOf fields member.1 = some f → ∃ put, f.set member.2 = some put := by
      unfold decodeMember at hr
      cases hf : fieldOf fields member.1 with
      | none =>
        rw [hf] at hr
        exact ⟨hr, fun f h => absurd h (by simp)⟩
      | some f =>
        cases hset : f.set member.2 with
        | none =>
          rw [hf] at hr
          simp only [hset] at hr
          cases hr
        | some put =>
          rw [hf] at hr
          simp only [hset] at hr
          refine ⟨hr, fun f' hf' => ?_⟩
          obtain rfl := Option.some.inj hf'
          exact ⟨put, hset⟩
    refine ⟨hmember.1, fun m hm => ?_⟩
    rcases List.mem_cons.mp hm with rfl | hm
    · exact hmember.2
    · exact hrest m hm

/-- Setting the field leaves `g` of the struct as it is. -/
def Field.Keeps (f : Field σ) (g : σ → β) : Prop :=
  ∀ j put s, f.set j = some put → g (put s) = g s

theorem Field.keeps_of {name : Bytes} {read : Json → Option α} {put : α → σ → σ} {g : σ → β}
    (h : ∀ a s, g (put a s) = g s) : (Field.of name read put).Keeps g := by
  intro j put' s hset
  cases j with
  | null =>
    obtain rfl := Option.some.inj hset
    rfl
  | _ =>
    obtain ⟨a, -, rfl⟩ := Option.map_eq_some_iff.mp hset
    exact h a s

/-- **What the fields that are set leave alone stays.** -/
theorem decodeMembers_keeps {g : σ → β} : ∀ (members : List (Bytes × Json)) (r : σ × Bool),
    (∀ m ∈ members, ∀ f, fieldOf fields m.1 = some f → f.Keeps g) →
    g (decodeMembers fields members r).1 = g r.1
  | [], _, _ => rfl
  | member :: members, r, h => by
    have hrest := decodeMembers_keeps (g := g) members (decodeMember fields r member)
      fun m hm => h m (List.mem_cons_of_mem _ hm)
    have hmember : g (decodeMember fields r member).1 = g r.1 := by
      unfold decodeMember
      cases hf : fieldOf fields member.1 with
      | none => rfl
      | some f =>
        cases hset : f.set member.2 with
        | none =>
          simp only
          rw [hset]
        | some put =>
          simp only
          rw [hset]
          exact h member List.mem_cons_self f hf member.2 put r.1 hset
    exact hrest.trans hmember

end TradeBridge.Lib.Go
