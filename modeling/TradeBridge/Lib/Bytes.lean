import Mathlib.Data.List.Basic
import Mathlib.Data.List.TakeWhile
import Mathlib.Tactic.Ring

/-!
# Byte strings: C strings, decimal text, UTF-8 and little-endian integers

A `std::string` is a list of bytes. A NUL-terminated array of `cap` chars is a `CStr cap`, whose
fields say that the terminator fits and that no earlier byte is one. `cString` is what reading a
buffer through a `const char *` sees of it.

Results:
* `cString_eq_self_iff`: a buffer is seen whole iff it holds no NUL.
* `utf8Valid_of_ascii`: ASCII text is valid UTF-8.
* `utf8Valid_append`: behind valid bytes, the rest decides.
* `leNat_leBytes`, `intOfLe_leOfInt`: an integer stored in `w` little-endian bytes reads back as
  itself when it fits `w` bytes in two's complement.
* `intOfLe_of_prefix`: a first part of its bytes reads as no more than it, and as no less than zero.
-/

namespace TradeBridge.Lib

/-- A `std::string`, or any run of bytes. -/
abbrev Bytes := List UInt8

/-- The bytes of an ASCII literal. -/
def bytes (s : String) : Bytes := s.toList.map fun c => c.toNat.toUInt8

/-- The decimal digits of a natural number. -/
def digits (n : Nat) : Bytes := (Nat.toDigits 10 n).map fun c => c.toNat.toUInt8

/-- `fmt::format("{}", i)` of an integer. -/
def decimal : Int → Bytes
  | .ofNat n => digits n
  | .negSucc n => bytes "-" ++ digits (n + 1)

/-! ## C strings -/

/-- A NUL-terminated `char[cap]`, read up to its terminator. -/
structure CStr (cap : Nat) where
  text : Bytes
  fits : text.length < cap
  noNul : (0 : UInt8) ∉ text
  deriving DecidableEq

theorem CStr.ext_text {cap : Nat} {a b : CStr cap} (h : a.text = b.text) : a = b := by
  cases a; cases b; cases h; rfl

/-- A buffer read through a `const char *`: the bytes before the first NUL. -/
def cString (buf : Bytes) : Bytes := buf.takeWhile fun b => b != 0

theorem cString_eq_self_iff {buf : Bytes} : cString buf = buf ↔ (0 : UInt8) ∉ buf := by
  unfold cString
  rw [List.takeWhile_eq_self_iff]
  constructor
  · intro h h0
    simpa using h 0 h0
  · intro h b hb
    have : b ≠ 0 := fun e => h (e ▸ hb)
    simpa using this

/-! ## UTF-8 -/

/-- The bytes are well-formed UTF-8. -/
def utf8Valid (s : Bytes) : Bool := (ByteArray.mk s.toArray).validateUTF8

/-- A character in front changes nothing. -/
theorem utf8Valid_encodeChar_append (c : Char) (s : Bytes) :
    utf8Valid (String.utf8EncodeChar c ++ s) = utf8Valid s := by
  have happ : ByteArray.mk (String.utf8EncodeChar c ++ s).toArray
      = [c].utf8Encode ++ ByteArray.mk s.toArray := by
    apply ByteArray.ext
    simp [List.utf8Encode]
  unfold utf8Valid
  rw [Bool.eq_iff_iff, ByteArray.validateUTF8_eq_true_iff, ByteArray.validateUTF8_eq_true_iff,
    happ, ByteArray.isValidUTF8_utf8Encode_singleton_append_iff]

/-- An ASCII byte in front changes nothing. -/
theorem utf8Valid_cons_ascii {b : UInt8} (hb : b < 128) (s : Bytes) :
    utf8Valid (b :: s) = utf8Valid s := by
  have hval : (Char.ofUInt8 b).val = b.toUInt32 := rfl
  have hc : (Char.ofUInt8 b).utf8Size = 1 := by
    have hlt : (Char.ofUInt8 b).val ≤ 127 := by
      rw [hval, UInt32.le_iff_toNat_le, UInt8.toNat_toUInt32]
      have : b.toNat < 128 := UInt8.lt_iff_toNat_lt.mp hb
      exact Nat.le_of_lt_succ this
    simp [Char.utf8Size, hlt]
  have henc : String.utf8EncodeChar (Char.ofUInt8 b) = [b] := by
    rw [String.utf8EncodeChar_eq_singleton hc, hval, UInt8.toUInt8_toUInt32]
  rw [← utf8Valid_encodeChar_append (Char.ofUInt8 b) s, henc]
  rfl

/-- Valid bytes are the encodings of characters. -/
theorem utf8Valid_iff {s : Bytes} :
    utf8Valid s = true ↔ ∃ l : List Char, s = l.flatMap String.utf8EncodeChar := by
  have hbytes : ∀ l : List Char, ByteArray.mk s.toArray = l.utf8Encode ↔
      s = l.flatMap String.utf8EncodeChar := by
    intro l
    rw [ByteArray.ext_iff]
    simp [List.utf8Encode, ← Array.toList_inj]
  unfold utf8Valid
  rw [ByteArray.validateUTF8_eq_true_iff]
  constructor
  · rintro ⟨l, hl⟩
    exact ⟨l, (hbytes l).mp hl⟩
  · rintro ⟨l, hl⟩
    exact ⟨l, (hbytes l).mpr hl⟩

/-- Valid bytes in front change nothing. -/
theorem utf8Valid_append {a : Bytes} (ha : utf8Valid a = true) (b : Bytes) :
    utf8Valid (a ++ b) = utf8Valid b := by
  obtain ⟨l, rfl⟩ := utf8Valid_iff.mp ha
  clear ha
  induction l with
  | nil => rfl
  | cons c l ih => rw [List.flatMap_cons, List.append_assoc, utf8Valid_encodeChar_append, ih]

theorem utf8Valid_of_ascii : ∀ {s : Bytes}, (∀ b ∈ s, b < 128) → utf8Valid s = true
  | [], _ => by decide
  | b :: s, h => by
    rw [utf8Valid_cons_ascii (h b List.mem_cons_self)]
    exact utf8Valid_of_ascii fun c hc => h c (List.mem_cons_of_mem _ hc)

/-! ## Little-endian integers -/

/-- The `w` low bytes of `n`, lowest first. -/
def leBytes : Nat → Nat → Bytes
  | 0, _ => []
  | w + 1, n => (n % 256).toUInt8 :: leBytes w (n / 256)

/-- The number the bytes denote, lowest first. -/
def leNat : Bytes → Nat
  | [] => 0
  | b :: bs => b.toNat + 256 * leNat bs

/-- A signed integer stored in `w` bytes, two's complement. -/
def leOfInt (w : Nat) (i : Int) : Bytes := leBytes w (i % ((256 ^ w : Nat) : Int)).toNat

/-- The signed `w`-byte integer whose low bytes are `bs` and whose missing high bytes are zero. -/
def intOfLe (w : Nat) (bs : Bytes) : Int := (leNat (bs.take w) : Int).bmod (256 ^ w)

theorem leBytes_length : ∀ (w n : Nat), (leBytes w n).length = w
  | 0, _ => rfl
  | w + 1, n => by rw [leBytes, List.length_cons, leBytes_length w]

theorem leNat_leBytes : ∀ (w n : Nat), leNat (leBytes w n) = n % 256 ^ w
  | 0, n => by simp [leBytes, leNat, Nat.mod_one]
  | w + 1, n => by
    have hb : ((n % 256).toUInt8).toNat = n % 256 := by
      rw [Nat.toUInt8, UInt8.toNat_ofNat']
      omega
    rw [leBytes, leNat, leNat_leBytes w, hb, Nat.pow_succ', Nat.mod_mul]

theorem leNat_append : ∀ a b : Bytes, leNat (a ++ b) = leNat a + 256 ^ a.length * leNat b
  | [], b => by simp [leNat]
  | x :: a, b => by
    rw [List.cons_append, leNat, leNat, leNat_append a b, List.length_cons, Nat.pow_succ']
    ring

/-- A first part of the bytes denotes no more than all of them. -/
theorem leNat_le_of_prefix {a b : Bytes} (h : a <+: b) : leNat a ≤ leNat b := by
  obtain ⟨rest, rfl⟩ := h
  rw [leNat_append]
  exact Nat.le_add_right _ _

/-- **The stored integer reads back**, when it fits `w` bytes. -/
theorem intOfLe_leOfInt {w : Nat} {i : Int} (hlo : -((256 ^ w : Nat) : Int) ≤ 2 * i)
    (hhi : 2 * i < ((256 ^ w : Nat) : Int)) : intOfLe w (leOfInt w i) = i := by
  unfold intOfLe leOfInt
  have hpos : 0 < 256 ^ w := Nat.pow_pos (by omega)
  have hnn : 0 ≤ i % ((256 ^ w : Nat) : Int) := Int.emod_nonneg _ (by omega)
  have hlt : i % ((256 ^ w : Nat) : Int) < ((256 ^ w : Nat) : Int) :=
    Int.emod_lt_of_pos _ (by omega)
  rw [List.take_of_length_le (by rw [leBytes_length]), leNat_leBytes,
    Nat.mod_eq_of_lt (by omega), Int.toNat_of_nonneg hnn, Int.emod_bmod]
  exact Int.bmod_eq_of_le_mul_two (by omega) (by omega)

/-- **A cut integer is not above the stored one**, nor below zero when that is not. -/
theorem intOfLe_of_prefix {w : Nat} {i : Int} {bs : Bytes} (h0 : 0 ≤ i)
    (hhi : 2 * i < ((256 ^ w : Nat) : Int)) (h : bs <+: leOfInt w i) :
    0 ≤ intOfLe w bs ∧ intOfLe w bs ≤ i := by
  have hlen : bs.length ≤ w := h.length_le.trans_eq (leBytes_length w _)
  have hmod : i % ((256 ^ w : Nat) : Int) = i := Int.emod_eq_of_lt h0 (by omega)
  have hwhole : leNat (leOfInt w i) = i.toNat := by
    rw [leOfInt, hmod, leNat_leBytes, Nat.mod_eq_of_lt (by omega)]
  have hle : leNat bs ≤ i.toNat := hwhole ▸ leNat_le_of_prefix h
  have hread : intOfLe w bs = leNat bs := by
    rw [intOfLe, List.take_of_length_le hlen]
    exact Int.bmod_eq_of_le_mul_two (by omega) (by omega)
  rw [hread]
  exact ⟨Int.natCast_nonneg _, by omega⟩

end TradeBridge.Lib
