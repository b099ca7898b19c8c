import Mathlib.Order.Lattice

/-!
# A register whose writers have read it before

A write takes a register from the value it finds to the value it leaves, so the writes of a run are
chained. A writer that has read the register after the first `n` writes, and then writes a value not
below what it read, is overtaken when a write in between has left a higher one.

Results:
* `le_finalValue`, `after_le_finalValue`: ascending writes leave no value above the last.
* `ascends_iff`: after ascending writes the next one ascends iff its writer is not overtaken.
-/

namespace TradeBridge.Lib

variable {κ : Type}

/-- One write: the value it finds and the value it leaves. -/
structure Write (κ : Type) where
  before : κ
  after : κ
  deriving DecidableEq

/-- The value of the register after the writes, from the value `v`. -/
def finalValue (v : κ) : List (Write κ) → κ
  | [] => v
  | x :: ws => finalValue x.after ws

/-- Each write finds what the one before it has left, the first one `v`. -/
def Chained (v : κ) : List (Write κ) → Prop
  | [] => True
  | x :: ws => x.before = v ∧ Chained x.after ws

/-- No write leaves a lower value than it finds. -/
def Ascending [LE κ] (ws : List (Write κ)) : Prop := ∀ x ∈ ws, x.before ≤ x.after

instance [LE κ] [DecidableLE κ] (ws : List (Write κ)) : Decidable (Ascending ws) :=
  inferInstanceAs (Decidable (∀ x ∈ ws, x.before ≤ x.after))

theorem finalValue_append (v : κ) (a b : List (Write κ)) :
    finalValue v (a ++ b) = finalValue (finalValue v a) b := by
  induction a generalizing v with
  | nil => rfl
  | cons x a ih => exact ih x.after

theorem chained_append {v : κ} {a b : List (Write κ)} :
    Chained v (a ++ b) ↔ Chained v a ∧ Chained (finalValue v a) b := by
  induction a generalizing v with
  | nil => exact ⟨fun h => ⟨trivial, h⟩, fun h => h.2⟩
  | cons x a ih =>
    rw [List.cons_append, Chained, Chained, ih, and_assoc]
    rfl

/-- The last value is the first one or was left by a write. -/
theorem finalValue_cases (v : κ) (ws : List (Write κ)) :
    (ws = [] ∧ finalValue v ws = v) ∨ ∃ x ∈ ws, finalValue v ws = x.after := by
  induction ws generalizing v with
  | nil => exact Or.inl ⟨rfl, rfl⟩
  | cons x ws ih =>
    refine Or.inr ?_
    rcases ih x.after with ⟨-, hval⟩ | ⟨y, hy, hval⟩
    · exact ⟨x, List.mem_cons_self, hval⟩
    · exact ⟨y, List.mem_cons_of_mem x hy, hval⟩

section

variable [Preorder κ] {v : κ} {ws : List (Write κ)}

theorem ascending_concat {x : Write κ} :
    Ascending (ws ++ [x]) ↔ Ascending ws ∧ x.before ≤ x.after := by
  unfold Ascending
  rw [List.forall_mem_append, List.forall_mem_singleton]

/-- Ascending writes do not end below their start. -/
theorem le_finalValue (hc : Chained v ws) (ha : Ascending ws) : v ≤ finalValue v ws := by
  induction ws generalizing v with
  | nil => exact le_rfl
  | cons x ws ih =>
    obtain ⟨rfl, hc'⟩ := hc
    obtain ⟨hx, ha'⟩ := List.forall_mem_cons.mp ha
    exact hx.trans (ih hc' ha')

/-- No ascending write has left more than the last value. -/
theorem after_le_finalValue (hc : Chained v ws) (ha : Ascending ws) :
    ∀ x ∈ ws, x.after ≤ finalValue v ws := by
  induction ws generalizing v with
  | nil => exact fun x hx => absurd hx List.not_mem_nil
  | cons y ws ih =>
    obtain ⟨-, hc'⟩ := hc
    obtain ⟨-, ha'⟩ := List.forall_mem_cons.mp ha
    intro x hx
    rcases List.mem_cons.mp hx with rfl | hx
    · exact le_finalValue hc' ha'
    · exact ih hc' ha' x hx

end

/-- **After ascending writes the next one ascends iff its writer is not overtaken**, where the writer
has read the register after the first `n` writes and writes no less than it read. -/
theorem ascends_iff [Preorder κ] {v value : κ} {ws : List (Write κ)} {n : Nat}
    (hc : Chained v ws) (ha : Ascending ws) (hread : finalValue v (ws.take n) ≤ value) :
    finalValue v ws ≤ value ↔ ∀ x ∈ ws.drop n, x.after ≤ value := by
  constructor
  · intro hle x hx
    exact (after_le_finalValue hc ha x (List.mem_of_mem_drop hx)).trans hle
  · intro hnone
    have hsplit : finalValue v ws = finalValue (finalValue v (ws.take n)) (ws.drop n) := by
      rw [← finalValue_append, List.take_append_drop]
    rcases finalValue_cases (finalValue v (ws.take n)) (ws.drop n) with ⟨-, hval⟩ | ⟨x, hx, hval⟩
    · rw [hsplit, hval]
      exact hread
    · -- the last write since the reading is not above the value
      rw [hsplit, hval]
      exact hnone x hx

end TradeBridge.Lib
