import Mathlib.Logic.Relation

/-!
# Steps paid for by a potential

A run whose steps are of three kinds: `Work` takes from a potential, `Rest` leaves it at most as it
is, and `Gain` adds a known amount to it. `Spend` counts the first and adds up the last.

Results:
* **`Spend.bound`**: a run makes at most as many steps of work as its start and its gains pay for.
-/

namespace TradeBridge.Lib

variable {α : Type}

/-- A run from `a` to a last state, with `n` steps of work and gains that add up to `g`. -/
inductive Spend (Work Rest : α → α → Prop) (Gain : α → Nat → α → Prop) (a : α) :
    Nat → Nat → α → Prop
  | refl : Spend Work Rest Gain a 0 0 a
  | work {n g : Nat} {b c : α} (hr : Spend Work Rest Gain a n g b) (h : Work b c) :
      Spend Work Rest Gain a (n + 1) g c
  | rest {n g : Nat} {b c : α} (hr : Spend Work Rest Gain a n g b) (h : Rest b c) :
      Spend Work Rest Gain a n g c
  | gain {n g k : Nat} {b c : α} (hr : Spend Work Rest Gain a n g b) (h : Gain b k c) :
      Spend Work Rest Gain a n (g + k) c

variable {Work Rest : α → α → Prop} {Gain : α → Nat → α → Prop}

/-- What the kinds of steps do to a potential, where `Inv` holds. -/
structure Potential (Work Rest : α → α → Prop) (Gain : α → Nat → α → Prop) (Inv : α → Prop)
    (size : α → Nat) : Prop where
  work : ∀ {a b}, Inv a → Work a b → Inv b ∧ size b < size a
  rest : ∀ {a b}, Inv a → Rest a b → Inv b ∧ size b ≤ size a
  gain : ∀ {a b k}, Inv a → Gain a k b → Inv b ∧ size b ≤ size a + k

variable {Inv : α → Prop} {size : α → Nat}

theorem Spend.inv (h : Potential Work Rest Gain Inv size) {a b : α} {n g : Nat}
    (hr : Spend Work Rest Gain a n g b) (ha : Inv a) : Inv b := by
  induction hr with
  | refl => exact ha
  | work _ hs ih => exact (h.work ih hs).1
  | rest _ hs ih => exact (h.rest ih hs).1
  | gain _ hs ih => exact (h.gain ih hs).1

/-- **A run makes no more steps of work than are paid for.** -/
theorem Spend.bound (h : Potential Work Rest Gain Inv size) {a b : α} {n g : Nat}
    (hr : Spend Work Rest Gain a n g b) (ha : Inv a) : n + size b ≤ size a + g := by
  induction hr with
  | refl => exact Nat.le_of_eq (by omega)
  | work hr hs ih =>
    have := (h.work (hr.inv h ha) hs).2
    omega
  | rest hr hs ih =>
    have := (h.rest (hr.inv h ha) hs).2
    omega
  | gain hr hs ih =>
    have := (h.gain (hr.inv h ha) hs).2
    omega

/-- A run whose steps are each of one of the kinds can be counted. -/
theorem exists_spend {Step : α → α → Prop}
    (h : ∀ {a b}, Step a b → Work a b ∨ Rest a b ∨ ∃ k, Gain a k b) {a b : α}
    (hr : Relation.ReflTransGen Step a b) : ∃ n g, Spend Work Rest Gain a n g b := by
  induction hr with
  | refl => exact ⟨0, 0, Spend.refl⟩
  | tail _ hs ih =>
    obtain ⟨n, g, hspend⟩ := ih
    rcases h hs with hw | hrest | ⟨k, hg⟩
    · exact ⟨n + 1, g, hspend.work hw⟩
    · exact ⟨n, g, hspend.rest hrest⟩
    · exact ⟨n, g + k, hspend.gain hg⟩

end TradeBridge.Lib
