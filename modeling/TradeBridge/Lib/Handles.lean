import Mathlib.Data.List.Nodup
import Mathlib.Data.List.Count

/-!
# Handles of a foreign interface

An interface hands out handles, is called with them, and takes them back. Of a list of such events
`live` computes the handles that are out at its end, and fails at the first event that uses or
returns a handle that is not out, or hands one out that is. `Out` says which handles are out by a
property of them; its rules follow the calls one by one.

Results:
* `live_append`: the events one after the other.
* `Out.acquire`, `Out.use`, `Out.release`: the rules.
* **`Out.count`**: a handle that is not out has been returned as often as it was handed out.
-/

namespace TradeBridge.Lib.Handles

variable {η : Type} [DecidableEq η]

/-- What a call does with a handle. -/
inductive Event (η : Type)
  | acquire (h : η)
  | use (h : η)
  | release (h : η)
  deriving DecidableEq

/-- The handles that are out after one more event. -/
def Event.after (hs : List η) : Event η → Option (List η)
  | .acquire h => if h ∈ hs then none else some (h :: hs)
  | .use h => if h ∈ hs then some hs else none
  | .release h => if h ∈ hs then some (hs.erase h) else none

/-- The handles that are out after the events; `none` if one of them does not fit. -/
def live : List η → List (Event η) → Option (List η)
  | hs, [] => some hs
  | hs, e :: es => (e.after hs).bind fun hs' => live hs' es

theorem live_append : ∀ (es : List (Event η)) (hs : List η) (es' : List (Event η)),
    live hs (es ++ es') = (live hs es).bind fun hs' => live hs' es'
  | [], _, _ => rfl
  | e :: es, hs, es' => by
    show ((e.after hs).bind fun h => live h (es ++ es')) = _
    have ih : (fun h => live h (es ++ es')) = fun h => (live h es).bind fun h' => live h' es' := by
      funext h
      exact live_append es h es'
    rw [ih, live, Option.bind_assoc]

/-- An event more at the end. -/
theorem live_snoc {es : List (Event η)} {hs hs₁ hs₂ : List η} {e : Event η}
    (h : live hs es = some hs₁) (he : e.after hs₁ = some hs₂) :
    live hs (es ++ [e]) = some hs₂ := by
  rw [live_append, h, Option.bind_some, live, he]
  rfl

theorem Event.after_nodup {hs hs' : List η} {e : Event η} (h : e.after hs = some hs')
    (hn : hs.Nodup) : hs'.Nodup := by
  cases e with
  | acquire a =>
    simp only [Event.after] at h
    split at h
    · cases h
    · rename_i hnot
      obtain rfl := Option.some.inj h
      exact List.nodup_cons.mpr ⟨hnot, hn⟩
  | use a =>
    simp only [Event.after] at h
    split at h
    · obtain rfl := Option.some.inj h
      exact hn
    · cases h
  | release a =>
    simp only [Event.after] at h
    split at h
    · obtain rfl := Option.some.inj h
      exact hn.erase a
    · cases h

theorem live_nodup : ∀ {es : List (Event η)} {hs hs' : List η}, live hs es = some hs' →
    hs.Nodup → hs'.Nodup
  | [], _, _, h, hn => by
    obtain rfl := Option.some.inj h
    exact hn
  | e :: es, _, _, h, hn => by
    obtain ⟨hs₁, he, hrest⟩ := Option.bind_eq_some_iff.mp h
    exact live_nodup hrest (Event.after_nodup he hn)

theorem Event.after_count {hs hs' : List η} {e : Event η} (h : e.after hs = some hs') (a : η) :
    [e].count (.acquire a) + hs.count a = [e].count (.release a) + hs'.count a := by
  cases e with
  | acquire b =>
    simp only [Event.after] at h
    split at h
    · cases h
    · obtain rfl := Option.some.inj h
      by_cases hba : b = a
      · simp [hba]
        omega
      · simp [hba]
  | use b =>
    simp only [Event.after] at h
    split at h
    · obtain rfl := Option.some.inj h
      simp
    · cases h
  | release b =>
    simp only [Event.after] at h
    split at h
    · rename_i hmem
      obtain rfl := Option.some.inj h
      have hpos : 0 < hs.count b := List.count_pos_iff.mpr hmem
      by_cases hba : b = a
      · subst hba
        rw [List.count_erase_self]
        simp
        omega
      · rw [List.count_erase_of_ne (Ne.symm hba)]
        simp [hba]
    · cases h

/-- **A handle is returned as often as it was handed out**, but for the time that it is out. -/
theorem count_of_live : ∀ {es : List (Event η)} {hs hs' : List η}, live hs es = some hs' → ∀ a,
    es.count (.acquire a) + hs.count a = es.count (.release a) + hs'.count a
  | [], _, _, h, a => by
    obtain rfl := Option.some.inj h
    rfl
  | e :: es, hs, hs', h, a => by
    obtain ⟨hs₁, he, hrest⟩ := Option.bind_eq_some_iff.mp h
    have hfirst := Event.after_count he a
    have hlast := count_of_live hrest a
    have hsplit : ∀ x : Event η, (e :: es).count x = [e].count x + es.count x := fun x => by
      rw [← List.count_append]
      rfl
    rw [hsplit, hsplit]
    omega

/-! ## What is out -/

variable {es : List (Event η)} {P Q : η → Prop} {a : η}

/-- The events fit, and exactly the handles with `P` are out at their end. -/
def Out (es : List (Event η)) (P : η → Prop) : Prop :=
  ∃ hs, live [] es = some hs ∧ ∀ h, h ∈ hs ↔ P h

theorem Out.nil : Out ([] : List (Event η)) fun _ => False :=
  ⟨[], rfl, fun _ => ⟨fun h => absurd h List.not_mem_nil, False.elim⟩⟩

theorem Out.congr (h : Out es P) (hPQ : ∀ a, P a ↔ Q a) : Out es Q := by
  obtain ⟨hs, hlive, hmem⟩ := h
  exact ⟨hs, hlive, fun a => (hmem a).trans (hPQ a)⟩

/-- A handle that is not out is handed out. -/
theorem Out.acquire (h : Out es P) (ha : ¬ P a) :
    Out (es ++ [.acquire a]) fun b => b = a ∨ P b := by
  obtain ⟨hs, hlive, hmem⟩ := h
  refine ⟨a :: hs, live_snoc hlive (if_neg fun hin => ha ((hmem a).mp hin)), fun b => ?_⟩
  rw [List.mem_cons, hmem]

/-- A handle that is out is used. -/
theorem Out.use (h : Out es P) (ha : P a) : Out (es ++ [.use a]) P := by
  obtain ⟨hs, hlive, hmem⟩ := h
  exact ⟨hs, live_snoc hlive (if_pos ((hmem a).mpr ha)), hmem⟩

/-- A handle that is out is returned. -/
theorem Out.release (h : Out es P) (ha : P a) :
    Out (es ++ [.release a]) fun b => P b ∧ b ≠ a := by
  obtain ⟨hs, hlive, hmem⟩ := h
  have hnodup : hs.Nodup := live_nodup hlive List.nodup_nil
  refine ⟨hs.erase a, live_snoc hlive (if_pos ((hmem a).mpr ha)), fun b => ?_⟩
  rw [hnodup.mem_erase_iff, hmem, and_comm]

/-- **What is not out has been returned as often as it was handed out.** -/
theorem Out.count (h : Out es P) (ha : ¬ P a) :
    es.count (.acquire a) = es.count (.release a) := by
  obtain ⟨hs, hlive, hmem⟩ := h
  have hcount := count_of_live hlive a
  have hzero : hs.count a = 0 := List.count_eq_zero.mpr fun hin => ha ((hmem a).mp hin)
  rw [hzero] at hcount
  exact hcount

end TradeBridge.Lib.Handles
