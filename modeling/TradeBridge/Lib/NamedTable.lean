import Mathlib.Data.List.Nodup

/-!
# Tables of named entries

A table is a list of entries with distinct names. `named key k l` is the entry with the name `k`,
and `putNamed key a l` puts `a` in the place of the entry of its name, or behind all of them.

Results:
* `named_eq_some_iff`: in a table an entry is found under its name.
* `nodup_putNamed`: a table stays one.
* `mem_putNamed_iff`: the entries afterwards are the new one and those of other names.
-/

namespace TradeBridge.Lib

variable {α κ : Type} [DecidableEq κ] {key : α → κ} {l : List α} {a b : α} {k : κ}

/-- The entry with the name. -/
def named (key : α → κ) (k : κ) (l : List α) : Option α := l.find? fun a => decide (key a = k)

/-- The table with `a` under its name. -/
def putNamed (key : α → κ) (a : α) : List α → List α
  | [] => [a]
  | b :: l => if key b = key a then a :: l else b :: putNamed key a l

theorem named_eq_none_iff : named key k l = none ↔ ∀ a ∈ l, key a ≠ k := by
  unfold named
  rw [List.find?_eq_none]
  simp

theorem mem_of_named (h : named key k l = some a) : a ∈ l ∧ key a = k :=
  ⟨List.mem_of_find?_eq_some h, by simpa using List.find?_some h⟩

/-- **In a table an entry is found under its name.** -/
theorem named_eq_some_iff (hn : (l.map key).Nodup) :
    named key k l = some a ↔ a ∈ l ∧ key a = k := by
  refine ⟨mem_of_named, ?_⟩
  rintro ⟨ha, rfl⟩
  cases h : named key (key a) l with
  | none => exact absurd rfl (named_eq_none_iff.mp h a ha)
  | some b =>
    obtain ⟨hb, hkey⟩ := mem_of_named h
    rw [List.inj_on_of_nodup_map hn hb ha hkey]

/-- The names afterwards are those before and that of the new entry. -/
theorem mem_map_putNamed : k ∈ (putNamed key a l).map key ↔ k = key a ∨ k ∈ l.map key := by
  induction l with
  | nil => simp [putNamed]
  | cons b l ih =>
    unfold putNamed
    by_cases hb : key b = key a
    · simp [hb]
    · simp only [if_neg hb, List.map_cons, List.mem_cons, ih]
      exact or_left_comm

/-- **A table stays a table.** -/
theorem nodup_putNamed (hn : (l.map key).Nodup) : ((putNamed key a l).map key).Nodup := by
  induction l with
  | nil => simp [putNamed]
  | cons b l ih =>
    obtain ⟨hb, hl⟩ := List.nodup_cons.mp hn
    unfold putNamed
    by_cases hkey : key b = key a
    · rw [if_pos hkey, List.map_cons, ← hkey]
      exact hn
    · rw [if_neg hkey, List.map_cons]
      refine List.nodup_cons.mpr ⟨fun hmem => ?_, ih hl⟩
      exact (mem_map_putNamed.mp hmem).elim hkey hb

/-- **The entries afterwards** are the new one and those of other names. -/
theorem mem_putNamed_iff (hn : (l.map key).Nodup) :
    b ∈ putNamed key a l ↔ b = a ∨ (b ∈ l ∧ key b ≠ key a) := by
  induction l with
  | nil => simp [putNamed]
  | cons c l ih =>
    obtain ⟨hc, hl⟩ := List.nodup_cons.mp hn
    unfold putNamed
    by_cases hkey : key c = key a
    · rw [if_pos hkey, List.mem_cons, List.mem_cons]
      refine or_congr_right ⟨fun hb => ⟨Or.inr hb, fun hba => hc ?_⟩, ?_⟩
      · rw [hkey, ← hba]
        exact List.mem_map_of_mem hb
      · rintro ⟨rfl | hb, hne⟩
        · exact absurd hkey hne
        · exact hb
    · rw [if_neg hkey, List.mem_cons, List.mem_cons, ih hl]
      constructor
      · rintro (rfl | rfl | ⟨hb, hne⟩)
        · exact Or.inr ⟨Or.inl rfl, hkey⟩
        · exact Or.inl rfl
        · exact Or.inr ⟨Or.inr hb, hne⟩
      · rintro (rfl | ⟨rfl | hb, hne⟩)
        · exact Or.inr (Or.inl rfl)
        · exact Or.inl rfl
        · exact Or.inr (Or.inr ⟨hb, hne⟩)

end TradeBridge.Lib
