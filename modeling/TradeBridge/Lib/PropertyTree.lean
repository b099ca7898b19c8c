import Mathlib.Data.List.Basic

/-!
# Property trees

A property tree holds data at its root and in the nodes below it, which are reached by a path of
keys. `Store` is what a program sees of one: the data at a path, and a `put` that sets it and creates
the nodes on the way that are missing (`Store.Lawful`). `Tree` is such a store, whose nodes keep
their children in order; of the children with one key the first is found.

Results:
* `lookup_putAll_of_mem`: after a number of writes at different paths, each path has its data.
* `lookup_putAll_of_notMem`, `putAll_creates`: the other data stays, and what is created is a node on
  the way.
* `Tree.lawful`: the trees are a lawful store.
-/

namespace TradeBridge.Lib

/-- What can be done with a property tree. -/
structure Store (τ κ δ : Type) where
  lookup : τ → List κ → Option δ
  put : τ → List κ → δ → τ

variable {τ κ δ : Type} [Inhabited δ]

/-- `put` is the update of a map from paths to data, and what it creates on the way has no data. -/
structure Store.Lawful (S : Store τ κ δ) : Prop where
  root : ∀ t, ∃ d, S.lookup t [] = some d
  put_self : ∀ t p d, S.lookup (S.put t p d) p = some d
  put_keeps : ∀ t p d q e, q ≠ p → S.lookup t q = some e → S.lookup (S.put t p d) q = some e
  put_creates : ∀ t p d q e, q ≠ p → S.lookup t q = none → S.lookup (S.put t p d) q = some e →
    q <+: p ∧ e = default

/-! ## A number of writes -/

namespace Store

variable {S : Store τ κ δ}

/-- The writes, in order. -/
def putAll (S : Store τ κ δ) : τ → List (List κ × δ) → τ
  | t, [] => t
  | t, (p, d) :: entries => S.putAll (S.put t p d) entries

variable {entries : List (List κ × δ)} {t : τ}

/-- **Data at other paths stays.** -/
theorem lookup_putAll_of_notMem (h : S.Lawful) {q : List κ} {e : δ}
    (hne : q ∉ entries.map Prod.fst) (hq : S.lookup t q = some e) :
    S.lookup (S.putAll t entries) q = some e := by
  induction entries generalizing t with
  | nil => exact hq
  | cons entry entries ih =>
    obtain ⟨hhead, htail⟩ := List.ne_and_not_mem_of_not_mem_cons hne
    exact ih htail (h.put_keeps t entry.1 entry.2 q e hhead hq)

/-- **After writes at different paths each has its data.** -/
theorem lookup_putAll_of_mem (h : S.Lawful) {p : List κ} {d : δ}
    (hnodup : (entries.map Prod.fst).Nodup) (hmem : (p, d) ∈ entries) :
    S.lookup (S.putAll t entries) p = some d := by
  induction entries generalizing t with
  | nil => cases hmem
  | cons entry entries ih =>
    obtain ⟨hfresh, hnodup⟩ := List.nodup_cons.mp hnodup
    rcases List.mem_cons.mp hmem with rfl | hmem
    · rw [putAll]
      exact lookup_putAll_of_notMem h hfresh (h.put_self t p d)
    · exact ih hnodup hmem

/-- **What is created elsewhere** is on the way to one of the paths. -/
theorem putAll_creates (h : S.Lawful) {q : List κ} {e : δ} (hne : q ∉ entries.map Prod.fst)
    (hnone : S.lookup t q = none) (hsome : S.lookup (S.putAll t entries) q = some e) :
    (∃ p ∈ entries.map Prod.fst, q <+: p) ∧ e = default := by
  induction entries generalizing t with
  | nil =>
    rw [putAll, hnone] at hsome
    cases hsome
  | cons entry entries ih =>
    obtain ⟨p, d⟩ := entry
    obtain ⟨hhead, htail⟩ := List.ne_and_not_mem_of_not_mem_cons hne
    cases hput : S.lookup (S.put t p d) q with
    | none =>
      obtain ⟨⟨p', hp', hpre⟩, he⟩ := ih htail hput hsome
      exact ⟨⟨p', List.mem_cons_of_mem _ hp', hpre⟩, he⟩
    | some e' =>
      obtain ⟨hpre, rfl⟩ := h.put_creates t p d q e' hhead hnone hput
      obtain rfl := Option.some.inj ((lookup_putAll_of_notMem h htail hput).symm.trans hsome)
      exact ⟨⟨p, List.mem_cons_self, hpre⟩, rfl⟩

end Store

/-! ## Trees -/

/-- A node: its data and its children, with their keys. -/
inductive Tree (κ δ : Type) where
  | node (data : δ) (children : List (κ × Tree κ δ))

/-- Replaces the first value with this key, or appends it. -/
def upsert {α : Type} [DecidableEq κ] (k : κ) (a : α) : List (κ × α) → List (κ × α)
  | [] => [(k, a)]
  | (k', a') :: l => if k = k' then (k, a) :: l else (k', a') :: upsert k a l

theorem lookup_upsert {α : Type} [DecidableEq κ] (k q : κ) (a : α) (l : List (κ × α)) :
    (upsert k a l).lookup q = if q = k then some a else l.lookup q := by
  induction l with
  | nil =>
    by_cases h : q = k
    · simp [upsert, h]
    · simp [upsert, List.lookup_cons, h, beq_false_of_ne h]
  | cons x l ih =>
    obtain ⟨k', a'⟩ := x
    by_cases hk : k = k'
    · -- the first value with this key is replaced
      subst hk
      by_cases h : q = k
      · simp [upsert, h]
      · simp [upsert, List.lookup_cons, h, beq_false_of_ne h]
    · rw [upsert, if_neg hk, List.lookup_cons, List.lookup_cons, ih]
      by_cases h : q = k
      · simp [h, beq_false_of_ne hk]
      · simp [h]

namespace Tree

/-- A node without data. -/
def empty : Tree κ δ := node default []

variable [DecidableEq κ]

/-- The data at a path. -/
def lookup : Tree κ δ → List κ → Option δ
  | node d _, [] => some d
  | node _ children, k :: p =>
    match children.lookup k with
    | none => none
    | some child => child.lookup p

/-- Sets the data at a path, and creates its nodes where they are missing. -/
def put : Tree κ δ → List κ → δ → Tree κ δ
  | node _ children, [], d => node d children
  | node e children, k :: p, d =>
    node e (upsert k (((children.lookup k).getD empty).put p d) children)

omit [Inhabited δ] in
theorem lookup_nil (t : Tree κ δ) : ∃ d, t.lookup [] = some d := by
  obtain ⟨d, children⟩ := t
  exact ⟨d, rfl⟩

/-- The subtree that `put` goes into has the data of the child, or none. -/
theorem lookup_child (e : δ) (children : List (κ × Tree κ δ)) (k : κ) (q : List κ) :
    (node e children).lookup (k :: q) = ((children.lookup k).getD empty).lookup q ∨
      (node e children).lookup (k :: q) = none ∧ (children.lookup k).getD empty = empty := by
  rw [lookup]
  cases children.lookup k with
  | none => exact Or.inr ⟨rfl, rfl⟩
  | some child => exact Or.inl rfl

theorem lookup_put_cons (e d : δ) (children : List (κ × Tree κ δ)) (k k' : κ) (p q : List κ) :
    ((node e children).put (k :: p) d).lookup (k' :: q) =
      if k' = k then (((children.lookup k).getD empty).put p d).lookup q
      else (node e children).lookup (k' :: q) := by
  rw [put, lookup, lookup_upsert]
  by_cases h : k' = k
  · rw [if_pos h, if_pos h]
  · rw [if_neg h, if_neg h, lookup]

theorem lookup_put_self : ∀ (p : List κ) (t : Tree κ δ) (d : δ), (t.put p d).lookup p = some d
  | [], node _ _, _ => rfl
  | k :: p, node e children, d => by
    rw [lookup_put_cons, if_pos rfl]
    exact lookup_put_self p _ d

theorem lookup_put_keeps : ∀ (p : List κ) (t : Tree κ δ) (d : δ) (q : List κ) (e : δ), q ≠ p →
    t.lookup q = some e → (t.put p d).lookup q = some e
  | [], node _ _, _, [], _, hne, _ => absurd rfl hne
  | [], node _ _, _, _ :: _, _, _, hq => hq
  | _ :: _, node _ _, _, [], _, _, hq => hq
  | k :: p, node c children, d, k' :: q, e, hne, hq => by
    rw [lookup_put_cons]
    by_cases h : k' = k
    · subst h
      rw [if_pos rfl]
      refine lookup_put_keeps p _ d q e (fun heq => hne (heq ▸ rfl)) ?_
      rcases lookup_child c children k' q with hchild | ⟨hnone, -⟩
      · exact hchild.symm.trans hq
      · cases hnone.symm.trans hq
    · rw [if_neg h]
      exact hq

/-- A node without data has nothing but its root. -/
theorem lookup_empty {q : List κ} {e : δ} (h : (empty : Tree κ δ).lookup q = some e) :
    q = [] ∧ e = default := by
  cases q with
  | nil => exact ⟨rfl, (Option.some.inj h).symm⟩
  | cons k q => cases h

theorem put_creates : ∀ (p : List κ) (t : Tree κ δ) (d : δ) (q : List κ) (e : δ), q ≠ p →
    t.lookup q = none → (t.put p d).lookup q = some e → q <+: p ∧ e = default
  | _, node _ _, _, [], _, _, hnone, _ => by cases hnone
  | [], node _ _, _, _ :: _, _, _, hnone, hsome => by
    cases hnone.symm.trans hsome
  | k :: p, node c children, d, k' :: q, e, hne, hnone, hsome => by
    rw [lookup_put_cons] at hsome
    by_cases h : k' = k
    · subst h
      rw [if_pos rfl] at hsome
      have hneq : q ≠ p := fun heq => hne (heq ▸ rfl)
      have hcreated : q <+: p ∧ e = default := by
        cases hchild : ((children.lookup k').getD empty).lookup q with
        | none => exact put_creates p _ d q e hneq hchild hsome
        | some e' =>
          -- the child is a new one, and what it had is its root
          rcases lookup_child c children k' q with hsame | ⟨-, hempty⟩
          · cases (hsame.symm.trans hnone).symm.trans hchild
          · obtain ⟨rfl, rfl⟩ := lookup_empty (hempty ▸ hchild)
            have hkeeps := lookup_put_keeps p _ d [] _ hneq hchild
            exact ⟨List.nil_prefix, Option.some.inj (hsome.symm.trans hkeeps)⟩
      exact ⟨(List.prefix_cons_inj k').mpr hcreated.1, hcreated.2⟩
    · rw [if_neg h, hnone] at hsome
      cases hsome

/-- The store of the trees. -/
def store (κ δ : Type) [DecidableEq κ] [Inhabited δ] : Store (Tree κ δ) κ δ := ⟨lookup, put⟩

/-- **Trees are a lawful store.** -/
theorem lawful : (store κ δ).Lawful :=
  ⟨lookup_nil, fun t p d => lookup_put_self p t d, fun t p d => lookup_put_keeps p t d,
    fun t p d => put_creates p t d⟩

end Tree

end TradeBridge.Lib
