import Mathlib.Logic.Relation
import TradeBridge.Lib.Interleaving

/-!
# Threads over a shared state

A system of threads has a shared state `σ` and a list of thread states `τ`. A step of the system is
a step of the environment, a new thread, or one step of one thread (`Threads.Step`), so a run
interleaves them in any order.

Results:
* `Reach.spawn_early`: the threads a run starts can all stand by from its beginning.
* `Invariant.reach`: an invariant of the shared state and a local invariant of each thread hold in
  every reachable state once each kind of step preserves them, the step of one thread for the
  local invariant of every other one included.
* `PairInvariant.reach`: so does what relates each thread to every later one, once it holds between
  the threads there are and the one that starts.
* `Emits.reach`: when each thread has a list of outputs still to come and a step either emits the
  head of its own list or nothing, a run emits an interleaving of these lists.
-/

namespace TradeBridge.Lib

variable {σ τ α : Type}

/-- A system of threads: what the environment may do, which threads may start, what one thread
may do. -/
structure Threads (σ τ : Type) where
  env : σ → σ → Prop
  spawn : σ → τ → Prop
  run : σ → τ → σ → τ → Prop

namespace Threads

/-- One step of the system. -/
inductive Step (M : Threads σ τ) : σ × List τ → σ × List τ → Prop
  | env {s s' : σ} {ts : List τ} (h : M.env s s') : Step M (s, ts) (s', ts)
  | spawn {s : σ} {ts : List τ} {t : τ} (h : M.spawn s t) : Step M (s, ts) (s, ts ++ [t])
  | run {s s' : σ} {l r : List τ} {t t' : τ} (h : M.run s t s' t') :
      Step M (s, l ++ t :: r) (s', l ++ t' :: r)

/-- The states a run of the system passes through. -/
def Reach (M : Threads σ τ) : σ × List τ → σ × List τ → Prop := Relation.ReflTransGen M.Step

/-- The first thread of a system starts. -/
theorem Reach.of_spawn {M : Threads σ τ} {s : σ} {t : τ} {b : σ × List τ} (h : M.spawn s t)
    (hr : M.Reach (s, [t]) b) : M.Reach (s, []) b := by
  have hstep : M.Step (s, []) (s, [] ++ [t]) := Step.spawn h
  exact Relation.ReflTransGen.head hstep hr

/-! ## Threads that start during the run -/

/-- The system in which no thread starts. -/
def noSpawn (M : Threads σ τ) : Threads σ τ := { M with spawn := fun _ _ => False }

/-- More threads may stand by. -/
theorem Reach.append {M : Threads σ τ} {a b : σ × List τ} (h : M.noSpawn.Reach a b)
    (ts : List τ) : M.noSpawn.Reach (a.1, a.2 ++ ts) (b.1, b.2 ++ ts) := by
  induction h with
  | refl => exact Relation.ReflTransGen.refl
  | tail _ hs ih =>
    cases hs with
    | env he => exact ih.tail (Step.env he)
    | spawn hsp => exact absurd hsp id
    | @run s s' l r t t' hr =>
      refine ih.tail ?_
      simp only [List.append_assoc, List.cons_append]
      exact Step.run hr

/-- **A thread may as well start at once**: the threads a run starts can all stand by from its
beginning. -/
theorem Reach.spawn_early {M : Threads σ τ} {a b : σ × List τ} (h : M.Reach a b) :
    ∃ new, (∀ t ∈ new, ∃ s, M.spawn s t) ∧ M.noSpawn.Reach (a.1, a.2 ++ new) b := by
  induction h with
  | refl =>
    refine ⟨[], fun t ht => absurd ht List.not_mem_nil, ?_⟩
    rw [List.append_nil]
    exact Relation.ReflTransGen.refl
  | tail _ hs ih =>
    obtain ⟨new, hnew, hr⟩ := ih
    cases hs with
    | env he => exact ⟨new, hnew, hr.tail (Step.env he)⟩
    | @spawn s ts t hsp =>
      refine ⟨new ++ [t], fun u hu => ?_, ?_⟩
      · rcases List.mem_append.mp hu with hu | hu
        · exact hnew u hu
        · rw [List.mem_singleton.mp hu]
          exact ⟨s, hsp⟩
      · rw [← List.append_assoc]
        exact hr.append [t]
    | run hrun => exact ⟨new, hnew, hr.tail (Step.run hrun)⟩

/-- What no step of a thread changes about it, a run changes of none. -/
theorem Reach.map_eq {M : Threads σ τ} {f : τ → α}
    (hf : ∀ {s t s' t'}, M.run s t s' t' → f t' = f t) {a b : σ × List τ}
    (h : M.noSpawn.Reach a b) : b.2.map f = a.2.map f := by
  induction h with
  | refl => rfl
  | tail _ hs ih =>
    cases hs with
    | env _ => exact ih
    | spawn hsp => exact absurd hsp id
    | @run s s' l r t t' hr =>
      rw [← ih, List.map_append, List.map_append, List.map_cons, List.map_cons, hf hr]

/-! ## Invariants -/

/-- After a step of one thread, a thread is that one or one of the others. -/
theorem mem_replaced {l r : List τ} {t t' u : τ} (h : u ∈ l ++ t' :: r) :
    u = t' ∨ u ∈ l ++ t :: r := by
  rcases List.mem_append.mp h with hu | hu
  · exact Or.inr (List.mem_append.mpr (Or.inl hu))
  · rcases List.mem_cons.mp hu with rfl | hu
    · exact Or.inl rfl
    · exact Or.inr (List.mem_append.mpr (Or.inr (List.mem_cons_of_mem _ hu)))

theorem mem_middle {l r : List τ} {t : τ} : t ∈ l ++ t :: r :=
  List.mem_append.mpr (Or.inr List.mem_cons_self)

/-- `Inv` is an invariant of the shared state and `Local` one of each thread. -/
structure Invariant (M : Threads σ τ) (Inv : σ → Prop) (Local : σ → τ → Prop) : Prop where
  env_inv : ∀ {s s'}, Inv s → M.env s s' → Inv s'
  env_local : ∀ {s s' u}, Inv s → M.env s s' → Local s u → Local s' u
  spawn_local : ∀ {s t}, Inv s → M.spawn s t → Local s t
  run_inv : ∀ {s t s' t'}, Inv s → Local s t → M.run s t s' t' → Inv s'
  run_own : ∀ {s t s' t'}, Inv s → Local s t → M.run s t s' t' → Local s' t'
  run_other : ∀ {s t s' t' u}, Inv s → Local s t → M.run s t s' t' → Local s u → Local s' u

variable {M : Threads σ τ} {Inv : σ → Prop} {Local : σ → τ → Prop}

theorem Invariant.step (h : Invariant M Inv Local) {a b : σ × List τ} (hs : Step M a b)
    (ha : Inv a.1 ∧ ∀ t ∈ a.2, Local a.1 t) : Inv b.1 ∧ ∀ t ∈ b.2, Local b.1 t := by
  obtain ⟨hinv, hloc⟩ := ha
  cases hs with
  | env he => exact ⟨h.env_inv hinv he, fun t ht => h.env_local hinv he (hloc t ht)⟩
  | spawn hsp =>
    refine ⟨hinv, fun t ht => ?_⟩
    rcases List.mem_append.mp ht with ht | ht
    · exact hloc t ht
    · rw [List.mem_singleton.mp ht]
      exact h.spawn_local hinv hsp
  | @run s s' l r t t' hr =>
    have ht : Local s t := hloc t mem_middle
    refine ⟨h.run_inv hinv ht hr, fun u hu => ?_⟩
    rcases mem_replaced (t := t) hu with rfl | hu
    · exact h.run_own hinv ht hr
    · exact h.run_other hinv ht hr (hloc u hu)

/-- **The invariants hold in every reachable state.** -/
theorem Invariant.reach (h : Invariant M Inv Local) {a b : σ × List τ} (hr : M.Reach a b)
    (ha : Inv a.1 ∧ ∀ t ∈ a.2, Local a.1 t) : Inv b.1 ∧ ∀ t ∈ b.2, Local b.1 t := by
  induction hr with
  | refl => exact ha
  | tail _ hs ih => exact h.step hs ih

/-! ## What relates two threads -/

/-- `Pair` relates each thread to every one that started after it. -/
structure PairInvariant (M : Threads σ τ) (Inv : σ → Prop) (Local : σ → τ → Prop)
    (Pair : σ → τ → τ → Prop) : Prop where
  env : ∀ {s s' a b}, Inv s → M.env s s' → Pair s a b → Pair s' a b
  spawn : ∀ {s a b}, Inv s → Local s a → M.spawn s b → Pair s a b
  run_left : ∀ {s s' a a' b}, Inv s → M.run s a s' a' → Pair s a b → Pair s' a' b
  run_right : ∀ {s s' a b b'}, Inv s → M.run s b s' b' → Pair s a b → Pair s' a b'
  run_other : ∀ {s s' t t' a b}, Inv s → M.run s t s' t' → Pair s a b → Pair s' a b

variable {Pair : σ → τ → τ → Prop}

theorem PairInvariant.step (h : PairInvariant M Inv Local Pair) {a b : σ × List τ}
    (hs : Step M a b) (hinv : Inv a.1) (hloc : ∀ t ∈ a.2, Local a.1 t)
    (ha : a.2.Pairwise (Pair a.1)) : b.2.Pairwise (Pair b.1) := by
  cases hs with
  | env he => exact ha.imp fun hp => h.env hinv he hp
  | spawn hsp =>
    refine List.pairwise_append.mpr ⟨ha, List.pairwise_singleton _ _, fun u hu v hv => ?_⟩
    rw [List.mem_singleton.mp hv]
    exact h.spawn hinv (hloc u hu) hsp
  | @run s s' l r t t' hr =>
    obtain ⟨hl, htr, hlr⟩ := List.pairwise_append.mp ha
    obtain ⟨ht, hr'⟩ := List.pairwise_cons.mp htr
    refine List.pairwise_append.mpr ⟨hl.imp fun hp => h.run_other hinv hr hp,
      List.pairwise_cons.mpr ⟨fun u hu => h.run_left hinv hr (ht u hu),
        hr'.imp fun hp => h.run_other hinv hr hp⟩, fun u hu v hv => ?_⟩
    rcases List.mem_cons.mp hv with rfl | hv
    · exact h.run_right hinv hr (hlr u hu t List.mem_cons_self)
    · exact h.run_other hinv hr (hlr u hu v (List.mem_cons_of_mem _ hv))

/-- **The relation holds in every reachable state** between each thread and the later ones. -/
theorem PairInvariant.reach (h : PairInvariant M Inv Local Pair) (hi : Invariant M Inv Local)
    {a b : σ × List τ} (hr : M.Reach a b) (hinv : Inv a.1) (hloc : ∀ t ∈ a.2, Local a.1 t)
    (ha : a.2.Pairwise (Pair a.1)) : b.2.Pairwise (Pair b.1) := by
  induction hr with
  | refl => exact ha
  | tail hr hs ih =>
    obtain ⟨hinv', hloc'⟩ := hi.reach hr ⟨hinv, hloc⟩
    exact h.step hs hinv' hloc' ih

/-! ## Outputs -/

/-- Each thread has outputs still to come, and a step emits the first of its own or nothing. No
thread starts during the run. -/
structure Emits (M : Threads σ τ) (Inv : σ → Prop) (out : σ → List α) (todo : τ → List α) :
    Prop where
  env : ∀ {s s'}, Inv s → M.env s s' → Inv s' ∧ out s' = out s
  spawn : ∀ {s t}, Inv s → ¬ M.spawn s t
  run_inv : ∀ {s t s' t'}, Inv s → M.run s t s' t' → Inv s'
  run_out : ∀ {s t s' t'}, Inv s → M.run s t s' t' →
    (out s' = out s ∧ todo t' = todo t) ∨ ∃ a, out s' = out s ++ [a] ∧ todo t = a :: todo t'

variable {out : σ → List α} {todo : τ → List α}

theorem Emits.step (h : Emits M Inv out todo) {a b : σ × List τ} (hs : Step M a b)
    (ha : Inv a.1) : Inv b.1 ∧ ∃ e, out b.1 = out a.1 ++ e ∧
      ∀ rest, Interleaving (b.2.map todo) rest → Interleaving (a.2.map todo) (e ++ rest) := by
  cases hs with
  | env he =>
    obtain ⟨hinv, ho⟩ := h.env ha he
    exact ⟨hinv, [], by rw [List.append_nil, ho], fun _ hi => hi⟩
  | spawn hsp => exact absurd hsp (h.spawn ha)
  | @run s s' l r t t' hr =>
    refine ⟨h.run_inv ha hr, ?_⟩
    rcases h.run_out ha hr with ⟨ho, ht⟩ | ⟨x, ho, ht⟩
    · refine ⟨[], by rw [List.append_nil, ho], fun rest hi => ?_⟩
      simpa only [List.map_append, List.map_cons, ht, List.nil_append] using hi
    · refine ⟨[x], ho, fun rest hi => ?_⟩
      simp only [List.map_append, List.map_cons, ht] at hi ⊢
      exact Interleaving.take hi

/-- **A run emits an interleaving** of what its threads had to emit. -/
theorem Emits.reach (h : Emits M Inv out todo) {a b : σ × List τ} (hr : M.Reach a b)
    (ha : Inv a.1) : Inv b.1 ∧ ∃ e, out b.1 = out a.1 ++ e ∧
      ∀ rest, Interleaving (b.2.map todo) rest → Interleaving (a.2.map todo) (e ++ rest) := by
  induction hr with
  | refl => exact ⟨ha, [], by rw [List.append_nil], fun _ hi => hi⟩
  | tail _ hs ih =>
    obtain ⟨hinv, e, he, hi⟩ := ih
    obtain ⟨hinv', e', he', hi'⟩ := h.step hs hinv
    refine ⟨hinv', e ++ e', by rw [he', he, List.append_assoc], fun rest hrest => ?_⟩
    rw [List.append_assoc]
    exact hi _ (hi' _ hrest)

/-- A run that ends with nothing left to emit has emitted an interleaving of all of it. -/
theorem Emits.reach_done (h : Emits M Inv out todo) {a b : σ × List τ} (hr : M.Reach a b)
    (ha : Inv a.1) (hb : ∀ t ∈ b.2, todo t = []) :
    ∃ e, out b.1 = out a.1 ++ e ∧ Interleaving (a.2.map todo) e := by
  obtain ⟨-, e, he, hi⟩ := h.reach hr ha
  refine ⟨e, he, ?_⟩
  rw [← List.append_nil e]
  refine hi [] (Interleaving.nil fun l hl => ?_)
  obtain ⟨t, ht, rfl⟩ := List.mem_map.mp hl
  exact hb t ht

end Threads

end TradeBridge.Lib
