import TradeBridge.Lib.Threads

/-!
# Threads that do not notice each other

Each thread looks at, and changes, a part of the shared state of its own; apart from that it only
writes to the end of common records. `Alike t v s` says that `v` and `s` are the same to the thread
`t`, and `Apart` that the parts of two threads do not meet (`Threads.Local`).

Results:
* **`Local.reach`**: in a run of such threads each of them makes a run of its own (`Solo`), the
  state ends alike to it, and each record has gained an interleaving of what the runs alone add to
  it.
-/

namespace TradeBridge.Lib

variable {σ τ α : Type}

namespace Threads

/-! ## Runs alone -/

/-- The steps of one thread alone. -/
def RunsAlone (M : Threads σ τ) : σ × τ → σ × τ → Prop :=
  Relation.ReflTransGen fun a b => M.run a.1 a.2 b.1 b.2

/-- What the run of one thread alone comes to: the thread it started as, the state it made for
itself, and the thread at its end. -/
structure Solo (σ τ : Type) where
  start : τ
  state : σ
  thread : τ

/-- Where `Inv` holds the threads do not notice each other. `out` are the records that all of them
write to. -/
structure Local {ι : Type} {β : ι → Type} (M : Threads σ τ) (Inv : σ → Prop)
    (Alike : τ → σ → σ → Prop) (Apart : τ → τ → Prop) (out : (i : ι) → σ → List (β i)) :
    Prop where
  env : ∀ {s s'}, ¬ M.env s s'
  spawn : ∀ {s t}, ¬ M.spawn s t
  inv : ∀ {s s' t t'}, Inv s → M.run s t s' t' → Inv s'
  alike : ∀ {t s}, Alike t s s
  own : ∀ {v s s' t t'}, Inv s → Alike t v s → M.run s t s' t' →
    ∃ v', M.run v t v' t' ∧ Alike t' v' s' ∧
      ∀ i, ∃ e, out i s' = out i s ++ e ∧ out i v' = out i v ++ e
  other : ∀ {v s s' t u u'}, Inv s → Apart u t → Alike t v s → M.run s u s' u' → Alike t v s'
  symm : ∀ {t u}, Apart t u → Apart u t
  apart : ∀ {s s' t t' u}, Apart t u → M.run s t s' t' → Apart t' u

/-- The runs alone that a run from `s` to `s'` is made of. -/
structure MadeOf {ι : Type} {β : ι → Type} (M : Threads σ τ) (Alike : τ → σ → σ → Prop)
    (out : (i : ι) → σ → List (β i)) (s s' : σ) (solos : List (Solo σ τ)) : Prop where
  alone : ∀ x ∈ solos, M.RunsAlone (s, x.start) (x.state, x.thread)
  alike : ∀ x ∈ solos, Alike x.thread x.state s'
  grows : ∀ x ∈ solos, ∀ i, out i s <+: out i x.state
  records : ∀ i, ∃ e, out i s' = out i s ++ e ∧
    Interleaving (solos.map fun x => (out i x.state).drop (out i s).length) e

variable {ι : Type} {β : ι → Type} {M : Threads σ τ} {Inv : σ → Prop}
  {Alike : τ → σ → σ → Prop} {Apart : τ → τ → Prop} {out : (i : ι) → σ → List (β i)}

theorem MadeOf.refl (h : Local M Inv Alike Apart out) (s : σ) (ts : List τ) :
    MadeOf M Alike out s s (ts.map fun t => ⟨t, s, t⟩) := by
  refine ⟨fun x hx => ?_, fun x hx => ?_, fun x hx i => ?_, fun i => ⟨[], ?_, ?_⟩⟩
  · obtain ⟨t, -, rfl⟩ := List.mem_map.mp hx
    exact Relation.ReflTransGen.refl
  · obtain ⟨t, -, rfl⟩ := List.mem_map.mp hx
    exact h.alike
  · obtain ⟨t, -, rfl⟩ := List.mem_map.mp hx
    exact List.prefix_refl _
  · rw [List.append_nil]
  · refine Interleaving.of_map_nil fun x hx => ?_
    obtain ⟨t, -, rfl⟩ := List.mem_map.mp hx
    exact List.drop_length

/-- **One step of one thread** lengthens its run and leaves the others'. -/
theorem MadeOf.step (h : Local M Inv Alike Apart out) {s₀ s s' : σ} {l r : List (Solo σ τ)}
    {x : Solo σ τ} {t' : τ} (hinv : Inv s) (hm : MadeOf M Alike out s₀ s (l ++ x :: r))
    (hother : ∀ y ∈ l ++ r, Apart x.thread y.thread) (hrun : M.run s x.thread s' t') :
    ∃ v', MadeOf M Alike out s₀ s' (l ++ ⟨x.start, v', t'⟩ :: r) := by
  obtain ⟨v', hv, hal, hout⟩ := h.own hinv (hm.alike x mem_middle) hrun
  have hmem : ∀ {y}, y ∈ l ++ ⟨x.start, v', t'⟩ :: r →
      y = ⟨x.start, v', t'⟩ ∨ y ∈ l ++ r := by
    intro y hy
    rcases List.mem_append.mp hy with hy | hy
    · exact Or.inr (List.mem_append.mpr (Or.inl hy))
    · exact (List.mem_cons.mp hy).imp_right fun hy => List.mem_append.mpr (Or.inr hy)
  have hold : ∀ {y}, y ∈ l ++ r → y ∈ l ++ x :: r := by
    intro y hy
    rcases List.mem_append.mp hy with hy | hy
    · exact List.mem_append.mpr (Or.inl hy)
    · exact List.mem_append.mpr (Or.inr (List.mem_cons_of_mem _ hy))
  refine ⟨v', fun y hy => ?_, fun y hy => ?_, fun y hy i => ?_, fun i => ?_⟩
  · rcases hmem hy with rfl | hy
    · exact (hm.alone x mem_middle).tail hv
    · exact hm.alone y (hold hy)
  · rcases hmem hy with rfl | hy
    · exact hal
    · exact h.other hinv (hother y hy) (hm.alike y (hold hy)) hrun
  · rcases hmem hy with rfl | hy
    · obtain ⟨e, -, he⟩ := hout i
      exact he ▸ (hm.grows x mem_middle i).trans (List.prefix_append _ _)
    · exact hm.grows y (hold hy) i
  · obtain ⟨e, he, hi⟩ := hm.records i
    obtain ⟨e', hs', hv'⟩ := hout i
    refine ⟨e ++ e', by rw [hs', he, List.append_assoc], ?_⟩
    have hlen : (out i s₀).length ≤ (out i x.state).length :=
      (hm.grows x mem_middle i).length_le
    simp only [List.map_append, List.map_cons] at hi ⊢
    rw [hv', List.drop_append_of_le_length hlen]
    exact Interleaving.append_to e' hi

/-- Threads that start apart stay apart. -/
theorem Local.pairwise_run (h : Local M Inv Alike Apart out) {s s' : σ} {l r : List τ} {t t' : τ}
    (hp : (l ++ t :: r).Pairwise Apart) (hrun : M.run s t s' t') :
    (l ++ t' :: r).Pairwise Apart := by
  obtain ⟨hl, htr, hlr⟩ := List.pairwise_append.mp hp
  obtain ⟨ht, hr⟩ := List.pairwise_cons.mp htr
  refine List.pairwise_append.mpr ⟨hl, List.pairwise_cons.mpr ⟨fun u hu => h.apart (ht u hu) hrun,
    hr⟩, fun u hu v hv => ?_⟩
  rcases List.mem_cons.mp hv with rfl | hv
  · exact h.symm (h.apart (h.symm (hlr u hu t List.mem_cons_self)) hrun)
  · exact hlr u hu v (List.mem_cons_of_mem _ hv)

/-- One of the threads is apart from every other one. -/
theorem Local.apart_of_pairwise (h : Local M Inv Alike Apart out) {l r : List τ} {t : τ}
    (hp : (l ++ t :: r).Pairwise Apart) : ∀ u ∈ l ++ r, Apart t u := by
  obtain ⟨-, htr, hlr⟩ := List.pairwise_append.mp hp
  intro u hu
  rcases List.mem_append.mp hu with hu | hu
  · exact h.symm (hlr u hu t List.mem_cons_self)
  · exact (List.pairwise_cons.mp htr).1 u hu

/-- **A run of threads that do not notice each other** is made of runs of each of them alone. -/
theorem Local.reach (h : Local M Inv Alike Apart out) {s s' : σ} {ts ts' : List τ}
    (hr : M.Reach (s, ts) (s', ts')) (hinv : Inv s) (hp : ts.Pairwise Apart) :
    Inv s' ∧ ∃ solos : List (Solo σ τ), solos.map Solo.start = ts ∧
      solos.map Solo.thread = ts' ∧ MadeOf M Alike out s s' solos := by
  suffices hgoal : ∀ b, M.Reach (s, ts) b → Inv b.1 ∧ b.2.Pairwise Apart ∧
      ∃ solos : List (Solo σ τ), solos.map Solo.start = ts ∧ solos.map Solo.thread = b.2 ∧
        MadeOf M Alike out s b.1 solos from ⟨(hgoal _ hr).1, (hgoal _ hr).2.2⟩
  intro b hb
  induction hb with
  | refl =>
    refine ⟨hinv, hp, ts.map fun t => ⟨t, s, t⟩, ?_, ?_, MadeOf.refl h s ts⟩
    · rw [List.map_map]
      exact List.map_id _
    · rw [List.map_map]
      exact List.map_id _
  | tail _ hs ih =>
    obtain ⟨hinv', hp', solos, hstart, hthread, hm⟩ := ih
    cases hs with
    | env he => exact absurd he h.env
    | spawn hsp => exact absurd hsp h.spawn
    | @run a a' l r t t' hrun =>
      refine ⟨h.inv hinv' hrun, h.pairwise_run hp' hrun, ?_⟩
      obtain ⟨ls, rest, rfl, hls, hrest⟩ := List.map_eq_append_iff.mp hthread
      obtain ⟨x, rs, rfl, hx, hrs⟩ := List.map_eq_cons_iff.mp hrest
      subst hls hx hrs
      have hother : ∀ y ∈ ls ++ rs, Apart x.thread y.thread := by
        intro y hy
        refine h.apart_of_pairwise hp' y.thread ?_
        rw [← List.map_append]
        exact List.mem_map_of_mem hy
      obtain ⟨v', hm'⟩ := hm.step h hinv' hother hrun
      refine ⟨_, ?_, ?_, hm'⟩
      · rw [← hstart]
        simp
      · simp

end Threads

end TradeBridge.Lib
