import TradeBridge.Lib.PoolProgress

/-!
# Closing a pool

Who closes a pool pauses it and waits until no worker has a job and none can take one (`Rested`).
What still waits in the queue then is never begun.

Results:
* **`Pool.Leads.step`**: a job without an end that goes before all others is the first that is
  taken, and is never given back.
* `Pool.Step.waiting`: a job waits as it was detached.
* **`Pool.rested_of_stuck`**: a paused pool whose workers hold only jobs with an end has a step of
  progress, until it is at rest.
-/

namespace TradeBridge.Lib

variable {σ τ : Type}

namespace Pool

/-- No worker has a job, and none can take one. -/
def Rested (J : Jobs σ τ) (p : Pool σ τ) : Prop :=
  (∀ x ∈ p.workers, x = none) ∧ (J.paused p.shared = true ∨ p.queue = [])

/-- Nothing has been taken. -/
structure Untouched (p : Pool σ τ) : Prop where
  workers : ∀ x ∈ p.workers, x = none
  jobs : ∀ i < p.jobs.length, i ∈ p.queue

/-- Nothing has been taken, or a worker holds the job. -/
def Leads (i : Nat) (p : Pool σ τ) : Prop := (i ∈ p.queue ∧ p.Untouched) ∨ some i ∈ p.workers

variable {J : Jobs σ τ} {Mortal : τ → Prop} {p p' : Pool σ τ}

theorem mem_workers {l r : List (Option Nat)} {x : Option Nat} (hw : p.workers = l ++ x :: r) :
    x ∈ p.workers := by
  rw [hw]
  exact List.mem_append.mpr (Or.inr List.mem_cons_self)

/-- A job without an end is never given back. -/
theorem Step.held_stays (hs : Step J p p') {i : Nat} (hheld : some i ∈ p.workers)
    (hend : ∀ t, p.jobs[i]? = some t → J.ended t = false) : some i ∈ p'.workers := by
  cases hs with
  | env _ => exact hheld
  | detach _ => exact hheld
  | @take l r j _ hw _ _ =>
    rw [hw] at hheld
    rcases List.mem_append.mp hheld with hl | hr
    · exact List.mem_append.mpr (Or.inl hl)
    · rcases List.mem_cons.mp hr with hnone | hr
      · cases hnone
      · exact List.mem_append.mpr (Or.inr (List.mem_cons_of_mem _ hr))
  | run _ _ _ _ => exact hheld
  | @release l r j t hw ht he =>
    rw [hw] at hheld
    rcases List.mem_append.mp hheld with hl | hr
    · exact List.mem_append.mpr (Or.inl hl)
    · rcases List.mem_cons.mp hr with hj | hr
      · obtain rfl := Option.some.inj hj
        rw [hend t ht] at he
        cases he
      · exact List.mem_append.mpr (Or.inr (List.mem_cons_of_mem _ hr))

/-- **The job that goes before all others** is taken first and, as it has no end, never given
back. -/
theorem Leads.step {i : Nat} (h : p.Leads i) (hs : Step J p p')
    (hfirst : ∀ j ∈ p.queue, p.priorityOf J i ≤ p.priorityOf J j → j = i)
    (hend : ∀ t, p.jobs[i]? = some t → J.ended t = false) : p'.Leads i := by
  rcases h with ⟨hi, hnone, hall⟩ | hheld
  · cases hs with
    | env _ => exact Or.inl ⟨hi, hnone, hall⟩
    | @detach t _ =>
      refine Or.inl ⟨List.mem_append.mpr (Or.inl hi), hnone, fun j hj => ?_⟩
      have hj : j < (p.jobs ++ [t]).length := hj
      rw [List.length_append, List.length_singleton] at hj
      rcases Nat.lt_succ_iff_lt_or_eq.mp hj with hj | rfl
      · exact List.mem_append.mpr (Or.inl (hall j hj))
      · exact List.mem_append.mpr (Or.inr (List.mem_singleton.mpr rfl))
    | take _ _ hid hmax =>
      obtain rfl := hfirst _ hid (hmax i hi)
      exact Or.inr (List.mem_append.mpr (Or.inr List.mem_cons_self))
    | run hw _ _ _ => cases hnone _ hw
    | release hw _ _ => cases hnone _ (mem_workers hw)
  · exact Or.inr (hs.held_stays hheld hend)

/-- What a job keeps when it runs it has in every later state of the pool. -/
theorem Step.keeps {P : τ → Prop} (hrun : ∀ s t s' t', P t → J.run s t s' t' → P t')
    (hs : Step J p p') : Keeps P p p' := by
  intro i t ht hp
  cases hs with
  | env _ => exact ⟨t, ht, hp⟩
  | detach _ =>
    exact ⟨t, (List.getElem?_append_left (List.getElem?_eq_some_iff.mp ht).1).trans ht, hp⟩
  | take _ _ _ _ => exact ⟨t, ht, hp⟩
  | @run j s' u u' _ hu _ h =>
    by_cases hij : j = i
    · subst hij
      obtain rfl := Option.some.inj (ht.symm.trans hu)
      exact ⟨u', List.getElem?_set_self (List.getElem?_eq_some_iff.mp hu).1, hrun _ _ _ _ hp h⟩
    · exact ⟨t, (List.getElem?_set_ne hij).trans ht, hp⟩
  | release _ _ _ => exact ⟨t, ht, hp⟩

/-- **A job waits as it was detached**, where none is detached any more. -/
theorem Step.waiting (hs : Step J p p') (h : WellFormed p) (hspawn : ∀ t, ¬ J.spawn p.shared t)
    {i : Nat} (hi : i ∈ p'.queue) : i ∈ p.queue ∧ p'.jobs[i]? = p.jobs[i]? := by
  cases hs with
  | env _ => exact ⟨hi, rfl⟩
  | detach h => exact absurd h (hspawn _)
  | take _ _ _ _ => exact ⟨List.mem_of_mem_erase hi, rfl⟩
  | @run j s' t t' hw _ _ _ =>
    have hij : j ≠ i := by
      rintro rfl
      exact (List.nodup_append.mp h.nodup).2.2 _ hi _ (mem_held.mpr hw) rfl
    exact ⟨hi, List.getElem?_set_ne hij⟩
  | release _ _ _ => exact ⟨hi, rfl⟩

/-- **Where a paused pool has no step of progress it is at rest**, if its workers hold only jobs
with an end. -/
theorem rested_of_stuck (h : WellFormed p) (hpaused : J.paused p.shared = true)
    (hmortal : ∀ i t, some i ∈ p.workers → p.jobs[i]? = some t → Mortal t)
    (hlive : ∀ s t, Mortal t → J.ended t = false → ∃ s' t', J.run s t s' t')
    (hstuck : ∀ p', ¬ Progress J Mortal p p') : p.Rested J := by
  refine ⟨fun x hx => ?_, Or.inl hpaused⟩
  cases x with
  | none => rfl
  | some i =>
    have hi : i < p.jobs.length := h.held i (mem_held.mpr hx)
    have ht : p.jobs[i]? = some p.jobs[i] := List.getElem?_eq_getElem hi
    have hm := hmortal i _ hx ht
    cases he : J.ended p.jobs[i] with
    | true =>
      obtain ⟨l, r, hsplit⟩ := List.append_of_mem hx
      exact absurd (Progress.release hsplit ht he) (hstuck _)
    | false =>
      obtain ⟨s', t', hrun⟩ := hlive p.shared _ hm he
      exact absurd (Progress.run hx ht hm he hrun) (hstuck _)

end Pool

end TradeBridge.Lib
