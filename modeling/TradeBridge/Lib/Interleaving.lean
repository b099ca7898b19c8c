import Mathlib.Data.List.Basic

/-!
# Interleavings of finitely many lists, and the last value under a key

`Interleaving ls out`: `out` takes the elements of the lists `ls` one at a time, each list from its
front, until all are empty. `lastWith p l` is the last element of `l` with `p`, which is what a
subscriber that keeps one value per key holds for that key after `l`.

Results:
* `lastWith_filterMap`: the last value of a mapped list, from the last element that has one.
* `Interleaving.mem_iff`: an interleaving has exactly the elements of its lists.
* `Interleaving.lastWith_mem` / `lastWith_eq_none_iff`: the last value of an interleaving is the
  last value of one of its lists, and there is none iff no list has one.
* `Interleaving.lastWith_eq`: if every list that has a last value has the same one, it is that of
  the interleaving.
* `Interleaving.append_to`: what is written at the end of one list comes at the end of the whole.
* `Interleaving.map`: a map of an interleaving.
-/

namespace TradeBridge.Lib

variable {α : Type}

/-- `out` is an interleaving of the lists `ls`. -/
inductive Interleaving : List (List α) → List α → Prop
  | nil {ls : List (List α)} (h : ∀ l ∈ ls, l = []) : Interleaving ls []
  | take {pre post : List (List α)} {a : α} {as out : List α}
      (h : Interleaving (pre ++ as :: post) out) :
      Interleaving (pre ++ (a :: as) :: post) (a :: out)

/-- The last element of `l` satisfying `p`. -/
def lastWith (p : α → Bool) (l : List α) : Option α := (l.filter p).getLast?

theorem lastWith_nil (p : α → Bool) : lastWith p [] = none := rfl

theorem lastWith_append (p : α → Bool) (l l' : List α) :
    lastWith p (l ++ l') = (lastWith p l').or (lastWith p l) := by
  unfold lastWith
  rw [List.filter_append, List.getLast?_append]

theorem lastWith_cons (p : α → Bool) (a : α) (l : List α) :
    lastWith p (a :: l) = (lastWith p l).or (if p a then some a else none) := by
  rw [← List.singleton_append, lastWith_append]
  congr 1
  unfold lastWith
  by_cases h : p a = true
  · rw [List.filter_cons_of_pos h, if_pos h]
    rfl
  · rw [List.filter_cons_of_neg h, if_neg h]
    rfl

theorem lastWith_eq_none_iff {p : α → Bool} {l : List α} :
    lastWith p l = none ↔ ∀ a ∈ l, p a = false := by
  unfold lastWith
  rw [List.getLast?_eq_none_iff, List.filter_eq_nil_iff]
  simp only [Bool.not_eq_true]

theorem lastWith_mem {p : α → Bool} {l : List α} {a : α} (h : lastWith p l = some a) :
    a ∈ l ∧ p a = true :=
  List.mem_filter.mp (List.mem_of_getLast? h)

/-- A last value of a list that ends in `l'` is that of `l'` when `l'` has one. -/
theorem lastWith_append_of_some {p : α → Bool} {l l' : List α} {a : α}
    (h : lastWith p l' = some a) : lastWith p (l ++ l') = some a := by
  rw [lastWith_append, h, Option.some_or]

/-- The one element with `p` is the last one. -/
theorem lastWith_eq_some_of_unique {p : α → Bool} {l : List α} {a : α} (ha : a ∈ l)
    (hp : p a = true) (hu : ∀ b ∈ l, p b = true → b = a) : lastWith p l = some a := by
  cases h : lastWith p l with
  | none => exact absurd hp (by simp [lastWith_eq_none_iff.mp h a ha])
  | some b =>
    obtain ⟨hb, hpb⟩ := lastWith_mem h
    rw [hu b hb hpb]

/-- The last value of a `filterMap` is that of the last element whose value has `p`. -/
theorem lastWith_filterMap {β : Type} {p : β → Bool} {q : α → Bool} {f : α → Option β}
    (hq : ∀ x, q x = (f x).any p) : ∀ l : List α,
    lastWith p (l.filterMap f) = (lastWith q l).bind f
  | [] => rfl
  | x :: l => by
    have ih := lastWith_filterMap hq l
    have hx := hq x
    -- a last element of `l` with `q` has a value
    have hsome : ∀ y, lastWith q l = some y → ∃ b, f y = some b := by
      intro y hy
      have hqy := (lastWith_mem hy).2
      rw [hq y] at hqy
      cases hf : f y with
      | none => exact absurd hqy (by simp [hf])
      | some b => exact ⟨b, rfl⟩
    rw [lastWith_cons]
    cases hf : f x with
    | none =>
      rw [hf, Option.any_none] at hx
      rw [List.filterMap_cons_none hf, ih, if_neg (by simp [hx]), Option.or_none]
    | some b =>
      rw [hf, Option.any_some] at hx
      rw [List.filterMap_cons_some hf, lastWith_cons, ih, hx]
      cases hl : lastWith q l with
      | none =>
        by_cases hb : p b = true
        · rw [if_pos hb, if_pos hb]
          exact hf.symm
        · rw [if_neg hb, if_neg hb]
          rfl
      | some y =>
        obtain ⟨c, hc⟩ := hsome y hl
        simp only [Option.bind_some, Option.some_or, hc]

/-- One list is the only interleaving of itself. -/
theorem Interleaving.eq_of_singleton {l out : List α} (h : Interleaving [l] out) : out = l := by
  generalize hls : [l] = ls at h
  induction h generalizing l with
  | nil hn => exact (hn l (by rw [← hls]; exact List.mem_singleton_self l)).symm
  | @take pre post a as out _ ih =>
    cases pre with
    | nil =>
      simp only [List.nil_append, List.cons.injEq] at hls
      obtain ⟨rfl, rfl⟩ := hls
      rw [ih rfl]
    | cons x pre => simp at hls

theorem Interleaving.mem_iff {ls : List (List α)} {out : List α} (h : Interleaving ls out)
    {x : α} : x ∈ out ↔ ∃ l ∈ ls, x ∈ l := by
  induction h with
  | nil hn =>
    constructor
    · intro hx
      exact absurd hx List.not_mem_nil
    · rintro ⟨l, hl, hx⟩
      rw [hn l hl] at hx
      exact hx
  | @take pre post a as out _ ih =>
    simp only [List.mem_append, List.mem_cons] at ih ⊢
    rw [ih]
    constructor
    · rintro (rfl | ⟨l, hl | rfl | hl, hx⟩)
      · exact ⟨_, Or.inr (Or.inl rfl), List.mem_cons_self⟩
      · exact ⟨l, Or.inl hl, hx⟩
      · exact ⟨_, Or.inr (Or.inl rfl), List.mem_cons_of_mem _ hx⟩
      · exact ⟨l, Or.inr (Or.inr hl), hx⟩
    · rintro ⟨l, hl | rfl | hl, hx⟩
      · exact Or.inr ⟨l, Or.inl hl, hx⟩
      · rcases List.mem_cons.mp hx with rfl | hx
        · exact Or.inl rfl
        · exact Or.inr ⟨as, Or.inr (Or.inl rfl), hx⟩
      · exact Or.inr ⟨l, Or.inr (Or.inr hl), hx⟩

/-- Nothing with `p` comes out iff nothing with `p` went in. -/
theorem Interleaving.lastWith_eq_none_iff {ls : List (List α)} {out : List α}
    (h : Interleaving ls out) {p : α → Bool} :
    lastWith p out = none ↔ ∀ l ∈ ls, lastWith p l = none := by
  simp only [TradeBridge.Lib.lastWith_eq_none_iff, h.mem_iff]
  constructor
  · intro hp l hl a ha
    exact hp a ⟨l, hl, ha⟩
  · rintro hp a ⟨l, hl, ha⟩
    exact hp l hl a ha

/-- **The last value of an interleaving is the last value of one of its lists.** -/
theorem Interleaving.lastWith_mem {ls : List (List α)} {out : List α} (h : Interleaving ls out)
    {p : α → Bool} {x : α} (hx : lastWith p out = some x) : ∃ l ∈ ls, lastWith p l = some x := by
  induction h with
  | nil => exact absurd hx (by simp [lastWith_nil])
  | @take pre post a as out hout ih =>
    rw [lastWith_cons] at hx
    cases ho : lastWith p out with
    | some y =>
      rw [ho, Option.some_or] at hx
      obtain ⟨l, hl, hlast⟩ := ih (ho.trans hx)
      rw [List.mem_append, List.mem_cons] at hl
      rcases hl with hl | rfl | hl
      · exact ⟨l, List.mem_append.mpr (Or.inl hl), hlast⟩
      · refine ⟨a :: l, by simp, ?_⟩
        rw [lastWith_cons, hlast, Option.some_or]
      · exact ⟨l, List.mem_append.mpr (Or.inr (List.mem_cons_of_mem _ hl)), hlast⟩
    | none =>
      rw [ho, Option.none_or] at hx
      have has : lastWith p as = none :=
        (hout.lastWith_eq_none_iff.mp ho) as (List.mem_append.mpr (Or.inr List.mem_cons_self))
      refine ⟨a :: as, by simp, ?_⟩
      rw [lastWith_cons, has, Option.none_or, hx]

/-- **A last value on which every list agrees is that of the interleaving.** -/
theorem Interleaving.lastWith_eq {ls : List (List α)} {out : List α} (h : Interleaving ls out)
    {p : α → Bool} {v : Option α} (hv : v = none ∨ ∃ l ∈ ls, lastWith p l = v)
    (hall : ∀ l ∈ ls, lastWith p l = none ∨ lastWith p l = v) : lastWith p out = v := by
  cases ho : lastWith p out with
  | none =>
    rcases hv with hv | ⟨l, hl, hlv⟩
    · exact hv.symm
    · rw [← hlv, h.lastWith_eq_none_iff.mp ho l hl]
  | some x =>
    obtain ⟨l, hl, hlx⟩ := h.lastWith_mem ho
    rcases hall l hl with hn | hn
    · rw [hlx] at hn
      cases hn
    · rw [← hlx, hn]

/-! ## Interleavings from their end -/

theorem Interleaving.append_one {pre post : List (List α)} {l out : List α}
    (h : Interleaving (pre ++ l :: post) out) (a : α) :
    Interleaving (pre ++ (l ++ [a]) :: post) (out ++ [a]) := by
  generalize hls : pre ++ l :: post = ls at h
  induction h generalizing pre l post with
  | @nil ls hn =>
    subst hls
    have hnil : ∀ l' ∈ pre ++ [] :: post, l' = [] := by
      intro l' hl'
      rcases List.mem_append.mp hl' with hl' | hl'
      · exact hn l' (List.mem_append.mpr (Or.inl hl'))
      · rcases List.mem_cons.mp hl' with rfl | hl'
        · rfl
        · exact hn l' (List.mem_append.mpr (Or.inr (List.mem_cons_of_mem _ hl')))
    rw [hn l (List.mem_append.mpr (Or.inr List.mem_cons_self))]
    exact Interleaving.take (Interleaving.nil hnil)
  | @take pre' post' b as out _ ih =>
    -- the list taken from lies before `l`, is `l`, or lies behind it
    rcases List.append_eq_append_iff.mp hls with ⟨mid, hpre', hpost⟩ | ⟨mid, hpre, hpost'⟩
    · cases mid with
      | nil =>
        simp only [List.nil_append, List.cons.injEq] at hpost
        obtain ⟨rfl, rfl⟩ := hpost
        rw [List.append_nil] at hpre'
        subst hpre'
        have := @ih pre' post as rfl
        exact Interleaving.take this
      | cons x mid =>
        simp only [List.cons_append, List.cons.injEq] at hpost
        obtain ⟨rfl, rfl⟩ := hpost
        subst hpre'
        have := @ih pre (mid ++ as :: post') l (by simp)
        have hassoc : pre ++ (l ++ [a]) :: (mid ++ (b :: as) :: post') =
            (pre ++ (l ++ [a]) :: mid) ++ (b :: as) :: post' := by simp
        rw [hassoc]
        refine Interleaving.take ?_
        simpa using this
    · cases mid with
      | nil =>
        simp only [List.nil_append, List.cons.injEq] at hpost'
        obtain ⟨rfl, rfl⟩ := hpost'
        rw [List.append_nil] at hpre
        subst hpre
        have := @ih pre post' as rfl
        exact Interleaving.take this
      | cons x mid =>
        simp only [List.cons_append, List.cons.injEq] at hpost'
        obtain ⟨rfl, rfl⟩ := hpost'
        subst hpre
        have := @ih (pre' ++ as :: mid) post l (by simp)
        have hassoc : (pre' ++ (b :: as) :: mid) ++ (l ++ [a]) :: post =
            pre' ++ (b :: as) :: (mid ++ (l ++ [a]) :: post) := by simp
        rw [hassoc]
        refine Interleaving.take ?_
        simpa using this

/-- **What is written at the end of one list comes at the end of the interleaving.** -/
theorem Interleaving.append_to {pre post : List (List α)} {l : List α} :
    ∀ (e : List α) {out : List α}, Interleaving (pre ++ l :: post) out →
      Interleaving (pre ++ (l ++ e) :: post) (out ++ e) := by
  intro e
  induction e generalizing l with
  | nil =>
    intro out h
    simpa using h
  | cons a e ih =>
    intro out h
    have := ih (h.append_one a)
    simpa using this

/-- Empty lists have the empty interleaving. -/
theorem Interleaving.of_map_nil {β : Type} {f : β → List α} {l : List β}
    (h : ∀ x ∈ l, f x = []) : Interleaving (l.map f) [] := by
  refine Interleaving.nil fun l' hl' => ?_
  obtain ⟨x, hx, rfl⟩ := List.mem_map.mp hl'
  exact h x hx

/-- Empty lists at the end are no part of an interleaving. -/
theorem Interleaving.of_append_nil {ls es : List (List α)} {out : List α}
    (h : Interleaving (ls ++ es) out) (hes : ∀ l ∈ es, l = []) : Interleaving ls out := by
  generalize hall : ls ++ es = all at h
  induction h generalizing ls with
  | nil hn =>
    refine Interleaving.nil fun l hl => hn l ?_
    rw [← hall]
    exact List.mem_append.mpr (Or.inl hl)
  | @take pre post a as out _ ih =>
    have hne : (a :: as) ∉ es := fun hmem => List.cons_ne_nil a as (hes _ hmem)
    rcases List.append_eq_append_iff.mp hall with ⟨mid, -, htail⟩ | ⟨mid, hls, htail⟩
    · refine absurd ?_ hne
      rw [htail]
      exact List.mem_append.mpr (Or.inr List.mem_cons_self)
    · cases mid with
      | nil =>
        refine absurd ?_ hne
        rw [List.nil_append] at htail
        rw [← htail]
        exact List.mem_cons_self
      | cons l mid =>
        obtain ⟨rfl, rfl⟩ := List.cons.inj htail
        rw [hls]
        refine Interleaving.take (ih ?_)
        simp

/-- An empty list is no part of an interleaving. -/
theorem Interleaving.of_nil_middle {pre post : List (List α)} {out : List α}
    (h : Interleaving (pre ++ [] :: post) out) : Interleaving (pre ++ post) out := by
  generalize hall : pre ++ [] :: post = all at h
  induction h generalizing pre post with
  | nil hn =>
    refine Interleaving.nil fun l hl => hn l ?_
    rw [← hall]
    exact List.mem_append.mpr ((List.mem_append.mp hl).imp_right (List.mem_cons_of_mem _))
  | @take pre' post' a as out _ ih =>
    -- the list taken from lies before the empty one or behind it
    rcases List.append_eq_append_iff.mp hall with ⟨mid, rfl, hpost⟩ | ⟨mid, rfl, hpost'⟩
    · cases mid with
      | nil => cases (List.cons.inj hpost).1
      | cons x mid =>
        simp only [List.cons_append, List.cons.injEq] at hpost
        obtain ⟨rfl, rfl⟩ := hpost
        have := @ih pre (mid ++ as :: post') (by simp)
        rw [← List.append_assoc] at this ⊢
        exact Interleaving.take this
    · cases mid with
      | nil => cases (List.cons.inj hpost').1
      | cons x mid =>
        simp only [List.cons_append, List.cons.injEq] at hpost'
        obtain ⟨rfl, rfl⟩ := hpost'
        have := @ih (pre' ++ as :: mid) post (by simp)
        rw [List.append_assoc, List.cons_append] at this ⊢
        exact Interleaving.take this

/-- A map of an interleaving is one of the mapped lists. -/
theorem Interleaving.map {β : Type} (f : α → β) {ls : List (List α)} {out : List α}
    (h : Interleaving ls out) : Interleaving (ls.map (List.map f)) (out.map f) := by
  induction h with
  | nil hn =>
    refine Interleaving.of_map_nil fun l hl => ?_
    rw [hn l hl]
    rfl
  | take _ ih =>
    simp only [List.map_append, List.map_cons] at ih ⊢
    exact Interleaving.take ih

end TradeBridge.Lib
