import Mathlib.Order.Basic
import Mathlib.Data.List.TakeWhile

/-!
# The backlog of a sorted record

A record is a list whose entries carry a key, and a mark is a key up to which the record has been
dealt with. Walking the record back from its end to the first entry before the mark visits its
`backlog`.

Results:
* `backlog_eq_filter`: in a record sorted by key, equal keys allowed, the backlog is every entry at
  or after the mark.
* `backlog_antitone`: an earlier mark leaves a longer backlog.
* `backlog_newest`: in a strictly sorted record, the newest entry's key leaves that entry only.
-/

namespace TradeBridge.Lib

variable {α κ : Type}

section

variable [LE κ] [DecidableLE κ]

/-- The entry is at or after the mark. -/
def isDue (f : α → κ) (mark : κ) (a : α) : Bool := decide (mark ≤ f a)

theorem isDue_iff {f : α → κ} {mark : κ} {a : α} : isDue f mark a = true ↔ mark ≤ f a :=
  decide_eq_true_iff

/-- The entries from the end of `l` back to the first one before the mark. -/
def backlog (f : α → κ) (mark : κ) (l : List α) : List α := l.reverse.takeWhile (isDue f mark)

end

variable [Preorder κ] [DecidableLE κ] {f : α → κ} {mark : κ} {l : List α}

/-- Along falling keys nothing due comes behind an entry that is not. -/
theorem takeWhile_isDue_of_antitone (h : l.Pairwise fun a b => f b ≤ f a) :
    l.takeWhile (isDue f mark) = l.filter (isDue f mark) := by
  induction l with
  | nil => rfl
  | cons a l ih =>
    obtain ⟨hhead, htail⟩ := List.pairwise_cons.mp h
    by_cases ha : isDue f mark a = true
    · rw [List.takeWhile_cons_of_pos ha, List.filter_cons_of_pos ha, ih htail]
    · have hnone : l.filter (isDue f mark) = [] := by
        refine List.filter_eq_nil_iff.mpr fun b hb hdue => ha ?_
        exact isDue_iff.mpr ((isDue_iff.mp hdue).trans (hhead b hb))
      rw [List.takeWhile_cons_of_neg ha, List.filter_cons_of_neg ha, hnone]

/-- **The backlog of a sorted record** is its entries at or after the mark, newest first. -/
theorem backlog_eq_filter (h : l.Pairwise fun a b => f a ≤ f b) :
    backlog f mark l = (l.filter (isDue f mark)).reverse := by
  unfold backlog
  rw [takeWhile_isDue_of_antitone (List.pairwise_reverse.mpr h), List.filter_reverse]

theorem mem_backlog {a : α} (h : a ∈ backlog f mark l) : a ∈ l ∧ mark ≤ f a :=
  ⟨List.mem_reverse.mp ((List.takeWhile_sublist _).subset h),
    isDue_iff.mp (List.mem_takeWhile_imp h)⟩

/-- The backlog of a later mark is a first part of that of an earlier one. -/
theorem backlog_antitone {mark' : κ} (h : mark ≤ mark') (l : List α) :
    backlog f mark' l <+: backlog f mark l := by
  unfold backlog
  induction l.reverse with
  | nil => exact List.prefix_refl _
  | cons a l ih =>
    by_cases ha : isDue f mark' a = true
    · have ha' : isDue f mark a = true := isDue_iff.mpr (h.trans (isDue_iff.mp ha))
      rw [List.takeWhile_cons_of_pos ha, List.takeWhile_cons_of_pos ha']
      exact (List.prefix_cons_inj a).mpr ih
    · rw [List.takeWhile_cons_of_neg ha]
      exact List.nil_prefix

/-- At the newest entry's own key the backlog is that entry. -/
theorem backlog_newest {a : α} (h : l.Pairwise fun a b => f a < f b) (ha : l.getLast? = some a) :
    backlog f (f a) l = [a] := by
  obtain ⟨older, rfl⟩ := List.getLast?_eq_some_iff.mp ha
  unfold backlog
  rw [List.reverse_append, List.reverse_singleton, List.singleton_append,
    List.takeWhile_cons_of_pos (isDue_iff.mpr le_rfl)]
  cases hr : older.reverse with
  | nil => rfl
  | cons b rest =>
    have hb : b ∈ older := List.mem_reverse.mp (hr ▸ List.mem_cons_self)
    have hlt : f b < f a := (List.pairwise_append.mp h).2.2 b hb a (List.mem_singleton_self a)
    have hnot : ¬ isDue f (f a) b = true := fun hdue => absurd (isDue_iff.mp hdue) (not_le_of_gt hlt)
    rw [List.takeWhile_cons_of_neg hnot]

end TradeBridge.Lib
