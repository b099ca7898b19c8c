import Mathlib.Data.Int.Basic
import Mathlib.Data.List.Basic

/-!
# Instants, timers and iterators of Go

An instant (`time.Time`) is the number of nanoseconds since Go's zero time, and a duration a number
of nanoseconds. `truncate` rounds an instant down to a multiple of a duration since the zero time.
A timer fires at or after the end of its duration; how much later is an argument. An iterator
(`iter.Seq`) hands values to a consumer, the body of the `range` loop, until that stops it
(`feed`).

Results:
* `truncate_eq_iff`: the truncated instant is the multiple in whose period the instant lies.
* `mem_ticks`, `ticks_sorted`: the first multiples behind a multiple.
* `feed_collect`, `feed_stopAfter`: a consumer that takes everything, and one that stops.
* `Stamped.concat`: a timestamp at or after a multiple behind all others is in a later period.
-/

namespace TradeBridge.Lib.Go

/-! ## Instants -/

/-- `t.Truncate(d)`. -/
def truncate (t d : Int) : Int := if d ≤ 0 then t else t - t % d

/-- `t.IsZero()`. -/
def isZero (t : Int) : Bool := t == 0

variable {d t m : Int}

theorem truncate_of_pos (hd : 0 < d) (t : Int) : truncate t d = t - t % d :=
  if_neg (by omega)

theorem dvd_truncate (hd : 0 < d) (t : Int) : d ∣ truncate t d := by
  rw [truncate_of_pos hd]
  exact Int.dvd_self_sub_emod

theorem truncate_le (hd : 0 < d) (t : Int) : truncate t d ≤ t := by
  have := Int.emod_nonneg t (by omega : d ≠ 0)
  rw [truncate_of_pos hd]
  omega

theorem lt_truncate_add (hd : 0 < d) (t : Int) : t < truncate t d + d := by
  have := Int.emod_lt_of_pos t hd
  rw [truncate_of_pos hd]
  omega

/-- A multiple above another one is a whole period above it. -/
theorem add_le_of_dvd {a b : Int} (ha : d ∣ a) (hb : d ∣ b) (h : a < b) : a + d ≤ b := by
  have := Int.le_of_dvd (Int.sub_pos_of_lt h) (Int.dvd_sub hb ha)
  omega

/-- **The truncated instant** is the multiple in whose period the instant lies. -/
theorem truncate_eq_iff (hd : 0 < d) : truncate t d = m ↔ d ∣ m ∧ m ≤ t ∧ t < m + d := by
  constructor
  · rintro rfl
    exact ⟨dvd_truncate hd t, truncate_le hd t, lt_truncate_add hd t⟩
  · rintro ⟨hm, hle, hlt⟩
    have htr := dvd_truncate hd t
    have := truncate_le hd t
    have := lt_truncate_add hd t
    rcases Int.lt_trichotomy (truncate t d) m with h | h | h
    · have := add_le_of_dvd htr hm h
      omega
    · exact h
    · have := add_le_of_dvd hm htr h
      omega

/-- A multiple is not above an instant iff it is not above the truncated one. -/
theorem le_truncate_iff (hd : 0 < d) (hm : d ∣ m) : m ≤ truncate t d ↔ m ≤ t := by
  constructor
  · exact fun h => Int.le_trans h (truncate_le hd t)
  · intro h
    by_contra hlt
    have := add_le_of_dvd (dvd_truncate hd t) hm (Int.not_le.mp hlt)
    have := lt_truncate_add hd t
    omega

theorem truncate_mono (hd : 0 < d) {u : Int} (h : t ≤ u) : truncate t d ≤ truncate u d :=
  (le_truncate_iff hd (dvd_truncate hd t)).mpr (Int.le_trans (truncate_le hd t) h)

theorem truncate_of_dvd (hd : 0 < d) (h : d ∣ t) : truncate t d = t :=
  (truncate_eq_iff hd).mpr ⟨h, Int.le_refl t, by omega⟩

/-! ## The multiples behind a multiple -/

/-- The first `n` multiples of `d` behind `a`. -/
def ticks (d : Int) : Nat → Int → List Int
  | 0, _ => []
  | n + 1, a => (a + d) :: ticks d n (a + d)

theorem periods_succ (n : Nat) (d : Int) : ((n + 1 : Nat) : Int) * d = n * d + d := by
  rw [Int.natCast_add, Int.add_mul, Int.natCast_one, Int.one_mul]

theorem length_ticks (d : Int) : ∀ (n : Nat) (a : Int), (ticks d n a).length = n
  | 0, _ => rfl
  | n + 1, a => by rw [ticks, List.length_cons, length_ticks d n]

theorem mem_ticks (hd : 0 < d) : ∀ {n : Nat} {a : Int}, d ∣ a →
    (m ∈ ticks d n a ↔ d ∣ m ∧ a < m ∧ m ≤ a + n * d)
  | 0, a, _ => by
    refine ⟨fun h => absurd h List.not_mem_nil, fun ⟨_, hlt, hle⟩ => ?_⟩
    rw [Int.natCast_zero, Int.zero_mul] at hle
    omega
  | n + 1, a, ha => by
    have hnext : d ∣ a + d := Int.dvd_add ha (Int.dvd_refl d)
    have hnn : 0 ≤ (n : Int) * d := Int.mul_nonneg (Int.natCast_nonneg n) (Int.le_of_lt hd)
    rw [ticks, List.mem_cons, mem_ticks hd hnext, periods_succ]
    constructor
    · rintro (rfl | ⟨hm, hlt, hle⟩)
      · exact ⟨hnext, by omega, by omega⟩
      · exact ⟨hm, by omega, by omega⟩
    · rintro ⟨hm, hlt, hle⟩
      rcases Int.le_iff_eq_or_lt.mp (add_le_of_dvd ha hm hlt) with heq | hlt'
      · exact Or.inl heq.symm
      · exact Or.inr ⟨hm, hlt', by omega⟩

/-- They are in order. -/
theorem ticks_sorted (hd : 0 < d) : ∀ {n : Nat} {a : Int}, d ∣ a → (ticks d n a).Pairwise (· < ·)
  | 0, _, _ => List.Pairwise.nil
  | n + 1, a, ha => by
    have hnext : d ∣ a + d := Int.dvd_add ha (Int.dvd_refl d)
    exact List.pairwise_cons.mpr ⟨fun b hb => ((mem_ticks hd hnext).mp hb).2.1,
      ticks_sorted hd hnext⟩

/-- A multiple above another one is one of those behind it. -/
theorem exists_periods (hd : 0 < d) {a b : Int} (ha : d ∣ a) (hb : d ∣ b) (h : a ≤ b) :
    ∃ n : Nat, b = a + n * d := by
  obtain ⟨q, hq⟩ := Int.dvd_sub hb ha
  have hq0 : 0 ≤ q := by
    by_contra hneg
    have := Int.mul_neg_of_pos_of_neg hd (Int.not_le.mp hneg)
    omega
  refine ⟨q.toNat, ?_⟩
  rw [Int.toNat_of_nonneg hq0, Int.mul_comm q d, ← hq]
  omega

/-! ## Timers -/

/-- The instant at which a timer sends that was created with `time.NewTimer(duration)` at `created`,
`late` after it expires. A duration that is not positive expires at once. -/
def timer (created duration : Int) (late : Nat) : Int := created + max duration 0 + late

/-- **A timer never fires before its deadline**, nor before it was created. -/
theorem le_timer (created duration : Int) (late : Nat) :
    created + duration ≤ timer created duration late ∧ created ≤ timer created duration late := by
  unfold timer
  omega

/-! ## Iterators -/

variable {σ α : Type}

/-- The state of a consumer that is handed the values until it stops. -/
def feed (yield : σ → α → σ × Bool) : σ → List α → σ
  | s, [] => s
  | s, a :: as =>
    match yield s a with
    | (s', true) => feed yield s' as
    | (s', false) => s'

/-- The consumer that takes every value. -/
def collect (got : List α) (a : α) : List α × Bool := (got ++ [a], true)

/-- The consumer that stops after `k` values. -/
def stopAfter (k : Nat) (got : List α) (a : α) : List α × Bool :=
  (got ++ [a], decide (got.length + 1 < k))

theorem feed_collect : ∀ (as got : List α), feed collect got as = got ++ as
  | [], got => (List.append_nil got).symm
  | a :: as, got => by
    rw [feed, collect]
    simp only
    rw [feed_collect as, List.append_assoc, List.singleton_append]

/-- **A consumer that stops after `k` values has received the first `k`.** -/
theorem feed_stopAfter {k : Nat} : ∀ (as got : List α), got.length < k →
    feed (stopAfter k) got as = got ++ as.take (k - got.length)
  | [], got, _ => by rw [List.take_nil, List.append_nil, feed]
  | a :: as, got, h => by
    have hlen : (got ++ [a]).length = got.length + 1 := by
      rw [List.length_append, List.length_singleton]
    have hk : k - got.length = (k - (got.length + 1)) + 1 := by omega
    rw [feed, stopAfter, hk, List.take_succ_cons]
    by_cases hlt : got.length + 1 < k
    · rw [decide_eq_true hlt]
      simp only
      rw [feed_stopAfter as (got ++ [a]) (hlen ▸ hlt), hlen, List.append_assoc,
        List.singleton_append]
    · have hzero : k - (got.length + 1) = 0 := by omega
      rw [decide_eq_false hlt, hzero, List.take_zero]

/-! ## Timestamps in order -/

/-- The timestamps are in periods that increase, and have passed. -/
structure Stamped (d clock : Int) (stamps : List Int) : Prop where
  increasing : (stamps.map fun ts => truncate ts d).Pairwise (· < ·)
  passed : ∀ ts ∈ stamps, ts ≤ clock

/-- A multiple behind the periods of all timestamps. -/
structure Deadline (d : Int) (stamps : List Int) (toTime : Int) : Prop where
  multiple : d ∣ toTime
  behind : ∀ ts ∈ stamps, truncate ts d < toTime

variable {clock clock' toTime ts : Int} {stamps : List Int}

theorem Stamped.nil (d clock : Int) : Stamped d clock [] :=
  ⟨List.Pairwise.nil, fun _ h => absurd h List.not_mem_nil⟩

theorem Stamped.mono (h : Stamped d clock stamps) (hle : clock ≤ clock') :
    Stamped d clock' stamps :=
  ⟨h.increasing, fun ts hts => Int.le_trans (h.passed ts hts) hle⟩

theorem Stamped.of_append {later : List Int} (h : Stamped d clock (stamps ++ later)) :
    Stamped d clock stamps := by
  have hincreasing := h.increasing
  rw [List.map_append] at hincreasing
  exact ⟨(List.pairwise_append.mp hincreasing).1,
    fun ts hts => h.passed ts (List.mem_append.mpr (Or.inl hts))⟩

/-- The next multiple is a deadline. -/
theorem Stamped.deadline (hd : 0 < d) (h : Stamped d clock stamps) :
    Deadline d stamps (truncate clock d + d) := by
  refine ⟨Int.dvd_add (dvd_truncate hd clock) (Int.dvd_refl d), fun ts hts => ?_⟩
  have := truncate_mono hd (h.passed ts hts)
  omega

/-- **A timestamp that does not come before a deadline** is in a later period than all others. -/
theorem Stamped.concat (hd : 0 < d) (h : Stamped d clock stamps) (hdl : Deadline d stamps toTime)
    (hto : toTime ≤ ts) (hts : ts ≤ clock) : Stamped d clock (stamps ++ [ts]) := by
  have hlast : toTime ≤ truncate ts d := (le_truncate_iff hd hdl.multiple).mpr hto
  refine ⟨?_, fun u hu => ?_⟩
  · rw [List.map_append]
    refine List.pairwise_append.mpr ⟨h.increasing, List.pairwise_singleton _ _, ?_⟩
    intro a ha b hb
    obtain ⟨u, hu, rfl⟩ := List.mem_map.mp ha
    rw [List.mem_singleton.mp hb]
    exact Int.lt_of_lt_of_le (hdl.behind u hu) hlast
  · rcases List.mem_append.mp hu with hu | hu
    · exact h.passed u hu
    · rw [List.mem_singleton.mp hu]
      exact hts

end TradeBridge.Lib.Go
