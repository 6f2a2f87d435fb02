import Mathlib.Data.Set.Lattice
import Mathlib.Order.Interval.Set.Basic
import Mathlib.Order.CompletePartialOrder

/-!
# Reserving everything but the available regions

A scan over regions `[lo, hi)` of a linear order that keeps a set of reserved points and one point
`stop`, the end of the last available region it has seen. Each region first reserves the gap
`[stop, lo)`; an available region then moves `stop` to its end, any other region is reserved itself.
A point is open after the scan when it is not reserved and lies below `stop`.

The regions need not come in order, so `stop` can move down as well as up. `open_iff_kept` says exactly
which points stay open: those of an available region that no earlier region lies above of, and that
every later available region lies above of.
-/

namespace Reserve
variable {α : Type*} [LinearOrder α]

structure Region (α : Type*) [LinearOrder α] where
  lo : α
  hi : α
  avail : Bool
  le : lo ≤ hi

structure State (α : Type*) where
  used : Set α
  stop : α

def Region.points (r : Region α) : Set α := Set.Ico r.lo r.hi

@[simp] theorem Region.mem_points {r : Region α} {x : α} : x ∈ r.points ↔ r.lo ≤ x ∧ x < r.hi :=
  Iff.rfl

def step (st : State α) (r : Region α) : State α :=
  if r.avail then ⟨st.used ∪ Set.Ico st.stop r.lo, r.hi⟩
  else ⟨st.used ∪ Set.Ico st.stop r.lo ∪ r.points, st.stop⟩

def scan (g : ℕ → Region α) (st : State α) : ℕ → State α
  | 0 => st
  | n + 1 => step (scan g st n) (g n)

def Open (st : State α) (x : α) : Prop := x ∉ st.used ∧ x < st.stop

variable {st : State α} {r : Region α} {g : ℕ → Region α} {n : ℕ} {x : α}

theorem step_of_avail (h : r.avail = true) :
    step st r = ⟨st.used ∪ Set.Ico st.stop r.lo, r.hi⟩ := if_pos h

theorem step_of_not_avail (h : r.avail = false) :
    step st r = ⟨st.used ∪ Set.Ico st.stop r.lo ∪ r.points, st.stop⟩ := by simp [step, h]

theorem not_mem_step (hx : x ∉ r.points) :
    x ∉ (step st r).used ↔ x ∉ st.used ∧ (st.stop ≤ x → r.lo ≤ x) := by
  have hgap : x ∉ Set.Ico st.stop r.lo ↔ (st.stop ≤ x → r.lo ≤ x) := by
    rw [Set.mem_Ico, not_and, not_lt]
  cases h : r.avail with
  | true => rw [step_of_avail h, ← hgap, Set.mem_union, not_or]
  | false =>
    rw [step_of_not_avail h, ← hgap, Set.mem_union, Set.mem_union, not_or, not_or]
    exact and_iff_left hx

/-- A point outside an available region stays open when the region lies above it. -/
theorem open_step (hx : x ∉ r.points) :
    Open (step st r) x ↔ Open st x ∧ (r.avail = true → x < r.lo) := by
  unfold Open
  rw [not_mem_step hx]
  cases h : r.avail with
  | true =>
    rw [step_of_avail h]
    constructor
    · rintro ⟨⟨hu, hgap⟩, hlt⟩
      have hlo : x < r.lo := lt_of_not_ge fun hle => hx ⟨hle, hlt⟩
      have hstop : x < st.stop := lt_of_not_ge fun hle => absurd (hgap hle) hlo.not_ge
      exact ⟨⟨hu, hstop⟩, fun _ => hlo⟩
    · rintro ⟨⟨hu, hstop⟩, hlo⟩
      exact ⟨⟨hu, fun hle => absurd hstop hle.not_gt⟩, (hlo rfl).trans_le r.le⟩
  | false =>
    rw [step_of_not_avail h]
    constructor
    · rintro ⟨⟨hu, -⟩, hlt⟩
      exact ⟨⟨hu, hlt⟩, fun h => absurd h (by decide)⟩
    · rintro ⟨⟨hu, hlt⟩, -⟩
      exact ⟨⟨hu, fun hle => absurd hlt hle.not_gt⟩, hlt⟩

theorem open_step_of_mem (hx : x ∈ r.points) :
    Open (step st r) x ↔ x ∉ st.used ∧ r.avail = true := by
  unfold Open
  cases h : r.avail with
  | true =>
    rw [step_of_avail h]
    constructor
    · rintro ⟨hu, -⟩
      exact ⟨fun h => hu (Or.inl h), rfl⟩
    · rintro ⟨hu, -⟩
      refine ⟨?_, hx.2⟩
      rintro (h | h)
      · exact hu h
      · exact absurd hx.1 h.2.not_ge
  | false =>
    rw [step_of_not_avail h]
    constructor
    · rintro ⟨hu, -⟩
      exact absurd (Or.inr hx) hu
    · rintro ⟨-, h⟩
      cases h

/-- As long as every region starts at or below `x` without containing it, `stop` stays below `x`. -/
theorem stop_le (h0 : st.stop ≤ x) (hx : ∀ i < n, x ∉ (g i).points) (hlo : ∀ i < n, (g i).lo ≤ x) :
    (scan g st n).stop ≤ x := by
  induction n with
  | zero => exact h0
  | succ n ih =>
    have hstop := ih (fun i hi => hx i (by omega)) (fun i hi => hlo i (by omega))
    cases h : (g n).avail with
    | true =>
      rw [scan, step_of_avail h]
      exact le_of_not_gt fun hlt => hx n (by omega) ⟨hlo n (by omega), hlt⟩
    | false => rw [scan, step_of_not_avail h]; exact hstop

theorem not_mem_scan (h0 : st.stop ≤ x) (hx : ∀ i < n, x ∉ (g i).points) :
    x ∉ (scan g st n).used ↔ x ∉ st.used ∧ ∀ i < n, (g i).lo ≤ x := by
  induction n with
  | zero => simp [scan]
  | succ n ih =>
    have hx' : ∀ i < n, x ∉ (g i).points := fun i hi => hx i (by omega)
    rw [scan, not_mem_step (hx n (by omega)), ih hx']
    constructor
    · rintro ⟨⟨hu, hlo⟩, hgap⟩
      refine ⟨hu, fun i hi => ?_⟩
      rcases Nat.lt_succ_iff_lt_or_eq.1 hi with hi | rfl
      · exact hlo i hi
      · exact hgap (stop_le h0 hx' hlo)
    · rintro ⟨hu, hlo⟩
      exact ⟨⟨hu, fun i hi => hlo i (by omega)⟩, fun _ => hlo n (by omega)⟩

/-- The `i`-th of the first `n` regions keeps `x`: it is available and contains `x`, no region before
it starts above `x`, and every available region after it does. -/
structure KeptBy (g : ℕ → Region α) (n : ℕ) (x : α) (i : ℕ) : Prop where
  lt : i < n
  avail : (g i).avail = true
  mem : x ∈ (g i).points
  before : ∀ j < i, (g j).lo ≤ x
  after : ∀ j, i < j → j < n → (g j).avail = true → x < (g j).lo

theorem KeptBy.succ {i : ℕ} (h : KeptBy g n x i) (hn : (g n).avail = true → x < (g n).lo) :
    KeptBy g (n + 1) x i := by
  refine ⟨Nat.lt_succ_of_lt h.lt, h.avail, h.mem, h.before, fun j hij hj hav => ?_⟩
  rcases Nat.lt_succ_iff_lt_or_eq.1 hj with hj | rfl
  · exact h.after j hij hj hav
  · exact hn hav

theorem KeptBy.of_succ {i : ℕ} (h : KeptBy g (n + 1) x i) (hi : i < n) :
    KeptBy g n x i ∧ ((g n).avail = true → x < (g n).lo) :=
  ⟨⟨hi, h.avail, h.mem, h.before, fun j hij hj => h.after j hij (by omega)⟩,
    h.after n hi (Nat.lt_succ_self n)⟩

theorem open_iff_kept (h0 : st.stop ≤ x)
    (hdis : ∀ i < n, ∀ j < n, i ≠ j → Disjoint (g i).points (g j).points) :
    Open (scan g st n) x ↔ x ∉ st.used ∧ ∃ i, KeptBy g n x i := by
  induction n with
  | zero =>
    refine iff_of_false (fun h => absurd h.2 h0.not_gt) ?_
    rintro ⟨-, i, hi⟩
    exact absurd hi.lt (Nat.not_lt_zero i)
  | succ n ih =>
    have hih := ih fun i hi j hj => hdis i (by omega) j (by omega)
    by_cases hx : x ∈ (g n).points
    · have hother : ∀ i < n, x ∉ (g i).points := fun i hi h =>
        Set.disjoint_left.1 (hdis i (by omega) n (by omega) (by omega)) h hx
      rw [scan, open_step_of_mem hx, not_mem_scan h0 hother, and_assoc]
      refine and_congr_right fun _ => ⟨?_, ?_⟩
      · rintro ⟨hlo, hav⟩
        exact ⟨n, Nat.lt_succ_self n, hav, hx, hlo, fun j h1 h2 => by omega⟩
      · rintro ⟨i, hi⟩
        obtain rfl : i = n := by
          by_contra hne
          exact hother i (by have := hi.lt; omega) hi.mem
        exact ⟨hi.before, hi.avail⟩
    · rw [scan, open_step hx, hih, and_assoc]
      refine and_congr_right fun _ => ⟨?_, ?_⟩
      · rintro ⟨⟨i, hi⟩, hn⟩
        exact ⟨i, hi.succ hn⟩
      · rintro ⟨i, hi⟩
        have hin : i < n := by
          rcases Nat.lt_succ_iff_lt_or_eq.1 hi.lt with h | rfl
          · exact h
          · exact absurd hi.mem hx
        obtain ⟨hk, hn⟩ := hi.of_succ hin
        exact ⟨⟨i, hk⟩, hn⟩

end Reserve
