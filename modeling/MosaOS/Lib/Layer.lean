import MosaOS.Lib.Run
import Mathlib.Data.Set.Function

/-!
# Layers on a canvas

A layer gives a value at some of the points. In a stack of layers the last one that has a value at a
point shows there. A run whose every step paints one layer over what can be seen of its state paints the
stack of these layers (`run`), and the points a list of single writes goes through make up the layer that
they are taken from (`stack_points`).
-/

abbrev Layer (P V : Type) := P → Option V

namespace Layer
variable {P V σ ι : Type}

def stack (ls : List (Layer P V)) : Layer P V := fun p => ls.reverse.findSome? (· p)

def point [DecidableEq P] (p : P) (v : V) : Layer P V := fun q => if p = q then some v else none

/-- What a layer makes of what was to be seen before. -/
def paint (l : Layer P V) (f : P → V) : P → V := fun p => (l p).getD (f p)

variable {l : Layer P V} {ls ms : List (Layer P V)} {f : P → V} {p : P} {v : V}

theorem stack_append : stack (ls ++ ms) p = (stack ms p).or (stack ls p) := by
  unfold stack
  rw [List.reverse_append, List.findSome?_append]

theorem stack_singleton : stack [l] p = l p := by
  unfold stack
  rw [List.reverse_singleton, List.findSome?_singleton]

theorem stack_eq_none : stack ls p = none ↔ ∀ l ∈ ls, l p = none := by
  simp [stack]

theorem paint_stack_append : paint (stack (ls ++ ms)) f = paint (stack ms) (paint (stack ls) f) := by
  funext p
  unfold paint
  rw [stack_append]
  cases stack ms p with
  | none => rfl
  | some v => rfl

/-- A stack that shows none but `l`'s values and covers all of them is `l`. -/
theorem stack_eq (hsub : ∀ m ∈ ls, ∀ p v, m p = some v → l p = some v)
    (hall : ∀ p, l p ≠ none → ∃ m ∈ ls, m p ≠ none) : stack ls = l := by
  funext p
  cases h : stack ls p with
  | none =>
    by_contra hne
    obtain ⟨m, hm, hp⟩ := hall p fun hl => hne hl.symm
    exact hp (stack_eq_none.1 h m hm)
  | some v =>
    obtain ⟨m, hm, hp⟩ := List.exists_of_findSome?_eq_some h
    exact (hsub m (List.mem_reverse.1 hm) p v hp).symm

theorem stack_points [DecidableEq P] {place : ι → P} {value : ι → V} {is : List ι}
    (hsub : ∀ i ∈ is, l (place i) = some (value i)) (hall : ∀ p, l p ≠ none → ∃ i ∈ is, place i = p) :
    stack (is.map fun i => point (place i) (value i)) = l := by
  refine stack_eq (fun m hm p v hp => ?_) fun p hp => ?_
  · obtain ⟨i, hi, rfl⟩ := List.mem_map.1 hm
    unfold point at hp
    split at hp
    · rename_i heq
      rw [← heq, hsub i hi]
      exact hp
    · cases hp
  · obtain ⟨i, hi, rfl⟩ := hall p hp
    exact ⟨_, List.mem_map.2 ⟨i, hi, rfl⟩, by simp [point]⟩

/-- What shows of layers that all give one value. -/
theorem stack_eq_some (hv : ∀ m ∈ ls, ∀ v', m p = some v' → v' = v) (hsome : ∃ m ∈ ls, m p ≠ none) :
    stack ls p = some v := by
  cases h : stack ls p with
  | none =>
    obtain ⟨m, hm, hne⟩ := hsome
    exact absurd (stack_eq_none.1 h m hm) hne
  | some v' =>
    obtain ⟨m, hm, hp⟩ := List.exists_of_findSome?_eq_some h
    rw [hv m (List.mem_reverse.1 hm) v' hp]

/-! ### Runs that paint -/

variable {view : σ → P → V} {layer : ι → Layer P V} {D : Set P} {s s' : σ} {is : List ι}

theorem run {step : σ → ι → Option σ}
    (hstep : ∀ s i s', i ∈ is → step s i = some s' → Set.EqOn (view s') (paint (layer i) (view s)) D)
    (h : is.foldlM step s = some s') :
    Set.EqOn (view s') (paint (stack (is.map layer)) (view s)) D := by
  induction is generalizing s with
  | nil =>
    cases h
    exact fun p _ => rfl
  | cons i is ih =>
    obtain ⟨t, ht, h⟩ := Run.cons_eq_some.1 h
    have hrest := ih (fun s j s' hj => hstep s j s' (List.mem_cons_of_mem i hj)) h
    have hfirst := hstep s i t (List.mem_cons_self ..) ht
    rw [List.map_cons, ← List.singleton_append, paint_stack_append]
    intro p hp
    rw [hrest hp]
    unfold paint
    rw [hfirst hp, stack_singleton]
    rfl

end Layer
