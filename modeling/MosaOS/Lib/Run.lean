import Mathlib.Data.List.Basic

/-!
# Runs of a partial step function

A run folds a step function `step : σ → ι → Option σ` over a list of inputs (`List.foldlM` in
`Option`): it is `none` as soon as one step is. `inv` is the invariant rule and `total` the rule that a
run succeeds; a step may know that its input is one of the run's. `chain_iff` is for steps that a relation
describes, `exists_fuel` for steps that are cut off.
-/

namespace Run
variable {σ ι : Type*} {step : σ → ι → Option σ} {s s' : σ} {is : List ι}

theorem cons_eq_some {i : ι} :
    (i :: is).foldlM step s = some s' ↔ ∃ t, step s i = some t ∧ is.foldlM step t = some s' := by
  simp only [List.foldlM_cons, Option.bind_eq_bind, Option.bind_eq_some_iff]

theorem append_eq_some {js : List ι} :
    (is ++ js).foldlM step s = some s' ↔
      ∃ t, is.foldlM step s = some t ∧ js.foldlM step t = some s' := by
  simp only [List.foldlM_append, Option.bind_eq_bind, Option.bind_eq_some_iff]

theorem exists_step {i : ι} (hi : i ∈ is) (h : is.foldlM step s = some s') :
    ∃ t t', step t i = some t' := by
  obtain ⟨before, after, rfl⟩ := List.append_of_mem hi
  obtain ⟨t, -, h⟩ := append_eq_some.1 h
  obtain ⟨t', ht, -⟩ := cons_eq_some.1 h
  exact ⟨t, t', ht⟩

theorem flatMap {κ : Type*} {f : κ → List ι} {ks : List κ} :
    (ks.flatMap f).foldlM step s = ks.foldlM (fun s k => (f k).foldlM step s) s := by
  induction ks generalizing s with
  | nil => rfl
  | cons k ks ih =>
    rw [List.flatMap_cons, List.foldlM_append, List.foldlM_cons]
    exact congrArg (((f k).foldlM step s).bind ·) (funext fun t => ih)

theorem congr {step' : σ → ι → Option σ} (h : ∀ s, ∀ i ∈ is, step s i = step' s i) :
    is.foldlM step s = is.foldlM step' s := by
  induction is generalizing s with
  | nil => rfl
  | cons i is ih =>
    rw [List.foldlM_cons, List.foldlM_cons, h s i (List.mem_cons_self ..)]
    exact congrArg ((step' s i).bind ·) (funext fun t => ih fun s j hj => h s j (List.mem_cons_of_mem i hj))

theorem inv {P : σ → Prop} (hstep : ∀ s i s', i ∈ is → P s → step s i = some s' → P s')
    (h0 : P s) (h : is.foldlM step s = some s') : P s' := by
  induction is generalizing s with
  | nil => cases h; exact h0
  | cons i is ih =>
    obtain ⟨t, ht, h⟩ := cons_eq_some.1 h
    exact ih (fun s i s' hi => hstep s i s' (List.mem_cons_of_mem _ hi))
      (hstep s i t (List.mem_cons_self ..) h0 ht) h

theorem total {P : σ → Prop} (hstep : ∀ s i, i ∈ is → P s → ∃ s', step s i = some s' ∧ P s')
    (h0 : P s) : ∃ s', is.foldlM step s = some s' ∧ P s' := by
  induction is generalizing s with
  | nil => exact ⟨s, rfl, h0⟩
  | cons i is ih =>
    obtain ⟨t, ht, hP⟩ := hstep s i (List.mem_cons_self ..) h0
    obtain ⟨s', hs', hP'⟩ := ih (fun s i hi => hstep s i (List.mem_cons_of_mem _ hi)) hP
    exact ⟨s', cons_eq_some.2 ⟨t, ht, hs'⟩, hP'⟩

/-- Where no step fails, a run does not. -/
theorem returns (hstep : ∀ s i, ∃ s', step s i = some s') (is : List ι) (s : σ) :
    ∃ s', is.foldlM step s = some s' := by
  have hrun : ∃ s', is.foldlM step s = some s' ∧ True :=
    total (P := fun _ => True) (fun s i _ _ => (hstep s i).imp fun s' h => ⟨h, trivial⟩) trivial
  exact hrun.imp fun s' h => h.1

/-! ### Runs that a relation describes -/

/-- `n` steps of `R` lead from one value to the other. -/
def Chain {α : Type*} (R : α → α → Prop) : ℕ → α → α → Prop
  | 0, a, b => a = b
  | n + 1, a, b => ∃ c, R a c ∧ Chain R n c b

/-- Where `R` is what a step does to a part `f` of the state, a run does as many steps of `R`. -/
theorem chain_iff {α : Type*} {f : σ → α} {R : α → α → Prop} {step : σ → Option σ}
    (hstep : ∀ s b, (∃ s', step s = some s' ∧ f s' = b) ↔ R (f s) b) {b : α} :
    (∃ s', is.foldlM (fun s _ => step s) s = some s' ∧ f s' = b) ↔ Chain R is.length (f s) b := by
  induction is generalizing s with
  | nil =>
    constructor
    · rintro ⟨s', h, hb⟩
      cases h
      exact hb
    · intro hb
      exact ⟨s, rfl, hb⟩
  | cons i is ih =>
    constructor
    · rintro ⟨s', h, hb⟩
      obtain ⟨t, ht, h⟩ := cons_eq_some.1 h
      exact ⟨f t, (hstep s _).1 ⟨t, ht, rfl⟩, ih.1 ⟨s', h, hb⟩⟩
    · rintro ⟨c, hc, hrest⟩
      obtain ⟨t, ht, rfl⟩ := (hstep s c).2 hc
      obtain ⟨s', h, hb⟩ := ih.2 hrest
      exact ⟨s', cons_eq_some.2 ⟨t, ht, h⟩, hb⟩

/-- Where a step is done with some fuel, a run is done with some fuel for all of its steps. -/
theorem exists_fuel {fuelStep : ℕ → σ → ι → Option σ}
    (hmono : ∀ n s i s', fuelStep n s i = some s' → fuelStep (n + 1) s i = some s')
    (hstep : ∀ s i s', step s i = some s' ↔ ∃ n, fuelStep n s i = some s') :
    is.foldlM step s = some s' ↔ ∃ n, is.foldlM (fuelStep n) s = some s' := by
  have hadd : ∀ n k s i s', fuelStep n s i = some s' → fuelStep (n + k) s i = some s' := by
    intro n k s i s' h
    induction k with
    | zero => exact h
    | succ k ih => exact hmono _ _ _ _ ih
  have hrun : ∀ (n k : ℕ) (is : List ι) s, is.foldlM (fuelStep n) s = some s' →
      is.foldlM (fuelStep (n + k)) s = some s' := by
    intro n k is
    induction is with
    | nil => exact fun s h => h
    | cons i is ih =>
      intro s h
      obtain ⟨t, ht, h⟩ := cons_eq_some.1 h
      exact cons_eq_some.2 ⟨t, hadd n k s i t ht, ih t h⟩
  induction is generalizing s with
  | nil => exact ⟨fun h => ⟨0, h⟩, fun ⟨_, h⟩ => h⟩
  | cons i is ih =>
    constructor
    · intro h
      obtain ⟨t, ht, h⟩ := cons_eq_some.1 h
      obtain ⟨n, hn⟩ := (hstep s i t).1 ht
      obtain ⟨k, hk⟩ := ih.1 h
      refine ⟨n + k, cons_eq_some.2 ⟨t, hadd n k s i t hn, ?_⟩⟩
      rw [Nat.add_comm]
      exact hrun k n is t hk
    · rintro ⟨n, h⟩
      obtain ⟨t, ht, h⟩ := cons_eq_some.1 h
      exact cons_eq_some.2 ⟨t, (hstep s i t).2 ⟨n, ht⟩, ih.2 ⟨n, h⟩⟩

end Run
