import Mathlib.Data.List.Basic
import Mathlib.Data.Fintype.Card
import Mathlib.Logic.Function.Iterate
import Mathlib.Logic.Relation

/-!
# Lists through `next` pointers

`next p` is the pointer in the node at `p`, `none` the null pointer. `Linked next start l` says that the
list which starts at `start` goes through the nodes of `l` and ends. `lastFrom` is the loop that goes on
to the last node, cut off after some steps; `Linked.snoc` is what hanging a new node on the last one does
to the list.
-/

namespace NextList
variable {P : Type*}

def Linked (next : P → Option P) : Option P → List P → Prop
  | start, [] => start = none
  | start, p :: l => start = some p ∧ Linked next (next p) l

/-- `while (next p) p = next p`, cut off after `n` tests. -/
def lastFrom (next : P → Option P) : ℕ → P → Option P
  | 0, _ => none
  | n + 1, p =>
    match next p with
    | none => some p
    | some q => lastFrom next n q

/-- No node of the list is reached again from itself. -/
def Acyclic (next : P → Option P) (start : Option P) : Prop :=
  ∀ p q, start = some p → Relation.ReflTransGen (fun a b => next a = some b) p q →
    ¬ Relation.TransGen (fun a b => next a = some b) q q

variable {next next' : P → Option P} {start : Option P} {l : List P} {p q last : P} {n : ℕ}

theorem Linked.unique {l' : List P} (h : Linked next start l) (h' : Linked next start l') : l = l' := by
  induction l generalizing start l' with
  | nil =>
    cases l' with
    | nil => rfl
    | cons q l' => cases h.symm.trans h'.1
  | cons p l ih =>
    cases l' with
    | nil => cases h.1.symm.trans h'
    | cons q l' =>
      obtain rfl : p = q := Option.some.inj (h.1.symm.trans h'.1)
      rw [ih h.2 h'.2]

/-! ### No way back -/

theorem Linked.step (h : Linked next (some p) l) (hq : next p = some q) :
    ∃ l', Linked next (some q) l' ∧ l'.length < l.length := by
  cases l with
  | nil => cases h
  | cons r l =>
    obtain ⟨hr, hl⟩ := h
    obtain rfl : p = r := Option.some.inj hr
    rw [hq] at hl
    exact ⟨l, hl, Nat.lt_succ_self _⟩

theorem Linked.transGen (h : Linked next (some p) l)
    (hq : Relation.TransGen (fun a b => next a = some b) p q) :
    ∃ l', Linked next (some q) l' ∧ l'.length < l.length := by
  induction hq with
  | single hstep => exact h.step hstep
  | tail _ hstep ih =>
    obtain ⟨l₁, hl₁, hlt₁⟩ := ih
    obtain ⟨l₂, hl₂, hlt₂⟩ := hl₁.step hstep
    exact ⟨l₂, hl₂, Nat.lt_trans hlt₂ hlt₁⟩

/-- The list from a node is shorter after each step, so that no node comes again. -/
theorem Linked.acyclic (h : Linked next start l) : Acyclic next start := by
  rintro p q rfl hreach hcycle
  obtain ⟨l₁, hl₁⟩ : ∃ l₁, Linked next (some q) l₁ := by
    rcases Relation.reflTransGen_iff_eq_or_transGen.1 hreach with rfl | htrans
    · exact ⟨l, h⟩
    · obtain ⟨l₁, hl₁, -⟩ := h.transGen htrans
      exact ⟨l₁, hl₁⟩
  obtain ⟨l₂, hl₂, hlt⟩ := hl₁.transGen hcycle
  rw [hl₁.unique hl₂] at hlt
  exact Nat.lt_irrefl _ hlt

theorem Linked.from (h : Linked next start l) (hq : q ∈ l) :
    ∃ l', Linked next (some q) l' ∧ l'.length ≤ l.length := by
  induction l generalizing start with
  | nil => cases hq
  | cons p l ih =>
    obtain ⟨-, hl⟩ := h
    rcases List.mem_cons.1 hq with rfl | hq
    · exact ⟨q :: l, ⟨rfl, hl⟩, le_rfl⟩
    · obtain ⟨l', hl', hle⟩ := ih hl hq
      exact ⟨l', hl', hle.trans (Nat.le_succ _)⟩

theorem Linked.nodup (h : Linked next start l) : l.Nodup := by
  induction l generalizing start with
  | nil => exact List.nodup_nil
  | cons p l ih =>
    obtain ⟨rfl, hl⟩ := h
    have hwhole : Linked next (some p) (p :: l) := ⟨rfl, hl⟩
    refine List.nodup_cons.2 ⟨fun hp => ?_, ih hl⟩
    obtain ⟨l', hl', hle⟩ := hl.from hp
    rw [hl'.unique hwhole] at hle
    exact Nat.not_succ_le_self _ hle

/-! ### The last node -/

theorem lastFrom_of_none (h : next p = none) : lastFrom next (n + 1) p = some p := by
  rw [lastFrom, h]

theorem lastFrom_of_some (h : next p = some q) : lastFrom next (n + 1) p = lastFrom next n q := by
  rw [lastFrom, h]

/-- From a node that comes again the loop never ends. -/
theorem lastFrom_circle (h : next p = some p) (n : ℕ) : lastFrom next n p = none := by
  induction n with
  | zero => rfl
  | succ n ih => rw [lastFrom_of_some h, ih]

theorem Linked.lastFrom (h : Linked next (some p) (l ++ [last])) (hn : l.length < n) :
    NextList.lastFrom next n p = some last := by
  induction n generalizing p l with
  | zero => exact absurd hn (Nat.not_lt_zero _)
  | succ n ih =>
    cases l with
    | nil =>
      obtain ⟨hp, hnone⟩ := h
      obtain rfl : p = last := Option.some.inj hp
      exact lastFrom_of_none hnone
    | cons r l =>
      obtain ⟨hp, hl⟩ := h
      obtain rfl : p = r := Option.some.inj hp
      cases hnext : next p with
      | none =>
        rw [hnext] at hl
        cases l <;> cases hl.1
      | some q =>
        rw [hnext] at hl
        rw [lastFrom_of_some hnext]
        exact ih hl (Nat.lt_of_succ_lt_succ hn)

theorem linked_of_lastFrom (h : lastFrom next n p = some last) : ∃ l, Linked next (some p) (l ++ [last]) := by
  induction n generalizing p with
  | zero => cases h
  | succ n ih =>
    cases hnext : next p with
    | none =>
      rw [lastFrom_of_none hnext] at h
      cases h
      exact ⟨[], rfl, hnext⟩
    | some q =>
      rw [lastFrom_of_some hnext] at h
      obtain ⟨l, hl⟩ := ih h
      exact ⟨p :: l, rfl, hnext ▸ hl⟩

/-- Among finitely many nodes as many tests as there are nodes are enough. -/
theorem lastFrom_card [Fintype P] (h : lastFrom next n p = some last) :
    lastFrom next (Fintype.card P) p = some last := by
  obtain ⟨l, hl⟩ := linked_of_lastFrom h
  have hcard := hl.nodup.length_le_card
  rw [List.length_append, List.length_singleton] at hcard
  exact hl.lastFrom hcard

/-- A node behind the last one. -/
theorem Linked.snoc [DecidableEq P] (h : Linked next start (l ++ [last])) (hnodup : (l ++ [last, q]).Nodup)
    (hq : next q = none) : Linked (Function.update next last (some q)) start (l ++ [last, q]) := by
  induction l generalizing start with
  | nil =>
    obtain ⟨hstart, -⟩ := h
    have hne : q ≠ last := by
      rintro rfl
      simp at hnodup
    refine ⟨hstart, Function.update_self .., ?_⟩
    rw [Linked, Function.update_of_ne hne, hq]
  | cons p l ih =>
    obtain ⟨hp, hl⟩ := h
    have hne : p ≠ last := by
      rintro rfl
      simp at hnodup
    refine ⟨hp, ?_⟩
    rw [Function.update_of_ne hne]
    exact ih hl (List.Nodup.of_cons hnodup)

/-! ### Nodes by their number -/

theorem Linked.getElem? (h : Linked next start l) (k : ℕ) :
    (fun ptr : Option P => ptr.bind next)^[k] start = l[k]? := by
  induction k generalizing start l with
  | zero =>
    cases l with
    | nil => exact h
    | cons p l => exact h.1
  | succ k ih =>
    cases l with
    | nil =>
      rw [show start = none from h, Function.iterate_succ_apply, Option.bind_none]
      exact ih (l := []) rfl
    | cons p l =>
      obtain ⟨rfl, hl⟩ := h
      rw [Function.iterate_succ_apply, Option.bind_some]
      exact ih hl

end NextList
