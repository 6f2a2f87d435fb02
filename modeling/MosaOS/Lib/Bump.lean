import MosaOS.Lib.FirstFit

/-!
# Bump allocation

`Consecutive lo bs hi`: the blocks `bs` stand one after another and fill `[lo, hi)`, as the blocks of an
allocator do that only moves a break upwards.
-/

namespace Bump
open FirstFit

def Consecutive : ℕ → List Block → ℕ → Prop
  | lo, [], hi => lo = hi
  | lo, b :: bs, hi => b.start = lo ∧ Consecutive (lo + b.len) bs hi

namespace Consecutive
variable {lo mid hi : ℕ} {bs : List Block} {b : Block}

theorem snoc (h : Consecutive lo bs b.start) : Consecutive lo (bs ++ [b]) (b.start + b.len) := by
  induction bs generalizing lo with
  | nil => exact ⟨h.symm, by rw [show lo = b.start from h]; rfl⟩
  | cons c bs ih => exact ⟨h.1, ih h.2⟩

theorem le (h : Consecutive lo bs hi) : lo ≤ hi := by
  induction bs generalizing lo with
  | nil => exact h.le
  | cons c bs ih => exact (Nat.le_add_right _ _).trans (ih h.2)

theorem inside (h : Consecutive lo bs hi) (hb : b ∈ bs) : lo ≤ b.start ∧ b.start + b.len ≤ hi := by
  induction bs generalizing lo with
  | nil => cases hb
  | cons c bs ih =>
    obtain ⟨rfl, h⟩ := h
    rcases List.mem_cons.1 hb with rfl | hb
    · exact ⟨le_rfl, h.le⟩
    · obtain ⟨h1, h2⟩ := ih h hb
      exact ⟨(Nat.le_add_right _ _).trans h1, h2⟩

theorem pairwise_disjoint (h : Consecutive lo bs hi) :
    bs.Pairwise fun b c => Disjoint b.places c.places := by
  induction bs generalizing lo with
  | nil => exact .nil
  | cons c bs ih =>
    obtain ⟨rfl, h⟩ := h
    refine List.pairwise_cons.2 ⟨fun d hd => ?_, ih h⟩
    exact Set.disjoint_left.2 fun f hf hf' => absurd hf'.1 (not_le.2 (hf.2.trans_le (h.inside hd).1))

theorem isChain (h : Consecutive lo bs hi) : bs.IsChain fun b c => b.start + b.len = c.start := by
  induction bs generalizing lo with
  | nil => exact .nil
  | cons c bs ih =>
    obtain ⟨rfl, h⟩ := h
    cases bs with
    | nil => exact .singleton _
    | cons d bs => exact .cons_cons h.1.symm (ih h)

end Consecutive

end Bump
