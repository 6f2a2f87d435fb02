import Mathlib.Data.List.Pairwise
import Mathlib.Order.Interval.Set.Disjoint
import Mathlib.Data.Set.Lattice
import Mathlib.Order.Bounds.Basic
import Mathlib.Order.CompletePartialOrder
import Mathlib.Order.Interval.Finset.Nat

/-!
# First fit over a set of used places, and the ledger of what it handed out

`Fits used lo hi n s`: the `n` places from `s` on are free and lie in `[lo, hi)`. A first-fit search
returns the least such `s`; `Fits.skip` says why it may jump past a used place and `not_fits_of_end`
why it may stop at `hi`.

`Ledger init used lo hi live` is the invariant of an allocator that handed out the blocks `live` from
a range whose used places were `init` to begin with.
-/

namespace FirstFit

/-- `n` free places from `s` on inside `[lo, hi)`. -/
structure Fits (used : ℕ → Prop) (lo hi n s : ℕ) : Prop where
  lo_le : lo ≤ s
  le_hi : s + n ≤ hi
  free : ∀ f, s ≤ f → f < s + n → ¬ used f

variable {used : ℕ → Prop} {lo hi n s : ℕ}

theorem Fits.mono_lo {lo' : ℕ} (h : Fits used lo hi n s) (hs : lo' ≤ s) : Fits used lo' hi n s :=
  ⟨hs, h.le_hi, h.free⟩

/-- What fits now has fitted when fewer places were used, and so has a shorter block. -/
theorem Fits.mono {used' : ℕ → Prop} {k : ℕ} (h : Fits used lo hi n s) (hu : ∀ f, used' f → used f) (hk : k ≤ n) :
    Fits used' lo hi k s :=
  ⟨h.lo_le, by have := h.le_hi; omega, fun f hs hf hused => h.free f hs (by omega) (hu f hused)⟩

/-- A fit that starts at `start` or later starts past a used place `start + i`, `i < n`. -/
theorem Fits.skip {start i : ℕ} (h : Fits used lo hi n s) (hs : start ≤ s) (hi : i < n)
    (hu : used (start + i)) : start + i + 1 ≤ s := by
  by_contra hlt
  exact h.free (start + i) (by omega) (by omega) hu

theorem not_fits_of_end {start i : ℕ} (hs : start ≤ s) (hin : i < n) (he : hi ≤ start + i) :
    ¬ Fits used lo hi n s := fun h => by
  have := h.le_hi
  omega

/-- Moving the start of the range past places where nothing fits keeps the set of fits. -/
theorem fits_iff_of_skip {lo' : ℕ} (hle : lo ≤ lo') (hskip : ∀ s, Fits used lo hi n s → lo' ≤ s) :
    Fits used lo hi n s ↔ Fits used lo' hi n s :=
  ⟨fun h => h.mono_lo (hskip s h), fun h => h.mono_lo (hle.trans h.lo_le)⟩

structure Block where
  start : ℕ
  len : ℕ
deriving DecidableEq, Repr

namespace Block

def places (b : Block) : Set ℕ := Set.Ico b.start (b.start + b.len)

@[simp] theorem mem_places {b : Block} {f : ℕ} :
    f ∈ b.places ↔ b.start ≤ f ∧ f < b.start + b.len := Iff.rfl

end Block

def held (live : List Block) : Set ℕ := {f | ∃ b ∈ live, f ∈ b.places}

theorem held_cons (b : Block) (live : List Block) : held (b :: live) = b.places ∪ held live := by
  ext f
  simp [held]

theorem held_mono {live live' : List Block} (h : live ⊆ live') : held live ⊆ held live' := by
  rintro f ⟨b, hb, hf⟩
  exact ⟨b, h hb, hf⟩

/-- The number of places of some blocks. -/
def total : List Block → ℕ
  | [] => 0
  | b :: live => b.len + total live

/-- Disjoint blocks of a finite set have no more places than the set. -/
theorem total_le_card {S : Finset ℕ} {live : List Block}
    (hdisj : live.Pairwise fun b c => Disjoint b.places c.places) (hsub : ∀ b ∈ live, ∀ f ∈ b.places, f ∈ S) :
    total live ≤ S.card := by
  induction live generalizing S with
  | nil => exact Nat.zero_le _
  | cons b live ih =>
    obtain ⟨hb, hlive⟩ := List.pairwise_cons.1 hdisj
    have hblock : Finset.Ico b.start (b.start + b.len) ⊆ S := fun f hf =>
      hsub b List.mem_cons_self f (Finset.mem_Ico.1 hf)
    have hrest := ih (S := S \ Finset.Ico b.start (b.start + b.len)) hlive fun c hc f hf =>
      Finset.mem_sdiff.2 ⟨hsub c (List.mem_cons_of_mem _ hc) f hf, fun hfb =>
        Set.disjoint_left.1 (hb c hc) (Finset.mem_Ico.1 hfb) hf⟩
    have hlen : (Finset.Ico b.start (b.start + b.len)).card = b.len := by
      rw [Nat.card_Ico, Nat.add_sub_cancel_left]
    have hsplit := Finset.card_sdiff_add_card_eq_card hblock
    rw [total]
    omega

/-- What an allocator over `[lo, hi)` keeps true of the blocks it has handed out: `init` is the set of
places used before it started, `used` the set of places used now. -/
structure Ledger (init used : Set ℕ) (lo hi : ℕ) (live : List Block) : Prop where
  disjoint : live.Pairwise fun b c => Disjoint b.places c.places
  inside : ∀ b ∈ live, lo ≤ b.start ∧ b.start + b.len ≤ hi
  pos : ∀ b ∈ live, 0 < b.len
  fresh : ∀ b ∈ live, Disjoint b.places init
  init_used : init ⊆ used
  live_used : ∀ b ∈ live, b.places ⊆ used

namespace Ledger
variable {init used used' : Set ℕ} {live : List Block} {b : Block}

theorem nil (init : Set ℕ) (lo hi : ℕ) : Ledger init init lo hi [] :=
  ⟨.nil, by simp, by simp, by simp, subset_rfl, by simp⟩

theorem alloc (h : Ledger init used lo hi live) (hpos : 0 < b.len)
    (hb : Fits (· ∈ used) lo hi b.len b.start) :
    Ledger init (used ∪ b.places) lo hi (b :: live) := by
  have hfree : Disjoint b.places used := Set.disjoint_left.2 fun f hf => hb.free f hf.1 hf.2
  refine ⟨List.pairwise_cons.2 ⟨fun c hc => ?_, h.disjoint⟩, ?_, ?_, ?_, ?_, ?_⟩
  · exact hfree.mono_right (h.live_used c hc)
  · rintro c hc
    rcases List.mem_cons.1 hc with rfl | hc
    · exact ⟨hb.lo_le, hb.le_hi⟩
    · exact h.inside c hc
  · rintro c hc
    rcases List.mem_cons.1 hc with rfl | hc
    · exact hpos
    · exact h.pos c hc
  · rintro c hc
    rcases List.mem_cons.1 hc with rfl | hc
    · exact hfree.mono_right h.init_used
    · exact h.fresh c hc
  · exact h.init_used.trans Set.subset_union_left
  · rintro c hc
    rcases List.mem_cons.1 hc with rfl | hc
    · exact Set.subset_union_right
    · exact (h.live_used c hc).trans Set.subset_union_left

/-- Taking a block back, as long as no place that is still needed becomes unused. -/
theorem release (h : Ledger init used lo hi live) (hinit : init ⊆ used')
    (hlive : held (live.erase b) ⊆ used') : Ledger init used' lo hi (live.erase b) := by
  have hsub : live.erase b ⊆ live := List.erase_subset
  exact ⟨h.disjoint.sublist List.erase_sublist, fun c hc => h.inside c (hsub hc),
    fun c hc => h.pos c (hsub hc), fun c hc => h.fresh c (hsub hc), hinit,
    fun c hc f hf => hlive ⟨c, hc, hf⟩⟩

/-- A place belongs to one block only. -/
theorem eq_of_mem (h : Ledger init used lo hi live) {c : Block} {f : ℕ} (hb : b ∈ live) (hc : c ∈ live)
    (hfb : f ∈ b.places) (hfc : f ∈ c.places) : b = c := by
  by_contra hne
  have : Std.Symm fun b c : Block => Disjoint b.places c.places := ⟨fun _ _ h => h.symm⟩
  exact Set.disjoint_left.1 (h.disjoint.forall hb hc hne) hfb hfc

theorem held_subset (h : Ledger init used lo hi live) : held live ⊆ used := by
  rintro f ⟨b, hb, hf⟩
  exact h.live_used b hb hf

/-- The first place of a live block belongs to no other live block and was unused to begin with. -/
theorem start_not_mem (h : Ledger init used lo hi live) (hb : b ∈ live) :
    b.start ∉ init ∪ held (live.erase b) := by
  have hmem : b.start ∈ b.places := ⟨le_rfl, by have := h.pos b hb; omega⟩
  have hperm := (List.perm_cons_erase hb).pairwise_iff (R := fun b c => Disjoint b.places c.places)
    (fun h => h.symm)
  rintro (hi | ⟨c, hc, hf⟩)
  · exact Set.disjoint_left.1 (h.fresh b hb) hmem hi
  · have hd := (List.pairwise_cons.1 (hperm.1 h.disjoint)).1 c hc
    exact Set.disjoint_left.1 hd hmem hf

end Ledger

end FirstFit
