import MosaOS.Heap
import Mathlib.Data.List.Induction
import Mathlib.Algebra.Ring.Int.Defs

/-!
# What `sbrk` grants

After a successful `InitializeHeap` the heap is `[lo, hi)`. `SbrkLaw` is what a caller like `malloc`
takes `sbrk` to do: every break in `[lo, hi]` can be reached and no other. The comparison of the source
is `>=`, it has no lower bound, and the break `0` stands for a heap that was never set, so the law fails
in three kinds of calls: `sbrkLaw_iff` is about one call and `sbrk_law_iff` about whole runs.
-/

namespace MosaOS
open FirstFit BitmapMemoryManager

namespace BitmapMemoryManager
variable {getBit : FrameID → Option Bool} {rangeEnd num start s : SizeT}

/-- A block that the search returns lies below `rangeEnd`, whatever the bitmap. -/
theorem search_le (h : search getBit rangeEnd num start = some (some s)) (hn : num ≠ 0) :
    s.toNat + num.toNat ≤ rangeEnd.toNat := by
  fun_induction search getBit rangeEnd num start with
  | case1 => cases h
  | case2 => cases h
  | case3 start hscan =>
    cases h
    cases scan_spec hscan (by bv_omega) (by bv_omega) with
    | used _ hi => omega
    | fits _ _ he => exact he (by bv_omega)
  | case4 start i hscan hi ih => exact ih h

end BitmapMemoryManager

namespace Heap
variable {h h' : Heap} {e : Error} {lo hi : ℕ} {incr : BitVec 32} {incrs : List (BitVec 32)}

/-- The bounds of the heap: `kHeapFrames` frames of the bitmap. -/
structure Bounds (lo hi : ℕ) : Prop where
  size : hi = lo + kHeapFrames.toNat * 4096
  top : hi ≤ kFrameCount * 4096

theorem initializeHeap_bounds (hinit : initializeHeap h = some (e, h')) (he : e.toBool = false) :
    Bounds h'.programBreak.toNat h'.programBreakEnd.toNat := by
  obtain ⟨⟨r, mm⟩, halloc, hrest⟩ := Option.bind_eq_some_iff.1 hinit
  unfold BitmapMemoryManager.allocate at halloc
  split at halloc
  · cases halloc
  · rename_i hsearch
    cases halloc
    cases hrest
    cases he
  · rename_i s hsearch
    obtain ⟨mm', hmark, hpair⟩ := Option.map_eq_some_iff.1 halloc
    obtain ⟨rfl, rfl⟩ := Prod.mk.inj hpair
    cases hrest
    have hle := search_le hsearch (by decide)
    have hframes : kHeapFrames.toNat = 32768 := rfl
    have hcount : kFrameCount = 2 ^ 25 := rfl
    have hrange := h.mm.rangeEnd.id.isLt
    -- the last frame of the block is in the bitmap, or `MarkAllocated` had left it
    have hlast : (s + BitVec.ofNat 64 32767).toNat < kFrameCount :=
      (markAllocated_isSome_iff h.mm ⟨s⟩ kHeapFrames).1
        (Option.isSome_iff_exists.2 ⟨mm', hmark⟩) 32767 (by decide)
    rw [BitVec.toNat_add, show (BitVec.ofNat 64 32767).toNat = 32767 from rfl,
      Nat.mod_eq_of_lt (by omega)] at hlast
    have hbreak : (s * kBytesPerFrame).toNat = s.toNat * 4096 := by
      rw [BitVec.toNat_mul, show kBytesPerFrame.toNat = 4096 from rfl]
      omega
    have hend : (s * kBytesPerFrame + kHeapFrames * kBytesPerFrame).toNat =
        s.toNat * 4096 + 32768 * 4096 := by
      rw [BitVec.toNat_add, hbreak, show (kHeapFrames * kBytesPerFrame).toNat = 32768 * 4096 from rfl]
      omega
    exact ⟨by rw [hend, hbreak, hframes], by rw [hend]; omega⟩

/-! ### One call -/

/-- The break a call asks for. -/
def target (h : Heap) (incr : BitVec 32) : ℤ := h.programBreak.toNat + incr.toInt

/-- One call as its callers expect it. -/
def SbrkLaw (lo hi : ℕ) (h : Heap) (incr : BitVec 32) : Prop :=
  if lo ≤ h.target incr ∧ h.target incr ≤ hi then
    (h.sbrk incr).1 = h.programBreak ∧ (h.sbrk incr).2.programBreak.toNat = h.target incr
  else (h.sbrk incr).1 = -1 ∧ (h.sbrk incr).2.programBreak = h.programBreak

/-- The calls that keep to the law: they do not ask for the end of the heap nor for a break below it,
and where the heap begins at address 0 they are refused by right. -/
structure Regular (lo hi : ℕ) (h : Heap) (incr : BitVec 32) : Prop where
  not_full : h.target incr ≠ hi
  not_below : ¬ (0 ≤ h.target incr ∧ h.target incr < lo)
  set : lo ≤ h.target incr → h.target incr ≤ hi → h.programBreak ≠ 0

/-- What the comparison of `sbrk` sees: the sum wraps below 0 only. -/
theorem toNat_add_incr (hbreak : h.programBreak.toNat ≤ kFrameCount * 4096) (incr : BitVec 32) :
    ((h.programBreak + incr.signExtend 64).toNat : ℤ) =
      if h.target incr < 0 then h.target incr + 2 ^ 64 else h.target incr := by
  have hcount : kFrameCount = 2 ^ 25 := rfl
  have hincr : (incr.signExtend 64).toInt = incr.toInt := BitVec.toInt_signExtend_of_le (by decide)
  have hsum : (h.programBreak.toNat + (incr.signExtend 64).toNat : ℤ) =
      if incr.toInt < 0 then h.target incr + 2 ^ 64 else h.target incr := by
    rw [target, ← hincr, BitVec.toInt_eq_toNat_cond]
    have := (incr.signExtend 64).isLt
    split <;> split <;> omega
  have h1 := BitVec.toInt_lt (x := incr)
  have h2 := BitVec.le_toInt (x := incr)
  rw [BitVec.toNat_add]
  unfold target at hsum ⊢
  split at hsum <;> split <;> omega

theorem sbrk_cases (hbreak : h.programBreak.toNat ≤ kFrameCount * 4096)
    (hend : h.programBreakEnd.toNat = hi) (htop : hi ≤ kFrameCount * 4096) (incr : BitVec 32) :
    (h.sbrk incr).2.programBreakEnd = h.programBreakEnd ∧
    (((h.sbrk incr).1 = -1 ∧ (h.sbrk incr).2.programBreak = h.programBreak ∧
      (h.programBreak = 0 ∨ h.target incr < 0 ∨ hi ≤ h.target incr)) ∨
    ((h.sbrk incr).1 = h.programBreak ∧ (h.sbrk incr).2.programBreak.toNat = h.target incr ∧
      h.programBreak ≠ 0 ∧ 0 ≤ h.target incr ∧ h.target incr < hi)) := by
  have hsum := toNat_add_incr hbreak incr
  have hcount : kFrameCount = 2 ^ 25 := rfl
  have hlow : -2 ^ 31 ≤ h.target incr := by
    have := BitVec.le_toInt (x := incr)
    unfold target
    omega
  unfold sbrk
  split
  · rename_i hno
    refine ⟨rfl, Or.inl ⟨rfl, rfl, ?_⟩⟩
    rcases hno with hzero | hge
    · exact Or.inl hzero
    · rw [ge_iff_le, BitVec.le_def, hend] at hge
      split at hsum <;> omega
  · rename_i hyes
    obtain ⟨hzero, hlt⟩ := not_or.1 hyes
    rw [ge_iff_le, BitVec.not_le, BitVec.lt_def, hend] at hlt
    have hpos : ¬ h.target incr < 0 := by
      intro hneg
      rw [if_pos hneg] at hsum
      omega
    rw [if_neg hpos] at hsum
    exact ⟨rfl, Or.inr ⟨rfl, hsum, hzero, by omega, by omega⟩⟩

theorem sbrkLaw_iff (hb : Bounds lo hi) (hlo : lo ≤ h.programBreak.toNat)
    (hhi : h.programBreak.toNat ≤ hi) (hend : h.programBreakEnd.toNat = hi) :
    SbrkLaw lo hi h incr ↔ Regular lo hi h incr := by
  have htop := hb.top
  have hcount : kFrameCount = 2 ^ 25 := rfl
  have hne : h.programBreak ≠ -1 := by
    intro heq
    rw [heq] at hhi
    have : (-1 : SizeT).toNat = 2 ^ 64 - 1 := by decide
    omega
  have hsize := hb.size
  have hframes : kHeapFrames.toNat = 32768 := rfl
  unfold SbrkLaw
  rcases (sbrk_cases (hhi.trans htop) hend htop incr).2 with
    ⟨hret, hsame, hwhy⟩ | ⟨hret, hmove, hset, hpos, hlt⟩
  · -- refused: by right unless the target lies in the heap
    rw [hret, hsame]
    split
    · rename_i hin
      refine iff_of_false (fun h => hne h.1.symm) fun hreg => ?_
      have := hreg.not_full
      have := hreg.set hin.1 hin.2
      rcases hwhy with hzero | hneg | hge
      · exact this hzero
      · omega
      · omega
    · rename_i hout
      refine iff_of_true ⟨rfl, rfl⟩ ⟨?_, ?_, fun h1 h2 => absurd ⟨h1, h2⟩ hout⟩
      · omega
      · rintro ⟨h1, h2⟩
        rcases hwhy with hzero | hneg | hge
        · rw [hzero] at hlo
          have : lo = 0 := Nat.le_zero.1 hlo
          omega
        · omega
        · omega
  · -- granted: by right unless the target lies below the heap
    rw [hret]
    split
    · rename_i hin
      exact iff_of_true ⟨rfl, hmove⟩ ⟨by omega, by omega, fun _ _ => hset⟩
    · rename_i hout
      refine iff_of_false (fun h => hne h.1) fun hreg => ?_
      have := hreg.not_below
      omega

/-! ### Runs -/

def sbrkRun (h : Heap) (incrs : List (BitVec 32)) : Heap := incrs.foldl (fun h incr => (h.sbrk incr).2) h

/-- The heap `[lo, hi)` in the middle of a run that kept to the law. -/
structure InHeap (lo hi : ℕ) (h : Heap) : Prop where
  bounds : Bounds lo hi
  lo_le : lo ≤ h.programBreak.toNat
  le_hi : h.programBreak.toNat ≤ hi
  breakEnd : h.programBreakEnd.toNat = hi

theorem InHeap.sbrkLaw_iff (hin : InHeap lo hi h) (incr : BitVec 32) :
    SbrkLaw lo hi h incr ↔ Regular lo hi h incr :=
  Heap.sbrkLaw_iff hin.bounds hin.lo_le hin.le_hi hin.breakEnd

theorem InHeap.sbrk (hin : InHeap lo hi h) (hlaw : SbrkLaw lo hi h incr) :
    InHeap lo hi (h.sbrk incr).2 := by
  obtain ⟨hend, -⟩ :=
    sbrk_cases (hin.le_hi.trans hin.bounds.top) hin.breakEnd hin.bounds.top incr
  have hlo := hin.lo_le
  have hhi := hin.le_hi
  unfold SbrkLaw at hlaw
  refine ⟨hin.bounds, ?_, ?_, by rw [hend]; exact hin.breakEnd⟩
  · split at hlaw
    · omega
    · rw [hlaw.2]
      exact hlo
  · split at hlaw
    · omega
    · rw [hlaw.2]
      exact hhi

theorem InHeap.run (hin : InHeap lo hi h)
    (hlaw : ∀ pre incr post, incrs = pre ++ incr :: post → InHeap lo hi (h.sbrkRun pre) →
      SbrkLaw lo hi (h.sbrkRun pre) incr) : InHeap lo hi (h.sbrkRun incrs) := by
  induction incrs using List.reverseRecOn with
  | nil => exact hin
  | append_singleton incrs incr ih =>
    have hprev : InHeap lo hi (h.sbrkRun incrs) := ih fun pre incr' post heq =>
      hlaw pre incr' (post ++ [incr]) (by rw [heq]; simp)
    have hstep := hprev.sbrk (hlaw incrs incr [] rfl hprev)
    rw [sbrkRun, List.foldl_append]
    exact hstep

/-- Every call of a run keeps to the law, and the break to the heap, exactly when every call is
`Regular` in the state before it. -/
theorem sbrk_law_iff (h₀ h : Heap) (e : Error) (hinit : initializeHeap h₀ = some (e, h))
    (he : e.toBool = false) (incrs : List (BitVec 32)) :
    ((∀ pre incr post, incrs = pre ++ incr :: post →
        SbrkLaw h.programBreak.toNat h.programBreakEnd.toNat (h.sbrkRun pre) incr) ∧
      ∀ pre post, incrs = pre ++ post → h.programBreak.toNat ≤ (h.sbrkRun pre).programBreak.toNat ∧
        (h.sbrkRun pre).programBreak.toNat ≤ h.programBreakEnd.toNat) ↔
    ∀ pre incr post, incrs = pre ++ incr :: post →
      Regular h.programBreak.toNat h.programBreakEnd.toNat (h.sbrkRun pre) incr := by
  have hb := initializeHeap_bounds hinit he
  have hsize := hb.size
  have hin : InHeap h.programBreak.toNat h.programBreakEnd.toNat h := ⟨hb, le_rfl, by omega, rfl⟩
  generalize h.programBreak.toNat = lo at hb hin ⊢
  generalize h.programBreakEnd.toNat = hi at hb hin ⊢
  constructor
  · rintro ⟨hlaw, -⟩ pre incr post heq
    have hpre : InHeap lo hi (h.sbrkRun pre) := hin.run fun pre' incr' post' heq' _ =>
      hlaw pre' incr' (post' ++ incr :: post) (by rw [heq, heq']; simp)
    exact (hpre.sbrkLaw_iff _).1 (hlaw pre incr post heq)
  · intro hreg
    have hall : ∀ pre post, incrs = pre ++ post → InHeap lo hi (h.sbrkRun pre) :=
      fun pre post heq => hin.run fun pre' incr' post' heq' hpre =>
        (hpre.sbrkLaw_iff _).2 (hreg pre' incr' (post' ++ post) (by rw [heq, heq']; simp))
    refine ⟨fun pre incr post heq => ?_, fun pre post heq => ?_⟩
    · exact ((hall pre _ heq).sbrkLaw_iff _).2 (hreg pre incr post heq)
    · exact ⟨(hall pre post heq).lo_le, (hall pre post heq).le_hi⟩

/-! ### The heap of 128 MiB from frame 1 on -/

theorem initializeHeap_roomy : ∃ h, initializeHeap roomy = some (makeError .kSuccess 82, h) ∧
    h.programBreak.toNat = 0x1000 ∧ h.programBreakEnd.toNat = 0x8001000 := by
  obtain ⟨e, h, hinit, hspec⟩ := initializeHeap_spec (h := roomy) (by decide)
  cases hspec with
  | failed hfit => exact absurd roomy_fits (hfit 1)
  | reserved p h hfit hm hbreak hend =>
    have hlo : 1 ≤ p := hfit.1.lo_le
    obtain rfl : p = 1 := le_antisymm (hfit.2 roomy_fits) hlo
    exact ⟨h, hinit, hbreak, hend⟩

theorem sbrk_law_iff_roomy : ∃ h, initializeHeap roomy = some (makeError .kSuccess 82, h) ∧
    SbrkLaw 0x1000 0x8001000 h 16 := by
  obtain ⟨h, hinit, hlo, hhi⟩ := initializeHeap_roomy
  have hlaw := (sbrk_law_iff roomy h _ hinit rfl [16]).2 fun pre incr post heq => by
    obtain ⟨rfl, rfl, -⟩ : pre = [] ∧ incr = 16 ∧ post = [] := by
      rcases pre with _ | ⟨a, _ | ⟨b, pre⟩⟩ <;> simp_all
    have htarget : h.target 16 = 0x1010 := by
      unfold target
      rw [hlo]
      rfl
    have hset : h.programBreak ≠ 0 := by
      intro hzero
      rw [hzero] at hlo
      exact absurd hlo (by decide)
    refine ⟨?_, ?_, fun _ _ => hset⟩
    · rw [show h.sbrkRun [] = h from rfl, htarget, hhi]
      decide
    · rw [show h.sbrkRun [] = h from rfl, htarget, hlo]
      decide
  have hfirst := hlaw.1 [] 16 [] rfl
  rw [hlo, hhi] at hfirst
  exact ⟨h, hinit, hfirst⟩

/-- `sbrk` refuses the whole heap, and hands out a break below its start. -/
theorem sbrk_breaks_law : ∃ h, initializeHeap roomy = some (makeError .kSuccess 82, h) ∧
    h.programBreak.toNat = 0x1000 ∧ h.programBreakEnd.toNat = 0x8001000 ∧
    ¬ SbrkLaw 0x1000 0x8001000 h 0x8000000 ∧ ¬ SbrkLaw 0x1000 0x8001000 h (-1) := by
  obtain ⟨h, hinit, hlo, hhi⟩ := initializeHeap_roomy
  have hb := initializeHeap_bounds hinit rfl
  rw [hlo, hhi] at hb
  have hin : InHeap 0x1000 0x8001000 h := ⟨hb, hlo.ge, by rw [hlo]; decide, hhi⟩
  have hfull : h.target 0x8000000 = 0x8001000 := by
    unfold target
    rw [hlo]
    rfl
  have hbelow : h.target (-1) = 0xfff := by
    unfold target
    rw [hlo]
    rfl
  refine ⟨h, hinit, hlo, hhi, ?_, ?_⟩
  · rw [hin.sbrkLaw_iff]
    exact fun hreg => hreg.not_full (by rw [hfull]; simp)
  · rw [hin.sbrkLaw_iff]
    exact fun hreg => hreg.not_below (by rw [hbelow]; decide)

end Heap
end MosaOS
