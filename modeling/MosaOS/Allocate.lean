import MosaOS.FrameSet
import MosaOS.Lib.FirstFit

/-!
# `Allocate` is first fit

`search_spec`: the two nested loops of `Allocate` return the least frame from which `numFrames` free
frames lie in the range, or nothing when there is none. The induction follows the jumps of the outer
loop: `Fits.skip` shows that no start that is jumped over could have fitted. The loops are stated over
an arbitrary `getBit`, so that `search_congr` can say which bits they read.
-/

namespace MosaOS.BitmapMemoryManager
open FirstFit

variable {getBit getBit' : FrameID → Option Bool} {rangeEnd num start : SizeT} {U : Set ℕ}

/-- `getBit` answers below `rangeEnd`, and says there whether the frame is in `U`. -/
def Answers (getBit : FrameID → Option Bool) (rangeEnd : SizeT) (U : Set ℕ) : Prop :=
  ∀ f : FrameID, f.id < rangeEnd → ∃ b, getBit f = some b ∧ (b = true ↔ f.id.toNat ∈ U)

namespace Answers

theorem iff_mem (h : Answers getBit rangeEnd U) {k : ℕ} (hk : k < rangeEnd.toNat) {b : Bool}
    (hb : getBit ⟨BitVec.ofNat 64 k⟩ = some b) : b = true ↔ k ∈ U := by
  have hid : (BitVec.ofNat 64 k).toNat = k := by
    rw [BitVec.toNat_ofNat]; exact Nat.mod_eq_of_lt (by omega)
  obtain ⟨b', hb', hU⟩ := h ⟨BitVec.ofNat 64 k⟩ (by rw [BitVec.lt_def, hid]; exact hk)
  rw [hid] at hU
  rw [hb, Option.some_inj] at hb'
  rwa [hb']

theorem of_true (h : Answers getBit rangeEnd U) {k : ℕ} (hk : k < rangeEnd.toNat)
    (hb : getBit ⟨BitVec.ofNat 64 k⟩ = some true) : k ∈ U := (h.iff_mem hk hb).1 rfl

theorem of_false (h : Answers getBit rangeEnd U) {k : ℕ} (hk : k < rangeEnd.toNat)
    (hb : getBit ⟨BitVec.ofNat 64 k⟩ = some false) : k ∉ U := fun hU =>
  Bool.false_ne_true ((h.iff_mem hk hb).2 hU)

end Answers

/-! ### What the loops read -/

theorem scan_total (h : Answers getBit rangeEnd U) (i : SizeT) :
    ∃ r, scan getBit rangeEnd start num i = some r := by
  fun_induction scan getBit rangeEnd start num i with
  | case1 => exact ⟨_, rfl⟩
  | case2 i hlt hend hbit =>
    obtain ⟨b, hb, -⟩ := h ⟨start + i⟩ (BitVec.not_le.1 hend)
    rw [hbit] at hb
    cases hb
  | case3 => exact ⟨_, rfl⟩
  | case4 i hlt hend hbit ih => exact ih
  | case5 => exact ⟨_, rfl⟩

theorem search_total (h : Answers getBit rangeEnd U) (start : SizeT) :
    ∃ r, search getBit rangeEnd num start = some r := by
  fun_induction search getBit rangeEnd num start with
  | case1 start hscan =>
    obtain ⟨r, hr⟩ : ∃ r, scan getBit rangeEnd start num 0 = some r := scan_total h 0
    rw [hscan] at hr
    cases hr
  | case2 => exact ⟨_, rfl⟩
  | case3 => exact ⟨_, rfl⟩
  | case4 start i hscan hi ih => exact ih

theorem scan_congr (h : ∀ f : FrameID, f.id < rangeEnd → getBit' f = getBit f) (i : SizeT) :
    scan getBit' rangeEnd start num i = scan getBit rangeEnd start num i := by
  fun_induction scan getBit rangeEnd start num i with
  | case1 i hlt hend => rw [scan, if_pos hlt, if_pos hend]
  | case2 i hlt hend hbit =>
    rw [scan, if_pos hlt, if_neg hend, h ⟨start + i⟩ (BitVec.not_le.1 hend), hbit]
  | case3 i hlt hend hbit =>
    rw [scan, if_pos hlt, if_neg hend, h ⟨start + i⟩ (BitVec.not_le.1 hend), hbit]
  | case4 i hlt hend hbit ih =>
    rw [scan, if_pos hlt, if_neg hend, h ⟨start + i⟩ (BitVec.not_le.1 hend), hbit]
    exact ih
  | case5 i hge => rw [scan, if_neg hge]

/-- `search` without the proofs that its termination asks for. -/
theorem search_eq (getBit : FrameID → Option Bool) (rangeEnd num start : SizeT) :
    search getBit rangeEnd num start =
      match scan getBit rangeEnd start num 0 with
      | none => none
      | some .outOfRange => some none
      | some (.stopped i) =>
        if i = num then some (some start) else search getBit rangeEnd num (start + (i + 1)) := by
  rw [search]
  split <;> simp_all

/-- The search depends on no bit at or above `rangeEnd`, and asks for none: `getBit'` may well be
`none` there. -/
theorem search_congr (h : ∀ f : FrameID, f.id < rangeEnd → getBit' f = getBit f) (start : SizeT) :
    search getBit' rangeEnd num start = search getBit rangeEnd num start := by
  fun_induction search getBit rangeEnd num start with
  | case1 start hscan => rw [search_eq, scan_congr h, hscan]
  | case2 start hscan => rw [search_eq, scan_congr h, hscan]
  | case3 start hscan => rw [search_eq, scan_congr h, hscan]; exact if_pos rfl
  | case4 start i hscan hi ih => rw [search_eq, scan_congr h, hscan]; exact (if_neg hi).trans ih

/-! ### What the loops find -/

/-- What the search means for the set of used frames. -/
def SearchSpec (U : Set ℕ) (start rangeEnd num : SizeT) : Option SizeT → Prop
  | none => ∀ s, ¬ Fits (· ∈ U) start.toNat rangeEnd.toNat num.toNat s
  | some s => IsLeast {s | Fits (· ∈ U) start.toNat rangeEnd.toNat num.toNat s} s.toNat

theorem search_spec (h : Answers getBit rangeEnd U) (hn : num ≠ 0) (start : SizeT)
    {r : Option SizeT} (hr : search getBit rangeEnd num start = some r) :
    SearchSpec U start rangeEnd num r := by
  have hpos : 0 < num.toNat := by bv_omega
  fun_induction search getBit rangeEnd num start with
  | case1 => cases hr
  | case2 start hscan =>
    cases hr
    obtain ⟨i, hi, he⟩ := scan_spec hscan (by bv_omega) (by bv_omega)
    intro s hs
    exact not_fits_of_end hs.lo_le hi he hs
  | case3 start hscan =>
    cases hr
    cases scan_spec hscan (by bv_omega) (by bv_omega) with
    | used _ hi => omega
    | fits _ _ he hfree =>
      have hle : start.toNat + num.toNat ≤ rangeEnd.toNat := he hpos
      refine ⟨⟨le_rfl, hle, fun f h1 h2 => ?_⟩, fun s hs => hs.lo_le⟩
      have hf : f = start.toNat + (f - start.toNat) := by omega
      rw [hf]
      exact h.of_false (by omega) (hfree _ (Nat.zero_le _) (by omega))
  | case4 start i hscan hi ih =>
    obtain ⟨hlt, hjump⟩ := scan_jump hscan hi
    -- the used frame `start + i` rules out every start that is jumped over
    have hused : start.toNat + i.toNat ∈ U ∧ i.toNat < num.toNat := by
      cases scan_spec hscan (by bv_omega) (by bv_omega) with
      | used _ hin _ _ hb => exact ⟨h.of_true hlt hb, hin⟩
      | fits _ hin => exact absurd (BitVec.eq_of_toNat_eq hin) hi
    have hskip : ∀ s, Fits (· ∈ U) start.toNat rangeEnd.toNat num.toNat s →
        (start + (i + 1)).toNat ≤ s := fun s hs => by
      have := hs.skip hs.lo_le hused.2 hused.1
      omega
    have hiff := fun s => fits_iff_of_skip (s := s) (by omega) hskip
    have hrest := ih hr
    cases r with
    | none => exact fun s hs => hrest s ((hiff s).1 hs)
    | some s => exact ⟨(hiff _).2 hrest.1, fun t ht => hrest.2 ((hiff t).1 ht)⟩

/-! ### `Allocate` -/

variable {mm mm' : BitmapMemoryManager}

/-- A block of `n` free frames from `s` on inside the range of the manager. -/
abbrev FitsIn (mm : BitmapMemoryManager) (n : SizeT) (s : ℕ) : Prop :=
  Fits (· ∈ mm.used) mm.rangeBegin.id.toNat mm.rangeEnd.id.toNat n.toNat s

theorem answers (hr : mm.rangeEnd.id.toNat ≤ kFrameCount) :
    Answers mm.getBit mm.rangeEnd.id mm.used := fun f hf => by
  have hlt : f.id.toNat < kFrameCount := by
    rw [BitVec.lt_def] at hf
    omega
  exact ⟨_, getBit_eq mm hlt, mem_used.symm⟩

inductive AllocateSpec (mm : BitmapMemoryManager) (n : SizeT) :
    WithError FrameID → BitmapMemoryManager → Prop
  | noEnoughMemory (hfit : ∀ s, ¬ mm.FitsIn n s) :
    AllocateSpec mm n ⟨kNullFrame, makeError .kNoEnoughMemory 46⟩ mm
  | success (s : FrameID) (mm' : BitmapMemoryManager)
    (hfit : IsLeast {s | mm.FitsIn n s} s.id.toNat)
    (hmm : Marked mm mm' (Set.Ico s.id.toNat (s.id.toNat + n.toNat))) :
    AllocateSpec mm n ⟨s, makeError .kSuccess 56⟩ mm'

theorem allocate_spec (hr : mm.rangeEnd.id.toNat ≤ kFrameCount) {n : SizeT} (hn : n ≠ 0) :
    ∃ r mm', mm.allocate n = some (r, mm') ∧ AllocateSpec mm n r mm' := by
  obtain ⟨r, hsearch⟩ : ∃ r, search mm.getBit mm.rangeEnd.id n mm.rangeBegin.id = some r :=
    search_total (answers hr) _
  have hspec := search_spec (answers hr) hn _ hsearch
  unfold allocate
  rw [hsearch]
  cases r with
  | none => exact ⟨_, _, rfl, .noEnoughMemory hspec⟩
  | some s =>
    have hle := hspec.1.le_hi
    obtain ⟨mm', hmark, hm⟩ := mm.markAllocated_spec (s := ⟨s⟩) (n := n) (by
      show s.toNat + n.toNat ≤ _
      omega)
    refine ⟨_, mm', ?_, .success ⟨s⟩ mm' hspec hm⟩
    show (mm.markAllocated ⟨s⟩ n).map _ = _
    rw [hmark]
    rfl

theorem AllocateSpec.of_allocate (hr : mm.rangeEnd.id.toNat ≤ kFrameCount) {n : SizeT} (hn : n ≠ 0)
    {r : WithError FrameID} (h : mm.allocate n = some (r, mm')) : AllocateSpec mm n r mm' := by
  obtain ⟨r', mm'', h', hspec⟩ := allocate_spec hr hn
  rw [h] at h'
  cases h'
  exact hspec

/-- The block with the least start that fits is the one that `Allocate` returns. -/
theorem allocate_of_isLeast (hr : mm.rangeEnd.id.toNat ≤ kFrameCount) {n : SizeT} (hn : n ≠ 0) {t : ℕ}
    (hfit : IsLeast {s | mm.FitsIn n s} t) :
    ∃ mm', mm.allocate n = some (⟨⟨BitVec.ofNat 64 t⟩, makeError .kSuccess 56⟩, mm') ∧
      Marked mm mm' (Set.Ico t (t + n.toNat)) := by
  obtain ⟨r, mm', h, hspec⟩ := allocate_spec hr hn
  cases hspec with
  | noEnoughMemory hnone => exact absurd hfit.1 (hnone t)
  | success s mm' hleast hm =>
    obtain rfl := hleast.unique hfit
    rw [BitVec.ofNat_toNat, BitVec.setWidth_eq]
    exact ⟨mm', h, hm⟩

namespace AllocateSpec
variable {n : SizeT} {r : WithError FrameID}

theorem rangeEnd_eq (h : AllocateSpec mm n r mm') : mm'.rangeEnd = mm.rangeEnd := by
  cases h with
  | noEnoughMemory => rfl
  | success s mm' hfit hm => exact hm.rangeEnd

theorem used_subset (h : AllocateSpec mm n r mm') : mm.used ⊆ mm'.used := by
  cases h with
  | noEnoughMemory => exact subset_rfl
  | success s mm' hfit hm =>
    rw [hm.used]
    exact Set.subset_union_left

theorem disjoint_used (h : AllocateSpec mm n r mm') (hok : r.error.toBool = false) :
    Disjoint (Set.Ico r.value.id.toNat (r.value.id.toNat + n.toNat)) mm.used := by
  cases h with
  | noEnoughMemory => cases hok
  | success s mm' hfit hm => exact Set.disjoint_left.2 fun f hf => hfit.1.free f hf.1 hf.2

end AllocateSpec

/-- `Allocate` is exactly first fit: it returns, having asked for no bit at or above the end of the
range (a `getBit` that is `none` there gives the same search); it succeeds exactly when a block fits,
with the least start; it then sets the bits of that block and no others, and otherwise changes
nothing. -/
theorem allocate_firstFit (mm : BitmapMemoryManager) (hr : mm.rangeEnd.id.toNat ≤ kFrameCount)
    (n : SizeT) (hn : n ≠ 0) :
    ∃ r mm', mm.allocate n = some (r, mm') ∧
      (∃ o, search mm.getBit mm.rangeEnd.id n mm.rangeBegin.id = some o ∧
        search (fun f => if f.id < mm.rangeEnd.id then mm.getBit f else none)
          mm.rangeEnd.id n mm.rangeBegin.id = some o) ∧
      (r.error.code = .kSuccess ↔ ∃ s, mm.FitsIn n s) ∧
      (r.error.code = .kSuccess →
        IsLeast {s | mm.FitsIn n s} r.value.id.toNat ∧
        mm'.used = mm.used ∪ Set.Ico r.value.id.toNat (r.value.id.toNat + n.toNat) ∧
        mm'.rangeBegin = mm.rangeBegin ∧ mm'.rangeEnd = mm.rangeEnd) ∧
      (r.error.code ≠ .kSuccess →
        r.value = kNullFrame ∧ r.error.code = .kNoEnoughMemory ∧ mm' = mm) := by
  obtain ⟨r, mm', h, hspec⟩ := allocate_spec hr hn
  obtain ⟨o, ho⟩ : ∃ o, search mm.getBit mm.rangeEnd.id n mm.rangeBegin.id = some o :=
    search_total (answers hr) _
  have hguard : ∀ f : FrameID, f.id < mm.rangeEnd.id →
      (if f.id < mm.rangeEnd.id then mm.getBit f else none) = mm.getBit f := fun f hf => if_pos hf
  refine ⟨r, mm', h, ⟨o, ho, (search_congr hguard _).trans ho⟩, ?_⟩
  cases hspec with
  | noEnoughMemory hfit =>
    refine ⟨iff_of_false (by decide) (fun ⟨s, hs⟩ => hfit s hs), fun hc => ?_, fun _ => ?_⟩
    · exact absurd hc (by decide)
    · exact ⟨rfl, rfl, rfl⟩
  | success s mm' hfit hmm =>
    refine ⟨iff_of_true rfl ⟨_, hfit.1⟩, fun _ => ?_, fun hc => absurd rfl hc⟩
    exact ⟨hfit, hmm.used, hmm.rangeBegin, hmm.rangeEnd⟩

/-- The range `[1, 64)` over a bitmap with no bit set. -/
def emptyManager : BitmapMemoryManager := ⟨fun _ => 0, ⟨1⟩, ⟨64⟩⟩

/-- The range `[1, 64)` over a bitmap where only frame 3 is taken. -/
def fragmentedManager : BitmapMemoryManager := ⟨fun k => if k.val = 0 then 8 else 0, ⟨1⟩, ⟨64⟩⟩

theorem fragmentedManager_inRange : fragmentedManager.rangeEnd.id.toNat ≤ kFrameCount := by decide

theorem fragmentedManager_used : fragmentedManager.used = {3} := by
  ext f
  rw [mem_used, Set.mem_singleton_iff]
  by_cases hf : f < 64
  · have hline : f / 64 = 0 := Nat.div_eq_of_lt hf
    have hlines : f / 64 < kMapLines := by
      rw [hline]
      decide
    have hbit : ∀ b : Fin 64, (8 : BitVec 64).getLsbD b = true ↔ (b : ℕ) = 3 := by decide
    rw [WordArray.bit_of_lt _ hlines]
    simpa [fragmentedManager, hline, Nat.mod_eq_of_lt hf] using hbit ⟨f, hf⟩
  · have hline : f / 64 ≠ 0 := by omega
    have hne : f ≠ 3 := by omega
    simp [WordArray.bit, fragmentedManager, hf, hne]

/-- Three frames do not fit below the one that is taken: the least start is 4. -/
theorem allocate_firstFit_fragmentedManager :
    fragmentedManager.rangeEnd.id.toNat ≤ kFrameCount ∧ (3 : SizeT) ≠ 0 ∧
      ∃ r mm', fragmentedManager.allocate 3 = some (r, mm') ∧ r.error.code = .kSuccess ∧ r.value = ⟨4⟩ ∧
        mm'.used = {3} ∪ Set.Ico 4 7 := by
  have hr := fragmentedManager_inRange
  have hfit : fragmentedManager.FitsIn 3 4 :=
    ⟨by decide, by decide, fun f hf _ => by
      rw [fragmentedManager_used, Set.mem_singleton_iff]
      omega⟩
  obtain ⟨r, mm', h, -, hiff, hgranted, -⟩ := allocate_firstFit fragmentedManager hr 3 (by decide)
  have hok := hiff.2 ⟨4, hfit⟩
  obtain ⟨hleast, hused, -⟩ := hgranted hok
  have hle : r.value.id.toNat ≤ 4 := hleast.2 hfit
  have hge : 4 ≤ r.value.id.toNat :=
    hleast.1.skip (show 1 ≤ r.value.id.toNat from hleast.1.lo_le) (show 2 < 3 by decide) (by simp [fragmentedManager_used])
  have heq : r.value.id.toNat = 4 := le_antisymm hle hge
  refine ⟨hr, by decide, r, mm', h, hok, ?_, ?_⟩
  · obtain ⟨⟨id⟩, error⟩ := r
    exact congrArg FrameID.mk (BitVec.eq_of_toNat_eq heq)
  · rw [hused, heq, fragmentedManager_used]
    rfl

end MosaOS.BitmapMemoryManager
