import MosaOS.MemoryManager
import MosaOS.Lib.Run
import Mathlib.Data.Set.Lattice
import Mathlib.Order.Interval.Set.Basic
import Mathlib.Order.CompletePartialOrder

/-!
# The word array as a set of frames

`used` reads `allocMap` as the set of frames whose bit is set. `setBit_spec` and `markAllocated_spec`
say what the two stores do to it, and `eq_of_used` that nothing else is stored: a manager is determined
by its range and its set of used frames.
-/

namespace MosaOS.BitmapMemoryManager

theorem kMapLines_mul : kMapLines * 64 = kFrameCount := rfl

theorem kFrameCount_lt : kFrameCount < 2 ^ 64 := by decide

/-- The frames `f < kFrameCount` with `GetBit(f)` true. -/
def used (mm : BitmapMemoryManager) : Set ℕ :=
  {f | f < kFrameCount ∧ mm.getBit ⟨BitVec.ofNat 64 f⟩ = some true}

theorem toNat_ofNat_frame {f : ℕ} (h : f < kFrameCount) : (BitVec.ofNat 64 f).toNat = f := by
  rw [BitVec.toNat_ofNat, Nat.mod_eq_of_lt (h.trans kFrameCount_lt)]

theorem line_lt {f : FrameID} (h : f.id.toNat < kFrameCount) : f.id.toNat / 64 < kMapLines :=
  WordArray.line_lt (by rwa [kMapLines_mul])

theorem getBit_eq (mm : BitmapMemoryManager) {f : FrameID} (h : f.id.toNat < kFrameCount) :
    mm.getBit f = some (mm.allocMap.bit f.id.toNat) := by
  have hl := line_lt h
  simp only [getBit, BitVec.toNat_udiv, BitVec.toNat_umod, show kBitsPerMapLine.toNat = 64 from rfl]
  rw [dif_pos hl, WordArray.testMask, WordArray.bit_of_lt _ hl]

theorem bit_past_end (mm : BitmapMemoryManager) {f : ℕ} (h : kFrameCount ≤ f) :
    mm.allocMap.bit f = false := by
  rw [WordArray.bit, dif_neg]
  have : kFrameCount = 64 * kMapLines := rfl
  omega

theorem mem_used {mm : BitmapMemoryManager} {f : ℕ} : f ∈ mm.used ↔ mm.allocMap.bit f = true := by
  by_cases hf : f < kFrameCount
  · have hid := toNat_ofNat_frame hf
    have hget := mm.getBit_eq (f := ⟨BitVec.ofNat 64 f⟩) (by rw [hid]; exact hf)
    rw [hid] at hget
    show f < kFrameCount ∧ mm.getBit ⟨BitVec.ofNat 64 f⟩ = some true ↔ _
    rw [hget, Option.some_inj]
    exact and_iff_right hf
  · rw [bit_past_end mm (Nat.le_of_not_lt hf)]
    exact iff_of_false (fun h => hf h.1) (by decide)

theorem getBit_eq_true {mm : BitmapMemoryManager} {f : FrameID} (h : f.id.toNat < kFrameCount) :
    mm.getBit f = some true ↔ f.id.toNat ∈ mm.used := by
  rw [getBit_eq mm h, mem_used, Option.some_inj]

theorem getBit_eq_false {mm : BitmapMemoryManager} {f : FrameID} (h : f.id.toNat < kFrameCount) :
    mm.getBit f = some false ↔ f.id.toNat ∉ mm.used := by
  rw [getBit_eq mm h, mem_used, Option.some_inj, Bool.not_eq_true]

theorem getBit_ofNat_eq_false {mm : BitmapMemoryManager} {f : ℕ} (h : f < kFrameCount) :
    mm.getBit ⟨BitVec.ofNat 64 f⟩ = some false ↔ f ∉ mm.used := by
  have hid := toNat_ofNat_frame h
  have hget : mm.getBit ⟨BitVec.ofNat 64 f⟩ = some false ↔ (BitVec.ofNat 64 f).toNat ∉ mm.used :=
    getBit_eq_false (hid.trans_lt h)
  rwa [hid] at hget

theorem eq_of_used {mm mm' : BitmapMemoryManager} (hb : mm.rangeBegin = mm'.rangeBegin)
    (he : mm.rangeEnd = mm'.rangeEnd) (hu : mm.used = mm'.used) : mm = mm' := by
  have hmap : mm.allocMap = mm'.allocMap := by
    apply WordArray.ext_bit
    intro f _
    rw [Bool.eq_iff_iff, ← mem_used, ← mem_used, hu]
  cases mm; cases mm'
  cases hb; cases he; cases hmap
  rfl

/-! ### The stores -/

theorem setBit_spec (mm : BitmapMemoryManager) {f : FrameID} (allocated : Bool)
    (h : f.id.toNat < kFrameCount) :
    ∃ mm', mm.setBit f allocated = some mm' ∧ mm'.rangeBegin = mm.rangeBegin ∧
      mm'.rangeEnd = mm.rangeEnd ∧
      ∀ g, mm'.allocMap.bit g = if g = f.id.toNat then allocated else mm.allocMap.bit g := by
  have hl := line_lt h
  simp only [setBit, BitVec.toNat_udiv, BitVec.toNat_umod, show kBitsPerMapLine.toNat = 64 from rfl]
  rw [dif_pos hl]
  refine ⟨_, rfl, rfl, rfl, fun g => ?_⟩
  cases allocated with
  | true => exact WordArray.bit_update_or_mask mm.allocMap (by decide) hl g
  | false => exact WordArray.bit_update_and_not_mask mm.allocMap (by decide) hl g

/-- `mm'` is `mm` with the frames of `S` marked as well. -/
structure Marked (mm mm' : BitmapMemoryManager) (S : Set ℕ) : Prop where
  rangeBegin : mm'.rangeBegin = mm.rangeBegin
  rangeEnd : mm'.rangeEnd = mm.rangeEnd
  used : mm'.used = mm.used ∪ S

theorem Marked.refl (mm : BitmapMemoryManager) : Marked mm mm ∅ := ⟨rfl, rfl, by simp⟩

theorem Marked.trans {mm₁ mm₂ mm₃ : BitmapMemoryManager} {S T : Set ℕ} (h : Marked mm₁ mm₂ S)
    (h' : Marked mm₂ mm₃ T) : Marked mm₁ mm₃ (S ∪ T) :=
  ⟨h'.rangeBegin.trans h.rangeBegin, h'.rangeEnd.trans h.rangeEnd, by
    rw [h'.used, h.used, Set.union_assoc]⟩

theorem Marked.eq_of_subset {mm mm' : BitmapMemoryManager} {S : Set ℕ} (h : Marked mm mm' S)
    (hS : S ⊆ mm.used) : mm' = mm :=
  eq_of_used h.rangeBegin h.rangeEnd (by rw [h.used, Set.union_eq_self_of_subset_right hS])

theorem setBit_true (mm : BitmapMemoryManager) {f : FrameID} (h : f.id.toNat < kFrameCount) :
    ∃ mm', mm.setBit f true = some mm' ∧ Marked mm mm' {f.id.toNat} := by
  obtain ⟨mm', hset, hb, he, hbit⟩ := mm.setBit_spec true h
  refine ⟨mm', hset, hb, he, Set.ext fun g => ?_⟩
  rw [mem_used, hbit, Set.mem_union, Set.mem_singleton_iff, mem_used]
  by_cases hg : g = f.id.toNat <;> simp [hg]

theorem markAllocated_spec (mm : BitmapMemoryManager) {s : FrameID} {n : SizeT}
    (h : s.id.toNat + n.toNat ≤ kFrameCount) :
    ∃ mm', mm.markAllocated s n = some mm' ∧
      Marked mm mm' (Set.Ico s.id.toNat (s.id.toNat + n.toNat)) := by
  have hk := kFrameCount_lt
  unfold markAllocated
  generalize n.toNat = k at h ⊢
  induction k with
  | zero => exact ⟨mm, rfl, by simpa using Marked.refl mm⟩
  | succ k ih =>
    obtain ⟨mm₁, h₁, hm₁⟩ := ih (by omega)
    have hid : (s.id + BitVec.ofNat 64 k).toNat = s.id.toNat + k := by
      rw [BitVec.toNat_add, BitVec.toNat_ofNat]; omega
    obtain ⟨mm₂, h₂, hm₂⟩ := mm₁.setBit_true (f := ⟨s.id + BitVec.ofNat 64 k⟩) (by
      show (s.id + BitVec.ofNat 64 k).toNat < _
      omega)
    refine ⟨mm₂, ?_, ?_⟩
    · rw [List.range_succ, Run.append_eq_some]
      exact ⟨mm₁, h₁, Run.cons_eq_some.2 ⟨mm₂, h₂, rfl⟩⟩
    · have hset : Set.Ico s.id.toNat (s.id.toNat + (k + 1)) =
          Set.Ico s.id.toNat (s.id.toNat + k) ∪ {s.id.toNat + k} := by
        ext g
        simp only [Set.mem_Ico, Set.mem_union, Set.mem_singleton_iff]
        omega
      rw [hset]
      simpa only [hid] using hm₁.trans hm₂

theorem setBit_eq_none_iff (mm : BitmapMemoryManager) (f : FrameID) (allocated : Bool) :
    mm.setBit f allocated = none ↔ kFrameCount ≤ f.id.toNat := by
  constructor
  · intro hnone
    by_contra hlt
    obtain ⟨mm', hset, -⟩ := mm.setBit_spec (f := f) allocated (Nat.not_le.1 hlt)
    rw [hnone] at hset
    cases hset
  · intro hle
    simp only [setBit, BitVec.toNat_udiv, show kBitsPerMapLine.toNat = 64 from rfl]
    rw [dif_neg]
    have : kFrameCount = 64 * kMapLines := rfl
    omega

/-- `MarkAllocated` stays in the bitmap exactly when every frame it is called for does. -/
theorem markAllocated_isSome_iff (mm : BitmapMemoryManager) (s : FrameID) (n : SizeT) :
    (mm.markAllocated s n).isSome ↔
      ∀ i < n.toNat, (s.id + BitVec.ofNat 64 i).toNat < kFrameCount := by
  unfold markAllocated
  generalize n.toNat = k
  induction k with
  | zero => simp
  | succ k ih =>
    have hstep : ∀ mm' : BitmapMemoryManager,
        (mm'.setBit ⟨s.id + BitVec.ofNat 64 k⟩ true).isSome ↔
          (s.id + BitVec.ofNat 64 k).toNat < kFrameCount := fun mm' => by
      rw [Option.isSome_iff_ne_none, Ne, setBit_eq_none_iff, Nat.not_le]
    rw [List.range_succ, Nat.forall_lt_succ_right, ← ih, Option.isSome_iff_exists]
    constructor
    · rintro ⟨mm₂, hrun⟩
      obtain ⟨mm₁, h₁, h₂⟩ := Run.append_eq_some.1 hrun
      obtain ⟨mm', hset, -⟩ := Run.cons_eq_some.1 h₂
      exact ⟨Option.isSome_iff_exists.2 ⟨mm₁, h₁⟩,
        (hstep mm₁).1 (Option.isSome_iff_exists.2 ⟨mm', hset⟩)⟩
    · rintro ⟨hrun, hlt⟩
      obtain ⟨mm₁, h₁⟩ := Option.isSome_iff_exists.1 hrun
      obtain ⟨mm₂, h₂⟩ := Option.isSome_iff_exists.1 ((hstep mm₁).2 hlt)
      exact ⟨mm₂, Run.append_eq_some.2 ⟨mm₁, h₁, Run.cons_eq_some.2 ⟨mm₂, h₂, rfl⟩⟩⟩

theorem free_eq_markAllocated (mm : BitmapMemoryManager) (s : FrameID) (n : SizeT) :
    mm.free s n = (mm.markAllocated s n).map fun mm => (makeError .kSuccess 68, mm) := rfl

/-! ### A set of frames -/

theorem setBit_getBit (mm : BitmapMemoryManager) {f : FrameID} (allocated : Bool)
    (hf : f.id.toNat < kFrameCount) : ∃ mm', mm.setBit f allocated = some mm' ∧
      mm'.getBit f = some allocated ∧
      ∀ g : FrameID, g.id.toNat < kFrameCount → g ≠ f → mm'.getBit g = mm.getBit g := by
  obtain ⟨mm', hset, -, -, hbit⟩ := mm.setBit_spec allocated hf
  refine ⟨mm', hset, ?_, fun g hg hne => ?_⟩
  · rw [getBit_eq mm' hf, hbit, if_pos rfl]
  · have hid : g.id.toNat ≠ f.id.toNat := fun h =>
      hne (congrArg FrameID.mk (BitVec.eq_of_toNat_eq h))
    rw [getBit_eq mm' hg, getBit_eq mm hg, hbit, if_neg hid]

/-- Two `MarkAllocated` calls leave what a single store of both sets would. -/
theorem markAllocated_twice (mm : BitmapMemoryManager) {s t : FrameID} {n k : SizeT}
    (hs : s.id.toNat + n.toNat ≤ kFrameCount) (ht : t.id.toNat + k.toNat ≤ kFrameCount) :
    ∃ mm', ((mm.markAllocated s n).bind fun mm₁ => mm₁.markAllocated t k) = some mm' ∧
      Marked mm mm' (Set.Ico s.id.toNat (s.id.toNat + n.toNat) ∪
        Set.Ico t.id.toNat (t.id.toNat + k.toNat)) := by
  obtain ⟨mm₁, h₁, hm₁⟩ := mm.markAllocated_spec hs
  obtain ⟨mm₂, h₂, hm₂⟩ := mm₁.markAllocated_spec ht
  exact ⟨mm₂, Option.bind_eq_some_iff.2 ⟨mm₁, h₁, h₂⟩, hm₁.trans hm₂⟩

theorem Marked.unique {mm mm₁ mm₂ : BitmapMemoryManager} {S T : Set ℕ} (h₁ : Marked mm mm₁ S)
    (h₂ : Marked mm mm₂ T) (hST : S = T) : mm₁ = mm₂ :=
  eq_of_used (h₁.rangeBegin.trans h₂.rangeBegin.symm) (h₁.rangeEnd.trans h₂.rangeEnd.symm)
    (by rw [h₁.used, h₂.used, hST])

/-- `SetBit` stores one bit, `MarkAllocated` adds an interval to the set of used frames; so two calls of
`MarkAllocated` commute, and a second one for the same frames has no effect. -/
theorem frameSet_stores (mm : BitmapMemoryManager) :
    (∀ (f : FrameID) (allocated : Bool), f.id.toNat < kFrameCount →
      ∃ mm', mm.setBit f allocated = some mm' ∧ mm'.getBit f = some allocated ∧
        ∀ g : FrameID, g.id.toNat < kFrameCount → g ≠ f → mm'.getBit g = mm.getBit g) ∧
    (∀ (s : FrameID) (n : SizeT), s.id.toNat + n.toNat ≤ kFrameCount →
      ∃ mm', mm.markAllocated s n = some mm' ∧
        mm'.used = mm.used ∪ Set.Ico s.id.toNat (s.id.toNat + n.toNat)) ∧
    (∀ (s t : FrameID) (n k : SizeT), s.id.toNat + n.toNat ≤ kFrameCount →
      t.id.toNat + k.toNat ≤ kFrameCount →
      ((mm.markAllocated s n).bind fun mm₁ => mm₁.markAllocated t k) =
        (mm.markAllocated t k).bind fun mm₁ => mm₁.markAllocated s n) ∧
    ∀ (s : FrameID) (n : SizeT), s.id.toNat + n.toNat ≤ kFrameCount →
      ((mm.markAllocated s n).bind fun mm₁ => mm₁.markAllocated s n) = mm.markAllocated s n := by
  refine ⟨fun f allocated hf => mm.setBit_getBit allocated hf, fun s n hs => ?_, fun s t n k hs ht => ?_,
    fun s n hs => ?_⟩
  · obtain ⟨mm', hmark, hm⟩ := mm.markAllocated_spec hs
    exact ⟨mm', hmark, hm.used⟩
  · obtain ⟨mm₁, h₁, hm₁⟩ := mm.markAllocated_twice hs ht
    obtain ⟨mm₂, h₂, hm₂⟩ := mm.markAllocated_twice ht hs
    rw [h₁, h₂, hm₁.unique hm₂ (Set.union_comm _ _)]
  · obtain ⟨mm₁, h₁, hm₁⟩ := mm.markAllocated_twice hs hs
    obtain ⟨mm₂, h₂, hm₂⟩ := mm.markAllocated_spec hs
    rw [h₁, h₂, hm₁.unique hm₂ (Set.union_self _)]

theorem frameSet_stores_construct :
    ((construct fun _ => 0).markAllocated ⟨63⟩ 2).bind (fun mm => mm.markAllocated ⟨1⟩ 200) =
      ((construct fun _ => 0).markAllocated ⟨1⟩ 200).bind fun mm => mm.markAllocated ⟨63⟩ 2 :=
  (frameSet_stores (construct fun _ => 0)).2.2.1 ⟨63⟩ ⟨1⟩ 2 200 (by decide) (by decide)

end MosaOS.BitmapMemoryManager
