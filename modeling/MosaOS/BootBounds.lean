import MosaOS.MemoryMap

/-!
# Does the boot scan stay in the bitmap?

The bitmap ends at `kMaxPhysicalMemoryBytes`, the memory map of the firmware need not. `setBit` is `none`
past the bitmap, so the set-up succeeds exactly when every `SetBit` of the loop stays in it;
`bootScan_inBitmap_iff` says for which maps that is.
-/

namespace MosaOS
open BitmapMemoryManager

/-- The memory maps a firmware can return: whole descriptors of a positive size, page aligned, below
2^64 and pairwise disjoint. -/
structure MemoryMap.Returned (m : MemoryMap) (count : ℕ) : Prop where
  descriptorSize_pos : 0 < m.descriptorSize
  mapSize_eq : m.mapSize = count * m.descriptorSize
  aligned : ∀ k < count, 4096 ∣ (m.desc k).physicalStart.toNat
  bounded : ∀ k < count, (m.desc k).physicalStart.toNat + 4096 * (m.desc k).numberOfPages.toNat < 2 ^ 64
  disjoint : ∀ i < count, ∀ j < count, i ≠ j →
    Disjoint (m.desc i).addresses (m.desc j).addresses

namespace MemoryDescriptor
variable {d : MemoryDescriptor}

def physicalEnd (d : MemoryDescriptor) : ℕ := d.physicalStart.toNat + 4096 * d.numberOfPages.toNat

/-- The stores of one turn stay in the bitmap: those for the gap and those for the region. -/
structure InBitmap (d : MemoryDescriptor) (availableEnd : ℕ) : Prop where
  gap : availableEnd < d.physicalStart.toNat → d.physicalStart.toNat ≤ kMaxPhysicalMemoryBytes
  region : isAvailable d.type = false → d.numberOfPages ≠ 0 → d.physicalEnd ≤ kMaxPhysicalMemoryBytes

end MemoryDescriptor

/-- `MarkAllocated` from a page boundary on stays in the bitmap when its last frame does. -/
theorem markAllocated_pages_isSome_iff (mm : BitmapMemoryManager) {s n : SizeT}
    (hs : 4096 ∣ s.toNat) (hn : 4096 ∣ n.toNat) (hlt : s.toNat + n.toNat < 2 ^ 64) :
    (mm.markAllocated ⟨s / kBytesPerFrame⟩ (n / kBytesPerFrame)).isSome ↔
      (n ≠ 0 → s.toNat + n.toNat ≤ kMaxPhysicalMemoryBytes) := by
  obtain ⟨k, hk⟩ := hs
  obtain ⟨l, hl⟩ := hn
  have hmax : kMaxPhysicalMemoryBytes = kFrameCount * 4096 := rfl
  have hs' : (s / kBytesPerFrame).toNat = k := by
    rw [BitVec.toNat_udiv, hk, show kBytesPerFrame.toNat = 4096 from rfl]; omega
  have hn' : (n / kBytesPerFrame).toNat = l := by
    rw [BitVec.toNat_udiv, hl, show kBytesPerFrame.toNat = 4096 from rfl]; omega
  have hid : ∀ i < l, (s / kBytesPerFrame + BitVec.ofNat 64 i).toNat = k + i := fun i hi => by
    rw [BitVec.toNat_add, hs', BitVec.toNat_ofNat]; omega
  have hzero : n ≠ 0 ↔ 0 < l := by
    constructor <;> intro h <;> bv_omega
  rw [markAllocated_isSome_iff, hn', hzero]
  constructor
  · intro hall hpos
    have hlast : (s / kBytesPerFrame + BitVec.ofNat 64 (l - 1)).toNat < kFrameCount :=
      hall (l - 1) (by omega)
    rw [hid _ (by omega)] at hlast
    omega
  · intro hle i hi
    show (s / kBytesPerFrame + BitVec.ofNat 64 i).toNat < _
    rw [hid i hi]
    have := hle (by omega)
    omega

theorem markGap_isSome_iff {st : BootScan} {d : MemoryDescriptor}
    (hend : 4096 ∣ st.availableEnd.toNat) (haligned : 4096 ∣ d.physicalStart.toNat) :
    (markGap st d).isSome ↔
      (st.availableEnd.toNat < d.physicalStart.toNat →
        d.physicalStart.toNat ≤ kMaxPhysicalMemoryBytes) := by
  unfold markGap
  have hstart := d.physicalStart.isLt
  by_cases hlt : st.availableEnd < d.physicalStart
  · rw [if_pos hlt]
    rw [BitVec.lt_def] at hlt
    have hsub : (d.physicalStart - st.availableEnd).toNat =
        d.physicalStart.toNat - st.availableEnd.toNat := by
      rw [BitVec.toNat_sub]; omega
    have hdvd : 4096 ∣ (d.physicalStart - st.availableEnd).toNat := by
      rw [hsub]
      exact Nat.dvd_sub haligned hend
    have hne : d.physicalStart - st.availableEnd ≠ 0 := by
      intro hzero
      rw [hzero] at hsub
      have : (0 : SizeT).toNat = 0 := rfl
      omega
    rw [markAllocated_pages_isSome_iff _ hend hdvd (by omega)]
    constructor
    · intro h _
      have := h hne
      omega
    · intro h _
      have := h hlt
      omega
  · rw [if_neg hlt]
    rw [BitVec.lt_def] at hlt
    exact iff_of_true rfl fun h => absurd h hlt

/-- One turn stays in the bitmap or leaves it; what it makes of `available_end` does not depend on the
bitmap. -/
theorem scanDescriptor_inBitmap {st : BootScan} {d : MemoryDescriptor}
    (hend : 4096 ∣ st.availableEnd.toNat) (haligned : 4096 ∣ d.physicalStart.toNat)
    (hbounded : d.physicalEnd < 2 ^ 64) :
    ((scanDescriptor st d).isSome ↔ d.InBitmap st.availableEnd.toNat) ∧
      ∀ st', scanDescriptor st d = some st' → st'.availableEnd.toNat =
        if isAvailable d.type then d.physicalEnd else st.availableEnd.toNat := by
  have hgap := markGap_isSome_iff hend haligned
  unfold MemoryDescriptor.physicalEnd at hbounded
  have hpages : (d.numberOfPages * kUEFIPageSize).toNat = 4096 * d.numberOfPages.toNat := by
    rw [BitVec.toNat_mul, show kUEFIPageSize.toNat = 4096 from rfl]; omega
  have hsum : (d.physicalStart + d.numberOfPages * kUEFIPageSize).toNat = d.physicalEnd := by
    unfold MemoryDescriptor.physicalEnd
    rw [BitVec.toNat_add, hpages]; omega
  have hdvd : 4096 ∣ (d.numberOfPages * kUEFIPageSize).toNat := hpages ▸ Nat.dvd_mul_right _ _
  have hzero : d.numberOfPages * kUEFIPageSize ≠ 0 ↔ d.numberOfPages ≠ 0 := by
    rw [Ne, Ne, ← BitVec.toNat_inj, ← BitVec.toNat_inj, hpages]
    show ¬ 4096 * d.numberOfPages.toNat = 0 ↔ ¬ d.numberOfPages.toNat = 0
    omega
  cases hmark : markGap st d with
  | none =>
    rw [hmark] at hgap
    have hnone : scanDescriptor st d = none := by
      simp only [scanDescriptor, hmark, Option.bind_eq_bind, Option.bind_none]
    rw [hnone]
    refine ⟨iff_of_false (by simp) fun hin => ?_, fun st' h => by cases h⟩
    exact absurd (hgap.2 hin.gap) (by simp)
  | some mm =>
    rw [hmark] at hgap
    have hgap' := hgap.1 rfl
    simp only [scanDescriptor, hmark, Option.bind_eq_bind, Option.bind_some]
    cases hav : isAvailable d.type with
    | true =>
      rw [if_pos rfl, if_pos rfl]
      refine ⟨iff_of_true rfl ⟨hgap', fun h => by rw [hav] at h; cases h⟩, fun st' h => ?_⟩
      cases h
      exact hsum
    | false =>
      rw [if_neg Bool.false_ne_true, if_neg Bool.false_ne_true]
      have hregion := markAllocated_pages_isSome_iff mm haligned hdvd (by omega)
      rw [hzero, hpages] at hregion
      constructor
      · generalize mm.markAllocated _ _ = r at hregion
        cases r with
        | none =>
          refine iff_of_false Bool.false_ne_true fun hin => ?_
          exact Bool.false_ne_true (hregion.2 (hin.region hav))
        | some mm' => exact iff_of_true rfl ⟨hgap', fun _ => hregion.1 rfl⟩
      · intro st' h
        obtain ⟨mm', -, hst⟩ := Option.bind_eq_some_iff.1 h
        cases hst
        rfl

/-- `available_end` after `n` turns. -/
def MemoryMap.availableEnd (m : MemoryMap) : ℕ → ℕ
  | 0 => 0
  | n + 1 =>
    if isAvailable (m.desc (2 * n)).type then (m.desc (2 * n)).physicalEnd else m.availableEnd n

/-- The first `n` turns stay in the bitmap exactly when each of them does. -/
theorem scan_isSome_iff {m : MemoryMap} {count : ℕ} (hm : m.Returned count) (mm : BitmapMemoryManager)
    (n : ℕ) (hn : n ≤ (count + 1) / 2) :
    (((List.range n).foldlM (fun st i => scanDescriptor st (m.desc (2 * i))) ⟨mm, 0⟩).isSome ↔
      ∀ i < n, (m.desc (2 * i)).InBitmap (m.availableEnd i)) ∧
    4096 ∣ m.availableEnd n ∧
    ∀ st, (List.range n).foldlM (fun st i => scanDescriptor st (m.desc (2 * i))) ⟨mm, 0⟩ = some st →
      st.availableEnd.toNat = m.availableEnd n := by
  induction n with
  | zero =>
    refine ⟨by simp, Nat.dvd_zero _, fun st h => ?_⟩
    cases h
    rfl
  | succ n ih =>
    obtain ⟨hiff, hdvd, hend⟩ := ih (by omega)
    have haligned := hm.aligned (2 * n) (by omega)
    have hbounded : (m.desc (2 * n)).physicalEnd < 2 ^ 64 := hm.bounded (2 * n) (by omega)
    have hdvd' : 4096 ∣ m.availableEnd (n + 1) := by
      rw [MemoryMap.availableEnd]
      split
      · exact Nat.dvd_add haligned (Nat.dvd_mul_right _ _)
      · exact hdvd
    rw [Nat.forall_lt_succ_right, ← hiff, List.range_succ]
    cases hprev : (List.range n).foldlM (fun st i => scanDescriptor st (m.desc (2 * i)))
        (⟨mm, 0⟩ : BootScan) with
    | none =>
      have hnone : (List.range n ++ [n]).foldlM (fun st i => scanDescriptor st (m.desc (2 * i)))
          (⟨mm, 0⟩ : BootScan) = none := by
        rw [List.foldlM_append, hprev]
        rfl
      rw [hnone]
      exact ⟨iff_of_false (by simp) (by simp), hdvd', fun st h => by cases h⟩
    | some st =>
      have hst := hend st hprev
      have hrun : (List.range n ++ [n]).foldlM (fun st i => scanDescriptor st (m.desc (2 * i)))
          (⟨mm, 0⟩ : BootScan) = scanDescriptor st (m.desc (2 * n)) := by
        rw [List.foldlM_append, hprev]
        exact Option.bind_fun_some _
      obtain ⟨hstep, hnext⟩ := scanDescriptor_inBitmap (hst ▸ hdvd) haligned hbounded
      rw [hrun, hstep, hst]
      refine ⟨⟨fun h => ⟨rfl, h⟩, fun h => h.2⟩, hdvd', fun st' h => ?_⟩
      rw [hnext st' h, hst, MemoryMap.availableEnd]

theorem MemoryMap.le_availableEnd_iff (m : MemoryMap) {x : ℕ} (hx : 0 < x) (n : ℕ) :
    x ≤ m.availableEnd n ↔ ∃ j < n, isAvailable (m.desc (2 * j)).type = true ∧
      (∀ i, j < i → i < n → isAvailable (m.desc (2 * i)).type = false) ∧
      x ≤ (m.desc (2 * j)).physicalEnd := by
  induction n with
  | zero =>
    refine iff_of_false (Nat.not_le.2 hx) ?_
    rintro ⟨j, hj, -⟩
    exact absurd hj (Nat.not_lt_zero j)
  | succ n ih =>
    rw [availableEnd]
    split
    · rename_i hav
      constructor
      · intro hle
        exact ⟨n, Nat.lt_succ_self n, hav, fun i h1 h2 => by omega, hle⟩
      · rintro ⟨j, hj, -, hnone, hle⟩
        rcases Nat.lt_succ_iff_lt_or_eq.1 hj with hlt | rfl
        · rw [hnone n hlt (Nat.lt_succ_self n)] at hav
          cases hav
        · exact hle
    · rename_i hav
      rw [ih]
      constructor
      · rintro ⟨j, hj, hjav, hnone, hle⟩
        refine ⟨j, by omega, hjav, fun i h1 h2 => ?_, hle⟩
        rcases Nat.lt_succ_iff_lt_or_eq.1 h2 with hlt | rfl
        · exact hnone i h1 hlt
        · simpa using hav
      · rintro ⟨j, hj, hjav, hnone, hle⟩
        rcases Nat.lt_succ_iff_lt_or_eq.1 hj with hlt | rfl
        · exact ⟨j, hlt, hjav, fun i h1 h2 => hnone i h1 (by omega), hle⟩
        · exact absurd hjav hav

/-- The set-up stays in the bitmap exactly when every descriptor at an even position starts at or below
`kMaxPhysicalMemoryBytes`, or in the last available region before it or right behind that, and ends at
or below `kMaxPhysicalMemoryBytes` where its region is not available. -/
theorem bootScan_inBitmap_iff (m : MemoryMap) (count : ℕ) (hm : m.Returned count)
    (allocMap : WordArray kMapLines 64) :
    (∃ mm, setupMemoryManager m allocMap = some mm) ↔
      ∀ k < count, k % 2 = 0 →
        ((m.desc k).physicalStart.toNat ≤ kMaxPhysicalMemoryBytes ∨
          ∃ j < k, j % 2 = 0 ∧ isAvailable (m.desc j).type = true ∧
            (∀ i, j < i → i < k → i % 2 = 0 → isAvailable (m.desc i).type = false) ∧
            (m.desc k).physicalStart.toNat ≤ (m.desc j).physicalEnd) ∧
        (isAvailable (m.desc k).type = false → (m.desc k).numberOfPages ≠ 0 →
          (m.desc k).physicalEnd ≤ kMaxPhysicalMemoryBytes) := by
  have hturns := (scan_isSome_iff hm (construct allocMap) ((count + 1) / 2) le_rfl).1
  rw [← scanLoop_eq hm.descriptorSize_pos hm.mapSize_eq] at hturns
  have hsetup : (∃ mm, setupMemoryManager m allocMap = some mm) ↔
      (scanLoop m m.mapSize m.buffer ⟨construct allocMap, 0⟩).isSome := by
    unfold setupMemoryManager
    cases scanLoop m m.mapSize m.buffer ⟨construct allocMap, 0⟩ with
    | none => exact iff_of_false (by rintro ⟨mm, h⟩; cases h) Bool.false_ne_true
    | some st => exact iff_of_true ⟨_, rfl⟩ rfl
  rw [hsetup, hturns]
  have hpos : 0 < kMaxPhysicalMemoryBytes := by decide
  constructor
  · intro hall k hk heven
    obtain ⟨i, rfl⟩ : ∃ i, k = 2 * i := ⟨k / 2, by omega⟩
    have hin := hall i (by omega)
    refine ⟨?_, hin.region⟩
    by_cases hlow : (m.desc (2 * i)).physicalStart.toNat ≤ kMaxPhysicalMemoryBytes
    · exact Or.inl hlow
    · have hle : (m.desc (2 * i)).physicalStart.toNat ≤ m.availableEnd i :=
        Nat.not_lt.1 fun hlt => hlow (hin.gap hlt)
      obtain ⟨j, hj, hav, hnone, hle⟩ := (m.le_availableEnd_iff (by omega) i).1 hle
      refine Or.inr ⟨2 * j, by omega, by omega, hav, fun l h1 h2 hev => ?_, hle⟩
      obtain ⟨l, rfl⟩ : ∃ l', l = 2 * l' := ⟨l / 2, by omega⟩
      exact hnone l (by omega) (by omega)
  · intro hall i hi
    obtain ⟨hgap, hregion⟩ := hall (2 * i) (by omega) (by omega)
    refine ⟨fun hlt => ?_, hregion⟩
    rcases hgap with hlow | ⟨j, hj, hev, hav, hnone, hle⟩
    · exact hlow
    · obtain ⟨j, rfl⟩ : ∃ j', j = 2 * j' := ⟨j / 2, by omega⟩
      have hend := (m.le_availableEnd_iff (Nat.zero_lt_of_lt hlt) i).2
        ⟨j, by omega, hav, fun l h1 h2 => hnone (2 * l) (by omega) (by omega) (by omega), hle⟩
      omega

/-! ### Device memory above the bitmap -/

/-- One page of memory-mapped I/O at 128 GiB. -/
def deviceMap : MemoryMap where
  buffer := 0x7e000
  mapSize := 48
  descriptorSize := 48
  descAt _ := ⟨MemoryType.kEfiMemoryMappedIO.value, 0x2000000000, 1⟩

theorem deviceMap_returned : deviceMap.Returned 1 := by
  refine ⟨by decide, by decide, fun k _ => ?_, fun k _ => ?_, fun i hi j hj hij => ?_⟩
  · show 4096 ∣ (0x2000000000 : SizeT).toNat
    decide
  · show (0x2000000000 : SizeT).toNat + 4096 * (1 : SizeT).toNat < 2 ^ 64
    decide
  · omega

theorem bootScan_inBitmap_iff_lowDevice : ∃ m : MemoryMap, m.Returned 1 ∧
    ∃ mm, setupMemoryManager m (fun _ => 0) = some mm := by
  let m : MemoryMap := { deviceMap with
    descAt := fun _ => ⟨MemoryType.kEfiMemoryMappedIO.value, 0xfec00000, 1⟩ }
  have hm : m.Returned 1 := by
    refine ⟨by decide, by decide, fun k _ => ?_, fun k _ => ?_, fun i hi j hj hij => ?_⟩
    · show 4096 ∣ (0xfec00000 : SizeT).toNat
      decide
    · show (0xfec00000 : SizeT).toNat + 4096 * (1 : SizeT).toNat < 2 ^ 64
      decide
    · omega
  refine ⟨m, hm, (bootScan_inBitmap_iff m 1 hm fun _ => 0).2 fun k _ _ => ⟨Or.inl ?_, fun _ _ => ?_⟩⟩
  · show (0xfec00000 : ℕ) ≤ _
    decide
  · show 0xfec00000 + 4096 * 1 ≤ kMaxPhysicalMemoryBytes
    decide

/-- `MarkAllocated` is called for the frame `kFrameCount`, the first one past the bitmap. -/
theorem bootScan_leaves_bitmap :
    deviceMap.Returned 1 ∧
      ((deviceMap.desc 0).physicalStart / kBytesPerFrame).toNat = kFrameCount ∧
      setupMemoryManager deviceMap (fun _ => 0) = none := by
  refine ⟨deviceMap_returned, by decide, ?_⟩
  have hturn := (scan_isSome_iff deviceMap_returned (construct fun _ => 0) 1 le_rfl).1
  have hout : ¬ ∀ i < 1, (deviceMap.desc (2 * i)).InBitmap (deviceMap.availableEnd i) := fun hall => by
    have hle := (hall 0 Nat.zero_lt_one).region rfl (by decide)
    exact absurd hle (by decide)
  have hloop := scanLoop_eq deviceMap_returned.descriptorSize_pos deviceMap_returned.mapSize_eq
    ⟨construct fun _ => 0, 0⟩
  rw [← hturn, ← hloop] at hout
  unfold setupMemoryManager
  rw [Option.not_isSome_iff_eq_none.1 hout]
  rfl

end MosaOS
