import MosaOS.AllocatorRuns
import MosaOS.MemoryMap
import Mathlib.Tactic.IntervalCases

/-!
# What the boot scan reserves, and what it loses

`bootReservation_safe`: whatever the order of the memory map and the initial content of the bitmap, no
frame outside an available descriptor is handed out. That the loop skips every other descriptor does
not harm this: what it does not look at ends up in a gap or past the end of the range. It does lose
memory: `bootScan_keeps_iff` says for which sorted maps it does not.
-/

namespace MosaOS
open FirstFit BitmapMemoryManager

variable {m : MemoryMap} {count : ℕ} {allocMap : WordArray kMapLines 64} {mm : BitmapMemoryManager}

/-- What a run of `Allocate` calls has returned was clear to begin with and a descriptor keeps it. -/
theorem SetUp.kept_of_live (h : SetUp m count allocMap mm) {calls : List Call} {s : Session}
    (hs : Session.run ⟨mm, []⟩ calls = some s) {b : Block} (hb : b ∈ s.live) {f : ℕ}
    (hf : f ∈ b.places) : f ∉ (construct allocMap).used ∧ ∃ k, m.Keeps count f k := by
  have hI := (Session.Inv.init h.inRange).run hs
  have hnot : f ∉ mm.used := Set.disjoint_left.1 (hI.ledger.fresh b hb) hf
  have hlt : f < mm.rangeEnd.id.toNat := hf.2.trans_le (hI.ledger.inside b hb).2
  exact (h.clear f).1 ⟨hnot, hlt⟩

/-- After the set-up every frame that `Allocate` can return lies wholly inside an available descriptor,
and apart from every descriptor of another type. -/
theorem bootReservation_safe (m : MemoryMap) (count : ℕ) (hv : m.Valid count)
    (allocMap : WordArray kMapLines 64) :
    ∃ mm, setupMemoryManager m allocMap = some mm ∧
      ∀ (ns : List SizeT) s, Session.run ⟨mm, []⟩ (ns.map Call.allocate) = some s →
        ∀ b ∈ s.live, ∀ f ∈ b.places,
          (∃ k < count, isAvailable (m.desc k).type = true ∧ frameBytes f ⊆ (m.desc k).addresses) ∧
          ∀ k < count, isAvailable (m.desc k).type = false →
            Disjoint (frameBytes f) (m.desc k).addresses := by
  obtain ⟨mm, hset, hup⟩ := hv.setUp allocMap
  refine ⟨mm, hset, fun ns s hs b hb f hf => ?_⟩
  obtain ⟨-, k, hk⟩ := hup.kept_of_live hs hb hf
  refine ⟨⟨k, hk.lt, hk.avail, hk.mem⟩, fun j hj hav => ?_⟩
  have hne : k ≠ j := by
    rintro rfl
    rw [hk.avail] at hav
    cases hav
  exact (hv.disjoint k hk.lt j hj hne).mono_left hk.mem

/-! ### Regions with gaps, one of them reserved -/

theorem construct_used_zero : (construct fun _ => 0).used = ∅ := by
  ext f
  rw [mem_used, WordArray.bit]
  simp [construct]

/-- Five regions of sixteen pages with gaps of sixteen pages between them; the one in the middle is reserved. -/
def mixedMap : MemoryMap where
  buffer := 0x7e000
  mapSize := 240
  descriptorSize := 48
  descAt a :=
    let k := (a - 0x7e000) / 48
    ⟨if k = 2 then MemoryType.kEfiReservedMemoryType.value else MemoryType.kEfiConventionalMemory.value,
      BitVec.ofNat 64 (k * 0x20000), 16⟩

theorem mixedMap_desc (k : ℕ) : mixedMap.desc k =
    ⟨if k = 2 then MemoryType.kEfiReservedMemoryType.value else MemoryType.kEfiConventionalMemory.value,
      BitVec.ofNat 64 (k * 0x20000), 16⟩ := by
  simp [MemoryMap.desc, mixedMap]

theorem mixedMap_addresses {k : ℕ} (hk : k < 5) :
    (mixedMap.desc k).addresses = Set.Ico (k * 0x20000) (k * 0x20000 + 0x10000) := by
  have hstart : (BitVec.ofNat 64 (k * 0x20000)).toNat = k * 0x20000 := by
    rw [BitVec.toNat_ofNat]
    exact Nat.mod_eq_of_lt (by omega)
  rw [mixedMap_desc, MemoryDescriptor.addresses, hstart]
  rfl

theorem mixedMap_valid : mixedMap.Valid 5 := by
  refine ⟨by decide, by decide, fun k hk => ?_, fun i hi j hj hij => ?_⟩
  · interval_cases k <;> exact ⟨by decide, by decide⟩
  · rw [mixedMap_addresses hi, mixedMap_addresses hj]
    refine Set.disjoint_left.2 fun a ha ha' => ?_
    simp only [Set.mem_Ico] at ha ha'
    omega

/-- The loop looks at the first, the middle and the last region. -/
theorem mixedMap_keeps_iff {f : ℕ} : (∃ k, mixedMap.Keeps 5 f k) ↔ f < 16 ∨ 128 ≤ f ∧ f < 144 := by
  constructor
  · rintro ⟨k, hk⟩
    have hlt := hk.lt
    have heven := hk.even
    have hne : k ≠ 2 := by
      rintro rfl
      exact absurd hk.avail (by decide)
    have hmem := hk.mem (mem_frameBytes f)
    rw [mixedMap_addresses hlt, Set.mem_Ico] at hmem
    omega
  · intro hf
    obtain ⟨k, hk, hlo, hhi⟩ : ∃ k, (k = 0 ∨ k = 4) ∧ k * 32 ≤ f ∧ f < k * 32 + 16 := by
      rcases hf with hf | hf
      · exact ⟨0, .inl rfl, by omega, by omega⟩
      · exact ⟨4, .inr rfl, by omega, by omega⟩
    have hlt : k < 5 := by omega
    have hstart : ∀ j < 5, (mixedMap.desc j).physicalStart.toNat = j * 0x20000 := fun j hj => by
      rw [mixedMap_desc, BitVec.toNat_ofNat]
      exact Nat.mod_eq_of_lt (by omega)
    refine ⟨k, hlt, by omega, ?_, ?_, fun j hj _ => ?_, fun j hj hj5 _ _ => ?_⟩
    · rcases hk with rfl | rfl
      all_goals rfl
    · rw [mixedMap_addresses hlt, frameBytes]
      exact Set.Ico_subset_Ico (by omega) (by omega)
    · rw [hstart j (by omega)]
      omega
    · rw [hstart j hj5]
      omega

/-- Fifteen frames of the first region are handed out, and then the sixteen of the last one. -/
theorem mixedMap_run {mm : BitmapMemoryManager} (hup : SetUp mixedMap 5 (fun _ => 0) mm) :
    ∃ s, Session.run ⟨mm, []⟩ ([15, 16].map Call.allocate) = some s ∧ s.live = [⟨128, 16⟩, ⟨1, 15⟩] := by
  have hclear : ∀ f, f ∉ mm.used ∧ f < mm.rangeEnd.id.toNat ↔ f < 16 ∨ 128 ≤ f ∧ f < 144 := fun f => by
    rw [hup.clear, mixedMap_keeps_iff, construct_used_zero]
    exact and_iff_right (Set.notMem_empty f)
  have hbegin : mm.rangeBegin.id.toNat = 1 := congrArg (·.id.toNat) hup.rangeBegin
  have hend : 144 ≤ mm.rangeEnd.id.toNat := ((hclear 143).2 (by omega)).2
  have hI := Session.Inv.init hup.inRange
  have hfit : IsLeast {t | mm.FitsIn 15 t} 1 := by
    refine ⟨⟨hbegin.le, ?_, fun f hf (hlt : f < 16) => ((hclear f).2 (by omega)).1⟩, fun t ht => ?_⟩
    · show 1 + 15 ≤ mm.rangeEnd.id.toNat
      omega
    · exact hbegin ▸ ht.lo_le
  obtain ⟨mm₁, hs, hm⟩ := hI.step_granted (by decide) hfit
  have hused : ∀ f, f ∈ mm₁.used ↔ f ∈ mm.used ∨ 1 ≤ f ∧ f < 16 := fun f => by
    rw [hm.used]
    rfl
  have hfit₁ : IsLeast {t | mm₁.FitsIn 16 t} 128 := by
    refine ⟨⟨?_, ?_, fun f hf (hlt : f < 144) hmem => ?_⟩, fun t ht => ?_⟩
    · rw [hm.rangeBegin, hbegin]
      decide
    · rw [hm.rangeEnd]
      exact hend
    · rcases (hused f).1 hmem with hmem | hmem
      · exact ((hclear f).2 (by omega)).1 hmem
      · omega
    · -- from 1 to 127 there is a frame that is taken, or the fifteen that are handed out
      have hlo := ht.lo_le
      rw [hm.rangeBegin, hbegin] at hlo
      have hhi := ht.le_hi
      rw [hm.rangeEnd] at hhi
      have hfree : ∀ f, t ≤ f → f < t + 16 → f < 16 ∨ 128 ≤ f ∧ f < 144 := fun f hf hlt =>
        (hclear f).1 ⟨fun hmem => ht.free f hf hlt ((hused f).2 (.inl hmem)), lt_of_lt_of_le hlt hhi⟩
      have hlast := hfree (t + 15) (by omega) (by omega)
      have hfirst := hfree t le_rfl (by omega)
      have hbusy : t ∉ Set.Ico 1 16 := fun hmem => ht.free t le_rfl (by simp) ((hused t).2 (.inr hmem))
      rw [Set.mem_Ico] at hbusy
      omega
  obtain ⟨mm₂, hs₁, -⟩ := (hI.step hs).step_granted (by decide) hfit₁
  exact ⟨_, Run.cons_eq_some.2 ⟨_, hs, Run.cons_eq_some.2 ⟨_, hs₁, rfl⟩⟩, rfl⟩

theorem bootReservation_safe_mixedMap :
    mixedMap.Valid 5 ∧ ∃ mm s, setupMemoryManager mixedMap (fun _ => 0) = some mm ∧
      Session.run ⟨mm, []⟩ ([15, 16].map Call.allocate) = some s ∧ s.live = [⟨128, 16⟩, ⟨1, 15⟩] ∧
      ∀ b ∈ s.live, ∀ f ∈ b.places,
        (∃ k < 5, isAvailable (mixedMap.desc k).type = true ∧ frameBytes f ⊆ (mixedMap.desc k).addresses) ∧
        Disjoint (frameBytes f) (mixedMap.desc 2).addresses := by
  obtain ⟨mm, hset, hsafe⟩ := bootReservation_safe mixedMap 5 mixedMap_valid fun _ => 0
  obtain ⟨mm', hset', hup⟩ := mixedMap_valid.setUp fun _ => 0
  obtain rfl : mm = mm' := Option.some_inj.1 (hset.symm.trans hset')
  obtain ⟨s, hs, hlive⟩ := mixedMap_run hup
  refine ⟨mixedMap_valid, mm, s, hset, hs, hlive, fun b hb f hf => ?_⟩
  obtain ⟨hin, hapart⟩ := hsafe _ s hs b hb f hf
  exact ⟨hin, hapart 2 (by decide) rfl⟩

/-! ### A sorted map -/

def MemoryMap.Sorted (m : MemoryMap) (count : ℕ) : Prop :=
  ∀ i j, i < j → j < count → (m.desc i).physicalStart.toNat ≤ (m.desc j).physicalStart.toNat

/-- In a sorted map a descriptor keeps its frames when it is available, stands at an even position and
no available descriptor at a later even position starts at or below them. -/
theorem MemoryMap.Valid.keeps_iff (hv : m.Valid count) (hsort : m.Sorted count) {f k : ℕ}
    (hk : k < count) (hav : isAvailable (m.desc k).type = true)
    (hf : frameBytes f ⊆ (m.desc k).addresses) :
    (∃ i, m.Keeps count f i) ↔ k % 2 = 0 ∧ ∀ j, k < j → j < count → j % 2 = 0 →
      isAvailable (m.desc j).type = true → f * 4096 < (m.desc j).physicalStart.toNat := by
  have hmem := mem_frameBytes f
  constructor
  · rintro ⟨i, hi⟩
    obtain rfl : i = k := by
      by_contra hne
      exact Set.disjoint_left.1 (hv.disjoint i hi.lt k hk hne) (hi.mem hmem) (hf hmem)
    exact ⟨hi.even, hi.after⟩
  · rintro ⟨heven, hafter⟩
    refine ⟨k, hk, heven, hav, hf, fun j hj _ => ?_, hafter⟩
    exact (hsort j k hj hk).trans (hf hmem).1

/-- Out of a zeroed bitmap and a sorted map the set-up keeps every frame from 1 on of every available
descriptor exactly when all of these stand at even positions of the buffer and no available descriptor
at a later even position starts at or below one of their frames. -/
theorem bootScan_keeps_iff (m : MemoryMap) (count : ℕ) (hv : m.Valid count) (hsort : m.Sorted count) :
    ∃ mm, setupMemoryManager m (fun _ => 0) = some mm ∧
      ((∀ k < count, isAvailable (m.desc k).type = true → ∀ f, 1 ≤ f →
          frameBytes f ⊆ (m.desc k).addresses →
          mm.getBit ⟨BitVec.ofNat 64 f⟩ = some false ∧ f < mm.rangeEnd.id.toNat) ↔
        ∀ k < count, isAvailable (m.desc k).type = true → ∀ f, 1 ≤ f →
          frameBytes f ⊆ (m.desc k).addresses →
          k % 2 = 0 ∧ ∀ j, k < j → j < count → j % 2 = 0 →
            isAvailable (m.desc j).type = true → f * 4096 < (m.desc j).physicalStart.toNat) := by
  obtain ⟨mm, hset, hup⟩ := hv.setUp fun _ => 0
  refine ⟨mm, hset, forall₅_congr fun k hk hav f _ => forall_congr' fun hf => ?_⟩
  have hlt : f < kFrameCount := by
    have hb := (hv.fits k hk).bounded
    have hmem := mem_frameBytes f
    have h1 := (hf hmem).2
    have h2 : kMaxPhysicalMemoryBytes = kFrameCount * 4096 := rfl
    omega
  rw [getBit_ofNat_eq_false hlt, hup.clear f, construct_used_zero, ← hv.keeps_iff hsort hk hav hf]
  exact and_iff_right (Set.notMem_empty f)

/-! ### Two available regions side by side -/

/-- Sixteen available pages from address 0 on, and sixteen more right after them. -/
def twoRegionMap : MemoryMap where
  buffer := 0x7e000
  mapSize := 96
  descriptorSize := 48
  descAt a :=
    if a = 0x7e000 then ⟨MemoryType.kEfiConventionalMemory.value, 0, 16⟩
    else ⟨MemoryType.kEfiConventionalMemory.value, 0x10000, 16⟩

theorem twoRegionMap_valid : twoRegionMap.Valid 2 := by
  refine ⟨by decide, by decide, fun k hk => ?_, fun i hi j hj hij => ?_⟩
  · interval_cases k <;> exact ⟨by decide, by decide⟩
  · have h01 : Disjoint (twoRegionMap.desc 0).addresses (twoRegionMap.desc 1).addresses :=
      Set.disjoint_left.2 fun a ha ha' => absurd ha'.1 (not_le.2 ha.2)
    interval_cases i <;> interval_cases j
    · exact absurd rfl hij
    · exact h01
    · exact h01.symm
    · exact absurd rfl hij

theorem twoRegionMap_sorted : twoRegionMap.Sorted 2 := by
  intro i j hij hj
  interval_cases j
  · omega
  · obtain rfl : i = 0 := by omega
    decide

theorem twoRegionMap_keeps {f k : ℕ} (h : twoRegionMap.Keeps 2 f k) : f < 16 := by
  have hlt := h.lt
  have heven := h.even
  obtain rfl : k = 0 := by omega
  have hmem := mem_frameBytes f
  have hend : f * 4096 < 0 + 4096 * 16 := (h.mem hmem).2
  omega

theorem bootScan_keeps_iff_twoRegionMap :
    twoRegionMap.Valid 2 ∧ twoRegionMap.Sorted 2 ∧
      ∃ mm, setupMemoryManager twoRegionMap (fun _ => 0) = some mm ∧
        ¬ ∀ k < 2, isAvailable (twoRegionMap.desc k).type = true → ∀ f, 1 ≤ f →
          frameBytes f ⊆ (twoRegionMap.desc k).addresses →
          mm.getBit ⟨BitVec.ofNat 64 f⟩ = some false ∧ f < mm.rangeEnd.id.toNat := by
  obtain ⟨mm, hset, h⟩ := bootScan_keeps_iff twoRegionMap 2 twoRegionMap_valid twoRegionMap_sorted
  refine ⟨twoRegionMap_valid, twoRegionMap_sorted, mm, hset, fun hall => ?_⟩
  have hin : frameBytes 16 ⊆ (twoRegionMap.desc 1).addresses := fun a ha =>
    ⟨ha.1, ha.2.trans (by decide)⟩
  have hodd := h.1 hall 1 (by decide) rfl 16 (by decide) hin
  exact absurd hodd.1 (by decide)

/-- Frame 16 begins the second region, which is available; it cannot be allocated. -/
theorem bootScan_loses_region :
    twoRegionMap.Valid 2 ∧ twoRegionMap.Sorted 2 ∧
      isAvailable (twoRegionMap.desc 1).type = true ∧
      frameBytes 16 ⊆ (twoRegionMap.desc 1).addresses ∧
      ∃ mm, setupMemoryManager twoRegionMap (fun _ => 0) = some mm ∧
        ¬ (mm.getBit ⟨16⟩ = some false ∧ 16 < mm.rangeEnd.id.toNat) := by
  obtain ⟨mm, hset, hup⟩ := twoRegionMap_valid.setUp fun _ => 0
  refine ⟨twoRegionMap_valid, twoRegionMap_sorted, rfl, ?_, mm, hset, ?_⟩
  · intro a ha
    exact ⟨ha.1, ha.2.trans (by decide)⟩
  · rw [getBit_eq_false (by decide)]
    intro h
    obtain ⟨-, k, hk⟩ := (hup.clear 16).1 h
    exact absurd (twoRegionMap_keeps hk) (by decide)

end MosaOS
