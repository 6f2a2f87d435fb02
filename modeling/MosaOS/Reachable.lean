import MosaOS.BootMemory
import MosaOS.Paging

/-!
# Are the frames of the allocator mapped?

The bitmap covers `kMaxPhysicalMemoryBytes` = 128 GiB, the page directories `kPageDirectoryCount` = 64
GiB. `handed_out` shows that every clear frame of the range is returned by some run, so the frames the
allocator hands out are mapped exactly when no frame it can hand out lies at or above 64 GiB.
-/

namespace MosaOS
open FirstFit BitmapMemoryManager PageWalk

namespace Session
variable {mm₀ : BitmapMemoryManager} {s : Session} {f : ℕ}

/-- While `f` is clear `Allocate(1)` returns the least clear frame of the range. -/
theorem Inv.step_one (h : Inv mm₀ s) (hf : f ∉ s.mm.used) (hlo : mm₀.rangeBegin.id.toNat ≤ f)
    (hhi : f < mm₀.rangeEnd.id.toNat) :
    ∃ s' g, s.step (.allocate 1) = some s' ∧ mm₀.rangeBegin.id.toNat ≤ g ∧ g ≤ f ∧ g ∉ s.mm.used ∧
      (∀ x, mm₀.rangeBegin.id.toNat ≤ x → x < g → x ∈ s.mm.used) ∧
      s'.mm.used = s.mm.used ∪ {g} ∧ ∃ b ∈ s'.live, g ∈ b.places := by
  have hfits : ∀ g, mm₀.rangeBegin.id.toNat ≤ g → g ≤ f → g ∉ s.mm.used → s.mm.FitsIn 1 g := by
    intro g hg hgf hgu
    refine ⟨by rwa [h.rangeBegin], ?_, fun x hx hx' => ?_⟩
    · rw [h.rangeEnd]
      show g + 1 ≤ _
      omega
    · obtain rfl : x = g := le_antisymm (Nat.lt_succ_iff.1 hx') hx
      exact hgu
  obtain ⟨s', hs⟩ := h.step_allocate (n := 1) (by decide)
  cases h.step_cases hs with
  | refused _ hfit => exact absurd (hfits f hlo le_rfl hf) (hfit f)
  | granted _ g mm' _ hfit hm =>
    have hgf : g.id.toNat ≤ f := hfit.2 (hfits f hlo le_rfl hf)
    have hgu : g.id.toNat ∉ s.mm.used := hfit.1.free _ le_rfl (Nat.lt_succ_self _)
    refine ⟨_, g.id.toNat, hs, h.rangeBegin ▸ hfit.1.lo_le, hgf, hgu, fun x hx hxg => ?_, ?_, _,
      List.mem_cons_self, le_rfl, Nat.lt_succ_self _⟩
    · by_contra hxu
      exact absurd (hfit.2 (hfits x hx (hxg.le.trans hgf) hxu)) (Nat.not_le.2 hxg)
    · rw [hm.used]
      congr 1
      ext x
      exact ⟨fun hx => le_antisymm (Nat.lt_succ_iff.1 hx.2) hx.1,
        fun hx => ⟨hx.ge, Nat.lt_succ_iff.2 hx.le⟩⟩

/-- Every clear frame of the range is returned by some run. The induction is on a bound `d` for how far
below `f` the least clear frame lies. -/
theorem Inv.handed_out (h : Inv mm₀ s) (hf : f ∉ s.mm.used) (hlo : mm₀.rangeBegin.id.toNat ≤ f)
    (hhi : f < mm₀.rangeEnd.id.toNat) (d : ℕ)
    (hd : ∀ g, mm₀.rangeBegin.id.toNat ≤ g → g + d < f → g ∈ s.mm.used) :
    ∃ (ns : List SizeT) (s' : Session), s.run (ns.map Call.allocate) = some s' ∧
      ∃ b ∈ s'.live, f ∈ b.places := by
  induction d generalizing s with
  | zero =>
    obtain ⟨s', g, hs, hglo, hgf, hgu, -, -, hb⟩ := h.step_one hf hlo hhi
    rcases eq_or_lt_of_le hgf with rfl | hlt
    · exact ⟨[1], s', Run.cons_eq_some.2 ⟨s', hs, rfl⟩, hb⟩
    · exact absurd (hd g hglo hlt) hgu
  | succ d ih =>
    obtain ⟨s', g, hs, hglo, hgf, hgu, hbelow, hused, hb⟩ := h.step_one hf hlo hhi
    rcases eq_or_lt_of_le hgf with rfl | hlt
    · exact ⟨[1], s', Run.cons_eq_some.2 ⟨s', hs, rfl⟩, hb⟩
    · have hf' : f ∉ s'.mm.used := by
        rw [hused]
        rintro (hmem | rfl)
        · exact hf hmem
        · exact lt_irrefl _ hlt
      obtain ⟨ns, t, hrun, hmem⟩ := ih (h.step hs) hf' fun x hx hxd => by
        rw [hused]
        rcases lt_trichotomy x g with hxg | rfl | hxg
        · exact Or.inl (hbelow x hx hxg)
        · exact Or.inr rfl
        · exact absurd (hd g hglo (by omega)) hgu
      exact ⟨1 :: ns, t, Run.cons_eq_some.2 ⟨s', hs, hrun⟩, hmem⟩

end Session

variable {m : MemoryMap} {count : ℕ} {allocMap : WordArray kMapLines 64} {mm : BitmapMemoryManager}

/-- Every address of the frame translates to itself and may be written. -/
def IsMapped (read : ℕ → BitVec 64) (cr3 : BitVec 64) (f : ℕ) : Prop :=
  ∀ a ∈ frameBytes f, walk read cr3 (BitVec.ofNat 48 a) = .ok ⟨a, true⟩

theorem IdentityTables.isMapped_iff {l : Layout} {t : PageTables} {rest : ℕ → BitVec 64}
    (h : IdentityTables l t) {f : ℕ} (hf : f < kFrameCount) :
    IsMapped (l.memory t rest) l.pml4Table f ↔ f < kPageDirectoryCount * 2 ^ 18 := by
  have hcount : kFrameCount = 2 ^ 25 := rfl
  have hid : ∀ a ∈ frameBytes f, (BitVec.ofNat 48 a).toNat = a := fun a ha => by
    rw [BitVec.toNat_ofNat, Nat.mod_eq_of_lt (by have := ha.2; omega)]
  have hlimit : kPageDirectoryCount * 2 ^ 30 = kPageDirectoryCount * 2 ^ 18 * 4096 := rfl
  constructor
  · intro hmap
    by_contra hge
    have hmem := mem_frameBytes f
    have hfault : walk (l.memory t rest) l.pml4Table (BitVec.ofNat 48 (f * 4096)) =
        .error .notPresent := h.walk_of_ge (by
      rw [hid _ hmem, hlimit]
      exact Nat.mul_le_mul_right _ (Nat.not_lt.1 hge))
    rw [hmap _ hmem] at hfault
    cases hfault
  · intro hlt a ha
    have hwalk : walk (l.memory t rest) l.pml4Table (BitVec.ofNat 48 a) =
        .ok ⟨(BitVec.ofNat 48 a).toNat, true⟩ := h.walk_of_lt (by
      rw [hid _ ha, hlimit]
      exact ha.2.trans_le (Nat.mul_le_mul_right _ hlt))
    rwa [hid _ ha] at hwalk

/-- After `SetupIdentityPageTable` and the set-up of the memory manager every frame that a run of
`Allocate` calls returns (the block of `InitializeHeap` is one of them) is mapped exactly when no
initially clear frame that a descriptor keeps lies at or above `kPageDirectoryCount` GiB. -/
theorem allocated_isMapped_iff (m : MemoryMap) (count : ℕ) (hv : m.Valid count)
    (allocMap : WordArray kMapLines 64) (l : Layout) (rest : ℕ → BitVec 64) :
    ∃ mm, setupMemoryManager m allocMap = some mm ∧
      ((∀ (ns : List SizeT) s, Session.run ⟨mm, []⟩ (ns.map Call.allocate) = some s →
          ∀ b ∈ s.live, ∀ f ∈ b.places,
            IsMapped (l.memory (setupIdentityPageTable l .zero).1 rest)
              (setupIdentityPageTable l .zero).2 f) ↔
        ∀ f k, f ∉ (construct allocMap).used → m.Keeps count f k →
          f < kPageDirectoryCount * 2 ^ 18) := by
  obtain ⟨mm, hset, hup⟩ := hv.setUp allocMap
  have htab := setupIdentityPageTable_spec l
  refine ⟨mm, hset, fun hmap f k hclear hk => ?_, fun hlow ns s hs b hb f hf => ?_⟩
  · obtain ⟨hfree, hlt⟩ := (hup.clear f).2 ⟨hclear, k, hk⟩
    rcases Nat.eq_zero_or_pos f with rfl | hpos
    · decide
    have hbegin : mm.rangeBegin.id.toNat ≤ f := by
      rw [hup.rangeBegin]
      exact hpos
    obtain ⟨ns, s, hs, b, hb, hf⟩ := (Session.Inv.init hup.inRange).handed_out hfree hbegin hlt f
      fun g _ hg => absurd hg (by omega)
    exact (htab.isMapped_iff (hlt.trans_le hup.inRange)).1 (hmap ns s hs b hb f hf)
  · obtain ⟨hclear, k, hk⟩ := hup.kept_of_live hs hb hf
    have hlt := ((hup.clear f).2 ⟨hclear, k, hk⟩).2
    exact (htab.isMapped_iff (hlt.trans_le hup.inRange)).2 (hlow f k hclear hk)

/-! ### One region that reaches past the page directories -/

/-- The tables one after another from 1 MiB on. -/
def lowLayout : Layout where
  pml4Table := 0x100000
  pdpTable := 0x101000
  pageDirectory := 0x102000
  pml4Table_dvd := by decide
  pdpTable_dvd := by decide
  pageDirectory_dvd := by decide
  pml4Table_le := by decide
  pdpTable_le := by decide
  pageDirectory_le := by decide
  pml4_pdp := by decide
  pml4_pd := by decide
  pdp_pd := by decide

theorem allocated_isMapped_iff_twoRegionMap :
    twoRegionMap.Valid 2 ∧ ∃ mm, setupMemoryManager twoRegionMap (fun _ => 0) = some mm ∧
      ∀ (ns : List SizeT) s, Session.run ⟨mm, []⟩ (ns.map Call.allocate) = some s →
        ∀ b ∈ s.live, ∀ f ∈ b.places,
          IsMapped (lowLayout.memory (setupIdentityPageTable lowLayout .zero).1 fun _ => 0)
            (setupIdentityPageTable lowLayout .zero).2 f := by
  obtain ⟨mm, hset, h⟩ :=
    allocated_isMapped_iff twoRegionMap 2 twoRegionMap_valid (fun _ => 0) lowLayout fun _ => 0
  refine ⟨twoRegionMap_valid, mm, hset, h.2 fun f k _ hk => ?_⟩
  exact (twoRegionMap_keeps hk).trans (by decide)

/-- Conventional memory from address 0 to one page above 64 GiB. -/
def highMemoryMap : MemoryMap where
  buffer := 0x7e000
  mapSize := 48
  descriptorSize := 48
  descAt _ := ⟨MemoryType.kEfiConventionalMemory.value, 0, 0x1000001⟩

theorem highMemoryMap_valid : highMemoryMap.Valid 1 := by
  refine ⟨by decide, by decide, fun k hk => ?_, fun i hi j hj hij => ?_⟩
  · obtain rfl : k = 0 := Nat.lt_one_iff.1 hk
    exact ⟨by decide, by decide⟩
  · omega

theorem highMemoryMap_keeps {f : ℕ} (hf : f < 0x1000001) : highMemoryMap.Keeps 1 f 0 where
  lt := Nat.zero_lt_one
  even := rfl
  avail := rfl
  mem a ha := ⟨Nat.zero_le a, by
    have hlt : a < (f + 1) * 4096 := ha.2
    show a < 0 + 4096 * 0x1000001
    omega⟩
  before j hj := absurd hj (Nat.not_lt_zero j)
  after j hj hj' := by omega

/-- `Allocate(2^24)` returns the frames 1 to 2^24, and the last one lies past the page directories. -/
theorem allocated_not_mapped :
    highMemoryMap.Valid 1 ∧ ∃ mm s, setupMemoryManager highMemoryMap (fun _ => 0) = some mm ∧
      Session.run ⟨mm, []⟩ [.allocate 0x1000000] = some s ∧
      ∃ b ∈ s.live, 0x1000000 ∈ b.places ∧
        ¬ IsMapped (lowLayout.memory (setupIdentityPageTable lowLayout .zero).1 fun _ => 0)
          (setupIdentityPageTable lowLayout .zero).2 0x1000000 := by
  obtain ⟨mm, hset, hup⟩ := highMemoryMap_valid.setUp fun _ => 0
  have hclear : ∀ f, f < 0x1000001 → f ∉ mm.used ∧ f < mm.rangeEnd.id.toNat := fun f hf =>
    (hup.clear f).2 ⟨by rw [construct_used_zero]; exact Set.notMem_empty f, 0, highMemoryMap_keeps hf⟩
  have hfit : mm.FitsIn 0x1000000 1 := by
    refine ⟨by rw [hup.rangeBegin]; decide, ?_, fun f _ hf => ?_⟩
    · have hlt := (hclear 0x1000000 (by decide)).2
      show 1 + 0x1000000 ≤ _
      omega
    · have hlt : f < 1 + 0x1000000 := hf
      exact (hclear f (by omega)).1
  have hI := Session.Inv.init hup.inRange
  obtain ⟨s, hs⟩ := hI.step_allocate (n := 0x1000000) (by decide)
  refine ⟨highMemoryMap_valid, mm, s, hset, Run.cons_eq_some.2 ⟨s, hs, rfl⟩, ?_⟩
  cases hI.step_cases hs with
  | refused _ hno => exact absurd hfit (hno 1)
  | granted _ g mm' _ hleast _ =>
    have hg : g.id.toNat ≤ 1 := hleast.2 hfit
    have hg1 : mm.rangeBegin.id.toNat ≤ g.id.toNat := hleast.1.lo_le
    rw [hup.rangeBegin] at hg1
    replace hg1 : 1 ≤ g.id.toNat := hg1
    refine ⟨_, List.mem_cons_self, ⟨?_, ?_⟩, ?_⟩
    · show g.id.toNat ≤ 0x1000000
      omega
    · show 0x1000000 < g.id.toNat + 0x1000000
      omega
    · rw [show (setupIdentityPageTable lowLayout .zero).2 = lowLayout.pml4Table from rfl,
        (setupIdentityPageTable_spec lowLayout).isMapped_iff (by decide)]
      decide

end MosaOS
