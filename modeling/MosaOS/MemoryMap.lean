import MosaOS.FrameSet
import MosaOS.Lib.Reserve
import Mathlib.Tactic.Ring

/-!
# The boot scan of the UEFI memory map (`kernel/memory_map.hpp`, `kernel/kernel.cpp`)

`setupMemoryManager` is the part of `KernelMain` between the construction of the memory manager and
`InitializeHeap`: the loop over the memory map and `SetMemoryRange`. The loop advances `iter` twice a
turn, in its body and in its header, so it looks at every other descriptor only (`scanLoop_eq`).

`scanDescriptor_step` connects one turn to the scan of `Reserve` over frame numbers: the used frames
are the reserved points, `available_end` is the point `stop`.
-/

namespace MosaOS
open BitmapMemoryManager

inductive MemoryType where
  | kEfiReservedMemoryType | kEfiLoaderCode | kEfiLoaderData | kEfiBootServicesCode
  | kEfiBootServicesData | kEfiRuntimeServicesCode | kEfiRuntimeServicesData
  | kEfiConventionalMemory | kEfiUnusableMemory | kEfiACPIReclaimMemory | kEfiACPIMemoryNVS
  | kEfiMemoryMappedIO | kEfiMemoryMappedIOPortSpace | kEfiPalCode | kEfiPersistentMemory
  | kEfiMaxMemoryType
deriving DecidableEq, Repr

/-- The enumerator as the `uint32_t` a descriptor holds; a descriptor may hold other values too. -/
def MemoryType.value (t : MemoryType) : BitVec 32 := BitVec.ofNat 32 t.ctorIdx

structure MemoryDescriptor where
  type : BitVec 32
  physicalStart : SizeT
  numberOfPages : SizeT
deriving DecidableEq, Repr

def isAvailable (memoryType : BitVec 32) : Bool :=
  memoryType == MemoryType.kEfiBootServicesCode.value ||
  memoryType == MemoryType.kEfiBootServicesData.value ||
  memoryType == MemoryType.kEfiConventionalMemory.value

def kUEFIPageSize : SizeT := 4096

/-- The memory map the loader hands over. `descAt` reads the descriptor at an address: the buffer is an
object of the loader, so its addresses and the ones just past it do not wrap. -/
structure MemoryMap where
  buffer : ℕ
  mapSize : ℕ
  descriptorSize : ℕ
  descAt : ℕ → MemoryDescriptor

def MemoryMap.desc (m : MemoryMap) (k : ℕ) : MemoryDescriptor :=
  m.descAt (m.buffer + k * m.descriptorSize)

/-- The variables of the loop: the memory manager and `available_end`. -/
structure BootScan where
  mm : BitmapMemoryManager
  availableEnd : SizeT

/-- The first statement of the body: the gap before the region is marked. -/
def markGap (st : BootScan) (desc : MemoryDescriptor) : Option BitmapMemoryManager :=
  if st.availableEnd < desc.physicalStart then
    st.mm.markAllocated ⟨st.availableEnd / kBytesPerFrame⟩
      ((desc.physicalStart - st.availableEnd) / kBytesPerFrame)
  else some st.mm

/-- The body of the loop up to its last statement. -/
def scanDescriptor (st : BootScan) (desc : MemoryDescriptor) : Option BootScan := do
  let mm ← markGap st desc
  let physicalEnd := desc.physicalStart + desc.numberOfPages * kUEFIPageSize
  if isAvailable desc.type then
    some ⟨mm, physicalEnd⟩
  else
    let mm ← mm.markAllocated ⟨desc.physicalStart / kBytesPerFrame⟩
      (desc.numberOfPages * kUEFIPageSize / kBytesPerFrame)
    some ⟨mm, st.availableEnd⟩

/-- The loop, `none` when it does not end: with a positive `descriptor_size` every turn advances `iter`
and `fuel = map_size` turns are enough. -/
def scanLoop (m : MemoryMap) : ℕ → ℕ → BootScan → Option BootScan
  | 0, iter, st => if iter < m.buffer + m.mapSize then none else some st
  | fuel + 1, iter, st =>
    if iter < m.buffer + m.mapSize then do
      let st ← scanDescriptor st (m.descAt iter)
      let iter := iter + m.descriptorSize -- the last statement of the body
      scanLoop m fuel (iter + m.descriptorSize) st
    else some st

/-- `KernelMain` from the construction of the memory manager to `SetMemoryRange`. -/
def setupMemoryManager (m : MemoryMap) (allocMap : WordArray kMapLines 64) :
    Option BitmapMemoryManager := do
  let st ← scanLoop m m.mapSize m.buffer ⟨construct allocMap, 0⟩
  some (st.mm.setMemoryRange ⟨1⟩ ⟨st.availableEnd / kBytesPerFrame⟩)

/-! ### What the loop looks at -/

theorem scanLoop_range' {m : MemoryMap} {count : ℕ} (hpos : 0 < m.descriptorSize)
    (hsize : m.mapSize = count * m.descriptorSize) (r i fuel : ℕ) (st : BootScan)
    (hr : i + r = (count + 1) / 2) (hfuel : r ≤ fuel) :
    scanLoop m fuel (m.buffer + 2 * i * m.descriptorSize) st =
      (List.range' i r).foldlM (fun st i => scanDescriptor st (m.desc (2 * i))) st := by
  induction r generalizing i fuel st with
  | zero =>
    have hend : ¬ m.buffer + 2 * i * m.descriptorSize < m.buffer + m.mapSize := by
      have : count * m.descriptorSize ≤ 2 * i * m.descriptorSize :=
        Nat.mul_le_mul_right _ (by omega)
      omega
    cases fuel <;> simp [scanLoop, hend]
  | succ r ih =>
    obtain ⟨fuel, rfl⟩ : ∃ k, fuel = k + 1 := ⟨fuel - 1, by omega⟩
    have hlt : m.buffer + 2 * i * m.descriptorSize < m.buffer + m.mapSize := by
      rw [hsize]
      exact Nat.add_lt_add_left (Nat.mul_lt_mul_of_pos_right (by omega) hpos) _
    have hnext : m.buffer + 2 * i * m.descriptorSize + m.descriptorSize + m.descriptorSize =
        m.buffer + 2 * (i + 1) * m.descriptorSize := by ring
    rw [scanLoop, if_pos hlt, List.range'_succ, List.foldlM_cons]
    show (scanDescriptor st (m.desc (2 * i)) >>= _) = _
    congr 1
    funext st'
    simp only [hnext]
    exact ih (i + 1) fuel st' (by omega) (by omega)

theorem scanLoop_eq {m : MemoryMap} {count : ℕ} (hpos : 0 < m.descriptorSize)
    (hsize : m.mapSize = count * m.descriptorSize) (st : BootScan) :
    scanLoop m m.mapSize m.buffer st =
      (List.range ((count + 1) / 2)).foldlM (fun st i => scanDescriptor st (m.desc (2 * i))) st := by
  have hfuel : (count + 1) / 2 ≤ m.mapSize := by
    have : count * 1 ≤ count * m.descriptorSize := Nat.mul_le_mul_left _ hpos
    omega
  have h := scanLoop_range' hpos hsize ((count + 1) / 2) 0 m.mapSize st (by omega) hfuel
  rw [List.range_eq_range', ← h]
  simp

/-! ### One turn in frame numbers -/

namespace MemoryDescriptor

def addresses (d : MemoryDescriptor) : Set ℕ :=
  Set.Ico d.physicalStart.toNat (d.physicalStart.toNat + 4096 * d.numberOfPages.toNat)

def region (d : MemoryDescriptor) : Reserve.Region ℕ where
  lo := d.physicalStart.toNat / 4096
  hi := d.physicalStart.toNat / 4096 + d.numberOfPages.toNat
  avail := isAvailable d.type
  le := Nat.le_add_right _ _

structure Fits (d : MemoryDescriptor) : Prop where
  aligned : 4096 ∣ d.physicalStart.toNat
  bounded : d.physicalStart.toNat + 4096 * d.numberOfPages.toNat ≤ kMaxPhysicalMemoryBytes

end MemoryDescriptor

/-- The frames of a region are those whose bytes all lie in it. -/
def frameBytes (f : ℕ) : Set ℕ := Set.Ico (f * 4096) ((f + 1) * 4096)

theorem mem_frameBytes (f : ℕ) : f * 4096 ∈ frameBytes f := ⟨le_rfl, by omega⟩

theorem MemoryDescriptor.Fits.mem_region {d : MemoryDescriptor} (h : d.Fits) {f : ℕ} :
    f ∈ d.region.points ↔ frameBytes f ⊆ d.addresses := by
  obtain ⟨k, hk⟩ := h.aligned
  have hlo : d.physicalStart.toNat / 4096 = k := by omega
  simp only [Reserve.Region.mem_points, region, hlo, frameBytes, addresses]
  constructor
  · rintro ⟨h1, h2⟩ a ⟨ha1, ha2⟩
    exact ⟨by omega, by omega⟩
  · intro hsub
    have h1 := (hsub (mem_frameBytes f)).1
    have h2 := (hsub ⟨by omega, by omega⟩ : f * 4096 + 4095 ∈ _).2
    exact ⟨by omega, by omega⟩

theorem MemoryDescriptor.Fits.disjoint_region {d d' : MemoryDescriptor} (h : d.Fits) (h' : d'.Fits)
    (hd : Disjoint d.addresses d'.addresses) : Disjoint d.region.points d'.region.points := by
  refine Set.disjoint_left.2 fun f hf hf' => ?_
  have hmem := mem_frameBytes f
  exact Set.disjoint_left.1 hd (h.mem_region.1 hf hmem) (h'.mem_region.1 hf' hmem)

/-- A state of the loop, seen as a state of the scan over frame numbers. -/
structure BootScan.Sim (mm₀ : BitmapMemoryManager) (st : BootScan) (rs : Reserve.State ℕ) : Prop where
  used : st.mm.used = rs.used
  stop : st.availableEnd.toNat = rs.stop * 4096
  le : rs.stop ≤ kFrameCount
  rangeBegin : st.mm.rangeBegin = mm₀.rangeBegin
  rangeEnd : st.mm.rangeEnd = mm₀.rangeEnd

theorem BootScan.Sim.init (mm₀ : BitmapMemoryManager) : BootScan.Sim mm₀ ⟨mm₀, 0⟩ ⟨mm₀.used, 0⟩ where
  used := rfl
  stop := by simp
  le := Nat.zero_le _
  rangeBegin := rfl
  rangeEnd := rfl

theorem markAllocated_pages (mm : BitmapMemoryManager) {s n : SizeT} {k l : ℕ}
    (hs : s.toNat = k * 4096) (hn : n.toNat = l * 4096) (hle : k + l ≤ kFrameCount) :
    ∃ mm', mm.markAllocated ⟨s / kBytesPerFrame⟩ (n / kBytesPerFrame) = some mm' ∧
      Marked mm mm' (Set.Ico k (k + l)) := by
  have hs' : (s / kBytesPerFrame).toNat = k := by
    rw [BitVec.toNat_udiv, hs, show kBytesPerFrame.toNat = 4096 from rfl]; omega
  have hn' : (n / kBytesPerFrame).toNat = l := by
    rw [BitVec.toNat_udiv, hn, show kBytesPerFrame.toNat = 4096 from rfl]; omega
  obtain ⟨mm', h, hm⟩ := mm.markAllocated_spec (s := ⟨s / kBytesPerFrame⟩) (n := n / kBytesPerFrame)
    (by show (s / kBytesPerFrame).toNat + _ ≤ _; omega)
  simp only [hs', hn'] at hm
  exact ⟨mm', h, hm⟩

theorem markGap_spec {mm₀ : BitmapMemoryManager} {st : BootScan} {rs : Reserve.State ℕ}
    {d : MemoryDescriptor} (h : st.Sim mm₀ rs) (hd : d.Fits) :
    ∃ mm, markGap st d = some mm ∧ Marked st.mm mm (Set.Ico rs.stop d.region.lo) := by
  obtain ⟨k, hk⟩ := hd.aligned
  have hlo : d.region.lo = k := by show d.physicalStart.toNat / 4096 = k; omega
  have hstop := h.stop
  have hmax : kMaxPhysicalMemoryBytes = kFrameCount * 4096 := rfl
  have hbound := hd.bounded
  rw [hlo, markGap]
  by_cases hlt : st.availableEnd < d.physicalStart
  · rw [if_pos hlt]
    rw [BitVec.lt_def] at hlt
    have hle : rs.stop ≤ k := by omega
    have hsub : (d.physicalStart - st.availableEnd).toNat = (k - rs.stop) * 4096 := by
      rw [BitVec.toNat_sub]; omega
    have hgap := markAllocated_pages st.mm hstop hsub (by omega)
    rwa [Nat.add_sub_cancel' hle] at hgap
  · rw [if_neg hlt]
    rw [BitVec.lt_def] at hlt
    have hempty : Set.Ico rs.stop k = ∅ := Set.Ico_eq_empty (by omega)
    exact ⟨st.mm, rfl, hempty ▸ Marked.refl _⟩

/-- One turn of the loop is one step of the scan. -/
theorem scanDescriptor_step {mm₀ : BitmapMemoryManager} {st : BootScan} {rs : Reserve.State ℕ}
    {d : MemoryDescriptor} (h : st.Sim mm₀ rs) (hd : d.Fits) :
    ∃ st', scanDescriptor st d = some st' ∧ st'.Sim mm₀ (Reserve.step rs d.region) := by
  obtain ⟨mm, hgap, hm⟩ := markGap_spec h hd
  obtain ⟨k, hk⟩ := hd.aligned
  have hlo : d.physicalStart.toNat / 4096 = k := by omega
  have hmax : kMaxPhysicalMemoryBytes = kFrameCount * 4096 := rfl
  have hcount : kFrameCount = 2 ^ 25 := rfl
  have hbound := hd.bounded
  have hpages : (d.numberOfPages * kUEFIPageSize).toNat = d.numberOfPages.toNat * 4096 := by
    rw [BitVec.toNat_mul, show kUEFIPageSize.toNat = 4096 from rfl]; omega
  have hstart : d.physicalStart.toNat = k * 4096 := by omega
  simp only [scanDescriptor, hgap, Option.bind_eq_bind, Option.bind_some]
  cases hav : isAvailable d.type with
  | true =>
    refine ⟨_, rfl, ?_⟩
    rw [Reserve.step_of_avail (show d.region.avail = true from hav)]
    refine ⟨by rw [hm.used, h.used], ?_, ?_, hm.rangeBegin.trans h.rangeBegin,
      hm.rangeEnd.trans h.rangeEnd⟩
    · show (d.physicalStart + d.numberOfPages * kUEFIPageSize).toNat =
        (d.physicalStart.toNat / 4096 + d.numberOfPages.toNat) * 4096
      rw [BitVec.toNat_add, hpages]
      omega
    · show d.physicalStart.toNat / 4096 + d.numberOfPages.toNat ≤ kFrameCount
      omega
  | false =>
    obtain ⟨mm', hmark, hm'⟩ := markAllocated_pages mm hstart hpages (by omega)
    rw [if_neg Bool.false_ne_true, hmark]
    refine ⟨_, rfl, ?_⟩
    rw [Reserve.step_of_not_avail (show d.region.avail = false from hav)]
    have hpts : d.region.points = Set.Ico k (k + d.numberOfPages.toNat) := by
      rw [← hlo]; rfl
    refine ⟨?_, h.stop, h.le, (hm'.rangeBegin.trans hm.rangeBegin).trans h.rangeBegin,
      (hm'.rangeEnd.trans hm.rangeEnd).trans h.rangeEnd⟩
    rw [hm'.used, hm.used, h.used, hpts]

/-! ### The whole set-up -/

/-- The memory maps the firmware may hand over: whole descriptors of a positive size, in any order and
of any types, their regions page aligned, below `kMaxPhysicalMemoryBytes` and pairwise disjoint. -/
structure MemoryMap.Valid (m : MemoryMap) (count : ℕ) : Prop where
  descriptorSize_pos : 0 < m.descriptorSize
  mapSize_eq : m.mapSize = count * m.descriptorSize
  fits : ∀ k < count, (m.desc k).Fits
  disjoint : ∀ i < count, ∀ j < count, i ≠ j →
    Disjoint (m.desc i).addresses (m.desc j).addresses

def MemoryMap.scanned (m : MemoryMap) (i : ℕ) : Reserve.Region ℕ := (m.desc (2 * i)).region

theorem MemoryMap.Valid.scan {m : MemoryMap} {count : ℕ} (hv : m.Valid count)
    (allocMap : WordArray kMapLines 64) :
    ∃ st, scanLoop m m.mapSize m.buffer ⟨construct allocMap, 0⟩ = some st ∧
      st.Sim (construct allocMap)
        (Reserve.scan m.scanned ⟨(construct allocMap).used, 0⟩ ((count + 1) / 2)) := by
  rw [scanLoop_eq hv.descriptorSize_pos hv.mapSize_eq]
  have hle : ∀ n, n ≤ (count + 1) / 2 → ∃ st,
      (List.range n).foldlM (fun st i => scanDescriptor st (m.desc (2 * i)))
        ⟨construct allocMap, 0⟩ = some st ∧
      st.Sim (construct allocMap) (Reserve.scan m.scanned ⟨(construct allocMap).used, 0⟩ n) := by
    intro n hn
    induction n with
    | zero => exact ⟨_, rfl, .init _⟩
    | succ n ih =>
      obtain ⟨st, hst, hsim⟩ := ih (by omega)
      obtain ⟨st', hst', hsim'⟩ := scanDescriptor_step hsim (hv.fits (2 * n) (by omega))
      refine ⟨st', ?_, hsim'⟩
      rw [List.range_succ, Run.append_eq_some]
      exact ⟨st, hst, Run.cons_eq_some.2 ⟨st', hst', rfl⟩⟩
  exact hle _ le_rfl

/-- The descriptor at the even position `k` keeps frame `f`: it is available and contains `f`, no
descriptor at an earlier even position starts above `f`, and every available one at a later even
position does. -/
structure MemoryMap.Keeps (m : MemoryMap) (count f k : ℕ) : Prop where
  lt : k < count
  even : k % 2 = 0
  avail : isAvailable (m.desc k).type = true
  mem : frameBytes f ⊆ (m.desc k).addresses
  before : ∀ j < k, j % 2 = 0 → (m.desc j).physicalStart.toNat ≤ f * 4096
  after : ∀ j, k < j → j < count → j % 2 = 0 → isAvailable (m.desc j).type = true →
    f * 4096 < (m.desc j).physicalStart.toNat

theorem MemoryMap.Valid.keptBy_iff {m : MemoryMap} {count : ℕ} (hv : m.Valid count) {f i : ℕ} :
    Reserve.KeptBy m.scanned ((count + 1) / 2) f i ↔ m.Keeps count f (2 * i) := by
  have hlo : ∀ j < count, (m.desc j).physicalStart.toNat = (m.desc j).region.lo * 4096 :=
    fun j hj => by
      obtain ⟨k, hk⟩ := (hv.fits j hj).aligned
      show _ = (m.desc j).physicalStart.toNat / 4096 * 4096
      omega
  constructor
  · intro h
    have hi := h.lt
    refine ⟨by omega, by omega, h.avail, (hv.fits _ (by omega)).mem_region.1 h.mem,
      fun j hj hev => ?_, fun j hj hjc hev hav => ?_⟩
    · obtain ⟨j, rfl⟩ : ∃ l, j = 2 * l := ⟨j / 2, by omega⟩
      have := h.before j (by omega)
      rw [hlo _ (by omega)]
      exact Nat.mul_le_mul_right _ this
    · obtain ⟨j, rfl⟩ : ∃ l, j = 2 * l := ⟨j / 2, by omega⟩
      have := h.after j (by omega) (by omega) hav
      rw [hlo _ (by omega)]
      exact Nat.mul_lt_mul_of_pos_right this (by decide)
  · intro h
    have hi := h.lt
    refine ⟨by omega, h.avail, (hv.fits _ hi).mem_region.2 h.mem, fun j hj => ?_,
      fun j hj hjc hav => ?_⟩
    · have := h.before (2 * j) (by omega) (by omega)
      rw [hlo _ (by omega)] at this
      exact Nat.le_of_mul_le_mul_right this (by decide)
    · have := h.after (2 * j) (by omega) (by omega) (by omega) hav
      rw [hlo _ (by omega)] at this
      exact Nat.lt_of_mul_lt_mul_right this

/-- The memory manager after the set-up: its range starts at frame 1, and the frames below its end
whose bit is clear are the initially clear ones that a descriptor of the map keeps. -/
structure SetUp (m : MemoryMap) (count : ℕ) (allocMap : WordArray kMapLines 64)
    (mm : BitmapMemoryManager) : Prop where
  rangeBegin : mm.rangeBegin = ⟨1⟩
  inRange : mm.rangeEnd.id.toNat ≤ kFrameCount
  clear : ∀ f, f ∉ mm.used ∧ f < mm.rangeEnd.id.toNat ↔
    f ∉ (construct allocMap).used ∧ ∃ k, m.Keeps count f k

theorem MemoryMap.Valid.setUp {m : MemoryMap} {count : ℕ} (hv : m.Valid count)
    (allocMap : WordArray kMapLines 64) :
    ∃ mm, setupMemoryManager m allocMap = some mm ∧ SetUp m count allocMap mm := by
  obtain ⟨st, hst, hsim⟩ := hv.scan allocMap
  have hend : (st.availableEnd / kBytesPerFrame).toNat =
      (Reserve.scan m.scanned ⟨(construct allocMap).used, 0⟩ ((count + 1) / 2)).stop := by
    rw [BitVec.toNat_udiv, hsim.stop, show kBytesPerFrame.toNat = 4096 from rfl]
    omega
  have hdis : ∀ i < (count + 1) / 2, ∀ j < (count + 1) / 2, i ≠ j →
      Disjoint (m.scanned i).points (m.scanned j).points := fun i hi j hj hij =>
    (hv.fits _ (by omega)).disjoint_region (hv.fits _ (by omega))
      (hv.disjoint _ (by omega) _ (by omega) (by omega))
  refine ⟨st.mm.setMemoryRange ⟨1⟩ ⟨st.availableEnd / kBytesPerFrame⟩, ?_, rfl, ?_, fun f => ?_⟩
  · simp only [setupMemoryManager, hst, Option.bind_eq_bind, Option.bind_some]
  · show (st.availableEnd / kBytesPerFrame).toNat ≤ _
    rw [hend]
    exact hsim.le
  · show f ∉ st.mm.used ∧ f < (st.availableEnd / kBytesPerFrame).toNat ↔ _
    rw [hend, hsim.used]
    refine (Reserve.open_iff_kept (Nat.zero_le f) hdis).trans (and_congr_right fun _ => ⟨?_, ?_⟩)
    · rintro ⟨i, hi⟩
      exact ⟨2 * i, hv.keptBy_iff.1 hi⟩
    · rintro ⟨k, hk⟩
      obtain ⟨i, rfl⟩ : ∃ i, k = 2 * i := ⟨k / 2, by have := hk.even; omega⟩
      exact ⟨i, hv.keptBy_iff.2 hk⟩

end MosaOS
