import MosaOS.AsmFunc
import MosaOS.Interrupt
import MosaOS.Paging

/-!
# The processor that `KernelMain` sets up (`kernel/kernel.cpp`)

`KernelMain` calls `SetupSegments`, `SetDSAll`, `SetCSSS`, `SetupIdentityPageTable` and
`InitializeInterrupt`, which fill the static tables in memory and load the registers of the processor.
`Machine.setup_ready` says what the processor makes of the tables and the registers in the end, whatever
was in memory and in the registers before.
-/

namespace MosaOS
open ByteMem Descriptor PageWalk X86

/-! ### The tables in memory -/

def SegmentDescriptor.load (m : Memory) (a : SizeT) : SegmentDescriptor := ⟨readU64 m a⟩

def InterruptDescriptor.load (m : Memory) (a : SizeT) : InterruptDescriptor where
  offsetLow := readU16 m a
  segmentSelector := readU16 m (a + 2)
  attr := ⟨readU16 m (a + 4)⟩
  offsetMiddle := readU16 m (a + 6)
  offsetHigh := readU32 m (a + 8)
  reserved := readU32 m (a + 12)

namespace Layout
variable (l : Layout)

def bytes : Set SizeT :=
  range l.pml4Table 4096 ∪ range l.pdpTable 4096 ∪ range l.pageDirectory (kPageDirectoryCount * 4096)

def load (m : Memory) : PageTables where
  pml4Table k := readU64 m (l.pml4Table + BitVec.ofNat 64 (8 * k))
  pdpTable k := readU64 m (l.pdpTable + BitVec.ofNat 64 (8 * k))
  pageDirectory i k := readU64 m (l.directory i + BitVec.ofNat 64 (8 * k))

def storePml4 (t : PageTables) (m : Memory) : Memory :=
  writeArray m l.pml4Table 8 fun k => (t.pml4Table k).toNat

def storePdp (t : PageTables) (m : Memory) : Memory :=
  writeArray m l.pdpTable 8 fun k => (t.pdpTable k).toNat

/-- The directories stand one after the other. -/
def storeDirectories (t : PageTables) (m : Memory) : Memory :=
  writeArray m l.pageDirectory 8 fun k : Fin (kPageDirectoryCount * 512) =>
    (t.pageDirectory k.divNat k.modNat).toNat

def store (t : PageTables) (m : Memory) : Memory := l.storeDirectories t (l.storePdp t (l.storePml4 t m))

end Layout

/-- Where the linker put the tables. -/
structure TableObjects where
  gdt : SizeT
  idt : SizeT
  tables : Layout
  gdt_idt : Disjoint (range gdt 24) (range idt 4096)
  gdt_tables : Disjoint (range gdt 24) tables.bytes
  idt_tables : Disjoint (range idt 4096) tables.bytes

namespace TableObjects
variable (o : TableObjects)

def bytes : Set SizeT := range o.gdt 24 ∪ range o.idt 4096 ∪ o.tables.bytes

theorem gdt_subset : range o.gdt 24 ⊆ o.bytes := fun _ ha => Or.inl (Or.inl ha)

theorem idt_subset : range o.idt 4096 ⊆ o.bytes := fun _ ha => Or.inl (Or.inr ha)

theorem tables_subset : o.tables.bytes ⊆ o.bytes := fun _ ha => Or.inr ha

def loadGdt (m : Memory) (i : Fin 3) : SegmentDescriptor := .load m (o.gdt + BitVec.ofNat 64 (8 * i))

def loadIdt (m : Memory) (v : Fin 256) : InterruptDescriptor := .load m (o.idt + BitVec.ofNat 64 (16 * v))

def storeGdt (gdt : Fin 3 → SegmentDescriptor) (m : Memory) : Memory :=
  writeArray m o.gdt 8 fun i => (gdt i).data.toNat

def storeIdt (idt : Fin 256 → InterruptDescriptor) (m : Memory) : Memory :=
  writeArray m o.idt 16 fun v => (idt v).number.toNat

end TableObjects

/-- The segments of the kernel file, with the code in them too. The stack and the variables that are not in the
memory of the model are `own`. -/
structure KernelObjects extends TableObjects where
  image : List (SizeT × ℕ)
  own : List (SizeT × ℕ)
  tables_image : toTableObjects.bytes ⊆ bytesOf image
  own_image : bytesOf own ⊆ bytesOf image
  own_tables : Disjoint (bytesOf own) toTableObjects.bytes
  low : ∀ a ∈ bytesOf image, a.toNat < kPageDirectoryCount * 2 ^ 30

/-! ### The calls -/

/-- The quadword at a physical address. -/
def physRead (m : Memory) (p : ℕ) : BitVec 64 := readU64 m (BitVec.ofNat 64 p)

/-- The memory below `kPageDirectoryCount` GiB is where it is without page tables. -/
def MappedToItself (m : Memory) (cr3 : SizeT) : Prop :=
  ∀ a, a < kPageDirectoryCount * 2 ^ 30 → walk (physRead m) cr3 (BitVec.ofNat 48 a) = .ok ⟨a, true⟩

instance (m : Memory) (cr3 : SizeT) : Decidable (MappedToItself m cr3) := Nat.decidableBallLT _ _

/-- `none` for tables with which the kernel would not find its own memory. -/
def setCR3 (value : SizeT) (m : Memory) (sys : System) : Option System :=
  if MappedToItself m value then some { sys with cr3 := value } else none

theorem setCR3_eq {value : SizeT} {m : Memory} (sys : System) (h : MappedToItself m value) :
    setCR3 value m sys = some { sys with cr3 := value } := if_pos h

/-- The processor and the memory. What the calls to come leave on the stack and in the variables is in `scratch`. -/
structure Machine where
  sys : System
  mem : Memory
  scratch : ℕ → Memory

namespace Machine
variable (o : KernelObjects)

/-- At the end of a call. -/
def called (k : Machine) : Machine :=
  { k with mem := overwrite o.own (k.scratch 0) k.mem, scratch := fun n => k.scratch (n + 1) }

def setupSegments (k : Machine) : Option Machine := do
  let gdt := MosaOS.setupSegments (o.loadGdt k.mem)
  let sys ← loadGDT (8 * 3 - 1) o.gdt k.sys
  some ({ k with mem := o.storeGdt gdt k.mem, sys }.called o)

def setDSAll (value : BitVec 16) (k : Machine) : Option Machine := do
  let (mem, sys) ← MosaOS.setDSAll value k.mem k.sys
  some ({ k with mem, sys }.called o)

def setCSSS (cs ss : BitVec 16) (k : Machine) : Option Machine := do
  let (mem, sys) ← MosaOS.setCSSS cs ss k.mem k.sys
  some ({ k with mem, sys }.called o)

def setupIdentityPageTable (k : Machine) : Option Machine := do
  let tables := MosaOS.setupIdentityPageTable o.tables (o.tables.load k.mem)
  let mem := o.tables.store tables.1 k.mem
  let sys ← setCR3 tables.2 mem k.sys
  some ({ k with mem, sys }.called o)

def initializeInterrupt (intDefault intSegFault : SizeT) (k : Machine) : Option Machine := do
  let cs := getCS k.sys
  let idt := MosaOS.initializeInterrupt intDefault intSegFault cs (o.loadIdt k.mem)
  let sys ← loadIDT (16 * 256 - 1) o.idt k.sys
  some ({ k with mem := o.storeIdt idt k.mem, sys }.called o)

def setup (intDefault intSegFault : SizeT) (k : Machine) : Option Machine := do
  let k ← k.setupSegments o
  let k ← k.setDSAll o 0
  let k ← k.setCSSS o kernelCs kernelSs
  let k ← k.setupIdentityPageTable o
  k.initializeInterrupt o intDefault intSegFault

end Machine

/-! ### What the processor does with them -/

structure Ready (intDefault intSegFault : SizeT) (sys : System) (m : Memory) : Prop where
  /-- The code segment is one of 64-bit code at level 0. -/
  code : segmentAt m sys.gdtr (sys.seg .cs) = some ⟨0, 0xfffff, 11, true, 0, true, false, true, false, true⟩
  stack : segmentAt m sys.gdtr (sys.seg .ss) = some ⟨0, 0xfffff, 3, true, 0, true, false, false, true, true⟩
  data : ∀ r ∈ [SegReg.ds, .es, .fs, .gs], sys.seg r = 0
  translate : ∀ va : BitVec 48, va.toNat < kPageDirectoryCount * 2 ^ 30 →
    walk (physRead m) sys.cr3 va = .ok ⟨va.toNat, true⟩
  interrupt : ∀ vector : BitVec 8, vector.toNat < 0x14 → handler m sys.gdtr sys.idtr vector =
    some (if vector = 0x0c then intSegFault else intDefault)

/-- The same page tables, but for the accessed and dirty bits that the processor sets. -/
def Layout.Same (l : Layout) (m m' : Memory) : Prop :=
  ∀ a ∈ l.bytes, 8 ∣ a.toNat → SameEntry (readU64 m a) (readU64 m' a)

/-- The same tables for the processor. -/
structure TableObjects.Same (o : TableObjects) (m m' : Memory) : Prop where
  gdt : Set.EqOn m' m (range o.gdt 24)
  idt : Set.EqOn m' m (range o.idt 4096)
  tables : o.tables.Same m m'

variable {m m' : Memory} {l : Layout} {t : PageTables} {o : KernelObjects} {intDefault intSegFault : SizeT}

/-! ### The page tables in memory -/

theorem readU64_writeArray {count : ℕ} {a : SizeT} {elem : Fin count → BitVec 64} (hfit : 8 * count ≤ 2 ^ 64)
    (i : Fin count) : readU64 (writeArray m a 8 fun i => (elem i).toNat) (a + BitVec.ofNat 64 (8 * i)) = elem i :=
  ofNat_readNat rfl (bytesAt_writeArray hfit i)

theorem readU64_congr {a b : SizeT} {k n : ℕ} (h : Set.EqOn m' m (range b n)) (ha : a = b + BitVec.ofNat 64 k)
    (hk : k + 8 ≤ n) (hn : n ≤ 2 ^ 64) : readU64 m' a = readU64 m a := by
  subst ha
  rw [readU64, readU64, readNat_congr (by simp) (h.mono (range_add_subset hk (hk.trans hn)))]

theorem physRead_add (a : SizeT) (k : ℕ) : physRead m (a.toNat + k) = readU64 m (a + BitVec.ofNat 64 k) := by
  rw [physRead, BitVec.ofNat_add, BitVec.ofNat_toNat, BitVec.setWidth_eq]

namespace Layout

theorem directory_add (i : Fin kPageDirectoryCount) (k : Fin 512) :
    l.directory i + BitVec.ofNat 64 (8 * k) = l.pageDirectory + BitVec.ofNat 64 (8 * (512 * i + k)) := by
  rw [directory, add_ofNat]
  congr 2
  omega

/-- What a walk below `kPageDirectoryCount` GiB reads, as C reads it. -/
theorem low_iff : LowTables l (physRead m) ↔ (l.load m).pml4Table 0 = l.pdpTable ||| 0x003 ∧
    (∀ i, (l.load m).pdpTable (pdpIndex i) = l.directory i ||| 0x003) ∧
    ∀ i k, (l.load m).pageDirectory i k = pageEntry i k := by
  constructor
  · rintro ⟨hpml4, hpdp, hpage⟩
    refine ⟨(physRead_add l.pml4Table 0).symm.trans hpml4, fun i => ?_, fun i k => ?_⟩
    · exact (physRead_add ..).symm.trans (hpdp i)
    · exact (physRead_add ..).symm.trans (hpage i k)
  · rintro ⟨hpml4, hpdp, hpage⟩
    refine ⟨(physRead_add l.pml4Table 0).trans hpml4, fun i => ?_, fun i k => ?_⟩
    · exact (physRead_add ..).trans (hpdp i)
    · exact (physRead_add ..).trans (hpage i k)

theorem ends (l : Layout) : l.pml4Table.toNat + 4096 ≤ 2 ^ 64 ∧ l.pdpTable.toNat + 4096 ≤ 2 ^ 64 ∧
    l.pageDirectory.toNat + kPageDirectoryCount * 4096 ≤ 2 ^ 64 := by
  have hle : (2 : ℕ) ^ 52 ≤ 2 ^ 64 := Nat.pow_le_pow_right (by simp) (by simp)
  exact ⟨l.pml4Table_le.trans hle, l.pdpTable_le.trans hle, l.pageDirectory_le.trans hle⟩

theorem disjoint_pml4_pdp (l : Layout) : Disjoint (range l.pml4Table 4096) (range l.pdpTable 4096) :=
  disjoint_range_of_le l.ends.1 l.ends.2.1 l.pml4_pdp

theorem disjoint_pml4_pd (l : Layout) :
    Disjoint (range l.pml4Table 4096) (range l.pageDirectory (kPageDirectoryCount * 4096)) :=
  disjoint_range_of_le l.ends.1 l.ends.2.2 l.pml4_pd

theorem disjoint_pdp_pd (l : Layout) :
    Disjoint (range l.pdpTable 4096) (range l.pageDirectory (kPageDirectoryCount * 4096)) :=
  disjoint_range_of_le l.ends.2.1 l.ends.2.2 l.pdp_pd

theorem storePml4_frame (l : Layout) (t : PageTables) (m : Memory) :
    Set.EqOn (l.storePml4 t m) m (range l.pml4Table 4096)ᶜ := eqOn_writeArray m l.pml4Table 8 _

theorem storePdp_frame (l : Layout) (t : PageTables) (m : Memory) :
    Set.EqOn (l.storePdp t m) m (range l.pdpTable 4096)ᶜ := eqOn_writeArray m l.pdpTable 8 _

theorem storeDirectories_frame (l : Layout) (t : PageTables) (m : Memory) :
    Set.EqOn (l.storeDirectories t m) m (range l.pageDirectory (kPageDirectoryCount * 4096))ᶜ :=
  eqOn_writeArray m l.pageDirectory 8 _

theorem store_frame (l : Layout) (t : PageTables) (m : Memory) : Set.EqOn (l.store t m) m l.bytesᶜ := by
  intro x hx
  simp only [bytes, Set.mem_compl_iff, Set.mem_union, not_or] at hx
  obtain ⟨⟨h4, h3⟩, h2⟩ := hx
  rw [store, storeDirectories_frame l t _ h2, storePdp_frame l t _ h3, storePml4_frame l t m h4]

/-- The tables are read as they were stored. -/
theorem load_store (l : Layout) (t : PageTables) (m : Memory) : l.load (l.store t m) = t := by
  have hpdp : Set.EqOn (l.store t m) (l.storePdp t (l.storePml4 t m)) (range l.pdpTable 4096) :=
    frame_apart (storeDirectories_frame l t _) l.disjoint_pdp_pd
  have hpml4 : Set.EqOn (l.store t m) (l.storePml4 t m) (range l.pml4Table 4096) :=
    (frame_apart (storeDirectories_frame l t _) l.disjoint_pml4_pd).trans
      (frame_apart (storePdp_frame l t _) l.disjoint_pml4_pdp)
  have h4 : (l.load (l.store t m)).pml4Table = t.pml4Table := by
    funext k
    have hk := k.isLt
    exact (readU64_congr hpml4 rfl (by omega) (by simp)).trans (readU64_writeArray (by simp) k)
  have h3 : (l.load (l.store t m)).pdpTable = t.pdpTable := by
    funext k
    have hk := k.isLt
    exact (readU64_congr hpdp rfl (by omega) (by simp)).trans (readU64_writeArray (by simp) k)
  have h2 : (l.load (l.store t m)).pageDirectory = t.pageDirectory := by
    funext i k
    have hread : readU64 (l.store t m) (l.pageDirectory + BitVec.ofNat 64 (8 * (Fin.mkDivMod i k))) =
        t.pageDirectory (Fin.mkDivMod i k).divNat (Fin.mkDivMod i k).modNat :=
      readU64_writeArray (by simp [kPageDirectoryCount]) (Fin.mkDivMod i k)
    rw [Fin.divNat_mkDivMod, Fin.modNat_mkDivMod] at hread
    exact (congrArg _ (directory_add i k)).trans hread
  calc l.load (l.store t m) = ⟨(l.load (l.store t m)).pml4Table, (l.load (l.store t m)).pdpTable,
        (l.load (l.store t m)).pageDirectory⟩ := rfl
    _ = t := by rw [h4, h3, h2]

end Layout

theorem setupIdentityPageTable_low (l : Layout) (t : PageTables) :
    (setupIdentityPageTable l t).1.pml4Table 0 = l.pdpTable ||| 0x003 ∧
      (∀ i, (setupIdentityPageTable l t).1.pdpTable (pdpIndex i) = l.directory i ||| 0x003) ∧
      ∀ i k, (setupIdentityPageTable l t).1.pageDirectory i k = pageEntry i k := by
  obtain ⟨h4, h3, -, h2⟩ := foldl_setDirectory l (List.finRange kPageDirectoryCount) (setPml4 l t)
  have hall := List.mem_finRange (n := kPageDirectoryCount)
  rw [setupIdentityPageTable]
  generalize List.finRange kPageDirectoryCount = is at h4 h3 h2 hall ⊢
  refine ⟨?_, fun i => h3 i (hall i), fun i k => congrFun (h2 i (hall i)) k⟩
  rw [h4]
  simp [setPml4]

/-! ### All tables -/

theorem InterruptDescriptor.length_bytes (desc : InterruptDescriptor) : desc.bytes.length = 16 := by
  rw [bytes_eq, length_leBytes]

/-- The bytes of one entry, after a change elsewhere. -/
theorem bytesAt_entry {a : SizeT} {size count n : ℕ} {bytes : List (BitVec 8)} {i : Fin count}
    (hb : BytesAt m (a + BitVec.ofNat 64 (size * i)) bytes) (hlen : bytes.length = size)
    (hn : size * count = n) (hfit : n ≤ 2 ^ 64) (h : Set.EqOn m' m (range a n)) :
    BytesAt m' (a + BitVec.ofNat 64 (size * i)) bytes := by
  have hend : size * i + size ≤ n := by
    rw [← hn, ← Nat.mul_succ]
    exact Nat.mul_le_mul_left _ i.isLt
  refine BytesAt.congr hb (by omega) (h.mono ?_)
  rw [hlen]
  exact range_add_subset hend (hend.trans hfit)

namespace Layout

/-- The entries that a walk below `kPageDirectoryCount` GiB comes to are as `KernelMain` fills them, but for the bits
that the processor sets. -/
def Low (l : Layout) (m : Memory) : Prop := ∃ read, LowTables l read ∧ ∀ p, SameEntry (read p) (physRead m p)

theorem low_of_lowTables (h : LowTables l (physRead m)) : l.Low m := ⟨_, h, fun _ => .refl _⟩

theorem store_low (l : Layout) (t : PageTables) (m : Memory) : l.Low (l.store (setupIdentityPageTable l t).1 m) := by
  refine low_of_lowTables ?_
  rw [low_iff, load_store]
  exact setupIdentityPageTable_low l t

theorem mem_pml4 (l : Layout) : l.pml4Table ∈ l.bytes := Or.inl (Or.inl (by simp [mem_range]))

theorem mem_pdp (l : Layout) (i : Fin kPageDirectoryCount) : l.pdpTable + BitVec.ofNat 64 (8 * i) ∈ l.bytes := by
  have hi := i.isLt
  have hcount : kPageDirectoryCount = 64 := rfl
  exact Or.inl (Or.inr ((add_mem_range (by omega)).2 (by omega)))

theorem mem_directory (l : Layout) (i : Fin kPageDirectoryCount) (j : Fin 512) :
    l.directory i + BitVec.ofNat 64 (8 * j) ∈ l.bytes := by
  have hi := i.isLt
  have hj := j.isLt
  have hcount : kPageDirectoryCount = 64 := rfl
  rw [directory_add]
  exact Or.inr ((add_mem_range (by omega)).2 (by omega))

theorem ofNat_toNat_add (a : SizeT) (k : ℕ) : BitVec.ofNat 64 (a.toNat + k) = a + BitVec.ofNat 64 k := by
  rw [BitVec.ofNat_add, BitVec.ofNat_toNat, BitVec.setWidth_eq]

theorem Low.same (h : l.Low m) (hm : l.Same m m') : l.Low m' := by
  classical
  obtain ⟨read, ⟨hpml4, hpdp, hpage⟩, hread⟩ := h
  -- the entries as they were, everything else as it is now
  let read' (p : ℕ) : BitVec 64 := if BitVec.ofNat 64 p ∈ l.bytes ∧ 8 ∣ p then read p else physRead m' p
  have hin : ∀ (a : SizeT) (k : ℕ), a + BitVec.ofNat 64 k ∈ l.bytes → 8 ∣ a.toNat + k →
      read' (a.toNat + k) = read (a.toNat + k) := by
    intro a k hmem hdvd
    exact if_pos ⟨(ofNat_toNat_add a k).symm ▸ hmem, hdvd⟩
  have hquad : ∀ n : ℕ, 2 ^ 12 ∣ n → 8 ∣ n := fun n hn => (show 8 ∣ 2 ^ 12 by decide).trans hn
  refine ⟨read', ⟨?_, fun i => ?_, fun i j => ?_⟩, fun p => ?_⟩
  · rw [← hpml4]
    refine hin l.pml4Table 0 ?_ (hquad _ l.pml4Table_dvd)
    rw [BitVec.add_zero]
    exact l.mem_pml4
  · rw [← hpdp i]
    exact hin _ _ (l.mem_pdp i) (Nat.dvd_add (hquad _ l.pdpTable_dvd) (Nat.dvd_mul_right _ _))
  · rw [← hpage i j]
    refine hin _ _ (l.mem_directory i j) (Nat.dvd_add ?_ (Nat.dvd_mul_right _ _))
    rw [directory_toNat]
    exact Nat.dvd_add (hquad _ l.pageDirectory_dvd) ((show 8 ∣ 4096 by decide).mul_right _)
  · by_cases hp : BitVec.ofNat 64 p ∈ l.bytes ∧ 8 ∣ p
    · have hdvd : 8 ∣ (BitVec.ofNat 64 p).toNat := by
        rw [BitVec.toNat_ofNat]
        exact (Nat.dvd_mod_iff (by decide)).2 hp.2
      show SameEntry (read' p) _
      rw [show read' p = read p from if_pos hp]
      exact (hread p).trans (hm _ hp.1 hdvd)
    · show SameEntry (read' p) _
      rw [show read' p = physRead m' p from if_neg hp]
      exact .refl _

/-- Memory with the same bytes in the tables. -/
theorem same_of_eqOn (h : Set.EqOn m' m l.bytes) : l.Same m m' := by
  intro a ha hdvd
  have hread : readU64 m' a = readU64 m a := by
    have hentry : ∀ {base : SizeT} {n : ℕ}, a ∈ range base n → Set.EqOn m' m (range base n) → 8 ∣ base.toNat → 8 ∣ n →
        base.toNat + n ≤ 2 ^ 64 → readU64 m' a = readU64 m a := by
      intro base n hmem hsame hbase hn hend
      have hlt := (mem_range_iff hend).1 hmem
      have hsub : a - base = BitVec.ofNat 64 (a.toNat - base.toNat) := by
        rw [← BitVec.toNat_inj, BitVec.toNat_sub_of_le (BitVec.le_def.2 hlt.1), BitVec.toNat_ofNat]
        omega
      refine readU64_congr (k := a.toNat - base.toNat) hsame ?_ (by omega) (by omega)
      rw [← hsub, BitVec.add_comm, BitVec.sub_add_cancel]
    have hquad : ∀ n : ℕ, 2 ^ 12 ∣ n → 8 ∣ n := fun n hn => (show 8 ∣ 2 ^ 12 by decide).trans hn
    obtain ⟨h4, h3, h2⟩ := l.ends
    rcases ha with (hpml4 | hpdp) | hpd
    · exact hentry hpml4 (h.mono fun x hx => Or.inl (Or.inl hx)) (hquad _ l.pml4Table_dvd) (by decide) h4
    · exact hentry hpdp (h.mono fun x hx => Or.inl (Or.inr hx)) (hquad _ l.pdpTable_dvd) (by decide) h3
    · exact hentry hpd (h.mono fun x hx => Or.inr hx) (hquad _ l.pageDirectory_dvd)
        ((show 8 ∣ 4096 by decide).mul_left _) h2
  rw [hread]
  exact .refl _

theorem Low.walk_of_lt (h : l.Low m) {va : BitVec 48} (hva : va.toNat < kPageDirectoryCount * 2 ^ 30) :
    walk (physRead m) l.pml4Table va = .ok ⟨va.toNat, true⟩ := by
  obtain ⟨read, hlow, hread⟩ := h
  rw [walk_congr hread]
  exact hlow.walk_of_lt hva

theorem Low.mappedToItself (h : l.Low m) : MappedToItself m l.pml4Table := by
  intro a ha
  have hnat : (BitVec.ofNat 48 a).toNat = a := toNat_ofNat_of_lt (ha.trans (by decide))
  rw [h.walk_of_lt (hnat.symm ▸ ha), hnat]

end Layout

namespace TableObjects

/-- The two segments of the kernel, with their types. -/
structure Segments (o : TableObjects) (m : Memory) (codeType stackType : ℕ) : Prop where
  code : segmentAt m (gdtRegister o.gdt) kernelCs =
    some ⟨0, 0xfffff, codeType, true, 0, true, false, true, false, true⟩
  stack : segmentAt m (gdtRegister o.gdt) kernelSs =
    some ⟨0, 0xfffff, stackType, true, 0, true, false, false, true, true⟩

variable {o : TableObjects}

theorem Segments.congr {codeType stackType : ℕ} (h : o.Segments m codeType stackType)
    (hm : Set.EqOn m' m (range o.gdt 24)) : o.Segments m' codeType stackType := by
  have hm : Set.EqOn m' m (range (gdtRegister o.gdt).base ((gdtRegister o.gdt).limit.toNat + 1)) := hm
  exact ⟨(segmentAt_congr hm kernelCs).trans h.code, (segmentAt_congr hm kernelSs).trans h.stack⟩

/-- The gates are in memory as `KernelMain` fills them. -/
def Gates (o : TableObjects) (intDefault intSegFault : SizeT) (m : Memory) : Prop :=
  ∃ idt, ∀ v : Fin 256, BytesAt m (o.idt + BitVec.ofNat 64 (16 * v))
    (initializeInterrupt intDefault intSegFault kernelCs idt v).bytes

theorem Gates.congr (h : o.Gates intDefault intSegFault m) (hm : Set.EqOn m' m (range o.idt 4096)) :
    o.Gates intDefault intSegFault m' := by
  obtain ⟨idt, hidt⟩ := h
  exact ⟨idt, fun v => bytesAt_entry (hidt v) (InterruptDescriptor.length_bytes _) rfl (by simp) hm⟩

theorem same_of_eqOn (hm : Set.EqOn m' m o.bytes) : o.Same m m' where
  gdt := hm.mono o.gdt_subset
  idt := hm.mono o.idt_subset
  tables := Layout.same_of_eqOn (hm.mono o.tables_subset)

theorem Same.trans {m'' : Memory} (h : o.Same m m') (h' : o.Same m' m'') : o.Same m m'' where
  gdt := h'.gdt.trans h.gdt
  idt := h'.idt.trans h.idt
  tables a ha hdvd := (h.tables a ha hdvd).trans (h'.tables a ha hdvd)

theorem bytesAt_storeGdt (o : TableObjects) (gdt : Fin 3 → SegmentDescriptor) (m : Memory) (i : Fin 3) :
    BytesAt (o.storeGdt gdt m) (o.gdt + BitVec.ofNat 64 (8 * i)) (gdt i).bytes :=
  bytesAt_writeArray (by simp) i

theorem bytesAt_storeIdt (o : TableObjects) (idt : Fin 256 → InterruptDescriptor) (m : Memory) (v : Fin 256) :
    BytesAt (o.storeIdt idt m) (o.idt + BitVec.ofNat 64 (16 * v)) (idt v).bytes := by
  rw [InterruptDescriptor.bytes_eq]
  exact bytesAt_writeArray (by simp) v

theorem storeGdt_frame (o : TableObjects) (gdt : Fin 3 → SegmentDescriptor) (m : Memory) :
    Set.EqOn (o.storeGdt gdt m) m (range o.gdt 24)ᶜ := eqOn_writeArray m o.gdt 8 _

theorem storeIdt_frame (o : TableObjects) (idt : Fin 256 → InterruptDescriptor) (m : Memory) :
    Set.EqOn (o.storeIdt idt m) m (range o.idt 4096)ᶜ := eqOn_writeArray m o.idt 16 _

end TableObjects

/-- The tables are in memory as `KernelMain` fills them and the processor uses them. -/
structure KernelTables (o : TableObjects) (intDefault intSegFault : SizeT) (m : Memory) : Prop where
  segments : o.Segments m 11 3
  gates : o.Gates intDefault intSegFault m
  low : o.tables.Low m

/-- The registers as `KernelMain` loads them. -/
structure SystemFor (o : TableObjects) (sys : System) : Prop where
  gdtr : sys.gdtr = gdtRegister o.gdt
  idtr : sys.idtr = idtRegister o.idt
  cr3 : sys.cr3 = o.tables.pml4Table
  cs : sys.seg .cs = kernelCs
  ss : sys.seg .ss = kernelSs
  data : ∀ r ∈ [SegReg.ds, .es, .fs, .gs], sys.seg r = 0

namespace KernelTables
variable {o : TableObjects}

theorem same (h : KernelTables o intDefault intSegFault m) (hm : o.Same m m') :
    KernelTables o intDefault intSegFault m' where
  segments := h.segments.congr hm.gdt
  gates := h.gates.congr hm.idt
  low := h.low.same hm.tables

theorem ready (h : KernelTables o intDefault intSegFault m) {sys : System} (hsys : SystemFor o sys) :
    Ready intDefault intSegFault sys m := by
  obtain ⟨idt, hidt⟩ := h.gates
  constructor
  · rw [hsys.gdtr, hsys.cs]
    exact h.segments.code
  · rw [hsys.gdtr, hsys.ss]
    exact h.segments.stack
  · exact hsys.data
  · intro va hva
    rw [hsys.cr3]
    exact h.low.walk_of_lt hva
  · intro vector hvector
    rw [hsys.gdtr, hsys.idtr]
    exact handler_initializeInterrupt h.segments.code hidt hvector

end KernelTables

theorem Ready.walk_of_lt {sys : System} (h : Ready intDefault intSegFault sys m) {a : SizeT}
    (ha : a.toNat < kPageDirectoryCount * 2 ^ 30) : walk (physRead m) sys.cr3 (a.setWidth 48) = .ok ⟨a.toNat, true⟩ := by
  have hnat : (a.setWidth 48).toNat = a.toNat := by
    rw [BitVec.toNat_setWidth]
    exact Nat.mod_eq_of_lt (ha.trans (by decide))
  rw [h.translate _ (hnat.symm ▸ ha), hnat]

/-! ### The steps -/

namespace Machine

theorem called_frame (o : KernelObjects) (k : Machine) : Set.EqOn (k.called o).mem k.mem (bytesOf o.own)ᶜ :=
  eqOn_overwrite o.own (k.scratch 0) k.mem

/-- What a call wrote, and its stack. -/
theorem called_frame_of {S : Set SizeT} {k₀ : Memory} (o : KernelObjects) (k : Machine) (h : Set.EqOn k.mem k₀ Sᶜ) :
    Set.EqOn (k.called o).mem k₀ (S ∪ bytesOf o.own)ᶜ := by
  intro a ha
  rw [Set.mem_compl_iff, Set.mem_union, not_or] at ha
  exact (k.called_frame o ha.2).trans (h ha.1)

theorem called_tables {S : Set SizeT} (o : KernelObjects) (k : Machine) (h : S ⊆ o.bytes) :
    Set.EqOn (k.called o).mem k.mem S :=
  frame_apart (k.called_frame o) (o.own_tables.mono_right h).symm

/-- A table keeps what a call writes apart from it. -/
theorem table_of_frame {S T : Set SizeT} (h : Set.EqOn m' m (T ∪ bytesOf o.own)ᶜ) (hS : S ⊆ o.bytes)
    (hST : Disjoint S T) : Set.EqOn m' m S :=
  frame_apart h (Set.disjoint_union_right.2 ⟨hST, (o.own_tables.mono_right hS).symm⟩)

theorem canonical_of_lt {a : SizeT} (h : a.toNat < kPageDirectoryCount * 2 ^ 30) : Canonical a := by
  have hlt : a.toNat < 2 ^ 47 := h.trans (by decide)
  have hnat : (a.setWidth 48).toNat = a.toNat := by
    rw [BitVec.toNat_setWidth]
    exact Nat.mod_eq_of_lt (hlt.trans (by decide))
  have hmsb : (a.setWidth 48).msb = false := by
    rw [BitVec.msb_eq_decide, hnat]
    exact decide_eq_false (Nat.not_le.2 hlt)
  rw [Canonical, BitVec.signExtend_eq_setWidth_of_msb_false hmsb]
  refine BitVec.eq_of_toNat_eq ?_
  rw [BitVec.toNat_setWidth, hnat]
  exact Nat.mod_eq_of_lt a.isLt

theorem setupSegments_run (o : KernelObjects) (k : Machine) : ∃ k', k.setupSegments o = some k' ∧
    k'.sys = { k.sys with gdtr := gdtRegister o.gdt } ∧ o.Segments k'.mem 10 2 ∧
    Set.EqOn k'.mem k.mem (range o.gdt 24 ∪ bytesOf o.own)ᶜ := by
  have hcanon : Canonical o.gdt := canonical_of_lt (o.low _ (o.tables_image (o.gdt_subset (by simp [mem_range]))))
  have hload : loadGDT (8 * 3 - 1) o.gdt k.sys = some { k.sys with gdtr := gdtRegister o.gdt } := if_pos hcanon
  obtain ⟨hcode, hstack⟩ := segmentAt_setupSegments (o.bytesAt_storeGdt (MosaOS.setupSegments (o.loadGdt k.mem)) k.mem)
  have hseg : o.Segments (o.storeGdt (MosaOS.setupSegments (o.loadGdt k.mem)) k.mem) 10 2 := ⟨hcode, hstack⟩
  let k₁ : Machine := { k with
    mem := o.storeGdt (MosaOS.setupSegments (o.loadGdt k.mem)) k.mem, sys := { k.sys with gdtr := gdtRegister o.gdt } }
  refine ⟨k₁.called o, ?_, rfl, hseg.congr (called_tables o k₁ o.gdt_subset),
    called_frame_of o k₁ (o.storeGdt_frame _ k.mem)⟩
  unfold setupSegments
  rw [hload]
  rfl

/-- The selectors of `KernelMain`. -/
def withSelectors (sys : System) : System :=
  (((((sys.setSeg .ds 0).setSeg .es 0).setSeg .fs 0).setSeg .gs 0).setSeg .ss kernelSs).setSeg .cs kernelCs

/-- The processor takes them after `SetupSegments`, and sets the accessed bits. -/
theorem selectors_run (o : KernelObjects) (k : Machine) (hgdtr : k.sys.gdtr = gdtRegister o.gdt)
    (hseg : o.Segments k.mem 10 2) : ∃ k₁ k₂, k.setDSAll o 0 = some k₁ ∧ k₁.setCSSS o kernelCs kernelSs = some k₂ ∧
      k₂.sys = withSelectors k.sys ∧ o.Segments k₂.mem 11 3 ∧
      Set.EqOn k₂.mem k.mem (range o.gdt 24 ∪ bytesOf o.own)ᶜ := by
  let gdtr := gdtRegister o.gdt
  have hdata : dataLoadable k.mem k.sys.gdtr 0 = true := by simp [dataLoadable]
  have hds : MosaOS.setDSAll 0 k.mem k.sys =
      some (k.mem, (((k.sys.setSeg .ds 0).setSeg .es 0).setSeg .fs 0).setSeg .gs 0) := if_pos hdata
  let k₁ : Machine := { k with sys := (((k.sys.setSeg .ds 0).setSeg .es 0).setSeg .fs 0).setSeg .gs 0 }
  have hseg₁ : o.Segments (k₁.called o).mem 10 2 := hseg.congr (called_tables o k₁ o.gdt_subset)
  -- first the stack segment, then the code segment
  let m₁ := markAccessed (k₁.called o).mem gdtr kernelSs
  let m₂ := markAccessed m₁ gdtr kernelCs
  have hss : stackLoadable (k₁.called o).mem gdtr kernelSs = true := by
    rw [stackLoadable, hseg₁.stack]
    rfl
  have hseg₂ : o.Segments m₁ 10 3 :=
    ⟨(segmentAt_markAccessed_of_ne (by decide)).trans hseg₁.code, segmentAt_markAccessed hseg₁.stack⟩
  have hcs : codeLoadable m₁ gdtr kernelCs = true := by
    rw [codeLoadable, hseg₂.code]
    rfl
  have hseg₃ : o.Segments m₂ 11 3 :=
    ⟨segmentAt_markAccessed hseg₂.code, (segmentAt_markAccessed_of_ne (by decide)).trans hseg₂.stack⟩
  have hsys : (k₁.called o).sys.gdtr = gdtr := hgdtr
  have hcsss : MosaOS.setCSSS kernelCs kernelSs (k₁.called o).mem (k₁.called o).sys =
      some (m₂, withSelectors k.sys) := by
    rw [MosaOS.setCSSS, hsys, if_pos hss]
    exact if_pos hcs
  let k₂ : Machine := { k₁.called o with mem := m₂, sys := withSelectors k.sys }
  have hframe : Set.EqOn k₂.mem (k₁.called o).mem (range o.gdt 24)ᶜ :=
    (eqOn_markAccessed m₁ (inTable_of_codeLoadable hcs)).trans (eqOn_markAccessed _ (inTable_of_stackLoadable hss))
  refine ⟨k₁.called o, k₂.called o, ?_, ?_, rfl, hseg₃.congr (called_tables o k₂ o.gdt_subset), fun a ha => ?_⟩
  · unfold setDSAll
    rw [hds]
    rfl
  · unfold setCSSS
    rw [hcsss]
    rfl
  · rw [Set.mem_compl_iff, Set.mem_union, not_or] at ha
    exact (k₂.called_frame o ha.2).trans ((hframe ha.1).trans (k₁.called_frame o ha.2))

theorem paging_run (o : KernelObjects) (k : Machine) : ∃ k', k.setupIdentityPageTable o = some k' ∧
    k'.sys = { k.sys with cr3 := o.tables.pml4Table } ∧ o.tables.Low k'.mem ∧
    Set.EqOn k'.mem k.mem (o.tables.bytes ∪ bytesOf o.own)ᶜ := by
  let tables := MosaOS.setupIdentityPageTable o.tables (o.tables.load k.mem)
  have hlow : o.tables.Low (o.tables.store tables.1 k.mem) := Layout.store_low o.tables (o.tables.load k.mem) k.mem
  have hload : setCR3 tables.2 (o.tables.store tables.1 k.mem) k.sys = some { k.sys with cr3 := o.tables.pml4Table } :=
    setCR3_eq k.sys hlow.mappedToItself
  let k₁ : Machine := { k with
    mem := o.tables.store tables.1 k.mem, sys := { k.sys with cr3 := o.tables.pml4Table } }
  refine ⟨k₁.called o, ?_, rfl, hlow.same (Layout.same_of_eqOn (called_tables o k₁ o.tables_subset)),
    called_frame_of o k₁ (o.tables.store_frame _ k.mem)⟩
  unfold setupIdentityPageTable
  show (setCR3 tables.2 (o.tables.store tables.1 k.mem) k.sys).bind _ = _
  rw [hload]
  rfl

theorem interrupt_run (o : KernelObjects) (intDefault intSegFault : SizeT) (k : Machine)
    (hcs : getCS k.sys = kernelCs) : ∃ k', k.initializeInterrupt o intDefault intSegFault = some k' ∧
      k'.sys = { k.sys with idtr := idtRegister o.idt } ∧ o.Gates intDefault intSegFault k'.mem ∧
      Set.EqOn k'.mem k.mem (range o.idt 4096 ∪ bytesOf o.own)ᶜ := by
  have hcanon : Canonical o.idt := canonical_of_lt (o.low _ (o.tables_image (o.idt_subset (by simp [mem_range]))))
  have hload : loadIDT (16 * 256 - 1) o.idt k.sys = some { k.sys with idtr := idtRegister o.idt } := if_pos hcanon
  let idt := MosaOS.initializeInterrupt intDefault intSegFault (getCS k.sys) (o.loadIdt k.mem)
  have hgates : o.Gates intDefault intSegFault (o.storeIdt idt k.mem) := by
    refine ⟨o.loadIdt k.mem, fun v => ?_⟩
    rw [← hcs]
    exact o.bytesAt_storeIdt idt k.mem v
  let k₁ : Machine := { k with mem := o.storeIdt idt k.mem, sys := { k.sys with idtr := idtRegister o.idt } }
  refine ⟨k₁.called o, ?_, rfl, hgates.congr (called_tables o k₁ o.idt_subset),
    called_frame_of o k₁ (o.storeIdt_frame _ k.mem)⟩
  unfold initializeInterrupt
  rw [hload]
  rfl

/-! ### The run -/

/-- The set-up goes through on every machine, and writes to the tables and to the kernel's own variables only. -/
theorem setup_tables (o : KernelObjects) (intDefault intSegFault : SizeT) (k : Machine) :
    ∃ k', k.setup o intDefault intSegFault = some k' ∧ Set.EqOn k'.mem k.mem (o.bytes ∪ bytesOf o.own)ᶜ ∧
      SystemFor o.toTableObjects k'.sys ∧ KernelTables o.toTableObjects intDefault intSegFault k'.mem := by
  obtain ⟨k₁, h₁, hsys₁, hseg₁, hf₁⟩ := k.setupSegments_run o
  have hgdtr₁ : k₁.sys.gdtr = gdtRegister o.gdt := by rw [hsys₁]
  obtain ⟨k₂, k₃, h₂, h₃, hsys₃, hseg₃, hf₃⟩ := k₁.selectors_run o hgdtr₁ hseg₁
  obtain ⟨k₄, h₄, hsys₄, hlow₄, hf₄⟩ := k₃.paging_run o
  have hcs₄ : getCS k₄.sys = kernelCs := by
    rw [hsys₄, hsys₃]
    rfl
  obtain ⟨k₅, h₅, hsys₅, hgates₅, hf₅⟩ := k₄.interrupt_run o intDefault intSegFault hcs₄
  -- what is written later is apart from the tables before
  have hgdt : Set.EqOn k₅.mem k₃.mem (range o.gdt 24) :=
    (table_of_frame hf₅ o.gdt_subset o.gdt_idt).trans (table_of_frame hf₄ o.gdt_subset o.gdt_tables)
  have htables : Set.EqOn k₅.mem k₄.mem o.tables.bytes := table_of_frame hf₅ o.tables_subset o.idt_tables.symm
  refine ⟨k₅, ?_, fun a ha => ?_, ?_, ⟨hseg₃.congr hgdt, hgates₅, hlow₄.same (Layout.same_of_eqOn htables)⟩⟩
  · unfold setup
    refine Option.bind_eq_some_iff.2 ⟨k₁, h₁, Option.bind_eq_some_iff.2 ⟨k₂, h₂, ?_⟩⟩
    exact Option.bind_eq_some_iff.2 ⟨k₃, h₃, Option.bind_eq_some_iff.2 ⟨k₄, h₄, h₅⟩⟩
  · have hin : ∀ {S : Set SizeT}, S ⊆ o.bytes → a ∈ (S ∪ bytesOf o.own)ᶜ := fun hS =>
      Set.compl_subset_compl.2 (Set.union_subset_union_left _ hS) ha
    rw [hf₅ (hin o.idt_subset), hf₄ (hin o.tables_subset), hf₃ (hin o.gdt_subset), hf₁ (hin o.gdt_subset)]
  · rw [hsys₅, hsys₄, hsys₃, hsys₁]
    refine ⟨rfl, rfl, rfl, rfl, rfl, fun r hr => ?_⟩
    simp only [List.mem_cons, List.not_mem_nil, or_false] at hr
    rcases hr with rfl | rfl | rfl | rfl
    all_goals rfl

/-- The set-up goes through on every machine. It writes to the tables and to the kernel's own variables only, and for
as long as nothing but the processor writes to the tables, the processor has code and stack segments as 64-bit mode
wants them, the first 64 GiB and with them the kernel are mapped to themselves, and the exceptions go to the functions
of the kernel. -/
theorem setup_ready (o : KernelObjects) (intDefault intSegFault : SizeT) (k : Machine) :
    ∃ k', k.setup o intDefault intSegFault = some k' ∧ Set.EqOn k'.mem k.mem (o.bytes ∪ bytesOf o.own)ᶜ ∧
      ∀ m', o.Same k'.mem m' → Ready intDefault intSegFault k'.sys m' ∧
        ∀ a ∈ bytesOf o.image, walk (physRead m') k'.sys.cr3 (a.setWidth 48) = .ok ⟨a.toNat, true⟩ := by
  obtain ⟨k', hk', hframe, hsys, htables⟩ := k.setup_tables o intDefault intSegFault
  refine ⟨k', hk', hframe, fun m' hm' => ?_⟩
  have hready := (htables.same hm').ready hsys
  exact ⟨hready, fun a ha => hready.walk_of_lt (o.low a ha)⟩

end Machine

end MosaOS
