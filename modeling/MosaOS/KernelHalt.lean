import MosaOS.Clients
import MosaOS.KernelBoot

/-!
# `KernelMain` after `copyScreen`

The memory map is scanned as `setupMemoryManager` scans it, the heap is set up as `initializeHeap` does it, and
what is printed meanwhile changes the back buffer and the variables only. `kernelMain_halts` puts the whole run
together.
-/

namespace MosaOS
open ByteMem X86 Kernel

namespace Kernel

variable {img : KernelImage} {vinfo : VideoInfo} {gFont : AsciiFont} {k k' k₁ : Kernel} {cs ds : List ConsoleCall}
  {gScreen : Screen} {desc : MemoryDescriptor} {availableEnd : SizeT}

theorem Later.refl (h : k.con = consoleAfter gScreen k.said) : Later img gScreen [] k k :=
  ⟨rfl, (List.append_nil _).symm, h, fun _ _ => rfl⟩

theorem Later.trans (h : Later img gScreen cs k k₁) (h' : Later img gScreen ds k₁ k') :
    Later img gScreen (cs ++ ds) k k' where
  sys := h'.sys.trans h.sys
  said := by rw [h'.said, h.said, List.append_assoc]
  con := h'.con
  frame := h'.frame.trans h.frame

/-! ### The loop over the memory map -/

/-- What the loop prints for a descriptor. -/
def noted (desc : MemoryDescriptor) : List ConsoleCall :=
  if isAvailable desc.type then [] else [.print (cString "un-available")]

theorem isPrint_of_noted {c : ConsoleCall} (h : c ∈ noted desc) : c.isPrint = true := by
  unfold noted at h
  split at h
  · cases h
  · obtain rfl := List.mem_singleton.1 h
    rfl

theorem Later.withHeap (h : Later img gScreen cs k k') (heap : Heap) :
    Later img gScreen cs k (k'.withHeap img.toKernelObjects heap) where
  sys := h.sys
  said := h.said
  con := h.con
  frame := by
    have hcalled : Set.EqOn (k'.withHeap img.toKernelObjects heap).mem k'.mem (bytesOf img.own)ᶜ :=
      called_frame img.toKernelObjects { k' with heap }
    exact (hcalled.mono (Set.compl_subset_compl.2 img.own_subset)).trans h.frame

theorem Later.withManager (h : Later img gScreen cs k k') (mm : BitmapMemoryManager) :
    Later img gScreen cs k (k'.withManager img.toKernelObjects mm) := h.withHeap _

/-- The body of the loop is that of `scanDescriptor`, and prints a line for a descriptor that is not available. -/
theorem scanDescriptor_later (gFont : AsciiFont) (hmode : vinfo.Suits)
    (hcon : k.con = consoleAfter (backScreen img.back_fb vinfo) k.said) {st : BootScan}
    (h : MosaOS.scanDescriptor ⟨k.heap.mm, availableEnd⟩ desc = some st) :
    ∃ k', k.scanDescriptor img.toKernelObjects gFont (backScreen img.back_fb vinfo) availableEnd desc =
        some (st.availableEnd, k') ∧ k'.heap = { k.heap with mm := st.mm } ∧
      Later img (backScreen img.back_fb vinfo) (noted desc) k k' := by
  obtain ⟨mm, hgap, hrest⟩ := Option.bind_eq_some_iff.1 h
  let o := img.toKernelObjects
  have hl₁ := (Later.refl hcon : Later img (backScreen img.back_fb vinfo) [] k k).withManager mm
  change (if isAvailable desc.type = true then _ else _) = _ at hrest
  cases hav : isAvailable desc.type with
  | true =>
    have hnoted : noted desc = [] := if_pos hav
    rw [if_pos hav] at hrest
    cases hrest
    rw [hnoted]
    refine ⟨k.withManager o mm, ?_, rfl, hl₁⟩
    refine Option.bind_eq_some_iff.2 ⟨mm, hgap, ?_⟩
    exact if_pos hav
  | false =>
    have hnot := Bool.eq_false_iff.1 hav
    have hnoted : noted desc = [.print (cString "un-available")] := if_neg hnot
    rw [if_neg hnot] at hrest
    obtain ⟨mm', hmark, hst⟩ := Option.bind_eq_some_iff.1 hrest
    cases hst
    obtain ⟨k₂, h₂, hheap₂, hl₂⟩ := print_later gFont hmode hl₁.con "un-available" (by simp [ShortText, cString])
    rw [hnoted]
    refine ⟨k₂.withManager o mm', ?_, ?_, (hl₁.trans hl₂).withManager mm'⟩
    · refine Option.bind_eq_some_iff.2 ⟨mm, hgap, ?_⟩
      refine (if_neg hnot).trans (Option.bind_eq_some_iff.2 ⟨k₂, h₂, Option.bind_eq_some_iff.2 ⟨mm', ?_, rfl⟩⟩)
      rw [hheap₂]
      exact hmark
    · show { k₂.heap with mm := mm' } = _
      rw [hheap₂]
      rfl

/-- Where the memory map stands apart from what is written to, the loop does what that of `setupMemoryManager` does. -/
theorem scanLoop_later {m : MemoryMap} {count : ℕ} {m₀ : Memory} (gFont : AsciiFont) (hmode : vinfo.Suits)
    (hpos : 0 < m.descriptorSize) (hsize : m.mapSize = count * m.descriptorSize)
    (hread : ∀ i, 2 * i < count → ∀ m', Set.EqOn m' m₀ img.drawnᶜ →
      MemoryDescriptor.load m' (BitVec.ofNat 64 (m.buffer + 2 * i * m.descriptorSize)) = m.desc (2 * i))
    (r i fuel : ℕ) (hr : i + r = (count + 1) / 2) (hfuel : r ≤ fuel)
    (hcon : k.con = consoleAfter (backScreen img.back_fb vinfo) k.said)
    (hmem : Set.EqOn k.mem m₀ img.drawnᶜ) {st : BootScan}
    (h : (List.range' i r).foldlM (fun st i => MosaOS.scanDescriptor st (m.desc (2 * i))) ⟨k.heap.mm, availableEnd⟩ =
      some st) :
    ∃ k', k.scanLoop img.toKernelObjects gFont (backScreen img.back_fb vinfo) (m.buffer + m.mapSize) m.descriptorSize fuel
        (m.buffer + 2 * i * m.descriptorSize) availableEnd = some (st.availableEnd, k') ∧
      k'.heap = { k.heap with mm := st.mm } ∧
      Later img (backScreen img.back_fb vinfo) ((List.range' i r).flatMap fun i => noted (m.desc (2 * i))) k k' := by
  induction r generalizing i fuel k availableEnd with
  | zero =>
    cases h
    have hend : ¬ m.buffer + 2 * i * m.descriptorSize < m.buffer + m.mapSize := by
      have : count * m.descriptorSize ≤ 2 * i * m.descriptorSize := Nat.mul_le_mul_right _ (by omega)
      omega
    refine ⟨k, ?_, rfl, .refl hcon⟩
    cases fuel with
    | zero => simp [Kernel.scanLoop, hend]
    | succ fuel => simp [Kernel.scanLoop, hend]
  | succ r ih =>
    obtain ⟨fuel, rfl⟩ : ∃ n, fuel = n + 1 := ⟨fuel - 1, by omega⟩
    have hlt : m.buffer + 2 * i * m.descriptorSize < m.buffer + m.mapSize := by
      rw [hsize]
      exact Nat.add_lt_add_left (Nat.mul_lt_mul_of_pos_right (by omega) hpos) _
    have hnext : m.buffer + 2 * i * m.descriptorSize + m.descriptorSize + m.descriptorSize =
        m.buffer + 2 * (i + 1) * m.descriptorSize := by ring
    rw [List.range'_succ] at h ⊢
    obtain ⟨st₁, hfirst, hrest⟩ := Run.cons_eq_some.1 h
    obtain ⟨k₁, hscan, hheap, hlater⟩ := scanDescriptor_later gFont hmode hcon hfirst
    have hst : st₁ = ⟨k₁.heap.mm, st₁.availableEnd⟩ := by rw [hheap]
    rw [hst] at hrest
    obtain ⟨k', hloop, hheap', hlater'⟩ := ih (k := k₁) (i + 1) fuel (by omega) (by omega) hlater.con
      (hlater.frame.trans hmem) hrest
    refine ⟨k', ?_, ?_, ?_⟩
    · rw [Kernel.scanLoop, if_pos hlt, hread i (by omega) _ hmem, hscan]
      show Kernel.scanLoop _ _ _ _ _ fuel
        (m.buffer + 2 * i * m.descriptorSize + m.descriptorSize + m.descriptorSize) _ _ = _
      rw [hnext]
      exact hloop
    · rw [hheap', hheap]
    · rw [List.flatMap_cons]
      exact hlater.trans hlater'

/-! ### The memory manager -/

/-- What `KernelMain` prints while it sets up the memory manager. -/
def memoryLog (m : MemoryMap) (count : ℕ) (mm : BitmapMemoryManager) : List ConsoleCall :=
  [.print (cString "Setup Memory Manager.")] ++ (List.range ((count + 1) / 2)).flatMap (fun i => noted (m.desc (2 * i))) ++
    [.printd (cString "for loop finished."), .print (cString "finished."),
      .print (cString (if mm.rangeEnd.id > 64 then "over 64" else "less than 64"))]

theorem countP_noted (ds : List MemoryDescriptor) : (ds.flatMap noted).countP (!·.isPrint) = 0 := by
  rw [List.countP_eq_zero]
  intro c hc
  obtain ⟨desc, -, hc⟩ := List.mem_flatMap.1 hc
  simp [isPrint_of_noted hc]

theorem countP_memoryLog (m : MemoryMap) (count : ℕ) (mm : BitmapMemoryManager) :
    (memoryLog m count mm).countP (!·.isPrint) = 1 := by
  have hloop := countP_noted ((List.range ((count + 1) / 2)).map fun i => m.desc (2 * i))
  rw [List.flatMap_map] at hloop
  rw [memoryLog, List.countP_append, List.countP_append, hloop]
  simp

end Kernel

/-- The bytes of the descriptors. -/
def MemoryMap.bytes (m : MemoryMap) (count : ℕ) : Set SizeT :=
  {a | ∃ j < count, a ∈ range (BitVec.ofNat 64 (m.buffer + j * m.descriptorSize)) 32}

theorem MemoryDescriptor.load_congr {m m' : Memory} {a : SizeT} (h : Set.EqOn m' m (range a 32)) :
    MemoryDescriptor.load m' a = MemoryDescriptor.load m a := by
  have htype : readU32 m' a = readU32 m a := readU32_congr h (o := 0) (BitVec.add_zero a).symm (by simp) (by simp)
  have hstart : readU64 m' (a + 8) = readU64 m (a + 8) := readU64_congr h rfl (by simp) (by simp)
  have hpages : readU64 m' (a + 24) = readU64 m (a + 24) := readU64_congr h rfl (by simp) (by simp)
  rw [MemoryDescriptor.load, MemoryDescriptor.load, htype, hstart, hpages]

namespace Kernel

theorem setUpMemory_later {m₀ : Memory} {buffer mapSize descriptorSize : SizeT} {count : ℕ} (gFont : AsciiFont)
    (hmode : vinfo.Suits) (hcon : k.con = consoleAfter (backScreen img.back_fb vinfo) k.said)
    (hsaid : k.said.countP (!·.isPrint) = 0)
    (hv : (MemoryMap.load m₀ buffer mapSize descriptorSize).Valid count)
    (hback : Disjoint ((MemoryMap.load m₀ buffer mapSize descriptorSize).bytes count) img.drawn)
    (hsame : Set.EqOn k.mem m₀ ((MemoryMap.load m₀ buffer mapSize descriptorSize).bytes count)) :
    ∃ k' mm, setupMemoryManager (.load m₀ buffer mapSize descriptorSize) k.heap.mm.allocMap = some mm ∧
      k.setUpMemory img.toKernelObjects gFont (backScreen img.back_fb vinfo) buffer mapSize descriptorSize = some k' ∧
      k'.heap = { k.heap with mm } ∧
      Later img (backScreen img.back_fb vinfo)
        (memoryLog (.load m₀ buffer mapSize descriptorSize) count mm) k k' := by
  let m := MemoryMap.load m₀ buffer mapSize descriptorSize
  obtain ⟨k₁, h₁, hheap₁, hl₁⟩ := print_later gFont hmode hcon "Setup Memory Manager."
    (by simp [ShortText, cString])
  let k₂ := k₁.withManager img.toKernelObjects (.construct k₁.heap.mm.allocMap)
  obtain ⟨st, hst, -⟩ := hv.scan k.heap.mm.allocMap
  have hrun := hst
  rw [scanLoop_eq hv.descriptorSize_pos hv.mapSize_eq, List.range_eq_range', ← hheap₁] at hrun
  have hl₂ : Later img (backScreen img.back_fb vinfo) _ k k₂ := hl₁.withManager _
  have hread : ∀ i, 2 * i < count → ∀ m', Set.EqOn m' k₂.mem img.drawnᶜ →
      MemoryDescriptor.load m' (BitVec.ofNat 64 (m.buffer + 2 * i * m.descriptorSize)) = m.desc (2 * i) := by
    intro i hi m' hm'
    refine MemoryDescriptor.load_congr fun a ha => ?_
    have hmap : a ∈ m.bytes count := ⟨2 * i, hi, ha⟩
    have hout : a ∉ img.drawn := Set.disjoint_left.1 hback hmap
    exact (hm' hout).trans ((hl₂.frame hout).trans (hsame hmap))
  have hfuel : (count + 1) / 2 ≤ m.mapSize := by
    have hle : count * 1 ≤ count * m.descriptorSize := Nat.mul_le_mul_left _ hv.descriptorSize_pos
    have hsize : m.mapSize = count * m.descriptorSize := hv.mapSize_eq
    omega
  obtain ⟨k₃, h₃, hheap₃, hl₃⟩ := scanLoop_later (k := k₂) gFont hmode hv.descriptorSize_pos hv.mapSize_eq hread
    ((count + 1) / 2) 0 m.mapSize (by omega) hfuel hl₂.con (fun _ _ => rfl) hrun
  have hl₃ := hl₂.trans hl₃
  have hcount : k₃.said.countP (!·.isPrint) = 0 := by
    have hloop := countP_noted ((List.range' 0 ((count + 1) / 2)).map fun i => m.desc (2 * i))
    rw [List.flatMap_map] at hloop
    rw [hl₃.said, List.countP_append, List.countP_append, hsaid, hloop]
    simp
  obtain ⟨k₄, h₄, hheap₄, hl₄⟩ := printd_later gFont hmode hl₃.con "for loop finished."
    (by simp [ShortText, cString]) (by simp [hcount])
  let mm := st.mm.setMemoryRange ⟨1⟩ ⟨st.availableEnd / kBytesPerFrame⟩
  have hmm : k₄.heap.mm = st.mm := by rw [hheap₄, hheap₃]
  have hl₅ := hl₄.withManager mm
  obtain ⟨k₆, h₆, hheap₆, hl₆⟩ := print_later gFont hmode hl₅.con "finished." (by simp [ShortText, cString])
  obtain ⟨k₇, h₇, hheap₇, hl₇⟩ := print_later gFont hmode hl₆.con
    (if mm.rangeEnd.id > 64 then "over 64" else "less than 64") (by split <;> simp [ShortText, cString])
  refine ⟨k₇, mm, ?_, ?_, ?_, ?_⟩
  · unfold setupMemoryManager
    exact Option.bind_eq_some_iff.2 ⟨st, hst, rfl⟩
  · unfold setUpMemory
    refine Option.bind_eq_some_iff.2 ⟨k₁, h₁, Option.bind_eq_some_iff.2 ⟨(st.availableEnd, k₃), ?_, ?_⟩⟩
    · have hstart : m.buffer + 2 * 0 * m.descriptorSize = m.buffer := by simp
      rw [hstart] at h₃
      exact h₃
    · refine Option.bind_eq_some_iff.2 ⟨k₄, h₄, Option.bind_eq_some_iff.2 ⟨k₆, ?_, ?_⟩⟩
      · rw [hmm]
        exact h₆
      · split
        · rename_i hover
          have hover : mm.rangeEnd.id > 64 := hover
          rwa [if_pos hover] at h₇
        · rename_i hover
          have hover : ¬ mm.rangeEnd.id > 64 := hover
          rwa [if_neg hover] at h₇
  · rw [hheap₇, hheap₆]
    show { k₄.heap with mm } = _
    rw [hheap₄, hheap₃]
    show { k₁.heap with mm } = _
    rw [hheap₁]
  · have hall := hl₃.trans (hl₅.trans (hl₆.trans hl₇))
    rw [← List.range_eq_range'] at hall
    exact hall

/-! ### The heap -/

/-- What `KernelMain` prints while it sets up the heap, which is the last that it prints. -/
def heapLog (e : Error) : List ConsoleCall :=
  .print (cString "init heap.") ::
    if e.toBool then [.printd (cString "InitializeHeap failed."), .printd (cString e.name)]
    else [.print (cString "finished.")]

theorem setUpHeap_later (gFont : AsciiFont) (hmode : vinfo.Suits)
    (hcon : k.con = consoleAfter (backScreen img.back_fb vinfo) k.said) (hsaid : k.said.countP (!·.isPrint) ≤ 1)
    (hr : k.heap.mm.rangeEnd.id.toNat ≤ kFrameCount) : ∃ k' e heap, initializeHeap k.heap = some (e, heap) ∧
      Heap.InitSpec k.heap e heap ∧
      k.setUpHeap img.toKernelObjects gFont (backScreen img.back_fb vinfo) = some k' ∧ k'.heap = heap ∧
      Later img (backScreen img.back_fb vinfo) (heapLog e) k k' := by
  obtain ⟨k₁, h₁, hheap₁, hl₁⟩ := print_later gFont hmode hcon "init heap." (by simp [ShortText, cString])
  obtain ⟨e, heap, hinit, hspec⟩ := Heap.initializeHeap_spec hr
  let k₂ := k₁.withHeap img.toKernelObjects heap
  have hl₂ : Later img (backScreen img.back_fb vinfo) [.print (cString "init heap.")] k k₂ := hl₁.withHeap heap
  have hinit₁ : initializeHeap k₁.heap = some (e, heap) := by rwa [hheap₁]
  have hcount : k₂.said.countP (!·.isPrint) ≤ 1 := by
    rw [hl₂.said, List.countP_append]
    simpa using hsaid
  cases he : e.toBool with
  | false =>
    obtain ⟨k₃, h₃, hheap₃, hl₃⟩ := print_later (k := k₂) gFont hmode hl₂.con "finished." (by simp [ShortText, cString])
    refine ⟨k₃, e, heap, hinit, hspec, ?_, hheap₃, ?_⟩
    · unfold setUpHeap
      refine Option.bind_eq_some_iff.2 ⟨k₁, h₁, Option.bind_eq_some_iff.2 ⟨(e, heap), hinit₁, ?_⟩⟩
      show (if e.toBool = true then _ else _) = _
      rw [if_neg (by simp [he])]
      exact h₃
    · rw [heapLog, if_neg (by simp [he])]
      exact hl₂.trans hl₃
  | true =>
    have hname : e.name = "kNoEnoughMemory" := by
      cases hspec with
      | failed => rfl
      | reserved => cases he
    obtain ⟨k₃, h₃, hheap₃, hl₃⟩ := printd_later (k := k₂) gFont hmode hl₂.con "InitializeHeap failed."
      (by simp [ShortText, cString]) (hcount.trans (by simp))
    have hcount₃ : k₃.said.countP (!·.isPrint) ≤ 2 := by
      rw [hl₃.said, List.countP_append]
      simpa using hcount
    obtain ⟨k₄, h₄, hheap₄, hl₄⟩ := printd_later gFont hmode hl₃.con e.name
      (by simp [hname, ShortText, cString]) hcount₃
    refine ⟨k₄, e, heap, hinit, hspec, ?_, ?_, ?_⟩
    · unfold setUpHeap
      refine Option.bind_eq_some_iff.2 ⟨k₁, h₁, Option.bind_eq_some_iff.2 ⟨(e, heap), hinit₁, ?_⟩⟩
      show (if e.toBool = true then _ else _) = _
      rw [if_pos he]
      exact Option.bind_eq_some_iff.2 ⟨k₃, h₃, h₄⟩
    · rw [hheap₄, hheap₃]
      rfl
    · rw [heapLog, if_pos he]
      exact hl₂.trans (hl₃.trans hl₄)

end Kernel

/-! ### The whole run -/

variable {img : KernelImage} {memmapBuf : SizeT} {binfo : BootInfo} {k : Kernel}

/-- The kernel when `copyScreen` has returned. -/
structure Copied (img : KernelImage) (binfo : BootInfo) (k k₁ : Kernel) : Prop where
  sys : SystemFor img.toTableObjects k₁.sys
  tables : KernelTables img.toTableObjects img.intDefault img.intSegFault k₁.mem
  frame : Set.EqOn k₁.mem k.mem (img.written ∪ range binfo.vinfo.fb binfo.vinfo.fbSize.toNat)ᶜ
  heap : k₁.heap = k.heap
  said : k₁.said = bootLines.map fun line => .print (cString line)
  con : k₁.con = consoleAfter (backScreen img.back_fb binfo.vinfo) k₁.said
  displays : Displays binfo.vinfo (.ofFile k.mem binfo.font) (bootCalls k.mem binfo.bmp) k₁.mem

theorem Copied.countP_said {k₁ : Kernel} (h : Copied img binfo k k₁) : k₁.said.countP (!·.isPrint) = 0 := by
  rw [h.said, List.countP_eq_zero]
  intro c hc
  obtain ⟨line, -, rfl⟩ := List.mem_map.1 hc
  simp

/-- The processor stays ready while there is nothing but text. -/
theorem Copied.ready {k₁ k' : Kernel} {cs : List ConsoleCall} (h : Copied img binfo k k₁)
    (hl : Later img (backScreen img.back_fb binfo.vinfo) cs k₁ k') {m' : Memory} (hm' : img.Same k'.mem m') :
    Ready img.intDefault img.intSegFault k'.sys m' := by
  have hkept : img.Same k₁.mem k'.mem := TableObjects.same_of_eqOn
    (frame_apart hl.frame img.drawn_tables.symm)
  rw [hl.sys]
  exact (h.tables.same (hkept.trans hm')).ready h.sys

/-- What the first statements of `KernelMain` rely on: the static variables are as they are without an initial value,
the mode suits the back buffer, there is room for the picture, and the font and the buffers are apart from what is
written to. -/
structure Bootable (img : KernelImage) (binfo : BootInfo) (k : Kernel) : Prop where
  screens : k.screens.screens = none
  con : k.con = .start
  said : k.said = []
  mode : binfo.vinfo.Suits
  plain : binfo.vinfo.Plain
  fits : PictureFits binfo.vinfo (.ofFile k.mem binfo.bmp)
  font : Disjoint (range binfo.font AsciiFont.fileBytes) (bytesOf img.own)
  apart : BuffersApart img binfo.vinfo k.mem binfo.bmp

/-- The font is that of the file. -/
theorem Bootable.ofFile_called (h : Bootable img binfo k) :
    AsciiFont.ofFile (k.called img.toKernelObjects).mem binfo.font = .ofFile k.mem binfo.font :=
  AsciiFont.ofFile_congr (frame_apart (called_frame _ k) h.font)

theorem kernelMain_copied (memmapBuf : SizeT) (h : Bootable img binfo k) : ∃ k₁, Copied img binfo k k₁ ∧
    kernelMain img memmapBuf binfo k =
      (k₁.setUpMemory img.toKernelObjects (.ofFile k.mem binfo.font) (backScreen img.back_fb binfo.vinfo) memmapBuf
        binfo.mmap.mapSize binfo.mmap.descriptorSize).bind
        (setUpHeap img.toKernelObjects (.ofFile k.mem binfo.font) (backScreen img.back_fb binfo.vinfo)) := by
  let gFont := AsciiFont.ofFile k.mem binfo.font
  let gScreen := backScreen img.back_fb binfo.vinfo
  let frame := frontScreen binfo.vinfo
  let o := img.toKernelObjects
  obtain ⟨sm, hsm, hfront, hback⟩ := initializeScreen_eq img.back_fb binfo.vinfo _ h.screens
  let k₀ : Kernel := { k.called o with screens := sm }.called o
  have hframe₀ : Set.EqOn k₀.mem k.mem img.writtenᶜ :=
    ((called_frame o { k.called o with screens := sm }).trans (called_frame o k)).mono
      (Set.compl_subset_compl.2 (img.own_subset.trans img.drawn_subset))
  have hcon₀ : k₀.con = .start := h.con
  have hheap₀ : k₀.heap = k.heap := rfl
  obtain ⟨k₁, h₁, hb₁⟩ := drawBackground_booting h.mode hcon₀ h.said hheap₀ hframe₀ gFont
  have hp₁ : Printed img binfo.vinfo gFont k [] k₁ := hb₁
  obtain ⟨k₂, h₂, -, -, hp₂⟩ := hp₁.print h.mode "Hello, World!!" (by simp)
    (by simp [ShortText, cString])
  obtain ⟨k₃, h₃, -, -, hp₃⟩ := hp₂.print h.mode "Welcome to MosaOS!!!" (by simp)
    (by simp [ShortText, cString])
  obtain ⟨k₄, h₄, hsys, htables, hp₄⟩ := setUpProcessor_printed h.mode hp₃
  obtain ⟨k₅, h₅, hsys₅, hframe, hheap, hsaid, hcon, hdisplays⟩ :=
    showPicture_displays h.mode h.plain h.fits h.apart hp₄
  -- the picture and the frame buffer are no tables
  have hkept : Set.EqOn k₅.mem k₄.mem img.bytes := by
    refine frame_apart hframe (Set.disjoint_union_right.2 ⟨img.drawn_tables.symm, ?_⟩)
    exact (h.apart.fb.mono_right img.bytes_subset).symm
  refine ⟨k₅, ⟨?_, htables.same (TableObjects.same_of_eqOn hkept), ?_, hheap, hsaid, hcon, hdisplays⟩, ?_⟩
  · rw [hsys₅]
    exact hsys
  · intro a ha
    simp only [Set.mem_compl_iff, Set.mem_union, not_or] at ha
    obtain ⟨hwritten, hfb⟩ := ha
    exact (hframe fun hin => hin.elim (fun hdrawn => hwritten (img.drawn_subset hdrawn)) hfb).trans (hp₄.frame hwritten)
  · unfold kernelMain
    show (initializeScreen img.back_fb binfo.vinfo k.screens).bind _ = _
    rw [hsm, h.ofFile_called]
    show ((sm.getScreen 0).map sm.deref).bind _ = _
    rw [hfront]
    show ((sm.getScreen 1).map sm.deref).bind _ = _
    rw [hback]
    show (k₀.drawBackground o gScreen frame).bind _ = _
    rw [h₁]
    show (k₁.print o gFont gScreen _).bind _ = _
    rw [h₂]
    show (k₂.print o gFont gScreen _).bind _ = _
    rw [h₃]
    show (k₃.setUpProcessor o gFont gScreen _ _).bind _ = _
    rw [h₄]
    show (k₄.showPicture o gFont gScreen frame _).bind _ = _
    rw [h₅]
    rfl

/-! ### The outcome -/

/-- The memory map that `KernelMain` is handed. -/
def BootInfo.memoryMap (binfo : BootInfo) (m : Memory) (memmapBuf : SizeT) : MemoryMap :=
  .load m memmapBuf binfo.mmap.mapSize binfo.mmap.descriptorSize

theorem Heap.InitSpec.toBool_iff {h h' : Heap} {e : Error} (hspec : Heap.InitSpec h e h') :
    e.toBool = false ↔ ∃ p, h.mm.FitsIn kHeapFrames p := by
  cases hspec with
  | failed hfit =>
    constructor
    · intro he
      cases he
    · rintro ⟨p, hp⟩
      exact absurd hp (hfit p)
  | reserved p h' hfit => exact ⟨fun _ => ⟨p, hfit.1⟩, fun _ => rfl⟩

/-- The frames that the heap can be made of are those that the boot scan kept. -/
theorem SetUp.fitsIn_iff {m : MemoryMap} {count : ℕ} {allocMap : WordArray kMapLines 64} {mm : BitmapMemoryManager}
    (hup : SetUp m count allocMap mm) {n : SizeT} (hn : 0 < n.toNat) {p : ℕ} : mm.FitsIn n p ↔
      1 ≤ p ∧ ∀ f ∈ Set.Ico p (p + n.toNat), f ∉ (BitmapMemoryManager.construct allocMap).used ∧
        ∃ j, m.Keeps count f j := by
  have hbegin : mm.rangeBegin.id.toNat = 1 := by
    rw [hup.rangeBegin]
    rfl
  constructor
  · rintro ⟨hlo, hhi, hfree⟩
    refine ⟨hbegin ▸ hlo, ?_⟩
    rintro f ⟨hf, hf'⟩
    exact (hup.clear f).1 ⟨hfree f hf hf', by omega⟩
  · rintro ⟨hlo, hkept⟩
    have hlast := (hup.clear (p + n.toNat - 1)).2 (hkept _ ⟨by omega, by omega⟩)
    refine ⟨hbegin.symm ▸ hlo, by omega, fun f hf hf' => ?_⟩
    exact ((hup.clear f).2 (hkept f ⟨hf, hf'⟩)).1

/-- The descriptors of the memory map are apart from what `KernelMain` writes to, and are mapped. -/
structure MapApart (img : KernelImage) (vinfo : VideoInfo) (m : MemoryMap) (count : ℕ) : Prop where
  apart : Disjoint (m.bytes count) (img.written ∪ range vinfo.fb vinfo.fbSize.toNat)
  low : ∀ a ∈ m.bytes count, a.toNat < kPageDirectoryCount * 2 ^ 30

theorem kernelMain_outcome {count : ℕ} (h : Bootable img binfo k)
    (hv : (binfo.memoryMap k.mem memmapBuf).Valid count)
    (hmap : MapApart img binfo.vinfo (binfo.memoryMap k.mem memmapBuf) count) :
    ∃ k' mm e, kernelMain img memmapBuf binfo k = some k' ∧
      setupMemoryManager (binfo.memoryMap k.mem memmapBuf) k.heap.mm.allocMap = some mm ∧
      SetUp (binfo.memoryMap k.mem memmapBuf) count k.heap.mm.allocMap mm ∧
      initializeHeap { k.heap with mm } = some (e, k'.heap) ∧ Heap.InitSpec { k.heap with mm } e k'.heap ∧
      ∃ k₁, Copied img binfo k k₁ ∧ Later img (backScreen img.back_fb binfo.vinfo)
        (memoryLog (binfo.memoryMap k.mem memmapBuf) count mm ++ heapLog e) k₁ k' := by
  obtain ⟨k₁, hcopied, heq⟩ := kernelMain_copied memmapBuf h
  have hdrawn : Disjoint ((binfo.memoryMap k.mem memmapBuf).bytes count) img.drawn :=
    hmap.apart.mono_right (img.drawn_subset.trans Set.subset_union_left)
  have hsame : Set.EqOn k₁.mem k.mem ((binfo.memoryMap k.mem memmapBuf).bytes count) :=
    frame_apart hcopied.frame hmap.apart
  obtain ⟨k₂, mm, hmm, h₂, hheap₂, hl₂⟩ := setUpMemory_later (.ofFile k.mem binfo.font) h.mode hcopied.con
    hcopied.countP_said hv hdrawn hsame
  rw [hcopied.heap] at hmm hheap₂
  obtain ⟨mm', hmm', hup⟩ := hv.setUp k.heap.mm.allocMap
  obtain rfl : mm = mm' := Option.some.inj (hmm.symm.trans hmm')
  have hsaid₂ : k₂.said.countP (!·.isPrint) ≤ 1 := by
    rw [hl₂.said, List.countP_append, hcopied.countP_said, countP_memoryLog]
  have hr : k₂.heap.mm.rangeEnd.id.toNat ≤ kFrameCount := by
    rw [hheap₂]
    exact hup.inRange
  obtain ⟨k', e, heap, hinit, hspec, h₃, hheap, hl₃⟩ := setUpHeap_later (.ofFile k.mem binfo.font) h.mode hl₂.con
    hsaid₂ hr
  rw [hheap₂] at hinit hspec
  subst hheap
  refine ⟨k', mm, e, ?_, hmm, hup, hinit, hspec, k₁, hcopied, hl₂.trans hl₃⟩
  rw [heq]
  exact Option.bind_eq_some_iff.2 ⟨k₂, h₂, h₃⟩

/-- A descriptor at `0x7e000` and a picture of one pixel at `0x7c000`. -/
def lowMemory : Memory := fun a =>
  ([(0x7e000, 7), (0x7e00b, 1), (0x7e01a, 1), (0x7c00a, 54), (0x7c012, 1), (0x7c016, 1), (0x7c01c, 32), (0x7c036, 1),
    (0x7c037, 2), (0x7c038, 3)].lookup a).getD 0

def lowBoot : BootInfo where
  vinfo := ⟨0x80000000, 1920000, 800, 600, 800⟩
  font := 0x70000
  mmap := ⟨16384, [], 48, 1, 48, 1⟩
  bmp := 0x7c000

def lowKernelImage : KernelImage where
  toKernelObjects := lowObjects
  back_fb := 0x200000
  intDefault := 0x100200
  intSegFault := 0x100300
  back_image a ha := by
    have hin := (mem_range_iff (by simp [kBackFbBytes])).1 ha
    simp only [BitVec.reduceToNat, kBackFbBytes] at hin
    exact lowImage_bytes.2 ⟨by omega, by omega⟩
  back_tables := by
    refine Set.disjoint_left.2 fun a ha htab => ?_
    have hlo := ((mem_range_iff (by simp [kBackFbBytes])).1 ha).1
    have hhi := (lowTables_bytes htab).2
    simp only [BitVec.reduceToNat] at hlo
    omega
  back_own := by
    refine Set.disjoint_left.2 fun a ha hown => ?_
    have hhi := ((mem_range_iff (by simp [kBackFbBytes])).1 ha).2
    have hlo := (lowOwn_bytes hown).1
    simp only [BitVec.reduceToNat, kBackFbBytes] at hhi
    omega

def lowKernel : Kernel where
  sys := staleMachine.sys
  mem := lowMemory
  scratch := staleMachine.scratch
  screens := ScreenList.zeroed
  con := .start
  heap := ⟨.construct fun _ => 0, 0, 0, 0⟩
  said := []

theorem lowKernelImage_written {a : SizeT} (ha : a ∈ lowKernelImage.written) :
    0x100000 ≤ a.toNat ∧ a.toNat < 0x1000000 :=
  lowImage_bytes.1 (lowKernelImage.written_image ha)

/-- The frame buffer at 2 GiB. -/
theorem lowBoot_fb {a : SizeT} (ha : a ∈ range lowBoot.vinfo.fb lowBoot.vinfo.fbSize.toNat) :
    0x80000000 ≤ a.toNat ∧ a.toNat < 0x90000000 := by
  have hfit : (0x80000000 : SizeT).toNat + 1920000 ≤ 2 ^ 64 := by simp
  have hin := (mem_range_iff hfit).1 ha
  simp only [BitVec.reduceToNat] at hin
  exact ⟨hin.1, by omega⟩

theorem lowKernelImage_apart {S : Set SizeT} (hS : S ⊆ range 0x7c000 0x4000) :
    Disjoint S (lowKernelImage.written ∪ range lowBoot.vinfo.fb lowBoot.vinfo.fbSize.toNat) := by
  refine Set.disjoint_left.2 fun a ha hmem => ?_
  have hin := (mem_range_iff (by simp)).1 (hS ha)
  simp only [BitVec.reduceToNat] at hin
  rcases hmem with hwritten | hfb
  · have hlo := (lowKernelImage_written hwritten).1
    omega
  · have hlo := (lowBoot_fb hfb).1
    omega

theorem lowBuffers_low {S : Set SizeT} (hS : S ⊆ range 0x7c000 0x4000) :
    ∀ a ∈ S, a.toNat < kPageDirectoryCount * 2 ^ 30 := by
  intro a ha
  have hin := (mem_range_iff (by simp)).1 (hS ha)
  simp only [BitVec.reduceToNat] at hin
  rw [kPageDirectoryCount]
  omega

theorem lowBoot_picture : BitMapImage.ofFile lowMemory lowBoot.bmp = ⟨0x7c00e, 0x7c036, 1, 1, false⟩ := by
  have hoff : BitMapImage.bfOffBits lowMemory lowBoot.bmp = 54 := by decide
  have hwidth : BitMapImage.bcWidth lowMemory (lowBoot.bmp + BitMapImage.sizeofBMHeader) = 1 := by decide
  have hheight : BitMapImage.bcHeight lowMemory (lowBoot.bmp + BitMapImage.sizeofBMHeader) = 1 := by decide
  simp only [BitMapImage.ofFile, hoff, hwidth, hheight]
  rfl

theorem lowBoot_pictureBytes : pictureBytes lowMemory lowBoot.bmp ⊆ range 0x7c000 0x4000 := by
  rintro a (ha | ⟨x, hx, y, hy, ha⟩)
  · exact range_mono (by simp) ha
  · rw [lowBoot_picture, BitVec.lt_def] at hx hy
    obtain rfl : x = 0 := BitVec.eq_of_toNat_eq (Nat.lt_one_iff.1 hx)
    obtain rfl : y = 0 := BitVec.eq_of_toNat_eq (Nat.lt_one_iff.1 hy)
    have haddrs : BitMapImage.colorAddrs lowMemory (.ofFile lowMemory lowBoot.bmp) 0 0 =
        [0x7c036, 0x7c037, 0x7c038] := by
      rw [lowBoot_picture]
      decide
    rw [haddrs] at ha
    simp only [List.mem_cons, List.not_mem_nil, or_false] at ha
    rcases ha with rfl | rfl | rfl
    all_goals simp [mem_range]

theorem lowBoot_bootable : Bootable lowKernelImage lowBoot lowKernel where
  screens := rfl
  con := rfl
  said := rfl
  mode := ⟨by simp [lowBoot], by simp [lowBoot], by simp [lowBoot, kBackFbEntries], by simp [lowBoot, kBackFbBytes]⟩
  plain := ⟨rfl, by simp [lowBoot]⟩
  fits := by
    show PictureFits lowBoot.vinfo (.ofFile lowMemory lowBoot.bmp)
    rw [lowBoot_picture]
    exact ⟨by simp [lowBoot], by simp [lowBoot]⟩
  font := by
    refine Set.disjoint_left.2 fun a ha hown => ?_
    have hhi := ((mem_range_iff (by simp [lowBoot, AsciiFont.fileBytes])).1 ha).2
    have hlo := (lowOwn_bytes hown).1
    simp only [lowBoot, BitVec.reduceToNat, AsciiFont.fileBytes] at hhi
    omega
  apart := by
    refine ⟨Set.disjoint_left.2 fun a ha hwritten => ?_, fun a ha => ?_, ?_, lowBuffers_low lowBoot_pictureBytes⟩
    · have hlo := (lowBoot_fb ha).1
      have hhi := (lowKernelImage_written hwritten).2
      omega
    · have hhi := (lowBoot_fb ha).2
      rw [kPageDirectoryCount]
      omega
    · exact (lowKernelImage_apart lowBoot_pictureBytes).mono_right Set.subset_union_left

theorem lowBoot_desc : (lowBoot.memoryMap lowMemory 0x7e000).desc 0 = ⟨7, 0x1000000, 0x10000⟩ := by decide

theorem lowBoot_valid : (lowBoot.memoryMap lowMemory 0x7e000).Valid 1 := by
  refine ⟨by decide, rfl, fun k hk => ?_, fun i hi j hj hij => absurd hij (by omega)⟩
  obtain rfl : k = 0 := by omega
  rw [lowBoot_desc]
  exact ⟨by decide, by decide⟩

theorem lowBoot_apart : MapApart lowKernelImage lowBoot.vinfo (lowBoot.memoryMap lowMemory 0x7e000) 1 := by
  have hin : (lowBoot.memoryMap lowMemory 0x7e000).bytes 1 ⊆ range 0x7c000 0x4000 := by
    rintro a ⟨j, hj, ha⟩
    obtain rfl : j = 0 := by omega
    exact range_add_subset (k := 0x2000) (by simp) (by simp) ha
  exact ⟨lowKernelImage_apart hin, lowBuffers_low hin⟩

end MosaOS
