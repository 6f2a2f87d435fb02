import MosaOS.BootPicture
import MosaOS.KernelHalt

/-!
# What the kernel shows when it halts

Whatever the memory map is and whether there is a heap or not, nothing but the back buffer and the variables is written
to after `copyScreen`. So the screen shows `bootPicture` in the end, and none of the messages about the memory.
-/

namespace MosaOS
open ByteMem X86 Kernel BitmapMemoryManager

theorem name_of_initializeHeap {h h' : Heap} {e : Error} (hinit : initializeHeap h = some (e, h')) :
    e.name = "kSuccess" ∨ e.name = "kNoEnoughMemory" := by
  obtain ⟨⟨heapStart, mm⟩, halloc, hrest⟩ := Option.bind_eq_some_iff.1 hinit
  have hname : heapStart.error.name = "kSuccess" ∨ heapStart.error.name = "kNoEnoughMemory" := by
    unfold BitmapMemoryManager.allocate at halloc
    split at halloc
    · cases halloc
    · cases halloc
      exact Or.inr rfl
    · obtain ⟨mm', -, hpair⟩ := Option.map_eq_some_iff.1 halloc
      cases hpair
      exact Or.inl rfl
  change (if heapStart.error.toBool = true then _ else _) = _ at hrest
  split at hrest
  · cases hrest
    exact hname
  · cases hrest
    exact Or.inl rfl

namespace Kernel

variable {img : KernelImage} {vinfo : VideoInfo} {gFont : AsciiFont} {k k' : Kernel} {c : ConsoleCall}
  {availableEnd availableEnd' : SizeT}

/-- Nothing has been done but to print, at most `n` times with `printd`. -/
def Talks (img : KernelImage) (vinfo : VideoInfo) (n : ℕ) (k k' : Kernel) : Prop :=
  ∃ cs, cs.countP (!·.isPrint) ≤ n ∧ Later img (backScreen img.back_fb vinfo) cs k k'

theorem Talks.refl (hcon : k.con = consoleAfter (backScreen img.back_fb vinfo) k.said) : Talks img vinfo 0 k k :=
  ⟨[], by simp, .refl hcon⟩

theorem Talks.trans {k₁ : Kernel} {n n' : ℕ} (h : Talks img vinfo n k k₁) (h' : Talks img vinfo n' k₁ k') :
    Talks img vinfo (n + n') k k' := by
  obtain ⟨cs, hcs, hl⟩ := h
  obtain ⟨ds, hds, hl'⟩ := h'
  refine ⟨cs ++ ds, ?_, hl.trans hl'⟩
  rw [List.countP_append]
  omega

theorem Talks.mono {n n' : ℕ} (h : Talks img vinfo n k k') (hn : n ≤ n') : Talks img vinfo n' k k' := by
  obtain ⟨cs, hcs, hl⟩ := h
  exact ⟨cs, hcs.trans hn, hl⟩

theorem Talks.withHeap {n : ℕ} (h : Talks img vinfo n k k') (heap : Heap) :
    Talks img vinfo n k (k'.withHeap img.toKernelObjects heap) := by
  obtain ⟨cs, hcs, hl⟩ := h
  exact ⟨cs, hcs, hl.withHeap heap⟩

theorem Talks.withManager {n : ℕ} (h : Talks img vinfo n k k') (mm : BitmapMemoryManager) :
    Talks img vinfo n k (k'.withManager img.toKernelObjects mm) := h.withHeap _

theorem Talks.con {n : ℕ} (h : Talks img vinfo n k k') :
    k'.con = consoleAfter (backScreen img.back_fb vinfo) k'.said := by
  obtain ⟨cs, -, hl⟩ := h
  exact hl.con

theorem Talks.said_le {n n' : ℕ} (h : Talks img vinfo n k k') (hsaid : k.said.countP (!·.isPrint) ≤ n') :
    k'.said.countP (!·.isPrint) ≤ n' + n := by
  obtain ⟨cs, hcs, hl⟩ := h
  rw [hl.said, List.countP_append]
  omega

theorem talks_of_print (hmode : vinfo.Suits) (hcon : k.con = consoleAfter (backScreen img.back_fb vinfo) k.said)
    {line : String} (hshort : ShortText (cString line))
    (h : k.print img.toKernelObjects gFont (backScreen img.back_fb vinfo) line = some k') :
    k'.heap = k.heap ∧ Talks img vinfo 0 k k' := by
  obtain ⟨k₁, h₁, hheap, hlater⟩ := print_later gFont hmode hcon line hshort
  obtain rfl : k₁ = k' := Option.some.inj (h₁.symm.trans h)
  exact ⟨hheap, _, by simp, hlater⟩

theorem talks_of_printd (hmode : vinfo.Suits) (hcon : k.con = consoleAfter (backScreen img.back_fb vinfo) k.said)
    {line : String} (hshort : ShortText (cString line)) (hsaid : k.said.countP (!·.isPrint) ≤ 2)
    (h : k.printd img.toKernelObjects gFont (backScreen img.back_fb vinfo) line = some k') :
    k'.heap = k.heap ∧ Talks img vinfo 1 k k' := by
  obtain ⟨k₁, h₁, hheap, hlater⟩ := printd_later gFont hmode hcon line hshort hsaid
  obtain rfl : k₁ = k' := Option.some.inj (h₁.symm.trans h)
  exact ⟨hheap, _, by simp, hlater⟩

/-- One turn of the loop, for any descriptor. -/
theorem talks_of_scanDescriptor (hmode : vinfo.Suits)
    (hcon : k.con = consoleAfter (backScreen img.back_fb vinfo) k.said) {desc : MemoryDescriptor}
    (h : k.scanDescriptor img.toKernelObjects gFont (backScreen img.back_fb vinfo) availableEnd desc =
      some (availableEnd', k')) :
    Talks img vinfo 0 k k' := by
  obtain ⟨mm, -, hrest⟩ := Option.bind_eq_some_iff.1 h
  have ht₀ : Talks img vinfo 0 k k := .refl hcon
  have ht₁ := ht₀.withManager mm
  change (if isAvailable desc.type = true then _ else _) = _ at hrest
  split at hrest
  · cases hrest
    exact ht₁
  · obtain ⟨k₂, h₂, hrest⟩ := Option.bind_eq_some_iff.1 hrest
    obtain ⟨mm', -, hlast⟩ := Option.bind_eq_some_iff.1 hrest
    cases hlast
    obtain ⟨-, ht₂⟩ := talks_of_print hmode ht₁.con (by simp [ShortText, cString]) h₂
    exact (ht₁.trans ht₂).withManager mm'

theorem talks_of_scanLoop (hmode : vinfo.Suits) {stop descriptorSize fuel iter : ℕ}
    (hcon : k.con = consoleAfter (backScreen img.back_fb vinfo) k.said)
    (h : k.scanLoop img.toKernelObjects gFont (backScreen img.back_fb vinfo) stop descriptorSize fuel iter availableEnd =
      some (availableEnd', k')) : Talks img vinfo 0 k k' := by
  induction fuel generalizing iter availableEnd k with
  | zero =>
    unfold Kernel.scanLoop at h
    split at h
    · cases h
    · cases h
      exact .refl hcon
  | succ fuel ih =>
    unfold Kernel.scanLoop at h
    split at h
    · obtain ⟨⟨e, k₁⟩, hturn, hrest⟩ := Option.bind_eq_some_iff.1 h
      have hfirst := talks_of_scanDescriptor hmode hcon hturn
      exact hfirst.trans (ih hfirst.con hrest)
    · cases h
      exact .refl hcon

theorem talks_of_setUpMemory (hmode : vinfo.Suits) {buffer mapSize descriptorSize : SizeT}
    (hcon : k.con = consoleAfter (backScreen img.back_fb vinfo) k.said) (hsaid : k.said.countP (!·.isPrint) = 0)
    (h : k.setUpMemory img.toKernelObjects gFont (backScreen img.back_fb vinfo) buffer mapSize descriptorSize = some k') :
    Talks img vinfo 1 k k' := by
  unfold setUpMemory at h
  obtain ⟨k₁, h₁, h⟩ := Option.bind_eq_some_iff.1 h
  obtain ⟨⟨availableEnd, k₂⟩, h₂, h⟩ := Option.bind_eq_some_iff.1 h
  obtain ⟨k₃, h₃, h⟩ := Option.bind_eq_some_iff.1 h
  obtain ⟨k₄, h₄, h⟩ := Option.bind_eq_some_iff.1 h
  obtain ⟨-, ht₁⟩ := talks_of_print hmode hcon (by simp [ShortText, cString]) h₁
  have ht₂ := (ht₁.withManager _).trans (talks_of_scanLoop hmode (ht₁.withManager _).con h₂)
  have hsaid₂ := ht₂.said_le hsaid.le
  obtain ⟨-, ht₃⟩ := talks_of_printd hmode ht₂.con (by simp [ShortText, cString]) (by omega) h₃
  have ht₃ := (ht₂.trans ht₃).withManager (k₃.heap.mm.setMemoryRange ⟨1⟩ ⟨availableEnd / kBytesPerFrame⟩)
  obtain ⟨-, ht₄⟩ := talks_of_print hmode ht₃.con (by simp [ShortText, cString]) h₄
  have ht₄ := ht₃.trans ht₄
  split at h
  · obtain ⟨-, ht⟩ := talks_of_print hmode ht₄.con (by simp [ShortText, cString]) h
    exact ht₄.trans ht
  · obtain ⟨-, ht⟩ := talks_of_print hmode ht₄.con (by simp [ShortText, cString]) h
    exact ht₄.trans ht

theorem talks_of_setUpHeap (hmode : vinfo.Suits) (hcon : k.con = consoleAfter (backScreen img.back_fb vinfo) k.said)
    (hsaid : k.said.countP (!·.isPrint) ≤ 1)
    (h : k.setUpHeap img.toKernelObjects gFont (backScreen img.back_fb vinfo) = some k') : Talks img vinfo 2 k k' := by
  unfold setUpHeap at h
  obtain ⟨k₁, h₁, h⟩ := Option.bind_eq_some_iff.1 h
  obtain ⟨⟨e, heap⟩, hinit, h⟩ := Option.bind_eq_some_iff.1 h
  obtain ⟨-, ht₁⟩ := talks_of_print hmode hcon (by simp [ShortText, cString]) h₁
  have ht₁ := ht₁.withHeap heap
  have hsaid₁ := ht₁.said_le hsaid
  change (if e.toBool = true then _ else _) = _ at h
  split at h
  · obtain ⟨k₂, h₂, h₃⟩ := Option.bind_eq_some_iff.1 h
    obtain ⟨-, ht₂⟩ := talks_of_printd hmode ht₁.con (by simp [ShortText, cString]) (by omega) h₂
    have ht₂ := ht₁.trans ht₂
    have hsaid₂ := ht₂.said_le hsaid
    have hname : ShortText (cString e.name) := by
      rcases name_of_initializeHeap hinit with hname | hname
      · simp [hname, ShortText, cString]
      · simp [hname, ShortText, cString]
    obtain ⟨-, ht₃⟩ := talks_of_printd hmode ht₂.con hname (by omega) h₃
    exact ht₂.trans ht₃
  · obtain ⟨-, ht₂⟩ := talks_of_print hmode ht₁.con (by simp [ShortText, cString]) h
    exact (ht₁.trans ht₂).mono (by simp)

end Kernel

/-! ### The whole run -/

variable {img : KernelImage} {memmapBuf : SizeT} {binfo : BootInfo} {k k' : Kernel}

/-- After `copyScreen` the kernel only talks. -/
theorem kernelMain_later (h : Bootable img binfo k) (hrun : kernelMain img memmapBuf binfo k = some k') :
    ∃ k₁ cs, Copied img binfo k k₁ ∧ Later img (backScreen img.back_fb binfo.vinfo) cs k₁ k' := by
  obtain ⟨k₁, hcopied, heq⟩ := kernelMain_copied memmapBuf h
  rw [heq] at hrun
  obtain ⟨k₂, h₂, h₃⟩ := Option.bind_eq_some_iff.1 hrun
  have ht₂ := talks_of_setUpMemory h.mode hcopied.con hcopied.countP_said h₂
  have hsaid₂ := ht₂.said_le hcopied.countP_said.le
  obtain ⟨cs, -, hlater⟩ := ht₂.trans (talks_of_setUpHeap h.mode ht₂.con (by omega) h₃)
  exact ⟨k₁, cs, hcopied, hlater⟩

theorem hardwarePixel_kernelMain (h : Bootable img binfo k) (hrun : kernelMain img memmapBuf binfo k = some k')
    {p : Point} (hx : p.1 < binfo.vinfo.xAxis.toNat) (hy : p.2 < binfo.vinfo.yAxis.toNat) :
    binfo.vinfo.hardwarePixel k'.mem p = bootPicture (AsciiFont.ofFile k.mem binfo.font).glyphs
      ((BitMapImage.ofFile k.mem binfo.bmp).picture k.mem) (BitMapImage.ofFile k.mem binfo.bmp).width.toNat
      (BitMapImage.ofFile k.mem binfo.bmp).height.toNat p := by
  obtain ⟨k₁, cs, hcopied, hlater⟩ := kernelMain_later h hrun
  have hfb : Set.EqOn k'.mem k₁.mem (range binfo.vinfo.fb binfo.vinfo.fbSize.toNat) :=
    frame_apart hlater.frame (h.apart.fb.mono_right img.drawn_subset)
  rw [hcopied.displays.congr h.plain hfb p hx hy, bootCalls_picture]

end MosaOS
