import MosaOS.Lib.BitFields
import MosaOS.Lib.Descriptor
import MosaOS.Memory

/-!
# Segments (`kernel/segment.cpp`, `kernel/segment.hpp`, `kernel/x86_descriptor.hpp`)

`SetCodeSegment` and `SetDataSegment` write a descriptor field by field, and the compiler places the
fields of the packed `bits` one after another. `readSegment_setCodeSegment` and `readSegment_setDataSegment` say
what the processor reads in the word.
-/

namespace MosaOS
open ByteMem BitFields Descriptor

/-- `enum class DescriptorType`. Its underlying type is `int`, so that every `int` is one. -/
structure DescriptorType where
  val : BitVec 32
deriving DecidableEq, Repr

namespace DescriptorType

def kInterruptGate : DescriptorType := ⟨14⟩
def kReadWrite : DescriptorType := ⟨2⟩
def kExecuteRead : DescriptorType := ⟨10⟩

end DescriptorType

/-- The fields of `SegmentDescriptor::bits`. -/
inductive SegmentField
  | limitLow
  | baseLow
  | baseMiddle
  | type
  | systemSegment
  | descriptorPrivilegeLevel
  | present
  | limitHigh
  | available
  | longMode
  | defaultOperationSize
  | granularity
  | baseHigh
deriving DecidableEq, Repr

def segmentBits : Record SegmentField 64 where
  fields := [.limitLow, .baseLow, .baseMiddle, .type, .systemSegment, .descriptorPrivilegeLevel, .present,
    .limitHigh, .available, .longMode, .defaultOperationSize, .granularity, .baseHigh]
  width
    | .limitLow => 16
    | .baseLow => 16
    | .baseMiddle => 8
    | .type => 4
    | .systemSegment => 1
    | .descriptorPrivilegeLevel => 2
    | .present => 1
    | .limitHigh => 4
    | .available => 1
    | .longMode => 1
    | .defaultOperationSize => 1
    | .granularity => 1
    | .baseHigh => 8
  mem_fields f := by cases f <;> decide
  sum_width := rfl

structure SegmentDescriptor where
  data : BitVec 64
deriving DecidableEq, Repr

/-- `desc.bits.f = v`. -/
def SegmentDescriptor.set {k : ℕ} (desc : SegmentDescriptor) (f : SegmentField) (v : BitVec k) :
    SegmentDescriptor := ⟨segmentBits.set desc.data f v⟩

def setCodeSegment (desc : SegmentDescriptor) (type : DescriptorType)
    (descriptorPrivilegeLevel base limit : BitVec 32) : SegmentDescriptor :=
  let desc := { desc with data := 0 }
  let desc := desc.set .baseLow (base &&& 0xffff)
  let desc := desc.set .baseMiddle (base >>> 16 &&& 0xff)
  let desc := desc.set .baseHigh (base >>> 24 &&& 0xff)
  let desc := desc.set .limitLow (limit &&& 0xffff)
  let desc := desc.set .limitHigh (limit >>> 16 &&& 0xf)
  let desc := desc.set .type type.val
  let desc := desc.set .systemSegment (1 : BitVec 32)
  let desc := desc.set .descriptorPrivilegeLevel descriptorPrivilegeLevel
  let desc := desc.set .present (1 : BitVec 32)
  let desc := desc.set .available (0 : BitVec 32)
  let desc := desc.set .longMode (1 : BitVec 32)
  let desc := desc.set .defaultOperationSize (0 : BitVec 32)
  desc.set .granularity (1 : BitVec 32)

def setDataSegment (desc : SegmentDescriptor) (type : DescriptorType)
    (descriptorPrivilegeLevel base limit : BitVec 32) : SegmentDescriptor :=
  let desc := setCodeSegment desc type descriptorPrivilegeLevel base limit
  let desc := desc.set .longMode (0 : BitVec 32)
  desc.set .defaultOperationSize (1 : BitVec 32)

/-- The bytes of a descriptor in memory. -/
def SegmentDescriptor.bytes (desc : SegmentDescriptor) : List (BitVec 8) := leBytes 8 desc.data.toNat

/-- What `gdt` becomes. -/
def setupSegments (gdt : Fin 3 → SegmentDescriptor) : Fin 3 → SegmentDescriptor :=
  let gdt := Function.update gdt 0 ⟨0⟩
  let gdt := Function.update gdt 1 (setCodeSegment (gdt 1) .kExecuteRead 0 0 0xfffff)
  Function.update gdt 2 (setDataSegment (gdt 2) .kReadWrite 0 0 0xfffff)

/-- What `LoadGDT` loads where `gdt` is at `a`. -/
def gdtRegister (a : SizeT) : TableRegister 64 := ⟨8 * 3 - 1, a⟩

/-- The selectors of `KernelMain`. -/
def kernelCs : BitVec 16 := 1 <<< 3
def kernelSs : BitVec 16 := 2 <<< 3

variable {desc : SegmentDescriptor} {type : DescriptorType} {dpl base limit : BitVec 32}

/-! ### Fields -/

/-- The places of the fields are those where the processor looks for them. -/
theorem readSegment_eq (x : BitVec 64) : readSegment x =
    { base := segmentBits.get x .baseHigh ++ segmentBits.get x .baseMiddle ++ segmentBits.get x .baseLow
      limit := (segmentBits.get x .limitHigh ++ segmentBits.get x .limitLow).toNat
      type := (segmentBits.get x .type).toNat
      s := segmentBits.get x .systemSegment == 1
      dpl := (segmentBits.get x .descriptorPrivilegeLevel).toNat
      p := segmentBits.get x .present == 1
      avl := segmentBits.get x .available == 1
      l := segmentBits.get x .longMode == 1
      d := segmentBits.get x .defaultOperationSize == 1
      g := segmentBits.get x .granularity == 1 } := by
  unfold readSegment
  simp only [BitVec.getLsbD_eq_extractLsb']
  rfl

/-- The fields of a code segment. -/
theorem get_setCodeSegment (f : SegmentField) :
    segmentBits.get (setCodeSegment desc type dpl base limit).data f =
    match f with
    | .limitLow => limit.extractLsb' 0 16
    | .baseLow => base.extractLsb' 0 16
    | .baseMiddle => base.extractLsb' 16 8
    | .type => type.val.setWidth 4
    | .systemSegment => 1
    | .descriptorPrivilegeLevel => dpl.setWidth 2
    | .present => 1
    | .limitHigh => limit.extractLsb' 16 4
    | .available => 0
    | .longMode => 1
    | .defaultOperationSize => 0
    | .granularity => 1
    | .baseHigh => base.extractLsb' 24 8 := by
  -- every field is written, so that nothing is left of `desc`
  cases f
  all_goals simp only [setCodeSegment, SegmentDescriptor.set, Record.get_set_self, Record.get_set_of_ne,
    ne_eq, reduceCtorEq, not_false_eq_true]
  case limitLow => exact setWidth_and rfl
  case baseLow => exact setWidth_and rfl
  case baseMiddle => exact setWidth_and_shift rfl 16
  case limitHigh => exact setWidth_and_shift rfl 16
  case baseHigh => exact setWidth_and_shift rfl 24
  all_goals rfl

/-- A data segment has the fields of a code segment but for two flags. -/
theorem get_setDataSegment (f : SegmentField) :
    segmentBits.get (setDataSegment desc type dpl base limit).data f =
    match f with
    | .longMode => 0
    | .defaultOperationSize => 1
    | f => segmentBits.get (setCodeSegment desc type dpl base limit).data f := by
  cases f
  all_goals simp only [setDataSegment, SegmentDescriptor.set, Record.get_set_self, Record.get_set_of_ne,
    ne_eq, reduceCtorEq, not_false_eq_true]
  all_goals rfl

/-! ### What the processor reads -/

/-- A segment of 64-bit code with a limit in pages. All arguments are cut off to the width of their
fields. -/
theorem readSegment_setCodeSegment (desc : SegmentDescriptor) (type : DescriptorType)
    (dpl base limit : BitVec 32) : readSegment (setCodeSegment desc type dpl base limit).data =
      { base, limit := limit.toNat % 2 ^ 20, type := type.val.toNat % 16, s := true
        dpl := dpl.toNat % 4, p := true, avl := false, l := true, d := false, g := true } := by
  have htype := BitVec.toNat_setWidth 4 type.val
  have hdpl := BitVec.toNat_setWidth 2 dpl
  rw [readSegment_eq]
  simp only [get_setCodeSegment]
  exact Segment.ext (base_split base) (limit_split limit) htype rfl hdpl rfl rfl rfl rfl rfl

theorem readSegment_setDataSegment (desc : SegmentDescriptor) (type : DescriptorType)
    (dpl base limit : BitVec 32) : readSegment (setDataSegment desc type dpl base limit).data =
      { readSegment (setCodeSegment desc type dpl base limit).data with l := false, d := true } := by
  rw [readSegment_eq, readSegment_eq]
  simp only [get_setDataSegment]
  rfl

/-! ### The global table -/

section
variable {m : Memory} {a : SizeT} {gdt : Fin 3 → SegmentDescriptor}

theorem segmentAt_gdt (h : ∀ i : Fin 3, BytesAt m (a + BitVec.ofNat 64 (8 * i)) (gdt i).bytes)
    {selector : BitVec 16} {i : Fin 3} (hindex : selector.toNat / 8 = i) (hi : i ≠ 0)
    (hglobal : selector.getLsbD 2 = false) :
    segmentAt m (gdtRegister a) selector = some (readSegment (gdt i).data) := by
  have hlimit : 8 * (i : ℕ) + 7 ≤ (gdtRegister a).limit.toNat := by
    have := i.isLt
    show 8 * (i : ℕ) + 7 ≤ 8 * 3 - 1
    omega
  unfold segmentAt
  simp only [hindex]
  rw [if_pos ⟨Fin.val_ne_of_ne hi, hglobal, hlimit⟩]
  rw [gdtRegister, ofNat_readNat rfl (h i)]

/-- The selectors of the kernel name its code and its data. -/
theorem segmentAt_setupSegments
    (h : ∀ i : Fin 3, BytesAt m (a + BitVec.ofNat 64 (8 * i)) (setupSegments gdt i).bytes) :
    segmentAt m (gdtRegister a) kernelCs =
        some ⟨0, 0xfffff, 10, true, 0, true, false, true, false, true⟩ ∧
      segmentAt m (gdtRegister a) kernelSs =
        some ⟨0, 0xfffff, 2, true, 0, true, false, false, true, true⟩ := by
  have hcode : setupSegments gdt 1 = setCodeSegment (gdt 1) .kExecuteRead 0 0 0xfffff := rfl
  have hdata : setupSegments gdt 2 = setDataSegment (gdt 2) .kReadWrite 0 0 0xfffff := rfl
  constructor
  · rw [segmentAt_gdt h (i := 1) rfl (by decide) rfl, hcode, readSegment_setCodeSegment]
    rfl
  · rw [segmentAt_gdt h (i := 2) rfl (by decide) rfl, hdata, readSegment_setDataSegment,
      readSegment_setCodeSegment]
    rfl

end

end MosaOS
