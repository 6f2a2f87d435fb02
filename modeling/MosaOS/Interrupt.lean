import MosaOS.Segment
import Mathlib.Data.List.Induction
import Mathlib.Data.List.FinRange

/-!
# Interrupts (`kernel/interrupt.cpp`, `kernel/interrupt.hpp`)

`SetIDTEntry` writes all of a gate but its last four bytes, and `readGate_setIDTEntry` says what the
processor reads there. `handler_initializeInterrupt` goes through both tables of descriptors, from a
vector to the function of the kernel behind it.
-/

namespace MosaOS
open ByteMem BitFields Descriptor

/-- The fields of `InterruptDescriptorAttribute::bits`, of which two have no name. -/
inductive AttributeField
  | interruptStackTable
  | unnamed5
  | type
  | unnamed1
  | descriptorPrivilegeLevel
  | present
deriving DecidableEq, Repr

def attributeBits : Record AttributeField 16 where
  fields := [.interruptStackTable, .unnamed5, .type, .unnamed1, .descriptorPrivilegeLevel, .present]
  width
    | .interruptStackTable => 3
    | .unnamed5 => 5
    | .type => 4
    | .unnamed1 => 1
    | .descriptorPrivilegeLevel => 2
    | .present => 1
  mem_fields f := by cases f <;> decide
  sum_width := rfl

structure InterruptDescriptorAttribute where
  data : BitVec 16
deriving DecidableEq, Repr

/-- `attr.bits.f = v`. -/
def InterruptDescriptorAttribute.set {k : ℕ} (attr : InterruptDescriptorAttribute) (f : AttributeField)
    (v : BitVec k) : InterruptDescriptorAttribute := ⟨attributeBits.set attr.data f v⟩

structure InterruptDescriptor where
  offsetLow : BitVec 16
  segmentSelector : BitVec 16
  attr : InterruptDescriptorAttribute
  offsetMiddle : BitVec 16
  offsetHigh : BitVec 32
  reserved : BitVec 32
deriving DecidableEq, Repr

/-- The packed members in memory. -/
def InterruptDescriptor.bytes (desc : InterruptDescriptor) : List (BitVec 8) :=
  leBytes 2 desc.offsetLow.toNat ++ leBytes 2 desc.segmentSelector.toNat ++
    leBytes 2 desc.attr.data.toNat ++ leBytes 2 desc.offsetMiddle.toNat ++
    leBytes 4 desc.offsetHigh.toNat ++ leBytes 4 desc.reserved.toNat

def makeIDTAttr (type : DescriptorType) (descriptorPrivilegeLevel : BitVec 8) (present : Bool := true)
    (interruptStackTable : BitVec 8 := 0) : InterruptDescriptorAttribute :=
  let attr : InterruptDescriptorAttribute := ⟨0⟩
  let attr := attr.set .interruptStackTable interruptStackTable
  let attr := attr.set .type type.val
  let attr := attr.set .descriptorPrivilegeLevel descriptorPrivilegeLevel
  attr.set .present (BitVec.ofBool present)

def setIDTEntry (desc : InterruptDescriptor) (attr : InterruptDescriptorAttribute) (offset : BitVec 64)
    (segmentSelector : BitVec 16) : InterruptDescriptor :=
  { desc with
    attr
    offsetLow := (offset &&& 0xffff).setWidth 16
    offsetMiddle := (offset >>> 16 &&& 0xffff).setWidth 16
    offsetHigh := (offset >>> 32).setWidth 32
    segmentSelector }

/-- The body of the loop. -/
def setDefault (intDefault : BitVec 64) (cs : BitVec 16) (idt : Fin 256 → InterruptDescriptor)
    (i : Fin 0x14) : Fin 256 → InterruptDescriptor :=
  let v : Fin 256 := i.castLE (by decide)
  Function.update idt v (setIDTEntry (idt v) (makeIDTAttr .kInterruptGate 0) intDefault cs)

/-- What `idt` becomes, for the addresses of `IntDefault` and `IntSegFault` and the selector `GetCS()`. -/
def initializeInterrupt (intDefault intSegFault : BitVec 64) (cs : BitVec 16)
    (idt : Fin 256 → InterruptDescriptor) : Fin 256 → InterruptDescriptor :=
  let idt := (List.finRange 0x14).foldl (setDefault intDefault cs) idt
  Function.update idt 0x0c (setIDTEntry (idt 0x0c) (makeIDTAttr .kInterruptGate 0) intSegFault cs)

/-- What `LoadIDT` loads where `idt` is at `a`. -/
def idtRegister (a : SizeT) : TableRegister 64 := ⟨16 * 256 - 1, a⟩

variable {desc : InterruptDescriptor} {type : DescriptorType} {dpl ist : BitVec 8} {present : Bool}
  {offset : BitVec 64} {selector : BitVec 16} {m : Memory} {a : SizeT}

/-! ### Fields -/

theorem get_makeIDTAttr (f : AttributeField) :
    attributeBits.get (makeIDTAttr type dpl present ist).data f =
    match f with
    | .interruptStackTable => ist.setWidth 3
    | .unnamed5 => 0
    | .type => type.val.setWidth 4
    | .unnamed1 => 0
    | .descriptorPrivilegeLevel => dpl.setWidth 2
    | .present => BitVec.ofBool present := by
  cases f
  all_goals simp only [makeIDTAttr, InterruptDescriptorAttribute.set, Record.get_set_self,
    Record.get_set_of_ne, Record.get_zero, ne_eq, reduceCtorEq, not_false_eq_true]
  case present => cases present <;> rfl
  all_goals rfl

namespace InterruptDescriptor

/-- The sixteen bytes as a number. -/
def number (desc : InterruptDescriptor) : BitVec 128 :=
  desc.reserved ++ (desc.offsetHigh ++ (desc.offsetMiddle ++ (desc.attr.data ++
    (desc.segmentSelector ++ desc.offsetLow))))

theorem bytes_eq (desc : InterruptDescriptor) : desc.bytes = leBytes 16 desc.number.toNat := by
  unfold bytes
  rw [leBytes_append (n := 2) rfl, leBytes_append (n := 4) rfl, leBytes_append (n := 6) rfl,
    leBytes_append (n := 8) rfl, leBytes_append (n := 12) rfl]
  rfl

theorem extract_low (desc : InterruptDescriptor) {lo n : ℕ} (h : lo + n ≤ 48) :
    desc.number.extractLsb' lo n =
      (desc.attr.data ++ (desc.segmentSelector ++ desc.offsetLow)).extractLsb' lo n := by
  unfold number
  rw [BitVec.extractLsb'_append_eq_of_add_le (by omega), BitVec.extractLsb'_append_eq_of_add_le (by omega),
    BitVec.extractLsb'_append_eq_of_add_le h]

/-- The fields of the attribute begin at bit 32. -/
theorem extract_attr (desc : InterruptDescriptor) (f : AttributeField) :
    desc.number.extractLsb' (32 + attributeBits.offset f) (attributeBits.width f) =
      attributeBits.get desc.attr.data f := by
  have hle := attributeBits.offset_add_width_le f
  have hlo : 32 + attributeBits.offset f - (16 + 16) = attributeBits.offset f := Nat.add_sub_cancel_left _ _
  rw [extract_low desc (by omega), BitVec.extractLsb'_append_eq_of_le (Nat.le_add_right _ _), hlo]
  rfl

/-- The offset is in three members. -/
theorem extract_offset (desc : InterruptDescriptor) : desc.number.extractLsb' 64 32 = desc.offsetHigh ∧
    desc.number.extractLsb' 48 16 = desc.offsetMiddle ∧ desc.number.extractLsb' 0 16 = desc.offsetLow := by
  refine ⟨?_, ?_, ?_⟩
  · unfold number
    rw [BitVec.extractLsb'_append_eq_of_add_le (by decide)]
    exact BitVec.extractLsb'_append_eq_left
  · unfold number
    rw [BitVec.extractLsb'_append_eq_of_add_le (by decide), BitVec.extractLsb'_append_eq_of_add_le (by decide)]
    exact BitVec.extractLsb'_append_eq_left
  · rw [extract_low desc (by decide), BitVec.extractLsb'_append_eq_of_add_le (by decide)]
    exact BitVec.extractLsb'_append_eq_right

theorem extract_selector (desc : InterruptDescriptor) :
    desc.number.extractLsb' 16 16 = desc.segmentSelector := by
  rw [extract_low desc (by decide), BitVec.extractLsb'_append_eq_of_add_le (by decide)]
  exact BitVec.extractLsb'_append_eq_left

/-- The members and the fields of the attribute are where the processor looks for them. -/
theorem readGate_number (desc : InterruptDescriptor) : readGate desc.number =
    if attributeBits.get desc.attr.data .unnamed5 = 0 ∧ attributeBits.get desc.attr.data .unnamed1 = 0 then
      some {
        offset := desc.offsetHigh ++ desc.offsetMiddle ++ desc.offsetLow
        selector := desc.segmentSelector
        ist := (attributeBits.get desc.attr.data .interruptStackTable).toNat
        type := (attributeBits.get desc.attr.data .type).toNat
        dpl := (attributeBits.get desc.attr.data .descriptorPrivilegeLevel).toNat
        p := attributeBits.get desc.attr.data .present == 1 }
    else none := by
  obtain ⟨hhigh, hmiddle, hlow⟩ := desc.extract_offset
  have hist : desc.number.extractLsb' 32 3 = attributeBits.get desc.attr.data .interruptStackTable :=
    desc.extract_attr .interruptStackTable
  have hunnamed5 : desc.number.extractLsb' 35 5 = attributeBits.get desc.attr.data .unnamed5 :=
    desc.extract_attr .unnamed5
  have htype : desc.number.extractLsb' 40 4 = attributeBits.get desc.attr.data .type :=
    desc.extract_attr .type
  have hunnamed1 : desc.number.extractLsb' 44 1 = attributeBits.get desc.attr.data .unnamed1 :=
    desc.extract_attr .unnamed1
  have hdpl : desc.number.extractLsb' 45 2 = attributeBits.get desc.attr.data .descriptorPrivilegeLevel :=
    desc.extract_attr .descriptorPrivilegeLevel
  have hpresent : desc.number.extractLsb' 47 1 = attributeBits.get desc.attr.data .present :=
    desc.extract_attr .present
  unfold readGate
  rw [BitVec.getLsbD_eq_extractLsb', hhigh, hmiddle, hlow, desc.extract_selector, hist, hunnamed5, htype,
    hunnamed1, hdpl, hpresent]
  rfl

end InterruptDescriptor

/-! ### What the processor reads -/

/-- All arguments are cut off to the width of their fields. -/
theorem readGate_setIDTEntry (desc : InterruptDescriptor) (type : DescriptorType) (dpl : BitVec 8)
    (present : Bool) (ist : BitVec 8) (offset : BitVec 64) (selector : BitVec 16) :
    readGate (setIDTEntry desc (makeIDTAttr type dpl present ist) offset selector).number =
      some { offset, selector, ist := ist.toNat % 8, type := type.val.toNat % 16
             dpl := dpl.toNat % 4, p := present } := by
  have hmask : (0xffff : BitVec 64) = (BitVec.allOnes 16).setWidth 64 := rfl
  have hoffset : (offset >>> 32).setWidth 32 ++ (offset >>> 16 &&& 0xffff).setWidth 16 ++
      (offset &&& 0xffff).setWidth 16 = offset := by
    rw [BitVec.setWidth_ushiftRight_eq_extractLsb, setWidth_and_shift hmask, setWidth_and hmask]
    exact offset_split offset
  have hist := BitVec.toNat_setWidth 3 ist
  have htype := BitVec.toNat_setWidth 4 type.val
  have hdpl := BitVec.toNat_setWidth 2 dpl
  have hpresent : (BitVec.ofBool present == 1) = present := by
    cases present
    · rfl
    · rfl
  rw [InterruptDescriptor.readGate_number]
  simp only [setIDTEntry, get_makeIDTAttr]
  rw [if_pos ⟨trivial, trivial⟩]
  exact congrArg some (Gate.ext hoffset rfl hist htype hdpl hpresent)

/-- The processor reads the number in the bytes. -/
theorem ofNat_readNat_bytes (h : BytesAt m a desc.bytes) :
    BitVec.ofNat 128 (readNat m 16 a) = desc.number := by
  rw [InterruptDescriptor.bytes_eq] at h
  exact ofNat_readNat rfl h

/-! ### Descriptors and their layouts -/

/-- Values that fit their fields are read as they were written: a gate by way of its sixteen bytes in
memory, code and data segments by way of their words. -/
theorem descriptors_decode :
    (∀ (desc : InterruptDescriptor) (type : DescriptorType) (dpl : BitVec 8) (present : Bool)
      (ist : BitVec 8) (offset : BitVec 64) (selector : BitVec 16),
      type.val.toNat < 16 → dpl.toNat < 4 → ist.toNat < 8 → ∀ (m : Memory) (a : SizeT),
        BytesAt m a (setIDTEntry desc (makeIDTAttr type dpl present ist) offset selector).bytes →
        readGate (BitVec.ofNat 128 (readNat m 16 a)) =
          some { offset, selector, ist := ist.toNat, type := type.val.toNat, dpl := dpl.toNat
                 p := present }) ∧
    ∀ (desc : SegmentDescriptor) (type : DescriptorType) (dpl base limit : BitVec 32),
      type.val.toNat < 16 → dpl.toNat < 4 → limit.toNat < 2 ^ 20 →
        readSegment (setCodeSegment desc type dpl base limit).data =
          { base, limit := limit.toNat, type := type.val.toNat, s := true, dpl := dpl.toNat, p := true
            avl := false, l := true, d := false, g := true } ∧
        readSegment (setDataSegment desc type dpl base limit).data =
          { base, limit := limit.toNat, type := type.val.toNat, s := true, dpl := dpl.toNat, p := true
            avl := false, l := false, d := true, g := true } := by
  constructor
  · intro desc type dpl present ist offset selector htype hdpl hist m a hbytes
    rw [ofNat_readNat_bytes hbytes, readGate_setIDTEntry, Nat.mod_eq_of_lt htype, Nat.mod_eq_of_lt hdpl,
      Nat.mod_eq_of_lt hist]
  · intro desc type dpl base limit htype hdpl hlimit
    have hcode := readSegment_setCodeSegment desc type dpl base limit
    rw [Nat.mod_eq_of_lt htype, Nat.mod_eq_of_lt hdpl, Nat.mod_eq_of_lt hlimit] at hcode
    refine ⟨hcode, ?_⟩
    rw [readSegment_setDataSegment, hcode]

/-- A trap gate for users with a stack of its own, and segments with bits in all parts of base and limit. -/
theorem descriptors_decode_user :
    readGate (BitVec.ofNat 128 (readNat (writeBytes (fun _ => 0xff) 0x1000
        (setIDTEntry ⟨0, 0, ⟨0⟩, 0, 0, 0⟩ (makeIDTAttr ⟨15⟩ 3 true 1) 0xffff800012345678 8).bytes) 16
        0x1000)) = some ⟨0xffff800012345678, 8, 1, 15, 3, true⟩ ∧
      readSegment (setCodeSegment ⟨0xffffffffffffffff⟩ .kExecuteRead 3 0x12345678 0xabcde).data =
        ⟨0x12345678, 0xabcde, 10, true, 3, true, false, true, false, true⟩ ∧
      readSegment (setDataSegment ⟨0xffffffffffffffff⟩ .kReadWrite 3 0x12345678 0xabcde).data =
        ⟨0x12345678, 0xabcde, 2, true, 3, true, false, false, true, true⟩ := by
  refine ⟨?_, ?_, ?_⟩
  · exact descriptors_decode.1 _ _ _ _ _ _ _ (by decide) (by decide) (by decide) _ _
      (bytesAt_writeBytes _ _ (by decide))
  · exact (descriptors_decode.2 _ _ _ _ _ (by decide) (by decide) (by decide)).1
  · exact (descriptors_decode.2 _ _ _ _ _ (by decide) (by decide) (by decide)).2

/-! ### The table of interrupts -/

section
variable {intDefault intSegFault : BitVec 64} {cs : BitVec 16} {idt : Fin 256 → InterruptDescriptor}

/-- A gate of the kernel to `offset`. -/
def kernelGate (offset : BitVec 64) (cs : BitVec 16) : Gate := ⟨offset, cs, 0, 14, 0, true⟩

theorem readGate_kernelGate (desc : InterruptDescriptor) (offset : BitVec 64) (cs : BitVec 16) :
    readGate (setIDTEntry desc (makeIDTAttr .kInterruptGate 0) offset cs).number = some (kernelGate offset cs) :=
  readGate_setIDTEntry desc .kInterruptGate 0 true 0 offset cs

/-- After some turns of the loop their gates go to `IntDefault`, and the rest is as before. -/
theorem foldl_setDefault (intDefault : BitVec 64) (cs : BitVec 16) (is : List (Fin 0x14))
    (idt : Fin 256 → InterruptDescriptor) :
    (∀ v : Fin 256, (∃ i ∈ is, v = i.castLE (by decide)) →
      readGate ((is.foldl (setDefault intDefault cs) idt) v).number = some (kernelGate intDefault cs)) ∧
    ∀ v : Fin 256, (¬ ∃ i ∈ is, v = i.castLE (by decide)) →
      (is.foldl (setDefault intDefault cs) idt) v = idt v := by
  induction is using List.reverseRecOn with
  | nil => exact ⟨by simp, by simp⟩
  | append_singleton is i ih =>
    obtain ⟨hset, hkeep⟩ := ih
    simp only [List.foldl_append, List.foldl_cons, List.foldl_nil, setDefault]
    refine ⟨fun v hv => ?_, fun v hv => ?_⟩
    · rcases eq_or_ne v (i.castLE (by decide)) with rfl | hne
      · rw [Function.update_self, readGate_kernelGate]
      · rw [Function.update_of_ne hne]
        refine hset v ?_
        obtain ⟨j, hj, rfl⟩ := hv
        rcases List.mem_append.1 hj with hj | hj
        · exact ⟨j, hj, rfl⟩
        · exact absurd (by rw [List.mem_singleton.1 hj]) hne
    · rw [Function.update_of_ne fun h => hv ⟨i, by simp, h⟩]
      exact hkeep v fun ⟨j, hj, h⟩ => hv ⟨j, List.mem_append_left _ hj, h⟩

/-- The first twenty gates are set, the one of vector 12 for `IntSegFault`. -/
theorem readGate_initializeInterrupt (intDefault intSegFault : BitVec 64) (cs : BitVec 16)
    (idt : Fin 256 → InterruptDescriptor) (v : Fin 256) :
    readGate (initializeInterrupt intDefault intSegFault cs idt v).number =
      if v.val < 0x14 then some (kernelGate (if v = 0x0c then intSegFault else intDefault) cs)
      else readGate (idt v).number := by
  obtain ⟨hset, hkeep⟩ := foldl_setDefault intDefault cs (List.finRange 0x14) idt
  unfold initializeInterrupt
  rcases eq_or_ne v 0x0c with rfl | hne
  · simp only [Function.update_self]
    rw [readGate_kernelGate, if_pos (by decide), if_pos trivial]
  · rw [Function.update_of_ne hne, if_neg hne]
    by_cases hlt : v.val < 0x14
    · rw [if_pos hlt]
      exact hset v ⟨⟨v, hlt⟩, List.mem_finRange _, rfl⟩
    · rw [if_neg hlt, hkeep v]
      rintro ⟨i, -, rfl⟩
      exact hlt i.isLt

theorem gateAt_idt (h : ∀ v : Fin 256, BytesAt m (a + BitVec.ofNat 64 (16 * v)) (idt v).bytes)
    (vector : BitVec 8) : gateAt m (idtRegister a) vector = readGate (idt vector.toFin).number := by
  have hlimit : 16 * vector.toNat + 15 ≤ 16 * 256 - 1 := by
    have := vector.isLt
    omega
  rw [← ofNat_readNat_bytes (h vector.toFin)]
  exact if_pos hlimit

/-- With the table in memory and a code segment that has been loaded, the vectors below 20 go to the functions of the
kernel. -/
theorem handler_initializeInterrupt {gdtr : TableRegister 64}
    (hcode : segmentAt m gdtr kernelCs = some ⟨0, 0xfffff, 11, true, 0, true, false, true, false, true⟩)
    (hidt : ∀ v : Fin 256, BytesAt m (a + BitVec.ofNat 64 (16 * v))
      (initializeInterrupt intDefault intSegFault kernelCs idt v).bytes)
    {vector : BitVec 8} (hvector : vector.toNat < 0x14) :
    handler m gdtr (idtRegister a) vector =
      some (if vector = 0x0c then intSegFault else intDefault) := by
  have hgate : gateAt m (idtRegister a) vector =
      some (kernelGate (if vector.toFin = 0x0c then intSegFault else intDefault) kernelCs) := by
    rw [gateAt_idt hidt, readGate_initializeInterrupt]
    exact if_pos hvector
  have hsame : vector.toFin = 0x0c ↔ vector = 0x0c := by
    rw [← BitVec.toFin_inj]
    exact Iff.rfl
  unfold handler
  rw [hgate]
  simp only [Option.bind_eq_bind, Option.bind_some, kernelGate, hcode, hsame]
  exact if_pos (by decide)

end

end MosaOS
