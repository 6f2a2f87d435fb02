import MosaOS.Firmware
import MosaOS.Memory
import MosaOS.Lib.Run

/-!
# `LoadKernel` (`boot/MosaLoader.c`, `boot/elf.h`)

The headers are read from memory where the source reads them, at the time it reads them. The memory a
turn of the loop leaves depends on the memory before it only, so `memAt i` gives the memory after `i`
turns without the firmware; `loadKernel_cases` connects it to the loop.
-/

namespace MosaOS
open ByteMem

/-- The fields of `Elf64_Ehdr` that the loader uses. -/
structure Elf64Ehdr where
  eEntry : SizeT
  ePhoff : SizeT
  ePhentsize : BitVec 16
  ePhnum : BitVec 16
deriving DecidableEq, Repr

/-- The fields of `Elf64_Phdr` that the loader uses. -/
structure Elf64Phdr where
  pType : BitVec 32
  pOffset : SizeT
  pVaddr : SizeT
  pFilesz : SizeT
  pMemsz : SizeT
deriving DecidableEq, Repr

def readEhdr (m : Memory) (eh : SizeT) : Elf64Ehdr where
  eEntry := readU64 m (eh + 24)
  ePhoff := readU64 m (eh + 32)
  ePhentsize := readU16 m (eh + 54)
  ePhnum := readU16 m (eh + 56)

def readPhdr (m : Memory) (pht : SizeT) : Elf64Phdr where
  pType := readU32 m pht
  pOffset := readU64 m (pht + 8)
  pVaddr := readU64 m (pht + 16)
  pFilesz := readU64 m (pht + 32)
  pMemsz := readU64 m (pht + 40)

def PT_LOAD : BitVec 32 := 1

variable {σ : Type}

structure LoadState (σ : Type) where
  firmware : σ
  mem : Memory
  pht : SizeT

/-- What `CopyMem` of one segment makes of the memory. -/
def copySegment (startAddr : SizeT) (m : Memory) (ph : Elf64Phdr) : Memory :=
  copyMem m ph.pVaddr (startAddr + ph.pOffset) ph.pFilesz.toNat

/-- The body of the loop. The value of `Allocate` is not used. -/
def loadSegment (fw : Firmware σ) (startAddr phSize : SizeT) (st : LoadState σ) :
    Option (LoadState σ) :=
  let ph := readPhdr st.mem st.pht
  if ph.pType = PT_LOAD then
    (allocate fw st.firmware ph.pVaddr ph.pMemsz).map fun (_, s) =>
      ⟨s, copySegment startAddr st.mem ph, st.pht + phSize⟩
  else some { st with pht := st.pht + phSize }

/-- `none` when a call of `Allocate` halts. `ph_num` is a `uint8_t`. -/
def loadKernel (fw : Firmware σ) (s : σ) (m : Memory) (startAddr : SizeT) :
    Option (SizeT × LoadState σ) := do
  let eh := readEhdr m startAddr
  let phNum : BitVec 8 := eh.ePhnum.setWidth 8
  let phSize : SizeT := eh.ePhentsize.setWidth 64
  let st ← (List.range phNum.toNat).foldlM (fun st _ => loadSegment fw startAddr phSize st)
    ⟨s, m, startAddr + eh.ePhoff⟩
  some ((readEhdr st.mem startAddr).eEntry, st)

/-! ### The headers of an image -/

section
variable (m : Memory) (startAddr : SizeT)

def phdrAddr (i : ℕ) : SizeT :=
  startAddr + (readEhdr m startAddr).ePhoff +
    BitVec.ofNat 64 (i * (readEhdr m startAddr).ePhentsize.toNat)

def phnum : ℕ := (readEhdr m startAddr).ePhnum.toNat

def phdr (i : ℕ) : Elf64Phdr := readPhdr m (phdrAddr m startAddr i)

/-- The memory after `i` turns of the loop. -/
def memAt : ℕ → Memory
  | 0 => m
  | i + 1 =>
    let ph := readPhdr (memAt i) (phdrAddr m startAddr i)
    if ph.pType = PT_LOAD then copySegment startAddr (memAt i) ph else memAt i

/-- The `i`-th header as the loop reads it: an earlier segment may have been copied over it. -/
def seenPhdr (i : ℕ) : Elf64Phdr := readPhdr (memAt m startAddr i) (phdrAddr m startAddr i)

end

variable {m : Memory} {startAddr : SizeT}

theorem seenPhdr_zero : seenPhdr m startAddr 0 = phdr m startAddr 0 := rfl

theorem memAt_succ (i : ℕ) : memAt m startAddr (i + 1) =
    if (seenPhdr m startAddr i).pType = PT_LOAD then
      copySegment startAddr (memAt m startAddr i) (seenPhdr m startAddr i)
    else memAt m startAddr i := rfl

theorem phdrAddr_zero : phdrAddr m startAddr 0 = startAddr + (readEhdr m startAddr).ePhoff := by
  simp [phdrAddr]

theorem phdrAddr_succ (i : ℕ) : phdrAddr m startAddr (i + 1) =
    phdrAddr m startAddr i + (readEhdr m startAddr).ePhentsize.setWidth 64 := by
  rw [phdrAddr, phdrAddr, Nat.succ_mul, BitVec.ofNat_add, BitVec.add_assoc, BitVec.add_assoc,
    BitVec.add_assoc, BitVec.ofNat_toNat]

/-- One turn of the loop, from the memory and the header address that the turns before it leave. -/
theorem loadSegment_eq (fw : Firmware σ) (s : σ) (m : Memory) (startAddr : SizeT) (i : ℕ) :
    loadSegment fw startAddr ((readEhdr m startAddr).ePhentsize.setWidth 64)
        ⟨s, memAt m startAddr i, phdrAddr m startAddr i⟩ =
      if (seenPhdr m startAddr i).pType = PT_LOAD then
        (allocate fw s (seenPhdr m startAddr i).pVaddr (seenPhdr m startAddr i).pMemsz).map
          fun (_, s) => ⟨s, memAt m startAddr (i + 1), phdrAddr m startAddr (i + 1)⟩
      else some ⟨s, memAt m startAddr (i + 1), phdrAddr m startAddr (i + 1)⟩ := by
  rw [memAt_succ, phdrAddr_succ]
  unfold loadSegment
  show (if (seenPhdr m startAddr i).pType = PT_LOAD then _ else _) = _
  split
  · rfl
  · rfl

/-- The loop when it returns: its memory is `memAt`, and what every call of `Allocate` and every
skipped header preserves holds of the firmware. -/
theorem loadKernel_cases {fw : Firmware σ} {s : σ} {ret : SizeT} {st : LoadState σ} {P : ℕ → σ → Prop}
    (h : loadKernel fw s m startAddr = some (ret, st)) (h0 : P 0 s)
    (hskip : ∀ i s, (seenPhdr m startAddr i).pType ≠ PT_LOAD → P i s → P (i + 1) s)
    (hload : ∀ i s s' r, (seenPhdr m startAddr i).pType = PT_LOAD →
      allocate fw s (seenPhdr m startAddr i).pVaddr (seenPhdr m startAddr i).pMemsz = some (r, s') →
      P i s → P (i + 1) s') :
    st.mem = memAt m startAddr (phnum m startAddr % 256) ∧
      ret = (readEhdr st.mem startAddr).eEntry ∧ P (phnum m startAddr % 256) st.firmware := by
  have hloop : ∀ n st, (List.range n).foldlM
      (fun st _ => loadSegment fw startAddr ((readEhdr m startAddr).ePhentsize.setWidth 64) st)
        ⟨s, m, startAddr + (readEhdr m startAddr).ePhoff⟩ = some st →
      st.mem = memAt m startAddr n ∧ st.pht = phdrAddr m startAddr n ∧ P n st.firmware := by
    intro n
    induction n with
    | zero =>
      intro st hst
      cases hst
      exact ⟨rfl, phdrAddr_zero.symm, h0⟩
    | succ n ih =>
      intro st hst
      rw [List.range_succ, Run.append_eq_some] at hst
      obtain ⟨⟨s', mem, pht⟩, ht, hstep⟩ := hst
      obtain ⟨rfl, rfl, hP⟩ := ih _ ht
      obtain ⟨st', hst', hnil⟩ := Run.cons_eq_some.1 hstep
      cases hnil
      rw [loadSegment_eq] at hst'
      split at hst'
      · rename_i hl
        obtain ⟨⟨r, s'⟩, ha, rfl⟩ := Option.map_eq_some_iff.1 hst'
        exact ⟨rfl, rfl, hload n _ _ r hl ha hP⟩
      · rename_i hl
        cases hst'
        exact ⟨rfl, rfl, hskip n _ hl hP⟩
  obtain ⟨st', hst, hret⟩ := Option.bind_eq_some_iff.1 h
  rw [Option.some.injEq, Prod.mk.injEq] at hret
  obtain ⟨rfl, rfl⟩ := hret
  obtain ⟨hmem, -, hP⟩ := hloop _ _ hst
  rw [BitVec.toNat_setWidth] at hmem hP
  exact ⟨hmem, rfl, hP⟩

/-- Where no call of `Allocate` halts, `LoadKernel` returns. -/
theorem loadKernel_returns {fw : Firmware σ} (s : σ)
    (h : ∀ i < phnum m startAddr % 256, (seenPhdr m startAddr i).pType = PT_LOAD → ∀ s,
      ∃ r, allocate fw s (seenPhdr m startAddr i).pVaddr (seenPhdr m startAddr i).pMemsz = some r) :
    ∃ ret st, loadKernel fw s m startAddr = some (ret, st) := by
  have hloop : ∀ n ≤ phnum m startAddr % 256, ∃ s', (List.range n).foldlM
      (fun st _ => loadSegment fw startAddr ((readEhdr m startAddr).ePhentsize.setWidth 64) st)
        ⟨s, m, startAddr + (readEhdr m startAddr).ePhoff⟩ =
      some ⟨s', memAt m startAddr n, phdrAddr m startAddr n⟩ := by
    intro n
    induction n with
    | zero =>
      intro _
      exact ⟨s, by rw [phdrAddr_zero]; rfl⟩
    | succ n ih =>
      intro hn
      obtain ⟨s', hs'⟩ := ih (by omega)
      have hstep := loadSegment_eq fw s' m startAddr n
      by_cases hload : (seenPhdr m startAddr n).pType = PT_LOAD
      · obtain ⟨⟨r, s''⟩, hr⟩ := h n (by omega) hload s'
        rw [if_pos hload, hr] at hstep
        rw [List.range_succ]
        exact ⟨s'', Run.append_eq_some.2 ⟨_, hs', Run.cons_eq_some.2 ⟨_, hstep, rfl⟩⟩⟩
      · rw [if_neg hload] at hstep
        rw [List.range_succ]
        exact ⟨s', Run.append_eq_some.2 ⟨_, hs', Run.cons_eq_some.2 ⟨_, hstep, rfl⟩⟩⟩
  have hcount : phnum m startAddr % 256 = ((readEhdr m startAddr).ePhnum.setWidth 8).toNat :=
    (BitVec.toNat_setWidth 8 (readEhdr m startAddr).ePhnum).symm
  obtain ⟨s', hs'⟩ := hloop _ hcount.ge
  exact ⟨_, _, Option.bind_eq_some_iff.2 ⟨_, hs', rfl⟩⟩

end MosaOS
