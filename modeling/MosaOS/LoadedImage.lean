import MosaOS.LoadKernel

/-!
# The bytes that `LoadKernel` leaves in memory

For an image whose headers lie in its buffer and whose segments lie apart from each other and from the
buffer, the loop reads the headers the image has (`seenPhdr_eq`), changes no byte outside the file part
of the segments it looks at (`memAt_frame`) and puts these in place (`memAt_placed`). It looks at the
first `e_phnum % 256` headers only, and writes nothing to the rest of a segment.
-/

namespace MosaOS
open ByteMem

variable {m m' : Memory} {a startAddr : SizeT} {len : ℕ}

theorem readPhdr_congr (h : Set.EqOn m' m (range a 56)) : readPhdr m' a = readPhdr m a := by
  have hfield : ∀ k n, k + n ≤ 56 →
      readNat m' n (a + BitVec.ofNat 64 k) = readNat m n (a + BitVec.ofNat 64 k) := fun k n hk =>
    readNat_congr (by omega) (h.mono (range_add_subset hk (by omega)))
  have h0 : readNat m' 4 a = readNat m 4 a :=
    readNat_congr (by decide) (h.mono (range_mono (by decide)))
  have hoffset : readNat m' 8 (a + 8) = readNat m 8 (a + 8) := hfield 8 8 (by decide)
  have hvaddr : readNat m' 8 (a + 16) = readNat m 8 (a + 16) := hfield 16 8 (by decide)
  have hfilesz : readNat m' 8 (a + 32) = readNat m 8 (a + 32) := hfield 32 8 (by decide)
  have hmemsz : readNat m' 8 (a + 40) = readNat m 8 (a + 40) := hfield 40 8 (by decide)
  unfold readPhdr readU32 readU64
  rw [h0, hoffset, hvaddr, hfilesz, hmemsz]

theorem readEhdr_congr (h : Set.EqOn m' m (range a 64)) : readEhdr m' a = readEhdr m a := by
  have hfield : ∀ k n, k + n ≤ 64 →
      readNat m' n (a + BitVec.ofNat 64 k) = readNat m n (a + BitVec.ofNat 64 k) := fun k n hk =>
    readNat_congr (by omega) (h.mono (range_add_subset hk (by omega)))
  have hentry : readNat m' 8 (a + 24) = readNat m 8 (a + 24) := hfield 24 8 (by decide)
  have hphoff : readNat m' 8 (a + 32) = readNat m 8 (a + 32) := hfield 32 8 (by decide)
  have hphentsize : readNat m' 2 (a + 54) = readNat m 2 (a + 54) := hfield 54 2 (by decide)
  have hphnum : readNat m' 2 (a + 56) = readNat m 2 (a + 56) := hfield 56 2 (by decide)
  unfold readEhdr readU16 readU64
  rw [hentry, hphoff, hphentsize, hphnum]

/-- The `i`-th program header of the image is one of a segment to load. -/
def IsLoad (m : Memory) (startAddr : SizeT) (i : ℕ) : Prop :=
  i < phnum m startAddr ∧ (phdr m startAddr i).pType = PT_LOAD

/-- Where the `i`-th segment goes: its first `size` bytes. -/
def dest (m : Memory) (startAddr : SizeT) (size : Elf64Phdr → SizeT) (i : ℕ) : Set SizeT :=
  range (phdr m startAddr i).pVaddr (size (phdr m startAddr i)).toNat

/-- The headers of the image lie in its buffer of `len` bytes at `startAddr`. -/
structure Headers (m : Memory) (startAddr : SizeT) (len : ℕ) : Prop where
  ehdr : range startAddr 64 ⊆ range startAddr len
  phdr : ∀ i < phnum m startAddr, range (phdrAddr m startAddr i) 56 ⊆ range startAddr len

/-- The destinations of the segments lie apart from the buffer and from each other. -/
structure Apart (m : Memory) (startAddr : SizeT) (len : ℕ) (size : Elf64Phdr → SizeT) : Prop where
  image : ∀ i, IsLoad m startAddr i → Disjoint (dest m startAddr size i) (range startAddr len)
  pairwise : ∀ i j, IsLoad m startAddr i → IsLoad m startAddr j → i ≠ j →
    Disjoint (dest m startAddr size i) (dest m startAddr size j)

/-- The bytes that no segment among the first `n` is copied to. -/
def untouched (m : Memory) (startAddr : SizeT) (n : ℕ) : Set SizeT :=
  {a | ∀ i < n, IsLoad m startAddr i → a ∉ dest m startAddr Elf64Phdr.pFilesz i}

theorem Apart.image_subset (hap : Apart m startAddr len Elf64Phdr.pFilesz) (n : ℕ) :
    range startAddr len ⊆ untouched m startAddr n := fun _ ha i _ hi hd =>
  Set.disjoint_left.1 (hap.image i hi) hd ha

theorem Apart.file (hap : Apart m startAddr len Elf64Phdr.pMemsz)
    (hsize : ∀ i, IsLoad m startAddr i →
      (phdr m startAddr i).pFilesz.toNat ≤ (phdr m startAddr i).pMemsz.toNat) :
    Apart m startAddr len Elf64Phdr.pFilesz where
  image i hi := (hap.image i hi).mono_left (range_mono (hsize i hi))
  pairwise i j hi hj hij :=
    (hap.pairwise i j hi hj hij).mono (range_mono (hsize i hi)) (range_mono (hsize j hj))

theorem memAt_frame (hh : Headers m startAddr len) (hap : Apart m startAddr len Elf64Phdr.pFilesz)
    {n : ℕ} (hn : n ≤ phnum m startAddr) : Set.EqOn (memAt m startAddr n) m (untouched m startAddr n) := by
  induction n with
  | zero => exact fun a _ => rfl
  | succ n ih =>
    have hframe := ih (by omega)
    have hseen : seenPhdr m startAddr n = phdr m startAddr n :=
      readPhdr_congr (hframe.mono ((hh.phdr n (by omega)).trans (hap.image_subset n)))
    intro a ha
    have ha' : a ∈ untouched m startAddr n := fun i hi => ha i (by omega)
    rw [memAt_succ, hseen]
    split
    · rename_i hload
      rw [copySegment, copyMem_of_notMem (ha n (by omega) ⟨by omega, hload⟩), hframe ha']
    · exact hframe ha'

theorem seenPhdr_eq (hh : Headers m startAddr len) (hap : Apart m startAddr len Elf64Phdr.pFilesz)
    {n : ℕ} (hn : n < phnum m startAddr) : seenPhdr m startAddr n = phdr m startAddr n :=
  readPhdr_congr ((memAt_frame hh hap hn.le).mono ((hh.phdr n hn).trans (hap.image_subset n)))

/-- The file part of every segment among the first `n` is in place after `n` turns: later copies go
elsewhere, and none goes to the buffer the bytes come from. -/
theorem memAt_placed (hh : Headers m startAddr len) (hap : Apart m startAddr len Elf64Phdr.pFilesz)
    (hdata : ∀ i, IsLoad m startAddr i →
      range (startAddr + (phdr m startAddr i).pOffset) (phdr m startAddr i).pFilesz.toNat ⊆
        range startAddr len)
    {n : ℕ} (hn : n ≤ phnum m startAddr) {i k : ℕ} (hi : i < n) (hload : IsLoad m startAddr i)
    (hk : k < (phdr m startAddr i).pFilesz.toNat) :
    memAt m startAddr n ((phdr m startAddr i).pVaddr + BitVec.ofNat 64 k) =
      m (startAddr + (phdr m startAddr i).pOffset + BitVec.ofNat 64 k) := by
  have hk64 : k < 2 ^ 64 := hk.trans (phdr m startAddr i).pFilesz.isLt
  induction n with
  | zero => cases hi
  | succ n ih =>
    rw [memAt_succ, seenPhdr_eq hh hap (by omega)]
    rcases Nat.lt_succ_iff_lt_or_eq.1 hi with hlt | rfl
    · split
      · rename_i hl
        have hmem : (phdr m startAddr i).pVaddr + BitVec.ofNat 64 k ∈
            dest m startAddr Elf64Phdr.pFilesz i := (add_mem_range hk64).2 hk
        have hnot := Set.disjoint_left.1 (hap.pairwise i n hload ⟨by omega, hl⟩ (by omega)) hmem
        rw [copySegment, copyMem_of_notMem hnot]
        exact ih (by omega) hlt
      · exact ih (by omega) hlt
    · rw [if_pos hload.2, copySegment, copyMem_add hk hk64]
      have hsrc := hdata i hload ((add_mem_range hk64).2 hk)
      exact memAt_frame hh hap (by omega) (hap.image_subset i hsrc)

/-! ### `LoadKernel` -/

variable {σ : Type} {fw : Firmware σ} {s : σ} {ret : SizeT} {st : LoadState σ}

theorem loadKernel_mem (h : loadKernel fw s m startAddr = some (ret, st)) :
    st.mem = memAt m startAddr (phnum m startAddr % 256) ∧
      ret = (readEhdr st.mem startAddr).eEntry := by
  obtain ⟨hmem, hret, -⟩ := loadKernel_cases (P := fun _ _ => True) h trivial
    (fun _ _ _ _ => trivial) (fun _ _ _ _ _ _ _ => trivial)
  exact ⟨hmem, hret⟩

/-- `LoadKernel` puts the file part of every segment in place, changes nothing else and returns
`e_entry` exactly when the segments of the headers it does not look at, those from `e_phnum % 256` on,
are in place already: `ph_num` is a `uint8_t`. -/
theorem loadKernel_placed_iff {σ : Type} (fw : Firmware σ) (s : σ) (m : Memory) (startAddr : SizeT)
    (len : ℕ) (hh : Headers m startAddr len)
    (hdata : ∀ i, IsLoad m startAddr i →
      range (startAddr + (phdr m startAddr i).pOffset) (phdr m startAddr i).pFilesz.toNat ⊆
        range startAddr len)
    (hap : Apart m startAddr len Elf64Phdr.pFilesz) (ret : SizeT) (st : LoadState σ)
    (h : loadKernel fw s m startAddr = some (ret, st)) :
    ((∀ i, IsLoad m startAddr i → ∀ k < (phdr m startAddr i).pFilesz.toNat,
        st.mem ((phdr m startAddr i).pVaddr + BitVec.ofNat 64 k) =
          m (startAddr + (phdr m startAddr i).pOffset + BitVec.ofNat 64 k)) ∧
      (∀ a, (∀ i, IsLoad m startAddr i → a ∉ dest m startAddr Elf64Phdr.pFilesz i) →
        st.mem a = m a) ∧
      ret = (readEhdr m startAddr).eEntry) ↔
    ∀ i, phnum m startAddr % 256 ≤ i → IsLoad m startAddr i →
      ∀ k < (phdr m startAddr i).pFilesz.toNat,
        m ((phdr m startAddr i).pVaddr + BitVec.ofNat 64 k) =
          m (startAddr + (phdr m startAddr i).pOffset + BitVec.ofNat 64 k) := by
  obtain ⟨hmem, hret⟩ := loadKernel_mem h
  have hle : phnum m startAddr % 256 ≤ phnum m startAddr := Nat.mod_le _ _
  have hframe := memAt_frame hh hap hle
  -- the bytes of a segment that is not looked at
  have hrest : ∀ i, phnum m startAddr % 256 ≤ i → IsLoad m startAddr i →
      ∀ k < (phdr m startAddr i).pFilesz.toNat,
        st.mem ((phdr m startAddr i).pVaddr + BitVec.ofNat 64 k) =
          m ((phdr m startAddr i).pVaddr + BitVec.ofNat 64 k) := by
    intro i hi hload k hk
    have hk64 : k < 2 ^ 64 := hk.trans (phdr m startAddr i).pFilesz.isLt
    rw [hmem]
    refine hframe fun j hj hjl => Set.disjoint_left.1 (hap.pairwise i j hload hjl (by omega)) ?_
    exact (add_mem_range hk64).2 hk
  constructor
  · rintro ⟨hplaced, -, -⟩ i hi hload k hk
    rw [← hrest i hi hload k hk, hplaced i hload k hk]
  · intro hcond
    refine ⟨fun i hload k hk => ?_, fun a ha => ?_, ?_⟩
    · rcases Nat.lt_or_ge i (phnum m startAddr % 256) with hi | hi
      · rw [hmem]
        exact memAt_placed hh hap hdata hle hi hload hk
      · rw [hrest i hi hload k hk]
        exact hcond i hi hload k hk
    · rw [hmem]
      exact hframe fun i _ hload => ha i hload
    · rw [hret, hmem, readEhdr_congr (hframe.mono (hh.ehdr.trans (hap.image_subset _)))]

/-- `LoadKernel` leaves the uninitialised part of every segment as it found it, so these bytes are zero
afterwards exactly when they were zero before. -/
theorem loadKernel_zeroed_iff {σ : Type} (fw : Firmware σ) (s : σ) (m : Memory) (startAddr : SizeT)
    (len : ℕ) (hh : Headers m startAddr len) (hphnum : phnum m startAddr < 256)
    (hsize : ∀ i, IsLoad m startAddr i →
      (phdr m startAddr i).pFilesz.toNat ≤ (phdr m startAddr i).pMemsz.toNat)
    (hap : Apart m startAddr len Elf64Phdr.pMemsz) (ret : SizeT) (st : LoadState σ)
    (h : loadKernel fw s m startAddr = some (ret, st)) :
    (∀ i, IsLoad m startAddr i → ∀ k, (phdr m startAddr i).pFilesz.toNat ≤ k →
        k < (phdr m startAddr i).pMemsz.toNat →
        st.mem ((phdr m startAddr i).pVaddr + BitVec.ofNat 64 k) = 0) ↔
    ∀ i, IsLoad m startAddr i → ∀ k, (phdr m startAddr i).pFilesz.toNat ≤ k →
      k < (phdr m startAddr i).pMemsz.toNat →
      m ((phdr m startAddr i).pVaddr + BitVec.ofNat 64 k) = 0 := by
  obtain ⟨hmem, -⟩ := loadKernel_mem h
  rw [Nat.mod_eq_of_lt hphnum] at hmem
  have hframe := memAt_frame hh (hap.file hsize) (le_refl (phnum m startAddr))
  refine forall₂_congr fun i hload => forall₃_congr fun k hlo hhi => ?_
  have hk64 : k < 2 ^ 64 := hhi.trans (phdr m startAddr i).pMemsz.isLt
  have hin : (phdr m startAddr i).pVaddr + BitVec.ofNat 64 k ∈ dest m startAddr Elf64Phdr.pMemsz i :=
    (add_mem_range hk64).2 hhi
  have hout : (phdr m startAddr i).pVaddr + BitVec.ofNat 64 k ∈
      untouched m startAddr (phnum m startAddr) := by
    intro j _ hj hd
    rcases eq_or_ne i j with rfl | hne
    · exact absurd ((add_mem_range hk64).1 hd) (Nat.not_lt.2 hlo)
    · exact Set.disjoint_left.1 (hap.pairwise i j hload hj hne) hin (range_mono (hsize j hj) hd)
  rw [hmem, hframe hout]

/-! ### A file with one segment -/

/-- An ELF header and one program header, of a segment whose bytes begin the file. -/
def oneSegmentFile (phnum vaddr filesz memsz : ℕ) : List (BitVec 8) :=
  leBytes 16 0x464c457f ++ leBytes 8 0 ++ leBytes 8 vaddr ++ leBytes 8 64 ++ leBytes 12 0 ++
    leBytes 2 64 ++ leBytes 2 56 ++ leBytes 2 phnum ++ leBytes 6 0 ++
    leBytes 4 1 ++ leBytes 4 0 ++ leBytes 8 0 ++ leBytes 8 vaddr ++ leBytes 8 vaddr ++
    leBytes 8 filesz ++ leBytes 8 memsz ++ leBytes 8 0x1000

/-- The file at 2 MiB; all other bytes hold `fill`. -/
def oneSegmentMemory (phnum vaddr filesz memsz : ℕ) (fill : BitVec 8) : Memory := fun a =>
  (oneSegmentFile phnum vaddr filesz memsz).getD (a - 0x200000).toNat fill

/-- The firmware that grants everything. -/
def grantAll : Firmware Unit := ⟨fun _ _ _ => (0, ())⟩

theorem allocate_grantAll (s : Unit) (addr size : SizeT) :
    ∃ r, allocate grantAll s addr size = some r :=
  ⟨_, allocate_of_ok (show efiError 0 = false by decide)⟩

/-- A file at 2 MiB with `count` program headers, of which the first is of a segment to load. -/
structure OneSegment (m : Memory) (count : ℕ) : Prop where
  phoff : (readEhdr m 0x200000).ePhoff = 64
  phentsize : (readEhdr m 0x200000).ePhentsize = 56
  phnum : phnum m 0x200000 = count
  pType : ∀ i < count, (phdr m 0x200000 i).pType = PT_LOAD → i = 0

namespace OneSegment
variable {count i : ℕ}

theorem isLoad (h : OneSegment m count) (hi : IsLoad m 0x200000 i) : i = 0 :=
  h.pType i (h.phnum ▸ hi.1) hi.2

theorem headers (h : OneSegment m count) : Headers m 0x200000 (64 + count * 56) where
  ehdr := range_mono (by omega)
  phdr i hi := by
    have hcount := h.phnum
    have hlt : MosaOS.phnum m 0x200000 < 2 ^ 16 := (readEhdr m 0x200000).ePhnum.isLt
    have haddr : phdrAddr m 0x200000 i = 0x200000 + BitVec.ofNat 64 (64 + i * 56) := by
      rw [phdrAddr, h.phoff, h.phentsize, BitVec.add_assoc, BitVec.ofNat_add]
      rfl
    rw [haddr]
    exact range_add_subset (by omega) (by omega)

theorem apart (h : OneSegment m count) {size : Elf64Phdr → SizeT}
    (hv : (phdr m 0x200000 0).pVaddr = 0x100000) (hs : (size (phdr m 0x200000 0)).toNat ≤ 0x100000) :
    Apart m 0x200000 (64 + count * 56) size where
  image i hi := by
    obtain rfl := h.isLoad hi
    have hcount : count < 2 ^ 16 := h.phnum ▸ (readEhdr m 0x200000).ePhnum.isLt
    refine Set.disjoint_left.2 fun a ha ha' => ?_
    rw [dest, hv] at ha
    have h1 : (a - 0x100000).toNat < 0x100000 := lt_of_lt_of_le ha hs
    have h2 : (a - 0x200000).toNat < 64 + count * 56 := ha'
    bv_omega
  pairwise i j hi hj hij := absurd ((h.isLoad hi).trans (h.isLoad hj).symm) hij

end OneSegment

theorem oneSegmentMemory_fill {phnum vaddr filesz memsz k : ℕ} {fill : BitVec 8} (h : 120 ≤ k)
    (hk : k < 2 ^ 64) :
    oneSegmentMemory phnum vaddr filesz memsz fill (0x200000 + BitVec.ofNat 64 k) = fill := by
  have hlen : (oneSegmentFile phnum vaddr filesz memsz).length ≤ k := by
    unfold oneSegmentFile
    simp only [List.length_append, length_leBytes]
    exact h
  rw [oneSegmentMemory, add_sub_self, toNat_ofNat_of_lt hk,
    List.getD_eq_getElem?_getD, List.getElem?_eq_none hlen]
  rfl

theorem readU32_const (c : BitVec 8) (a : SizeT) : readU32 (fun _ => c) a ≠ PT_LOAD := by
  intro h
  have hnat := congrArg BitVec.toNat h
  simp only [readU32, readNat, BitVec.toNat_ofNat, show PT_LOAD.toNat = 1 from rfl] at hnat
  omega

theorem oneSegment (count vaddr filesz memsz : ℕ) (fill : BitVec 8) (hcount : count < 2 ^ 16)
    (h : readEhdr (oneSegmentMemory count vaddr filesz memsz fill) 0x200000 =
      ⟨BitVec.ofNat 64 vaddr, 64, 56, BitVec.ofNat 16 count⟩) :
    OneSegment (oneSegmentMemory count vaddr filesz memsz fill) count where
  phoff := by rw [h]
  phentsize := by rw [h]
  phnum := by rw [phnum, h, toNat_ofNat_of_lt hcount]
  pType i hi hload := by
    by_contra hne
    have haddr : phdrAddr (oneSegmentMemory count vaddr filesz memsz fill) 0x200000 i =
        0x200000 + BitVec.ofNat 64 (64 + i * 56) := by
      rw [phdrAddr, h, BitVec.add_assoc, BitVec.ofNat_add]
      rfl
    -- behind the first program header there is nothing but `fill`
    have hconst : Set.EqOn (oneSegmentMemory count vaddr filesz memsz fill) (fun _ => fill)
        (range (phdrAddr (oneSegmentMemory count vaddr filesz memsz fill) 0x200000 i) 4) := by
      intro a ha
      obtain ⟨k, hk, -, rfl⟩ := exists_of_mem_range ha
      rw [haddr, BitVec.add_assoc, ← BitVec.ofNat_add]
      exact oneSegmentMemory_fill (by omega) (by omega)
    refine readU32_const fill (phdrAddr (oneSegmentMemory count vaddr filesz memsz fill) 0x200000 i) ?_
    rw [readU32, ← readNat_congr (by decide) hconst]
    exact hload

theorem loadKernel_grantAll (m : Memory) :
    ∃ ret st, loadKernel grantAll () m 0x200000 = some (ret, st) :=
  loadKernel_returns () fun _ _ _ _ => allocate_grantAll _ _ _

theorem loadKernel_zeroed_iff_oneSegment :
    ∃ ret st, loadKernel grantAll () (oneSegmentMemory 1 0x100000 1 2 0) 0x200000 = some (ret, st) ∧
      ∀ i, IsLoad (oneSegmentMemory 1 0x100000 1 2 0) 0x200000 i → ∀ k, 1 ≤ k → k < 2 →
        st.mem (0x100000 + BitVec.ofNat 64 k) = 0 := by
  obtain ⟨ret, st, h⟩ := loadKernel_grantAll (oneSegmentMemory 1 0x100000 1 2 0)
  have hone := oneSegment 1 0x100000 1 2 0 (by decide) (by decide)
  have hph : phdr (oneSegmentMemory 1 0x100000 1 2 0) 0x200000 0 = ⟨1, 0, 0x100000, 1, 2⟩ := by decide
  have hzero := (loadKernel_zeroed_iff grantAll () _ 0x200000 _ hone.headers (by decide)
    (fun i hi => by rw [hone.isLoad hi, hph]; decide)
    (hone.apart (by rw [hph]) (by rw [hph]; decide)) ret st h).2 fun i hi k hlo hhi => ?_
  · refine ⟨ret, st, h, fun i hi k hlo hhi => ?_⟩
    have := hzero i hi k
    rw [hone.isLoad hi, hph] at this
    exact this hlo hhi
  · rw [hone.isLoad hi, hph] at hlo hhi ⊢
    obtain rfl : k = 1 := le_antisymm (Nat.lt_succ_iff.1 hhi) hlo
    decide

/-- A segment of one byte in the file and two in memory, where memory held `0xff` before: the second
byte still does after `LoadKernel`. -/
theorem loadKernel_keeps_stale :
    Headers (oneSegmentMemory 1 0x100000 1 2 0xff) 0x200000 120 ∧
      phnum (oneSegmentMemory 1 0x100000 1 2 0xff) 0x200000 < 256 ∧
      Apart (oneSegmentMemory 1 0x100000 1 2 0xff) 0x200000 120 Elf64Phdr.pMemsz ∧
      IsLoad (oneSegmentMemory 1 0x100000 1 2 0xff) 0x200000 0 ∧
      phdr (oneSegmentMemory 1 0x100000 1 2 0xff) 0x200000 0 = ⟨1, 0, 0x100000, 1, 2⟩ ∧
      ∃ ret st, loadKernel grantAll () (oneSegmentMemory 1 0x100000 1 2 0xff) 0x200000 =
        some (ret, st) ∧ st.mem (0x100000 + BitVec.ofNat 64 1) ≠ 0 := by
  obtain ⟨ret, st, h⟩ := loadKernel_grantAll (oneSegmentMemory 1 0x100000 1 2 0xff)
  have hone := oneSegment 1 0x100000 1 2 0xff (by decide) (by decide)
  have hph : phdr (oneSegmentMemory 1 0x100000 1 2 0xff) 0x200000 0 = ⟨1, 0, 0x100000, 1, 2⟩ := by
    decide
  refine ⟨hone.headers, by decide, hone.apart (by rw [hph]) (by rw [hph]; decide),
    ⟨by decide, by rw [hph]; rfl⟩, hph, ret, st, h, ?_⟩
  rw [(loadKernel_mem h).1]
  decide

theorem loadKernel_placed_iff_oneSegment :
    ∃ ret st, loadKernel grantAll () (oneSegmentMemory 1 0x100000 1 2 0xff) 0x200000 = some (ret, st) ∧
      st.mem 0x100000 = 0x7f ∧ ret = 0x100000 := by
  obtain ⟨ret, st, h⟩ := loadKernel_grantAll (oneSegmentMemory 1 0x100000 1 2 0xff)
  have heh : readEhdr (oneSegmentMemory 1 0x100000 1 2 0xff) 0x200000 = ⟨0x100000, 64, 56, 1⟩ := by
    decide
  have hph : phdr (oneSegmentMemory 1 0x100000 1 2 0xff) 0x200000 0 = ⟨1, 0, 0x100000, 1, 2⟩ := by
    decide
  have hone := oneSegment 1 0x100000 1 2 0xff (by decide) heh
  have hload : IsLoad (oneSegmentMemory 1 0x100000 1 2 0xff) 0x200000 0 := ⟨by decide, by rw [hph]; rfl⟩
  obtain ⟨hplaced, -, hret⟩ := (loadKernel_placed_iff grantAll () _ 0x200000 _ hone.headers
    (fun i hi => by rw [hone.isLoad hi, hph]; exact range_mono (by decide))
    (hone.apart (by rw [hph]) (by rw [hph]; decide)) ret st h).2 fun i hi hil => by
      rw [hone.phnum, hone.isLoad hil] at hi
      exact absurd hi (by decide)
  refine ⟨ret, st, h, ?_, by rw [hret, heh]⟩
  have hbyte := hplaced 0 hload 0 (by rw [hph]; decide)
  rw [hph] at hbyte
  exact hbyte.trans (by decide)

/-- With 256 program headers `ph_num` is 0 and the segment of the first header is not copied. -/
theorem loadKernel_skips_segment :
    Headers (oneSegmentMemory 256 0x100000 1 1 0xff) 0x200000 14400 ∧
      Apart (oneSegmentMemory 256 0x100000 1 1 0xff) 0x200000 14400 Elf64Phdr.pFilesz ∧
      IsLoad (oneSegmentMemory 256 0x100000 1 1 0xff) 0x200000 0 ∧
      phdr (oneSegmentMemory 256 0x100000 1 1 0xff) 0x200000 0 = ⟨1, 0, 0x100000, 1, 1⟩ ∧
      range 0x200000 1 ⊆ range (0x200000 : SizeT) 14400 ∧
      ∃ ret st, loadKernel grantAll () (oneSegmentMemory 256 0x100000 1 1 0xff) 0x200000 =
        some (ret, st) ∧ st.mem 0x100000 ≠ oneSegmentMemory 256 0x100000 1 1 0xff 0x200000 := by
  obtain ⟨ret, st, h⟩ := loadKernel_grantAll (oneSegmentMemory 256 0x100000 1 1 0xff)
  have hph : phdr (oneSegmentMemory 256 0x100000 1 1 0xff) 0x200000 0 = ⟨1, 0, 0x100000, 1, 1⟩ := by
    decide
  have hone := oneSegment 256 0x100000 1 1 0xff (by decide) (by decide)
  refine ⟨hone.headers, hone.apart (by rw [hph]) (by rw [hph]; decide), ⟨by decide, by rw [hph]; rfl⟩,
    hph, range_mono (by decide), ret, st, h, ?_⟩
  have hnone : phnum (oneSegmentMemory 256 0x100000 1 1 0xff) 0x200000 % 256 = 0 := by decide
  rw [(loadKernel_mem h).1, hnone]
  decide

end MosaOS
