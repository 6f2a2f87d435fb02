import MosaOS.LoadedImage

/-!
# The pages that `LoadKernel` obtains

What the headers of an image ask for (`request`, `asked`) and what the firmware grants. `Allocate` rounds
`p_memsz` up without the offset of `p_vaddr` in its page, so a request covers its segment only if `covers_iff`
says so; and a retry drops a page when an earlier segment has a later page of the same request. Where the pages
that are shared are the first ones (`SharesFront`), nothing is dropped: `loadKernel_asked`.
-/

namespace MosaOS
open ByteMem

/-! ### The request of one segment -/

theorem pageOf_add_ofNat {addr : SizeT} {k : ℕ} (h : addr.toNat % 0x1000 + k < 2 ^ 64) :
    pageOf (addr + BitVec.ofNat 64 k) = page (pageOf addr) ((addr.toNat % 0x1000 + k) / 0x1000) := by
  have haddr := addr.isLt
  refine BitVec.eq_of_toNat_eq ?_
  rw [pageOf_toNat, page, BitVec.toNat_add, BitVec.toNat_add, pageOf_toNat, BitVec.toNat_ofNat,
    BitVec.toNat_ofNat]
  omega

theorem page_injective {a : SizeT} {j k : ℕ} (hj : j < 2 ^ 52) (hk : k < 2 ^ 52)
    (h : page a j = page a k) : j = k := by
  have hnat := congrArg BitVec.toNat h
  have ha := a.isLt
  rw [page, page, BitVec.toNat_add, BitVec.toNat_add, BitVec.toNat_ofNat, BitVec.toNat_ofNat] at hnat
  omega

theorem numPages_toNat (size : SizeT) :
    (numPages size).toNat = (size.toNat + 0xfff) % 2 ^ 64 / 0x1000 := by
  rw [numPages, BitVec.toNat_udiv, BitVec.toNat_add]
  rfl

/-- The request for `size` bytes at `addr` has every page of these bytes exactly when the bytes, counted
from the start of their first page, fit in its number of pages. -/
theorem covers_iff (addr size : SizeT) (hpos : 0 < size.toNat) :
    (∀ a ∈ range addr size.toNat, ∃ k < (numPages size).toNat, pageOf a = page (pageOf addr) k) ↔
      addr.toNat % 0x1000 + size.toNat ≤ 0x1000 * (numPages size).toNat := by
  have hsize := size.isLt
  have hnum := numPages_toNat size
  constructor
  · intro h
    have hmem : addr + BitVec.ofNat 64 (size.toNat - 1) ∈ range addr size.toNat :=
      (add_mem_range (by omega)).2 (by omega)
    obtain ⟨k, hk, hp⟩ := h _ hmem
    rw [pageOf_add_ofNat (by omega)] at hp
    have := page_injective (by omega) (by omega) hp
    omega
  · intro h a ha
    obtain ⟨k, hk, -, rfl⟩ := exists_of_mem_range ha
    exact ⟨_, by omega, pageOf_add_ofNat (by omega)⟩

/-! ### What the headers ask for -/

section
variable (m : Memory) (startAddr : SizeT)

/-- `LoadKernel` looks at header `i`, and it is one of a segment to load. -/
def Loads (i : ℕ) : Prop := i < phnum m startAddr % 256 ∧ (phdr m startAddr i).pType = PT_LOAD

/-- The pages that `Allocate` asks for first when it is called for header `j`. -/
def request (j : ℕ) : Set SizeT :=
  {p | ∃ k < (numPages (phdr m startAddr j).pMemsz).toNat, p = page (pageOf (phdr m startAddr j).pVaddr) k}

/-- The pages that headers before `j` ask for. -/
def asked (j : ℕ) : Set SizeT := {p | ∃ i < j, Loads m startAddr i ∧ p ∈ request m startAddr i}

/-- No segment is copied over a header that comes after its own. -/
def HeadersStay : Prop := ∀ i j, i < j → j < phnum m startAddr % 256 → Loads m startAddr i →
  Disjoint (dest m startAddr Elf64Phdr.pFilesz i) (range (phdrAddr m startAddr j) 56)

/-- Every page of every segment is asked for by some header. -/
def Covered : Prop := ∀ i, IsLoad m startAddr i → ∀ a ∈ dest m startAddr Elf64Phdr.pMemsz i,
  pageOf a ∈ asked m startAddr (phnum m startAddr % 256)

/-- The pages of a request that earlier headers have asked for are the first ones of the request, and all of
it where a failed attempt is the last one. -/
def SharesFront : Prop := ∀ j, Loads m startAddr j → ∀ k < (numPages (phdr m startAddr j).pMemsz).toNat,
  page (pageOf (phdr m startAddr j).pVaddr) k ∈ asked m startAddr j →
    ∀ l < (numPages (phdr m startAddr j).pMemsz).toNat, l ≤ k ∨ StopsAtOnce (phdr m startAddr j).pMemsz →
      page (pageOf (phdr m startAddr j).pVaddr) l ∈ asked m startAddr j

end

variable {m : Memory} {startAddr : SizeT} {p : SizeT} {i j : ℕ}

theorem asked_succ : asked m startAddr (j + 1) =
    asked m startAddr j ∪ {p | Loads m startAddr j ∧ p ∈ request m startAddr j} := by
  ext p
  constructor
  · rintro ⟨i, hi, hload, hp⟩
    rcases Nat.lt_succ_iff_lt_or_eq.1 hi with hlt | rfl
    · exact Or.inl ⟨i, hlt, hload, hp⟩
    · exact Or.inr ⟨hload, hp⟩
  · rintro (⟨i, hi, hload, hp⟩ | ⟨hload, hp⟩)
    · exact ⟨i, by omega, hload, hp⟩
    · exact ⟨j, Nat.lt_succ_self j, hload, hp⟩

theorem asked_mono (h : i ≤ j) : asked m startAddr i ⊆ asked m startAddr j := by
  rintro p ⟨l, hl, hload, hp⟩
  exact ⟨l, hl.trans_le h, hload, hp⟩

theorem Loads.isLoad (h : Loads m startAddr i) : IsLoad m startAddr i :=
  ⟨h.1.trans_le (Nat.mod_le _ _), h.2⟩

/-- Where each segment fits in its own request, all are covered. -/
theorem covered_of_fits (hnum : phnum m startAddr < 256) (h : ∀ i, Loads m startAddr i →
    0 < (phdr m startAddr i).pMemsz.toNat ∧ (phdr m startAddr i).pVaddr.toNat % 0x1000 +
      (phdr m startAddr i).pMemsz.toNat ≤ 0x1000 * (numPages (phdr m startAddr i).pMemsz).toNat) :
    Covered m startAddr := by
  intro i hi a ha
  have hload : Loads m startAddr i := ⟨by rw [Nat.mod_eq_of_lt hnum]; exact hi.1, hi.2⟩
  obtain ⟨hpos, hfits⟩ := h i hload
  obtain ⟨k, hk, hpage⟩ := (covers_iff _ _ hpos).2 hfits a ha
  exact ⟨i, hload.1, hload, k, hk, hpage⟩

/-! ### The headers as the loop reads them -/

theorem memAt_header (hstay : HeadersStay m startAddr) {n : ℕ} (hn : n ≤ j) (hj : j < phnum m startAddr % 256) :
    Set.EqOn (memAt m startAddr n) m (range (phdrAddr m startAddr j) 56) := by
  induction n generalizing j with
  | zero => exact fun _ _ => rfl
  | succ n ih =>
    have hseen : seenPhdr m startAddr n = phdr m startAddr n := readPhdr_congr (ih le_rfl (by omega))
    intro a ha
    rw [memAt_succ, hseen]
    split
    · rename_i hload
      have hout := Set.disjoint_right.1 (hstay n j (by omega) hj ⟨by omega, hload⟩) ha
      rw [copySegment, copyMem_of_notMem hout]
      exact ih (by omega) hj ha
    · exact ih (by omega) hj ha

theorem seenPhdr_of_stay (hstay : HeadersStay m startAddr) (hj : j < phnum m startAddr % 256) :
    seenPhdr m startAddr j = phdr m startAddr j :=
  readPhdr_congr (memAt_header hstay le_rfl hj)

/-! ### What the firmware grants -/

variable {σ : Type} {fw : Firmware σ} {owner : σ → SizeT → PageOwner} {s s' : σ} {ret : SizeT}
  {st : LoadState σ}

theorem obtained_subset {free : SizeT → Prop} :
    obtained free (phdr m startAddr j).pVaddr (phdr m startAddr j).pMemsz ⊆ request m startAddr j := by
  rintro p ⟨k, hp, hk, -⟩
  exact ⟨k, hk, hp⟩

/-- One call of `Allocate` obtains what no header before has asked for. -/
theorem mem_obtained (hshares : SharesFront m startAddr) (hload : Loads m startAddr j) {free : SizeT → Prop}
    (hfree : ∀ p ∈ request m startAddr j, p ∉ asked m startAddr j → free p) (hp : p ∈ request m startAddr j)
    (hnew : p ∉ asked m startAddr j) :
    p ∈ obtained free (phdr m startAddr j).pVaddr (phdr m startAddr j).pMemsz := by
  obtain ⟨k, hk, rfl⟩ := hp
  refine ⟨k, rfl, hk, fun l hl hwhy => hfree _ ⟨l, hl, rfl⟩ fun hold => hnew ?_⟩
  exact hshares j hload l hl hold k hk hwhy

/-- Pages that are the loader's in the end were so before or have been asked for. -/
theorem asked_of_loadKernel (hp : fw.Pages owner) (hstay : HeadersStay m startAddr)
    (h : loadKernel fw s m startAddr = some (ret, st)) {p : SizeT} (hown : owner st.firmware p = .loader) :
    owner s p = .loader ∨ p ∈ asked m startAddr (phnum m startAddr % 256) := by
  refine (loadKernel_cases (P := fun i s' => i ≤ phnum m startAddr % 256 → ∀ p, owner s' p = .loader →
    owner s p = .loader ∨ p ∈ asked m startAddr i) h (fun _ p hown => Or.inl hown) (fun i s₁ _ hI hi p hown => ?_)
    (fun i s₁ s₂ r hload ha hI hi p hown => ?_)).2.2 le_rfl p hown
  · exact (hI (by omega) p hown).imp_right fun hp => asked_mono (Nat.le_succ i) hp
  · rw [seenPhdr_of_stay hstay (by omega)] at hload ha
    have hstep := allocate_granted hp ha
    rw [asked_succ]
    by_cases hnew : p ∈ obtained (fun p => owner s₁ p = .free) (phdr m startAddr i).pVaddr (phdr m startAddr i).pMemsz
    · exact Or.inr (Or.inr ⟨⟨by omega, hload⟩, obtained_subset hnew⟩)
    · rw [hstep.frame hnew] at hown
      exact (hI (by omega) p hown).imp_right Or.inl

/-- Where the shared pages are the first ones, the loader obtains all that the headers ask for. -/
theorem loadKernel_asked (hp : fw.Pages owner) (hstay : HeadersStay m startAddr) (hshares : SharesFront m startAddr)
    (hfree : ∀ p ∈ asked m startAddr (phnum m startAddr % 256), owner s p = .free)
    (h : loadKernel fw s m startAddr = some (ret, st)) :
    Granted (owner s) (owner st.firmware) (asked m startAddr (phnum m startAddr % 256)) := by
  refine (loadKernel_cases (P := fun i s' => i ≤ phnum m startAddr % 256 →
    Granted (owner s) (owner s') (asked m startAddr i)) h (fun _ => ⟨?_, fun p _ => rfl⟩) (fun i s₁ hskip hI hi => ?_)
    (fun i s₁ s₂ r hload ha hI hi => ?_)).2.2 le_rfl
  · rintro p ⟨i, hi, -⟩
    exact absurd hi (Nat.not_lt_zero i)
  · rw [seenPhdr_of_stay hstay (by omega)] at hskip
    have hnone : asked m startAddr (i + 1) = asked m startAddr i := by
      rw [asked_succ, Set.union_eq_left]
      exact fun p hp => absurd hp.1.2 hskip
    rw [hnone]
    exact hI (by omega)
  · rw [seenPhdr_of_stay hstay (by omega)] at hload ha
    have hbefore := hI (by omega)
    have hstep := allocate_granted hp ha
    have hloads : Loads m startAddr i := ⟨by omega, hload⟩
    have hnew : ∀ p ∈ request m startAddr i, p ∉ asked m startAddr i → owner s₁ p = .free := by
      intro p hp hold
      rw [hbefore.frame hold]
      exact hfree p ⟨i, by omega, hloads, hp⟩
    have hkept : ∀ p ∈ asked m startAddr i, owner s₂ p = .loader := by
      intro p hp
      by_cases hin : p ∈ obtained (fun p => owner s₁ p = .free) (phdr m startAddr i).pVaddr (phdr m startAddr i).pMemsz
      · exact hstep.loader p hin
      · rw [hstep.frame hin]
        exact hbefore.loader p hp
    rw [asked_succ]
    refine ⟨?_, fun p hp => ?_⟩
    · rintro p (hold | ⟨-, hreq⟩)
      · exact hkept p hold
      · by_cases hold : p ∈ asked m startAddr i
        · exact hkept p hold
        · exact hstep.loader p (mem_obtained hshares hloads hnew hreq hold)
    · rw [hstep.frame fun hin => hp (Or.inr ⟨hloads, obtained_subset hin⟩)]
      exact hbefore.frame fun hold => hp (Or.inl hold)

/-- All pages are free at first and no segment is copied over a header. Where the pages that requests share are
the first ones of the later request, the loader owns every page of every segment in the end exactly when all of
them are asked for: `Allocate` may have rounded the last one away, or the header may be behind the first
`e_phnum % 256`. That they are asked for is necessary in any case. -/
theorem loadKernel_owned_iff {σ : Type} (fw : Firmware σ) (owner : σ → SizeT → PageOwner)
    (hp : fw.Pages owner) (s : σ) (hfree : ∀ p, owner s p = .free) (m : Memory) (startAddr ret : SizeT)
    (st : LoadState σ) (h : loadKernel fw s m startAddr = some (ret, st)) (hstay : HeadersStay m startAddr) :
    (SharesFront m startAddr →
      ((∀ i, IsLoad m startAddr i → ∀ a ∈ dest m startAddr Elf64Phdr.pMemsz i,
        owner st.firmware (pageOf a) = .loader) ↔ Covered m startAddr)) ∧
    ((∀ i, IsLoad m startAddr i → ∀ a ∈ dest m startAddr Elf64Phdr.pMemsz i,
      owner st.firmware (pageOf a) = .loader) → Covered m startAddr) := by
  have hnecessary : (∀ i, IsLoad m startAddr i → ∀ a ∈ dest m startAddr Elf64Phdr.pMemsz i,
      owner st.firmware (pageOf a) = .loader) → Covered m startAddr := by
    intro hown i hi a ha
    refine (asked_of_loadKernel hp hstay h (hown i hi a ha)).resolve_left fun hbefore => ?_
    rw [hfree] at hbefore
    cases hbefore
  refine ⟨fun hshares => ⟨hnecessary, fun hcovered i hi a ha => ?_⟩, hnecessary⟩
  exact (loadKernel_asked hp hstay hshares (fun p _ => hfree p) h).loader _ (hcovered i hi a ha)

/-! ### A firmware with a page table of its own -/

/-- The firmware that grants free pages; `EFI_NOT_FOUND` otherwise. -/
def pageFirmware : Firmware (SizeT → PageOwner) where
  allocatePages owner numPages memory :=
    if ∀ m < numPages.toNat, owner (page memory m) = .free then
      (0, fun p => if ∃ m < numPages.toNat, p = page memory m then .loader else owner p)
    else (0x800000000000000e, owner)

theorem pageFirmware_pages : pageFirmware.Pages id where
  success owner n a _ h := by
    replace h : ∀ m < n.toNat, owner (page a m) = .free := h
    simp only [pageFirmware, if_pos h]
    exact ⟨by decide, fun p hp => if_pos hp, fun p hp => if_neg hp⟩
  failure owner n a _ h := by
    replace h : ¬ ∀ m < n.toNat, owner (page a m) = .free := h
    simp only [pageFirmware, if_neg h]
    exact ⟨by decide, trivial⟩

/-- `Allocate` does not halt for less than 10000 pages. -/
theorem allocateLoop_returns (fw : Firmware σ) {tries : ℕ} (s : σ) (addr : SizeT) {size : SizeT}
    (h : size.toNat / 0x1000 + 1 < tries) : ∃ r, allocateLoop fw tries s addr size = some r := by
  induction tries generalizing s addr size with
  | zero => cases h
  | succ tries ih =>
    rw [allocateLoop]
    simp only
    split
    · rw [if_neg (by omega)]
      split
      · rename_i hgo
        by_cases hsmall : size.toNat < 0x1000
        · bv_omega
        · have hsub : (size - 0x1000).toNat = size.toNat - 0x1000 := by bv_omega
          exact ih _ _ (by omega)
      · exact ⟨_, rfl⟩
    · exact ⟨_, rfl⟩

/-! ### Two segments with a page in common -/

/-- Six KiB from `0x100000` on, and four KiB and a byte behind them. -/
def sharedPageMemory : Memory := fun a =>
  (oneSegmentFile 2 0x100000 1 0x1800 ++ (leBytes 4 1 ++ leBytes 4 0 ++ leBytes 8 0 ++ leBytes 8 0x101800 ++
    leBytes 8 0x101800 ++ leBytes 8 1 ++ leBytes 8 0x1001 ++ leBytes 8 0x1000)).getD (a - 0x200000).toNat 0xff

theorem sharedPageMemory_phdr : phdr sharedPageMemory 0x200000 0 = ⟨1, 0, 0x100000, 1, 0x1800⟩ ∧
    phdr sharedPageMemory 0x200000 1 = ⟨1, 0, 0x101800, 1, 0x1001⟩ := by decide

theorem sharedPageMemory_phnum : phnum sharedPageMemory 0x200000 = 2 := by decide

theorem sharedPageMemory_stay : HeadersStay sharedPageMemory 0x200000 := by
  intro i j hij hj hi
  rw [sharedPageMemory_phnum] at hj
  obtain rfl : j = 1 := by omega
  obtain rfl : i = 0 := by omega
  have haddr : phdrAddr sharedPageMemory 0x200000 1 = 0x200078 := by decide
  rw [dest, sharedPageMemory_phdr.1, haddr]
  exact disjoint_range_of_le (by simp) (by simp) (by simp)

/-- The page at `0x101000` is the first one of the second request, and the only one that is shared. -/
theorem sharedPageMemory_shares : SharesFront sharedPageMemory 0x200000 := by
  intro j hj k hk hold l hl hwhy
  obtain ⟨i, hi, hload, n, hn, hpage⟩ := hold
  have hlt := hj.1
  rw [sharedPageMemory_phnum] at hlt
  obtain rfl : j = 1 := by omega
  obtain rfl : i = 0 := by omega
  have hfirst : (numPages 0x1800).toNat = 2 := rfl
  have hsecond : (numPages 0x1001).toNat = 2 := rfl
  simp only [sharedPageMemory_phdr.1, sharedPageMemory_phdr.2, hfirst, hsecond] at hn hpage hk hl hwhy ⊢
  have hk0 : k = 0 := by
    rcases (show k = 0 ∨ k = 1 by omega) with rfl | rfl
    · rfl
    · rcases (show n = 0 ∨ n = 1 by omega) with rfl | rfl
      · exact absurd hpage (by decide)
      · exact absurd hpage (by decide)
  subst hk0
  obtain rfl : l = 0 := by
    rcases hwhy with hle | hstop
    · omega
    · exact absurd hstop (Nat.not_le.2 (by decide))
  exact ⟨0, hi, hload, n, by rwa [sharedPageMemory_phdr.1], by rw [sharedPageMemory_phdr.1]; exact hpage⟩

theorem sharedPageMemory_fits {i : ℕ} (hi : Loads sharedPageMemory 0x200000 i) :
    0 < (phdr sharedPageMemory 0x200000 i).pMemsz.toNat ∧ (phdr sharedPageMemory 0x200000 i).pVaddr.toNat % 0x1000 +
      (phdr sharedPageMemory 0x200000 i).pMemsz.toNat ≤
        0x1000 * (numPages (phdr sharedPageMemory 0x200000 i).pMemsz).toNat := by
  have hlt := hi.1
  rw [sharedPageMemory_phnum] at hlt
  rcases (show i = 0 ∨ i = 1 by omega) with rfl | rfl
  · rw [sharedPageMemory_phdr.1]
    decide
  · rw [sharedPageMemory_phdr.2]
    decide

theorem loadKernel_owned_iff_sharedPage : ∃ ret st,
    loadKernel pageFirmware (fun _ => .free) sharedPageMemory 0x200000 = some (ret, st) ∧
      (∀ a ∈ range (0x100000 : SizeT) 0x1800, st.firmware (pageOf a) = .loader) ∧
      ∀ a ∈ range (0x101800 : SizeT) 0x1001, st.firmware (pageOf a) = .loader := by
  obtain ⟨ret, st, h⟩ : ∃ ret st, loadKernel pageFirmware (fun _ => .free) sharedPageMemory 0x200000 = some (ret, st) := by
    refine loadKernel_returns _ fun i hi _ s => allocateLoop_returns _ _ _ ?_
    rw [seenPhdr_of_stay sharedPageMemory_stay hi]
    rw [sharedPageMemory_phnum] at hi
    rcases (show i = 0 ∨ i = 1 by omega) with rfl | rfl
    · rw [sharedPageMemory_phdr.1]
      decide
    · rw [sharedPageMemory_phdr.2]
      decide
  have hcovered : Covered sharedPageMemory 0x200000 :=
    covered_of_fits (by rw [sharedPageMemory_phnum]; simp) fun i hi => sharedPageMemory_fits hi
  have hown := ((loadKernel_owned_iff pageFirmware id pageFirmware_pages _ (fun _ => rfl) _ _ ret st h
    sharedPageMemory_stay).1 sharedPageMemory_shares).2 hcovered
  have hzero : IsLoad sharedPageMemory 0x200000 0 := by
    refine ⟨by rw [sharedPageMemory_phnum]; simp, ?_⟩
    rw [sharedPageMemory_phdr.1]
    rfl
  have hone : IsLoad sharedPageMemory 0x200000 1 := by
    refine ⟨by rw [sharedPageMemory_phnum]; simp, ?_⟩
    rw [sharedPageMemory_phdr.2]
    rfl
  refine ⟨ret, st, h, fun a ha => hown 0 hzero a ?_, fun a ha => hown 1 hone a ?_⟩
  · rw [dest, sharedPageMemory_phdr.1]
    exact ha
  · rw [dest, sharedPageMemory_phdr.2]
    exact ha

/-- One page from the middle of a page on: its second half is not owned. -/
theorem loadKernel_misses_page :
    pageFirmware.Pages id ∧ IsLoad (oneSegmentMemory 1 0x100800 1 0x1000 0xff) 0x200000 0 ∧
      0x101000 ∈ dest (oneSegmentMemory 1 0x100800 1 0x1000 0xff) 0x200000 Elf64Phdr.pMemsz 0 ∧
      ∃ ret st, loadKernel pageFirmware (fun _ => .free) (oneSegmentMemory 1 0x100800 1 0x1000 0xff)
        0x200000 = some (ret, st) ∧ st.firmware (pageOf 0x101000) ≠ .loader := by
  have hph : phdr (oneSegmentMemory 1 0x100800 1 0x1000 0xff) 0x200000 0 =
    ⟨1, 0, 0x100800, 1, 0x1000⟩ := by decide
  have hnum : phnum (oneSegmentMemory 1 0x100800 1 0x1000 0xff) 0x200000 % 256 = 1 := by decide
  have hstay : HeadersStay (oneSegmentMemory 1 0x100800 1 0x1000 0xff) 0x200000 := by
    intro i j hij hj
    rw [hnum] at hj
    omega
  obtain ⟨ret, st, h⟩ : ∃ ret st, loadKernel pageFirmware (fun _ => .free)
      (oneSegmentMemory 1 0x100800 1 0x1000 0xff) 0x200000 = some (ret, st) := by
    refine loadKernel_returns _ fun i hi _ s => allocateLoop_returns _ _ _ ?_
    rw [hnum] at hi
    obtain rfl : i = 0 := by omega
    rw [seenPhdr_zero, hph]
    decide
  refine ⟨pageFirmware_pages, ⟨by decide, by rw [hph]; rfl⟩, ?_, ret, st, h, fun hown => ?_⟩
  · rw [dest, hph]
    show ((0x101000 : SizeT) - 0x100800).toNat < 0x1000
    decide
  · rcases asked_of_loadKernel pageFirmware_pages hstay h hown with hbefore | ⟨i, hi, -, k, hk, hpage⟩
    · cases hbefore
    · rw [hnum] at hi
      obtain rfl : i = 0 := by omega
      rw [hph] at hk hpage
      obtain rfl : k = 0 := Nat.lt_one_iff.1 (hk.trans_eq (by decide))
      exact absurd hpage (by decide)

end MosaOS
