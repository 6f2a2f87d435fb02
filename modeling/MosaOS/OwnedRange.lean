import MosaOS.LoadedPages

/-!
# The range that the loader's `Allocate` was asked for

`Allocate` reports nothing to its caller, which then writes to the whole range. `allocate_owned_iff`
says for which owners of the pages the range is the loader's afterwards: the pages of an earlier call
first and free pages after them. Any other page is dropped by a retry, together with those before it.
-/

namespace MosaOS
open ByteMem

/-- The number of pages of `size` bytes from a page boundary on; `num_pages` where it does not wrap. -/
def pageCount (size : SizeT) : ℕ := (size.toNat + 0xfff) / 0x1000

theorem numPages_eq_pageCount {size : SizeT} (h : size.toNat ≤ 2 ^ 64 - 0x1000) :
    (numPages size).toNat = pageCount size := by
  rw [numPages_toNat, Nat.mod_eq_of_lt (by omega), pageCount]

theorem numPages_eq_zero {size : SizeT} (h : ¬ size.toNat ≤ 2 ^ 64 - 0x1000) :
    (numPages size).toNat = 0 := by
  have hlt := size.isLt
  rw [numPages_toNat]
  omega

theorem page_eq_of_dvd {addr : SizeT} (haddr : 0x1000 ∣ addr.toNat) {k : ℕ} (hk : k < 2 ^ 64) :
    pageOf (addr + BitVec.ofNat 64 k) = page addr (k / 0x1000) := by
  have hmod : addr.toNat % 0x1000 = 0 := Nat.mod_eq_zero_of_dvd haddr
  rw [pageOf_add_ofNat (by omega), pageOf_of_dvd haddr, hmod, Nat.zero_add]

theorem forall_range_pageOf {addr size : SizeT} (haddr : 0x1000 ∣ addr.toNat) {P : SizeT → Prop} :
    (∀ a ∈ range addr size.toNat, P (pageOf a)) ↔ ∀ m < pageCount size, P (page addr m) := by
  have hsize := size.isLt
  constructor
  · intro h m hm
    unfold pageCount at hm
    have hmem : addr + BitVec.ofNat 64 (0x1000 * m) ∈ range addr size.toNat :=
      (add_mem_range (by omega)).2 (by omega)
    have hp := h _ hmem
    rwa [page_eq_of_dvd haddr (by omega), Nat.mul_div_cancel_left m (by decide)] at hp
  · intro h a ha
    obtain ⟨k, hk, hk64, rfl⟩ := exists_of_mem_range ha
    rw [page_eq_of_dvd haddr hk64]
    refine h _ ?_
    unfold pageCount
    omega

variable {σ : Type} {fw : Firmware σ} {owner : σ → SizeT → PageOwner} {s s' : σ}
  {addr size ret : SizeT}

/-- `Obtains` for an aligned start, in terms of the pages asked for. -/
theorem obtains_iff {free : SizeT → Prop} (haddr : 0x1000 ∣ addr.toNat) {m : ℕ}
    (hm : m < pageCount size) : Obtains free addr size m ↔
      size.toNat ≤ 2 ^ 64 - 0x1000 ∧
        ∀ k < pageCount size, m ≤ k ∨ StopsAtOnce size → free (page addr k) := by
  unfold Obtains
  rw [pageOf_of_dvd haddr]
  constructor
  · rintro ⟨hlt, hfree⟩
    have hnowrap : size.toNat ≤ 2 ^ 64 - 0x1000 := by
      by_contra hwrap
      rw [numPages_eq_zero hwrap] at hlt
      exact absurd hlt (Nat.not_lt_zero m)
    rw [numPages_eq_pageCount hnowrap] at hfree
    exact ⟨hnowrap, hfree⟩
  · rintro ⟨hnowrap, hfree⟩
    rw [numPages_eq_pageCount hnowrap]
    exact ⟨hm, hfree⟩

/-- The loader's pages after one call are those it had and those it obtained. -/
theorem owner_allocate_iff (hp : fw.Pages owner) (haddr : 0x1000 ∣ addr.toNat)
    (h : allocate fw s addr size = some (ret, s')) {m : ℕ} (hm : m < pageCount size) :
    owner s' (page addr m) = .loader ↔ owner s (page addr m) = .loader ∨
      Obtains (fun p => owner s p = .free) addr size m := by
  have hgrant := allocate_granted hp h
  have hsize := size.isLt
  have hnum := (numPages size).isLt
  have hmem : page addr m ∈ obtained (fun p => owner s p = .free) addr size ↔
      Obtains (fun p => owner s p = .free) addr size m := by
    constructor
    · rintro ⟨k, hk, hobt⟩
      rw [pageOf_of_dvd haddr] at hk
      have hklt := hobt.1
      rw [numPages_toNat] at hklt
      unfold pageCount at hm
      rwa [page_injective (by omega) (by omega) hk]
    · intro hobt
      exact ⟨m, by rw [pageOf_of_dvd haddr], hobt⟩
  by_cases hin : page addr m ∈ obtained (fun p => owner s p = .free) addr size
  · exact iff_of_true (hgrant.loader _ hin) (Or.inr (hmem.1 hin))
  · rw [hgrant.frame hin, ← hmem]
    exact (or_iff_left hin).symm

/-- When `Allocate` returns, the whole range is the loader's exactly when it began with pages of the
loader and went on with free pages only; where `num_pages` wraps, or where the first failed attempt is
the last, it must be all of one kind. -/
theorem allocate_owned_iff {σ : Type} (fw : Firmware σ) (owner : σ → SizeT → PageOwner)
    (hp : fw.Pages owner) (s s' : σ) (addr size ret : SizeT) (haddr : 0x1000 ∣ addr.toNat)
    (h : allocate fw s addr size = some (ret, s')) :
    (∀ a ∈ range addr size.toNat, owner s' (pageOf a) = .loader) ↔
      ∃ t ≤ pageCount size, (∀ m < t, owner s (page addr m) = .loader) ∧
        (∀ m, t ≤ m → m < pageCount size → owner s (page addr m) = .free) ∧
        (t = pageCount size ∨ t = 0 ∧ size.toNat ≤ 2 ^ 64 - 0x1000 ∨ ¬ StopsAtOnce size) := by
  refine (forall_range_pageOf (P := fun p => owner s' p = .loader) haddr).trans ?_
  have hiff : ∀ m < pageCount size, owner s' (page addr m) = .loader ↔
      owner s (page addr m) = .loader ∨ size.toNat ≤ 2 ^ 64 - 0x1000 ∧
        ∀ k < pageCount size, m ≤ k ∨ StopsAtOnce size → owner s (page addr k) = .free :=
    fun m hm => (owner_allocate_iff hp haddr h hm).trans (or_congr_right (obtains_iff haddr hm))
  constructor
  · intro hown
    by_cases hex : ∃ t < pageCount size, owner s (page addr t) ≠ .loader
    · -- the first page that was not the loader's
      classical
      obtain ⟨ht, hnot⟩ := Nat.find_spec hex
      have hleast := fun m => Nat.find_min hex (m := m)
      generalize Nat.find hex = t at ht hnot hleast
      have hlow : ∀ m < t, owner s (page addr m) = .loader := fun m hm =>
        of_not_not fun hne => hleast m hm ⟨hm.trans ht, hne⟩
      obtain ⟨hnowrap, hfree⟩ := ((hiff t ht).1 (hown t ht)).resolve_left hnot
      refine ⟨t, ht.le, hlow, fun m h1 h2 => hfree m h2 (Or.inl h1), Or.inr ?_⟩
      rcases Nat.eq_zero_or_pos t with rfl | hpos
      · exact Or.inl ⟨rfl, hnowrap⟩
      · refine Or.inr fun hstop => ?_
        have hzero := hfree 0 (hpos.trans ht) (Or.inr hstop)
        rw [hlow 0 hpos] at hzero
        cases hzero
    · refine ⟨pageCount size, le_rfl, fun m hm => ?_, fun m h1 h2 => absurd h2 (Nat.not_lt.2 h1),
        Or.inl rfl⟩
      exact of_not_not fun hne => hex ⟨m, hm, hne⟩
  · rintro ⟨t, -, hlow, hfree, hwhich⟩ m hm
    rw [hiff m hm]
    rcases Nat.lt_or_ge m t with hlt | hge
    · exact Or.inl (hlow m hlt)
    · have hnowrap : size.toNat ≤ 2 ^ 64 - 0x1000 := by
        rcases hwhich with rfl | ⟨-, hle⟩ | hstop
        · exact absurd hm (Nat.not_lt.2 hge)
        · exact hle
        · have hlt : size.toNat < 0xffffffffffff1000 := Nat.not_le.1 hstop
          omega
      refine Or.inr ⟨hnowrap, fun k hk hwhy => hfree k ?_ hk⟩
      rcases hwhy with hle | hstop
      · exact hge.trans hle
      · rcases hwhich with rfl | ⟨rfl, -⟩ | hnot
        · exact absurd hm (Nat.not_lt.2 hge)
        · exact Nat.zero_le k
        · exact absurd hstop hnot

/-! ### Two pages, of which the firmware has the first -/

/-- Of all pages the firmware has the one at 1 MiB only. -/
def firstTaken : SizeT → PageOwner := fun p => if p = 0x100000 then .firmware else .free

theorem allocate_owned_iff_free : ∃ ret s',
    allocate pageFirmware (fun _ => .free) 0x100000 0x2000 = some (ret, s') ∧
      ∀ a ∈ range (0x100000 : SizeT) 0x2000, s' (pageOf a) = .loader := by
  have hgrant := pageFirmware_pages.success (fun _ => .free) (numPages 0x2000) (pageOf 0x100000)
    (pageOf_dvd _) fun _ _ => rfl
  have h := allocate_of_ok hgrant.1
  refine ⟨_, _, h, (allocate_owned_iff pageFirmware id pageFirmware_pages _ _ 0x100000 0x2000 _
    (by decide) h).2 ⟨0, Nat.zero_le _, fun m hm => absurd hm (Nat.not_lt_zero m),
      fun _ _ _ => rfl, Or.inr (Or.inl ⟨rfl, by decide⟩)⟩⟩

/-- `Allocate` returns, having dropped the page that the firmware has. -/
theorem allocate_drops_page : ∃ ret s',
    allocate pageFirmware firstTaken 0x100000 0x2000 = some (ret, s') ∧
      0x100000 ∈ range (0x100000 : SizeT) 0x2000 ∧ s' (pageOf 0x100000) = .firmware := by
  obtain ⟨herr, hsame⟩ := pageFirmware_pages.failure firstTaken (numPages 0x2000) (pageOf 0x100000)
    (pageOf_dvd _) fun hall => absurd (hall 0 (by decide)) (by decide)
  obtain ⟨hok, hgrant⟩ := pageFirmware_pages.success firstTaken (numPages 0x1000)
    (pageOf (pageOf 0x100000 + 0x1000)) (pageOf_dvd _) fun m hm => by
      obtain rfl : m = 0 := Nat.lt_one_iff.1 (hm.trans_eq (by decide))
      decide
  have hretry : allocate pageFirmware firstTaken 0x100000 0x2000 =
      allocateLoop pageFirmware 9999 firstTaken (pageOf 0x100000 + 0x1000) 0x1000 := by
    rw [allocate, allocateLoop_of_err herr (by decide) (by decide)]
    exact congrArg (allocateLoop pageFirmware 9999 · (pageOf 0x100000 + 0x1000) 0x1000) hsame
  have hmem : (0x100000 : SizeT) ∈ range (0x100000 : SizeT) 0x2000 := mem_range.2 (by decide)
  refine ⟨_, _, hretry.trans (allocateLoop_of_ok hok), hmem, ?_⟩
  refine (hgrant.frame ?_).trans (by decide)
  rintro ⟨m, hm, hpage⟩
  obtain rfl : m = 0 := Nat.lt_one_iff.1 (hm.trans_eq (by decide))
  exact absurd hpage (by decide)

end MosaOS
