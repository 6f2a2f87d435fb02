import MosaOS.MemoryManager
import Mathlib.Data.Set.Function
import Mathlib.Tactic.Ring
import Mathlib.Order.CompletePartialOrder

/-!
# `Allocate` of the boot loader (`boot/MosaLoader.c`)

The boot services are a parameter: `AllocatePages(AllocateAddress, EfiLoaderData, ..)` answers with a
status and may change the state `σ` of the firmware, but neither `*Memory` nor the memory contents.
`Allocate` rounds the address down and, while the firmware refuses, drops the first page and asks for
the rest. `Firmware.Pages` is the firmware that grants free pages; for it `allocate_granted` says which
pages one call of `Allocate` obtains.
-/

namespace MosaOS

/-- `gBS->AllocatePages`: the number of pages and the address to the status and the new state. -/
structure Firmware (σ : Type) where
  allocatePages : σ → SizeT → SizeT → SizeT × σ

/-- `EFI_ERROR`: the status is negative as an `INTN`. -/
def efiError (status : SizeT) : Bool := status.msb

def numPages (size : SizeT) : SizeT := (size + 0xfff) / 0x1000

def pageOf (ret : SizeT) : SizeT := ret / 0x1000 * 0x1000

variable {σ : Type}

/-- The loop with `tries` attempts left before it halts. -/
def allocateLoop (fw : Firmware σ) : ℕ → σ → SizeT → SizeT → Option (SizeT × σ)
  | 0, _, _, _ => none
  | tries + 1, s, ret, size =>
    let ret := pageOf ret
    let (status, s) := fw.allocatePages s (numPages size) ret
    if efiError status then
      let ret := ret + 0x1000
      let size := size - 0x1000
      if tries = 0 then none -- `tmp == 10000`: halted
      else if size < 0xffffffffffff0000 then allocateLoop fw tries s ret size
      else some (ret, s)
    else some (ret, s)

def allocate (fw : Firmware σ) (s : σ) (addr size : SizeT) : Option (SizeT × σ) :=
  allocateLoop fw 10000 s addr size

theorem allocateLoop_of_ok {fw : Firmware σ} {tries : ℕ} {s : σ} {addr size : SizeT}
    (h : efiError (fw.allocatePages s (numPages size) (pageOf addr)).1 = false) :
    allocateLoop fw (tries + 1) s addr size =
      some (pageOf addr, (fw.allocatePages s (numPages size) (pageOf addr)).2) := by
  simp only [allocateLoop, h, Bool.false_eq_true, if_false]

theorem allocateLoop_of_err {fw : Firmware σ} {tries : ℕ} {s : σ} {addr size : SizeT}
    (h : efiError (fw.allocatePages s (numPages size) (pageOf addr)).1 = true) (htries : tries ≠ 0)
    (hgo : size - 0x1000 < 0xffffffffffff0000) :
    allocateLoop fw (tries + 1) s addr size =
      allocateLoop fw tries (fw.allocatePages s (numPages size) (pageOf addr)).2
        (pageOf addr + 0x1000) (size - 0x1000) := by
  simp only [allocateLoop, h, if_true, if_neg htries, if_pos hgo]

theorem allocate_of_ok {fw : Firmware σ} {s : σ} {addr size : SizeT}
    (h : efiError (fw.allocatePages s (numPages size) (pageOf addr)).1 = false) :
    allocate fw s addr size =
      some (pageOf addr, (fw.allocatePages s (numPages size) (pageOf addr)).2) :=
  allocateLoop_of_ok h

/-! ### Pages -/

def page (a : SizeT) (m : ℕ) : SizeT := a + BitVec.ofNat 64 (0x1000 * m)

theorem pageOf_toNat (a : SizeT) : (pageOf a).toNat = a.toNat / 0x1000 * 0x1000 := by
  have h := a.isLt
  rw [pageOf, BitVec.toNat_mul, BitVec.toNat_udiv, show (0x1000 : SizeT).toNat = 0x1000 from rfl]
  omega

theorem pageOf_dvd (a : SizeT) : 0x1000 ∣ (pageOf a).toNat := by
  rw [pageOf_toNat]
  exact Nat.dvd_mul_left _ _

theorem pageOf_of_dvd {a : SizeT} (h : 0x1000 ∣ a.toNat) : pageOf a = a := by
  refine BitVec.eq_of_toNat_eq ?_
  rw [pageOf_toNat, Nat.div_mul_cancel h]

theorem pageOf_add (a : SizeT) : pageOf (pageOf a + 0x1000) = pageOf a + 0x1000 := by
  refine pageOf_of_dvd ?_
  have h := pageOf_toNat a
  rw [BitVec.toNat_add, h, show (0x1000 : SizeT).toNat = 0x1000 from rfl]
  omega

theorem page_succ (a : SizeT) (m : ℕ) : page (a + 0x1000) m = page a (m + 1) := by
  rw [page, page, BitVec.add_assoc, Nat.mul_succ, Nat.add_comm (0x1000 * m), BitVec.ofNat_add]
  rfl

theorem numPages_sub {size : SizeT} (hlo : 0x1000 ≤ size.toNat)
    (hhi : size.toNat < 0xffffffffffff1000) :
    (numPages size).toNat = (numPages (size - 0x1000)).toNat + 1 := by
  simp only [numPages, BitVec.toNat_udiv, BitVec.toNat_add, BitVec.toNat_sub,
    show (0x1000 : SizeT).toNat = 0x1000 from rfl, show (0xfff : SizeT).toNat = 0xfff from rfl]
  omega

/-! ### A firmware that keeps track of its pages -/

inductive PageOwner where
  | free | loader | firmware
deriving DecidableEq, Repr

/-- The pages of `S` became the loader's, the others are as before. -/
structure Granted (o o' : SizeT → PageOwner) (S : Set SizeT) : Prop where
  loader : ∀ p ∈ S, o' p = .loader
  frame : Set.EqOn o' o Sᶜ

/-- `AllocatePages` succeeds if and only if the pages it is asked for are all free; they are the
loader's then. Otherwise it changes nothing. -/
structure Firmware.Pages (fw : Firmware σ) (owner : σ → SizeT → PageOwner) : Prop where
  success : ∀ s n a, 0x1000 ∣ a.toNat → (∀ m < n.toNat, owner s (page a m) = .free) →
    efiError (fw.allocatePages s n a).1 = false ∧
      Granted (owner s) (owner (fw.allocatePages s n a).2) {p | ∃ m < n.toNat, p = page a m}
  failure : ∀ s n a, 0x1000 ∣ a.toNat → ¬ (∀ m < n.toNat, owner s (page a m) = .free) →
    efiError (fw.allocatePages s n a).1 = true ∧ owner (fw.allocatePages s n a).2 = owner s

/-- From here on a failed attempt is the last one: `size - 0x1000` is at least `0xffffffffffff0000`. -/
def StopsAtOnce (size : SizeT) : Prop := 0xffffffffffff1000 ≤ size.toNat

/-- `Allocate` obtains the `m`-th page of its request when no page from there to the end of the request
is taken; where a failed attempt is the last one, when no page of the request is taken. -/
def Obtains (free : SizeT → Prop) (addr size : SizeT) (m : ℕ) : Prop :=
  m < (numPages size).toNat ∧
    ∀ k < (numPages size).toNat, m ≤ k ∨ StopsAtOnce size → free (page (pageOf addr) k)

def obtained (free : SizeT → Prop) (addr size : SizeT) : Set SizeT :=
  {p | ∃ m, p = page (pageOf addr) m ∧ Obtains free addr size m}

theorem obtained_of_free {free : SizeT → Prop} {addr size : SizeT}
    (h : ∀ m < (numPages size).toNat, free (page (pageOf addr) m)) :
    obtained free addr size = {p | ∃ m < (numPages size).toNat, p = page (pageOf addr) m} := by
  ext p
  constructor
  · rintro ⟨m, hp, hm, -⟩
    exact ⟨m, hm, hp⟩
  · rintro ⟨m, hm, hp⟩
    exact ⟨m, hp, hm, fun k hk _ => h k hk⟩

theorem obtained_of_stop {free : SizeT → Prop} {addr size : SizeT}
    (h : ¬ ∀ m < (numPages size).toNat, free (page (pageOf addr) m))
    (hstop : ¬ size - 0x1000 < 0xffffffffffff0000) : obtained free addr size = ∅ := by
  refine Set.eq_empty_of_forall_notMem ?_
  rintro p ⟨m, -, hm, hfree⟩
  rw [BitVec.lt_def, BitVec.toNat_sub, show (0x1000 : SizeT).toNat = 0x1000 from rfl,
    show (0xffffffffffff0000 : SizeT).toNat = 0xffffffffffff0000 from rfl] at hstop
  have hsize := size.isLt
  refine h fun k hk => hfree k hk ?_
  rcases Nat.lt_or_ge size.toNat 0x1000 with hlt | hge
  · -- at most one page was asked for
    have hone : (numPages size).toNat ≤ 1 := by
      simp only [numPages, BitVec.toNat_udiv, BitVec.toNat_add,
        show (0x1000 : SizeT).toNat = 0x1000 from rfl, show (0xfff : SizeT).toNat = 0xfff from rfl]
      omega
    exact Or.inl (by omega)
  · right
    show 0xffffffffffff1000 ≤ size.toNat
    omega

/-- What the rest of the loop obtains is what the whole request does. -/
theorem obtained_of_retry {free : SizeT → Prop} {addr size : SizeT}
    (h : ¬ ∀ m < (numPages size).toNat, free (page (pageOf addr) m))
    (hgo : size - 0x1000 < 0xffffffffffff0000) :
    obtained free (pageOf addr + 0x1000) (size - 0x1000) = obtained free addr size := by
  rw [BitVec.lt_def, BitVec.toNat_sub, show (0x1000 : SizeT).toNat = 0x1000 from rfl,
    show (0xffffffffffff0000 : SizeT).toNat = 0xffffffffffff0000 from rfl] at hgo
  have hsize := size.isLt
  have hlo : 0x1000 ≤ size.toNat := by omega
  have hhi : size.toNat < 0xffffffffffff1000 := by omega
  have hnum := numPages_sub hlo hhi
  have hnot : ¬ StopsAtOnce size := Nat.not_le.2 hhi
  ext p
  constructor
  · rintro ⟨m, hp, hm, hfree⟩
    rw [pageOf_add, page_succ] at hp
    refine ⟨m + 1, hp, by omega, fun k hk hmk => ?_⟩
    have hle := hmk.resolve_right hnot
    obtain ⟨k, rfl⟩ : ∃ l, k = l + 1 := ⟨k - 1, by omega⟩
    rw [← page_succ, ← pageOf_add]
    exact hfree k (by omega) (Or.inl (by omega))
  · rintro ⟨m, hp, hm, hfree⟩
    rcases m with _ | m
    · exact absurd (fun k hk => hfree k hk (Or.inl (Nat.zero_le k))) h
    · refine ⟨m, by rwa [pageOf_add, page_succ], by omega, fun k hk hmk => ?_⟩
      have hnot' : ¬ StopsAtOnce (size - 0x1000) := by
        show ¬ 0xffffffffffff1000 ≤ (size - 0x1000).toNat
        rw [BitVec.toNat_sub, show (0x1000 : SizeT).toNat = 0x1000 from rfl]
        omega
      have hle := hmk.resolve_right hnot'
      rw [pageOf_add, page_succ]
      exact hfree (k + 1) (by omega) (Or.inl (by omega))

theorem allocateLoop_granted {fw : Firmware σ} {owner : σ → SizeT → PageOwner} (hp : fw.Pages owner)
    {tries : ℕ} {s s' : σ} {addr size ret : SizeT}
    (h : allocateLoop fw tries s addr size = some (ret, s')) :
    Granted (owner s) (owner s') (obtained (fun p => owner s p = .free) addr size) := by
  induction tries generalizing s addr size with
  | zero => cases h
  | succ tries ih =>
    rw [allocateLoop] at h
    by_cases hfree : ∀ m < (numPages size).toNat, owner s (page (pageOf addr) m) = .free
    · obtain ⟨hok, hgrant⟩ := hp.success s _ _ (pageOf_dvd addr) hfree
      simp only [hok, Bool.false_eq_true, if_false, Option.some.injEq, Prod.mk.injEq] at h
      rw [obtained_of_free hfree, ← h.2]
      exact hgrant
    · obtain ⟨herr, hsame⟩ := hp.failure s _ _ (pageOf_dvd addr) hfree
      simp only [herr, if_true] at h
      split at h
      · cases h
      split at h
      · rename_i hgo
        have hrest := ih h
        rw [hsame, obtained_of_retry hfree hgo] at hrest
        exact hrest
      · rename_i hstop
        rw [Option.some.injEq, Prod.mk.injEq] at h
        rw [obtained_of_stop hfree hstop, ← h.2, hsame]
        exact ⟨fun p hp => hp.elim, fun p _ => rfl⟩

theorem allocate_granted {fw : Firmware σ} {owner : σ → SizeT → PageOwner} (hp : fw.Pages owner)
    {s s' : σ} {addr size ret : SizeT} (h : allocate fw s addr size = some (ret, s')) :
    Granted (owner s) (owner s') (obtained (fun p => owner s p = .free) addr size) :=
  allocateLoop_granted hp h

end MosaOS
