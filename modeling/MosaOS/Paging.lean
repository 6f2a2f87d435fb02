import MosaOS.Lib.PageWalk
import MosaOS.MemoryManager
import Mathlib.Data.Fin.Basic
import Mathlib.Data.List.Induction
import Mathlib.Logic.Function.Basic

/-!
# The identity page tables (`kernel/paging.cpp`)

The tables are the static arrays of the source; `Layout` is where the linker put them, and
`Layout.memory` the physical memory that holds them. `walk_of_lt` and `walk_of_ge` say what the
hardware makes of the tables `setupIdentityPageTable` fills: the identity below
`kPageDirectoryCount` GiB, and nothing from there on.
-/

namespace MosaOS
open PageWalk

def kPageSize4K : BitVec 64 := 4096
def kPageSize2M : BitVec 64 := 512 * kPageSize4K
def kPageSize1G : BitVec 64 := 512 * kPageSize2M

def kPageDirectoryCount : ℕ := 64

instance : NeZero kPageDirectoryCount := ⟨by decide⟩

/-- The page directories fill the first entries of `pdp_table`. -/
def pdpIndex (i : Fin kPageDirectoryCount) : Fin 512 := ⟨i, i.isLt.trans_le (by decide)⟩

structure PageTables where
  pml4Table : Fin 512 → BitVec 64
  pdpTable : Fin 512 → BitVec 64
  pageDirectory : Fin kPageDirectoryCount → Fin 512 → BitVec 64

/-- Static objects start zeroed. -/
def PageTables.zero : PageTables := ⟨fun _ => 0, fun _ => 0, fun _ _ => 0⟩

/-- The addresses of the three arrays: 4 KiB aligned (`alignas`), in physical memory and apart. -/
structure Layout where
  pml4Table : BitVec 64
  pdpTable : BitVec 64
  pageDirectory : BitVec 64
  pml4Table_dvd : 2 ^ 12 ∣ pml4Table.toNat
  pdpTable_dvd : 2 ^ 12 ∣ pdpTable.toNat
  pageDirectory_dvd : 2 ^ 12 ∣ pageDirectory.toNat
  pml4Table_le : pml4Table.toNat + 4096 ≤ 2 ^ 52
  pdpTable_le : pdpTable.toNat + 4096 ≤ 2 ^ 52
  pageDirectory_le : pageDirectory.toNat + kPageDirectoryCount * 4096 ≤ 2 ^ 52
  pml4_pdp : pml4Table.toNat + 4096 ≤ pdpTable.toNat ∨ pdpTable.toNat + 4096 ≤ pml4Table.toNat
  pml4_pd : pml4Table.toNat + 4096 ≤ pageDirectory.toNat ∨
    pageDirectory.toNat + kPageDirectoryCount * 4096 ≤ pml4Table.toNat
  pdp_pd : pdpTable.toNat + 4096 ≤ pageDirectory.toNat ∨
    pageDirectory.toNat + kPageDirectoryCount * 4096 ≤ pdpTable.toNat

/-- `&page_directory[i_pdpt]`. -/
def Layout.directory (l : Layout) (iPdpt : Fin kPageDirectoryCount) : BitVec 64 :=
  l.pageDirectory + BitVec.ofNat 64 (iPdpt * 4096)

def pageEntry (iPdpt : Fin kPageDirectoryCount) (iPd : Fin 512) : BitVec 64 :=
  BitVec.ofNat 64 iPdpt * kPageSize1G + BitVec.ofNat 64 iPd * kPageSize2M ||| 0x83

/-- The body of the inner loop. -/
def setPage (iPdpt : Fin kPageDirectoryCount) (t : PageTables) (iPd : Fin 512) : PageTables :=
  let entries := Function.update (t.pageDirectory iPdpt) iPd (pageEntry iPdpt iPd)
  { t with pageDirectory := Function.update t.pageDirectory iPdpt entries }

/-- The body of the outer loop. -/
def setDirectory (l : Layout) (t : PageTables) (iPdpt : Fin kPageDirectoryCount) : PageTables :=
  let entries :=
    Function.update t.pdpTable (pdpIndex iPdpt) (l.directory iPdpt ||| 0x003)
  let t := { t with pdpTable := entries }
  (List.finRange 512).foldl (setPage iPdpt) t

/-- The first statement. -/
def setPml4 (l : Layout) (t : PageTables) : PageTables :=
  { t with pml4Table := Function.update t.pml4Table 0 (l.pdpTable ||| 0x003) }

/-- The tables, and the value `SetCR3` is called with. -/
def setupIdentityPageTable (l : Layout) (t : PageTables) : PageTables × BitVec 64 :=
  ((List.finRange kPageDirectoryCount).foldl (setDirectory l) (setPml4 l t), l.pml4Table)

/-! ### What the loops write -/

theorem pdpIndex_injective : Function.Injective pdpIndex := fun _ _ h =>
  Fin.ext (Fin.mk.inj h)

/-- After some turns of the inner loop the turns' entries are written. -/
theorem foldl_setPage (i : Fin kPageDirectoryCount) (js : List (Fin 512)) (t : PageTables) :
    ∃ es : Fin 512 → BitVec 64, (∀ j ∈ js, es j = pageEntry i j) ∧
      js.foldl (setPage i) t =
        ⟨t.pml4Table, t.pdpTable, Function.update t.pageDirectory i es⟩ := by
  induction js using List.reverseRecOn with
  | nil => exact ⟨t.pageDirectory i, by simp, by simp⟩
  | append_singleton js j ih =>
    obtain ⟨es, hes, ht⟩ := ih
    refine ⟨Function.update es j (pageEntry i j), fun k hk => ?_, ?_⟩
    · rcases eq_or_ne k j with rfl | hne
      · rw [Function.update_self]
      · rw [Function.update_of_ne hne]
        exact hes k (by simpa [hne] using hk)
    · rw [List.foldl_append, ht]
      simp only [List.foldl_cons, List.foldl_nil, setPage, Function.update_idem,
        Function.update_self]

theorem setDirectory_eq (l : Layout) (t : PageTables) (i : Fin kPageDirectoryCount) :
    setDirectory l t i =
      ⟨t.pml4Table,
        Function.update t.pdpTable (pdpIndex i) (l.directory i ||| 0x003),
        Function.update t.pageDirectory i (pageEntry i)⟩ := by
  obtain ⟨es, hes, ht⟩ := foldl_setPage i (List.finRange 512)
    { t with pdpTable := Function.update t.pdpTable (pdpIndex i) (l.directory i ||| 0x003) }
  have heq : es = pageEntry i := funext fun j => hes j (List.mem_finRange j)
  rw [setDirectory, ht, heq]

/-- After some turns of the outer loop the turns' entries are written and the rest is as before. -/
theorem foldl_setDirectory (l : Layout) (is : List (Fin kPageDirectoryCount)) (t : PageTables) :
    (is.foldl (setDirectory l) t).pml4Table = t.pml4Table ∧
    (∀ i ∈ is, (is.foldl (setDirectory l) t).pdpTable (pdpIndex i) =
      l.directory i ||| 0x003) ∧
    (∀ k, (∀ i ∈ is, k ≠ pdpIndex i) →
      (is.foldl (setDirectory l) t).pdpTable k = t.pdpTable k) ∧
    ∀ i ∈ is, (is.foldl (setDirectory l) t).pageDirectory i = pageEntry i := by
  induction is using List.reverseRecOn with
  | nil => exact ⟨rfl, by simp, by simp, by simp⟩
  | append_singleton is i ih =>
    obtain ⟨h1, h2, h3, h4⟩ := ih
    simp only [List.foldl_append, List.foldl_cons, List.foldl_nil, setDirectory_eq]
    refine ⟨h1, fun k hk => ?_, fun k hk => ?_, fun k hk => ?_⟩
    · rcases eq_or_ne k i with rfl | hne
      · rw [Function.update_self]
      · rw [Function.update_of_ne fun h => hne (pdpIndex_injective h)]
        exact h2 k (by simpa [hne] using hk)
    · rw [Function.update_of_ne (hk i (by simp))]
      exact h3 k fun j hj => hk j (by simp [hj])
    · rcases eq_or_ne k i with rfl | hne
      · rw [Function.update_self]
      · rw [Function.update_of_ne hne]
        exact h4 k (by simpa [hne] using hk)

structure IdentityTables (l : Layout) (t : PageTables) : Prop where
  pml4_zero : t.pml4Table 0 = l.pdpTable ||| 0x003
  pml4_ne : ∀ k ≠ 0, t.pml4Table k = 0
  pdp_lt : ∀ i : Fin kPageDirectoryCount, t.pdpTable (pdpIndex i) = l.directory i ||| 0x003
  pdp_ge : ∀ k : Fin 512, kPageDirectoryCount ≤ k → t.pdpTable k = 0
  page : ∀ i j, t.pageDirectory i j = pageEntry i j

theorem setupIdentityPageTable_spec (l : Layout) :
    IdentityTables l (setupIdentityPageTable l .zero).1 := by
  obtain ⟨h1, h2, h3, h4⟩ :=
    foldl_setDirectory l (List.finRange kPageDirectoryCount) (setPml4 l .zero)
  have hall := List.mem_finRange (n := kPageDirectoryCount)
  rw [setupIdentityPageTable]
  generalize List.finRange kPageDirectoryCount = is at h1 h2 h3 h4 hall ⊢
  refine ⟨?_, fun k hk => ?_, fun i => h2 i (hall i), fun k hk => ?_, fun i j => ?_⟩
  · rw [h1]
    simp [setPml4]
  · rw [h1]
    simp [setPml4, hk, PageTables.zero]
  · refine h3 k ?_
    rintro i - rfl
    exact absurd i.isLt (Nat.not_lt.2 hk)
  · exact congrFun (h4 i (hall i)) j

/-! ### The tables in memory -/

/-- Physical memory by aligned quadwords: the three arrays, and `rest` elsewhere. -/
def Layout.memory (l : Layout) (t : PageTables) (rest : ℕ → BitVec 64) (a : ℕ) : BitVec 64 :=
  if l.pml4Table.toNat ≤ a ∧ a < l.pml4Table.toNat + 4096 then
    t.pml4Table (Fin.ofNat 512 ((a - l.pml4Table.toNat) / 8))
  else if l.pdpTable.toNat ≤ a ∧ a < l.pdpTable.toNat + 4096 then
    t.pdpTable (Fin.ofNat 512 ((a - l.pdpTable.toNat) / 8))
  else if l.pageDirectory.toNat ≤ a ∧
      a < l.pageDirectory.toNat + kPageDirectoryCount * 4096 then
    t.pageDirectory (Fin.ofNat kPageDirectoryCount ((a - l.pageDirectory.toNat) / 4096))
      (Fin.ofNat 512 ((a - l.pageDirectory.toNat) / 8))
  else rest a

variable {l : Layout} {t : PageTables} {rest : ℕ → BitVec 64}

theorem Layout.memory_pml4 (k : Fin 512) :
    l.memory t rest (l.pml4Table.toNat + 8 * k) = t.pml4Table k := by
  have hk := k.isLt
  have hi : (l.pml4Table.toNat + 8 * (k : ℕ) - l.pml4Table.toNat) / 8 = k := by omega
  rw [memory, if_pos ⟨by omega, by omega⟩, hi, Fin.ofNat_val_eq_self]

theorem Layout.memory_pdp (k : Fin 512) :
    l.memory t rest (l.pdpTable.toNat + 8 * k) = t.pdpTable k := by
  have hk := k.isLt
  have hi : (l.pdpTable.toNat + 8 * (k : ℕ) - l.pdpTable.toNat) / 8 = k := by omega
  have hapart := l.pml4_pdp
  rw [memory, if_neg (by omega), if_pos ⟨by omega, by omega⟩, hi, Fin.ofNat_val_eq_self]

theorem Layout.directory_toNat (i : Fin kPageDirectoryCount) :
    (l.directory i).toNat = l.pageDirectory.toNat + 4096 * i := by
  have hi := i.isLt
  have hle := l.pageDirectory_le
  have hcount : kPageDirectoryCount = 64 := rfl
  rw [directory, BitVec.toNat_add, BitVec.toNat_ofNat]
  omega

theorem Layout.memory_directory (i : Fin kPageDirectoryCount) (k : Fin 512) :
    l.memory t rest ((l.directory i).toNat + 8 * k) = t.pageDirectory i k := by
  have hi := i.isLt
  have hk := k.isLt
  have hcount : kPageDirectoryCount = 64 := rfl
  have h1 := l.pml4_pd
  have h2 := l.pdp_pd
  rw [directory_toNat, memory, if_neg (by omega), if_neg (by omega), if_pos ⟨by omega, by omega⟩]
  have hdir : Fin.ofNat kPageDirectoryCount
      ((l.pageDirectory.toNat + 4096 * (i : ℕ) + 8 * k - l.pageDirectory.toNat) / 4096) = i := by
    ext
    show (_ / 4096) % 64 = (i : ℕ)
    omega
  have hpage : Fin.ofNat 512
      ((l.pageDirectory.toNat + 4096 * (i : ℕ) + 8 * k - l.pageDirectory.toNat) / 8) = k := by
    ext
    show (_ / 8) % 512 = (k : ℕ)
    omega
  rw [hdir, hpage]

/-! ### The walk -/

theorem table_entry {a : BitVec 64} (ha : 2 ^ 12 ∣ a.toNat) (hlt : a.toNat < 2 ^ 52) :
    present (a ||| 0x003) = true ∧ large (a ||| 0x003) = false ∧ writable (a ||| 0x003) = true ∧
      base (a ||| 0x003) 12 = a.toNat :=
  ⟨getLsbD_or ha (by decide), getLsbD_or ha (by decide), getLsbD_or ha (by decide),
    base_or ha (by decide) hlt (by decide)⟩

theorem pageEntry_address (i : Fin kPageDirectoryCount) (j : Fin 512) :
    (BitVec.ofNat 64 i * kPageSize1G + BitVec.ofNat 64 j * kPageSize2M).toNat =
      2 ^ 21 * (512 * i + j) := by
  have hi := i.isLt
  have hj := j.isLt
  have hcount : kPageDirectoryCount = 64 := rfl
  have h1 : kPageSize1G.toNat = 2 ^ 30 := rfl
  have h2 : kPageSize2M.toNat = 2 ^ 21 := rfl
  rw [BitVec.toNat_add, BitVec.toNat_mul, BitVec.toNat_mul, BitVec.toNat_ofNat, BitVec.toNat_ofNat,
    h1, h2]
  omega

theorem pageEntry_spec (i : Fin kPageDirectoryCount) (j : Fin 512) :
    present (pageEntry i j) = true ∧ large (pageEntry i j) = true ∧
      writable (pageEntry i j) = true ∧ reservedClear (pageEntry i j) 21 = true ∧
      base (pageEntry i j) 21 = 2 ^ 21 * (512 * i + j) := by
  have hi := i.isLt
  have hj := j.isLt
  have hcount : kPageDirectoryCount = 64 := rfl
  have haddr := pageEntry_address i j
  have hdvd : 2 ^ 21 ∣ (BitVec.ofNat 64 i * kPageSize1G + BitVec.ofNat 64 j * kPageSize2M).toNat :=
    haddr ▸ Nat.dvd_mul_right _ _
  have hnat : (pageEntry i j).toNat = 2 ^ 21 * (512 * i + j) + 0x83 := by
    rw [pageEntry, toNat_or hdvd (by decide), haddr]
    rfl
  refine ⟨getLsbD_or hdvd (by decide), getLsbD_or hdvd (by decide), getLsbD_or hdvd (by decide),
    ?_, ?_⟩
  · rw [reservedClear, hnat]
    simp only [beq_iff_eq]
    omega
  · rw [pageEntry, base_or hdvd (by decide) (by omega) (by decide), haddr]

/-- The entries that a walk below `kPageDirectoryCount` GiB comes to, as `read` finds them. -/
structure LowTables (l : Layout) (read : ℕ → BitVec 64) : Prop where
  pml4 : read l.pml4Table.toNat = l.pdpTable ||| 0x003
  pdp : ∀ i : Fin kPageDirectoryCount, read (l.pdpTable.toNat + 8 * i) = l.directory i ||| 0x003
  page : ∀ (i : Fin kPageDirectoryCount) (j : Fin 512),
    read ((l.directory i).toNat + 8 * j) = pageEntry i j

namespace LowTables
variable {read : ℕ → BitVec 64} {va : BitVec 48}

theorem walk_pml4 (h : LowTables l read) (h3 : index va 3 = 0) :
    walk read l.pml4Table va = walkFrom read va 2 l.pdpTable.toNat true := by
  have h4le := l.pml4Table_le
  have h3le := l.pdpTable_le
  obtain ⟨hp, hl, hw, hb⟩ := table_entry l.pdpTable_dvd (by omega)
  have hread : read (l.pml4Table.toNat + 8 * index va 3) = l.pdpTable ||| 0x003 := by
    rw [h3]
    exact h.pml4
  rw [walk, base_of_dvd l.pml4Table_dvd (by omega), walkFrom_table hread hp hl, hb, hw]
  rfl

theorem walk_pdp (h : LowTables l read) (i : Fin kPageDirectoryCount) (h2 : index va 2 = i) :
    walkFrom read va 2 l.pdpTable.toNat true = walkFrom read va 1 (l.directory i).toNat true := by
  have hi := i.isLt
  have hle := l.pageDirectory_le
  have hcount : kPageDirectoryCount = 64 := rfl
  have hdir := Layout.directory_toNat (l := l) i
  have hdvd : 2 ^ 12 ∣ (l.directory i).toNat := by
    rw [hdir]
    exact Nat.dvd_add l.pageDirectory_dvd (Nat.dvd_mul_right _ _)
  obtain ⟨hp, hl, hw, hb⟩ := table_entry hdvd (by omega)
  have hread : read (l.pdpTable.toNat + 8 * index va 2) = l.directory i ||| 0x003 := by
    rw [h2]
    exact h.pdp i
  rw [walkFrom_table hread hp hl, hb, hw]
  rfl

theorem walk_pd (h : LowTables l read) (i : Fin kPageDirectoryCount) (j : Fin 512)
    (h1 : index va 1 = j) : walkFrom read va 1 (l.directory i).toNat true =
      .ok ⟨2 ^ 21 * (512 * i + j) + va.toNat % 2 ^ 21, true⟩ := by
  obtain ⟨hp, hl, hw, hr, hb⟩ := pageEntry_spec i j
  have hread : read ((l.directory i).toNat + 8 * index va 1) = pageEntry i j := by
    rw [h1]
    exact h.page i j
  rw [walkFrom_large hread hp hl (by decide) hr, leaf, hw, ← hb]
  rfl

theorem walk_of_lt (h : LowTables l read) (hva : va.toNat < kPageDirectoryCount * 2 ^ 30) :
    walk read l.pml4Table va = .ok ⟨va.toNat, true⟩ := by
  have hcount : kPageDirectoryCount = 64 := rfl
  have hi3 : index va 3 = 0 := by
    rw [index_three]
    omega
  have hi2 : index va 2 = va.toNat / 2 ^ 30 := by
    rw [index_two]
    omega
  have hi1 := index_one va
  rw [h.walk_pml4 hi3, h.walk_pdp ⟨va.toNat / 2 ^ 30, by omega⟩ hi2,
    h.walk_pd _ ⟨va.toNat / 2 ^ 21 % 512, by omega⟩ hi1]
  congr 2
  show 2 ^ 21 * (512 * (va.toNat / 2 ^ 30) + va.toNat / 2 ^ 21 % 512) + va.toNat % 2 ^ 21 = va.toNat
  omega

end LowTables

namespace IdentityTables
variable {va : BitVec 48}

theorem low (h : IdentityTables l t) : LowTables l (l.memory t rest) where
  pml4 := (Layout.memory_pml4 0).trans h.pml4_zero
  pdp i := (Layout.memory_pdp (pdpIndex i)).trans (h.pdp_lt i)
  page i j := (Layout.memory_directory i j).trans (h.page i j)

theorem walk_of_lt (h : IdentityTables l t) (hva : va.toNat < kPageDirectoryCount * 2 ^ 30) :
    walk (l.memory t rest) l.pml4Table va = .ok ⟨va.toNat, true⟩ := h.low.walk_of_lt hva

theorem walk_of_ge (h : IdentityTables l t) (hva : kPageDirectoryCount * 2 ^ 30 ≤ va.toNat) :
    walk (l.memory t rest) l.pml4Table va = .error .notPresent := by
  replace hva : 64 * 2 ^ 30 ≤ va.toNat := hva
  have hlt := va.isLt
  have hi3 := index_three va
  have hi2 := index_two va
  by_cases hk : index va 3 = 0
  · rw [h.low.walk_pml4 hk]
    refine walkFrom_notPresent (e := 0) ?_ rfl
    obtain ⟨k, hk2⟩ : ∃ k : Fin 512, index va 2 = k := ⟨⟨index va 2, by omega⟩, rfl⟩
    rw [hk2, Layout.memory_pdp]
    have hlow : va.toNat < 2 ^ 39 := by
      rw [hi3] at hk
      omega
    refine h.pdp_ge k ?_
    show 64 ≤ (k : ℕ)
    omega
  · have h4le := l.pml4Table_le
    rw [walk, base_of_dvd l.pml4Table_dvd (by omega)]
    refine walkFrom_notPresent (e := 0) ?_ rfl
    obtain ⟨k, hk3⟩ : ∃ k : Fin 512, index va 3 = k := ⟨⟨index va 3, by omega⟩, rfl⟩
    rw [hk3, Layout.memory_pml4]
    refine h.pml4_ne k fun h0 => hk ?_
    rw [hk3, h0]
    rfl

end IdentityTables

/-- Out of zeroed tables `SetupIdentityPageTable` builds the identity map of the first
`kPageDirectoryCount` GiB: there the walk of every address ends in a present and writable leaf at the
address itself, and everywhere else at an entry that is not present. -/
theorem setupIdentityPageTable_walk (l : Layout) (rest : ℕ → BitVec 64) (va : BitVec 48) :
    walk (l.memory (setupIdentityPageTable l .zero).1 rest) (setupIdentityPageTable l .zero).2 va =
      if va.toNat < kPageDirectoryCount * 2 ^ 30 then .ok ⟨va.toNat, true⟩
      else .error .notPresent := by
  have htab := setupIdentityPageTable_spec l
  split
  · rename_i hlt
    exact htab.walk_of_lt hlt
  · rename_i hge
    exact htab.walk_of_ge (Nat.not_lt.1 hge)

end MosaOS
