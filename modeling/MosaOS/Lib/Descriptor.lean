import MosaOS.Lib.ByteMem

/-!
# x86-64 descriptors

What the processor reads in a descriptor: `readSegment` for a code or data segment, which takes 8 bytes,
and `readGate` for an interrupt gate, which takes 16, both as little-endian numbers. Base, limit and
offset are cut in pieces; the pieces of a number are the number again (`base_split`, `limit_split`,
`offset_split`). `handler` goes through both tables, from an interrupt vector to the code behind it.
-/

namespace Descriptor
open ByteMem

/-- A descriptor of a code or data segment, with its flags under the names of the manuals. -/
@[ext] structure Segment where
  base : BitVec 32
  limit : ℕ
  type : ℕ
  s : Bool
  dpl : ℕ
  p : Bool
  avl : Bool
  l : Bool
  d : Bool
  g : Bool
deriving DecidableEq, Repr

def readSegment (x : BitVec 64) : Segment where
  base := x.extractLsb' 56 8 ++ x.extractLsb' 32 8 ++ x.extractLsb' 16 16
  limit := (x.extractLsb' 48 4 ++ x.extractLsb' 0 16).toNat
  type := (x.extractLsb' 40 4).toNat
  s := x.getLsbD 44
  dpl := (x.extractLsb' 45 2).toNat
  p := x.getLsbD 47
  avl := x.getLsbD 52
  l := x.getLsbD 53
  d := x.getLsbD 54
  g := x.getLsbD 55

@[ext] structure Gate where
  offset : BitVec 64
  selector : BitVec 16
  ist : ℕ
  type : ℕ
  dpl : ℕ
  p : Bool
deriving DecidableEq, Repr

/-- `none` where a bit is set that is always 0 in a gate. The last four bytes are reserved. -/
def readGate (x : BitVec 128) : Option Gate :=
  if x.extractLsb' 35 5 = 0 ∧ x.extractLsb' 44 1 = 0 then
    some {
      offset := x.extractLsb' 64 32 ++ x.extractLsb' 48 16 ++ x.extractLsb' 0 16
      selector := x.extractLsb' 16 16
      ist := (x.extractLsb' 32 3).toNat
      type := (x.extractLsb' 40 4).toNat
      dpl := (x.extractLsb' 45 2).toNat
      p := x.getLsbD 47 }
  else none

/-! ### Numbers in pieces -/

theorem base_split (base : BitVec 32) :
    base.extractLsb' 24 8 ++ base.extractLsb' 16 8 ++ base.extractLsb' 0 16 = base := by
  rw [BitVec.extractLsb'_append_extractLsb'_eq_extractLsb' (by rfl)]
  exact BitVec.extractLsb'_append_extractLsb'

theorem limit_split (limit : BitVec 32) :
    (limit.extractLsb' 16 4 ++ limit.extractLsb' 0 16).toNat = limit.toNat % 2 ^ 20 := by
  rw [BitVec.extractLsb'_append_extractLsb'_eq_extractLsb' (by rfl), BitVec.extractLsb'_toNat]
  rfl

theorem offset_split (offset : BitVec 64) :
    offset.extractLsb' 32 32 ++ offset.extractLsb' 16 16 ++ offset.extractLsb' 0 16 = offset := by
  rw [BitVec.extractLsb'_append_extractLsb'_eq_extractLsb' (by rfl)]
  exact BitVec.extractLsb'_append_extractLsb'

/-! ### Tables -/

/-- What `lgdt` and `lidt` load. -/
structure TableRegister (w : ℕ) where
  limit : BitVec 16
  base : BitVec w
deriving DecidableEq, Repr

variable {w : ℕ}

/-- The segment that a selector names in the global table, none for the null selector. -/
def segmentAt (m : Mem w) (gdtr : TableRegister w) (selector : BitVec 16) : Option Segment :=
  let i := selector.toNat / 8
  if i ≠ 0 ∧ selector.getLsbD 2 = false ∧ 8 * i + 7 ≤ gdtr.limit.toNat then
    some (readSegment (BitVec.ofNat 64 (readNat m 8 (gdtr.base + BitVec.ofNat w (8 * i)))))
  else none

def gateAt (m : Mem w) (idtr : TableRegister w) (vector : BitVec 8) : Option Gate :=
  let i := vector.toNat
  if 16 * i + 15 ≤ idtr.limit.toNat then
    readGate (BitVec.ofNat 128 (readNat m 16 (idtr.base + BitVec.ofNat w (16 * i))))
  else none

/-- A segment depends on the bytes of the table only. -/
theorem segmentAt_congr {m m' : Mem 64} {gdtr : TableRegister 64}
    (h : Set.EqOn m' m (range gdtr.base (gdtr.limit.toNat + 1))) (selector : BitVec 16) :
    segmentAt m' gdtr selector = segmentAt m gdtr selector := by
  unfold segmentAt
  simp only
  split
  · rename_i hin
    have hlt := gdtr.limit.isLt
    have hsub : range (gdtr.base + BitVec.ofNat 64 (8 * (selector.toNat / 8))) 8 ⊆
        range gdtr.base (gdtr.limit.toNat + 1) := range_add_subset (by omega) (by omega)
    rw [readNat_congr (by decide) (h.mono hsub)]
  · rfl

/-! ### The accessed bit -/

/-- With a segment that it loads, the processor sets the lowest bit of the type in the descriptor. There is none
for a null selector. -/
def markAccessed (m : Mem w) (gdtr : TableRegister w) (selector : BitVec 16) : Mem w :=
  let a := gdtr.base + BitVec.ofNat w (8 * (selector.toNat / 8))
  if selector.toNat < 4 then m else writeNat m 8 a (readNat m 8 a ||| 2 ^ 40)

def Segment.accessed (g : Segment) : Segment := { g with type := g.type ||| 1 }

/-- No other field has a part of the bit. -/
theorem readSegment_or (x : BitVec 64) : readSegment (x ||| 0x10000000000) = (readSegment x).accessed := by
  simp only [readSegment, Segment.accessed, BitVec.extractLsb'_or, BitVec.getLsbD_or]
  simp

section
variable {m m' : Mem 64} {gdtr : TableRegister 64} {selector selector' : BitVec 16} {g : Segment} {S : Set (BitVec 64)}

theorem markAccessed_of_null (h : selector.toNat < 4) : markAccessed m gdtr selector = m := if_pos h

/-- A selector with a segment names eight bytes of the table. -/
theorem segmentAt_eq_some (h : segmentAt m gdtr selector = some g) : ¬ selector.toNat < 4 ∧
    8 * (selector.toNat / 8) + 8 ≤ gdtr.limit.toNat + 1 ∧
      g = readSegment (BitVec.ofNat 64 (readNat m 8 (gdtr.base + BitVec.ofNat 64 (8 * (selector.toNat / 8))))) := by
  simp only [segmentAt] at h
  split at h
  · rename_i hin
    cases h
    exact ⟨by omega, by omega, rfl⟩
  · cases h

theorem segmentAt_markAccessed (h : segmentAt m gdtr selector = some g) :
    segmentAt (markAccessed m gdtr selector) gdtr selector = some g.accessed := by
  obtain ⟨hnull, -, rfl⟩ := segmentAt_eq_some h
  simp only [segmentAt] at h ⊢
  split at h
  · rename_i hin
    rw [if_pos hin, markAccessed, if_neg hnull, readNat_writeNat (by decide), ← readSegment_or]
    refine congrArg (fun x => some (readSegment x)) (BitVec.eq_of_toNat_eq ?_)
    rw [BitVec.toNat_ofNat, BitVec.toNat_or, BitVec.toNat_ofNat, Nat.mod_mod_of_dvd _ (by decide),
      Nat.or_mod_two_pow]
    rfl
  · cases h

/-- The bit is in the descriptor of this selector. -/
theorem segmentAt_markAccessed_of_ne (h : selector.toNat / 8 ≠ selector'.toNat / 8) :
    segmentAt (markAccessed m gdtr selector) gdtr selector' = segmentAt m gdtr selector' := by
  have hlt := selector.isLt
  have hlt' := selector'.isLt
  rw [markAccessed]
  split
  · rfl
  · have hap : Disjoint (range (gdtr.base + BitVec.ofNat 64 (8 * (selector'.toNat / 8))) 8)
        (range (gdtr.base + BitVec.ofNat 64 (8 * (selector.toNat / 8))) 8) := by
      rcases Nat.lt_or_gt_of_ne h with hlow | hhigh
      · exact (disjoint_range_add (by omega) (by omega)).symm
      · exact disjoint_range_add (by omega) (by omega)
    simp only [segmentAt, readNat_writeNat_of_disjoint (by decide) hap]

/-- The selector is null, or the table has an entry for it. -/
def InTable (gdtr : TableRegister 64) (selector : BitVec 16) : Prop :=
  selector.toNat < 4 ∨ 8 * (selector.toNat / 8) + 8 ≤ gdtr.limit.toNat + 1

theorem inTable_of_segmentAt (h : segmentAt m gdtr selector = some g) : InTable gdtr selector :=
  Or.inr (segmentAt_eq_some h).2.1

theorem eqOn_markAccessed (m : Mem 64) (h : InTable gdtr selector) :
    Set.EqOn (markAccessed m gdtr selector) m (range gdtr.base (gdtr.limit.toNat + 1))ᶜ := by
  have hlt := gdtr.limit.isLt
  rw [markAccessed]
  split
  · exact fun _ _ => rfl
  · rename_i hnull
    have hend := h.resolve_left hnull
    exact (eqOn_writeNat ..).mono (Set.compl_subset_compl.2 (range_add_subset hend (by omega)))

/-- What the processor writes depends on the table only. -/
theorem markAccessed_congr (hm : Set.EqOn m' m S) (hsub : range gdtr.base (gdtr.limit.toNat + 1) ⊆ S)
    (h : InTable gdtr selector) :
    Set.EqOn (markAccessed m' gdtr selector) (markAccessed m gdtr selector) S := by
  have hlt := gdtr.limit.isLt
  by_cases hnull : selector.toNat < 4
  · rwa [markAccessed_of_null hnull, markAccessed_of_null hnull]
  · have hend := h.resolve_left hnull
    have hentry : range (gdtr.base + BitVec.ofNat 64 (8 * (selector.toNat / 8))) 8 ⊆ S :=
      (range_add_subset hend (by omega)).trans hsub
    rw [markAccessed, markAccessed, if_neg hnull, if_neg hnull, readNat_congr (by decide) (hm.mono hentry)]
    intro a ha
    simp only [writeNat]
    split
    · rfl
    · exact hm ha

theorem markAccessed_twice :
    markAccessed (markAccessed m gdtr selector) gdtr selector = markAccessed m gdtr selector := by
  by_cases hnull : selector.toNat < 4
  · rw [markAccessed_of_null hnull, markAccessed_of_null hnull]
  · have hlt : readNat m 8 (gdtr.base + BitVec.ofNat 64 (8 * (selector.toNat / 8))) ||| 2 ^ 40 < 256 ^ 8 :=
      Nat.or_lt_two_pow (n := 64) (readNat_lt ..) (by decide)
    simp only [markAccessed, if_neg hnull]
    rw [readNat_writeNat (by decide), Nat.mod_eq_of_lt hlt, Nat.or_assoc, Nat.or_self, writeNat_writeNat]

end

/-- The code that an interrupt goes to at privilege level 0: its gate is an interrupt or trap gate that is
present, and names a segment of 64-bit code of this level that is present. -/
def handler (m : Mem w) (gdtr idtr : TableRegister w) (vector : BitVec 8) : Option (BitVec 64) := do
  let g ← gateAt m idtr vector
  let s ← segmentAt m gdtr g.selector
  if g.p ∧ (g.type = 14 ∨ g.type = 15) ∧ s.p ∧ s.s ∧ 8 ≤ s.type ∧ s.dpl = 0 ∧ s.l ∧ ¬ s.d then
    some g.offset
  else none

end Descriptor
