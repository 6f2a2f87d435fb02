import Mathlib.Algebra.GroupWithZero.Nat
import Mathlib.Tactic.Common

/-!
# Packed bit-fields

A packed record is a machine word cut into fields, which stand one after another from bit 0 on and
fill it. `Record.set` writes a field and cuts its value off to the width of the field. As no two fields
share a bit (`Record.apart`), a field reads what was written to it last, whatever is written to the
others.
-/

namespace BitFields
variable {w n n' k lo lo' : ℕ} {x : BitVec w} {v : BitVec n}

/-! ### Bits from a place on -/

/-- The bits of `v` in the place of those of `x` from bit `lo` on. -/
def put (x : BitVec w) (lo : ℕ) (v : BitVec n) : BitVec w :=
  x &&& ~~~((BitVec.allOnes n).setWidth w <<< lo) ||| v.setWidth w <<< lo

theorem getLsbD_put {i : ℕ} (hi : i < w) : (put x lo v).getLsbD i =
    if lo ≤ i ∧ i < lo + n then v.getLsbD (i - lo) else x.getLsbD i := by
  unfold put
  simp only [BitVec.getLsbD_or, BitVec.getLsbD_and, BitVec.getLsbD_not, BitVec.getLsbD_shiftLeft,
    BitVec.getLsbD_setWidth, BitVec.getLsbD_allOnes]
  by_cases hlo : lo ≤ i
  · have hnot := Nat.not_lt.2 hlo
    by_cases hn : i < lo + n
    · simp [hi, hlo, hn, hnot, show i - lo < w by omega, show i - lo < n by omega]
    · have hout : v.getLsbD (i - lo) = false := BitVec.getLsbD_of_ge _ _ (by omega)
      simp [hi, hlo, hn, hnot, hout, show ¬ i - lo < n by omega]
  · simp [hi, hlo, Nat.lt_of_not_le hlo]

theorem extract_put_self (h : lo + n ≤ w) : (put x lo v).extractLsb' lo n = v := by
  refine BitVec.eq_of_getLsbD_eq fun i hi => ?_
  rw [BitVec.getLsbD_extractLsb', getLsbD_put (by omega), if_pos ⟨Nat.le_add_right _ _, by omega⟩,
    Nat.add_sub_cancel_left, decide_eq_true hi, Bool.true_and]

theorem extract_put_of_apart (h : lo' + n' ≤ lo ∨ lo + n ≤ lo') (hw : lo' + n' ≤ w) :
    (put x lo v).extractLsb' lo' n' = x.extractLsb' lo' n' := by
  refine BitVec.eq_of_getLsbD_eq fun i hi => ?_
  rw [BitVec.getLsbD_extractLsb', BitVec.getLsbD_extractLsb', getLsbD_put (by omega), if_neg (by omega)]

/-- `(x >> lo) & mask` for a mask of `n` ones. -/
theorem setWidth_and_shift {mask : BitVec w} (hmask : mask = (BitVec.allOnes n).setWidth w) (lo : ℕ) :
    ((x >>> lo &&& mask).setWidth n : BitVec n) = x.extractLsb' lo n := by
  refine BitVec.eq_of_getLsbD_eq fun i hi => ?_
  rw [hmask, BitVec.getLsbD_setWidth, BitVec.getLsbD_and, BitVec.getLsbD_ushiftRight,
    BitVec.getLsbD_setWidth, BitVec.getLsbD_allOnes, BitVec.getLsbD_extractLsb']
  by_cases hw : i < w
  · simp [hi, hw]
  · have hout : x.getLsbD (lo + i) = false := BitVec.getLsbD_of_ge _ _ (by omega)
    simp [hout]

theorem setWidth_and {mask : BitVec w} (hmask : mask = (BitVec.allOnes n).setWidth w) :
    ((x &&& mask).setWidth n : BitVec n) = x.extractLsb' 0 n := by
  rw [← setWidth_and_shift hmask 0, BitVec.ushiftRight_zero]

/-! ### Places -/

section
variable {F : Type} [DecidableEq F] {width : F → ℕ} {f g : F} {fs : List F}

/-- The widths of the fields before `f`. -/
def offsetIn (width : F → ℕ) (f : F) : List F → ℕ
  | [] => 0
  | g :: fs => if g = f then 0 else width g + offsetIn width f fs

theorem offsetIn_add_width_le (hf : f ∈ fs) : offsetIn width f fs + width f ≤ (fs.map width).sum := by
  induction fs with
  | nil => cases hf
  | cons g fs ih =>
    rw [offsetIn, List.map_cons, List.sum_cons]
    split
    · rename_i hg
      rw [hg]
      omega
    · rename_i hg
      have hle := ih ((List.mem_cons.1 hf).resolve_left (Ne.symm hg))
      omega

theorem offsetIn_apart (hf : f ∈ fs) (hg : g ∈ fs) (hne : g ≠ f) :
    offsetIn width g fs + width g ≤ offsetIn width f fs ∨
      offsetIn width f fs + width f ≤ offsetIn width g fs := by
  induction fs with
  | nil => cases hf
  | cons d fs ih =>
    rw [offsetIn, offsetIn]
    rcases List.mem_cons.1 hf with rfl | hf
    · rw [if_pos rfl, if_neg hne.symm]
      omega
    · rcases List.mem_cons.1 hg with rfl | hg
      · rw [if_pos rfl, if_neg hne]
        omega
      · have htail := ih hf hg
        split
        · rename_i hd
          split
          · rename_i hd'
            exact absurd (hd.symm.trans hd') hne
          · rw [hd]
            omega
        · split
          · rename_i hd
            rw [hd]
            omega
          · omega

end

/-! ### Records -/

/-- A packed record of `w` bits: its fields in their order. -/
structure Record (F : Type) (w : ℕ) where
  fields : List F
  width : F → ℕ
  mem_fields : ∀ f, f ∈ fields
  sum_width : (fields.map width).sum = w

namespace Record
variable {F : Type} [DecidableEq F] (L : Record F w) {f g : F}

def offset (f : F) : ℕ := offsetIn L.width f L.fields

def get (x : BitVec w) (f : F) : BitVec (L.width f) := x.extractLsb' (L.offset f) (L.width f)

def set (x : BitVec w) (f : F) (v : BitVec k) : BitVec w := put x (L.offset f) (v.setWidth (L.width f))

theorem offset_add_width_le (f : F) : L.offset f + L.width f ≤ w := by
  calc L.offset f + L.width f ≤ (L.fields.map L.width).sum := offsetIn_add_width_le (L.mem_fields f)
    _ = w := L.sum_width

theorem apart (hne : g ≠ f) :
    L.offset g + L.width g ≤ L.offset f ∨ L.offset f + L.width f ≤ L.offset g :=
  offsetIn_apart (L.mem_fields f) (L.mem_fields g) hne

@[simp] theorem get_zero (f : F) : L.get 0 f = 0 := BitVec.extractLsb'_zero

@[simp] theorem get_set_self (x : BitVec w) (f : F) (v : BitVec k) :
    L.get (L.set x f v) f = v.setWidth (L.width f) :=
  extract_put_self (L.offset_add_width_le f)

theorem get_set_of_ne (x : BitVec w) (v : BitVec k) (hne : g ≠ f) : L.get (L.set x f v) g = L.get x g :=
  extract_put_of_apart (L.apart hne) (L.offset_add_width_le g)

end Record
end BitFields
