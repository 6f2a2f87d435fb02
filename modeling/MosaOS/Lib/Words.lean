import Mathlib.Data.Nat.Init
import Mathlib.Logic.Function.Basic
import Mathlib.Algebra.Group.Nat.Defs

/-!
# Word arrays as sets of bits

`n` words of `w` bits are the bits `0, …, n * w - 1`: bit `i` is bit `i % w` of word `i / w`.
`testMask` is the test `x & (1 << b) != 0`; `bit_update_or_mask` and `bit_update_and_not_mask` are the
stores `a[i / w] |= 1 << (i % w)` and `a[i / w] &= ~(1 << (i % w))`, which change bit `i` and no other.
`pack` is the sum of `b << j` over the places `j`.
-/

abbrev WordArray (n w : ℕ) := Fin n → BitVec w

namespace WordArray
variable {n w : ℕ}

theorem testMask (x : BitVec w) (b : ℕ) : ((x &&& (1#w <<< b)) != 0#w) = x.getLsbD b := by
  rw [← BitVec.twoPow_eq, BitVec.and_twoPow]
  by_cases h : x.getLsbD b
  · have hb : b < w := BitVec.lt_of_getLsbD h
    have hne : BitVec.twoPow w b ≠ 0#w := fun h0 => by
      have := congrArg (BitVec.getLsbD · b) h0
      simp [hb] at this
    simp [h, hne]
  · simp [h]

/-- Bit `i` of the array, `false` past its end. -/
def bit (a : WordArray n w) (i : ℕ) : Bool :=
  if h : i / w < n then (a ⟨i / w, h⟩).getLsbD (i % w) else false

theorem bit_of_lt (a : WordArray n w) {i : ℕ} (h : i / w < n) :
    a.bit i = (a ⟨i / w, h⟩).getLsbD (i % w) := dif_pos h

theorem line_lt {i : ℕ} (h : i < n * w) : i / w < n :=
  Nat.div_lt_of_lt_mul (by rwa [Nat.mul_comm])

theorem eq_of_line_of_place {i j : ℕ} (hl : j / w = i / w) (hp : j % w = i % w) : j = i := by
  rw [← Nat.div_add_mod j w, ← Nat.div_add_mod i w, hl, hp]

theorem bit_update (a : WordArray n w) {i : ℕ} (h : i / w < n) (x : BitVec w) (j : ℕ) :
    bit (Function.update a ⟨i / w, h⟩ x) j =
      if j / w = i / w then x.getLsbD (j % w) else a.bit j := by
  unfold bit
  by_cases hj : j / w = i / w
  · simp [hj, h]
  · by_cases hn : j / w < n
    · have : (⟨j / w, hn⟩ : Fin n) ≠ ⟨i / w, h⟩ := fun he => hj (Fin.mk.inj he)
      simp [hj, hn]
    · simp [hj, hn]

theorem bit_update_or_mask (a : WordArray n w) (hw : 0 < w) {i : ℕ} (h : i / w < n) (j : ℕ) :
    bit (Function.update a ⟨i / w, h⟩ (a ⟨i / w, h⟩ ||| (1#w <<< (i % w)))) j =
      if j = i then true else a.bit j := by
  rw [bit_update, ← BitVec.twoPow_eq]
  by_cases hl : j / w = i / w
  · have hw' : i % w < w := Nat.mod_lt _ hw
    by_cases hj : j = i
    · subst hj; simp [hw']
    · have hp : i % w ≠ j % w := fun hp => hj (eq_of_line_of_place hl hp.symm)
      simp [hl, hj, hp, bit, h]
  · have hj : j ≠ i := fun hj => hl (by rw [hj])
    simp [hl, hj]

theorem bit_update_and_not_mask (a : WordArray n w) (hw : 0 < w) {i : ℕ} (h : i / w < n) (j : ℕ) :
    bit (Function.update a ⟨i / w, h⟩ (a ⟨i / w, h⟩ &&& ~~~(1#w <<< (i % w)))) j =
      if j = i then false else a.bit j := by
  rw [bit_update, ← BitVec.twoPow_eq]
  by_cases hl : j / w = i / w
  · have hw' : i % w < w := Nat.mod_lt _ hw
    have hw'' : j % w < w := Nat.mod_lt _ hw
    by_cases hj : j = i
    · subst hj; simp [hw']
    · have hp : j % w ≠ i % w := fun hp => hj (eq_of_line_of_place hl hp)
      simp [hl, hj, hp, hw'', bit, h]
  · have hj : j ≠ i := fun hj => hl (by rw [hj])
    simp [hl, hj]

theorem ext_bit {a b : WordArray n w} (h : ∀ i, i < n * w → a.bit i = b.bit i) : a = b := by
  funext k
  refine BitVec.eq_of_getLsbD_eq fun p hp => ?_
  have hk : (w * k.val + p) / w = k.val := by
    rw [Nat.mul_add_div (by omega), Nat.div_eq_of_lt hp, Nat.add_zero]
  have hm : (w * k.val + p) % w = p := by rw [Nat.mul_add_mod, Nat.mod_eq_of_lt hp]
  have hi : w * k.val + p < n * w := by
    calc w * k.val + p < w * (k.val + 1) := by rw [Nat.mul_succ]; omega
      _ ≤ w * n := Nat.mul_le_mul_left _ k.isLt
      _ = n * w := Nat.mul_comm _ _
  have hb := h _ hi
  simpa only [bit, hk, hm, k.isLt, dite_true, Fin.eta] using hb

/-! ### Words from bits -/

theorem shift_and_one (x : BitVec 8) (b : ℕ) : (((x >>> b) &&& 1) == 1) = x.getLsbD b := by
  have hbit : x.getLsbD b = (x >>> b).getLsbD 0 := by simp
  rw [hbit]
  show ((x >>> b &&& 1#8) == 1#8) = _
  rw [BitVec.and_one_eq_setWidth_ofBool_getLsbD]
  cases (x >>> b).getLsbD 0 with
  | false => rfl
  | true => rfl

/-- The word whose bits below `n` are `b`, added up bit by bit. -/
def pack (w : ℕ) (b : ℕ → Bool) (n : ℕ) : BitVec w :=
  (List.range n).foldl (fun v j => v + ((if b j then 1#w else 0#w) <<< j)) 0#w

theorem pack_succ {b : ℕ → Bool} :
    pack w b (n + 1) = pack w b n + ((if b n then 1#w else 0#w) <<< n) := by
  rw [pack, List.range_succ, List.foldl_append]
  rfl

theorem getLsbD_pack {b : ℕ → Bool} (hn : n ≤ w) (i : ℕ) :
    (pack w b n).getLsbD i = (decide (i < n) && b i) := by
  induction n generalizing i with
  | zero => simp [pack]
  | succ n ih =>
    have hbit : ∀ i, ((if b n then 1#w else 0#w) <<< n).getLsbD i = (decide (i = n) && b n) := by
      intro i
      cases b n with
      | false => simp
      | true =>
        rw [if_pos rfl, ← BitVec.twoPow_eq, BitVec.getLsbD_twoPow]
        grind
    have hdisjoint : pack w b n &&& ((if b n then 1#w else 0#w) <<< n) = 0#w := by
      refine BitVec.eq_of_getLsbD_eq fun i _ => ?_
      rw [BitVec.getLsbD_and, ih (by omega), hbit, BitVec.getLsbD_zero]
      grind
    rw [pack_succ, BitVec.add_eq_or_of_and_eq_zero _ _ hdisjoint, BitVec.getLsbD_or, ih (by omega), hbit]
    grind

end WordArray
