import MosaOS.Lib.Run
import Mathlib.Data.Nat.Init
import Mathlib.Algebra.Group.Nat.Defs
import Mathlib.Data.List.Nodup

/-!
# Counting loops over machine words

`upTo hi body lo` is `for (i = lo; i <= hi; i++) body` with a `w`-bit counter: `none` where an iteration
is `none` or where the loop runs on forever. `turns` is the loop cut off after `n` tests of its
condition. The counter steps over its maximum, so that a loop up to the maximum never ends
(`turns_allOnes`); up to any other bound it is a run over the numbers from `lo` to `hi`. So `2 ^ w + 1`
tests are enough for every loop that ends (`upTo_eq_some`).
-/

namespace Loop
variable {w : ℕ} {σ : Type}

def turns (hi : BitVec w) (body : BitVec w → σ → Option σ) : ℕ → BitVec w → σ → Option σ
  | 0, _, _ => none
  | n + 1, i, s => if i ≤ hi then (body i s).bind (turns hi body n (i + 1)) else some s

def upTo (hi : BitVec w) (body : BitVec w → σ → Option σ) (i : BitVec w) (s : σ) : Option σ :=
  turns hi body (2 ^ w + 1) i s

variable {lo hi : BitVec w} {s r : σ} {body : BitVec w → σ → Option σ} {n : ℕ}

/-- A loop up to the maximum of its counter never ends. -/
theorem turns_allOnes (n : ℕ) (lo : BitVec w) (s : σ) :
    turns (BitVec.allOnes w) body n lo s = none := by
  induction n generalizing lo s with
  | zero => rfl
  | succ n ih =>
    have hle : lo ≤ BitVec.allOnes w := by
      have := lo.isLt
      rw [BitVec.le_def, BitVec.toNat_allOnes]
      omega
    rw [turns, if_pos hle]
    cases body lo s with
    | none => rfl
    | some s' => exact ih (lo + 1) s'

theorem turns_of_not_le (h : ¬ lo ≤ hi) : turns hi body (n + 1) lo s = some s := if_neg h

theorem turns_of_le (h : lo ≤ hi) :
    turns hi body (n + 1) lo s = (body lo s).bind (turns hi body n (lo + 1)) := if_pos h

theorem turns_succ (h : turns hi body n lo s = some r) : turns hi body (n + 1) lo s = some r := by
  induction n generalizing lo s with
  | zero => cases h
  | succ n ih =>
    by_cases hle : lo ≤ hi
    · rw [turns_of_le hle] at h ⊢
      obtain ⟨t, hbody, hrest⟩ := Option.bind_eq_some_iff.1 h
      exact Option.bind_eq_some_iff.2 ⟨t, hbody, ih hrest⟩
    · rw [turns_of_not_le hle] at h ⊢
      exact h

theorem turns_add (h : turns hi body n lo s = some r) (k : ℕ) :
    turns hi body (n + k) lo s = some r := by
  induction k with
  | zero => exact h
  | succ k ih => exact turns_succ ih

/-! ### Below the maximum -/

/-- The numbers a loop from `lo` to `hi` counts through. -/
def count (lo hi : BitVec w) : List (BitVec w) :=
  (List.range (hi.toNat + 1 - lo.toNat)).map fun k => lo + BitVec.ofNat w k

theorem count_of_not_le (h : ¬ lo ≤ hi) : count lo hi = [] := by
  rw [BitVec.le_def] at h
  rw [count, show hi.toNat + 1 - lo.toNat = 0 by omega]
  rfl

theorem toNat_add_one (h : lo ≤ hi) (hmax : hi ≠ BitVec.allOnes w) :
    (lo + 1).toNat = lo.toNat + 1 := by
  have hne : hi.toNat ≠ 2 ^ w - 1 := fun he => hmax <| BitVec.eq_of_toNat_eq <| by
    rw [he, BitVec.toNat_allOnes]
  have hlt := hi.isLt
  rw [BitVec.le_def] at h
  rw [BitVec.toNat_add]
  show (lo.toNat + (BitVec.ofNat w 1).toNat) % 2 ^ w = _
  rw [BitVec.toNat_ofNat, Nat.add_mod_mod]
  exact Nat.mod_eq_of_lt (by omega)

theorem count_of_le (h : lo ≤ hi) (hmax : hi ≠ BitVec.allOnes w) :
    count lo hi = lo :: count (lo + 1) hi := by
  rw [count, count, toNat_add_one h hmax]
  rw [BitVec.le_def] at h
  rw [show hi.toNat + 1 - lo.toNat = (hi.toNat + 1 - (lo.toNat + 1)) + 1 by omega,
    List.range_succ_eq_map, List.map_cons, List.map_map]
  congr 1
  · exact BitVec.add_zero lo
  · refine List.map_congr_left fun k _ => ?_
    show lo + BitVec.ofNat w (k + 1) = lo + BitVec.ofNat w 1 + BitVec.ofNat w k
    rw [BitVec.add_assoc, ← BitVec.ofNat_add, Nat.add_comm]

theorem mem_count {x : BitVec w} : x ∈ count lo hi ↔ lo ≤ x ∧ x ≤ hi := by
  have hhi := hi.isLt
  have hx := x.isLt
  rw [count, List.mem_map, BitVec.le_def, BitVec.le_def]
  constructor
  · rintro ⟨k, hk, rfl⟩
    rw [List.mem_range] at hk
    rw [BitVec.toNat_add, BitVec.toNat_ofNat, Nat.mod_eq_of_lt (show k < 2 ^ w by omega),
      Nat.mod_eq_of_lt (by omega)]
    omega
  · rintro ⟨hl, hr⟩
    refine ⟨x.toNat - lo.toNat, List.mem_range.2 (by omega), BitVec.eq_of_toNat_eq ?_⟩
    rw [BitVec.toNat_add, BitVec.toNat_ofNat, Nat.mod_eq_of_lt (show x.toNat - lo.toNat < 2 ^ w by omega),
      Nat.mod_eq_of_lt (by omega)]
    omega

theorem nodup_count (lo hi : BitVec w) : (count lo hi).Nodup := by
  have hhi := hi.isLt
  refine List.Nodup.map_on (fun k hk l hl heq => ?_) List.nodup_range
  rw [List.mem_range] at hk hl
  rw [BitVec.add_right_inj, ← BitVec.toNat_inj, BitVec.toNat_ofNat, BitVec.toNat_ofNat,
    Nat.mod_eq_of_lt (by omega), Nat.mod_eq_of_lt (by omega)] at heq
  exact heq

theorem turns_eq_run (hmax : lo ≤ hi → hi ≠ BitVec.allOnes w) (hn : hi.toNat + 1 - lo.toNat < n) :
    turns hi body n lo s = (count lo hi).foldlM (fun s i => body i s) s := by
  induction n generalizing lo s with
  | zero => exact absurd hn (Nat.not_lt_zero _)
  | succ n ih =>
    by_cases hle : lo ≤ hi
    · have hnext := toNat_add_one hle (hmax hle)
      rw [turns_of_le hle, count_of_le hle (hmax hle), List.foldlM_cons]
      rw [BitVec.le_def] at hle
      exact congrArg ((body lo s).bind ·) (funext fun t => ih (fun _ => hmax hle) (by omega))
    · rw [turns_of_not_le hle, count_of_not_le hle]
      rfl

/-! ### Loops that end -/

theorem upTo_eq_run (hmax : lo ≤ hi → hi ≠ BitVec.allOnes w) (s : σ) :
    upTo hi body lo s = (count lo hi).foldlM (fun s i => body i s) s := by
  have hhi := hi.isLt
  exact turns_eq_run hmax (by omega)

theorem upTo_eq_none (h : lo ≤ hi) (hbody : hi = BitVec.allOnes w ∨ body lo s = none) :
    upTo hi body lo s = none := by
  rcases hbody with rfl | hnone
  · exact turns_allOnes _ lo s
  · rw [upTo, turns_of_le h, hnone]
    rfl

/-- `upTo` is the loop without the cut. -/
theorem upTo_eq_some : upTo hi body lo s = some r ↔ ∃ n, turns hi body n lo s = some r := by
  constructor
  · exact fun h => ⟨_, h⟩
  · rintro ⟨n, h⟩
    by_cases hmax : lo ≤ hi → hi ≠ BitVec.allOnes w
    · -- with enough tests more, both are the same run
      have hhi := hi.isLt
      have hadd := turns_add h (2 ^ w + 1)
      rw [turns_eq_run hmax (by omega)] at hadd
      rw [upTo_eq_run hmax, hadd]
    · obtain ⟨hle, hall⟩ := Classical.not_imp.1 hmax
      rw [not_not.1 hall, turns_allOnes] at h
      cases h

end Loop
