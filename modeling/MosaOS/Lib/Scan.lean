import Mathlib.Data.List.DropRight

/-!
# Scanning a text

A text is a list over any alphabet, of which some letters are blank. `skip` drops the blanks in front,
`word` is what comes before the next blank and `afterWord` what comes after the word; `skipPast stop`
drops everything up to the first `stop`, and is `none` where there is no `stop`. `readTo stop` is the loop
that reads a letter after the other up to a `stop`; `readTo_iff` says that it never ends where there is
none.
-/

namespace Scan
variable {α : Type} {blank : α → Bool} {stop : α} {s t : List α}

def skip (blank : α → Bool) (t : List α) : List α := t.dropWhile blank
def word (blank : α → Bool) (t : List α) : List α := t.takeWhile fun c => !blank c
def afterWord (blank : α → Bool) (t : List α) : List α := t.dropWhile fun c => !blank c

def skipPast [DecidableEq α] (stop : α) : List α → Option (List α)
  | [] => none
  | c :: t => if c = stop then some t else skipPast stop t

theorem skip_append (h : ∀ c ∈ s, blank c = true) : skip blank (s ++ t) = skip blank t :=
  List.dropWhile_append_of_pos h

theorem skip_cons {c : α} (h : blank c = false) : skip blank (c :: t) = c :: t := by
  simp [skip, h]

theorem skip_skip : skip blank (skip blank t) = skip blank t := List.dropWhile_idempotent blank t

/-- Blanks, and what comes after them. -/
theorem exists_skip (blank : α → Bool) (t : List α) :
    ∃ b, (∀ c ∈ b, blank c = true) ∧ t = b ++ skip blank t :=
  ⟨t.takeWhile blank, fun _ hc => List.mem_takeWhile_imp hc, List.takeWhile_append_dropWhile.symm⟩

theorem blank_of_skip_eq_cons {c : α} (h : skip blank s = c :: t) : blank c = false := by
  have hskip : skip blank (skip blank s) = skip blank s := skip_skip
  rw [h] at hskip
  cases hc : blank c with
  | false => rfl
  | true =>
    rw [skip, List.dropWhile_cons_of_pos hc] at hskip
    have hlen := (List.dropWhile_sublist blank (l := t)).length_le
    rw [hskip, List.length_cons] at hlen
    omega

theorem word_cons {c : α} (h : blank c = false) : word blank (c :: t) = c :: word blank t := by
  simp [word, h]

theorem word_append_afterWord : word blank t ++ afterWord blank t = t := List.takeWhile_append_dropWhile

theorem word_append (h : ∀ c ∈ s, blank c = false) (ht : word blank t = []) : word blank (s ++ t) = s := by
  unfold word at ht ⊢
  rw [List.takeWhile_append_of_pos fun c hc => by simp [h c hc], ht, List.append_nil]

theorem afterWord_append (h : ∀ c ∈ s, blank c = false) (ht : word blank t = []) :
    afterWord blank (s ++ t) = t := by
  have hsplit : word blank t ++ afterWord blank t = t := word_append_afterWord
  rw [ht, List.nil_append] at hsplit
  unfold afterWord at hsplit ⊢
  rw [List.dropWhile_append_of_pos fun c hc => by simp [h c hc]]
  exact hsplit

theorem skip_eq_nil_of_word (h : word blank (skip blank t) = []) : skip blank t = [] := by
  cases hskip : skip blank t with
  | nil => rfl
  | cons c u =>
    rw [hskip, word_cons (blank_of_skip_eq_cons hskip)] at h
    cases h

theorem word_afterWord : word blank (afterWord blank t) = [] := by
  unfold word afterWord
  induction t with
  | nil => rfl
  | cons c t ih =>
    by_cases hc : blank c = true
    · simp [hc]
    · simp [hc, ih]

theorem nonblank_of_mem_word {c : α} (h : c ∈ word blank t) : blank c = false := by
  have hc := List.mem_takeWhile_imp h
  rwa [Bool.not_eq_true'] at hc

theorem word_stop (h : blank stop = true) : word blank (stop :: t) = [] := by
  simp [word, h]

theorem skipPast_eq_some [DecidableEq α] {u : List α} :
    skipPast stop t = some u ↔ ∃ s, stop ∉ s ∧ t = s ++ stop :: u := by
  induction t with
  | nil =>
    constructor
    · intro h
      cases h
    · rintro ⟨s, -, h⟩
      exact absurd h.symm (List.append_ne_nil_of_right_ne_nil s (List.cons_ne_nil stop u))
  | cons c t ih =>
    by_cases hc : c = stop
    · rw [skipPast, if_pos hc]
      subst hc
      constructor
      · rintro h
        cases h
        exact ⟨[], List.not_mem_nil, rfl⟩
      · rintro ⟨s, hs, h⟩
        cases s with
        | nil => rw [(List.cons.inj h).2]
        | cons d s => exact absurd (List.mem_cons.2 (Or.inl (List.cons.inj h).1)) hs
    · rw [skipPast, if_neg hc, ih]
      constructor
      · rintro ⟨s, hs, rfl⟩
        refine ⟨c :: s, fun hmem => ?_, rfl⟩
        rcases List.mem_cons.1 hmem with rfl | hmem
        · exact hc rfl
        · exact hs hmem
      · rintro ⟨s, hs, h⟩
        cases s with
        | nil => exact absurd (List.cons.inj h).1 hc
        | cons d s => exact ⟨s, fun hmem => hs (List.mem_cons_of_mem d hmem), (List.cons.inj h).2⟩

/-! ### Reading to a letter -/

/-- `while (temp != stop) read(&temp)`, cut off after `n` tests of the condition. At the end of the text
a read leaves `temp` as it is. -/
def readTo [DecidableEq α] (stop : α) : ℕ → α → List α → Option (List α)
  | 0, _, _ => none
  | n + 1, temp, t =>
    if temp = stop then some t
    else match t with
      | [] => readTo stop n temp []
      | c :: u => readTo stop n c u

section
variable [DecidableEq α] {temp : α} {u : List α} {n : ℕ}

theorem readTo_of_eq (h : temp = stop) : readTo stop (n + 1) temp t = some t := if_pos h

theorem readTo_of_ne (h : temp ≠ stop) (c : α) : readTo stop (n + 1) temp (c :: t) = readTo stop n c t :=
  if_neg h

theorem readTo_nil (h : temp ≠ stop) (n : ℕ) : readTo stop n temp [] = none := by
  induction n with
  | zero => rfl
  | succ n ih => exact (if_neg h).trans ih

theorem readTo_succ (h : readTo stop n temp t = some u) : readTo stop (n + 1) temp t = some u := by
  induction n generalizing temp t with
  | zero => cases h
  | succ n ih =>
    by_cases hstop : temp = stop
    · rw [readTo_of_eq hstop] at h ⊢
      exact h
    · cases t with
      | nil =>
        rw [readTo_nil hstop] at h
        cases h
      | cons c t =>
        rw [readTo_of_ne hstop] at h ⊢
        exact ih h

/-- The loop is done after some tests exactly when there is a letter to stop at. -/
theorem readTo_iff (h : temp ≠ stop) : (∃ n, readTo stop n temp t = some u) ↔ skipPast stop t = some u := by
  induction t generalizing temp with
  | nil =>
    constructor
    · rintro ⟨n, hn⟩
      rw [readTo_nil h] at hn
      cases hn
    · intro hnone
      cases hnone
  | cons c t ih =>
    have hshift : (∃ n, readTo stop n temp (c :: t) = some u) ↔ ∃ n, readTo stop n c t = some u := by
      constructor
      · rintro ⟨n, hn⟩
        cases n with
        | zero => cases hn
        | succ n => exact ⟨n, (readTo_of_ne h c).symm.trans hn⟩
      · rintro ⟨n, hn⟩
        exact ⟨n + 1, (readTo_of_ne h c).trans hn⟩
    rw [hshift, skipPast]
    by_cases hc : c = stop
    · rw [if_pos hc]
      constructor
      · rintro ⟨n, hn⟩
        cases n with
        | zero => cases hn
        | succ n => exact (readTo_of_eq hc).symm.trans hn
      · intro hu
        exact ⟨1, (readTo_of_eq hc).trans hu⟩
    · rw [if_neg hc]
      exact ih hc

end

end Scan
