import MosaOS.Lib.Run
import MosaOS.MakeFont

/-!
# The loops of `makefontfile` (`font/makefontfile.c`)

The loop that skips the rest of a header line tests the last byte it has read, and a read at the end of
the file leaves that byte as it is. `mainLoop_ends_iff` says which texts the loop over the blocks comes
to an end for.
-/

namespace MosaOS
namespace MakeFont
open Scan

/-- A turn of the loop over the blocks whose header line is skipped with at most `n` tests. -/
def scanBlockIn (n : ℕ) (st : Scanner) : Option Scanner := do
  let text ← readTo newline n 0 (scanHeader st.text)
  (List.range 16).foldlM (fun st _ => scanLine st) { st with text }

def mainLoop (n : ℕ) (t : Text) : Option Scanner :=
  (List.range 0x100).foldlM (fun st _ => scanBlockIn n st) ⟨[], fun _ => 0, t⟩

/-! ### Texts that are read to the end -/

def Blank (t : Text) : Prop := ∀ c ∈ t, isSpace c = true

/-- `u` is left of a text behind a header line. A line with nothing but `0x` goes on in the next one. -/
inductive Header : Text → Text → Prop
  | line {b : Text} {c : BitVec 8} {s u : Text} (hb : Blank b) (hc : isSpace c = false)
      (hs : newline ∉ c :: s) (hx : ∀ b', Blank b' → c :: s ≠ 0x30 :: 0x78 :: b') :
      Header (b ++ (c :: s ++ newline :: u)) u
  | hex {b b' : Text} {c : BitVec 8} {s u : Text} (hb : Blank b) (hb' : Blank b')
      (hc : isSpace c = false) (hs : newline ∉ c :: s) :
      Header (b ++ 0x30 :: 0x78 :: (b' ++ (c :: s ++ newline :: u))) u

/-- `u` is left of a text behind a row: a word of at most eight letters, where there is one. -/
inductive Row : Text → Text → Prop
  | word {b w b' u : Text} (hb : Blank b) (hne : w ≠ []) (hw : ∀ c ∈ w, isSpace c = false)
      (hlen : w.length ≤ 8) (hb' : Blank b') (hend : b' = [] → u = []) (hu : skip isSpace u = u) :
      Row (b ++ (w ++ (b' ++ u))) u
  | none {b : Text} (hb : Blank b) : Row b []

/-- A header line and sixteen rows. -/
def IsBlock (t v : Text) : Prop := ∃ u, Header t u ∧ Run.Chain Row 16 u v

variable {t u v : Text} {st st' : Scanner} {n : ℕ}

/-! ### Headers -/

theorem RestOfLine.cons {c : BitVec 8} (hc : isSpace c = false) (h : RestOfLine u (c :: v)) :
    ∃ s, newline ∉ c :: s ∧ c :: v = c :: s ++ newline :: u := by
  obtain ⟨s, hs, heq⟩ := h
  cases s with
  | nil =>
    rw [(List.cons.inj heq).1] at hc
    cases hc
  | cons d s =>
    obtain ⟨rfl, rfl⟩ := List.cons.inj heq
    exact ⟨s, hs, rfl⟩

theorem not_restOfLine_nil : ¬ RestOfLine u [] := by
  rintro ⟨s, -, h⟩
  exact List.append_ne_nil_of_right_ne_nil s (List.cons_ne_nil newline u) h.symm

theorem header_of_restOfLine (h : RestOfLine u (scanHeader t)) : Header t u := by
  obtain ⟨b, hb, ht⟩ := exists_skip isSpace t
  rw [ht]
  unfold scanHeader at h
  cases hskip : skip isSpace t with
  | nil =>
    rw [hskip] at h
    exact absurd h not_restOfLine_nil
  | cons c v =>
    have hc := blank_of_skip_eq_cons hskip
    rw [hskip] at h
    simp only at h
    by_cases hzero : c = 0x30
    · rw [if_pos hzero] at h
      cases v with
      | nil => exact absurd h not_restOfLine_nil
      | cons d v =>
        simp only at h
        by_cases hx : d = 0x78
        · -- the blanks behind `0x` are skipped, and with them the end of the line
          rw [if_pos hx, scanHex_restOfLine_iff] at h
          obtain ⟨b', hb', hv⟩ := exists_skip isSpace v
          cases hskip' : skip isSpace v with
          | nil =>
            rw [hskip'] at h
            exact absurd h not_restOfLine_nil
          | cons e w =>
            have he := blank_of_skip_eq_cons hskip'
            rw [hskip'] at h hv
            obtain ⟨s, hs, heq⟩ := h.cons he
            rw [hzero, hx, hv, heq]
            exact Header.hex hb hb' he hs
        · rw [if_neg hx] at h
          obtain ⟨s, hs, heq⟩ := ((restOfLine_cons_iff (by rw [hzero]; decide)).2 h).cons hc
          rw [heq]
          refine Header.line hb hc hs fun b' _ hb' => hx ?_
          rw [hb'] at heq
          exact (List.cons.inj (List.cons.inj heq).2).1
    · rw [if_neg hzero] at h
      obtain ⟨s, hs, heq⟩ := h.cons hc
      rw [heq]
      exact Header.line hb hc hs fun b' _ hb' => hzero (List.cons.inj hb').1

theorem restOfLine_of_header (h : Header t u) : RestOfLine u (scanHeader t) := by
  cases h with
  | hex hb hb' hc hs =>
    unfold scanHeader
    rw [skip_append hb, skip_cons (by decide)]
    simp only [if_true]
    rw [scanHex_restOfLine_iff, skip_append hb', List.cons_append, skip_cons hc]
    exact ⟨_, hs, rfl⟩
  | @line b c s _ hb hc hs hx =>
    have hline : RestOfLine u (c :: (s ++ newline :: u)) := ⟨c :: s, hs, rfl⟩
    unfold scanHeader
    rw [skip_append hb, List.cons_append, skip_cons hc]
    simp only
    by_cases hzero : c = 0x30
    · rw [if_pos hzero]
      have htail := (restOfLine_cons_iff (by rw [hzero]; decide)).1 hline
      cases s with
      | nil => exact htail
      | cons d s =>
        simp only [List.cons_append] at htail ⊢
        by_cases hd : d = 0x78
        · rw [if_pos hd, scanHex_restOfLine_iff]
          obtain ⟨b', hb', hs'⟩ := exists_skip isSpace s
          cases hskip : skip isSpace s with
          | nil =>
            rw [hskip, List.append_nil] at hs'
            exact absurd (by rw [hzero, hd, hs']) (hx b' hb')
          | cons e w =>
            rw [hskip] at hs'
            rw [hs', List.append_assoc, skip_append hb', List.cons_append,
              skip_cons (blank_of_skip_eq_cons hskip)]
            refine ⟨e :: w, fun hmem => hs ?_, rfl⟩
            rw [hs']
            exact List.mem_cons_of_mem _ (List.mem_cons_of_mem _ (List.mem_append_right _ hmem))
        · rw [if_neg hd]
          exact htail
    · rw [if_neg hzero]
      exact hline

theorem header_iff : RestOfLine u (scanHeader t) ↔ Header t u :=
  ⟨header_of_restOfLine, restOfLine_of_header⟩

/-! ### Rows -/

theorem row_of_scanRow {line line' : Fin 9 → BitVec 8} (h : scanRow line t = some (line', u)) :
    Row t u := by
  obtain ⟨b, hb, ht⟩ := exists_skip isSpace t
  unfold scanRow at h
  simp only at h
  split at h
  · rename_i hword
    obtain ⟨-, rfl⟩ := Prod.mk.inj (Option.some.inj h)
    have hnil := skip_eq_nil_of_word hword
    rw [hnil, List.append_nil] at ht
    rw [hnil, ht]
    exact Row.none hb
  · rename_i hword
    split at h
    · cases h
    · rename_i hlen
      obtain ⟨-, rfl⟩ := Prod.mk.inj (Option.some.inj h)
      obtain ⟨b', hb', hafter⟩ := exists_skip isSpace (afterWord isSpace (skip isSpace t))
      have hsplit : t = b ++ (word isSpace (skip isSpace t) ++
          (b' ++ skip isSpace (afterWord isSpace (skip isSpace t)))) := by
        rw [← hafter, word_append_afterWord]
        exact ht
      have hrow : Row (b ++ (word isSpace (skip isSpace t) ++
          (b' ++ skip isSpace (afterWord isSpace (skip isSpace t)))))
          (skip isSpace (afterWord isSpace (skip isSpace t))) := by
        refine Row.word hb hword (fun c hc => nonblank_of_mem_word hc) (Nat.not_lt.1 hlen) hb'
          (fun hnil => skip_eq_nil_of_word ?_) skip_skip
        rw [hnil, List.nil_append] at hafter
        rw [← hafter]
        exact word_afterWord
      rwa [← hsplit] at hrow

theorem scanRow_of_row (h : Row t u) (line : Fin 9 → BitVec 8) :
    ∃ line', scanRow line t = some (line', u) := by
  cases h with
  | none hb =>
    have hskip : skip isSpace t = [] := List.dropWhile_eq_nil_iff.2 hb
    refine ⟨line, ?_⟩
    unfold scanRow
    simp only [hskip]
    rfl
  | @word b w b' _ hb hne hw hlen hb' hend hu =>
    have hrest : word isSpace (b' ++ u) = [] := by
      cases b' with
      | nil =>
        rw [hend rfl]
        rfl
      | cons c b' => exact word_stop (hb' c (List.mem_cons_self ..))
    have hskip : skip isSpace (b ++ (w ++ (b' ++ u))) = w ++ (b' ++ u) := by
      obtain ⟨c, w, rfl⟩ := List.exists_cons_of_ne_nil hne
      rw [skip_append hb, List.cons_append, skip_cons (hw c (List.mem_cons_self ..))]
    unfold scanRow
    simp only [hskip, word_append hw hrest, afterWord_append hw hrest, skip_append hb', hu]
    rw [if_neg hne, if_neg (Nat.not_lt.2 hlen)]
    exact ⟨_, rfl⟩

/-! ### Blocks -/

theorem scanLine_iff (st : Scanner) (u : Text) :
    (∃ st', scanLine st = some st' ∧ st'.text = u) ↔ Row st.text u := by
  constructor
  · rintro ⟨st', hline, rfl⟩
    obtain ⟨⟨line, text⟩, hrow, hst'⟩ := Option.bind_eq_some_iff.1 hline
    cases hst'
    exact row_of_scanRow hrow
  · intro hrow
    obtain ⟨line, hscan⟩ := scanRow_of_row hrow st.line
    exact ⟨_, Option.bind_eq_some_iff.2 ⟨_, hscan, rfl⟩, rfl⟩

theorem scanBlock_iff (st : Scanner) (v : Text) :
    (∃ st', scanBlock st = some st' ∧ st'.text = v) ↔ IsBlock st.text v := by
  have hrows : ∀ u, (∃ st', (List.range 16).foldlM (fun st _ => scanLine st) { st with text := u } =
      some st' ∧ st'.text = v) ↔ Run.Chain Row 16 u v := fun u => Run.chain_iff scanLine_iff
  constructor
  · rintro ⟨st', hblock, hv⟩
    obtain ⟨u, hskip, hlines⟩ := Option.bind_eq_some_iff.1 hblock
    exact ⟨u, header_iff.1 (skipPast_iff.1 hskip), (hrows u).1 ⟨st', hlines, hv⟩⟩
  · rintro ⟨u, hheader, hchain⟩
    obtain ⟨st', hlines, hv⟩ := (hrows u).2 hchain
    exact ⟨st', Option.bind_eq_some_iff.2 ⟨u, skipPast_iff.2 (header_iff.2 hheader), hlines⟩, hv⟩

/-! ### The loop that skips a line -/

theorem scanBlockIn_succ (h : scanBlockIn n st = some st') : scanBlockIn (n + 1) st = some st' := by
  obtain ⟨u, hskip, hlines⟩ := Option.bind_eq_some_iff.1 h
  exact Option.bind_eq_some_iff.2 ⟨u, readTo_succ hskip, hlines⟩

theorem scanBlock_eq_some : scanBlock st = some st' ↔ ∃ n, scanBlockIn n st = some st' := by
  have hread : ∀ u, (∃ n, readTo newline n 0 (scanHeader st.text) = some u) ↔
      skipPast newline (scanHeader st.text) = some u := fun u => readTo_iff (by decide)
  constructor
  · intro h
    obtain ⟨u, hskip, hlines⟩ := Option.bind_eq_some_iff.1 h
    obtain ⟨n, hn⟩ := (hread u).2 hskip
    exact ⟨n, Option.bind_eq_some_iff.2 ⟨u, hn, hlines⟩⟩
  · rintro ⟨n, h⟩
    obtain ⟨u, hskip, hlines⟩ := Option.bind_eq_some_iff.1 h
    exact Option.bind_eq_some_iff.2 ⟨u, (hread u).1 ⟨n, hskip⟩, hlines⟩

theorem blocks_eq_some : (List.range 0x100).foldlM (fun st _ => scanBlock st) ⟨[], fun _ => 0, t⟩ =
    some st' ↔ ∃ n, mainLoop n t = some st' :=
  Run.exists_fuel (fun _ _ _ _ h => scanBlockIn_succ h) fun _ _ _ => scanBlock_eq_some

/-- `makefontfile` returns when its loops end. -/
theorem makefontfile_eq_some {font : Text} :
    makefontfile t = some font ↔ ∃ n st, mainLoop n t = some st ∧ st.font = font := by
  constructor
  · intro h
    obtain ⟨st, hrun, hfont⟩ := Option.bind_eq_some_iff.1 h
    obtain ⟨n, hn⟩ := blocks_eq_some.1 hrun
    exact ⟨n, st, hn, Option.some.inj hfont⟩
  · rintro ⟨n, st, hn, rfl⟩
    exact Option.bind_eq_some_iff.2 ⟨st, blocks_eq_some.2 ⟨n, hn⟩, rfl⟩

/-- The loop over the blocks ends exactly for the texts of 256 header lines with sixteen rows each, where
only the rows of the last one may be missing. -/
theorem mainLoop_ends_iff (t : Text) :
    (∃ n st, mainLoop n t = some st) ↔ ∃ rest, Run.Chain IsBlock 256 t rest := by
  have hblocks : ∀ rest, (∃ st', (List.range 0x100).foldlM (fun st _ => scanBlock st)
      (⟨[], fun _ => 0, t⟩ : Scanner) = some st' ∧ st'.text = rest) ↔ Run.Chain IsBlock 256 t rest := by
    intro rest
    rw [Run.chain_iff scanBlock_iff, List.length_range]
  constructor
  · rintro ⟨n, st, hn⟩
    exact ⟨st.text, (hblocks st.text).1 ⟨st, blocks_eq_some.2 ⟨n, hn⟩, rfl⟩⟩
  · rintro ⟨rest, hchain⟩
    obtain ⟨st, hrun, -⟩ := (hblocks rest).2 hchain
    obtain ⟨n, hn⟩ := blocks_eq_some.1 hrun
    exact ⟨n, st, hn⟩

/-- An empty file: the first header line has no end. -/
theorem mainLoop_empty : ¬∃ n st, mainLoop n [] = some st := by
  rintro ⟨n, st, hrun⟩
  have hfirst : scanBlockIn n ⟨[], fun _ => 0, []⟩ = none := by
    rw [scanBlockIn, show scanHeader [] = [] from rfl, readTo_nil (by decide)]
    rfl
  rw [mainLoop, show 0x100 = 255 + 1 from rfl, List.range_succ_eq_map, List.foldlM_cons, hfirst] at hrun
  cases hrun

end MakeFont
end MosaOS
