import MosaOS.Font
import MosaOS.Lib.Scan
import Mathlib.Data.List.OfFn

/-!
# From the text of a font to its glyphs (`font/makefontfile.c`)

`makefontfile` reads `hankaku.txt` and writes the file that `AsciiFont` is built from. What the scanner
makes of its text depends on the text behind the next blanks only, so each lemma speaks about the text
after `skip`.
-/

namespace MosaOS
namespace MakeFont
open Scan WordArray

abbrev Text := List (BitVec 8)

/-- `isspace`. -/
def isSpace (c : BitVec 8) : Bool := c = 0x20 || (0x09 ≤ c && c ≤ 0x0d)

def isHexDigit (c : BitVec 8) : Bool :=
  (0x30 ≤ c && c ≤ 0x39) || (0x41 ≤ c && c ≤ 0x46) || (0x61 ≤ c && c ≤ 0x66)

def newline : BitVec 8 := 0x0a
def commercialAt : BitVec 8 := 0x40

/-- What `%x` takes away: blanks, a sign, `0x` and digits. -/
def scanHex (t : Text) : Text :=
  let t := skip isSpace t
  let t := match t with
    | c :: u => if c = 0x2b ∨ c = 0x2d then u else t
    | [] => t
  let t := match t with
    | c :: d :: u => if c = 0x30 ∧ (d = 0x78 ∨ d = 0x58) then u else t
    | _ => t
  t.dropWhile isHexDigit

/-- `fscanf(fp, "\n0x%x", &num)`. Nothing reads `num`. -/
def scanHeader (t : Text) : Text :=
  match skip isSpace t with
  | c :: u =>
    if c = 0x30 then
      match u with
      | d :: v => if d = 0x78 then scanHex v else u
      | [] => u
    else c :: u
  | [] => []

/-- `fscanf(fp, "%s\n", line)`: `none` where the word runs over `line`. At the end of the file `line`
keeps what it has. -/
def scanRow (line : Fin 9 → BitVec 8) (t : Text) : Option ((Fin 9 → BitVec 8) × Text) :=
  let t := skip isSpace t
  let w := word isSpace t
  if w = [] then some (line, t)
  else if 8 < w.length then none
  else some (fun k => if h : k < w.length then w[k] else if k = w.length then 0 else line k,
    skip isSpace (afterWord isSpace t))

/-- `line_num` is a `char`, the shifted comparison an `int`. -/
def lineNum (line : Fin 9 → BitVec 8) : BitVec 8 :=
  (List.range 8).foldl (fun n j =>
    n + BitVec.ofNat 8 ((if line ⟨7 - j, by omega⟩ = commercialAt then 1 else 0) <<< j)) 0

structure Scanner where
  font : Text
  line : Fin 9 → BitVec 8
  text : Text

def scanLine (st : Scanner) : Option Scanner := do
  let (line, text) ← scanRow st.line st.text
  some ⟨st.font ++ [lineNum line], line, text⟩

/-- One turn of the loop. The loop that skips the rest of the header line never ends at the end of the
file. -/
def scanBlock (st : Scanner) : Option Scanner := do
  let text ← skipPast newline (scanHeader st.text)
  (List.range 16).foldlM (fun st _ => scanLine st) { st with text }

/-- The bytes of `font`, which `main` writes out. -/
def makefontfile (t : Text) : Option Text := do
  let st ← (List.range 0x100).foldlM (fun st _ => scanBlock st) ⟨[], fun _ => 0, t⟩
  some st.font

/-! ### Texts -/

structure Block where
  digits : Text
  rest : Text
  row : Fin 16 → Fin 8 → BitVec 8
  after : Text
  digits_ne_nil : digits ≠ []
  digits_hex : ∀ c ∈ digits, isHexDigit c = true
  rest_line : newline ∉ rest
  row_nonblank : ∀ y x, isSpace (row y x) = false
  after_blank : ∀ c ∈ after, isSpace c = true

def rowText (r : Fin 8 → BitVec 8) : Text := List.ofFn r ++ [newline]

/-- A header line, sixteen rows and the blank lines after them. -/
def Block.text (b : Block) : Text :=
  0x30 :: 0x78 :: (b.digits ++ b.rest ++ newline :: ((List.ofFn b.row).flatMap rowText ++ b.after))

/-- Blank lines and 256 blocks. -/
structure FontText where
  before : Text
  block : Fin 256 → Block
  before_blank : ∀ c ∈ before, isSpace c = true

def FontText.text (f : FontText) : Text := f.before ++ (List.ofFn f.block).flatMap Block.text

/-! ### Rows -/

def packed (r : Fin 8 → BitVec 8) : BitVec 8 :=
  pack 8 (fun j => r ⟨7 - j, by omega⟩ = commercialAt) 8

variable {r : Fin 8 → BitVec 8} {line : Fin 9 → BitVec 8} {t u : Text}

theorem lineNum_eq (h : ∀ x : Fin 8, line x.castSucc = r x) : lineNum line = packed r := by
  unfold lineNum packed pack
  congr 1
  funext n j
  have hj : line ⟨7 - j, by omega⟩ = r ⟨7 - j, by omega⟩ := h ⟨7 - j, by omega⟩
  rw [hj]
  by_cases hat : r ⟨7 - j, by omega⟩ = commercialAt
  · simp only [hat, if_true, decide_true]
    exact congrArg (n + ·) (BitVec.eq_of_toNat_eq (by simp))
  · simp only [hat, if_false, decide_false]
    exact congrArg (n + ·) (by simp)

theorem skip_rowText (h : ∀ x, isSpace (r x) = false) : skip isSpace (rowText r ++ t) = rowText r ++ t := by
  rw [rowText, List.ofFn_succ, List.cons_append, List.cons_append]
  exact skip_cons (h 0)

theorem skip_newline : skip isSpace (newline :: t) = skip isSpace t :=
  skip_append (s := [newline]) (by decide)

theorem scanRow_row (line : Fin 9 → BitVec 8) (h : ∀ x, isSpace (r x) = false)
    (hu : skip isSpace u = rowText r ++ t) :
    ∃ line', scanRow line u = some (line', skip isSpace t) ∧ lineNum line' = packed r := by
  have hmem : ∀ c ∈ List.ofFn r, isSpace c = false := by
    intro c hc
    obtain ⟨x, rfl⟩ := (List.mem_ofFn' r c).1 hc
    exact h x
  have htext : rowText r ++ t = List.ofFn r ++ newline :: t := by
    rw [rowText, List.append_assoc, List.singleton_append]
  have hword : word isSpace (rowText r ++ t) = List.ofFn r := htext ▸ word_append hmem (word_stop rfl)
  have hafter : afterWord isSpace (rowText r ++ t) = newline :: t := htext ▸ afterWord_append hmem (word_stop rfl)
  unfold scanRow
  simp only [hu, hword, hafter, skip_newline, List.length_ofFn]
  rw [if_neg (by simp), if_neg (by decide)]
  refine ⟨_, rfl, lineNum_eq fun x => ?_⟩
  rw [dif_pos (show x.castSucc.val < 8 from x.isLt)]
  exact List.getElem_ofFn _

/-- The rows of a block, one turn of the loop each. -/
theorem scanLine_rows {rs : List (Fin 8 → BitVec 8)} (h : ∀ r ∈ rs, ∀ x, isSpace (r x) = false)
    (ks : List ℕ) (hks : ks.length = rs.length) (st : Scanner)
    (hst : skip isSpace st.text = skip isSpace (rs.flatMap rowText ++ t)) :
    ∃ st', ks.foldlM (fun st _ => scanLine st) st = some st' ∧
      st'.font = st.font ++ rs.map packed ∧ skip isSpace st'.text = skip isSpace t := by
  induction rs generalizing ks st with
  | nil =>
    obtain rfl := List.length_eq_zero_iff.1 hks
    exact ⟨st, rfl, by simp, hst⟩
  | cons r rs ih =>
    obtain ⟨k, ks, rfl⟩ := List.exists_cons_of_length_eq_add_one hks
    have hr := h r (List.mem_cons_self ..)
    rw [List.flatMap_cons, List.append_assoc, skip_rowText hr] at hst
    obtain ⟨line, hrow, hnum⟩ := scanRow_row st.line hr hst
    have hstep : scanLine st = some ⟨st.font ++ [packed r], line,
        skip isSpace (rs.flatMap rowText ++ t)⟩ := by
      simp only [scanLine, hrow, Option.bind_eq_bind, Option.bind_some, hnum]
    obtain ⟨st', hrun, hfont, htext⟩ := ih (fun r' hr' => h r' (List.mem_cons_of_mem r hr')) ks
      (Nat.succ.inj hks) ⟨_, line, _⟩ skip_skip
    refine ⟨st', ?_, ?_, htext⟩
    · rw [List.foldlM_cons, hstep]
      exact hrun
    · rw [hfont, List.map_cons, List.append_assoc, List.singleton_append]

/-! ### Headers -/

/-- A text that begins in a line, which `t` comes after. -/
def RestOfLine (t u : Text) : Prop := ∃ s, newline ∉ s ∧ u = s ++ newline :: t

theorem skipPast_iff : skipPast newline u = some t ↔ RestOfLine t u := skipPast_eq_some

theorem restOfLine_cons_iff {c : BitVec 8} (hc : c ≠ newline) : RestOfLine t (c :: u) ↔ RestOfLine t u := by
  rw [← skipPast_iff, ← skipPast_iff, skipPast, if_neg hc]

theorem restOfLine_dropWhile_iff {p : BitVec 8 → Bool} (hp : p newline = false) :
    RestOfLine t (u.dropWhile p) ↔ RestOfLine t u := by
  induction u with
  | nil => exact Iff.rfl
  | cons c u ih =>
    by_cases hc : p c = true
    · have hne : c ≠ newline := by
        rintro rfl
        rw [hp] at hc
        cases hc
      rw [List.dropWhile_cons_of_pos hc, ih, restOfLine_cons_iff hne]
    · rw [List.dropWhile_cons_of_neg hc]

theorem isSpace_of_isHexDigit {c : BitVec 8} (h : isHexDigit c = true) : isSpace c = false := by
  simp only [isHexDigit, Bool.or_eq_true, Bool.and_eq_true, decide_eq_true_eq] at h
  simp only [isSpace, Bool.or_eq_false_iff, Bool.and_eq_false_iff, decide_eq_false_iff_not]
  constructor
  · rintro rfl
    bv_omega
  · bv_omega

/-- What `%x` takes away after the blanks is of one line. -/
theorem scanHex_restOfLine_iff : RestOfLine t (scanHex u) ↔ RestOfLine t (skip isSpace u) := by
  unfold scanHex
  simp only
  rw [restOfLine_dropWhile_iff (by decide)]
  have hsign : ∀ v : Text, RestOfLine t (match v with
      | c :: u => if c = 0x2b ∨ c = 0x2d then u else v
      | [] => v) ↔ RestOfLine t v := by
    intro v
    cases v with
    | nil => exact Iff.rfl
    | cons c v =>
      simp only
      split
      · rename_i hc
        refine (restOfLine_cons_iff ?_).symm
        rcases hc with rfl | rfl
        · decide
        · decide
      · exact Iff.rfl
  have hzerox : ∀ v : Text, RestOfLine t (match v with
      | c :: d :: u => if c = 0x30 ∧ (d = 0x78 ∨ d = 0x58) then u else v
      | _ => v) ↔ RestOfLine t v := by
    intro v
    split
    · split
      · rename_i hc
        obtain ⟨rfl, hd⟩ := hc
        rw [restOfLine_cons_iff (by decide), restOfLine_cons_iff]
        rcases hd with rfl | rfl
        · decide
        · decide
      · exact Iff.rfl
    · exact Iff.rfl
  exact (hzerox _).trans (hsign _)

/-- The header of a block is read, and its line to the end. -/
theorem scanHeader_block (b : Block) (hu : skip isSpace u = b.text ++ t) :
    skipPast newline (scanHeader u) = some ((List.ofFn b.row).flatMap rowText ++ (b.after ++ t)) := by
  obtain ⟨d, ds, hds⟩ := List.exists_cons_of_ne_nil b.digits_ne_nil
  have hd : isHexDigit d = true := b.digits_hex d (hds ▸ List.mem_cons_self ..)
  refine skipPast_iff.2 ?_
  unfold scanHeader
  rw [hu, Block.text, List.cons_append, List.cons_append]
  simp only [if_true]
  have hline : RestOfLine ((List.ofFn b.row).flatMap rowText ++ (b.after ++ t))
      (d :: (ds ++ b.rest ++ newline :: ((List.ofFn b.row).flatMap rowText ++ (b.after ++ t)))) := by
    refine ⟨b.digits ++ b.rest, ?_, by rw [hds]; rfl⟩
    rw [List.mem_append]
    rintro (hn | hn)
    · exact absurd (b.digits_hex _ hn) (by decide)
    · exact b.rest_line hn
  have htext : b.digits ++ b.rest ++ newline :: ((List.ofFn b.row).flatMap rowText ++ b.after) ++ t =
      d :: (ds ++ b.rest ++ newline :: ((List.ofFn b.row).flatMap rowText ++ (b.after ++ t))) := by
    rw [hds]
    simp
  rw [htext, scanHex_restOfLine_iff, skip_cons (isSpace_of_isHexDigit hd)]
  exact hline

theorem scanBlock_block (b : Block) (st : Scanner)
    (hst : skip isSpace st.text = skip isSpace (b.text ++ t)) :
    ∃ st', scanBlock st = some st' ∧ st'.font = st.font ++ (List.ofFn b.row).map packed ∧
      skip isSpace st'.text = skip isSpace t := by
  have htext : skip isSpace (b.text ++ t) = b.text ++ t := skip_cons (by decide)
  have hrows : ∀ r ∈ List.ofFn b.row, ∀ x, isSpace (r x) = false := by
    intro r hr
    obtain ⟨y, rfl⟩ := (List.mem_ofFn' b.row r).1 hr
    exact b.row_nonblank y
  obtain ⟨st', hrun, hfont, hrest⟩ := scanLine_rows hrows (List.range 16) (by simp)
    { st with text := (List.ofFn b.row).flatMap rowText ++ (b.after ++ t) } rfl
  refine ⟨st', ?_, hfont, hrest.trans (skip_append b.after_blank)⟩
  simp only [scanBlock, scanHeader_block b (hst.trans htext), Option.bind_eq_bind, Option.bind_some]
  exact hrun

/-- The blocks, one turn of the outer loop each. -/
theorem scanBlock_blocks (bs : List Block) (ks : List ℕ) (hks : ks.length = bs.length) (st : Scanner)
    (hst : skip isSpace st.text = skip isSpace (bs.flatMap Block.text)) :
    ∃ st', ks.foldlM (fun st _ => scanBlock st) st = some st' ∧
      st'.font = st.font ++ bs.flatMap fun b => (List.ofFn b.row).map packed := by
  induction bs generalizing ks st with
  | nil =>
    obtain rfl := List.length_eq_zero_iff.1 hks
    exact ⟨st, rfl, by simp⟩
  | cons b bs ih =>
    obtain ⟨k, ks, rfl⟩ := List.exists_cons_of_length_eq_add_one hks
    obtain ⟨st₁, hstep, hfont₁, htext⟩ := scanBlock_block b st hst
    obtain ⟨st', hrun, hfont⟩ := ih ks (Nat.succ.inj hks) st₁ htext
    refine ⟨st', ?_, ?_⟩
    · rw [List.foldlM_cons, hstep]
      exact hrun
    · rw [hfont, hfont₁, List.flatMap_cons, List.append_assoc]

/-! ### The font file -/

/-- The byte `16 * c + y` is of row `y` of block `c`. -/
theorem row_of_index (f : FontText) (c : Fin 256) (y : Fin 16) (h : c.val * 16 + y.val < 256 * 16) :
    (f.block (Fin.divNat (⟨c * 16 + y, h⟩ : Fin (256 * 16)))).row
      (Fin.modNat (⟨c * 16 + y, h⟩ : Fin (256 * 16))) = (f.block c).row y := by
  have hindex : (⟨c * 16 + y, h⟩ : Fin (256 * 16)) = Fin.mkDivMod c y :=
    Fin.ext (congrArg (· + y.val) (Nat.mul_comm c.val 16))
  rw [hindex, Fin.divNat_mkDivMod, Fin.modNat_mkDivMod]

theorem makefontfile_text (f : FontText) : makefontfile f.text =
    some (List.ofFn fun k : Fin (256 * 16) => packed ((f.block k.divNat).row k.modNat)) := by
  obtain ⟨st, hrun, hfont⟩ := scanBlock_blocks (List.ofFn f.block) (List.range 0x100)
    (by rw [List.length_range, List.length_ofFn]) ⟨[], fun _ => 0, f.text⟩ (skip_append f.before_blank)
  have hout : makefontfile f.text = some st.font := by
    simp only [makefontfile, hrun, Option.bind_eq_bind, Option.bind_some]
  rw [hout, hfont, List.ofFn_mul, List.nil_append, List.flatMap_def, List.map_ofFn]
  refine congrArg (fun bs => some (List.flatten bs)) (congrArg List.ofFn (funext fun c => ?_))
  rw [Function.comp_apply, List.map_ofFn]
  refine congrArg List.ofFn (funext fun y => ?_)
  rw [row_of_index f c y, Function.comp_apply]

theorem dot_packed (x : Fin 8) :
    (((packed r >>> (7 - x.val)) &&& 1) == 1) = decide (r x = commercialAt) := by
  have hx := x.isLt
  rw [shift_and_one, packed, getLsbD_pack le_rfl, decide_eq_true (show 7 - x.val < 8 by omega),
    Bool.true_and]
  have hback : (⟨7 - (7 - x.val), by omega⟩ : Fin 8) = x := Fin.ext (by show 7 - (7 - x.val) = x; omega)
  rw [hback]

/-- A glyph of the kernel has a dot where its block of the text has an `@`. -/
theorem font_roundTrip (f : FontText) : ∃ file : Text, makefontfile f.text = some file ∧
    file.length = 4096 ∧ ∀ (m : Memory) (a : SizeT),
      (∀ k (h : k < file.length), m (a + BitVec.ofNat 64 k) = file[k]) →
        ∀ (c : ℕ) (hc : c < 128), ∃ glyph, (AsciiFont.ofFile m a).getFont c = some glyph ∧
          ∀ (x : Fin 8) (y : Fin 16), glyph.isDraw x y =
            some (decide ((f.block ⟨c, by omega⟩).row y x = commercialAt)) := by
  refine ⟨_, makefontfile_text f, List.length_ofFn, fun m a hfile c hc => ?_⟩
  refine ⟨_, (AsciiFont.ofFile m a).getFont_ofNat hc, fun x y => ?_⟩
  have hy := y.isLt
  have hbyte := hfile (c * 16 + y) (by rw [List.length_ofFn]; omega)
  rw [List.getElem_ofFn, row_of_index f ⟨c, by omega⟩ y] at hbyte
  have haddr : a + BitVec.ofNat 64 (8 * (c * 2)) + BitVec.ofNat 64 y =
      a + BitVec.ofNat 64 (c * 16 + y) := by
    rw [BitVec.add_assoc, ← BitVec.ofNat_add, show 8 * (c * 2) = c * 16 by omega]
  have hrow : ((AsciiFont.ofFile m a).font ⟨c, hc⟩).row y =
      packed ((f.block ⟨c, by omega⟩).row y) := by
    show m (a + BitVec.ofNat 64 (8 * (c * 2)) + BitVec.ofNat 64 y) = _
    rw [haddr, hbyte]
  rw [MonoAsciiFont.isDraw_of_lt _ x.isLt hy, MonoAsciiFont.dot, dif_pos hy, hrow, dot_packed]

end MakeFont
end MosaOS
