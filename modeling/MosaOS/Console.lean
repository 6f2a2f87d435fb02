import MosaOS.Screen
import Mathlib.Data.List.Induction

/-!
# Lines of text (`print` and `printd`, `kernel/kernel.cpp`)

Each of the two functions keeps a cursor of its own. `print` goes back to the top when its cursor has
passed the height of the screen, `printd` never. `cursor_onScreen_iff` says how many lines that leaves
on the screen.
-/

namespace MosaOS

/-- The static variables of `print` and `printd`. -/
structure Console where
  printY : BitVec 32
  printC : BitVec 8
  printdY : BitVec 32
deriving DecidableEq, Repr

namespace Console

def start : Console := ⟨0, 0, 0⟩

/-- `y` is an `int`, which is compared with the height as a `uint32_t`. -/
def afterPrint (gScreen : Screen) (con : Console) : Console :=
  let y := con.printY + 16
  if y > gScreen.yAxis then { con with printY := 0, printC := con.printC + 0x10 }
  else { con with printY := y }

def afterPrintd (con : Console) : Console := { con with printdY := con.printdY + 16 }

end Console

inductive ConsoleCall
  | print (line : List (BitVec 8))
  | printd (line : List (BitVec 8))
deriving DecidableEq, Repr

section
variable {σ : Type} (put : BitVec 32 → BitVec 32 → Color → σ → Option σ) (gFont : AsciiFont)
  (gScreen : Screen)

/-- `strlen(line) * 8`, cut off to a `uint32_t`. -/
def lineWidth (line : List (BitVec 8)) : BitVec 32 := BitVec.ofNat 32 (line.length * 8)

def print (line : List (BitVec 8)) (con : Console) (s : σ) : Option (Console × σ) := do
  let s ← Screen.writeSquare put 0 con.printY (lineWidth line) (con.printY + 16) ⟨0xff, 0xff, 0xff⟩ s
  let s ← Screen.printLine put gFont 0 con.printY ⟨con.printC, 0, 0⟩ line s
  some (con.afterPrint gScreen, s)

def printd (line : List (BitVec 8)) (con : Console) (s : σ) : Option (Console × σ) := do
  let s ← Screen.writeSquare put 0 con.printdY (lineWidth line) (con.printdY + 16) ⟨0, 0, 0⟩ s
  let s ← Screen.printLine put gFont 0 con.printdY ⟨0xff, 0, 0⟩ line s
  some (con.afterPrintd, s)

def ConsoleCall.run (st : Console × σ) : ConsoleCall → Option (Console × σ)
  | print line => MosaOS.print put gFont gScreen line st.1 st.2
  | printd line => MosaOS.printd put gFont line st.1 st.2

end

namespace ConsoleCall

def line : ConsoleCall → List (BitVec 8)
  | print line => line
  | printd line => line

def isPrint : ConsoleCall → Bool
  | print _ => true
  | printd _ => false

/-- The static variables after a call, whatever it draws. -/
def after (gScreen : Screen) (con : Console) : ConsoleCall → Console
  | print _ => con.afterPrint gScreen
  | printd _ => con.afterPrintd

/-- The cursor that a call starts from. -/
def cursor (con : Console) : ConsoleCall → BitVec 32
  | print _ => con.printY
  | printd _ => con.printdY

end ConsoleCall

/-- The static variables after some calls. -/
def consoleAfter (gScreen : Screen) (calls : List ConsoleCall) : Console :=
  calls.foldl (ConsoleCall.after gScreen) Console.start

/-- The sixteen rows from `y` on are rows of the screen. -/
def RowsOnScreen (gScreen : Screen) (y : BitVec 32) : Prop :=
  0 ≤ y.toInt ∧ y.toInt + 16 ≤ (gScreen.yAxis.toNat : ℤ)

variable {σ : Type} {put : BitVec 32 → BitVec 32 → Color → σ → Option σ} {gFont : AsciiFont}
  {gScreen : Screen} {calls : List ConsoleCall}

theorem consoleAfter_snoc (call : ConsoleCall) :
    consoleAfter gScreen (calls ++ [call]) = call.after gScreen (consoleAfter gScreen calls) := by
  rw [consoleAfter, List.foldl_append]
  rfl

theorem fst_of_draw {x : Option σ} {f : σ → Option σ} {con : Console} {st : Console × σ}
    (h : (x.bind fun s => (f s).bind fun s => some (con, s)) = some st) : st.1 = con := by
  obtain ⟨s₁, -, h⟩ := Option.bind_eq_some_iff.1 h
  obtain ⟨s₂, -, h⟩ := Option.bind_eq_some_iff.1 h
  cases h
  rfl

theorem run_after {call : ConsoleCall} {st st' : Console × σ}
    (h : call.run put gFont gScreen st = some st') : st'.1 = call.after gScreen st.1 := by
  cases call with
  | print line => exact fst_of_draw h
  | printd line => exact fst_of_draw h

/-- The static variables after a run do not depend on what it drew. -/
theorem run_consoleAfter {s : σ} {st' : Console × σ}
    (h : calls.foldlM (fun st call => call.run put gFont gScreen st) (Console.start, s) = some st') :
    st'.1 = consoleAfter gScreen calls := by
  induction calls using List.reverseRecOn generalizing st' with
  | nil => cases h; rfl
  | append_singleton calls call ih =>
    obtain ⟨st, hrun, hlast⟩ := Run.append_eq_some.1 h
    obtain ⟨st₁, hstep, hnil⟩ := Run.cons_eq_some.1 hlast
    cases hnil
    rw [run_after hstep, ih hrun, consoleAfter_snoc]

theorem cursor_dvd (gScreen : Screen) (calls : List ConsoleCall) (call : ConsoleCall) :
    16 ∣ (call.cursor (consoleAfter gScreen calls)).toNat := by
  have hstep : ∀ y : BitVec 32, 16 ∣ y.toNat → 16 ∣ (y + 16).toNat := by
    intro y hy
    rw [BitVec.toNat_add, show (16 : BitVec 32).toNat = 16 from rfl]
    omega
  have hboth : 16 ∣ (consoleAfter gScreen calls).printY.toNat ∧
      16 ∣ (consoleAfter gScreen calls).printdY.toNat := by
    induction calls using List.reverseRecOn with
    | nil => exact ⟨Nat.dvd_zero 16, Nat.dvd_zero 16⟩
    | append_singleton calls call ih =>
      rw [consoleAfter_snoc]
      cases call with
      | print line =>
        unfold ConsoleCall.after Console.afterPrint
        simp only
        split
        · exact ⟨Nat.dvd_zero 16, ih.2⟩
        · exact ⟨hstep _ ih.1, ih.2⟩
      | printd line => exact ⟨ih.1, hstep _ ih.2⟩
  cases call with
  | print line => exact hboth.1
  | printd line => exact hboth.2

theorem lineWidth_ne_allOnes (line : List (BitVec 8)) : lineWidth line ≠ BitVec.allOnes 32 := by
  intro hmax
  have := congrArg BitVec.toNat hmax
  rw [lineWidth, BitVec.toNat_ofNat, BitVec.toNat_allOnes] at this
  omega

/-- A line of ASCII text is drawn, and the call returns. -/
theorem drawLine_total (hput : ∀ x y c s, ∃ s', put x y c s = some s') {y : BitVec 32}
    (hy : 16 ∣ y.toNat) {line : List (BitVec 8)} (hline : ∀ c ∈ line, c.toNat < 128) (c c' : Color)
    (con : Console) (s : σ) : ∃ s',
      ((Screen.writeSquare put 0 y (lineWidth line) (y + 16) c s).bind fun s =>
        (Screen.printLine put gFont 0 y c' line s).bind fun s => some (con, s)) = some (con, s') := by
  have hrun : ∀ (ps : List Pixel) s, ∃ s',
      ps.foldlM (fun s (p : Pixel) => put p.x p.y p.color s) s = some s' :=
    Run.returns fun s (p : Pixel) => hput p.x p.y p.color s
  have hsquare : (DrawCall.writeSquare 0 y (lineWidth line) (y + 16) c).Returns := by
    refine fun _ => ⟨lineWidth_ne_allOnes line, fun _ hmax => ?_⟩
    have := congrArg BitVec.toNat hmax
    rw [BitVec.toNat_add, BitVec.toNat_allOnes, show (16 : BitVec 32).toNat = 16 from rfl] at this
    omega
  have htext : (DrawCall.printLine 0 y c' line).Returns := DrawCall.printLine_returns hline
  obtain ⟨s₁, hs₁⟩ := hrun (squarePixels 0 y (lineWidth line) (y + 16) c) s
  obtain ⟨s₂, hs₂⟩ := hrun (linePixels gFont 0 y c' line) s₁
  exact ⟨s₂, Option.bind_eq_some_iff.2 ⟨s₁, (DrawCall.writeSquare_eq hsquare).trans hs₁,
    Option.bind_eq_some_iff.2 ⟨s₂, (DrawCall.printLine_eq htext).trans hs₂, rfl⟩⟩⟩

/-- Calls for ASCII texts all return, and leave what `consoleAfter` says. -/
theorem run_total (hput : ∀ x y c s, ∃ s', put x y c s = some s')
    (htext : ∀ call ∈ calls, ∀ c ∈ call.line, c.toNat < 128) (s : σ) :
    ∃ s', calls.foldlM (fun st call => call.run put gFont gScreen st) (Console.start, s) =
      some (consoleAfter gScreen calls, s') := by
  induction calls using List.reverseRecOn with
  | nil => exact ⟨s, rfl⟩
  | append_singleton calls call ih =>
    obtain ⟨s', hrun⟩ := ih fun call hcall => htext call (List.mem_append_left _ hcall)
    have hline := htext call (List.mem_append_right _ (List.mem_singleton_self call))
    obtain ⟨s'', hcall⟩ : ∃ s'', call.run put gFont gScreen (consoleAfter gScreen calls, s') =
        some (consoleAfter gScreen (calls ++ [call]), s'') := by
      rw [consoleAfter_snoc]
      have hy := cursor_dvd gScreen calls call
      cases call with
      | print line => exact drawLine_total hput hy hline _ _ _ s'
      | printd line => exact drawLine_total hput hy hline _ _ _ s'
    exact ⟨s'', Run.append_eq_some.2 ⟨_, hrun, Run.cons_eq_some.2 ⟨_, hcall, rfl⟩⟩⟩

/-! ### Cursors -/

theorem ofNat_succ (n : ℕ) : BitVec.ofNat 32 (16 * (n + 1)) = BitVec.ofNat 32 (16 * n) + 16 := by
  rw [Nat.mul_succ, BitVec.ofNat_add]
  rfl

theorem printY_consoleAfter (h : calls.countP (·.isPrint) ≤ gScreen.yAxis.toNat / 16) :
    (consoleAfter gScreen calls).printY = BitVec.ofNat 32 (16 * calls.countP (·.isPrint)) := by
  have hheight := gScreen.yAxis.isLt
  induction calls using List.reverseRecOn with
  | nil => rfl
  | append_singleton calls call ih =>
    rw [List.countP_append, List.countP_singleton] at h ⊢
    rw [consoleAfter_snoc]
    cases call with
    | printd line => exact ih h
    | print line =>
      have hle : calls.countP (·.isPrint) + 1 ≤ gScreen.yAxis.toNat / 16 := h
      have hnext : (consoleAfter gScreen calls).printY + 16 =
          BitVec.ofNat 32 (16 * (calls.countP (·.isPrint) + 1)) := by
        rw [ih ((Nat.le_add_right _ _).trans hle), ofNat_succ]
      -- the cursor has not passed the height
      have hin : ¬ (consoleAfter gScreen calls).printY + 16 > gScreen.yAxis := by
        rw [hnext, gt_iff_lt, BitVec.lt_def, BitVec.toNat_ofNat]
        omega
      show (Console.afterPrint _ _).printY = _
      rw [Console.afterPrint]
      simp only [if_neg hin]
      exact hnext

theorem printdY_consoleAfter :
    (consoleAfter gScreen calls).printdY = BitVec.ofNat 32 (16 * calls.countP (!·.isPrint)) := by
  induction calls using List.reverseRecOn with
  | nil => rfl
  | append_singleton calls call ih =>
    rw [consoleAfter_snoc, List.countP_append, List.countP_singleton]
    cases call with
    | print line =>
      show (Console.afterPrint _ _).printdY = _
      rw [Console.afterPrint]
      split
      · exact ih
      · exact ih
    | printd line => exact (congrArg (· + 16) ih).trans (ofNat_succ _).symm

theorem rowsOnScreen_ofNat {n : ℕ} (hn : n ≤ 2 ^ 27) :
    RowsOnScreen gScreen (BitVec.ofNat 32 (16 * n)) ↔ n < gScreen.yAxis.toNat / 16 ∧ n < 2 ^ 27 := by
  have hheight := gScreen.yAxis.isLt
  have hnat : (BitVec.ofNat 32 (16 * n)).toNat = 16 * n := Nat.mod_eq_of_lt (by omega)
  unfold RowsOnScreen
  rw [BitVec.toInt_eq_toNat_cond, hnat]
  split
  · omega
  · omega

theorem exists_split {α : Type} {p : α → Bool} {l : List α} {k : ℕ} (h : k < l.countP p) :
    ∃ before x after, l = before ++ x :: after ∧ p x = true ∧ before.countP p = k := by
  induction l generalizing k with
  | nil => exact absurd h (Nat.not_lt_zero k)
  | cons x l ih =>
    by_cases hx : p x = true
    · rw [List.countP_cons_of_pos hx] at h
      cases k with
      | zero => exact ⟨[], x, l, rfl, hx, rfl⟩
      | succ k =>
        obtain ⟨before, y, after, rfl, hy, hk⟩ := ih (Nat.succ_lt_succ_iff.1 h)
        exact ⟨x :: before, y, after, rfl, hy, by rw [List.countP_cons_of_pos hx, hk]⟩
    · rw [List.countP_cons_of_neg hx] at h
      obtain ⟨before, y, after, rfl, hy, hk⟩ := ih h
      exact ⟨x :: before, y, after, rfl, hy, by rw [List.countP_cons_of_neg hx, hk]⟩

/-- One of the two functions: its cursor is 16 times the number of its calls as long as these fit. -/
theorem rows_iff (gScreen : Screen) (calls : List ConsoleCall) (p : ConsoleCall → Bool)
    (y : List ConsoleCall → BitVec 32)
    (hy : ∀ before, before.countP p ≤ min (gScreen.yAxis.toNat / 16) (2 ^ 27) →
      y before = BitVec.ofNat 32 (16 * before.countP p)) :
    (∀ before call after, calls = before ++ call :: after → p call = true →
        RowsOnScreen gScreen (y before)) ↔
      calls.countP p ≤ min (gScreen.yAxis.toNat / 16) (2 ^ 27) := by
  constructor
  · intro hall
    by_contra hmany
    obtain ⟨before, call, after, hcalls, hcall, hcount⟩ := exists_split (Nat.not_le.1 hmany)
    have hrows := hall before call after hcalls hcall
    rw [hy before hcount.le, hcount, rowsOnScreen_ofNat (Nat.min_le_right _ _)] at hrows
    omega
  · rintro hfew before call after rfl hcall
    rw [List.countP_append, List.countP_cons_of_pos hcall] at hfew
    rw [hy before (by omega), rowsOnScreen_ofNat (by omega)]
    omega

/-- Every line of a run is on the screen exactly when each of the two functions is called at most as
often as lines fit, and its cursor stays an `int`. -/
theorem cursor_onScreen_iff (gScreen : Screen) (calls : List ConsoleCall) :
    (∀ before call after, calls = before ++ call :: after →
        RowsOnScreen gScreen (call.cursor (consoleAfter gScreen before))) ↔
      calls.countP (·.isPrint) ≤ min (gScreen.yAxis.toNat / 16) (2 ^ 27) ∧
      calls.countP (!·.isPrint) ≤ min (gScreen.yAxis.toNat / 16) (2 ^ 27) := by
  have hprint := rows_iff gScreen calls (fun call => call.isPrint)
    (fun before => (consoleAfter gScreen before).printY)
    fun before h => printY_consoleAfter (h.trans (Nat.min_le_left _ _))
  have hprintd := rows_iff gScreen calls (fun call => !call.isPrint)
    (fun before => (consoleAfter gScreen before).printdY) fun before _ => printdY_consoleAfter
  rw [← hprint, ← hprintd]
  constructor
  · intro hall
    refine ⟨fun before call after hcalls hcall => ?_, fun before call after hcalls hcall => ?_⟩
    · have hrows := hall before call after hcalls
      cases call with
      | print line => exact hrows
      | printd line => cases hcall
    · have hrows := hall before call after hcalls
      cases call with
      | print line => cases hcall
      | printd line => exact hrows
  · rintro ⟨hprint, hprintd⟩ before call after hcalls
    cases call with
    | print line => exact hprint before _ after hcalls rfl
    | printd line => exact hprintd before _ after hcalls rfl

/-! ### A screen of 48 lines -/

def xgaScreen : Screen := ⟨0x80000000, 3145728, 1024, 768, 1024, none⟩

/-- The 49th line begins at the height of the screen, which the cursor has not passed. -/
theorem print_leaves_screen : 16 ≤ xgaScreen.yAxis.toNat ∧
    ¬ RowsOnScreen xgaScreen
      ((ConsoleCall.print [0x41]).cursor (consoleAfter xgaScreen (List.replicate 48 (.print [0x41])))) := by
  refine ⟨by decide, fun hrows => ?_⟩
  have hcount : (List.replicate 48 (ConsoleCall.print [0x41])).countP (·.isPrint) = 48 :=
    List.countP_replicate.trans (if_pos rfl)
  have hle : (List.replicate 48 (ConsoleCall.print [0x41])).countP (·.isPrint) ≤
      xgaScreen.yAxis.toNat / 16 := hcount.trans_le (by decide)
  have hcursor := printY_consoleAfter hle
  rw [hcount] at hcursor
  rw [ConsoleCall.cursor, hcursor] at hrows
  exact absurd ((rowsOnScreen_ofNat (by decide)).1 hrows).1 (by decide)

end MosaOS
