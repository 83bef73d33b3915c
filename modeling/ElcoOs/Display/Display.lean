import ElcoOs.Kstring.Copy
import ElcoOs.Kstring.Search

/-!
# The text screen

`display.c`: 25 rows of 80 cells of two bytes, a cursor, and a scroll by one row
when the cursor has left the last one. What it is for is an endless sheet of paper with
coloured characters: the screen shows its last 25 rows.
-/

namespace ElcoOs.Display

open Kstring

def vgaWidth : Nat := 80
def vgaHeight : Nat := 25
def vgaMemoryVaddr : Nat := 0xC00B8000

/-- `enum arch_display_color` -/
inductive Color where
  | black | blue | green | cyan | red | magenta | brown | lightGrey
  | darkGrey | lightBlue | lightGreen | lightCyan | lightRed | lightMagenta | lightBrown | white
  deriving DecidableEq, Repr

def Color.value : Color → Nat
  | black => 0
  | blue => 1
  | green => 2
  | cyan => 3
  | red => 4
  | magenta => 5
  | brown => 6
  | lightGrey => 7
  | darkGrey => 8
  | lightBlue => 9
  | lightGreen => 10
  | lightCyan => 11
  | lightRed => 12
  | lightMagenta => 13
  | lightBrown => 14
  | white => 15

/-- The variables of `display.c`; `display_buffer` points to the memory of the screen. -/
structure State where
  row : Nat
  column : Nat
  color : Nat
  initialized : Bool
  mem : Memory

-- ---------------------------------------------------------------------------
-- display.c
-- ---------------------------------------------------------------------------

/-- A `uint16_t` is two bytes. -/
def store16 (m : Memory) (a v : Nat) : Memory := (m.store8 a (UInt8.ofNat v)).store8 (a + 1)
    (UInt8.ofNat (v / 256))

/-- `&display_buffer[index]` -/
def cellAddr (index : Nat) : Nat := vgaMemoryVaddr + 2 * index

def makeColor (fg bg : Color) : Nat := (fg.value ||| bg.value <<< 4) % 256

/-- `char` is signed, so a byte from 128 on fills the upper half of `c16`. -/
def makeVgaentry (c : UInt8) (color : Nat) : Nat :=
  let c16 := (charToInt c % 65536).toNat
  (c16 ||| color <<< 8) % 65536

def blank (color : Nat) : Nat := makeVgaentry 32 color

def displayPutentryat (s : State) (c : UInt8) (color x y : Nat) : State :=
  let index := y * vgaWidth + x
  { s with mem := store16 s.mem (cellAddr index) (makeVgaentry c color) }

/-- The loop over `x`: blanks in `n` cells from `index` on. -/
def fillCells (m : Memory) (index entry : Nat) : Nat → Memory
  | 0 => m
  | n + 1 => fillCells (store16 m (cellAddr index) entry) (index + 1) entry n

def archInitDisplay (s : State) : State :=
  let color := makeColor .lightGrey .black
  { s with
    row := 0
    column := 0
    color := color
    mem := (List.range vgaHeight).foldl (fun m y => fillCells m (y * vgaWidth)
      (blank color) vgaWidth) s.mem
    initialized := true }

def displayScroll (s : State) (force : Bool) : State :=
  if s.row < vgaHeight ∧ force = false then s
  else
    let row := if s.row < vgaHeight then Word32.sub s.row 1 else vgaHeight - 1
    let m := (kmemmove s.mem (cellAddr 0) (cellAddr vgaWidth) ((vgaHeight - 1) * vgaWidth * 2)).2
    { s with row := row, mem := fillCells m ((vgaHeight - 1) * vgaWidth) (blank s.color) vgaWidth }

/-- The end of `arch_display_putc`. -/
def wrapAndScroll (s : State) : State :=
  displayScroll (if s.column ≥ vgaWidth then { s with column := s.column - vgaWidth, row :=
  s.row + 1 } else s) false

def archDisplayPutc (s : State) (c : UInt8) : State :=
  if s.initialized = false then s
  else wrapAndScroll <|
    -- '\n'
    if c = 10 then { s with column := 0, row := s.row + 1 }
    -- '\r'
    else if c = 13 then { s with column := 0 }
    -- '\b'
    else if c = 8 then
      let s := { s with column := if s.column ≠ 0 then s.column - 1 else s.column }
      displayPutentryat s 32 s.color s.column s.row
    -- '\t'
    else if c = 9 then { s with column := (s.column >>> 2 + 1) <<< 2 }
    else
      let s := displayPutentryat s c s.color s.column s.row
      { s with column := s.column + 1 }

def archDisplaySetcolor (s : State) (fg bg : Color) : State := { s with color := makeColor fg bg }

-- ---------------------------------------------------------------------------
-- The sheet
-- ---------------------------------------------------------------------------

structure Cell where
  char : UInt8
  fg : Nat
  bg : Nat
  deriving DecidableEq, Repr

/-- What the hardware shows at a place of the screen: the code of the character is in the first
byte, the colours are in the two halves of the second. -/
def readCell (m : Memory) (index : Nat) : Cell :=
  ⟨m (cellAddr index), (m (cellAddr index + 1)).toNat % 16, (m (cellAddr index + 1)).toNat / 16⟩

/-- A sheet of paper with a cursor. The rows up to `last` have been seen. -/
structure Sheet where
  cell : Nat → Nat → Cell
  row : Nat
  column : Nat
  last : Nat
  fg : Color
  bg : Color

namespace Sheet

def new : Sheet :=
  ⟨fun _ _ => ⟨32, Color.lightGrey.value, Color.black.value⟩, 0, 0, 24, .lightGrey, .black⟩

/-- A character in the colours that are set. From 128 on a `char` is negative, and both colours are
lost: they are white. -/
def inked (s : Sheet) (c : UInt8) : Cell :=
  if c < 128 then ⟨c, s.fg.value, s.bg.value⟩ else ⟨c, Color.white.value, Color.white.value⟩

def write (s : Sheet) (c : UInt8) : Sheet :=
  { s with cell := fun r x => if r = s.row ∧ x = s.column then s.inked c else s.cell r x }

/-- To the start of the next row, a new one if there is none. -/
def feed (s : Sheet) : Sheet :=
  if s.row < s.last then { s with row := s.row + 1, column := 0 }
  else
    { s with
      cell := fun r x => if r = s.last + 1 then s.inked 32 else s.cell r x
      row := s.row + 1
      column := 0
      last := s.last + 1 }

def goto (s : Sheet) (column : Nat) : Sheet :=
  if column < 80 then { s with column := column } else s.feed

def putc (s : Sheet) (c : UInt8) : Sheet :=
  if c = 10 then s.feed
  else if c = 13 then s.goto 0
  else if c = 8 then (s.goto (s.column - 1)).write 32
  else if c = 9 then s.goto ((s.column / 4 + 1) * 4)
  else (s.write c).goto (s.column + 1)

end Sheet

inductive Call where
  | putc (c : UInt8)
  | setcolor (fg bg : Color)

def State.call (s : State) : Call → State
  | .putc c => archDisplayPutc s c
  | .setcolor fg bg => archDisplaySetcolor s fg bg

def Sheet.call (s : Sheet) : Call → Sheet
  | .putc c => s.putc c
  | .setcolor fg bg => { s with fg := fg, bg := bg }

/-- The screen is the part of the sheet from row `top` on. -/
structure Shows (d : State) (s : Sheet) (top : Nat) : Prop where
  ready : d.initialized = true
  row : d.row < 25
  column : d.column < 80
  color : d.color = makeColor s.fg s.bg
  at_row : s.row = top + d.row
  at_column : s.column = d.column
  last : s.last = top + 24
  cells : ∀ r < 25, ∀ x < 80, readCell d.mem (r * 80 + x) = s.cell (top + r) x

def Within (m m' : Memory) : Prop := ∀ a, a < vgaMemoryVaddr ∨ vgaMemoryVaddr + 4000 ≤ a →
    m' a = m a

section
variable {m m' : Memory} {a b v n i r c x entry top index color : Nat} {d : State} {s : Sheet}
  {ch : UInt8} {fg bg : Color}

-- ---------------------------------------------------------------------------
-- Cells
-- ---------------------------------------------------------------------------

theorem Color.value_lt (k : Color) : k.value < 16 := by
  cases k <;> decide

theorem makeColor_eq : makeColor fg bg = fg.value + 16 * bg.value := by
  have hf := fg.value_lt
  have hb := bg.value_lt
  rw [makeColor, Nat.or_comm, ← Nat.shiftLeft_add_eq_or_of_lt hf, Nat.shiftLeft_eq]
  omega

theorem makeVgaentry_bytes (hc : color < 256) : makeVgaentry ch color =
    ch.toNat + 256 * if ch < 128 then color else 255 := by
  have hch := ch.toNat_lt
  by_cases hlow : ch < 128
  · have hlt : ch.toNat < 128 := UInt8.lt_iff_toNat_lt.mp hlow
    have hc16 : (charToInt ch % 65536).toNat = ch.toNat := by
      rw [charToInt, if_pos hlt]
      omega
    rw [if_pos hlow, makeVgaentry, hc16, Nat.or_comm, ← Nat.shiftLeft_add_eq_or_of_lt hch,
      Nat.shiftLeft_eq]
    omega
  · have hge : ¬ch.toNat < 128 := fun hlt => hlow (UInt8.lt_iff_toNat_lt.mpr hlt)
    have hc16 : (charToInt ch % 65536).toNat = 255 <<< 8 + ch.toNat := by
      rw [charToInt, if_neg hge, Nat.shiftLeft_eq]
      omega
    have hall : 255 ||| color = 255 := (by decide +kernel : ∀ k < 256, 255 ||| k = 255) color hc
    rw [if_neg hlow, makeVgaentry, hc16, Nat.shiftLeft_add_eq_or_of_lt hch, Nat.or_right_comm,
      ← Nat.shiftLeft_or_distrib, hall, ← Nat.shiftLeft_add_eq_or_of_lt hch, Nat.shiftLeft_eq]
    omega

def entryCell (v : Nat) : Cell :=
  ⟨UInt8.ofNat v, (UInt8.ofNat (v / 256)).toNat % 16, (UInt8.ofNat (v / 256)).toNat / 16⟩

theorem entryCell_makeVgaentry (h : color = makeColor s.fg s.bg) :
    entryCell (makeVgaentry ch color) = s.inked ch := by
  have hf := s.fg.value_lt
  have hb := s.bg.value_lt
  have hch := ch.toNat_lt
  rw [makeColor_eq] at h
  obtain ⟨k, hk⟩ : ∃ k, (if ch < 128 then color else 255) = k := ⟨_, rfl⟩
  have hlt : k < 256 := by
    rw [← hk]
    split <;> omega
  have hchar : UInt8.ofNat (ch.toNat + 256 * k) = ch := by
    refine UInt8.toNat_inj.mp ?_
    rw [UInt8.toNat_ofNat']
    omega
  have hcolors : (UInt8.ofNat ((ch.toNat + 256 * k) / 256)).toNat = k := by
    rw [UInt8.toNat_ofNat']
    omega
  rw [makeVgaentry_bytes (by omega), hk, entryCell, hchar, hcolors, Sheet.inked, ← hk]
  split
  · rw [h, show (s.fg.value + 16 * s.bg.value) % 16 = s.fg.value by omega,
      show (s.fg.value + 16 * s.bg.value) / 16 = s.bg.value by omega]
  · rfl

theorem readCell_congr (h : ∀ y, cellAddr i ≤ y → y < cellAddr i + 2 → m' y = m y) :
    readCell m' i = readCell m i := by
  unfold readCell
  rw [h (cellAddr i) (by omega) (by omega), h (cellAddr i + 1) (by omega) (by omega)]

theorem store16_other (h : i < a ∨ a + 2 ≤ i) : store16 m a v i = m i := by
  unfold store16 Memory.store8
  rw [if_neg (by omega), if_neg (by omega)]

theorem readCell_store16 : readCell (store16 m (cellAddr index) v) i = if i = index then
    entryCell v else readCell m i := by
  split
  · subst i
    simp only [readCell, store16, Memory.store8,
      if_neg (show cellAddr index ≠ cellAddr index + 1 by omega), if_true,
      entryCell]
  · refine readCell_congr fun x hx hlt => store16_other ?_
    unfold cellAddr at *
    omega

theorem readCell_fillCells : readCell (fillCells m index entry n) i =
    if index ≤ i ∧ i < index + n then entryCell entry else readCell m i := by
  induction n generalizing m index with
  | zero => rw [fillCells, if_neg (by omega)]
  | succ n ih =>
    rw [fillCells, ih, readCell_store16]
    by_cases hi : i = index
    · rw [if_neg (by omega), if_pos hi, if_pos (by omega)]
    · by_cases hin : index + 1 ≤ i ∧ i < index + 1 + n
      · rw [if_pos hin, if_pos (by omega)]
      · rw [if_neg hin, if_neg hi, if_neg (by omega)]

theorem fillCells_within (h : index + n ≤ 2000) : Within m (fillCells m index entry n) := by
  induction n generalizing m index with
  | zero => exact fun _ _ => rfl
  | succ n ih =>
    intro a ha
    rw [fillCells, ih (by omega) a ha]
    refine store16_other ?_
    unfold cellAddr
    omega

theorem Within.trans {m₁ m₂ m₃ : Memory} (h : Within m₁ m₂) (h' : Within m₂ m₃) : Within m₁ m₃ :=
  fun a ha => (h' a ha).trans (h a ha)

-- ---------------------------------------------------------------------------
-- Steps
-- ---------------------------------------------------------------------------

theorem shows_init (d : State) : Shows (archInitDisplay d) .new 0 ∧
    Within d.mem (archInitDisplay d).mem := by
  obtain ⟨entry, hentry⟩ : ∃ entry, blank (makeColor .lightGrey .black) = entry := ⟨_, rfl⟩
  have hblank : entryCell entry = Sheet.new.inked 32 := by
    rw [← hentry]
    exact entryCell_makeVgaentry rfl
  have hfold : ∀ n ≤ 25, (∀ r < n, ∀ x < 80, readCell ((List.range n).foldl
      (fun m y => fillCells m (y * vgaWidth) entry vgaWidth) d.mem) (r * 80 + x) =
      entryCell entry) ∧
      Within d.mem ((List.range n).foldl (fun m y => fillCells m (y * vgaWidth) entry vgaWidth)
        d.mem) := by
    intro n hn
    induction n with
    | zero => exact ⟨fun r hr => absurd hr (Nat.not_lt_zero _), fun _ _ => rfl⟩
    | succ n ih =>
      obtain ⟨hcells, hwithin⟩ := ih (by omega)
      rw [List.range_succ, List.foldl_append, List.foldl_cons, List.foldl_nil, vgaWidth] at *
      refine ⟨fun r hr x hx => ?_, hwithin.trans (fillCells_within (by omega))⟩
      rw [readCell_fillCells]
      split
      · rfl
      · exact hcells r (by omega) x hx
  obtain ⟨hcells, hwithin⟩ := hfold 25 (Nat.le_refl 25)
  rw [← hentry] at hcells hwithin
  refine ⟨⟨rfl, Nat.zero_lt_succ 24, Nat.zero_lt_succ 79, rfl, rfl, rfl, rfl, fun r hr x hx => ?_⟩,
    hwithin⟩
  refine (hcells r hr x hx).trans ?_
  rw [hentry, hblank]
  rfl

theorem Shows.write (h : Shows d s top) (ch : UInt8) :
    Shows (displayPutentryat d ch d.color d.column d.row) (s.write ch) top ∧
      Within d.mem (displayPutentryat d ch d.color d.column d.row).mem := by
  have hrow := h.row
  have hcolumn := h.column
  refine ⟨⟨h.ready, h.row, h.column, h.color, h.at_row, h.at_column, h.last, fun r hr x hx => ?_⟩,
    fun a ha => ?_⟩
  · show readCell (store16 _ _ _) _ = if top + r = s.row ∧ x = s.column then _ else _
    rw [readCell_store16, entryCell_makeVgaentry h.color, vgaWidth, h.at_row, h.at_column]
    by_cases hat : r = d.row ∧ x = d.column
    · rw [if_pos (by omega), if_pos (by omega)]
    · rw [if_neg (by omega), if_neg (by omega)]
      exact h.cells r hr x hx
  · refine store16_other ?_
    unfold cellAddr vgaWidth
    omega

theorem Shows.stays (h : Shows d s top) : wrapAndScroll d = d := by
  unfold wrapAndScroll
  rw [if_neg (show ¬d.column ≥ vgaWidth from Nat.not_le.mpr h.column), displayScroll,
    if_pos ⟨h.row, rfl⟩]

theorem Shows.within (h : Shows d s top) (hc : c < 80) : Shows { d with column := c }
    (s.goto c) top := by
  rw [Sheet.goto, if_pos hc]
  exact ⟨h.ready, h.row, hc, h.color, h.at_row, rfl, h.last, h.cells⟩

theorem scroll_cell (hi : i < 1920) :
    readCell (kmemmove m (cellAddr 0) (cellAddr vgaWidth) ((vgaHeight - 1) * vgaWidth * 2)).2 i =
    readCell m (i + 80) := by
  have hto : cellAddr i = cellAddr 0 + 2 * i := by
    unfold cellAddr
    omega
  have hfrom : cellAddr (i + 80) = cellAddr vgaWidth + 2 * i := by
    unfold cellAddr vgaWidth
    omega
  have hsize : 2 * i + 2 ≤ (vgaHeight - 1) * vgaWidth * 2 := by
    rw [show (vgaHeight - 1) * vgaWidth * 2 = 3840 from rfl]
    omega
  have hmoved := kmemmove_moved m (cellAddr 0) (cellAddr vgaWidth) ((vgaHeight - 1) * vgaWidth * 2)
    (by decide) (by decide)
  unfold readCell
  rw [hto, hfrom, Nat.add_assoc, Nat.add_assoc, hmoved.inside (2 * i) (Nat.zero_le _) (by omega),
    hmoved.inside (2 * i + 1) (Nat.zero_le _) (by omega)]

theorem scroll_within :
    Within m (kmemmove m (cellAddr 0) (cellAddr vgaWidth) ((vgaHeight - 1) * vgaWidth * 2)).2 := by
  have hmoved := kmemmove_moved m (cellAddr 0) (cellAddr vgaWidth) ((vgaHeight - 1) * vgaWidth * 2)
    (by decide) (by decide)
  refine fun a ha => hmoved.outside a ?_
  rw [show (vgaHeight - 1) * vgaWidth * 2 = 3840 from rfl]
  unfold cellAddr
  omega

theorem Shows.feed (h : Shows d s top) :
    ∃ top', Shows (displayScroll { d with column := 0, row := d.row + 1 } false) s.feed top' ∧
      Within d.mem (displayScroll { d with column := 0, row := d.row + 1 } false).mem := by
  have hrow := h.row
  have hlast := h.last
  have hat := h.at_row
  by_cases hin : d.row + 1 < 25
  · refine ⟨top, ?_⟩
    rw [displayScroll, if_pos ⟨hin, rfl⟩, Sheet.feed, if_pos (by omega)]
    refine ⟨⟨h.ready, hin, Nat.zero_lt_succ 79, h.color, ?_, rfl, h.last, h.cells⟩, fun _ _ => rfl⟩
    show s.row + 1 = top + (d.row + 1)
    omega
  · refine ⟨top + 1, ?_⟩
    have hbottom : ¬d.row + 1 < vgaHeight := hin
    rw [Sheet.feed, if_neg (by omega), displayScroll, if_neg (fun hno => hin hno.1)]
    simp only [if_neg hbottom]
    refine ⟨⟨h.ready, Nat.lt_succ_self 24, Nat.zero_lt_succ 79, h.color, ?_, rfl, ?_,
      fun r hr x hx => ?_⟩,
      scroll_within.trans (fillCells_within (by decide))⟩
    · show s.row + 1 = top + 1 + 24
      omega
    · show s.last + 1 = top + 1 + 24
      omega
    · show readCell (fillCells _ 1920 (blank d.color) 80) _ = if top + 1 + r = s.last + 1 then
        s.inked 32 else _
      rw [readCell_fillCells, blank, entryCell_makeVgaentry h.color]
      by_cases hnew : r = 24
      · rw [if_pos (by omega), if_pos (by omega)]
      · have hcell := h.cells (r + 1) (by omega) x hx
        rw [show (r + 1) * 80 + x = r * 80 + x + 80 by omega] at hcell
        rw [if_neg (by omega), if_neg (by omega), scroll_cell (by omega), hcell,
          show top + (r + 1) = top + 1 + r by omega]

theorem Shows.goto (h : Shows d s top) (hc : c ≤ 80) :
    ∃ top', Shows (wrapAndScroll { d with column := c }) (s.goto c) top' ∧
    Within d.mem (wrapAndScroll { d with column := c }).mem := by
  rcases Nat.lt_or_eq_of_le hc with hlt | rfl
  · have hin := h.within hlt
    rw [hin.stays]
    exact ⟨top, hin, fun _ _ => rfl⟩
  · -- past the last column
    exact h.feed

theorem Shows.putc (h : Shows d s top) (ch : UInt8) : ∃ top', Shows (archDisplayPutc d ch)
    (s.putc ch) top' ∧
    Within d.mem (archDisplayPutc d ch).mem := by
  have hcolumn := h.column
  rw [archDisplayPutc, if_neg (by rw [h.ready]; decide), Sheet.putc]
  by_cases hfeed : ch = 10
  · rw [if_pos hfeed, if_pos hfeed]
    exact h.feed
  rw [if_neg hfeed, if_neg hfeed]
  by_cases hreturn : ch = 13
  · rw [if_pos hreturn, if_pos hreturn]
    exact h.goto (Nat.zero_le 80)
  rw [if_neg hreturn, if_neg hreturn]
  by_cases hback : ch = 8
  · rw [if_pos hback, if_pos hback]
    have hpred : (if d.column ≠ 0 then d.column - 1 else d.column) = d.column - 1 := by
      split <;> omega
    obtain ⟨hw, hmem⟩ := (h.within (show d.column - 1 < 80 by omega)).write 32
    refine ⟨top, ?_⟩
    simp only [hpred]
    rw [hw.stays, h.at_column]
    exact ⟨hw, hmem⟩
  rw [if_neg hback, if_neg hback]
  by_cases htab : ch = 9
  · rw [if_pos htab, if_pos htab]
    have hstop : (d.column >>> 2 + 1) <<< 2 = (d.column / 4 + 1) * 4 := by
      rw [Nat.shiftLeft_eq, Nat.shiftRight_eq_div_pow]
    rw [hstop, h.at_column]
    exact h.goto (by omega)
  · rw [if_neg htab, if_neg htab]
    obtain ⟨hw, hmem⟩ := h.write ch
    obtain ⟨top', hnext, hmem'⟩ := hw.goto (show d.column + 1 ≤ 80 by omega)
    rw [h.at_column]
    exact ⟨top', hnext, hmem.trans hmem'⟩

theorem Shows.call (h : Shows d s top) (call : Call) : ∃ top', Shows (d.call call)
    (s.call call) top' ∧
    Within d.mem (d.call call).mem := by
  cases call with
  | putc ch => exact h.putc ch
  | setcolor fg bg =>
    exact ⟨top, ⟨h.ready, h.row, h.column, rfl, h.at_row, h.at_column, h.last, h.cells⟩,
      fun _ _ => rfl⟩

theorem Shows.run (h : Shows d s top) (calls : List Call) :
    ∃ top', Shows (calls.foldl State.call d) (calls.foldl Sheet.call s) top' ∧
      Within d.mem (calls.foldl State.call d).mem := by
  induction calls generalizing d s top with
  | nil => exact ⟨top, h, fun _ _ => rfl⟩
  | cons call rest ih =>
    obtain ⟨_, hcall, hmem⟩ := h.call call
    obtain ⟨top', hrest, hmem'⟩ := ih hcall
    exact ⟨top', hrest, hmem.trans hmem'⟩

/-- Whatever is written, and in whatever colours, the screen shows 25 rows of the sheet with the
cursor on one of them, and nothing outside of the screen's 4000 bytes has changed. -/
theorem shows_sheet (d : State) (calls : List Call) :
    ∃ top, Shows (calls.foldl State.call (archInitDisplay d)) (calls.foldl Sheet.call .new) top ∧
      Within d.mem (calls.foldl State.call (archInitDisplay d)).mem := by
  obtain ⟨hinit, hmem⟩ := shows_init d
  obtain ⟨top, hrun, hmem'⟩ := hinit.run calls
  exact ⟨top, hrun, hmem.trans hmem'⟩

/-- The first row has left the screen, and a coloured letter stands in the last one. -/
theorem shows_sheet_scrolled :
    let d : State := ⟨0, 0, 0, false, fun _ => 0⟩
    let calls := .putc 65 :: List.replicate 25 (.putc 10) ++ [.setcolor .red .blue, .putc 66]
    ∃ top, 0 < top ∧ Shows (calls.foldl State.call (archInitDisplay d))
      (calls.foldl Sheet.call .new) top ∧
      readCell (calls.foldl State.call (archInitDisplay d)).mem (24 * 80) = ⟨66, 4, 1⟩ := by
  intro d calls
  obtain ⟨top, hshows, -⟩ := shows_sheet d calls
  have hlast : (calls.foldl Sheet.call .new).last = 25 := by
    decide +kernel
  have hcell : (calls.foldl Sheet.call .new).cell 25 0 = ⟨66, 4, 1⟩ := by
    decide +kernel
  generalize calls.foldl Sheet.call .new = sheet at hshows hlast hcell ⊢
  obtain rfl : top = 1 := by
    have hrows := hshows.last
    omega
  exact ⟨1, Nat.zero_lt_one, hshows, (hshows.cells 24 (by decide) 0 (by decide)).trans hcell⟩

end

end ElcoOs.Display
