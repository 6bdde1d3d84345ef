import Wasabi.Graphics.Painting
import Wasabi.Graphics.Font

/-!
# Text on the screen

A writer draws each character into the cell under its cursor and drops every
pixel that is not visible. What is lit is described by the text alone: the
character in a line and a column lights the stars of its glyph in the cell of
that line and column.
-/

set_option autoImplicit false

namespace Wasabi.Graphics.Text
open Wasabi.Rust Wasabi.Outcome Wasabi.TextLines
open Wasabi.Graphics.Pixels Wasabi.Graphics.Painting Wasabi.Graphics.Font

/-- `let _ = x;` for a `Result`. -/
def discard (x : Draw Unit) : Draw Unit := fun b => do
  let (_,b') ← x b
  pure (.ok (),b')

def drawStar (x y : ℤ) (color : UInt32) (dy : Fin 16) (dx : Fin 8) : Draw Unit := do
  let px ← observe (fun _ => addI64 x dx.val)
  let py ← observe (fun _ => addI64 y dy.val)
  discard (drawPoint color px py)

def drawRow (x y : ℤ) (color : UInt32) (row : Row) (dy : Fin 16) : Draw Unit :=
  (List.finRange 8).forM (fun dx => if row dx = '*' then drawStar x y color dy dx else pure ())

def drawFontFg (font : FontTable) (x y : ℤ) (color : UInt32) (c : Char) : Draw Unit :=
  match glyphOf font c with
  | some glyph => (List.finRange 16).forM (fun dy => drawRow x y color (glyph dy) dy)
  | none => pure ()

structure VramTextWriter where
  vram : Bitmap
  cursorX : ℤ
  cursorY : ℤ

def VramTextWriter.new (vram : Bitmap) : VramTextWriter := ⟨vram,0,0⟩

/-- One turn of the loop in `write_str`. -/
def writeChar (font : FontTable) (w : VramTextWriter) (c : Char) : Eval VramTextWriter :=
  if c = '\n' then do
    let y ← addI64 w.cursorY 16
    pure {w with cursorY := y, cursorX := 0}
  else do
    let (_,vram) ← drawFontFg font w.cursorX w.cursorY 0xffffff c w.vram
    let x ← addI64 w.cursorX 8
    pure {w with vram := vram, cursorX := x}

def writeStr (font : FontTable) (w : VramTextWriter) (s : List Char) : Eval VramTextWriter :=
  s.foldlM (writeChar font) w

def visible (b : Bitmap) : Set (ℤ × ℤ) := {p | InRange b p.1 p.2}

theorem visible_eq (b b' : Bitmap) (h : ∀ x y, InRange b' x y ↔ InRange b x y) :
    visible b' = visible b :=
  Set.ext (fun p => h p.1 p.2)

/-- The character has a glyph, and the glyph has a star there. -/
def Star (font : FontTable) (c : Char) (dy : Fin 16) (dx : Fin 8) : Prop :=
  c.toNat ≤ 0xFF ∧ font (UInt8.ofNat c.toNat) dy dx = '*'

/-- The stars of a glyph whose cell begins at `(x,y)`. -/
def stars (font : FontTable) (c : Char) (x y : ℤ) : Set (ℤ × ℤ) :=
  {p | ∃ (dy : Fin 16) (dx : Fin 8), Star font c dy dx ∧ p = (x+dx.val,y+dy.val)}

theorem discard_paints (color : UInt32) (b : Bitmap) (hb : BufferOk b) (x y : ℤ) :
    Paints color ({(x,y)} ∩ visible b) (discard (drawPoint color x y)) b := by
  by_cases hin : InRange b x y
  · obtain ⟨b',hrun,hp⟩ := drawPoint_paints color b hb x y hin
    refine ⟨b',?_,?_⟩
    · rw [discard, hrun]
      rfl
    · have hset : {(x,y)} ∩ visible b = {(x,y)} :=
        Set.inter_eq_left.mpr (fun p hpx => by rw [hpx]; exact hin)
      rwa [hset]
  · have hrun : drawPoint color x y b = .ok (.error "Out of Range",b) :=
      drawPoint_rejects color b x y hin
    refine ⟨b,?_,?_⟩
    · rw [discard, hrun]
      rfl
    · have hset : {(x,y)} ∩ visible b = ∅ := Set.singleton_inter_eq_empty.mpr hin
      rw [hset]
      exact painted_empty color b

section Glyph
variable (color : UInt32) (x y : ℤ) (hx : InI64 x ∧ InI64 (x+7)) (hy : InI64 y ∧ InI64 (y+15))
include hx hy

theorem drawStar_paints (b : Bitmap) (hb : BufferOk b) (dy : Fin 16) (dx : Fin 8) :
    Paints color ({(x+dx.val,y+dy.val)} ∩ visible b) (drawStar x y color dy dx) b := by
  obtain ⟨⟨h1,-⟩,-,h2⟩ := hx
  obtain ⟨⟨h3,-⟩,-,h4⟩ := hy
  obtain ⟨b',hrun,hp⟩ := discard_paints color b hb (x+dx.val) (y+dy.val)
  refine ⟨b',?_,hp⟩
  rw [drawStar, run_bind _ _ _ _ _ (observe_ok _ b _ (addI64_ok _ _ ⟨by omega,by omega⟩)),
    run_bind _ _ _ _ _ (observe_ok _ b _ (addI64_ok _ _ ⟨by omega,by omega⟩))]
  exact hrun

theorem drawRow_paints (b : Bitmap) (hb : BufferOk b) (row : Row) (dy : Fin 16) :
    Paints color ({p | ∃ dx : Fin 8, row dx = '*' ∧ p = (x+dx.val,y+dy.val)} ∩ visible b)
      (drawRow x y color row dy) b := by
  have hrow := forM_paints color
    (fun dx => if row dx = '*' then drawStar x y color dy dx else pure ())
    (fun dx => {p | row dx = '*' ∧ p = (x+(dx : Fin 8).val,y+dy.val)} ∩ visible b)
    (List.finRange 8) b hb (by
      intro dx _ b1 hb1 hr1
      by_cases hstar : row dx = '*'
      · simp only [hstar, if_true, true_and]
        rw [← visible_eq b b1 hr1]
        exact drawStar_paints color x y hx hy b1 hb1 dy dx
      · simp only [hstar, if_false, false_and, Set.ofPred_false, Set.empty_inter]
        exact ⟨b1,rfl,painted_empty color b1⟩)
  apply paints_congr color _ _ _ b hrow
  intro p
  constructor
  · rintro ⟨dx,-,⟨h1,h2⟩,h3⟩
    exact ⟨⟨dx,h1,h2⟩,h3⟩
  · rintro ⟨⟨dx,h1,h2⟩,h3⟩
    exact ⟨dx,List.mem_finRange dx,⟨h1,h2⟩,h3⟩

/-- A glyph lights the visible ones of its stars. -/
theorem drawFontFg_paints (font : FontTable) (c : Char) (b : Bitmap) (hb : BufferOk b) :
    Paints color (stars font c x y ∩ visible b) (drawFontFg font x y color c) b := by
  unfold drawFontFg glyphOf
  split_ifs with hcode
  · have hrows := forM_paints color
      (fun dy => drawRow x y color (font (UInt8.ofNat c.toNat) dy) dy)
      (fun dy => {p | ∃ dx : Fin 8, font (UInt8.ofNat c.toNat) dy dx = '*' ∧
        p = (x+dx.val,y+(dy : Fin 16).val)} ∩ visible b) (List.finRange 16) b hb (by
          intro dy _ b1 hb1 hr1
          rw [← visible_eq b b1 hr1]
          exact drawRow_paints color x y hx hy b1 hb1 _ dy)
    apply paints_congr color _ _ _ b hrows
    intro p
    constructor
    · rintro ⟨dy,-,⟨dx,h1,h2⟩,h3⟩
      exact ⟨⟨dy,dx,⟨hcode,h1⟩,h2⟩,h3⟩
    · rintro ⟨⟨dy,dx,⟨-,h1⟩,h2⟩,h3⟩
      exact ⟨dy,List.mem_finRange dy,⟨dx,h1,h2⟩,h3⟩
  · apply paints_congr color ∅ _ _ b ⟨b,rfl,painted_empty color b⟩
    simp [stars, Star, hcode]

end Glyph

/-- What a text lights. -/
def lit (font : FontTable) (s : List Char) : Set (ℤ × ℤ) :=
  {p | ∃ (i j : ℕ) (c : Char), charAt '\n' s i j = some c ∧ p ∈ stars font c (8*j) (16*i)}

/-- The cursor stays in `i64` while the text is written. -/
structure Fits (s : List Char) : Prop where
  columns : ∀ l ∈ s.splitOn '\n', 8*(l.length : ℤ) ≤ i64Max
  lines : 16*((s.splitOn '\n').length : ℤ) ≤ i64Max+16

/-- The state of the writer after a text. -/
structure Written (font : FontTable) (b : Bitmap) (s : List Char) (w : VramTextWriter) :
    Prop where
  paint : Painted 0xffffff (lit font s ∩ visible b) b w.vram
  cursor : ∀ front last, s.splitOn '\n' = front++[last] →
    w.cursorX = 8*(last.length : ℤ) ∧ w.cursorY = 16*(front.length : ℤ)

/-- Every text has a last line. -/
theorem last_line (s : List Char) : ∃ front last, s.splitOn '\n' = front++[last] := by
  rcases List.eq_nil_or_concat (s.splitOn '\n') with h | ⟨front,last,h⟩
  · exact absurd h (List.splitOn_ne_nil _ _)
  · exact ⟨front,last,by rw [h, List.concat_eq_append]⟩

/-- The lines before the last one and the last one fix the cursor. -/
theorem cursor_of_split (lines front : List (List Char)) (last : List Char) (x y : ℤ)
    (h : lines = front++[last]) (hx : x = 8*(last.length : ℤ)) (hy : y = 16*(front.length : ℤ))
    (front' : List (List Char)) (last' : List Char) (h' : lines = front'++[last']) :
    x = 8*(last'.length : ℤ) ∧ y = 16*(front'.length : ℤ) := by
  obtain ⟨rfl,hlast⟩ := List.append_inj' (h.symm.trans h') rfl
  obtain rfl : last = last' := by simpa using hlast
  exact ⟨hx,hy⟩

theorem fits_init (s : List Char) (c : Char) (h : Fits (s++[c])) : Fits s := by
  obtain ⟨hcol,hlin⟩ := h
  by_cases hc : c = '\n'
  · subst hc
    rw [splitOn_snoc_separator] at hcol hlin
    refine ⟨fun l hl => hcol l (by simp [hl]),?_⟩
    rw [List.length_append] at hlin
    push_cast at hlin
    omega
  · obtain ⟨front,last,h1,h2⟩ := splitOn_snoc '\n' s c hc
    rw [h2] at hcol hlin
    constructor
    · intro l hl
      rw [h1] at hl
      rcases List.mem_append.mp hl with hl | hl
      · exact hcol l (by simp [hl])
      · have hlast := hcol (last++[c]) (by simp)
        rw [List.mem_singleton.mp hl]
        rw [List.length_append] at hlast
        push_cast at hlast
        omega
    · rw [h1]
      simpa using hlin

theorem lit_separator (font : FontTable) (s : List Char) : lit font (s++['\n']) = lit font s := by
  simp only [lit, charAt_snoc_separator]

/-- The next character lights its stars in the cell under the cursor. -/
theorem lit_snoc (font : FontTable) (s : List Char) (c : Char) (hc : c ≠ '\n')
    (front : List (List Char)) (last : List Char) (hs : s.splitOn '\n' = front++[last]) :
    lit font (s++[c]) = lit font s ∪ stars font c (8*last.length) (16*front.length) := by
  ext p
  simp only [lit, charAt_snoc '\n' s c hc front last hs]
  constructor
  · rintro ⟨i,j,d,h | ⟨rfl,rfl,rfl⟩,hp⟩
    · exact Or.inl ⟨i,j,d,h,hp⟩
    · exact Or.inr hp
  · rintro (⟨i,j,d,h,hp⟩ | hp)
    · exact ⟨i,j,d,Or.inl h,hp⟩
    · exact ⟨_,_,c,Or.inr ⟨rfl,rfl,rfl⟩,hp⟩

section Writer
variable (font : FontTable) (b : Bitmap) (s : List Char) (w : VramTextWriter)

theorem newline_written (h : Written font b s w) (hfit : Fits (s++['\n'])) :
    ∃ w', writeChar font w '\n' = .ok w' ∧ Written font b (s++['\n']) w' := by
  obtain ⟨front,last,hs⟩ := last_line s
  obtain ⟨-,hy⟩ := h.cursor front last hs
  have hlines := hfit.lines
  rw [splitOn_snoc_separator, hs] at hlines
  have hmin : i64Min ≤ 0 := by decide
  simp only [List.length_append, List.length_singleton] at hlines
  push_cast at hlines
  refine ⟨{w with cursorY := w.cursorY+16, cursorX := 0},?_,?_,?_⟩
  · rw [writeChar, if_pos rfl, addI64_ok _ _ ⟨by omega,by omega⟩]
    rfl
  · rw [lit_separator]
    exact h.paint
  · have hY : w.cursorY+16 = 16*(((front++[last]).length : ℕ) : ℤ) := by
      rw [List.length_append, List.length_singleton, hy]
      push_cast
      omega
    have hsplit : (s++['\n']).splitOn '\n' = front++[last]++[[]] := by
      rw [splitOn_snoc_separator, hs]
    exact cursor_of_split _ (front++[last]) [] _ _ hsplit rfl hY

theorem char_written (hb : BufferOk b) (h : Written font b s w) (c : Char) (hc : c ≠ '\n')
    (hfit : Fits (s++[c])) : ∃ w', writeChar font w c = .ok w' ∧ Written font b (s++[c]) w' := by
  obtain ⟨front,last,hs,hs'⟩ := splitOn_snoc '\n' s c hc
  obtain ⟨hx,hy⟩ := h.cursor front last hs
  have hcol := hfit.columns (last++[c]) (by rw [hs']; simp)
  have hlines := hfit.lines
  rw [hs'] at hlines
  simp only [List.length_append, List.length_singleton] at hcol hlines
  push_cast at hcol hlines
  have hmin : i64Min = -2^63 := rfl
  have hmax : i64Max = 2^63-1 := rfl
  have hvis := visible_eq b w.vram (painted_inRange 0xffffff _ b w.vram h.paint)
  obtain ⟨vram,hrun,hp⟩ := drawFontFg_paints 0xffffff w.cursorX w.cursorY
    ⟨⟨by omega,by omega⟩,by omega,by omega⟩ ⟨⟨by omega,by omega⟩,by omega,by omega⟩ font c
    w.vram (painted_bufferOk _ _ b w.vram h.paint hb)
  refine ⟨⟨vram,w.cursorX+8,w.cursorY⟩,?_,?_,?_⟩
  · rw [writeChar, if_neg hc, hrun, ok_bind, addI64_ok _ _ ⟨by omega,by omega⟩]
    rfl
  · have hunion := painted_union 0xffffff _ _ b w.vram vram h.paint hp
    rw [hvis, ← Set.union_inter_distrib_right, hx, hy] at hunion
    rwa [lit_snoc font s c hc front last hs]
  · have hX : w.cursorX+8 = 8*(((last++[c]).length : ℕ) : ℤ) := by
      rw [List.length_append, List.length_singleton, hx]
      push_cast
      omega
    exact cursor_of_split _ front (last++[c]) _ _ hs' hX hy

end Writer

/-- Writing a text, by induction on its length. -/
theorem writeStr_written (font : FontTable) (b : Bitmap) (hb : BufferOk b) (s : List Char)
    (hfit : Fits s) :
    ∃ w, writeStr font (VramTextWriter.new b) s = .ok w ∧ Written font b s w := by
  induction s using List.reverseRecOn with
  | nil =>
    refine ⟨VramTextWriter.new b,rfl,?_,?_⟩
    · have hset : lit font [] ∩ visible b = ∅ := by simp [lit, charAt_nil]
      rw [hset]
      exact painted_empty 0xffffff b
    · exact cursor_of_split _ [] [] _ _ (List.splitOn_nil _) rfl rfl
  | append_singleton s c ih =>
    obtain ⟨w,hrun,hw⟩ := ih (fits_init s c hfit)
    have hstep : ∃ w', writeChar font w c = .ok w' ∧ Written font b (s++[c]) w' := by
      by_cases hc : c = '\n'
      · subst hc
        exact newline_written font b s w hw hfit
      · exact char_written font b s w hb hw c hc hfit
    obtain ⟨w',hrun',hw'⟩ := hstep
    refine ⟨w',?_,hw'⟩
    rw [writeStr, List.foldlM_append, ← writeStr, hrun, ok_bind, List.foldlM_cons, hrun']
    rfl

/-- Pieces are written like the text they make up. -/
theorem pieces_written (font : FontTable) (w : VramTextWriter) (pieces : List (List Char)) :
    pieces.foldlM (writeStr font) w = writeStr font w pieces.flatten := by
  induction pieces generalizing w with
  | nil => rfl
  | cons s pieces ih =>
    rw [List.foldlM_cons, List.flatten_cons, writeStr, writeStr, List.foldlM_append]
    congr 1
    funext w'
    exact ih w'

/-- A pixel of the cell grid shows the character of its own cell. -/
theorem mem_lit_iff (font : FontTable) (s : List Char) (X Y : ℕ) :
    ((X : ℤ),(Y : ℤ)) ∈ lit font s ↔ ∃ c, charAt '\n' s (Y/16) (X/8) = some c ∧
      Star font c (Fin.ofNat 16 Y) (Fin.ofNat 8 X) := by
  constructor
  · rintro ⟨i,j,c,hc,dy,dx,hstar,hp⟩
    have hx := congrArg Prod.fst hp
    have hy := congrArg Prod.snd hp
    simp only at hx hy
    have hdx := dx.isLt
    have hdy := dy.isLt
    obtain rfl : i = Y/16 := by omega
    obtain rfl : j = X/8 := by omega
    have hdx' : dx = Fin.ofNat 8 X := Fin.ext (by simp only [Fin.ofNat]; omega)
    have hdy' : dy = Fin.ofNat 16 Y := Fin.ext (by simp only [Fin.ofNat]; omega)
    rw [hdx', hdy'] at hstar
    exact ⟨c,hc,hstar⟩
  · rintro ⟨c,hc,hstar⟩
    refine ⟨Y/16,X/8,c,hc,_,_,hstar,?_⟩
    simp only [Fin.ofNat]
    exact Prod.ext (by simp only; omega) (by simp only; omega)

/-- The screen shows the text and nothing else, however it is cut into calls. -/
theorem text_exact (font : FontTable) (b : Bitmap) (hb : BufferOk b) (pieces : List (List Char))
    (hfit : Fits pieces.flatten) :
    ∃ w, pieces.foldlM (writeStr font) (VramTextWriter.new b) = .ok w ∧
      w.vram = {b with buf := w.vram.buf} ∧
      (∀ X Y : ℕ, InRange b X Y →
        ((∃ c, charAt '\n' pieces.flatten (Y/16) (X/8) = some c ∧ c.toNat ≤ 0xFF ∧
            font (UInt8.ofNat c.toNat) (Fin.ofNat 16 Y) (Fin.ofNat 8 X) = '*') →
          HasColor 0xffffff w.vram (X,Y)) ∧
        (¬ (∃ c, charAt '\n' pieces.flatten (Y/16) (X/8) = some c ∧ c.toNat ≤ 0xFF ∧
            font (UInt8.ofNat c.toNat) (Fin.ofNat 16 Y) (Fin.ofNat 8 X) = '*') →
          ∀ i ∈ pixelBytes b (X,Y), w.vram.buf i = b.buf i)) ∧
      (∀ i, (∀ p : ℤ × ℤ, InRange b p.1 p.2 → i ∉ pixelBytes b p) → w.vram.buf i = b.buf i) ∧
      (∀ front last, pieces.flatten.splitOn '\n' = front++[last] →
        w.cursorX = 8*(last.length : ℤ) ∧ w.cursorY = 16*(front.length : ℤ)) ∧
      ∀ pieces' : List (List Char), pieces'.flatten = pieces.flatten →
        pieces'.foldlM (writeStr font) (VramTextWriter.new b) = .ok w := by
  obtain ⟨w,hrun,hw⟩ := writeStr_written font b hb pieces.flatten hfit
  have hin : ∀ p ∈ lit font pieces.flatten ∩ visible b, InLine b p :=
    fun p hp => inRange_inLine b p hp.2
  refine ⟨w,by rw [pieces_written, hrun],hw.paint.shape,?_,?_,hw.cursor,?_⟩
  · intro X Y hXY
    have hline := inRange_inLine b (X,Y) hXY
    constructor
    · intro hstar
      have hlit := (mem_lit_iff font pieces.flatten X Y).mpr hstar
      exact (hasColor_painted_iff _ _ b w.vram hw.paint hin _ hline).mpr (Or.inl ⟨hlit,hXY⟩)
    · intro hnone
      apply painted_others _ _ b w.vram hw.paint hin _ hline
      exact fun hlit => hnone ((mem_lit_iff font pieces.flatten X Y).mp hlit.1)
  · intro i hi
    exact hw.paint.outside i (fun p hp => hi p hp.2)
  · intro pieces' heq
    rw [pieces_written, heq, hrun]

/-- A screen of one line with two cells, the second one cut off. -/
def narrow : Bitmap := ⟨4,16,12,16,1024,fun _ => 0⟩

/-- A font of full blocks. -/
def blocks : FontTable := fun _ _ _ => '*'

theorem text_exact_narrow :
    ∃ w, [['a'],['b','\n']].foldlM (writeStr blocks) (VramTextWriter.new narrow) = .ok w ∧
      HasColor 0xffffff w.vram (11,3) ∧ w.cursorX = 0 ∧ w.cursorY = 16 := by
  have hlines : ['a','b','\n'].splitOn '\n' = [['a','b']]++[[]] := by decide
  have hfit : Fits ['a','b','\n'] := by
    constructor
    · rw [hlines]
      decide
    · rw [hlines]
      decide
  obtain ⟨w,hrun,-,hpixel,-,hcursor,-⟩ :=
    text_exact blocks narrow ⟨rfl,rfl,by decide⟩ [['a'],['b','\n']] hfit
  obtain ⟨hx,hy⟩ := hcursor [['a','b']] [] hlines
  exact ⟨w,hrun,(hpixel 11 3 (by decide)).1 ⟨'b',by decide,by decide,rfl⟩,hx,hy⟩

end Wasabi.Graphics.Text
