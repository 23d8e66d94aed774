import ChipEight.Listing
import ChipEight.Proofs.Bare.Screen
import ChipEight.Proofs.Drawing.Hits
import ChipEight.Proofs.Host.Texture

/-!
# ChipEight.Proofs.Host.Rendering

Rendering, from the calls on a screen to the bytes of a texture.

* `Screen.Edit`        — a clear, a drawing or a look at the mark, as data; `Screen.edited` is a new
  screen after a history of them.
* `Bare.Screen.edited` — the same history on a byte for every pixel.
* `Bare.Texture.render` — the colour bytes of the whole grid in one list, which is then cut into
  lines, and each line copied to the start of its row.
* `render_ok`          — no product overflows and no copy leaves the buffer, and the texture is that
  of `Texture.paint`; `render_refused` has the rows that are too short for a line.
* `rendering_exact`    — what is where in the texture, for every history and every pitch.
-/

namespace ChipEight

inductive Screen.Edit where
  | clear
  | draw (sprite : List Byte) (x y : Byte)
  | take
  deriving DecidableEq

namespace Screen

def edit (s : Screen) : Edit → Screen
  | .clear => s.clear
  | .draw sprite x y => (s.draw sprite x y).1
  | .take => s.take.1

def edited (history : List Edit) : Screen := history.foldl edit blank

end Screen

namespace Bare

namespace Screen

open ChipEight.Screen (Edit)

def edit (s : Screen) : Edit → Checked Screen
  | .clear => .ok s.clear
  | .draw sprite x y => do
    let (s, _) ← s.drawSprite sprite x y
    return s
  | .take => .ok { s with changed := false }

def edited (history : List Edit) : Checked Screen := history.foldlM edit ⟨Pixels.dark, false⟩

theorem edit_ok (s : ChipEight.Screen) (e : Edit) : edit (of s) e = .ok (of (s.edit e)) := by
  cases e with
  | clear => rw [edit, clear_of, ChipEight.Screen.edit]
  | draw sprite x y =>
    rw [edit, drawSprite_ok]
    rfl
  | take => rfl

theorem edited_ok (history : List Edit) :
    edited history = .ok (of (ChipEight.Screen.edited history)) := by
  have hblank : (⟨Pixels.dark, false⟩ : Screen) = of .blank := by
    rw [of, ChipEight.Screen.blank, Pixels.ofPicture_dark]
  rw [edited, hblank, ChipEight.Screen.edited]
  generalize ChipEight.Screen.blank = s
  induction history generalizing s with
  | nil => rfl
  | cons e rest ih => rw [List.foldlM_cons, edit_ok, ok_bind, ih, List.foldl_cons]

end Screen

namespace Texture

def shade (pixel : Byte) : Checked (List Byte) := do
  let value ← mul pixel 255
  return List.replicate 3 value

/-- The colour bytes of a grid, pixel by pixel and row by row. -/
def colours (pixels : Pixels) : Checked (List Byte) := do
  let shades ← (pixels.toList.flatMap (·.toList)).mapM shade
  return shades.flatten

/-- Puts bytes in place of those of a buffer from `start` on. -/
def copyTo (buffer : Array Byte) (start : Nat) (bytes : List Byte) : Checked (Array Byte) :=
  if start + bytes.length ≤ buffer.size then
    .ok (Host.Texture.overwrite buffer start bytes)
  else .error .outOfBounds

def copyLines (pitch : Nat) (lines : List (List Byte)) (buffer : Array Byte) :
    Checked (Array Byte) :=
  lines.zipIdx.foldlM (fun buffer row => copyTo buffer (row.2 * pitch) row.1) buffer

def render (pixels : Pixels) (pitch : Nat) (buffer : Array Byte) : Checked (Array Byte) := do
  let bytes ← colours pixels
  copyLines pitch (Listing.pieces Host.Texture.lineSize bytes) buffer

open Host.Texture (line lineSize paint paintLines)

theorem copyTo_ok {buffer : Array Byte} {start : Nat} {bytes : List Byte}
    (h : start + bytes.length ≤ buffer.size) :
    copyTo buffer start bytes = .ok (Host.Texture.overwrite buffer start bytes) :=
  if_pos h

variable (p : Picture) {pitch : Nat} {buffer : Array Byte}

/-! ## The colour bytes -/

theorem shade_flag (lit : Bool) : shade (Cpu.flag lit) = .ok (Host.Texture.shade lit) := by
  cases lit <;> rfl

theorem rows_ofPicture :
    (Pixels.ofPicture p).toList.map (·.toList) =
      (List.range 32).map fun y => (List.range 64).map fun x => Cpu.flag (p.lit x y) := by
  apply List.ext_getElem
  · simp
  intro y hy hy'
  have hheight : y < 32 := by simpa using hy'
  rw [List.getElem_map, List.getElem_map, List.getElem_range, Vector.getElem_toList,
    Pixels.getElem_ofPicture p hheight]
  apply List.ext_getElem
  · simp
  intro x hx hx'
  have hwidth : x < 64 := by simpa using hx'
  rw [Vector.getElem_toList, Pixels.getElem_ofRow _ hwidth, List.getElem_map, List.getElem_range,
    p.lit_of_lt hwidth hheight]

theorem colours_ok :
    colours (Pixels.ofPicture p) = .ok (((List.range 32).map (line p)).flatten) := by
  let value : Byte → List Byte := fun pixel => List.replicate 3 (pixel * 255)
  have hvalue : ∀ lit, value (Cpu.flag lit) = Host.Texture.shade lit := by
    intro lit
    cases lit <;> rfl
  have hshades : ∀ pixel ∈ (Pixels.ofPicture p).toList.flatMap (·.toList),
      shade pixel = .ok (value pixel) := by
    intro pixel hpixel
    rw [List.flatMap_def, rows_ofPicture] at hpixel
    obtain ⟨row, hrow, hpixel⟩ := List.mem_flatten.mp hpixel
    obtain ⟨y, -, rfl⟩ := List.mem_map.mp hrow
    obtain ⟨x, -, rfl⟩ := List.mem_map.mp hpixel
    rw [shade_flag, hvalue]
  rw [colours, mapM_ok hshades, ok_bind, pure_eq_ok, List.flatMap_def, rows_ofPicture]
  congr 1
  rw [← List.flatMap_def, ← List.flatMap_def, ← List.flatMap_def, List.flatMap_assoc]
  simp only [List.flatMap_map, hvalue]
  rfl

/-! ## The lines -/

theorem pieces_flatten {α : Type} {n : Nat} {rows : List (List α)}
    (h : ∀ row ∈ rows, row.length = n + 1) : Listing.pieces (n + 1) rows.flatten = rows := by
  induction rows with
  | nil => rw [List.flatten_nil, Listing.pieces]
  | cons row rest ih =>
    have hrow : row.length = n + 1 := h row List.mem_cons_self
    have hrest := ih fun other hother => h other (List.mem_cons_of_mem row hother)
    cases row with
    | nil => cases hrow
    | cons a row =>
      have hlength : row.length = n := Nat.succ.inj hrow
      rw [List.flatten_cons, List.cons_append, Listing.pieces, Nat.add_sub_cancel,
        List.take_left' hlength, List.drop_left' hlength, hrest]

theorem copyLines_ok (hpitch : lineSize ≤ pitch) {n : Nat} (hn : n * pitch ≤ buffer.size) :
    copyLines pitch ((List.range n).map (line p)) buffer = .ok (paintLines p pitch buffer n) := by
  induction n with
  | zero => rfl
  | succ n ih =>
    have hsucc : (n + 1) * pitch = n * pitch + pitch := Nat.succ_mul n pitch
    have hlength := Host.Texture.length_line p n
    have hfirst := ih (by omega)
    rw [copyLines] at hfirst
    rw [copyLines, List.range_succ, List.map_append, List.zipIdx_append, List.foldlM_append,
      hfirst, ok_bind, Host.Texture.paintLines_succ]
    have hplace : 0 + ((List.range n).map (line p)).length = n := by simp
    have hfits : n * pitch + (line p n).length ≤ (paintLines p pitch buffer n).size := by
      rw [Host.Texture.size_paintLines]
      omega
    rw [hplace, List.map_singleton, List.zipIdx_singleton, List.foldlM_cons, copyTo_ok hfits]
    rfl

theorem pieces_lines (n : Nat) :
    Listing.pieces lineSize ((List.range n).map (line p)).flatten =
      (List.range n).map (line p) := by
  apply pieces_flatten
  intro row hrow
  obtain ⟨y, -, rfl⟩ := List.mem_map.mp hrow
  exact Host.Texture.length_line p y

theorem render_ok (hpitch : lineSize ≤ pitch) (hsize : buffer.size = 32 * pitch) :
    render (Pixels.ofPicture p) pitch buffer = .ok (paint p pitch buffer) := by
  rw [render, colours_ok, ok_bind, pieces_lines]
  exact copyLines_ok p hpitch (Nat.le_of_eq hsize.symm)

/-- Copying lines keeps the size of the buffer, or one of them goes past its end. -/
theorem copyLines_cases (pitch : Nat) (lines : List (List Byte × Nat)) (buffer : Array Byte) :
    let outcome := lines.foldlM (fun buffer row => copyTo buffer (row.2 * pitch) row.1) buffer
    outcome = .error .outOfBounds ∨
      ∃ copied, outcome = .ok copied ∧ copied.size = buffer.size := by
  induction lines generalizing buffer with
  | nil => exact .inr ⟨buffer, rfl, rfl⟩
  | cons row rest ih =>
    simp only [List.foldlM_cons, copyTo]
    split
    · have hrest := ih (Host.Texture.overwrite buffer (row.2 * pitch) row.1)
      rw [Host.Texture.size_overwrite] at hrest
      exact hrest
    · exact .inl rfl

/-- Where the rows are too short the last line goes past the end, if none did before. -/
theorem render_refused (hpitch : pitch < lineSize) (hsize : buffer.size = 32 * pitch) :
    render (Pixels.ofPicture p) pitch buffer = .error .outOfBounds := by
  rw [render, colours_ok, ok_bind, pieces_lines, copyLines, List.range_succ, List.map_append,
    List.zipIdx_append, List.foldlM_append]
  rcases copyLines_cases pitch ((List.range 31).map (line p)).zipIdx buffer with
    herror | ⟨copied, hok, hcopied⟩
  · rw [herror]
    rfl
  · have hplace : 0 + ((List.range 31).map (line p)).length = 31 := by simp
    have hlast : ¬ 31 * pitch + (line p 31).length ≤ copied.size := by
      rw [Host.Texture.length_line]
      omega
    rw [hok, ok_bind, hplace, List.map_singleton, List.zipIdx_singleton, List.foldlM_cons, copyTo,
      if_neg hlast]
    rfl

end Texture
end Bare

namespace Host
namespace Texture

theorem size_paint (p : Picture) (pitch : Nat) (buffer : Array Byte) :
    (paint p pitch buffer).size = buffer.size :=
  size_paintLines p pitch buffer Picture.height

theorem Encodes.unique {pitch : Nat} {buffer : Array Byte} {p q : Picture}
    (hp : Encodes pitch buffer p) (hq : Encodes pitch buffer q) : p = q := by
  apply Picture.ext_lit
  intro a
  have hpixel := (hp a.1 a.2 0 a.1.isLt a.2.isLt (by decide)).symm.trans
    (hq a.1 a.2 0 a.1.isLt a.2.isLt (by decide))
  cases hlit : p.lit a.1 a.2 <;> cases hlit' : q.lit a.1 a.2 <;> rw [hlit, hlit'] at hpixel
  · cases hpixel
  · cases hpixel

theorem paint_padding (p : Picture) {pitch : Nat} (hpitch : lineSize ≤ pitch)
    {buffer : Array Byte} (hsize : buffer.size = Picture.height * pitch) {y j : Nat}
    (hy : y < Picture.height) (hline : lineSize ≤ j) (hj : j < pitch) :
    (paint p pitch buffer)[y * pitch + j]? = buffer[y * pitch + j]? := by
  rw [getElem?_paint p hpitch hsize hy hj, if_neg (Nat.not_lt.mpr hline)]

/-- A screen after any history of clears, drawings and looks at its mark, rendered into any buffer
of 32 rows that a line of pixels fits into. On plain storage the history and the rendering come to
their end: no index leaves the grid or the buffer, and no byte overflows when it is multiplied by
255. Each byte of the grid is 1 or 0, and the three bytes of its pixel in the texture are 255 or 0;
every byte behind a line in its row is what it was before. The texture is the one that the host
shows. So two screens with different grids, rendered at any pitches into any buffers, make different
textures. -/
theorem rendering_exact (history : List Screen.Edit) {pitch : Nat} (hpitch : 192 ≤ pitch)
    {buffer : Array Byte} (hsize : buffer.size = 32 * pitch) :
    let picture := (Screen.edited history).picture
    ∃ screen texture,
      Bare.Screen.edited history = .ok screen ∧
      Bare.Texture.render screen.pixels pitch buffer = .ok texture ∧
      texture = paint picture pitch buffer ∧
      texture.size = buffer.size ∧
      (∀ a : Pixel, screen.pixels[a.2][a.1] = (if picture.lit a.1 a.2 then 1 else 0) ∧
        ∀ c < 3, texture[a.2.val * pitch + 3 * a.1.val + c]? =
          some (if screen.pixels[a.2][a.1] = 1 then 255 else 0)) ∧
      (∀ y j, y < 32 → 192 ≤ j → j < pitch →
        texture[y * pitch + j]? = buffer[y * pitch + j]?) ∧
      ∀ history' pitch' buffer' screen' texture',
        192 ≤ pitch' → buffer'.size = 32 * pitch' →
        Bare.Screen.edited history' = .ok screen' →
        Bare.Texture.render screen'.pixels pitch' buffer' = .ok texture' →
        screen'.pixels ≠ screen.pixels → texture' ≠ texture := by
  intro picture
  have hencodes := paint_encodes picture hpitch hsize
  refine ⟨.of (Screen.edited history), paint picture pitch buffer, Bare.Screen.edited_ok history,
    Bare.Texture.render_ok picture hpitch hsize, rfl, size_paint picture pitch buffer, ?_, ?_, ?_⟩
  · intro a
    have hbyte := (Screen.edited history).byte_of a
    refine ⟨hbyte, fun c hc => ?_⟩
    rw [hencodes a.1 a.2 c a.1.isLt a.2.isLt hc, hbyte]
    cases picture.lit a.1 a.2 <;> rfl
  · intro y j hy hline hj
    exact paint_padding picture hpitch hsize hy hline hj
  · intro history' pitch' buffer' screen' texture' hpitch' hsize' hscreen' htexture' hpixels hsame
    have hpicture : screen' = .of (Screen.edited history') :=
      Except.ok.inj (hscreen'.symm.trans (Bare.Screen.edited_ok history'))
    subst hpicture
    have hpainted : texture' = paint (Screen.edited history').picture pitch' buffer' :=
      Except.ok.inj (htexture'.symm.trans (Bare.Texture.render_ok _ hpitch' hsize'))
    -- Textures of different pitches differ in size already.
    have hpitches : pitch' = pitch := by
      have hsizes := congrArg Array.size (hpainted.symm.trans hsame)
      rw [size_paint, size_paint] at hsizes
      omega
    subst hpitches
    have hencodes' := paint_encodes (Screen.edited history').picture hpitch' hsize'
    rw [← hpainted, hsame] at hencodes'
    exact hpixels (congrArg Bare.Pixels.ofPicture (hencodes'.unique hencodes))

/-- A pixel in the last corner, in rows with eight bytes of padding that are not zero. -/
theorem rendering_exact_corner :
    ∃ (history : List Screen.Edit) (pitch : Nat) (buffer : Array Byte),
      192 ≤ pitch ∧ buffer.size = 32 * pitch ∧
      ∃ screen texture,
        Bare.Screen.edited history = .ok screen ∧
        Bare.Texture.render screen.pixels pitch buffer = .ok texture ∧
        screen.pixels[31][63] = 1 ∧
        texture[31 * pitch + 188]? = some 0 ∧ texture[31 * pitch + 191]? = some 255 ∧
        texture[31 * pitch + 192]? = some 7 := by
  let history : List Screen.Edit := [.draw [0xFF] 0 31, .clear, .draw [0x80] 63 31, .take]
  let buffer : Array Byte := Array.replicate (32 * 200) 7
  have hpitch : 192 ≤ 200 := by decide
  have hsize : buffer.size = 32 * 200 := Array.size_replicate
  let corner : Pixel := (63, 31)
  let beside : Pixel := (62, 31)
  let picture := (Screen.edited history).picture
  have hlit : picture.lit corner.1 corner.2 = true ∧ picture.lit beside.1 beside.2 = false := by
    decide +kernel
  obtain ⟨screen, texture, hscreen, htexture, -, -, hpixels, hpadding, -⟩ :=
    rendering_exact history hpitch hsize
  obtain ⟨hbyte, hbright⟩ := hpixels corner
  obtain ⟨hbyte', hdark⟩ := hpixels beside
  rw [hlit.1] at hbyte
  rw [hlit.2] at hbyte'
  have hlast := hbright 2 (by decide)
  have hbefore := hdark 2 (by decide)
  rw [hbyte] at hlast
  rw [hbyte'] at hbefore
  have hpad := hpadding 31 192 (by decide) (by decide) (by decide)
  rw [show buffer[31 * 200 + 192]? = some 7 from Array.getElem?_replicate] at hpad
  exact ⟨history, 200, buffer, hpitch, hsize, screen, texture, hscreen, htexture, hbyte, hbefore,
    hlast, hpad⟩

end Texture
end Host
end ChipEight
