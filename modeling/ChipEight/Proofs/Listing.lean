import ChipEight.Proofs.Machine
import ChipEight.Proofs.Mnemonic

/-!
# ChipEight.Proofs.Listing

The listings of a program, read back.

* `Listing.pieces_eq`, `Listing.words_eq` — what stands in each piece and in each word.
* `Listing.lines`        — the lines of a text; `lines_joinLines` gets back those it was made of.
* `Listing.hexLine?`, `Listing.programLine?` — what a line of either listing shows, and
  `hexLine?_hexLine`, `programLine?_programLine`, that it shows what it was made of.
* `Listing.hexBytes?`, `Listing.programBytes?` — the bytes that a whole listing shows.
* `Memory.hexBytes?_hexListing`, `Memory.programBytes?_programListing` — they are the program.
* `Machine.listings_lossless` — both listings, line by line, after any history.
-/

namespace ChipEight
namespace Listing

/-! ## Pieces and words -/

theorem flatten_pieces {α : Type} (n : Nat) (xs : List α) : (pieces n xs).flatten = xs := by
  induction xs using pieces.induct n with
  | case1 => simp [pieces]
  | case2 x rest ih =>
    rw [pieces, List.flatten_cons, ih, List.cons_append, List.take_append_drop]

/-- The pieces follow each other at every multiple of their length. -/
theorem pieces_eq {α : Type} {n : Nat} (hn : 0 < n) (xs : List α) :
    pieces n xs =
      (List.range ((xs.length + (n - 1)) / n)).map fun j => (xs.drop (n * j)).take n := by
  induction xs using pieces.induct n with
  | case1 =>
    have hnone : (0 + (n - 1)) / n = 0 := Nat.div_eq_of_lt (by omega)
    rw [pieces, List.length_nil, hnone]
    rfl
  | case2 x rest ih =>
    have hcount : ((x :: rest).length + (n - 1)) / n =
        ((rest.drop (n - 1)).length + (n - 1)) / n + 1 := by
      have hall : (x :: rest).length + (n - 1) = rest.length + n := by
        rw [List.length_cons]
        omega
      rw [hall, Nat.add_div_right _ hn, List.length_drop]
      -- A first piece that is not full is the only one.
      by_cases hrest : n - 1 ≤ rest.length
      · rw [Nat.sub_add_cancel hrest]
      · rw [Nat.div_eq_of_lt (by omega), Nat.div_eq_of_lt (by omega)]
    obtain ⟨k, rfl⟩ : ∃ k, n = k + 1 := ⟨n - 1, by omega⟩
    rw [pieces, ih, hcount, List.range_succ_eq_map, List.map_cons, List.map_map]
    congr 1
    apply List.map_congr_left
    intro j _
    have hplace : (k + 1) * (j + 1) = k + (k + 1) * j + 1 := by
      rw [Nat.mul_succ]
      omega
    simp only [Function.comp_apply, Nat.succ_eq_add_one, hplace, List.drop_succ_cons,
      List.drop_drop, Nat.add_sub_cancel]

/-- Bytes with a zero behind them if their number is odd. -/
def padded (bytes : List Byte) : List Byte :=
  if bytes.length % 2 = 1 then bytes ++ [0] else bytes

theorem padded_cons_cons (high low : Byte) (rest : List Byte) :
    padded (high :: low :: rest) = high :: low :: padded rest := by
  have hparity : (high :: low :: rest).length % 2 = rest.length % 2 := by
    rw [List.length_cons, List.length_cons]
    omega
  rw [padded, padded, hparity]
  split <;> rfl

/-- The word at twice this place, with a zero where no byte is left. -/
def wordAt (bytes : List Byte) (j : Nat) : Word :=
  Word.ofBytes (bytes.getD (2 * j) 0) (bytes.getD (2 * j + 1) 0)

theorem words_eq (bytes : List Byte) :
    words bytes = (List.range ((bytes.length + 1) / 2)).map (wordAt bytes) := by
  induction bytes using words.induct with
  | case1 => rfl
  | case2 high => simp [words, wordAt]
  | case3 high low rest ih =>
    have hcount : ((high :: low :: rest).length + 1) / 2 = (rest.length + 1) / 2 + 1 := by
      rw [List.length_cons, List.length_cons]
      omega
    rw [words, ih, hcount, List.range_succ_eq_map, List.map_cons, List.map_map]
    congr 1

/-- The two bytes of a word, the high one first. -/
def wordBytes (w : Word) : List Byte := [w.high, w.low]

theorem wordBytes_ofBytes (high low : Byte) : wordBytes (Word.ofBytes high low) = [high, low] := by
  have hhigh : (Word.ofBytes high low).high = high := BitVec.extractLsb'_append_eq_left
  have hlow : (Word.ofBytes high low).low = low := BitVec.extractLsb'_append_eq_right
  rw [wordBytes, hhigh, hlow]

theorem wordBytes_words (bytes : List Byte) : (words bytes).flatMap wordBytes = padded bytes := by
  induction bytes using words.induct with
  | case1 => rfl
  | case2 high =>
    rw [words, List.flatMap_singleton, wordBytes_ofBytes]
    rfl
  | case3 high low rest ih =>
    rw [words, List.flatMap_cons, wordBytes_ofBytes, ih, padded_cons_cons]
    rfl

theorem words_padded (bytes : List Byte) : words (padded bytes) = words bytes := by
  induction bytes using words.induct with
  | case1 => rfl
  | case2 high => rfl
  | case3 high low rest ih => rw [padded_cons_cons, words, words, ih]

theorem words_eq_iff {bytes bytes' : List Byte} :
    words bytes = words bytes' ↔ padded bytes = padded bytes' := by
  constructor
  · intro h
    rw [← wordBytes_words, h, wordBytes_words]
  · intro h
    rw [← words_padded, h, words_padded]

/-! ## Lines -/

/-- The lines of a text. No further line starts behind a line feed at its end. -/
def lines (text : String) : List (List Char) :=
  let pieces := text.toList.splitOn '\n'
  if pieces.getLast? = some [] then pieces.dropLast else pieces

theorem splitOn_joinLines {texts : List String} (h : ∀ text ∈ texts, '\n' ∉ text.toList) :
    (joinLines texts).toList.splitOn '\n' = texts.map (·.toList) ++ [[]] := by
  induction texts with
  | nil => rfl
  | cons text rest ih =>
    have htext : '\n' ∉ text.toList := h text List.mem_cons_self
    have hfirst : (joinLines (text :: rest)).toList =
        text.toList ++ '\n' :: (joinLines rest).toList := by
      simp [joinLines, String.toList_join]
    rw [hfirst, List.splitOn_append_cons_self_of_not_mem htext,
      ih fun text' h' => h text' (List.mem_cons_of_mem text h')]
    rfl

theorem lines_joinLines {texts : List String} (h : ∀ text ∈ texts, '\n' ∉ text.toList) :
    lines (joinLines texts) = texts.map (·.toList) := by
  rw [lines, splitOn_joinLines h, List.getLast?_concat, List.dropLast_concat]
  exact if_pos rfl

/-! ### Sixteen bytes to a line -/

/-- The bytes of a row, two digits each and a blank in front of them. -/
def columns (bytes : List Byte) : List Char := bytes.flatMap fun b => ' ' :: Hex.fixed 2 b.toNat

def bytes? : List Char → Option (List Byte)
  | [] => some []
  | ' ' :: b :: a :: rest =>
    (Hex.value? [b, a]).bind fun n => (bytes? rest).map fun bytes => BitVec.ofNat 8 n :: bytes
  | _ => none

/-- What a line of bytes shows: its address and the bytes. -/
def hexLine? : List Char → Option (Nat × List Byte)
  | c :: b :: a :: ':' :: rest =>
    (Hex.value? [c, b, a]).bind fun address => (bytes? rest).map fun bytes => (address, bytes)
  | _ => none

theorem bytes?_columns (bytes : List Byte) : bytes? (columns bytes) = some bytes := by
  induction bytes with
  | nil => rfl
  | cons b rest ih =>
    have hread : bytes? (columns (b :: rest)) =
        (Hex.value? (Hex.fixed 2 b.toNat)).bind fun n =>
          (bytes? (columns rest)).map fun bytes => BitVec.ofNat 8 n :: bytes := rfl
    rw [hread, Hex.value?_fixed (Hex.fits_byte b), ih, Option.bind_some, Option.map_some,
      BitVec.ofNat_toNat, BitVec.setWidth_eq]

theorem newline_not_mem_columns (bytes : List Byte) : '\n' ∉ columns bytes := by
  intro h
  obtain ⟨b, -, hb⟩ := List.mem_flatMap.mp h
  rcases List.mem_cons.mp hb with hb | hb
  · cases hb
  · exact (Hex.solid_fixed 2 b.toNat).newline_not_mem hb

variable {row : Nat}

theorem toList_hexLine (h : 0x200 + 16 * row < 4096) (bytes : List Byte) :
    (hexLine row bytes).toList = Hex.fixed 3 (0x200 + 16 * row) ++ ':' :: columns bytes := by
  have haddress : (Hex.padded 3 (Memory.start.toNat + 16 * row)).toList =
      Hex.fixed 3 (0x200 + 16 * row) := Hex.toList_padded (Nat.succ_pos 2) (Hex.fits_three h)
  have hcolumn : ∀ b : Byte, (Hex.padded 2 b.toNat).toList = Hex.fixed 2 b.toNat :=
    fun b => Hex.toList_padded Nat.two_pos (Hex.fits_byte b)
  simp [hexLine, haddress, String.toList_join, List.flatMap_map, hcolumn, columns]

theorem newline_not_mem_hexLine (h : 0x200 + 16 * row < 4096) (bytes : List Byte) :
    '\n' ∉ (hexLine row bytes).toList := by
  rw [toList_hexLine h, List.mem_append, List.mem_cons]
  rintro (hc | hc | hc)
  · exact (Hex.solid_fixed 3 (0x200 + 16 * row)).newline_not_mem hc
  · cases hc
  · exact newline_not_mem_columns bytes hc

theorem hexLine?_hexLine (h : 0x200 + 16 * row < 4096) (bytes : List Byte) :
    hexLine? (hexLine row bytes).toList = some (0x200 + 16 * row, bytes) := by
  have hread : ∀ n, hexLine? (Hex.fixed 3 n ++ ':' :: columns bytes) =
      (Hex.value? (Hex.fixed 3 n)).bind fun address =>
        (bytes? (columns bytes)).map fun bytes => (address, bytes) := fun _ => rfl
  rw [toList_hexLine h, hread, Hex.value?_fixed (Hex.fits_three h), bytes?_columns]
  rfl

/-! ### One opcode to a line -/

structure ProgramLine where
  address : Nat
  opcode : Word
  /-- The mnemonic, or that there is none. -/
  text : String
  deriving DecidableEq

def programLine? : List Char → Option ProgramLine
  | c :: b :: a :: ':' :: ' ' :: g :: f :: e :: d :: ' ' :: ' ' :: text =>
    (Hex.value? [c, b, a]).bind fun address =>
      (Hex.value? [g, f, e, d]).map fun n =>
        { address, opcode := BitVec.ofNat 16 n, text := String.ofList text }
  | _ => none

theorem newline_not_mem_meaning (opcode : Word) : '\n' ∉ (meaning opcode).toList := by
  unfold meaning
  split
  case h_1 i _ => exact i.newline_not_mem_mnemonic
  case h_2 => decide

theorem toList_programLine (h : 0x200 + 2 * row < 4096) (opcode : Word) :
    (programLine row opcode).toList =
      Hex.fixed 3 (0x200 + 2 * row) ++ [':', ' '] ++ Hex.fixed 4 opcode.toNat ++ [' ', ' '] ++
        (meaning opcode).toList := by
  have haddress : (Hex.padded 3 (Memory.start.toNat + 2 * row)).toList =
      Hex.fixed 3 (0x200 + 2 * row) := Hex.toList_padded (Nat.succ_pos 2) (Hex.fits_three h)
  have hopcode : (Hex.padded 4 opcode.toNat).toList = Hex.fixed 4 opcode.toNat :=
    Hex.toList_padded (Nat.succ_pos 3) (Hex.fits_word opcode)
  simp [programLine, haddress, hopcode]

theorem newline_not_mem_programLine (h : 0x200 + 2 * row < 4096) (opcode : Word) :
    '\n' ∉ (programLine row opcode).toList := by
  have haddress := (Hex.solid_fixed 3 (0x200 + 2 * row)).newline_not_mem
  have hopcode := (Hex.solid_fixed 4 opcode.toNat).newline_not_mem
  have htext := newline_not_mem_meaning opcode
  rw [toList_programLine h]
  simp [haddress, hopcode, htext]

theorem programLine?_programLine (h : 0x200 + 2 * row < 4096) (opcode : Word) :
    programLine? (programLine row opcode).toList =
      some { address := 0x200 + 2 * row, opcode, text := meaning opcode } := by
  have hread : ∀ a n text,
      programLine? (Hex.fixed 3 a ++ [':', ' '] ++ Hex.fixed 4 n ++ [' ', ' '] ++ text) =
        (Hex.value? (Hex.fixed 3 a)).bind fun address =>
          (Hex.value? (Hex.fixed 4 n)).map fun n =>
            { address, opcode := BitVec.ofNat 16 n, text := String.ofList text } :=
    fun _ _ _ => rfl
  rw [toList_programLine h, hread, Hex.value?_fixed (Hex.fits_three h),
    Hex.value?_fixed (Hex.fits_word opcode), Option.bind_some, Option.map_some,
    BitVec.ofNat_toNat, BitVec.setWidth_eq, String.ofList_toList]

/-! ## Whole listings -/

theorem mapM_map_some {α β γ : Type} {read : β → Option γ} {write : α → β} {shown : α → γ}
    {xs : List α} (h : ∀ x ∈ xs, read (write x) = some (shown x)) :
    (xs.map write).mapM read = some (xs.map shown) := by
  induction xs with
  | nil => rfl
  | cons x rest ih =>
    rw [List.map_cons, List.mapM_cons, h x List.mem_cons_self,
      ih fun y hy => h y (List.mem_cons_of_mem x hy)]
    rfl

/-- The lines of a listing of this many rows, each made from its number and its content. -/
theorem lines_rows {α : Type} {line : Nat → α → String} {content : Nat → α} {count : Nat}
    (h : ∀ j < count, '\n' ∉ (line j (content j)).toList) :
    lines (joinLines (((List.range count).map content).mapIdx line)) =
      (List.range count).map fun j => (line j (content j)).toList := by
  have hrows : ((List.range count).map content).mapIdx line =
      (List.range count).map fun j => line j (content j) := by
    apply List.ext_getElem
    · simp
    · intro j _ _
      simp
  rw [hrows, lines_joinLines, List.map_map]
  · rfl
  · intro text htext
    obtain ⟨j, hj, rfl⟩ := List.mem_map.mp htext
    exact h j (List.mem_range.mp hj)

def hexBytes? (text : String) : Option (List Byte) :=
  ((lines text).mapM hexLine?).map fun rows => rows.flatMap (·.2)

def programBytes? (text : String) : Option (List Byte) :=
  ((lines text).mapM programLine?).map fun rows => rows.flatMap fun row => wordBytes row.opcode

end Listing

namespace Memory

open Listing

variable {m : Memory} {j : Nat}

theorem length_program (m : Memory) : m.program.length = m.romLength := m.length_readRange start _

section Rows

variable (h : m.romLength ≤ capacity)

include h

/-- A row of a listing starts inside of the memory. -/
theorem row_lt (n : Nat) (hn : 0 < n) (hj : j < (m.program.length + (n - 1)) / n) :
    0x200 + n * j < 4096 := by
  have hcapacity : capacity = 0xE00 := rfl
  have hlast : (j + 1) * n ≤ m.program.length + (n - 1) := (Nat.le_div_iff_mul_le hn).mp hj
  rw [length_program, Nat.succ_mul, Nat.mul_comm] at hlast
  omega

theorem lines_hexListing :
    lines m.hexListing =
      (List.range ((m.program.length + 15) / 16)).map fun j =>
        (hexLine j ((m.program.drop (16 * j)).take 16)).toList := by
  rw [hexListing, pieces_eq (by decide)]
  exact lines_rows fun j hj => newline_not_mem_hexLine (row_lt h 16 (by decide) hj) _

theorem lines_programListing :
    lines m.programListing =
      (List.range ((m.program.length + 1) / 2)).map fun j =>
        (programLine j (wordAt m.program j)).toList := by
  rw [programListing, words_eq]
  exact lines_rows fun j hj => newline_not_mem_programLine (row_lt h 2 (by decide) hj) _

/-- The rows show all of the program. -/
theorem hexBytes?_hexListing : hexBytes? m.hexListing = some m.program := by
  have hrows : (lines m.hexListing).mapM hexLine? =
      some ((List.range ((m.program.length + 15) / 16)).map fun j =>
        (0x200 + 16 * j, (m.program.drop (16 * j)).take 16)) := by
    rw [lines_hexListing h]
    exact mapM_map_some fun j hj =>
      hexLine?_hexLine (row_lt h 16 (by decide) (List.mem_range.mp hj)) _
  rw [hexBytes?, hrows, Option.map_some, List.flatMap_map, List.flatMap_def]
  have hpieces := pieces_eq (n := 16) (by decide) m.program
  exact congrArg some (hpieces ▸ flatten_pieces 16 m.program)

/-- The opcodes show all of the program, and a zero behind it if its length is odd. -/
theorem programBytes?_programListing :
    programBytes? m.programListing = some (padded m.program) := by
  have hrows : (lines m.programListing).mapM programLine? =
      some ((List.range ((m.program.length + 1) / 2)).map fun j =>
        { address := 0x200 + 2 * j
          opcode := wordAt m.program j
          text := meaning (wordAt m.program j) }) := by
    rw [lines_programListing h]
    exact mapM_map_some fun j hj =>
      programLine?_programLine (row_lt h 2 (by decide) (List.mem_range.mp hj)) _
  rw [programBytes?, hrows, Option.map_some, List.flatMap_map, ← wordBytes_words, words_eq,
    List.flatMap_map]

theorem hexListing_line {line : List Char} (hline : (lines m.hexListing)[j]? = some line) :
    line.take 3 = Hex.fixed 3 (0x200 + 16 * j) ∧
      hexLine? line = some (0x200 + 16 * j, (m.program.drop (16 * j)).take 16) := by
  rw [lines_hexListing h] at hline
  obtain ⟨hj, rfl⟩ := List.getElem?_eq_some_iff.mp hline
  have hrow : 0x200 + 16 * j < 4096 := row_lt h 16 (by decide) (by simpa using hj)
  simp only [List.getElem_map, List.getElem_range]
  refine ⟨?_, hexLine?_hexLine hrow _⟩
  rw [toList_hexLine hrow]
  exact List.take_left' (Hex.length_fixed 3 _)

theorem programListing_line {line : List Char}
    (hline : (lines m.programListing)[j]? = some line) :
    line.take 3 = Hex.fixed 3 (0x200 + 2 * j) ∧
      programLine? line =
        some
          { address := 0x200 + 2 * j
            opcode := wordAt m.program j
            text := meaning (wordAt m.program j) } := by
  rw [lines_programListing h] at hline
  obtain ⟨hj, rfl⟩ := List.getElem?_eq_some_iff.mp hline
  have hrow : 0x200 + 2 * j < 4096 := row_lt h 2 (by decide) (by simpa using hj)
  simp only [List.getElem_map, List.getElem_range]
  refine ⟨?_, programLine?_programLine hrow _⟩
  rw [toList_programLine hrow, List.append_assoc, List.append_assoc, List.append_assoc]
  exact List.take_left' (Hex.length_fixed 3 _)

variable {m' : Memory} (h' : m'.romLength ≤ capacity)

include h'

theorem hexListing_eq_iff : m.hexListing = m'.hexListing ↔ m.program = m'.program := by
  constructor
  · intro hlisting
    have hbytes := hexBytes?_hexListing h
    rw [hlisting, hexBytes?_hexListing h'] at hbytes
    exact (Option.some.inj hbytes).symm
  · intro hprogram
    rw [hexListing, hexListing, hprogram]

theorem programListing_eq_iff :
    m.programListing = m'.programListing ↔ padded m.program = padded m'.program := by
  constructor
  · intro hlisting
    have hbytes := programBytes?_programListing h
    rw [hlisting, programBytes?_programListing h'] at hbytes
    exact (Option.some.inj hbytes).symm
  · intro hprogram
    rw [programListing, programListing, words_eq_iff.mpr hprogram]

end Rows

end Memory

namespace Machine

open Listing

/-- Both listings after any history. One has a line for every sixteen bytes of the program and the
other one for every two, begun ones counted; each line starts with the address of its first byte in
three digits and shows the bytes that it is about. Read in order, the first shows the program and
the second the program with a zero behind it if its length is odd. So machines whose programs
differ have different listings, but for such a zero in the second. -/
theorem listings_lossless (config : Config) (entropy : Random.Key) (calls : List Call) :
    let m := ((create config entropy).after calls).computer.memory
    m.program.length = m.romLength ∧
    (lines m.hexListing).length = (m.romLength + 15) / 16 ∧
    (∀ j line, (lines m.hexListing)[j]? = some line →
      line.take 3 = Hex.fixed 3 (0x200 + 16 * j) ∧
        hexLine? line = some (0x200 + 16 * j, (m.program.drop (16 * j)).take 16)) ∧
    hexBytes? m.hexListing = some m.program ∧
    (lines m.programListing).length = (m.romLength + 1) / 2 ∧
    (∀ j line, (lines m.programListing)[j]? = some line →
      line.take 3 = Hex.fixed 3 (0x200 + 2 * j) ∧
        ∃ shown, programLine? line = some shown ∧ shown.address = 0x200 + 2 * j ∧
          shown.opcode =
            Word.ofBytes (m.program.getD (2 * j) 0) (m.program.getD (2 * j + 1) 0)) ∧
    programBytes? m.programListing = some (padded m.program) ∧
    ∀ config' entropy' calls',
      let m' := ((create config' entropy').after calls').computer.memory
      (m.hexListing = m'.hexListing ↔ m.program = m'.program) ∧
        (m.programListing = m'.programListing ↔ padded m.program = padded m'.program) := by
  intro m
  have hfits : ∀ config entropy calls,
      ((create config entropy).after calls).computer.memory.romLength ≤ Memory.capacity :=
    fun config entropy calls =>
      (after_wellFormed (create_wellFormed config entropy) calls).romLength_le
  have h : m.romLength ≤ Memory.capacity := hfits config entropy calls
  refine ⟨m.length_program, ?_, fun j line => Memory.hexListing_line h,
    Memory.hexBytes?_hexListing h, ?_, ?_, Memory.programBytes?_programListing h, ?_⟩
  · rw [Memory.lines_hexListing h, List.length_map, List.length_range, m.length_program]
  · rw [Memory.lines_programListing h, List.length_map, List.length_range, m.length_program]
  · intro j line hline
    obtain ⟨haddress, hshown⟩ := Memory.programListing_line h hline
    exact ⟨haddress, _, hshown, rfl, rfl⟩
  · intro config' entropy' calls'
    have h' := hfits config' entropy' calls'
    exact ⟨Memory.hexListing_eq_iff h h', Memory.programListing_eq_iff h h'⟩

/-- A program of three bytes is listed as one of four. -/
example :
    let m := (create { seed := some 0 } (.ofSeed 0)).after [.makeReady, .load [0x12, 0x00, 0xFF]]
    m.programListing = "200: 1200  JP 0x200\n202: FF00  ???\n" := by
  decide +kernel

end Machine
end ChipEight
