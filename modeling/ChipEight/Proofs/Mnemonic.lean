import ChipEight.Proofs.Hex
import ChipEight.Proofs.Log

/-!
# ChipEight.Proofs.Mnemonic

An assembler for the mnemonics.

* `Operand.ofText?`           — the operand that a text stands for.
* `Instruction.ofAssembly?`   — the instruction that a head and operands make up.
* `Instruction.ofMnemonic?`   — both together: the instruction that a mnemonic stands for.
* `Operand.ofText?_text`, `Instruction.ofAssembly?_assembly`, `ofMnemonic?_mnemonic` — each reads
  back what was written.
* `Instruction.assemble`      — the opcode that a mnemonic stands for.
* `mnemonic_unambiguous`      — so a mnemonic tells its opcode; and it fits its column in the log.
-/

namespace ChipEight

/-! ## Operands -/

namespace Operand

/-- The number below 16 that a text of decimal digits spells. -/
def count? (text : List Char) : Option (Fin 16) :=
  (List.finRange 16).find? fun n => (toString n.val).toList == text

/-- The operand that a text stands for. -/
def ofText? : List Char → Option Operand
  | ['V', d] => (Hex.digit? d).map .register
  | ['0', 'x', b, a] => (Hex.value? [b, a]).map fun n => .byte (BitVec.ofNat 8 n)
  | ['0', 'x', c, b, a] => (Hex.value? [c, b, a]).map fun n => .address (BitVec.ofNat 12 n)
  | ['I'] => some .index
  | ['[', 'I', ']'] => some .indirect
  | ['D', 'T'] => some .delay
  | ['S', 'T'] => some .sound
  | ['K'] => some .key
  | ['F'] => some .font
  | ['B'] => some .digits
  | text => (count? text).map .count

theorem text_register (x : Register) : (register x).text.toList = 'V' :: Hex.fixed 1 x.val := by
  rw [text, String.toList_append, Hex.toList_padded Nat.one_pos (Hex.fits_digit x)]
  rfl

theorem text_byte (b : Byte) : (byte b).text.toList = '0' :: 'x' :: Hex.fixed 2 b.toNat := by
  rw [text, Hex.literal, String.toList_append,
    Hex.toList_padded Nat.two_pos (Hex.fits_byte b)]
  rfl

theorem text_address (a : Address) :
    (address a).text.toList = '0' :: 'x' :: Hex.fixed 3 a.toNat := by
  rw [text, Hex.literal, String.toList_append,
    Hex.toList_padded (Nat.succ_pos 2) (Hex.fits_three a.isLt)]
  rfl

/-- The most characters that the text of an operand of a kind has. -/
def width : Operand → Nat
  | .register _ => 2
  | .byte _ => 4
  | .address _ => 5
  | .count _ => 2
  | .indirect => 3
  | .delay | .sound => 2
  | .index | .key | .font | .digits => 1

theorem length_text_le (o : Operand) : o.text.length ≤ o.width := by
  have hcount : ∀ n : Fin 16, (count n).text.length ≤ 2 := by decide
  cases o with
  | register x =>
    rw [← String.length_toList, text_register, List.length_cons, Hex.length_fixed]
    exact Nat.le_refl 2
  | byte b =>
    rw [← String.length_toList, text_byte, List.length_cons, List.length_cons, Hex.length_fixed]
    exact Nat.le_refl 4
  | address a =>
    rw [← String.length_toList, text_address, List.length_cons, List.length_cons,
      Hex.length_fixed]
    exact Nat.le_refl 5
  | count n => exact hcount n
  | _ => exact Nat.le_refl _

theorem ofText?_count :
    ∀ n : Fin 16, ofText? (count n).text.toList = some (count n) := by
  decide

theorem ofText?_text (o : Operand) : ofText? o.text.toList = some o := by
  cases o with
  | register x =>
    have hread : ofText? ('V' :: Hex.fixed 1 x.val) =
        (Hex.digit? (Hex.digit (nibble 0 x.val))).map register := rfl
    rw [text_register, hread, Hex.digit?_digit, nibble_val]
    rfl
  | byte b =>
    have hread : ofText? ('0' :: 'x' :: Hex.fixed 2 b.toNat) =
        (Hex.value? (Hex.fixed 2 b.toNat)).map fun n => byte (BitVec.ofNat 8 n) := rfl
    rw [text_byte, hread, Hex.value?_fixed (Hex.fits_byte b), Option.map_some,
      BitVec.ofNat_toNat, BitVec.setWidth_eq]
  | address a =>
    have hread : ofText? ('0' :: 'x' :: Hex.fixed 3 a.toNat) =
        (Hex.value? (Hex.fixed 3 a.toNat)).map fun n => address (BitVec.ofNat 12 n) := rfl
    rw [text_address, hread, Hex.value?_fixed (Hex.fits_three a.isLt), Option.map_some,
      BitVec.ofNat_toNat, BitVec.setWidth_eq]
  | count n => exact ofText?_count n
  | _ => rfl

end Operand

/-! ## Words -/

/-- A text without blanks, commas and ends of lines. -/
def Solid (text : List Char) : Prop := ∀ c ∈ text, c ≠ ' ' ∧ c ≠ ',' ∧ c ≠ '\n'

instance (text : List Char) : Decidable (Solid text) := List.decidableBAll _ text

/-- The words of a line between blanks, without their commas. -/
def words (line : List Char) : List (List Char) := (line.splitOn ' ').map (·.filter (· ≠ ','))

namespace Solid

variable {text : List Char} (h : Solid text)

include h

theorem filter_comma : text.filter (· ≠ ',') = text :=
  List.filter_eq_self.mpr fun c hc => decide_eq_true (h c hc).2.1

theorem blank_not_mem : ' ' ∉ text := fun hc => (h ' ' hc).1 rfl

theorem newline_not_mem : '\n' ∉ text := fun hc => (h '\n' hc).2.2 rfl

theorem append {more : List Char} (hmore : Solid more) : Solid (text ++ more) := by
  intro c hc
  rcases List.mem_append.mp hc with hc | hc
  · exact h c hc
  · exact hmore c hc

theorem words_eq : words text = [text] := by
  rw [words, List.splitOn_eq_singleton h.blank_not_mem, List.map_singleton, h.filter_comma]

theorem words_blank (rest : List Char) : words (text ++ ' ' :: rest) = text :: words rest := by
  rw [words, List.splitOn_append_cons_self_of_not_mem h.blank_not_mem, List.map_cons,
    h.filter_comma]
  rfl

theorem words_comma (rest : List Char) :
    words (text ++ [',', ' '] ++ rest) = text :: words rest := by
  have hblank : ' ' ∉ text ++ [','] := by
    rw [List.mem_append, List.mem_singleton]
    rintro (hc | hc)
    · exact h.blank_not_mem hc
    · cases hc
  have hcomma : (text ++ [',']).filter (· ≠ ',') = text := by
    rw [List.filter_append, h.filter_comma]
    exact List.append_nil text
  have hword : text ++ [',', ' '] ++ rest = (text ++ [',']) ++ ' ' :: rest := by simp
  rw [hword, words, List.splitOn_append_cons_self_of_not_mem hblank, List.map_cons, hcomma]
  rfl

end Solid

theorem words_intercalate {texts : List (List Char)} (h : ∀ text ∈ texts, Solid text)
    (hne : texts ≠ []) : words ([',', ' '].intercalate texts) = texts := by
  induction texts with
  | nil => exact absurd rfl hne
  | cons text rest ih =>
    have htext : Solid text := h text List.mem_cons_self
    -- Behind the last text there is no separator.
    cases rest with
    | nil => rw [List.intercalate_singleton, htext.words_eq]
    | cons next rest =>
      have hmore : next :: rest ≠ [] := List.cons_ne_nil _ _
      rw [List.intercalate_cons_of_ne_nil hmore, htext.words_comma,
        ih (fun text' h' => h text' (List.mem_cons_of_mem text h')) hmore]

theorem length_intercalate_le (texts : List (List Char)) :
    ([',', ' '].intercalate texts).length ≤ texts.foldr (fun text n => text.length + 2 + n) 0 := by
  induction texts with
  | nil => exact Nat.le_refl 0
  | cons text rest ih =>
    rw [List.foldr_cons]
    cases rest with
    | nil =>
      rw [List.intercalate_singleton]
      omega
    | cons next rest =>
      have hseparator : [',', ' '].length = 2 := rfl
      rw [List.intercalate_cons_of_ne_nil (List.cons_ne_nil _ _), List.length_append,
        List.length_append, hseparator]
      omega

theorem newline_not_mem_intercalate {texts : List (List Char)} (h : ∀ text ∈ texts, Solid text) :
    '\n' ∉ [',', ' '].intercalate texts := by
  induction texts with
  | nil => exact List.not_mem_nil
  | cons text rest ih =>
    have htext : '\n' ∉ text := (h text List.mem_cons_self).newline_not_mem
    cases rest with
    | nil => rwa [List.intercalate_singleton]
    | cons next rest =>
      have hrest := ih fun text' h' => h text' (List.mem_cons_of_mem text h')
      rw [List.intercalate_cons_of_ne_nil (List.cons_ne_nil _ _), List.mem_append, List.mem_append]
      rintro ((hc | hc) | hc)
      · exact htext hc
      · exact absurd hc (by decide)
      · exact hrest hc

theorem Hex.solid_fixed (width n : Nat) : Solid (fixed width n) := by
  intro c hc
  have halnum := isAlphanum_of_mem_fixed hc
  refine ⟨?_, ?_, ?_⟩ <;>
  · rintro rfl
    cases halnum

theorem Operand.solid_text (o : Operand) : Solid o.text.toList := by
  have hcount : ∀ n : Fin 16, Solid (count n).text.toList := by decide
  have hletter : Solid ['V'] := by decide
  have hmark : Solid ['0', 'x'] := by decide
  cases o with
  | register x => exact text_register x ▸ hletter.append (Hex.solid_fixed 1 x.val)
  | byte b => exact text_byte b ▸ hmark.append (Hex.solid_fixed 2 b.toNat)
  | address a => exact text_address a ▸ hmark.append (Hex.solid_fixed 3 a.toNat)
  | count n => exact hcount n
  | _ => decide

theorem Operand.solid_texts (operands : List Operand) :
    ∀ text ∈ operands.map (·.text.toList), Solid text := by
  intro text htext
  obtain ⟨o, -, rfl⟩ := List.mem_map.mp htext
  exact o.solid_text

/-! ## Instructions -/

namespace Instruction

/-- The instruction that a head and operands make up. -/
def ofAssembly? (head : String) : List Operand → Option Instruction
  | [] => if head = "CLS" then some .clear else if head = "RET" then some .ret else none
  | [.address a] =>
    if head = "SYS" then some (.sys a)
    else if head = "JP" then some (.jump a)
    else if head = "CALL" then some (.call a)
    else none
  | [.register x] =>
    if head = "SKP" then some (.skip (.keyDown x))
    else if head = "SKNP" then some (.skip (.keyUp x))
    else none
  | [.register x, .byte nn] =>
    if head = "SE" then some (.skip (.isByte x nn))
    else if head = "SNE" then some (.skip (.isNotByte x nn))
    else if head = "LD" then some (.setByte x nn)
    else if head = "ADD" then some (.addByte x nn)
    else if head = "RND" then some (.random x nn)
    else none
  | [.register x, .register y] =>
    if head = "SE" then some (.skip (.equal x y))
    else if head = "SNE" then some (.skip (.different x y))
    else (Arithmetic.all.find? (·.head == head)).map (.arith · x y)
  | [.register x, .address a] => if head = "JP" ∧ x = 0 then some (.jumpPlus a) else none
  | [.register x, .register y, .count n] => if head = "DRW" then some (.draw x y n) else none
  | [.index, .register x] => if head = "ADD" then some (.addIndex x) else none
  | operands =>
    if head = "LD" then
      match operands with
      | [.index, .address a] => some (.setIndex a)
      | [.register x, .delay] => some (.readDelay x)
      | [.register x, .key] => some (.awaitKey x)
      | [.register x, .indirect] => some (.restore x)
      | [.delay, .register x] => some (.setDelay x)
      | [.sound, .register x] => some (.setSound x)
      | [.font, .register x] => some (.glyph x)
      | [.digits, .register x] => some (.decimal x)
      | [.indirect, .register x] => some (.store x)
      | _ => none
    else none

theorem ofAssembly?_assembly (i : Instruction) :
    ofAssembly? i.assembly.1 i.assembly.2 = some i := by
  cases i with
  | skip condition => cases condition <;> rfl
  | arith op x y => cases op <;> rfl
  | _ => rfl

theorem solid_head (i : Instruction) : Solid i.assembly.1.toList := by
  cases i with
  | skip condition =>
    cases condition <;> simp only [assembly, Condition.assembly] <;> decide
  | arith op x y => cases op <;> simp only [assembly, Arithmetic.head] <;> decide
  | _ =>
    simp only [assembly]
    decide

/-- A mnemonic is a head alone, or a head, a blank and operands between commas. -/
theorem toList_mnemonic (i : Instruction) :
    (i.assembly.2 = [] ∧ i.mnemonic.toList = i.assembly.1.toList) ∨
      (i.assembly.2 ≠ [] ∧ i.mnemonic.toList =
        i.assembly.1.toList ++ ' ' :: [',', ' '].intercalate (i.assembly.2.map (·.text.toList))) := by
  unfold mnemonic
  obtain ⟨head, operands⟩ := i.assembly
  cases operands with
  | nil => exact .inl ⟨rfl, rfl⟩
  | cons o rest =>
    refine .inr ⟨List.cons_ne_nil o rest, ?_⟩
    simp [String.toList_intercalate, Function.comp_def]

theorem words_mnemonic (i : Instruction) :
    words i.mnemonic.toList = i.assembly.1.toList :: i.assembly.2.map (·.text.toList) := by
  have hhead := i.solid_head
  rcases i.toList_mnemonic with ⟨hnone, hline⟩ | ⟨hsome, hline⟩
  · rw [hline, hnone, hhead.words_eq]
    rfl
  · have htexts : i.assembly.2.map (·.text.toList) ≠ [] := by
      rwa [Ne, List.map_eq_nil_iff]
    rw [hline, hhead.words_blank, words_intercalate (Operand.solid_texts _) htexts]

theorem newline_not_mem_mnemonic (i : Instruction) : '\n' ∉ i.mnemonic.toList := by
  have hhead := i.solid_head.newline_not_mem
  have hrest := newline_not_mem_intercalate (Operand.solid_texts i.assembly.2)
  rcases i.toList_mnemonic with ⟨-, hline⟩ | ⟨-, hline⟩
  · rwa [hline]
  · rw [hline, List.mem_append, List.mem_cons]
    rintro (hc | hc | hc)
    · exact hhead hc
    · cases hc
    · exact hrest hc

/-- The most characters that operands of these kinds take, with a comma and a blank for each. -/
def operandWidth (operands : List Operand) : Nat := operands.foldr (fun o n => o.width + 2 + n) 0

theorem length_operands_le (operands : List Operand) :
    ([',', ' '].intercalate (operands.map (·.text.toList))).length ≤ operandWidth operands := by
  refine Nat.le_trans (length_intercalate_le _) ?_
  rw [List.foldr_map]
  induction operands with
  | nil => exact Nat.le_refl 0
  | cons o rest ih =>
    have hwidth := o.length_text_le
    rw [← String.length_toList] at hwidth
    rw [operandWidth] at ih ⊢
    rw [List.foldr_cons, List.foldr_cons]
    omega

/-- A mnemonic is no longer than its column in the log. -/
theorem length_mnemonic_le (i : Instruction) : i.mnemonic.length ≤ 16 := by
  have hwidths : i.assembly.1.length + 1 + operandWidth i.assembly.2 ≤ 16 := by
    cases i with
    | skip condition =>
      cases condition <;>
      · simp only [assembly, Condition.assembly]
        exact Nat.le_of_ble_eq_true rfl
    | arith op x y =>
      cases op <;>
      · simp only [assembly, Arithmetic.head]
        exact Nat.le_of_ble_eq_true rfl
    | _ =>
      simp only [assembly]
      exact Nat.le_of_ble_eq_true rfl
  have hoperands := length_operands_le i.assembly.2
  rw [← String.length_toList]
  rcases i.toList_mnemonic with ⟨-, hline⟩ | ⟨-, hline⟩
  · rw [hline, String.length_toList]
    omega
  · rw [hline, List.length_append, List.length_cons, String.length_toList]
    omega

/-- The instruction that a mnemonic stands for. -/
def ofMnemonic? (text : String) : Option Instruction :=
  match words text.toList with
  | [] => none
  | head :: operands => (operands.mapM Operand.ofText?).bind (ofAssembly? (String.ofList head))

theorem ofMnemonic?_mnemonic (i : Instruction) : ofMnemonic? i.mnemonic = some i := by
  have hoperands : (i.assembly.2.map (·.text.toList)).mapM Operand.ofText? = some i.assembly.2 := by
    have hread : Operand.ofText? ∘ (fun o : Operand => o.text.toList) = fun o => pure o :=
      funext Operand.ofText?_text
    rw [List.mapM_map, hread, List.mapM_pure, List.map_id']
    rfl
  rw [ofMnemonic?, words_mnemonic]
  simp only [hoperands, Option.bind_some, String.ofList_toList]
  exact i.ofAssembly?_assembly

theorem mnemonic_injective {i j : Instruction} (h : i.mnemonic = j.mnemonic) : i = j := by
  have hi := i.ofMnemonic?_mnemonic
  rw [h, ofMnemonic?_mnemonic] at hi
  exact (Option.some.inj hi).symm

/-- The opcode that a mnemonic stands for. -/
def assemble (text : String) : Option Word := (ofMnemonic? text).map encode

theorem assemble_mnemonic {w : Word} {i : Instruction} (h : decode w = .ok i) :
    assemble i.mnemonic = some w := by
  rw [assemble, ofMnemonic?_mnemonic, Option.map_some, encode_decode h]

/-- Opcodes that decode have the same mnemonic exactly if they are the same, and the assembler gets
the opcode back from the mnemonic; instructions are told apart by it as well, even those that no
opcode decodes to. No mnemonic has more than sixteen characters, so in the record of an instruction
it fills, with the blanks behind it, a column of sixteen. -/
theorem mnemonic_unambiguous :
    (∀ p q i j, decode p = .ok i → decode q = .ok j → (i.mnemonic = j.mnemonic ↔ p = q)) ∧
    (∀ p i, decode p = .ok i → assemble i.mnemonic = some p) ∧
    (∀ i j : Instruction, i.mnemonic = j.mnemonic ↔ i = j) ∧
    (∀ i : Instruction, i.mnemonic.length ≤ 16) ∧
    ∀ pc opcode i v index sp, ∃ spaces,
      spaces.all (· = ' ') = true ∧ (i.mnemonic ++ spaces).length = 16 ∧
        (Record.executing pc opcode i v index sp).text =
          Hex.padded 3 pc.toNat ++ ": " ++ Hex.padded 4 opcode.toNat ++ " " ++
            (i.mnemonic ++ spaces) ++ " v[" ++
            ", ".intercalate (v.toList.map fun b => Hex.padded 2 b.toNat) ++ "] i" ++
            Hex.padded 4 index.toNat ++ " sp" ++ toString sp.toNat := by
  refine ⟨?_, fun p i => assemble_mnemonic, ?_, length_mnemonic_le, ?_⟩
  · intro p q i j hp hq
    constructor
    · intro h
      have hassembled := assemble_mnemonic hp
      rw [h, assemble_mnemonic hq] at hassembled
      exact (Option.some.inj hassembled).symm
    · rintro rfl
      rw [hp] at hq
      cases hq
      rfl
  · exact fun i j => ⟨mnemonic_injective, congrArg mnemonic⟩
  · intro pc opcode i v index sp
    obtain ⟨spaces, hpadded, hspaces, hlength⟩ := padRight_eq 16 i.mnemonic
    refine ⟨spaces, hspaces, ?_, ?_⟩
    · rw [hlength, Nat.max_eq_left i.length_mnemonic_le]
    · rw [← hpadded]
      rfl

/-- A row count is decimal, every other number hexadecimal. -/
example : assemble "DRW VA, VB, 12" = some 0xDABC ∧ assemble "LD VA, 0x12" = some 0x6A12 := by
  decide +kernel

end Instruction
end ChipEight
