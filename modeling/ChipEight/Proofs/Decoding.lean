import ChipEight.Instruction.Decode
import ChipEight.Instruction.Template

/-!
# ChipEight.Proofs.Decoding

Which opcodes mean something, and what.

* `Word.toNat_digits`, `toNat_nn`, `toNat_nnn` — a word, its low byte and its address from their
  hexadecimal digits; `Word.ofNibbles_digits` and `digits_ofNibbles` put a word together and take it
  apart again.
* `Instruction.encode_decode`, `decode_encode` — an opcode that decodes is what its instruction
  encodes to; an instruction that no other one shadows is what its encoding decodes to.
* `Instruction.decode_ok_iff`, `decode_error_iff` — an opcode decodes just when it fits one of the
  35 templates; the error of one that does not names it, and its family.
-/

namespace ChipEight

/-! ## Digits -/

theorem nibble_zero (k : Nat) (d : Fin 16) : nibble 0 (k * 16 + d.val) = d := by
  apply Fin.ext
  rw [nibble, Fin.val_ofNat, Nat.mul_zero, Nat.shiftRight_zero]
  omega

theorem nibble_succ (place k : Nat) (d : Fin 16) :
    nibble (place + 1) (k * 16 + d.val) = nibble place k := by
  have hfirst : (k * 16 + d.val) >>> 4 = k := by
    rw [Nat.shiftRight_eq_div_pow]
    omega
  rw [nibble, nibble, Nat.mul_add, Nat.add_comm (4 * place), Nat.shiftRight_add, hfirst]

theorem nibble_val (d : Fin 16) : nibble 0 d.val = d := by
  have h := nibble_zero 0 d
  rwa [Nat.zero_mul, Nat.zero_add] at h

/-- A number comes apart into its last digit and the number before it. -/
theorem div_nibble (n : Nat) : n / 16 * 16 + (nibble 0 n).val = n := by
  rw [nibble, Fin.val_ofNat, Nat.mul_zero, Nat.shiftRight_zero]
  omega

theorem nibble_div (place n : Nat) : nibble place (n / 16) = nibble (place + 1) n := by
  have h := nibble_succ place (n / 16) (nibble 0 n)
  rwa [div_nibble, eq_comm] at h

namespace Word

theorem toNat_digits (w : Word) :
    w.toNat = ((w.group.val * 16 + w.x.val) * 16 + w.y.val) * 16 + w.n.val := by
  have h : ∀ place, (nibble place w.toNat).val = w.toNat / 16 ^ place % 16 := by
    intro place
    rw [nibble, Fin.val_ofNat, Nat.shiftRight_eq_div_pow, Nat.pow_mul]
  have := w.isLt
  rw [group, x, y, n, h, h, h, h]
  omega

theorem toNat_nn (w : Word) : w.nn.toNat = w.y.val * 16 + w.n.val := by
  have := toNat_digits w
  rw [nn, BitVec.toNat_setWidth]
  omega

theorem toNat_nnn (w : Word) : w.nnn.toNat = (w.x.val * 16 + w.y.val) * 16 + w.n.val := by
  have := toNat_digits w
  rw [nnn, BitVec.toNat_setWidth]
  omega

theorem toNat_ofNibbles (a b c d : Fin 16) :
    (ofNibbles a b c d).toNat = ((a.val * 16 + b.val) * 16 + c.val) * 16 + d.val := by
  rw [ofNibbles, BitVec.toNat_ofNat]
  omega

theorem ofNibbles_digits (w : Word) : ofNibbles w.group w.x w.y w.n = w := by
  apply BitVec.eq_of_toNat_eq
  rw [toNat_ofNibbles, ← toNat_digits]

theorem digits_ofNibbles (a b c d : Fin 16) :
    (ofNibbles a b c d).group = a ∧ (ofNibbles a b c d).x = b ∧ (ofNibbles a b c d).y = c ∧
      (ofNibbles a b c d).n = d := by
  have hdigits := toNat_digits (ofNibbles a b c d)
  have hwhole := toNat_ofNibbles a b c d
  refine ⟨Fin.ext ?_, Fin.ext ?_, Fin.ext ?_, Fin.ext ?_⟩ <;> omega

@[simp] theorem group_ofNibbles (a b c d : Fin 16) : (ofNibbles a b c d).group = a :=
  (digits_ofNibbles a b c d).1

@[simp] theorem x_ofNibbles (a b c d : Fin 16) : (ofNibbles a b c d).x = b :=
  (digits_ofNibbles a b c d).2.1

@[simp] theorem y_ofNibbles (a b c d : Fin 16) : (ofNibbles a b c d).y = c :=
  (digits_ofNibbles a b c d).2.2.1

@[simp] theorem n_ofNibbles (a b c d : Fin 16) : (ofNibbles a b c d).n = d :=
  (digits_ofNibbles a b c d).2.2.2

/-- A byte spelled by the last two digits of a word. -/
@[simp] theorem nn_ofNibbles (a b : Fin 16) (nn : Byte) :
    (ofNibbles a b (nibble 1 nn.toNat) (nibble 0 nn.toNat)).nn = nn := by
  apply BitVec.eq_of_toNat_eq
  have hlast := div_nibble nn.toNat
  have hfirst := div_nibble (nn.toNat / 16)
  simp only [nibble_div, Nat.reduceAdd] at hfirst
  rw [toNat_nn, y_ofNibbles, n_ofNibbles]
  omega

/-- An address spelled by the last three digits of a word. -/
@[simp] theorem nnn_ofNibbles (a : Fin 16) (nnn : Address) :
    (ofNibbles a (nibble 2 nnn.toNat) (nibble 1 nnn.toNat) (nibble 0 nnn.toNat)).nnn = nnn := by
  apply BitVec.eq_of_toNat_eq
  have hlast := div_nibble nnn.toNat
  have hmiddle := div_nibble (nnn.toNat / 16)
  have hfirst := div_nibble (nnn.toNat / 16 / 16)
  simp only [nibble_div, Nat.reduceAdd] at hmiddle hfirst
  rw [toNat_nnn, x_ofNibbles, y_ofNibbles, n_ofNibbles]
  omega

theorem nibble_nn (w : Word) : nibble 1 w.nn.toNat = w.y ∧ nibble 0 w.nn.toNat = w.n := by
  rw [toNat_nn, nibble_succ, nibble_val, nibble_zero]
  exact ⟨rfl, rfl⟩

theorem nibble_nnn (w : Word) :
    nibble 2 w.nnn.toNat = w.x ∧ nibble 1 w.nnn.toNat = w.y ∧ nibble 0 w.nnn.toNat = w.n := by
  rw [toNat_nnn, nibble_succ, nibble_succ, nibble_val, nibble_succ, nibble_zero, nibble_zero]
  exact ⟨rfl, rfl, rfl⟩

end Word

/-- The family that speaks for a leading digit. -/
def Family.ofGroup (group : Fin 16) : Family :=
  match group.val with
  | 0x5 => .equality
  | 0x8 => .arithmetic
  | 0x9 => .inequality
  | 0xE => .keySkip
  | _ => .misc

namespace Instruction

theorem ofDigit?_eq_none :
    ∀ n : Fin 16, 7 < n.val → n.val ≠ 0xE → Arithmetic.ofDigit? n = none := by
  decide

theorem ofSingle?_keySkip_eq_none {low : Nat} (x : Register) (h : low ≠ 0x9E ∧ low ≠ 0xA1) :
    ofSingle? 0xE low x = none := by
  unfold ofSingle?
  split <;> first | omega | rfl

theorem ofSingle?_misc_eq_none {low : Nat} (x : Register)
    (h : low ≠ 0x07 ∧ low ≠ 0x0A ∧ low ≠ 0x15 ∧ low ≠ 0x18 ∧ low ≠ 0x1E ∧ low ≠ 0x29 ∧
      low ≠ 0x33 ∧ low ≠ 0x55 ∧ low ≠ 0x65) :
    ofSingle? 0xF low x = none := by
  unfold ofSingle?
  split <;> first | omega | rfl

variable {w : Word}

theorem orRefuse_error {family : Family} {o : Option Instruction} {e : Error}
    (h : orRefuse w family o = .error e) : e = .invalidOpcode w family := by
  cases o with
  | none =>
    cases h
    rfl
  | some i => cases h

theorem orRefuse_ok {family : Family} {o : Option Instruction} {i : Instruction}
    (h : orRefuse w family o = .ok i) : o = some i := by
  cases o with
  | none => cases h
  | some j =>
    cases h
    rfl

theorem decode_error {e : Error} (h : decode w = .error e) :
    e = .invalidOpcode w (.ofGroup w.group) := by
  unfold decode at h
  unfold Family.ofGroup
  split at h
  case h_6 hg =>
    rw [hg]
    exact orRefuse_error h
  case h_9 hg =>
    rw [hg]
    exact orRefuse_error h
  case h_10 hg =>
    rw [hg]
    exact orRefuse_error h
  case h_15 hg =>
    rw [hg]
    exact orRefuse_error h
  case h_16 h0 h1 h2 h3 h4 h5 h6 h7 h8 h9 h10 h11 h12 h13 h14 =>
    have hg : w.group.val = 15 := by grind
    rw [hg]
    exact orRefuse_error h
  all_goals cases h

theorem template_mem (i : Instruction) : i.template ∈ Template.all := by
  cases i with
  | skip condition => cases condition <;> exact of_decide_eq_true rfl
  | arith op x y => cases op <;> exact of_decide_eq_true rfl
  | _ => exact of_decide_eq_true rfl

theorem ofDigit?_digit {d : Fin 16} {op : Arithmetic} (h : Arithmetic.ofDigit? d = some op) :
    op.digit = d := by
  unfold Arithmetic.ofDigit? at h
  have hd := List.find?_some h
  exact beq_iff_eq.mp hd

/-! ## Decoding and encoding -/

/-- A template is filled digit by digit. -/
theorem fill_eq {g : Fin 16} {b c d : Cell} {o : Operands} (hg : w.group.val = g.val)
    (hx : b.fill o = w.x) (hy : c.fill o = w.y) (hn : d.fill o = w.n) :
    (⟨.digit g, b, c, d⟩ : Template).fill o = w := by
  rw [Template.fill, Cell.fill, hx, hy, hn, ← Fin.ext hg, Word.ofNibbles_digits]

theorem fill_single {g c d : Fin 16} (hg : w.group.val = g.val)
    (h : w.nn.toNat = c.val * 16 + d.val) : (Template.single g c d).fill { x := w.x } = w := by
  rw [Word.toNat_nn] at h
  have hy : c = w.y := Fin.ext (by omega)
  have hn : d = w.n := Fin.ext (by omega)
  exact fill_eq hg rfl hy hn

theorem ofSingle?_encode {g : Fin 16} (hg : w.group = g) {i : Instruction}
    (h : ofSingle? g w.nn.toNat w.x = some i) : i.encode = w := by
  unfold ofSingle? at h
  split at h
  case h_12 => cases h
  all_goals
    rename_i hgroup hlow
    cases h
    exact fill_single ((congrArg Fin.val hg).trans hgroup) hlow

/-- An opcode that decodes is what its instruction encodes to. -/
theorem encode_decode {i : Instruction} (h : decode w = .ok i) : i.encode = w := by
  obtain ⟨hy, hn⟩ := w.nibble_nn
  obtain ⟨hx', hy', hn'⟩ := w.nibble_nnn
  unfold decode at h
  split at h
  case h_1 hg =>
    cases h
    by_cases hclear : w = 0x00E0
    · rw [if_pos hclear, hclear]
      rfl
    · rw [if_neg hclear]
      by_cases hret : w = 0x00EE
      · rw [if_pos hret, hret]
        rfl
      · rw [if_neg hret]
        exact fill_eq hg hx' hy' hn'
  case h_6 hg =>
    have hi := orRefuse_ok h
    split at hi
    case isTrue hzero =>
      cases hi
      exact fill_eq hg rfl rfl hzero.symm
    case isFalse => cases hi
  case h_9 hg =>
    obtain ⟨op, hop, rfl⟩ := Option.map_eq_some_iff.mp (orRefuse_ok h)
    exact fill_eq hg rfl rfl (ofDigit?_digit hop)
  case h_10 hg =>
    have hi := orRefuse_ok h
    split at hi
    case isTrue hzero =>
      cases hi
      exact fill_eq hg rfl rfl hzero.symm
    case isFalse => cases hi
  case h_14 hg =>
    cases h
    exact fill_eq hg rfl rfl (nibble_val w.n)
  case h_15 hg => exact ofSingle?_encode (Fin.ext hg) (orRefuse_ok h)
  case h_16 h0 h1 h2 h3 h4 h5 h6 h7 h8 h9 h10 h11 h12 h13 h14 =>
    have hg : w.group.val = 15 := by grind
    exact ofSingle?_encode (Fin.ext hg) (orRefuse_ok h)
  all_goals
    rename_i hg
    cases h
    first
      | exact fill_eq hg hx' hy' hn'
      | exact fill_eq hg rfl hy hn

/-- An instruction is what its encoding decodes to, unless 00E0 or 00EE comes first. -/
theorem decode_encode {i : Instruction} (hclear : i ≠ .sys 0x0E0) (hret : i ≠ .sys 0x0EE) :
    decode i.encode = .ok i := by
  unfold encode Template.fill decode
  cases i with
  | sys a =>
    have hnnn := Word.nnn_ofNibbles 0 a
    have hclear' : a ≠ (0x00E0 : Word).nnn := fun h => hclear (congrArg sys h)
    have hret' : a ≠ (0x00EE : Word).nnn := fun h => hret (congrArg sys h)
    simp only [template, operands, Template.address, Cell.fill, Word.group_ofNibbles, hnnn]
    rw [if_neg fun h => hclear' (hnnn.symm.trans (congrArg Word.nnn h)),
      if_neg fun h => hret' (hnnn.symm.trans (congrArg Word.nnn h))]
    rfl
  | skip condition =>
    cases condition <;>
    · simp only [template, operands, Condition.template, Condition.operands, Template.immediate,
        Template.pair, Template.single, Cell.fill, Word.group_ofNibbles, Word.x_ofNibbles,
        Word.y_ofNibbles, Word.n_ofNibbles, Word.nn_ofNibbles, Word.toNat_nn]
      rfl
  | arith op x y =>
    cases op <;>
    · simp only [template, operands, Template.pair, Cell.fill, Word.group_ofNibbles,
        Word.x_ofNibbles, Word.y_ofNibbles, Word.n_ofNibbles]
      rfl
  | _ =>
    simp only [template, operands, Template.fixed, Template.address, Template.immediate,
      Template.single, Cell.fill, Word.group_ofNibbles, Word.x_ofNibbles, Word.y_ofNibbles,
      Word.n_ofNibbles, Word.nn_ofNibbles, Word.nnn_ofNibbles, Word.toNat_nn, nibble_val]
    rfl

theorem fits_fill (t : Template) (o : Operands) : t.Fits (t.fill o) := by
  have fits : ∀ c : Cell, c.Fits (c.fill o) := by
    intro c
    cases c with
    | digit d => rfl
    | _ => trivial
  unfold Template.fill Template.Fits
  rw [Word.group_ofNibbles, Word.x_ofNibbles, Word.y_ofNibbles, Word.n_ofNibbles]
  exact ⟨fits _, fits _, fits _, fits _⟩

/-- An opcode that decodes fits the template of its instruction. -/
theorem template_fits {i : Instruction} (h : decode w = .ok i) : i.template.Fits w := by
  have hfits := fits_fill i.template i.operands
  have hw : i.template.fill i.operands = w := encode_decode h
  rwa [hw] at hfits

/-- An opcode that fits a template decodes to an instruction of that template, unless it is one of
the two that 0NNN leaves to others. -/
theorem decode_fits {t : Template} (ht : t ∈ Template.all) (h : t.Fits w) :
    ∃ i, decode w = .ok i ∧ (t = i.template ∨ t = .address 0 ∧ (i = .clear ∨ i = .ret)) := by
  obtain ⟨hg, hx, hy, hn⟩ := h
  have hw := w.ofNibbles_digits
  unfold decode
  rw [Word.toNat_nn]
  generalize w.group = g at hg hw ⊢
  generalize w.x = x at hx hw ⊢
  generalize w.y = y at hy hw ⊢
  generalize w.n = n at hn hw ⊢
  simp only [Template.all, Arithmetic.all, List.map_cons, List.map_nil, List.cons_append,
    List.nil_append, List.mem_cons, List.not_mem_nil, or_false] at ht
  rcases ht with rfl | rfl | rfl | rfl | rfl | rfl | rfl | rfl | rfl | rfl | rfl | rfl | rfl |
    rfl | rfl | rfl | rfl | rfl | rfl | rfl | rfl | rfl | rfl | rfl | rfl | rfl | rfl | rfl |
    rfl | rfl | rfl | rfl | rfl | rfl | rfl
  case inl | inr.inl =>
    cases hg
    cases hx
    cases hy
    cases hn
    subst hw
    exact ⟨_, rfl, .inl rfl⟩
  case inr.inr.inl =>
    cases hg
    refine ⟨_, rfl, ?_⟩
    by_cases hclear : w = 0x00E0
    · rw [if_pos hclear]
      exact .inr ⟨rfl, .inl rfl⟩
    · rw [if_neg hclear]
      by_cases hret : w = 0x00EE
      · rw [if_pos hret]
        exact .inr ⟨rfl, .inr rfl⟩
      · rw [if_neg hret]
        exact .inl rfl
  all_goals
    cases hg
    cases hx
    cases hy
    cases hn
    exact ⟨_, rfl, .inl rfl⟩

/-- An opcode that fits no template is refused, by name and family, and no other is. -/
theorem decode_error_iff {e : Error} :
    decode w = .error e ↔
      (∀ t ∈ Template.all, ¬ t.Fits w) ∧ e = .invalidOpcode w (.ofGroup w.group) := by
  constructor
  · intro h
    refine ⟨?_, decode_error h⟩
    intro t ht hfits
    obtain ⟨i, hi, -⟩ := decode_fits ht hfits
    rw [h] at hi
    cases hi
  · rintro ⟨hw, rfl⟩
    cases hd : decode w with
    | error e => rw [decode_error hd]
    | ok i => exact absurd (template_fits hd) (hw i.template i.template_mem)

theorem decode_ok_iff : (∃ i, decode w = .ok i) ↔ ∃ t ∈ Template.all, t.Fits w := by
  constructor
  · rintro ⟨i, hi⟩
    exact ⟨i.template, i.template_mem, template_fits hi⟩
  · rintro ⟨t, ht, hfits⟩
    obtain ⟨i, hi, -⟩ := decode_fits ht hfits
    exact ⟨i, hi⟩

end Instruction
end ChipEight
