import ChipEight.Host.CommandLine
import Mathlib.Data.List.Nodup

/-!
# ChipEight.Proofs.Host.CommandLine

Command lines by what they spell, and what reading them gives.

* `Spelling`, `Occurrence` — the ways to write an option, and an option written with a value.
* `Chosen.addAll`     — what options mean one after another; the ROM may come anywhere between.
* `Progress.Stands`   — reading stands between two options; `Reads` says it of a result.
* `accept_options`, `accept_rom` — the words of options, and of the ROM, from any such place.
* `Line`              — options in any order and the ROM at any place among them, with their words.
* `parse_args`        — so a line means what its options mean one after another.
* `Line.exists_spells` — every choice of values has a line that spells it.
* `parse_spelled_line` — each option once gives the settings that were spelled, and an option once
  more is refused.
-/

namespace ChipEight
namespace Host
namespace CommandLine

/-- The ways to write an option with its value. -/
inductive Spelling (s : Setting) where
  /-- As in `--ips=5`. -/
  | longEquals
  /-- As in `--ips 5`. -/
  | longApart
  /-- As in `-i 5`. -/
  | shortApart (letter : Char) (h : s.short? = some letter)
  /-- As in `-i5`. -/
  | shortGlued (letter : Char) (h : s.short? = some letter)
  /-- As in `-i=5`. -/
  | shortEquals (letter : Char) (h : s.short? = some letter)

def Spelling.words {s : Setting} (value : List Char) : Spelling s → List (List Char)
  | .longEquals => ['-' :: '-' :: s.long.toList ++ '=' :: value]
  | .longApart => ['-' :: '-' :: s.long.toList, value]
  | .shortApart letter _ => [['-', letter], value]
  | .shortGlued letter _ => ['-' :: letter :: value]
  | .shortEquals letter _ => ['-' :: letter :: '=' :: value]

/-- An option with a value in its range, in digits with or without zeros and a plus sign ahead. -/
structure Occurrence where
  setting : Setting
  spelling : Spelling setting
  plus : Bool
  digits : List Char
  digits_ne_nil : digits ≠ []
  isDigit : ∀ c ∈ digits, c.isDigit = true
  digits_lt : Nat.ofDigitChars 10 digits 0 < setting.limit

namespace Occurrence

variable (o : Occurrence)

def value : Nat := Nat.ofDigitChars 10 o.digits 0

theorem value_lt : o.value < o.setting.limit := o.digits_lt

def text : List Char := if o.plus then '+' :: o.digits else o.digits

def words : List (List Char) := o.spelling.words o.text

end Occurrence

theorem ofText_long_equals (s : Setting) (value : List Char) :
    Argument.ofText ('-' :: '-' :: s.long.toList ++ '=' :: value) = .setting s (some value) := by
  cases s <;> rfl

theorem ofText_long (s : Setting) :
    Argument.ofText ('-' :: '-' :: s.long.toList) = .setting s none := by
  cases s <;> rfl

theorem ofText_short {s : Setting} {letter : Char} (h : s.short? = some letter) :
    Argument.ofText ['-', letter] = .setting s none := by
  cases s <;> cases h <;> rfl

theorem ofText_short_equals {s : Setting} {letter : Char} (h : s.short? = some letter)
    (value : List Char) :
    Argument.ofText ('-' :: letter :: '=' :: value) = .setting s (some value) := by
  cases s <;> cases h <;> rfl

theorem ofText_short_glued {s : Setting} {letter : Char} (h : s.short? = some letter)
    {value : List Char} (hnil : value ≠ []) (hequals : value.head? ≠ some '=') :
    Argument.ofText ('-' :: letter :: value) = .setting s (some value) := by
  have hshort : Argument.ofText ('-' :: letter :: value) = ofShort letter value := by
    cases s <;> cases h <;> rfl
  have hfound : Setting.all.find? (·.short? = some letter) = some s := by
    cases s <;> cases h <;> rfl
  rw [hshort, ofShort, hfound]
  dsimp only
  split
  case h_1 => exact absurd rfl hnil
  case h_2 => exact absurd rfl hequals
  case h_3 => rfl

theorem ofText_plain {text : List Char} (h : text.head? = some '-' → text = ['-']) :
    Argument.ofText text = .plain text := by
  unfold Argument.ofText
  split
  case h_1 => cases h rfl
  case h_2 => cases h rfl
  case h_3 => cases h rfl
  case h_4 => rfl

/-! ## Values -/

namespace Occurrence

variable (o : Occurrence)

theorem head?_text : ∃ c, o.text.head? = some c ∧ (c = '+' ∨ c.isDigit = true) := by
  rw [text]
  cases o.plus with
  | true => exact ⟨'+', rfl, .inl rfl⟩
  | false =>
    obtain ⟨c, rest, hdigits⟩ := List.exists_cons_of_ne_nil o.digits_ne_nil
    have hc : c.isDigit = true := o.isDigit c (hdigits ▸ List.mem_cons_self)
    exact ⟨c, by rw [hdigits]; rfl, .inr hc⟩

/-- A value starts with none of the signs that mean something else. -/
theorem head?_text_ne {c : Char} (hc : c = '-' ∨ c = '=') : o.text.head? ≠ some c := by
  obtain ⟨first, hfirst, hkind⟩ := o.head?_text
  rw [hfirst]
  rintro ⟨rfl⟩
  rcases hc with rfl | rfl <;> rcases hkind with h | h <;> revert h <;> decide

theorem text_ne_nil : o.text ≠ [] := by
  obtain ⟨c, hc, -⟩ := o.head?_text
  intro h
  rw [h] at hc
  cases hc

theorem number?_text (signed : Bool) : number? signed o.text = some (Int.ofNat o.value) := by
  have hdigits : digits? o.digits = some o.value :=
    if_pos ⟨o.digits_ne_nil, List.all_eq_true.mpr o.isDigit⟩
  rw [text]
  cases hplus : o.plus with
  | true =>
    show (digits? o.digits).map Int.ofNat = _
    rw [hdigits]
    rfl
  | false =>
    have hsign : ∀ c, c = '+' ∨ c = '-' → o.digits.head? ≠ some c := by
      intro c hc hhead
      have hmem := o.isDigit c (List.mem_of_head? hhead)
      rcases hc with rfl | rfl <;> revert hmem <;> decide
    unfold number?
    split
    case h_1 heq => exact absurd (congrArg List.head? heq) (hsign '+' (.inl rfl))
    case h_2 heq => exact absurd (congrArg List.head? heq) (hsign '-' (.inr rfl))
    case h_3 =>
      show (digits? o.digits).map Int.ofNat = _
      rw [hdigits]
      rfl

end Occurrence

/-! ## What options mean -/

namespace Chosen

def value? (c : Chosen) : Setting → Option Nat
  | .ips => c.ips.map (·.toNat)
  | .scale => c.scale.map (·.toNat)
  | .seed => c.seed.map (·.toNat)
  | .perStepTimers => c.perStepTimers.map (·.toNat)

def withRom (c : Chosen) (rom : String) : Chosen := { c with rom := some rom }

/-- One option more; a second time is refused. -/
def add (c : Chosen) (o : Occurrence) : Except Refusal Chosen :=
  if c.has o.setting then .error .repeated else .ok (c.put o.value o.setting)

variable (c : Chosen)

theorem choose_occurrence (o : Occurrence) : c.choose o.setting o.text = c.add o := by
  have hrange : 0 ≤ Int.ofNat o.value ∧ Int.ofNat o.value < o.setting.limit :=
    ⟨Int.natCast_nonneg _, Int.ofNat_lt.mpr o.value_lt⟩
  rw [choose, add, o.number?_text]
  simp only [hrange, and_self, if_true]
  rfl

theorem value?_put {n : Nat} {s : Setting} (hn : n < s.limit) (s' : Setting) :
    (c.put n s).value? s' = if s = s' then some n else c.value? s' := by
  by_cases hs : s = s'
  · subst hs
    rw [if_pos rfl]
    cases s with
    | ips => exact congrArg some (UInt64.toNat_ofNat_of_lt hn)
    | scale => exact congrArg some (UInt32.toNat_ofNat_of_lt hn)
    | seed => exact congrArg some (UInt64.toNat_ofNat_of_lt hn)
    | perStepTimers => exact congrArg some (UInt32.toNat_ofNat_of_lt hn)
  · rw [if_neg hs]
    cases s <;> cases s' <;> first | rfl | exact absurd rfl hs

theorem value?_lt {s : Setting} {n : Nat} (h : c.value? s = some n) : n < s.limit := by
  cases s <;> obtain ⟨value, -, rfl⟩ := Option.map_eq_some_iff.mp h <;> exact value.toNat_lt

theorem has_eq (s : Setting) : c.has s = (c.value? s).isSome := by
  cases s <;> exact Option.isSome_map.symm

theorem has_put {n : Nat} {s : Setting} (hn : n < s.limit) (s' : Setting) :
    (c.put n s).has s' = (decide (s = s') || c.has s') := by
  rw [has_eq, has_eq, value?_put c hn]
  by_cases hs : s = s'
  · rw [if_pos hs, decide_eq_true hs]
    rfl
  · rw [if_neg hs, decide_eq_false hs, Bool.false_or]

theorem rom_put (n : Nat) (s : Setting) : (c.put n s).rom = c.rom := by
  cases s <;> rfl

theorem add_withRom (rom : String) (o : Occurrence) :
    (c.withRom rom).add o = (c.add o).map (·.withRom rom) := by
  have hhas : (c.withRom rom).has o.setting = c.has o.setting := by
    cases o.setting <;> rfl
  have hput : (c.withRom rom).put o.value o.setting = (c.put o.value o.setting).withRom rom := by
    cases o.setting <;> rfl
  rw [add, add, hhas, hput]
  split <;> rfl

def addAll (options : List Occurrence) : Except Refusal Chosen := options.foldlM add c

theorem addAll_cons (o : Occurrence) (rest : List Occurrence) :
    c.addAll (o :: rest) = c.add o >>= fun c => c.addAll rest :=
  List.foldlM_cons

theorem addAll_append (first rest : List Occurrence) :
    c.addAll (first ++ rest) = c.addAll first >>= fun c => c.addAll rest :=
  List.foldlM_append

/-- The ROM may come between the options anywhere. -/
theorem addAll_withRom (rom : String) (options : List Occurrence) :
    (c.withRom rom).addAll options = (c.addAll options).map (·.withRom rom) := by
  induction options generalizing c with
  | nil => rfl
  | cons o rest ih =>
    rw [addAll_cons, addAll_cons, add_withRom]
    cases c.add o with
    | error e => rfl
    | ok c => exact ih c

/-- An option that was given, or that stands twice, is refused, whatever stands between. -/
theorem addAll_again {c : Chosen} {options : List Occurrence}
    (h : (∃ o ∈ options, c.has o.setting = true) ∨ ¬ (options.map (·.setting)).Nodup) :
    c.addAll options = .error .repeated := by
  induction options generalizing c with
  | nil => simp at h
  | cons o rest ih =>
    rw [addAll_cons, add]
    by_cases hfirst : c.has o.setting = true
    · rw [if_pos hfirst]
      rfl
    · rw [if_neg hfirst]
      -- It is given from here on, so that another one of its kind is no new one any more.
      refine ih ?_
      simp only [has_put c o.value_lt, Bool.or_eq_true, decide_eq_true_eq]
      rcases h with ⟨o', ho', hhas⟩ | htwice
      · rcases List.mem_cons.mp ho' with rfl | hrest
        · exact absurd hhas hfirst
        · exact .inl ⟨o', hrest, .inr hhas⟩
      · rw [List.map_cons, List.nodup_cons, not_and_or, not_not] at htwice
        rcases htwice with hmem | hrest
        · obtain ⟨o', ho', hsame⟩ := List.mem_map.mp hmem
          exact .inl ⟨o', ho', .inl hsame.symm⟩
        · exact .inr hrest

/-- Options that stand once each are all taken, each with its value. -/
theorem addAll_once {c : Chosen} {options : List Occurrence}
    (honce : (options.map (·.setting)).Nodup) (hnew : ∀ o ∈ options, c.has o.setting = false) :
    ∃ c', c.addAll options = .ok c' ∧ c'.rom = c.rom ∧
      ∀ s n, c'.value? s = some n ↔
        (∃ o ∈ options, o.setting = s ∧ o.value = n) ∨ c.value? s = some n := by
  induction options generalizing c with
  | nil => exact ⟨c, rfl, rfl, fun s n => by simp⟩
  | cons o rest ih =>
    rw [List.map_cons, List.nodup_cons] at honce
    have hfirst : c.has o.setting = false := hnew o List.mem_cons_self
    have hrest : ∀ o' ∈ rest, (c.put o.value o.setting).has o'.setting = false := by
      intro o' ho'
      have hother : o.setting ≠ o'.setting := fun h =>
        honce.1 (h ▸ List.mem_map_of_mem ho')
      rw [has_put c o.value_lt, decide_eq_false hother, Bool.false_or]
      exact hnew o' (List.mem_cons_of_mem o ho')
    obtain ⟨c', hadded, hrom, hvalues⟩ := ih honce.2 hrest
    refine ⟨c', ?_, hrom.trans (c.rom_put _ _), ?_⟩
    · rw [addAll_cons, add, hfirst]
      exact hadded
    · intro s n
      rw [hvalues, value?_put c o.value_lt, List.exists_mem_cons_iff]
      by_cases hs : o.setting = s
      · have hnone : c.value? s = none := by
          rw [has_eq, Option.isSome_eq_false_iff, Option.isNone_iff_eq_none] at hfirst
          exact hs ▸ hfirst
        simp [hs, hnone, or_comm]
      · simp [hs]

/-- The options given and the ROM are all there is. -/
theorem ext_value? {c c' : Chosen} (hrom : c.rom = c'.rom) (h : ∀ s, c.value? s = c'.value? s) :
    c = c' := by
  have hwide : Function.Injective (Option.map UInt64.toNat) :=
    Option.map_injective fun _ _ => UInt64.toNat_inj.mp
  have hnarrow : Function.Injective (Option.map UInt32.toNat) :=
    Option.map_injective fun _ _ => UInt32.toNat_inj.mp
  cases c
  cases c'
  rw [Chosen.mk.injEq]
  exact ⟨hwide (h .ips), hnarrow (h .scale), hwide (h .seed), hnarrow (h .perStepTimers), hrom⟩

end Chosen

/-! ## Reading -/

/-- Reading stands between two options: `outcome` is what would come of it if it ended here. An
option that was refused may still be among what is not settled, so that `outcome` is an error. -/
structure Progress.Stands (p : Progress) (outcome : Except Refusal Chosen) (romSeen : Bool) :
    Prop where
  settle : p.settle = outcome
  /-- No option waits for its value. -/
  filled : ∀ s, p.pending ≠ .setting s none
  romSeen : p.romSeen = romSeen
  separated : p.separated = false

/-- Reading got to such a place, or ended ahead of it with the same refusal. -/
def Reads (r : Except Refusal Progress) (outcome : Except Refusal Chosen) (romSeen : Bool) : Prop :=
  match r with
  | .error e => outcome = .error e
  | .ok p => p.Stands outcome romSeen

theorem Reads.settle {r : Except Refusal Progress} {outcome : Except Refusal Chosen}
    {romSeen : Bool} (h : Reads r outcome romSeen) : r >>= Progress.settle = outcome := by
  cases r with
  | error e => exact h.symm
  | ok p => exact Progress.Stands.settle h

/-- What is refused stays refused by the same, so the next words are read from where one stands. -/
theorem Reads.bind {r : Except Refusal Progress} {f : Progress → Except Refusal Progress}
    {outcome : Except Refusal Chosen} {g : Chosen → Except Refusal Chosen} {romSeen romSeen' : Bool}
    (h : Reads r outcome romSeen)
    (hnext : ∀ p, p.Stands outcome romSeen → Reads (f p) (outcome >>= g) romSeen') :
    Reads (r >>= f) (outcome >>= g) romSeen' := by
  cases r with
  | error e =>
    have hrefused : outcome = .error e := h
    rw [hrefused]
    exact rfl
  | ok p => exact hnext p h

/-- The same where the next words end the reading. -/
theorem Reads.finish {r : Except Refusal Progress} {f : Progress → Except Refusal Chosen}
    {outcome : Except Refusal Chosen} {g : Chosen → Except Refusal Chosen} {romSeen : Bool}
    (h : Reads r outcome romSeen)
    (hlast : ∀ p, p.Stands outcome romSeen → f p = outcome >>= g) :
    r >>= f = outcome >>= g := by
  cases r with
  | error e =>
    have hrefused : outcome = .error e := h
    rw [hrefused]
    rfl
  | ok p => exact hlast p h

namespace Progress

def acceptAll (p : Progress) (words : List (List Char)) : Except Refusal Progress :=
  words.foldlM accept p

theorem acceptAll_cons (p : Progress) (word : List Char) (words : List (List Char)) :
    p.acceptAll (word :: words) = p.accept word >>= fun p => p.acceptAll words :=
  List.foldlM_cons

theorem acceptAll_append (p : Progress) (first rest : List (List Char)) :
    p.acceptAll (first ++ rest) = p.acceptAll first >>= fun p => p.acceptAll rest :=
  List.foldlM_append

theorem acceptAll_single (p : Progress) (word : List Char) :
    p.acceptAll [word] = p.accept word := by
  rw [acceptAll_cons]
  cases p.accept word <;> rfl

section
variable {p : Progress} (h : p.separated = false) {text : List Char}
include h

theorem accept_setting {s : Setting} {value : Option (List Char)}
    (hword : Argument.ofText text = .setting s value) :
    p.accept text = p.acceptSetting s value := by
  unfold accept
  rw [h, hword]
  rfl

theorem accept_plain (hword : Argument.ofText text = .plain text) :
    p.accept text = p.acceptPlain text := by
  unfold accept
  rw [h, hword]
  rfl

/-- Whatever starts with no dash is the value of an option that waits for one. -/
theorem accept_value {s : Setting} (hwaits : p.pending = .setting s none) (o : Occurrence) :
    p.accept o.text = .ok { p with pending := .setting s (some o.text) } := by
  have hvalue : Argument.ofText o.text = .plain o.text :=
    ofText_plain fun hhead => absurd hhead (o.head?_text_ne (.inl rfl))
  rw [accept_plain h hvalue, acceptPlain, hwaits]

theorem accept_separator : p.accept ['-', '-'] = .ok { p with separated := true } := by
  unfold accept
  rw [h]
  rfl

end

theorem settle_rom {p : Progress} {rom : String} (hpending : p.pending = .rom rom.toList)
    (hne : rom ≠ "") : p.settle = .ok (p.chosen.withRom rom) := by
  obtain ⟨c, rest, hrom⟩ := List.exists_cons_of_ne_nil (String.toList_eq_nil_iff.not.mpr hne)
  have hsame : String.ofList (c :: rest) = rom := by rw [← hrom, String.ofList_toList]
  unfold settle
  rw [hpending, hrom]
  show Except.ok (p.chosen.withRom (String.ofList (c :: rest))) = _
  rw [hsame]

theorem stands_start : ({} : Progress).Stands (.ok {}) false where
  settle := rfl
  filled := fun _ h => Pending.noConfusion h
  romSeen := rfl
  separated := rfl

variable {p : Progress} {outcome : Except Refusal Chosen} {romSeen : Bool}

namespace Stands

theorem accept_joined (h : p.Stands outcome romSeen) {o : Occurrence} {word : List Char}
    (hword : Argument.ofText word = .setting o.setting (some o.text)) :
    Reads (p.acceptAll [word]) (outcome >>= (·.add o)) romSeen := by
  rw [acceptAll_single, accept_setting h.separated hword]
  unfold acceptSetting
  rw [h.settle]
  cases outcome with
  | error e => exact rfl
  | ok chosen =>
    dsimp only
    rw [chosen.choose_occurrence o]
    show Reads _ (chosen.add o) _
    cases chosen.add o with
    | error e => exact rfl
    | ok added => exact ⟨rfl, fun _ => Pending.noConfusion, h.romSeen, h.separated⟩

theorem accept_apart (h : p.Stands outcome romSeen) {o : Occurrence} {word : List Char}
    (hword : Argument.ofText word = .setting o.setting none) :
    Reads (p.acceptAll [word, o.text]) (outcome >>= (·.add o)) romSeen := by
  rw [acceptAll_cons, accept_setting h.separated hword]
  unfold acceptSetting
  rw [h.settle]
  cases outcome with
  | error e => exact rfl
  | ok chosen =>
    have hread := accept_value (p := { p with chosen, pending := .setting o.setting none })
      h.separated rfl o
    show Reads (acceptAll { p with chosen, pending := .setting o.setting none } [o.text]) _ _
    rw [acceptAll_single, hread]
    exact ⟨chosen.choose_occurrence o, fun _ => nofun, h.romSeen, h.separated⟩

theorem accept_occurrence (h : p.Stands outcome romSeen) (o : Occurrence) :
    Reads (p.acceptAll o.words) (outcome >>= (·.add o)) romSeen := by
  rw [Occurrence.words]
  cases o.spelling with
  | longEquals => exact h.accept_joined (ofText_long_equals o.setting o.text)
  | longApart => exact h.accept_apart (ofText_long o.setting)
  | shortApart letter hletter => exact h.accept_apart (ofText_short hletter)
  | shortGlued letter hletter =>
    exact h.accept_joined
      (ofText_short_glued hletter o.text_ne_nil (o.head?_text_ne (.inr rfl)))
  | shortEquals letter hletter => exact h.accept_joined (ofText_short_equals hletter o.text)

theorem accept_options (h : p.Stands outcome romSeen) (options : List Occurrence) :
    Reads (p.acceptAll (options.flatMap (·.words))) (outcome >>= (·.addAll options)) romSeen := by
  induction options generalizing p outcome with
  | nil =>
    have hsame : outcome >>= (·.addAll []) = outcome := by cases outcome <;> rfl
    rw [hsame]
    exact h
  | cons o rest ih =>
    have hadded : outcome >>= (·.addAll (o :: rest)) =
        outcome >>= (·.add o) >>= (·.addAll rest) := by
      cases outcome with
      | error e => rfl
      | ok c => exact c.addAll_cons o rest
    rw [List.flatMap_cons, acceptAll_append, hadded]
    exact (h.accept_occurrence o).bind fun p hp => ih hp

/-- The ROM, where no option waits for a value and no separator is needed. -/
theorem accept_rom (h : p.Stands outcome false) {rom : String} (hne : rom ≠ "")
    (hplain : rom.toList.head? = some '-' → rom = "-") :
    Reads (p.acceptAll [rom.toList]) (outcome >>= fun c => .ok (c.withRom rom)) true := by
  have hword : Argument.ofText rom.toList = .plain rom.toList :=
    ofText_plain fun hhead => (congrArg String.toList (hplain hhead)).trans rfl
  have hrom : p.acceptPlain rom.toList = p.acceptRom rom.toList := by
    unfold acceptPlain
    split
    case h_1 s hpending => exact absurd hpending (h.filled s)
    case h_2 => rfl
  rw [acceptAll_single, accept_plain h.separated hword, hrom, acceptRom, h.romSeen, h.settle]
  cases outcome with
  | error e => exact rfl
  | ok chosen => exact ⟨settle_rom rfl hne, fun _ => nofun, rfl, h.separated⟩

theorem accept_separated (h : p.Stands outcome false) {rom : String} (hne : rom ≠ "") :
    p.acceptAll [['-', '-'], rom.toList] >>= Progress.settle =
      outcome >>= fun c => .ok (c.withRom rom) := by
  have hrom : Progress.accept { p with separated := true } rom.toList =
      Progress.acceptRom { p with separated := true } rom.toList := rfl
  have hsettle : Progress.settle { p with separated := true } = outcome := h.settle
  rw [acceptAll_cons, accept_separator h.separated]
  show acceptAll { p with separated := true } [rom.toList] >>= Progress.settle = _
  rw [acceptAll_single, hrom]
  unfold acceptRom
  rw [hsettle, h.romSeen]
  cases outcome with
  | error e => rfl
  | ok chosen => exact settle_rom rfl hne

end Stands
end Progress

/-! ## Lines -/

/-- Options in any order, and the ROM in any place among them, or last after a separator. -/
structure Line where
  before : List Occurrence
  separated : Bool
  rom : String
  after : List Occurrence
  rom_ne_empty : rom ≠ ""
  /-- A ROM that looks like an option needs the separator. -/
  plain : separated = false → rom.toList.head? = some '-' → rom = "-"
  last : separated = true → after = []

namespace Line

variable (line : Line)

def options : List Occurrence := line.before ++ line.after

def romWords : List (List Char) :=
  if line.separated then [['-', '-'], line.rom.toList] else [line.rom.toList]

def words : List (List Char) :=
  line.before.flatMap (·.words) ++ line.romWords ++ line.after.flatMap (·.words)

def args : List String := line.words.map String.ofList

/-- The line has just these options, each of them once. -/
structure Spells (ips : Option UInt64) (scale : Option UInt32) (seed : Option UInt64)
    (perStepTimers : Option UInt32) : Prop where
  once : (line.options.map (·.setting)).Nodup
  value : ∀ s n, ({ ips, scale, seed, perStepTimers } : Chosen).value? s = some n ↔
    ∃ o ∈ line.options, o.setting = s ∧ o.value = n

/-- One more option at a place where an option may stand: not between an option and its value, and
not after the separator. -/
inductive Inserted (extra : Occurrence) : Line → Prop where
  | before (first rest : List Occurrence) (h : line.before = first ++ rest) :
    Inserted extra { line with before := first ++ extra :: rest }
  | after (first rest : List Occurrence) (h : line.after = first ++ rest)
    (hplain : line.separated = false) :
    Inserted extra
      { line with
        after := first ++ extra :: rest
        last := fun hlast => Bool.noConfusion (hplain.symm.trans hlast) }

theorem parse_eq : parse line.args =
    ({} : Progress).acceptAll line.words >>= Progress.settle >>= Chosen.settings := by
  have hread : line.args.foldlM (fun p arg => p.accept arg.toList) ({} : Progress) =
      ({} : Progress).acceptAll line.words := by
    rw [args, List.foldlM_map]
    simp only [String.toList_ofList]
    rfl
  rw [parse, hread]
  cases ({} : Progress).acceptAll line.words <;> rfl

/-- A line means what its options mean one after another, and the ROM. -/
theorem settle_words : ({} : Progress).acceptAll line.words >>= Progress.settle =
    ({} : Chosen).addAll line.options >>= fun c => .ok (c.withRom line.rom) := by
  have hbefore := Progress.stands_start.accept_options line.before
  rw [words, options]
  cases hseparated : line.separated with
  | true =>
    rw [line.last hseparated, romWords, if_pos hseparated, List.flatMap_nil, List.append_nil,
      List.append_nil, Progress.acceptAll_append, bind_assoc]
    exact hbefore.finish fun p hp => hp.accept_separated line.rom_ne_empty
  | false =>
    -- The ROM is settled as the next option is read, and changes nothing for it.
    have hrom := hbefore.bind fun p hp =>
      hp.accept_rom line.rom_ne_empty (line.plain hseparated)
    have hread := hrom.bind fun p hp => hp.accept_options line.after
    rw [romWords, if_neg (by simp [hseparated]), Progress.acceptAll_append,
      Progress.acceptAll_append, hread.settle, Chosen.addAll_append]
    show (({} : Chosen).addAll line.before >>= _) >>= _ = _
    cases ({} : Chosen).addAll line.before with
    | error e => rfl
    | ok c => exact c.addAll_withRom line.rom line.after

theorem parse_args : parse line.args =
    ({} : Chosen).addAll line.options >>= fun c => (c.withRom line.rom).settings := by
  rw [parse_eq, settle_words]
  cases ({} : Chosen).addAll line.options <;> rfl

theorem parse_twice (h : ¬ (line.options.map (·.setting)).Nodup) :
    parse line.args = .error .repeated := by
  rw [parse_args, Chosen.addAll_again (.inr h)]
  rfl

variable {line}

theorem Inserted.options_eq {extra : Occurrence} {line' : Line} (h : line.Inserted extra line') :
    ∃ first rest, line.options = first ++ rest ∧ line'.options = first ++ extra :: rest := by
  cases h with
  | before first rest h =>
    exact ⟨first, rest ++ line.after, by rw [options, h, List.append_assoc],
      List.append_assoc first (extra :: rest) line.after⟩
  | after first rest h hplain =>
    exact ⟨line.before ++ first, rest, by rw [options, h, List.append_assoc],
      (List.append_assoc line.before first (extra :: rest)).symm⟩

theorem Inserted.not_nodup {extra : Occurrence} {line' : Line} (h : line.Inserted extra line')
    (hgiven : extra.setting ∈ line.options.map (·.setting)) :
    ¬ (line'.options.map (·.setting)).Nodup := by
  obtain ⟨first, rest, hline, hline'⟩ := h.options_eq
  rw [hline, List.map_append] at hgiven
  rw [hline', List.map_append, List.map_cons, List.nodup_middle, List.nodup_cons]
  exact fun honce => honce.1 hgiven

end Line

/-- An option with its value in the fewest digits. -/
def Occurrence.ofNat {s : Setting} (spelling : Spelling s) (n : Nat) (h : n < s.limit) :
    Occurrence where
  setting := s
  spelling := spelling
  plus := false
  digits := Nat.toDigits 10 n
  digits_ne_nil := Nat.toDigits_ne_nil
  isDigit := fun _ => Nat.isDigit_of_mem_toDigits (by decide) (by decide)
  digits_lt := by rwa [Nat.ofDigitChars_ten_toDigits]

theorem Occurrence.value_ofNat {s : Setting} (spelling : Spelling s) (n : Nat) (h : n < s.limit) :
    (Occurrence.ofNat spelling n h).value = n :=
  Nat.ofDigitChars_ten_toDigits

/-- What was given can be written with every option at most once. -/
theorem Chosen.exists_options (c : Chosen) (settings : List Setting) :
    ∃ options : List Occurrence, options.map (·.setting) = settings.filter c.has ∧
      ∀ o ∈ options, c.value? o.setting = some o.value := by
  induction settings with
  | nil => exact ⟨[], rfl, fun _ => nofun⟩
  | cons s rest ih =>
    obtain ⟨options, hsettings, hvalues⟩ := ih
    cases hvalue : c.value? s with
    | none =>
      refine ⟨options, ?_, hvalues⟩
      rw [hsettings, List.filter_cons_of_neg (by rw [c.has_eq, hvalue]; decide)]
    | some n =>
      refine ⟨.ofNat (s := s) .longEquals n (c.value?_lt hvalue) :: options, ?_, ?_⟩
      · rw [List.map_cons, hsettings, List.filter_cons_of_pos (by rw [c.has_eq, hvalue]; rfl)]
        rfl
      · rw [List.forall_mem_cons]
        exact ⟨hvalue.trans (congrArg some (Occurrence.value_ofNat .longEquals n _).symm), hvalues⟩

/-- Every choice of values can be spelled, with every ROM that has a name. -/
theorem Line.exists_spells (ips : Option UInt64) (scale : Option UInt32) (seed : Option UInt64)
    (perStepTimers : Option UInt32) {rom : String} (hrom : rom ≠ "") :
    ∃ line : Line, line.rom = rom ∧ line.Spells ips scale seed perStepTimers := by
  obtain ⟨options, hsettings, hvalues⟩ :=
    ({ ips, scale, seed, perStepTimers } : Chosen).exists_options Setting.all
  refine ⟨⟨options, true, rom, [], hrom, nofun, fun _ => rfl⟩, rfl, ?_, fun s n => ?_⟩
  · rw [Line.options, List.append_nil, hsettings]
    exact List.Nodup.filter _ (by decide)
  · rw [Line.options, List.append_nil]
    constructor
    · intro hvalue
      have hmem : s ∈ options.map (·.setting) := by
        rw [hsettings, List.mem_filter, Chosen.has_eq, hvalue]
        exact ⟨by cases s <;> decide, rfl⟩
      obtain ⟨o, ho, rfl⟩ := List.mem_map.mp hmem
      exact ⟨o, ho, rfl, Option.some.inj ((hvalues o ho).symm.trans hvalue)⟩
    · rintro ⟨o, ho, rfl, rfl⟩
      exact hvalues o ho

/-- A command line gives back what it spells, with the defaults for what it leaves out. With one of
its options once more it is refused, wherever that stands and however it is written. -/
theorem parse_spelled_line (line : Line) (ips : Option UInt64) (scale : Option UInt32)
    (seed : Option UInt64) (perStepTimers : Option UInt32)
    (h : line.Spells ips scale seed perStepTimers) :
    parse line.args =
        .ok
          { rom := line.rom
            ips := ips.getD 500
            scale := scale.getD 10
            seed
            perStepTimers } ∧
      ∀ extra line', extra.setting ∈ line.options.map (·.setting) → line.Inserted extra line' →
        parse line'.args = .error .repeated := by
  refine ⟨?_, fun extra line' hgiven hinserted => line'.parse_twice (hinserted.not_nodup hgiven)⟩
  obtain ⟨c, hadded, hrom, hvalues⟩ :=
    Chosen.addAll_once (c := {}) h.once fun o _ => by cases o.setting <;> rfl
  have hnone : ∀ s, ({} : Chosen).value? s = none := by
    intro s
    cases s <;> rfl
  have hchosen : c = { ips, scale, seed, perStepTimers } := by
    refine Chosen.ext_value? hrom fun s => Option.ext fun n => ?_
    rw [hvalues, h.value, hnone]
    simp
  rw [line.parse_args, hadded, hchosen]
  rfl

/-- A speed in one word with a plus sign and a zero, a seed in two, and a ROM that looks like an
option; then the speed once more between them. -/
theorem parse_spelled_line_dashed_rom :
    parse ["-i+05", "--seed", "7", "--", "-p.ch8"] =
        .ok { rom := "-p.ch8", ips := 5, scale := 10, seed := some 7, perStepTimers := none } ∧
      parse ["-i+05", "--ips=6", "--seed", "7", "--", "-p.ch8"] = .error .repeated := by
  let speed : Occurrence :=
    { setting := .ips
      spelling := .shortGlued 'i' rfl
      plus := true
      digits := ['0', '5']
      digits_ne_nil := by decide
      isDigit := List.all_eq_true.mp rfl
      digits_lt := by decide +kernel }
  let seed : Occurrence := .ofNat (s := .seed) .longApart 7 (by decide +kernel)
  let again : Occurrence := .ofNat (s := .ips) .longEquals 6 (by decide +kernel)
  let line : Line :=
    { before := [speed, seed]
      separated := true
      rom := "-p.ch8"
      after := []
      rom_ne_empty := by decide
      plain := nofun
      last := fun _ => rfl }
  have hspeed : speed.setting = .ips ∧ speed.value = 5 := ⟨rfl, rfl⟩
  have hseed : seed.setting = .seed ∧ seed.value = 7 := ⟨rfl, rfl⟩
  have hspells : line.Spells (some 5) none (some 7) none :=
    { once := by decide
      value := fun s n => by
        show _ ↔ ∃ o ∈ [speed, seed], _
        rw [List.exists_mem_cons_iff, List.exists_mem_cons_iff]
        cases s <;> simp [Chosen.value?, hspeed, hseed] }
  let twice : Line := { line with before := [speed, again, seed] }
  have htwice : line.Inserted again twice := .before [speed] [seed] rfl
  have hargs : line.args = ["-i+05", "--seed", "7", "--", "-p.ch8"] := by decide +kernel
  have hargs' : twice.args = ["-i+05", "--ips=6", "--seed", "7", "--", "-p.ch8"] := by
    decide +kernel
  have hspelled := parse_spelled_line line (some 5) none (some 7) none hspells
  rw [← hargs, ← hargs']
  exact ⟨hspelled.1, hspelled.2 again twice (by decide) htwice⟩

end CommandLine
end Host
end ChipEight
