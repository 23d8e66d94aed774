import ChipEight.Log
import ChipEight.Proofs.Keypad
import Mathlib.Data.List.Induction

/-!
# ChipEight.Proofs.KeyHistory

The edges that a keypad reports, against where its keys are.

* `KeyMove`           — a key moved up or down, or all keys let go, as data; `Keypad.moved` is a new
  keypad after a history of them.
* `Keypad.reports`    — the moves of a history with what each of them reports.
* `edgesOf`           — of these, the edges of one key.
* `Keypad.sinceReset` — the moves that still count, the latest one first.
* `reports_filter`    — a key sees only the moves that concern it.
* `isDown_moved`      — a key is where it was moved to last.
* `edgesOf_reports`   — between two resets its edges take it back and forth.
* `edges_agree_with_levels` — these together, for every history.
-/

namespace ChipEight

inductive KeyMove where
  | set (key : Byte) (down : Bool)
  | reset
  deriving DecidableEq

namespace KeyMove

variable (digit : Key)

/-- Where a move puts a key, if it is about that key. -/
def puts? : KeyMove → Option Bool
  | .set key down => if key.toNat = digit.val then some down else none
  | .reset => none

/-- Whether a move is about a key, or about all of them. -/
def concerns : KeyMove → Bool
  | .set key _ => key.toNat = digit.val
  | .reset => true

end KeyMove

namespace KeyEdge

/-- The edge of a key that goes where it was not. -/
def of (digit : Key) (down : Bool) : KeyEdge := if down then .pressed digit else .released digit

theorem of_key (digit : Key) (down : Bool) : (of digit down).key = digit := by
  cases down <;> rfl

end KeyEdge

namespace Keypad

def number (digit : Key) : Byte := BitVec.ofNat 8 digit.val

/-- The keypad after a move; a number that names no key moves none. -/
def move (k : Keypad) : KeyMove → Keypad
  | .reset => released
  | .set key down =>
    match k.set key down with
    | .ok (k', _) => k'
    | .error _ => k

def report (k : Keypad) : KeyMove → Except Error (Option KeyEdge)
  | .reset => .ok none
  | .set key down => (k.set key down).map (·.2)

def after (k : Keypad) (moves : List KeyMove) : Keypad := moves.foldl move k

def moved (history : List KeyMove) : Keypad := released.after history

/-- Moves with what each of them reports, from this keypad on. -/
def reports (k : Keypad) : List KeyMove → List (KeyMove × Except Error (Option KeyEdge))
  | [] => []
  | m :: rest => (m, k.report m) :: reports (k.move m) rest

def edge? (digit : Key) : Except Error (Option KeyEdge) → Option KeyEdge
  | .ok (some edge) => if edge.key = digit then some edge else none
  | _ => none

def edgesOf (digit : Key) (reports : List (KeyMove × Except Error (Option KeyEdge))) :
    List KeyEdge :=
  reports.filterMap (edge? digit ·.2)

/-- The moves since the last reset, the latest one first. -/
def sinceReset (history : List KeyMove) : List KeyMove := history.reverse.takeWhile (· ≠ .reset)

variable (k : Keypad) (digit : Key) {key : Byte} {down : Bool} {moves : List KeyMove}

/-! ## One move -/

theorem toNat_number : (number digit).toNat = digit.val := by
  rw [number, BitVec.toNat_ofNat]
  omega

theorem number_eq_iff : number digit = key ↔ key.toNat = digit.val := by
  rw [← BitVec.toNat_inj, toNat_number]
  exact eq_comm

theorem isDown_released (key : Byte) : released.isDown key = false := by
  rw [isDown, released]
  by_cases hkey : key.toNat < 16
  · simp [hkey]
  · simp [hkey]

theorem set_outside (hkey : 16 ≤ key.toNat) : k.set key down = .error (.invalidKey key) :=
  dif_neg (Nat.not_lt.mpr hkey)

theorem isDown_outside (hkey : 16 ≤ key.toNat) : k.isDown key = false := by
  simp [isDown, hkey]

theorem set_ok (hkey : key.toNat < 16) :
    k.set key down =
      .ok (⟨k.keys.set key.toNat down hkey⟩,
        if k.isDown key = down then none else some (.of ⟨key.toNat, hkey⟩ down)) := by
  rw [set, dif_pos hkey, isDown_eq hkey]
  cases k.keys[key.toNat] <;> cases down <;> rfl

theorem move_outside (hkey : 16 ≤ key.toNat) : k.move (.set key down) = k := by
  rw [move, k.set_outside hkey]

theorem set_eq_move (hkey : key.toNat < 16) :
    k.set key down =
      .ok (k.move (.set key down),
        if k.isDown key = down then none else some (.of ⟨key.toNat, hkey⟩ down)) := by
  rw [move, k.set_ok hkey]

theorem isDown_move {m : KeyMove} (hm : m ≠ .reset) :
    (k.move m).isDown (number digit) = (m.puts? digit).getD (k.isDown (number digit)) := by
  cases m with
  | reset => exact absurd rfl hm
  | set key down =>
    rw [KeyMove.puts?]
    by_cases hkey : key.toNat < 16
    · have hset : k.set key down = _ := k.set_eq_move hkey
      rw [isDown_set hset]
      simp only [number_eq_iff]
      split <;> rfl
    · rw [k.move_outside (Nat.not_lt.mp hkey), if_neg (by omega), Option.getD_none]

theorem report_set (hkey : key.toNat < 16) :
    k.report (.set key down) =
      .ok (if k.isDown key = down then none else some (.of ⟨key.toNat, hkey⟩ down)) := by
  rw [report, k.set_ok hkey]
  rfl

theorem report_outside (hkey : 16 ≤ key.toNat) :
    k.report (.set key down) = .error (.invalidKey key) := by
  rw [report, k.set_outside hkey]
  rfl

/-- The edge of a key that a move brings about: it comes if the move is about that key, and the key
is not yet where it goes. -/
theorem edge?_report (m : KeyMove) :
    edge? digit (k.report m) =
      (m.puts? digit).bind fun down =>
        if k.isDown (number digit) = down then none else some (.of digit down) := by
  cases m with
  | reset => rfl
  | set key down =>
    rw [KeyMove.puts?]
    by_cases hkey : key.toNat < 16
    · rw [k.report_set hkey]
      by_cases hsame : key.toNat = digit.val
      · obtain rfl := (number_eq_iff digit).mpr hsame
        have hdigit : (⟨(number digit).toNat, hkey⟩ : Key) = digit := Fin.ext hsame
        rw [if_pos hsame, hdigit, Option.bind_some]
        split
        · rfl
        · rw [edge?, KeyEdge.of_key, if_pos rfl]
      · have hother : (⟨key.toNat, hkey⟩ : Key) ≠ digit := fun h => hsame (congrArg Fin.val h)
        rw [if_neg hsame, Option.bind_none]
        split
        · rfl
        · rw [edge?, KeyEdge.of_key, if_neg hother]
    · rw [k.report_outside (Nat.not_lt.mp hkey), if_neg (by omega)]
      rfl

theorem isDown_move_unconcerned {m : KeyMove} (hm : m.concerns digit = false) :
    (k.move m).isDown (number digit) = k.isDown (number digit) := by
  cases m with
  | reset => cases hm
  | set key down =>
    rw [isDown_move _ _ KeyMove.noConfusion, KeyMove.puts?, if_neg (of_decide_eq_false hm),
      Option.getD_none]

theorem edge?_cases {m : KeyMove} (hm : m ≠ .reset) :
    (edge? digit (k.report m) = none ∧
        (k.move m).isDown (number digit) = k.isDown (number digit)) ∨
      (edge? digit (k.report m) = some (.of digit (!k.isDown (number digit))) ∧
        (k.move m).isDown (number digit) = !k.isDown (number digit)) := by
  rw [edge?_report, isDown_move k digit hm]
  cases m.puts? digit with
  | none => exact .inl ⟨rfl, rfl⟩
  | some down =>
    cases k.isDown (number digit) <;> cases down
    · exact .inl ⟨rfl, rfl⟩
    · exact .inr ⟨rfl, rfl⟩
    · exact .inr ⟨rfl, rfl⟩
    · exact .inl ⟨rfl, rfl⟩

section Agreeing

variable {k} {k' : Keypad} {digit} (h : k.isDown (number digit) = k'.isDown (number digit))
include h

theorem isDown_move_congr (m : KeyMove) :
    (k.move m).isDown (number digit) = (k'.move m).isDown (number digit) := by
  by_cases hreset : m = .reset
  · rw [hreset, move, move]
  · rw [isDown_move _ _ hreset, isDown_move _ _ hreset, h]

theorem report_congr {m : KeyMove} (hm : m.concerns digit = true) : k.report m = k'.report m := by
  cases m with
  | reset => rfl
  | set key down =>
    have hsame : key.toNat = digit.val := of_decide_eq_true hm
    obtain rfl := (number_eq_iff digit).mpr hsame
    have hkey : (number digit).toNat < 16 := hsame ▸ digit.isLt
    rw [k.report_set hkey, k'.report_set hkey, h]

end Agreeing

/-! ## Histories -/

theorem after_append (first later : List KeyMove) :
    k.after (first ++ later) = (k.after first).after later :=
  List.foldl_append

theorem length_reports : (k.reports moves).length = moves.length := by
  induction moves generalizing k with
  | nil => rfl
  | cons m rest ih => rw [reports, List.length_cons, List.length_cons, ih]

theorem reports_append (first later : List KeyMove) :
    k.reports (first ++ later) = k.reports first ++ (k.after first).reports later := by
  induction first generalizing k with
  | nil => rfl
  | cons m rest ih =>
    rw [List.cons_append, reports, reports, ih, List.cons_append]
    rfl

theorem moved_of_fresh {history : List KeyMove}
    (h : history = [] ∨ history.getLast? = some .reset) : moved history = released := by
  rcases h with rfl | h
  · rfl
  · obtain ⟨earlier, rfl⟩ := List.getLast?_eq_some_iff.mp h
    rw [moved, after_append]
    rfl

theorem isDown_moved (history : List KeyMove) :
    (moved history).isDown (number digit) =
      ((sinceReset history).findSome? (·.puts? digit)).getD false := by
  -- The latest move either takes the key somewhere, or starts over, or leaves it to earlier ones.
  induction history using List.reverseRecOn with
  | nil => exact isDown_released _
  | append_singleton earlier m ih =>
    have hmoved : moved (earlier ++ [m]) = (moved earlier).move m := after_append _ _ _
    by_cases hm : m = .reset
    · subst hm
      rw [hmoved, sinceReset, List.reverse_concat, List.takeWhile_cons]
      exact isDown_released _
    · have hsince : sinceReset (earlier ++ [m]) = m :: sinceReset earlier := by
        simp [sinceReset, hm]
      rw [hmoved, isDown_move _ _ hm, ih, hsince, List.findSome?_cons]
      cases m.puts? digit <;> rfl

/-- Of a history, the moves that concern a key report what they report without the others, and they
take the key to where the others leave it. -/
theorem reports_filter (moves : List KeyMove) {k k' : Keypad}
    (h : k.isDown (number digit) = k'.isDown (number digit)) :
    (k.reports moves).filter (·.1.concerns digit) =
        k'.reports (moves.filter (·.concerns digit)) ∧
      (k.after moves).isDown (number digit) =
        (k'.after (moves.filter (·.concerns digit))).isDown (number digit) := by
  induction moves generalizing k k' with
  | nil => exact ⟨rfl, h⟩
  | cons m rest ih =>
    cases hm : m.concerns digit with
    | false =>
      rw [reports, List.filter_cons_of_neg (by simp [hm]), List.filter_cons_of_neg (by simp [hm])]
      exact ih ((isDown_move_unconcerned k digit hm).trans h)
    | true =>
      obtain ⟨hrest, hafter⟩ := ih (isDown_move_congr h m)
      rw [reports, List.filter_cons_of_pos (by simp [hm]), List.filter_cons_of_pos (by simp [hm]),
        reports, report_congr h hm, hrest]
      exact ⟨rfl, hafter⟩

theorem edgesOf_cons (m : KeyMove) :
    edgesOf digit (k.reports (m :: moves)) =
      (edge? digit (k.report m)).toList ++ edgesOf digit ((k.move m).reports moves) := by
  cases h : edge? digit (k.report m) with
  | none => exact List.filterMap_cons_none h
  | some edge => exact List.filterMap_cons_some h

theorem edgesOf_filter :
    edgesOf digit ((k.reports moves).filter (·.1.concerns digit)) =
      edgesOf digit (k.reports moves) := by
  rw [edgesOf, List.filterMap_filter]
  induction moves generalizing k with
  | nil => rfl
  | cons m rest ih =>
    rw [edgesOf_cons, ← ih, reports, List.filterMap_cons]
    cases hm : m.concerns digit with
    | true => cases edge? digit (k.report m) <;> rfl
    | false =>
      have hnone : edge? digit (k.report m) = none := by
        rw [edge?_report]
        cases m with
        | reset => cases hm
        | set key down => rw [KeyMove.puts?, if_neg (of_decide_eq_false hm), Option.bind_none]
      rw [hnone]
      rfl

/-- Where a key is that was here and went to the other side `n` times. -/
def turned (down : Bool) (n : Nat) : Bool := down ^^ n % 2 = 1

theorem turned_zero (down : Bool) : turned down 0 = down := Bool.xor_false down

theorem turned_succ (down : Bool) (n : Nat) : turned down (n + 1) = turned (!down) n := by
  have hparity : decide ((n + 1) % 2 = 1) = !decide (n % 2 = 1) := by
    rw [← decide_not]
    exact decide_eq_decide.mpr (by omega)
  rw [turned, turned, hparity, Bool.xor_not, Bool.not_xor]

/-- Between resets each edge of a key takes it to the other side, and the last one to where it
ends. -/
theorem edgesOf_reports (hmoves : .reset ∉ moves) :
    let edges := edgesOf digit (k.reports moves)
    (∀ i, (hi : i < edges.length) →
      edges[i] = .of digit (turned (k.isDown (number digit)) (i + 1))) ∧
    (k.after moves).isDown (number digit) = turned (k.isDown (number digit)) edges.length := by
  induction moves generalizing k with
  | nil => exact ⟨fun i hi => absurd hi (Nat.not_lt_zero i), (turned_zero _).symm⟩
  | cons m rest ih =>
    have hm : m ≠ .reset := fun h => hmoves (h ▸ List.mem_cons_self)
    obtain ⟨hedges, hafter⟩ := ih (k.move m) fun h => hmoves (List.mem_cons_of_mem m h)
    rcases edge?_cases k digit hm with ⟨hnone, hlevel⟩ | ⟨hsome, hlevel⟩
    · rw [hlevel] at hedges hafter
      rw [edgesOf_cons, hnone]
      exact ⟨hedges, hafter⟩
    · rw [hlevel] at hedges hafter
      rw [edgesOf_cons, hsome, Option.toList_some, List.singleton_append]
      refine ⟨?_, ?_⟩
      · intro i hi
        rw [turned_succ]
        cases i with
        | zero => rw [List.getElem_cons_zero, turned_zero]
        | succ i => rw [List.getElem_cons_succ, hedges]
      · rw [List.length_cons, turned_succ]
        exact hafter

theorem edges_by_turns (hmoves : .reset ∉ moves) :
    let edges := edgesOf digit (released.reports moves)
    (∀ i, (hi : i < edges.length) →
      edges[i] = if i % 2 = 0 then .pressed digit else .released digit) ∧
    (edges.getLast? = some (.pressed digit) ↔
      (released.after moves).isDown (number digit) = true) := by
  intro edges
  obtain ⟨hedges, hafter⟩ := edgesOf_reports released digit hmoves
  rw [isDown_released] at hedges hafter
  refine ⟨?_, ?_⟩
  · intro i hi
    rw [hedges i hi, turned_succ]
    by_cases heven : i % 2 = 0
    · simp [KeyEdge.of, turned, heven]
    · simp [KeyEdge.of, turned, show i % 2 = 1 by omega]
  · rw [hafter, List.getLast?_eq_getElem?]
    by_cases hnone : edges.length = 0
    · have hup : turned false edges.length = false := by rw [hnone, turned_zero]
      rw [List.getElem?_eq_none (by omega), hup]
      simp
    · have hlast : edges.length - 1 < edges.length := by omega
      have hsucc : edges.length - 1 + 1 = edges.length := by omega
      rw [List.getElem?_eq_getElem hlast, hedges _ hlast, hsucc]
      cases turned false edges.length <;> simp [KeyEdge.of]

/-- A stretch of a history from its start or a reset to the next reset, or up to it, is a history of
its own on a new keypad. -/
theorem reports_stretch {before : List KeyMove} (stretch later : List KeyMove)
    (h : before = [] ∨ before.getLast? = some .reset) :
    ((released.reports (before ++ stretch ++ later)).drop before.length).take stretch.length =
        released.reports stretch ∧
      moved (before ++ stretch) = released.after stretch := by
  have hfresh := moved_of_fresh h
  rw [moved] at hfresh
  constructor
  · rw [List.append_assoc, reports_append, hfresh, List.drop_left' (length_reports released),
      reports_append, List.take_left' (length_reports released)]
  · rw [moved, after_append, hfresh]

/-- After every history of moves on a new keypad, and for every key. The key is where it was moved
to last since the last reset, and up without such a move. In any stretch between two resets the
edges that were reported for it are presses and releases by turns, a press first, and the last one
is a press if and only if the key is down behind that stretch. A call that leaves a key where it is
reports nothing, and any other tells where it went. What the calls on a key and the resets report,
and where they leave it, is the same without the calls on other keys, and its edges are among that.
A number that names no key is refused, is never down, and moves no key. -/
theorem edges_agree_with_levels (history : List KeyMove) (digit : Key) :
    let k := moved history
    let own := history.filter (·.concerns digit)
    k.isDown (number digit) = ((sinceReset history).findSome? (·.puts? digit)).getD false ∧
    (∀ before stretch later, history = before ++ stretch ++ later →
      before = [] ∨ before.getLast? = some .reset → .reset ∉ stretch →
      let edges :=
        edgesOf digit (((released.reports history).drop before.length).take stretch.length)
      (∀ i, (hi : i < edges.length) →
        edges[i] = if i % 2 = 0 then .pressed digit else .released digit) ∧
      (edges.getLast? = some (.pressed digit) ↔
        (moved (before ++ stretch)).isDown (number digit) = true)) ∧
    (∀ key down, (hkey : key.toNat < 16) →
      k.set key down =
        .ok (moved (history ++ [.set key down]),
          if k.isDown key = down then none else some (.of ⟨key.toNat, hkey⟩ down))) ∧
    ((released.reports history).filter (·.1.concerns digit) = released.reports own ∧
      edgesOf digit (released.reports history) = edgesOf digit (released.reports own) ∧
      k.isDown (number digit) = (moved own).isDown (number digit)) ∧
    ∀ key down, 16 ≤ key.toNat →
      k.set key down = .error (.invalidKey key) ∧ k.isDown key = false ∧
        moved (history ++ [.set key down]) = k := by
  intro k own
  have hmoved : ∀ m, moved (history ++ [m]) = k.move m := fun m => after_append _ _ _
  obtain ⟨hown, hlevel⟩ := reports_filter digit history (rfl : released.isDown _ = _)
  refine ⟨isDown_moved digit history, ?_, ?_, ⟨hown, ?_, hlevel⟩, ?_⟩
  · intro before stretch later hhistory hbefore hstretch edges
    obtain ⟨hreports, hafter⟩ := reports_stretch stretch later hbefore
    have hedges : edges = edgesOf digit (released.reports stretch) := by
      rw [← hreports, ← hhistory]
    rw [hedges, hafter]
    exact edges_by_turns digit hstretch
  · intro key down hkey
    rw [hmoved]
    exact k.set_eq_move hkey
  · rw [← hown, edgesOf_filter]
  · intro key down hkey
    rw [hmoved]
    exact ⟨k.set_outside hkey, k.isDown_outside hkey, k.move_outside hkey⟩

/-- A key that is held while all keys are let go is pressed twice, and not released in between. -/
example :
    edgesOf 3 (released.reports [.set 3 true, .reset, .set 0x13 false, .set 3 true]) =
      [.pressed 3, .pressed 3] := by
  decide

end Keypad
end ChipEight
