import ChipEight.Proofs.KeyWait

/-!
# ChipEight.Proofs.Log

The log of a machine tells what happened to it.

* `Instruction.warning` — what the log warns of, when an instruction is executed.
* `Machine.ownRecords`  — the records of a call but for its beeps, by its outcome.
* `perform_log`         — a call logs these and then its beeps, and nothing else.
* `Machine.executions`  — the instructions that a history executed, each as the record of it.
* `Accounted`           — a log in which every record has its warning, if any, right behind it.
* `KeyWaits`            — a log in which keys are waited for and stored by turns.
* `log_accounts_for_run` — the log of any history.
-/

namespace ChipEight

namespace Record

def isExecuting : Record → Bool
  | .executing _ _ _ _ _ _ => true
  | _ => false

def isKeyWait : Record → Bool
  | .awaitingKey _ => true
  | .keyStored _ _ => true
  | _ => false

def beep? : Record → Option Byte
  | .beep ticks => some ticks
  | _ => none

theorem of_level_warn {r : Record} (h : r.level = .warn) :
    r.isExecuting = false ∧ r.isKeyWait = false ∧ r.beep? = none := by
  cases r <;> first | exact ⟨rfl, rfl, rfl⟩ | cases h

end Record

namespace Instruction

/-- The warning that belongs to an instruction at this address, executed with this stack pointer. -/
def warning (pc : Word) (sp : Byte) : Instruction → Option Record
  | .sys routine => some (.nativeRoutine routine)
  | .ret => if sp = 0 then some (.stackUnderflow pc) else none
  | .call _ => if sp = 16 then some (.stackOverflow pc) else none
  | _ => none

/-- The wait that an instruction starts. -/
def announcement : Instruction → Option Record
  | .awaitKey x => some (.awaitingKey x)
  | _ => none

theorem warning_ret (pc : Word) (sp : Byte) :
    ret.warning pc sp = if sp = 0 then some (.stackUnderflow pc) else none := rfl

theorem warning_call (target : Address) (pc : Word) (sp : Byte) :
    (call target).warning pc sp = if sp = 16 then some (.stackOverflow pc) else none := rfl

theorem remarks_ret (cpu : Cpu) :
    ret.remarks cpu = if cpu.sp = 0 then [.stackUnderflow (cpu.pc - 2)] else [] := rfl

theorem remarks_call (target : Address) (cpu : Cpu) :
    (call target).remarks cpu = if cpu.isFull then [.stackOverflow (cpu.pc - 2)] else [] := rfl

/-- An instruction finds the pc past itself, and the warnings name its own address. -/
theorem remarks_passed {cpu : Cpu} (hsp : cpu.sp.toNat ≤ 16) (i : Instruction) :
    i.remarks { cpu with pc := cpu.pc + 2 } =
      (i.warning cpu.pc cpu.sp).toList ++ i.announcement.toList := by
  have hback : cpu.pc + 2 - 2 = cpu.pc := BitVec.add_sub_cancel cpu.pc 2
  cases i with
  | ret =>
    simp only [remarks_ret, warning_ret, hback]
    split <;> rfl
  | call target =>
    have hfull : Cpu.isFull { cpu with pc := cpu.pc + 2 } = true ↔ cpu.sp = 16 := by
      rw [Cpu.isFull_iff]
      constructor
      · intro hle
        apply BitVec.eq_of_toNat_eq
        exact Nat.le_antisymm hsp hle
      · intro h
        rw [h]
        exact Nat.le_refl 16
    simp only [remarks_call, warning_call, hback, hfull]
    split <;> rfl
  | _ => rfl

variable {i : Instruction} {pc : Word} {sp : Byte} {r : Record}

theorem level_of_warning (h : i.warning pc sp = some r) : r.level = .warn := by
  cases i with
  | sys routine =>
    cases h
    rfl
  | ret =>
    rw [warning_ret] at h
    split at h <;> cases h
    rfl
  | call target =>
    rw [warning_call] at h
    split at h <;> cases h
    rfl
  | _ => cases h

theorem announcement_eq (h : i.announcement = some r) :
    ∃ x, i = .awaitKey x ∧ r = .awaitingKey x := by
  cases i with
  | awaitKey x =>
    cases h
    exact ⟨x, rfl, rfl⟩
  | _ => cases h

end Instruction

theorem padRight_eq (width : Nat) (s : String) :
    ∃ spaces, padRight width s = s ++ spaces ∧ spaces.all (· = ' ') = true ∧
      (s ++ spaces).length = max width s.length := by
  refine ⟨_, rfl, ?_, ?_⟩
  · simp
  · rw [String.length_append, String.length_ofList, List.length_replicate]
    omega

/-- The instruction that a call executed, by its outcome. -/
def executed? : Except Error Answer → Option Instruction
  | .ok (.step (.executed i)) => some i
  | _ => none

namespace Machine

variable (m : Machine)

/-- The record of an instruction that the machine executes next. -/
def execution (i : Instruction) : Record :=
  .executing m.computer.cpu.pc m.computer.fetch i m.computer.cpu.v m.computer.cpu.index
    m.computer.cpu.sp

/-- The records of a call but for those of its beeps, by its outcome. -/
def ownRecords : Call → Except Error Answer → List Record
  | .makeReady, .ok _ => [.ready m.config]
  | .reset, .ok _ => [.reset]
  | .load rom, .ok _ => [.loaded rom.length]
  | .step, .ok (.step (.executed i)) =>
    m.execution i ::
      ((i.warning m.computer.cpu.pc m.computer.cpu.sp).toList ++ i.announcement.toList)
  | .setKey key _, .ok (.edge (some (.pressed digit))) =>
    .keyEdge (.pressed digit) :: m.computer.cpu.awaiting.toList.map (.keyStored key)
  | .setKey _ _, .ok (.edge (some (.released digit))) => [.keyEdge (.released digit)]
  | _, _ => []

theorem countStep_log : m.countStep.2.2 = m.countStep.2.1.map .beep := by
  cases h : m.config.stepsPerTick with
  | none => rw [m.countStep_host h]; rfl
  | some n =>
    by_cases hn : n ≤ m.sinceTick + 1
    · rw [m.countStep_due h hn]
      rfl
    · rw [m.countStep_early h hn]
      rfl

theorem receiveKey_log (cpu : Cpu) (key : Byte) :
    (cpu.receiveKey key).2 = cpu.awaiting.toList.map (.keyStored key) := by
  rw [Cpu.receiveKey]
  cases cpu.awaiting <;> rfl

variable {m}

theorem step_log (hm : m.WellFormed) {s : Step} {computer : Computer} {log : List Record}
    (hs : m.computer.step = .ok (s, computer, log)) :
    log = m.ownRecords .step (.ok (.step s)) := by
  cases ha : m.computer.cpu.awaiting with
  | some x =>
    rw [m.computer.step_waiting ha] at hs
    cases hs
    rfl
  | none =>
    cases hd : Instruction.decode m.computer.fetch with
    | error e =>
      rw [m.computer.step_invalid ha hd] at hs
      cases hs
    | ok i =>
      rw [m.computer.step_executed ha hd] at hs
      cases hs
      exact congrArg (m.execution i :: ·) (i.remarks_passed hm.sp_le)

theorem perform_log (hm : m.WellFormed) (call : Call) :
    (m.perform call).log =
      m.ownRecords call (m.perform call).value ++ (m.perform call).beeps.map .beep := by
  cases call with
  | makeReady =>
    rw [perform_makeReady]
    cases m.ready <;> rfl
  | reset => rfl
  | load rom =>
    rw [perform_load]
    by_cases hr : m.ready = true
    · rw [if_pos hr]
      by_cases hrom : Memory.capacity < rom.length
      · rw [if_pos hrom]
        rfl
      · rw [if_neg hrom]
        rfl
    · rw [if_neg hr]
      rfl
  | step =>
    rw [perform_step]
    split
    · cases hs : m.computer.step with
      | error e => rfl
      | ok r =>
        obtain ⟨s, computer, log⟩ := r
        simp only [countStep_log, step_log hm hs]
    · rfl
  | tick =>
    rw [perform_tick]
    cases m.ready <;> rfl
  | setKey key down =>
    rw [perform_setKey]
    cases m.computer.keypad.set key down with
    | error e => rfl
    | ok r =>
      obtain ⟨keypad, edge⟩ := r
      cases edge with
      | none => rfl
      | some edge =>
        cases edge with
        | released digit => rfl
        | pressed digit =>
          simp only [keyEdgeCpu, receiveKey_log]
          exact (List.append_nil _).symm
  | takeFrame => rfl
  | fetch =>
    rw [perform_fetch]
    cases m.ready <;> rfl
  | programListing => rfl

/-! ## What the records are about -/

theorem ownRecords_other {call : Call} (hs : call ≠ .step) (value : Except Error Answer) :
    ∀ r ∈ m.ownRecords call value, r.isExecuting = false ∧ r.level ≠ .warn ∧ r.beep? = none := by
  unfold ownRecords
  split
  case h_4 => exact absurd rfl hs
  all_goals simp [Record.isExecuting, Record.level, Record.beep?]

theorem ownRecords_cases (call : Call) :
    (∃ i, call = .step ∧ (m.perform call).value = .ok (.step (.executed i))) ∨
      (executed? (m.perform call).value = none ∧
        ∀ r ∈ m.ownRecords call (m.perform call).value,
          r.isExecuting = false ∧ r.level ≠ .warn ∧ r.beep? = none) := by
  by_cases hs : call = .step
  · subst hs
    rcases m.step_value_cases with ⟨e, he⟩ | ⟨s, hs⟩
    · rw [he]
      exact .inr ⟨rfl, fun r hr => absurd hr List.not_mem_nil⟩
    · rw [hs]
      cases s with
      | waiting => exact .inr ⟨rfl, fun r hr => absurd hr List.not_mem_nil⟩
      | executed i => exact .inl ⟨i, rfl, rfl⟩
  · refine .inr ⟨?_, m.ownRecords_other hs _⟩
    unfold executed?
    split
    case h_1 i hv => exact absurd hv (m.perform_other_value hs _)
    case h_2 => rfl

/-- What there is to say about an instruction, as each kind of reader sees it. -/
theorem ownRecords_executed (i : Instruction) :
    let own := m.ownRecords .step (.ok (.step (.executed i)))
    own.filter (·.isExecuting) = [m.execution i] ∧
      own.filter (·.isKeyWait) = i.announcement.toList ∧
      own.filterMap (·.beep?) = [] := by
  have hwarning : ∀ w, i.warning m.computer.cpu.pc m.computer.cpu.sp = some w →
      w.isExecuting = false ∧ w.isKeyWait = false ∧ w.beep? = none :=
    fun w hw => Record.of_level_warn (Instruction.level_of_warning hw)
  have hannouncement : ∀ r, i.announcement = some r →
      r.isExecuting = false ∧ r.isKeyWait = true ∧ r.beep? = none := by
    intro r hr
    obtain ⟨x, -, rfl⟩ := Instruction.announcement_eq hr
    exact ⟨rfl, rfl, rfl⟩
  simp only [ownRecords, execution]
  generalize i.warning m.computer.cpu.pc m.computer.cpu.sp = warning at hwarning
  generalize i.announcement = announcement at hannouncement
  cases warning <;> cases announcement <;>
    simp_all [Record.isExecuting, Record.isKeyWait, Record.beep?]

theorem executing_ownRecords (call : Call) :
    (m.ownRecords call (m.perform call).value).filter (·.isExecuting) =
      (executed? (m.perform call).value).toList.map m.execution := by
  rcases m.ownRecords_cases call with ⟨i, rfl, hv⟩ | ⟨hnone, hother⟩
  · rw [hv]
    exact (m.ownRecords_executed i).1
  · rw [hnone]
    exact List.filter_eq_nil_iff.mpr fun r hr => by simp [(hother r hr).1]

theorem beeps_ownRecords (call : Call) :
    (m.ownRecords call (m.perform call).value).filterMap (·.beep?) = [] := by
  rcases m.ownRecords_cases call with ⟨i, rfl, hv⟩ | ⟨-, hother⟩
  · rw [hv]
    exact (m.ownRecords_executed i).2.2
  · exact List.filterMap_eq_nil_iff.mpr fun r hr => (hother r hr).2.2

/-! ## Histories -/

def log (m : Machine) (calls : List Call) : List Record := (m.performAll calls).flatMap (·.log)

/-- The instructions that a history executed, each as the machine was before it. -/
def executions (m : Machine) : List Call → List Record
  | [] => []
  | call :: rest =>
    (executed? (m.perform call).value).toList.map m.execution ++
      (m.perform call).machine.executions rest

theorem log_cons (call : Call) (rest : List Call) :
    m.log (call :: rest) = (m.perform call).log ++ (m.perform call).machine.log rest := rfl

theorem log_append (calls rest : List Call) :
    m.log (calls ++ rest) = m.log calls ++ (m.after calls).log rest := by
  rw [log, performAll_append, List.flatMap_append]
  rfl

theorem executing_log (hm : m.WellFormed) (calls : List Call) :
    (m.log calls).filter (·.isExecuting) = m.executions calls := by
  induction calls generalizing m with
  | nil => rfl
  | cons call rest ih =>
    have hbeeps : ((m.perform call).beeps.map Record.beep).filter (·.isExecuting) = [] := by
      simp [List.filter_map, Function.comp_def, Record.isExecuting]
    rw [log_cons, perform_log hm, List.filter_append, List.filter_append, hbeeps, List.append_nil,
      m.executing_ownRecords, ih (perform_wellFormed hm call)]
    rfl

theorem beeps_log (hm : m.WellFormed) (calls : List Call) :
    (m.log calls).filterMap (·.beep?) = (m.performAll calls).flatMap (·.beeps) := by
  induction calls generalizing m with
  | nil => rfl
  | cons call rest ih =>
    have hbeeps : ((m.perform call).beeps.map Record.beep).filterMap (·.beep?) =
        (m.perform call).beeps := by
      rw [List.filterMap_map]
      exact List.filterMap_some
    rw [log_cons, perform_log hm, List.filterMap_append, List.filterMap_append, hbeeps,
      m.beeps_ownRecords, ih (perform_wellFormed hm call)]
    rfl

end Machine

/-! ## Warnings -/

namespace Record

/-- The warning that belongs to a record. -/
def warning? : Record → Option Record
  | .executing pc _ i _ _ sp => i.warning pc sp
  | _ => none

/-- The record itself if it is a warning. -/
def warns? (r : Record) : Option Record := if r.level = .warn then some r else none

theorem warning?_other {r : Record} (h : r.isExecuting = false) : r.warning? = none := by
  cases r with
  | executing => cases h
  | _ => rfl

end Record

/-- Every record of a log has the warning that belongs to it, if any, right behind it, and there is
no other warning: the two columns are the same, one place apart. -/
def Accounted (log : List Record) : Prop :=
  none :: log.map (·.warning?) = log.map (·.warns?) ++ [none]

namespace Accounted

variable {log more : List Record}

theorem nil : Accounted [] := rfl

theorem append (h : Accounted log) (hmore : Accounted more) : Accounted (log ++ more) := by
  unfold Accounted at h hmore ⊢
  rw [List.map_append, List.map_append, ← List.cons_append, h, List.append_assoc,
    List.singleton_append, hmore, List.append_assoc]

/-- So it is where nothing is executed and nothing warned of. -/
theorem of_plain (h : ∀ r ∈ log, r.isExecuting = false ∧ r.level ≠ .warn) : Accounted log := by
  induction log with
  | nil => exact nil
  | cons r rest ih =>
    obtain ⟨hexecuting, hlevel⟩ := h r List.mem_cons_self
    have hwarning := Record.warning?_other hexecuting
    have hwarns : r.warns? = none := if_neg hlevel
    have hfirst : Accounted [r] := by
      simp [Accounted, hwarning, hwarns]
    exact hfirst.append (ih fun r hr => h r (List.mem_cons_of_mem _ hr))

theorem getElem?_succ (h : Accounted log) (k : Nat) :
    (log[k]?).map (·.warning?) = (log.map (·.warns?) ++ [none])[k + 1]? := by
  have hplace := congrArg (·[k + 1]?) h
  simp only [List.getElem?_cons_succ, List.getElem?_map] at hplace
  exact hplace

/-- Place by place: a warning stands right behind the record of an instruction that calls for it,
and nowhere else. -/
theorem warning_iff (h : Accounted log) (k : Nat) (r : Record) :
    (log[k + 1]? = some r ∧ r.level = .warn) ↔
      ∃ pc opcode i v index sp,
        log[k]? = some (.executing pc opcode i v index sp) ∧ i.warning pc sp = some r := by
  -- Place `k + 1` of the second column is inside the log, or it is the `none` behind it.
  have hplace := h.getElem?_succ k
  rw [List.getElem?_append, List.getElem?_map] at hplace
  constructor
  · rintro ⟨hr, hwarn⟩
    have hinside : k + 1 < (log.map (·.warns?)).length := by
      rw [List.length_map]
      exact (List.getElem?_eq_some_iff.mp hr).1
    have hwarns : r.warns? = some r := if_pos hwarn
    rw [if_pos hinside, hr, Option.map_some, hwarns] at hplace
    obtain ⟨before, hbefore, hwarning⟩ := Option.map_eq_some_iff.mp hplace
    cases before with
    | executing pc opcode i v index sp => exact ⟨pc, opcode, i, v, index, sp, hbefore, hwarning⟩
    | _ => cases hwarning
  · rintro ⟨pc, opcode, i, v, index, sp, hexecuting, hwarning⟩
    have hcalls : (Record.executing pc opcode i v index sp).warning? = some r := hwarning
    rw [hexecuting, Option.map_some, hcalls] at hplace
    split at hplace
    case isTrue =>
      obtain ⟨behind, hbehind, hwarns⟩ := Option.map_eq_some_iff.mp hplace.symm
      have hlevel := Instruction.level_of_warning hwarning
      have hsame : behind = r := by
        unfold Record.warns? at hwarns
        split at hwarns <;> cases hwarns
        rfl
      exact ⟨hsame ▸ hbehind, hlevel⟩
    case isFalse =>
      have hmember := List.mem_of_getElem? hplace.symm
      simp at hmember

theorem head_silent (h : Accounted log) {r : Record} (hr : log[0]? = some r) : r.level ≠ .warn := by
  intro hwarn
  have hplace := congrArg (·[0]?) h
  cases log with
  | nil => cases hr
  | cons first rest =>
    cases hr
    simp [Record.warns?, hwarn] at hplace

end Accounted

namespace Machine

variable {m : Machine}

/-- An instruction has its warning behind it, and then the wait that it starts. -/
theorem ownRecords_executed_accounted (i : Instruction) :
    Accounted (m.ownRecords .step (.ok (.step (.executed i)))) := by
  have hannouncement : Accounted i.announcement.toList := by
    apply Accounted.of_plain
    intro r hr
    obtain ⟨x, -, rfl⟩ := Instruction.announcement_eq (Option.mem_toList.mp hr)
    exact ⟨rfl, nofun⟩
  have hinstruction : Accounted
      (m.execution i :: (i.warning m.computer.cpu.pc m.computer.cpu.sp).toList) := by
    have hsilent : (m.execution i).warns? = none := rfl
    cases hw : i.warning m.computer.cpu.pc m.computer.cpu.sp with
    | none =>
      have hnone : (m.execution i).warning? = none := hw
      simp [Accounted, hsilent, hnone]
    | some w =>
      have hsome : (m.execution i).warning? = some w := hw
      have hlevel := Instruction.level_of_warning hw
      have hwarns : w.warns? = some w := if_pos hlevel
      have hlast := Record.warning?_other (Record.of_level_warn hlevel).1
      simp [Accounted, hsilent, hsome, hwarns, hlast]
  exact hinstruction.append hannouncement

theorem perform_accounted (hm : m.WellFormed) (call : Call) : Accounted (m.perform call).log := by
  have hbeeps : Accounted ((m.perform call).beeps.map Record.beep) := by
    apply Accounted.of_plain
    intro r hr
    obtain ⟨ticks, -, rfl⟩ := List.mem_map.mp hr
    exact ⟨rfl, nofun⟩
  rw [perform_log hm]
  refine Accounted.append ?_ hbeeps
  rcases m.ownRecords_cases call with ⟨i, rfl, hv⟩ | ⟨-, hother⟩
  · rw [hv]
    exact m.ownRecords_executed_accounted i
  · exact .of_plain fun r hr => ⟨(hother r hr).1, (hother r hr).2.1⟩

theorem log_accounted (hm : m.WellFormed) (calls : List Call) : Accounted (m.log calls) := by
  induction calls generalizing m with
  | nil => exact .nil
  | cons call rest ih =>
    exact (perform_accounted hm call).append (ih (perform_wellFormed hm call))

end Machine

/-! ## Waits for keys -/

/-- Keys are waited for and stored by turns, starting with a wait, and each is stored in the
register that waited. The last wait may still go on. -/
inductive KeyWaits : List Record → Prop where
  | nil : KeyWaits []
  | pending (x : Register) : KeyWaits [.awaitingKey x]
  | answered (x : Register) (key : Byte) {rest : List Record} (h : KeyWaits rest) :
      KeyWaits (.awaitingKey x :: .keyStored key x :: rest)

namespace Machine

variable {m : Machine}

/-- The wait that goes on, as the record with which it started. -/
def pendingWait (m : Machine) : List Record := m.computer.cpu.awaiting.toList.map .awaitingKey

theorem keyWaits_pendingWait (m : Machine) : KeyWaits m.pendingWait := by
  rw [pendingWait]
  cases m.computer.cpu.awaiting with
  | none => exact .nil
  | some x => exact .pending x

theorem pendingWait_executed {i : Instruction}
    (hv : (m.perform .step).value = .ok (.step (.executed i))) :
    m.pendingWait = [] ∧ (m.perform .step).machine.pendingWait = i.announcement.toList := by
  have ha := (m.fetched_of_executed hv).1
  refine ⟨by rw [pendingWait, ha]; rfl, ?_⟩
  by_cases hi : ∃ x, i = .awaitKey x
  · obtain ⟨x, rfl⟩ := hi
    obtain ⟨sinceTick, delay, sound, hm⟩ := m.perform_executed hv
    rw [hm]
    rfl
  · have hnot : ∀ x, i ≠ .awaitKey x := fun x hx => hi ⟨x, hx⟩
    have hnone : i.announcement = none := by
      cases i with
      | awaitKey x => exact absurd rfl (hnot x)
      | _ => rfl
    have hstays := m.step_keeps_awaiting ha (by
      rintro x hx
      rw [hv] at hx
      cases hx
      exact hnot x rfl)
    rw [pendingWait, hstays, hnone]
    rfl

theorem eq_of_executed? {value : Except Error Answer} {i : Instruction}
    (h : executed? value = some i) : value = .ok (.step (.executed i)) := by
  unfold executed? at h
  split at h <;> cases h
  rfl

theorem pendingWait_pressed {key : Byte} {down : Bool} {digit : Key}
    (hv : (m.perform (.setKey key down)).value = .ok (.edge (some (.pressed digit)))) :
    (m.perform (.setKey key down)).machine.pendingWait = [] := by
  obtain ⟨keypad, hset⟩ := Keypad.pressed_iff.mpr (perform_pressed_iff.mp hv)
  rw [m.perform_setKey_ok hset, pendingWait, keyEdgeCpu, Cpu.receiveKey]
  cases ha : m.computer.cpu.awaiting with
  | none => simp only [ha]; rfl
  | some x => rfl

theorem keyWaits_ownRecords {call : Call} {value : Except Error Answer} (hs : call ≠ .step)
    (hpress : presses value = false) : (m.ownRecords call value).filter (·.isKeyWait) = [] := by
  unfold ownRecords
  split
  case h_4 => exact absurd rfl hs
  case h_5 => cases hpress
  all_goals rfl

theorem pendingWait_other {call : Call}
    (hc : call.restarts = true → (m.perform call).value.toOption = none)
    (hexecuted : executed? (m.perform call).value = none)
    (hpress : presses (m.perform call).value = false) :
    (m.perform call).machine.pendingWait = m.pendingWait ∧
      (m.ownRecords call (m.perform call).value).filter (·.isKeyWait) = [] := by
  by_cases hs : call = .step
  · subst hs
    obtain ⟨e, he⟩ | ⟨s, computer, log, _, _, _, hstep, hv, hm⟩ := m.perform_step_cases
    · rw [he]
      exact ⟨rfl, rfl⟩
    · obtain ⟨rfl, rfl⟩ | ⟨i, -, -, rfl, -⟩ := m.computer.step_cases hstep
      · rw [hv, hm]
        exact ⟨rfl, rfl⟩
      · rw [hv] at hexecuted
        cases hexecuted
  · have hidle : ∀ k, (m.perform call).value = .ok (.edge (some (.pressed k))) →
        m.computer.cpu.awaiting = none := by
      intro k hk
      rw [hk] at hpress
      cases hpress
    obtain ⟨_, _, _, _, hm⟩ := idles_between_steps hc hs hidle
    refine ⟨?_, keyWaits_ownRecords hs hpress⟩
    rw [hm]
    rfl

theorem keyWaits_perform (hm : m.WellFormed) {call : Call}
    (hc : call.restarts = true → (m.perform call).value.toOption = none) {later : List Record}
    (h : KeyWaits ((m.perform call).machine.pendingWait ++ later)) :
    KeyWaits (m.pendingWait ++ ((m.perform call).log.filter (·.isKeyWait) ++ later)) := by
  have hbeeps : ((m.perform call).beeps.map Record.beep).filter (·.isKeyWait) = [] := by
    simp [List.filter_map, Function.comp_def, Record.isKeyWait]
  rw [perform_log hm, List.filter_append, hbeeps, List.append_nil]
  cases hexecuted : executed? (m.perform call).value with
  | some i =>
    have hv := eq_of_executed? hexecuted
    cases m.call_of_step hv
    obtain ⟨hbefore, hbehind⟩ := pendingWait_executed hv
    rw [hbehind] at h
    rw [hv, (m.ownRecords_executed i).2.1, hbefore]
    exact h
  | none =>
    cases hpress : presses (m.perform call).value with
    | true =>
      obtain ⟨digit, hv⟩ := eq_of_presses hpress
      obtain ⟨key, down, rfl⟩ := m.call_of_edge hv
      rw [pendingWait_pressed hv, List.nil_append] at h
      have hown : (m.ownRecords (.setKey key down) (.ok (.edge (some (.pressed digit))))).filter
          (·.isKeyWait) = m.computer.cpu.awaiting.toList.map (.keyStored key) := by
        simp only [ownRecords]
        cases m.computer.cpu.awaiting <;> rfl
      rw [hv, hown, pendingWait]
      cases m.computer.cpu.awaiting with
      | none => exact h
      | some x => exact .answered x key h
    | false =>
      obtain ⟨hsame, hsilent⟩ := pendingWait_other hc hexecuted hpress
      rw [hsilent, List.nil_append, ← hsame]
      exact h

theorem keyWaits_log (hm : m.WellFormed) {calls : List Call} (hc : m.Uninterrupted calls) :
    KeyWaits (m.pendingWait ++ (m.log calls).filter (·.isKeyWait)) := by
  -- In front of the log stands the wait that goes on, so that a key finds it.
  induction calls generalizing m with
  | nil =>
    show KeyWaits (m.pendingWait ++ [])
    rw [List.append_nil]
    exact m.keyWaits_pendingWait
  | cons call rest ih =>
    rw [log_cons, List.filter_append]
    exact keyWaits_perform hm hc.1 (ih (perform_wellFormed hm call) hc.2)

/-- At the end of this history the machine has just started over, or it is new. -/
def JustStarted (m : Machine) (history : List Call) : Prop :=
  history = [] ∨
    ∃ earlier call, history = earlier ++ [call] ∧ call.restarts = true ∧
      ∃ answer, ((m.after earlier).perform call).value = .ok answer

theorem JustStarted.pendingWait {config : Config} {entropy : Random.Key} {history : List Call}
    (h : (create config entropy).JustStarted history) :
    ((create config entropy).after history).pendingWait = [] := by
  rcases h with rfl | ⟨earlier, call, rfl, hrestarts, answer, hv⟩
  · rfl
  · let m := (create config entropy).after earlier
    have hlast : (create config entropy).after (earlier ++ [call]) = (m.perform call).machine :=
      Machine.after_append _ earlier [call]
    rw [hlast]
    rcases m.perform_restart_cases hrestarts with ⟨e, he⟩ | ⟨_, ready, memory, log, hm⟩
    · rw [he] at hv
      cases hv
    · rw [hm]
      rfl

/-- The log of any history, at the level that takes in every record. Its records of instructions are
those that were executed, in their order, each with the registers as they were before; what a call
logs is its own records, by its outcome, and then its beeps. Warnings stand right behind the record
of the instruction that they are about, and name its address: a return with an empty stack, a call
with a full one, and machine code. There is one record for each beep that was asked for. From a call
that started the machine over to the next, the waits for keys and their ends take turns. -/
theorem log_accounts_for_run (config : Config) (entropy : Random.Key) (calls : List Call) :
    let start := create config entropy
    let m := start.after calls
    let log := start.log calls
    (∀ r ∈ log, Level.trace.covers r.level = true) ∧
    log.filter (·.isExecuting) = start.executions calls ∧
    (∀ call, (m.perform call).log =
      m.ownRecords call (m.perform call).value ++ (m.perform call).beeps.map .beep) ∧
    (∀ i, (m.perform .step).value = .ok (.step (.executed i)) →
      Instruction.decode m.computer.fetch = .ok i ∧
      ∃ spaces, spaces.all (· = ' ') = true ∧
        (i.mnemonic ++ spaces).length = max 16 i.mnemonic.length ∧
        (m.execution i).level = .trace ∧
        (m.execution i).text =
          Hex.padded 3 m.computer.cpu.pc.toNat ++ ": " ++ Hex.padded 4 m.computer.fetch.toNat ++
            " " ++ (i.mnemonic ++ spaces) ++ " v[" ++
            ", ".intercalate (m.computer.cpu.v.toList.map fun b => Hex.padded 2 b.toNat) ++ "] i" ++
            Hex.padded 4 m.computer.cpu.index.toNat ++ " sp" ++
            toString m.computer.cpu.sp.toNat) ∧
    (∀ r, log[0]? = some r → r.level ≠ .warn) ∧
    (∀ k r, (log[k + 1]? = some r ∧ r.level = .warn) ↔
      ∃ pc opcode i v index sp,
        log[k]? = some (.executing pc opcode i v index sp) ∧ i.warning pc sp = some r) ∧
    log.filterMap (·.beep?) = (start.performAll calls).flatMap (·.beeps) ∧
    ∀ history rest, calls = history ++ rest → start.JustStarted history →
      (start.after history).Uninterrupted rest →
        log = start.log history ++ (start.after history).log rest ∧
          KeyWaits (((start.after history).log rest).filter (·.isKeyWait)) := by
  intro start m log
  have hstart : start.WellFormed := create_wellFormed config entropy
  have haccounted := log_accounted hstart calls
  refine ⟨?_, executing_log hstart calls, ?_, ?_, ?_, ?_, beeps_log hstart calls, ?_⟩
  · intro r _
    cases r.level <;> rfl
  · exact perform_log (after_wellFormed hstart calls)
  · intro i hv
    obtain ⟨spaces, hpadded, hspaces, hlength⟩ := padRight_eq 16 i.mnemonic
    refine ⟨(m.fetched_of_executed hv).2, spaces, hspaces, hlength, rfl, ?_⟩
    rw [← hpadded]
    rfl
  · exact fun r => haccounted.head_silent
  · exact haccounted.warning_iff
  · rintro history rest rfl hjust hrest
    have hwaits := keyWaits_log (after_wellFormed hstart history) hrest
    rw [hjust.pendingWait] at hwaits
    exact ⟨log_append history rest, hwaits⟩

/-- A return with an empty stack, as a reader sees it. -/
example :
    let m := (create { seed := some 0 } (.ofSeed 0)).after [.makeReady, .load [0x00, 0xEE]]
    (m.log [.step]).map (·.line) =
      ["TRACE 200: 00EE RET              v[00, 00, 00, 00, 00, 00, 00, 00, 00, 00, 00, 00, " ++
          "00, 00, 00, 00] i0000 sp0",
        "WARN stack underflow at 0x200, wrapping"] := by
  decide +kernel

end Machine
end ChipEight
