import ChipEight.Machine

/-!
# ChipEight.Machine.Call

The calls on a machine as data, so that a history of them is a list.

* `Call`, `Answer`     — what is asked, and what a call that succeeds gives back.
* `Machine.perform`    — one call; one that fails leaves the machine alone and reports nothing.
* `Machine.performAll` — the replies to a history.
* `Machine.after`      — the machine that a history leaves.
-/

namespace ChipEight

inductive Call where
  | makeReady
  | reset
  | load (rom : List Byte)
  | step
  | tick
  | setKey (key : Byte) (down : Bool)
  | takeFrame
  | fetch
  | programListing
  deriving DecidableEq

/-- What a call that succeeds gives back. -/
inductive Answer where
  | done
  | size (n : Nat)
  | step (step : Step)
  | edge (edge : Option KeyEdge)
  | frame (picture : Option Picture)
  | opcode (opcode : Word)
  | listing (text : String)
  deriving DecidableEq

/-- The outcome of a call on a machine: a failure leaves it alone and reports nothing. -/
def Machine.settle {α : Type} (m : Machine) (answer : α → Answer) :
    Except Error (Reply α) → Reply (Except Error Answer)
  | .ok r => { r with value := .ok (answer r.value) }
  | .error e => { value := .error e, machine := m }

def Machine.perform (m : Machine) : Call → Reply (Except Error Answer)
  | .makeReady => m.settle (fun _ => .done) m.makeReady
  | .reset => m.settle (fun _ => .done) (.ok m.reset)
  | .load rom => m.settle .size (m.load rom)
  | .step => m.settle .step m.step
  | .tick => m.settle (fun _ => .done) m.tick
  | .setKey key down => m.settle .edge (m.setKey key down)
  | .takeFrame => m.settle .frame (.ok m.takeFrame)
  | .fetch => m.settle .opcode (m.fetch.map ({ value := ·, machine := m }))
  | .programListing => m.settle .listing (.ok { value := m.programListing, machine := m })

/-- The replies to a history of calls, each on the machine that the one before it left. -/
def Machine.performAll (m : Machine) : List Call → List (Reply (Except Error Answer))
  | [] => []
  | call :: rest => m.perform call :: (m.perform call).machine.performAll rest

/-- The machine after a history of calls. -/
def Machine.after (m : Machine) (calls : List Call) : Machine :=
  calls.foldl (fun m call => (m.perform call).machine) m

end ChipEight
