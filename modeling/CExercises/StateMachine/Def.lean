import CExercises.Core.Refinement

/-!
# The connection state machine

Pattern 4 of `enums.c`: a table gives the next state for every state and event, and `sm_step` looks
an event up in it.

The table is written with designated initialisers.  A slot that is not named in one is zero, which
is a state (`STATE_IDLE`) and not the sentinel `NO_TRANS`; `designated` keeps that, so a slot
forgotten in the source would be a transition here as well.
-/

namespace CExercises.StateMachine

/-- `ConnState`; `COUNT` is `STATE_COUNT`, the number of states. -/
inductive ConnState
  | IDLE
  | CONNECTING
  | CONNECTED
  | CLOSING
  | CLOSED
  | COUNT
  deriving DecidableEq

/-- `ConnEvent`, without `EVT_COUNT`, which is only the length of a row. -/
inductive ConnEvent
  | CONNECT
  | OPEN
  | SEND
  | CLOSE
  | ERROR
  deriving DecidableEq

/-- An array with designated initialisers. -/
def designated {ι β : Type} [DecidableEq ι] (zero : β) (slots : List (ι × β)) : ι → β :=
  slots.foldl (fun f slot => Function.update f slot.1 slot.2) fun _ => zero

def stateName : ConnState → String :=
  designated ""
    [(.IDLE, "IDLE"), (.CONNECTING, "CONNECTING"), (.CONNECTED, "CONNECTED"),
      (.CLOSING, "CLOSING"), (.CLOSED, "CLOSED")]

def eventName : ConnEvent → String :=
  designated ""
    [(.CONNECT, "CONNECT"), (.OPEN, "OPEN"), (.SEND, "SEND"), (.CLOSE, "CLOSE"), (.ERROR, "ERROR")]

/-- The sentinel for "no valid transition". -/
def NO_TRANS : ConnState := .COUNT

def transitions : ConnState → ConnEvent → ConnState :=
  designated (fun _ => .IDLE)
    [(.IDLE, designated .IDLE
        [(.CONNECT, .CONNECTING), (.ERROR, .CLOSED), (.OPEN, NO_TRANS), (.SEND, NO_TRANS),
          (.CLOSE, NO_TRANS)]),
      (.CONNECTING, designated .IDLE
        [(.OPEN, .CONNECTED), (.ERROR, .CLOSED), (.CONNECT, NO_TRANS), (.SEND, NO_TRANS),
          (.CLOSE, NO_TRANS)]),
      (.CONNECTED, designated .IDLE
        [(.SEND, .CONNECTED), (.CLOSE, .CLOSING), (.ERROR, .CLOSED), (.CONNECT, NO_TRANS),
          (.OPEN, NO_TRANS)]),
      (.CLOSING, designated .IDLE
        [(.CLOSE, .CLOSED), (.ERROR, .CLOSED), (.CONNECT, NO_TRANS), (.OPEN, NO_TRANS),
          (.SEND, NO_TRANS)]),
      (.CLOSED, designated .IDLE
        [(.CONNECT, NO_TRANS), (.OPEN, NO_TRANS), (.SEND, NO_TRANS), (.CLOSE, NO_TRANS),
          (.ERROR, NO_TRANS)])]

/-- `sm_step`: the new state, what is returned, and the line that is printed. -/
def smStep (state : ConnState) (evt : ConnEvent) : Except Stop (ConnState × ℤ × String) :=
  -- the table has `STATE_COUNT` rows
  if state = .COUNT then throw .outOfBounds
  else
    let next := transitions state evt
    if next = NO_TRANS then
      return (state, 0,
        "  invalid transition: " ++ stateName state ++ " + " ++ eventName evt ++ "\n")
    else
      return (next, 1,
        "  " ++ stateName state ++ " + " ++ eventName evt ++ " -> " ++ stateName next ++ "\n")

/-- A sequence of events fed to `sm_step`. -/
def feed (state : ConnState) (evts : List ConnEvent) :
    Except Stop (ConnState × List (ℤ × String)) :=
  runCalls smStep state evts

/-- The events on which `sm_step` did not return 0. -/
def accepted (evts : List ConnEvent) (rets : List (ℤ × String)) : List ConnEvent :=
  ((evts.zip rets).filter fun x => x.2.1 ≠ 0).map Prod.fst

end CExercises.StateMachine
