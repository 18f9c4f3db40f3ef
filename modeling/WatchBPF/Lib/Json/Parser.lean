/-
The syntax of JSON as the state machine of `encoding/json`'s scanner: what may follow at each
point, with the stack of open containers, building the value it accepts.
-/
import WatchBPF.Lib.Json.Lexer

namespace WatchBPF.Json

/-- A JSON value; numbers keep their text, objects the order and duplicates of their members. -/
inductive Value
  | null
  | bool (b : Bool)
  | num (text : Bytes)
  | str (s : Bytes)
  | arr (elems : List Value)
  | obj (members : List (Bytes × Value))

/-- A container whose next element or member value is still to come. -/
inductive Frame
  | arr (elems : List Value)
  | obj (members : List (Bytes × Value)) (key : Bytes)

/-- What the scanner expects next, with the open containers, innermost first. -/
inductive State
  | value (stack : List Frame)
  | firstElem (stack : List Frame)
  | firstKey (stack : List Frame)
  | key (members : List (Bytes × Value)) (stack : List Frame)
  | colon (members : List (Bytes × Value)) (key : Bytes) (stack : List Frame)
  | after (v : Value) (stack : List Frame)

/-- `maxNestingDepth` -/
def maxDepth : Nat := 10000

/-- `stateBeginValue` -/
def beginValue (stack : List Frame) : Token → Option State
  | .null => some (.after .null stack)
  | .true => some (.after (.bool true) stack)
  | .false => some (.after (.bool false) stack)
  | .num n => some (.after (.num n) stack)
  | .str s => some (.after (.str s) stack)
  | .lbrack => if stack.length < maxDepth then some (.firstElem stack) else none
  | .lbrace => if stack.length < maxDepth then some (.firstKey stack) else none
  | _ => none

/-- `stateEndValue`: a value has ended inside the innermost container. -/
def endValue (v : Value) : List Frame → Token → Option State
  | .arr es :: stack, .comma => some (.value (.arr (es ++ [v]) :: stack))
  | .arr es :: stack, .rbrack => some (.after (.arr (es ++ [v])) stack)
  | .obj ms k :: stack, .comma => some (.key (ms ++ [(k, v)]) stack)
  | .obj ms k :: stack, .rbrace => some (.after (.obj (ms ++ [(k, v)])) stack)
  | _, _ => none

def feed : State → Token → Option State
  | .value stack, t => beginValue stack t
  | .firstElem stack, .rbrack => some (.after (.arr []) stack)
  | .firstElem stack, t => beginValue (.arr [] :: stack) t
  | .firstKey stack, .rbrace => some (.after (.obj []) stack)
  | .firstKey stack, .str k => some (.colon [] k stack)
  | .key ms stack, .str k => some (.colon ms k stack)
  | .colon ms k stack, .colon => some (.value (.obj ms k :: stack))
  | .after v stack, t => endValue v stack t
  | _, _ => none

/-- The value of a text that has ended. -/
def State.result : State → Option Value
  | .after v [] => some v
  | _ => none

/-- The value of a JSON text; `none` where `json.Unmarshal` reports a syntax error. -/
def parse (s : Bytes) : Option Value :=
  (lex s).bind fun ts => (ts.foldlM feed (.value [])).bind State.result

end WatchBPF.Json
