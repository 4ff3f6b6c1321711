import VoxelEdit.Expr.Parser
import VoxelEdit.Proofs.ByteLexer

/-!
# Reading a formula call by call

The readers of formulas call each other, and what they give does not show how many of them wait for
others at a time. Here their calls are data: a machine reads the bytes of a text, with a stack of the
calls that are under way, from one call, one turn of a loop or one answer to the next.

* `Task`: what a reader is called for. `Frame`: a call that waits for the answer of another one.
* `State`: where the machine stands. Its counter of depth is an integer, so that a subtraction may take
  it below zero, and its cursor may be moved past the end of the text.
* `step`, `run`: **the machine**.
-/

namespace VoxelEdit

open Number Text

/-! ## What comes next -/

namespace Place

/-- The place behind white space. -/
def skipSpace (p : Place) : Place := p.span isSpace

/-- The place behind `token`, if it comes next. -/
def eat? (p : Place) (token : List Char) : Option Place :=
  if token.isPrefixOf (p.rest.map ofByte) then some (p.skip token.length) else none

/-- The bytes up to a later place, as characters. -/
def textUntil (p q : Place) : List Char := (p.rest.take (q.offset - p.offset)).map ofByte

/-- Whether the mark of an exponent comes next, with a sign or a digit behind it. -/
def atExponent (p : Place) : Bool :=
  ((p.peek? 0).map fun e => e = 'e' || e = 'E').getD false &&
    ((p.peek? 1).map fun s => s.isDigit || s = '-' || s = '+').getD false

/-- The place behind a number: digits and points, and an exponent if one follows. -/
def skipNumber (p : Place) : Place :=
  let q := p.span isDigitOrPoint
  if q.atExponent then (q.skip 2).span isDigitOrPoint else q

end Place

namespace Descent

open VoxelEdit.Expr

/-- A sign in front of a formula. -/
inductive Sign where
  | minus | plus | bang

/-- The formula behind a sign, with the sign. -/
def Sign.apply : Sign → Expr → Expr
  | .minus, e => .neg e
  | .plus, e => e
  | .bang, e => .not e

/-- The sign that comes next. An exclamation mark before an equals sign is none. -/
def sign? (p : Place) : Option Sign :=
  if p.peek? 0 = some '-' then some .minus
  else if p.peek? 0 = some '+' then some .plus
  else if p.peek? 0 = some '!' && p.peek? 1 ≠ some '=' then some .bang
  else none

/-- The operator of a list that comes next, and the place behind it. -/
def operator? (ops : List (List Char × BinaryOp)) (p : Place) : Option (BinaryOp × Place) :=
  ops.findSome? fun (token, op) => (p.eat? token).map fun q => (op, q)

/-! ## Calls -/

/-- What a reader is called for. Row 0 is a signed formula; it goes on as `signs` once the depth has
been checked. -/
inductive Task where
  | row (r : Nat)
  | signs
  | power
  | atom
  | number

/-- A call that waits for the answer of another one. -/
inductive Frame where
  /-- Row `r + 1`, for its first operand. -/
  | first (r : Nat)
  /-- Row `r + 1`, for the operand behind an operator, which is number `links` of its chain. -/
  | link (r links : Nat) (op : BinaryOp) (lhs : Expr)
  /-- The row of comparisons, for its second operand. -/
  | compared (op : BinaryOp) (lhs : Expr)
  /-- Row 0, past its check of the depth. -/
  | checked
  /-- Behind a sign, or where there was none. -/
  | signed (s : Sign)
  | unsigned
  /-- A power, for its base or for its exponent. -/
  | base
  | exponent (base : Expr)
  /-- An atom, for what stands in parentheses, for an argument of a call or for a number. -/
  | group
  | argument (name : String) (args : List Expr)
  | digits

/-- Whose call it is that waits. -/
def Frame.caller : Frame → Task
  | .first r | .link r .. => .row (r + 1)
  | .compared .. => .row comparison
  | .checked => .row 0
  | .signed _ | .unsigned => .signs
  | .base | .exponent _ => .power
  | .group | .argument .. | .digits => .atom

/-- What it waits for. -/
def Frame.awaits : Frame → Task
  | .first r | .link r .. => .row r
  | .compared .. => .row (comparison - 1)
  | .checked => .signs
  | .signed _ | .exponent _ => .row 0
  | .unsigned => .power
  | .base => .atom
  | .group | .argument .. => .row loosest
  | .digits => .number

/-- What the machine does next: call a reader, go on with a chain, hand an answer or an error to the
call that waits for it, or nothing more. -/
inductive Control where
  | call (t : Task)
  | loop (r links : Nat) (lhs : Expr)
  | answer (e : Expr)
  | refuse (e : EvalError)
  | done (x : Except EvalError Expr)

/-- Where the machine stands: what it does next, the calls that wait, the latest first, the place of
the cursor and the counter of depth. -/
structure State where
  control : Control
  stack : List Frame
  place : Place
  depth : Int

/-! ## Steps -/

namespace State

variable (s : State)

/-- A call, from a place on. -/
def push (f : Frame) (p : Place) : State :=
  { s with control := .call f.awaits, stack := f :: s.stack, place := p }

/-- An answer, with the cursor behind it. -/
def answer (e : Expr) (p : Place) : State := { s with control := .answer e, place := p }

/-- An error, with the cursor where it came up. -/
def refuse (fault : SyntaxFault) (p : Place) : State :=
  { s with control := .refuse (.malformed p.offset fault), place := p }

/-- A call one level deeper, if that is allowed. The counter goes up in any case. -/
def enter (f : Frame) (p : Place) : State :=
  let t : State := { s with depth := s.depth + 1 }
  if t.depth > (maxDepth : Int) then t.refuse .tooDeep p else t.push f p

/-- A name, or a call if an opening parenthesis follows. -/
def named (p : Place) : State :=
  let q := p.span isWord
  let name := String.ofList (p.textUntil q)
  match q.skipSpace.eat? ['('] with
  | none => s.answer (.variable name) q.skipSpace
  | some q =>
    match q.skipSpace.eat? [')'] with
    | some q => s.answer (.call name []) q
    | none => s.push (.argument name []) q.skipSpace

/-- What a reader does when it is called. -/
def called : Task → State
  | .row 0 => s.enter .checked s.place
  | .row (r + 1) => s.push (.first r) s.place
  | .signs =>
    let p := s.place.skipSpace
    match sign? p with
    | some sign => s.push (.signed sign) (p.skip 1)
    | none => s.push .unsigned p
  | .power => s.push .base s.place
  | .atom =>
    let p := s.place.skipSpace
    match p.peek? 0 with
    | none => s.refuse .endOfText p
    | some c =>
      if c = '(' then s.push .group (p.skip 1)
      else if isDigitOrPoint c then s.push .digits p
      else if c.isAlpha || c = '_' then s.named p
      else s.refuse .foreignCharacter p
  | .number =>
    let q := s.place.skipNumber
    let text := s.place.textUntil q
    match double? text with
    | some v => s.answer (.number v) q
    | none =>
      { s with
        control := .refuse (.malformed s.place.offset (.badNumber (String.ofList text))), place := q }

/-- One turn of the loop of row `r + 1`. At the end of a chain its links are given back. -/
def looped (r links : Nat) (lhs : Expr) : State :=
  let p := s.place.skipSpace
  match operator? (operators (r + 1)) p with
  | none => { s with control := .answer lhs, place := p, depth := s.depth - links }
  | some (op, q) => s.enter (.link r (links + 1) op lhs) q

/-- What a call does with the answer it waited for. -/
def answered (e : Expr) : Frame → State
  | .first r =>
    if r + 1 = comparison then
      let p := s.place.skipSpace
      match operator? (operators comparison) p with
      | none => s.answer e p
      | some (op, q) => s.push (.compared op e) q
    else { s with control := .loop r 0 e }
  | .link r links op lhs => { s with control := .loop r links (.binary op lhs e) }
  | .compared op lhs => s.answer (.binary op lhs e) s.place
  | .checked => { s with control := .answer e, depth := s.depth - 1 }
  | .signed sign => s.answer (sign.apply e) s.place
  | .unsigned => s.answer e s.place
  | .base =>
    let p := s.place.skipSpace
    match p.eat? ['^'] with
    | none => s.answer e p
    | some q => s.push (.exponent e) q
  | .exponent base => s.answer (.binary .pow base e) s.place
  | .group =>
    let p := s.place.skipSpace
    match p.eat? [')'] with
    | none => s.refuse .openParenthesis p
    | some q => s.answer e q
  | .argument name args =>
    let p := s.place.skipSpace
    match p.eat? [')'] with
    | some q => s.answer (.call name (args ++ [e])) q
    | none =>
      match p.eat? [','] with
      | none => s.refuse .openArguments p
      | some q => s.push (.argument name (args ++ [e])) q
  | .digits => s.answer e s.place

/-- What a call does with an error. A signed formula goes back up all the same. -/
def refused (e : EvalError) : Frame → State
  | .checked => { s with control := .refuse e, depth := s.depth - 1 }
  | _ => { s with control := .refuse e }

/-- The answer to the first call of all. Nothing but white space may follow it. -/
def finish (e : Expr) : State :=
  let p := s.place.skipSpace
  let x := if p.rest.isEmpty then .ok e else .error (.malformed p.offset .trailingText)
  { s with control := .done x, place := p }

end State

/-- One step of the machine. -/
def step (s : State) : State :=
  match s.control, s.stack with
  | .call t, _ => s.called t
  | .loop r links lhs, _ => s.looped r links lhs
  | .answer e, [] => s.finish e
  | .answer e, f :: stack => { s with stack }.answered e f
  | .refuse e, [] => { s with control := .done (.error e) }
  | .refuse e, f :: stack => { s with stack }.refused e f
  | .done _, _ => s

/-- The machine before a text. -/
def start (text : String) : State := ⟨.call (.row loosest), [], ⟨utf8 text, 0⟩, 0⟩

/-- The machine after so many steps on a text. -/
def run (text : String) (n : Nat) : State := step^[n] (start text)

end Descent

end VoxelEdit
