import BracketTurtle.Number.Digits
import BracketTurtle.Options.Grammar
import BracketTurtle.Text.Quoted

/-!
# Reading arguments

First every argument is classified on its own: up to the first `--`, what starts with a dash is a
switch, unless it is a single dash, looks like a negative number or holds a space; long names may
be cut short as long as one switch is left. Then operands and switches are taken from left to
right, and a switch acts when it is taken. Arguments that fit nowhere are collected.
-/

namespace BracketTurtle

/-- Why arguments do not follow a grammar. -/
inductive Complaint where
  | ambiguous (argument : String) (names : List String)
  | valueIgnored (s : Switch) (value : String)
  | valueMissing (s : Switch)
  | notAnInteger (s : Switch) (value : String)
  | unknownCommand (operand : String) (given : String) (choices : List String)
  | operandsMissing (names : List String)
  | unrecognized (arguments : List String)
deriving DecidableEq, Repr

def Switch.about (s : Switch) : String := "argument " ++ "/".intercalate s.names ++ ": "

def Complaint.message : Complaint → String
  | .ambiguous argument names =>
    "ambiguous option: " ++ argument ++ " could match " ++ ", ".intercalate names
  | .valueIgnored s value => s.about ++ "ignored explicit argument " ++ Text.quoted value
  | .valueMissing s => s.about ++ "expected one argument"
  | .notAnInteger s value => s.about ++ "invalid int value: " ++ Text.quoted value
  | .unknownCommand operand given choices =>
    "argument " ++ operand ++ ": invalid choice: " ++ Text.quoted given ++ " (choose from " ++
      ", ".intercalate (choices.map Text.quoted) ++ ")"
  | .operandsMissing names => "the following arguments are required: " ++ ", ".intercalate names
  | .unrecognized arguments => "unrecognized arguments: " ++ " ".intercalate arguments

/-- A switch as it is written in an argument, with the text attached to its name: what stands
after an equals sign, or right after a short name. -/
structure Spelling where
  switch : Switch
  short : Bool
  attached : Option (List Char)
deriving DecidableEq, Repr

inductive Role where
  | operand
  /-- The first `--`. -/
  | divider
  /-- A switch, known or not. -/
  | switch (s : Option Spelling)
deriving DecidableEq, Repr

structure Token where
  text : String
  role : Role
deriving DecidableEq, Repr

def Token.isSwitch (t : Token) : Bool :=
  match t.role with
  | .switch _ => true
  | _ => false

inductive Value where
  | present
  /-- The place of the value is held by `--` alone. -/
  | missing
  | text (s : String)
  | integer (n : Int)
deriving DecidableEq, Repr

/-- What arguments say: the values of switches, latest first, what was given for every operand,
and what fits nowhere. -/
structure Reading where
  values : List (String × Value)
  operands : List (List String)
  unknown : List String
deriving DecidableEq, Repr

/-- Why reading stops early. -/
inductive Halt where
  | help
  | refused (c : Complaint)
deriving DecidableEq, Repr

/-- Digits, with at most one point in front of the last run of them. A line feed at the end does
no harm. -/
def isUnsignedNumber (cs : List Char) : Bool :=
  let cs := if cs.getLast? = some '\n' then cs.dropLast else cs
  let isDigit (c : Char) := (Text.decimalDigit? c).isSome
  match cs.dropWhile isDigit with
  | [] => !cs.isEmpty
  | c :: fraction => c = '.' && !fraction.isEmpty && fraction.all isDigit

namespace Grammar

/-- The switch of a full name. -/
def named? (g : Grammar) (name : String) : Option Switch :=
  g.switches.find? fun s => s.names.contains name

def shortNamed? (g : Grammar) (c : Char) : Option Switch :=
  g.switches.find? fun s => s.short = some c

/-- Whether an argument starts with a short name, that is with one dash and not two. -/
def isShort : List Char → Bool
  | '-' :: '-' :: _ => false
  | _ => true

/-- Text before the first equals sign, and after it if there is one. -/
def splitAssignment (cs : List Char) : List Char × Option (List Char) :=
  match cs.dropWhile (· ≠ '=') with
  | [] => (cs, none)
  | _ :: value => (cs.takeWhile (· ≠ '='), some value)

/-- The switches that an argument may stand for when no name is written out. -/
def candidates (g : Grammar) : List Char → List Spelling
  | '-' :: '-' :: cs =>
    let (name, value) := splitAssignment cs
    (g.switches.filter fun s => name.isPrefixOf s.long.toList).map
      (⟨·, false, value⟩)
  | '-' :: c :: cs => (g.shortNamed? c).toList.map (⟨·, true, some cs⟩)
  | _ => []

def roleOf (g : Grammar) (argument : String) : Except Complaint Role :=
  match argument.toList with
  | '-' :: c :: cs =>
    let text := '-' :: c :: cs
    match g.named? argument with
    | some s => .ok (.switch (some ⟨s, isShort text, none⟩))
    | none =>
      let (name, value) := splitAssignment text
      match value, g.named? (String.ofList name) with
      | some v, some s => .ok (.switch (some ⟨s, isShort text, some v⟩))
      | _, _ =>
        match g.candidates text with
        | [s] => .ok (.switch (some s))
        | [] =>
          if isUnsignedNumber (c :: cs) || text.contains ' ' then .ok .operand
          else .ok (.switch none)
        | several => .error (.ambiguous argument (several.map (·.switch.longName)))
  | _ => .ok .operand

def tokens (g : Grammar) : List String → Except Complaint (List Token)
  | [] => .ok []
  | a :: rest =>
    if a = "--" then .ok (⟨a, .divider⟩ :: rest.map (⟨·, .operand⟩))
    else
      match g.roleOf a with
      | .error e => .error e
      | .ok role =>
        match g.tokens rest with
        | .error e => .error e
        | .ok ts => .ok (⟨a, role⟩ :: ts)

end Grammar

/-- Splits off the dividers in front. -/
def takeDividers (ts : List Token) : List Token × List Token :=
  ts.span fun t => t.role = .divider

/-- What one operand takes from the front. The divider is no part of what is given for a single
operand, but counts as a command. -/
def Extent.take (e : Extent) (ts : List Token) : Option (List String × List Token) :=
  match takeDividers ts with
  | (_, []) => none
  | (front, t :: rest) =>
    if t.role = .operand then
      match e with
      | .one =>
        let (back, rest) := takeDividers rest
        some (((front ++ t :: back).map Token.text).erase "--", rest)
      | .command _ => some (ts.map Token.text, [])
    else none

/-- Takes as many operands as stand in front: what they are given, those still to come, and the
arguments left. -/
def takeOperands : List Operand → List Token → List (List String) × List Operand × List Token
  | [], ts => ([], [], ts)
  | o :: os, ts =>
    match o.extent.take ts with
    | none => ([], o :: os, ts)
    | some (given, rest) =>
      let (more, left, rest) := takeOperands os rest
      (given :: more, left, rest)

/-- Switches to act, and the arguments left. -/
structure Taken where
  acting : List (Switch × Option String)
  rest : List Token

/-- A value of its own in the next argument. -/
def valueAfter (s : Switch) : List Token → Except Complaint (String × List Token)
  | t :: rest => if t.role = .operand then .ok (t.text, rest) else .error (.valueMissing s)
  | [] => .error (.valueMissing s)

/-- A switch with nothing attached to its name. -/
def takeAlone (s : Switch) (rest : List Token) : Except Complaint Taken :=
  match s.takes with
  | .help | .nothing => .ok ⟨[(s, none)], rest⟩
  | .text _ | .integer _ =>
    match valueAfter s rest with
    | .error e => .error e
    | .ok (value, rest) => .ok ⟨[(s, some value)], rest⟩

/-- A switch under its short name and the text that follows: the value, if it asks for one, and
else more short names. A character that is no short name is refused, as is all after it. -/
def takeShort (g : Grammar) (s : Switch) (rest : List Token) : List Char → Except Complaint Taken
  | [] => takeAlone s rest
  | c :: cs =>
    match s.takes with
    | .text _ | .integer _ => .ok ⟨[(s, some (String.ofList (c :: cs)))], rest⟩
    | .help | .nothing =>
      match g.shortNamed? c with
      | none => .error (.valueIgnored s (String.ofList (c :: cs)))
      | some next =>
        match takeShort g next rest cs with
        | .error e => .error e
        | .ok taken => .ok { taken with acting := (s, none) :: taken.acting }

/-- Text attached to a switch is the value that it asks for. If it asks for none, text attached to a
short name is read as more short names, be there an equals sign in between or not, and what is
attached to a long name is refused, as is an equals sign with nothing after it. -/
def takeSwitch (g : Grammar) (sp : Spelling) (rest : List Token) : Except Complaint Taken :=
  match sp.attached with
  | none => takeAlone sp.switch rest
  | some text =>
    match sp.switch.takes with
    | .text _ | .integer _ => .ok ⟨[(sp.switch, some (String.ofList text))], rest⟩
    | .help | .nothing =>
      if sp.short && !text.isEmpty then takeShort g sp.switch rest text
      else .error (.valueIgnored sp.switch (String.ofList text))

/-- The value of a switch that comes with a text, or alone. A `--` is a divider here, too, and no
value. -/
def Switch.valueOf (s : Switch) : Option String → Except Complaint Value
  | none => .ok .present
  | some text =>
    if text = "--" then .ok .missing
    else
      match s.takes with
      | .help | .nothing | .text _ => .ok (.text text)
      | .integer _ =>
        match Text.integer? text with
        | some n => .ok (.integer n)
        | none => .error (.notAnInteger s text)

/-- Lets switches act in their order. -/
def act (values : List (String × Value)) :
    List (Switch × Option String) → Except Halt (List (String × Value))
  | [] => .ok values
  | (s, text) :: more =>
    match s.takes with
    | .help => .error .help
    | .nothing | .text _ | .integer _ =>
      match s.valueOf text with
      | .error e => .error (.refused e)
      | .ok value => act ((s.long, value) :: values) more

namespace Reading

def empty : Reading := ⟨[], [], []⟩

/-- The latest value of a switch. -/
def value? (r : Reading) (long : String) : Option Value := r.values.lookup long

def withOperands (r : Reading) (given : List (List String)) : Reading :=
  { r with operands := r.operands ++ given }

def withUnknown (r : Reading) (arguments : List String) : Reading :=
  { r with unknown := r.unknown ++ arguments }

end Reading

namespace Grammar

/-- Takes operands and switches until no argument is left. Every round takes at least one. -/
def readFrom (g : Grammar) : Nat → List Operand → Reading → List Token → Except Halt Reading
  | 0, _, r, _ => .ok r
  | fuel + 1, operands, r, ts =>
    match ts with
    | ⟨text, .switch spelling⟩ :: rest =>
      match spelling with
      | none => g.readFrom fuel operands (r.withUnknown [text]) rest
      | some sp =>
        match takeSwitch g sp rest with
        | .error e => .error (.refused e)
        | .ok taken =>
          match act r.values taken.acting with
          | .error halt => .error halt
          | .ok values =>
            g.readFrom fuel operands { r with values := values } taken.rest
    | _ =>
      let (given, left, rest) := takeOperands operands ts
      let r := r.withOperands given
      if rest.any Token.isSwitch then
        if rest.length < ts.length then g.readFrom fuel left r rest
        else
          let (skipped, rest) := rest.span (! ·.isSwitch)
          g.readFrom fuel left (r.withUnknown (skipped.map Token.text)) rest
      else if left.isEmpty then .ok (r.withUnknown (rest.map Token.text))
      else .error (.refused (.operandsMissing (left.map Operand.name)))

def read (g : Grammar) (arguments : List String) : Except Halt Reading :=
  match g.tokens arguments with
  | .error e => .error (.refused e)
  | .ok ts => g.readFrom (ts.length + 1) g.operands .empty ts

end Grammar
end BracketTurtle
