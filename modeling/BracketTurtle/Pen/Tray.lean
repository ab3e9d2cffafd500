import BracketTurtle.Pen
import BracketTurtle.Table
import BracketTurtle.Text.Quoted

/-!
# A tray of named pens

The pens of a tray share one stack. `push` saves a pen, `pop` takes the latest saved pen off the
stack and gives it a name, and `peek` does so and leaves it there.
-/

namespace BracketTurtle

structure Tray where
  pens : Registry Pen
  saved : List Pen

inductive TrayError where
  | pen (e : PenError)
  | nothingToPop
  | nothingToPeek
  | unknownName (name : String)

def TrayError.message : TrayError → String
  | .pen e => e.message
  | .nothingToPop => "pop() from an empty pen stack"
  | .nothingToPeek => "peek() on an empty pen stack"
  | .unknownName name => Text.quoted name

namespace Tray

def empty : Tray := ⟨[], []⟩

inductive Action where
  | create (p : Pen)
  | move (distance : Float)
  | rotate (degrees : Float)
  | position
  | pixel
  | copyTo (name : String)
  | equals (other : String)
  | shown
  | push
  | pop
  | peek
  | isEmpty
  | depth

inductive Answer where
  | done
  | position (x y : Float)
  | pixel (x y : Int)
  | flag (b : Bool)
  | text (s : String)
  | count (n : Nat)

def pen (t : Tray) (name : String) : Except TrayError Pen :=
  match t.pens.get? name with
  | some p => .ok p
  | none => .error (.unknownName name)

def store (t : Tray) (name : String) (p : Pen) : Tray := { t with pens := t.pens.put name p }

def perform (A : Arithmetic) (t : Tray) (name : String) (action : Action) :
    Except TrayError (Answer × Tray) := do
  match action with
  | .create p => return (.done, t.store name p)
  | .move distance =>
    let p ← (((← t.pen name).move A distance).mapError .pen)
    return (.done, t.store name p)
  | .rotate degrees => return (.done, t.store name ((← t.pen name).rotate A degrees))
  | .position =>
    let p ← t.pen name
    return (.position p.x p.y, t)
  | .pixel =>
    let (x, y) ← (((← t.pen name).pixel A).mapError .pen)
    return (.pixel x y, t)
  | .copyTo other => return (.done, t.store other (← t.pen name))
  | .equals other => return (.flag ((← t.pen name).same (← t.pen other)), t)
  | .shown => return (.text (← t.pen name).shown, t)
  | .push => return (.done, { t with saved := (← t.pen name) :: t.saved })
  | .pop =>
    match t.saved with
    | [] => throw .nothingToPop
    | p :: rest => return (.done, { pens := t.pens.put name p, saved := rest })
  | .peek =>
    match t.saved with
    | [] => throw .nothingToPeek
    | p :: _ => return (.done, t.store name p)
  | .isEmpty => return (.flag t.saved.isEmpty, t)
  | .depth => return (.count t.saved.length, t)

end Tray
end BracketTurtle
