import BracketTurtle.Drawing.Surface
import BracketTurtle.Table
import BracketTurtle.Turtle

/-!
# Sketches

A studio holds words, pens and surfaces under names, and one sketch. The sketch keeps the word it
was given itself, not a copy: commands added to that word later are painted, and a new word under
the same name is not. Of a pen it keeps the value. Words are therefore held in a store and named
by references to it; the sketch starts with an empty word of its own.
-/

namespace BracketTurtle

structure Sketch where
  /-- The reference of the word in the store. -/
  word : Nat
  pen : Pen
  course : Course

structure Studio where
  store : List Word
  words : Registry Nat
  pens : Registry Pen
  surfaces : Registry Surface
  sketch : Sketch

inductive StudioError where
  | word (e : WordError)
  | emptyWord
  | pen (e : PenError)
  | unknownName (name : String)

def StudioError.message : StudioError → String
  | .word e => e.message
  | .emptyWord => "dequeue() from an empty command sequence"
  | .pen e => e.message
  | .unknownName name => Text.quoted name

inductive SurfaceKind where
  | recorder
  | plotter
deriving DecidableEq, Repr

def SurfaceKind.blank : SurfaceKind → Surface
  | .recorder => .recorder []
  | .plotter => .plotter []

/-- What one painting did. -/
structure Painting where
  run : Run Surface
  notices : List Notice

namespace Studio

def empty : Studio :=
  { store := [[]], words := [], pens := [], surfaces := [], sketch := ⟨0, .origin, .standard⟩ }

inductive Action where
  /-- A new word under a name; without a text it is empty. -/
  | word (name : String) (text : Option String)
  | enqueue (name symbol : String)
  | dequeue (name : String)
  | pen (name : String) (p : Pen)
  | movePen (name : String) (distance : Float)
  /-- Gives the sketch a word; what is left out stays as it is. -/
  | setWord (name : String) (step turn : Option Float) (start : Option String)
  | snap (value : Bool)
  /-- Paints on a surface, which is made on first use. -/
  | paint (surface : String) (kind : SurfaceKind)

inductive Answer where
  | done
  | command (c : Command)
  | painting (p : Painting)

def reference (s : Studio) (name : String) : Except StudioError Nat :=
  match s.words.get? name with
  | some i => .ok i
  | none => .error (.unknownName name)

def penNamed (s : Studio) (name : String) : Except StudioError Pen :=
  match s.pens.get? name with
  | some p => .ok p
  | none => .error (.unknownName name)

def wordAt (s : Studio) (i : Nat) : Word := s.store.getD i []

def setWordAt (s : Studio) (i : Nat) (w : Word) : Studio := { s with store := s.store.set i w }

/-- The word that the sketch would paint now. -/
def sketchWord (s : Studio) : Word := s.wordAt s.sketch.word

def painting (A : Arithmetic) (s : Studio) (surface : Surface) : Painting :=
  let w := s.sketchWord
  let run := s.sketch.course.runOn A Surface.draw surface w s.sketch.pen
  { run := run
    notices := ⟨.debug, "paint: " ++ w.listing⟩ :: run.notices s.sketch.course w s.sketch.pen }

def perform (A : Arithmetic) (s : Studio) : Action → Except StudioError (Answer × Studio)
  | .word name text => do
    let w ←
      match text with
      | none => pure []
      | some t => (Word.parse t).mapError .word
    return (.done, { s with store := s.store ++ [w], words := s.words.put name s.store.length })
  | .enqueue name symbol => do
    let c ← (Command.ofSymbol symbol 0).mapError .word
    let i ← s.reference name
    return (.done, s.setWordAt i (s.wordAt i ++ [c]))
  | .dequeue name => do
    let i ← s.reference name
    match s.wordAt i with
    | [] => throw .emptyWord
    | c :: w => return (.command c, s.setWordAt i w)
  | .pen name p => return (.done, { s with pens := s.pens.put name p })
  | .movePen name distance => do
    let p ← ((← s.penNamed name).move A distance).mapError .pen
    return (.done, { s with pens := s.pens.put name p })
  | .setWord name step turn start => do
    let i ← s.reference name
    let p ←
      match start with
      | none => pure s.sketch.pen
      | some n => s.penNamed n
    let course : Course :=
      { s.sketch.course with
        step := step.getD s.sketch.course.step
        turn := turn.getD s.sketch.course.turn }
    return (.done, { s with sketch := ⟨i, p, course⟩ })
  | .snap value =>
    return (.done,
      { s with sketch := { s.sketch with course := { s.sketch.course with snap := value } } })
  | .paint name kind =>
    let p := s.painting A ((s.surfaces.get? name).getD kind.blank)
    return (.painting p, { s with surfaces := s.surfaces.put name p.run.canvas })

end Studio
end BracketTurtle
