import BracketTurtle.Word.Shelf

/-!
# Words by reference

A shelf shows what stands under each name. On a desk words are objects: a name stands for a word, a
word holds a queue, and commands are added and taken in that queue. A word is copied by giving a new
word a queue of its own. What an action has done before it fails stays done; a word that is made
only in part has no name.
-/

namespace BracketTurtle

structure Desk where
  queues : List Word
  /-- The queue that each word holds. -/
  words : List Nat
  /-- The word that each name stands for. -/
  names : Registry Nat

namespace Desk

open BracketTurtle.Shelf

def empty : Desk := ⟨[], [], []⟩

/-- The commands in the queue of a word. -/
def content (d : Desk) (i : Nat) : Word := (d.words[i]?.bind (d.queues[·]?)).getD []

/-- The words under their names. -/
def shelf (d : Desk) : Shelf := d.names.map fun m => (m.1, d.content m.2)

/-- One more word, which is empty. -/
def withWord (d : Desk) : Desk :=
  { d with queues := d.queues ++ [[]], words := d.words ++ [d.queues.length] }

/-- Other commands in the queue of a word. -/
def setContent (d : Desk) (i : Nat) (w : Word) : Desk :=
  match d.words[i]? with
  | some q => { d with queues := d.queues.set q w }
  | none => d

/-- A new queue for a word, in place of the one it holds. -/
def setQueue (d : Desk) (i : Nat) (w : Word) : Desk :=
  { d with queues := d.queues ++ [w], words := d.words.set i d.queues.length }

def setName (d : Desk) (name : String) (i : Nat) : Desk :=
  { d with names := d.names.put name i }

/-- A step on a desk. When it fails, the desk is as the step left it. -/
abbrev Step := EStateM ShelfError Desk

def reference (name : String) : Step Nat := do
  match (← get).names.get? name with
  | some i => return i
  | none => throw (.unknownName name)

def make : Step Nat := do
  let d ← get
  set d.withWord
  return d.words.length

def extend (i : Nat) (w : Word) : Step Unit := modify fun d => d.setContent i (d.content i ++ w)

/-- The offers one after the other, up to the first that is no command. -/
def enqueueAll (i : Nat) : List Offer → Step Unit
  | [] => return
  | o :: os => do
    let c ← MonadExcept.ofExcept o.command
    extend i [c]
    enqueueAll i os

def dequeue? (i : Nat) : Step (Option Command) := do
  match (← get).content i with
  | [] => return none
  | c :: w =>
    modify fun d => d.setContent i w
    return some c

/-- What only reads words sees them under their names. -/
def look (name : String) (reading : Action) : Step Answer := do
  let seen ← MonadExcept.ofExcept ((← get).shelf.perform name reading)
  return seen.1

def perform (name : String) : Action → Step Answer
  | .create offers => do
    let i ← make
    enqueueAll i offers
    modify fun d => d.setName name i
    return .done
  | .parse text => do
    let w ← MonadExcept.ofExcept ((Word.ofJson text).mapError .word)
    let i ← make
    extend i w
    modify fun d => d.setName name i
    return .done
  | .enqueue offer => do
    let c ← MonadExcept.ofExcept offer.command
    let i ← reference name
    extend i [c]
    return .done
  | .dequeue => do
    match ← dequeue? (← reference name) with
    | none => throw .emptyWord
    | some c => return .command (some c)
  | .dequeueIfAny => do
    return .command (← dequeue? (← reference name))
  | .copyTo other => do
    let i ← reference name
    let j ← make
    modify fun d => d.setQueue j (d.content i)
    modify fun d => d.setName other j
    return .done
  | .append operand => do
    let i ← reference name
    match operand with
    | .named other =>
      let j ← reference other
      let taken := (← get).content j
      extend i taken
      return .done
    | .other value => throw (.notAWord value.kind)
  | reading => look name reading

end Desk
end BracketTurtle
