import BracketTurtle.Table
import BracketTurtle.Word

/-!
# A shelf of named words

A word on the shelf is a queue: commands enter at the end and leave at the front. Every action
names the word it is about. An action that fails leaves the shelf as it was.
-/

namespace BracketTurtle

inductive ShelfError where
  | word (e : WordError)
  | notACommand (kind : String)
  | notAWord (kind : String)
  | emptyWord
  | notHashable
  | unknownName (name : String)

def ShelfError.message : ShelfError → String
  | .word e => e.message
  | .notACommand kind => "Expected Command, got " ++ kind
  | .notAWord kind => "Expected CommandSequence, got " ++ kind
  | .emptyWord => "dequeue() from an empty command sequence"
  | .notHashable => "unhashable type: 'CommandSequence'"
  | .unknownName name => Text.quoted name

namespace Shelf

/-- What is offered as a command: the text of a symbol, or any other value. -/
inductive Offer where
  | symbol (text : String)
  | other (value : Json)

/-- What is offered as a word: one on the shelf, or any other value. -/
inductive Operand where
  | named (name : String)
  | other (value : Json)

inductive Action where
  | create (offers : List Offer)
  | parse (text : Json)
  | enqueue (offer : Offer)
  | dequeue
  | dequeueIfAny
  | copyTo (name : String)
  | append (operand : Operand)
  | isEmpty
  | length
  | listing
  | shown
  | symbols
  | commands
  | equals (operand : Operand)
  | differs (operand : Operand)
  | hash

inductive Answer where
  | done
  | command (c : Option Command)
  | flag (b : Bool)
  | count (n : Nat)
  | text (s : String)
  | commands (w : Word)

end Shelf

abbrev Shelf := Registry Word

namespace Shelf

def Offer.command : Offer → Except ShelfError Command
  | .symbol text => (Command.ofSymbol text 0).mapError .word
  | .other value => .error (.notACommand value.kind)

/-- The first offer that is no command decides. -/
def Offer.commands : List Offer → Except ShelfError Word
  | [] => .ok []
  | o :: os => do
    let c ← o.command
    let w ← commands os
    return c :: w

def word (shelf : Shelf) (name : String) : Except ShelfError Word :=
  match shelf.get? name with
  | some w => .ok w
  | none => .error (.unknownName name)

/-- Whether an operand equals a word; what is no word differs from all words. -/
def isWord (shelf : Shelf) (w : Word) : Operand → Except ShelfError Bool
  | .named name => do
    let other ← shelf.word name
    return w == other
  | .other _ => .ok false

def perform (shelf : Shelf) (name : String) (action : Action) :
    Except ShelfError (Answer × Shelf) := do
  match action with
  | .create offers =>
    let w ← Offer.commands offers
    return (.done, shelf.put name w)
  | .parse text =>
    let w ← (Word.ofJson text).mapError .word
    return (.done, shelf.put name w)
  | .enqueue offer =>
    let c ← offer.command
    let w ← shelf.word name
    return (.done, shelf.put name (w ++ [c]))
  | .dequeue =>
    match ← shelf.word name with
    | [] => throw .emptyWord
    | c :: w => return (.command (some c), shelf.put name w)
  | .dequeueIfAny =>
    match ← shelf.word name with
    | [] => return (.command none, shelf)
    | c :: w => return (.command (some c), shelf.put name w)
  | .copyTo other =>
    let w ← shelf.word name
    return (.done, shelf.put other w)
  | .append operand =>
    let w ← shelf.word name
    match operand with
    | .named other =>
      let v ← shelf.word other
      return (.done, shelf.put name (w ++ v))
    | .other value => throw (.notAWord value.kind)
  | .isEmpty => return (.flag (← shelf.word name).isEmpty, shelf)
  | .length => return (.count (← shelf.word name).length, shelf)
  | .listing => return (.text (← shelf.word name).listing, shelf)
  | .shown => return (.text (← shelf.word name).shown, shelf)
  | .symbols => return (.text (← shelf.word name).symbolsText, shelf)
  | .commands => return (.commands (← shelf.word name), shelf)
  | .equals operand => return (.flag (← shelf.isWord (← shelf.word name) operand), shelf)
  | .differs operand => return (.flag (!(← shelf.isWord (← shelf.word name) operand)), shelf)
  | .hash => throw .notHashable

end Shelf
end BracketTurtle
