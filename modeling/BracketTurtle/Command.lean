/-!
# Commands

A command is one step of a turtle and is written as one symbol. `forward` and `forward2` draw
alike; they are two commands so that a grammar can replace them differently. `ignore` has no
effect on a drawing.
-/

namespace BracketTurtle

inductive Command where
  | forward
  | forward2
  | ignore
  | right
  | left
  | push
  | pop
deriving DecidableEq, Repr, Inhabited

namespace Command

def all : List Command := [forward, forward2, ignore, right, left, push, pop]

theorem mem_all (c : Command) : c ∈ all := by cases c <;> decide

def symbol : Command → Char
  | forward => 'F'
  | forward2 => 'R'
  | ignore => 'X'
  | right => '+'
  | left => '-'
  | push => '['
  | pop => ']'

def name : Command → String
  | forward => "FORWARD"
  | forward2 => "FORWARD2"
  | ignore => "IGNORE"
  | right => "RIGHT"
  | left => "LEFT"
  | push => "PUSH"
  | pop => "POP"

def ofChar? (ch : Char) : Option Command := all.find? fun c => c.symbol = ch

@[simp] theorem ofChar?_symbol (c : Command) : ofChar? c.symbol = some c := by
  cases c <;> decide

theorem ofChar?_eq_some_iff {ch : Char} {c : Command} : ofChar? ch = some c ↔ c.symbol = ch := by
  constructor
  · intro h
    simpa using List.find?_some h
  · rintro rfl
    exact ofChar?_symbol c

theorem name_injective {c d : Command} (h : c.name = d.name) : c = d := by
  have hall : ∀ c ∈ all, ∀ d ∈ all, c.name = d.name → c = d := by decide
  exact hall c (mem_all c) d (mem_all d) h

/-- The commands that draw a segment. -/
def draws : Command → Bool
  | forward | forward2 => true
  | _ => false

end Command
end BracketTurtle
