import BracketTurtle.Text.Lines

/-!
# Markup

An element has attributes and is empty, holds text, or holds other elements. Elements stand on
lines of their own, indented by two spaces a level. The text of an element is escaped; the
values of attributes are written as they are.
-/

namespace BracketTurtle

inductive Element where
  | empty (name : String) (attributes : List (String × String))
  | text (name : String) (attributes : List (String × String)) (body : String)
  | group (name : String) (attributes : List (String × String)) (children : List Element)

namespace Element

def escapeChar : Char → List Char
  | '&' => "&amp;".toList
  | '<' => "&lt;".toList
  | '>' => "&gt;".toList
  | c => [c]

def escape (s : String) : String := String.ofList (s.toList.flatMap escapeChar)

def attributeText (a : String × String) : String := " " ++ a.1 ++ "=\"" ++ a.2 ++ "\""

def opening (name : String) (attributes : List (String × String)) : String :=
  "<" ++ name ++ String.join (attributes.map attributeText)

def closing (name : String) : String := "</" ++ name ++ ">"

def indent (depth : Nat) : String := String.ofList (List.replicate (2 * depth) ' ')

mutual

def lines (depth : Nat) : Element → List String
  | .empty name attributes => [indent depth ++ opening name attributes ++ " />"]
  | .text name attributes body =>
    [indent depth ++ opening name attributes ++ ">" ++ escape body ++ closing name]
  | .group name attributes children =>
    (indent depth ++ opening name attributes ++ ">") :: childLines (depth + 1) children ++
      [indent depth ++ closing name]

def childLines (depth : Nat) : List Element → List String
  | [] => []
  | e :: es => lines depth e ++ childLines depth es

end

/-- A file that holds one element. -/
def document (e : Element) : String :=
  Text.ofLines ("<?xml version=\"1.0\" encoding=\"UTF-8\"?>" :: lines 0 e)

end Element
end BracketTurtle
