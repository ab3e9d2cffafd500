import BracketTurtle.Config
import BracketTurtle.Proofs.RoundedArithmetic

/-!
# Fields of configs

The fields of a config, each with its place in the JSON value, the kind of values it takes, its
default and what a config has of it. A field accepts a value that has one of its kind in this
place, or nothing there if the field has a default.
-/

namespace BracketTurtle

/-! ## Places in a JSON value -/

namespace Json

/-- The value under a path of keys, if there is one. -/
def at? : List String → Json → Option Json
  | [], v => some v
  | key :: keys, .object members => (Table.get? key members).bind (at? keys)
  | _ :: _, _ => none

/-- The value stands in another, or is the other. -/
inductive Occurs (w : Json) : Json → Prop
  | self : Occurs w w
  | item {items : List Json} {v : Json} : v ∈ items → Occurs w v → Occurs w (.array items)
  | member {members : Registry Json} {key : String} {v : Json} : (key, v) ∈ members → Occurs w v →
      Occurs w (.object members)

/-- All integers of the value are within the range of the doubles. -/
def IsInRange (v : Json) : Prop := ∀ n, Occurs (.integer n) v → (Float.ofInt n).isFinite = true

/-- The value without the members it may have. -/
def shallow : Json → Json
  | .object _ => .object []
  | v => v

theorem at?_append (keys keys' : List String) (v : Json) :
    at? (keys ++ keys') v = (at? keys v).bind (at? keys') := by
  induction keys generalizing v with
  | nil => rfl
  | cons key keys ih =>
    cases v with
    | object members =>
      rw [List.cons_append, at?, at?]
      cases Table.get? key members with
      | none => rfl
      | some w => exact ih w
    | _ => rfl

theorem occurs_of_at? {keys : List String} {v w : Json} (h : at? keys v = some w) : Occurs w v := by
  induction keys generalizing v with
  | nil =>
    cases h
    exact .self
  | cons key keys ih =>
    cases v with
    | object members =>
      obtain ⟨u, hu, hw⟩ := Option.bind_eq_some_iff.mp h
      exact .member (Table.mem_of_get? hu) (ih hw)
    | _ => cases h

theorem IsInRange.integer {v : Json} (h : v.IsInRange) {keys : List String} {n : ℤ}
    (hn : at? keys v = some (.integer n)) : (Float.ofInt n).isFinite = true :=
  h n (occurs_of_at? hn)

end Json

namespace Config

/-! ## Kinds of values -/

/-- The value is a finite number and this is the double nearest to it. -/
inductive IsNumber : Json → Float → Prop
  | integer {n : ℤ} : Number.value? (Float.ofInt n) = some (Number.rounded n) →
      (Float.ofInt n).isFinite = true → IsNumber (.integer n) (Float.ofInt n)
  | number {x : Float} : x.isFinite = true → IsNumber (.number x) x

inductive IsPositive : Json → Float → Prop
  | integer {n : ℤ} {x : Float} : IsNumber (.integer n) x → 0 < n → IsPositive (.integer n) x
  | number {x : Float} : IsNumber (.number x) x → 0 < x → IsPositive (.number x) x

inductive IsPlaces : Json → ℤ → Prop
  | integer {n : ℤ} : 0 ≤ n → n ≤ 10 → IsPlaces (.integer n) n

inductive IsText : Json → String → Prop
  | string {s : String} : IsText (.string s) s

inductive IsWord : Json → Word → Prop
  | string {s : String} {w : Word} : Word.parse s = .ok w → IsWord (.string s) w

inductive IsBoolean : Json → Bool → Prop
  | bool {b : Bool} : IsBoolean (.bool b) b

inductive IsObject : Json → Unit → Prop
  | object {members : Registry Json} : IsObject (.object members) ()

inductive OrNull {α : Type} (M : Json → α → Prop) : Json → Option α → Prop
  | null : OrNull M .null none
  | given {v : Json} {a : α} : M v a → OrNull M v (some a)

/-! ## Fields -/

/-- A field: where it stands, what it takes, what it is when it is absent, and what a config has
of it. -/
structure Field where
  keys : List String
  Value : Type
  Means : Json → Value → Prop
  default? : Option Value
  held : Config → Value

namespace Field

/-- The keys joined by dots; the value itself is the root. -/
def path (f : Field) : String := if f.keys = [] then "root" else ".".intercalate f.keys

/-- What the field is in a JSON value, given or left to its default. -/
def Meaning (f : Field) (v : Json) (a : f.Value) : Prop :=
  match v.at? f.keys with
  | none => f.default? = some a
  | some w => f.Means w a

def Accepts (f : Field) (v : Json) : Prop := ∃ a, f.Meaning v a

theorem meaning_of_none {f : Field} {v : Json} (h : v.at? f.keys = none) {a : f.Value} :
    f.Meaning v a ↔ f.default? = some a := by
  rw [Meaning, h]

theorem meaning_of_some {f : Field} {v w : Json} (h : v.at? f.keys = some w) {a : f.Value} :
    f.Meaning v a ↔ f.Means w a := by
  rw [Meaning, h]

def Begins (f : Field) (text : String) : Prop :=
  ∃ mark ∈ [" ", ":"], ∃ rest, text = f.path ++ mark ++ rest

/-- A field that holds other fields, all of which may be absent. -/
def object (keys : List String) : Field := ⟨keys, Unit, IsObject, some (), fun _ => ()⟩

end Field

def startFields : List Field :=
  [⟨["turtle", "start", "x"], Float, IsNumber, some 0, (·.start.x)⟩,
    ⟨["turtle", "start", "y"], Float, IsNumber, some 0, (·.start.y)⟩,
    ⟨["turtle", "start", "heading"], Float, IsNumber, some 0, (·.start.heading)⟩]

def turtleFields : List Field :=
  [⟨["turtle", "step"], Float, IsNumber, some 8, (·.course.step)⟩,
    ⟨["turtle", "turn"], Float, IsNumber, some 25, (·.course.turn)⟩,
    ⟨["turtle", "snap"], Bool, IsBoolean, some true, (·.course.snap)⟩,
    .object ["turtle", "start"]] ++ startFields

def styleFields : List Field :=
  [⟨["svg", "style", "stroke"], String, IsText, some "#000", (·.svg.style.stroke)⟩,
    ⟨["svg", "style", "stroke_width"], Float, IsNumber, some 1, (·.svg.style.strokeWidth)⟩,
    ⟨["svg", "style", "fill"], String, IsText, some "none", (·.svg.style.fill)⟩,
    ⟨["svg", "style", "stroke_linecap"], String, IsText, some "round", (·.svg.style.lineCap)⟩,
    ⟨["svg", "style", "stroke_linejoin"], String, IsText, some "round", (·.svg.style.lineJoin)⟩]

def svgFields : List Field :=
  [⟨["svg", "margin"], Float, IsNumber, some 10, (·.svg.margin)⟩,
    ⟨["svg", "precision"], ℤ, IsPlaces, some 3, (·.svg.places)⟩,
    ⟨["svg", "flip_y"], Bool, IsBoolean, some false, (·.svg.flip)⟩,
    ⟨["svg", "width"], Option Float, OrNull IsPositive, some none, (·.svg.width)⟩,
    ⟨["svg", "height"], Option Float, OrNull IsPositive, some none, (·.svg.height)⟩,
    .object ["svg", "style"]] ++ (styleFields ++
  [⟨["svg", "background"], Option String, OrNull IsText, some none, (·.svg.background)⟩])

/-- The fields of the root. The word is the only one without a default. -/
def rootFields : List Field :=
  [⟨["name"], String, IsText, some "L-System", (·.name)⟩, ⟨["word"], Word, IsWord, none, (·.word)⟩,
    .object ["turtle"]] ++ (turtleFields ++
  ([.object ["svg"]] ++ svgFields))

/-- All fields, and the root itself. -/
def fields : List Field := .object [] :: rootFields

/-- What a config holds is what the fields mean. -/
def Holds (v : Json) (fs : List Field) (c : Config) : Prop := ∀ f ∈ fs, f.Meaning v (f.held c)

namespace Holds

variable {v : Json} {f : Field} {fs gs : List Field} {c : Config}

theorem nil : Holds v [] c := List.forall_mem_nil _

theorem cons (hf : f.Meaning v (f.held c)) (h : Holds v fs c) : Holds v (f :: fs) c :=
  List.forall_mem_cons.mpr ⟨hf, h⟩

theorem append (h : Holds v fs c) (h' : Holds v gs c) : Holds v (fs ++ gs) c :=
  List.forall_mem_append.mpr ⟨h, h'⟩

end Holds

end Config
end BracketTurtle
