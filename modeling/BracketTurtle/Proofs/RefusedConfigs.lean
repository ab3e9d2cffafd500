import BracketTurtle.Proofs.ConfigChecks
import BracketTurtle.Proofs.Endings

/-!
# Refused configs

What becomes of a file that is no config. Where a number belongs, an integer beyond the doubles ends
the program, while the infinity on its side is refused as not finite. So a config is compared with
its twin that has infinities in the places of such integers: the checks of the two agree up to the
first integer of that kind, and there the twin is refused.
-/

namespace BracketTurtle

/-- The value with the members of an object changed by their keys. -/
def Json.mapMembers (f : String → Json → Json) : Json → Json
  | .object members => .object (members.map fun m => (m.1, f m.1 m.2))
  | v => v

/-- The errors of the checks: they are about fields. -/
def ConfigError.IsOfField : ConfigError → Prop
  | .field _ _ | .wordMissing | .word _ _ | .placesOutOfRange | .notPositive _ => True
  | .malformed _ _ | .drawing _ | .nothingDrawn => False

namespace Config

/-! ## The twin of a config -/

/-- In the place of an integer beyond the doubles the infinity on its side. -/
def infinite : Json → Json
  | .integer n =>
    match Number.nearest? n with
    | some _ => .integer n
    | none => .number (if n < 0 then -1.0 / 0.0 else 1.0 / 0.0)
  | v => v

def startTwin : String → Json → Json
  | "x", v | "y", v | "heading", v => infinite v
  | _, v => v

def turtleTwin : String → Json → Json
  | "step", v | "turn", v => infinite v
  | "start", v => v.mapMembers startTwin
  | _, v => v

def styleTwin : String → Json → Json
  | "stroke_width", v => infinite v
  | _, v => v

def svgTwin : String → Json → Json
  | "margin", v | "width", v | "height", v => infinite v
  | "style", v => v.mapMembers styleTwin
  | _, v => v

def rootTwin : String → Json → Json
  | "turtle", v => v.mapMembers turtleTwin
  | "svg", v => v.mapMembers svgTwin
  | _, v => v

/-- The config with infinities for the numbers that are integers beyond the doubles. -/
def twin (v : Json) : Json := v.mapMembers rootTwin

theorem nullable_of_none {α : Type} {members : Registry Json} {key : String} {read : Json → Check α}
    (h : members.get? key = none) : nullable members key read = .ok none := by
  rw [nullable, h]

theorem nullable_of_null {α : Type} {members : Registry Json} {key : String} {read : Json → Check α}
    (h : members.get? key = some .null) : nullable members key read = .ok none := by
  rw [nullable, h]

theorem nullable_of_some {α : Type} {members : Registry Json} {key : String} {read : Json → Check α}
    {v : Json} (h : members.get? key = some v) (hv : v ≠ .null) :
    nullable members key read = (read v).map some := by
  rw [nullable, h]
  cases v with
  | null => exact absurd rfl hv
  | _ => rfl

/-! ## Checks that agree -/

/-- The check of a value and the check of its twin come to related values or to the same error of a
field, or the value has an integer beyond the doubles where the twin has something infinite. -/
inductive Agrees {α β : Type} (R : α → β → Prop) : Check α → Check β → Prop
  | ok {a : α} {b : β} : R a b → Agrees R (.ok a) (.ok b)
  | invalid {e : ConfigError} : e.IsOfField → Agrees R (.error (.invalid e)) (.error (.invalid e))
  | tooLarge (path : String) : Agrees R (.error .integerTooLarge) (.error (wrong path .finite))

namespace Agrees

variable {α β γ δ : Type} {R : α → β → Prop} {S : γ → δ → Prop}

theorem bind {x : Check α} {y : Check β} {f : α → Check γ} {g : β → Check δ} (h : Agrees R x y)
    (hf : ∀ a b, R a b → Agrees S (f a) (g b)) : Agrees S (x >>= f) (y >>= g) := by
  cases h with
  | ok hab => exact hf _ _ hab
  | invalid he => exact .invalid he
  | tooLarge path => exact .tooLarge path

theorem map {x : Check α} {y : Check β} {f : α → γ} {g : β → δ} (h : Agrees R x y)
    (hf : ∀ a b, R a b → S (f a) (g b)) : Agrees S (x.map f) (y.map g) := by
  cases h with
  | ok hab => exact .ok (hf _ _ hab)
  | invalid he => exact .invalid he
  | tooLarge path => exact .tooLarge path

theorem orElse {members : Registry Json} {f : String → Json → Json} {key : String} {a : α} {b : β}
    {read : Json → Check α} {read' : Json → Check β} (hdefault : R a b)
    (hread : ∀ v, Agrees R (read v) (read' (f key v))) :
    Agrees R (Config.orElse members key a read)
      (Config.orElse (members.map fun m => (m.1, f m.1 m.2)) key b read') := by
  unfold Config.orElse
  rw [Table.get?_map]
  cases members.get? key with
  | none => exact .ok hdefault
  | some v => exact hread v

theorem nullable {members : Registry Json} {f : String → Json → Json} {key : String}
    {read : Json → Check α} (hnull : ∀ v, f key v = .null ↔ v = .null)
    (hread : ∀ v, Agrees Eq (read v) (read (f key v))) :
    Agrees Eq (Config.nullable members key read)
      (Config.nullable (members.map fun m => (m.1, f m.1 m.2)) key read) := by
  have htwin := Table.get?_map f key members
  cases h : members.get? key with
  | none =>
    rw [h, Option.map_none] at htwin
    rw [nullable_of_none h, nullable_of_none htwin]
    exact .ok rfl
  | some v =>
    rw [h, Option.map_some] at htwin
    by_cases hv : v = .null
    · rw [hv] at h
      rw [hv, (hnull .null).mpr rfl] at htwin
      rw [nullable_of_null h, nullable_of_null htwin]
      exact .ok rfl
    · rw [nullable_of_some h hv, nullable_of_some htwin (mt (hnull v).mp hv)]
      exact (hread v).map fun _ _ h => congrArg some h

end Agrees

/-! ## Fields -/

theorem number_agrees (path : String) (v : Json) :
    Agrees Eq (number path v) (number path (infinite v)) := by
  cases v with
  | integer n =>
    cases h : Number.nearest? n with
    | some x =>
      simp only [infinite, number, h]
      exact .ok rfl
    | none =>
      have hinf : (if n < 0 then (-1.0 / 0.0 : Float) else 1.0 / 0.0).isFinite = false := by
        split
        · decide +kernel
        · decide +kernel
      simp only [infinite, number, h, hinf, Bool.false_eq_true, if_false]
      exact .tooLarge path
  | number x =>
    cases h : x.isFinite with
    | true =>
      simp only [infinite, number, h, if_true]
      exact .ok rfl
    | false =>
      simp only [infinite, number, h, Bool.false_eq_true, if_false]
      exact .invalid trivial
  | _ => exact .invalid trivial

theorem positive_agrees (path : String) (v : Json) :
    Agrees Eq (positive path v) (positive path (infinite v)) := by
  apply (number_agrees path v).bind
  rintro x _ rfl
  split_ifs
  · exact .ok rfl
  · exact .invalid trivial

theorem integer_agrees (path : String) (v : Json) :
    Agrees Eq (integer path v) (integer path v) := by
  cases v with
  | integer n => exact .ok rfl
  | _ => exact .invalid trivial

theorem places_agrees (path : String) (v : Json) : Agrees Eq (places path v) (places path v) := by
  apply (integer_agrees path v).bind
  rintro n _ rfl
  split_ifs
  · exact .ok rfl
  · exact .invalid trivial

theorem text_agrees (path : String) (v : Json) : Agrees Eq (text path v) (text path v) := by
  cases v with
  | string s => exact .ok rfl
  | _ => exact .invalid trivial

theorem boolean_agrees (path : String) (v : Json) :
    Agrees Eq (boolean path v) (boolean path v) := by
  cases v with
  | bool b => exact .ok rfl
  | _ => exact .invalid trivial

theorem readWord_agrees (path s : String) : Agrees Eq (readWord path s) (readWord path s) := by
  unfold readWord
  cases Word.parse s with
  | error e => exact .invalid trivial
  | ok w => exact .ok rfl

def Twins (f : String → Json → Json) (members members' : Registry Json) : Prop :=
  members' = members.map fun m => (m.1, f m.1 m.2)

theorem object_agrees (path : String) (f : String → Json → Json) (v : Json) :
    Agrees (Twins f) (object path v) (object path (v.mapMembers f)) := by
  cases v with
  | object members => exact .ok rfl
  | _ => exact .invalid trivial

/-! ## Objects -/

theorem pen_agrees {members members' : Registry Json} (h : Twins startTwin members members') :
    Agrees Eq (pen members) (pen members') := by
  subst h
  apply (Agrees.orElse rfl (number_agrees _)).bind
  rintro x _ rfl
  apply (Agrees.orElse rfl (number_agrees _)).bind
  rintro y _ rfl
  apply (Agrees.orElse rfl (number_agrees _)).bind
  rintro heading _ rfl
  exact .ok rfl

theorem twins_nil (f : String → Json → Json) : Twins f [] [] := rfl

theorem courseAndStart_agrees {members members' : Registry Json}
    (h : Twins turtleTwin members members') :
    Agrees Eq (courseAndStart members) (courseAndStart members') := by
  subst h
  apply (Agrees.orElse rfl (number_agrees _)).bind
  rintro step _ rfl
  apply (Agrees.orElse rfl (number_agrees _)).bind
  rintro turn _ rfl
  apply (Agrees.orElse rfl (boolean_agrees _)).bind
  rintro snap _ rfl
  apply (Agrees.orElse (twins_nil _) (object_agrees _ startTwin)).bind
  rintro start start' hstart
  apply (pen_agrees hstart).bind
  rintro p _ rfl
  exact .ok rfl

theorem style_agrees {members members' : Registry Json} (h : Twins styleTwin members members') :
    Agrees Eq (style members) (style members') := by
  subst h
  apply (Agrees.orElse rfl (text_agrees _)).bind
  rintro stroke _ rfl
  apply (Agrees.orElse rfl (number_agrees _)).bind
  rintro strokeWidth _ rfl
  apply (Agrees.orElse rfl (text_agrees _)).bind
  rintro fill _ rfl
  apply (Agrees.orElse rfl (text_agrees _)).bind
  rintro lineCap _ rfl
  apply (Agrees.orElse rfl (text_agrees _)).bind
  rintro lineJoin _ rfl
  exact .ok rfl

theorem infinite_eq_null {v : Json} : infinite v = .null ↔ v = .null := by
  cases v with
  | integer n =>
    simp only [infinite]
    split <;> simp
  | _ => simp [infinite]

theorem settings_agrees {members members' : Registry Json} (h : Twins svgTwin members members') :
    Agrees Eq (settings members) (settings members') := by
  subst h
  apply (Agrees.orElse rfl (number_agrees _)).bind
  rintro margin _ rfl
  apply (Agrees.orElse rfl (places_agrees _)).bind
  rintro places _ rfl
  apply (Agrees.orElse rfl (boolean_agrees _)).bind
  rintro flip _ rfl
  apply (Agrees.nullable (fun _ => infinite_eq_null) (positive_agrees _)).bind
  rintro width _ rfl
  apply (Agrees.nullable (fun _ => infinite_eq_null) (positive_agrees _)).bind
  rintro height _ rfl
  apply (Agrees.orElse (twins_nil _) (object_agrees _ styleTwin)).bind
  rintro styleMembers styleMembers' hstyle
  apply (style_agrees hstyle).bind
  rintro style _ rfl
  apply (Agrees.nullable (fun _ => Iff.rfl) (text_agrees _)).bind
  rintro background _ rfl
  exact .ok rfl

theorem ofMembers_agrees {members members' : Registry Json} (h : Twins rootTwin members members') :
    Agrees Eq (ofMembers members) (ofMembers members') := by
  subst h
  apply (Agrees.orElse rfl (text_agrees _)).bind
  rintro name _ rfl
  rw [Table.get?_map]
  cases members.get? "word" with
  | none => exact .invalid trivial
  | some v =>
    apply (text_agrees "word" v).bind
    rintro word _ rfl
    apply (readWord_agrees "word" word).bind
    rintro w _ rfl
    apply (Agrees.orElse (twins_nil _) (object_agrees _ turtleTwin)).bind
    rintro turtle turtle' hturtle
    apply (courseAndStart_agrees hturtle).bind
    rintro ⟨course, start⟩ _ rfl
    apply (Agrees.orElse (twins_nil _) (object_agrees _ svgTwin)).bind
    rintro svg svg' hsvg
    apply (settings_agrees hsvg).bind
    rintro settings _ rfl
    exact .ok rfl

theorem ofJson_agrees (v : Json) : Agrees Eq (ofJson v) (ofJson (twin v)) := by
  apply (object_agrees "root" rootTwin v).bind
  rintro members members' h
  exact ofMembers_agrees h

/-- The checks of a config come to a config, to the error of a field, or they fail exactly where
those of the twin report something infinite. -/
theorem ofJson_cases (v : Json) :
    (ofJson v = ofJson (twin v) ∧
      ((∃ c, ofJson v = .ok c) ∨ ∃ e, ofJson v = .error (.invalid e) ∧ e.IsOfField)) ∨
    (ofJson v = .error .integerTooLarge ∧
      ∃ path, ofJson (twin v) = .error (wrong path .finite)) := by
  generalize hx : ofJson v = x
  generalize hy : ofJson (twin v) = y
  have h := ofJson_agrees v
  rw [hx, hy] at h
  cases h with
  | ok hab => exact .inl ⟨congrArg Except.ok hab, .inl ⟨_, rfl⟩⟩
  | invalid he => exact .inl ⟨rfl, .inr ⟨_, rfl, he⟩⟩
  | tooLarge path => exact .inr ⟨rfl, path, rfl⟩

end Config

/-! ## The end of the program -/

def Request.config? : Request → Option String
  | .render config _ _ | .validate config => some config
  | .show _ | .random _ _ => none

namespace Program

theorem run_perform_of_error {A : Arithmetic} {fresh : ℤ} {i : Invocation} {path : String}
    {here : Location} {t : FileTree} {bytes : List UInt8} {f : Failure}
    (hi : i.request.config? = some path) (hread : t.read here path = .ok bytes)
    (hf : configOf path bytes = .error f) :
    (perform A fresh i).run here t = (.failure i.verbose [] [] f, t) := by
  obtain ⟨verbose, request⟩ := i
  cases request with
  | render config output word =>
    obtain rfl := Option.some.inj hi
    simp only [perform, render, Job.run, hread, hf]
  | validate config =>
    obtain rfl := Option.some.inj hi
    simp only [perform, validate, Job.run, hread, hf]
  | _ => cases hi

theorem configOf_cases (path : String) (bytes : List UInt8) :
    (∃ e, Utf8.decode bytes = .error e ∧ configOf path bytes = .error (.notText e)) ∨
      ∃ text, Utf8.decode bytes = .ok text ∧
        ((∃ e, Json.read (Text.unifyLineEnds text) = .error e ∧
            configOf path bytes = .error (.config (.malformed path e))) ∨
          ∃ v, Json.read (Text.unifyLineEnds text) = .ok v ∧
            configOf path bytes = (Config.ofJson v).mapError .ofConfigFault) := by
  cases htext : Utf8.decode bytes with
  | error e => exact .inl ⟨e, rfl, by simp [configOf, configWith, valueWith, htext]⟩
  | ok text =>
    right
    refine ⟨text, rfl, ?_⟩
    cases hv : Json.read (Text.unifyLineEnds text) with
    | error e =>
      rw [Json.read] at hv
      exact .inl ⟨e, rfl, by simp [configOf, configWith, valueWith, htext, hv]⟩
    | ok v =>
      rw [Json.read] at hv
      exact .inr ⟨v, rfl, by simp [configOf, configWith, valueWith, htext, hv]⟩

/-- The file is read as a config or refused with a config error. -/
def Answered (path : String) (bytes : List UInt8) : Prop :=
  (∃ c, configOf path bytes = .ok c) ∨ ∃ e, configOf path bytes = .error (.config e)

theorem answered_iff (path : String) (bytes : List UInt8) :
    Answered path bytes ↔
      ∃ text, Utf8.decode bytes = .ok text ∧
        ∀ v, Json.read (Text.unifyLineEnds text) = .ok v →
          Config.ofJson v = Config.ofJson (Config.twin v) := by
  unfold Answered
  rcases configOf_cases path bytes with ⟨e, htext, hconfig⟩ | ⟨text, htext, hrest⟩
  · simp [hconfig, htext]
  · rcases hrest with ⟨e, hv, hconfig⟩ | ⟨v, hv, hconfig⟩
    · simp [hconfig, htext, hv]
    · rcases Config.ofJson_cases v with ⟨hsame, ⟨c, hc⟩ | ⟨e, he, _⟩⟩ | ⟨hlarge, p, htwin⟩
      · simp [hconfig, htext, hv, ← hsame, hc, Except.mapError]
      · simp [hconfig, htext, hv, ← hsame, he, Except.mapError, Failure.ofConfigFault]
      · simp [hconfig, htext, hv, hlarge, htwin, Except.mapError, Failure.ofConfigFault,
          Config.wrong]

theorem subject?_of_configOf {path : String} {bytes : List UInt8} {e : ConfigError}
    (h : configOf path bytes = .error (.config e)) :
    (Failure.config e).subject? = some .config := by
  rcases configOf_cases path bytes
    with ⟨_, _, hconfig⟩ | ⟨text, _, ⟨e', _, hconfig⟩ | ⟨v, _, hconfig⟩⟩
  · rw [hconfig] at h
    cases h
  · rw [hconfig] at h
    cases h
    rfl
  · rw [hconfig] at h
    rcases Config.ofJson_cases v with ⟨_, ⟨c, hc⟩ | ⟨e', he, hfield⟩⟩ | ⟨hlarge, _⟩
    · rw [hc] at h
      cases h
    · rw [he] at h
      cases h
      cases e with
      | drawing e => exact hfield.elim
      | _ => rfl
    · rw [hlarge] at h
      cases h

theorem subject?_of_not_config {path : String} {bytes : List UInt8} {f : Failure}
    (h : configOf path bytes = .error f) (hf : ∀ e, f ≠ .config e) : f.subject? = none := by
  rcases configOf_cases path bytes
    with ⟨_, _, hconfig⟩ | ⟨text, _, ⟨e', _, hconfig⟩ | ⟨v, _, hconfig⟩⟩
  · rw [hconfig] at h
    cases h
    rfl
  · rw [hconfig] at h
    cases h
    exact absurd rfl (hf _)
  · rw [hconfig] at h
    rcases Config.ofJson_cases v with ⟨_, ⟨c, hc⟩ | ⟨e', he, _⟩⟩ | ⟨hlarge, _⟩
    · rw [hc] at h
      cases h
    · rw [he] at h
      cases h
      exact absurd rfl (hf _)
    · rw [hlarge] at h
      cases h
      rfl

/-- A config file is answered exactly if its bytes are text and its value, if it has one, passes and
fails the checks as its twin does, where infinities stand for integers beyond the doubles. A config
error ends the program with its message and code 2, and any other failure ends it as it is; neither
touches a file. -/
theorem bad_config_refused {A : Arithmetic} {fresh : ℤ} {arguments : List String} {i : Invocation}
    {path : String} {here : Location} {t : FileTree} {bytes : List UInt8}
    (harguments : CommandLine.read arguments = .accepted i)
    (hi : i.request.config? = some path) (hread : t.read here path = .ok bytes) :
    (Answered path bytes ↔
      ∃ text, Utf8.decode bytes = .ok text ∧
        ∀ v, Json.read (Text.unifyLineEnds text) = .ok v →
          Config.ofJson v = Config.ofJson (Config.twin v)) ∧
    (∀ e, configOf path bytes = .error (.config e) →
      (job A fresh arguments).run here t =
        (⟨[], [.line ("Config error: " ++ e.message)], .exit 2⟩, t)) ∧
    ∀ f, configOf path bytes = .error f → (∀ e, f ≠ .config e) →
      (job A fresh arguments).run here t = (⟨[], [], .failed f⟩, t) := by
  have hnoted : Report.noted i.verbose [] = [] := by
    cases i.verbose <;> rfl
  have hjob : job A fresh arguments = perform A fresh i := by rw [job, harguments]
  rw [hjob]
  refine ⟨answered_iff path bytes, ?_, ?_⟩
  · intro e he
    rw [run_perform_of_error hi hread he, Report.failure, subject?_of_configOf he, hnoted]
    rfl
  · intro f hf hconfig
    rw [run_perform_of_error hi hread hf, Report.failure, subject?_of_not_config hf hconfig, hnoted]

/-- The reading of a config came to the word that is not there. -/
def missesWord : Except Failure Config → Bool
  | .error (.config .wordMissing) => true
  | _ => false

theorem eq_wordMissing {x : Except Failure Config} (h : missesWord x = true) :
    x = .error (.config .wordMissing) := by
  unfold missesWord at h
  split at h
  · rfl
  · cases h

theorem bad_config_refused_empty :
    let text := "\x7b\x7d"
    CommandLine.read ["validate", "c"] = .accepted ⟨false, .validate "c"⟩ ∧
      configOf "c" (Utf8.encode text.toList) = .error (.config .wordMissing) ∧
      (job .machine 0 ["validate", "c"]).run [] (onlyConfig text) =
        (⟨[], [.line "Config error: word is required"], .exit 2⟩, onlyConfig text) := by
  intro text
  have harguments : CommandLine.read ["validate", "c"] = .accepted ⟨false, .validate "c"⟩ := by
    decide +kernel
  have hconfig : configOf "c" (Utf8.encode text.toList) = .error (.config .wordMissing) :=
    eq_wordMissing (by decide +kernel)
  exact ⟨harguments, hconfig,
    (bad_config_refused harguments rfl (read_onlyConfig text)).2.1 .wordMissing hconfig⟩

/-- What the reading of a config came to is about: a config that is read is about itself. -/
def blamed : Except Failure Config → Option Failure.Subject
  | .ok _ => some .config
  | .error f => f.subject?

theorem blamed_of_answered {path : String} {bytes : List UInt8} (h : Answered path bytes) :
    blamed (configOf path bytes) = some .config := by
  rcases h with ⟨c, hc⟩ | ⟨e, he⟩
  · rw [hc, blamed]
  · rw [he, blamed, subject?_of_configOf he]

/-- A byte that begins no character, and a step beyond the doubles. -/
theorem not_answered :
    ¬Answered "c" [0xff] ∧
      ¬Answered "c" (Utf8.encode ("\x7b\"word\":\"F\",\"turtle\":\x7b\"step\":1".toList ++
        List.replicate 309 '0' ++ "\x7d\x7d".toList)) := by
  constructor
  · intro h
    exact absurd (blamed_of_answered h) (by decide +kernel)
  · intro h
    exact absurd (blamed_of_answered h) (by decide +kernel)

end Program
end BracketTurtle
