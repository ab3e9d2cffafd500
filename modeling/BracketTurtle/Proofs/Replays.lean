import BracketTurtle.Proofs.Outcomes
import BracketTurtle.Proofs.Walks
import BracketTurtle.Sketch

/-!
# Replays

What a sketch paints is told by the actions that were carried out before, without a store: the word
last given to it, with the commands that were added and taken under its name since, up to where the
name went to another word; the value of the pen last given, at that time; and the step, the turn and
the snapping last given. Painting draws what a run of these draws, and leaves all but the surface as
it was. Which actions are carried out is told in the same way, by those before.
-/

namespace BracketTurtle

namespace Studio

variable {A : Arithmetic}

/-! ## Histories -/

namespace Action

def written (text : Option String) : Word :=
  match text with
  | none => []
  | some t => (Word.parse t).toOption.getD []

/-- The action gives the name to a new word. -/
def makes (name : String) : Action → Bool
  | .word n _ => n = name
  | _ => false

/-- The action gives the name to a pen of its own. -/
def makesPen (name : String) : Action → Bool
  | .pen n _ => n = name
  | _ => false

/-- What the action adds to a word under a name, or takes from it. -/
def edit (name : String) (w : Word) : Action → Word
  | .enqueue n symbol => if n = name then w ++ (Command.ofSymbol symbol 0).toOption.toList else w
  | .dequeue n => if n = name then w.tail else w
  | _ => w

/-- The pen under a name after the action. -/
def moved (A : Arithmetic) (name : String) (p : Pen) : Action → Pen
  | .pen n q => if n = name then q else p
  | .movePen n distance => if n = name then ((p.move A distance).toOption.getD p) else p
  | _ => p

/-! What an action gives to the sketch, if anything. -/

def word? : Action → Option String
  | .setWord name _ _ _ => some name
  | _ => none

def start? : Action → Option String
  | .setWord _ _ _ start => start
  | _ => none

def step? : Action → Option Float
  | .setWord _ step _ _ => step
  | _ => none

def turn? : Action → Option Float
  | .setWord _ _ turn _ => turn
  | _ => none

def snap? : Action → Option Bool
  | .snap value => some value
  | _ => none

end Action

structure History where
  studio : Studio
  done : List Action

namespace History

/-- An action that fails leaves the studio as it was. -/
def next (A : Arithmetic) (h : History) (a : Action) : History :=
  match h.studio.perform A a with
  | .ok (_, s) => ⟨s, h.done ++ [a]⟩
  | .error _ => h

def after (A : Arithmetic) (actions : List Action) : History := actions.foldl (next A) ⟨.empty, []⟩

end History

/-- The word under a name: what the latest `word` made, with what was added and taken since. -/
def wordUnder (name : String) (done : List Action) : Word :=
  done.foldl (fun w a =>
    match a with
    | .word n text => if n = name then Action.written text else w
    | a => a.edit name w) []

/-- What becomes of the word under a name, up to where the name is given to another word. -/
def keptUnder (name : String) (w : Word) : List Action → Word
  | [] => w
  | a :: done => if a.makes name then w else keptUnder name (a.edit name w) done

def penUnder (A : Arithmetic) (name : String) (done : List Action) : Pen :=
  done.foldl (Action.moved A name) .origin

/-- The last action that gives something: the actions before it, what it gives, and the actions
after it. -/
def lastGiven? {α : Type} (given? : Action → Option α) :
    List Action → Option (List Action × α × List Action)
  | [] => none
  | a :: done =>
    match lastGiven? given? done with
    | some (before, x, after) => some (a :: before, x, after)
    | none => (given? a).map fun x => ([], x, done)

/-- The word last given to the sketch, as it has become. -/
def givenWord (done : List Action) : Word :=
  match lastGiven? Action.word? done with
  | none => []
  | some (before, name, after) => keptUnder name (wordUnder name before) after

/-- The pen last given to the sketch, as it was then. -/
def givenPen (A : Arithmetic) (done : List Action) : Pen :=
  match lastGiven? Action.start? done with
  | none => .origin
  | some (before, name, _) => penUnder A name before

/-- What was last given, or a default. -/
def givenOr {α : Type} (default : α) (given? : Action → Option α) (done : List Action) : α :=
  match lastGiven? given? done with
  | none => default
  | some (_, x, _) => x

def givenCourse (done : List Action) : Course :=
  ⟨givenOr 8 Action.step? done, givenOr 25 Action.turn? done, givenOr true Action.snap? done⟩

/-- After these actions the action can be carried out: what it names was given its name, a text or a
symbol is one, there is a command to take, and a pen to move looks in a finite direction. -/
def CanFollow (A : Arithmetic) (done : List Action) : Action → Prop
  | .word _ text => ∀ t, text = some t → ∃ w, Word.parse t = .ok w
  | .enqueue name symbol =>
    (∃ a ∈ done, a.makes name = true) ∧ ∃ c, Command.ofSymbol symbol 0 = .ok c
  | .dequeue name => (∃ a ∈ done, a.makes name = true) ∧ wordUnder name done ≠ []
  | .movePen name distance =>
    (∃ a ∈ done, a.makesPen name = true) ∧ ∃ p, (penUnder A name done).move A distance = .ok p
  | .setWord name _ _ start =>
    (∃ a ∈ done, a.makes name = true) ∧
      ∀ n, start = some n → ∃ a ∈ done, a.makesPen n = true
  | .pen _ _ | .snap _ | .paint _ _ => True

/-! ## One more action -/

theorem lastGiven?_append_singleton {α : Type} (given? : Action → Option α) (done : List Action)
    (a : Action) :
    lastGiven? given? (done ++ [a]) =
      match given? a with
      | some x => some (done, x, [])
      | none => (lastGiven? given? done).map fun g => (g.1, g.2.1, g.2.2 ++ [a]) := by
  induction done with
  | nil => cases h : given? a <;> simp [lastGiven?, h]
  | cons b done ih =>
    rw [List.cons_append, lastGiven?, ih, lastGiven?]
    cases given? a with
    | some x => rfl
    | none =>
      cases lastGiven? given? done with
      | some g => rfl
      | none => cases given? b <;> rfl

theorem givenOr_append_singleton {α : Type} (default : α) (given? : Action → Option α)
    (done : List Action) (a : Action) :
    givenOr default given? (done ++ [a]) = (given? a).getD (givenOr default given? done) := by
  unfold givenOr
  rw [lastGiven?_append_singleton]
  cases given? a with
  | some x => rfl
  | none => cases lastGiven? given? done <;> rfl

theorem penUnder_append_singleton (A : Arithmetic) (name : String) (done : List Action)
    (a : Action) : penUnder A name (done ++ [a]) = a.moved A name (penUnder A name done) := by
  simp [penUnder]

inductive Performed (A : Arithmetic) (s : Studio) : Action → Studio → Prop
  | word (name : String) (text : Option String) :
      Performed A s (.word name text)
        { s with
          store := s.store ++ [Action.written text]
          words := s.words.put name s.store.length }
  | enqueue {name symbol : String} {c : Command} {i : ℕ} :
      Command.ofSymbol symbol 0 = .ok c → s.words.get? name = some i →
        Performed A s (.enqueue name symbol) (s.setWordAt i (s.wordAt i ++ [c]))
  | dequeue {name : String} {c : Command} {w : Word} {i : ℕ} :
      s.words.get? name = some i → s.wordAt i = c :: w →
        Performed A s (.dequeue name) (s.setWordAt i w)
  | pen (name : String) (p : Pen) :
      Performed A s (.pen name p) { s with pens := s.pens.put name p }
  | movePen {name : String} {distance : Float} {p q : Pen} :
      s.pens.get? name = some p → p.move A distance = .ok q →
        Performed A s (.movePen name distance) { s with pens := s.pens.put name q }
  | setWord {name : String} {step turn : Option Float} {start : Option String} {i : ℕ} {p : Pen} :
      s.words.get? name = some i →
        (∀ n, start = some n → s.pens.get? n = some p) → (start = none → p = s.sketch.pen) →
          Performed A s (.setWord name step turn start)
            { s with
              sketch := ⟨i, p, ⟨step.getD s.sketch.course.step, turn.getD s.sketch.course.turn,
                s.sketch.course.snap⟩⟩ }
  | snap (value : Bool) :
      Performed A s (.snap value)
        { s with sketch := { s.sketch with course := { s.sketch.course with snap := value } } }
  | paint (name : String) (kind : SurfaceKind) :
      Performed A s (.paint name kind)
        { s with
          surfaces := s.surfaces.put name
            (s.painting A ((s.surfaces.get? name).getD kind.blank)).run.canvas }

theorem reference_eq_ok {s : Studio} {name : String} {i : ℕ} :
    s.reference name = .ok i ↔ s.words.get? name = some i := by
  unfold reference
  cases s.words.get? name <;> simp

theorem penNamed_eq_ok {s : Studio} {name : String} {p : Pen} :
    s.penNamed name = .ok p ↔ s.pens.get? name = some p := by
  unfold penNamed
  cases s.pens.get? name <;> simp

theorem performed_of_perform {s s' : Studio} {a : Action} {answer : Answer}
    (h : s.perform A a = .ok (answer, s')) : Performed A s a s' := by
  cases a with
  | word name text =>
    cases text with
    | none =>
      cases h
      exact .word name none
    | some t =>
      obtain ⟨w, hw, h⟩ := bind_eq_ok.mp h
      cases h
      have hwritten : Action.written (some t) = w := by
        rw [Action.written, toOption_eq_some.mpr (mapError_eq_ok.mp hw)]
        rfl
      rw [← hwritten]
      exact .word name (some t)
  | enqueue name symbol =>
    obtain ⟨c, hc, h⟩ := bind_eq_ok.mp h
    obtain ⟨i, hi, h⟩ := bind_eq_ok.mp h
    cases h
    exact .enqueue (mapError_eq_ok.mp hc) (reference_eq_ok.mp hi)
  | dequeue name =>
    obtain ⟨i, hi, h⟩ := bind_eq_ok.mp h
    split at h
    · cases h
    · rename_i c w hw
      cases h
      exact .dequeue (reference_eq_ok.mp hi) hw
  | pen name p =>
    cases h
    exact .pen name p
  | movePen name distance =>
    obtain ⟨p, hp, h⟩ := bind_eq_ok.mp h
    obtain ⟨q, hq, h⟩ := bind_eq_ok.mp h
    cases h
    exact .movePen (penNamed_eq_ok.mp hp) (mapError_eq_ok.mp hq)
  | setWord name step turn start =>
    obtain ⟨i, hi, h⟩ := bind_eq_ok.mp h
    cases start with
    | none =>
      cases h
      exact .setWord (reference_eq_ok.mp hi) (fun n hn => by cases hn) fun _ => rfl
    | some n =>
      obtain ⟨p, hp, h⟩ := bind_eq_ok.mp h
      cases h
      refine .setWord (reference_eq_ok.mp hi) ?_ fun hn => by cases hn
      rintro _ ⟨rfl⟩
      exact penNamed_eq_ok.mp hp
  | snap value =>
    cases h
    exact .snap value
  | paint name kind =>
    cases h
    exact .paint name kind

/-! ## Pens and course -/

/-- The pens of a studio and the pen of its sketch are told by the actions carried out. -/
structure PensFollow (A : Arithmetic) (s : Studio) (done : List Action) : Prop where
  under : ∀ n p, s.pens.get? n = some p → p = penUnder A n done
  sketch : s.sketch.pen = givenPen A done

theorem givenPen_append_singleton (A : Arithmetic) (done : List Action) (a : Action) :
    givenPen A (done ++ [a]) =
      match a.start? with
      | some n => penUnder A n done
      | none => givenPen A done := by
  unfold givenPen
  rw [lastGiven?_append_singleton]
  cases a.start? with
  | some n => rfl
  | none => cases lastGiven? Action.start? done <;> rfl

theorem PensFollow.put {s : Studio} {done : List Action} (h : PensFollow A s done) {a : Action}
    {name : String} {q : Pen} (hname : a.moved A name (penUnder A name done) = q)
    (hother : ∀ n p, n ≠ name → a.moved A n p = p) (n : String) (p : Pen)
    (hp : (s.pens.put name q).get? n = some p) : p = penUnder A n (done ++ [a]) := by
  rw [penUnder_append_singleton]
  by_cases hn : n = name
  · subst hn
    rw [Table.get?_put_self] at hp
    cases hp
    exact hname.symm
  · rw [Table.get?_put_of_ne hn] at hp
    rw [hother n _ hn]
    exact h.under n p hp

theorem PensFollow.step {s s' : Studio} {done : List Action} {a : Action}
    (h : PensFollow A s done) (hs : Performed A s a s') : PensFollow A s' (done ++ [a]) := by
  have hkept (hmoved : ∀ n p, a.moved A n p = p) (n : String) (p : Pen)
      (hp : s.pens.get? n = some p) : p = penUnder A n (done ++ [a]) := by
    rw [penUnder_append_singleton, hmoved]
    exact h.under n p hp
  cases hs with
  | word | enqueue | dequeue | snap | paint =>
    refine ⟨hkept fun _ _ => rfl, ?_⟩
    rw [givenPen_append_singleton]
    exact h.sketch
  | pen name q =>
    refine ⟨h.put (if_pos rfl) fun n p hn => if_neg hn.symm, ?_⟩
    rw [givenPen_append_singleton]
    exact h.sketch
  | @movePen name distance p q hp hmove =>
    refine ⟨h.put ?_ fun n p hn => if_neg hn.symm, ?_⟩
    · rw [Action.moved, if_pos rfl, ← h.under name p hp, hmove]
      rfl
    · rw [givenPen_append_singleton]
      exact h.sketch
  | @setWord name step turn start i p hi hstart hnone =>
    refine ⟨hkept fun _ _ => rfl, ?_⟩
    rw [givenPen_append_singleton]
    cases start with
    | none =>
      rw [hnone rfl]
      exact h.sketch
    | some n => exact h.under n p (hstart n rfl)

theorem course_step {s s' : Studio} {done : List Action} {a : Action}
    (h : s.sketch.course = givenCourse done) (hs : Performed A s a s') :
    s'.sketch.course = givenCourse (done ++ [a]) := by
  simp only [givenCourse, givenOr_append_singleton] at h ⊢
  cases hs with
  | word | enqueue | dequeue | pen | movePen | paint => exact h
  | setWord =>
    simp only [h]
    rfl
  | snap value =>
    simp only [h]
    rfl

/-! ## Words -/

def IsKept (name : String) (done : List Action) : Prop := ∀ a ∈ done, a.makes name = false

/-- The word last given to the sketch was given under this name and has kept it since. -/
def IsGivenAs (name : String) (done : List Action) : Prop :=
  ∃ before after, lastGiven? Action.word? done = some (before, name, after) ∧ IsKept name after

theorem isKept_cons {name : String} {done : List Action} {a : Action} :
    IsKept name (a :: done) ↔ a.makes name = false ∧ IsKept name done := by
  simp [IsKept]

theorem isKept_append_singleton {name : String} {done : List Action} {a : Action} :
    IsKept name (done ++ [a]) ↔ IsKept name done ∧ a.makes name = false := by
  simp [IsKept, or_imp, forall_and]

theorem keptUnder_of_isKept {name : String} {done : List Action} {a : Action}
    (h : IsKept name (done ++ [a])) (w : Word) :
    keptUnder name w (done ++ [a]) = a.edit name (keptUnder name w done) := by
  induction done generalizing w with
  | nil =>
    have ha := (isKept_cons.mp h).1
    simp [keptUnder, ha]
  | cons b done ih =>
    obtain ⟨hb, hdone⟩ := isKept_cons.mp h
    simp only [List.cons_append, keptUnder, hb, Bool.false_eq_true, if_false]
    exact ih hdone _

theorem keptUnder_of_not_isKept {name : String} {done : List Action} {a : Action}
    (h : ¬IsKept name (done ++ [a])) (w : Word) :
    keptUnder name w (done ++ [a]) = keptUnder name w done := by
  induction done generalizing w with
  | nil =>
    have ha : a.makes name = true := by
      by_contra hfalse
      exact h (isKept_cons.mpr ⟨by simpa using hfalse, by simp [IsKept]⟩)
    simp [keptUnder, ha]
  | cons b done ih =>
    cases hb : b.makes name with
    | true => simp [keptUnder, hb]
    | false =>
      simp only [List.cons_append, keptUnder, hb, Bool.false_eq_true, if_false]
      exact ih (fun hdone => h (isKept_cons.mpr ⟨hb, hdone⟩)) _

theorem wordUnder_append_singleton (name : String) (done : List Action) (a : Action) :
    wordUnder name (done ++ [a]) =
      match a with
      | .word n text => if n = name then Action.written text else wordUnder name done
      | a => a.edit name (wordUnder name done) := by
  rw [wordUnder, List.foldl_append]
  cases a <;> rfl

section

/-! After an action that gives the sketch no word. -/

variable {done : List Action} {a : Action} (hgives : a.word? = none)
include hgives

theorem isGivenAs_append_singleton {name : String} :
    IsGivenAs name (done ++ [a]) ↔ IsGivenAs name done ∧ a.makes name = false := by
  unfold IsGivenAs
  rw [lastGiven?_append_singleton, hgives]
  cases lastGiven? Action.word? done with
  | none => simp
  | some g =>
    obtain ⟨before, n, after⟩ := g
    simp only [Option.map_some, Option.some.injEq, Prod.mk.injEq]
    constructor
    · rintro ⟨_, _, ⟨rfl, rfl, rfl⟩, hkept⟩
      obtain ⟨hafter, ha⟩ := isKept_append_singleton.mp hkept
      exact ⟨⟨_, _, ⟨rfl, rfl, rfl⟩, hafter⟩, ha⟩
    · rintro ⟨⟨_, _, ⟨rfl, rfl, rfl⟩, hafter⟩, ha⟩
      exact ⟨_, _, ⟨rfl, rfl, rfl⟩, isKept_append_singleton.mpr ⟨hafter, ha⟩⟩

variable (done) in
/-- The word of the sketch is edited under its name, if it still has it. -/
theorem givenWord_append_singleton :
    (∃ n, IsGivenAs n (done ++ [a]) ∧ givenWord (done ++ [a]) = a.edit n (givenWord done)) ∨
      (∀ n, ¬IsGivenAs n (done ++ [a])) ∧ givenWord (done ++ [a]) = givenWord done := by
  unfold IsGivenAs givenWord
  rw [lastGiven?_append_singleton, hgives]
  cases lastGiven? Action.word? done with
  | none => simp
  | some g =>
    obtain ⟨before, n, after⟩ := g
    simp only [Option.map_some, Option.some.injEq, Prod.mk.injEq]
    by_cases hkept : IsKept n (after ++ [a])
    · exact .inl ⟨n, ⟨_, _, ⟨rfl, rfl, rfl⟩, hkept⟩, keptUnder_of_isKept hkept _⟩
    · right
      refine ⟨?_, keptUnder_of_not_isKept hkept _⟩
      rintro _ ⟨_, _, ⟨rfl, rfl, rfl⟩, h⟩
      exact hkept h

end

/-- The words under the names of a studio and the word of its sketch are told by the actions carried
out. No two names stand for one word, and a name stands for the word of the sketch if that was given
under it and it has kept it since. -/
structure WordsFollow (s : Studio) (done : List Action) : Prop where
  under : ∀ n i, s.words.get? n = some i → i < s.store.length ∧ s.wordAt i = wordUnder n done
  distinct : ∀ n m i, s.words.get? n = some i → s.words.get? m = some i → n = m
  stored : s.sketch.word < s.store.length
  sketch : s.sketchWord = givenWord done
  named : ∀ n, s.words.get? n = some s.sketch.word ↔ IsGivenAs n done

namespace WordsFollow

variable {s : Studio} {done : List Action} {a : Action}

theorem empty : WordsFollow .empty [] := by
  refine ⟨?_, ?_, ?_, rfl, ?_⟩
  · intro n i hi
    cases hi
  · intro n m i hi
    cases hi
  · simp [Studio.empty]
  · intro n
    simp [Studio.empty, Table.get?, IsGivenAs, lastGiven?]

/-- An action that gives no word and makes none does to the word under each name what it does to the
word of that name. -/
theorem of_edit (h : WordsFollow s done) {s' : Studio} (hwords : s'.words = s.words)
    (hword : s'.sketch.word = s.sketch.word) (hlength : s'.store.length = s.store.length)
    (hgives : a.word? = none) (hmakes : ∀ n, a.makes n = false)
    (hedit : ∀ n i, s.words.get? n = some i → s'.wordAt i = a.edit n (s.wordAt i))
    (hother : ∀ i, (∀ n, s.words.get? n ≠ some i) → s'.wordAt i = s.wordAt i) :
    WordsFollow s' (done ++ [a]) := by
  have hnamed (n : String) : s.words.get? n = some s.sketch.word ↔ IsGivenAs n (done ++ [a]) := by
    rw [h.named, isGivenAs_append_singleton hgives, hmakes]
    simp
  refine ⟨?_, ?_, ?_, ?_, ?_⟩
  · intro n i hi
    rw [hwords] at hi
    obtain ⟨hlt, hat⟩ := h.under n i hi
    refine ⟨hlength ▸ hlt, ?_⟩
    rw [hedit n i hi, hat, wordUnder_append_singleton]
    cases a with
    | word m text => exact absurd (hmakes m) (by simp [Action.makes])
    | _ => rfl
  · rw [hwords]
    exact h.distinct
  · rw [hword, hlength]
    exact h.stored
  · rw [sketchWord, hword]
    rcases givenWord_append_singleton done hgives with ⟨n, hn, hgiven⟩ | ⟨hnone, hgiven⟩
    · rw [hgiven, hedit n _ ((hnamed n).mpr hn), ← h.sketch]
      rfl
    · rw [hgiven, hother _ fun n => mt (hnamed n).mp (hnone n), ← h.sketch]
      rfl
  · intro n
    rw [hwords, hword]
    exact hnamed n

theorem of_setWordAt (h : WordsFollow s done) {name : String} {i : ℕ} {w : Word}
    (hi : s.words.get? name = some i) (hgives : a.word? = none) (hmakes : ∀ n, a.makes n = false)
    (hname : a.edit name (s.wordAt i) = w) (hedit : ∀ n v, n ≠ name → a.edit n v = v) :
    WordsFollow (s.setWordAt i w) (done ++ [a]) := by
  have hlt := (h.under name i hi).1
  have hself : (s.setWordAt i w).wordAt i = w := by
    simp [wordAt, setWordAt, hlt]
  have hne {j : ℕ} (hj : i ≠ j) : (s.setWordAt i w).wordAt j = s.wordAt j := by
    simp [wordAt, setWordAt, List.getElem?_set_ne hj]
  refine h.of_edit rfl rfl (by simp [setWordAt]) hgives hmakes ?_ ?_
  · intro n j hj
    by_cases hij : i = j
    · subst hij
      rw [h.distinct n name i hj hi, hself, hname]
    · have hn : n ≠ name := by
        rintro rfl
        exact hij (Option.some.inj (hi.symm.trans hj))
      rw [hne hij, hedit n _ hn]
  · intro j hj
    apply hne
    rintro rfl
    exact hj name hi

theorem of_word (h : WordsFollow s done) (name : String) (text : Option String) :
    WordsFollow
      { s with
        store := s.store ++ [Action.written text]
        words := s.words.put name s.store.length } (done ++ [.word name text]) := by
  have hgives : (Action.word name text).word? = none := rfl
  have hold {i : ℕ} (hi : i < s.store.length) :
      (s.store ++ [Action.written text]).getD i [] = s.wordAt i := by
    rw [wordAt, List.getD_eq_getElem?_getD, List.getD_eq_getElem?_getD,
      List.getElem?_append_left hi]
  refine ⟨?_, ?_, ?_, ?_, ?_⟩
  · intro n i hi
    rw [wordUnder_append_singleton]
    rcases Table.get?_put_eq_some.mp hi with ⟨rfl, rfl⟩ | ⟨hn, hi⟩
    · simp [wordAt]
    · obtain ⟨hlt, hat⟩ := h.under n i hi
      simp only [if_neg (Ne.symm hn), ← hat]
      exact ⟨by simpa using Nat.lt_succ_of_lt hlt, hold hlt⟩
  · intro n m i hi hm
    rcases Table.get?_put_eq_some.mp hi with ⟨rfl, rfl⟩ | ⟨_, hi⟩
    · rcases Table.get?_put_eq_some.mp hm with ⟨rfl, _⟩ | ⟨_, hm⟩
      · rfl
      · exact absurd (h.under m _ hm).1 (lt_irrefl _)
    · rcases Table.get?_put_eq_some.mp hm with ⟨_, rfl⟩ | ⟨_, hm⟩
      · exact absurd (h.under n _ hi).1 (lt_irrefl _)
      · exact h.distinct n m i hi hm
  · simpa using Nat.lt_succ_of_lt h.stored
  · have hsame : givenWord (done ++ [.word name text]) = givenWord done := by
      rcases givenWord_append_singleton done hgives with ⟨n, _, h⟩ | ⟨_, h⟩
      · exact h
      · exact h
    rw [hsame, ← h.sketch]
    exact hold h.stored
  · intro n
    rw [isGivenAs_append_singleton hgives, ← h.named]
    change (s.words.put name s.store.length).get? n = _ ↔ _
    rw [Table.get?_put_eq_some]
    have hstored := h.stored
    by_cases hn : n = name
    · simp [hn, Action.makes, hstored.ne']
    · simp [hn, Action.makes, Ne.symm hn]

theorem of_setWord (h : WordsFollow s done) {name : String} {i : ℕ}
    (hi : s.words.get? name = some i) (step turn : Option Float) (start : Option String) (p : Pen)
    (c : Course) :
    WordsFollow { s with sketch := ⟨i, p, c⟩ } (done ++ [.setWord name step turn start]) := by
  obtain ⟨hlt, hat⟩ := h.under name i hi
  have hlast : lastGiven? Action.word? (done ++ [.setWord name step turn start]) =
      some (done, name, []) := lastGiven?_append_singleton _ _ _
  refine ⟨?_, h.distinct, hlt, ?_, ?_⟩
  · intro n j hj
    rw [wordUnder_append_singleton]
    exact h.under n j hj
  · rw [givenWord, hlast]
    exact hat
  · intro n
    simp only [IsGivenAs, hlast]
    constructor
    · intro hn
      rw [h.distinct n name i hn hi]
      exact ⟨done, [], rfl, by simp [IsKept]⟩
    · rintro ⟨_, _, ⟨rfl⟩, _⟩
      exact hi

theorem step {s' : Studio} (h : WordsFollow s done) (hs : Performed A s a s') :
    WordsFollow s' (done ++ [a]) := by
  cases hs with
  | word name text => exact h.of_word name text
  | enqueue hc hi =>
    refine h.of_setWordAt hi rfl (fun _ => rfl) ?_ fun n v hn => if_neg hn.symm
    rw [Action.edit, if_pos rfl, hc]
    rfl
  | dequeue hi hw =>
    refine h.of_setWordAt hi rfl (fun _ => rfl) ?_ fun n v hn => if_neg hn.symm
    rw [Action.edit, if_pos rfl, hw]
    rfl
  | setWord hi => exact h.of_setWord hi _ _ _ _ _
  | pen | movePen | snap | paint =>
    exact h.of_edit rfl rfl rfl rfl (fun _ => rfl) (fun _ _ _ => rfl) fun _ _ => rfl

end WordsFollow

/-! ## Names -/

/-- Words and pens stand under the names that were given to any. -/
structure NamesFollow (s : Studio) (done : List Action) : Prop where
  words : ∀ n, (∃ i, s.words.get? n = some i) ↔ ∃ a ∈ done, a.makes n = true
  pens : ∀ n, (∃ p, s.pens.get? n = some p) ↔ ∃ a ∈ done, a.makesPen n = true

theorem exists_mem_append_singleton {done : List Action} {a : Action} {p : Action → Bool} :
    (∃ b ∈ done ++ [a], p b = true) ↔ (∃ b ∈ done, p b = true) ∨ p a = true := by
  simp [or_and_right, exists_or]

theorem exists_get?_put {α : Type} {t : Registry α} {name n : String} {x : α} :
    (∃ y, (t.put name x).get? n = some y) ↔ (∃ y, t.get? n = some y) ∨ name = n := by
  by_cases hn : n = name
  · subst hn
    simp
  · simp [Table.get?_put_of_ne hn, Ne.symm hn]

theorem NamesFollow.step {s s' : Studio} {done : List Action} {a : Action}
    (h : NamesFollow s done) (hs : Performed A s a s') : NamesFollow s' (done ++ [a]) := by
  have hwords (hsame : s'.words = s.words) (ha : ∀ n, a.makes n = false) (n : String) :
      (∃ i, s'.words.get? n = some i) ↔ ∃ b ∈ done ++ [a], b.makes n = true := by
    rw [exists_mem_append_singleton, ha, hsame, h.words]
    simp
  have hpens (hsame : s'.pens = s.pens) (ha : ∀ n, a.makesPen n = false) (n : String) :
      (∃ p, s'.pens.get? n = some p) ↔ ∃ b ∈ done ++ [a], b.makesPen n = true := by
    rw [exists_mem_append_singleton, ha, hsame, h.pens]
    simp
  cases hs with
  | word name text =>
    refine ⟨fun n => ?_, hpens rfl fun _ => rfl⟩
    rw [exists_mem_append_singleton, ← h.words]
    exact exists_get?_put.trans (or_congr_right (by simp [Action.makes]))
  | pen name p =>
    refine ⟨hwords rfl fun _ => rfl, fun n => ?_⟩
    rw [exists_mem_append_singleton, ← h.pens]
    exact exists_get?_put.trans (or_congr_right (by simp [Action.makesPen]))
  | @movePen name distance p q hp hmove =>
    refine ⟨hwords rfl fun _ => rfl, fun n => ?_⟩
    rw [exists_mem_append_singleton, ← h.pens]
    refine exists_get?_put.trans ?_
    constructor
    · rintro (hn | rfl)
      · exact .inl hn
      · exact .inl ⟨p, hp⟩
    · rintro (hn | hfalse)
      · exact .inl hn
      · cases hfalse
  | enqueue | dequeue | setWord | snap | paint =>
    exact ⟨hwords rfl fun _ => rfl, hpens rfl fun _ => rfl⟩

/-! ## Painting -/

/-- All that a sketch paints with is told by the actions carried out. -/
theorem follows (A : Arithmetic) (actions : List Action) :
    let h := History.after A actions
    WordsFollow h.studio h.done ∧ PensFollow A h.studio h.done ∧ NamesFollow h.studio h.done ∧
      h.studio.sketch.course = givenCourse h.done := by
  induction actions using List.reverseRecOn with
  | nil =>
    refine ⟨.empty, ⟨?_, rfl⟩, ⟨?_, ?_⟩, rfl⟩
    · intro n p hp
      cases hp
    · simp [History.after, Studio.empty, Table.get?]
    · simp [History.after, Studio.empty, Table.get?]
  | append_singleton actions a ih =>
    obtain ⟨hwords, hpens, hnames, hcourse⟩ := ih
    have hnext : History.after A (actions ++ [a]) = (History.after A actions).next A a := by
      simp [History.after]
    simp only [hnext, History.next]
    generalize History.after A actions = h at *
    cases hperform : h.studio.perform A a with
    | error e => exact ⟨hwords, hpens, hnames, hcourse⟩
    | ok r =>
      have hs := performed_of_perform hperform
      exact ⟨hwords.step hs, hpens.step hs, hnames.step hs, course_step hcourse hs⟩

/-- What was carried out tells what can be. -/
theorem performs_iff {s : Studio} {done : List Action} (hwords : WordsFollow s done)
    (hpens : PensFollow A s done) (hnames : NamesFollow s done) (a : Action) :
    (∃ answer s', s.perform A a = .ok (answer, s')) ↔ CanFollow A done a := by
  constructor
  · rintro ⟨answer, s', h⟩
    have hmade {n : String} {i : ℕ} (hi : s.words.get? n = some i) := (hnames.words n).mp ⟨i, hi⟩
    have hmadePen {n : String} {p : Pen} (hp : s.pens.get? n = some p) :=
      (hnames.pens n).mp ⟨p, hp⟩
    cases performed_of_perform h with
    | word name text =>
      rintro t rfl
      obtain ⟨w, hw, _⟩ := bind_eq_ok.mp h
      exact ⟨w, mapError_eq_ok.mp hw⟩
    | enqueue hc hi => exact ⟨hmade hi, _, hc⟩
    | @dequeue name c w i hi hw =>
      refine ⟨hmade hi, ?_⟩
      rw [← (hwords.under name i hi).2, hw]
      exact List.cons_ne_nil c w
    | @movePen name distance p q hp hmove =>
      refine ⟨hmadePen hp, q, ?_⟩
      rwa [← hpens.under name p hp]
    | @setWord name step turn start i p hi hstart =>
      exact ⟨hmade hi, fun n hn => hmadePen (hstart n hn)⟩
    | pen | snap | paint => trivial
  · intro h
    cases a with
    | word name text =>
      cases text with
      | none => exact ⟨_, _, rfl⟩
      | some t =>
        obtain ⟨w, hw⟩ := h t rfl
        exact ⟨_, _, by rw [perform, hw]; rfl⟩
    | enqueue name symbol =>
      obtain ⟨hmade, c, hc⟩ := h
      obtain ⟨i, hi⟩ := (hnames.words name).mpr hmade
      exact ⟨_, _, by rw [perform, hc, reference_eq_ok.mpr hi]; rfl⟩
    | dequeue name =>
      obtain ⟨hmade, hne⟩ := h
      obtain ⟨i, hi⟩ := (hnames.words name).mpr hmade
      obtain ⟨c, w, hw⟩ := List.exists_cons_of_ne_nil ((hwords.under name i hi).2 ▸ hne)
      refine ⟨.command c, s.setWordAt i w, ?_⟩
      simp only [perform, reference_eq_ok.mpr hi, ok_bind, hw]
      rfl
    | movePen name distance =>
      obtain ⟨hmade, q, hq⟩ := h
      obtain ⟨p, hp⟩ := (hnames.pens name).mpr hmade
      rw [← hpens.under name p hp] at hq
      exact ⟨_, _, by rw [perform, penNamed_eq_ok.mpr hp, ok_bind, hq]; rfl⟩
    | setWord name step turn start =>
      obtain ⟨hmade, hstart⟩ := h
      obtain ⟨i, hi⟩ := (hnames.words name).mpr hmade
      cases start with
      | none => exact ⟨_, _, by rw [perform, reference_eq_ok.mpr hi]; rfl⟩
      | some n =>
        obtain ⟨p, hp⟩ := (hnames.pens n).mpr (hstart n rfl)
        exact ⟨_, _, by
          simp only [perform, reference_eq_ok.mpr hi, ok_bind, penNamed_eq_ok.mpr hp]
          rfl⟩
    | pen | snap | paint => exact ⟨_, _, rfl⟩

/-- What painting on a surface does, and that all else stays. -/
theorem perform_paint (A : Arithmetic) (s : Studio) (name : String) (kind : SurfaceKind) :
    let surface := (s.surfaces.get? name).getD kind.blank
    let r := s.sketch.course.run A s.sketchWord s.sketch.pen
    ∃ p, s.perform A (.paint name kind) =
        .ok (.painting p, { s with surfaces := s.surfaces.put name (surface.drawAll r.segments) }) ∧
      p.run = ⟨surface.drawAll r.segments, r.drawn, r.unmatched, r.fault⟩ := by
  intro surface r
  have hrun : (s.painting A surface).run =
      ⟨surface.drawAll r.segments, r.drawn, r.unmatched, r.fault⟩ := runOn_eq_run _ _ _ _
  have hcanvas : (s.painting A surface).run.canvas = surface.drawAll r.segments :=
    congrArg Run.canvas hrun
  refine ⟨s.painting A surface, ?_, hrun⟩
  rw [← hcanvas]
  rfl

end Studio

/-- Painting after any actions. Of these the ones carried out are those that can follow the ones
carried out before. The sketch draws, on the surface as it is, the segments of the run of the word
last given to it, as it has become, with the pen last given, as it was then, and with the step, the
turn and the snapping last given; it counts and faults as that run. All but the surface stays as it
was, so painting again, on any surface, draws the same. -/
theorem paint_replays (A : Arithmetic) (actions : List Studio.Action) (name : String)
    (kind : SurfaceKind) :
    let past := Studio.History.after A actions
    let surface := (past.studio.surfaces.get? name).getD kind.blank
    let r := (Studio.givenCourse past.done).run A (Studio.givenWord past.done)
      (Studio.givenPen A past.done)
    let next : Studio :=
      { past.studio with
        surfaces := past.studio.surfaces.put name (surface.drawAll r.segments) }
    (∀ a, (∃ answer s, past.studio.perform A a = .ok (answer, s)) ↔
      Studio.CanFollow A past.done a) ∧
    (∃ p, past.studio.perform A (.paint name kind) = .ok (.painting p, next) ∧
      p.run = ⟨surface.drawAll r.segments, r.drawn, r.unmatched, r.fault⟩) ∧
    ∀ name' kind', ∃ p' last, next.perform A (.paint name' kind') = .ok (.painting p', last) ∧
      p'.run = ⟨((next.surfaces.get? name').getD kind'.blank).drawAll r.segments, r.drawn,
        r.unmatched, r.fault⟩ := by
  intro past surface r next
  obtain ⟨hwords, hpens, hnames, hcourse⟩ := Studio.follows A actions
  have hr : past.studio.sketch.course.run A past.studio.sketchWord past.studio.sketch.pen = r := by
    rw [hwords.sketch, hpens.sketch, hcourse]
  refine ⟨Studio.performs_iff hwords hpens hnames, ?_, ?_⟩
  · have hpaint := Studio.perform_paint A past.studio name kind
    simp only [hr] at hpaint
    exact hpaint
  · intro name' kind'
    obtain ⟨p, hperform, hrun⟩ := Studio.perform_paint A next name' kind'
    have hagain : next.sketch.course.run A next.sketchWord next.sketch.pen = r := hr
    rw [hagain] at hrun
    exact ⟨p, _, hperform, hrun⟩

/-- A word that gets a command after it was given and then loses its name, a pen that moves after it
was given, and an action that cannot be carried out. The painting faults after it has drawn once. -/
theorem paint_replays_rebound :
    let actions : List Studio.Action :=
      [.pen "p" ⟨1, 2, 0⟩, .word "a" (some "F"), .setWord "a" (some 2) none (some "p"),
        .enqueue "a" "]", .movePen "p" 5, .dequeue "b", .word "a" (some "RR"), .dequeue "a",
        .snap false]
    let past := Studio.History.after straight.1 actions
    past.done.length = 8 ∧
      (∀ answer s, past.studio.perform straight.1 (.dequeue "b") ≠ .ok (answer, s)) ∧
      (∃ answer s, past.studio.perform straight.1 (.enqueue "a" "F") = .ok (answer, s)) ∧
      Studio.givenWord past.done = [.forward, .pop] ∧
      Studio.wordUnder "a" past.done = [.forward2] ∧
      (Studio.givenPen straight.1 past.done).shown =
        "PenState(x=1.0, y=2.0, heading_deg=0.0)" ∧
      (Studio.penUnder straight.1 "p" past.done).shown =
        "PenState(x=6.0, y=2.0, heading_deg=0.0)" ∧
      ∃ p next, past.studio.perform straight.1 (.paint "s" .recorder) = .ok (.painting p, next) ∧
        p.run.drawn = 1 ∧ (p.run.fault.map Fault.position) = some 1 ∧
        ∃ p' last, next.perform straight.1 (.paint "t" .plotter) = .ok (.painting p', last) ∧
          p'.run.drawn = 1 ∧ p'.run.fault = p.run.fault := by
  intro actions past
  obtain ⟨hcan, ⟨p, hpaint, hrun⟩, hagain⟩ := paint_replays straight.1 actions "s" .recorder
  obtain ⟨p', last, hpaint', hrun'⟩ := hagain "t" .plotter
  have hlost : Studio.wordUnder "b" past.done = [] := by decide +kernel
  have hmade : past.done.any (Studio.Action.makes "a") = true := by decide +kernel
  have hdrawn : ((Studio.givenCourse past.done).run straight.1 (Studio.givenWord past.done)
      (Studio.givenPen straight.1 past.done)).drawn = 1 := by decide +kernel
  have hfault : ((Studio.givenCourse past.done).run straight.1 (Studio.givenWord past.done)
      (Studio.givenPen straight.1 past.done)).fault.map Fault.position = some 1 := by
    decide +kernel
  refine ⟨by decide +kernel, ?_, (hcan (.enqueue "a" "F")).mpr ?_, by decide +kernel,
    by decide +kernel, by decide +kernel, by decide +kernel, p, _, hpaint, ?_, ?_, p', last,
    hpaint', ?_, ?_⟩
  · intro answer s h
    exact ((hcan (.dequeue "b")).mp ⟨answer, s, h⟩).2 hlost
  · exact ⟨List.any_eq_true.mp hmade, .forward, rfl⟩
  · rw [hrun]
    exact hdrawn
  · rw [hrun]
    exact hfault
  · rw [hrun']
    exact hdrawn
  · rw [hrun', hrun]

end BracketTurtle
