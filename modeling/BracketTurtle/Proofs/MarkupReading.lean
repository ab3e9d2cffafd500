import BracketTurtle.Drawing.Markup
import Mathlib.Tactic

/-!
# Reading markup

A reader of markup that knows nothing of how documents are written. It goes through the characters
once and cuts them into tags, each with the text in front of it; it refuses what is no tag. A
document whose names are names and whose attribute values hold neither quotes nor opening brackets
reads back as the tags of its element, in order and with all attributes, whatever the texts are.
-/

namespace BracketTurtle
namespace Markup

abbrev Attributes := List (List Char × List Char)

inductive Tag where
  | declaration (body : List Char)
  | opening (name : List Char) (attributes : Attributes)
  | empty (name : List Char) (attributes : Attributes)
  | closing (name : List Char)
deriving DecidableEq, Repr

/-- A tag with the text between the tag before it and itself. -/
structure Mark where
  text : List Char
  tag : Tag
deriving DecidableEq, Repr

def isNameChar (c : Char) : Bool := c.isAlphanum || c = '-' || c = '_' || c = ':' || c = '.'

/-- What is being read. Whatever grows is kept latest first. -/
inductive Phase where
  | text
  | angle
  | declaration (body : List Char)
  | closing (name : List Char)
  | name (name : List Char)
  /-- After a name or a value. -/
  | inside (name : List Char) (attributes : Attributes)
  /-- After a blank in a tag. -/
  | gap (name : List Char) (attributes : Attributes)
  | key (name : List Char) (attributes : Attributes) (key : List Char)
  | equals (name : List Char) (attributes : Attributes) (key : List Char)
  | value (name : List Char) (attributes : Attributes) (key value : List Char)
  | slash (name : List Char) (attributes : Attributes)
deriving DecidableEq, Repr

structure Scan where
  marks : List Mark
  text : List Char
  phase : Phase
deriving DecidableEq, Repr

namespace Scan

def start : Scan := ⟨[], [], .text⟩

def close (s : Scan) (t : Tag) : Scan := ⟨⟨s.text.reverse, t⟩ :: s.marks, [], .text⟩

def goTo (s : Scan) (phase : Phase) : Scan := { s with phase := phase }

def stepInside (s : Scan) (name : List Char) (attributes : Attributes) (c : Char) : Option Scan :=
  if c = ' ' then some (s.goTo (.gap name attributes))
  else if c = '/' then some (s.goTo (.slash name attributes))
  else if c = '>' then some (s.close (.opening name attributes.reverse))
  else none

def step (s : Scan) (c : Char) : Option Scan :=
  match s.phase with
  | .text => if c = '<' then some (s.goTo .angle) else some { s with text := c :: s.text }
  | .angle =>
    if c = '?' then some (s.goTo (.declaration []))
    else if c = '/' then some (s.goTo (.closing []))
    else if isNameChar c then some (s.goTo (.name [c]))
    else none
  | .declaration body =>
    if c = '>' then
      match body with
      | '?' :: body => some (s.close (.declaration body.reverse))
      | _ => none
    else some (s.goTo (.declaration (c :: body)))
  | .closing name =>
    if isNameChar c then some (s.goTo (.closing (c :: name)))
    else if c = '>' && !name.isEmpty then some (s.close (.closing name.reverse))
    else none
  | .name name =>
    if isNameChar c then some (s.goTo (.name (c :: name))) else s.stepInside name.reverse [] c
  | .inside name attributes => s.stepInside name attributes c
  | .gap name attributes =>
    if isNameChar c then some (s.goTo (.key name attributes [c]))
    else s.stepInside name attributes c
  | .key name attributes key =>
    if isNameChar c then some (s.goTo (.key name attributes (c :: key)))
    else if c = '=' then some (s.goTo (.equals name attributes key))
    else none
  | .equals name attributes key =>
    if c = '"' then some (s.goTo (.value name attributes key [])) else none
  | .value name attributes key value =>
    if c = '"' then some (s.goTo (.inside name ((key.reverse, value.reverse) :: attributes)))
    else if c = '<' then none
    else some (s.goTo (.value name attributes key (c :: value)))
  | .slash name attributes =>
    if c = '>' then some (s.close (.empty name attributes.reverse)) else none

def run (s : Scan) (cs : List Char) : Option Scan := cs.foldlM step s

theorem run_nil (s : Scan) : s.run [] = some s := rfl

theorem run_cons (s : Scan) (c : Char) (cs : List Char) :
    s.run (c :: cs) = (s.step c).bind fun s => s.run cs := rfl

theorem run_append (s : Scan) (cs ds : List Char) :
    s.run (cs ++ ds) = (s.run cs).bind fun s => s.run ds := by
  simp [run, List.foldlM_append]

theorem run_append_of_run {s r : Scan} {cs : List Char} (h : s.run cs = some r) (ds : List Char) :
    s.run (cs ++ ds) = r.run ds := by
  rw [run_append, h, Option.bind_some]

end Scan

/-- The tags of a text; `none` when something in it is no tag or a tag has no end. -/
def read (text : String) : Option (List Mark) :=
  match Scan.start.run text.toList with
  | some ⟨marks, _, .text⟩ => some marks.reverse
  | _ => none

def IsName (s : String) : Prop := s.toList ≠ [] ∧ ∀ c ∈ s.toList, isNameChar c = true

/-- An attribute that reads back as it is written. -/
def IsPlain (a : String × String) : Prop := IsName a.1 ∧ '"' ∉ a.2.toList ∧ '<' ∉ a.2.toList

instance (s : String) : Decidable (IsName s) :=
  decidable_of_iff (s.toList ≠ [] ∧ s.toList.all isNameChar = true)
    (and_congr_right fun _ => List.all_eq_true)

instance (a : String × String) : Decidable (IsPlain a) := inferInstanceAs (Decidable (_ ∧ _ ∧ _))

def charsOf (a : String × String) : List Char × List Char := (a.1.toList, a.2.toList)

theorem mapM_map_eq_some {α β γ : Type} {read : β → Option γ} {write : α → β} {meant : α → γ}
    {l : List α} (h : ∀ a ∈ l, read (write a) = some (meant a)) :
    (l.map write).mapM read = some (l.map meant) := by
  induction l with
  | nil => rfl
  | cons a l ih =>
    have hrest := ih (List.forall_mem_of_forall_mem_cons h)
    simp [h a List.mem_cons_self, hrest]

theorem forall_mem_intercalate {P : Char → Prop} {sep : List Char} {texts : List (List Char)}
    (hsep : ∀ c ∈ sep, P c) (h : ∀ l ∈ texts, ∀ c ∈ l, P c) : ∀ c ∈ sep.intercalate texts, P c := by
  induction texts with
  | nil => simp
  | cons l texts ih =>
    have hrest := ih (List.forall_mem_of_forall_mem_cons h)
    have hl := h l List.mem_cons_self
    cases texts with
    | nil => simpa using hl
    | cons t texts =>
      rw [List.intercalate_cons_cons]
      exact List.forall_mem_append.mpr ⟨List.forall_mem_append.mpr ⟨hl, hsep⟩, hrest⟩

/-! ## Pieces of a tag -/

namespace Scan

/-- Where the characters of a list are only collected, they are all there at its end. -/
theorem run_collect (into : List Char → Scan) (ok : Char → Prop)
    (h : ∀ c kept, ok c → (into kept).step c = some (into (c :: kept))) {cs : List Char}
    (hcs : ∀ c ∈ cs, ok c) (kept : List Char) :
    (into kept).run cs = some (into (cs.reverse ++ kept)) := by
  induction cs generalizing kept with
  | nil => rfl
  | cons c cs ih =>
    rw [run_cons, h c kept (hcs c List.mem_cons_self), Option.bind_some,
      ih (List.forall_mem_of_forall_mem_cons hcs), List.reverse_cons, List.append_assoc,
      List.singleton_append]

variable (marks : List Mark) (text : List Char)

theorem run_text {cs : List Char} (h : '<' ∉ cs) :
    run ⟨marks, text, .text⟩ cs = some ⟨marks, cs.reverse ++ text, .text⟩ := by
  refine run_collect (fun kept => ⟨marks, kept, .text⟩) (· ≠ '<') ?_ ?_ text
  · intro c kept hc
    simp only [step, if_neg hc]
  · rintro c hc rfl
    exact h hc

theorem run_name {cs : List Char} (h : ∀ c ∈ cs, isNameChar c = true) (name : List Char) :
    run ⟨marks, text, .name name⟩ cs = some ⟨marks, text, .name (cs.reverse ++ name)⟩ := by
  refine run_collect (fun kept => ⟨marks, text, .name kept⟩) (isNameChar · = true) ?_ h name
  intro c kept hc
  simp only [step, if_pos hc, goTo]

theorem run_closing {cs : List Char} (h : ∀ c ∈ cs, isNameChar c = true) (name : List Char) :
    run ⟨marks, text, .closing name⟩ cs = some ⟨marks, text, .closing (cs.reverse ++ name)⟩ := by
  refine run_collect (fun kept => ⟨marks, text, .closing kept⟩) (isNameChar · = true) ?_ h name
  intro c kept hc
  simp only [step, if_pos hc, goTo]

variable (name : List Char) (attributes : Attributes)

theorem run_key {cs : List Char} (h : ∀ c ∈ cs, isNameChar c = true) (key : List Char) :
    run ⟨marks, text, .key name attributes key⟩ cs =
      some ⟨marks, text, .key name attributes (cs.reverse ++ key)⟩ := by
  refine run_collect (fun kept => ⟨marks, text, .key name attributes kept⟩) (isNameChar · = true)
    ?_ h key
  intro c kept hc
  simp only [step, if_pos hc, goTo]

theorem run_value {cs : List Char} (hq : '"' ∉ cs) (ha : '<' ∉ cs) (key value : List Char) :
    run ⟨marks, text, .value name attributes key value⟩ cs =
      some ⟨marks, text, .value name attributes key (cs.reverse ++ value)⟩ := by
  refine run_collect (fun kept => ⟨marks, text, .value name attributes key kept⟩)
    (fun c => c ≠ '"' ∧ c ≠ '<') ?_ ?_ value
  · intro c kept hc
    simp only [step, if_neg hc.1, if_neg hc.2, goTo]
  · intro c hc
    constructor
    · rintro rfl
      exact hq hc
    · rintro rfl
      exact ha hc

/-! ## Whole tags -/

theorem run_attributeKey {a : String × String} (h : IsName a.1) (cs : List Char) :
    run ⟨marks, text, .inside name attributes⟩ ((Element.attributeText a).toList ++ cs) =
      run ⟨marks, text, .value name attributes a.1.toList.reverse []⟩
        (a.2.toList ++ '"' :: cs) := by
  obtain ⟨hne, hname⟩ := h
  obtain ⟨k, ks, hk⟩ := List.exists_cons_of_ne_nil hne
  rw [hk] at hname
  have hks : ∀ c ∈ ks, isNameChar c = true := List.forall_mem_of_forall_mem_cons hname
  have htext : (Element.attributeText a).toList ++ cs =
      ' ' :: k :: (ks ++ '=' :: '"' :: (a.2.toList ++ '"' :: cs)) := by
    simp [Element.attributeText, hk]
  have hblank : step ⟨marks, text, .inside name attributes⟩ ' ' =
      some ⟨marks, text, .gap name attributes⟩ := rfl
  have hfirst : step ⟨marks, text, .gap name attributes⟩ k =
      some ⟨marks, text, .key name attributes [k]⟩ := if_pos (hname k List.mem_cons_self)
  have hequals (key : List Char) : step ⟨marks, text, .key name attributes key⟩ '=' =
      some ⟨marks, text, .equals name attributes key⟩ := rfl
  have hopen (key : List Char) : step ⟨marks, text, .equals name attributes key⟩ '"' =
      some ⟨marks, text, .value name attributes key []⟩ := rfl
  rw [htext, run_cons, hblank, Option.bind_some, run_cons, hfirst, Option.bind_some,
    run_append_of_run (run_key marks text name attributes hks [k]), run_cons, hequals,
    Option.bind_some, run_cons, hopen, Option.bind_some, hk, List.reverse_cons]

theorem run_attribute {a : String × String} (h : IsPlain a) :
    run ⟨marks, text, .inside name attributes⟩ (Element.attributeText a).toList =
      some ⟨marks, text, .inside name (charsOf a :: attributes)⟩ := by
  obtain ⟨hname, hq, ha⟩ := h
  have hkey := run_attributeKey marks text name attributes hname []
  have hclose (key value : List Char) : step ⟨marks, text, .value name attributes key value⟩ '"' =
      some ⟨marks, text, .inside name ((key.reverse, value.reverse) :: attributes)⟩ := rfl
  rw [List.append_nil] at hkey
  rw [hkey, run_append_of_run (run_value marks text name attributes hq ha _ []), run_cons, hclose]
  simp [run_nil, charsOf]

theorem run_attributes {as : List (String × String)} (h : ∀ a ∈ as, IsPlain a) :
    run ⟨marks, text, .inside name attributes⟩ (String.join (as.map Element.attributeText)).toList =
      some ⟨marks, text, .inside name ((as.map charsOf).reverse ++ attributes)⟩ := by
  induction as generalizing attributes with
  | nil => rfl
  | cons a as ih =>
    rw [List.map_cons, String.join_cons, String.toList_append,
      run_append_of_run (run_attribute marks text name attributes (h a List.mem_cons_self)),
      ih _ (List.forall_mem_of_forall_mem_cons h)]
    simp

theorem run_openingName {name : String} (as : List (String × String)) {c : Char} (cs : List Char)
    (hname : IsName name) (hc : isNameChar c = false) :
    run ⟨marks, text, .text⟩ ((Element.opening name as).toList ++ c :: cs) =
      run ⟨marks, text, .inside name.toList []⟩
        ((String.join (as.map Element.attributeText)).toList ++ c :: cs) := by
  obtain ⟨hne, hchars⟩ := hname
  obtain ⟨k, ks, hk⟩ := List.exists_cons_of_ne_nil hne
  rw [hk] at hchars
  have hks : ∀ c ∈ ks, isNameChar c = true := List.forall_mem_of_forall_mem_cons hchars
  have htext : (Element.opening name as).toList ++ c :: cs =
      '<' :: k :: (ks ++ ((String.join (as.map Element.attributeText)).toList ++ c :: cs)) := by
    simp [Element.opening, hk]
  have hangle : step ⟨marks, text, .text⟩ '<' = some ⟨marks, text, .angle⟩ := rfl
  have hfirst : step ⟨marks, text, .angle⟩ k = some ⟨marks, text, .name [k]⟩ := by
    have hk := hchars k List.mem_cons_self
    have hquestion : k ≠ '?' := by
      rintro rfl
      exact absurd hk (by decide)
    have hslash : k ≠ '/' := by
      rintro rfl
      exact absurd hk (by decide)
    simp only [step, if_neg hquestion, if_neg hslash, if_pos hk, goTo]
  -- What follows the name is no part of it, be it an attribute or not.
  have hafter (d : Char) (ds : List Char) (hd : isNameChar d = false) :
      run ⟨marks, text, .name (ks.reverse ++ [k])⟩ (d :: ds) =
        run ⟨marks, text, .inside name.toList []⟩ (d :: ds) := by
    have hsame : step ⟨marks, text, .name (ks.reverse ++ [k])⟩ d =
        step ⟨marks, text, .inside name.toList []⟩ d := by
      simp [step, hd, hk, stepInside, goTo, close]
    rw [run_cons, run_cons, hsame]
  rw [htext, run_cons, hangle, Option.bind_some, run_cons, hfirst, Option.bind_some,
    run_append_of_run (run_name marks text hks [k])]
  cases as with
  | nil => exact hafter c cs hc
  | cons a as =>
    have hblank : (String.join ((a :: as).map Element.attributeText)).toList ++ c :: cs =
        ' ' :: (a.1.toList ++ '=' :: '"' :: (a.2.toList ++ '"' ::
          ((String.join (as.map Element.attributeText)).toList ++ c :: cs))) := by
      simp [Element.attributeText]
    rw [hblank]
    exact hafter ' ' _ (by decide)

theorem run_opening {name : String} {as : List (String × String)} {c : Char} (cs : List Char)
    (hname : IsName name) (has : ∀ a ∈ as, IsPlain a) (hc : isNameChar c = false) :
    run ⟨marks, text, .text⟩ ((Element.opening name as).toList ++ c :: cs) =
      run ⟨marks, text, .inside name.toList (as.map charsOf).reverse⟩ (c :: cs) := by
  rw [run_openingName marks text as cs hname hc,
    run_append_of_run (run_attributes marks text name.toList [] has), List.append_nil]

/-- The scan after a tag: the text before it goes with it. -/
theorem run_openingTag {n : String} {as : List (String × String)} (hn : IsName n)
    (has : ∀ a ∈ as, IsPlain a) :
    run ⟨marks, text, .text⟩ ((Element.opening n as).toList ++ ['>']) =
      some ⟨⟨text.reverse, .opening n.toList (as.map charsOf)⟩ :: marks, [], .text⟩ := by
  rw [run_opening marks text [] hn has (by decide)]
  simp [run_cons, run_nil, step, stepInside, close]

theorem run_emptyTag {n : String} {as : List (String × String)} (hn : IsName n)
    (has : ∀ a ∈ as, IsPlain a) :
    run ⟨marks, text, .text⟩ ((Element.opening n as).toList ++ [' ', '/', '>']) =
      some ⟨⟨text.reverse, .empty n.toList (as.map charsOf)⟩ :: marks, [], .text⟩ := by
  have hslash : isNameChar '/' = false := by decide
  rw [run_opening marks text ['/', '>'] hn has (by decide)]
  simp [run_cons, run_nil, step, stepInside, close, goTo, hslash]

theorem run_closingTag {n : String} (hn : IsName n) :
    run ⟨marks, text, .text⟩ (Element.closing n).toList =
      some ⟨⟨text.reverse, .closing n.toList⟩ :: marks, [], .text⟩ := by
  have htext : (Element.closing n).toList = '<' :: '/' :: (n.toList ++ ['>']) := by
    simp [Element.closing]
  have hangle : step ⟨marks, text, .text⟩ '<' = some ⟨marks, text, .angle⟩ := rfl
  have hslash : step ⟨marks, text, .angle⟩ '/' = some ⟨marks, text, .closing []⟩ := rfl
  have hclose : step ⟨marks, text, .closing n.toList.reverse⟩ '>' =
      some ⟨⟨text.reverse, .closing n.toList⟩ :: marks, [], .text⟩ := by
    have hend : isNameChar '>' = false := by decide
    simp [step, hend, hn.1, close]
  rw [htext, run_cons, hangle, Option.bind_some, run_cons, hslash, Option.bind_some,
    run_append_of_run (run_closing marks text hn.2 []), List.append_nil, run_cons, hclose]
  rfl

end Scan

/-! ## Elements and documents -/

/-- Names are names and attribute values are plain, throughout. -/
inductive Readable : Element → Prop
  | empty {name : String} {attributes : List (String × String)} :
      IsName name → (∀ a ∈ attributes, IsPlain a) → Readable (.empty name attributes)
  | text {name : String} {attributes : List (String × String)} (body : String) :
      IsName name → (∀ a ∈ attributes, IsPlain a) →
        Readable (.text name attributes body)
  | group {name : String} {attributes : List (String × String)} {children : List Element} :
      IsName name → (∀ a ∈ attributes, IsPlain a) → (∀ e ∈ children, Readable e) →
        Readable (.group name attributes children)

mutual

/-- The tags of an element on its lines; `text` is what stands before its first line. -/
def marks (depth : ℕ) (text : List Char) : Element → List Mark
  | .empty name attributes =>
    [⟨text ++ (Element.indent depth).toList, .empty name.toList (attributes.map charsOf)⟩]
  | .text name attributes body =>
    [⟨text ++ (Element.indent depth).toList, .opening name.toList (attributes.map charsOf)⟩,
      ⟨(Element.escape body).toList, .closing name.toList⟩]
  | .group name attributes children =>
    ⟨text ++ (Element.indent depth).toList,
        .opening name.toList (attributes.map charsOf)⟩ ::
      childMarks (depth + 1) children ++
        [⟨'\n' :: (Element.indent depth).toList, .closing name.toList⟩]

def childMarks (depth : ℕ) : List Element → List Mark
  | [] => []
  | e :: es => marks depth ['\n'] e ++ childMarks depth es

end

theorem not_mem_escape (s : String) : '<' ∉ (Element.escape s).toList := by
  simp only [Element.escape, String.toList_ofList, List.mem_flatMap, not_exists, not_and]
  intro c _ h
  revert h
  unfold Element.escapeChar
  split <;> simp_all [eq_comm]

theorem not_mem_indent (depth : ℕ) : '<' ∉ (Element.indent depth).toList := by
  simp [Element.indent]

theorem toList_ofLines_append (a b : List String) :
    (Text.ofLines (a ++ b)).toList = (Text.ofLines a).toList ++ (Text.ofLines b).toList := by
  simp [Text.ofLines]

/-- A line of a tag after the text before it. The end of the line is text again. -/
theorem run_line {tag : List Char} {t : Tag} (depth : ℕ) (ms : List Mark) (text rest : List Char)
    (h : ∀ text, Scan.run ⟨ms, text, .text⟩ tag = some ⟨⟨text.reverse, t⟩ :: ms, [], .text⟩) :
    Scan.run ⟨ms, text, .text⟩ ((Element.indent depth).toList ++ (tag ++ '\n' :: rest)) =
      Scan.run ⟨⟨text.reverse ++ (Element.indent depth).toList, t⟩ :: ms, ['\n'], .text⟩ rest := by
  have hend : Scan.step ⟨⟨text.reverse ++ (Element.indent depth).toList, t⟩ :: ms, [], .text⟩ '\n' =
      some ⟨⟨text.reverse ++ (Element.indent depth).toList, t⟩ :: ms, ['\n'], .text⟩ := rfl
  rw [Scan.run_append_of_run (Scan.run_text ms text (not_mem_indent depth)),
    Scan.run_append_of_run (h _), List.reverse_append, List.reverse_reverse, Scan.run_cons, hend,
    Option.bind_some]

theorem run_childLines {es : List Element} (depth : ℕ) (ms : List Mark)
    (h : ∀ e ∈ es, ∀ (depth : ℕ) (ms : List Mark) (text : List Char),
      Scan.run ⟨ms, text, .text⟩ (Text.ofLines (e.lines depth)).toList =
        some ⟨(marks depth text.reverse e).reverse ++ ms, ['\n'], .text⟩) :
    Scan.run ⟨ms, ['\n'], .text⟩ (Text.ofLines (Element.childLines depth es)).toList =
      some ⟨(childMarks depth es).reverse ++ ms, ['\n'], .text⟩ := by
  induction es generalizing ms with
  | nil => rfl
  | cons e es ih =>
    rw [Element.childLines, toList_ofLines_append,
      Scan.run_append_of_run (h e List.mem_cons_self depth ms ['\n']),
      ih _ (List.forall_mem_of_forall_mem_cons h), childMarks, List.reverse_append,
      List.append_assoc]
    rfl

theorem run_lines {e : Element} (h : Readable e) (depth : ℕ) (ms : List Mark) (text : List Char) :
    Scan.run ⟨ms, text, .text⟩ (Text.ofLines (e.lines depth)).toList =
      some ⟨(marks depth text.reverse e).reverse ++ ms, ['\n'], .text⟩ := by
  induction h generalizing depth ms text with
  | @empty name attributes hn has =>
    have htext : (Text.ofLines ((Element.empty name attributes).lines depth)).toList =
        (Element.indent depth).toList ++
          (((Element.opening name attributes).toList ++ [' ', '/', '>']) ++ '\n' :: []) := by
      simp [Element.lines, Text.ofLines]
    rw [htext, run_line depth ms text [] fun text => Scan.run_emptyTag ms text hn has]
    simp [Scan.run_nil, marks]
  | @text name attributes body hn has =>
    have htext : (Text.ofLines ((Element.text name attributes body).lines depth)).toList =
        (Element.indent depth).toList ++ (((Element.opening name attributes).toList ++ ['>']) ++
          ((Element.escape body).toList ++ ((Element.closing name).toList ++ ['\n']))) := by
      simp [Element.lines, Text.ofLines]
    rw [htext, Scan.run_append_of_run (Scan.run_text ms text (not_mem_indent depth)),
      Scan.run_append_of_run (Scan.run_openingTag ms _ hn has),
      Scan.run_append_of_run (Scan.run_text _ [] (not_mem_escape body)),
      Scan.run_append_of_run (Scan.run_closingTag _ _ hn), Scan.run_text _ _ (by decide)]
    simp [marks]
  | @group name attributes children hn has _ ih =>
    have htext : (Text.ofLines ((Element.group name attributes children).lines depth)).toList =
        (Element.indent depth).toList ++ (((Element.opening name attributes).toList ++ ['>']) ++
          '\n' :: ((Text.ofLines (Element.childLines (depth + 1) children)).toList ++
            ((Element.indent depth).toList ++ ((Element.closing name).toList ++ '\n' :: [])))) := by
      simp [Element.lines, Text.ofLines]
    rw [htext, run_line depth ms text _ fun text => Scan.run_openingTag ms text hn has,
      Scan.run_append_of_run (run_childLines (depth + 1) _ ih),
      run_line depth _ _ [] fun text => Scan.run_closingTag _ text hn]
    simp [Scan.run_nil, marks]

theorem run_document (e : Element) :
    Scan.start.run e.document.toList =
      Scan.run ⟨[⟨[], .declaration "xml version=\"1.0\" encoding=\"UTF-8\"".toList⟩], ['\n'], .text⟩
        (Text.ofLines (e.lines 0)).toList := by
  have htext : (Text.ofLines ("<?xml version=\"1.0\" encoding=\"UTF-8\"?>" :: e.lines 0)).toList =
      ("<?xml version=\"1.0\" encoding=\"UTF-8\"?>".toList ++ ['\n']) ++
        (Text.ofLines (e.lines 0)).toList := by
    simp [Text.ofLines]
  have hfront : Scan.start.run ("<?xml version=\"1.0\" encoding=\"UTF-8\"?>".toList ++ ['\n']) =
      some ⟨[⟨[], .declaration "xml version=\"1.0\" encoding=\"UTF-8\"".toList⟩], ['\n'],
        .text⟩ := by
    decide +kernel
  rw [Element.document, htext, Scan.run_append_of_run hfront]

/-- A document reads back as its declaration and the tags of its element. -/
theorem read_document {e : Element} (h : Readable e) :
    read e.document =
      some (⟨[], .declaration "xml version=\"1.0\" encoding=\"UTF-8\"".toList⟩ ::
        marks 0 ['\n'] e) := by
  rw [read, run_document, run_lines h]
  simp

end Markup
end BracketTurtle
