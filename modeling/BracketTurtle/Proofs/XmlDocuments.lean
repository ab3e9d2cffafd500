import BracketTurtle.Proofs.XmlReading
import Mathlib

/-!
# Documents as XML

Which elements are read back from their document. Texts are escaped and need nothing but characters
that XML has; values are written as they are and must not hold what markup gives a meaning. The
converse holds as well: a value with a quote ends too early, one with an angle bracket is no value,
and one with a reference comes out shorter than it went in.
-/

namespace BracketTurtle
namespace Xml

open Markup

def IsXmlName (s : String) : Prop := IsName s ∧ startsName s.toList = true

def AllChars (cs : List Char) : Prop := ∀ c ∈ cs, isChar c = true

def IsText (s : String) : Prop := AllChars s.toList

/-- A value in quotes that is read as it is written. -/
def IsExact (s : String) : Prop :=
  '"' ∉ s.toList ∧ '<' ∉ s.toList ∧ value? s.toList = some s.toList

/-- A text that may stand in quotes as it is: no quote, no angle bracket, no reference, and no blank
but the plain one. -/
def IsVerbatim (s : String) : Prop :=
  ∀ c ∈ s.toList, isChar c = true ∧ c ∉ ['"', '<', '&', '\t', '\n']

instance (s : String) : Decidable (IsXmlName s) := inferInstanceAs (Decidable (_ ∧ _))

instance (cs : List Char) : Decidable (AllChars cs) :=
  decidable_of_iff (cs.all isChar = true) List.all_eq_true

instance (s : String) : Decidable (IsText s) := inferInstanceAs (Decidable (AllChars _))

instance (s : String) : Decidable (IsVerbatim s) :=
  List.decidableBAll (fun c => isChar c = true ∧ c ∉ ['"', '<', '&', '\t', '\n']) s.toList

theorem isVerbatim_iff {s : String} : IsVerbatim s ↔ IsText s ∧ IsExact s := by
  rw [IsExact, value?_eq_self_iff]
  constructor
  · intro h
    have hfree {d : Char} (hd : d ∈ ['"', '<', '&', '\t', '\n']) : d ∉ s.toList :=
      fun hmem => (h d hmem).2 hd
    refine ⟨fun c hc => (h c hc).1, hfree (by decide), hfree (by decide), hfree (by decide), ?_⟩
    intro c hc
    exact ⟨ne_of_mem_of_not_mem hc (hfree (by decide)), ne_of_mem_of_not_mem hc (hfree (by decide))⟩
  · rintro ⟨htext, hquote, hangle, hamp, hblank⟩ c hc
    refine ⟨htext c hc, ?_⟩
    simp only [List.mem_cons, List.not_mem_nil, or_false, not_or]
    exact ⟨ne_of_mem_of_not_mem hc hquote, ne_of_mem_of_not_mem hc hangle,
      ne_of_mem_of_not_mem hc hamp, hblank c hc⟩

theorem IsVerbatim.isText {s : String} (h : IsVerbatim s) : IsText s := fun c hc => (h c hc).1

theorem IsVerbatim.append {s t : String} (hs : IsVerbatim s) (ht : IsVerbatim t) :
    IsVerbatim (s ++ t) := by
  intro c hc
  rw [String.toList_append] at hc
  exact (List.mem_append.mp hc).elim (hs c) (ht c)

theorem IsVerbatim.intercalate {sep : String} {texts : List String} (hsep : IsVerbatim sep)
    (h : ∀ s ∈ texts, IsVerbatim s) : IsVerbatim (sep.intercalate texts) := by
  rw [IsVerbatim, String.toList_intercalate]
  refine forall_mem_intercalate hsep ?_
  intro l hl
  obtain ⟨s, hs, rfl⟩ := List.mem_map.mp hl
  exact h s hs

/-- The name, the keys and the values of a tag. -/
structure IsTag (value : String × String → Prop) (name : String)
    (attributes : List (String × String)) : Prop where
  name : IsXmlName name
  keys : ∀ a ∈ attributes, IsXmlName a.1
  distinct : (attributes.map Prod.fst).Nodup
  values : ∀ a ∈ attributes, value a

/-- Names are names, the keys of a tag differ, values fulfil `value` and texts `body`. -/
inductive WellMade (value : String → String × String → Prop) (body : String → Prop) :
    Element → Prop
  | empty {name : String} {attributes : List (String × String)} :
      IsTag (value name) name attributes → WellMade value body (.empty name attributes)
  | text {name : String} {attributes : List (String × String)} {s : String} :
      IsTag (value name) name attributes → body s →
        WellMade value body (.text name attributes s)
  | group {name : String} {attributes : List (String × String)} {children : List Element} :
      IsTag (value name) name attributes → (∀ e ∈ children, WellMade value body e) →
        WellMade value body (.group name attributes children)

section

variable {value value' : String → String × String → Prop} {body body' : String → Prop}

theorem IsTag.with_values {value value' : String × String → Prop} {name : String}
    {attributes : List (String × String)} (h : IsTag value name attributes)
    (hvalues : ∀ a ∈ attributes, value' a) : IsTag value' name attributes :=
  ⟨h.name, h.keys, h.distinct, hvalues⟩

theorem wellMade_empty_iff {name : String} {as : List (String × String)} :
    WellMade value body (.empty name as) ↔ IsTag (value name) name as := by
  constructor
  · rintro (h | _ | _)
    exact h
  · exact .empty

theorem wellMade_text_iff {name s : String} {as : List (String × String)} :
    WellMade value body (.text name as s) ↔ IsTag (value name) name as ∧ body s := by
  constructor
  · rintro (_ | ⟨h, hs⟩ | _)
    exact ⟨h, hs⟩
  · rintro ⟨h, hs⟩
    exact .text h hs

theorem wellMade_group_iff {name : String} {as : List (String × String)}
    {children : List Element} :
    WellMade value body (.group name as children) ↔
      IsTag (value name) name as ∧ ∀ e ∈ children, WellMade value body e := by
  constructor
  · rintro (_ | _ | ⟨h, hchildren⟩)
    exact ⟨h, hchildren⟩
  · rintro ⟨h, hchildren⟩
    exact .group h hchildren

theorem WellMade.mono {e : Element} (hvalue : ∀ name a, value name a → value' name a)
    (hbody : ∀ s, body s → body' s) (h : WellMade value body e) : WellMade value' body' e := by
  induction h with
  | empty h => exact .empty (h.with_values fun a ha => hvalue _ a (h.values a ha))
  | text h hs => exact .text (h.with_values fun a ha => hvalue _ a (h.values a ha)) (hbody _ hs)
  | group h _ ih => exact .group (h.with_values fun a ha => hvalue _ a (h.values a ha)) ih

theorem WellMade.and {e : Element} (h : WellMade value body e) (h' : WellMade value' body' e) :
    WellMade (fun name a => value name a ∧ value' name a) (fun s => body s ∧ body' s) e := by
  induction h with
  | empty h =>
    cases h' with
    | empty h' => exact .empty (h.with_values fun a ha => ⟨h.values a ha, h'.values a ha⟩)
  | text h hs =>
    cases h' with
    | text h' hs' =>
      exact .text (h.with_values fun a ha => ⟨h.values a ha, h'.values a ha⟩) ⟨hs, hs'⟩
  | group h _ ih =>
    cases h' with
    | group h' hchildren =>
      exact .group (h.with_values fun a ha => ⟨h.values a ha, h'.values a ha⟩)
        fun e he => ih e he (hchildren e he)

theorem WellMade.readable {e : Element} (hvalue : ∀ name a, value name a → IsExact a.2)
    (h : WellMade value body e) : Readable e := by
  have hplain {name : String} {attributes : List (String × String)}
      (h : IsTag (value name) name attributes) : ∀ a ∈ attributes, IsPlain a := by
    intro a ha
    obtain ⟨hquote, hangle, _⟩ := hvalue _ a (h.values a ha)
    exact ⟨(h.keys a ha).1, hquote, hangle⟩
  induction h with
  | empty h => exact .empty h.name.1 (hplain h)
  | text h _ => exact .text _ h.name.1 (hplain h)
  | group h _ ih => exact .group h.name.1 (hplain h) ih

end

/-! ## What is read -/

mutual

/-- The tags of an element as they are meant: texts are not escaped. -/
def contents (depth : ℕ) (text : List Char) : Element → List Mark
  | .empty name attributes =>
    [⟨text ++ (Element.indent depth).toList, .empty name.toList (attributes.map charsOf)⟩]
  | .text name attributes body =>
    [⟨text ++ (Element.indent depth).toList, .opening name.toList (attributes.map charsOf)⟩,
      ⟨body.toList, .closing name.toList⟩]
  | .group name attributes children =>
    ⟨text ++ (Element.indent depth).toList,
        .opening name.toList (attributes.map charsOf)⟩ ::
      childContents (depth + 1) children ++
        [⟨'\n' :: (Element.indent depth).toList, .closing name.toList⟩]

def childContents (depth : ℕ) : List Element → List Mark
  | [] => []
  | e :: es => contents depth ['\n'] e ++ childContents depth es

end

theorem childContents_append (depth : ℕ) (es fs : List Element) :
    childContents depth (es ++ fs) = childContents depth es ++ childContents depth fs := by
  induction es with
  | nil => rfl
  | cons e es ih => rw [List.cons_append, childContents, childContents, ih, List.append_assoc]

theorem map_tag_childContents {es : List Element} (depth : ℕ)
    (h : ∀ e ∈ es, ∀ (depth : ℕ) (text : List Char),
      (contents depth text e).map Mark.tag = (marks depth text e).map Mark.tag) :
    (childContents depth es).map Mark.tag = (childMarks depth es).map Mark.tag := by
  induction es with
  | nil => rfl
  | cons e es ih =>
    rw [childContents, childMarks, List.map_append, List.map_append, h e List.mem_cons_self,
      ih (List.forall_mem_of_forall_mem_cons h)]

theorem map_tag_contents {value : String → String × String → Prop} {body : String → Prop}
    {e : Element} (h : WellMade value body e) (depth : ℕ) (text : List Char) :
    (contents depth text e).map Mark.tag = (marks depth text e).map Mark.tag := by
  induction h generalizing depth text with
  | empty _ => rfl
  | text _ _ => rfl
  | group _ _ ih =>
    have hchildren := map_tag_childContents (depth + 1) fun e he depth text => ih e he depth text
    simp only [contents, marks, List.cons_append, List.map_cons, List.map_append, List.map_nil,
      hchildren]

def IsBlank (cs : List Char) : Prop := ∀ c ∈ cs, c.isWhitespace = true

theorem IsBlank.append_indent {cs : List Char} (h : IsBlank cs) (depth : ℕ) :
    IsBlank (cs ++ (Element.indent depth).toList) := by
  intro c hc
  rcases List.mem_append.mp hc with hc | hc
  · exact h c hc
  · rw [Element.indent, String.toList_ofList] at hc
    rw [List.eq_of_mem_replicate hc]
    rfl

theorem isBlank_lineEnd : IsBlank ['\n'] := by
  intro c hc
  rw [List.mem_singleton.mp hc]
  rfl

theorem mark?_of_blank {text : List Char} {t t' : Tag} (htext : IsBlank text)
    (ht : tag? t = some t') : mark? ⟨text, t⟩ = some ⟨text, t'⟩ := by
  simp only [mark?, content?_of_blank htext, ht]
  rfl

theorem attributes?_charsOf {as : List (String × String)} {name : String}
    (h : IsTag (fun a => IsExact a.2) name as) :
    attributes? (as.map charsOf) = some (as.map charsOf) := by
  have hkeys : ((as.map charsOf).map Prod.fst).Nodup := by
    have hfst : (as.map charsOf).map Prod.fst = (as.map Prod.fst).map String.toList := by
      simp only [List.map_map]
      rfl
    rw [hfst]
    exact h.distinct.map fun _ _ => String.toList_inj.mp
  have hread : ∀ a ∈ as, attribute? (charsOf a) = some (charsOf a) := by
    intro a ha
    have hvalue : value? a.2.toList = some a.2.toList := (h.values a ha).2.2
    rw [attribute?, charsOf, if_pos (h.keys a ha).2, hvalue]
    rfl
  rw [attributes?, if_pos hkeys]
  exact mapM_map_eq_some hread

theorem opening_charsOf {as : List (String × String)} {name : String}
    (h : IsTag (fun a => IsExact a.2) name as) :
    tag? (.opening name.toList (as.map charsOf)) =
      some (.opening name.toList (as.map charsOf)) := by
  rw [tag?, if_pos h.name.2, attributes?_charsOf h]
  rfl

theorem empty_charsOf {as : List (String × String)} {name : String}
    (h : IsTag (fun a => IsExact a.2) name as) :
    tag? (.empty name.toList (as.map charsOf)) =
      some (.empty name.toList (as.map charsOf)) := by
  rw [tag?, if_pos h.name.2, attributes?_charsOf h]
  rfl

theorem mapM_childMarks {es : List Element} (depth : ℕ)
    (h : ∀ e ∈ es, ∀ (depth : ℕ) (text : List Char), IsBlank text →
      (marks depth text e).mapM mark? = some (contents depth text e)) :
    (childMarks depth es).mapM mark? = some (childContents depth es) := by
  induction es with
  | nil => rfl
  | cons e es ih =>
    have he := h e List.mem_cons_self depth ['\n'] isBlank_lineEnd
    have hes := ih (List.forall_mem_of_forall_mem_cons h)
    rw [childMarks, childContents, List.mapM_append, he, hes]
    rfl

/-- The tags of an element are read as they are meant when its values are exact. -/
theorem mapM_marks {body : String → Prop} {e : Element}
    (h : WellMade (fun _ a => IsExact a.2) body e) (depth : ℕ) {text : List Char}
    (htext : IsBlank text) : (marks depth text e).mapM mark? = some (contents depth text e) := by
  induction h generalizing depth text with
  | @empty name as h =>
    have htag := mark?_of_blank (htext.append_indent depth) (empty_charsOf h)
    simp only [marks, contents, List.mapM_cons, List.mapM_nil, htag]
    rfl
  | @text name as s h _ =>
    have hopening := mark?_of_blank (htext.append_indent depth) (opening_charsOf h)
    have hclosing : mark? ⟨(Element.escape s).toList, .closing name.toList⟩ =
        some ⟨s.toList, .closing name.toList⟩ := by
      simp only [mark?, content?_escape]
      rfl
    simp only [marks, contents, List.mapM_cons, List.mapM_nil, hopening, hclosing]
    rfl
  | @group name as children h _ ih =>
    have hopening := mark?_of_blank (htext.append_indent depth) (opening_charsOf h)
    have hclosing := mark?_of_blank (isBlank_lineEnd.append_indent depth)
      (rfl : tag? (.closing name.toList) = some (.closing name.toList))
    have hchildren := mapM_childMarks (depth + 1) fun e he depth text => ih e he depth
    rw [List.singleton_append] at hclosing
    simp only [marks, contents, List.cons_append, List.mapM_cons, List.mapM_append, List.mapM_nil,
      hopening, hclosing, hchildren]
    rfl

/-! ## The tree -/

theorem foldlM_childMarks {es : List Element} (depth : ℕ) (opened : List (List Char))
    (h : ∀ e ∈ es, ∀ (depth : ℕ) (text : List Char),
      ((marks depth text e).map Mark.tag).foldlM openAfter opened = some opened) :
    ((childMarks depth es).map Mark.tag).foldlM openAfter opened = some opened := by
  induction es with
  | nil => rfl
  | cons e es ih =>
    rw [childMarks, List.map_append, List.foldlM_append, h e List.mem_cons_self]
    exact ih (List.forall_mem_of_forall_mem_cons h)

theorem foldlM_marks {value : String → String × String → Prop} {body : String → Prop} {e : Element}
    (h : WellMade value body e) (depth : ℕ) (text : List Char) (name : List Char)
    (opened : List (List Char)) :
    ((marks depth text e).map Mark.tag).foldlM openAfter (name :: opened) =
      some (name :: opened) := by
  induction h generalizing depth text name opened with
  | empty _ => rfl
  | text _ _ => simp [marks, openAfter]
  | @group name' _ children _ _ ih =>
    have hchildren := foldlM_childMarks (depth + 1) (name'.toList :: name :: opened)
      fun e he depth text => ih e he depth text _ _
    simp only [marks, List.cons_append, List.map_cons, List.map_append, List.foldlM_cons,
      List.foldlM_append, openAfter, Option.bind_eq_bind, Option.bind_some, hchildren]
    simp

theorem isTree_marks {value : String → String × String → Prop} {body : String → Prop} {e : Element}
    (h : WellMade value body e) (depth : ℕ) (text : List Char) :
    isTree (marks depth text e) = true := by
  cases h with
  | empty _ => rfl
  | text _ _ => simp [marks, isTree, openAfter]
  | @group name _ children _ hchildren =>
    have hfold := foldlM_childMarks (depth + 1) [name.toList]
      fun e he depth text => foldlM_marks (hchildren e he) depth text _ _
    simp [marks, isTree, hfold, openAfter]

/-! ## Characters -/

theorem isChar_of_isNameChar {c : Char} (h : isNameChar c = true) : isChar c = true := by
  have hrange : 0x20 ≤ c.toNat ∧ c.toNat < 0x80 := by
    simp only [isNameChar, Char.isAlphanum, Char.isAlpha, Char.isUpper, Char.isLower, Char.isDigit,
      Bool.or_eq_true, Bool.and_eq_true, decide_eq_true_eq, UInt32.le_iff_toNat_le] at h
    rcases h with ((((((h | h) | h) | rfl) | rfl) | rfl) | rfl)
    · exact ⟨le_trans (by decide) h.1, lt_of_le_of_lt h.2 (by decide)⟩
    · exact ⟨le_trans (by decide) h.1, lt_of_le_of_lt h.2 (by decide)⟩
    · exact ⟨le_trans (by decide) h.1, lt_of_le_of_lt h.2 (by decide)⟩
    · decide
    · decide
    · decide
    · decide
  have hlow : c.toNat ≠ 0xfffe ∧ c.toNat ≠ 0xffff := by omega
  simp [isChar, hrange.1, hlow.1, hlow.2]

theorem allChars_nil : AllChars [] := List.forall_mem_nil _

theorem allChars_append {cs ds : List Char} : AllChars (cs ++ ds) ↔ AllChars cs ∧ AllChars ds :=
  List.forall_mem_append

theorem allChars_cons {c : Char} {cs : List Char} :
    AllChars (c :: cs) ↔ isChar c = true ∧ AllChars cs :=
  List.forall_mem_cons

theorem allChars_name {s : String} (h : IsXmlName s) : AllChars s.toList :=
  fun c hc => isChar_of_isNameChar (h.1.2 c hc)

theorem allChars_indent (depth : ℕ) : AllChars (Element.indent depth).toList := by
  intro c hc
  rw [Element.indent, String.toList_ofList] at hc
  rw [List.eq_of_mem_replicate hc]
  rfl

theorem allChars_escape {s : String} : AllChars (Element.escape s).toList ↔ IsText s := by
  have hchar (c : Char) : AllChars (Element.escapeChar c) ↔ isChar c = true := by
    unfold Element.escapeChar
    split
    · exact iff_of_true (by decide) (by decide)
    · exact iff_of_true (by decide) (by decide)
    · exact iff_of_true (by decide) (by decide)
    · exact allChars_cons.trans (and_iff_left allChars_nil)
  rw [Element.escape, String.toList_ofList]
  constructor
  · intro h c hc
    exact (hchar c).mp fun d hd => h d (List.mem_flatMap.mpr ⟨c, hc, hd⟩)
  · intro h d hd
    obtain ⟨c, hc, hd⟩ := List.mem_flatMap.mp hd
    exact (hchar c).mpr (h c hc) d hd

theorem allChars_attribute {a : String × String} (h : IsXmlName a.1) :
    AllChars (Element.attributeText a).toList ↔ IsText a.2 := by
  have hkey := allChars_name h
  have hquote : isChar '"' = true := by decide
  have hequals : isChar '=' = true := by decide
  have hblank : isChar ' ' = true := by decide
  have htext : (Element.attributeText a).toList =
      ' ' :: (a.1.toList ++ '=' :: '"' :: (a.2.toList ++ ['"'])) := by
    simp [Element.attributeText]
  rw [htext, IsText]
  simp only [allChars_cons, allChars_append, hblank, hkey, hequals, hquote, allChars_nil, true_and,
    and_true]

theorem allChars_attributes {as : List (String × String)} (h : ∀ a ∈ as, IsXmlName a.1) :
    AllChars (String.join (as.map Element.attributeText)).toList ↔ ∀ a ∈ as, IsText a.2 := by
  induction as with
  | nil => exact iff_of_true allChars_nil (List.forall_mem_nil _)
  | cons a as ih =>
    rw [List.map_cons, String.join_cons, String.toList_append, allChars_append,
      List.forall_mem_cons]
    exact and_congr (allChars_attribute (h a List.mem_cons_self))
      (ih (List.forall_mem_of_forall_mem_cons h))

theorem allChars_opening {value : String × String → Prop} {name : String}
    {as : List (String × String)} (h : IsTag value name as) :
    AllChars (Element.opening name as).toList ↔ IsTag (fun a => IsText a.2) name as := by
  have htext : (Element.opening name as).toList =
      '<' :: (name.toList ++ (String.join (as.map Element.attributeText)).toList) := by
    simp [Element.opening]
  rw [htext, allChars_cons, allChars_append, and_iff_right (by decide : isChar '<' = true),
    and_iff_right (allChars_name h.name), allChars_attributes h.keys]
  exact ⟨h.with_values, IsTag.values⟩

theorem allChars_closing {name : String} (h : IsXmlName name) :
    AllChars (Element.closing name).toList := by
  have htext : (Element.closing name).toList = "</".toList ++ (name.toList ++ ">".toList) := by
    simp [Element.closing]
  rw [htext]
  exact allChars_append.mpr ⟨by decide, allChars_append.mpr ⟨allChars_name h, by decide⟩⟩

theorem allChars_childLines {es : List Element} (depth : ℕ)
    (h : ∀ e ∈ es, ∀ depth : ℕ, AllChars (Text.ofLines (e.lines depth)).toList ↔
      WellMade (fun _ a => IsText a.2) IsText e) :
    AllChars (Text.ofLines (Element.childLines depth es)).toList ↔
      ∀ e ∈ es, WellMade (fun _ a => IsText a.2) IsText e := by
  induction es with
  | nil => exact iff_of_true allChars_nil (List.forall_mem_nil _)
  | cons e es ih =>
    rw [Element.childLines, toList_ofLines_append, allChars_append, List.forall_mem_cons]
    exact and_congr (h e List.mem_cons_self depth) (ih (List.forall_mem_of_forall_mem_cons h))

theorem allChars_lines {value : String → String × String → Prop} {body : String → Prop}
    {e : Element} (h : WellMade value body e) (depth : ℕ) :
    AllChars (Text.ofLines (e.lines depth)).toList ↔
      WellMade (fun _ a => IsText a.2) IsText e := by
  induction h generalizing depth with
  | @empty name as h =>
    have htext : (Text.ofLines ((Element.empty name as).lines depth)).toList =
        (Element.indent depth).toList ++ ((Element.opening name as).toList ++ " />\n".toList) := by
      simp [Element.lines, Text.ofLines]
    have hchars : AllChars (Text.ofLines ((Element.empty name as).lines depth)).toList ↔
        IsTag (fun a => IsText a.2) name as := by
      have hend : AllChars " />\n".toList := by decide
      simp only [htext, allChars_append, allChars_indent, allChars_opening h, hend, true_and,
        and_true]
    rw [hchars, wellMade_empty_iff]
  | @text name as s h _ =>
    have htext : (Text.ofLines ((Element.text name as s).lines depth)).toList =
        (Element.indent depth).toList ++ ((Element.opening name as).toList ++ (">".toList ++
          ((Element.escape s).toList ++ ((Element.closing name).toList ++ "\n".toList)))) := by
      simp [Element.lines, Text.ofLines]
    have hchars : AllChars (Text.ofLines ((Element.text name as s).lines depth)).toList ↔
        IsTag (fun a => IsText a.2) name as ∧ IsText s := by
      have hopened : AllChars ">".toList := by decide
      have hend : AllChars "\n".toList := by decide
      simp only [htext, allChars_append, allChars_indent, allChars_opening h, allChars_escape,
        allChars_closing h.name, hopened, hend, true_and, and_true]
    rw [hchars, wellMade_text_iff]
  | @group name as children h _ ih =>
    have htext : (Text.ofLines ((Element.group name as children).lines depth)).toList =
        (Element.indent depth).toList ++ ((Element.opening name as).toList ++ (">\n".toList ++
          ((Text.ofLines (Element.childLines (depth + 1) children)).toList ++
            ((Element.indent depth).toList ++
              ((Element.closing name).toList ++ "\n".toList))))) := by
      simp [Element.lines, Text.ofLines]
    have hchildren := allChars_childLines (depth + 1) fun e he depth => ih e he depth
    have hchars : AllChars (Text.ofLines ((Element.group name as children).lines depth)).toList ↔
        IsTag (fun a => IsText a.2) name as ∧
          ∀ e ∈ children, WellMade (fun _ a => IsText a.2) IsText e := by
      have hopened : AllChars ">\n".toList := by decide
      have hend : AllChars "\n".toList := by decide
      simp only [htext, allChars_append, allChars_indent, allChars_opening h, hchildren,
        allChars_closing h.name, hopened, hend, true_and, and_true]
    rw [hchars, wellMade_group_iff]

theorem allChars_document {value : String → String × String → Prop} {body : String → Prop}
    {e : Element} (h : WellMade value body e) :
    AllChars e.document.toList ↔ WellMade (fun _ a => IsText a.2) IsText e := by
  have htext : e.document.toList = "<?xml version=\"1.0\" encoding=\"UTF-8\"?>\n".toList ++
      (Text.ofLines (e.lines 0)).toList := by
    simp [Element.document, Text.ofLines]
  rw [htext, allChars_append, allChars_lines h]
  exact and_iff_right (by decide)

/-! ## Reading a document -/

theorem exists_marks_eq_cons (depth : ℕ) (text : List Char) (e : Element) :
    ∃ t ms, marks depth text e = ⟨text ++ (Element.indent depth).toList, t⟩ :: ms := by
  cases e with
  | empty name as => exact ⟨_, _, rfl⟩
  | text name as s => exact ⟨_, _, rfl⟩
  | group name as children => exact ⟨_, _, rfl⟩

/-- A document of verbatim values and proper texts is read as it is meant. -/
theorem read_document {e : Element} (h : WellMade (fun _ a => IsVerbatim a.2) IsText e) :
    read e.document = some (contents 0 ['\n'] e) := by
  have hexact : WellMade (fun _ a => IsExact a.2) IsText e :=
    h.mono (fun _ _ hv => (isVerbatim_iff.mp hv).2) fun _ hs => hs
  have hchars : WellMade (fun _ a => IsText a.2) IsText e :=
    h.mono (fun _ _ hv => hv.isText) fun _ hs => hs
  obtain ⟨t, ms, hmarks⟩ := exists_marks_eq_cons 0 ['\n'] e
  have hrun : Scan.start.run e.document.toList =
      some ⟨(declaration :: ⟨['\n'] ++ (Element.indent 0).toList, t⟩ :: ms).reverse, ['\n'],
        .text⟩ := by
    rw [run_document, run_lines (hexact.readable fun _ _ hv => hv), List.reverse_singleton,
      ← List.reverse_cons, hmarks]
    rfl
  have hread := mapM_marks hexact 0 isBlank_lineEnd
  have htree := isTree_marks hexact 0 ['\n']
  rw [hmarks] at hread htree
  exact read_eq_some.mpr ⟨(allChars_document h).mpr hchars, _, _, _, hrun,
    List.all_eq_true.mpr (isBlank_lineEnd.append_indent 0), List.all_eq_true.mpr isBlank_lineEnd,
    htree, hread⟩

end Xml
end BracketTurtle
