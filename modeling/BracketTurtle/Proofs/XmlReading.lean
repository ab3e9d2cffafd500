import BracketTurtle.Json.Reader
import BracketTurtle.Proofs.MarkupReading

/-!
# Reading XML

A strict reader of XML 1.0 on top of the tags of a text: it asks for the declaration, one root, tags
that match, proper names, keys that differ within a tag, and characters that XML has; it expands the
references in texts and attribute values and reads a tabulator or a line end in a value as a blank.
Comments, processing instructions, document types and sections of character data are refused, and so
are carriage returns, which XML turns into line feeds. What it accepts is well-formed.
-/

namespace BracketTurtle
namespace Xml

open Markup

/-! ## Characters and references -/

/-- The characters of XML but for the carriage return. -/
def isChar (c : Char) : Bool :=
  c = '\t' || c = '\n' || (0x20 ≤ c.toNat && c.toNat ≠ 0xfffe && c.toNat ≠ 0xffff)

def number? (base : ℕ) : List Char → Option ℕ
  | [] => none
  | digits => digits.foldlM (fun n c => do
      let d ← Json.hexValue? c
      if d < base then some (base * n + d) else none) 0

def character? (n : ℕ) : Option Char :=
  let c := Char.ofNat n
  if isChar c || c = '\r' then some c else none

def entities : List (List Char × Char) :=
  [("lt".toList, '<'), ("gt".toList, '>'), ("amp".toList, '&'), ("quot".toList, '"'),
    ("apos".toList, Char.ofNat 0x27)]

/-- What stands between the ampersand and the semicolon of a reference. -/
def reference? : List Char → Option Char
  | '#' :: 'x' :: digits => (number? 16 digits).bind character?
  | '#' :: digits => (number? 10 digits).bind character?
  | name => entities.lookup name

/-- A text with its references expanded. The name of a reference that is being read is kept latest
first. -/
def expandFrom : Option (List Char) → List Char → Option (List Char)
  | none, [] => some []
  | some _, [] => none
  | none, c :: cs =>
    if c = '&' then expandFrom (some []) cs else (expandFrom none cs).map (c :: ·)
  | some name, c :: cs =>
    if c = ';' then
      (reference? name.reverse).bind fun d => (expandFrom none cs).map (d :: ·)
    else expandFrom (some (c :: name)) cs

def expand (cs : List Char) : Option (List Char) := expandFrom none cs

/-- Text between tags must not look like the end of a section of character data. -/
def content? (cs : List Char) : Option (List Char) :=
  if "]]>".toList <:+: cs then none else expand cs

def blanked (c : Char) : Char := if c = '\t' ∨ c = '\n' then ' ' else c

def value? (cs : List Char) : Option (List Char) := expand (cs.map blanked)

/-! ## Tags -/

def startsName (cs : List Char) : Bool :=
  match cs.head? with
  | some c => c.isAlpha || c = '_' || c = ':'
  | none => false

def attribute? (a : List Char × List Char) : Option (List Char × List Char) :=
  if startsName a.1 then (value? a.2).map fun value => (a.1, value) else none

def attributes? (as : Attributes) : Option Attributes :=
  if (as.map Prod.fst).Nodup then as.mapM attribute? else none

/-- A tag with its values expanded. The declaration is no tag of an element. -/
def tag? : Tag → Option Tag
  | .declaration _ => none
  | .opening name as => if startsName name then (attributes? as).map (.opening name) else none
  | .empty name as => if startsName name then (attributes? as).map (.empty name) else none
  | .closing name => some (.closing name)

def mark? (m : Mark) : Option Mark := do
  let text ← content? m.text
  let tag ← tag? m.tag
  return ⟨text, tag⟩

/-- The elements that are open after a tag, the latest first. There is no tag outside the root. -/
def openAfter : List (List Char) → Tag → Option (List (List Char))
  | [], _ => none
  | _ :: _, .declaration _ => none
  | opened, .empty _ _ => some opened
  | opened, .opening name _ => some (name :: opened)
  | name :: opened, .closing name' => if name = name' then some opened else none

/-- The tags are those of one element. -/
def isTree : List Mark → Bool
  | [⟨_, .empty _ _⟩] => true
  | ⟨_, .opening name _⟩ :: ms => (ms.map Mark.tag).foldlM openAfter [name] = some []
  | _ => false

def declaration : Mark := ⟨[], .declaration "xml version=\"1.0\" encoding=\"UTF-8\"".toList⟩

/-- The tags of a document, each with the text before it, all expanded. -/
def read (text : String) : Option (List Mark) :=
  if text.toList.all isChar then
    match Scan.start.run text.toList with
    | some ⟨marks, after, .text⟩ =>
      match marks.reverse with
      | first :: root :: ms =>
        if first = declaration ∧ root.text.all Char.isWhitespace ∧ after.all Char.isWhitespace ∧
            isTree (root :: ms) then
          (root :: ms).mapM mark?
        else none
      | _ => none
    | _ => none
  else none

theorem read_eq_some {text : String} {ds : List Mark} :
    read text = some ds ↔
      (∀ c ∈ text.toList, isChar c = true) ∧
        ∃ root ms after,
          Scan.start.run text.toList = some ⟨(declaration :: root :: ms).reverse, after, .text⟩ ∧
          root.text.all Char.isWhitespace = true ∧ after.all Char.isWhitespace = true ∧
          isTree (root :: ms) = true ∧ (root :: ms).mapM mark? = some ds := by
  unfold read
  by_cases hchars : text.toList.all isChar = true
  · rw [if_pos hchars]
    constructor
    · intro h
      split at h
      · rename_i marks after hrun
        split at h
        · rename_i first root ms hmarks
          split_ifs at h with hroot
          obtain ⟨rfl, hblank, hafter, htree⟩ := hroot
          rw [← List.reverse_reverse marks, hmarks] at hrun
          exact ⟨List.all_eq_true.mp hchars, root, ms, after, hrun, hblank, hafter, htree, h⟩
        · cases h
      · cases h
    · rintro ⟨_, root, ms, after, hrun, hblank, hafter, htree, h⟩
      rw [hrun]
      simp only [List.reverse_reverse]
      exact (if_pos ⟨trivial, hblank, hafter, htree⟩).trans h
  · rw [if_neg hchars]
    constructor
    · intro h
      cases h
    · rintro ⟨hall, _⟩
      exact absurd (List.all_eq_true.mpr hall) hchars

example : read "<?xml version=\"1.0\" encoding=\"UTF-8\"?><a b=\"&#x41;&lt;\">&amp;</a>\n" =
    some [⟨[], .opening ['a'] [(['b'], ['A', '<'])]⟩, ⟨['&'], .closing ['a']⟩] := by
  decide +kernel

/-! ## Expanding -/

theorem expandFrom_length {name : Option (List Char)} {cs ds : List Char}
    (h : expandFrom name cs = some ds) : ds.length ≤ cs.length := by
  induction cs generalizing name ds with
  | nil =>
    cases name with
    | none =>
      cases h
      exact le_rfl
    | some _ => cases h
  | cons c cs ih =>
    have hkept {d : Char} (h : (expandFrom none cs).map (d :: ·) = some ds) :
        ds.length ≤ (c :: cs).length := by
      obtain ⟨es, hes, rfl⟩ := Option.map_eq_some_iff.mp h
      exact Nat.succ_le_succ (ih hes)
    cases name with
    | none =>
      rw [expandFrom] at h
      split_ifs at h with hc
      · exact (ih h).trans (Nat.le_succ _)
      · exact hkept h
    | some name =>
      rw [expandFrom] at h
      split_ifs at h with hc
      · obtain ⟨d, _, h⟩ := Option.bind_eq_some_iff.mp h
        exact hkept h
      · exact (ih h).trans (Nat.le_succ _)

theorem expand_length_lt {cs ds : List Char} (hmem : '&' ∈ cs) (h : expand cs = some ds) :
    ds.length < cs.length := by
  induction cs generalizing ds with
  | nil => cases hmem
  | cons c cs ih =>
    rw [expand, expandFrom] at h
    split_ifs at h with hc
    · exact Nat.lt_succ_of_le (expandFrom_length h)
    · obtain ⟨es, hes, rfl⟩ := Option.map_eq_some_iff.mp h
      exact Nat.succ_lt_succ (ih ((List.mem_cons.mp hmem).resolve_left (Ne.symm hc)) hes)

theorem expand_eq_self {cs : List Char} (h : '&' ∉ cs) : expand cs = some cs := by
  induction cs with
  | nil => rfl
  | cons c cs ih =>
    obtain ⟨hc, hcs⟩ := List.ne_and_not_mem_of_not_mem_cons h
    have hrest := ih hcs
    rw [expand] at hrest
    rw [expand, expandFrom, if_neg hc.symm, hrest]
    rfl

/-- Expanding undoes escaping. -/
theorem expand_escape (s : String) : expand (Element.escape s).toList = some s.toList := by
  rw [Element.escape, String.toList_ofList]
  induction s.toList with
  | nil => rfl
  | cons c cs ih =>
    have hentity {d : Char} {name : List Char}
        (h : ∀ ds, expandFrom none (name ++ ds) = (expandFrom none ds).map (d :: ·)) :
        expand (name ++ cs.flatMap Element.escapeChar) = some (d :: cs) := by
      rw [expand] at ih ⊢
      rw [h, ih]
      rfl
    rw [List.flatMap_cons]
    unfold Element.escapeChar
    split
    · exact hentity fun _ => rfl
    · exact hentity fun _ => rfl
    · exact hentity fun _ => rfl
    · rename_i hamp _ _
      refine hentity fun ds => ?_
      rw [List.singleton_append, expandFrom, if_neg hamp]

theorem content?_of_not_mem {cs : List Char} (h : '>' ∉ cs) : content? cs = expand cs := by
  refine if_neg fun hinfix => h ?_
  exact hinfix.subset (by decide)

theorem not_mem_escape_greater (s : String) : '>' ∉ (Element.escape s).toList := by
  simp only [Element.escape, String.toList_ofList, List.mem_flatMap, not_exists, not_and]
  intro c _ h
  revert h
  unfold Element.escapeChar
  split <;> simp_all [eq_comm]

theorem content?_escape (s : String) : content? (Element.escape s).toList = some s.toList := by
  rw [content?_of_not_mem (not_mem_escape_greater s), expand_escape]

theorem content?_of_blank {cs : List Char} (h : ∀ c ∈ cs, c.isWhitespace = true) :
    content? cs = some cs := by
  have hfree {d : Char} (hd : d.isWhitespace = false) : d ∉ cs := fun hmem => by
    rw [h d hmem] at hd
    cases hd
  rw [content?_of_not_mem (hfree (by decide)), expand_eq_self (hfree (by decide))]

theorem value?_length {cs ds : List Char} (h : value? cs = some ds) : ds.length ≤ cs.length := by
  simpa using expandFrom_length h

theorem blanked_eq_self_iff {c : Char} : blanked c = c ↔ c ≠ '\t' ∧ c ≠ '\n' := by
  unfold blanked
  split_ifs with hc
  · refine iff_of_false ?_ ?_
    · rintro rfl
      exact absurd hc (by decide)
    · rintro ⟨htab, hline⟩
      exact hc.elim htab hline
  · exact iff_of_true rfl (not_or.mp hc)

theorem blanked_eq_ampersand_iff {c : Char} : blanked c = '&' ↔ c = '&' := by
  unfold blanked
  split_ifs with hc
  · refine iff_of_false (by decide) ?_
    rintro rfl
    exact absurd hc (by decide)
  · rfl

/-- A value reads as it is written when it holds no reference and no blank but the plain one. -/
theorem value?_eq_self_iff {cs : List Char} :
    value? cs = some cs ↔ '&' ∉ cs ∧ ∀ c ∈ cs, c ≠ '\t' ∧ c ≠ '\n' := by
  have hself : cs.map blanked = cs ↔ ∀ c ∈ cs, c ≠ '\t' ∧ c ≠ '\n' := by
    calc cs.map blanked = cs ↔ cs.map blanked = cs.map id := by rw [List.map_id]
      _ ↔ ∀ c ∈ cs, blanked c = c := List.map_inj_left
      _ ↔ ∀ c ∈ cs, c ≠ '\t' ∧ c ≠ '\n' := by simp only [blanked_eq_self_iff]
  have hmem : '&' ∈ cs.map blanked ↔ '&' ∈ cs := by
    simp only [List.mem_map, blanked_eq_ampersand_iff, exists_eq_right]
  constructor
  · intro h
    have hamp : '&' ∉ cs := by
      intro hamp
      have hlt := expand_length_lt (hmem.mpr hamp) h
      rw [List.length_map] at hlt
      exact lt_irrefl _ hlt
    rw [value?, expand_eq_self (mt hmem.mp hamp)] at h
    exact ⟨hamp, hself.mp (Option.some.inj h)⟩
  · rintro ⟨hamp, hblank⟩
    rw [value?, hself.mpr hblank, expand_eq_self hamp]

end Xml
end BracketTurtle
