import BracketTurtle.Proofs.Fidelity
import BracketTurtle.Proofs.XmlValues

/-!
# Well-formed drawings

A drawing is one tree: a title when there is one, a rectangle when a background is painted, and the
polylines, in a group when they are flipped. It is read back as that tree, with the colours and the
name as they were given, when the colours may stand in quotes as they are and the name has only
characters that XML has. Otherwise it is not: the title is escaped, the values are not.
-/

namespace BracketTurtle
namespace Svg

open Markup

/-! ## What a drawing shows -/

/-- The values that come from texts of a config, by element and key. -/
def shownKeys : List (String × String) :=
  [("rect", "fill"), ("polyline", "stroke"), ("polyline", "fill"), ("polyline", "stroke-linecap"),
    ("polyline", "stroke-linejoin")]

def isShown : Xml.Selection := fun name key => (name, key) ∈ shownKeys.map charsOf

/-- A tag with the values that are shown and the text before it, unless that is blank and not the
text of a title. -/
def shown (m : Mark) : Mark :=
  ⟨if m.tag ≠ .closing "title".toList ∧ m.text.all Char.isWhitespace then [] else m.text,
    isShown.tag m.tag⟩

def titleOutline (title : String) : List Mark :=
  if title.isEmpty then []
  else [⟨[], .opening "title".toList []⟩, ⟨title.toList, .closing "title".toList⟩]

def backgroundOutline : Option String → List Mark
  | none => []
  | some b =>
    if paintsBackground b then [⟨[], .empty "rect".toList [charsOf ("fill", b)]⟩] else []

/-- The texts of a style and the keys they have in a polyline. -/
def Style.texts (s : Style) : List (String × String) :=
  [("stroke", s.stroke), ("fill", s.fill), ("stroke-linecap", s.lineCap),
    ("stroke-linejoin", s.lineJoin)]

def polylineOutline (s : Style) : Mark := ⟨[], .empty "polyline".toList (s.texts.map charsOf)⟩

/-- The tags of a drawing with so many polylines. -/
def outline (s : Settings) (title : String) (count : ℕ) : List Mark :=
  let drawn := List.replicate count (polylineOutline s.style)
  ⟨[], .opening "svg".toList []⟩ ::
    (titleOutline title ++ backgroundOutline s.background ++
      if s.flip then ⟨[], .opening "g".toList []⟩ :: drawn ++ [⟨[], .closing "g".toList⟩]
      else drawn) ++
    [⟨[], .closing "svg".toList⟩]

/-- The text is XML with these tags, the title and the values being those of the settings. -/
def IsDrawing (s : Settings) (title : String) (count : ℕ) (text : String) : Prop :=
  ∃ marks, Xml.read text = some marks ∧ marks.map shown = outline s title count

/-- The texts that are written as values may stand in quotes as they are. -/
structure Settings.IsVerbatim (s : Settings) : Prop where
  style : ∀ a ∈ s.style.texts, Xml.IsVerbatim a.2
  background : ∀ b ∈ s.background, paintsBackground b = true → Xml.IsVerbatim b

/-! ## Numbers -/

theorem isVerbatim_placesText (places : ℕ) (x : Float) :
    Xml.IsVerbatim (Number.placesText places x) := by
  intro c hc
  have hnumber := Number.isNumberChar_of_mem_placesText hc
  have hname : isNameChar c = true := by
    simp only [Number.isNumberChar, Bool.or_eq_true] at hnumber
    rcases hnumber with (h | h) | h
    · simp [isNameChar, h]
    · simp [isNameChar, h]
    · simp [isNameChar, h]
  refine ⟨Xml.isChar_of_isNameChar hname, ?_⟩
  intro hmem
  have hspecial : ['"', '<', '&', '\t', '\n'].all (fun c => !isNameChar c) = true := by decide
  simpa [hname] using List.all_eq_true.mp hspecial c hmem

theorem isVerbatim_viewBox (places : ℕ) (f : Frame) : Xml.IsVerbatim (viewBox places f) := by
  refine .intercalate (by decide) ?_
  simp only [List.forall_mem_cons]
  exact ⟨isVerbatim_placesText _ _, isVerbatim_placesText _ _, isVerbatim_placesText _ _,
    isVerbatim_placesText _ _, List.forall_mem_nil _⟩

theorem isVerbatim_pointsText (places : ℕ) (line : List Point) :
    Xml.IsVerbatim (pointsText places line) := by
  refine .intercalate (by decide) ?_
  intro s hs
  obtain ⟨p, _, rfl⟩ := List.mem_map.mp hs
  exact ((isVerbatim_placesText _ _).append (by decide)).append (isVerbatim_placesText _ _)

theorem isVerbatim_flipTransform (places : ℕ) (f : Frame) :
    Xml.IsVerbatim (flipTransform places f) := by
  have hfront : Xml.IsVerbatim "translate(0," := by decide
  exact (hfront.append (isVerbatim_placesText _ _)).append (by decide)

/-! ## The tags of a drawing -/

theorem size_cases (places : ℕ) (name : String) (size : Option Float) :
    sizeAttribute places name size = [] ∨
      ∃ x, sizeAttribute places name size = [(name, Number.placesText places x)] := by
  cases size with
  | none => exact .inl rfl
  | some x =>
    by_cases hx : (x == 0) = true
    · exact .inl (if_pos hx)
    · exact .inr ⟨x, if_neg hx⟩

section

variable {value : String × String → Prop} (hvalue : ∀ a, Xml.IsVerbatim a.2 → value a)
include hvalue

theorem isTag_polyline_iff (places : ℕ) (s : Style) (line : List Point) :
    Xml.IsTag value "polyline" (("points", pointsText places line) :: s.attributes places) ↔
      ∀ a ∈ s.texts, value a := by
  have hpoints : value ("points", pointsText places line) := hvalue _ (isVerbatim_pointsText _ _)
  have hwidth : value ("stroke-width", Number.placesText places s.strokeWidth) :=
    hvalue _ (isVerbatim_placesText _ _)
  have hvalues : (∀ a ∈ ("points", pointsText places line) :: s.attributes places, value a) ↔
      ∀ a ∈ s.texts, value a := by
    simp only [Style.attributes, Style.texts, List.forall_mem_cons, hpoints, hwidth, true_and]
  rw [← hvalues]
  constructor
  · exact Xml.IsTag.values
  · refine fun h => ⟨by decide, ?_, ?_, h⟩
    · simp only [Style.attributes, List.forall_mem_cons]
      decide
    · simp only [Style.attributes, List.map_cons, List.map_nil]
      decide

theorem isTag_rect_iff (places : ℕ) (f : Frame) (fill : String) :
    Xml.IsTag value "rect" (frameAttributes places f ++ [("fill", fill)]) ↔
      value ("fill", fill) := by
  constructor
  · intro h
    exact h.values _ (List.mem_append_right _ (List.mem_singleton_self _))
  · intro hfill
    refine ⟨by decide, ?_, ?_, ?_⟩
    · simp only [frameAttributes, List.cons_append, List.nil_append, List.forall_mem_cons]
      decide
    · simp only [frameAttributes, List.cons_append, List.nil_append, List.map_cons, List.map_nil]
      decide
    · simp only [frameAttributes, List.cons_append, List.nil_append, List.forall_mem_cons]
      exact ⟨hvalue _ (isVerbatim_placesText _ _), hvalue _ (isVerbatim_placesText _ _),
        hvalue _ (isVerbatim_placesText _ _), hvalue _ (isVerbatim_placesText _ _), hfill,
        List.forall_mem_nil _⟩

theorem isTag_group (places : ℕ) (f : Frame) :
    Xml.IsTag value "g" [("transform", flipTransform places f)] := by
  refine ⟨by decide, ?_, by simp, ?_⟩
  · simp only [List.forall_mem_cons]
    decide
  · exact List.forall_mem_singleton.mpr (hvalue _ (isVerbatim_flipTransform _ _))

theorem isTag_root (places : ℕ) (f : Frame) (width height : Option Float) :
    Xml.IsTag value "svg"
      ([("xmlns", "http://www.w3.org/2000/svg"), ("version", "1.1"),
          ("viewBox", viewBox places f)] ++
        sizeAttribute places "width" width ++ sizeAttribute places "height" height) := by
  have hspace : value ("xmlns", "http://www.w3.org/2000/svg") := hvalue _ (by decide +kernel)
  have hversion : value ("version", "1.1") := hvalue _ (by decide +kernel)
  have hbox : value ("viewBox", viewBox places f) := hvalue _ (isVerbatim_viewBox _ _)
  have hnumber (name : String) (x : Float) : value (name, Number.placesText places x) :=
    hvalue _ (isVerbatim_placesText _ _)
  rcases size_cases places "width" width with hw | ⟨w, hw⟩
  all_goals
    rcases size_cases places "height" height with hh | ⟨h, hh⟩
    all_goals
      rw [hw, hh]
      refine ⟨by decide, ?_, ?_, ?_⟩
      · simp only [List.cons_append, List.nil_append, List.append_nil, List.forall_mem_cons]
        decide
      · simp only [List.cons_append, List.nil_append, List.append_nil, List.map_cons, List.map_nil]
        decide
      · simp only [List.cons_append, List.nil_append, List.append_nil, List.forall_mem_cons]
        simp [hspace, hversion, hbox, hnumber]

end

theorem preamble_some (places : ℕ) (f : Frame) (background : Option String) (title : String) :
    preamble places f background (some title) =
      (if title.isEmpty then [] else [.text "title" [] title]) ++
        background.elim [] fun b =>
          if paintsBackground b then [.empty "rect" (frameAttributes places f ++ [("fill", b)])]
          else [] := by
  cases background with
  | none => rfl
  | some b => rfl

section

variable {value : String → String × String → Prop} {body : String → Prop}
  (hvalue : ∀ name a, Xml.IsVerbatim a.2 → value name a)
include hvalue

theorem wellMade_preamble_iff (places : ℕ) (f : Frame) (background : Option String)
    (title : String) :
    (∀ e ∈ preamble places f background (some title), Xml.WellMade value body e) ↔
      (title.isEmpty = false → body title) ∧
        ∀ b ∈ background, paintsBackground b = true → value "rect" ("fill", b) := by
  have htag : Xml.IsTag (value "title") "title" [] :=
    ⟨by decide, List.forall_mem_nil _, List.nodup_nil, List.forall_mem_nil _⟩
  rw [preamble_some, List.forall_mem_append]
  apply and_congr
  · by_cases htitle : title.isEmpty = true
    · rw [if_pos htitle, htitle]
      simp
    · rw [if_neg htitle, List.forall_mem_singleton, Xml.wellMade_text_iff, and_iff_right htag,
        Bool.eq_false_iff.mpr htitle]
      simp
  · cases background with
    | none => simp
    | some b =>
      by_cases hb : paintsBackground b = true
      · simp [hb, Xml.wellMade_empty_iff, isTag_rect_iff (hvalue "rect")]
      · simp [hb]

theorem wellMade_drawn_iff (places : ℕ) (s : Style) {lines : List (List Point)}
    (hlines : lines ≠ []) :
    (∀ e ∈ lines.map (polylineElement places s), Xml.WellMade value body e) ↔
      ∀ a ∈ s.texts, value "polyline" a := by
  obtain ⟨line, rest, rfl⟩ := List.exists_cons_of_ne_nil hlines
  simp only [List.forall_mem_map, polylineElement, Xml.wellMade_empty_iff,
    isTag_polyline_iff (hvalue "polyline")]
  exact ⟨fun h => h line List.mem_cons_self, fun h _ _ => h⟩

/-- Whether a drawing is well made hangs on its title and on the values from the settings alone. -/
theorem wellMade_element_iff (places : ℕ) (s : Settings) (title : String) (f : Frame)
    {lines : List (List Point)} (hlines : lines ≠ []) :
    Xml.WellMade value body (element places s (some title) f lines) ↔
      ((title.isEmpty = false → body title) ∧
        ∀ b ∈ s.background, paintsBackground b = true → value "rect" ("fill", b)) ∧
      ∀ a ∈ s.style.texts, value "polyline" a := by
  rw [element, Xml.wellMade_group_iff, List.forall_mem_append, wellMade_preamble_iff hvalue,
    and_iff_right (isTag_root (hvalue "svg") places f _ _)]
  apply and_congr_right'
  rw [← wellMade_drawn_iff hvalue places s.style hlines]
  split_ifs
  · rw [List.forall_mem_singleton, Xml.wellMade_group_iff]
    exact and_iff_right (isTag_group (hvalue "g") places f)
  · rfl

end

/-! ## Reading a drawing -/

theorem charsOf_injective : Function.Injective charsOf := by
  rintro ⟨k, v⟩ ⟨k', v'⟩ h
  obtain ⟨hk, hv⟩ := Prod.mk.inj h
  exact Prod.ext (String.toList_inj.mp hk) (String.toList_inj.mp hv)

theorem isShown_toList (name key : String) :
    isShown name.toList key.toList = decide ((name, key) ∈ shownKeys) := by
  have hmem : charsOf (name, key) ∈ shownKeys.map charsOf ↔ (name, key) ∈ shownKeys :=
    List.mem_map_of_injective charsOf_injective
  exact decide_eq_decide.mpr hmem

theorem isShown_attributes (name : String) (as : List (String × String)) :
    isShown.attributes name.toList (as.map charsOf) =
      (as.filter fun a => (name, a.1) ∈ shownKeys).map charsOf := by
  simp only [Xml.Selection.attributes, List.filter_map, ← isShown_toList]
  rfl

theorem shown_of_blank {text : List Char} {t : Tag} (htext : Xml.IsBlank text)
    (ht : t ≠ .closing "title".toList) : shown ⟨text, t⟩ = ⟨[], isShown.tag t⟩ := by
  have hblank : text.all Char.isWhitespace = true := List.all_eq_true.mpr htext
  rw [shown, if_pos ⟨ht, hblank⟩]

theorem isShown_polyline (places : ℕ) (s : Style) (line : List Point) :
    isShown.tag (.empty "polyline".toList
        ((("points", pointsText places line) :: s.attributes places).map charsOf)) =
      .empty "polyline".toList (s.texts.map charsOf) := by
  rw [Xml.Selection.tag, isShown_attributes]
  rfl

theorem isShown_rect (places : ℕ) (f : Frame) (fill : String) :
    isShown.tag (.empty "rect".toList
        ((frameAttributes places f ++ [("fill", fill)]).map charsOf)) =
      .empty "rect".toList [charsOf ("fill", fill)] := by
  rw [Xml.Selection.tag, isShown_attributes]
  rfl

theorem isShown_opening {name : String} (as : List (String × String))
    (h : name ∉ shownKeys.map Prod.fst) :
    isShown.tag (.opening name.toList (as.map charsOf)) = .opening name.toList [] := by
  have hnone : as.filter (fun a => (name, a.1) ∈ shownKeys) = [] := by
    rw [List.filter_eq_nil_iff]
    intro a _ hmem
    exact h (List.mem_map_of_mem (of_decide_eq_true hmem))
  rw [Xml.Selection.tag, isShown_attributes, hnone]
  rfl

theorem map_shown_polylines (depth places : ℕ) (s : Style) (lines : List (List Point)) :
    (Xml.childContents depth (lines.map (polylineElement places s))).map shown =
      List.replicate lines.length (polylineOutline s) := by
  induction lines with
  | nil => rfl
  | cons line lines ih =>
    have hpolyline : shown ⟨['\n'] ++ (Element.indent depth).toList, .empty "polyline".toList
        ((("points", pointsText places line) :: s.attributes places).map charsOf)⟩ =
        polylineOutline s := by
      rw [shown_of_blank (Xml.isBlank_lineEnd.append_indent depth) (by simp), isShown_polyline]
      rfl
    rw [List.map_cons, Xml.childContents, polylineElement, Xml.contents, List.map_append, ih,
      List.map_singleton, hpolyline]
    rfl

theorem map_shown_preamble (depth places : ℕ) (f : Frame) (background : Option String)
    (title : String) :
    (Xml.childContents depth (preamble places f background (some title))).map shown =
      titleOutline title ++ backgroundOutline background := by
  have hblank := Xml.isBlank_lineEnd.append_indent depth
  rw [preamble_some, Xml.childContents_append, List.map_append]
  apply congrArg₂
  · unfold titleOutline
    split_ifs
    · rfl
    · have hopening : shown ⟨['\n'] ++ (Element.indent depth).toList, .opening "title".toList []⟩ =
          ⟨[], .opening "title".toList []⟩ := shown_of_blank hblank (by simp)
      have hclosing : shown ⟨title.toList, .closing "title".toList⟩ =
          ⟨title.toList, .closing "title".toList⟩ := by
        simp [shown, Xml.Selection.tag]
      simp only [Xml.childContents, Xml.contents, List.map_nil, List.append_nil, List.map_cons,
        hopening, hclosing]
  · cases background with
    | none => rfl
    | some b =>
      simp only [Option.elim_some, backgroundOutline]
      split_ifs
      · have hrect : shown ⟨['\n'] ++ (Element.indent depth).toList, .empty "rect".toList
            ((frameAttributes places f ++ [("fill", b)]).map charsOf)⟩ =
            ⟨[], .empty "rect".toList [charsOf ("fill", b)]⟩ := by
          rw [shown_of_blank hblank (by simp), isShown_rect]
        simp only [Xml.childContents, Xml.contents, List.append_nil, List.map_cons, List.map_nil,
          hrect]
      · rfl

theorem map_shown_group (places : ℕ) (f : Frame) (s : Style) (lines : List (List Point)) :
    (Xml.contents 1 ['\n'] (.group "g" [("transform", flipTransform places f)]
        (lines.map (polylineElement places s)))).map shown =
      ⟨[], .opening "g".toList []⟩ :: List.replicate lines.length (polylineOutline s) ++
        [⟨[], .closing "g".toList⟩] := by
  have hblank := Xml.isBlank_lineEnd.append_indent 1
  have hopening : shown ⟨['\n'] ++ (Element.indent 1).toList,
      .opening "g".toList ([("transform", flipTransform places f)].map charsOf)⟩ =
      ⟨[], .opening "g".toList []⟩ := by
    rw [shown_of_blank hblank (by simp), isShown_opening _ (by decide)]
  have hclosing : shown ⟨'\n' :: (Element.indent 1).toList, .closing "g".toList⟩ =
      ⟨[], .closing "g".toList⟩ :=
    shown_of_blank hblank (by decide)
  rw [Xml.contents, List.cons_append, List.map_cons, List.map_append, map_shown_polylines, hopening,
    List.map_singleton, hclosing]
  rfl

theorem map_shown_contents (places : ℕ) (s : Settings) (title : String) (f : Frame)
    (lines : List (List Point)) :
    (Xml.contents 0 ['\n'] (element places s (some title) f lines)).map shown =
      outline s title lines.length := by
  have hblank := Xml.isBlank_lineEnd.append_indent 0
  have hopening (as : List (String × String)) : shown ⟨['\n'] ++ (Element.indent 0).toList,
      .opening "svg".toList (as.map charsOf)⟩ = ⟨[], .opening "svg".toList []⟩ := by
    rw [shown_of_blank hblank (by simp), isShown_opening _ (by decide)]
  have hclosing : shown ⟨'\n' :: (Element.indent 0).toList, .closing "svg".toList⟩ =
      ⟨[], .closing "svg".toList⟩ :=
    shown_of_blank hblank (by decide)
  rw [element, Xml.contents, List.cons_append, List.map_cons, hopening, List.map_append,
    List.map_singleton, hclosing, Xml.childContents_append, List.map_append, map_shown_preamble,
    outline]
  split_ifs
  · rw [Xml.childContents, Xml.childContents, List.append_nil, map_shown_group]
    rfl
  · rw [map_shown_polylines]
    rfl

theorem isVerbatim_settings_iff {s : Settings} :
    s.IsVerbatim ↔ (∀ b ∈ s.background, paintsBackground b = true → Xml.IsVerbatim b) ∧
      ∀ a ∈ s.style.texts, Xml.IsVerbatim a.2 :=
  ⟨fun h => ⟨h.background, h.style⟩, fun ⟨hbackground, hstyle⟩ => ⟨hstyle, hbackground⟩⟩

instance (s : Settings) : Decidable s.IsVerbatim := decidable_of_iff' _ isVerbatim_settings_iff

/-- A drawing is read back as it is meant when its values are verbatim and its title has characters
of XML, and only then. -/
theorem isDrawing_element_iff (places : ℕ) (s : Settings) (title : String) (f : Frame)
    {lines : List (List Point)} (hlines : lines ≠ []) :
    IsDrawing s title lines.length (element places s (some title) f lines).document ↔
      s.IsVerbatim ∧ Xml.IsText title := by
  have htitle : (title.isEmpty = false → Xml.IsText title) ↔ Xml.IsText title := by
    refine ⟨fun h => ?_, fun h _ => h⟩
    cases hempty : title.isEmpty with
    | true =>
      rw [String.isEmpty_iff.mp hempty]
      exact List.forall_mem_nil _
    | false => exact h hempty
  have hwellMade : Xml.WellMade (fun _ a => Xml.IsVerbatim a.2) Xml.IsText
      (element places s (some title) f lines) ↔ s.IsVerbatim ∧ Xml.IsText title := by
    rw [wellMade_element_iff (fun _ _ h => h) places s title f hlines, htitle,
      isVerbatim_settings_iff, and_assoc, and_comm]
  have hchosen : Xml.WellMade
      (fun name a => isShown name.toList a.1.toList = true ∨ Xml.IsVerbatim a.2) (fun _ => True)
      (element places s (some title) f lines) := by
    rw [wellMade_element_iff (fun _ _ h => .inr h) places s title f hlines]
    have hfill : isShown "rect".toList "fill".toList = true := by
      rw [isShown_toList]
      decide
    refine ⟨⟨fun _ => trivial, fun _ _ _ => .inl hfill⟩, ?_⟩
    intro a ha
    left
    rw [isShown_toList]
    simp only [Style.texts, List.mem_cons, List.not_mem_nil, or_false] at ha
    rcases ha with rfl | rfl | rfl | rfl
    · rfl
    · rfl
    · rfl
    · rfl
  rw [← hwellMade]
  constructor
  · rintro ⟨ds, hread, hshown⟩
    refine (Xml.read_document_iff hchosen).mp ⟨ds, hread, ?_⟩
    rw [← map_shown_contents places s title f lines] at hshown
    have hparts := congrArg (List.map fun m : Mark => m.tag.parts?) hshown
    rw [List.map_map, List.map_map] at hparts
    exact hparts
  · intro h
    exact ⟨_, Xml.read_document h, map_shown_contents places s title f lines⟩

end Svg

/-! ## Written files -/

theorem Program.isDrawing_of_render {A : Arithmetic} {verbose : Bool} {config : String}
    {output word : Option String} {here : Location} {t : FileTree} {given c : Config}
    (hload : Loads t here config given) (hword : override word given = .ok c)
    (hok : ((render A verbose config output word).run here t).1.ending = .exit 0) :
    ∃ path file text, output = some path ∧
      ((render A verbose config output word).run here t).2.read here path = .ok file ∧
      Utf8.decode file = .ok text ∧
      (Svg.IsDrawing c.svg c.name (linesOf A c).length (String.ofList text) ↔
        c.svg.IsVerbatim ∧ Xml.IsText c.name) := by
  obtain ⟨given', c', text, path, hload', hword', htext, rfl, hsave⟩ := render_ending.mp hok
  obtain rfl := hload.unique hload'
  obtain rfl := Except.ok.inj (hword.symm.trans hword')
  obtain ⟨_, hdocument⟩ := drawingOf_eq_ok.mp htext
  obtain ⟨b, f, hbounds, _, _, rfl⟩ := Svg.document_eq_ok.mp hdocument
  have hlines : linesOf A c ≠ [] := by
    intro hnil
    rw [hnil, bounds_nil] at hbounds
    cases hbounds
  refine ⟨path, _, _, rfl, read_of_render hload hword htext hsave, Utf8.decode_encode _, ?_⟩
  rw [String.ofList_toList]
  exact Svg.isDrawing_element_iff _ c.svg c.name f hlines

/-- Whatever `render` is asked for, when it ends well the file it names is XML with the tags of a
drawing, one polyline for each of the run, and shows the name and the texts of the style and the
background as the config has them, exactly if those texts may stand in quotes as they are and the
name has only characters of XML. -/
theorem render_isDrawing_iff (A : Arithmetic) (fresh : ℤ) (here : Location) (t : FileTree)
    (arguments : List String) (verbose : Bool) (config : String) (output word : Option String)
    (hread : CommandLine.read arguments = .accepted ⟨verbose, .render config output word⟩)
    (hok : ((Program.job A fresh arguments).run here t).1.ending = .exit 0) :
    ∃ given c path file text,
      Program.Loads t here config given ∧ Program.override word given = .ok c ∧
      output = some path ∧
      ((Program.job A fresh arguments).run here t).2.read here path = .ok file ∧
      Utf8.decode file = .ok text ∧
      (Svg.IsDrawing c.svg c.name (Program.linesOf A c).length (String.ofList text) ↔
        c.svg.IsVerbatim ∧ Xml.IsText c.name) := by
  have hjob : Program.job A fresh arguments = Program.render A verbose config output word := by
    simp only [Program.job, hread, Program.perform]
  rw [hjob] at hok ⊢
  obtain ⟨given, c, hload, hword⟩ := Program.loads_of_render hok
  obtain ⟨path, file, text, hpath, hback, hdecode, hdrawing⟩ :=
    Program.isDrawing_of_render hload hword hok
  exact ⟨given, c, path, file, text, hload, hword, hpath, hback, hdecode, hdrawing⟩

theorem render_isDrawing_iff_flipped :
    let text := "\x7b\"name\":\"a<b & c\",\"word\":\"F[+F]F\",\"svg\":" ++
      "\x7b\"flip_y\":true,\"background\":\"red\"\x7d\x7d"
    let ran := (Program.job straight.1 0 ["render", "c", "o"]).run [] (Program.onlyConfig text)
    CommandLine.read ["render", "c", "o"] =
        .accepted ⟨false, .render "c" (some "o") none⟩ ∧
      ran.1.ending = .exit 0 ∧
      ∃ c file drawing, Program.Loads (Program.onlyConfig text) [] "c" c ∧
        ran.2.read [] "o" = .ok file ∧ Utf8.decode file = .ok drawing ∧
        Svg.IsDrawing c.svg c.name (Program.linesOf straight.1 c).length
          (String.ofList drawing) := by
  intro text ran
  have hread : CommandLine.read ["render", "c", "o"] =
      .accepted ⟨false, .render "c" (some "o") none⟩ := by decide +kernel
  have hok : ran.1.ending = .exit 0 := Ending.eq_exit_of_code? (by decide +kernel)
  have hplain : ((Program.configOf "c" (Utf8.encode text.toList)).toOption.any fun c =>
      decide (c.svg.IsVerbatim ∧ Xml.IsText c.name)) = true := by decide +kernel
  obtain ⟨given, c, path, file, drawing, ⟨bytes, hfile, hconfig⟩, hword, hpath, hback, hdecode,
    hdrawing⟩ := render_isDrawing_iff straight.1 0 [] (Program.onlyConfig text) _ false "c"
      (some "o") none hread hok
  obtain rfl : given = c := Except.ok.inj hword
  obtain rfl : "o" = path := Option.some.inj hpath
  obtain rfl : Utf8.encode text.toList = bytes :=
    Except.ok.inj ((Program.read_onlyConfig text).symm.trans hfile)
  rw [hconfig] at hplain
  exact ⟨hread, hok, given, file, drawing, ⟨_, hfile, hconfig⟩, hback, hdecode,
    hdrawing.mpr (of_decide_eq_true hplain)⟩

def strokeOf (bytes : List UInt8) : Option String :=
  match Program.configOf "c" bytes with
  | .ok c => some c.svg.style.stroke
  | .error _ => none

/-- With a quote for the stroke `render` ends well and writes no drawing. -/
theorem quoted_stroke_not_drawing :
    let text := "\x7b\"word\":\"F\",\"svg\":\x7b\"style\":\x7b\"stroke\":\"\\\"\"\x7d\x7d\x7d"
    let ran := (Program.job straight.1 0 ["render", "c", "o"]).run [] (Program.onlyConfig text)
    ran.1.ending = .exit 0 ∧
      ∃ c file drawing, Program.Loads (Program.onlyConfig text) [] "c" c ∧
        c.svg.style.stroke = "\"" ∧ ran.2.read [] "o" = .ok file ∧
        Utf8.decode file = .ok drawing ∧
        ¬Svg.IsDrawing c.svg c.name (Program.linesOf straight.1 c).length
          (String.ofList drawing) := by
  intro text ran
  have hread : CommandLine.read ["render", "c", "o"] =
      .accepted ⟨false, .render "c" (some "o") none⟩ := by decide +kernel
  have hjob : Program.job straight.1 0 ["render", "c", "o"] =
      Program.render straight.1 false "c" (some "o") none := by
    simp only [Program.job, hread, Program.perform]
  have hok : ran.1.ending = .exit 0 := Ending.eq_exit_of_code? (by decide +kernel)
  have hquote : strokeOf (Utf8.encode text.toList) = some "\"" := by decide +kernel
  unfold strokeOf at hquote
  split at hquote
  · rename_i c hconfig
    have hstroke : c.svg.style.stroke = "\"" := Option.some.inj hquote
    have hload : Program.Loads (Program.onlyConfig text) [] "c" c :=
      ⟨_, Program.read_onlyConfig text, hconfig⟩
    have hword : Program.override none c = .ok c := rfl
    have hrender : ((Program.render straight.1 false "c" (some "o") none).run []
        (Program.onlyConfig text)).1.ending = .exit 0 := by
      rw [← hjob]
      exact hok
    obtain ⟨path, file, drawing, hpath, hback, hdecode, hdrawing⟩ :=
      Program.isDrawing_of_render hload hword hrender
    rw [← hjob] at hback
    obtain rfl : "o" = path := Option.some.inj hpath
    refine ⟨hok, c, file, drawing, hload, hstroke, hback, hdecode, fun h => ?_⟩
    have hverbatim := (hdrawing.mp h).1.style ("stroke", c.svg.style.stroke) List.mem_cons_self
    rw [hstroke] at hverbatim
    exact absurd hverbatim (by decide)
  · cases hquote

end BracketTurtle
