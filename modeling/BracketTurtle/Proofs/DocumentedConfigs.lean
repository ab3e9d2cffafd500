import BracketTurtle.Proofs.ConfigFields
import BracketTurtle.Proofs.Opposites
import BracketTurtle.Proofs.Outcomes
import BracketTurtle.Proofs.WholeBounds

/-!
# Documented configs

A value is a config exactly if every field accepts it, and then the config holds what the fields
mean. A refusal names a field that does not accept the value. What stands in other places is not
looked at. The checks are gone through field by field: each lets a value of its kind through or
names its field, and so do the checks of the objects in their order.
-/

namespace BracketTurtle

namespace Number

theorem value?_ofInt_eq_rounded (n : ℤ) : value? (Float.ofInt n) = some (rounded n) := by
  cases n with
  | ofNat n => exact value?_ofNat n
  | negSucc n =>
    have hneg : value? (-Float.ofNat (n + 1)) = some (rounded ((n + 1 : ℕ) : ℚ)).neg := by
      rw [opposite_neg, value?_ofNat, Option.map_some]
    rw [← rounded_neg, ← Int.cast_natCast, ← Int.cast_neg] at hneg
    exact hneg

theorem rounded_pos {n : ℤ} (h : 0 < n) : .ofRat 0 < rounded n := by
  have hn : (0 : ℚ) < n := by exact_mod_cast h
  have hone : (2 : ℚ) ^ (0 : ℤ) ≤ n := by
    rw [zpow_zero]
    exact_mod_cast h
  have hlog : 0 ≤ Int.log 2 (n : ℚ) := (Int.zpow_le_iff_le_log one_lt_two hn).mp hone
  have hpos : 0 < (roundEven (n / 2 ^ lastPlace (n : ℚ)) : ℚ) * 2 ^ lastPlace (n : ℚ) :=
    lt_of_lt_of_le (by positivity) (zpow_log_le_roundEven hn (by omega))
  rw [rounded]
  rcases le_or_gt limit (roundEven (n / 2 ^ lastPlace (n : ℚ)) * 2 ^ lastPlace (n : ℚ))
    with hle | hlt
  · rw [(Value.bounded_of_ge hle).1]
    exact Value.ofRat_lt_top 0
  · rw [Value.bounded_of_lt (by rwa [abs_of_pos hpos])]
    exact Value.ofRat_strictMono hpos

/-- Rounding keeps an integer on its side of zero. -/
theorem ofInt_pos_iff {n : ℤ} : 0 < Float.ofInt n ↔ 0 < n := by
  have hzero : value? 0 = some (.ofRat 0) := value?_zero (s := .positive) (by rfl)
  rw [lt_iff, hzero, value?_ofInt_eq_rounded]
  constructor
  · rintro ⟨_, _, ⟨⟩, ⟨⟩, hpos⟩
    by_contra hn
    rcases (not_lt.mp hn).lt_or_eq with hneg | rfl
    · have hopposite := Value.neg_lt_neg (rounded_pos (Int.neg_pos.mpr hneg))
      rw [Int.cast_neg, rounded_neg, Value.neg_neg, Value.neg_ofRat, neg_zero] at hopposite
      exact lt_asymm hpos hopposite
    · rw [Int.cast_zero, rounded_zero] at hpos
      exact lt_irrefl _ hpos
  · exact fun h => ⟨_, _, rfl, rfl, rounded_pos h⟩

end Number

namespace Config

/-! ## Verdicts on fields -/

/-- The check lets a value through if it is of its kind, and names the field otherwise. -/
inductive Reads {α : Type} (f : Field) (M : Json → α → Prop) (w : Json) : Check α → Prop
  | ok {a : α} : M w a → Reads f M w (.ok a)
  | refused {e : ConfigError} : (∀ a, ¬M w a) → f.Begins e.message →
      Reads f M w (.error (.invalid e))

/-- All fields of a list are accepted and the outcome is as it should be, or the error names one
that is not. -/
inductive Judged {α : Type} (v : Json) (fs : List Field) (P : α → Prop) : Check α → Prop
  | ok {a : α} : (∀ f ∈ fs, f.Accepts v) → P a → Judged v fs P (.ok a)
  | refused {e : ConfigError} {f : Field} : f ∈ fs → ¬f.Accepts v → f.Begins e.message →
      Judged v fs P (.error (.invalid e))

namespace Judged

variable {α β : Type} {v : Json} {f : Field} {fs gs : List Field} {P : α → Prop} {Q : β → Prop}

theorem bind {x : Check α} {k : α → Check β} (h : Judged v fs P x)
    (hk : ∀ a, P a → Judged v gs Q (k a)) : Judged v (fs ++ gs) Q (x >>= k) := by
  cases h with
  | @ok a hfs ha =>
    have hrest := hk a ha
    rw [ok_bind]
    generalize k a = y at hrest ⊢
    cases hrest with
    | ok hgs hb => exact .ok (List.forall_mem_append.mpr ⟨hfs, hgs⟩) hb
    | refused hf hnot hbegins => exact .refused (List.mem_append_right fs hf) hnot hbegins
  | refused hf hnot hbegins => exact .refused (List.mem_append_left gs hf) hnot hbegins

theorem mono {x : Check α} {P' : α → Prop} (h : Judged v fs P x) (hP : ∀ a, P a → P' a) :
    Judged v fs P' x := by
  cases h with
  | ok hfs ha => exact .ok hfs (hP _ ha)
  | refused hf hnot hbegins => exact .refused hf hnot hbegins

theorem map {x : Check α} {g : α → β} (h : Judged v fs P x) (hg : ∀ a, P a → Q (g a)) :
    Judged v fs Q (x >>= fun a => pure (g a)) := by
  cases h with
  | ok hfs ha => exact .ok hfs (hg _ ha)
  | refused hf hnot hbegins => exact .refused hf hnot hbegins

theorem given {w : Json} {x : Check f.Value} (hlook : v.at? f.keys = some w)
    (h : Reads f f.Means w x) : Judged v [f] (f.Meaning v) x := by
  cases h with
  | @ok a ha =>
    have ha' := (Field.meaning_of_some hlook).mpr ha
    exact .ok (List.forall_mem_singleton.mpr ⟨a, ha'⟩) ha'
  | refused hnot hbegins =>
    refine .refused (List.mem_singleton_self f) ?_ hbegins
    rintro ⟨a, ha⟩
    exact hnot a ((Field.meaning_of_some hlook).mp ha)

theorem orElse {members : Registry Json} {key : String} {default : f.Value}
    {read : Json → Check f.Value} (hlook : v.at? f.keys = members.get? key)
    (hdefault : f.default? = some default)
    (hread : ∀ w, v.at? f.keys = some w → Reads f f.Means w (read w)) :
    Judged v [f] (f.Meaning v) (Config.orElse members key default read) := by
  rw [Config.orElse, ← hlook]
  cases hv : v.at? f.keys with
  | none =>
    have ha : f.Meaning v default := (Field.meaning_of_none hv).mpr hdefault
    exact .ok (List.forall_mem_singleton.mpr ⟨default, ha⟩) ha
  | some w => exact given hv (hread w hv)

/-- A field that may be absent, and the fields after it. -/
theorem orElse_bind {members : Registry Json} {key : String} {default : f.Value}
    {read : Json → Check f.Value} {k : f.Value → Check β}
    (hlook : v.at? f.keys = members.get? key) (hdefault : f.default? = some default)
    (hread : ∀ w, v.at? f.keys = some w → Reads f f.Means w (read w))
    (hk : ∀ a, f.Meaning v a → Judged v fs Q (k a)) :
    Judged v (f :: fs) Q (Config.orElse members key default read >>= k) :=
  (orElse hlook hdefault hread).bind hk

end Judged

/-! ## Checks of the kinds -/

theorem IsNumber.unique {w : Json} {x y : Float} (hx : IsNumber w x) (hy : IsNumber w y) :
    x = y := by
  cases hx <;> cases hy <;> rfl

theorem isPositive_iff {w : Json} {x : Float} : IsPositive w x ↔ IsNumber w x ∧ 0 < x := by
  constructor
  · rintro (⟨⟨_, hfinite⟩, hpos⟩ | ⟨hx, hpos⟩)
    · exact ⟨.integer ‹_› hfinite, Number.ofInt_pos_iff.mpr hpos⟩
    · exact ⟨hx, hpos⟩
  · rintro ⟨hx, hpos⟩
    cases hx with
    | integer hvalue hfinite =>
      exact .integer (.integer hvalue hfinite) (Number.ofInt_pos_iff.mp hpos)
    | number hfinite => exact .number (.number hfinite) hpos

def orNull {α : Type} (read : Json → Check α) : Json → Check (Option α)
  | .null => .ok none
  | v => (read v).map some

theorem nullable_eq_orElse {α : Type} (members : Registry Json) (key : String)
    (read : Json → Check α) :
    nullable members key read = orElse members key none (orNull read) := by
  rw [nullable, orElse]
  cases members.get? key with
  | none => rfl
  | some v => cases v <;> rfl

section

variable {f : Field} {path : String} (hpath : f.path = path) {w : Json}
include hpath

theorem begins_mark {mark : String} (hmark : mark ∈ [" ", ":"]) {text rest : String}
    (htext : text = mark ++ rest) : f.Begins (path ++ text) :=
  ⟨mark, hmark, rest, by rw [hpath, htext, String.append_assoc]⟩

theorem begins_wrong (expected : Expected) :
    f.Begins (ConfigError.field path expected).message := by
  have hmark : " must be " ++ expected.message = " " ++ ("must be " ++ expected.message) := by
    have hblank : " must be " = " " ++ "must be " := by decide +kernel
    rw [hblank, String.append_assoc]
  have hbegins := begins_mark hpath (by simp) hmark
  rwa [← String.append_assoc] at hbegins

theorem begins_notPositive : f.Begins (ConfigError.notPositive path).message :=
  have hmark : " must be > 0" = " " ++ "must be > 0" := by decide +kernel
  begins_mark hpath (by simp) hmark

theorem number_reads (hrange : ∀ n, w = .integer n → (Float.ofInt n).isFinite = true) :
    Reads f IsNumber w (number path w) := by
  cases w with
  | integer n =>
    have hfinite := hrange n rfl
    have hnearest : Number.nearest? n = some (Float.ofInt n) := if_pos hfinite
    rw [number, hnearest]
    exact .ok (.integer (Number.value?_ofInt_eq_rounded n) hfinite)
  | number x =>
    rw [number]
    split_ifs with hfinite
    · exact .ok (.number hfinite)
    · refine .refused ?_ (begins_wrong hpath .finite)
      rintro _ ⟨⟩
      contradiction
  | _ => exact .refused nofun (begins_wrong hpath .number)

theorem positive_reads (hrange : ∀ n, w = .integer n → (Float.ofInt n).isFinite = true) :
    Reads f IsPositive w (positive path w) := by
  have hnumber := number_reads hpath hrange
  rw [positive]
  generalize number path w = y at hnumber ⊢
  cases hnumber with
  | @ok x hx =>
    rw [ok_bind]
    split_ifs with hpos
    · exact .ok (isPositive_iff.mpr ⟨hx, hpos⟩)
    · refine .refused (fun y hy => hpos ?_) (begins_notPositive hpath)
      obtain ⟨hy, hpos⟩ := isPositive_iff.mp hy
      rwa [hx.unique hy]
  | refused hnot hbegins => exact .refused (fun x hx => hnot x (isPositive_iff.mp hx).1) hbegins

theorem text_reads : Reads f IsText w (text path w) := by
  cases w with
  | string s => exact .ok .string
  | _ => exact .refused nofun (begins_wrong hpath .text)

theorem boolean_reads : Reads f IsBoolean w (boolean path w) := by
  cases w with
  | bool b => exact .ok .bool
  | _ => exact .refused nofun (begins_wrong hpath .boolean)

end

section

variable {f : Field} {w : Json}

theorem places_reads (hpath : f.path = "svg.precision") :
    Reads f IsPlaces w (places "svg.precision" w) := by
  cases w with
  | integer n =>
    rw [places, integer, ok_bind]
    split_ifs with hrange
    · exact .ok (.integer hrange.1 hrange.2)
    · refine .refused ?_ ⟨" ", by simp, "must be between 0 and 10", ?_⟩
      · rintro _ ⟨hlow, hhigh⟩
        exact hrange ⟨hlow, hhigh⟩
      · rw [hpath]
        decide +kernel
  | _ => exact .refused nofun (begins_wrong hpath .integer)

theorem orNull_reads {α : Type} {M : Json → α → Prop} {read : Json → Check α}
    (h : Reads f M w (read w)) : Reads f (OrNull M) w (orNull read w) := by
  by_cases hw : w = .null
  · subst hw
    exact .ok .null
  · have hread : orNull read w = (read w).map some := by
      cases w with
      | null => exact absurd rfl hw
      | _ => rfl
    rw [hread]
    generalize read w = x at h ⊢
    cases h with
    | ok ha => exact .ok (.given ha)
    | refused hnot hbegins =>
      refine .refused ?_ hbegins
      rintro _ (_ | ha)
      · exact hw rfl
      · exact hnot _ ha

theorem word_reads (hpath : f.path = "word") :
    Reads f IsWord w (text "word" w >>= readWord "word") := by
  cases w with
  | string s =>
    rw [text, ok_bind, readWord]
    cases hparse : Word.parse s with
    | ok word => exact .ok (.string hparse)
    | error e =>
      have hmark : ": " ++ e.message = ":" ++ (" " ++ e.message) := by
        have hcolon : ": " = ":" ++ " " := by decide +kernel
        rw [hcolon, String.append_assoc]
      have hbegins := begins_mark hpath (by simp) hmark
      rw [← String.append_assoc] at hbegins
      refine .refused ?_ hbegins
      rintro _ ⟨hword⟩
      rw [hparse] at hword
      cases hword
  | _ => exact .refused nofun (begins_wrong hpath .text)

end

/-! ## Checks of the objects -/

/-- The members stand under these keys; where there are none, nothing stands under the keys. -/
def Reaches (v : Json) (keys : List String) (members : Registry Json) : Prop :=
  ∀ key rest, v.at? (keys ++ key :: rest) = (members.get? key).bind (Json.at? rest)

theorem Reaches.at? {v : Json} {keys : List String} {members : Registry Json}
    (h : Reaches v keys members) (key : String) : v.at? (keys ++ [key]) = members.get? key := by
  rw [h]
  cases members.get? key <;> rfl

theorem reaches_of_none {v : Json} {keys : List String} (h : v.at? keys = none) :
    Reaches v keys [] := by
  intro key rest
  rw [Json.at?_append, h]
  rfl

theorem reaches_of_object {v : Json} {keys : List String} {members : Registry Json}
    (h : v.at? keys = some (.object members)) : Reaches v keys members := by
  intro key rest
  rw [Json.at?_append, h]
  rfl

theorem object_judged {v : Json} {keys : List String} {members : Registry Json} {key path : String}
    (hpath : (Field.object keys).path = path) (hlook : v.at? keys = members.get? key) :
    Judged v [.object keys] (fun members =>
      (Field.object keys).Meaning v () ∧ Reaches v keys members)
      (orElse members key [] (object path)) := by
  rw [orElse, ← hlook]
  cases hv : v.at? keys with
  | none =>
    have hmeaning : (Field.object keys).Meaning v () := (Field.meaning_of_none hv).mpr rfl
    exact .ok (List.forall_mem_singleton.mpr ⟨(), hmeaning⟩) ⟨hmeaning, reaches_of_none hv⟩
  | some w =>
    cases w with
    | object members' =>
      have hmeaning : (Field.object keys).Meaning v () := (Field.meaning_of_some hv).mpr .object
      exact .ok (List.forall_mem_singleton.mpr ⟨(), hmeaning⟩) ⟨hmeaning, reaches_of_object hv⟩
    | _ =>
      refine .refused (List.mem_singleton_self _) ?_ (begins_wrong hpath .object)
      rintro ⟨u, hu⟩
      cases (Field.meaning_of_some hv).mp hu

section

variable {v : Json} (hrange : v.IsInRange) {members : Registry Json}
include hrange

theorem number_at {f : Field} {path : String} (hpath : f.path = path) (w : Json)
    (hw : v.at? f.keys = some w) : Reads f IsNumber w (number path w) :=
  number_reads hpath fun _ hn => hrange.integer (hn ▸ hw)

theorem positive_at {f : Field} {path : String} (hpath : f.path = path) (w : Json)
    (hw : v.at? f.keys = some w) : Reads f (OrNull IsPositive) w (orNull (positive path) w) :=
  orNull_reads (positive_reads hpath fun _ hn => hrange.integer (hn ▸ hw))

theorem pen_judged (h : Reaches v ["turtle", "start"] members) :
    Judged v startFields (fun p => ∀ c : Config, c.start = p → Holds v startFields c)
      (pen members) := by
  refine .orElse_bind (h.at? "x") rfl (number_at hrange rfl) fun x hx => ?_
  refine .orElse_bind (h.at? "y") rfl (number_at hrange rfl) fun y hy => ?_
  refine .orElse_bind (h.at? "heading") rfl (number_at hrange rfl) fun heading hheading => ?_
  refine .ok (List.forall_mem_nil _) ?_
  rintro ⟨name, word, course, start, svg⟩ ⟨⟩
  exact .cons hx (.cons hy (.cons hheading .nil))

theorem courseAndStart_judged (h : Reaches v ["turtle"] members) :
    Judged v turtleFields
      (fun a => ∀ c : Config, c.course = a.1 → c.start = a.2 → Holds v turtleFields c)
      (courseAndStart members) := by
  refine .orElse_bind (h.at? "step") rfl (number_at hrange rfl) fun step hstep => ?_
  refine .orElse_bind (h.at? "turn") rfl (number_at hrange rfl) fun turn hturn => ?_
  refine .orElse_bind (h.at? "snap") rfl (fun _ _ => boolean_reads rfl) fun snap hsnap => ?_
  refine (object_judged rfl (h.at? "start")).bind fun start ⟨hobject, hstart⟩ => ?_
  refine (pen_judged hrange hstart).map fun p hp => ?_
  rintro ⟨name, word, course, start, svg⟩ ⟨⟩ ⟨⟩
  exact .append (.cons hstep (.cons hturn (.cons hsnap (.cons hobject .nil)))) (hp _ rfl)

theorem style_judged (h : Reaches v ["svg", "style"] members) :
    Judged v styleFields (fun s => ∀ c : Config, c.svg.style = s → Holds v styleFields c)
      (style members) := by
  refine .orElse_bind (h.at? "stroke") rfl (fun _ _ => text_reads rfl) fun stroke hstroke => ?_
  refine .orElse_bind (h.at? "stroke_width") rfl (number_at hrange rfl) fun width hwidth => ?_
  refine .orElse_bind (h.at? "fill") rfl (fun _ _ => text_reads rfl) fun fill hfill => ?_
  refine .orElse_bind (h.at? "stroke_linecap") rfl (fun _ _ => text_reads rfl) fun cap hcap => ?_
  refine .orElse_bind (h.at? "stroke_linejoin") rfl (fun _ _ => text_reads rfl) fun join hjoin => ?_
  refine .ok (List.forall_mem_nil _) ?_
  rintro ⟨name, word, course, start, ⟨margin, places, flip, width, height, style, background⟩⟩ ⟨⟩
  exact .cons hstroke (.cons hwidth (.cons hfill (.cons hcap (.cons hjoin .nil))))

theorem settings_judged (h : Reaches v ["svg"] members) :
    Judged v svgFields (fun s => ∀ c : Config, c.svg = s → Holds v svgFields c)
      (settings members) := by
  unfold settings
  simp only [nullable_eq_orElse]
  refine .orElse_bind (h.at? "margin") rfl (number_at hrange rfl) fun margin hmargin => ?_
  refine .orElse_bind (h.at? "precision") rfl (fun _ _ => places_reads rfl) fun places hplaces => ?_
  refine .orElse_bind (h.at? "flip_y") rfl (fun _ _ => boolean_reads rfl) fun flip hflip => ?_
  refine .orElse_bind (h.at? "width") rfl (positive_at hrange rfl) fun width hwidth => ?_
  refine .orElse_bind (h.at? "height") rfl (positive_at hrange rfl) fun height hheight => ?_
  refine (object_judged rfl (h.at? "style")).bind fun style ⟨hobject, hreaches⟩ => ?_
  refine (style_judged hrange hreaches).bind fun style hstyle => ?_
  refine .orElse_bind (h.at? "background") rfl (fun _ _ => orNull_reads (text_reads rfl))
    fun background hbackground => ?_
  refine .ok (List.forall_mem_nil _) ?_
  rintro ⟨name, word, course, start, svg⟩ ⟨⟩
  exact .append (.cons hmargin (.cons hplaces (.cons hflip (.cons hwidth (.cons hheight
    (.cons hobject .nil)))))) (.append (hstyle _ rfl) (.cons hbackground .nil))

theorem ofMembers_judged (h : Reaches v [] members) :
    Judged v rootFields (Holds v rootFields) (ofMembers members) := by
  refine .orElse_bind (h.at? "name") rfl (fun _ _ => text_reads rfl) fun name hname => ?_
  have hlook : v.at? ["word"] = members.get? "word" := h.at? "word"
  cases hword : members.get? "word" with
  | none =>
    rw [hword] at hlook
    refine .refused List.mem_cons_self ?_ ⟨" ", by simp, "is required", by decide +kernel⟩
    rintro ⟨w, hw⟩
    cases (Field.meaning_of_none hlook).mp hw
  | some w =>
    rw [hword] at hlook
    simp only
    rw [← bind_assoc]
    refine (Judged.given hlook (word_reads rfl)).bind fun word hword => ?_
    refine (object_judged rfl (h.at? "turtle")).bind fun turtle ⟨hobject, hturtle⟩ => ?_
    refine (courseAndStart_judged hrange hturtle).bind fun a ha => ?_
    refine (object_judged rfl (h.at? "svg")).bind fun svg ⟨hobject', hsvg⟩ => ?_
    refine (settings_judged hrange hsvg).map fun s hs => ?_
    exact .append (.cons hname (.cons hword (.cons hobject .nil)))
      (.append (ha _ rfl rfl) (.append (.cons hobject' .nil) (hs _ rfl)))

theorem ofJson_judged : Judged v fields (Holds v fields) (ofJson v) := by
  have hroot : v.at? (Field.object []).keys = some v := rfl
  have hobject : Judged v [.object []]
      (fun members => (Field.object []).Meaning v () ∧ Reaches v [] members) (object "root" v) := by
    cases v with
    | object members =>
      have hmeaning : (Field.object []).Meaning (.object members) () :=
        (Field.meaning_of_some hroot).mpr .object
      exact .ok (List.forall_mem_singleton.mpr ⟨(), hmeaning⟩) ⟨hmeaning, reaches_of_object rfl⟩
    | _ =>
      refine .refused (List.mem_singleton_self _) ?_ (begins_wrong rfl .object)
      rintro ⟨u, hu⟩
      cases (Field.meaning_of_some hroot).mp hu
  refine hobject.bind fun members ⟨hmeaning, hmembers⟩ => ?_
  exact (ofMembers_judged hrange hmembers).mono fun c hc => .cons hmeaning hc

end

/-! ## Other keys -/

/-- Under these keys stands the same in both values, but for the members of an object. -/
def SameAt (v v' : Json) (keys : List String) : Prop :=
  (v.at? keys).map Json.shallow = (v'.at? keys).map Json.shallow

section

variable {α β : Type} {v v' : Json} {members members' : Registry Json} {keys : List String}

theorem orElse_congr (h : Reaches v keys members) (h' : Reaches v' keys members') {key : String}
    (hsame : SameAt v v' (keys ++ [key])) {read : Json → Check α}
    (hread : ∀ w, read w.shallow = read w) (default : α) :
    orElse members key default read = orElse members' key default read := by
  have hlook (members : Registry Json) : orElse members key default read =
      ((members.get? key).map Json.shallow).elim (.ok default) read := by
    rw [orElse]
    cases members.get? key with
    | none => rfl
    | some w => exact (hread w).symm
  rw [hlook, hlook, ← h.at?, ← h'.at?, hsame]

theorem object_bind_congr {key path : String} {k k' : Registry Json → Check β}
    (hlook : v.at? keys = members.get? key) (hlook' : v'.at? keys = members'.get? key)
    (hsame : SameAt v v' keys)
    (hk : ∀ ms ms', Reaches v keys ms → Reaches v' keys ms' → k ms = k' ms') :
    orElse members key [] (object path) >>= k = orElse members' key [] (object path) >>= k' := by
  rw [orElse, orElse, ← hlook, ← hlook']
  cases hv : v.at? keys with
  | none =>
    cases hv' : v'.at? keys with
    | none => exact hk [] [] (reaches_of_none hv) (reaches_of_none hv')
    | some w' =>
      rw [SameAt, hv, hv'] at hsame
      cases hsame
  | some w =>
    cases hv' : v'.at? keys with
    | none =>
      rw [SameAt, hv, hv'] at hsame
      cases hsame
    | some w' =>
      rw [SameAt, hv, hv', Option.map_some, Option.map_some, Option.some_inj] at hsame
      cases w with
      | object ms =>
        cases w' with
        | object ms' => exact hk ms ms' (reaches_of_object hv) (reaches_of_object hv')
        | _ => cases hsame
      | _ =>
        cases w' with
        | object ms' => cases hsame
        | _ => rfl

theorem number_shallow (path : String) (w : Json) : number path w.shallow = number path w := by
  cases w <;> rfl

theorem boolean_shallow (path : String) (w : Json) : boolean path w.shallow = boolean path w := by
  cases w <;> rfl

theorem text_shallow (path : String) (w : Json) : text path w.shallow = text path w := by
  cases w <;> rfl

theorem places_shallow (path : String) (w : Json) : places path w.shallow = places path w := by
  cases w <;> rfl

theorem positive_shallow (path : String) (w : Json) :
    positive path w.shallow = positive path w := by
  rw [positive, positive, number_shallow]

theorem orNull_shallow {read : Json → Check α} (hread : ∀ w, read w.shallow = read w) (w : Json) :
    orNull read w.shallow = orNull read w := by
  cases w with
  | object members => exact congrArg (Except.map some) (hread (.object members))
  | _ => rfl

end

section

variable {v v' : Json} (hsame : ∀ keys ∈ fields.map Field.keys, SameAt v v' keys)
  {members members' : Registry Json}
include hsame

theorem pen_congr (h : Reaches v ["turtle", "start"] members)
    (h' : Reaches v' ["turtle", "start"] members') : pen members = pen members' := by
  have hnumber (key path : String) (hkey : ["turtle", "start", key] ∈ fields.map Field.keys) :=
    orElse_congr h h' (hsame _ hkey) (number_shallow path) 0
  rw [pen, pen, hnumber "x" _ (by decide), hnumber "y" _ (by decide),
    hnumber "heading" _ (by decide)]

theorem courseAndStart_congr (h : Reaches v ["turtle"] members)
    (h' : Reaches v' ["turtle"] members') : courseAndStart members = courseAndStart members' := by
  have hnumber (key path : String) (hkey : ["turtle", key] ∈ fields.map Field.keys) :=
    orElse_congr h h' (hsame _ hkey) (number_shallow path)
  have hsnap := orElse_congr h h' (hsame ["turtle", "snap"] (by decide))
    (boolean_shallow "turtle.snap")
  rw [courseAndStart, courseAndStart, hnumber "step" _ (by decide), hnumber "turn" _ (by decide),
    hsnap]
  refine bind_congr fun step => bind_congr fun turn => bind_congr fun snap => ?_
  refine object_bind_congr (h.at? "start") (h'.at? "start") (hsame _ (by decide)) ?_
  intro ms ms' hms hms'
  rw [pen_congr hsame hms hms']

theorem style_congr (h : Reaches v ["svg", "style"] members)
    (h' : Reaches v' ["svg", "style"] members') : style members = style members' := by
  have htext (key path : String) (hkey : ["svg", "style", key] ∈ fields.map Field.keys) :=
    orElse_congr h h' (hsame _ hkey) (text_shallow path)
  have hwidth := orElse_congr h h' (hsame ["svg", "style", "stroke_width"] (by decide))
    (number_shallow "svg.style.stroke_width")
  rw [style, style, htext "stroke" _ (by decide), hwidth, htext "fill" _ (by decide),
    htext "stroke_linecap" _ (by decide), htext "stroke_linejoin" _ (by decide)]

theorem settings_congr (h : Reaches v ["svg"] members) (h' : Reaches v' ["svg"] members') :
    settings members = settings members' := by
  have hleaf {α : Type} (key : String) (hkey : ["svg", key] ∈ fields.map Field.keys)
      {read : Json → Check α} (hread : ∀ w, read w.shallow = read w) (default : α) :=
    orElse_congr h h' (hsame _ hkey) hread default
  rw [settings, settings]
  simp only [nullable_eq_orElse]
  rw [hleaf "margin" (by decide) (number_shallow _),
    hleaf "precision" (by decide) (places_shallow _),
    hleaf "flip_y" (by decide) (boolean_shallow _),
    hleaf "width" (by decide) (orNull_shallow (positive_shallow _)),
    hleaf "height" (by decide) (orNull_shallow (positive_shallow _)),
    hleaf "background" (by decide) (orNull_shallow (text_shallow _))]
  refine bind_congr fun margin => bind_congr fun places => bind_congr fun flip =>
    bind_congr fun width => bind_congr fun height => ?_
  refine object_bind_congr (h.at? "style") (h'.at? "style") (hsame _ (by decide)) ?_
  intro ms ms' hms hms'
  rw [style_congr hsame hms hms']

theorem ofMembers_congr (h : Reaches v [] members) (h' : Reaches v' [] members') :
    ofMembers members = ofMembers members' := by
  have hname := orElse_congr h h' (hsame ["name"] (by decide)) (text_shallow "name")
  rw [ofMembers, ofMembers, hname]
  refine bind_congr fun name => ?_
  have hlook : v.at? ["word"] = members.get? "word" := h.at? "word"
  have hlook' : v'.at? ["word"] = members'.get? "word" := h'.at? "word"
  have hword := hsame ["word"] (by decide)
  rw [SameAt, hlook, hlook'] at hword
  cases hw : members.get? "word" with
  | none =>
    rw [hw, Option.map_none, eq_comm, Option.map_eq_none_iff] at hword
    rw [hword]
  | some w =>
    rw [hw, Option.map_some, eq_comm, Option.map_eq_some_iff] at hword
    obtain ⟨w', hw', hshallow⟩ := hword
    rw [hw']
    simp only
    rw [← text_shallow "word" w, ← hshallow, text_shallow]
    refine bind_congr fun s => bind_congr fun word => ?_
    refine object_bind_congr (h.at? "turtle") (h'.at? "turtle") (hsame _ (by decide)) ?_
    intro turtle turtle' hturtle hturtle'
    rw [courseAndStart_congr hsame hturtle hturtle']
    refine bind_congr fun a => ?_
    refine object_bind_congr (h.at? "svg") (h'.at? "svg") (hsame _ (by decide)) ?_
    intro svg svg' hsvg hsvg'
    rw [settings_congr hsame hsvg hsvg']

theorem ofJson_congr : ofJson v = ofJson v' := by
  have hroot : some v.shallow = some v'.shallow := hsame [] (by decide)
  cases v with
  | object members =>
    cases v' with
    | object members' => exact ofMembers_congr hsame (reaches_of_object rfl) (reaches_of_object rfl)
    | _ => cases hroot
  | _ =>
    cases v' with
    | object members' => cases hroot
    | _ => rfl

end

/-- A value whose integers are all within the range of the doubles is a config exactly if every
field finds a value of its kind in its place, or nothing where it has a default. The config holds
what the fields mean: the given values, numbers as the doubles nearest to them, and the defaults
for those that are absent. A refusal is a config error that begins with the path of a field that
finds neither. Two values with the same in all these places, but for the members of their objects,
are read alike. -/
theorem ofJson_documented {v : Json} (hrange : v.IsInRange) :
    ((∃ c, ofJson v = .ok c) ↔ ∀ f ∈ fields, f.Accepts v) ∧
    (∀ c, ofJson v = .ok c → Holds v fields c) ∧
    (∀ x, ofJson v = .error x → ∃ e, x = .invalid e ∧
      ∃ f ∈ fields, ¬f.Accepts v ∧ f.Begins e.message) ∧
    ∀ v', (∀ f ∈ fields, SameAt v v' f.keys) → ofJson v = ofJson v' := by
  have hjudged := ofJson_judged hrange
  refine ⟨?_, ?_, ?_, fun v' hsame => ofJson_congr (List.forall_mem_map.mpr hsame)⟩
  · constructor
    · rintro ⟨c, hc⟩
      rw [hc] at hjudged
      cases hjudged with
      | ok hfields hholds => exact hfields
    · intro hfields
      generalize ofJson v = x at hjudged ⊢
      cases hjudged with
      | ok _ hholds => exact ⟨_, rfl⟩
      | refused hf hnot _ => exact absurd (hfields _ hf) hnot
  · intro c hc
    rw [hc] at hjudged
    cases hjudged with
    | ok _ hholds => exact hholds
  · intro x hx
    rw [hx] at hjudged
    cases hjudged with
    | refused hf hnot hbegins => exact ⟨_, rfl, _, hf, hnot, hbegins⟩

/-- A word, a step that is an integer, a background of null and a key that is none of a field. -/
theorem ofJson_documented_step :
    let v : Json := .object [("word", .string "F"), ("turtle", .object [("step", .integer 5)]),
      ("svg", .object [("background", .null)]), ("note", .bool true)]
    v.IsInRange ∧ (∀ f ∈ fields, f.Accepts v) ∧ ∃ c, ofJson v = .ok c ∧ Holds v fields c := by
  have hrange : Json.IsInRange (.object [("word", .string "F"),
      ("turtle", .object [("step", .integer 5)]), ("svg", .object [("background", .null)]),
      ("note", .bool true)]) := by
    rintro n (_ | _ | ⟨hmember, h⟩)
    simp only [List.mem_cons, Prod.mk.injEq, List.not_mem_nil, or_false] at hmember
    rcases hmember with ⟨rfl, rfl⟩ | ⟨rfl, rfl⟩ | ⟨rfl, rfl⟩ | ⟨rfl, rfl⟩
    · cases h
    · obtain _ | _ | ⟨hmember, h⟩ := h
      obtain ⟨rfl, rfl⟩ := Prod.mk.inj (List.mem_singleton.mp hmember)
      cases h
      decide +kernel
    · obtain _ | _ | ⟨hmember, h⟩ := h
      obtain ⟨rfl, rfl⟩ := Prod.mk.inj (List.mem_singleton.mp hmember)
      cases h
    · cases h
  intro v
  have hok : (ofJson v).isOk = true := by decide +kernel
  obtain ⟨haccepted, hholds, _⟩ := ofJson_documented hrange
  cases hc : ofJson v with
  | error x =>
    rw [hc] at hok
    cases hok
  | ok c => exact ⟨hrange, haccepted.mp ⟨c, hc⟩, c, rfl, hholds c hc⟩

end Config
end BracketTurtle
