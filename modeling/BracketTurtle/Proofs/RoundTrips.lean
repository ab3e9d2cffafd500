import BracketTurtle.Proofs.Endings
import BracketTurtle.Proofs.JsonTexts
import BracketTurtle.Proofs.Outcomes
import BracketTurtle.Proofs.SavedFiles
import BracketTurtle.Proofs.Utf8Texts

/-!
# Round trips of saved values

A value that is saved is loaded again as it was: the line ends that a reader unifies, the encoding
of the bytes and the layout of the text are all undone. What has been loaded once has each key once,
so saving it and loading it changes nothing any more.
-/

namespace BracketTurtle
namespace Program

def LoadsValue (t : FileTree) (here : Location) (path : String) (v : Json) : Prop :=
  ∃ bytes, t.read here path = .ok bytes ∧ valueOf path bytes = .ok v

theorem LoadsValue.unique {t : FileTree} {here : Location} {path : String} {v w : Json}
    (hv : LoadsValue t here path v) (hw : LoadsValue t here path w) : v = w := by
  obtain ⟨bytes, hbytes, hv⟩ := hv
  obtain ⟨bytes', hbytes', hw⟩ := hw
  obtain rfl := Except.ok.inj (hbytes.symm.trans hbytes')
  exact Except.ok.inj (hv.symm.trans hw)

theorem loads_iff {t : FileTree} {here : Location} {path : String} {c : Config} :
    Loads t here path c ↔ ∃ v, LoadsValue t here path v ∧ Config.ofJson v = .ok c := by
  constructor
  · rintro ⟨bytes, hbytes, hconfig⟩
    unfold configOf configWith at hconfig
    split at hconfig
    · cases hconfig
    · rename_i v hv
      exact ⟨v, ⟨bytes, hbytes, hv⟩, mapError_eq_ok.mp hconfig⟩
  · rintro ⟨v, ⟨bytes, hbytes, hv⟩, hc⟩
    rw [valueOf] at hv
    exact ⟨bytes, hbytes, by simp [configOf, configWith, hv, hc, Except.mapError]⟩

theorem valueWith_fileChars (half : Char) {v : Json} (hv : v.HasDistinctKeys) (path : String) :
    valueWith half path (Utf8.encode v.fileChars) = .ok v := by
  have hlines := Text.unifyLineEnds_eq_self (Json.return_not_mem_fileChars v)
  simp only [valueWith, Utf8.decode_encode, hlines, Json.readWith_fileChars half hv]

theorem loadsTexts_of_loads {t : FileTree} {here : Location} {path : String} {v : Json} {c : Config}
    (hv : v.HasDistinctKeys) (hbytes : t.read here path = .ok (Utf8.encode v.fileChars))
    (h : Loads t here path c) : LoadsTexts t here path c := by
  obtain ⟨bytes, hbytes', hconfig⟩ := h
  obtain rfl := Except.ok.inj (hbytes.symm.trans hbytes')
  refine ⟨_, hbytes, fun half => ?_⟩
  rw [configOf, configWith, valueWith_fileChars _ hv] at hconfig
  rwa [configWith, valueWith_fileChars _ hv]

theorem hasDistinctKeys_of_valueOf {path : String} {bytes : List UInt8} {v : Json}
    (h : valueOf path bytes = .ok v) : v.HasDistinctKeys := by
  unfold valueOf valueWith at h
  split at h
  · cases h
  · split at h
    · cases h
    · rename_i hread
      cases h
      exact Json.hasDistinctKeys_of_readWith hread

theorem LoadsValue.hasDistinctKeys {t : FileTree} {here : Location} {path : String} {v : Json}
    (h : LoadsValue t here path v) : v.HasDistinctKeys := by
  obtain ⟨_, _, hv⟩ := h
  exact hasDistinctKeys_of_valueOf hv

theorem loadsValue_of_save {v : Json} (hv : v.HasDistinctKeys) {t t' : FileTree} {here : Location}
    {path : String} (h : t.save here path (Utf8.encode v.fileChars) = (t', .ok ())) :
    LoadsValue t' here path v :=
  ⟨_, FileTree.read_of_save h, valueWith_fileChars _ hv path⟩

end Program

/-- A value whose objects have each key once is loaded as it was saved, wherever that is, and any
value is saved under a name that is free in a working directory. What was loaded is saved as a text
that does not change when it is loaded and saved once more, which it can be. -/
theorem saved_values_load (t : FileTree) (here : Location) (path : String) :
    (∀ (v : Json) (t₁ : FileTree), v.HasDistinctKeys →
      t.save here path (Utf8.encode v.fileChars) = (t₁, .ok ()) →
        Program.LoadsValue t₁ here path v) ∧
    (t.IsWorkplace here → t.IsFresh here path →
      ∀ v : Json, (t.save here path (Utf8.encode v.fileChars)).2 = .ok ()) ∧
    ∀ (v : Json) (t₁ : FileTree), Program.LoadsValue t here path v →
      t.save here path (Utf8.encode v.fileChars) = (t₁, .ok ()) →
        Program.LoadsValue t₁ here path v ∧
          ∀ w, Program.LoadsValue t₁ here path w →
            ∃ t₂, t₁.save here path (Utf8.encode w.fileChars) = (t₂, .ok ()) ∧
              t₂.read here path = t₁.read here path := by
  refine ⟨?_, ?_, ?_⟩
  · intro v t₁ hv hsave
    exact Program.loadsValue_of_save hv hsave
  · intro hplace hfresh v
    rw [FileTree.save_of_isFresh hplace hfresh]
  · intro v t₁ hload hsave
    have hreload := Program.loadsValue_of_save hload.hasDistinctKeys hsave
    refine ⟨hreload, ?_⟩
    intro w hw
    obtain rfl := hw.unique hreload
    have hagain := FileTree.save_again hsave (Utf8.encode w.fileChars)
    refine ⟨_, Prod.ext rfl hagain, ?_⟩
    rw [FileTree.read_of_save (Prod.ext rfl hagain), FileTree.read_of_save hsave]

/-- A value with every kind of value in it, with control characters, an empty key and numbers that
have to be written with an exponent. -/
def motley : Json :=
  .object
    [("z\r\n\"\\\x00\u2028😀", .array [.null, .bool true, .array [], .object []]),
      ("", .object [("a", .integer (-10 ^ 30)), ("b", .number (-0.0)), ("c", .number 5e-324)]),
      ("n", .array [.number (0.0 / 0.0), .number (-1.0 / 0.0), .number 1.0, .string "\x7f"])]

theorem motley_hasDistinctKeys : motley.HasDistinctKeys := by
  have hempty : (Json.object []).HasDistinctKeys := .object (by simp) (by simp)
  refine .object (by decide) ?_
  simp only [List.forall_mem_cons]
  refine ⟨.array ?_, .object (by decide) ?_, .array ?_, by simp⟩
  all_goals simp only [List.forall_mem_cons]
  · exact ⟨.null, .bool true, .array (by simp), hempty, by simp⟩
  · exact ⟨.integer _, .number _, .number _, by simp⟩
  · exact ⟨.number _, .number _, .number _, .string _, by simp⟩

def onlyValue (v : Json) : FileTree := FileTree.empty.put [['o']] (.file (Utf8.encode v.fileChars))

theorem save_onlyValue (v : Json) :
    FileTree.empty.save [] "o" (Utf8.encode v.fileChars) = (onlyValue v, .ok ()) := rfl

theorem save_onlyValue_again (v w : Json) :
    (onlyValue v).save [] "o" (Utf8.encode w.fileChars) = (onlyValue w, .ok ()) := rfl

theorem saved_values_load_motley :
    motley.HasDistinctKeys ∧ FileTree.empty.IsWorkplace [] ∧ FileTree.empty.IsFresh [] "o" ∧
      (FileTree.empty.save [] "o" (Utf8.encode motley.fileChars)).2 = .ok () ∧
      Program.LoadsValue (onlyValue motley) [] "o" motley ∧
      ∀ w, Program.LoadsValue (onlyValue motley) [] "o" w →
        ∃ t₂, (onlyValue motley).save [] "o" (Utf8.encode w.fileChars) = (t₂, .ok ()) ∧
          t₂.read [] "o" = (onlyValue motley).read [] "o" := by
  have hplace : FileTree.empty.IsWorkplace [] := FileTree.isWorkplace_root _
  have hfresh : FileTree.empty.IsFresh [] "o" := by decide
  obtain ⟨hreload, hsaved, _⟩ := saved_values_load FileTree.empty [] "o"
  have hload := hreload motley (onlyValue motley) motley_hasDistinctKeys (save_onlyValue motley)
  have hagain := (saved_values_load (onlyValue motley) [] "o").2.2 motley (onlyValue motley) hload
    (save_onlyValue_again motley motley)
  exact ⟨motley_hasDistinctKeys, hplace, hfresh, hsaved hplace hfresh motley, hload, hagain.2⟩

end BracketTurtle
