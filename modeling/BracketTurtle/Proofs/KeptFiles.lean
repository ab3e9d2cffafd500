import BracketTurtle.Proofs.PlainArguments
import BracketTurtle.Proofs.RoundTrips

/-!
# Kept files

A program that fails has not touched a file. What it can leave behind is directories: those that
were made for a file that then could not be saved. They lie on the way to that file, as the text of
its path has it, and no failure before the saving leaves any. All this holds of configs whose
strings are texts: a drawing with half of a pair in it has no bytes, which shows only when its file
is open.
-/

namespace BracketTurtle

namespace FileTree

/-- All that stood in the first tree stands in the second as it was, and what is new there is
directories at the given places. -/
structure Grows (t t' : FileTree) (place : Location → Prop) : Prop where
  kept : ∀ {l e}, t.at? l = some e → t'.at? l = some e
  gained : ∀ {l e}, t.at? l = none → t'.at? l = some e → e = .directory ∧ place l

namespace Grows

variable {t t' t'' : FileTree} {place : Location → Prop}

theorem refl (t : FileTree) (place : Location → Prop) : Grows t t place := by
  refine ⟨id, ?_⟩
  intro l e hnone hsome
  rw [hnone] at hsome
  cases hsome

theorem trans (h : Grows t t' place) (h' : Grows t' t'' place) : Grows t t'' place := by
  refine ⟨fun hl => h'.kept (h.kept hl), ?_⟩
  intro l e hnone hsome
  cases hmid : t'.at? l with
  | none => exact h'.gained hmid hsome
  | some e' =>
    obtain rfl := Option.some.inj ((h'.kept hmid).symm.trans hsome)
    exact h.gained hnone hmid

theorem mono {place' : Location → Prop} (h : Grows t t' place) (hplace : ∀ l, place l → place' l) :
    Grows t t' place' :=
  ⟨h.kept, fun hnone hsome => (h.gained hnone hsome).imp id (hplace _)⟩

theorem put_directory {l : Location} (hfree : t.at? l = none) (hl : place l) :
    Grows t (t.put l .directory) place := by
  have hroot : l ≠ [] := by
    rintro rfl
    cases hfree
  constructor
  · intro m e hm
    have hne : m ≠ l := by
      rintro rfl
      rw [hfree] at hm
      cases hm
    rw [at?_put_of_ne t hne, hm]
  · intro m e hnone hsome
    by_cases hm : m = l
    · subst hm
      rw [at?_put_self t hroot] at hsome
      exact ⟨(Option.some.inj hsome).symm, hl⟩
    · rw [at?_put_of_ne t hm, hnone] at hsome
      cases hsome

theorem at?_eq (h : Grows t t' place) (hplace : ∀ l, place l → t.at? l = some .directory)
    (l : Location) : t'.at? l = t.at? l := by
  cases hl : t.at? l with
  | some e => exact h.kept hl
  | none =>
    cases hl' : t'.at? l with
    | none => rfl
    | some e =>
      rw [hplace l (h.gained hl hl').2] at hl
      cases hl

end Grows

/-- Directories are made on the way and nowhere else. -/
theorem makeDirectories_grows (root : List Char) (here : Location) (t : FileTree)
    (names : List Name) :
    Grows t (makeDirectories root here t names).1 (· <+: here ++ names) := by
  induction names generalizing here t with
  | nil => exact .refl t _
  | cons n ns ih =>
    have hway : here ++ [n] ++ ns = here ++ n :: ns := List.append_cons here n ns |>.symm
    have hnext : here ++ [n] <+: here ++ n :: ns := ⟨ns, hway⟩
    have hrest (t : FileTree) := hway ▸ ih (here ++ [n]) t
    simp only [makeDirectories]
    split
    · exact .refl t _
    · split
      · exact .refl t _
      · split
        · exact .refl t _
        · split
          · exact .refl t _
          · split
            · rename_i hfree
              exact (Grows.put_directory hfree hnext).trans (hrest _)
            · exact hrest t
            · split
              · exact .refl t _
              · exact hrest t

/-- The directories that the text of a path puts its file in, from the root down. -/
def OnWay (here : Location) (path : String) (l : Location) : Prop :=
  l <+: ((Path.ofText path).location here).dropLast

theorem makeParents_grows (t : FileTree) (here : Location) (path : String) :
    Grows t (t.makeParents here path).1 (OnWay here path) :=
  makeDirectories_grows _ [] t _

/-- What could not be saved has left at most directories on its way. -/
theorem grows_of_save_eq_error {t t' : FileTree} {here : Location} {path : String}
    {bytes : List UInt8} {e : FileError} (h : t.save here path bytes = (t', .error e)) :
    Grows t t' (OnWay here path) := by
  have hgrows := makeParents_grows t here path
  unfold save at h
  split at h
  · rename_i made e' hmade
    cases h
    rwa [hmade] at hgrows
  · rename_i made _ hmade
    rw [hmade] at hgrows
    split at h
    · cases h
      exact hgrows
    · cases h

end FileTree

def Request.output? : Request → Option String
  | .render _ output _ => output
  | .random output _ => some output
  | .validate _ | .show _ => none

namespace Program

/-- What `render` has in hand when it comes to save: a config of texts that takes the word and can
be drawn. -/
def HasDrawing (A : Arithmetic) (t : FileTree) (here : Location) (config : String)
    (word : Option String) : Prop :=
  ∃ given c text, LoadsTexts t here config given ∧ override word given = .ok c ∧
    drawingOf c (plotOf A c) = .ok text

/-- All that can fail before the saving of a request has not failed. -/
def IsReady (A : Arithmetic) (t : FileTree) (here : Location) : Request → Prop
  | .render config _ word => HasDrawing A t here config word
  | .validate _ | .show _ | .random _ _ => True

/-- How a job ends that changes a tree: well, or, once it was ready, with the failure of a save. -/
inductive Leaves (verbose : Bool) (ready : Prop) (output : Option String) (here : Location)
    (t : FileTree) : Report × FileTree → Prop
  | well {r : Report} {t' : FileTree} :
      r.ending = .exit 0 → Leaves verbose ready output here t (r, t')
  | untouched (r : Report) : Leaves verbose ready output here t (r, t)
  | unsaved {path : String} {t' : FileTree} (notices : List Notice) (e : FileError) :
      ready → output = some path → t.Grows t' (FileTree.OnWay here path) →
        Leaves verbose ready output here t (.failure verbose [] notices (.file e), t')

section

variable (A : Arithmetic) (verbose : Bool) (output : Option String) {ready : Prop} {here : Location}
  {t : FileTree}

theorem saving_leaves (hready : ready) (notices after : List Notice) (path text : String) :
    Leaves verbose ready (some path) here t
      ((saving verbose notices path text after).run here t) := by
  unfold saving
  rw [Job.run]
  cases hsave : t.save here path (Utf8.encode text.toList) with
  | mk t' result =>
    cases result with
    | error e => exact .unsaved notices e hready rfl (FileTree.grows_of_save_eq_error hsave)
    | ok _ => exact .well rfl

theorem render_leaves (word : Option String) {config : String}
    (htexts : ∀ c, Loads t here config c → LoadsTexts t here config c) :
    Leaves verbose (HasDrawing A t here config word) output here t
      ((render A verbose config output word).run here t) := by
  unfold render
  rw [Job.run]
  cases hread : t.read here config with
  | error e => exact .untouched _
  | ok bytes =>
    cases hconfig : configOf config bytes with
    | error f =>
      simp only [hconfig]
      exact .untouched _
    | ok given =>
      have hgiven := htexts given ⟨bytes, hread, hconfig⟩
      simp only [hconfig]
      cases hword : override word given with
      | error f => exact .untouched _
      | ok c =>
        simp only
        cases hdrawing : drawingOf c (plotOf A c) with
        | error f => exact .untouched _
        | ok text =>
          cases output with
          | none => exact .untouched _
          | some path => exact saving_leaves verbose ⟨given, c, text, hgiven, hword, hdrawing⟩ ..

theorem validate_leaves (config : String) :
    Leaves verbose ready output here t ((validate A verbose config).run here t) := by
  unfold validate
  rw [Job.run]
  cases t.read here config with
  | error e => exact .untouched _
  | ok bytes =>
    cases hconfig : configOf config bytes with
    | error f =>
      simp only [hconfig]
      exact .untouched _
    | ok c =>
      simp only [hconfig]
      exact .untouched _

theorem perform_leaves (fresh : ℤ) (i : Invocation)
    (htexts : ∀ config output word c, i.request = .render config output word →
      Loads t here config c → LoadsTexts t here config c) :
    Leaves i.verbose (IsReady A t here i.request) i.request.output? here t
      ((perform A fresh i).run here t) := by
  obtain ⟨verbose, request⟩ := i
  cases request with
  | render config output word =>
    exact render_leaves A verbose output word fun c => htexts config output word c rfl
  | validate config => exact validate_leaves ..
  | random output seed =>
    cases seed with
    | fresh => exact saving_leaves verbose trivial ..
    | given seed => exact saving_leaves verbose trivial ..
    | missing => exact .untouched _
  | _ => exact .untouched _

end

/-- A program that does not end well leaves the tree as it was, or it could not save its output,
which it was ready for, and has made no more than directories on the way to it: every file and
directory is still there as it was, and the tree is as before if the way was there. The strings of a
config to be drawn are texts. -/
theorem failure_keeps_files (A : Arithmetic) (fresh : ℤ) (arguments : List String) (here : Location)
    (t : FileTree)
    (htexts : ∀ i config output word c, CommandLine.read arguments = .accepted i →
      i.request = .render config output word → Loads t here config c → LoadsTexts t here config c)
    (h : ((job A fresh arguments).run here t).1.ending ≠ .exit 0) :
    let ran := (job A fresh arguments).run here t
    ran.2 = t ∨
      ∃ i path notices e, CommandLine.read arguments = .accepted i ∧
        IsReady A t here i.request ∧ i.request.output? = some path ∧
        ran.1 = .failure i.verbose [] notices (.file e) ∧
        (∀ l e, t.at? l = some e → ran.2.at? l = some e) ∧
        (∀ l e, t.at? l = none → ran.2.at? l = some e →
          e = .directory ∧ l <+: ((Path.ofText path).location here).dropLast) ∧
        ((∀ l, l <+: ((Path.ofText path).location here).dropLast → t.at? l = some .directory) →
          ∀ l, ran.2.at? l = t.at? l) := by
  intro ran
  cases harguments : CommandLine.read arguments with
  | help g =>
    left
    simp only [ran, job, harguments, Job.run_finish]
  | refused g c =>
    left
    simp only [ran, job, harguments, Job.run_finish]
  | accepted i =>
    have hjob : job A fresh arguments = perform A fresh i := by rw [job, harguments]
    have hleaves : Leaves i.verbose (IsReady A t here i.request) i.request.output? here t
        ((perform A fresh i).run here t) :=
      perform_leaves A fresh i fun config output word c => htexts i config output word c harguments
    rw [← hjob] at hleaves
    generalize hran : (job A fresh arguments).run here t = result at h hleaves
    have hran' : ran = result := hran
    rw [hran']
    cases hleaves with
    | well hend => exact absurd hend h
    | untouched r => exact .inl rfl
    | unsaved notices e hready hpath hgrows =>
      exact .inr ⟨i, _, notices, e, rfl, hready, hpath, rfl, fun _ _ => hgrows.kept,
        fun _ _ => hgrows.gained, hgrows.at?_eq⟩

/-- A drawing that is to go where a directory is asked for. -/
theorem failure_keeps_files_render :
    let v := Json.object [("word", .string "F")]
    let t := onlyConfig (String.ofList v.fileChars)
    let ran := (job straight.1 0 ["render", "c", "n/o/"]).run [] t
    (∀ c, Loads t [] "c" c → LoadsTexts t [] "c" c) ∧ ran.1.ending = .exit 2 ∧
      HasDrawing straight.1 t [] "c" none ∧
      t.at? [['n']] = none ∧ ran.2.at? [['n']] = some .directory ∧
      (∀ l e, t.at? l = some e → ran.2.at? l = some e) ∧
      ∀ l e, t.at? l = none → ran.2.at? l = some e → e = .directory ∧ l <+: [['n']] := by
  intro v t ran
  have hkeys : v.HasDistinctKeys := .singleton (.string _)
  have hread : t.read [] "c" = .ok (Utf8.encode v.fileChars) := by
    rw [read_onlyConfig, String.toList_ofList]
  have htexts (c : Config) : Loads t [] "c" c → LoadsTexts t [] "c" c :=
    loadsTexts_of_loads hkeys hread
  have haccepted : CommandLine.read ["render", "c", "n/o/"] =
      .accepted ⟨false, .render "c" (some "n/o/") none⟩ :=
    CommandLine.read_render (by decide) (by decide)
  have hend : ran.1.ending = .exit 2 := Ending.eq_exit_of_code? (by decide +kernel)
  have hfail : ran.1.ending ≠ .exit 0 := by
    rw [hend]
    simp
  have hnew : t.at? [['n']] = none := by decide
  have hmade : ran.2.at? [['n']] = some .directory := by decide +kernel
  have hasked (i : Invocation) (config : String) (output word : Option String) (c : Config)
      (hi : CommandLine.read ["render", "c", "n/o/"] = .accepted i)
      (hrequest : i.request = .render config output word) (hload : Loads t [] config c) :
      LoadsTexts t [] config c := by
    rw [haccepted] at hi
    cases hi
    cases hrequest
    exact htexts c hload
  rcases failure_keeps_files straight.1 0 ["render", "c", "n/o/"] [] t hasked hfail with
    hsame | ⟨i, path, notices, e, hi, hready, hpath, _, hkept, hgained, _⟩
  · have hran : ran.2 = t := hsame
    rw [hran, hnew] at hmade
    cases hmade
  · rw [haccepted] at hi
    cases hi
    cases hpath
    exact ⟨htexts, hend, hready, hnew, hmade, hkept, hgained⟩

/-- A slash at the end asks for a directory, which shows only after the one it is in was made. -/
theorem failure_leaves_directory :
    ¬∀ (A : Arithmetic) (fresh : ℤ) (arguments : List String) (here : Location) (t : FileTree),
      ((job A fresh arguments).run here t).1.ending ≠ .exit 0 →
        ∀ l, ((job A fresh arguments).run here t).2.at? l = t.at? l := by
  intro h
  have hend : ((job .machine 0 ["random", "n/o/"]).run [] .empty).1.ending = .exit 2 :=
    Ending.eq_exit_of_code? (by decide +kernel)
  have hmade : ((job .machine 0 ["random", "n/o/"]).run [] .empty).2.at? [['n']] =
      some .directory := by decide +kernel
  have hsame := h .machine 0 ["random", "n/o/"] [] .empty (by simp [hend]) [['n']]
  rw [hmade] at hsame
  cases hsame

end Program
end BracketTurtle
