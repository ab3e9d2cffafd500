import BracketTurtle.Files.Tree
import Mathlib.Tactic

/-!
# Saved files

A file that was saved is read back under the path it was saved under: what is written is no
directory, so no way through the tree is changed by it. For the same reason anything can be saved
where something was. And a file is saved whenever its name is free in a working directory that is
there.
-/

namespace BracketTurtle
namespace FileTree

/-! ## Reading back -/

theorem walk_cons_eq_ok {t : FileTree} {here m : Location} {n : Name} {ns : List Name}
    (hhere : n ≠ .here) (hparent : n ≠ .parent) :
    t.walk here (n :: ns) = .ok m ↔
      nameTooLong n = false ∧ t.at? (here ++ [n]) = some .directory ∧
        t.walk (here ++ [n]) ns = .ok m := by
  rw [walk, if_neg hhere, if_neg hparent, look]
  cases hlong : nameTooLong n with
  | true => simp
  | false =>
    rcases hat : t.at? (here ++ [n]) with _ | ⟨bytes | _⟩
    · simp
    · simp
    · simp

/-- A walk through directories does not meet what is put where none is. -/
theorem walk_put {t : FileTree} {l : Location} (hl : t.at? l ≠ some .directory) (e : Entry)
    {here m : Location} {ns : List Name} (h : t.walk here ns = .ok m) :
    (t.put l e).walk here ns = .ok m := by
  induction ns generalizing here with
  | nil => exact h
  | cons n ns ih =>
    by_cases hhere : n = .here
    · rw [walk, if_pos hhere] at h ⊢
      exact ih h
    · by_cases hparent : n = .parent
      · rw [walk, if_neg hhere, if_pos hparent] at h ⊢
        exact ih h
      · obtain ⟨hlong, hat, hrest⟩ := (walk_cons_eq_ok hhere hparent).mp h
        have hne : here ++ [n] ≠ l := by
          rintro rfl
          exact hl hat
        refine (walk_cons_eq_ok hhere hparent).mpr ⟨hlong, ?_, ih hrest⟩
        rw [at?_put_of_ne t hne, hat]

theorem target_put {t : FileTree} {l : Location} (hl : t.at? l ≠ some .directory) (e : Entry)
    {here : Location} {p : Path} {target : Target} (h : t.target here p = .ok target) :
    (t.put l e).target here p = .ok target := by
  unfold FileTree.target at h ⊢
  split at h
  · exact h
  · split at h
    · cases h
    · rename_i hwalk
      rw [walk_put hl e hwalk]
      exact h

theorem writeTarget_eq_ok {t : FileTree} {here l : Location} {p : Path}
    (h : t.writeTarget here p = .ok l) :
    ∃ parent name, t.target here p = .ok (.entry parent name) ∧ p.closed = false ∧
      nameTooLong name = false ∧ t.at? l ≠ some .directory ∧ l = parent ++ [name] := by
  unfold writeTarget at h
  split at h
  · cases h
  · cases h
  · rename_i parent name htarget
    by_cases hclosed : p.closed = true
    · rw [if_pos hclosed] at h
      cases h
    · rw [if_neg hclosed] at h
      unfold look at h
      by_cases hlong : nameTooLong name = true
      · rw [if_pos hlong] at h
        cases h
      · rw [if_neg hlong] at h
        have hfree : t.at? (parent ++ [name]) ≠ some .directory := by
          intro hat
          rw [hat] at h
          cases h
        split at h
        · cases h
        · cases h
        · cases h
          exact ⟨parent, name, htarget, by simpa using hclosed, by simpa using hlong, hfree, rfl⟩

theorem write_eq_ok {t t' : FileTree} {here : Location} {path : String} {bytes : List UInt8}
    (h : t.write here path bytes = .ok t') :
    ∃ p l, openPath path = .ok p ∧ t.writeTarget here p = .ok l ∧ t' = t.put l (.file bytes) := by
  unfold write at h
  split at h
  · cases h
  · rename_i p hopen
    split at h
    · cases h
    · rename_i l htarget
      cases h
      exact ⟨p, l, hopen, htarget, rfl⟩

theorem read_of_write {t t' : FileTree} {here : Location} {path : String} {bytes : List UInt8}
    (h : t.write here path bytes = .ok t') : t'.read here path = .ok bytes := by
  obtain ⟨p, l, hopen, hwrite, rfl⟩ := write_eq_ok h
  obtain ⟨parent, name, htarget, hclosed, hlong, hfree, rfl⟩ := writeTarget_eq_ok hwrite
  have hlook : (t.put (parent ++ [name]) (.file bytes)).look parent name =
      .ok (some (.file bytes)) := by
    rw [look, hlong, at?_put_self t (by simp)]
    rfl
  simp only [read, hopen, bytesOf, target_put hfree (.file bytes) htarget, hlook, hclosed]
  rfl

theorem save_eq_ok {t t' : FileTree} {here : Location} {path : String} {bytes : List UInt8}
    (h : t.save here path bytes = (t', .ok ())) :
    ∃ made, t.makeParents here path = (made, .ok ()) ∧ made.write here path bytes = .ok t' := by
  unfold save at h
  split at h
  · cases h
  · rename_i made _ hmade
    split at h
    · cases h
    · rename_i hwrite
      cases h
      exact ⟨made, hmade, hwrite⟩

theorem read_of_save {t t' : FileTree} {here : Location} {path : String} {bytes : List UInt8}
    (h : t.save here path bytes = (t', .ok ())) : t'.read here path = .ok bytes := by
  obtain ⟨made, _, hwrite⟩ := save_eq_ok h
  exact read_of_write hwrite

/-! ## Saving again -/

section

variable {root : List Char} {here : Location} {t made : FileTree} {n : Name} {ns : List Name}

theorem makeDirectories_cons_eq_ok (h : makeDirectories root here t (n :: ns) = (made, .ok ())) :
    ('\x00' ∉ n ∧ pathTooLong (Path.locationText root (here ++ [n])) = false ∧
        t.at? here = some .directory ∧ nameTooLong n = false) ∧
      ∃ t' : FileTree, (∀ l, t.at? l = some .directory → t'.at? l = some .directory) ∧
        t'.at? (here ++ [n]) = some .directory ∧
        makeDirectories root (here ++ [n]) t' ns = (made, .ok ()) := by
  have hchecks : '\x00' ∉ n ∧ pathTooLong (Path.locationText root (here ++ [n])) = false ∧
      t.at? here = some .directory ∧ nameTooLong n = false := by
    simp only [makeDirectories] at h
    split at h
    · cases h
    · split at h
      · cases h
      · split at h
        · cases h
        · split at h
          · cases h
          · simp_all
  refine ⟨hchecks, ?_⟩
  obtain ⟨hnull, hpath, hhere, hname⟩ := hchecks
  simp only [makeDirectories, if_neg hnull, hpath, hhere, hname, ne_eq, not_true_eq_false, if_false,
    Bool.false_eq_true] at h
  rcases hnext : t.at? (here ++ [n]) with _ | ⟨bytes | _⟩
  · rw [hnext] at h
    refine ⟨_, ?_, at?_put_self t (by simp) _, h⟩
    intro l hl
    have hne : l ≠ here ++ [n] := by
      rintro rfl
      rw [hnext] at hl
      cases hl
    rw [at?_put_of_ne t hne, hl]
  · -- A file on the way is met at the name after it.
    rw [hnext] at h
    cases ns with
    | nil => cases h
    | cons m ms =>
      have hfile : t.at? (here ++ [n]) ≠ some .directory := by
        rw [hnext]
        nofun
      simp only [List.isEmpty_cons, Bool.false_eq_true, if_false, makeDirectories, if_pos hfile]
        at h
      split_ifs at h <;> cases h
  · rw [hnext] at h
    exact ⟨t, fun l hl => hl, hnext, h⟩

theorem directory_of_makeDirectories (h : makeDirectories root here t ns = (made, .ok ()))
    {l : Location} (hl : t.at? l = some .directory) : made.at? l = some .directory := by
  induction ns generalizing here t with
  | nil =>
    cases h
    exact hl
  | cons n ns ih =>
    obtain ⟨_, t', hkept, _, hrest⟩ := makeDirectories_cons_eq_ok h
    exact ih hrest (hkept l hl)

theorem makeDirectories_again (h : makeDirectories root here t ns = (made, .ok ())) {t' : FileTree}
    (hkept : ∀ l, made.at? l = some .directory → t'.at? l = some .directory) :
    makeDirectories root here t' ns = (t', .ok ()) := by
  induction ns generalizing here t with
  | nil => rfl
  | cons n ns ih =>
    obtain ⟨⟨hnull, hpath, hhere, hname⟩, t₁, hkept₁, hnext, hrest⟩ := makeDirectories_cons_eq_ok h
    have hhere' := hkept _ (directory_of_makeDirectories hrest (hkept₁ _ hhere))
    have hnext' := hkept _ (directory_of_makeDirectories hrest hnext)
    unfold makeDirectories
    simp only [if_neg hnull, hpath, hhere', hname, hnext', ne_eq, not_true_eq_false, if_false,
      Bool.false_eq_true]
    exact ih hrest

end

/-- Where something was saved, anything can be saved. -/
theorem save_again {t t' : FileTree} {here : Location} {path : String} {bytes : List UInt8}
    (h : t.save here path bytes = (t', .ok ())) (bytes' : List UInt8) :
    (t'.save here path bytes').2 = .ok () := by
  obtain ⟨made, hmade, hwrite⟩ := save_eq_ok h
  obtain ⟨p, l, hopen, htarget, rfl⟩ := write_eq_ok hwrite
  obtain ⟨parent, name, hentry, hclosed, hlong, hfree, rfl⟩ := writeTarget_eq_ok htarget
  have hkept (l : Location) (hl : made.at? l = some .directory) :
      (made.put (parent ++ [name]) (.file bytes)).at? l = some .directory := by
    have hne : l ≠ parent ++ [name] := by
      rintro rfl
      exact hfree hl
    rw [at?_put_of_ne made hne, hl]
  have hmade' : (made.put (parent ++ [name]) (.file bytes)).makeParents here path =
      (made.put (parent ++ [name]) (.file bytes), .ok ()) := makeDirectories_again hmade hkept
  have htarget' : (made.put (parent ++ [name]) (.file bytes)).writeTarget here p =
      .ok (parent ++ [name]) := by
    simp [writeTarget, target_put hfree (.file bytes) hentry, hclosed, look, hlong,
      at?_put_self made]
  simp only [save, hmade', write, hopen, htarget']

/-! ## Fresh names -/

/-- A working directory that is there, with the directories on the way to it; all of them can be
named. -/
structure IsWorkplace (t : FileTree) (here : Location) : Prop where
  directories : ∀ l, l <+: here → t.at? l = some .directory
  pathShort : ∀ l, l <+: here → pathTooLong (Path.locationText ['/'] l) = false
  nameShort : ∀ n ∈ here, nameTooLong n = false
  noNull : ∀ n ∈ here, '\x00' ∉ n

theorem isWorkplace_root (t : FileTree) : t.IsWorkplace [] := by
  refine ⟨?_, ?_, by simp, by simp⟩
  · intro l hl
    rw [List.prefix_nil.mp hl]
    rfl
  · intro l hl
    rw [List.prefix_nil.mp hl]
    decide

/-- A plain file name that nothing in the directory has. -/
structure IsFresh (t : FileTree) (here : Location) (name : String) : Prop where
  notEmpty : name.toList ≠ []
  noSlash : '/' ∉ name.toList
  noNull : '\x00' ∉ name.toList
  notHere : name.toList ≠ Name.here
  notParent : name.toList ≠ Name.parent
  short : nameTooLong name.toList = false
  free : t.at? (here ++ [name.toList]) = none

instance (t : FileTree) (here : Location) (name : String) : Decidable (t.IsFresh here name) :=
  decidable_of_iff
    (name.toList ≠ [] ∧ '/' ∉ name.toList ∧ '\x00' ∉ name.toList ∧ name.toList ≠ Name.here ∧
      name.toList ≠ Name.parent ∧ nameTooLong name.toList = false ∧
      t.at? (here ++ [name.toList]) = none)
    ⟨fun ⟨h1, h2, h3, h4, h5, h6, h7⟩ => ⟨h1, h2, h3, h4, h5, h6, h7⟩,
      fun ⟨h1, h2, h3, h4, h5, h6, h7⟩ => ⟨h1, h2, h3, h4, h5, h6, h7⟩⟩

theorem makeDirectories_of_isWorkplace {t : FileTree} {here : Location}
    (h : t.IsWorkplace here) {done rest : Location} (hsplit : done ++ rest = here) :
    makeDirectories ['/'] done t rest = (t, .ok ()) := by
  induction rest generalizing done with
  | nil => rfl
  | cons n rest ih =>
    have hmem : n ∈ here := by
      rw [← hsplit]
      simp
    have hdone : done <+: here := ⟨n :: rest, hsplit⟩
    have hnext : done ++ [n] <+: here := ⟨rest, by rw [← hsplit, List.append_assoc]; rfl⟩
    have hnull := h.noNull n hmem
    have hpath := h.pathShort _ hnext
    have hname := h.nameShort n hmem
    have hat := h.directories done hdone
    have hin := h.directories _ hnext
    unfold makeDirectories
    simp only [if_neg hnull, hpath, hname, hat, hin, ne_eq, not_true_eq_false, if_false,
      Bool.false_eq_true]
    exact ih (by rw [← hsplit, List.append_assoc]; rfl)

theorem pieces_of_not_mem {cs : List Char} (h : '/' ∉ cs) : Path.pieces cs = [cs] := by
  induction cs with
  | nil => rfl
  | cons c cs ih =>
    have hc : c ≠ '/' := by
      rintro rfl
      exact h List.mem_cons_self
    have hcs : '/' ∉ cs := fun hcs => h (List.mem_cons_of_mem c hcs)
    rw [Path.pieces, if_neg hc, ih hcs]

theorem ofText_of_isFresh {t : FileTree} {here : Location} {name : String}
    (h : t.IsFresh here name) : Path.ofText name = ⟨0, [name.toList], false⟩ := by
  have hlead : name.toList.takeWhile (· = '/') = [] := by
    obtain ⟨c, cs, hcs⟩ := List.exists_cons_of_ne_nil h.notEmpty
    have hc : c ≠ '/' := by
      rintro rfl
      apply h.noSlash
      rw [hcs]
      exact List.mem_cons_self
    rw [hcs, List.takeWhile_cons]
    simp [hc]
  have hnames : (Path.pieces name.toList).filter (! ·.isEmpty) = [name.toList] := by
    rw [pieces_of_not_mem h.noSlash]
    simp [h.notEmpty]
  have hclosed : name.toList.getLast? ≠ some '/' := by
    intro hlast
    exact h.noSlash (List.mem_of_getLast? hlast)
  unfold Path.ofText
  simp only [hlead, hnames, hclosed]
  rfl

theorem save_of_isFresh {t : FileTree} {here : Location} {name : String}
    (hplace : t.IsWorkplace here) (hfresh : t.IsFresh here name) (bytes : List UInt8) :
    t.save here name bytes = (t.put (here ++ [name.toList]) (.file bytes), .ok ()) := by
  have hpath := ofText_of_isFresh hfresh
  have hopen : openPath name = .ok ⟨0, [name.toList], false⟩ := by
    have hempty : name.isEmpty = false := by
      rw [Bool.eq_false_iff, ne_eq, String.isEmpty_iff]
      rintro rfl
      exact hfresh.notEmpty rfl
    have hshort : pathTooLong name = false := by
      have hbytes : (Utf8.encode name.toList).length ≤ 255 :=
        Nat.le_of_not_lt (of_decide_eq_false hfresh.short)
      have hlimit : ¬4096 ≤ (Utf8.encode name.toList).length := by omega
      exact decide_eq_false hlimit
    unfold openPath
    simp only [if_neg hfresh.noNull, hempty, hshort, hpath, Bool.false_eq_true, if_false]
  have hmade : t.makeParents here name = (t, .ok ()) := by
    have hlocation : Path.location here ⟨0, [name.toList], false⟩ = here ++ [name.toList] := by
      simp [Path.location, Path.base, Path.enter, hfresh.notHere, hfresh.notParent]
    unfold makeParents
    simp only [hpath, hlocation, List.dropLast_concat]
    exact makeDirectories_of_isWorkplace hplace (List.nil_append here)
  have htarget : t.writeTarget here ⟨0, [name.toList], false⟩ = .ok (here ++ [name.toList]) := by
    simp [writeTarget, FileTree.target, walk, Path.base, hfresh.notHere, hfresh.notParent, look,
      hfresh.short, hfresh.free]
  have hwrite : t.write here name bytes = .ok (t.put (here ++ [name.toList]) (.file bytes)) := by
    unfold write
    simp only [hopen, htarget]
  unfold save
  simp only [hmade, hwrite]

theorem IsWorkplace.put {t : FileTree} {here : Location} (h : t.IsWorkplace here) (n : Name)
    (e : Entry) : (t.put (here ++ [n]) e).IsWorkplace here := by
  refine ⟨?_, h.pathShort, h.nameShort, h.noNull⟩
  intro l hl
  have hne : l ≠ here ++ [n] := by
    rintro rfl
    simpa using hl.length_le
  rw [at?_put_of_ne t hne e]
  exact h.directories l hl

theorem IsFresh.put {t : FileTree} {here : Location} {name : String} (h : t.IsFresh here name)
    {n : Name} (hne : name.toList ≠ n) (e : Entry) : (t.put (here ++ [n]) e).IsFresh here name := by
  refine ⟨h.notEmpty, h.noSlash, h.noNull, h.notHere, h.notParent, h.short, ?_⟩
  have hplace : here ++ [name.toList] ≠ here ++ [n] := by simpa using hne
  rw [at?_put_of_ne t hplace e]
  exact h.free

end FileTree
end BracketTurtle
