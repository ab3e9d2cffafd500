import BracketTurtle.Proofs.KeptFiles

/-!
# Made directories

The directories that are made for a file are those that the text of its path names. The file itself
is written by following the path through the tree, name by name. The text undoes `..` and `.`
without looking: a name that a `..` comes after is gone from it, and in front of a `.` at the end
the name is taken for that of the file. A directory that only the way through the tree needs is not
made, and when it is not there, nothing is written although the directory of the file is.
-/

namespace BracketTurtle

namespace Path

/-- A `..` comes after another name, or the path ends with `.`. -/
def TakesBack (p : Path) : Prop :=
  p.names.getLast? = some .here ∨
    ∃ front name back, p.names = front ++ name :: back ∧ name ≠ .here ∧ name ≠ .parent ∧
      .parent ∈ back

/-- Names without `..` lead downwards, and `.` does not count. -/
theorem foldl_enter (l : Location) {ns : List Name} (h : .parent ∉ ns) :
    ns.foldl enter l = l ++ ns.filter (· ≠ .here) := by
  induction ns generalizing l with
  | nil => simp
  | cons n ns ih =>
    simp only [List.mem_cons, not_or] at h
    by_cases hhere : n = .here
    · simp [enter, hhere, ih _ h.2]
    · simp [enter, hhere, Ne.symm h.1, ih _ h.2]

/-- A name that is not taken back stays on the way to the directory of the file. -/
theorem isPrefix_location (here : Location) {p : Path} (h : ¬p.TakesBack) {front back : List Name}
    {name : Name} (hnames : p.names = front ++ name :: back) (hback : back ≠ [])
    (hhere : name ≠ .here) (hparent : name ≠ .parent) :
    front.foldl enter (p.base here) ++ [name] <+: (p.location here).dropLast := by
  obtain ⟨hlast, hnone⟩ := not_or.mp h
  have hdown : .parent ∉ back := fun hmem => hnone ⟨front, name, back, hnames, hhere, hparent, hmem⟩
  have hleft : back.filter (· ≠ .here) ≠ [] := by
    have hmem := List.getLast_mem hback
    have hend : p.names.getLast? = some (back.getLast hback) := by
      simp [hnames, List.getLast?_cons, List.getLast?_eq_some_getLast hback]
    have hne : back.getLast hback ≠ .here := by
      intro heq
      exact hlast (heq ▸ hend)
    exact List.ne_nil_of_mem (List.mem_filter.mpr ⟨hmem, by simpa using hne⟩)
  have hlocation : p.location here =
      front.foldl enter (p.base here) ++ [name] ++ back.filter (· ≠ .here) := by
    have hname : enter (front.foldl enter (p.base here)) name =
        front.foldl enter (p.base here) ++ [name] := by simp [enter, hhere, hparent]
    simp only [location, hnames, List.foldl_append, List.foldl_cons, hname, foldl_enter _ hdown]
  rw [hlocation, List.dropLast_append_of_ne_nil hleft]
  exact List.prefix_append _ _

end Path

namespace FileTree

variable {t made : FileTree} {here l : Location} {path : String} {ns : List Name}

/-! ## Following a path -/

theorem look_eq_ok_iff {n : Name} {e : Option Entry} :
    t.look here n = .ok e ↔ nameTooLong n = false ∧ t.at? (here ++ [n]) = e := by
  cases hlong : nameTooLong n with
  | false => simp [look, hlong]
  | true => simp [look, hlong]

theorem look_ne_missing (t : FileTree) (here : Location) (n : Name) :
    t.look here n ≠ .error .missing := by
  cases hlong : nameTooLong n with
  | false => simp [look, hlong]
  | true => simp [look, hlong]

theorem walk_here (t : FileTree) (here : Location) (ns : List Name) :
    t.walk here (.here :: ns) = t.walk here ns := by
  simp [walk]

theorem walk_parent (t : FileTree) (here : Location) (ns : List Name) :
    t.walk here (.parent :: ns) = t.walk here.dropLast ns := by
  have hne : Name.parent ≠ Name.here := by decide
  simp [walk, hne]

theorem walk_directory {n : Name} (hhere : n ≠ .here) (hparent : n ≠ .parent)
    (h : t.look here n = .ok (some .directory)) (ns : List Name) :
    t.walk here (n :: ns) = t.walk (here ++ [n]) ns := by
  simp [walk, hhere, hparent, h]

theorem walk_append {front : List Name} (h : t.walk here front = .ok l) (back : List Name) :
    t.walk here (front ++ back) = t.walk l back := by
  fun_induction walk t here front with
  | case1 here =>
    cases h
    rfl
  | case2 here ns ih => simpa [walk_here] using ih h
  | case3 here ns _ ih => simpa [walk_parent] using ih h
  | case4 | case5 | case6 => cases h
  | case7 here n ns hhere hparent hlook ih =>
    simpa [walk_directory hhere hparent hlook] using ih h

theorem foldl_enter_of_walk (h : t.walk here ns = .ok l) : ns.foldl Path.enter here = l := by
  fun_induction walk t here ns with
  | case1 here =>
    cases h
    rfl
  | case2 here ns ih => simpa [Path.enter] using ih h
  | case3 here ns hne ih => simpa [Path.enter, hne] using ih h
  | case4 | case5 | case6 => cases h
  | case7 here n ns hhere hparent hlook ih => simpa [Path.enter, hhere, hparent] using ih h

/-- Names are followed in vain when one of them, with all before it leading on, is that of nothing.
-/
theorem walk_eq_missing_iff :
    t.walk here ns = .error .missing ↔
      ∃ front name back l, ns = front ++ name :: back ∧ t.walk here front = .ok l ∧
        name ≠ .here ∧ name ≠ .parent ∧ nameTooLong name = false ∧ t.at? (l ++ [name]) = none := by
  constructor
  · intro h
    fun_induction walk t here ns with
    | case1 | case6 => cases h
    | case2 here ns ih =>
      obtain ⟨front, name, back, l, rfl, hfront, hname⟩ := ih h
      exact ⟨.here :: front, name, back, l, rfl, by rwa [walk_here], hname⟩
    | case3 here ns _ ih =>
      obtain ⟨front, name, back, l, rfl, hfront, hname⟩ := ih h
      exact ⟨.parent :: front, name, back, l, rfl, by rwa [walk_parent], hname⟩
    | case4 here n ns _ _ e hlook =>
      cases h
      exact absurd hlook (look_ne_missing t here n)
    | case5 here n ns hhere hparent hlook =>
      exact ⟨[], n, ns, here, rfl, rfl, hhere, hparent, look_eq_ok_iff.mp hlook⟩
    | case7 here n ns hhere hparent hlook ih =>
      obtain ⟨front, name, back, l, rfl, hfront, hname⟩ := ih h
      exact ⟨n :: front, name, back, l, rfl, by rwa [walk_directory hhere hparent hlook], hname⟩
  · rintro ⟨front, name, back, l, rfl, hfront, hhere, hparent, hnone⟩
    simp [walk_append hfront, walk, hhere, hparent, look_eq_ok_iff.mpr hnone]

/-- Before its last name, the path comes through the tree to a name at `l` that has to be that of a
directory. -/
inductive Needs (t : FileTree) (here : Location) (p : Path) : Location → Prop
  | at {front back : List Name} {name : Name} {l : Location} :
      p.names = front ++ name :: back → back ≠ [] → t.walk (p.base here) front = .ok l →
        name ≠ .here → name ≠ .parent → nameTooLong name = false → Needs t here p (l ++ [name])

theorem target_eq_missing_iff {p : Path} :
    t.target here p = .error .missing ↔
      p.names ≠ [] ∧ t.walk (p.base here) p.names.dropLast = .error .missing := by
  unfold FileTree.target
  split
  · rename_i hempty
    simp [List.getLast?_eq_none_iff.mp hempty]
  · rename_i name hname
    have hne : p.names ≠ [] := by
      rintro heq
      simp [heq] at hname
    split
    · rename_i e he
      simp [hne, he]
    · rename_i l hl
      split_ifs <;> simp [hl]

theorem writeTarget_missing_iff_target {p : Path} :
    t.writeTarget here p = .error .missing ↔ t.target here p = .error .missing := by
  unfold writeTarget
  split
  · rename_i e he
    simp [he]
  · rename_i hdirectory
    simp [hdirectory]
  · rename_i place name hentry
    have hlook := look_ne_missing t place name
    split_ifs
    · simp [hentry]
    · split
      · rename_i e he
        rw [he] at hlook
        simpa [hentry] using hlook
      · simp [hentry]
      · simp [hentry]

theorem writeTarget_eq_missing_iff {p : Path} :
    t.writeTarget here p = .error .missing ↔ ∃ l, t.Needs here p l ∧ t.at? l = none := by
  rw [writeTarget_missing_iff_target, target_eq_missing_iff, walk_eq_missing_iff]
  constructor
  · rintro ⟨hne, front, name, back, l, hsplit, hfront, hhere, hparent, hlong, hnone⟩
    have hnames : p.names = front ++ name :: (back ++ [p.names.getLast hne]) := by
      rw [← List.cons_append, ← List.append_assoc, ← hsplit, List.dropLast_append_getLast]
    exact ⟨_, .at hnames (by simp) hfront hhere hparent hlong, hnone⟩
  · rintro ⟨_, ⟨hnames, hback, hfront, hhere, hparent, hlong⟩, hnone⟩
    rename_i front back name l
    refine ⟨by simp [hnames], front, name, back.dropLast, l, ?_, hfront, hhere, hparent, hlong,
      hnone⟩
    rw [hnames, List.dropLast_append_of_ne_nil (by simp), List.dropLast_cons_of_ne_nil hback]

/-! ## Making directories -/

theorem at?_of_makeDirectories {root : List Char}
    (h : makeDirectories root here t ns = (made, .ok ()))
    (hhere : t.at? here = some .directory) {front : List Name} (hfront : front <+: ns) :
    made.at? (here ++ front) = some .directory := by
  induction ns generalizing here t front with
  | nil =>
    cases h
    simpa [List.prefix_nil.mp hfront] using hhere
  | cons n ns ih =>
    cases front with
    | nil => simpa using directory_of_makeDirectories h hhere
    | cons m front =>
      obtain ⟨rfl, hrest⟩ := List.cons_prefix_cons.mp hfront
      obtain ⟨_, t', _, hnext, hmade⟩ := makeDirectories_cons_eq_ok h
      simpa using ih hmade hnext hrest

theorem at?_of_onWay (h : t.makeParents here path = (made, .ok ())) (hl : OnWay here path l) :
    made.at? l = some .directory :=
  at?_of_makeDirectories h rfl hl

theorem at?_made_eq_none_iff (h : t.makeParents here path = (made, .ok ())) :
    made.at? l = none ↔ t.at? l = none ∧ ¬OnWay here path l := by
  have hgrows := makeParents_grows t here path
  rw [h] at hgrows
  constructor
  · intro hnone
    constructor
    · cases hl : t.at? l with
      | none => rfl
      | some e => exact absurd (hgrows.kept hl) (by simp [hnone])
    · intro hway
      simp [at?_of_onWay h hway] at hnone
  · rintro ⟨hnone, hway⟩
    cases hl : made.at? l with
    | none => rfl
    | some e => exact absurd (hgrows.gained hnone hl).2 hway

theorem write_eq_missing_iff {bytes : List UInt8} (hpath : path ≠ "")
    (hnull : '\x00' ∉ path.toList) :
    t.write here path bytes = .error (.fault .missing path) ↔
      pathTooLong path = false ∧ t.writeTarget here (.ofText path) = .error .missing := by
  have hempty : path.isEmpty = false := by simpa using hpath
  unfold write openPath
  cases hlong : pathTooLong path with
  | true => simp [hnull, hempty]
  | false =>
    cases htarget : t.writeTarget here (.ofText path) with
    | error e => simp [hnull, hempty, htarget]
    | ok l => simp [hnull, hempty, htarget]

/-- With the directories made that the text of a path names, the file is missed exactly if the path
itself needs a directory that was not there and that is not one of them. No path misses its file
that takes none of its names back. -/
theorem write_made_eq_missing_iff (hpath : path ≠ "") (hnull : '\x00' ∉ path.toList)
    (hmade : t.makeParents here path = (made, .ok ())) (bytes : List UInt8) :
    (made.write here path bytes = .error (.fault .missing path) ↔
      pathTooLong path = false ∧
        ∃ l, made.Needs here (.ofText path) l ∧ t.at? l = none ∧ ¬OnWay here path l) ∧
    (¬(Path.ofText path).TakesBack →
      made.write here path bytes ≠ .error (.fault .missing path)) := by
  have hmissing : made.write here path bytes = .error (.fault .missing path) ↔
      pathTooLong path = false ∧
        ∃ l, made.Needs here (.ofText path) l ∧ t.at? l = none ∧ ¬OnWay here path l := by
    simp only [write_eq_missing_iff hpath hnull, writeTarget_eq_missing_iff,
      at?_made_eq_none_iff hmade]
  refine ⟨hmissing, ?_⟩
  intro hback hmiss
  obtain ⟨_, _, ⟨hnames, hrest, hfront, hhere, hparent, _⟩, _, hway⟩ := hmissing.mp hmiss
  apply hway
  rw [← foldl_enter_of_walk hfront]
  exact Path.isPrefix_location here hback hnames hrest hhere hparent

/-- The path goes through `n`, takes it back, and has its directory `m` made. -/
theorem write_made_eq_missing_iff_detour :
    let made := FileTree.empty.put [['m']] .directory
    FileTree.empty.makeParents [] "n/../m/o" = (made, .ok ()) ∧
      made.write [] "n/../m/o" [] = .error (.fault .missing "n/../m/o") := by
  intro made
  have hmade : FileTree.empty.makeParents [] "n/../m/o" = (made, .ok ()) := by rfl
  have hnames :
      (Path.ofText "n/../m/o").names = [] ++ ['n'] :: [Name.parent, ['m'], ['o']] := by rfl
  have hneeds : made.Needs [] (.ofText "n/../m/o") [['n']] :=
    .at hnames (by decide) rfl (by decide) (by decide) (by decide)
  have hway : ¬OnWay [] "n/../m/o" [['n']] := by
    unfold OnWay
    decide
  refine ⟨hmade, ?_⟩
  have hmissing := (write_made_eq_missing_iff (by decide) (by decide) hmade []).1
  exact hmissing.mpr ⟨by decide, _, hneeds, rfl, hway⟩

/-- The directory of the file is the working directory, but the way to it leads through nothing. -/
theorem made_parents_not_enough :
    ¬∀ (t made : FileTree) (here : Location) (path : String) (bytes : List UInt8),
      path ≠ "" → '\x00' ∉ path.toList → t.makeParents here path = (made, .ok ()) →
        made.write here path bytes ≠ .error (.fault .missing path) := by
  intro h
  exact h .empty .empty [] "n/../o" [] (by decide) (by decide) (by rfl) (by rfl)

end FileTree
end BracketTurtle
