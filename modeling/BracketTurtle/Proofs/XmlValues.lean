import BracketTurtle.Proofs.XmlDocuments

/-!
# Values that are read back

What a reader that has come to the end of a document says about it. The tags it has found begin with
those that were written as long as the values are exact; the first value that is not exact is read
as another, since a quote in it ends it too early and a reference in it is longer than what it
stands for. So when the values that are read are those that were written, all of them are exact.
-/

namespace BracketTurtle
namespace Markup

def Tag.parts? : Tag → Option (List Char × Attributes)
  | .opening name attributes | .empty name attributes => some (name, attributes)
  | _ => none

/-- The element of the tag that is being read and its attributes so far, the latest first. -/
def Phase.parts? : Phase → Option (List Char × Attributes)
  | .inside n as | .gap n as | .key n as _ | .equals n as _ | .value n as _ _ | .slash n as =>
    some (n, as)
  | _ => none

namespace Scan

variable {s r : Scan} {marks : List Mark} {name : List Char} {done : Attributes}

theorem stepInside_cases {c : Char} (h : s.stepInside name done c = some r) :
    (r.marks = s.marks ∧ r.phase.parts? = some (name, done)) ∨
      r = s.close (.opening name done.reverse) := by
  unfold stepInside at h
  split_ifs at h with hblank hslash hend
  · cases h
    exact .inl ⟨rfl, rfl⟩
  · cases h
    exact .inl ⟨rfl, rfl⟩
  · cases h
    exact .inr rfl

/-- A step in a tag adds to its attributes at most, or completes it with those it has. -/
theorem step_of_parts {c : Char} (hs : s.phase.parts? = some (name, done))
    (h : s.step c = some r) :
    (r.marks = s.marks ∧ ∃ more, r.phase.parts? = some (name, more ++ done)) ∨
      ∃ t, r = s.close t ∧ t.parts? = some (name, done.reverse) := by
  have hinside (h : s.stepInside name done c = some r) :
      (r.marks = s.marks ∧ ∃ more, r.phase.parts? = some (name, more ++ done)) ∨
        ∃ t, r = s.close t ∧ t.parts? = some (name, done.reverse) := by
    rcases stepInside_cases h with ⟨hmarks, hparts⟩ | rfl
    · exact .inl ⟨hmarks, [], hparts⟩
    · exact .inr ⟨_, rfl, rfl⟩
  obtain ⟨marks, text, phase⟩ := s
  cases phase with
  | text => cases hs
  | angle => cases hs
  | declaration => cases hs
  | closing => cases hs
  | name => cases hs
  | inside =>
    cases hs
    exact hinside h
  | gap =>
    cases hs
    simp only [step] at h
    split_ifs at h with hname
    · cases h
      exact .inl ⟨rfl, [], rfl⟩
    · exact hinside h
  | key =>
    cases hs
    simp only [step] at h
    split_ifs at h
    · cases h
      exact .inl ⟨rfl, [], rfl⟩
    · cases h
      exact .inl ⟨rfl, [], rfl⟩
  | equals =>
    cases hs
    simp only [step] at h
    split_ifs at h
    cases h
    exact .inl ⟨rfl, [], rfl⟩
  | value =>
    cases hs
    simp only [step] at h
    split_ifs at h
    · cases h
      exact .inl ⟨rfl, [_], rfl⟩
    · cases h
      exact .inl ⟨rfl, [], rfl⟩
  | slash =>
    cases hs
    simp only [step] at h
    split_ifs at h
    cases h
    exact .inr ⟨_, rfl, rfl⟩

theorem marks_of_step {c : Char} (h : s.step c = some r) :
    ∃ later, r.marks = later ++ s.marks := by
  cases hs : s.phase.parts? with
  | some parts =>
    rcases step_of_parts hs h with ⟨hmarks, _⟩ | ⟨t, rfl, _⟩
    · exact ⟨[], hmarks⟩
    · exact ⟨[_], rfl⟩
  | none =>
    obtain ⟨marks, text, phase⟩ := s
    cases phase with
    | text =>
      simp only [step] at h
      split_ifs at h
      · cases h
        exact ⟨[], rfl⟩
      · cases h
        exact ⟨[], rfl⟩
    | angle =>
      simp only [step] at h
      split_ifs at h
      · cases h
        exact ⟨[], rfl⟩
      · cases h
        exact ⟨[], rfl⟩
      · cases h
        exact ⟨[], rfl⟩
    | declaration body =>
      simp only [step] at h
      split_ifs at h
      · split at h
        · cases h
          exact ⟨[_], rfl⟩
        · cases h
      · cases h
        exact ⟨[], rfl⟩
    | closing =>
      simp only [step] at h
      split_ifs at h
      · cases h
        exact ⟨[], rfl⟩
      · cases h
        exact ⟨[_], rfl⟩
    | name =>
      simp only [step] at h
      split_ifs at h
      · cases h
        exact ⟨[], rfl⟩
      · rcases stepInside_cases h with ⟨hmarks, _⟩ | rfl
        · exact ⟨[], hmarks⟩
        · exact ⟨[_], rfl⟩
    | inside => cases hs
    | gap => cases hs
    | key => cases hs
    | equals => cases hs
    | value => cases hs
    | slash => cases hs

theorem marks_of_run {cs : List Char} (h : s.run cs = some r) :
    ∃ later, r.marks = later ++ s.marks := by
  induction cs generalizing s with
  | nil =>
    cases h
    exact ⟨[], rfl⟩
  | cons c cs ih =>
    rw [run_cons] at h
    obtain ⟨q, hstep, hrun⟩ := Option.bind_eq_some_iff.mp h
    obtain ⟨first, hfirst⟩ := marks_of_step hstep
    obtain ⟨later, hlater⟩ := ih hrun
    exact ⟨later ++ first, by rw [hlater, hfirst, List.append_assoc]⟩

/-- A tag that has begun is complete at the end of a text, with the attributes it had and more. -/
theorem exists_tag_of_run {cs : List Char} (hs : s.phase.parts? = some (name, done))
    (h : s.run cs = some r) (hr : r.phase = .text) :
    ∃ text t later more, r.marks = later ++ ⟨text, t⟩ :: s.marks ∧
      t.parts? = some (name, done.reverse ++ more) := by
  induction cs generalizing s done with
  | nil =>
    cases h
    rw [hr] at hs
    cases hs
  | cons c cs ih =>
    rw [run_cons] at h
    obtain ⟨q, hstep, hrun⟩ := Option.bind_eq_some_iff.mp h
    rcases step_of_parts hs hstep with ⟨hmarks, first, hq⟩ | ⟨t, rfl, ht⟩
    · obtain ⟨text, t, later, more, hlater, ht⟩ := ih hq hrun
      refine ⟨text, t, later, first.reverse ++ more, hmarks ▸ hlater, ?_⟩
      rw [ht, List.reverse_append, List.append_assoc]
    · obtain ⟨later, hlater⟩ := marks_of_run hrun
      exact ⟨s.text.reverse, t, later, [], hlater, by rw [ht, List.append_nil]⟩

theorem exists_value_of_run {text : List Char} {key value cs : List Char}
    (h : run ⟨marks, text, .value name done key value⟩ cs = some r) (hr : r.phase = .text) :
    ∃ v rest, '"' ∉ v ∧ '<' ∉ v ∧ cs = v ++ '"' :: rest ∧
      run ⟨marks, text, .inside name ((key.reverse, value.reverse ++ v) :: done)⟩ rest =
        some r := by
  induction cs generalizing value with
  | nil =>
    cases h
    cases hr
  | cons c cs ih =>
    rw [run_cons] at h
    simp only [step] at h
    split_ifs at h with hquote hangle
    · refine ⟨[], cs, List.not_mem_nil, List.not_mem_nil, by rw [hquote, List.nil_append], ?_⟩
      rw [List.append_nil]
      exact h
    · cases h
    · obtain ⟨v, rest, hv, hv', rfl, hrun⟩ := ih h
      refine ⟨c :: v, rest, ?_, ?_, rfl, ?_⟩
      · simp [hv, Ne.symm hquote]
      · simp [hv', Ne.symm hangle]
      · simpa using hrun

end Scan
end Markup

namespace Xml

open Markup

/-- The values that are looked at, by their element and their key. -/
abbrev Selection := List Char → List Char → Bool

namespace Selection

variable (keep : Selection)

def attributes (name : List Char) (as : Attributes) : Attributes :=
  as.filter fun a => keep name a.1

def tag : Tag → Tag
  | .opening name as => .opening name (keep.attributes name as)
  | .empty name as => .empty name (keep.attributes name as)
  | t => t

def parts? (m : Mark) : Option (List Char × Attributes) := (keep.tag m.tag).parts?

end Selection

variable {keep : Selection}

theorem Selection.attributes_cons_of_pos {name : List Char} {a : List Char × List Char}
    (h : keep name a.1 = true) (as : Attributes) :
    keep.attributes name (a :: as) = a :: keep.attributes name as :=
  List.filter_cons_of_pos h

theorem Selection.attributes_cons_of_neg {name : List Char} {a : List Char × List Char}
    (h : ¬keep name a.1 = true) (as : Attributes) :
    keep.attributes name (a :: as) = keep.attributes name as :=
  List.filter_cons_of_neg h

theorem mapM_cons_eq_some {α β : Type} {read : α → Option β} {a : α} {l : List α} {ds : List β}
    (h : (a :: l).mapM read = some ds) :
    ∃ d ds', ds = d :: ds' ∧ read a = some d ∧ l.mapM read = some ds' := by
  rw [List.mapM_cons] at h
  obtain ⟨d, hd, h⟩ := Option.bind_eq_some_iff.mp h
  obtain ⟨ds', hds', h⟩ := Option.bind_eq_some_iff.mp h
  cases h
  exact ⟨d, ds', rfl, hd, hds'⟩

theorem quoted_cases {v cs rest rest' : List Char} (hv : '"' ∉ v)
    (h : cs ++ '"' :: rest = v ++ '"' :: rest') :
    (v = cs ∧ rest' = rest) ∨ ('"' ∈ cs ∧ v.length < cs.length) := by
  induction cs generalizing v with
  | nil =>
    cases v with
    | nil => exact .inl ⟨rfl, (List.cons.inj h).2.symm⟩
    | cons d v =>
      obtain ⟨rfl, _⟩ := List.cons.inj h
      exact absurd List.mem_cons_self hv
  | cons c cs ih =>
    cases v with
    | nil =>
      obtain ⟨rfl, _⟩ := List.cons.inj h
      exact .inr ⟨List.mem_cons_self, Nat.zero_lt_succ _⟩
    | cons d v =>
      obtain ⟨rfl, hrest⟩ := List.cons.inj h
      rcases ih (List.not_mem_of_not_mem_cons hv) hrest with ⟨rfl, rfl⟩ | ⟨hmem, hlength⟩
      · exact .inl ⟨rfl, rfl⟩
      · exact .inr ⟨List.mem_cons_of_mem _ hmem, Nat.succ_lt_succ hlength⟩

theorem mapM_append_eq_some {α β : Type} {read : α → Option β} {l l' : List α} {ds : List β}
    (h : (l ++ l').mapM read = some ds) :
    ∃ ds₁ ds₂, ds = ds₁ ++ ds₂ ∧ ds₁.length = l.length ∧ l'.mapM read = some ds₂ := by
  induction l generalizing ds with
  | nil => exact ⟨[], ds, rfl, rfl, h⟩
  | cons a l ih =>
    obtain ⟨d, ds, rfl, _, hds⟩ := mapM_cons_eq_some h
    obtain ⟨ds₁, ds₂, rfl, hlength, hds₂⟩ := ih hds
    exact ⟨d :: ds₁, ds₂, rfl, congrArg Nat.succ hlength, hds₂⟩

theorem attribute?_eq_some {a d : List Char × List Char} (h : attribute? a = some d) :
    d.1 = a.1 ∧ value? a.2 = some d.2 := by
  unfold attribute? at h
  split_ifs at h
  obtain ⟨v, hv, rfl⟩ := Option.map_eq_some_iff.mp h
  exact ⟨rfl, hv⟩

/-- When the attributes that a tag is found to have are read as those that were written, where they
are looked at, then their values are exact. -/
theorem exact_of_run_attributes {marks : List Mark} {text rest : List Char} {name : List Char}
    {done : Attributes} {as : List (String × String)} {r : Scan} (hkeys : ∀ a ∈ as, IsXmlName a.1)
    (has : ∀ a ∈ as, keep name a.1.toList = true ∨ IsExact a.2)
    (h : Scan.run ⟨marks, text, .inside name done⟩
      ((String.join (as.map Element.attributeText)).toList ++ rest) = some r)
    (hr : r.phase = .text) :
    ∃ text t later more, r.marks = later ++ ⟨text, t⟩ :: marks ∧
      t.parts? = some (name, done.reverse ++ more) ∧
      ∀ ds, more.mapM attribute? = some ds →
        keep.attributes name ds = keep.attributes name (as.map charsOf) →
        ∀ a ∈ as, IsExact a.2 := by
  induction as generalizing done with
  | nil =>
    obtain ⟨text, t, later, more, hmarks, ht⟩ := Scan.exists_tag_of_run rfl h hr
    exact ⟨text, t, later, more, hmarks, ht, fun _ _ _ => List.forall_mem_nil _⟩
  | cons a as ih =>
    have hkey := hkeys a List.mem_cons_self
    rw [List.map_cons, String.join_cons, String.toList_append, List.append_assoc,
      Scan.run_attributeKey _ _ _ _ hkey.1] at h
    obtain ⟨v, rest', hquote, hangle, hsplit, hrun⟩ := Scan.exists_value_of_run h hr
    rw [List.reverse_reverse, List.reverse_nil, List.nil_append] at hrun
    rcases quoted_cases hquote hsplit with ⟨rfl, rfl⟩ | ⟨hmem, hlength⟩
    · obtain ⟨text, t, later, more, hmarks, ht, hexact⟩ :=
        ih (List.forall_mem_of_forall_mem_cons hkeys) (List.forall_mem_of_forall_mem_cons has) hrun
      refine ⟨text, t, later, charsOf a :: more, hmarks, ?_, ?_⟩
      · rw [ht, List.reverse_cons, List.append_assoc]
        rfl
      · intro ds hds heq
        obtain ⟨d, ds, rfl, hd, hmore⟩ := mapM_cons_eq_some hds
        obtain ⟨hdkey, hvalue⟩ := attribute?_eq_some hd
        rw [List.map_cons] at heq
        by_cases hkeep : keep name a.1.toList = true
        · rw [Selection.attributes_cons_of_pos (by rwa [hdkey]),
            Selection.attributes_cons_of_pos hkeep] at heq
          obtain ⟨rfl, htail⟩ := List.cons.inj heq
          exact List.forall_mem_cons.mpr ⟨⟨hquote, hangle, hvalue⟩, hexact ds hmore htail⟩
        · rw [Selection.attributes_cons_of_neg (by rwa [hdkey]),
            Selection.attributes_cons_of_neg hkeep] at heq
          exact List.forall_mem_cons.mpr
            ⟨(has a List.mem_cons_self).resolve_left hkeep, hexact ds hmore heq⟩
    · -- The value is kept as one that is shorter, and no reading makes it longer.
      obtain ⟨text, t, later, more, hmarks, ht⟩ := Scan.exists_tag_of_run rfl hrun hr
      refine ⟨text, t, later, (a.1.toList, v) :: more, hmarks, ?_, ?_⟩
      · rw [ht, List.reverse_cons, List.append_assoc]
        rfl
      · intro ds hds heq
        obtain ⟨d, ds, rfl, hd, hmore⟩ := mapM_cons_eq_some hds
        obtain ⟨hdkey, hvalue⟩ := attribute?_eq_some hd
        have hkeep : keep name a.1.toList = true :=
          (has a List.mem_cons_self).resolve_right fun hexact => hexact.1 hmem
        rw [List.map_cons, Selection.attributes_cons_of_pos (by rwa [hdkey]),
          Selection.attributes_cons_of_pos hkeep] at heq
        obtain ⟨rfl, _⟩ := List.cons.inj heq
        exact absurd (value?_length hvalue) (Nat.not_le_of_lt hlength)

theorem attributes?_eq_some {as ds : Attributes} (h : attributes? as = some ds) :
    as.mapM attribute? = some ds := by
  unfold attributes? at h
  split_ifs at h
  exact h

theorem tag?_parts (keep : Selection) {t t' : Tag} {name : List Char} {as : Attributes}
    (h : tag? t = some t') (ht : t.parts? = some (name, as)) :
    ∃ ds, as.mapM attribute? = some ds ∧
      (keep.tag t').parts? = some (name, keep.attributes name ds) := by
  cases t with
  | declaration => cases ht
  | closing => cases ht
  | opening =>
    cases ht
    rw [tag?] at h
    split_ifs at h
    obtain ⟨ds, hds, rfl⟩ := Option.map_eq_some_iff.mp h
    exact ⟨ds, attributes?_eq_some hds, rfl⟩
  | empty =>
    cases ht
    rw [tag?] at h
    split_ifs at h
    obtain ⟨ds, hds, rfl⟩ := Option.map_eq_some_iff.mp h
    exact ⟨ds, attributes?_eq_some hds, rfl⟩

theorem tag?_of_mark? {m d : Mark} (h : mark? m = some d) : tag? m.tag = some d.tag := by
  obtain ⟨text, _, h⟩ := Option.bind_eq_some_iff.mp h
  obtain ⟨t, ht, h⟩ := Option.bind_eq_some_iff.mp h
  cases h
  exact ht

/-- After these tags the scan found others that are read, and what is looked at in them begins as it
is given. -/
def Shows (keep : Selection) (r : Scan) (marks : List Mark)
    (parts : List (Option (List Char × Attributes))) : Prop :=
  ∃ later ds : List Mark, r.marks = later.reverse ++ marks ∧ later.mapM mark? = some ds ∧
    parts <+: ds.map keep.parts?

variable {r : Scan} {marks : List Mark}

theorem Shows.drop {parts parts' : List (Option (List Char × Attributes))}
    (h : Shows keep r marks (parts ++ parts')) (known : List Mark)
    (hlength : parts.length = known.length)
    (hmarks : ∃ later, r.marks = later ++ (known.reverse ++ marks)) :
    Shows keep r (known.reverse ++ marks) parts' := by
  obtain ⟨later, ds, hlater, hread, tail, htail⟩ := h
  obtain ⟨rest, hrest⟩ := hmarks
  have hsplit : later = known ++ rest.reverse := by
    rw [hlater, ← List.append_assoc, List.append_cancel_right_eq] at hrest
    rw [← List.reverse_reverse later, hrest, List.reverse_append, List.reverse_reverse]
  rw [hsplit] at hread
  obtain ⟨first, ds, rfl, hfirst, hds⟩ := mapM_append_eq_some hread
  refine ⟨rest.reverse, ds, by rw [List.reverse_reverse, hrest], hds, tail, ?_⟩
  rw [List.append_assoc, List.map_append] at htail
  exact (List.append_inj htail (by rw [hlength, List.length_map, hfirst])).2

theorem Shows.exact_tag {text rest : List Char} {name : String} {as : List (String × String)}
    {c : Char} {parts : List (Option (List Char × Attributes))}
    (htag : IsTag (fun a => keep name.toList a.1.toList = true ∨ IsExact a.2) name as)
    (hc : isNameChar c = false)
    (hrun : Scan.run ⟨marks, text, .text⟩ ((Element.opening name as).toList ++ c :: rest) = some r)
    (hr : r.phase = .text)
    (hshows : Shows keep r marks
      (some (name.toList, keep.attributes name.toList (as.map charsOf)) :: parts)) :
    IsTag (fun a => IsExact a.2) name as := by
  rw [Scan.run_openingName marks text as rest htag.name.1 hc] at hrun
  obtain ⟨text', t, rest', more, hrest, ht, hexact⟩ :=
    exact_of_run_attributes htag.keys htag.values hrun hr
  obtain ⟨later, ds, hlater, hread, tail, htail⟩ := hshows
  have hsplit : later = ⟨text', t⟩ :: rest'.reverse := by
    rw [hlater, ← List.singleton_append, ← List.append_assoc, List.append_cancel_right_eq] at hrest
    rw [← List.reverse_reverse later, hrest, List.reverse_append]
    rfl
  rw [hsplit] at hread
  obtain ⟨d, ds, rfl, hd, _⟩ := mapM_cons_eq_some hread
  obtain ⟨as', has', hparts⟩ := tag?_parts keep (tag?_of_mark? hd) ht
  have hlooked : some (name.toList, keep.attributes name.toList (as.map charsOf)) =
      some (name.toList, keep.attributes name.toList as') := by
    rw [← hparts]
    exact (List.cons.inj htail).1
  exact htag.with_values (hexact as' has' (Prod.mk.inj (Option.some.inj hlooked)).2.symm)

/-! ## Elements -/

variable {body : String → Prop}

theorem exact_of_run_children {es : List Element} {depth : ℕ} {ms : List Mark} {rest : List Char}
    {parts : List (Option (List Char × Attributes))}
    (hes : ∀ e ∈ es, ∀ (depth : ℕ) (ms : List Mark) (text rest : List Char)
      (parts : List (Option (List Char × Attributes))),
      Scan.run ⟨ms, text, .text⟩ ((Text.ofLines (e.lines depth)).toList ++ rest) = some r →
      Shows keep r ms ((Markup.marks depth text.reverse e).map keep.parts? ++ parts) →
      WellMade (fun _ a => IsExact a.2) body e)
    (hrun : Scan.run ⟨ms, ['\n'], .text⟩
      ((Text.ofLines (Element.childLines depth es)).toList ++ rest) = some r)
    (hshows : Shows keep r ms ((childMarks depth es).map keep.parts? ++ parts)) :
    ∀ e ∈ es, WellMade (fun _ a => IsExact a.2) body e := by
  induction es generalizing ms with
  | nil => exact List.forall_mem_nil _
  | cons e es ih =>
    rw [Element.childLines, toList_ofLines_append, List.append_assoc] at hrun
    rw [childMarks, List.map_append, List.append_assoc] at hshows
    have he : WellMade (fun _ a => IsExact a.2) body e :=
      hes e List.mem_cons_self depth ms ['\n'] _ _ hrun hshows
    -- The first child is known now, and with it where the others begin.
    rw [Scan.run_append_of_run (run_lines (he.readable fun _ _ ha => ha) depth ms ['\n'])] at hrun
    have hrest := hshows.drop _ (List.length_map ..) (Scan.marks_of_run hrun)
    exact List.forall_mem_cons.mpr
      ⟨he, ih (List.forall_mem_of_forall_mem_cons hes) hrun hrest⟩

theorem exact_of_run {e : Element}
    (h : WellMade (fun name a => keep name.toList a.1.toList = true ∨ IsExact a.2) body e)
    (hr : r.phase = .text) (depth : ℕ) (ms : List Mark) (text rest : List Char)
    (parts : List (Option (List Char × Attributes)))
    (hrun : Scan.run ⟨ms, text, .text⟩ ((Text.ofLines (e.lines depth)).toList ++ rest) = some r)
    (hshows : Shows keep r ms ((Markup.marks depth text.reverse e).map keep.parts? ++ parts)) :
    WellMade (fun _ a => IsExact a.2) body e := by
  induction h generalizing depth ms text rest parts with
  | @empty name as h =>
    have htext : (Text.ofLines ((Element.empty name as).lines depth)).toList ++ rest =
        (Element.indent depth).toList ++
          ((Element.opening name as).toList ++ ' ' :: '/' :: '>' :: '\n' :: rest) := by
      simp [Element.lines, Text.ofLines]
    rw [htext, Scan.run_append_of_run (Scan.run_text ms text (not_mem_indent depth))] at hrun
    exact .empty (hshows.exact_tag h (by decide) hrun hr)
  | @text name as s h hs =>
    have htext : (Text.ofLines ((Element.text name as s).lines depth)).toList ++ rest =
        (Element.indent depth).toList ++ ((Element.opening name as).toList ++
          '>' :: ((Element.escape s).toList ++ (Element.closing name).toList ++ '\n' :: rest)) := by
      simp [Element.lines, Text.ofLines]
    rw [htext, Scan.run_append_of_run (Scan.run_text ms text (not_mem_indent depth))] at hrun
    exact .text (hshows.exact_tag h (by decide) hrun hr) hs
  | @group name as children h _ ih =>
    have htext : (Text.ofLines ((Element.group name as children).lines depth)).toList ++ rest =
        (Element.indent depth).toList ++ ((Element.opening name as).toList ++
          '>' :: '\n' :: ((Text.ofLines (Element.childLines (depth + 1) children)).toList ++
            ((Element.indent depth).toList ++ (Element.closing name).toList ++ '\n' :: rest))) := by
      simp [Element.lines, Text.ofLines]
    rw [htext, Scan.run_append_of_run (Scan.run_text ms text (not_mem_indent depth))] at hrun
    have htag : IsTag (fun a => IsExact a.2) name as := hshows.exact_tag h (by decide) hrun hr
    have hplain : ∀ a ∈ as, IsPlain a :=
      fun a ha => ⟨(htag.keys a ha).1, (htag.values a ha).1, (htag.values a ha).2.1⟩
    have hend (known : List Mark) :
        Scan.step ⟨known, [], .text⟩ '\n' = some ⟨known, ['\n'], .text⟩ := rfl
    rw [List.append_cons, Scan.run_append_of_run (Scan.run_openingTag ms _ htag.name.1 hplain),
      Scan.run_cons, hend, Option.bind_some] at hrun
    have hchildren : Shows keep r ms
        ([some (name.toList, keep.attributes name.toList (as.map charsOf))] ++
          ((childMarks (depth + 1) children).map keep.parts? ++ none :: parts)) := by
      simpa [Markup.marks, Selection.parts?, Selection.tag, Tag.parts?] using hshows
    have hrest := hchildren.drop [⟨_, .opening name.toList (as.map charsOf)⟩] rfl
      (Scan.marks_of_run hrun)
    exact .group htag (exact_of_run_children (fun e he => ih e he) hrun hrest)

/-! ## Documents -/

/-- An element whose other values are verbatim is read back from its document, where it is looked
at, when all its values are verbatim and its texts have characters of XML, and only then. -/
theorem read_document_iff {keep : Selection} {e : Element}
    (h : WellMade (fun name a => keep name.toList a.1.toList = true ∨ IsVerbatim a.2)
      (fun _ => True) e) :
    (∃ ds, read e.document = some ds ∧
        ds.map keep.parts? = (contents 0 ['\n'] e).map keep.parts?) ↔
      WellMade (fun _ a => IsVerbatim a.2) IsText e := by
  constructor
  · rintro ⟨ds, hread, hparts⟩
    obtain ⟨hchars, root, ms, after, hrun, _, _, _, hds⟩ := read_eq_some.mp hread
    have htext : WellMade (fun _ a => IsText a.2) IsText e := (allChars_document h).mp hchars
    have hchosen : WellMade (fun name a => keep name.toList a.1.toList = true ∨ IsExact a.2)
        (fun _ => True) e :=
      h.mono (fun _ _ ha => ha.imp_right fun ha => (isVerbatim_iff.mp ha).2) fun _ hs => hs
    have hlooked : ds.map keep.parts? = (Markup.marks 0 ['\n'] e).map keep.parts? := by
      have htags := congrArg (List.map fun t => (keep.tag t).parts?) (map_tag_contents h 0 ['\n'])
      rw [List.map_map, List.map_map] at htags
      exact hparts.trans htags
    have hshows : Shows keep ⟨(declaration :: root :: ms).reverse, after, .text⟩ [declaration]
        ((Markup.marks 0 ['\n'] e).map keep.parts? ++ []) :=
      ⟨root :: ms, ds, List.reverse_cons, hds, by rw [List.append_nil, hlooked]⟩
    rw [run_document, ← List.append_nil (Text.ofLines (e.lines 0)).toList] at hrun
    have hexact : WellMade (fun _ a => IsExact a.2) (fun _ => True) e :=
      exact_of_run hchosen rfl 0 [declaration] ['\n'] [] [] hrun hshows
    exact (htext.and hexact).mono (fun _ _ ha => isVerbatim_iff.mpr ha) fun _ hs => hs.1
  · intro hverbatim
    exact ⟨_, read_document hverbatim, rfl⟩

end Xml
end BracketTurtle
