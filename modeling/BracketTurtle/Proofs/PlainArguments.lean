import BracketTurtle.CommandLine
import Mathlib.Tactic

/-!
# Plain arguments

Arguments without a dash in front are read one by one: each is given for the operand in its place.
A command takes all that follow it.
-/

namespace BracketTurtle

def IsPlainArgument (a : String) : Prop := a.toList.head? ≠ some '-'

instance (a : String) : Decidable (IsPlainArgument a) := inferInstanceAs (Decidable (_ ≠ _))

def Token.plain (a : String) : Token := ⟨a, .operand⟩

theorem map_text_plain (as : List String) : (as.map Token.plain).map Token.text = as := by
  rw [List.map_map]
  exact List.map_id _

theorem IsPlainArgument.ne_divider {a : String} (h : IsPlainArgument a) : a ≠ "--" := by
  rintro rfl
  exact h (by decide)

namespace Grammar

theorem roleOf_plain (g : Grammar) {a : String} (h : IsPlainArgument a) :
    g.roleOf a = .ok .operand := by
  unfold roleOf
  split
  · rename_i hlist
    exact absurd (by rw [hlist]; rfl) h
  · rfl

theorem tokens_plain (g : Grammar) {as : List String} (h : ∀ a ∈ as, IsPlainArgument a) :
    g.tokens as = .ok (as.map Token.plain) := by
  induction as with
  | nil => rfl
  | cons a as ih =>
    have ha := h a List.mem_cons_self
    have hrest := ih (List.forall_mem_of_forall_mem_cons h)
    rw [tokens, if_neg ha.ne_divider, roleOf_plain g ha, hrest]
    rfl

theorem takeDividers_plain (as : List String) :
    takeDividers (as.map Token.plain) = ([], as.map Token.plain) := by
  cases as with
  | nil => rfl
  | cons a as => rfl

theorem takeOperands_plain {os : List Operand} {as : List String}
    (hos : ∀ o ∈ os, o.extent = .one) (has : ∀ a ∈ as, IsPlainArgument a)
    (hlength : as.length = os.length) :
    takeOperands os (as.map Token.plain) = (as.map fun a => [a], [], []) := by
  induction os generalizing as with
  | nil =>
    obtain rfl := List.length_eq_zero_iff.mp hlength
    rfl
  | cons o os ih =>
    cases as with
    | nil => simp at hlength
    | cons a as =>
      have ho := hos o List.mem_cons_self
      have ha := has a List.mem_cons_self
      have hrest := ih (List.forall_mem_of_forall_mem_cons hos)
        (List.forall_mem_of_forall_mem_cons has) (by simpa using hlength)
      have htake : Extent.one.take ((a :: as).map Token.plain) =
          some ([a], as.map Token.plain) := by
        have hdividers := takeDividers_plain (a :: as)
        rw [List.map_cons] at hdividers ⊢
        unfold Extent.take
        rw [hdividers]
        simp only [Token.plain, if_true]
        simp [takeDividers_plain, ha.ne_divider]
      rw [takeOperands, ho, htake]
      simp only [hrest]
      rfl

theorem read_plain {g : Grammar} {as : List String} {given : List (List String)}
    (has : ∀ a ∈ as, IsPlainArgument a)
    (h : takeOperands g.operands (as.map Token.plain) = (given, [], [])) :
    g.read as = .ok ⟨[], given, []⟩ := by
  unfold Grammar.read
  rw [tokens_plain g has]
  cases as with
  | nil =>
    rw [List.map_nil] at h
    simp [readFrom, h, Reading.withOperands, Reading.withUnknown, Reading.empty]
  | cons a as =>
    rw [List.map_cons, Token.plain] at h
    simp [readFrom, Token.plain, h, Reading.withOperands, Reading.withUnknown, Reading.empty]

theorem take_command (choices : List (String × String)) (a : String) (as : List String) :
    (Extent.command choices).take ((a :: as).map Token.plain) = some (a :: as, []) := by
  have hdividers := takeDividers_plain (a :: as)
  rw [List.map_cons] at hdividers ⊢
  unfold Extent.take
  rw [hdividers]
  simp only [Token.plain, if_true]
  exact congrArg (fun given => some (a :: given, [])) (map_text_plain as)

end Grammar

namespace CommandLine

theorem read_plain {command : String} {g : Grammar} {request : Reading → Request}
    {as : List String} (hcommand : command? command = some (g, request))
    (hplain : ∀ a ∈ command :: as, IsPlainArgument a) (hos : ∀ o ∈ g.operands, o.extent = .one)
    (hlength : as.length = g.operands.length) :
    CommandLine.read (command :: as) =
      .accepted ⟨false, request ⟨[], as.map fun a => [a], []⟩⟩ := by
  have hmain : mainGrammar.read (command :: as) = .ok ⟨[], [command :: as], []⟩ := by
    apply Grammar.read_plain hplain
    have hoperands : mainGrammar.operands = [⟨"cmd", .command commands, none⟩] := rfl
    rw [hoperands, takeOperands, Grammar.take_command]
    rfl
  have has : ∀ a ∈ as, IsPlainArgument a :=
    List.forall_mem_of_forall_mem_cons hplain
  have hrest : g.read as = .ok ⟨[], as.map fun a => [a], []⟩ :=
    Grammar.read_plain has (Grammar.takeOperands_plain hos has hlength)
  unfold CommandLine.read
  rw [hmain]
  simp only [List.headD_cons, hcommand, List.tail_cons]
  unfold readCommand
  rw [hrest]
  rfl

theorem read_render {config out : String} (hconfig : IsPlainArgument config)
    (hout : IsPlainArgument out) :
    CommandLine.read ["render", config, out] =
      .accepted ⟨false, .render config (some out) none⟩ := by
  have hcommand : command? "render" = some (renderGrammar, renderRequest) := rfl
  have hplain : ∀ a ∈ ["render", config, out], IsPlainArgument a := by
    simp only [List.forall_mem_cons]
    exact ⟨by decide, hconfig, hout, List.forall_mem_nil _⟩
  exact read_plain hcommand hplain (by decide) rfl

theorem read_validate {config : String} (hconfig : IsPlainArgument config) :
    CommandLine.read ["validate", config] = .accepted ⟨false, .validate config⟩ := by
  have hcommand : command? "validate" = some (validateGrammar, validateRequest) := rfl
  have hplain : ∀ a ∈ ["validate", config], IsPlainArgument a := by
    simp only [List.forall_mem_cons]
    exact ⟨by decide, hconfig, List.forall_mem_nil _⟩
  exact read_plain hcommand hplain (by decide) rfl

end CommandLine
end BracketTurtle
