import BracketTurtle.Proofs.PlainArguments
import Mathlib.Data.List.TakeWhile

/-!
# Dashes that name no switch

An argument with a dash in front need not name a switch. Where the names of the switches have
nothing in common with the characters after the dash, only a number or a space makes it an operand;
else it counts as a switch that is not known.
-/

namespace BracketTurtle
namespace Grammar

theorem splitAssignment_of_not_mem {cs : List Char} (h : '=' ∉ cs) :
    splitAssignment cs = (cs, none) := by
  have hnone : cs.dropWhile (· ≠ '=') = [] := by
    rw [List.dropWhile_eq_nil_iff]
    intro c hc
    exact decide_eq_true (ne_of_mem_of_not_mem hc h)
  rw [splitAssignment, hnone]

theorem tokens_cons {g : Grammar} {a : String} {role : Role} {rest : List String} {ts : List Token}
    (ha : a ≠ "--") (hrole : g.roleOf a = .ok role) (hrest : g.tokens rest = .ok ts) :
    g.tokens (a :: rest) = .ok (⟨a, role⟩ :: ts) := by
  rw [tokens, if_neg ha, hrole]
  simp only [hrest]

/-- No character of this kind is a short name, and no long name begins with one. -/
def Avoids (g : Grammar) (p : Char → Bool) : Prop :=
  ∀ s ∈ g.switches,
    (∀ d ∈ s.short, p d = false) ∧ ∃ d ds, s.long.toList = d :: ds ∧ p d = false

section

variable {g : Grammar} {p : Char → Bool} (hg : g.Avoids p) {a : String} {c : Char} {cs : List Char}
  (ha : a.toList = '-' :: c :: cs) (hall : ∀ d ∈ c :: cs, p d = true)
include hg ha hall

theorem named?_of_avoids : g.named? a = none := by
  obtain ⟨hc, hcs⟩ := List.forall_mem_cons.mp hall
  rw [named?, List.find?_eq_none]
  intro s hs hname
  obtain ⟨hshorts, d, ds, hlong, hd⟩ := hg s hs
  rw [List.contains_iff_mem, Switch.names, List.mem_append, List.mem_singleton] at hname
  rcases hname with hshort | hname
  · obtain ⟨e, he, hname⟩ := Option.map_eq_some_iff.mp (Option.mem_toList.mp hshort)
    rw [← hname, String.toList_ofList] at ha
    cases ha
    cases hc.symm.trans (hshorts c he)
  · rw [hname, Switch.longName, String.toList_append, hlong] at ha
    cases ha
    cases (hcs d List.mem_cons_self).symm.trans hd

theorem candidates_of_avoids (hassign : p '=' = false) (hdivider : a ≠ "--") :
    g.candidates ('-' :: c :: cs) = [] := by
  obtain ⟨hc, hcs⟩ := List.forall_mem_cons.mp hall
  by_cases hdash : c = '-'
  · subst hdash
    have hvalue : '=' ∉ cs := fun h => by cases (hcs _ h).symm.trans hassign
    simp only [candidates, splitAssignment_of_not_mem hvalue, List.map_eq_nil_iff,
      List.filter_eq_nil_iff]
    intro s hs hprefix
    obtain ⟨_, d, ds, hlong, hd⟩ := hg s hs
    cases cs with
    | nil => exact hdivider (String.toList_inj.mp ha)
    | cons e cs =>
      rw [hlong, List.isPrefixOf_iff_prefix, List.cons_prefix_cons] at hprefix
      obtain ⟨rfl, _⟩ := hprefix
      cases (hcs e List.mem_cons_self).symm.trans hd
  · have hshort : g.shortNamed? c = none := by
      rw [shortNamed?, List.find?_eq_none]
      intro s hs hshort
      cases hc.symm.trans ((hg s hs).1 c (of_decide_eq_true hshort))
    rw [candidates]
    · rw [hshort]
      rfl
    · intro h
      exact absurd h hdash

/-- Only a number or a space makes an operand of it. -/
theorem roleOf_of_avoids (hassign : p '=' = false) (hdivider : a ≠ "--") :
    g.roleOf a =
      .ok (if isUnsignedNumber (c :: cs) || ('-' :: c :: cs).contains ' ' then .operand
        else .switch none) := by
  have hvalue : '=' ∉ '-' :: c :: cs := by
    rintro (_ | ⟨_, h⟩)
    cases (hall _ h).symm.trans hassign
  unfold roleOf
  rw [ha]
  simp only [named?_of_avoids hg ha hall, splitAssignment_of_not_mem hvalue,
    candidates_of_avoids hg ha hall hassign hdivider]
  split <;> rfl

end
end Grammar
end BracketTurtle
