import BracketTurtle.Config
import BracketTurtle.Proofs.Outcomes

/-!
# Checks of configs

What a config that was read has passed, be its fields given or left to their defaults.
-/

namespace BracketTurtle
namespace Config

theorem of_orElse {α : Type} {P : α → Prop} {members : Registry Json} {key : String} {default a : α}
    {read : Json → Check α} (hdefault : P default) (hread : ∀ v a, read v = .ok a → P a)
    (h : orElse members key default read = .ok a) : P a := by
  unfold orElse at h
  split at h
  · cases h
    exact hdefault
  · exact hread _ _ h

theorem of_nullable {α : Type} {P : α → Prop} {members : Registry Json} {key : String}
    {field : Option α} {read : Json → Check α} (hread : ∀ v a, read v = .ok a → P a)
    (h : nullable members key read = .ok field) : ∀ a ∈ field, P a := by
  unfold nullable at h
  split at h
  · cases h
    exact fun a ha => nomatch ha
  · cases h
    exact fun a ha => nomatch ha
  · rename_i v _ _
    cases hv : read v with
    | error e =>
      rw [hv] at h
      cases h
    | ok b =>
      rw [hv] at h
      cases h
      rintro a ⟨⟩
      exact hread v b hv

theorem places_range {path : String} {v : Json} {n : ℤ} (h : places path v = .ok n) :
    0 ≤ n ∧ n ≤ 10 := by
  obtain ⟨m, _, h⟩ := bind_eq_ok.mp h
  split_ifs at h with hrange
  cases h
  exact hrange

theorem isFinite_of_number {path : String} {v : Json} {x : Float} (h : number path v = .ok x) :
    x.isFinite = true := by
  unfold number at h
  split at h
  · split at h
    · rename_i n y hnearest
      cases h
      simp only [Number.nearest?] at hnearest
      split_ifs at hnearest with hfinite
      cases hnearest
      exact hfinite
    · cases h
  · split_ifs at h with hfinite
    cases h
    exact hfinite
  · cases h

theorem pos_of_positive {path : String} {v : Json} {x : Float} (h : positive path v = .ok x) :
    0 < x := by
  obtain ⟨y, _, h⟩ := bind_eq_ok.mp h
  split_ifs at h with hpos
  cases h
  exact hpos

theorem isFinite_strokeWidth {members : Registry Json} {s : Svg.Style}
    (h : style members = .ok s) : s.strokeWidth.isFinite = true := by
  obtain ⟨stroke, _, h⟩ := bind_eq_ok.mp h
  obtain ⟨strokeWidth, hwidth, h⟩ := bind_eq_ok.mp h
  obtain ⟨fill, _, h⟩ := bind_eq_ok.mp h
  obtain ⟨lineCap, _, h⟩ := bind_eq_ok.mp h
  obtain ⟨lineJoin, _, h⟩ := bind_eq_ok.mp h
  cases h
  exact of_orElse (P := fun x => x.isFinite = true) (by decide +kernel)
    (fun _ _ => isFinite_of_number) hwidth

/-- What settings that were read have passed. -/
structure IsChecked (s : Svg.Settings) : Prop where
  places : 0 ≤ s.places ∧ s.places ≤ 10
  width : ∀ x ∈ s.width, 0 < x
  height : ∀ x ∈ s.height, 0 < x
  strokeWidth : s.style.strokeWidth.isFinite = true

theorem isChecked_of_settings {members : Registry Json} {s : Svg.Settings}
    (h : settings members = .ok s) : IsChecked s := by
  obtain ⟨margin, _, h⟩ := bind_eq_ok.mp h
  obtain ⟨n, hplaces, h⟩ := bind_eq_ok.mp h
  obtain ⟨flip, _, h⟩ := bind_eq_ok.mp h
  obtain ⟨width, hwidth, h⟩ := bind_eq_ok.mp h
  obtain ⟨height, hheight, h⟩ := bind_eq_ok.mp h
  obtain ⟨styleMembers, _, h⟩ := bind_eq_ok.mp h
  obtain ⟨style, hstyle, h⟩ := bind_eq_ok.mp h
  obtain ⟨background, _, h⟩ := bind_eq_ok.mp h
  cases h
  refine ⟨?_, of_nullable (fun _ _ => pos_of_positive) hwidth,
    of_nullable (fun _ _ => pos_of_positive) hheight, isFinite_strokeWidth hstyle⟩
  exact of_orElse (P := fun n => 0 ≤ n ∧ n ≤ 10) (by decide) (fun _ _ hn => places_range hn) hplaces

theorem parts_of_ofJson {v : Json} {c : Config} (h : ofJson v = .ok c) :
    ∃ (members svg : Registry Json) (word : String), v = .object members ∧
      members.get? "word" = some (.string word) ∧ Word.parse word = .ok c.word ∧
        settings svg = .ok c.svg := by
  obtain ⟨members, hmembers, h⟩ := bind_eq_ok.mp h
  obtain ⟨name, _, h⟩ := bind_eq_ok.mp h
  split at h
  · cases h
  · rename_i given hgiven
    obtain ⟨word, hword, h⟩ := bind_eq_ok.mp h
    obtain ⟨w, hw, h⟩ := bind_eq_ok.mp h
    obtain ⟨turtle, _, h⟩ := bind_eq_ok.mp h
    obtain ⟨⟨course, start⟩, _, h⟩ := bind_eq_ok.mp h
    obtain ⟨svg, _, h⟩ := bind_eq_ok.mp h
    obtain ⟨s, hs, h⟩ := bind_eq_ok.mp h
    cases h
    obtain rfl : given = .string word := by
      cases given <;> cases hword
      rfl
    obtain rfl : v = .object members := by
      cases v <;> cases hmembers
      rfl
    exact ⟨members, svg, word, rfl, hgiven, mapError_eq_ok.mp hw, hs⟩

theorem isChecked_of_ofJson {v : Json} {c : Config} (h : ofJson v = .ok c) : IsChecked c.svg := by
  obtain ⟨_, _, _, _, _, _, hsettings⟩ := parts_of_ofJson h
  exact isChecked_of_settings hsettings

end Config
end BracketTurtle
