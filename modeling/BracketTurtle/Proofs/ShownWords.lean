import BracketTurtle.Program.Commands
import BracketTurtle.Proofs.DashedArguments
import BracketTurtle.Proofs.Endings
import BracketTurtle.Proofs.PartialRuns
import BracketTurtle.Proofs.WordTexts

/-!
# Words as arguments

A word is an argument of `show` like any other. Its symbols and blanks make no number and no name of
a switch, but a dash in front of more makes it look like a switch, unless there is a space in it.
What does not look like one is shown if the word can be read and run; what does is refused before it
is read as a word.
-/

namespace BracketTurtle

/-! ## The characters of words -/

namespace Text

/-- Stretches of code points without a digit of any script. -/
def digitless : List (ℕ × ℕ) := [(0x00, 0x2f), (0x3a, 0x65f), (0x109a, 0x17df), (0x1c5a, 0xa61f)]

theorem decimalDigit?_of_digitless {ch : Char} {r : ℕ × ℕ} (hr : r ∈ digitless)
    (hlow : r.1 ≤ ch.toNat) (hhigh : ch.toNat ≤ r.2) : decimalDigit? ch = none := by
  have hapart : ∀ r ∈ digitless, ∀ z ∈ zeros, z + 9 < r.1 ∨ r.2 < z := by decide
  rw [decimalDigit?, Option.map_eq_none_iff, List.find?_eq_none]
  intro z hz hin
  rw [Bool.and_eq_true, decide_eq_true_iff, decide_eq_true_iff] at hin
  have := hapart r hr z hz
  omega

theorem decimalDigit?_of_isCharacter {ch : Char} (h : Word.isCharacter ch = true) :
    decimalDigit? ch = none := by
  have hstretch : ∃ r ∈ digitless, r.1 ≤ ch.toNat ∧ ch.toNat ≤ r.2 := by
    rw [Word.isCharacter, Bool.or_eq_true] at h
    rcases h with hblank | hsymbol
    · simp only [isBlank, Bool.or_eq_true, Bool.and_eq_true, decide_eq_true_eq] at hblank
      simp only [digitless, List.mem_cons, List.not_mem_nil, or_false, exists_eq_or_imp,
        exists_eq_left]
      omega
    · obtain ⟨cmd, hcmd⟩ := Option.isSome_iff_exists.mp hsymbol
      obtain rfl := Command.ofChar?_eq_some_iff.mp hcmd
      cases cmd <;> decide
  obtain ⟨r, hr, hlow, hhigh⟩ := hstretch
  exact decimalDigit?_of_digitless hr hlow hhigh

end Text

theorem isUnsignedNumber_of_isCharacter {cs : List Char}
    (h : ∀ ch ∈ cs, Word.isCharacter ch = true) : isUnsignedNumber cs = false := by
  have hbody : ∀ ch ∈ (if cs.getLast? = some '\n' then cs.dropLast else cs),
      Word.isCharacter ch = true := by
    split
    · exact fun ch hch => h ch (List.mem_of_mem_dropLast hch)
    · exact h
  simp only [isUnsignedNumber]
  generalize (if cs.getLast? = some '\n' then cs.dropLast else cs) = body at hbody
  cases body with
  | nil => rfl
  | cons c body =>
    have hc := hbody c List.mem_cons_self
    have hpoint : c ≠ '.' := by
      rintro rfl
      cases hc
    simp [Text.decimalDigit?_of_isCharacter hc, hpoint]

/-! ## Words that look like switches -/

/-- A dash in front of something, and no space. -/
def LooksLikeSwitch (a : String) : Prop :=
  a.toList.head? = some '-' ∧ 2 ≤ a.toList.length ∧ ' ' ∉ a.toList

instance (a : String) : Decidable (LooksLikeSwitch a) :=
  inferInstanceAs (Decidable (_ ∧ _ ∧ _))

theorem looksLikeSwitch_iff {a : String} :
    LooksLikeSwitch a ↔ ∃ c cs, a.toList = '-' :: c :: cs ∧ ' ' ∉ a.toList := by
  rw [LooksLikeSwitch]
  rcases a.toList with _ | ⟨d, _ | ⟨c, cs⟩⟩ <;> simp

namespace Grammar

theorem roleOf_word {g : Grammar} (hg : g.Avoids Word.isCharacter) {a : String} (ha : a ≠ "--")
    (hword : ∀ ch ∈ a.toList, Word.isCharacter ch = true) :
    g.roleOf a = .ok (if LooksLikeSwitch a then .switch none else .operand) := by
  by_cases hdash : ∃ c cs, a.toList = '-' :: c :: cs
  · obtain ⟨c, cs, hcs⟩ := hdash
    have hall : ∀ ch ∈ c :: cs, Word.isCharacter ch = true := by
      rw [hcs] at hword
      exact List.forall_mem_of_forall_mem_cons hword
    have hlooks : LooksLikeSwitch a ↔ ' ' ∉ '-' :: c :: cs := by
      rw [looksLikeSwitch_iff, hcs]
      exact ⟨fun ⟨_, _, _, h⟩ => h, fun h => ⟨c, cs, rfl, h⟩⟩
    rw [roleOf_of_avoids hg hcs hall rfl ha, isUnsignedNumber_of_isCharacter hall]
    by_cases hspace : ' ' ∈ '-' :: c :: cs
    · rw [if_neg (hlooks.not.mpr (not_not.mpr hspace)), Bool.false_or,
        if_pos (List.contains_iff_mem.mpr hspace)]
    · rw [if_pos (hlooks.mpr hspace), Bool.false_or, if_neg (List.contains_iff_mem.not.mpr hspace)]
  · have hlooks : ¬LooksLikeSwitch a := fun h =>
      have ⟨c, cs, hcs, _⟩ := looksLikeSwitch_iff.mp h
      hdash ⟨c, cs, hcs⟩
    rw [if_neg hlooks]
    unfold roleOf
    split
    · rename_i hcs
      exact absurd ⟨_, _, hcs⟩ hdash
    · rfl

end Grammar

/-! ## A single argument -/

theorem takeAlone_nil {s : Switch} {taken : Taken} (h : takeAlone s [] = .ok taken) :
    taken.rest = [] := by
  unfold takeAlone at h
  split at h <;> cases h <;> rfl

theorem takeShort_nil {g : Grammar} {s : Switch} {cs : List Char} {taken : Taken}
    (h : takeShort g s [] cs = .ok taken) : taken.rest = [] := by
  induction cs generalizing s taken with
  | nil => exact takeAlone_nil h
  | cons c cs ih =>
    unfold takeShort at h
    split at h
    · cases h
      rfl
    · cases h
      rfl
    -- a switch without a value leaves the characters after it to be more short names
    all_goals
      split at h
      · cases h
      · split at h
        · cases h
        · rename_i hmore
          have hrest := ih hmore
          cases h
          exact hrest

theorem takeSwitch_nil {g : Grammar} {sp : Spelling} {taken : Taken}
    (h : takeSwitch g sp [] = .ok taken) : taken.rest = [] := by
  unfold takeSwitch at h
  split at h
  · exact takeAlone_nil h
  · split at h
    · cases h
      rfl
    · cases h
      rfl
    all_goals
      split at h
      · exact takeShort_nil h
      · cases h

namespace Grammar

theorem tokens_singleton_eq_ok {g : Grammar} {a : String} {ts : List Token}
    (h : g.tokens [a] = .ok ts) : ∃ role, ts = [⟨a, role⟩] ∧ (role = .operand → a ≠ "--") := by
  by_cases ha : a = "--"
  · rw [tokens, if_pos ha] at h
    cases h
    exact ⟨.divider, rfl, by simp⟩
  · rw [tokens, if_neg ha] at h
    split at h
    · cases h
    · rename_i role _
      cases h
      exact ⟨role, rfl, fun _ => ha⟩

section

/-! Where there is one operand, nothing but an operand can be a single argument. A switch takes no
more than itself, so that the operand is missing. -/

variable {g : Grammar} {o : Operand}

theorem readFrom_nil (fuel : ℕ) (r : Reading) :
    g.readFrom (fuel + 1) [o] r [] = .error (.refused (.operandsMissing [o.name])) := rfl

theorem readFrom_switch {a : String} {r done : Reading} {s : Option Spelling} (fuel : ℕ) :
    g.readFrom (fuel + 2) [o] r [⟨a, .switch s⟩] ≠ .ok done := by
  intro h
  cases s with
  | none =>
    rw [readFrom, readFrom_nil] at h
    cases h
  | some sp =>
    rw [readFrom] at h
    split at h
    · cases h
    · rename_i taken htaken
      rw [takeSwitch_nil htaken] at h
      split at h
      · cases h
      · rw [readFrom_nil] at h
        cases h

theorem readFrom_operand (ho : o.extent = .one) {a : String} (ha : a ≠ "--") (fuel : ℕ) :
    g.readFrom (fuel + 1) [o] .empty [⟨a, .operand⟩] = .ok ⟨[], [[a]], []⟩ := by
  simp [readFrom, ho, takeOperands, Extent.take, takeDividers, List.span_eq_takeWhile_dropWhile, ha,
    Reading.withOperands, Reading.withUnknown, Reading.empty]

theorem read_singleton_eq_ok (hg : g.operands = [o]) (ho : o.extent = .one) {a : String}
    {r : Reading} (h : g.read [a] = .ok r) : r = ⟨[], [[a]], []⟩ := by
  unfold read at h
  split at h
  · cases h
  · rename_i htokens
    obtain ⟨role, rfl, ha⟩ := tokens_singleton_eq_ok htokens
    rw [hg] at h
    cases role with
    | operand =>
      rw [readFrom_operand ho (ha rfl)] at h
      exact (Except.ok.inj h).symm
    | divider => cases h
    | switch s => exact absurd h (readFrom_switch _)

end

end Grammar

/-! ## The arguments of `show` -/

namespace CommandLine

theorem mainGrammar_avoids : mainGrammar.Avoids Word.isCharacter := by
  have hv : Word.isCharacter 'v' = false := rfl
  have hh : Word.isCharacter 'h' = false := rfl
  simp [Grammar.Avoids, mainGrammar, Switch.helpSwitch, hv, hh]

theorem showGrammar_avoids : showGrammar.Avoids Word.isCharacter := by
  have hh : Word.isCharacter 'h' = false := rfl
  simp [Grammar.Avoids, showGrammar, commandGrammar, Switch.helpSwitch, hh]

theorem read_show (a : String) :
    CommandLine.read ["show", a] =
      match mainGrammar.tokens [a] with
      | .error e => .refused mainGrammar e
      | .ok _ => readCommand ⟨[], [["show", a]], []⟩ showGrammar showRequest [a] := by
  have hshow : mainGrammar.roleOf "show" = .ok .operand := Grammar.roleOf_plain _ (by decide)
  unfold CommandLine.read Grammar.read
  rw [Grammar.tokens, if_neg (by decide), hshow]
  cases htokens : mainGrammar.tokens [a] with
  | error e => rfl
  | ok ts =>
    -- the command takes all arguments after it, whatever their roles
    obtain ⟨role, rfl, _⟩ := Grammar.tokens_singleton_eq_ok htokens
    rfl

theorem of_read_show {a : String} {i : Invocation}
    (h : CommandLine.read ["show", a] = .accepted i) :
    i = ⟨false, .show a⟩ := by
  rw [read_show] at h
  split at h
  · cases h
  · unfold readCommand at h
    split at h
    · rename_i halt _
      cases halt <;> cases h
    · rename_i hread
      obtain rfl := Grammar.read_singleton_eq_ok rfl rfl hread
      cases h
      rfl

theorem read_show_word {a : String} (hword : ∀ ch ∈ a.toList, Word.isCharacter ch = true) :
    CommandLine.read ["show", a] =
      if LooksLikeSwitch a then .refused showGrammar (.operandsMissing ["word"])
      else .accepted ⟨false, .show a⟩ := by
  by_cases ha : a = "--"
  · -- the divider has no role of its own to look up, but is missed for an operand all the same
    subst ha
    rfl
  · have htokens {g : Grammar} (hg : g.Avoids Word.isCharacter) :
        g.tokens [a] = .ok [⟨a, if LooksLikeSwitch a then .switch none else .operand⟩] :=
      Grammar.tokens_cons ha (Grammar.roleOf_word hg ha hword) rfl
    rw [read_show, htokens mainGrammar_avoids]
    by_cases hlooks : LooksLikeSwitch a
    · simp only [readCommand, Grammar.read, htokens showGrammar_avoids, if_pos hlooks]
      rfl
    · have hread : showGrammar.readFrom 2 showGrammar.operands .empty [⟨a, .operand⟩] =
          .ok ⟨[], [[a]], []⟩ := Grammar.readFrom_operand rfl ha 1
      simp only [readCommand, Grammar.read, htokens showGrammar_avoids, if_neg hlooks,
        List.length_singleton, hread]
      rfl

end CommandLine

/-! ## What is shown -/

/-- The text is a word, and its run on the standard course does not fault. -/
def IsRunnable (A : Arithmetic) (text : String) : Prop :=
  ∃ w, Word.parse text = .ok w ∧ (Course.standard.run A w .origin).fault = none

namespace Program

variable (A : Arithmetic) (fresh : Int) (here : Location) (t : FileTree)

/-- The program does what it is asked for and ends well; to be shown a help page is another end. -/
def Succeeds (arguments : List String) : Prop :=
  ∃ i, CommandLine.read arguments = .accepted i ∧
    ((perform A fresh i).run here t).1.ending = .exit 0

variable {A} in
theorem showing_of_fault_eq_none {text : String} {w : Word} (hparse : Word.parse text = .ok w)
    (h : (Course.standard.run A w .origin).fault = none) :
    showing A false text = ⟨[w.listing, segmentsLine (w.countP Command.draws)], [], .exit 0⟩ := by
  obtain ⟨_, hsegments, _⟩ := run_of_fault_eq_none h
  simp only [showing, hparse, h, hsegments]
  rfl

theorem showing_ending (verbose : Bool) (text : String) :
    (showing A verbose text).ending = .exit 0 ↔ IsRunnable A text := by
  unfold showing IsRunnable
  cases Word.parse text with
  | error e => simp [Report.failure_ending_ne]
  | ok w =>
    cases hfault : (Course.standard.run A w .origin).fault with
    | none => simp [hfault, Report.success]
    | some f => simp [hfault, Report.failure_ending_ne]

variable {A fresh here t}

theorem succeeds_show_iff {W : String} :
    Succeeds A fresh here t ["show", W] ↔ IsRunnable A W ∧ ¬LooksLikeSwitch W := by
  constructor
  · rintro ⟨i, hread, hending⟩
    obtain rfl := CommandLine.of_read_show hread
    obtain ⟨w, hparse, hfault⟩ := (showing_ending A false W).mp hending
    refine ⟨⟨w, hparse, hfault⟩, ?_⟩
    intro hlooks
    rw [CommandLine.read_show_word (Word.isCharacter_of_parse hparse), if_pos hlooks] at hread
    cases hread
  · rintro ⟨⟨w, hparse, hfault⟩, hlooks⟩
    refine ⟨⟨false, .show W⟩, ?_, (showing_ending A false W).mpr ⟨w, hparse, hfault⟩⟩
    rw [CommandLine.read_show_word (Word.isCharacter_of_parse hparse), if_neg hlooks]

variable (A fresh here t) in
/-- `show` succeeds exactly for the words that can be run and do not look like a switch. It prints
the commands of the word, then how many of them draw. A word that looks like a switch is refused as
if there were none, whatever its run would come to. -/
theorem show_reads_words (W : String) :
    (Succeeds A fresh here t ["show", W] ↔ IsRunnable A W ∧ ¬LooksLikeSwitch W) ∧
    ∀ w, Word.parse W = .ok w →
      (Succeeds A fresh here t ["show", W] →
        (job A fresh ["show", W]).run here t =
          (⟨[w.listing, segmentsLine (w.countP Command.draws)], [], .exit 0⟩, t)) ∧
      (LooksLikeSwitch W →
        (job A fresh ["show", W]).run here t =
          (refusal CommandLine.showGrammar (.operandsMissing ["word"]), t)) := by
  refine ⟨succeeds_show_iff, ?_⟩
  intro w hparse
  have hread := CommandLine.read_show_word (Word.isCharacter_of_parse hparse)
  constructor
  · intro hsucceeds
    obtain ⟨⟨v, hv, hfault⟩, hlooks⟩ := succeeds_show_iff.mp hsucceeds
    obtain rfl := Except.ok.inj (hv.symm.trans hparse)
    rw [if_neg hlooks] at hread
    rw [job, hread]
    exact congrArg (·, t) (showing_of_fault_eq_none hparse hfault)
  · intro hlooks
    rw [if_pos hlooks] at hread
    rw [job, hread]
    rfl

theorem show_reads_words_spaced :
    (job straight.1 0 ["show", " -F[R]"]).run [] .empty =
      (⟨["[LEFT, FORWARD, PUSH, FORWARD2, POP]", "segments: 2"], [], .exit 0⟩, .empty) := by
  have hparse : Word.parse " -F[R]" = .ok [.left, .forward, .push, .forward2, .pop] := by rfl
  obtain ⟨hsucceeds, hshown⟩ := show_reads_words straight.1 0 [] .empty " -F[R]"
  have hrunnable : IsRunnable straight.1 " -F[R]" := ⟨_, hparse, by rfl⟩
  rw [(hshown _ hparse).1 (hsucceeds.mpr ⟨hrunnable, by decide⟩)]
  rfl

/-- No command of the word can fault, but it is refused for the dash in front. -/
theorem dashed_word_refused :
    ¬∀ (A : Arithmetic) (W : String), Succeeds A 0 [] .empty ["show", W] ↔ IsRunnable A W := by
  intro h
  have hrunnable : IsRunnable .machine "-X" := ⟨[.left, .ignore], by rfl, by rfl⟩
  have hsucceeds := (h .machine "-X").mpr hrunnable
  exact (succeeds_show_iff.mp hsucceeds).2 (by decide)

end Program
end BracketTurtle
