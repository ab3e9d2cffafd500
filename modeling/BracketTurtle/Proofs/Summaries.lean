import BracketTurtle.Proofs.ConfigChecks
import BracketTurtle.Proofs.Depths
import BracketTurtle.Proofs.MarkupReading
import BracketTurtle.Proofs.RoundTrips
import BracketTurtle.Proofs.SeedArguments
import BracketTurtle.Proofs.WordTexts

/-!
# Summaries

The numbers of a summary are counted in four ways: one goes through the commands by their kinds, one
takes the length of the word, one follows the open branches and one runs the word. Read back from
what is printed they agree. The lines are read from the last one up, so that nothing in a name,
which may go over several lines, is taken for one of them.
-/

namespace BracketTurtle

/-! ## Reading summaries -/

/-- The numbers in a summary. -/
structure Figures where
  symbols : ℕ
  /-- The commands that are listed, by name, each with its number. -/
  counts : Table (List Char) ℕ
  depth : ℕ
  segments : ℕ
  /-- The number in the warning, if there is one. -/
  warned : Option ℕ
deriving DecidableEq, Repr

namespace Figures

/-- The number of a command; what is not listed does not occur. -/
def count (f : Figures) (c : Command) : ℕ := (f.counts.get? c.name.toList).getD 0

/-- The numbers agree with each other. -/
structure AddUp (f : Figures) : Prop where
  symbols : (f.counts.map Prod.snd).sum = f.symbols
  segments : f.segments = f.count .forward + f.count .forward2
  closed : f.count .pop ≤ f.count .push
  /-- There is a warning exactly if branches are left open, and it has their number. -/
  warned : f.warned =
    if f.count .push - f.count .pop = 0 then none else some (f.count .push - f.count .pop)
  depth : f.count .push - f.count .pop ≤ f.depth ∧ f.depth ≤ f.count .push

/-- What stands on a line behind a label. -/
def behind? (label : String) (line : List Char) : Option (List Char) :=
  label.toList.isPrefixOf? line

def number? (label : String) (line : List Char) : Option ℕ :=
  (behind? label line).bind Text.natural?

def count? (cs : List Char) : Option (List Char × ℕ) :=
  match cs.splitOn '=' with
  | [name, number] => (Text.natural? number).map (name, ·)
  | _ => none

def counts? (line : List Char) : Option (Table (List Char) ℕ) :=
  (behind? "commands: " line).bind fun cs => (cs.splitOn ' ').mapM count?

def warned? (cs : List Char) : Option ℕ := (cs.splitOn ' ').head?.bind Text.natural?

/-- The lines of a summary without a warning, last one first. -/
def readLines (warned : Option ℕ) : List (List Char) → Option Figures
  | segments :: _svg :: _turtle :: depth :: commands :: symbols :: _ => do
    let segments ← number? "segments: " segments
    let depth ← number? "branch depth: " depth
    let counts ← counts? commands
    let symbols ← number? "symbols: " symbols
    return ⟨symbols, counts, depth, segments, warned⟩
  | _ => none

/-- Reads a printed summary, of which every line has its end. -/
def read (out : List Char) : Option Figures :=
  match (out.splitOn '\n').dropLast.reverse with
  | [] => none
  | last :: lines =>
    match behind? "warning: " last with
    | none => readLines none (last :: lines)
    | some cs => (warned? cs).bind fun k => readLines (some k) lines

theorem behind?_append (label : String) (cs : List Char) :
    behind? label (label.toList ++ cs) = some cs := by
  simp [behind?]

theorem number?_naturalText (label : String) (n : ℕ) :
    number? label (label ++ Number.naturalText n).toList = some n := by
  simp [number?, Number.naturalText, behind?_append, Text.natural?_digitsText]

end Figures

/-! ## Counting commands -/

namespace Word

theorem countP_draws (w : Word) :
    w.countP Command.draws = w.count .forward + w.count .forward2 := by
  induction w with
  | nil => rfl
  | cons cmd w ih =>
    rw [List.countP_cons, List.count_cons, List.count_cons, ih]
    cases cmd with
    | forward | forward2 =>
      simp [Command.draws]
      omega
    | _ => simp [Command.draws]

def occurring (w : Word) : List Command := Command.all.filter w.contains

theorem mem_occurring {w : Word} {cmd : Command} : cmd ∈ w.occurring ↔ cmd ∈ w := by
  simp [occurring, Command.mem_all]

theorem sum_count_occurring (w : Word) : (w.occurring.map w.count).sum = w.length := by
  have hperm : w.occurring.Perm w.dedup := by
    have hnodup : w.occurring.Nodup := List.Nodup.filter _ (by decide)
    rw [List.perm_ext_iff_of_nodup hnodup w.nodup_dedup]
    simp [mem_occurring]
  rw [(hperm.map w.count).sum_eq]
  exact List.sum_map_count_dedup_eq_length w

def counted (w : Word) : List (List Char) :=
  w.occurring.map fun c => c.name.toList ++ '=' :: Number.digitsText (w.count c)

def tally (w : Word) : Table (List Char) ℕ := w.occurring.map fun c => (c.name.toList, w.count c)

theorem get?_tally (w : Word) (cmd : Command) :
    w.tally.get? cmd.name.toList = if cmd ∈ w then some (w.count cmd) else none := by
  have hname (c d : Command) (h : c.name.toList = d.name.toList) : c = d :=
    Command.name_injective (String.toList_inj.mp h)
  simp [tally, Table.get?_keyed hname, mem_occurring]

/-- The numbers of a word and of its nesting, with the number of commands that draw. -/
def figures (w : Word) (n : Nesting) : Figures :=
  ⟨w.length, w.tally, n.depth, w.countP Command.draws,
    if n.unmatched = 0 then none else some n.unmatched⟩

theorem count_figures (w : Word) (n : Nesting) (cmd : Command) :
    (w.figures n).count cmd = w.count cmd := by
  by_cases h : cmd ∈ w
  · simp [Figures.count, figures, get?_tally, h]
  · simp [Figures.count, figures, get?_tally, h, List.count_eq_zero_of_not_mem h]

theorem HasNesting.depth_le {w : Word} {n : Nesting} (h : w.HasNesting n) :
    n.depth ≤ w.count .push := by
  obtain ⟨u, hu, hdepth⟩ := h.depth.1
  have hle : u.count .push ≤ w.count .push := hu.sublist.count_le _
  simp only [balance] at hdepth
  omega

theorem figures_addUp {w : Word} {n : Nesting} (h : w.HasNesting n) : (w.figures n).AddUp := by
  have hopen := h.unmatched
  simp only [balance] at hopen
  have hrest : n.unmatched = w.count .push - w.count .pop := by omega
  constructor
  case symbols => simpa [figures, tally, Function.comp_def] using w.sum_count_occurring
  case segments =>
    simp only [count_figures]
    exact w.countP_draws
  case closed =>
    simp only [count_figures]
    omega
  case warned =>
    simp only [count_figures, ← hrest]
    rfl
  case depth =>
    simp only [count_figures, ← hrest]
    exact ⟨h.unmatched_le, h.depth_le⟩

end Word

/-! ## What is printed -/

namespace Text

theorem toList_ofLines_cons (l : String) (lines : List String) :
    (ofLines (l :: lines)).toList = l.toList ++ '\n' :: (ofLines lines).toList := by
  simp [ofLines]

theorem splitOn_ofLines {lines : List String} (h : ∀ l ∈ lines, '\n' ∉ l.toList) :
    (ofLines lines).toList.splitOn '\n' = lines.map String.toList ++ [[]] := by
  induction lines with
  | nil => rfl
  | cons l lines ih =>
    obtain ⟨hl, hlines⟩ := List.forall_mem_cons.mp h
    simp [toList_ofLines_cons, List.splitOn_append_cons_self_of_not_mem hl, ih hlines]

/-- The last lines of a text are its lines, whatever stands on the first. -/
theorem splitOn_ofLines_cons (first : String) {lines : List String}
    (h : ∀ l ∈ lines, '\n' ∉ l.toList) :
    (ofLines (first :: lines)).toList.splitOn '\n' =
      first.toList.splitOn '\n' ++ lines.map String.toList ++ [[]] := by
  simp [toList_ofLines_cons, List.splitOn_append_cons_self, splitOn_ofLines h]

end Text

namespace Program

section

variable {ch : Char} (hch : Number.isNumberChar ch = false)
include hch

theorem not_mem_naturalText (n : ℕ) : ch ∉ (Number.naturalText n).toList := by
  simpa [Number.naturalText] using Number.not_mem_digitsText hch n

theorem not_mem_integerText (n : ℤ) : ch ∉ (Number.integerText n).toList := by
  have hminus := Number.ne_of_isNumberChar hch (d := '-') (by decide)
  have hdigits := Number.not_mem_digitsText hch n.natAbs
  simp only [Number.integerText, Number.integerChars, String.toList_ofList]
  split_ifs <;> simp [hminus, hdigits]

theorem not_mem_name (c : Command) : ch ∉ c.name.toList := by
  have hname : ∀ d ∈ c.name.toList, Number.isNumberChar d = true :=
    List.all_eq_true.mp (by cases c <;> decide)
  intro h
  exact Number.ne_of_isNumberChar hch (hname ch h) rfl

theorem not_mem_counted (hequals : ch ≠ '=') {w : Word} {l : List Char} (hl : l ∈ w.counted) :
    ch ∉ l := by
  obtain ⟨c, _, rfl⟩ := List.mem_map.mp hl
  simp [not_mem_name hch, hequals, Number.not_mem_digitsText hch]

end

theorem toList_countsText (w : Word) : (countsText w).toList = [' '].intercalate w.counted := by
  simp [countsText, Word.counted, Word.occurring, String.toList_intercalate, Number.naturalText,
    Function.comp_def]

theorem newline_not_mem_countsText (w : Word) : '\n' ∉ (countsText w).toList := by
  have hpieces : ∀ l ∈ w.counted, ∀ ch ∈ l, ch ≠ '\n' := by
    rintro _ hl ch hch rfl
    exact not_mem_counted (by decide) (by decide) hl hch
  rw [toList_countsText]
  intro h
  exact Markup.forall_mem_intercalate (by simp) hpieces _ h rfl

theorem newline_not_mem_lines (c : Config) (n : Nesting) (k : ℕ) :
    ∀ l ∈ (summary c n).tail ++ [segmentsLine k] ++ warning n.unmatched, '\n' ∉ l.toList := by
  have hch : Number.isNumberChar '\n' = false := by decide
  have htext := Number.not_mem_text hch (by decide)
  have hflag (b : Bool) : '\n' ∉ (flagText b).toList := by cases b <;> decide
  have hpen (p : Pen) : '\n' ∉ (penText p).toList := by simp [penText, htext]
  have hwarning (m : ℕ) : ∀ l ∈ warning m, '\n' ∉ l.toList := by
    unfold warning
    split_ifs <;> simp [not_mem_naturalText hch]
  simp only [List.forall_mem_append]
  refine ⟨⟨?_, ?_⟩, hwarning _⟩
  · simp [summary, newline_not_mem_countsText, not_mem_naturalText hch, not_mem_integerText hch,
      htext, hflag, hpen]
  · simp [segmentsLine, not_mem_naturalText hch]

end Program

namespace Figures

open Program

theorem count?_count (c : Command) (n : ℕ) :
    count? (c.name.toList ++ '=' :: Number.digitsText n) = some (c.name.toList, n) := by
  have hname : '=' ∉ c.name.toList := not_mem_name (by decide) c
  have hdigits : '=' ∉ Number.digitsText n := Number.not_mem_digitsText (by decide) n
  simp [count?, List.splitOn_append_cons_self_of_not_mem hname, List.splitOn_eq_singleton hdigits,
    Text.natural?_digitsText]

theorem counts?_countsText {w : Word} (hw : w ≠ []) :
    counts? ("commands: " ++ countsText w).toList = some w.tally := by
  have hblank : ∀ l ∈ w.counted, ' ' ∉ l := fun _ => not_mem_counted (by decide) (by decide)
  have hsome : w.counted ≠ [] := by
    obtain ⟨cmd, hcmd⟩ := List.exists_mem_of_ne_nil w hw
    simpa [Word.counted] using List.ne_nil_of_mem (Word.mem_occurring.mpr hcmd)
  have hsplit := List.splitOn_intercalate ' ' hblank hsome
  rw [← toList_countsText] at hsplit
  simp only [counts?, String.toList_append, behind?_append, Option.bind_some, hsplit]
  exact Markup.mapM_map_eq_some fun c _ => count?_count c _

theorem readLines_summary {c : Config} (hword : c.word ≠ []) (n : Nesting) (k : ℕ)
    (warned : Option ℕ) (above : List (List Char)) :
    readLines warned
        ((segmentsLine k).toList :: (((summary c n).tail.map String.toList).reverse ++ above)) =
      some ⟨c.word.length, c.word.tally, n.depth, k, warned⟩ := by
  simp only [summary, segmentsLine, List.tail_cons, List.cons_append, List.nil_append,
    List.map_cons, List.map_nil, List.reverse_cons, List.reverse_nil, readLines,
    number?_naturalText, counts?_countsText hword]
  rfl

theorem behind?_warning_segmentsLine (k : ℕ) :
    behind? "warning: " (segmentsLine k).toList = none := by
  simp [behind?, segmentsLine, List.isPrefixOf?]

theorem warned?_digitsText (n : ℕ) (cs : List Char) :
    warned? (Number.digitsText n ++ ' ' :: cs) = some n := by
  have hblank : ' ' ∉ Number.digitsText n := Number.not_mem_digitsText (by decide) n
  simp [warned?, List.splitOn_append_cons_self_of_not_mem hblank, Text.natural?_digitsText]

theorem behind?_warning {n : ℕ} (hn : n ≠ 0) :
    ∃ line cs, warning n = [line] ∧ behind? "warning: " line.toList = some cs ∧
      warned? cs = some n := by
  refine ⟨_, Number.digitsText n ++ " unmatched push(es) at end of word".toList, if_neg hn, ?_, ?_⟩
  · simp only [String.toList_append, List.append_assoc, behind?_append, Number.naturalText,
      String.toList_ofList]
  · exact warned?_digitsText n _

/-- A printed summary reads back as the numbers of its word, if the run has drawn what it says. -/
theorem read_summary {c : Config} (hword : c.word ≠ []) (n : Nesting) :
    read (Text.ofLines (summary c n ++ [segmentsLine (c.word.countP Command.draws)] ++
      warning n.unmatched)).toList = some (c.word.figures n) := by
  generalize hk : c.word.countP Command.draws = k
  have hsplit := Text.splitOn_ofLines_cons ("name: " ++ c.name) (newline_not_mem_lines c n k)
  have hfirst : summary c n ++ [segmentsLine k] ++ warning n.unmatched =
      ("name: " ++ c.name) :: ((summary c n).tail ++ [segmentsLine k] ++ warning n.unmatched) := rfl
  have hread := readLines_summary hword n k
  -- The last line tells whether there is a warning above which the others stand.
  rw [hfirst, read, hsplit, List.dropLast_concat, Word.figures, hk]
  by_cases hzero : n.unmatched = 0
  · have hnone : warning n.unmatched = [] := if_pos hzero
    simp only [hnone, List.append_nil, List.map_append, List.map_cons, List.map_nil,
      List.reverse_append, List.reverse_singleton, List.nil_append, List.cons_append,
      behind?_warning_segmentsLine, hread, if_pos hzero]
  · obtain ⟨line, cs, hwarning, hbehind, hwarned⟩ := behind?_warning hzero
    simp only [hwarning, List.map_append, List.map_cons, List.map_nil, List.reverse_append,
      List.reverse_singleton, List.nil_append, List.cons_append, hbehind, hwarned,
      Option.bind_some, hread, if_neg hzero]

end Figures

/-- The numbers that `validate` prints for a config that it accepts agree with each other. They are
those of the word, which is what is left of the given text without the blanks around it, and a run
of the word on any canvas draws as many segments as they say. -/
theorem summary_adds_up (A : Arithmetic) (verbose : Bool) (here : Location) (t : FileTree)
    (path : String)
    (hvalid : ((Program.validate A verbose path).run here t).1.ending = .exit 0) :
    ∃ (c : Config) (members : Registry Json) (text : String) (f : Figures),
      Program.LoadsValue t here path (.object members) ∧
      members.get? "word" = some (.string text) ∧ Config.ofJson (.object members) = .ok c ∧
      Text.trim text.toList = c.word.symbols ∧
      Figures.read (Text.ofLines ((Program.validate A verbose path).run here t).1.out).toList =
        some f ∧
      f.AddUp ∧ f.symbols = (Text.trim text.toList).length ∧
      (∀ cmd, f.count cmd = c.word.count cmd) ∧
      ∀ (σ : Type) (draw : σ → Segment → σ) (canvas : σ),
        let run := c.course.runOn A draw canvas c.word c.start
        run.fault = none ∧ run.drawn = f.segments := by
  obtain ⟨c, hload, ⟨n, hn⟩, hfault, hsegments⟩ := Program.validate_ending.mp hvalid
  obtain ⟨v, hvalue, hconfig⟩ := Program.loads_iff.mp hload
  obtain ⟨members, _, text, rfl, htext, hparse, _⟩ := Config.parts_of_ofJson hconfig
  obtain ⟨hword, htrim⟩ := Word.ofChars_eq_ok_iff.mp hparse
  obtain ⟨hdrawn, hlength, _⟩ := run_of_fault_eq_none hfault
  have hout : ((Program.validate A verbose path).run here t).1.out =
      Program.summary c n ++ [Program.segmentsLine (c.word.countP Command.draws)] ++
        Program.warning n.unmatched := by
    rw [Program.run_validate hload, Program.validation_eq_success verbose hn hfault hsegments,
      ← hlength]
    rfl
  refine ⟨c, members, text, c.word.figures n, hvalue, htext, hconfig, htrim, ?_,
    Word.figures_addUp (Word.of_nesting_eq_ok hn).1, ?_, c.word.count_figures n, ?_⟩
  · rw [hout]
    exact Figures.read_summary hword n
  · simp [htrim, Word.figures, Word.symbols]
  · intro σ draw canvas run
    have hrun : run = _ := runOn_eq_run draw c.word c.start canvas
    rw [hrun]
    exact ⟨hfault, hdrawn⟩

/-- A word with blanks around it and a branch that is left open. -/
theorem summary_adds_up_open_branch :
    let given : Json := .object [("word", .string " F[+R][[X] ")]
    let report := ((Program.validate straight.1 false "o").run [] (onlyValue given)).1
    report.ending = .exit 0 ∧
      ∃ f, Figures.read (Text.ofLines report.out).toList = some f ∧ f.AddUp ∧ f.symbols = 9 ∧
        f.count .push = 3 ∧ f.warned = some 1 := by
  intro given report
  have hvalid : report.ending = .exit 0 := Ending.eq_exit_of_code? (by decide +kernel)
  obtain ⟨c, members, text, f, hvalue, htext, _, htrim, hread, hadd, hsymbols, hcount, _⟩ :=
    summary_adds_up straight.1 false [] (onlyValue given) "o" hvalid
  have hkeys : given.HasDistinctKeys := .singleton (.string _)
  have hloads := Program.loadsValue_of_save hkeys (save_onlyValue given)
  obtain rfl := Json.object.inj (hvalue.unique hloads)
  cases htext
  have hword :
      c.word = [.forward, .push, .right, .forward2, .pop, .push, .push, .ignore, .pop] := by
    rw [← Word.filterMap_ofChar?_symbols c.word, ← htrim]
    rfl
  have hpush : f.count .push = 3 := by simp [hcount, hword]
  have hpop : f.count .pop = 2 := by simp [hcount, hword]
  refine ⟨hvalid, f, hread, hadd, hsymbols, hpush, ?_⟩
  simpa [hpush, hpop] using hadd.warned

end BracketTurtle
