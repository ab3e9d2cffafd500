import BracketTurtle.Proofs.Desks

/-!
# Queues

The account of a word is told by the calls that were made on a desk: what it was when it was made,
what was added to it since, and what was taken from it. At every time what was taken, followed by
what is there, is what was there first, followed by what was added. So nothing is lost, doubled or
put out of order, whatever was copied, appended or made under the same names in between.
-/

namespace BracketTurtle

namespace Shelf

/-- An action that fails leaves the shelf as it was. -/
def next (s : Shelf) (request : String × Action) : Shelf :=
  match s.perform request.1 request.2 with
  | .ok (_, s') => s'
  | .error _ => s

def after (requests : List (String × Action)) : Shelf := requests.foldl next []

end Shelf

namespace Desk

open BracketTurtle.Shelf

/-! ## Accounts -/

/-- An action carried out on a desk, as the desk was then. -/
structure Call where
  before : Desk
  name : String
  action : Action

namespace Call

variable (k : Call)

def outcome : EStateM.Result ShelfError Desk Answer := perform k.name k.action k.before

def after : Desk :=
  match k.outcome with
  | .ok _ d => d
  | .error _ d => d

def IsAbout (i : ℕ) : Prop := k.before.names.get? k.name = some i

instance (i : ℕ) : Decidable (k.IsAbout i) :=
  inferInstanceAs (Decidable (k.before.names.get? k.name = some i))

/-- What the call made the word as, if it did. -/
def created? (i : ℕ) : Option Word :=
  match k.outcome, k.action.made? k.before.shelf k.name with
  | .ok _ d, some (target, w) => if d.names.get? target = some i then some w else none
  | _, _ => none

/-- What the call added to the word. -/
def added (i : ℕ) : Word :=
  match k.outcome, k.action.added? k.before.shelf with
  | .ok _ _, some v => if k.IsAbout i then v else []
  | _, _ => []

/-- What the call took from the word. -/
def taken (i : ℕ) : Word :=
  match k.outcome with
  | .ok answer _ => if k.IsAbout i then answer.taken else []
  | .error _ _ => []

end Call

structure History where
  desk : Desk
  calls : List Call

namespace History

def next (h : History) (request : String × Action) : History :=
  let k : Call := ⟨h.desk, request.1, request.2⟩
  ⟨k.after, h.calls ++ [k]⟩

def after (requests : List (String × Action)) : History := requests.foldl next ⟨.empty, []⟩

/-- What a word was when it was made, if it has been made. -/
def created? (h : History) (i : ℕ) : Option Word := h.calls.findSome? (·.created? i)

def added (h : History) (i : ℕ) : Word := h.calls.flatMap (·.added i)

def taken (h : History) (i : ℕ) : Word := h.calls.flatMap (·.taken i)

end History

/-! ## One call -/

/-- What a call does to the accounts of all words. -/
structure Call.Accounted (k : Call) : Prop where
  wellFormed : k.after.WellFormed
  words : k.before.words.length ≤ k.after.words.length
  created : ∀ i w, k.created? i = some w →
    k.before.words.length ≤ i ∧ i < k.after.words.length ∧ k.after.content i = w
  named : ∀ n i, k.after.names.get? n = some i →
    k.before.names.get? n = some i ∨ (k.created? i).isSome
  kept : ∀ i < k.before.words.length,
    k.taken i ++ k.after.content i = k.before.content i ++ k.added i
  fresh : ∀ i, k.before.words.length ≤ i → k.taken i = [] ∧ k.added i = []

namespace Call

variable {k : Call} {d : Desk} {i : ℕ} {w : Word} {answer : Answer} {e : ShelfError}

theorem after_of_ok (hr : k.outcome = .ok answer d) : k.after = d := by
  rw [after, hr]

theorem after_of_error (hr : k.outcome = .error e d) : k.after = d := by
  rw [after, hr]

theorem created?_of_made {target : String} (hr : k.outcome = .ok answer d)
    (hmade : k.action.made? k.before.shelf k.name = some (target, w)) :
    k.created? i = if d.names.get? target = some i then some w else none := by
  rw [created?, hr, hmade]

theorem created?_of_not_made (hmade : k.action.made? k.before.shelf k.name = none) :
    k.created? i = none := by
  rw [created?, hmade]
  split <;> simp_all

theorem created?_of_error (hr : k.outcome = .error e d) : k.created? i = none := by
  rw [created?, hr]

theorem added_of_ok (hr : k.outcome = .ok answer d) :
    k.added i = if k.IsAbout i then (k.action.added? k.before.shelf).getD [] else [] := by
  rw [added, hr]
  cases k.action.added? k.before.shelf <;> simp

theorem added_of_error (hr : k.outcome = .error e d) : k.added i = [] := by
  rw [added, hr]

theorem taken_of_ok (hr : k.outcome = .ok answer d) :
    k.taken i = if k.IsAbout i then answer.taken else [] := by
  rw [taken, hr]

theorem taken_of_error (hr : k.outcome = .error e d) : k.taken i = [] := by
  rw [taken, hr]

theorem not_isAbout (h : k.before.WellFormed) (hi : k.before.words.length ≤ i) :
    ¬k.IsAbout i := fun habout => absurd (h.lt_of_get? habout) (not_lt.mpr hi)

theorem fresh_of_wellFormed (h : k.before.WellFormed) (hi : k.before.words.length ≤ i) :
    k.taken i = [] ∧ k.added i = [] := by
  have hnot := not_isAbout h hi
  cases hr : k.outcome with
  | ok answer d =>
    rw [taken_of_ok hr, added_of_ok hr, if_neg hnot, if_neg hnot]
    exact ⟨rfl, rfl⟩
  | error e d => exact ⟨taken_of_error hr, added_of_error hr⟩

theorem accounted_of_made {target : String} (h : k.before.WellFormed)
    (hr : k.outcome = .ok .done d)
    (hmade : k.action.made? k.before.shelf k.name = some (target, w))
    (hm : IsMade k.before target w d) : k.Accounted := by
  have hcreated (i : ℕ) :
      k.created? i = if i = k.before.words.length then some w else none := by
    rw [created?_of_made hr hmade, hm.names, Table.get?_put_self]
    simp [eq_comm]
  refine ⟨?_, ?_, ?_, ?_, ?_, fun i => fresh_of_wellFormed h⟩
  · rw [after_of_ok hr]
    exact hm.wellFormed
  · rw [after_of_ok hr, hm.words]
    exact Nat.le_succ _
  · intro i v hv
    rw [hcreated] at hv
    split_ifs at hv with hi
    cases hv
    rw [after_of_ok hr, hm.words, hm.content, if_pos hi]
    exact ⟨hi.ge, hi ▸ Nat.lt_succ_self _, rfl⟩
  · intro n i hi
    rw [after_of_ok hr, hm.names] at hi
    rcases Table.get?_put_eq_some.mp hi with ⟨-, hi⟩ | ⟨-, hi⟩
    · right
      rw [hcreated, if_pos hi.symm]
      rfl
    · exact .inl hi
  · intro i hi
    rw [after_of_ok hr, taken_of_ok hr, added_of_ok hr, hm.content, if_neg hi.ne,
      Action.added?_of_made? hmade]
    simp [Answer.taken]

/-- The names stay, and what was taken and added is at the two ends of the word under the name. -/
theorem accounted_of_ends {v : Word} (h : k.before.WellFormed) (hr : k.outcome = .ok answer d)
    (hmade : k.action.made? k.before.shelf k.name = none)
    (hadded : (k.action.added? k.before.shelf).getD [] = v)
    (hi : k.before.names.get? k.name = some i)
    (hw : answer.taken ++ w = k.before.content i ++ v)
    (hd : d = k.before.setContent i w) : k.Accounted := by
  subst hd
  refine ⟨?_, ?_, ?_, ?_, ?_, fun i => fresh_of_wellFormed h⟩
  · rw [after_of_ok hr]
    exact h.setContent _ _
  · rw [after_of_ok hr, words_setContent]
  · intro j u hu
    rw [created?_of_not_made hmade] at hu
    cases hu
  · intro n j hj
    rw [after_of_ok hr, names_setContent] at hj
    exact .inl hj
  · intro j hj
    have habout : k.IsAbout j ↔ j = i := by
      rw [IsAbout, hi, Option.some.injEq, eq_comm]
    rw [after_of_ok hr, taken_of_ok hr, added_of_ok hr, hadded,
      h.content_setContent (h.lt_of_get? hi)]
    by_cases hji : j = i
    · rw [if_pos (habout.mpr hji), if_pos (habout.mpr hji), if_pos hji, hji, hw]
    · simp [habout, hji]

theorem accounted_of_keeps (hk : Keeps k.before k.after) (hcreated : ∀ i, k.created? i = none)
    (htaken : ∀ i, k.taken i = []) (hadded : ∀ i, k.added i = []) : k.Accounted where
  wellFormed := hk.wellFormed
  words := hk.words
  created := by
    intro i w hw
    rw [hcreated] at hw
    cases hw
  named := by
    intro n i hi
    rw [hk.names] at hi
    exact .inl hi
  kept := by
    intro i hi
    rw [htaken, hadded, hk.content i hi, List.nil_append, List.append_nil]
  fresh := fun i _ => ⟨htaken i, hadded i⟩

theorem accounted (h : k.before.WellFormed) : k.Accounted := by
  have hp : Performed k.before k.name k.action k.outcome := performed_of_perform h k.name k.action
  generalize hr : k.outcome = r at hp
  cases hp with
  | made hmade hm => exact accounted_of_made h hr hmade hm
  | added hmade hadded hi =>
    exact accounted_of_ends h hr hmade (congrArg (Option.getD · []) hadded) hi rfl rfl
  | taken ha hi hw =>
    refine accounted_of_ends (v := []) h hr ?_ ?_ hi ?_ rfl
    · rcases ha with ha | ha <;> rw [ha] <;> rfl
    · rcases ha with ha | ha <;> rw [ha] <;> rfl
    · simp [hw, Answer.taken]
  | @seen answer hmade hadded htaken hs =>
    refine accounted_of_keeps ?_ (fun i => created?_of_not_made hmade) (fun i => ?_) fun i => ?_
    · rw [after_of_ok hr]
      exact .refl h
    · rw [taken_of_ok hr, htaken, ite_self]
    · rw [added_of_ok hr, hadded, Option.getD_none, ite_self]
  | failed hs hk =>
    refine accounted_of_keeps ?_ (fun i => created?_of_error hr) (fun i => taken_of_error hr)
      fun i => added_of_error hr
    rw [after_of_error hr]
    exact hk

end Call

/-! ## All calls -/

namespace History

/-- The accounts of all words that were made are balanced. Words with names were made, and nothing
was added to words that are still to be made, or taken from them. -/
structure Balanced (h : History) : Prop where
  wellFormed : h.desk.WellFormed
  created : ∀ i w, h.created? i = some w →
    i < h.desk.words.length ∧ h.taken i ++ h.desk.content i = w ++ h.added i
  named : ∀ n i, h.desk.names.get? n = some i → (h.created? i).isSome
  fresh : ∀ i, h.desk.words.length ≤ i → h.taken i = [] ∧ h.added i = []

theorem Balanced.next {h : History} (hb : h.Balanced) (request : String × Action) :
    (h.next request).Balanced := by
  set k : Call := ⟨h.desk, request.1, request.2⟩ with hk
  have hcall : k.Accounted := Call.accounted hb.wellFormed
  have hcreated (i : ℕ) : (h.next request).created? i = (h.created? i).or (k.created? i) := by
    simp [History.next, History.created?, List.findSome?_append, hk]
  have htaken (i : ℕ) : (h.next request).taken i = h.taken i ++ k.taken i := by
    simp [History.next, History.taken, hk]
  have hadded (i : ℕ) : (h.next request).added i = h.added i ++ k.added i := by
    simp [History.next, History.added, hk]
  have hdesk : (h.next request).desk = k.after := rfl
  refine ⟨hcall.wellFormed, ?_, ?_, ?_⟩
  · intro i w hw
    rw [hcreated, Option.or_eq_some_iff] at hw
    rw [htaken, hadded, hdesk]
    rcases hw with hw | ⟨-, hw⟩
    -- A word that was made before: the call adds at the one end and takes at the other.
    · obtain ⟨hi, hbalance⟩ := hb.created i w hw
      refine ⟨hi.trans_le hcall.words, ?_⟩
      calc h.taken i ++ k.taken i ++ k.after.content i
          = h.taken i ++ (h.desk.content i ++ k.added i) := by
            rw [List.append_assoc, hcall.kept i hi]
        _ = w ++ (h.added i ++ k.added i) := by
            rw [← List.append_assoc, hbalance, List.append_assoc]
    -- A word that the call makes: nothing was added to it or taken from it so far.
    · obtain ⟨hi, hlt, hcontent⟩ := hcall.created i w hw
      obtain ⟨ht, ha⟩ := hb.fresh i hi
      obtain ⟨ht', ha'⟩ := hcall.fresh i hi
      refine ⟨hlt, ?_⟩
      simp [ht, ha, ht', ha', hcontent]
  · intro n i hi
    rw [hcreated, Option.isSome_or]
    rcases hcall.named n i hi with hi | hi
    · simp [hb.named n i hi]
    · simp [hi]
  · intro i hi
    have hold := hcall.words.trans hi
    rw [htaken, hadded, (hb.fresh i hold).1, (hb.fresh i hold).2, (hcall.fresh i hold).1,
      (hcall.fresh i hold).2]
    exact ⟨rfl, rfl⟩

end History

theorem shelf_next (h : History) (hw : h.desk.WellFormed) (request : String × Action) :
    (h.next request).desk.shelf = h.desk.shelf.next request := by
  obtain ⟨name, a⟩ := request
  have hp := performed_of_perform hw name a
  cases hr : perform name a h.desk with
  | ok answer d =>
    rw [hr] at hp
    have hdesk : (h.next (name, a)).desk = d := Call.after_of_ok (k := ⟨h.desk, name, a⟩) hr
    rw [hdesk, Shelf.next, hp.shelf_of_ok hw]
  | error e d =>
    rw [hr] at hp
    have hdesk : (h.next (name, a)).desk = d := Call.after_of_error (k := ⟨h.desk, name, a⟩) hr
    cases hp with
    | failed hs hk => rw [hdesk, Shelf.next, hs, hk.shelf_eq hw]

theorem History.balanced_after (requests : List (String × Action)) :
    (after requests).Balanced ∧ (after requests).desk.shelf = Shelf.after requests := by
  induction requests using List.reverseRecOn with
  | nil =>
    refine ⟨⟨.empty, ?_, ?_, fun _ _ => ⟨rfl, rfl⟩⟩, rfl⟩
    · intro i w hw
      cases hw
    · intro n i hi
      cases hi
  | append_singleton requests request ih =>
    obtain ⟨hb, hshelf⟩ := ih
    have hafter : after (requests ++ [request]) = (after requests).next request := by
      simp [after]
    have hsame : Shelf.after (requests ++ [request]) = (Shelf.after requests).next request := by
      simp [Shelf.after]
    rw [hafter, hsame, ← hshelf]
    exact ⟨hb.next request, shelf_next _ hb.wellFormed request⟩

end Desk

/-- Words are queues that lose nothing, whatever was done to a desk. No two names stand for one
word and no two words hold one queue. Every word that has a name was made, and of every word that
was made, with a name still or not, what was taken from it, followed by what is in it, is what it
was made as, followed by what was added to it. The next action, whatever it is, answers as on the
shelf of words by value, which shows what is under the names. If it succeeds, only the word of its
subject may be another, and only the word under its name may change; if it fails, all words and
names stay as they were. -/
theorem words_lossless (requests : List (String × Shelf.Action)) :
    let past := Desk.History.after requests
    let d := past.desk
    d.WellFormed ∧ d.shelf = Shelf.after requests ∧
    (∀ n i, d.names.get? n = some i → ∃ w, past.created? i = some w) ∧
    (∀ i w, past.created? i = some w → past.taken i ++ d.content i = w ++ past.added i) ∧
    ∀ name a,
      (∀ answer d', Desk.perform name a d = .ok answer d' →
        d.shelf.perform name a = .ok (answer, d'.shelf) ∧
        (∀ n, n ≠ a.subject name → d'.shelf.get? n = d.shelf.get? n) ∧
        ∀ i < d.words.length, d.names.get? name ≠ some i → d'.content i = d.content i) ∧
      ∀ e d', Desk.perform name a d = .error e d' →
        d.shelf.perform name a = .error e ∧ d'.shelf = d.shelf ∧ d'.names = d.names ∧
        ∀ i < d.words.length, d'.content i = d.content i := by
  intro past d
  obtain ⟨hb, hshelf⟩ := Desk.History.balanced_after requests
  have h : d.WellFormed := hb.wellFormed
  refine ⟨h, hshelf, ?_, fun i w hw => (hb.created i w hw).2, ?_⟩
  · intro n i hi
    exact Option.isSome_iff_exists.mp (hb.named n i hi)
  · intro name a
    have hp := Desk.performed_of_perform h name a
    constructor
    · intro answer d' hr
      rw [hr] at hp
      exact ⟨hp.shelf_of_ok h, fun n hn => hp.get?_of_ne h hn,
        fun i hi hne => hp.content_of_ne h hi hne⟩
    · intro e d' hr
      rw [hr] at hp
      cases hp with
      | failed hs hk => exact ⟨hs, hk.shelf_eq h, hk.names, hk.content⟩

/-- The first word is appended to itself, is copied and loses a command. While its name still
stands for it another word is made in part, and later its name is given away. -/
theorem words_lossless_appended :
    let past := Desk.History.after
      [("a", .create [.symbol "F", .symbol "+"]), ("a", .append (.named "a")), ("a", .copyTo "b"),
        ("a", .dequeue), ("b", .enqueue (.symbol "X")), ("a", .create [.symbol "R", .symbol "F+"]),
        ("a", .append (.named "b")), ("a", .parse (.string " R "))]
    past.created? 0 = some [.forward, .right] ∧ past.taken 0 = [.forward] ∧
    past.taken 0 ++ past.desk.content 0 = [.forward, .right] ++ past.added 0 := by
  exact ⟨by decide, by decide, (words_lossless _).2.2.2.1 0 _ (by decide)⟩

end BracketTurtle
