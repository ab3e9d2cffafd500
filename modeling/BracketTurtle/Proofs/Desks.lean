import BracketTurtle.Proofs.Outcomes
import BracketTurtle.Word.Desk
import Mathlib.Data.List.GetD
import Mathlib.Data.List.Nodup

/-!
# Desks

No two names of a desk stand for one word and no two words hold one queue, so that an action changes
the word under its name and no other. What is seen under the names is what the shelf of words by
value shows: both give the same answers and fail alike, and an action that fails leaves all words as
they were.
-/

namespace BracketTurtle

namespace Table

variable {κ α β : Type} [DecidableEq κ]

theorem nodup_snd_put (key : κ) {value : α} {t : Table κ α} (h : (t.map Prod.snd).Nodup)
    (hfree : ∀ m ∈ t, m.2 ≠ value) : ((put key value t).map Prod.snd).Nodup := by
  induction t with
  | nil => simp [put]
  | cons m t ih =>
    obtain ⟨k, v⟩ := m
    obtain ⟨hv, ht⟩ := List.nodup_cons.mp h
    obtain ⟨hne, hfree⟩ := List.forall_mem_cons.mp hfree
    rw [put]
    split
    · refine List.nodup_cons.mpr ⟨fun hmem => ?_, ht⟩
      obtain ⟨m, hm, hvalue⟩ := List.mem_map.mp hmem
      exact hfree m hm hvalue
    · refine List.nodup_cons.mpr ⟨fun hmem => ?_, ih ht hfree⟩
      obtain ⟨m, hm, hvalue⟩ := List.mem_map.mp hmem
      have hother : ∀ m ∈ t, m.2 ≠ v := fun m hm heq => hv (List.mem_map.mpr ⟨m, hm, heq⟩)
      exact forall_mem_put (P := (· ≠ v)) key (Ne.symm hne) hother m hm hvalue

theorem map_ite_eq_put [DecidableEq α] (f : α → β) {key : κ} {a : α} (b : β) {t : Table κ α}
    (h : (t.map Prod.snd).Nodup) (hkey : get? key t = some a) :
    t.map (fun m => (m.1, if m.2 = a then b else f m.2)) =
      put key b (t.map fun m => (m.1, f m.2)) := by
  induction t with
  | nil => cases hkey
  | cons m t ih =>
    obtain ⟨k, v⟩ := m
    obtain ⟨hv, ht⟩ := List.nodup_cons.mp h
    by_cases hk : k = key
    · subst hk
      obtain rfl : v = a := by simpa [get?] using hkey
      have hrest : ∀ m ∈ t, (m.1, if m.2 = v then b else f m.2) = (m.1, f m.2) := by
        intro m hm
        rw [if_neg fun heq => hv (List.mem_map.mpr ⟨m, hm, heq⟩)]
      simp [put, List.map_congr_left hrest]
    · have hkey' : get? key t = some a := by
        rwa [get?, List.lookup_cons, beq_false_of_ne (Ne.symm hk)] at hkey
      have hva : v ≠ a := by
        rintro rfl
        exact hv (List.mem_map.mpr ⟨_, mem_of_get? hkey', rfl⟩)
      simp [put, hk, hva, ih ht hkey']

end Table

/-! ## Actions on words by value -/

namespace Shelf

variable {s : Shelf} {name : String} {a : Action} {v w : Word}

/-- The word that an action makes, with the name that it is given. -/
def Action.made? (s : Shelf) (name : String) : Action → Option (String × Word)
  | .create offers => (Offer.commands offers).toOption.map (name, ·)
  | .parse text => (Word.ofJson text).toOption.map (name, ·)
  | .copyTo other => (s.get? name).map (other, ·)
  | _ => none

/-- What an action adds to the word under its name: of a word, what that word is just then. -/
def Action.added? (s : Shelf) : Action → Option Word
  | .enqueue offer => offer.command.toOption.map ([·])
  | .append (.named other) => s.get? other
  | _ => none

/-- The name that an action is about. A copy is about the name that it is given. -/
def Action.subject (name : String) : Action → String
  | .copyTo other => other
  | _ => name

def Answer.taken : Answer → Word
  | .command c => c.toList
  | _ => []

def Action.reads : Action → Bool
  | .isEmpty | .length | .listing | .shown | .symbols | .commands | .equals _ | .differs _
  | .hash => true
  | _ => false

theorem Action.added?_of_made? {m : String × Word} (h : a.made? s name = some m) :
    a.added? s = none := by
  cases a <;> first | rfl | cases h

theorem Action.subject_of_made? {target : String} (h : a.made? s name = some (target, w)) :
    a.subject name = target := by
  cases a with
  | create offers | parse text | copyTo other =>
    obtain ⟨w', -, heq⟩ := Option.map_eq_some_iff.mp h
    cases heq
    rfl
  | _ => cases h

theorem Action.subject_of_added? (h : a.added? s = some v) (name : String) :
    a.subject name = name := by
  cases a <;> first | rfl | cases h

theorem word_of_get? (h : s.get? name = some w) : s.word name = .ok w := by
  simp [word, h]

theorem perform_of_made? {target : String} (h : a.made? s name = some (target, w)) :
    s.perform name a = .ok (.done, s.put target w) := by
  cases a with
  | create offers =>
    obtain ⟨w', hw, heq⟩ := Option.map_eq_some_iff.mp h
    cases heq
    simp [perform, toOption_eq_some.mp hw, ok_bind, pure_eq_ok]
  | parse text =>
    obtain ⟨w', hw, heq⟩ := Option.map_eq_some_iff.mp h
    cases heq
    simp [perform, toOption_eq_some.mp hw, Except.mapError, ok_bind, pure_eq_ok]
  | copyTo other =>
    obtain ⟨w', hw, heq⟩ := Option.map_eq_some_iff.mp h
    cases heq
    simp [perform, word_of_get? hw, ok_bind, pure_eq_ok]
  | _ => cases h

theorem perform_of_added? (h : a.added? s = some v) (hw : s.get? name = some w) :
    s.perform name a = .ok (.done, s.put name (w ++ v)) := by
  cases a with
  | enqueue offer =>
    obtain ⟨c, hc, rfl⟩ := Option.map_eq_some_iff.mp h
    simp [perform, toOption_eq_some.mp hc, word_of_get? hw, ok_bind, pure_eq_ok]
  | append operand =>
    cases operand with
    | named other =>
      simp [perform, word_of_get? hw, word_of_get? h, ok_bind, pure_eq_ok]
    | other value => cases h
  | _ => cases h

theorem perform_of_reads {answer : Answer} {s' : Shelf} (ha : a.reads = true)
    (h : s.perform name a = .ok (answer, s')) : answer.taken = [] ∧ s' = s := by
  cases a with
  | isEmpty | length | listing | shown | symbols | commands =>
    obtain ⟨w, -, h⟩ := bind_eq_ok.mp h
    cases h
    exact ⟨rfl, rfl⟩
  | equals operand | differs operand =>
    obtain ⟨w, -, h⟩ := bind_eq_ok.mp h
    obtain ⟨b, -, h⟩ := bind_eq_ok.mp h
    cases h
    exact ⟨rfl, rfl⟩
  | hash => cases h
  | _ => cases ha

end Shelf

namespace Desk

open BracketTurtle.Shelf

variable {α β : Type} {d d' : Desk} {i j : ℕ} {name : String} {v w : Word}

/-! ## The content of words -/

/-- No two words hold one queue, and no two names stand for one word. -/
structure WellFormed (d : Desk) : Prop where
  held : ∀ q ∈ d.words, q < d.queues.length
  own : d.words.Nodup
  named : ∀ m ∈ d.names, m.2 < d.words.length
  distinct : (d.names.map Prod.snd).Nodup

theorem content_of_le (h : d.words.length ≤ i) : d.content i = [] := by
  simp [content, List.getElem?_eq_none h]

theorem content_eq {q : ℕ} (hq : d.words[i]? = some q) : d.content i = d.queues.getD q [] := by
  simp [content, hq, List.getD_eq_getElem?_getD]

theorem getElem?_words (hi : i < d.words.length) : ∃ q, d.words[i]? = some q :=
  ⟨_, List.getElem?_eq_getElem hi⟩

theorem length_words_withWord (d : Desk) : d.withWord.words.length = d.words.length + 1 := by
  simp [withWord]

theorem lt_words_withWord (d : Desk) : d.words.length < d.withWord.words.length :=
  length_words_withWord d ▸ Nat.lt_succ_self _

theorem setContent_eq {q : ℕ} (hq : d.words[i]? = some q) (w : Word) :
    d.setContent i w = { d with queues := d.queues.set q w } := by
  rw [setContent, hq]

@[simp] theorem words_setContent (d : Desk) (i : ℕ) (w : Word) :
    (d.setContent i w).words = d.words := by
  unfold setContent
  split <;> rfl

@[simp] theorem names_setContent (d : Desk) (i : ℕ) (w : Word) :
    (d.setContent i w).names = d.names := by
  unfold setContent
  split <;> rfl

theorem setContent_setContent (d : Desk) (i : ℕ) (v w : Word) :
    (d.setContent i v).setContent i w = d.setContent i w := by
  cases hq : d.words[i]? with
  | none => simp [setContent, hq]
  | some q => simp [setContent, hq]

theorem setContent_content (d : Desk) (i : ℕ) : d.setContent i (d.content i) = d := by
  cases hq : d.words[i]? with
  | none => simp [setContent, hq]
  | some q =>
    rw [setContent_eq hq, content_eq hq]
    cases hw : d.queues[q]? with
    | none => rw [List.set_eq_of_length_le (List.getElem?_eq_none_iff.mp hw)]
    | some w =>
      obtain ⟨hlt, rfl⟩ := List.getElem?_eq_some_iff.mp hw
      simp [List.getD_eq_getElem?_getD, hw]

namespace WellFormed

theorem empty : WellFormed .empty := by
  constructor <;> simp [Desk.empty]

variable (h : d.WellFormed)
include h

theorem held_of_getElem? {q : ℕ} (hq : d.words[i]? = some q) : q < d.queues.length :=
  h.held q (List.mem_of_getElem? hq)

theorem lt_of_get? (hi : d.names.get? name = some i) : i < d.words.length :=
  h.named _ (Table.mem_of_get? hi)

theorem content_withWord (i : ℕ) : d.withWord.content i = d.content i := by
  rcases lt_trichotomy i d.words.length with hi | rfl | hi
  · obtain ⟨q, hq⟩ := getElem?_words hi
    have hq' : d.withWord.words[i]? = some q := by
      rw [withWord, List.getElem?_append_left hi, hq]
    rw [content_eq hq, content_eq hq', withWord, List.getD_append _ _ _ _ (h.held_of_getElem? hq)]
  · rw [content_of_le le_rfl]
    simp [content, withWord]
  · rw [content_of_le hi.le, content_of_le]
    simpa [withWord] using hi

theorem content_length_withWord : d.withWord.content d.words.length = [] := by
  rw [h.content_withWord, content_of_le le_rfl]

theorem withWord : d.withWord.WellFormed where
  held := by
    intro q hq
    rcases List.mem_append.mp hq with hq | hq
    · simpa [Desk.withWord] using Nat.lt_succ_of_lt (h.held q hq)
    · simp [List.mem_singleton.mp hq, Desk.withWord]
  own := by
    refine List.nodup_append.mpr ⟨h.own, List.nodup_singleton _, ?_⟩
    rintro q hq _ hnew rfl
    exact absurd (h.held q hq) (by simp [List.mem_singleton.mp hnew])
  named := by
    intro m hm
    simpa [Desk.withWord] using Nat.lt_succ_of_lt (h.named m hm)
  distinct := h.distinct

theorem content_setContent (hi : i < d.words.length) (w : Word) (j : ℕ) :
    (d.setContent i w).content j = if j = i then w else d.content j := by
  obtain ⟨q, hq⟩ := getElem?_words hi
  have hlt := h.held_of_getElem? hq
  rw [setContent_eq hq]
  by_cases hj : j = i
  · subst hj
    simp [content, hq, hlt]
  · rw [if_neg hj]
    cases hp : d.words[j]? with
    | none => simp [content, hp]
    | some p =>
      -- Two words do not hold one queue, so that the other queue stays.
      have hqp : q ≠ p := by
        rintro rfl
        exact hj ((List.getElem?_inj hi h.own).mp (hq.trans hp.symm)).symm
      simp [content, hp, List.getElem?_set_ne hqp]

theorem setContent (i : ℕ) (w : Word) : (d.setContent i w).WellFormed := by
  cases hq : d.words[i]? with
  | none => simpa [Desk.setContent, hq] using h
  | some q =>
    rw [setContent_eq hq]
    refine ⟨?_, h.own, h.named, h.distinct⟩
    simpa using h.held

theorem content_setQueue (hi : i < d.words.length) (w : Word) (j : ℕ) :
    (d.setQueue i w).content j = if j = i then w else d.content j := by
  by_cases hj : j = i
  · subst hj
    simp [content, setQueue, hi]
  · rw [if_neg hj]
    cases hp : d.words[j]? with
    | none => simp [content, setQueue, List.getElem?_set_ne (Ne.symm hj), hp]
    | some p =>
      have hlt := h.held_of_getElem? hp
      simp [content, setQueue, List.getElem?_set_ne (Ne.symm hj), hp,
        List.getElem?_append_left hlt]

theorem setQueue (i : ℕ) (w : Word) : (d.setQueue i w).WellFormed where
  held := by
    intro q hq
    simp only [Desk.setQueue, List.length_append, List.length_singleton]
    rcases List.mem_or_eq_of_mem_set hq with hq | rfl
    · exact Nat.lt_succ_of_lt (h.held q hq)
    · exact Nat.lt_succ_self _
  own := h.own.set fun hq => lt_irrefl _ (h.held _ hq)
  named := by simpa [Desk.setQueue] using h.named
  distinct := h.distinct

theorem setName (name : String) (hi : i < d.words.length) (hfree : ∀ m ∈ d.names, m.2 ≠ i) :
    (d.setName name i).WellFormed where
  held := h.held
  own := h.own
  named := Table.forall_mem_put (P := (· < d.words.length)) name hi h.named
  distinct := Table.nodup_snd_put name h.distinct hfree

theorem shelf_setContent (hi : d.names.get? name = some i) (w : Word) :
    (d.setContent i w).shelf = d.shelf.put name w := by
  simp only [shelf, names_setContent, h.content_setContent (h.lt_of_get? hi)]
  exact Table.map_ite_eq_put d.content w h.distinct hi

end WellFormed

theorem get?_shelf (d : Desk) (n : String) : d.shelf.get? n = (d.names.get? n).map d.content :=
  Table.get?_map (fun _ => d.content) n d.names

/-! ## Steps -/

section

variable (d)

@[simp] theorem bind_apply (x : Step α) (f : α → Step β) :
    (x >>= f) d =
      match x d with
      | .ok a d' => f a d'
      | .error e d' => .error e d' := by
  simp only [bind, EStateM.bind]
  cases x d <;> rfl

@[simp] theorem pure_apply (a : α) : (pure a : Step α) d = .ok a d := rfl

@[simp] theorem throw_apply (e : ShelfError) : (throw e : Step α) d = .error e d := rfl

@[simp] theorem get_apply : (get : Step Desk) d = .ok d d := rfl

@[simp] theorem modify_apply (f : Desk → Desk) : (modify f : Step Unit) d = .ok ⟨⟩ (f d) := rfl

@[simp] theorem ofExcept_apply (x : Except ShelfError α) :
    (MonadExcept.ofExcept x : Step α) d =
      match x with
      | .ok a => .ok a d
      | .error e => .error e d := by
  cases x <;> rfl

@[simp] theorem make_apply : make d = .ok d.words.length d.withWord := rfl

@[simp] theorem extend_apply (i : ℕ) (w : Word) :
    extend i w d = .ok ⟨⟩ (d.setContent i (d.content i ++ w)) := rfl

end

theorem reference_of_some (h : d.names.get? name = some i) : reference name d = .ok i d := by
  simp [reference, h]

theorem reference_of_none (h : d.names.get? name = none) :
    reference name d = .error (.unknownName name) d := by
  simp [reference, h]

theorem enqueueAll_of_ok {offers : List Offer} (h : d.WellFormed) (hi : i < d.words.length)
    (hw : Offer.commands offers = .ok w) :
    enqueueAll i offers d = .ok ⟨⟩ (d.setContent i (d.content i ++ w)) := by
  induction offers generalizing d w with
  | nil =>
    cases hw
    rw [List.append_nil, setContent_content]
    rfl
  | cons o os ih =>
    obtain ⟨c, hc, hw⟩ := bind_eq_ok.mp hw
    obtain ⟨w, hos, hw⟩ := bind_eq_ok.mp hw
    cases hw
    have hi' : i < (d.setContent i (d.content i ++ [c])).words.length := by simpa using hi
    simp [enqueueAll, hc, ih (h.setContent i _) hi' hos, h.content_setContent hi,
      setContent_setContent]

/-- What was pushed before the offer that is no command stays. -/
theorem enqueueAll_of_error {offers : List Offer} {e : ShelfError}
    (hw : Offer.commands offers = .error e) :
    ∃ v, enqueueAll i offers d = .error e (d.setContent i v) := by
  induction offers generalizing d with
  | nil => cases hw
  | cons o os ih =>
    cases hc : o.command with
    | error e' =>
      rw [Offer.commands, hc, error_bind] at hw
      cases hw
      exact ⟨d.content i, by simp [enqueueAll, hc, setContent_content]⟩
    | ok c =>
      cases hos : Offer.commands os with
      | ok w => simp [Offer.commands, hc, hos, ok_bind, pure_eq_ok] at hw
      | error e' =>
        rw [Offer.commands, hc, hos, ok_bind, error_bind] at hw
        cases hw
        obtain ⟨v, hv⟩ := ih (d := d.setContent i (d.content i ++ [c])) hos
        exact ⟨v, by simp [enqueueAll, hc, hv, setContent_setContent]⟩

/-! ## What an action does -/

/-- A word is made, and given a name. -/
structure IsMade (d : Desk) (target : String) (w : Word) (d' : Desk) : Prop where
  wellFormed : d'.WellFormed
  words : d'.words.length = d.words.length + 1
  names : d'.names = d.names.put target d.words.length
  content : ∀ i, d'.content i = if i = d.words.length then w else d.content i

/-- All words stay as they were, and so do their names. -/
structure Keeps (d d' : Desk) : Prop where
  wellFormed : d'.WellFormed
  words : d.words.length ≤ d'.words.length
  names : d'.names = d.names
  content : ∀ i < d.words.length, d'.content i = d.content i

theorem Keeps.refl (h : d.WellFormed) : Keeps d d := ⟨h, le_rfl, rfl, fun _ _ => rfl⟩

theorem Keeps.of_withWord (h : d.WellFormed) (v : Word) :
    Keeps d (d.withWord.setContent d.words.length v) where
  wellFormed := h.withWord.setContent _ _
  words := by
    rw [words_setContent]
    exact (lt_words_withWord d).le
  names := names_setContent _ _ _
  content := by
    intro i hi
    rw [h.withWord.content_setContent (lt_words_withWord d), if_neg hi.ne, h.content_withWord]

theorem IsMade.of_withWord (h : d.WellFormed) (target : String) {w : Word} {d₁ : Desk}
    (hd₁ : d₁.WellFormed) (hwords : d₁.words.length = d.words.length + 1)
    (hnames : d₁.names = d.names)
    (hcontent : ∀ i, d₁.content i = if i = d.words.length then w else d.withWord.content i) :
    IsMade d target w (d₁.setName target d.words.length) where
  wellFormed := by
    refine hd₁.setName target (by omega) fun m hm => ?_
    exact (h.named m (hnames ▸ hm)).ne
  words := hwords
  names := by rw [setName, hnames]
  content := by
    intro i
    rw [← h.content_withWord]
    exact hcontent i

theorem isMade_setContent (h : d.WellFormed) (target : String) (w : Word) :
    IsMade d target w ((d.withWord.setContent d.words.length w).setName target d.words.length) := by
  have hlength : (d.withWord.setContent d.words.length w).words.length = d.words.length + 1 := by
    rw [words_setContent, length_words_withWord]
  exact .of_withWord h target (h.withWord.setContent _ _) hlength (names_setContent _ _ _)
    (h.withWord.content_setContent (lt_words_withWord d) w)

theorem isMade_setQueue (h : d.WellFormed) (target : String) (w : Word) :
    IsMade d target w ((d.withWord.setQueue d.words.length w).setName target d.words.length) := by
  have hlength : (d.withWord.setQueue d.words.length w).words.length = d.words.length + 1 :=
    List.length_set.trans (length_words_withWord d)
  exact .of_withWord h target (h.withWord.setQueue _ _) hlength rfl
    (h.withWord.content_setQueue (lt_words_withWord d) w)

/-- What carrying out an action comes to. -/
inductive Performed (d : Desk) (name : String) (a : Action) :
    EStateM.Result ShelfError Desk Answer → Prop
  | made {target : String} {w : Word} {d' : Desk} :
      a.made? d.shelf name = some (target, w) → IsMade d target w d' →
        Performed d name a (.ok .done d')
  | added {i : ℕ} {v : Word} :
      a.made? d.shelf name = none → a.added? d.shelf = some v → d.names.get? name = some i →
        Performed d name a (.ok .done (d.setContent i (d.content i ++ v)))
  | taken {i : ℕ} {c : Command} {w : Word} :
      a = .dequeue ∨ a = .dequeueIfAny → d.names.get? name = some i → d.content i = c :: w →
        Performed d name a (.ok (.command (some c)) (d.setContent i w))
  | seen {answer : Answer} :
      a.made? d.shelf name = none → a.added? d.shelf = none → answer.taken = [] →
        d.shelf.perform name a = .ok (answer, d.shelf) → Performed d name a (.ok answer d)
  | failed {e : ShelfError} {d' : Desk} :
      d.shelf.perform name a = .error e → Keeps d d' → Performed d name a (.error e d')

theorem word_of_some (hi : d.names.get? name = some i) : d.shelf.word name = .ok (d.content i) :=
  word_of_get? (by rw [get?_shelf, hi, Option.map_some])

theorem word_of_none (hi : d.names.get? name = none) :
    d.shelf.word name = .error (.unknownName name) := by
  simp [word, get?_shelf, hi]

theorem performed_create (h : d.WellFormed) (name : String) (offers : List Offer) :
    Performed d name (.create offers) (perform name (.create offers) d) := by
  cases hw : Offer.commands offers with
  | ok w =>
    have hall := enqueueAll_of_ok h.withWord (lt_words_withWord d) hw
    rw [h.content_length_withWord, List.nil_append] at hall
    simp only [perform, bind_apply, make_apply, hall, modify_apply, pure_apply]
    exact .made (by simp [Action.made?, toOption_eq_some.mpr hw]) (isMade_setContent h name w)
  | error e =>
    obtain ⟨v, hv⟩ := enqueueAll_of_error (i := d.words.length) (d := d.withWord) hw
    simp only [perform, bind_apply, make_apply, hv]
    exact .failed (by simp [Shelf.perform, hw]) (.of_withWord h v)

theorem performed_parse (h : d.WellFormed) (name : String) (text : Json) :
    Performed d name (.parse text) (perform name (.parse text) d) := by
  cases hw : Word.ofJson text with
  | ok w =>
    simp only [perform, hw, Except.mapError, bind_apply, ofExcept_apply, make_apply, extend_apply,
      h.content_length_withWord, List.nil_append, modify_apply, pure_apply]
    exact .made (by simp [Action.made?, toOption_eq_some.mpr hw]) (isMade_setContent h name w)
  | error e =>
    simp only [perform, hw, Except.mapError, bind_apply, ofExcept_apply]
    exact .failed (by simp [Shelf.perform, hw, Except.mapError]) (.refl h)

theorem performed_enqueue (h : d.WellFormed) (name : String) (offer : Offer) :
    Performed d name (.enqueue offer) (perform name (.enqueue offer) d) := by
  cases hc : offer.command with
  | error e =>
    simp only [perform, hc, bind_apply, ofExcept_apply]
    exact .failed (by simp [Shelf.perform, hc, error_bind]) (.refl h)
  | ok c =>
    cases hi : d.names.get? name with
    | none =>
      simp only [perform, hc, bind_apply, ofExcept_apply, reference_of_none hi]
      exact .failed (by simp [Shelf.perform, hc, word_of_none hi, ok_bind]) (.refl h)
    | some i =>
      simp only [perform, hc, bind_apply, ofExcept_apply, reference_of_some hi, extend_apply,
        pure_apply]
      exact .added rfl (by simp [Action.added?, toOption_eq_some.mpr hc]) hi

theorem dequeue?_of_nil (hw : d.content i = []) : dequeue? i d = .ok none d := by
  simp [dequeue?, hw]

theorem dequeue?_of_cons {c : Command} (hw : d.content i = c :: w) :
    dequeue? i d = .ok (some c) (d.setContent i w) := by
  simp only [dequeue?, bind_apply, get_apply, hw]
  rfl

theorem Performed.of_unknown (h : d.WellFormed) {a : Action} {f : ℕ → Step Answer}
    {g : Word → Except ShelfError (Answer × Shelf)} (hi : d.names.get? name = none)
    (hs : d.shelf.perform name a = d.shelf.word name >>= g) :
    Performed d name a ((reference name >>= f) d) := by
  rw [bind_apply, reference_of_none hi]
  refine .failed ?_ (.refl h)
  rw [hs, word_of_none hi]
  rfl

theorem performed_dequeue (h : d.WellFormed) (name : String) :
    Performed d name .dequeue (perform name .dequeue d) := by
  cases hi : d.names.get? name with
  | none => exact .of_unknown h hi rfl
  | some i =>
    cases hw : d.content i with
    | nil =>
      simp only [perform, bind_apply, reference_of_some hi, dequeue?_of_nil hw, throw_apply]
      refine .failed ?_ (.refl h)
      simp [Shelf.perform, word_of_some hi, hw, ok_bind, throw, throwThe, MonadExceptOf.throw]
    | cons c w =>
      simp only [perform, bind_apply, reference_of_some hi, dequeue?_of_cons hw, pure_apply]
      exact .taken (.inl rfl) hi hw

theorem performed_dequeueIfAny (h : d.WellFormed) (name : String) :
    Performed d name .dequeueIfAny (perform name .dequeueIfAny d) := by
  cases hi : d.names.get? name with
  | none => exact .of_unknown h hi rfl
  | some i =>
    cases hw : d.content i with
    | nil =>
      simp only [perform, bind_apply, reference_of_some hi, dequeue?_of_nil hw, pure_apply]
      refine .seen rfl rfl rfl ?_
      simp [Shelf.perform, word_of_some hi, hw, ok_bind, pure_eq_ok]
    | cons c w =>
      simp only [perform, bind_apply, reference_of_some hi, dequeue?_of_cons hw, pure_apply]
      exact .taken (.inr rfl) hi hw

theorem performed_copyTo (h : d.WellFormed) (name other : String) :
    Performed d name (.copyTo other) (perform name (.copyTo other) d) := by
  cases hi : d.names.get? name with
  | none => exact .of_unknown h hi rfl
  | some i =>
    simp only [perform, bind_apply, reference_of_some hi, make_apply, modify_apply, pure_apply,
      h.content_withWord]
    exact .made (by simp [Action.made?, get?_shelf, hi]) (isMade_setQueue h other _)

theorem performed_append (h : d.WellFormed) (name : String) (operand : Shelf.Operand) :
    Performed d name (.append operand) (perform name (.append operand) d) := by
  cases hi : d.names.get? name with
  | none => exact .of_unknown h hi rfl
  | some i =>
    cases operand with
    | other value =>
      simp only [perform, bind_apply, reference_of_some hi, throw_apply]
      refine .failed ?_ (.refl h)
      simp [Shelf.perform, word_of_some hi, ok_bind, throw, throwThe, MonadExceptOf.throw]
    | named other =>
      cases hj : d.names.get? other with
      | none =>
        simp only [perform, bind_apply, reference_of_some hi, reference_of_none hj]
        refine .failed ?_ (.refl h)
        simp [Shelf.perform, word_of_some hi, word_of_none hj, ok_bind]
      | some j =>
        simp only [perform, bind_apply, reference_of_some hi, reference_of_some hj, get_apply,
          extend_apply, pure_apply]
        exact .added rfl (by simp [Action.added?, get?_shelf, hj]) hi

theorem performed_of_reads (h : d.WellFormed) (name : String) {a : Action} (ha : a.reads = true) :
    Performed d name a (perform name a d) := by
  have hlook : perform name a = look name a := by cases a <;> first | rfl | cases ha
  have hmade : a.made? d.shelf name = none := by cases a <;> first | rfl | cases ha
  have hadded : a.added? d.shelf = none := by cases a <;> first | rfl | cases ha
  simp only [hlook, look, bind_apply, get_apply, ofExcept_apply, pure_apply]
  cases hs : d.shelf.perform name a with
  | error e => exact .failed hs (.refl h)
  | ok r =>
    obtain ⟨answer, s'⟩ := r
    obtain ⟨htaken, rfl⟩ := perform_of_reads ha hs
    exact .seen hmade hadded htaken hs

theorem performed_of_perform (h : d.WellFormed) (name : String) (a : Action) :
    Performed d name a (perform name a d) := by
  cases a with
  | create offers => exact performed_create h name offers
  | parse text => exact performed_parse h name text
  | enqueue offer => exact performed_enqueue h name offer
  | dequeue => exact performed_dequeue h name
  | dequeueIfAny => exact performed_dequeueIfAny h name
  | copyTo other => exact performed_copyTo h name other
  | append operand => exact performed_append h name operand
  | _ => exact performed_of_reads h name rfl

/-! ## What is seen -/

section

variable {a : Action} (h : d.WellFormed)
include h

theorem map_content_congr (hc : ∀ i < d.words.length, d'.content i = d.content i) :
    (d.names.map fun m => (m.1, d'.content m.2)) = d.shelf :=
  List.map_congr_left fun m hm => by rw [hc m.2 (h.named m hm)]

theorem IsMade.shelf_eq {target : String} (hm : IsMade d target w d') :
    d'.shelf = d.shelf.put target w := by
  have hold : ∀ i < d.words.length, d'.content i = d.content i := by
    intro i hi
    rw [hm.content, if_neg hi.ne]
  rw [shelf, hm.names, Table.map_put, hm.content, if_pos rfl, map_content_congr h hold]

theorem Keeps.shelf_eq (hk : Keeps d d') : d'.shelf = d.shelf := by
  rw [shelf, hk.names, map_content_congr h hk.content]

/-- The shelf of words by value answers alike and becomes what is seen on the desk. -/
theorem Performed.shelf_of_ok {answer : Answer} (hp : Performed d name a (.ok answer d')) :
    d.shelf.perform name a = .ok (answer, d'.shelf) := by
  cases hp with
  | made hmade hm => rw [perform_of_made? hmade, hm.shelf_eq h]
  | @added i v _ hadded hi =>
    have hw : d.shelf.get? name = some (d.content i) := by rw [get?_shelf, hi, Option.map_some]
    rw [perform_of_added? hadded hw, h.shelf_setContent hi]
  | @taken i c w ha hi hw =>
    rw [h.shelf_setContent hi]
    rcases ha with rfl | rfl <;>
      simp [Shelf.perform, word_of_some hi, hw, ok_bind, pure_eq_ok]
  | seen _ _ _ hs => exact hs

/-- Of the words under names only that of the subject may be another. -/
theorem Performed.get?_of_ne {answer : Answer} (hp : Performed d name a (.ok answer d'))
    {n : String} (hn : n ≠ a.subject name) : d'.shelf.get? n = d.shelf.get? n := by
  cases hp with
  | made hmade hm =>
    rw [hm.shelf_eq h]
    exact Table.get?_put_of_ne (Action.subject_of_made? hmade ▸ hn) _ _
  | added _ hadded hi =>
    rw [h.shelf_setContent hi]
    exact Table.get?_put_of_ne (Action.subject_of_added? hadded name ▸ hn) _ _
  | taken ha hi _ =>
    rw [h.shelf_setContent hi]
    refine Table.get?_put_of_ne ?_ _ _
    rcases ha with rfl | rfl <;> exact hn
  | seen => rfl

theorem Performed.content_of_ne {answer : Answer} (hp : Performed d name a (.ok answer d'))
    (hi : i < d.words.length) (hne : d.names.get? name ≠ some i) :
    d'.content i = d.content i := by
  have hset {j : ℕ} (hj : d.names.get? name = some j) (w : Word) :
      (d.setContent j w).content i = d.content i := by
    rw [h.content_setContent (h.lt_of_get? hj), if_neg]
    rintro rfl
    exact hne hj
  cases hp with
  | made _ hm => rw [hm.content, if_neg hi.ne]
  | added _ _ hj => exact hset hj _
  | taken _ hj _ => exact hset hj _
  | seen => rfl

end

end Desk
end BracketTurtle
