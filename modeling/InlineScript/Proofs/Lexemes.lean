import InlineScript.Grammar.Check
import InlineScript.Proofs.Rules
import InlineScript.Proofs.Runs

/-! The rules of the grammar that match runs of characters, against the reader of literals. The
grammar writes such a rule as a greedy repetition that looks ahead before each character: if what
ends the run does not match there, any character is taken. The reader has a table of roles instead,
and finds the end of a name in two searches, one for a significant character and one for a blank.
All end at the same character of every text. -/

namespace InlineScript

namespace Grammar

inductive Expr where
  | one (p : Char → Bool)
  | choice (e f : Expr)
  | seq (e f : Expr)
  | not (e : Expr)
  | many (e : Expr)

namespace Expr

/-- What an expression takes from the front of a text and what it leaves, or that it fails. A choice
tries its second expression only where the first one fails, and a repetition never stops early. -/
inductive Yields : Expr → Text → Option (Text × Text) → Prop
  | one {p : Char → Bool} {c : Char} {cs : Text} (kept : p c = true) :
      Yields (.one p) (c :: cs) (some ([c], cs))
  | one_stopped {p : Char → Bool} {t : Text} (stopped : ∀ c ∈ t.head?, p c = false) :
      Yields (.one p) t none
  | choice_first {e f : Expr} {t : Text} {r : Text × Text} (first : Yields e t (some r)) :
      Yields (.choice e f) t (some r)
  | choice_second {e f : Expr} {t : Text} {r : Option (Text × Text)} (first : Yields e t none)
      (second : Yields f t r) : Yields (.choice e f) t r
  | seq {e f : Expr} {t run more rest behind : Text} (front : Yields e t (some (run, rest)))
      (back : Yields f rest (some (more, behind))) : Yields (.seq e f) t (some (run ++ more, behind))
  | seq_front {e f : Expr} {t : Text} (front : Yields e t none) : Yields (.seq e f) t none
  | seq_back {e f : Expr} {t run rest : Text} (front : Yields e t (some (run, rest)))
      (back : Yields f rest none) : Yields (.seq e f) t none
  | not {e : Expr} {t : Text} (missed : Yields e t none) : Yields (.not e) t (some ([], t))
  | not_found {e : Expr} {t : Text} {r : Text × Text} (found : Yields e t (some r)) :
      Yields (.not e) t none
  | many_done {e : Expr} {t : Text} (missed : Yields e t none) :
      Yields (.many e) t (some ([], t))
  | many_more {e : Expr} {t run more rest behind : Text} (front : Yields e t (some (run, rest)))
      (others : Yields (.many e) rest (some (more, behind))) :
      Yields (.many e) t (some (run ++ more, behind))

theorem Yields.unique {e : Expr} {t : Text} {r r' : Option (Text × Text)} (h : e.Yields t r)
    (h' : e.Yields t r') : r = r' := by
  induction h generalizing r' with
  | one kept =>
    cases h' with
    | one => rfl
    | one_stopped stopped => simp [kept] at stopped
  | one_stopped stopped =>
    cases h' with
    | one kept => simp [kept] at stopped
    | one_stopped => rfl
  | choice_first first ih =>
    cases h' with
    | choice_first first' => exact ih first'
    | choice_second first' => simpa using ih first'
  | choice_second first second ihFirst ih =>
    cases h' with
    | choice_first first' => simpa using ihFirst first'
    | choice_second first' second' => exact ih second'
  | seq front back ihFront ih =>
    cases h' with
    | seq front' back' =>
      obtain ⟨rfl, rfl⟩ : _ ∧ _ := by simpa using ihFront front'
      obtain ⟨rfl, rfl⟩ : _ ∧ _ := by simpa using ih back'
      rfl
    | seq_front front' => simpa using ihFront front'
    | seq_back front' back' =>
      obtain ⟨rfl, rfl⟩ : _ ∧ _ := by simpa using ihFront front'
      simpa using ih back'
  | seq_front front ih =>
    cases h' with
    | seq front' => simpa using ih front'
    | seq_front => rfl
    | seq_back => rfl
  | seq_back front back ihFront ih =>
    cases h' with
    | seq front' back' =>
      obtain ⟨rfl, rfl⟩ : _ ∧ _ := by simpa using ihFront front'
      simpa using ih back'
    | seq_front => rfl
    | seq_back => rfl
  | not missed ih =>
    cases h' with
    | not => rfl
    | not_found found => simpa using ih found
  | not_found found ih =>
    cases h' with
    | not missed => simpa using ih missed
    | not_found => rfl
  | many_done missed ih =>
    cases h' with
    | many_done => rfl
    | many_more front => simpa using ih front
  | many_more front others ihFront ih =>
    cases h' with
    | many_done missed => simpa using ihFront missed
    | many_more front' others' =>
      obtain ⟨rfl, rfl⟩ : _ ∧ _ := by simpa using ihFront front'
      obtain ⟨rfl, rfl⟩ : _ ∧ _ := by simpa using ih others'
      rfl

/-- An expression that takes one character if that satisfies `p`, and nothing else. -/
structure Takes (e : Expr) (p : Char → Bool) : Prop where
  kept {c : Char} (h : p c = true) (cs : Text) : e.Yields (c :: cs) (some ([c], cs))
  stopped {t : Text} (h : ∀ c ∈ t.head?, p c = false) : e.Yields t none

section
variable {e f : Expr} {p q : Char → Bool}

theorem takes_one (p : Char → Bool) : (one p).Takes p :=
  ⟨fun kept _ => .one kept, .one_stopped⟩

theorem Takes.choice (he : e.Takes p) (hf : f.Takes q) :
    (choice e f).Takes fun c => p c || q c := by
  constructor
  · intro c either cs
    cases first : p c with
    | true => exact .choice_first (he.kept first cs)
    | false =>
      refine .choice_second (he.stopped (by simpa using first)) (hf.kept ?_ cs)
      simpa [first] using either
  · intro t neither
    simp only [Bool.or_eq_false_iff] at neither
    exact .choice_second (he.stopped fun c head => (neither c head).1)
      (hf.stopped fun c head => (neither c head).2)

def other (e : Expr) : Expr := .seq (.not e) (.one fun _ => true)

theorem Takes.other (h : e.Takes p) : e.other.Takes fun c => !p c := by
  constructor
  · intro c kept cs
    have missed : e.Yields (c :: cs) none := h.stopped (by simpa using kept)
    exact .seq (.not missed) (.one rfl)
  · intro t stopped
    cases t with
    | nil => exact .seq_back (.not (h.stopped (by simp))) (.one_stopped (by simp))
    | cons c cs =>
      have found : p c = true := by simpa using stopped
      exact .seq_front (.not_found (h.kept found cs))

theorem Takes.many (h : e.Takes p) (t : Text) :
    (many e).Yields t (some (t.takeWhile p, t.dropWhile p)) := by
  induction t with
  | nil => exact .many_done (h.stopped (by simp))
  | cons c cs ih =>
    cases kept : p c with
    | true =>
      rw [List.takeWhile_cons_of_pos kept, List.dropWhile_cons_of_pos kept]
      exact .many_more (h.kept kept cs) ih
    | false =>
      rw [List.takeWhile_cons_of_neg (by simp [kept]), List.dropWhile_cons_of_neg (by simp [kept])]
      exact .many_done (h.stopped (by simpa using kept))

def run (e : Expr) : Expr := .seq e (.many e)

theorem Takes.run_iff (h : e.Takes p) {t : Text} {r : Option (Text × Text)} :
    e.run.Yields t r ↔
      r = if t.takeWhile p = [] then none else some (t.takeWhile p, t.dropWhile p) := by
  suffices yields : e.run.Yields t
      (if t.takeWhile p = [] then none else some (t.takeWhile p, t.dropWhile p)) by
    exact ⟨fun h' => h'.unique yields, fun same => same ▸ yields⟩
  cases t with
  | nil => exact .seq_front (h.stopped (by simp))
  | cons c cs =>
    cases kept : p c with
    | true =>
      rw [List.takeWhile_cons_of_pos kept, List.dropWhile_cons_of_pos kept, if_neg (by simp)]
      exact .seq (h.kept kept cs) (h.many cs)
    | false =>
      rw [List.takeWhile_cons_of_neg (by simp [kept]), if_pos rfl]
      exact .seq_front (h.stopped (by simpa using kept))

end

def char (c : Char) : Expr := .one (· == c)

def textStop : Expr := char '$'

def slotTextStop : Expr := choice (choice (choice (char '$') (char '[')) (char ']')) (char ';')

def nameStop : Expr :=
  choice (choice (choice (choice (one isBlank) (char '$')) (char '[')) (char ']')) (char ';')

theorem takes_textStop : textStop.other.Takes fun c => !Context.outside.stops c := by
  simp only [← keeps_text]
  exact (takes_one _).other

theorem takes_slotTextStop : slotTextStop.other.Takes fun c => !Context.inside.stops c := by
  simp only [← keeps_slotText]
  exact ((((takes_one _).choice (takes_one _)).choice (takes_one _)).choice (takes_one _)).other

theorem takes_nameStop : nameStop.other.Takes isNameChar := by
  have keep := funext keeps_name
  rw [← keep]
  exact (((((takes_one _).choice (takes_one _)).choice (takes_one _)).choice (takes_one _)).choice
    (takes_one _)).other

end Expr

theorem parse_run_eq_ok_iff {rule : Rule} {keep : Char → Bool} {text : Text} {pair : Pair}
    (run : attempt rule (.start text) {} =
      (conclude rule {} (run? rule keep (.start text), {})).map (·.map Match.pair) id) :
    parse rule text = .ok pair ↔
      text.takeWhile keep ≠ [] ∧ pair = ⟨rule, 0, Text.size (text.takeWhile keep), []⟩ := by
  rw [parse, run]
  cases found : run? rule keep (.start text) with
  | none =>
    have nothing : text.takeWhile keep = [] := run?_eq_none_iff.mp found
    simp [nothing]
  | some m =>
    have taken : text.takeWhile keep ≠ [] := by
      intro nothing
      have missed : run? rule keep (.start text) = none := run?_eq_none_iff.mpr nothing
      rw [missed] at found
      cases found
    have covers : m.pair = ⟨rule, 0, Text.size (text.takeWhile keep), []⟩ := by
      rw [pair_of_run? found, stop_of_run? found]
      simp [Place.skip, Place.start]
    simp [taken, covers, eq_comm]

/-- At the start of a text a rule and the expression that it is written as take the run and no
more. Where the run is empty they fail. -/
structure TakesRun (rule : Rule) (body : Expr) (text run : Text) : Prop where
  rule (pair : Pair) : parse rule text = .ok pair ↔ run ≠ [] ∧ pair = ⟨rule, 0, run.size, []⟩
  body (result : Option (Text × Text)) : body.Yields text result ↔
    result = if run = [] then none else some (run, text.drop run.length)

theorem takesRun_of_takes {rule : Rule} {stop : Expr} {keep : Char → Bool} {text : Text}
    (run : attempt rule (.start text) {} =
      (conclude rule {} (run? rule keep (.start text), {})).map (·.map Match.pair) id)
    (takes : stop.other.Takes keep) :
    TakesRun rule stop.other.run text (text.takeWhile keep) := by
  refine ⟨fun pair => parse_run_eq_ok_iff run, fun result => ?_⟩
  have rest : text.drop (text.takeWhile keep).length = text.dropWhile keep := by
    have whole := congrArg (List.drop (text.takeWhile keep).length)
      (List.takeWhile_append_dropWhile (p := keep) (l := text))
    rw [List.drop_left] at whole
    exact whole.symm
  rw [rest, takes.run_iff]

end Grammar

open Grammar (Expr)

theorem longestFront_takeWhile (p : Char → Bool) (t : Text) :
    LongestFront p t (t.takeWhile p) := by
  have kept : ∀ c ∈ t.takeWhile p, p c = true := fun c => List.mem_takeWhile_imp
  have stopped : ∀ c ∈ (t.dropWhile p).head?, p c = false := not_head?_dropWhile
  have longest := longestFront_append kept stopped
  rwa [List.takeWhile_append_dropWhile] at longest

/-- The reader of literals takes the longest front part without a character that stops it, and a
name is the longest front part without a blank of what it takes inside a group. The three rules for
runs take the same of every text, and fail where that is empty. -/
theorem lexical_rules (text : Text) :
    (∀ ctx : Context, LongestFront (fun c => !ctx.stops c) text (literal ctx text)) ∧
    LongestFront (fun c => !isBlank c) (literal .inside text) (nameRun text) ∧
    Grammar.TakesRun .text Expr.textStop.other.run text (literal .outside text) ∧
    Grammar.TakesRun .slotText Expr.slotTextStop.other.run text (literal .inside text) ∧
    Grammar.TakesRun .name Expr.nameStop.other.run text (nameRun text) := by
  refine ⟨fun ctx => longestFront_takeWhile _ text, longestFront_takeWhile _ _, ?text, ?slotText,
    ?name⟩
  case text =>
    exact Grammar.takesRun_of_takes (by rw [Grammar.attempt, Grammar.text_eq]) Expr.takes_textStop
  case slotText =>
    exact Grammar.takesRun_of_takes (by rw [Grammar.attempt, Grammar.slotText_eq])
      Expr.takes_slotTextStop
  case name =>
    rw [nameRun_eq_takeWhile]
    exact Grammar.takesRun_of_takes (by rw [Grammar.attempt, Grammar.name_eq]) Expr.takes_nameStop

example : nameRun "é\u2003x[".toList = ['é'] ∧
    literal .inside "é\u2003x[".toList = ['é', '\u2003', 'x'] := by
  decide +kernel

end InlineScript
