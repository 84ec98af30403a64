import InlineScript.Grammar.Frontier
import InlineScript.Place
import InlineScript.Text.Blank

/-! The strict grammar: ordered choice, greedy repetition and no space between
elements.

    script    = (directive / text)* endOfInput
    text      = (not '$')+
    directive = '$' name (group / not followed by '[')
    name      = (not blank and none of '$' '[' ']' ';')+
    group     = '[' slot (';' slot)* ']'
    slot      = (directive / group / slotText)*
    slotText  = (none of '$' '[' ']' ';')+

Each rule takes the place where it is tried and the frontier of misses so far, and
gives back the new frontier also when it fails. A match carries the fact that it
consumed something, which is why the rules come to an end. -/

namespace InlineScript.Grammar

/-- A rule that has matched at `p`, and the place behind it. -/
structure Match (p : Place) where
  pair : Pair
  stop : Place
  shorter : stop.rest.length < p.rest.length

structure Matches (p : Place) where
  pairs : List Pair
  stop : Place
  notLonger : stop.rest.length ≤ p.rest.length

/-- The place behind the character `c`, if that is what stands at `p`. -/
def after? (c : Char) (p : Place) : Option { q : Place // q.rest.length < p.rest.length } :=
  match p with
  | ⟨_, []⟩ => none
  | ⟨offset, d :: ds⟩ => if d = c then some ⟨⟨offset + d.utf8Size, ds⟩, by simp⟩ else none

/-- The end of a rule entered at `p` with the frontier `entered`: a failure is noted. -/
def conclude (rule : Rule) {p : Place} (entered : Frontier) :
    Option (Match p) × Frontier → Option (Match p) × Frontier
  | (some m, f) => (some m, f)
  | (none, f) => (none, f.miss rule p.offset (entered.count p.offset))

theorem length_skip_takeWhile_lt {keep : Char → Bool} {p : Place}
    (h : p.rest.takeWhile keep ≠ []) :
    (p.skip (p.rest.takeWhile keep)).rest.length < p.rest.length := by
  have filled := List.length_pos_iff.mpr h
  have front : p.rest.takeWhile keep <+: p.rest := List.takeWhile_prefix keep
  have short := front.length_le
  simp only [Place.skip, List.length_drop]
  omega

/-- The longest run of characters that `keep` allows, if there is one. -/
def run? (rule : Rule) (keep : Char → Bool) (p : Place) : Option (Match p) :=
  let run := p.rest.takeWhile keep
  if h : run = [] then none
  else some
    { pair := ⟨rule, p.offset, (p.skip run).offset, []⟩
      stop := p.skip run
      shorter := length_skip_takeWhile_lt h }

theorem after?_eq_none_iff {c : Char} {p : Place} :
    after? c p = none ↔ ∀ cs, p.rest ≠ c :: cs := by
  obtain ⟨start, _ | ⟨d, ds⟩⟩ := p
  · simp [after?]
  · by_cases h : d = c <;> simp [after?, h]

@[simp] theorem conclude_some (rule : Rule) {p : Place} (entered f : Frontier) (m : Match p) :
    conclude rule entered (some m, f) = (some m, f) := rfl

@[simp] theorem conclude_none (rule : Rule) {p : Place} (entered f : Frontier) :
    conclude rule (p := p) entered (none, f) =
      (none, f.miss rule p.offset (entered.count p.offset)) := rfl

theorem run?_eq_none_iff {rule : Rule} {keep : Char → Bool} {p : Place} :
    run? rule keep p = none ↔ p.rest.takeWhile keep = [] := by
  simp [run?]

theorem stop_of_run? {rule : Rule} {keep : Char → Bool} {p : Place} {m : Match p}
    (h : run? rule keep p = some m) : m.stop = p.skip (p.rest.takeWhile keep) := by
  simp only [run?] at h
  split at h
  · simp at h
  · rw [← Option.some.inj h]

theorem pair_of_run? {rule : Rule} {keep : Char → Bool} {p : Place} {m : Match p}
    (h : run? rule keep p = some m) : m.pair = ⟨rule, p.offset, m.stop.offset, []⟩ := by
  simp only [run?] at h
  split at h
  · simp at h
  · rw [← Option.some.inj h]

def text (p : Place) (f : Frontier) : Option (Match p) × Frontier :=
  conclude .text f (run? .text (fun c => c != '$') p, f)

def name (p : Place) (f : Frontier) : Option (Match p) × Frontier :=
  conclude .name f
    (run? .name (fun c => !(isBlank c || c == '$' || c == '[' || c == ']' || c == ';')) p, f)

def slotText (p : Place) (f : Frontier) : Option (Match p) × Frontier :=
  conclude .slotText f
    (run? .slotText (fun c => !(c == '$' || c == '[' || c == ']' || c == ';')) p, f)

namespace Matches

def nil (p : Place) : Matches p := ⟨[], p, Nat.le_refl _⟩

def cons {p : Place} (m : Match p) (more : Matches m.stop) : Matches p :=
  ⟨m.pair :: more.pairs, more.stop, Nat.le_trans more.notLonger (Nat.le_of_lt m.shorter)⟩

/-- The matches between `p` and the end, as the one pair of a slot. -/
def slot {p : Place} (items : Matches p) : Pair :=
  ⟨.slot, p.offset, items.stop.offset, items.pairs⟩

end Matches

mutual

def directive (p : Place) (f : Frontier) : Option (Match p) × Frontier :=
  conclude .directive f <|
    match after? '$' p with
    | none => (none, f)
    | some q =>
      match name q.val f with
      | (none, f) => (none, f)
      | (some n, f) =>
        have named := Nat.lt_trans n.shorter q.property
        match group n.stop f with
        | (some g, f) =>
          (some ⟨⟨.directive, p.offset, g.stop.offset, [n.pair, g.pair]⟩, g.stop,
            Nat.lt_trans g.shorter named⟩, f)
        | (none, f) =>
          if (after? '[' n.stop).isSome then (none, f)
          else (some ⟨⟨.directive, p.offset, n.stop.offset, [n.pair]⟩, n.stop, named⟩, f)
termination_by (p.rest.length, 0)

def group (p : Place) (f : Frontier) : Option (Match p) × Frontier :=
  conclude .group f <|
    match after? '[' p with
    | none => (none, f)
    | some q =>
      have opened := q.property
      match slots q.val f with
      | (inner, f) =>
        match after? ']' inner.stop with
        | none => (none, f)
        | some e =>
          (some ⟨⟨.group, p.offset, e.val.offset, inner.pairs⟩, e.val,
            Nat.lt_trans e.property (Nat.lt_of_le_of_lt inner.notLonger opened)⟩, f)
termination_by (p.rest.length, 0)

/-- The slots up to the closing bracket, with the separators between them. -/
def slots (p : Place) (f : Frontier) : Matches p × Frontier :=
  match items p f with
  | (inner, f) =>
    match after? ';' inner.stop with
    | none => (⟨[inner.slot], inner.stop, inner.notLonger⟩, f)
    | some q =>
      have separated := Nat.lt_of_lt_of_le q.property inner.notLonger
      match slots q.val f with
      | (more, f) =>
        (⟨inner.slot :: more.pairs, more.stop,
          Nat.le_trans more.notLonger (Nat.le_of_lt separated)⟩, f)
termination_by (p.rest.length, 2)

def items (p : Place) (f : Frontier) : Matches p × Frontier :=
  match directive p f with
  | (some m, f) =>
    have := m.shorter
    match items m.stop f with
    | (more, f) => (.cons m more, f)
  | (none, f) =>
    match group p f with
    | (some m, f) =>
      have := m.shorter
      match items m.stop f with
      | (more, f) => (.cons m more, f)
    | (none, f) =>
      match slotText p f with
      | (some m, f) =>
        have := m.shorter
        match items m.stop f with
        | (more, f) => (.cons m more, f)
      | (none, f) => (.nil p, f)
termination_by (p.rest.length, 1)

end

def pieces (p : Place) (f : Frontier) : Matches p × Frontier :=
  match directive p f with
  | (some m, f) =>
    have := m.shorter
    match pieces m.stop f with
    | (more, f) => (.cons m more, f)
  | (none, f) =>
    match text p f with
    | (some m, f) =>
      have := m.shorter
      match pieces m.stop f with
      | (more, f) => (.cons m more, f)
    | (none, f) => (.nil p, f)
termination_by p.rest.length

def endOfInput (p : Place) (f : Frontier) : Option Pair × Frontier :=
  if p.rest = [] then (some ⟨.endOfInput, p.offset, p.offset, []⟩, f)
  else (none, f.miss .endOfInput p.offset (f.count p.offset))

def script (p : Place) (f : Frontier) : Option Pair × Frontier :=
  match pieces p f with
  | (inner, g) =>
    match endOfInput inner.stop g with
    | (some stop, g) => (some ⟨.script, p.offset, inner.stop.offset, inner.pairs ++ [stop]⟩, g)
    | (none, g) => (none, g.miss .script p.offset (f.count p.offset))

/-- Any rule, tried at `p`. Only the script demands the end of the text. -/
def attempt (rule : Rule) (p : Place) (f : Frontier) : Option Pair × Frontier :=
  match rule with
  | .endOfInput => endOfInput p f
  | .script => script p f
  | .text => (text p f).map (·.map Match.pair) id
  | .directive => (directive p f).map (·.map Match.pair) id
  | .name => (name p f).map (·.map Match.pair) id
  | .group => (group p f).map (·.map Match.pair) id
  | .slot => (items p f).map (some ∘ Matches.slot) id
  | .slotText => (slotText p f).map (·.map Match.pair) id

end InlineScript.Grammar
