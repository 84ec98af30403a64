import InlineScript.Proofs.Level
import InlineScript.Proofs.Shape

/-! What the slots of a group print. The children of a group are divided at its separators, and
what the slots print is the text between the brackets of the group, divided at the separators
before which it has equally many brackets of both kinds. The separators of a nested group have one
more opening bracket before them than closing ones, at least. -/

namespace InlineScript

namespace Text

def splitLevelFrom (front : Text) : Text → List Text
  | [] => [[]]
  | c :: t =>
    if c = ';' ∧ front.count '[' = front.count ']' then [] :: splitLevelFrom (front ++ [c]) t
    else (splitLevelFrom (front ++ [c]) t).modifyHead (c :: ·)

/-- The parts of a text, divided at the separators before which it has equally many brackets of
both kinds. -/
def splitLevel (t : Text) : List Text := splitLevelFrom [] t

section
variable {front front' run t : Text}

theorem splitLevelFrom_ne_nil (front t : Text) : splitLevelFrom front t ≠ [] := by
  induction t generalizing front with
  | nil => simp [splitLevelFrom]
  | cons c t ih =>
    rw [splitLevelFrom]
    split
    · simp
    · simpa using ih (front ++ [c])

theorem intercalate_splitLevelFrom (front t : Text) :
    [';'].intercalate (splitLevelFrom front t) = t := by
  induction t generalizing front with
  | nil => rfl
  | cons c t ih =>
    have others := ih (front ++ [c])
    obtain ⟨part, parts, shape⟩ :=
      List.exists_cons_of_ne_nil (splitLevelFrom_ne_nil (front ++ [c]) t)
    rw [shape] at others
    rw [splitLevelFrom, shape]
    by_cases level : c = ';' ∧ front.count '[' = front.count ']'
    · rw [if_pos level, List.intercalate_cons_cons, others, level.1]
      rfl
    · rw [if_neg level, List.modifyHead_cons, List.intercalate_cons_cons_left, others]

theorem splitLevelFrom_congr
    (same : front.count '[' + front'.count ']' = front'.count '[' + front.count ']') :
    splitLevelFrom front t = splitLevelFrom front' t := by
  induction t generalizing front front' with
  | nil => rfl
  | cons c t ih =>
    have level : front.count '[' = front.count ']' ↔ front'.count '[' = front'.count ']' := by
      omega
    have others : splitLevelFrom (front ++ [c]) t = splitLevelFrom (front' ++ [c]) t := by
      refine ih ?_
      simp only [List.count_append]
      omega
    simp only [splitLevelFrom, level, others]

theorem splitLevelFrom_append (apart : ∀ s r : Text, run = s ++ ';' :: r →
    (front ++ s).count '[' ≠ (front ++ s).count ']') :
    splitLevelFrom front (run ++ t) =
      (splitLevelFrom (front ++ run) t).modifyHead (run ++ ·) := by
  induction run generalizing front with
  | nil =>
    rw [List.append_nil]
    exact (congrFun List.modifyHead_id _).symm
  | cons c run ih =>
    have passed : ¬ (c = ';' ∧ front.count '[' = front.count ']') := by
      rintro ⟨rfl, level⟩
      exact apart [] run rfl (by simpa using level)
    have others : splitLevelFrom (front ++ [c]) (run ++ t) =
        (splitLevelFrom (front ++ [c] ++ run) t).modifyHead (run ++ ·) := by
      refine ih fun s r whole => ?_
      have more := apart (c :: s) r (by rw [whole, List.cons_append])
      simpa using more
    rw [List.cons_append, splitLevelFrom, if_neg passed, others, List.modifyHead_modifyHead,
      List.append_assoc]
    rfl

theorem splitLevel_append (apart : ∀ s r : Text, run = s ++ ';' :: r → s.count '[' ≠ s.count ']')
    (level : run.count '[' = run.count ']' ∨ t = []) :
    (run ++ t).splitLevel = t.splitLevel.modifyHead (run ++ ·) := by
  rw [splitLevel, splitLevel, splitLevelFrom_append (by simpa using apart)]
  obtain level | rfl := level
  · have behind : splitLevelFrom ([] ++ run) t = splitLevelFrom [] t :=
      splitLevelFrom_congr (by simpa using level)
    rw [behind]
  · rfl

theorem splitLevel_separator (t : Text) : splitLevel (';' :: t) = [] :: t.splitLevel := by
  rw [splitLevel, splitLevelFrom, if_pos ⟨rfl, rfl⟩, splitLevel]
  exact congrArg _ (splitLevelFrom_congr rfl)

theorem splitLevel_plain (plain : run.Bracketless) (apart : ';' ∉ run) :
    (run ++ t).splitLevel = t.splitLevel.modifyHead (run ++ ·) := by
  refine splitLevel_append ?_ (.inl ?_)
  · rintro s r rfl
    simp at apart
  · rw [List.count_eq_zero.mpr fun mem => (plain _ mem).1 rfl,
      List.count_eq_zero.mpr fun mem => (plain _ mem).2 rfl]

end

theorem splitLevel_group {g : Group} {rest : Text} (fits : g.Fits rest) :
    (g.content ++ rest).splitLevel = rest.splitLevel.modifyHead (g.content ++ ·) := by
  refine splitLevel_append ?_ ?_
  · intro s r whole
    have filled : s ≠ [] := by
      rintro rfl
      simp [Group.content] at whole
    have proper : s ≠ g.content := by
      rw [whole]
      simp
    have more := Group.count_front_lt fits ⟨_, whole.symm⟩ filled fun _ => proper
    omega
  · exact fits.closed_or.imp_left fun closed => (fits.level closed).counts

theorem splitLevel_call {run rest : Text} {g : Group} (plain : run.Bracketless)
    (apart : ';' ∉ run) (fits : g.Fits rest) :
    (run ++ (g.content ++ rest)).splitLevel =
      rest.splitLevel.modifyHead (run ++ g.content ++ ·) := by
  rw [splitLevel_plain plain apart, splitLevel_group fits, List.modifyHead_modifyHead]
  simp only [Function.comp_def, List.append_assoc]

end Text

namespace Node

/-- What siblings print between their separators. -/
def slotSources (ns : List Node) : List (Option Text) :=
  (ns.splitOnP (·.kind = .separator)).map sourceAll?

theorem slotSources_separator {n : Node} (kind : n.kind = .separator) (ns : List Node) :
    slotSources (n :: ns) = some [] :: slotSources ns := by
  rw [slotSources, List.splitOnP_cons_eq_if_modifyHead, if_pos (by simpa using kind)]
  rfl

theorem slotSources_cons {n : Node} {ns : List Node} {s : Text} {parts : List Text}
    (other : n.kind ≠ .separator) (own : n.source? = some s)
    (others : slotSources ns = parts.map some) :
    slotSources (n :: ns) = (parts.modifyHead (s ++ ·)).map some := by
  rw [slotSources] at others ⊢
  rw [List.splitOnP_cons_eq_if_modifyHead, if_neg (by simpa using other)]
  cases slots : ns.splitOnP (·.kind = .separator) with
  | nil => exact absurd slots (List.splitOnP_ne_nil _ _)
  | cons slot slots' =>
    rw [slots] at others
    cases parts with
    | nil => simp at others
    | cons part parts =>
      obtain ⟨first, behind⟩ := List.cons.inj others
      rw [List.modifyHead_cons, List.modifyHead_cons, List.map_cons, List.map_cons,
        sourceAll?_of_source? own first, behind]

end Node

theorem separator_not_mem_of_named {name : Text} (named : ∀ c ∈ name, isNameChar c = true) :
    ';' ∉ '$' :: name := by
  intro mem
  obtain marker | mem := List.mem_cons.mp mem
  · exact absurd marker (by decide)
  · exact (isNameChar_iff.mp (named _ mem)).2.2.2.2 rfl

/-- Siblings between brackets are divided where their slice is level. A group that does not close
is the last of them, so it does not matter that nothing behind its bracket is level. -/
theorem slotSources_sequence {ctx : Context} {slice : Text} (pieces : Stretch ctx slice)
    (inside : ctx = .inside) {closes : Bool} (settled : slice.Settles closes) (k : Cursor) :
    Node.slotSources (sequence ctx slice k).nodes = slice.splitLevel.map some := by
  induction pieces generalizing k with
  | nil =>
    rw [sequence_nil]
    rfl
  | @literal ctx run rest filled plain stopped _ ih =>
    subst inside
    have bracketless := bracketless_of_plain plain
    have apart : ';' ∉ run := fun mem => absurd (plain _ mem) (by decide)
    replace settled := (Text.settles_append_iff bracketless).mp settled
    rw [sequence_literal k filled plain stopped, Text.splitLevel_plain bracketless apart]
    exact Node.slotSources_cons (by simp [Node.leaf]) (Node.source?_leaf rfl _) (ih rfl settled _)
  | @separator rest _ ih =>
    replace settled := (Text.settles_append_iff bracketless_separator).mp settled
    rw [sequence_separator, Text.splitLevel_separator, List.map_cons, ← ih rfl settled]
    exact Node.slotSources_separator rfl _
  | closer => exact absurd settled Text.not_settles_closer
  | @directive ctx name rest named stopped bare _ ih =>
    have bracketless := bracketless_of_named named
    have apart := separator_not_mem_of_named named
    rw [← List.cons_append] at settled
    replace settled := (Text.settles_append_iff bracketless).mp settled
    rw [sequence_name k named stopped bare, ← List.cons_append,
      Text.splitLevel_plain bracketless apart]
    exact Node.slotSources_cons (by simp [Node.leaf]) (Node.source?_leaf rfl _)
      (ih inside settled _)
  | @call ctx name rest g named fits _ _ ihInner ih =>
    have bracketless := bracketless_of_named named
    have apart := separator_not_mem_of_named named
    rw [← List.cons_append] at settled
    replace settled := (Text.settles_append_iff bracketless).mp settled
    replace settled := ((Group.settles_content_append_iff fits).mp settled).2
    have called := Group.source?_node fits
      (sourceAll?_sequence .inside g.inner (Group.enter (k.advance ('$' :: name))))
      (k.advance ('$' :: name))
    rw [sequence_call k named fits, ← List.cons_append,
      Text.splitLevel_call bracketless apart fits]
    exact Node.slotSources_cons (by simp) (Node.source?_called called _) (ih inside settled _)
  | @group rest g fits _ _ ihInner ih =>
    replace settled := ((Group.settles_content_append_iff fits).mp settled).2
    have own := Group.source?_node fits (sourceAll?_sequence .inside g.inner (Group.enter k)) k
    rw [sequence_bracket k fits, Text.splitLevel_group fits]
    exact Node.slotSources_cons (by simp [Group.node]) own (ih rfl settled _)

namespace Node

theorem exists_part {n : Node} {ns : List Node} (mem : n ∈ ns) (other : n.kind ≠ .separator) :
    ∃ part ∈ ns.splitOnP (·.kind = .separator), n ∈ part := by
  induction ns with
  | nil => simp at mem
  | cons m ns ih =>
    obtain ⟨first, others, parts⟩ :=
      List.exists_cons_of_ne_nil (List.splitOnP_ne_nil (fun n : Node => n.kind = .separator) ns)
    rw [parts] at ih
    rw [List.splitOnP_cons_eq_if_modifyHead, parts]
    by_cases divides : m.kind = .separator
    · obtain rfl | behind := List.mem_cons.mp mem
      · exact absurd divides other
      · obtain ⟨part, found, inside⟩ := ih behind
        rw [if_pos (by simpa using divides)]
        exact ⟨part, List.mem_cons_of_mem _ found, inside⟩
    · rw [if_neg (by simpa using divides), List.modifyHead_cons]
      obtain rfl | behind := List.mem_cons.mp mem
      · exact ⟨_, List.mem_cons_self, List.mem_cons_self⟩
      · obtain ⟨part, found, inside⟩ := ih behind
        obtain rfl | later := List.mem_cons.mp found
        · exact ⟨_, List.mem_cons_self, List.mem_cons_of_mem m inside⟩
        · exact ⟨part, List.mem_cons_of_mem _ later, inside⟩

theorem exists_slot {text : Text} {g h : Node}
    (occurs : ∀ n ∈ g.children, n.Occurs text) (group : g.kind.isGroup = true)
    (mem : h ∈ walkAll g.children) (nested : h.kind.isGroup = true) :
    ∃ slot ∈ g.slots, ∀ n ∈ h.walk, n ∈ walkAll slot := by
  rw [walkAll_eq_flatMap, List.mem_flatMap] at mem
  obtain ⟨n, child, below⟩ := mem
  have other : n.kind ≠ .separator := by
    intro kind
    have shaped := (occurs n child).shaped
    rw [Shaped, kind] at shaped
    rw [walk_eq, shaped.2, walkAll_nil, List.mem_singleton] at below
    simp [below, kind, Kind.isGroup] at nested
  obtain ⟨slot, found, inside⟩ := exists_part child other
  refine ⟨slot, by rwa [slots, if_pos group], fun m deeper => ?_⟩
  exact mem_walkAll_trans slot (mem_walkAll_of_mem inside) (mem_walk_trans n below deeper)

end Node

/-- The slots of a group print the text between its brackets, divided at exactly the separators
before which that text has equally many brackets of both kinds; so the separators of a nested group
divide none but that group. -/
theorem slots_build {text : Text} {g : Node} (mem : g ∈ (build text).walk) {closed : Bool}
    (kind : g.kind = .group closed) :
    ∃ inner : Text, g.content = '[' :: (inner ++ if closed then [']'] else []) ∧
      g.slots.map Node.sourceAll? = inner.splitLevel.map some ∧
      [';'].intercalate inner.splitLevel = inner ∧
      ∀ h ∈ Node.walkAll g.children, h.kind.isGroup = true →
        ∃ slot ∈ g.slots, ∀ n ∈ h.walk, n ∈ Node.walkAll slot := by
  have group : g.kind.isGroup = true := by rw [kind, Kind.isGroup]
  rw [Node.walk_eq, List.mem_cons] at mem
  obtain rfl | mem := mem
  · exact absurd (show Kind.program = .group closed from kind) (by simp)
  have occurs (n : Node) (child : n ∈ g.children) : n.Occurs text := by
    refine occurs_build n (Node.mem_walkAll_trans _ mem ?_)
    rw [Node.walk_eq]
    exact List.mem_cons_of_mem g (Node.mem_walkAll_of_mem child)
  obtain ⟨before, after, extent, -, -, fits, same⟩ := (occurs_build g mem).exists_group group
  have flag : extent.closed = closed := by simpa [same, Group.node] using kind
  have nodes : g.children = (sequence .inside extent.inner _).nodes := congrArg Node.children same
  have sources := slotSources_sequence (stretch .inside extent.inner) rfl
    (Group.settles_inner fits) (Group.enter (Cursor.advance {} before))
  refine ⟨extent.inner, ?_, ?_, Text.intercalate_splitLevelFrom [] extent.inner, ?_⟩
  · rw [same]
    change extent.content = _
    rw [Group.content_eq, ← flag]
    cases closes : extent.closed with
    | true => rw [Group.closing_of_fits fits closes]; rfl
    | false => rw [Group.closing_of_unclosed closes]; rfl
  · rw [Node.slots, if_pos group, nodes]
    exact sources
  · intro h inside nested
    exact Node.exists_slot occurs group inside nested

theorem slots_build_unclosed :
    ∃ g ∈ (build "$é[;a$d[x;y];[b;c".toList).walk, g.kind = .group false ∧
      g.slots.map Node.sourceAll? =
        [some [], some "a$d[x;y]".toList, some "[b;c".toList] := by
  let g := (build "$é[;a$d[x;y];[b;c".toList).walk.get ⟨2, by decide +kernel⟩
  have mem : g ∈ (build "$é[;a$d[x;y];[b;c".toList).walk := List.get_mem _ _
  have kind : g.kind = .group false := by decide +kernel
  have content : g.content = "[;a$d[x;y];[b;c".toList := by decide +kernel
  obtain ⟨inner, brackets, sources, -⟩ := slots_build mem kind
  obtain rfl : ";a$d[x;y];[b;c".toList = inner := by
    rw [content] at brackets
    simpa using brackets
  refine ⟨g, mem, kind, sources.trans ?_⟩
  decide +kernel

end InlineScript
