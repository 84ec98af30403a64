import InlineScript.Proofs.Tracking
import InlineScript.Reading

/-! A strict reading. The grammar accepts the texts whose tree has no issues, no
others, and what it matches then is the image of the tree. -/

namespace InlineScript

theorem pairs_build (text : Text) :
    (build text).pairs .outside = [⟨.script, 0, text.size,
      (build text).children.flatMap (Node.pairs .outside) ++
        [⟨.endOfInput, text.size, text.size, []⟩]⟩] := by
  have stop : (build text).position.stop = text.size := Nat.zero_add _
  have kind : (build text).kind = .program := rfl
  rw [Node.pairs, kind]
  simp only [stop]
  rfl

theorem build_faultless_iff {text : Text} :
    (build text).Faultless ↔ ∀ n ∈ (build text).children, n.Faultless := by
  have root : (build text).issue? = none := rfl
  rw [Node.faultless_iff, root]
  simp

namespace Grammar

theorem pieces_agree_build (text : Text) :
    PiecesAgree (.start text) (build text).children text.size := by
  have track := pieces_track (stretch .outside text) rfl {}
  rw [show (Cursor.advance {} text).offset = text.size from Nat.zero_add _] at track
  exact track.toPiecesAgree

theorem parse_of_faultless {text : Text} (h : (build text).Faultless) :
    ∃ root, parse .script text = .ok root ∧ (build text).pairs .outside = [root] := by
  have found := (pieces_agree_build text).found (build_faultless_iff.mp h) {}
  refine ⟨_, ?_, pairs_build text⟩
  have matched := script_some {} found
  rw [parse, attempt]
  generalize script (.start text) {} = r at matched
  obtain ⟨pair, f⟩ := r
  simp only at matched
  rw [matched]
  rfl

theorem parse_of_not_faultless {text : Text} (h : ¬ (build text).Faultless) :
    ∃ e, parse .script text = .error e := by
  have missed := (pieces_agree_build text).missed (mt build_faultless_iff.mpr h) {}
  have refused := script_none {} missed
  rw [parse, attempt]
  generalize script (.start text) {} = r at refused
  obtain ⟨pair, f⟩ := r
  simp only at refused
  rw [refused]
  exact ⟨_, rfl⟩

theorem check_eq_ok_iff {text : Text} : check text = .ok () ↔ (build text).issues = [] := by
  rw [Node.issues_eq_nil_iff]
  by_cases faultless : (build text).Faultless
  · obtain ⟨root, matched, -⟩ := parse_of_faultless faultless
    rw [check, matched]
    exact iff_of_true rfl faultless
  · obtain ⟨e, refused⟩ := parse_of_not_faultless faultless
    rw [check, refused]
    exact iff_of_false nofun faultless

end Grammar

/-- The grammar and the builder take the same texts to be well formed, so a strict
reading keeps the trees without issues, and no reading gives any other tree. -/
theorem strict_agreement (text : Text) :
    (Grammar.check text = .ok () ↔ (build text).issues = []) ∧
      ∀ (settings : Settings) (root : Node), parse settings text = .ok root ↔
        (settings.strict = false ∨ (build text).issues = []) ∧ root = build text := by
  refine ⟨Grammar.check_eq_ok_iff, ?_⟩
  intro settings root
  by_cases strict : settings.strict = true
  · rw [parse_of_strict strict, ← Grammar.check_eq_ok_iff]
    cases verdict : Grammar.check text with
    | ok =>
      simp only [Except.map, Except.ok.injEq, or_true, true_and]
      exact eq_comm
    | error e => simp [Except.map, strict]
  · have lenient : settings.strict = false := by simpa using strict
    rw [parse_of_not_strict lenient]
    simp only [lenient, Except.ok.injEq, true_or, true_and]
    exact eq_comm

/-- What the grammar matches in a text is the image of its tree. -/
theorem parse_script_build {text : Text} (accepted : Grammar.check text = .ok ()) :
    ∃ root, Grammar.parse .script text = .ok root ∧ (build text).pairs .outside = [root] ∧
      root.start = 0 ∧ root.stop = text.size := by
  have faultless := Node.issues_eq_nil_iff.mp (Grammar.check_eq_ok_iff.mp accepted)
  obtain ⟨root, matched, image⟩ := Grammar.parse_of_faultless faultless
  have same := (pairs_build text).symm.trans image
  refine ⟨root, matched, image, ?_⟩
  obtain rfl := List.singleton_inj.mp same
  exact ⟨rfl, rfl⟩

theorem parse_script_build_nested :
    ∃ root, Grammar.parse .script "é $f[x;[$g];]".toList = .ok root ∧
      (build "é $f[x;[$g];]".toList).pairs .outside = [root] ∧ root.start = 0 ∧ root.stop = 14 :=
  parse_script_build (Grammar.check_eq_ok_iff.mpr (by decide +kernel))

end InlineScript
