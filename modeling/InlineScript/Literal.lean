import InlineScript.Role
import InlineScript.Text
import InlineScript.Text.Blank

/-! Literal runs: the longest stretch that holds no significant character.
A directive's name is the part before the first blank of the run that would
stand inside a group, so a name ends at the same characters in both contexts. -/

namespace InlineScript

/-- The longest front part in which nothing stops a run. -/
def literal (ctx : Context) (t : Text) : Text := t.takeWhile fun c => !ctx.stops c

/-- The name that a directive has when `t` follows its marker; it may be empty. -/
def nameRun (t : Text) : Text := (literal .inside t).takeWhile fun c => !isBlank c

theorem literal_prefix_self (ctx : Context) (t : Text) : literal ctx t <+: t :=
  List.takeWhile_prefix _

theorem nameRun_prefix_self (t : Text) : nameRun t <+: t := by
  have inRun : nameRun t <+: literal .inside t := List.takeWhile_prefix _
  exact inRun.trans (literal_prefix_self .inside t)

theorem literal_append_drop (ctx : Context) (t : Text) :
    literal ctx t ++ t.drop (literal ctx t).length = t :=
  List.prefix_iff_eq_append.mp (literal_prefix_self ctx t)

theorem nameRun_append_drop (t : Text) : nameRun t ++ t.drop (nameRun t).length = t :=
  List.prefix_iff_eq_append.mp (nameRun_prefix_self t)

theorem literal_cons {ctx : Context} {c : Char} (h : ctx.stops c = false) (cs : Text) :
    literal ctx (c :: cs) = c :: literal ctx cs := by
  simp [literal, h]

theorem not_stops_of_mem_literal {ctx : Context} {t : Text} {c : Char} (h : c ∈ literal ctx t) :
    ctx.stops c = false := by
  have := List.all_takeWhile (l := t) (p := fun c => !ctx.stops c)
  simpa using List.all_eq_true.mp this c h

end InlineScript
