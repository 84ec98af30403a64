import InlineScript.Reading

/-! An edit session: a buffer of text and the settings it is read with, changed by
one edit at a time. Edits count characters, and a place behind the end of the
buffer means its end. -/

namespace InlineScript

inductive Edit where
  | append (text : Text)
  | insert (place : Nat) (text : Text)
  | delete (place count : Nat)
  | clear
  /-- Change the settings that are given and keep the others. -/
  | configure (allowCodeEscaping strict : Option Bool)

structure Session where
  buffer : Text := []
  settings : Settings := {}

namespace Session

def apply (s : Session) : Edit → Session
  | .append text => { s with buffer := s.buffer ++ text }
  | .insert place text => { s with buffer := s.buffer.take place ++ text ++ s.buffer.drop place }
  | .delete place count => { s with buffer := s.buffer.take place ++ s.buffer.drop (place + count) }
  | .clear => { s with buffer := [] }
  | .configure allowCodeEscaping strict =>
    { s with settings :=
      { allowCodeEscaping := allowCodeEscaping.getD s.settings.allowCodeEscaping
        strict := strict.getD s.settings.strict } }

def states (s : Session) : List Edit → List Session
  | [] => []
  | edit :: edits => s.apply edit :: states (s.apply edit) edits

def tree (s : Session) : Except Grammar.SyntaxError Node := parse s.settings s.buffer

end Session

end InlineScript
