import RuleFlow.Text.Basic

/-!
# Kinds of parsers

A parser reads the files of one technology. The kinds are listed in the order in which everything that goes kind by
kind takes them.
-/

namespace RuleFlow.Parser

/-- The technology whose files a parser reads. -/
inductive Kind where
  | jsp
  | struts
  | struts2
  | strutsAction
  | corba
  | java
  | python
  deriving DecidableEq

namespace Kind

/-- Every kind, in order. -/
def all : List Kind := [jsp, struts, struts2, strutsAction, corba, java, python]

/-- The position of a kind in the order. -/
def rank : Kind → Nat
  | jsp => 0
  | struts => 1
  | struts2 => 2
  | strutsAction => 3
  | corba => 4
  | java => 5
  | python => 6

def name : Kind → Text
  | jsp => "jsp"
  | struts => "struts"
  | struts2 => "struts2"
  | strutsAction => "struts_action"
  | corba => "corba"
  | java => "java"
  | python => "python"

def ofName? (t : Text) : Option Kind := all.find? (·.name == t)

end Kind

/-- A name that no kind of parser has. -/
structure UnknownKind where
  name : Text

def UnknownKind.message (e : UnknownKind) : Text := "Unknown parser type: " ++ e.name

def Kind.read (t : Text) : Except UnknownKind Kind :=
  match Kind.ofName? t with
  | some kind => .ok kind
  | none => .error ⟨t⟩

/-- The files of each kind; a kind without files has the empty list. -/
abbrev FilesByKind := Kind → List Text

namespace FilesByKind

/-- No file of any kind. -/
def none : FilesByKind := fun _ => []

/-- The kinds that have a file, in order. -/
def kinds (files : FilesByKind) : List Kind := Kind.all.filter fun k => !(files k).isEmpty

/-- The kinds that have a file, each with its files. -/
def toList (files : FilesByKind) : List (Kind × List Text) := files.kinds.map fun k => (k, files k)

end FilesByKind

end RuleFlow.Parser
