import RuleFlow.Parser.Kind

/-!
# Parser descriptors

A descriptor says which files a kind of parser reads, which kinds run before it and how long and how often it may try.
-/

namespace RuleFlow.Parser

/-- The order in which the parsers of one phase are started. -/
inductive Priority where
  | high
  | medium
  | low
  deriving DecidableEq

namespace Priority

def all : List Priority := [high, medium, low]

def name : Priority → Text
  | high => "high"
  | medium => "medium"
  | low => "low"

end Priority

structure Descriptor where
  kind : Kind
  patterns : List Text
  dependsOn : List Kind := []
  priority : Priority := .medium
  /-- Milliseconds that one file may take. -/
  timeout : Int := 300000
  /-- Attempts after the first one. -/
  maxRetries : Int := 3

/-- Settings that replace those of a descriptor where they are given. -/
structure Limits where
  timeout : Option Int := none
  maxRetries : Option Int := none

/-- The descriptors that come with the library. -/
def Descriptor.defaults : List Descriptor :=
  [{ kind := .jsp, patterns := ["*.jsp", "*.jspx"], priority := .high },
   { kind := .struts, patterns := ["struts-config.xml", "validation.xml"], priority := .high },
   { kind := .struts2, patterns := ["struts.xml"], priority := .high },
   { kind := .strutsAction, patterns := ["*Action.java"], dependsOn := [.struts, .struts2] },
   { kind := .corba, patterns := ["*.idl"], priority := .high },
   { kind := .python, patterns := ["*.py"], priority := .low }]

end RuleFlow.Parser
