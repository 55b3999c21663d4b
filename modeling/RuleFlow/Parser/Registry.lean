import RuleFlow.Parser.Descriptor
import RuleFlow.Parser.Outcome

/-!
# The registry of parsers

For each kind a registry holds at most one descriptor and at most one factory. An operation that is refused says why;
a refused descriptor or factory leaves the registry as it was, while refused limits may have taken effect in part
(`Registry.limit`).
-/

namespace RuleFlow.Parser

/-- Descriptors and factories by kind. -/
structure Registry where
  descriptor? : Kind → Option Descriptor := fun _ => none
  factory? : Kind → Option Factory := fun _ => none

/-- Why a registry refuses an operation or has no answer. -/
inductive Registry.Error where
  | noPattern (kind : Kind)
  | timeoutNotPositive (kind : Kind)
  | retriesNegative (kind : Kind)
  | descriptorExists (kind : Kind)
  | factoryMissing (kind : Kind)
  | factoryExists (kind : Kind)
  | unknownDescriptor (kind : Kind) (registered : List Kind)
  | unknownParser (kind : Kind) (registered : List Kind)
  /-- The factory ended without a parser. -/
  | nothingMade (kind : Kind)
  /-- The factory failed. -/
  | factoryFailed (message : Text)

/-- The names of the kinds, or a word for their absence. -/
def Kind.listing (kinds : List Kind) : Text :=
  if kinds.isEmpty then "none" else Text.join ", " (kinds.map Kind.name)

def Registry.Error.message : Registry.Error → Text
  | noPattern kind => "Parser '" ++ kind.name ++ "' must declare at least one file pattern"
  | timeoutNotPositive kind => "Parser '" ++ kind.name ++ "' timeout must be positive"
  | retriesNegative kind => "Parser '" ++ kind.name ++ "' max_retries cannot be negative"
  | descriptorExists kind => "Parser descriptor '" ++ kind.name ++ "' already registered"
  | factoryMissing kind => "Factory for '" ++ kind.name ++ "' cannot be null"
  | factoryExists kind => "Parser with type '" ++ kind.name ++ "' already registered"
  | unknownDescriptor kind registered =>
    "Unknown parser descriptor '" ++ kind.name ++ "'. Registered: " ++ Kind.listing registered
  | unknownParser kind registered =>
    "Parser instance not found: " ++ kind.name ++ ". Registered: " ++ Kind.listing registered
  | nothingMade kind => "Factory for parser '" ++ kind.name ++ "' returned null"
  | factoryFailed message => message

/-- The function with its value at one kind replaced. -/
def Kind.update {α : Type} (f : Kind → α) (kind : Kind) (value : α) : Kind → α :=
  fun k => if k = kind then value else f k

namespace Registry

/-! ## Look-up -/

/-- The kinds with a descriptor, in order. -/
def described (r : Registry) : List Kind := Kind.all.filter fun k => (r.descriptor? k).isSome

/-- The kinds with a factory, in order. -/
def available (r : Registry) : List Kind := Kind.all.filter fun k => (r.factory? k).isSome

/-- The descriptors in the order of their kinds. -/
def descriptors (r : Registry) : List Descriptor := Kind.all.filterMap r.descriptor?

def descriptor (r : Registry) (kind : Kind) : Except Error Descriptor :=
  match r.descriptor? kind with
  | some d => .ok d
  | none => .error (.unknownDescriptor kind r.described)

/-- A new parser of the kind, from the call of its factory that follows `earlier` others. -/
def make (r : Registry) (kind : Kind) (earlier : Nat := 0) : Except Error Parser :=
  match r.factory? kind with
  | none => .error (.unknownParser kind r.available)
  | some factory =>
    match factory.call earlier with
    | .parser parser => .ok parser
    | .nothing => .error (.nothingMade kind)
    | .failure message => .error (.factoryFailed message)

/-! ## Changes -/

/-- Replaces what is stored under a kind. -/
def setDescriptor (r : Registry) (kind : Kind) (d : Descriptor) : Registry :=
  { r with descriptor? := Kind.update r.descriptor? kind (some d) }

/-- Adds a descriptor that reads some file, has time, counts retries from zero and is the first of its kind. -/
def describe (r : Registry) (d : Descriptor) : Except Error Registry :=
  if d.patterns.isEmpty then .error (.noPattern d.kind)
  else if d.timeout ≤ 0 then .error (.timeoutNotPositive d.kind)
  else if d.maxRetries < 0 then .error (.retriesNegative d.kind)
  else if (r.descriptor? d.kind).isSome then .error (.descriptorExists d.kind)
  else .ok (r.setDescriptor d.kind d)

/-- Adds a factory that is there and is the first of its kind. -/
def provide (r : Registry) (kind : Kind) (factory? : Option Factory) : Except Error Registry :=
  match factory? with
  | none => .error (.factoryMissing kind)
  | some factory =>
    if (r.factory? kind).isSome then .error (.factoryExists kind)
    else .ok { r with factory? := Kind.update r.factory? kind (some factory) }

/-- Sets the time limit of a descriptor, if one is given and positive. -/
def limitTimeout (kind : Kind) (d : Descriptor) : Option Int → Except Error Descriptor
  | none => .ok d
  | some t => if t ≤ 0 then .error (.timeoutNotPositive kind) else .ok { d with timeout := t }

/-- Sets the retries of a descriptor, if a number is given and not negative. -/
def limitRetries (kind : Kind) (d : Descriptor) : Option Int → Except Error Descriptor
  | none => .ok d
  | some n => if n < 0 then .error (.retriesNegative kind) else .ok { d with maxRetries := n }

/-- Applies limits to a descriptor: first the time limit, then the retries. The registry that comes back holds what was
applied before a refusal, so that a time limit stays when the retries next to it are refused. -/
def limit (r : Registry) (kind : Kind) (limits : Limits) : Registry × Option Error :=
  match r.descriptor? kind with
  | none => (r, some (.unknownDescriptor kind r.described))
  | some d =>
    match limitTimeout kind d limits.timeout with
    | .error e => (r, some e)
    | .ok timed =>
      match limitRetries kind timed limits.maxRetries with
      | .error e => (r.setDescriptor kind timed, some e)
      | .ok limited => (r.setDescriptor kind limited, none)

/-- Adds descriptors one after the other, up to the first that is refused. -/
def describeAll (r : Registry) (ds : List Descriptor) : Except Error Registry := ds.foldlM describe r

/-- A registry that holds the default descriptors and no factory. None of them would be refused by `describe`. -/
def withDefaults : Registry := Descriptor.defaults.foldl (fun r d => r.setDescriptor d.kind d) {}

end Registry

end RuleFlow.Parser
