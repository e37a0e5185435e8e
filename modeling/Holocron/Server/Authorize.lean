import Holocron.Server.Handlers

/-! Who may do what (broker/internal/auth): the scopes of a principal, `verb:resource[*]`, and the authorizer that walks
    them. -/

namespace Holocron.Server
open Lib

structure Principal where
  subject : Bytes
  scopes : List Bytes
  deriving DecidableEq, Repr

def Principal.isAnonymous (p : Principal) : Bool := decide (p.subject = [])

def Action.verb : Action → Bytes
  | .produce => utf8 "produce"
  | .consume => utf8 "consume"
  | .admin => utf8 "admin"

structure Scope where
  verb : Bytes
  pattern : Bytes
  wildcard : Bool
  deriving DecidableEq, Repr

inductive ScopeError where
  | empty
  | whitespace
  | bareWildcard
  | emptyVerb
  | verbWildcard
  | trailingColon
  | secondColon
  | innerWildcard
  deriving DecidableEq, Repr

def colon : UInt8 := 58
def star : UInt8 := 42

def cut (sep : UInt8) (s : Bytes) : Option (Bytes × Bytes) :=
  if sep ∈ s then some (s.takeWhile (· ≠ sep), (s.dropWhile (· ≠ sep)).drop 1) else none

def parseScope (s : Bytes) : Except ScopeError Scope :=
  if s = [] then .error .empty
  else if 32 ∈ s ∨ 9 ∈ s ∨ 10 ∈ s then .error .whitespace
  else
    match cut colon s with
    | none => if star ∈ s then .error .bareWildcard else .ok ⟨s, [], false⟩
    | some (verb, pattern) =>
      if verb = [] then .error .emptyVerb
      else if star ∈ verb then .error .verbWildcard
      else if pattern = [] then .error .trailingColon
      else if colon ∈ pattern then .error .secondColon
      else if pattern = [star] then .ok ⟨verb, [], true⟩
      else if pattern.getLast? = some star then
        if star ∈ pattern.dropLast then .error .innerWildcard else .ok ⟨verb, pattern.dropLast, true⟩
      else if star ∈ pattern then .error .innerWildcard
      else .ok ⟨verb, pattern, false⟩

def Scope.matches (s : Scope) (action : Action) (resource : Bytes) : Bool :=
  if s.verb ≠ action.verb then false
  else if s.wildcard then s.pattern.isPrefixOf resource
  else decide (resource = s.pattern)

/-- A scope that does not parse grants nothing. -/
def grants (raw : Bytes) (action : Action) (resource : Bytes) : Bool :=
  match parseScope raw with
  | .error _ => false
  | .ok s => s.matches action resource

def authorize (p : Principal) (action : Action) (resource : Bytes) : Bool :=
  if p.isAnonymous then false else p.scopes.any fun raw => grants raw action resource

end Holocron.Server
