import Monkey.Value

/-!
The state of a running program. Scopes are numbered in the order in which they were opened, so the
scope that encloses another has the smaller number; a closure shares its scope by number, and what
is bound there later is seen through every closure. Beside the scopes the machine holds the lines
printed so far and the next unused identity.
-/

namespace Monkey

/-- The newest binding of a name comes first. -/
structure Scope where
  bindings : List (String × Value)
  outer : Option ScopeId

structure Machine where
  scopes : Array Scope
  printed : Array String
  nextIdentity : Identity

namespace Machine

def empty : Machine := ⟨#[], #[], 0⟩

/-- Opens a scope inside another, or a global one. -/
def openScope (m : Machine) (outer : Option ScopeId) (bindings : List (String × Value)) :
    ScopeId × Machine :=
  (m.scopes.size, { m with scopes := m.scopes.push ⟨bindings, outer⟩ })

/-- The number of the scope that `initial` starts with. -/
def globalScope : ScopeId := 0

/-- A machine with one global scope in which nothing is bound. -/
def initial : Machine := (empty.openScope none []).2

/-- The lines printed so far, and the machine ready to print others. -/
def takePrinted (m : Machine) : List String × Machine :=
  (m.printed.toList, { m with printed := #[] })

/-- Binds a name in one scope, whatever the enclosing scopes hold. -/
def assign (m : Machine) (scope : ScopeId) (x : String) (v : Value) : Machine :=
  { m with scopes := m.scopes.modify scope fun s => { s with bindings := (x, v) :: s.bindings } }

/-- The value of a name in a scope or the nearest enclosing one that binds it. Enclosing scopes are
older, and a link to any other scope is not followed. -/
def lookup (m : Machine) (scope : ScopeId) (x : String) : Option Value :=
  match m.scopes[scope]? with
  | none => none
  | some s =>
    match s.bindings.lookup x, s.outer with
    | some v, _ => some v
    | none, none => none
    | none, some outer => if outer < scope then m.lookup outer x else none
termination_by scope

theorem lookup_of_bound {m : Machine} {scope : ScopeId} {x : String} {s : Scope} {v : Value}
    (hs : m.scopes[scope]? = some s) (hv : s.bindings.lookup x = some v) :
    m.lookup scope x = some v := by
  rw [lookup, hs]
  simp only [hv]

theorem lookup_of_unbound {m : Machine} {scope outer : ScopeId} {x : String} {s : Scope}
    (hs : m.scopes[scope]? = some s) (hx : s.bindings.lookup x = none) (ho : s.outer = some outer)
    (hlt : outer < scope) : m.lookup scope x = m.lookup outer x := by
  rw [lookup, hs]
  simp only [hx, ho, if_pos hlt]

def newIdentity (m : Machine) : Identity × Machine :=
  (m.nextIdentity, { m with nextIdentity := m.nextIdentity + 1 })

def print (m : Machine) (line : String) : Machine := { m with printed := m.printed.push line }

@[simp] theorem scopes_newIdentity (m : Machine) : m.newIdentity.2.scopes = m.scopes := rfl

@[simp] theorem scopes_print (m : Machine) (line : String) : (m.print line).scopes = m.scopes := rfl

@[simp] theorem size_scopes_openScope (m : Machine) (outer : Option ScopeId)
    (bindings : List (String × Value)) :
    (m.openScope outer bindings).2.scopes.size = m.scopes.size + 1 := by
  simp [openScope]

@[simp] theorem size_scopes_assign (m : Machine) (scope : ScopeId) (x : String) (v : Value) :
    (m.assign scope x v).scopes.size = m.scopes.size := by
  simp [assign]

@[simp] theorem getElem?_scopes_assign (m : Machine) (scope i : ScopeId) (x : String) (v : Value) :
    (m.assign scope x v).scopes[i]? =
      if scope = i then m.scopes[i]?.map fun s => { s with bindings := (x, v) :: s.bindings }
      else m.scopes[i]? := by
  simp only [assign, Array.getElem?_modify]

end Machine

end Monkey
