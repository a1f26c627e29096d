set_option autoImplicit false

/-! # Local names

Elm refuses a local name that shadows a top-level value or an enclosing local one. A scope records what
is taken, and gives out the first free name of a numbered series. It is used as a stack: what binds
names releases them where they go out of sight. -/

namespace ElmBindings

/-- The names in sight while a declaration is written. -/
structure Scope where
  /-- The top-level values of the module. -/
  reserved : List String := []
  /-- The local names, the latest first. -/
  bound : List String := []
  deriving DecidableEq, Inhabited

namespace Scope

/-- Whether a name is a top-level value or already bound. -/
def isTaken (scope : Scope) (name : String) : Bool :=
  scope.reserved.contains name || scope.bound.contains name

/-- The candidates for a local name: `base`, `base1`, `base2` and so on. -/
def candidate (base : String) : Nat → String
  | 0 => base
  | n + 1 => base ++ toString (n + 1)

/-- The first candidate that is free. One more candidate than there are names is enough to find it. -/
def fresh (scope : Scope) (base : String) : String :=
  let candidates := List.range (scope.reserved.length + scope.bound.length + 1)
  candidate base ((candidates.find? fun n => !scope.isTaken (candidate base n)).getD 0)

/-- The scope with one more local name. -/
def push (scope : Scope) (name : String) : Scope :=
  { scope with bound := name :: scope.bound }

/-- The scope without its latest `count` local names. -/
def release (scope : Scope) (count : Nat) : Scope :=
  { scope with bound := scope.bound.drop count }

/-- Binds a fresh name. -/
def bind (scope : Scope) (base : String) : String × Scope :=
  (scope.fresh base, scope.push (scope.fresh base))

/-- Binds one fresh name after the other. -/
def bindAll (scope : Scope) : List String → List String × Scope
  | [] => ([], scope)
  | base :: bases =>
    let (name, inner) := scope.bind base
    let (names, innermost) := inner.bindAll bases
    (name :: names, innermost)

theorem release_push (scope : Scope) (name : String) : (scope.push name).release 1 = scope := rfl

@[simp]
theorem reserved_push (scope : Scope) (name : String) :
    (scope.push name).reserved = scope.reserved := rfl

@[simp]
theorem bound_push (scope : Scope) (name : String) :
    (scope.push name).bound = name :: scope.bound := rfl

@[simp]
theorem length_bindAll (scope : Scope) (bases : List String) :
    (scope.bindAll bases).1.length = bases.length := by
  induction bases generalizing scope with
  | nil => rfl
  | cons base bases ih => simp [bindAll, ih]

end Scope

/-! ## Writing in a scope -/

/-- What is written while local names are bound and released. -/
abbrev Scoped := StateM Scope

namespace Scoped

/-- Binds a fresh name. -/
def take (base : String) : Scoped String :=
  modifyGet (·.bind base)

/-- Binds one fresh name after the other. -/
def takeAll (bases : List String) : Scoped (List String) :=
  modifyGet (·.bindAll bases)

/-- Releases the latest `count` names. -/
def release (count : Nat) : Scoped Unit :=
  modify (·.release count)

/-- Writes something in which a fresh name is in sight. -/
def under {α : Type} (base : String) (body : String → Scoped α) : Scoped α := do
  let name ← take base
  let written ← body name
  release 1
  return written

/-- Writes something in which one fresh name for each base is in sight. -/
def underAll {α : Type} (bases : List String) (body : List String → Scoped α) : Scoped α := do
  let names ← takeAll bases
  let written ← body names
  release names.length
  return written

/-- What is written in a scope. -/
def output {α : Type} (written : Scoped α) (scope : Scope) : α :=
  (written.run scope).1

end Scoped

end ElmBindings
