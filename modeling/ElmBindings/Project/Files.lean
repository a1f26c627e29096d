import ElmBindings.Project.Path

set_option autoImplicit false

/-! # Files

What a run needs to do with files is the interface `FileStore`, in any monad. A `FileTree` is a tree of
files in memory, without links, that offers this interface as a state. -/

namespace ElmBindings

/-! ## The interface -/

/-- Access to files by path. -/
structure FileStore (m : Type → Type) where
  /-- Whether there is anything at a path. -/
  isPresent : String → m Bool
  /-- The text of a file, if it is one and holds text. -/
  readText : String → m (Option String)
  /-- Where a path leads, as the names from the top. -/
  location : String → m (Option (List String))
  /-- Everything below a directory, each as the names that lead there. -/
  descendants : String → m (List (List String))
  /-- Writes a file in a directory that is there, and says whether that was possible. -/
  writeText : String → String → m Bool
  /-- Calls the formatter for Elm texts. -/
  format : List String → m Unit

/-! ## Trees -/

/-- What can stand at a place of a tree. -/
inductive FileNode
  | directory
  | text (content : String)
  /-- A file that holds no text. -/
  | binary
  deriving DecidableEq

/-- A tree of files: what stands at each place, by the names that lead there. The top is a
directory. -/
structure FileTree where
  entries : List (List String × FileNode) := []

namespace FileTree

/-- What stands at a place. -/
def get? (tree : FileTree) (place : List String) : Option FileNode :=
  if place = [] then some .directory else tree.entries.lookup place

/-- Whether there is a directory at a place. -/
def isDirectory (tree : FileTree) (place : List String) : Bool :=
  tree.get? place = some .directory

/-- Entries with a new node at a place. -/
def putEntry (place : List String) (node : FileNode) :
    List (List String × FileNode) → List (List String × FileNode)
  | [] => [(place, node)]
  | (other, old) :: entries =>
    if other = place then (place, node) :: entries else (other, old) :: putEntry place node entries

/-- The tree with a new node at a place. -/
def put (tree : FileTree) (place : List String) (node : FileNode) : FileTree :=
  ⟨putEntry place node tree.entries⟩

/-- What stands at the place of a new entry. -/
theorem lookup_putEntry_self (place : List String) (node : FileNode)
    (entries : List (List String × FileNode)) :
    (putEntry place node entries).lookup place = some node := by
  induction entries with
  | nil => simp [putEntry]
  | cons entry entries ih =>
    obtain ⟨other, old⟩ := entry
    rw [putEntry]
    split
    · simp
    · next hne => simp [List.lookup_cons, beq_false_of_ne (Ne.symm hne), ih]

/-- A new entry changes no other place. -/
theorem lookup_putEntry_of_ne {place elsewhere : List String} (node : FileNode)
    (entries : List (List String × FileNode)) (h : elsewhere ≠ place) :
    (putEntry place node entries).lookup elsewhere = entries.lookup elsewhere := by
  induction entries with
  | nil => simp [putEntry, List.lookup_cons, beq_false_of_ne h]
  | cons entry entries ih =>
    obtain ⟨other, old⟩ := entry
    rw [putEntry]
    split
    · next heq => subst heq; simp [List.lookup_cons, beq_false_of_ne h]
    · simp [List.lookup_cons, ih]

/-- What stands at a place that is not the top after it is put there. -/
theorem get?_put_self (tree : FileTree) {place : List String} (node : FileNode) (h : place ≠ []) :
    (tree.put place node).get? place = some node := by
  simp [get?, put, h, lookup_putEntry_self]

/-- What stands at any other place stays. -/
theorem get?_put_of_ne (tree : FileTree) {place elsewhere : List String} (node : FileNode)
    (h : elsewhere ≠ place) : (tree.put place node).get? elsewhere = tree.get? elsewhere := by
  simp [get?, put, lookup_putEntry_of_ne node tree.entries h]

/-- The tree without what stands at a place and below it. -/
def remove (tree : FileTree) (place : List String) : FileTree :=
  ⟨tree.entries.filter fun (other, _) => !place.isPrefixOf other⟩

/-! ### Paths in a tree -/

/-- The place that one segment of a path leads to from a directory. -/
def step (tree : FileTree) (place : List String) (segment : String) : Option (List String) :=
  if !tree.isDirectory place then none
  else if segment = "" ∨ segment = "." then some place
  else if segment = ".." then some place.dropLast
  else if (tree.get? (place ++ [segment])).isSome then some (place ++ [segment])
  else none

/-- The place that the segments of a path lead to. -/
def walk (tree : FileTree) (segments : List String) : Option (List String) :=
  segments.foldlM tree.step []

/-- The place that a path leads to. -/
def locate (tree : FileTree) (path : String) : Option (List String) :=
  if path = "" then none else tree.walk (Path.segments path)

/-- The place where a file of a path is written: a name in a directory that is there. -/
def target (tree : FileTree) (path : String) : Option (List String) :=
  match (Path.segments path).getLast?.bind Path.Component.ofSegment? with
  | some (.normal name) =>
    match tree.walk (Path.segments path).dropLast with
    | some place =>
      if tree.isDirectory place && !tree.isDirectory (place ++ [name]) then some (place ++ [name])
      else none
    | none => none
  | _ => none

/-- The text of the file at a path. -/
def readText (tree : FileTree) (path : String) : Option String :=
  match (tree.locate path).bind tree.get? with
  | some (.text content) => some content
  | _ => none

/-- The tree with a file written. -/
def writeText (tree : FileTree) (path content : String) : Option FileTree :=
  (tree.target path).map fun place => tree.put place (.text content)

/-- Everything below the directory at a path. -/
def descendants (tree : FileTree) (path : String) : List (List String) :=
  match tree.locate path with
  | some place =>
    if tree.isDirectory place then
      tree.entries.filterMap fun (other, _) =>
        if place.isPrefixOf other && place.length < other.length then
          some (other.drop place.length)
        else none
    else []
  | none => []

/-! ### Making a tree -/

/-- The tree and the place after one more segment of a path. A directory that is missing is made. -/
def enter : FileTree × List String → String → FileTree × List String
  | (tree, place), segment =>
    if segment = "" ∨ segment = "." then (tree, place)
    else if segment = ".." then (tree, place.dropLast)
    else
      let inner := place ++ [segment]
      (if tree.isDirectory inner then tree else tree.put inner .directory, inner)

/-- The tree with all directories that a path leads through. -/
def makeDirectories (tree : FileTree) (path : String) : FileTree :=
  ((Path.segments path).foldl enter (tree, [])).1

/-- The tree with a node at the end of a path, in directories that are made where they are missing. -/
def plant (tree : FileTree) (path : String) (node : FileNode) : FileTree :=
  let segments := Path.segments path
  let (tree, place) := segments.dropLast.foldl enter (tree, [])
  tree.put (place ++ segments.getLast?.toList) node

/-- The tree without what a path leads to. -/
def removePath (tree : FileTree) (path : String) : FileTree :=
  match tree.locate path with
  | some place => tree.remove place
  | none => tree

/-! ### Access -/

/-- The tree as a file store, with a formatter that changes it. -/
def store (formatter : List String → FileTree → FileTree) : FileStore (StateM FileTree) where
  isPresent path := do return ((← get).locate path).isSome
  readText path := do return (← get).readText path
  location path := do return (← get).locate path
  descendants path := do return (← get).descendants path
  writeText path content := do
    match (← get).writeText path content with
    | some tree =>
      set tree
      return true
    | none => return false
  format arguments := modify (formatter arguments)

end FileTree

end ElmBindings
