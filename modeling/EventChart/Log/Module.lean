import EventChart.Entry.Basic
/-!
# The module tree

Modules are created by `MC` records.  A later record for an id replaces the
earlier one, and the modules keep the order in which their ids first
appeared.  A module whose parent id names another created module is that
module's child; every other module is a root.

Full paths are given from the roots down: a root's path is its name, a
child's is its parent's path, a dot and its name.  Children of a module
reached from a root are listed by id; a module on a cycle of parents is
reached from no root, keeps the empty path, and lists its children in
creation order.  `ModuleTree.walk` lists the modules reached from the roots,
parents before children, each with its depth.
-/

namespace EventChart

/-- A node of the module tree. -/
structure Module where
  id : Int
  parentId : Int
  name : String
  fullPath : String
  className : String
  typeName : String
  compound : Bool
  parent : Option Int
  children : List Int
deriving DecidableEq, Repr, Inhabited

namespace Module

/-- A module known only by its id. -/
def unknown (id : Int) : Module := ⟨id, -1, "", "", "", "", false, none, []⟩

/-- The attributes a filter expression sees; type and class only when set. -/
def attribute? (m : Module) (name : String) : Option String :=
  if name = "id" then some (toString m.id)
  else if name = "name" then some m.name
  else if name = "fullname" ∨ name = "fullpath" then some m.fullPath
  else if name = "type" then (if m.typeName = "" then none else some m.typeName)
  else if name = "class" ∨ name = "classname" then (if m.className = "" then none else some m.className)
  else none

/-- A module as a subject of filter expressions; bare patterns test its full
path. -/
def subject (m : Module) : Match.Subject := ⟨m.fullPath, m.attribute?⟩

end Module

/-- The modules of a log, in order of first creation, and the roots. -/
structure ModuleTree where
  modules : List Module
  roots : List Int
deriving Inhabited

/-- The last record of each id, in order of the id's first record. -/
def latestRecords (created : List ModuleCreated) : List ModuleCreated :=
  let ids := created.foldl (fun acc mc => if acc.contains mc.id then acc else acc ++ [mc.id]) []
  ids.filterMap fun id => (created.reverse.find? (·.id == id))

/-- A full path: the parent's path, a dot and the name; below an empty path
the name stands alone. -/
def joinPath (pre name : String) : String := if pre = "" then name else pre ++ "." ++ name

/-- The modules reached from `id` within `height` levels, parents before
children, each with the value `next` hands down from its parent's; `id`
itself has `a`. -/
def descend {α : Type} (kids : Int → List Int) (next : α → Int → α) : Nat → Int → α → List (Int × α)
  | 0, _, _ => []
  | h + 1, id, a => (id, a) :: (kids id).flatMap fun c => descend kids next h c (next a c)

namespace ModuleTree

/-- The parent of a record among `recs`: its parent id, when that names
another module of `recs`. -/
def parentIn (recs : List ModuleCreated) (mc : ModuleCreated) : Option Int :=
  if recs.any (·.id == mc.parentId) ∧ mc.parentId ≠ mc.id then some mc.parentId else none

/-- The children of `id` among `recs`, in the order of `recs`. -/
def childrenIn (recs : List ModuleCreated) (id : Int) : List Int :=
  (recs.filter (parentIn recs · == some id)).map (·.id)

/-- The name of `id` among `recs`. -/
def nameIn (recs : List ModuleCreated) (id : Int) : String :=
  ((recs.find? (·.id == id)).map (·.fullName)).getD ""

/-- The children of `id` among `recs`, by id. -/
def sortedChildrenIn (recs : List ModuleCreated) (id : Int) : List Int :=
  (childrenIn recs id).mergeSort (· ≤ ·)

/-- The modules of `recs` without a parent among them, in the order of
`recs`. -/
def rootsIn (recs : List ModuleCreated) : List Int := (recs.filter (parentIn recs · == none)).map (·.id)

/-- The full paths of the modules reached from the roots of `recs`.  A chain
of parents within `recs` is at most as long as `recs`, so descending that
many levels reaches every module a root reaches. -/
def pathsIn (recs : List ModuleCreated) : List (Int × String) :=
  (rootsIn recs).flatMap fun r =>
    descend (sortedChildrenIn recs) (fun pre c => joinPath pre (nameIn recs c)) recs.length r (nameIn recs r)

/-- The module of a record, given the paths of the modules reached from the
roots: such a module lists its children by id, any other keeps the empty
path and lists its children in the order of `recs`. -/
def moduleIn (recs : List ModuleCreated) (paths : List (Int × String)) (mc : ModuleCreated) : Module :=
  match paths.find? (·.1 == mc.id) with
  | some (_, path) =>
    ⟨mc.id, mc.parentId, mc.fullName, path, mc.className, mc.typeName, mc.compound, parentIn recs mc,
      sortedChildrenIn recs mc.id⟩
  | none =>
    ⟨mc.id, mc.parentId, mc.fullName, "", mc.className, mc.typeName, mc.compound, parentIn recs mc,
      childrenIn recs mc.id⟩

/-- The tree of a list of module records. -/
def build (created : List ModuleCreated) : ModuleTree :=
  let recs := latestRecords created
  let paths := pathsIn recs
  ⟨recs.map (moduleIn recs paths), rootsIn recs⟩

/-- The module with an id. -/
def find? (t : ModuleTree) (id : Int) : Option Module := t.modules.find? (·.id == id)

/-- The number of modules. -/
def size (t : ModuleTree) : Nat := t.modules.length

/-- The children of the module with an id. -/
def children (t : ModuleTree) (id : Int) : List Int := ((t.find? id).map (·.children)).getD []

/-- Every module reached from the roots with its depth, parents before
children. -/
def walk (t : ModuleTree) : List (Int × Nat) :=
  t.roots.flatMap fun r => descend t.children (fun d _ => d + 1) t.modules.length r 0

end ModuleTree

end EventChart
