import Mulp.Core.Task

/-! Registries and the trees they render (`core/registry.mbt`, `core/tree.mbt`). -/
namespace Mulp.Core

structure Registry where
  name : String
  tasks : List Task

namespace Registry

/-- `Registry::find`: the first task of that name. -/
def find (self : Registry) (name : String) : Option Task :=
  self.tasks.find? fun item => item.name == name

def require (self : Registry) (name : String) : Except MulpError Task :=
  match self.find name with
  | some found => .ok found
  | none => .error (.taskNotFound name)

def names (self : Registry) : List String := self.tasks.map Task.name

end Registry

inductive TreeNode where
  | mk (name : String) (children : List TreeNode)

mutual
def taskTree : Task → TreeNode
  | .newTask _ name _ => .mk name []
  | .series _ tasks => .mk "series" (taskTrees tasks)
  | .parallel _ tasks => .mk "parallel" (taskTrees tasks)
  | .taskFrom _ name source => .mk name [taskTree source]

def taskTrees : List Task → List TreeNode
  | [] => []
  | task :: rest => taskTree task :: taskTrees rest
end

def Registry.tree (self : Registry) : TreeNode := .mk "root" (taskTrees self.tasks)

mutual
/-- `render_tree`: the lines it pushes. -/
def renderTree (indent : String) : TreeNode → List String
  | .mk name children => (indent ++ name) :: renderTrees (indent ++ "  ") children

def renderTrees (indent : String) : List TreeNode → List String
  | [] => []
  | child :: rest => renderTree indent child ++ renderTrees indent rest
end

def TreeNode.render (self : TreeNode) : String := "\n".intercalate (renderTree "" self)

def jsonEscape (s : String) : String :=
  "".intercalate <| s.toList.map fun c =>
    if c = '"' then "\\\"" else if c = '\\' then "\\\\" else c.toString

mutual
def treeNodeToJson (nodeType : String) : TreeNode → String
  | .mk name children =>
      "\x7b\"label\":\"" ++ jsonEscape name ++ "\",\"type\":\"" ++ nodeType ++ "\",\"nodes\":" ++
        "[" ++ ",".intercalate (childrenToJson children) ++ "]" ++ "\x7d"

def childrenToJson : List TreeNode → List String
  | [] => []
  | child :: rest => treeNodeToJson "dep" child :: childrenToJson rest
end

def tasksJsonFromTree : TreeNode → String
  | .mk _ children =>
      "\x7b\"label\":\"Tasks\",\"nodes\":[" ++ ",".intercalate (children.map (treeNodeToJson "task")) ++
        "]\x7d"

def Registry.tasksJson (self : Registry) : String := tasksJsonFromTree self.tree

theorem taskTrees_eq_map (tasks : List Task) : taskTrees tasks = tasks.map taskTree := by
  induction tasks with
  | nil => rfl
  | cons task rest ih => rw [taskTrees, ih, List.map_cons]

/-- A task's node has its name and the nodes of its children. -/
theorem taskTree_eq (t : Task) : taskTree t = .mk t.name (t.children.map taskTree) := by
  cases t with
  | newTask => rfl
  | series _ tasks => rw [taskTree, taskTrees_eq_map, Task.name, Task.children]
  | parallel _ tasks => rw [taskTree, taskTrees_eq_map, Task.name, Task.children]
  | taskFrom => rfl

end Mulp.Core
