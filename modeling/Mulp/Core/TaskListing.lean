import Mathlib.Data.List.Forall2
import Mathlib.Logic.Relation
import Mulp.Core.AsyncRegistry
import Mulp.Core.Registry
import Mulp.Lib.JsonPrint
import Mulp.Text.Slice

/-! The listing of tasks as JSON (`core/tree.mbt`, `core/async_task.mbt`).

The text is compared with what it denotes by the grammar of RFC 8259, which says of
control characters that they have to be escaped; `json_escape` escapes some of them
only. -/
namespace Mulp.Core

/-! ## Trees of async tasks -/

variable {Run : Type}

def AsyncTaskRecord.children : AsyncTaskRecord Run → List (AsyncTaskRecord Run)
  | .mk _ children _ _ => children

mutual
def asyncTaskTree : AsyncTaskRecord Run → TreeNode
  | .mk name children _ _ => .mk name (asyncTaskTrees children)

def asyncTaskTrees : List (AsyncTaskRecord Run) → List TreeNode
  | [] => []
  | task :: rest => asyncTaskTree task :: asyncTaskTrees rest
end

def AsyncRegistry.tree (self : AsyncRegistry Run) : TreeNode :=
  .mk "root" (asyncTaskTrees self.tasks)

def AsyncRegistry.tasksJson (self : AsyncRegistry Run) : String := tasksJsonFromTree self.tree

theorem asyncTaskTrees_eq_map (tasks : List (AsyncTaskRecord Run)) :
    asyncTaskTrees tasks = tasks.map asyncTaskTree := by
  induction tasks with
  | nil => rfl
  | cons task rest ih => rw [asyncTaskTrees, ih, List.map_cons]

theorem asyncTaskTree_eq (task : AsyncTaskRecord Run) :
    asyncTaskTree task = .mk task.name (task.children.map asyncTaskTree) := by
  obtain ⟨name, children, run, state⟩ := task
  rw [asyncTaskTree, asyncTaskTrees_eq_map]
  rfl

/-! ## Quoting -/

/-- A turn of the loop of `json_escape`. -/
def escapeChar (c : Char) : List Char :=
  if c = '"' then ['\\', '"'] else if c = '\\' then ['\\', '\\'] else [c]

theorem toList_jsonEscape (s : String) : (jsonEscape s).toList = s.toList.flatMap escapeChar := by
  have hchar (c : Char) :
      (if c = '"' then "\\\"" else if c = '\\' then "\\\\" else c.toString).toList =
      escapeChar c := by
    rw [escapeChar]
    split_ifs
    · rfl
    · rfl
    · rw [Char.toString, String.toList_singleton]
  rw [jsonEscape, String.toList_intercalate, List.map_map]
  have hempty : "".toList = [] := rfl
  rw [hempty, Text.nil_intercalate, ← List.flatMap_def]
  exact List.flatMap_congr fun c _ => hchar c

theorem stringBody_escapeChar (c : Char) (rest : List Char) :
    Json.stringBody (escapeChar c ++ rest) =
      if 0x20 ≤ c.toNat then
        (Json.stringBody rest).map fun found => (Utf16.encodeChar c ++ found.1, found.2)
      else none := by
  by_cases hquote : c = '"'
  · subst hquote
    show (Json.stringBody rest >>= fun found => some (0x22 :: found.1, found.2)) = _
    cases Json.stringBody rest <;> rfl
  · by_cases hslash : c = '\\'
    · subst hslash
      show (Json.stringBody rest >>= fun found => some (0x5C :: found.1, found.2)) = _
      cases Json.stringBody rest <;> rfl
    · rw [escapeChar, if_neg hquote, if_neg hslash, List.singleton_append,
        Json.stringBody_unescaped hquote hslash]
      split_ifs
      · omega
      · rfl
      · rfl
      · omega

/-- `json_escape` is read back if there is no control character, and is rejected
otherwise. -/
def escaping : Json.Quoting where
  quote s := s.flatMap escapeChar
  ok s := s.all (0x20 ≤ ·.toNat)
  stringBody_quote s rest := by
    induction s with
    | nil => rfl
    | cons c s ih =>
        rw [List.flatMap_cons, List.append_assoc, stringBody_escapeChar, ih, List.all_cons]
        by_cases hc : 0x20 ≤ c.toNat
        · rw [if_pos hc, decide_eq_true hc, Bool.true_and]
          split_ifs
          · rfl
          · rfl
        · rw [if_neg hc, decide_eq_false hc, Bool.false_and]
          rfl

/-! ## The document -/

mutual
/-- The document that `tree_node_to_json` prints. -/
def nodeDoc (nodeType : String) : TreeNode → Json.Doc
  | .mk name children =>
      .record [("label".toList, .text name.toList), ("type".toList, .text nodeType.toList),
        ("nodes".toList, .list (childDocs children))]

def childDocs : List TreeNode → List Json.Doc
  | [] => []
  | child :: rest => nodeDoc "dep" child :: childDocs rest
end

/-- The document that `tasks_json_from_tree` prints. -/
def listingDoc (children : List TreeNode) : Json.Doc :=
  .record [("label".toList, .text "Tasks".toList),
    ("nodes".toList, .list (children.map (nodeDoc "task")))]

open Json.Doc in
mutual
theorem toList_treeNodeToJson (nodeType : String)
    (htype : escaping.quote nodeType.toList = nodeType.toList) (node : TreeNode) :
    (treeNodeToJson nodeType node).toList = (nodeDoc nodeType node).print escaping := by
  obtain ⟨name, children⟩ := node
  have hlabel : escaping.quote "label".toList = "label".toList := by decide
  have hkey : escaping.quote "type".toList = "type".toList := by decide
  have hnodes : escaping.quote "nodes".toList = "nodes".toList := by decide
  have hname : escaping.quote name.toList = (jsonEscape name).toList :=
    (toList_jsonEscape name).symm
  rw [nodeDoc, print, printFields, printFields, printFields, printFields, print, print, print,
    hlabel, hkey, hnodes, hname, htype, ← childrenToJson_print children]
  unfold treeNodeToJson
  simp [String.toList_append, String.toList_intercalate]

theorem childrenToJson_print (children : List TreeNode) :
    (childrenToJson children).map String.toList = printItems escaping (childDocs children) := by
  match children with
  | [] => rfl
  | child :: rest =>
      rw [childrenToJson, childDocs, printItems, List.map_cons, childrenToJson_print rest,
        toList_treeNodeToJson "dep" (by decide) child]
end

open Json.Doc in
theorem toList_tasksJsonFromTree (name : String) (children : List TreeNode) :
    (tasksJsonFromTree (.mk name children)).toList = (listingDoc children).print escaping := by
  have hlabel : escaping.quote "label".toList = "label".toList := by decide
  have htasks : escaping.quote "Tasks".toList = "Tasks".toList := by decide
  have hnodes : escaping.quote "nodes".toList = "nodes".toList := by decide
  have hchildren : (children.map (treeNodeToJson "task")).map String.toList =
      printItems escaping (children.map (nodeDoc "task")) := by
    induction children with
    | nil => rfl
    | cons child rest ih =>
        rw [List.map_cons, List.map_cons, List.map_cons, printItems, ih,
          toList_treeNodeToJson "task" (by decide) child]
  rw [listingDoc, print, printFields, printFields, printFields, print, print, hlabel,
    htasks, hnodes, ← hchildren]
  unfold tasksJsonFromTree
  simp only [String.toList_append, String.toList_intercalate]
  simp

/-! ## What the listing should say -/

section Mirror

variable {τ : Type} (name : τ → String) (children : τ → List τ)

def key (text : String) : List UInt16 := Utf16.encode text.toList

/-- A value that describes a task: its name, what it is listed as and its children. -/
inductive Mirrors : String → τ → Json.Value → Prop where
  | node {nodeType : String} {task : τ} {values : List Json.Value}
      (h : List.Forall₂ (Mirrors "dep") (children task) values) :
      Mirrors nodeType task (.object [(key "label", .text (name task)),
        (key "type", .text nodeType), (key "nodes", .array values)])

/-- The text is valid JSON and denotes the listing of these tasks, and nothing else. The grammar is
a relation, so it has to be said that a text denotes one value only. -/
def Lists (tasks : List τ) (text : String) : Prop :=
  ∃ values, List.Forall₂ (Mirrors name children "task") tasks values ∧
    ∀ v, Json.Denotes text v ↔
      v = .object [(key "label", .text "Tasks"), (key "nodes", .array values)]

/-- No control character. -/
def Printable (text : String) : Prop := ∀ c ∈ text.toList, 0x20 ≤ c.toNat

/-- The names of the task and of all below it have no control character. A listing is that of whole
trees, so one such name anywhere below makes all of it invalid. -/
def AllPrintable (task : τ) : Prop :=
  ∀ below, Relation.ReflTransGen (fun parent child => child ∈ children parent) task below →
    Printable (name below)

variable {name children}

theorem allPrintable_iff (task : τ) : AllPrintable name children task ↔
    Printable (name task) ∧ ∀ child ∈ children task, AllPrintable name children child := by
  constructor
  · intro h
    exact ⟨h task .refl, fun child hchild below hbelow => h below (.head hchild hbelow)⟩
  · rintro ⟨hself, hchildren⟩ below hbelow
    rcases hbelow.cases_head with rfl | ⟨child, hchild, hrest⟩
    · exact hself
    · exact hchildren child hchild below hrest

theorem ok_text (text : String) : (Json.Doc.text text.toList).Ok escaping ↔ Printable text := by
  show (text.toList.all fun c => decide (0x20 ≤ c.toNat)) = true ↔ _
  rw [List.all_eq_true]
  simp only [decide_eq_true_eq, Printable]

theorem printable_task : Printable "task" :=
  (ok_text "task").mp (show escaping.ok "task".toList = true by decide)

theorem printable_dep : Printable "dep" :=
  (ok_text "dep").mp (show escaping.ok "dep".toList = true by decide)

variable (name children) in
/-- A task's node has its name and the nodes of its children. -/
def Renders (tree : τ → TreeNode) : Prop :=
  ∀ task, tree task = .mk (name task) ((children task).map tree)

variable {tree : τ → TreeNode}

mutual
/-- The document of a task's tree is read back if the names are printable, and
describes the task. -/
theorem nodeDoc_spec (htree : Renders name children tree) (nodeType : String)
    (htype : Printable nodeType) (node : TreeNode) (task : τ) (h : tree task = node) :
    ((nodeDoc nodeType node).Ok escaping ↔ AllPrintable name children task) ∧
      Mirrors name children nodeType task (nodeDoc nodeType node).value := by
  obtain ⟨n, nodes⟩ := node
  rw [htree] at h
  obtain ⟨hname, hnodes⟩ := TreeNode.mk.inj h
  obtain ⟨hok, hmirrors⟩ := childDocs_spec htree nodes (children task) hnodes
  constructor
  · rw [allPrintable_iff, ← hok, hname]
    have hlabel : escaping.ok "label".toList = true := by decide
    have hkey : escaping.ok "type".toList = true := by decide
    have hlist : escaping.ok "nodes".toList = true := by decide
    constructor
    · intro h
      exact ⟨(ok_text n).mp h.2.1, h.2.2.2.2.2.1⟩
    · intro h
      exact ⟨hlabel, (ok_text n).mpr h.1, hkey, (ok_text nodeType).mpr htype, hlist, h.2, trivial⟩
  · rw [← hname]
    exact .node hmirrors

theorem childDocs_spec (htree : Renders name children tree) (nodes : List TreeNode) (tasks : List τ)
    (h : tasks.map tree = nodes) :
    (Json.Doc.OkItems escaping (childDocs nodes) ↔
      ∀ task ∈ tasks, AllPrintable name children task) ∧
      List.Forall₂ (Mirrors name children "dep") tasks (Json.Doc.values (childDocs nodes)) := by
  match nodes, tasks with
  | [], [] =>
      constructor
      · exact ⟨fun _ _ hmem => absurd hmem List.not_mem_nil, fun _ => trivial⟩
      · exact .nil
  | node :: nodes, task :: tasks =>
      rw [List.map_cons] at h
      obtain ⟨hnode, hnodes⟩ := List.cons.inj h
      obtain ⟨hok, hmirrors⟩ := nodeDoc_spec htree "dep" printable_dep node task hnode
      obtain ⟨hokRest, hrest⟩ := childDocs_spec htree nodes tasks hnodes
      constructor
      · rw [List.forall_mem_cons, ← hok, ← hokRest]
        rfl
      · exact .cons hmirrors hrest
end

/-- The documents of the tasks at the top level. -/
theorem taskDocs_spec (htree : Renders name children tree) (tasks : List τ) :
    (Json.Doc.OkItems escaping ((tasks.map tree).map (nodeDoc "task")) ↔
        ∀ task ∈ tasks, AllPrintable name children task) ∧
      List.Forall₂ (Mirrors name children "task") tasks
        (Json.Doc.values ((tasks.map tree).map (nodeDoc "task"))) := by
  induction tasks with
  | nil =>
      constructor
      · exact ⟨fun _ _ hmem => absurd hmem List.not_mem_nil, fun _ => trivial⟩
      · exact .nil
  | cons task tasks ih =>
      obtain ⟨hok, hmirrors⟩ := nodeDoc_spec htree "task" printable_task (tree task) task rfl
      constructor
      · rw [List.forall_mem_cons, ← hok, ← ih.1]
        rfl
      · exact .cons hmirrors ih.2

/-- What is printed for these tasks denotes what it should if no name has a control
character; otherwise it denotes nothing. -/
theorem denotes_tasksJsonFromTree (htree : Renders name children tree) (root : String)
    (tasks : List τ) (v : Json.Value) :
    Json.Denotes (tasksJsonFromTree (.mk root (tasks.map tree))) v ↔
      (∀ task ∈ tasks, AllPrintable name children task) ∧
        v = (listingDoc (tasks.map tree)).value := by
  have hlisting : (listingDoc (tasks.map tree)).Ok escaping ↔
      Json.Doc.OkItems escaping ((tasks.map tree).map (nodeDoc "task")) := by
    have hlabel : escaping.ok "label".toList = true := by decide
    have htasks : escaping.ok "Tasks".toList = true := by decide
    have hnodes : escaping.ok "nodes".toList = true := by decide
    exact ⟨fun h => h.2.2.2.1, fun h => ⟨hlabel, htasks, hnodes, h, trivial⟩⟩
  rw [Json.Doc.denotes_print_iff (toList_tasksJsonFromTree root (tasks.map tree)), hlisting,
    (taskDocs_spec htree tasks).1]

theorem lists_tasksJsonFromTree (htree : Renders name children tree) (root : String)
    (tasks : List τ) :
    Lists name children tasks (tasksJsonFromTree (.mk root (tasks.map tree))) ↔
      ∀ task ∈ tasks, AllPrintable name children task := by
  constructor
  · intro h
    obtain ⟨values, -, hvalues⟩ := h
    exact ((denotes_tasksJsonFromTree htree root tasks _).mp ((hvalues _).mpr rfl)).1
  · intro h
    refine ⟨_, (taskDocs_spec htree tasks).2, fun v => ?_⟩
    exact (denotes_tasksJsonFromTree htree root tasks v).trans (and_iff_right h)

end Mirror

/-! ## Listings of registries -/

theorem tasksJson_eq (registry : Registry) :
    registry.tasksJson = tasksJsonFromTree (.mk "root" (registry.tasks.map taskTree)) := by
  rw [Registry.tasksJson, Registry.tree, taskTrees_eq_map]

theorem AsyncRegistry.tasksJson_eq (registry : AsyncRegistry Run) :
    registry.tasksJson = tasksJsonFromTree (.mk "root" (registry.tasks.map asyncTaskTree)) := by
  rw [AsyncRegistry.tasksJson, AsyncRegistry.tree, asyncTaskTrees_eq_map]

/-- The listing of a registry, sync or async, is valid JSON that mirrors its tasks
exactly if no name of a task in it has a control character. -/
theorem tasksJson_mirrors_iff (registry : Registry) (asyncRegistry : AsyncRegistry Run) :
    (Lists Task.name Task.children registry.tasks registry.tasksJson ↔
        ∀ task ∈ registry.tasks, AllPrintable Task.name Task.children task) ∧
      (Lists AsyncTaskRecord.name AsyncTaskRecord.children asyncRegistry.tasks
        asyncRegistry.tasksJson ↔
        ∀ task ∈ asyncRegistry.tasks,
          AllPrintable AsyncTaskRecord.name AsyncTaskRecord.children task) := by
  constructor
  · rw [tasksJson_eq]
    exact lists_tasksJsonFromTree taskTree_eq "root" registry.tasks
  · rw [AsyncRegistry.tasksJson_eq]
    exact lists_tasksJsonFromTree asyncTaskTree_eq "root" asyncRegistry.tasks

/-- A line feed in a name is printed as it is, and the text is no JSON. -/
theorem lineFeed_not_listed :
    (⟨"app", [.newTask 0 "build\nall" ⟨.ok (), false⟩]⟩ : Registry).tasksJson =
        "\x7b\"label\":\"Tasks\",\"nodes\":[" ++
          "\x7b\"label\":\"build\nall\",\"type\":\"task\",\"nodes\":[]\x7d]\x7d" ∧
      (∀ v, ¬ Json.Denotes
        (⟨"app", [.newTask 0 "build\nall" ⟨.ok (), false⟩]⟩ : Registry).tasksJson v) ∧
      ¬ Lists Task.name Task.children [.newTask 0 "build\nall" ⟨.ok (), false⟩]
        (⟨"app", [.newTask 0 "build\nall" ⟨.ok (), false⟩]⟩ : Registry).tasksJson := by
  have hname : ¬ ∀ task ∈ [Task.newTask 0 "build\nall" ⟨.ok (), false⟩],
      AllPrintable Task.name Task.children task := by
    intro h
    have hprintable : Printable "build\nall" := h _ List.mem_cons_self _ .refl
    have hok : ¬escaping.ok "build\nall".toList = true := by decide
    exact hok ((ok_text "build\nall").mpr hprintable)
  rw [tasksJson_eq]
  refine ⟨by decide, fun v hv => ?_, fun hlists => ?_⟩
  · exact hname ((denotes_tasksJsonFromTree taskTree_eq "root" _ v).mp hv).1
  · exact hname ((lists_tasksJsonFromTree taskTree_eq "root" _).mp hlists)

end Mulp.Core
