import TreeQuery.Query
import TreeQuery.Tree.Drawing

namespace TreeQuery

-- The sample tree is a root with two children:
--
-- Root
-- ├── Child1
-- │   └── GrandChild1
-- └── Child2
--     ├── GrandChild1
--     ├── GrandChild2
--     └── GrandChild3
def sampleTree : Tree :=
  Tree.ofRoot (node "Root" "container" "default" "1.0.0" .empty)
    |>.attach 0 (node "Child1" "component" "primary" "2.0.0" visible)
    |>.attach 0 (node "Child2" "component" "secondary" "2.1.0" visible)
    |>.attach 1 (node "GrandChild1" "element" "button" "3.0.0" .empty)
    |>.attach 2 (node "GrandChild1" "element" "button-alt" "3.2.0" .empty)
    |>.attach 2 (node "GrandChild2" "element" "text" "3.0.0" .empty)
    |>.attach 2 (node "GrandChild3" "element" "input" "3.1.0" .empty)
where
  visible : Attributes := .ofList [("visible", "true")]
  node (name kind variant version : String) (attributes : Attributes) : Node :=
    { name, kind, variant, version, attributes, children := [], parent := none }

def demoSelectors : List String := [
  "/Root",
  "/Root/Child1",
  "/Root/*",
  "/Root/Child2/GrandChild2",
  "/*/Child2",
  "/*/*/*",
  "/Root/*/GrandChild1",
  "/Root/*\x7btype=component,version=2.0.0\x7d",
  "/Root/*/*\x7bvariant='button-alt'\x7d",
  "/Root/Child2/~~",
  "/Root/Child2/../Child1",
  "/Root/../*",
  "**/*\x7btype=element,variant=button\x7d",
  "**/GrandChild1|**/GrandChild2"]

-- The sample tree and what each of the demo selectors finds in it.
def demo : String :=
  "SAMPLE TREE\n\n" ++ sampleTree.drawing ++ String.join (demoSelectors.map findings)
where
  findings (selector : String) : String :=
    let ids := (sampleTree.query selector).elim [] (·.found)
    "\n" ++ selector ++ "\n  " ++ toString ids.length ++ " match(es)\n" ++
      String.join (ids.map finding)
  finding (id : Nat) : String :=
    "  - " ++ sampleTree.pathOf id ++ "  " ++ (sampleTree.get? id).elim "" Node.describe ++ "\n"

end TreeQuery
