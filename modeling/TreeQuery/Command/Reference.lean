namespace TreeQuery

-- The reference of the selector language that the command line shows.
def syntaxReference : String :=
  String.join <| lines.map (· ++ "\n")
where
  lines : List String := [
    "TREE SELECTOR SYNTAX",
    "",
    "A selector is a path through a labeled tree. Every node has a name, an",
    "optional type, variant and version, and free-form string attributes.",
    "",
    "PATHS",
    "-----",
    "  /Root                     the root, if it is named Root",
    "  /Root/Child1              direct children of Root named Child1",
    "  /Root/Child2/GrandChild2  one level per '/'",
    "",
    "A selector must start with '/' (anchored at the root) or '**/' (deep).",
    "",
    "SEGMENTS",
    "--------",
    "  Name     direct children with that name",
    "  *        all direct children (at the root position: the root itself)",
    "  ~~       all descendants",
    "  .        stay on the current level",
    "  ..       go up one level",
    "",
    "  /Root/Child2/~~           everything below Child2",
    "  /Root/Child2/../Child1    sibling lookup",
    "  /Root/../*                the root again: above the root is a virtual",
    "                            level whose only child is the root",
    "",
    "DEEP SELECTORS",
    "--------------",
    "  **/GrandChild1            every node named GrandChild1, anywhere",
    "  **/*                      every node in the tree",
    "  **/Child2/GrandChild2     later segments walk children as usual",
    "",
    "ATTRIBUTE FILTERS",
    "-----------------",
    "Append \x7bkey=value, ...\x7d to any segment. All pairs must match.",
    "",
    "  type, variant, version    built-in properties (exact string match)",
    "  anything else             free-form attribute",
    "  *                         any value, even a missing one",
    "",
    "  /Root/*\x7btype=component, version=2.0.0\x7d",
    "  /Root/*/*\x7bvariant='button-alt'\x7d",
    "  /Root/*\x7b'type'='*'\x7d",
    "",
    "Keys and values may be single-quoted; inside quotes use \\' and \\\\.",
    "",
    "ALTERNATION",
    "-----------",
    "  /Root/Child1|/Root/Child2  union of both, without duplicates",
    "",
    "When several alternatives are joined, an alternative that fails to parse is",
    "skipped with a warning. A single malformed selector selects nothing.",
    "",
    "EXAMPLES",
    "--------",
    "  echo '\x7b\"name\":\"Root\",\"children\":[\x7b\"name\":\"A\"\x7d]\x7d' | treesel check '/Root/*'",
    "  treesel check '/Root/*\x7btype=component\x7d' --input \"$(cat tree.json)\" --pretty",
    "  treesel check '**/*\x7bvariant=primary\x7d' --syntax-only",
    "  treesel demo"]

end TreeQuery
