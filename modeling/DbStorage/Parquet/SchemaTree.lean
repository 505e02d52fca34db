import DbStorage.Parquet.Nested

/-!
# The schema tree of a listing (`parquet/schema_tree.rs`)

The footer lists the schema in preorder, each element with the number of its
children; `build_schema_tree` threads one index through the recursion.
`SchemaTree` is the schema itself. A path is the list of the elements from
below the root down to a node, and the levels of a node count over its path.

Result: `schema_tree_rebuilt` (the listing of a schema gives back its tree
with these levels, and `leaves` and `leaf_paths` go over the same paths in the
same order).
-/
namespace DbStorage.Parquet

mutual

/-- mirrors schema_tree.rs:23-37 -/
def SchemaNode.leaves : SchemaNode → List SchemaNode
  | .mk name e cs d r => if cs.isEmpty then [.mk name e cs d r] else SchemaNode.leavesOf cs

def SchemaNode.leavesOf : List SchemaNode → List SchemaNode
  | [] => []
  | c :: cs => c.leaves ++ SchemaNode.leavesOf cs

end

mutual

/-- mirrors schema_tree.rs:51-59 -/
def SchemaNode.collectPaths : SchemaNode → List Char → List (List Char)
  | .mk _ _ cs _ _, path => if cs.isEmpty then [path] else SchemaNode.collectPathsOf (dot path) cs

def SchemaNode.collectPathsOf (pathOf : List Char → List Char) : List SchemaNode → List (List Char)
  | [] => []
  | c :: cs => c.collectPaths (pathOf c.name) ++ SchemaNode.collectPathsOf pathOf cs

end

/-- mirrors schema_tree.rs:43-49 -/
def SchemaNode.leafPaths (root : SchemaNode) : List (List Char) := SchemaNode.collectPathsOf id root.children

/-- An element and what is below it; without children it is a leaf. -/
inductive SchemaTree where
  | node (element : SchemaElement) (children : List SchemaTree)

namespace SchemaTree

mutual

/-- In preorder. -/
def listing : SchemaTree → List SchemaElement
  | .node e cs => e :: listingOf cs

def listingOf : List SchemaTree → List SchemaElement
  | [] => []
  | c :: cs => c.listing ++ listingOf cs

end

mutual

/-- Every element has the number of its children; a leaf may leave it out
(`childCount`). -/
def Counted : SchemaTree → Prop
  | .node e cs => e.childCount = cs.length ∧ AllCounted cs

def AllCounted : List SchemaTree → Prop
  | [] => True
  | c :: cs => c.Counted ∧ AllCounted cs

end

/-- The elements of a path that are not required. -/
def defLevel (path : List SchemaElement) : Nat := path.countP fun e => e.repetition ≠ some .required

/-- The elements of a path that are repeated. -/
def repLevel (path : List SchemaElement) : Nat := path.countP fun e => e.repetition = some .repeated

mutual

/-- The node with the levels of its path; `path` is that of its parent. -/
def leveledNode (path : List SchemaElement) : SchemaTree → SchemaNode
  | .node e cs => .mk e.name e (leveledNodes (path ++ [e]) cs) (defLevel (path ++ [e])) (repLevel (path ++ [e]))

def leveledNodes (path : List SchemaElement) : List SchemaTree → List SchemaNode
  | [] => []
  | c :: cs => c.leveledNode path :: leveledNodes path cs

end

/-- The root is on no path. -/
def tree (root : SchemaElement) (cs : List SchemaTree) : SchemaNode := .mk root.name root (leveledNodes [] cs) 0 0

mutual

/-- The paths to the leaves, left to right. -/
def leafRoutes (path : List SchemaElement) : SchemaTree → List (List SchemaElement)
  | .node e cs => if cs.isEmpty then [path ++ [e]] else allLeafRoutes (path ++ [e]) cs

def allLeafRoutes (path : List SchemaElement) : List SchemaTree → List (List SchemaElement)
  | [] => []
  | c :: cs => c.leafRoutes path ++ allLeafRoutes path cs

end

/-- The leaf at the end of a path. -/
def leafAt (path : List SchemaElement) : Option SchemaNode :=
  path.getLast?.map fun e => .mk e.name e [] (defLevel path) (repLevel path)

/-- The names on a path, with dots between them. -/
def dotted (path : List SchemaElement) : List Char := List.intercalate ['.'] (path.map SchemaElement.name)

/-! ## The nodes are those of the listing -/

theorem levels_path (path : List SchemaElement) (e : SchemaElement) :
    (defLevel (path ++ [e]), repLevel (path ++ [e])) = levels (defLevel path) (repLevel path) false e := by
  simp [defLevel, repLevel, levels, List.countP_append, List.countP_singleton]

@[simp] theorem leveledNodes_length (path : List SchemaElement) (cs : List SchemaTree) :
    (leveledNodes path cs).length = cs.length := by
  induction cs with
  | nil => rfl
  | cons c cs ih => rw [leveledNodes, List.length_cons, ih, List.length_cons]

theorem leveledNodes_isEmpty (path : List SchemaElement) (cs : List SchemaTree) :
    (leveledNodes path cs).isEmpty = cs.isEmpty := by
  cases cs <;> rfl

mutual

theorem leveledNode_flatten (path : List SchemaElement) (t : SchemaTree) : (t.leveledNode path).flatten = t.listing := by
  obtain ⟨e, cs⟩ := t
  rw [leveledNode, SchemaNode.flatten, listing, leveledNodes_flatten]

theorem leveledNodes_flatten (path : List SchemaElement) (cs : List SchemaTree) :
    SchemaNode.flattenAll (leveledNodes path cs) = listingOf cs := by
  cases cs with
  | nil => rfl
  | cons c cs => rw [leveledNodes, SchemaNode.flattenAll, listingOf, leveledNode_flatten, leveledNodes_flatten]

end

mutual

theorem leveledNode_leveled (path : List SchemaElement) (t : SchemaTree) (h : t.Counted) :
    (t.leveledNode path).Leveled (defLevel path) (repLevel path) false := by
  obtain ⟨e, cs⟩ := t
  rw [Counted] at h
  rw [leveledNode, SchemaNode.Leveled, leveledNodes_length]
  exact ⟨rfl, levels_path path e, h.1, leveledNodes_leveled (path ++ [e]) cs h.2⟩

theorem leveledNodes_leveled (path : List SchemaElement) (cs : List SchemaTree) (h : AllCounted cs) :
    SchemaNode.AllLeveled (leveledNodes path cs) (defLevel path) (repLevel path) := by
  cases cs with
  | nil =>
    rw [leveledNodes, SchemaNode.AllLeveled]
    trivial
  | cons c cs =>
    rw [AllCounted] at h
    rw [leveledNodes, SchemaNode.AllLeveled]
    exact ⟨leveledNode_leveled path c h.1, leveledNodes_leveled path cs h.2⟩

end

theorem buildSchemaTree_listing (Z : Layout) {root : SchemaElement} {cs : List SchemaTree}
    (h : (SchemaTree.node root cs).Counted) :
    ∃ s, buildSchemaTree Z (SchemaTree.node root cs).listing = (.ok (tree root cs), s) ∧
      Calm (SchemaTree.node root cs).listing.length s := by
  rw [Counted] at h
  have hlist : (tree root cs).flatten = (SchemaTree.node root cs).listing := by
    rw [tree, SchemaNode.flatten, listing, leveledNodes_flatten]
  have hroot : (tree root cs).Leveled 0 0 true := by
    rw [tree, SchemaNode.Leveled, leveledNodes_length]
    exact ⟨rfl, rfl, h.1, leveledNodes_leveled [] cs h.2⟩
  obtain ⟨log, hbuild⟩ := buildNode_flatten Z (tree root cs).flatten.length (tree root cs)
    (f := 2 * (tree root cs).flatten.length + 1) hroot (by omega) [] []
  rw [List.append_nil, hlist] at hbuild
  obtain ⟨_, s, hs, -, hcalm⟩ | ⟨_, _, hs, -⟩ := buildSchemaTree_spec Z (SchemaTree.node root cs).listing
  · rw [buildSchemaTree, hbuild] at hs
    cases hs
    exact ⟨_, hbuild, hcalm⟩
  · rw [buildSchemaTree, hbuild] at hs
    cases hs

/-! ## Leaves and their names -/

mutual

theorem leveledNode_leaves (path : List SchemaElement) (t : SchemaTree) :
    (t.leveledNode path).leaves.map some = (t.leafRoutes path).map leafAt := by
  obtain ⟨e, cs⟩ := t
  rw [leveledNode, SchemaNode.leaves, leafRoutes, leveledNodes_isEmpty]
  split
  · rename_i hleaf
    rw [List.isEmpty_iff.1 hleaf]
    simp [leafAt, leveledNodes]
  · exact leveledNodes_leaves (path ++ [e]) cs

theorem leveledNodes_leaves (path : List SchemaElement) (cs : List SchemaTree) :
    (SchemaNode.leavesOf (leveledNodes path cs)).map some = (allLeafRoutes path cs).map leafAt := by
  cases cs with
  | nil => rfl
  | cons c cs =>
    rw [leveledNodes, SchemaNode.leavesOf, allLeafRoutes, List.map_append, List.map_append, leveledNode_leaves, leveledNodes_leaves]

end

theorem dotted_append {path : List SchemaElement} (h : path ≠ []) (e : SchemaElement) :
    dotted (path ++ [e]) = dot (dotted path) e.name := by
  induction path with
  | nil => exact absurd rfl h
  | cons a path ih =>
    cases path with
    | nil => simp [dotted, dot, List.intercalate]
    | cons b path =>
      have hcons : ∀ l : List SchemaElement, dotted (a :: b :: l) = a.name ++ '.' :: dotted (b :: l) := by
        intro l
        simp [dotted, List.intercalate]
      rw [List.cons_append, List.cons_append, hcons, hcons, ← List.cons_append, ih (List.cons_ne_nil b path), dot, dot,
        List.append_assoc, List.cons_append]

mutual

theorem leveledNode_paths (path : List SchemaElement) (t : SchemaTree) (e : SchemaElement) (cs : List SchemaTree)
    (ht : t = .node e cs) :
    (t.leveledNode path).collectPaths (dotted (path ++ [e])) = (t.leafRoutes path).map dotted := by
  subst ht
  rw [leveledNode, SchemaNode.collectPaths, leafRoutes, leveledNodes_isEmpty]
  split
  · rfl
  · exact leveledNodes_paths (path ++ [e]) cs fun c => (dotted_append (by simp) c).symm

/-- The first name of a path stands alone, the others behind a dot. -/
theorem leveledNodes_paths (path : List SchemaElement) (cs : List SchemaTree) {pathOf : List Char → List Char}
    (h : ∀ c : SchemaElement, pathOf c.name = dotted (path ++ [c])) :
    SchemaNode.collectPathsOf pathOf (leveledNodes path cs) = (allLeafRoutes path cs).map dotted := by
  cases cs with
  | nil => rfl
  | cons c cs =>
    obtain ⟨e, kids⟩ := c
    rw [leveledNodes, SchemaNode.collectPathsOf, allLeafRoutes, List.map_append, leveledNodes_paths path cs h,
      ← leveledNode_paths path (.node e kids) e kids rfl, ← h]
    rfl

end

/-- **The schema tree.** For every schema whose root has a child: its listing
is built back into its tree with no index out of range, and the leaves and the
leaf paths are those of the same paths in the same order. -/
theorem schema_tree_rebuilt (Z : Layout) (root : SchemaElement) (cs : List SchemaTree) (hne : cs ≠ [])
    (h : (SchemaTree.node root cs).Counted) :
    (∃ s, buildSchemaTree Z (SchemaTree.node root cs).listing = (.ok (tree root cs), s) ∧
      Calm (SchemaTree.node root cs).listing.length s) ∧
      (tree root cs).leaves.map some = (allLeafRoutes [] cs).map leafAt ∧
        (tree root cs).leafPaths = (allLeafRoutes [] cs).map dotted := by
  refine ⟨buildSchemaTree_listing Z h, ?_, ?_⟩
  · rw [tree, SchemaNode.leaves, leveledNodes_isEmpty, if_neg (by simpa using hne)]
    exact leveledNodes_leaves [] cs
  · exact leveledNodes_paths [] cs fun c => by simp [dotted, List.intercalate]

/-- An optional group of a required and a repeated leaf, then a leaf. -/
def sampleSchema : List SchemaTree :=
  let element (name : Char) (r : Repetition) (n : Option Int32) : SchemaElement :=
    { sampleElement r with name := [name], numChildren := n }
  [.node (element 'g' .optional (some 2)) [.node (element 'a' .required none) [], .node (element 'b' .repeated (some 0)) []],
    .node (element 'c' .optional none) []]

theorem sample_schema_rebuilt :
    let root := { sampleElement .required with numChildren := some 2 }
    (buildSchemaTree hostLayout (SchemaTree.node root sampleSchema).listing).1 = .ok (tree root sampleSchema) ∧
      (tree root sampleSchema).leafPaths = ["g.a".toList, "g.b".toList, "c".toList] := by
  intro root
  have hcounted : (SchemaTree.node root sampleSchema).Counted := by
    simp only [sampleSchema, Counted, AllCounted]
    decide
  obtain ⟨⟨s, hs, -⟩, -, hpaths⟩ := schema_tree_rebuilt hostLayout root sampleSchema (by decide) hcounted
  exact ⟨congrArg Prod.fst hs, hpaths.trans (by decide)⟩

end SchemaTree

end DbStorage.Parquet
