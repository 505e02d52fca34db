import DbStorage.Core.PageWalk
import DbStorage.Parquet.Nested

/-!
# Columns that do not fit together (`parquet/nested.rs`)

`reconstruct_row_group` takes the number of rows, the levels and the values
of each leaf as they come, and indexes one by the other. A field is built,
refused with an error, or an access is out of range.

`Fits` and `Refused` say which, by the kind of the field: `RowsFit` is the
walk over a repeated column's levels, and a struct's rows need a level of
the first leaf and, where the struct is present, a value of each leaf in it.
Fields are built in order, and the first that is refused ends it. Result:
`reconstruct_in_range_iff`.

The memory of the result is not modelled, so no row count is too large to
reserve.
-/
namespace DbStorage.Parquet
open List

/-! ## Repeated columns -/

/-- The row that starts at `i` ends before `j`. -/
structure RowEnd (rep : List Nat) (i j : Nat) : Prop where
  lt : i < j
  stop : rep.length ≤ j ∨ rep[j]? = some 0
  goOn : ∀ k, i < k → k < j → ¬(rep.length ≤ k ∨ rep[k]? = some 0)

/-- From `i` on there are `n` rows: each has a definition level where it
starts, and its elements are among the first `readable` ones. -/
inductive RowsFit (wrapperDef repeatedDef : Nat) (rep defs : List Nat) (readable : Nat) : Nat → Nat → Prop
  | done (i : Nat) : RowsFit wrapperDef repeatedDef rep defs readable 0 i
  | short {n i d : Nat} : defs[i]? = some d → d < wrapperDef ∨ d < repeatedDef →
      RowsFit wrapperDef repeatedDef rep defs readable n (i + 1) →
      RowsFit wrapperDef repeatedDef rep defs readable (n + 1) i
  | full {n i d j : Nat} : defs[i]? = some d → wrapperDef ≤ d → repeatedDef ≤ d → RowEnd rep i j → j ≤ readable →
      RowsFit wrapperDef repeatedDef rep defs readable n j →
      RowsFit wrapperDef repeatedDef rep defs readable (n + 1) i

variable {i j : Nat} {e : NestedError} {α β : Type} {fields : List (List Char × List NestedValue)} {node : SchemaNode}
  {path : List Char} {children : List SchemaNode}

variable {rows vals : List NestedValue} {elementAt : Nat → Option NestedValue} {defs : List Nat}
  {Source : SchemaNode → LeafEntries → LeafEntries → Prop}

section Walk
variable {rep defs : List Nat} {elementAt : Nat → Option NestedValue} {readable : Nat}

theorem RowEnd.eq_of_stop (h : RowEnd rep i j) (hs : rep.length ≤ i + 1 ∨ rep[i + 1]? = some 0) : j = i + 1 := by
  have hlt := h.lt
  by_contra hne
  exact h.goOn (i + 1) (Nat.lt_succ_self i) (by omega) hs

theorem rowEnd_succ (hs : ¬(rep.length ≤ i + 1 ∨ rep[i + 1]? = some 0)) : RowEnd rep i j ↔ RowEnd rep (i + 1) j := by
  constructor
  · intro h
    have hlt := h.lt
    have hne : j ≠ i + 1 := by
      rintro rfl
      exact hs h.stop
    exact ⟨by omega, h.stop, fun k hk => h.goOn k (by omega)⟩
  · intro h
    have hlt := h.lt
    refine ⟨by omega, h.stop, fun k hk hkj => ?_⟩
    obtain rfl | hne := eq_or_ne k (i + 1)
    · exact hs
    · exact h.goOn k (by omega) hkj

/-- The inner loop: it takes the elements up to the end of the row, if all of
them can be read. -/
theorem elements_iff (helem : ∀ i, (∃ v, elementAt i = some v) ↔ i < readable) {f : Nat}
    (hf : rep.length + 1 ≤ f + i ∧ 0 < f) :
    (∃ vs, elements rep elementAt f i = some (vs, j)) ↔ RowEnd rep i j ∧ j ≤ readable := by
  induction f generalizing i with
  | zero => omega
  | succ f ih =>
    by_cases hi : i < readable
    · obtain ⟨v, hv⟩ := (helem i).2 hi
      by_cases hs : rep.length ≤ i + 1 ∨ rep[i + 1]? = some 0
      · have hrun : elements rep elementAt (f + 1) i = some ([v], i + 1) := by
          simp only [elements, hv, bind, Option.bind, if_pos hs, pure]
        rw [hrun]
        constructor
        · rintro ⟨vs, h⟩
          cases h
          exact ⟨⟨Nat.lt_succ_self i, hs, fun k _ _ => by omega⟩, hi⟩
        · rintro ⟨h, -⟩
          exact ⟨[v], by rw [h.eq_of_stop hs]⟩
      · have hstep : (∃ vs, elements rep elementAt (f + 1) i = some (vs, j)) ↔
            ∃ vs, elements rep elementAt f (i + 1) = some (vs, j) := by
          simp only [elements, hv, bind, Option.bind, if_neg hs, pure]
          cases elements rep elementAt f (i + 1) with
          | none => simp
          | some p =>
            obtain ⟨vs, k⟩ := p
            simp
        rw [hstep, ih (by omega), rowEnd_succ hs]
    · have hnone : elementAt i = none := by
        cases hv : elementAt i with
        | none => rfl
        | some v => exact absurd ((helem i).1 ⟨v, hv⟩) hi
      simp only [elements, hnone, bind, Option.bind, reduceCtorEq, exists_false, false_iff]
      rintro ⟨h, hj⟩
      have := h.lt
      omega

variable {w r : Nat}

theorem repeatedRows_iff (helem : ∀ i, (∃ v, elementAt i = some v) ↔ i < readable) (n i : Nat) :
    (∃ rows, repeatedRows w r rep defs elementAt n i = some rows) ↔ RowsFit w r rep defs readable n i := by
  induction n generalizing i with
  | zero => exact ⟨fun _ => .done i, fun _ => ⟨[], rfl⟩⟩
  | succ n ih =>
    constructor
    · rintro ⟨rows, h⟩
      rw [repeatedRows, Option.bind_eq_bind, Option.bind_eq_some_iff] at h
      obtain ⟨d, hd, h⟩ := h
      split at h
      · rename_i hw
        obtain ⟨more, hmore, -⟩ := Option.bind_eq_some_iff.1 h
        exact .short hd (.inl hw) ((ih (i + 1)).1 ⟨more, hmore⟩)
      · split at h
        · rename_i hr
          obtain ⟨more, hmore, -⟩ := Option.bind_eq_some_iff.1 h
          exact .short hd (.inr hr) ((ih (i + 1)).1 ⟨more, hmore⟩)
        · rename_i hw hr
          obtain ⟨⟨vs, j⟩, hvs, h⟩ := Option.bind_eq_some_iff.1 h
          obtain ⟨more, hmore, -⟩ := Option.bind_eq_some_iff.1 h
          obtain ⟨hend, hj⟩ := (elements_iff helem (by omega)).1 ⟨vs, hvs⟩
          exact .full hd (by omega) (by omega) hend hj ((ih j).1 ⟨more, hmore⟩)
    · intro h
      cases h with
      | @short _ _ d hd hless hrest =>
        obtain ⟨more, hmore⟩ := (ih (i + 1)).2 hrest
        by_cases hw : d < w
        · exact ⟨.null :: more, by simp only [repeatedRows, hd, bind, Option.bind, if_pos hw, hmore, pure]⟩
        · have hr : d < r := hless.resolve_left hw
          exact ⟨.list [] :: more, by
            simp only [repeatedRows, hd, bind, Option.bind, if_neg hw, if_pos hr, hmore, pure]⟩
      | @full _ _ d j hd hw hr hend hj hrest =>
        obtain ⟨more, hmore⟩ := (ih j).2 hrest
        obtain ⟨vs, hvs⟩ := (elements_iff helem (f := rep.length + 1) (by omega)).2 ⟨hend, hj⟩
        exact ⟨.list vs :: more, by
          simp only [repeatedRows, hd, bind, Option.bind, if_neg (Nat.not_lt.2 hw), if_neg (Nat.not_lt.2 hr), hvs,
            hmore, pure]⟩

theorem repeatedRows_length {n : Nat} (h : repeatedRows w r rep defs elementAt n i = some rows) : rows.length = n := by
  induction n generalizing i rows with
  | zero =>
    cases h
    rfl
  | succ n ih =>
    rw [repeatedRows, Option.bind_eq_bind, Option.bind_eq_some_iff] at h
    obtain ⟨d, -, h⟩ := h
    split at h
    · obtain ⟨more, hmore, h⟩ := Option.bind_eq_some_iff.1 h
      cases h
      rw [length_cons, ih hmore]
    · split at h
      · obtain ⟨more, hmore, h⟩ := Option.bind_eq_some_iff.1 h
        cases h
        rw [length_cons, ih hmore]
      · obtain ⟨⟨vs, j⟩, -, h⟩ := Option.bind_eq_some_iff.1 h
        obtain ⟨more, hmore, h⟩ := Option.bind_eq_some_iff.1 h
        cases h
        rw [length_cons, ih hmore]

end Walk

/-! ## Outcomes -/

/-- `x` has a value exactly if `fits`, and an error that is no panic exactly if
`refused`. -/
structure Settles {α : Type} (x : Except NestedError α) (fits refused : Prop) : Prop where
  ok_iff : (∃ a, x = .ok a) ↔ fits
  refused_iff : (∃ e, x = .error e ∧ e ≠ .panicked) ↔ refused

variable {x : Except NestedError α} {f : α → Except NestedError β}

section Settles
variable {α β : Type} {fits refused fits' refused' : Prop}

theorem Settles.ok (a : α) : Settles (.ok a) True False := ⟨by simp, by simp⟩

theorem Settles.refuse (h : e ≠ .panicked) : Settles (.error e : Except NestedError α) False True :=
  ⟨by simp, by simpa using h⟩

theorem Settles.congr (h : Settles x fits refused) (hf : fits ↔ fits') (hr : refused ↔ refused') :
    Settles x fits' refused' := ⟨h.ok_iff.trans hf, h.refused_iff.trans hr⟩

theorem Settles.ofOption (h : (∃ a, x = .ok a) ↔ fits) (hx : ∀ e, x = .error e → e = .panicked) :
    Settles x fits False :=
  ⟨h, ⟨fun ⟨e, he, hne⟩ => hne (hx e he), False.elim⟩⟩

theorem Settles.bind (hx : Settles x fits refused) (hf : ∀ a, x = .ok a → Settles (f a) fits' refused') :
    Settles (x >>= f) (fits ∧ fits') (refused ∨ fits ∧ refused') := by
  cases x with
  | error e =>
    have hno : ¬fits := fun h => by simpa using hx.ok_iff.2 h
    refine ⟨by simp [Bind.bind, Except.bind, hno], ?_⟩
    simp only [Bind.bind, Except.bind, hno, false_and, or_false, ← hx.refused_iff, Except.error.injEq]
  | ok a =>
    have hyes : fits := hx.ok_iff.1 ⟨a, rfl⟩
    have hno : ¬refused := fun h => by simpa using hx.refused_iff.2 h
    have h := hf a rfl
    exact ⟨by simpa [Bind.bind, Except.bind, hyes] using h.ok_iff, by simpa [Bind.bind, Except.bind, hyes, hno] using h.refused_iff⟩

theorem settles_lookup (leaves : LeafData) (path : List Char) :
    Settles (lookup leaves path) (leaves path ≠ none) (leaves path = none) := by
  unfold lookup
  cases leaves path with
  | none => exact (Settles.refuse (by simp)).congr (by simp) (by simp)
  | some entries => exact (Settles.ok entries).congr (by simp) (by simp)

end Settles

/-! ## Fields -/

/-- The element of a list, with its path: the repeated node's first child, or
the node itself. -/
def listElement (repeated : SchemaNode) (path : List Char) : SchemaNode × List Char :=
  match repeated.children with
  | [] => (repeated, dot path repeated.name)
  | element :: _ => (element, dot (dot path repeated.name) element.name)

/-- The repeated node of a list, and its column. -/
inductive ListSource (leaves : LeafData) (node : SchemaNode) (path : List Char) :
    SchemaNode → LeafEntries → LeafEntries → Prop
  | mk {repeated : SchemaNode} {rest : List SchemaNode} {entries : LeafEntries} : node.children = repeated :: rest →
      (listElement repeated path).1.isLeaf → leaves (listElement repeated path).2 = some entries →
      ListSource leaves node path repeated entries entries

/-- The repeated node of a map, and its columns. -/
inductive MapSource (leaves : LeafData) (node : SchemaNode) (path : List Char) :
    SchemaNode → LeafEntries → LeafEntries → Prop
  | mk {keyValue keyNode valueNode : SchemaNode} {rest : List SchemaNode} {keys values : LeafEntries} :
      node.children = keyValue :: rest → keyValue.children = [keyNode, valueNode] → keyNode.isLeaf → valueNode.isLeaf →
      leaves (dot (dot path keyValue.name) keyNode.name) = some keys →
      leaves (dot (dot path keyValue.name) valueNode.name) = some values →
      MapSource leaves node path keyValue keys values

/-- The levels are those of the keys; an element needs a key and a value. -/
def SourceFits (n : Nat) (node repeated : SchemaNode) (keys values : LeafEntries) : Prop :=
  RowsFit node.maxDefLevel repeated.maxDefLevel keys.repLevels keys.defLevels
    (min keys.values.length values.values.length) n 0

inductive FieldKind where
  | leaf
  | list
  | map
  | struct

/-- Which branch of `build_field` a node takes. -/
def SchemaNode.kind (node : SchemaNode) : FieldKind :=
  if node.isLeaf then .leaf
  else if node.isRepeated then .list
  else if isMap node then .map
  else if node.children.length = 1 ∧ node.children.any SchemaNode.isRepeated then .list
  else .struct

/-- Each row of a struct has a level of the first leaf below it, and a value
of each leaf in it unless it is null. -/
def StructFits (leaves : LeafData) (n d : Nat) (driver : LeafEntries) (children : List SchemaNode) (path : List Char) :
    Prop :=
  ∀ row < n, ∃ level, driver.defLevels[row]? = some level ∧
    (d ≤ level → ∀ c ∈ children, c.isLeaf → ∀ e, leaves (dot path c.name) = some e → row < e.values.length)

mutual

/-- The field is built. -/
def Fits (leaves : LeafData) (n : Nat) : SchemaNode → List Char → Prop
  | .mk name element children d r, path =>
    let node := SchemaNode.mk name element children d r
    match node.kind with
    | .leaf => leaves path ≠ none
    | .list => ∃ repeated keys values, ListSource leaves node path repeated keys values ∧ SourceFits n node repeated keys values
    | .map => ∃ repeated keys values, MapSource leaves node path repeated keys values ∧ SourceFits n node repeated keys values
    | .struct => ∃ driver, leaves (firstLeafPath node path) = some driver ∧ AllFit leaves n (dot path) children ∧
        StructFits leaves n d driver children path

/-- So are all of these. -/
def AllFit (leaves : LeafData) (n : Nat) (pathOf : List Char → List Char) : List SchemaNode → Prop
  | [] => True
  | c :: cs => Fits leaves n c (pathOf c.name) ∧ AllFit leaves n pathOf cs

end

mutual

/-- The field is refused: a leaf has no data, or a list or map has not the
shape of one. -/
def Refused (leaves : LeafData) (n : Nat) : SchemaNode → List Char → Prop
  | .mk name element children d r, path =>
    let node := SchemaNode.mk name element children d r
    match node.kind with
    | .leaf => leaves path = none
    | .list => ¬∃ repeated keys values, ListSource leaves node path repeated keys values
    | .map => ¬∃ repeated keys values, MapSource leaves node path repeated keys values
    | .struct => leaves (firstLeafPath node path) = none ∨ FirstRefused leaves n (dot path) children

/-- One of these is refused, and those before it are built. -/
def FirstRefused (leaves : LeafData) (n : Nat) (pathOf : List Char → List Char) : List SchemaNode → Prop
  | [] => False
  | c :: cs => Refused leaves n c (pathOf c.name) ∨ (Fits leaves n c (pathOf c.name) ∧ FirstRefused leaves n pathOf cs)

end

/-! ## Lists and maps -/

section Repeated
variable {leaves : LeafData} {n : Nat} {node repeated : SchemaNode} {path : List Char} {keys values : LeafEntries}

theorem getElem?_iff (l : List α) (i : Nat) : (∃ a, l[i]? = some a) ↔ i < l.length := by
  rw [← Option.ne_none_iff_exists', Ne, List.getElem?_eq_none_iff, Nat.not_le]

theorem listElementAt_iff (entries : LeafEntries) (i : Nat) :
    (∃ v, listElementAt entries i = some v) ↔ i < min entries.values.length entries.values.length := by
  rw [Nat.min_self, ← getElem?_iff, listElementAt]
  cases entries.values[i]? <;> simp

theorem mapElementAt_iff (keys values : LeafEntries) (i : Nat) :
    (∃ v, mapElementAt keys values i = some v) ↔ i < min keys.values.length values.values.length := by
  rw [Nat.lt_min, ← getElem?_iff, ← getElem?_iff, mapElementAt]
  cases keys.values[i]? <;> cases values.values[i]? <;> simp

theorem buildRepeated_settles
    (helem : ∀ i, (∃ v, elementAt i = some v) ↔ i < min keys.values.length values.values.length) :
    Settles (buildRepeated node repeated n keys.repLevels keys.defLevels elementAt)
      (SourceFits n node repeated keys values) False := by
  unfold buildRepeated SourceFits
  rw [← repeatedRows_iff helem]
  cases repeatedRows node.maxDefLevel repeated.maxDefLevel keys.repLevels keys.defLevels elementAt n 0 with
  | none => exact .ofOption (by simp) (by simp)
  | some rows => exact .ofOption (by simp) (by simp)

theorem buildRepeated_length {rep : List Nat} (h : buildRepeated node repeated n rep defs elementAt = .ok rows) :
    rows.length = n := by
  unfold buildRepeated at h
  split at h
  · nomatch h
  · rename_i hrows
    cases h
    exact repeatedRows_length hrows

/-- Where the columns are found, the rest is the walk over them. -/
theorem settles_of_source {x : Except NestedError (List NestedValue)} (hfound : Source repeated keys values)
    (huniq : ∀ r k v, Source r k v → r = repeated ∧ k = keys ∧ v = values)
    (hx : Settles x (SourceFits n node repeated keys values) False) :
    Settles x (∃ r k v, Source r k v ∧ SourceFits n node r k v) (¬∃ r k v, Source r k v) := by
  refine hx.congr ⟨fun h => ⟨_, _, _, hfound, h⟩, ?_⟩ ⟨False.elim, fun h => h ⟨_, _, _, hfound⟩⟩
  rintro ⟨r, k, v, hs, h⟩
  obtain ⟨rfl, rfl, rfl⟩ := huniq r k v hs
  exact h

theorem settles_of_no_source (he : e ≠ .panicked) (hnone : ∀ r k v, ¬Source r k v) :
    Settles (.error e : Except NestedError (List NestedValue)) (∃ r k v, Source r k v ∧ SourceFits n node r k v)
      (¬∃ r k v, Source r k v) :=
  (Settles.refuse he).congr ⟨False.elim, fun ⟨r, k, v, h, _⟩ => hnone r k v h⟩
    ⟨fun _ ⟨r, k, v, h⟩ => hnone r k v h, fun _ => trivial⟩

theorem buildListField_eq {rest : List SchemaNode} (hc : node.children = repeated :: rest) :
    buildListField leaves node path n =
      if !(listElement repeated path).1.isLeaf then .error (.unsupportedListElement path)
      else lookup leaves (listElement repeated path).2 >>= fun entries =>
        buildRepeated node repeated n entries.repLevels entries.defLevels (listElementAt entries) := by
  simp only [buildListField, hc]
  rfl

theorem buildListField_settles (hne : node.children ≠ []) :
    Settles (buildListField leaves node path n)
      (∃ r k v, ListSource leaves node path r k v ∧ SourceFits n node r k v)
      (¬∃ r k v, ListSource leaves node path r k v) := by
  obtain ⟨repeated, rest, hc⟩ := exists_cons_of_ne_nil hne
  rw [buildListField_eq hc]
  split
  · refine settles_of_no_source (by simp) fun r k v h => ?_
    obtain ⟨hc', hleaf, -⟩ := h
    simp_all
  · rename_i hleaf
    cases hl : leaves (listElement repeated path).2 with
    | none =>
      simp only [lookup, hl, Bind.bind, Except.bind]
      refine settles_of_no_source (by simp) fun r k v h => ?_
      obtain ⟨hc', -, hl'⟩ := h
      simp_all
    | some entries =>
      simp only [lookup, hl, Bind.bind, Except.bind]
      refine settles_of_source (.mk hc (by simpa using hleaf) hl) (fun r k v h => ?_)
        (buildRepeated_settles (listElementAt_iff entries))
      obtain ⟨hc', -, hl'⟩ := h
      simp_all

theorem buildMapField_settles (hne : node.children ≠ []) :
    Settles (buildMapField leaves node path n)
      (∃ r k v, MapSource leaves node path r k v ∧ SourceFits n node r k v)
      (¬∃ r k v, MapSource leaves node path r k v) := by
  obtain ⟨kv, rest, hc⟩ := exists_cons_of_ne_nil hne
  simp only [buildMapField, hc]
  split
  · rename_i keyNode valueNode hkv
    split
    · refine settles_of_no_source (by simp) fun r k v h => ?_
      obtain ⟨hc', hkv', hk, hv, -, -⟩ := h
      simp_all
    · rename_i hleaf
      have hboth : keyNode.isLeaf = true ∧ valueNode.isLeaf = true := by simpa using hleaf
      cases hkeys : leaves (dot (dot path kv.name) keyNode.name) with
      | none =>
        simp only [lookup, hkeys, Bind.bind, Except.bind]
        refine settles_of_no_source (by simp) fun r k v h => ?_
        obtain ⟨hc', hkv', -, -, hkeys', -⟩ := h
        simp_all
      | some keys =>
        cases hvalues : leaves (dot (dot path kv.name) valueNode.name) with
        | none =>
          simp only [lookup, hkeys, hvalues, Bind.bind, Except.bind]
          refine settles_of_no_source (by simp) fun r k v h => ?_
          obtain ⟨hc', hkv', -, -, -, hvalues'⟩ := h
          simp_all
        | some values =>
          simp only [lookup, hkeys, hvalues, Bind.bind, Except.bind]
          refine settles_of_source (.mk hc hkv hboth.1 hboth.2 hkeys hvalues) (fun r k v h => ?_)
            (buildRepeated_settles (mapElementAt_iff keys values))
          obtain ⟨hc', hkv', -, -, hkeys', hvalues'⟩ := h
          simp_all
  · rename_i hshape
    refine settles_of_no_source (by simp) fun r k v h => ?_
    obtain ⟨hc', hkv', -, -, -, -⟩ := h
    simp_all

end Repeated

/-! ## Structs -/

section Struct
variable {leaves : LeafData} {n : Nat}

theorem mapM_ok_iff (f : α → Except NestedError β) (l : List α) :
    (∃ bs, l.mapM f = .ok bs) ↔ ∀ a ∈ l, ∃ b, f a = .ok b := by
  induction l with
  | nil => exact ⟨fun _ => nofun, fun _ => ⟨[], rfl⟩⟩
  | cons a l ih =>
    rw [forall_mem_cons, ← ih, mapM_cons]
    cases f a <;> cases l.mapM f <;> simp [Bind.bind, Except.bind, pure, Except.pure]

theorem mapM_error (hf : ∀ a e, f a = .error e → e = .panicked) {l : List α} (h : l.mapM f = .error e) :
    e = .panicked := by
  induction l with
  | nil => nomatch h
  | cons a l ih =>
    rw [mapM_cons] at h
    cases ha : f a with
    | error e' =>
      rw [ha] at h
      cases h
      exact hf a e ha
    | ok b =>
      rw [ha] at h
      cases hl : l.mapM f with
      | error e' =>
        rw [hl] at h
        cases h
        exact ih hl
      | ok bs =>
        rw [hl] at h
        nomatch h

theorem mapM_length {l : List α} {bs : List β} (h : l.mapM f = .ok bs) : bs.length = l.length := by
  induction l generalizing bs with
  | nil =>
    cases h
    rfl
  | cons a l ih =>
    rw [mapM_cons, PageWalk.bind_eq_ok_iff] at h
    obtain ⟨b, -, h⟩ := h
    obtain ⟨bs', hl, h⟩ := PageWalk.bind_eq_ok_iff.1 h
    cases h
    rw [length_cons, length_cons, ih hl]

theorem rowFields_iff (fields : List (List Char × List NestedValue)) (row : Nat) :
    (∃ fs, (fields.mapM fun (name, vals) => (vals[row]?).map (name, ·)) = some fs) ↔ ∀ f ∈ fields, row < f.2.length := by
  induction fields with
  | nil => exact ⟨fun _ => nofun, fun _ => ⟨[], rfl⟩⟩
  | cons f fields ih =>
    obtain ⟨name, vals⟩ := f
    rw [forall_mem_cons, ← ih, ← getElem?_iff, mapM_cons]
    dsimp only
    cases vals[row]? <;>
      cases fields.mapM fun (name, vals) => (vals[row]?).map (name, ·) <;> simp

theorem structRow_iff (d : Nat) (defs : List Nat) (fields : List (List Char × List NestedValue)) (row : Nat) :
    (∃ v, structRow d defs fields row = .ok v) ↔
      ∃ level, defs[row]? = some level ∧ (d ≤ level → ∀ f ∈ fields, row < f.2.length) := by
  rw [← rowFields_iff, structRow]
  cases defs[row]? with
  | none => simp
  | some level =>
    by_cases hd : level < d
    · simp [hd, Nat.not_le.2 hd]
    · cases fields.mapM fun (name, vals) => (vals[row]?).map (name, ·) <;> simp [hd]

theorem structRow_error {d : Nat} {row : Nat} (h : structRow d defs fields row = .error e) : e = .panicked := by
  unfold structRow at h
  split at h
  · exact (Except.error.inj h).symm
  · split at h
    · nomatch h
    · split at h
      · exact (Except.error.inj h).symm
      · nomatch h

theorem buildField_eq (node : SchemaNode) (path : List Char) :
    buildField leaves n node path =
      match node.kind with
      | .leaf => do
        let entries ← lookup leaves path
        pure (entries.values.map ofScalar)
      | .list => buildListField leaves node path n
      | .map => buildMapField leaves node path n
      | .struct => lookup leaves (firstLeafPath node path) >>= fun driver =>
        buildStructFields leaves n node.children path >>= fun fields =>
          (List.range n).mapM (structRow node.maxDefLevel driver.defLevels fields) := by
  obtain ⟨name, element, children, d, r⟩ := node
  simp only [buildField, SchemaNode.kind, SchemaNode.isLeaf, SchemaNode.children, SchemaNode.maxDefLevel]
  by_cases hleaf : children.isEmpty = true
  · simp only [hleaf, if_true]
  · rw [Bool.not_eq_true] at hleaf
    by_cases hrep : (SchemaNode.mk name element children d r).isRepeated = true
    · simp only [hleaf, hrep, Bool.false_eq_true, if_true, if_false]
    · rw [Bool.not_eq_true] at hrep
      by_cases hmap : isMap (.mk name element children d r) = true
      · simp only [hleaf, hrep, hmap, Bool.false_eq_true, if_true, if_false]
      · rw [Bool.not_eq_true] at hmap
        by_cases hlist : children.length = 1 ∧ children.any SchemaNode.isRepeated = true
        · simp only [hleaf, hrep, hmap, hlist, Bool.false_eq_true, and_self, if_true, if_false]
        · simp only [hleaf, hrep, hmap, hlist, Bool.false_eq_true, if_false]

theorem children_ne_nil (h : ¬node.isLeaf = true) : node.children ≠ [] := by
  intro hc
  rw [SchemaNode.isLeaf, hc] at h
  exact h rfl

theorem kind_leaf_iff (node : SchemaNode) : node.kind = .leaf ↔ node.isLeaf = true := by
  unfold SchemaNode.kind
  repeat' split
  all_goals simp_all

/-- A leaf has the rows that its column has, and every other field `n`. -/
theorem buildField_length (h : buildField leaves n node path = .ok vals) :
    (node.isLeaf = true → ∃ e, leaves path = some e ∧ vals.length = e.values.length) ∧
      (¬node.isLeaf = true → vals.length = n) := by
  rw [buildField_eq] at h
  cases hk : node.kind with
  | leaf =>
    have hleaf := (kind_leaf_iff node).1 hk
    refine ⟨fun _ => ?_, fun hno => absurd hleaf hno⟩
    simp only [hk] at h
    obtain ⟨e, he, h⟩ := PageWalk.bind_eq_ok_iff.1 h
    cases h
    unfold lookup at he
    split at he
    · nomatch he
    · rename_i hfound
      cases he
      exact ⟨e, hfound, length_map _⟩
  | list =>
    have hleaf : ¬node.isLeaf = true := fun hl => by rw [(kind_leaf_iff node).2 hl] at hk; nomatch hk
    refine ⟨fun hl => absurd hl hleaf, fun _ => ?_⟩
    obtain ⟨repeated, rest, hc⟩ := exists_cons_of_ne_nil (children_ne_nil hleaf)
    simp only [hk, buildListField_eq hc] at h
    split at h
    · nomatch h
    · obtain ⟨entries, -, h⟩ := PageWalk.bind_eq_ok_iff.1 h
      exact buildRepeated_length h
  | map =>
    have hleaf : ¬node.isLeaf = true := fun hl => by rw [(kind_leaf_iff node).2 hl] at hk; nomatch hk
    refine ⟨fun hl => absurd hl hleaf, fun _ => ?_⟩
    simp only [hk, buildMapField] at h
    split at h
    · nomatch h
    · split at h
      · split at h
        · nomatch h
        · obtain ⟨keys, -, h⟩ := PageWalk.bind_eq_ok_iff.1 h
          obtain ⟨values, -, h⟩ := PageWalk.bind_eq_ok_iff.1 h
          exact buildRepeated_length h
      · nomatch h
  | struct =>
    have hleaf : ¬node.isLeaf = true := fun hl => by rw [(kind_leaf_iff node).2 hl] at hk; nomatch hk
    refine ⟨fun hl => absurd hl hleaf, fun _ => ?_⟩
    simp only [hk] at h
    obtain ⟨driver, -, h⟩ := PageWalk.bind_eq_ok_iff.1 h
    obtain ⟨fields, -, h⟩ := PageWalk.bind_eq_ok_iff.1 h
    rw [mapM_length h, length_range]

/-- What holds of `n` holds of a field's length if it does where the field is
a leaf. -/
theorem leaf_length_iff (h : buildField leaves n node path = .ok vals) (P : Nat → Prop) (hn : P n) :
    P vals.length ↔ (node.isLeaf → ∀ e, leaves path = some e → P e.values.length) := by
  obtain ⟨hleaf, hother⟩ := buildField_length h
  by_cases hl : node.isLeaf = true
  · obtain ⟨e, he, hlen⟩ := hleaf hl
    rw [hlen]
    simp [hl, he]
  · rw [hother hl]
    simp [hl, hn]

theorem buildStructFields_forall₂ (h : buildStructFields leaves n children path = .ok fields) :
    List.Forall₂ (fun c f => buildField leaves n c (dot path c.name) = .ok f.2) children fields := by
  induction children generalizing fields with
  | nil =>
    rw [buildStructFields] at h
    cases h
    exact .nil
  | cons c children ih =>
    rw [buildStructFields, PageWalk.bind_eq_ok_iff] at h
    obtain ⟨vals, hvals, h⟩ := h
    obtain ⟨more, hmore, h⟩ := PageWalk.bind_eq_ok_iff.1 h
    cases h
    exact .cons hvals (ih hmore)

/-- A row is in every field of the struct if it is in every leaf. -/
theorem row_in_fields_iff
    (h : List.Forall₂ (fun c f => buildField leaves n c (dot path c.name) = .ok f.2) children fields) {row : Nat}
    (hrow : row < n) :
    (∀ f ∈ fields, row < f.2.length) ↔
      ∀ c ∈ children, c.isLeaf → ∀ e, leaves (dot path c.name) = some e → row < e.values.length := by
  induction h with
  | nil => simp
  | @cons c f children fields hf _ ih =>
    rw [forall_mem_cons, forall_mem_cons, ih]
    refine and_congr_left fun _ => ?_
    exact leaf_length_iff hf (row < ·) hrow

theorem structRows_settles {d : Nat} {driver : LeafEntries} (h : buildStructFields leaves n children path = .ok fields) :
    Settles ((List.range n).mapM (structRow d driver.defLevels fields)) (StructFits leaves n d driver children path)
      False := by
  refine .ofOption ?_ fun e he => mapM_error (fun row e => structRow_error) he
  rw [mapM_ok_iff]
  simp only [mem_range, structRow_iff, StructFits]
  refine forall₂_congr fun row hrow => exists_congr fun level => and_congr_right fun _ => ?_
  exact imp_congr_right fun _ => row_in_fields_iff (buildStructFields_forall₂ h) hrow

mutual

theorem buildField_settles : ∀ (node : SchemaNode) (path : List Char),
    Settles (buildField leaves n node path) (Fits leaves n node path) (Refused leaves n node path)
  | .mk name element children d r, path => by
    rw [buildField_eq]
    unfold Fits Refused
    dsimp only
    have hne : (SchemaNode.mk name element children d r).kind ≠ .leaf →
        (SchemaNode.mk name element children d r).children ≠ [] :=
      fun hk => children_ne_nil (mt (kind_leaf_iff _).2 hk)
    cases hk : (SchemaNode.mk name element children d r).kind with
    | leaf =>
      exact ((settles_lookup leaves path).bind fun e _ => .ok _).congr (by simp) (by simp)
    | list => exact buildListField_settles (hne (by rw [hk]; nofun))
    | map => exact buildMapField_settles (hne (by rw [hk]; nofun))
    | struct =>
      have ih := buildStructFields_settles children path
      cases hd : leaves (firstLeafPath (.mk name element children d r) path) with
      | none =>
        have hl : lookup leaves (firstLeafPath (.mk name element children d r) path) =
            .error (.missingLeafData (firstLeafPath (.mk name element children d r) path)) := by rw [lookup, hd]
        rw [hl]
        exact (Settles.refuse (by simp)).congr (by simp) (by simp)
      | some driver =>
        have hl : lookup leaves (firstLeafPath (.mk name element children d r) path) = .ok driver := by rw [lookup, hd]
        rw [hl]
        exact (ih.bind fun fields hf => structRows_settles hf).congr (by simp [SchemaNode.maxDefLevel]) (by simp)

theorem buildStructFields_settles : ∀ (children : List SchemaNode) (path : List Char),
    Settles (buildStructFields leaves n children path) (AllFit leaves n (dot path) children)
      (FirstRefused leaves n (dot path) children)
  | [], path => by
    unfold buildStructFields AllFit FirstRefused
    exact .ok []
  | c :: cs, path => by
    have hc := buildField_settles c (dot path c.name)
    have hcs := buildStructFields_settles cs path
    unfold buildStructFields AllFit FirstRefused
    exact (hc.bind fun vals _ => (hcs.bind fun more _ => .ok _)).congr (by simp) (by simp)

end

end Struct

/-! ## Row groups -/

/-- The top-level fields are built in order, as those of a struct are. -/
theorem reconstructRowGroup_settles {leaves : LeafData} {n : Nat} (children : List SchemaNode) :
    Settles (children.mapM fun field => do
        let vals ← buildField leaves n field field.name
        pure (field.name, vals))
      (AllFit leaves n id children) (FirstRefused leaves n id children) := by
  induction children with
  | nil =>
    unfold AllFit FirstRefused
    exact .ok []
  | cons c cs ih =>
    rw [mapM_cons]
    unfold AllFit FirstRefused
    have hc : Settles (buildField leaves n c c.name) _ _ := buildField_settles c c.name
    have hfield := hc.bind fun vals _ => .ok (c.name, vals)
    exact (hfield.bind fun f _ => (ih.bind fun more _ => .ok (f :: more))).congr (by simp) (by simp)

theorem reconstructRowGroup_lengths {leaves : LeafData} {n : Nat} {children : List SchemaNode}
    {fields : List (List Char × List NestedValue)}
    (h : (children.mapM fun field => do
        let vals ← buildField leaves n field field.name
        pure (field.name, vals)) = .ok fields) :
    (∀ f ∈ fields, f.2.length = n) ↔
      ∀ c ∈ children, c.isLeaf → ∀ e, leaves c.name = some e → e.values.length = n := by
  induction children generalizing fields with
  | nil =>
    cases h
    simp
  | cons c cs ih =>
    rw [mapM_cons, PageWalk.bind_eq_ok_iff] at h
    obtain ⟨f, hf, h⟩ := h
    obtain ⟨vals, hvals, hf⟩ := PageWalk.bind_eq_ok_iff.1 hf
    obtain ⟨more, hmore, h⟩ := PageWalk.bind_eq_ok_iff.1 h
    cases hf
    cases h
    rw [forall_mem_cons, forall_mem_cons, ih hmore]
    exact and_congr_left fun _ => leaf_length_iff hvals (· = n) rfl

/-- **No access is out of range and every field has the rows asked for**
exactly if a field is refused after fields that fit, or all fields fit and
each leaf at the top has as many values as there are rows. -/
theorem reconstruct_in_range_iff (root : SchemaNode) (n : Nat) (leaves : LeafData) :
    (reconstructRowGroup root n leaves ≠ .error .panicked ∧
      ∀ fields, reconstructRowGroup root n leaves = .ok fields → ∀ f ∈ fields, f.2.length = n) ↔
    FirstRefused leaves n id root.children ∨
      (AllFit leaves n id root.children ∧
        ∀ c ∈ root.children, c.isLeaf → ∀ e, leaves c.name = some e → e.values.length = n) := by
  have hs : Settles (reconstructRowGroup root n leaves) _ _ := reconstructRowGroup_settles root.children
  have hlen : ∀ fields, reconstructRowGroup root n leaves = .ok fields → _ := fun _ h => reconstructRowGroup_lengths h
  rw [← hs.ok_iff, ← hs.refused_iff]
  cases hx : reconstructRowGroup root n leaves with
  | error e => simp
  | ok fields => simpa using hlen fields hx

/-! ## Files -/

def shortNode (name : List Char) (repetition : Repetition) (children : List SchemaNode) : SchemaNode :=
  .mk name (sampleElement repetition) children 0 0

/-- One row is asked for: an empty list column is indexed out of range, and
an empty leaf column gives no row. -/
theorem rows_missing :
    reconstructRowGroup (shortNode [] .required [shortNode ['l'] .required [shortNode ['e'] .repeated []]]) 1
        (fun _ => some ⟨[], [], []⟩) = .error .panicked ∧
      reconstructRowGroup (shortNode [] .required [shortNode ['a'] .required []]) 1 (fun _ => some ⟨[], [], []⟩) =
        .ok [(['a'], [])] :=
  ⟨rfl, rfl⟩

end DbStorage.Parquet
