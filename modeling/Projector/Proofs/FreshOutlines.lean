import Projector.Proofs.Outlines

/-!
# Fresh outlines

In the outline that a document is given, every node is at the path it was built from, stores the
address of that path, and has children with different keys.
-/

namespace Projector.Node

/-- A property of places and labels that every node at or below a node at a path has. -/
def Everywhere (property : Path → Label → Prop) (path : Path) (node : Node) : Prop :=
  ∀ place found, (place, found) ∈ walk path node → property place found.label

/-- The label stores the address of the path that leads to the node. -/
def Addressed (place : Path) (label : Label) : Prop := label.address = place.address

/-- The node was built where it is. -/
def Original (place : Path) (label : Label) : Prop := label.origin = place

/-- A property holds everywhere when the node itself has it and it holds everywhere in its
children. -/
theorem everywhere_mk {property : Path → Label → Prop} {path : Path} {label : Label}
    {children : List Node} :
    Everywhere property path (.mk label children) ↔ property path label ∧ ∀ child ∈ children,
      Everywhere property (path ++ Address.below label.kind.isArray child.key) child := by
  unfold Everywhere
  constructor
  · intro h
    refine ⟨h path _ (mem_walk_self _ _), fun child hchild place found hfound => ?_⟩
    exact h place found (mem_walk_iff.mpr (.inr ⟨child, hchild, hfound⟩))
  · rintro ⟨hself, hbelow⟩ place found hfound
    rcases mem_walk_iff.mp hfound with ⟨rfl, rfl⟩ | ⟨child, hchild, hdeeper⟩
    · exact hself
    · exact hbelow child hchild place found hdeeper

/-- What holds of a node right after it was built at a path. -/
structure Fresh (path : Path) (node : Node) : Prop where
  wellFormed : node.WellFormed
  addressed : Everywhere Addressed path node
  original : Everywhere Original path node

/-- A built node is fresh when its children are and their keys are different. -/
theorem fresh_fresh {key : String} {kind : Kind} {path : Path} {children : List Node}
    (hkeys : (children.map Node.key).Nodup) (hkind : kind.isContainer = false → children = [])
    (hchildren : ∀ child ∈ children, Fresh (path ++ Address.below kind.isArray child.key) child) :
    Fresh path (fresh key path.address kind path children) where
  wellFormed :=
    wellFormed_mk.mpr ⟨hkeys, hkind, fun child hchild => (hchildren child hchild).wellFormed⟩
  addressed := everywhere_mk.mpr ⟨rfl, fun child hchild => (hchildren child hchild).addressed⟩
  original := everywhere_mk.mpr ⟨rfl, fun child hchild => (hchildren child hchild).original⟩

/-- The node of a value is reached under the key it is built for. -/
theorem key_build (key address : String) (path : Path) (value : Json) :
    (build key address path value).key = key := by
  unfold build
  split <;> rfl

/-- The nodes of some fields have the names of the fields as keys. -/
theorem map_key_buildFields (parent : String) (inArray : Bool) (base : Path)
    (fields : List (String × Json)) :
    (buildFields parent inArray base fields).map key = Fields.names fields := by
  induction fields with
  | nil => rfl
  | cons field rest ih =>
    obtain ⟨name, value⟩ := field
    simp [buildFields, key_build, ih, Fields.names]

/-- Nodes built from a value with different keys in every object are fresh. -/
theorem fresh_build (key : String) (path : Path) (value : Json) (hvalue : value.WellFormed) :
    Fresh path (build key path.address path value) := by
  refine (build.mutual_induct
    (fun key address path value => address = path.address → value.WellFormed →
      Fresh path (build key address path value))
    (fun parent inArray base fields => ∀ path : Path, parent = path.address →
      base = (if inArray then path ++ [.each] else path) → Json.WellFormedFields fields →
      ∀ child ∈ buildFields parent inArray base fields,
        Fresh (path ++ Address.below inArray child.key) child)
    ?object ?empty ?objects ?plain ?scalar ?none ?field).1 key path.address path value rfl hvalue
  case object =>
    rintro key address path fields hfields rfl ⟨hdistinct, hvalues⟩
    rw [build]
    refine fresh_fresh (by rwa [map_key_buildFields]) (by simp [Kind.isContainer]) ?_
    exact hfields path rfl rfl hvalues
  case empty =>
    rintro key address path rfl -
    rw [build]
    exact fresh_fresh (by simp) (by simp) (by simp)
  case objects =>
    rintro key address path fields rest hfields rfl ⟨⟨hdistinct, hvalues⟩, -⟩
    rw [build]
    refine fresh_fresh (by rwa [map_key_buildFields]) (by simp [Kind.isContainer]) ?_
    exact hfields path rfl rfl hvalues
  case plain =>
    rintro key address path first rest hfirst rfl -
    rw [build.eq_4 _ _ _ _ _ hfirst]
    exact fresh_fresh (by simp) (by simp) (by simp)
  case scalar =>
    rintro key address path value hobject hempty hobjects hplain rfl -
    rw [build.eq_5 _ _ _ _ hobject hempty hobjects hplain]
    exact fresh_fresh (by simp) (by simp) (by simp)
  case none =>
    rintro parent inArray base path - - -
    simp [buildFields]
  case field =>
    rintro parent inArray base key value rest hvalue hrest path rfl hbase ⟨hfirst, hothers⟩ child
      hchild
    have hplace : base ++ [.field key] = path ++ Address.below inArray key := by
      subst hbase
      cases inArray <;> simp [Address.below]
    rw [buildFields] at hchild
    rcases List.mem_cons.mp hchild with rfl | hchild
    · rw [key_build, ← hplace]
      exact hvalue (by rw [Address.child_address, hplace]) hfirst
    · exact hrest path rfl hbase hothers child hchild

/-- Showing a node expanded changes nothing else about it. -/
theorem Fresh.expand {path : Path} {label : Label} {children : List Node}
    (h : Fresh path (.mk label children)) (expanded : Bool) :
    Fresh path (.mk { label with expanded } children) := by
  obtain ⟨hformed, haddressed, horiginal⟩ := h
  rw [wellFormed_mk] at hformed
  rw [everywhere_mk] at haddressed horiginal
  exact ⟨wellFormed_mk.mpr hformed, everywhere_mk.mpr haddressed, everywhere_mk.mpr horiginal⟩

/-- The outline of a document with different keys in every object is fresh. -/
theorem fresh_ofDocument {document : Json} (hdocument : document.WellFormed) :
    Fresh [] (ofDocument document) := by
  have hbuild := fresh_build rootKey [] document hdocument
  unfold ofDocument Address.root
  cases hroot : build rootKey (Path.address []) [] document with
  | mk label children =>
    rw [hroot] at hbuild
    exact hbuild.expand true

/-! ## Nothing is marked yet -/

/-- What holds of every label as it is written when a node is built holds everywhere in the node of
a value. -/
theorem everywhere_build {property : Path → Label → Prop}
    (hlabel : ∀ place key address kind origin,
      property place { key, address, kind, expanded := false, selected := false, origin })
    (key address : String) (path : Path) (value : Json) (start : Path) :
    Everywhere property start (build key address path value) := by
  refine (build.mutual_induct
    (fun key address path value => ∀ start,
      Everywhere property start (build key address path value))
    (fun parent inArray base fields => ∀ start,
      ∀ child ∈ buildFields parent inArray base fields, Everywhere property start child)
    ?object ?empty ?objects ?plain ?scalar ?none ?field).1 key address path value start
  case object =>
    intro key address path fields hfields start
    rw [build]
    exact everywhere_mk.mpr ⟨hlabel .., fun child hchild => hfields _ child hchild⟩
  case empty =>
    intro key address path start
    rw [build]
    exact everywhere_mk.mpr ⟨hlabel .., by simp⟩
  case objects =>
    intro key address path fields rest hfields start
    rw [build]
    exact everywhere_mk.mpr ⟨hlabel .., fun child hchild => hfields _ child hchild⟩
  case plain =>
    intro key address path first rest hfirst start
    rw [build.eq_4 _ _ _ _ _ hfirst]
    exact everywhere_mk.mpr ⟨hlabel .., by simp⟩
  case scalar =>
    intro key address path value hobject hempty hobjects hplain start
    rw [build.eq_5 _ _ _ _ hobject hempty hobjects hplain]
    exact everywhere_mk.mpr ⟨hlabel .., by simp⟩
  case none =>
    intro parent inArray base start
    simp [buildFields]
  case field =>
    intro parent inArray base key value rest hvalue hrest start
    rw [buildFields]
    exact List.forall_mem_cons.mpr ⟨hvalue start, hrest start⟩

/-- The node is not marked. -/
def Unmarked (_ : Path) (label : Label) : Prop := label.selected = false

/-- No node of the outline of a document is marked. -/
theorem unmarked_ofDocument (document : Json) : Everywhere Unmarked [] (ofDocument document) := by
  have hbuild : Everywhere Unmarked [] (build rootKey Address.root [] document) :=
    everywhere_build (fun _ _ _ _ _ => rfl) _ _ _ _ _
  unfold ofDocument
  cases hroot : build rootKey Address.root [] document with
  | mk label children =>
    rw [hroot, everywhere_mk] at hbuild
    exact everywhere_mk.mpr hbuild

/-- The outline of a document has no selection. -/
theorem hasSelection_ofDocument (document : Json) : hasSelection (ofDocument document) = false := by
  refine Bool.eq_false_iff.mpr fun hsome => ?_
  obtain ⟨place, found, hfound, hchosen⟩ := (hasSelection_iff []).mp hsome
  have hunmarked : found.label.selected = false := unmarked_ofDocument document place found hfound
  rw [isChosen, hunmarked] at hchosen
  cases hchosen

end Projector.Node
