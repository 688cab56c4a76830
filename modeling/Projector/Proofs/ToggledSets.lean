import Mathlib
import Projector.Proofs.ReachableSessions

/-!
# Sets of selected addresses

A toggle turns the mark of one node over, and no mark depends on another. So toggling different
addresses one after the other is the same as turning over, all at once, the marks of the nodes at
these addresses that can be selected. The order of the addresses does not count, nor do addresses
of nothing that can be selected, and a session that toggles them shows the same expression as the
one that is made for all of them together.
-/

namespace Projector

namespace Node

mutual

/-- Turns the marks of all nodes over that are at one of some addresses and can be selected. -/
def turnOver (asked : String → Bool) : Node → Node
  | .mk label children =>
    let turned := asked label.address && (Node.mk label children).isSelectable
    .mk { label with selected := label.selected ^^ turned } (turnOverAll asked children)

/-- Does so for each of some nodes and all below them. -/
def turnOverAll (asked : String → Bool) : List Node → List Node
  | [] => []
  | child :: rest => turnOver asked child :: turnOverAll asked rest

end

/-- Turning marks over goes through the children one by one. -/
theorem turnOver_mk (asked : String → Bool) (label : Label) (children : List Node) :
    turnOver asked (.mk label children) =
      .mk { label with
          selected := label.selected ^^
            (asked label.address && (Node.mk label children).isSelectable) }
        (children.map (turnOver asked)) := by
  have hall : ∀ nodes, turnOverAll asked nodes = nodes.map (turnOver asked) := by
    intro nodes
    induction nodes with
    | nil => rfl
    | cons node rest ih => rw [turnOverAll, ih, List.map_cons]
  rw [turnOver, hall]

variable {asked : String → Bool} {path place : Path} {root node : Node}

/-- Turning marks over gives new labels to the nodes. -/
theorem turnOver_eq_labelEach (asked : String → Bool) (node : Node) :
    turnOver asked node = labelEach (fun node =>
      { node.label with
        selected := node.label.selected ^^
          (asked node.label.address && node.isSelectable) }) node := by
  induction node with
  | mk label children ih =>
    rw [turnOver_mk, labelEach_mk, label_mk]
    exact congrArg _ (List.map_congr_left ih)

/-- These labels differ from the old ones only in the marks. -/
theorem keepsPlaces_turnOver (asked : String → Bool) : KeepsPlaces fun node =>
    { node.label with
      selected := node.label.selected ^^
        (asked node.label.address && node.isSelectable) } :=
  ⟨fun _ => rfl, fun _ => rfl⟩

/-- A node keeps its key. -/
@[simp] theorem key_turnOver (asked : String → Bool) (node : Node) :
    (turnOver asked node).key = node.key := by
  rw [turnOver_eq_labelEach, (keepsPlaces_turnOver asked).key_labelEach]

/-- What can be selected does not depend on marks. -/
@[simp] theorem isSelectable_turnOver (asked : String → Bool) (node : Node) :
    (turnOver asked node).isSelectable = node.isSelectable := by
  rw [turnOver_eq_labelEach, (keepsPlaces_turnOver asked).isSelectable_labelEach]

/-- A node stores the address that it stored before. -/
@[simp] theorem address_turnOver (asked : String → Bool) (node : Node) :
    (turnOver asked node).label.address = node.label.address := by
  rw [turnOver_eq_labelEach, label_labelEach]

/-- A node is chosen afterwards when it can be selected and its mark is set, or else turned over. -/
theorem isChosen_turnOver (asked : String → Bool) (node : Node) :
    (turnOver asked node).isChosen =
      ((node.label.selected ^^ asked node.label.address) && node.isSelectable) := by
  have hself := isSelectable_turnOver asked node
  cases node
  rw [turnOver_mk] at hself ⊢
  rw [isChosen, hself, label_mk, label_mk]
  cases isSelectable _ <;> simp

/-- Turning marks over at some addresses and then at others turns over those at addresses that are
among only one of both. -/
theorem turnOver_turnOver (asked others : String → Bool) (node : Node) :
    turnOver others (turnOver asked node) =
      turnOver (fun address => asked address ^^ others address) node := by
  induction node with
  | mk label children ih =>
    have hself := isSelectable_turnOver asked (.mk label children)
    rw [turnOver_mk] at hself
    rw [turnOver_mk, turnOver_mk, turnOver_mk, hself, List.map_map]
    congr 1
    · cases asked label.address <;> cases others label.address <;> simp
    · exact List.map_congr_left ih

/-- Where nothing that can be selected is at one of the addresses, no mark is turned over. -/
theorem turnOver_eq_self (h : ∀ place found, (place, found) ∈ walk path node →
    asked found.label.address = true → found.isSelectable = false) :
    turnOver asked node = node := by
  induction node generalizing path with
  | mk label children ih =>
    have hself : (asked label.address && (Node.mk label children).isSelectable) = false := by
      cases hasked : asked label.address with
      | false => rfl
      | true => simpa using h path _ (mem_walk_self _ _) hasked
    have hchildren : children.map (turnOver asked) = children := by
      conv_rhs => rw [← List.map_id children]
      exact List.map_congr_left fun child hchild => ih child hchild fun place found hfound =>
        h place found (mem_walk_iff.mpr (.inr ⟨child, hchild, hfound⟩))
    rw [turnOver_mk, hself, hchildren, Bool.xor_false]

/-- The walk goes through the same places. -/
theorem walk_turnOver (asked : String → Bool) (path : Path) (node : Node) :
    walk path (turnOver asked node) =
      (walk path node).map fun spot => (spot.1, turnOver asked spot.2) := by
  simp only [turnOver_eq_labelEach, (keepsPlaces_turnOver asked).walk_labelEach]

/-- The nodes of an outline stay where they are. -/
theorem located_turnOver (asked : String → Bool) (root : Node) :
    (turnOver asked root).located =
      root.located.map fun found => ⟨found.path, turnOver asked found.node⟩ := by
  simp only [turnOver_eq_labelEach, (keepsPlaces_turnOver asked).located_labelEach]

/-- Turning marks over keeps a node well formed. -/
theorem WellFormed.turnOver (hnode : node.WellFormed) (asked : String → Bool) :
    (Node.turnOver asked node).WellFormed := by
  rwa [turnOver_eq_labelEach, (keepsPlaces_turnOver asked).wellFormed_labelEach]

/-- Turning marks over keeps an outline consistent. -/
theorem Consistent.turnOver (hroot : root.Consistent) (asked : String → Bool) :
    (Node.turnOver asked root).Consistent where
  wellFormed := hroot.wellFormed.turnOver asked
  addressed := by
    intro place found hfound
    rw [walk_turnOver] at hfound
    obtain ⟨⟨spot, old⟩, hold, heq⟩ := List.mem_map.mp hfound
    obtain ⟨rfl, rfl⟩ := Prod.mk.inj heq
    exact (address_turnOver asked old).trans (hroot.addressed _ _ hold)

/-! ## Toggles -/

/-- No mark at or below a node is turned over when the address is that of a path which the node
does not lead to. -/
theorem turnOver_of_not_leads (haddressed : Everywhere Addressed path node)
    (h : ¬path <+: place) :
    turnOver (fun address => decide (address = place.address)) node = node := by
  refine @turnOver_eq_self _ path node fun spot found hfound hasked => absurd ?_ h
  rw [decide_eq_true_eq, haddressed spot found hfound] at hasked
  rw [← Address.address_injective hasked]
  exact prefix_of_mem_walk hfound

/-- Among some nodes of which none leads to a path, no mark is turned over at its address. -/
theorem map_turnOver_of_not_leads {inArray : Bool} {nodes : List Node}
    (haddressed : ∀ node ∈ nodes,
      Everywhere Addressed (path ++ Address.below inArray node.key) node)
    (h : ∀ node ∈ nodes, ¬path ++ Address.below inArray node.key <+: place) :
    nodes.map (turnOver fun address => decide (address = place.address)) = nodes := by
  conv_rhs => rw [← List.map_id nodes]
  exact List.map_congr_left fun node hnode =>
    turnOver_of_not_leads (haddressed node hnode) (h node hnode)

/-- Setting the mark of one node to what it was not is turning over the mark at its address. -/
theorem WellFormed.updateAt_setSelected {steps : Path} (hroot : root.WellFormed)
    (haddressed : Everywhere Addressed path root) (hnode : (path ++ steps, node) ∈ walk path root)
    (hselectable : node.isSelectable = true) :
    Node.updateAt (setSelected (!node.label.selected)) (Path.names steps) root =
      Node.turnOver (fun address => decide (address = (path ++ steps).address)) root := by
  induction root generalizing path steps with
  | mk label children ih =>
    obtain ⟨hself, hbelow⟩ := everywhere_mk.mp haddressed
    have hself : label.address = path.address := hself
    rcases mem_walk_iff.mp hnode with ⟨hplace, rfl⟩ | ⟨child, hchild, hdeeper⟩
    · obtain rfl : steps = [] := by simpa using hplace
      rw [List.append_nil, turnOver_mk, hselectable, hself, map_turnOver_of_not_leads hbelow
        fun child _ => not_below_prefix_self path label.kind.isArray child.key]
      simp [Path.names, Node.updateAt, setSelected, relabel, hself]
    · obtain ⟨deeper, rfl⟩ := exists_steps hdeeper
      obtain ⟨hkeys, -, hformed⟩ := wellFormed_mk.mp hroot
      rw [label_mk, ← List.append_assoc] at hdeeper
      have hstep := ih child hchild (hformed child hchild) (hbelow child hchild) hdeeper
      have hother : label.address ≠
          (path ++ (Address.below label.kind.isArray child.key ++ deeper)).address := by
        rw [hself]
        intro heq
        simpa [Address.below] using Address.address_injective heq
      obtain ⟨front, rest, rfl⟩ := List.append_of_mem hchild
      -- The other children do not lead to the node.
      have hapart : ∀ other ∈ front ++ rest, ¬path ++ Address.below label.kind.isArray other.key <+:
          path ++ (Address.below label.kind.isArray child.key ++ deeper) := by
        intro other hmem hleads
        rw [← List.append_assoc] at hleads
        exact key_ne_of_nodup hkeys other hmem
          (below_prefix_below hleads (List.prefix_append _ deeper))
      have hfront := map_turnOver_of_not_leads
        (fun other hmem => hbelow other (List.mem_append_left _ hmem))
        fun other hmem => hapart other (List.mem_append_left _ hmem)
      have hrest := map_turnOver_of_not_leads
        (fun other hmem => hbelow other (List.mem_append_right _ (List.mem_cons_of_mem _ hmem)))
        fun other hmem => hapart other (List.mem_append_right _ hmem)
      rw [List.append_assoc] at hstep
      rw [label_mk, names_below, Node.updateAt, map_update_eq _ hkeys, hstep, turnOver_mk,
        List.map_append, List.map_cons, hfront, hrest, decide_eq_false hother, Bool.false_and,
        Bool.xor_false]

/-- A toggle turns the mark at an address over, or changes nothing when nothing there can be
selected. -/
theorem Consistent.toggle_eq (hroot : root.Consistent) (address : String) :
    (root.toggle? address).getD root =
      Node.turnOver (fun other => decide (other = address)) root := by
  unfold toggle?
  cases hlocate : root.locate? address with
  | none =>
    refine (@turnOver_eq_self _ [] root fun place found hfound hasked => ?_).symm
    exact absurd (of_decide_eq_true hasked)
      (locate?_eq_none_iff.mp hlocate ⟨place, found⟩ (mem_located.mpr hfound))
  | some found =>
    obtain ⟨hfound, rfl⟩ := hroot.locate?_eq_some_iff.mp hlocate
    dsimp only
    split
    · rename_i hselectable
      rw [hroot.address_eq hfound]
      exact hroot.wellFormed.updateAt_setSelected hroot.addressed (mem_located.mp hfound)
        hselectable
    · rename_i hselectable
      refine (@turnOver_eq_self _ [] root fun place other hother hasked => ?_).symm
      have hmem : (⟨place, other⟩ : Located) ∈ root.located := mem_located.mpr hother
      rw [← hroot.eq_of_address hmem hfound (of_decide_eq_true hasked)] at hselectable
      exact Bool.eq_false_iff.mpr hselectable

/-- Toggling different addresses one after the other turns the marks at all of them over. -/
theorem Consistent.foldl_toggle (hroot : root.Consistent) {addresses : List String}
    (hdistinct : addresses.Nodup) :
    addresses.foldl (fun root address => (root.toggle? address).getD root) root =
      Node.turnOver (fun address => decide (address ∈ addresses)) root := by
  induction addresses generalizing root with
  | nil =>
    refine (@turnOver_eq_self _ [] root fun place found _ hasked => ?_).symm
    simp at hasked
  | cons address addresses ih =>
    obtain ⟨hnew, hdistinct⟩ := List.nodup_cons.mp hdistinct
    rw [List.foldl_cons, hroot.toggle_eq, ih (hroot.turnOver _) hdistinct, turnOver_turnOver]
    congr 1
    funext other
    by_cases hother : other = address
    · simp [hother, hnew]
    · simp [hother]

/-! ## What is selected -/

/-- The nodes of an outline that can be selected and are at one of some addresses. -/
def selectableAt (root : Node) (addresses : List String) : List Located :=
  root.located.filter fun found =>
    found.node.isSelectable && decide (found.address ∈ addresses)

/-- In a fresh outline in which marks were turned over, the nodes at these addresses are chosen. -/
theorem chosen_turnOver_ofDocument (document : Json) (addresses : List String) (ledger : Ledger) :
    Workspace.chosen
        { outline := (ofDocument document).turnOver fun address => decide (address ∈ addresses)
          ledger } =
      ((ofDocument document).selectableAt addresses).map fun found =>
        ⟨found.path, found.node.turnOver fun address => decide (address ∈ addresses)⟩ := by
  rw [Workspace.chosen, located_turnOver, List.filter_map, selectableAt]
  congr 1
  refine List.filter_congr fun found hfound => ?_
  have hunmarked : found.node.label.selected = false :=
    unmarked_ofDocument document _ _ (mem_located.mp hfound)
  rw [Function.comp_apply, isChosen_turnOver, hunmarked, Bool.false_xor, Bool.and_comm]
  rfl

/-- The entries of nodes that are shown where they live. -/
def entriesOf (nodes : List Located) : List Entry :=
  nodes.zipIdx.map fun (found, order) => found.entryAt id order

/-- The entries of a fresh outline in which marks were turned over are those of the nodes at these
addresses. -/
theorem entries_turnOver_ofDocument (document : Json) (addresses : List String)
    (ledger : Ledger) :
    Workspace.entries
        { outline := (ofDocument document).turnOver fun address => decide (address ∈ addresses)
          ledger } id =
      entriesOf ((ofDocument document).selectableAt addresses) := by
  rw [Workspace.entries, chosen_turnOver_ofDocument, List.zipIdx_map, List.map_map, entriesOf]
  refine List.map_congr_left fun spot _ => ?_
  simp [Located.entryAt]

end Node

open Node

/-- Where nothing was moved everything lives where it is shown. -/
theorem Trace.homeOf_nil : homeOf [] = id := rfl

/-- The expression for some addresses is that of the nodes at these addresses that can be
selected. -/
theorem expressionFor_eq {document : Json} (hdocument : document.WellFormed) (config : Config)
    (addresses : List String) : expressionFor config document addresses =
      Synthesis.expression config (entriesOf ((ofDocument document).selectableAt addresses)) := by
  have hroot := (Sound.ofDocument hdocument).consistent
  have hmembers : (fun address => decide (address ∈ addresses.eraseDups)) =
      fun address => decide (address ∈ addresses) := by
    funext address
    simp only [List.mem_eraseDups]
  have houtline := hroot.foldl_toggle (Synthesis.nodup_eraseDups addresses)
  rw [hmembers] at houtline
  have hselection : plainSelection
      ((ofDocument document).turnOver fun address => decide (address ∈ addresses)) =
        .ok (entriesOf ((ofDocument document).selectableAt addresses)) := by
    rw [← entries_turnOver_ofDocument document addresses .empty]
    refine entriesFrom_eq (fun path => rfl) (fun found hfound => ?_) 0
    exact (hroot.turnOver _).address_eq (List.mem_of_mem_filter hfound)
  have hshown : (Workspace.ofDocument document).outline = ofDocument document := rfl
  rw [hshown] at houtline
  simp only [expressionFor, houtline, hselection, bind, Except.bind]

namespace Session

/-- A toggle always returns, and changes nothing but the outline and what is derived from it. -/
theorem InStep.toggle_eq {session : Session} {traces : List Trace} {moved : List Path}
    (h : session.InStep traces moved) (address : String) :
    ∃ did selection expression, session.toggle address =
      { outcome := .ok did
        session := { session with
          workspace := session.workspace.withOutline fun root =>
            (root.toggle? address).getD root
          selection, expression }
        notices := [] } := by
  cases hnext : session.workspace.outline.toggle? address with
  | none =>
    refine ⟨false, session.selection, session.expression, ?_⟩
    simp only [Session.toggle, Workspace.toggle?, hnext, Option.map_none, Session.unchanged,
      Workspace.withOutline, Option.getD_none]
  | some outline =>
    have htoggle : session.workspace.toggle? address =
        some { session.workspace with outline } := by
      rw [Workspace.toggle?, hnext, Option.map_some]
    obtain ⟨expression, -, hreply⟩ :=
      { session with workspace := { session.workspace with outline } }.afterwards_eq true []
        (h.sound.toggle htoggle)
    refine ⟨true, Workspace.entries { session.workspace with outline } (Trace.homeOf traces),
      expression, ?_⟩
    rw [Session.toggle, htoggle]
    simp only [hreply, Workspace.withOutline, hnext, Option.getD_some]

/-- Toggles one after the other leave the options and toggle the outline. -/
theorem InStep.after_toggles {session : Session} {traces : List Trace} {moved : List Path}
    (h : session.InStep traces moved) (addresses : List String) :
    (session.after (addresses.map .toggle)).InStep traces moved ∧
      (session.after (addresses.map .toggle)).config = session.config ∧
      (session.after (addresses.map .toggle)).workspace =
        session.workspace.withOutline fun root =>
          addresses.foldl (fun root address => (root.toggle? address).getD root) root := by
  induction addresses generalizing session with
  | nil => exact ⟨h, rfl, rfl⟩
  | cons address addresses ih =>
    obtain ⟨hstep, -⟩ := h.toggle address
    obtain ⟨did, selection, expression, hreply⟩ := h.toggle_eq address
    obtain ⟨hafter, hconfig, hworkspace⟩ := ih hstep
    rw [List.map_cons, after_cons]
    refine ⟨hafter, hconfig.trans ?_, hworkspace.trans ?_⟩ <;> rw [hreply]
    rfl

end Session

/-- The expression for some addresses depends only on which addresses they are: it always exists,
and it is that of the nodes of the fresh outline that are at one of them and can be selected. A
session on the document, which there is when it can be written, shows the same expression after it
toggled each of the addresses once, in any order, and each of the toggles returns. -/
theorem expressionFor_of_mem_iff {document : Json} (hdocument : document.WellFormed)
    (config : Config) {addresses others : List String}
    (hsame : ∀ address, address ∈ addresses ↔ address ∈ others) :
    ∃ text, expressionFor config document addresses = .ok text ∧
      expressionFor config document others = .ok text ∧
      Synthesis.expression config
        (entriesOf ((ofDocument document).selectableAt addresses)) = .ok text ∧
      ∀ (engine : Engine) (filename : Option String) (order : List String), order.Nodup →
        (∀ address, address ∈ order ↔ address ∈ addresses) → document.IsWritable →
        ∃ first, Session.start document config engine filename = .ok first ∧
          (first.after (order.map .toggle)).expression = text ∧
          ∀ front address, front ++ [address] <+: order →
            ∃ did, ((first.after (front.map .toggle)).toggle address).outcome = .ok did := by
  have hnodes : ∀ members : List String, (∀ address, address ∈ members ↔ address ∈ addresses) →
      (ofDocument document).selectableAt members = (ofDocument document).selectableAt addresses :=
    fun members hmembers => by simp only [selectableAt, hmembers]
  obtain ⟨text, htext⟩ : ∃ text, Synthesis.expression config
      (entriesOf ((ofDocument document).selectableAt addresses)) = .ok text := by
    rw [← entries_turnOver_ofDocument document addresses .empty, Synthesis.expression,
      query_entries]
    exact ⟨_, rfl⟩
  refine ⟨text, ?_, ?_, htext, fun engine filename order hdistinct horder hwritable => ?_⟩
  · rw [expressionFor_eq hdocument, htext]
  · rw [expressionFor_eq hdocument, hnodes others fun address => (hsame address).symm, htext]
  obtain ⟨first, hstart, hfirst, rfl, hshown⟩ : ∃ first,
      Session.start document config engine filename = .ok first ∧ first.InStep [] [] ∧
        first.config = config ∧ first.workspace = .ofDocument document :=
    ⟨_, Session.start_eq hwritable config engine filename,
      Session.inStep_fresh hdocument hwritable ⟨rfl, rfl⟩ ⟨rfl, rfl⟩ ⟨rfl, rfl⟩, rfl, rfl⟩
  refine ⟨first, hstart, ?_, fun front address _ => ?_⟩
  · obtain ⟨hafter, hconfig, hworkspace⟩ := hfirst.after_toggles order
    have hroot := (Sound.ofDocument hdocument).consistent
    have hselection := hafter.selection.symm.trans hafter.sound.selection_eq
    rw [Trace.homeOf_nil, hworkspace, hshown, Workspace.withOutline,
      hroot.foldl_toggle hdistinct] at hselection
    have hentries := entries_turnOver_ofDocument document order .empty
    have hexpression := hafter.expression
    rw [hconfig, Except.ok.inj (hselection.trans (congrArg _ hentries)), hnodes order horder, htext]
      at hexpression
    exact (Except.ok.inj hexpression).symm
  · obtain ⟨hafter, -, -⟩ := hfirst.after_toggles front
    exact (hafter.toggle address).2

/-- A document with a field, an empty list and a field with an unruly key. -/
def mixedFields : Json :=
  .obj [("b", .int 1), ("a", .arr []), ("c", .obj [("x y", .bool true)])]

/-- Addresses out of order, twice, of nothing and of nodes that cannot be selected do not change
what the addresses of fields give, and a session that toggles them shows the same. -/
theorem expressionFor_of_mem_iff_mixedFields : mixedFields.WellFormed ∧ mixedFields.IsWritable ∧
    (∀ address, address ∈ ["$.c.\"x y\"", "$.b", "$.b", "$", "$.nothing"] ↔
      address ∈ ["$.nothing", "$", "$.b", "$.c.\"x y\""]) ∧
    ∃ text, expressionFor .standard mixedFields
        ["$.c.\"x y\"", "$.b", "$.b", "$", "$.nothing"] = .ok text ∧
      text = "\x7bb: .b, \"c.x y\": .c.\"x y\"\x7d" ∧
      expressionFor .standard mixedFields ["$.nothing", "$", "$.b", "$.c.\"x y\""] = .ok text ∧
      ∃ first, Session.start mixedFields .standard (.empty 1) none = .ok first ∧
        (first.after (["$", "$.c.\"x y\"", "$.nothing", "$.b"].map .toggle)).expression = text := by
  have hformed : mixedFields.WellFormed := by
    simp [mixedFields, Json.WellFormed, Json.WellFormedFields, Json.WellFormedItems,
      Fields.Distinct, Fields.names]
  have hsame : ∀ address, address ∈ ["$.c.\"x y\"", "$.b", "$.b", "$", "$.nothing"] ↔
      address ∈ ["$.nothing", "$", "$.b", "$.c.\"x y\""] := by
    intro address
    simp only [List.mem_cons, List.not_mem_nil, or_false]
    tauto
  have hseen : expressionFor .standard mixedFields
      ["$.c.\"x y\"", "$.b", "$.b", "$", "$.nothing"] =
        .ok "\x7bb: .b, \"c.x y\": .c.\"x y\"\x7d" := by
    cbv
  obtain ⟨text, htext, hother, -, hsessions⟩ := expressionFor_of_mem_iff hformed .standard hsame
  have horder : ∀ address, address ∈ ["$", "$.c.\"x y\"", "$.nothing", "$.b"] ↔
      address ∈ ["$.c.\"x y\"", "$.b", "$.b", "$", "$.nothing"] := by
    intro address
    simp only [List.mem_cons, List.not_mem_nil, or_false]
    tauto
  have hwritable : mixedFields.IsWritable := by decide +kernel
  obtain ⟨first, hstart, hshown, -⟩ := hsessions (.empty 1) none
    ["$", "$.c.\"x y\"", "$.nothing", "$.b"] (by decide) horder hwritable
  exact ⟨hformed, hwritable, hsame, text, htext, Except.ok.inj (htext.symm.trans hseen), hother,
    first, hstart, hshown⟩

end Projector
