import MultiVac.Merkle.DeltaTree

/-!
# Trees stored in the heap

A sketch is the part of a tree that the heap holds: nodes whose children are in
the heap, and stubs below which the tree is hidden. The leaves of a sketch keep
their first values, and a function gives the value that each leaf has now, so an
update of a leaf leaves the sketch as it is.
-/

namespace MultiVac.Merkle

open Lib

/-- The part of a tree that is in the heap. -/
inductive Sketch where
  | stub (id : NodeId) (hidden : Tree)
  | inner (id : NodeId) (left right : Sketch)

namespace Sketch

/-- The node at the top. -/
def id : Sketch → NodeId
  | stub id _ => id
  | inner id _ _ => id

@[simp]
theorem id_stub (id : NodeId) (hidden : Tree) : (stub id hidden).id = id := rfl

@[simp]
theorem id_inner (id : NodeId) (left right : Sketch) : (inner id left right).id = id := rfl

/-- The tree that is sketched. -/
def whole : Sketch → Tree
  | stub _ hidden => hidden
  | inner _ left right => .node left.whole right.whole

/-- The nodes in the heap. -/
def ids : Sketch → List NodeId
  | stub id _ => [id]
  | inner id left right => id :: (left.ids ++ right.ids)

/-- The nodes below which the tree is hidden. -/
def stubs : Sketch → List (NodeId × Tree)
  | stub id hidden => [(id, hidden)]
  | inner _ left right => left.stubs ++ right.stubs

/-- One step up in a sketch: the parent, and the sibling with its side. -/
structure Frame where
  id : NodeId
  onLeft : Bool
  sibling : Sketch

/-- The frame of the sketched tree. -/
def Frame.whole (frame : Frame) : HashTree.Frame MerkleHash :=
  ⟨frame.onLeft, frame.sibling.whole⟩

variable (sketch : Sketch)

/-- The parent of a sketch and its sibling. -/
def up (frame : Frame) : Sketch :=
  if frame.onLeft then inner frame.id frame.sibling sketch
  else inner frame.id sketch frame.sibling

/-- The sketch around a part of it. -/
def plug (frames : List Frame) : Sketch := frames.foldl up sketch

@[simp]
theorem plug_nil : sketch.plug [] = sketch := rfl

@[simp]
theorem plug_cons (frame : Frame) (frames : List Frame) :
    sketch.plug (frame :: frames) = (sketch.up frame).plug frames := rfl

theorem plug_append (lower upper : List Frame) :
    sketch.plug (lower ++ upper) = (sketch.plug lower).plug upper := List.foldl_append

theorem up_of_left {frame : Frame} (onLeft : frame.onLeft = true) (sketch : Sketch) :
    sketch.up frame = inner frame.id frame.sibling sketch := if_pos onLeft

theorem up_of_right {frame : Frame} (onRight : frame.onLeft = false) (sketch : Sketch) :
    sketch.up frame = inner frame.id sketch frame.sibling := by
  simp [up, onRight]

@[simp]
theorem id_up (frame : Frame) : (sketch.up frame).id = frame.id := by
  cases onLeft : frame.onLeft <;> simp [up, onLeft, id]

theorem whole_up (frame : Frame) : (sketch.up frame).whole = sketch.whole.up frame.whole := by
  cases onLeft : frame.onLeft <;> simp [up, onLeft, whole, HashTree.up, Frame.whole]

theorem whole_plug (frames : List Frame) :
    (sketch.plug frames).whole = sketch.whole.plug (frames.map Frame.whole) := by
  induction frames generalizing sketch with
  | nil => rfl
  | cons frame frames ih =>
    rw [plug_cons, ih, whole_up, List.map_cons, HashTree.plug_cons]

/-- The hash of a parent, from the values that the leaves have now. -/
theorem treeRoot_up (value : MerkleHash → MerkleHash) (sketch : Sketch) (frame : Frame) :
    treeRoot ((sketch.up frame).whole.map value) =
      HashTree.ascend nodeHash (treeRoot (sketch.whole.map value))
        (frame.onLeft, treeRoot (frame.sibling.whole.map value)) := by
  rw [whole_up, HashTree.map_up, treeRoot, HashTree.digest_up]
  rfl

/-- The nodes of the frames and of the siblings in them. -/
def frameIds (frames : List Frame) : List NodeId :=
  frames.flatMap fun frame => frame.id :: frame.sibling.ids

theorem ids_up_perm (frame : Frame) :
    (sketch.up frame).ids.Perm (sketch.ids ++ frame.id :: frame.sibling.ids) := by
  cases onLeft : frame.onLeft with
  | true =>
    rw [up_of_left onLeft]
    exact (List.perm_append_comm.cons frame.id).trans List.perm_middle.symm
  | false =>
    rw [up_of_right onLeft]
    exact List.perm_middle.symm

theorem ids_plug_perm (frames : List Frame) :
    (sketch.plug frames).ids.Perm (sketch.ids ++ frameIds frames) := by
  induction frames generalizing sketch with
  | nil => simp [frameIds]
  | cons frame frames ih =>
    rw [plug_cons, show frameIds (frame :: frames) =
      (frame.id :: frame.sibling.ids) ++ frameIds frames from rfl, ← List.append_assoc]
    exact (ih _).trans ((ids_up_perm sketch frame).append_right _)

theorem id_mem_ids : sketch.id ∈ sketch.ids := by
  cases sketch <;> simp [id, ids]

theorem mem_stubs_up (entry : NodeId × Tree) (sketch : Sketch) (frame : Frame) :
    entry ∈ (sketch.up frame).stubs ↔ entry ∈ sketch.stubs ∨ entry ∈ frame.sibling.stubs := by
  cases onLeft : frame.onLeft <;> simp [up, onLeft, stubs, or_comm]

theorem mem_stubs_plug (entry : NodeId × Tree) (sketch : Sketch) (frames : List Frame) :
    entry ∈ (sketch.plug frames).stubs ↔
      entry ∈ sketch.stubs ∨ ∃ frame ∈ frames, entry ∈ frame.sibling.stubs := by
  induction frames generalizing sketch with
  | nil => simp
  | cons frame frames ih =>
    rw [plug_cons, ih, mem_stubs_up]
    simp [or_assoc]

variable {sketch : Sketch}

theorem exists_plug_of_mem_ids {id : NodeId} (inIds : id ∈ sketch.ids) :
    ∃ part frames, sketch = plug part frames ∧ part.id = id := by
  induction sketch with
  | stub own hidden =>
    exact ⟨stub own hidden, [], rfl, (List.mem_singleton.mp inIds).symm⟩
  | inner own left right leftIh rightIh =>
    rcases List.mem_cons.mp inIds with rfl | below
    · exact ⟨inner id left right, [], rfl, rfl⟩
    · rcases List.mem_append.mp below with inLeft | inRight
      · obtain ⟨part, frames, rfl, same⟩ := leftIh inLeft
        exact ⟨part, frames ++ [⟨own, false, right⟩], by simp [plug_append, up], same⟩
      · obtain ⟨part, frames, rfl, same⟩ := rightIh inRight
        exact ⟨part, frames ++ [⟨own, true, left⟩], by simp [plug_append, up], same⟩

variable {hidden : Tree}

theorem exists_plug_of_mem_stubs {id : NodeId}
    (inStubs : (id, hidden) ∈ sketch.stubs) : ∃ frames, sketch = plug (stub id hidden) frames := by
  induction sketch with
  | stub own tree =>
    obtain ⟨rfl, rfl⟩ := Prod.mk.inj (List.mem_singleton.mp inStubs)
    exact ⟨[], rfl⟩
  | inner own left right leftIh rightIh =>
    rcases List.mem_append.mp inStubs with inLeft | inRight
    · obtain ⟨frames, rfl⟩ := leftIh inLeft
      exact ⟨frames ++ [⟨own, false, right⟩], by simp [plug_append, up]⟩
    · obtain ⟨frames, rfl⟩ := rightIh inRight
      exact ⟨frames ++ [⟨own, true, left⟩], by simp [plug_append, up]⟩

/-- The stub at the right end. -/
def last : Sketch → NodeId × Tree
  | stub id hidden => (id, hidden)
  | inner _ _ right => right.last

variable {frames : List Frame}

theorem last_plug_of_left (left : ∀ frame ∈ frames, frame.onLeft = true)
    (sketch : Sketch) : (sketch.plug frames).last = sketch.last := by
  induction frames generalizing sketch with
  | nil => rfl
  | cons frame frames ih =>
    rw [plug_cons, ih fun later inFrames =>
      left later (List.mem_cons_of_mem _ inFrames), up_of_left (left frame List.mem_cons_self)]
    rfl

theorem exists_left_plug {id : NodeId} (isLast : sketch.last = (id, hidden)) :
    ∃ frames, (∀ frame ∈ frames, frame.onLeft = true) ∧ sketch = plug (stub id hidden) frames := by
  induction sketch with
  | stub own tree =>
    obtain ⟨rfl, rfl⟩ := Prod.mk.inj isLast
    exact ⟨[], by simp, rfl⟩
  | inner own left right _ rightIh =>
    obtain ⟨frames, allLeft, rfl⟩ := rightIh isLast
    refine ⟨frames ++ [⟨own, true, left⟩], ?_, by simp [plug_append, up]⟩
    intro frame inFrames
    rcases List.mem_append.mp inFrames with earlier | isNew
    · exact allLeft frame earlier
    · rw [List.mem_singleton.mp isNew]

/-! ### Sketches that show more of a tree -/

/-- Hidden parts of a sketch have become visible. -/
inductive Expands : Sketch → Sketch → Prop where
  | stub {id : NodeId} {hidden : Tree} {grown : Sketch} (sameId : grown.id = id)
      (sameWhole : grown.whole = hidden) : Expands (.stub id hidden) grown
  | inner {id : NodeId} {left right grownLeft grownRight : Sketch} (inLeft : Expands left grownLeft)
      (inRight : Expands right grownRight) :
      Expands (.inner id left right) (.inner id grownLeft grownRight)

theorem Expands.refl (sketch : Sketch) : Expands sketch sketch := by
  induction sketch with
  | stub id hidden => exact .stub rfl rfl
  | inner id left right leftIh rightIh => exact .inner leftIh rightIh

variable {grown : Sketch}

theorem Expands.id (expands : Expands sketch grown) : grown.id = sketch.id := by
  cases expands with
  | stub sameId _ => exact sameId
  | inner _ _ => rfl

theorem Expands.whole (expands : Expands sketch grown) : grown.whole = sketch.whole := by
  induction expands with
  | stub _ sameWhole => exact sameWhole
  | inner _ _ leftIh rightIh =>
    rw [Sketch.whole, Sketch.whole, leftIh, rightIh]

theorem Expands.up (expands : Expands sketch grown)
    (frame : Frame) : Expands (sketch.up frame) (grown.up frame) := by
  cases onLeft : frame.onLeft with
  | true =>
    rw [up_of_left onLeft, up_of_left onLeft]
    exact .inner (.refl _) expands
  | false =>
    rw [up_of_right onLeft, up_of_right onLeft]
    exact .inner expands (.refl _)

theorem Expands.plug (expands : Expands sketch grown)
    (frames : List Frame) : Expands (sketch.plug frames) (grown.plug frames) := by
  induction frames generalizing sketch grown with
  | nil => exact expands
  | cons frame frames ih => exact ih (expands.up frame)

/-- A part keeps its place when more of the tree becomes visible. -/
theorem Expands.exists_plug {part : Sketch} (expands : Expands (part.plug frames) grown) :
    ∃ grownPart grownFrames, grown = Sketch.plug grownPart grownFrames ∧ Expands part grownPart ∧
      grownFrames.map Frame.whole = frames.map Frame.whole := by
  induction frames generalizing part with
  | nil => exact ⟨grown, [], rfl, expands, rfl⟩
  | cons frame frames ih =>
    obtain ⟨grownUp, grownFrames, rfl, expandsUp, sameFrames⟩ := ih expands
    cases onLeft : frame.onLeft with
    | true =>
      rw [up_of_left onLeft] at expandsUp
      cases expandsUp with
      | inner inSibling inPart =>
        refine ⟨_, ⟨frame.id, true, _⟩ :: grownFrames, rfl, inPart, ?_⟩
        simp [Frame.whole, onLeft, inSibling.whole, sameFrames]
    | false =>
      rw [up_of_right onLeft] at expandsUp
      cases expandsUp with
      | inner inPart inSibling =>
        refine ⟨_, ⟨frame.id, false, _⟩ :: grownFrames, rfl, inPart, ?_⟩
        simp [Frame.whole, onLeft, inSibling.whole, sameFrames]

/-- A leaf at the right end stays there. -/
theorem Expands.last (expands : Expands sketch grown) {id : NodeId} {leaf : MerkleHash}
    (isLast : sketch.last = (id, .leaf leaf)) : grown.last = (id, .leaf leaf) := by
  induction expands with
  | @stub own hidden grown sameId sameWhole =>
    obtain ⟨rfl, rfl⟩ := Prod.mk.inj isLast
    cases grown with
    | stub other tree => exact Prod.ext sameId sameWhole
    | inner other left right => cases sameWhole
  | inner _ _ _ rightIh => exact rightIh isLast

/-- A visible leaf stays visible. -/
theorem Expands.leaf_mem_stubs (expands : Expands sketch grown) {id : NodeId} {leaf : MerkleHash}
    (inStubs : (id, .leaf leaf) ∈ sketch.stubs) : (id, .leaf leaf) ∈ grown.stubs := by
  induction expands with
  | @stub own hidden grown sameId sameWhole =>
    obtain ⟨rfl, rfl⟩ := Prod.mk.inj (List.mem_singleton.mp inStubs)
    cases grown with
    | stub other tree => exact List.mem_singleton.mpr (Prod.ext sameId.symm sameWhole.symm)
    | inner other left right => cases sameWhole
  | inner _ _ leftIh rightIh =>
    exact List.mem_append.mpr ((List.mem_append.mp inStubs).imp leftIh rightIh)

/-! ### Sketches of renamed trees -/

/-- The same sketch of a tree over other leaves. -/
def map (rename : MerkleHash → MerkleHash) : Sketch → Sketch
  | stub id hidden => stub id (hidden.map rename)
  | inner id left right => inner id (left.map rename) (right.map rename)

/-- The same frame over other leaves. -/
def Frame.map (rename : MerkleHash → MerkleHash) (frame : Frame) : Frame :=
  ⟨frame.id, frame.onLeft, frame.sibling.map rename⟩

variable (rename : MerkleHash → MerkleHash)

@[simp]
theorem id_map (sketch : Sketch) : (sketch.map rename).id = sketch.id := by
  cases sketch <;> rfl

@[simp]
theorem ids_map (sketch : Sketch) : (sketch.map rename).ids = sketch.ids := by
  induction sketch with
  | stub id hidden => rfl
  | inner id left right leftIh rightIh =>
    rw [map, ids, ids, leftIh, rightIh]

theorem whole_map (sketch : Sketch) : (sketch.map rename).whole = sketch.whole.map rename := by
  induction sketch with
  | stub id hidden => rfl
  | inner id left right leftIh rightIh =>
    rw [map, whole, whole, leftIh, rightIh]
    rfl

theorem map_plug (sketch : Sketch) (frames : List Frame) :
    (sketch.plug frames).map rename = (sketch.map rename).plug (frames.map (Frame.map rename)) := by
  induction frames generalizing sketch with
  | nil => rfl
  | cons frame frames ih =>
    rw [plug_cons, ih, List.map_cons, plug_cons]
    congr 1
    cases onLeft : frame.onLeft <;> simp [up, Frame.map, map, onLeft]

/-! ### Sketches in the heap -/

section Heap

variable (value : MerkleHash → MerkleHash) (node : NodeId → Node)

/-- The heap holds a sketch below a given parent, with the hashes for the values
that the leaves have now. -/
def Stored : Option NodeId → Sketch → Prop
  | parent, stub id hidden => node id = ⟨parent, none, none, treeRoot (hidden.map value)⟩
  | parent, inner id left right =>
    node id =
        ⟨parent, some left.id, some right.id, treeRoot ((inner id left right).whole.map value)⟩ ∧
      Stored (some id) left ∧ Stored (some id) right

/-- The parent in the next frame. -/
def above (frames : List Frame) : Option NodeId := frames.head?.map Frame.id

/-- The heap holds the frames around a child. Nothing is said about the hashes of
the nodes above the child. -/
def Around : NodeId → List Frame → Prop
  | _, [] => True
  | child, frame :: frames =>
    (node frame.id).parent = above frames ∧
      (node frame.id).leftChild = some (if frame.onLeft then frame.sibling.id else child) ∧
      (node frame.id).rightChild = some (if frame.onLeft then child else frame.sibling.id) ∧
      Stored value node (some frame.id) frame.sibling ∧ Around frame.id frames

variable {value node} {sketch : Sketch}

theorem Stored.hash {parent : Option NodeId} (stored : sketch.Stored value node parent) :
    (node sketch.id).hash = treeRoot (sketch.whole.map value) := by
  cases sketch with
  | stub id hidden => exact congrArg Node.hash stored
  | inner id left right => exact congrArg Node.hash stored.1

theorem Stored.parent {parent : Option NodeId}
    (stored : sketch.Stored value node parent) : (node sketch.id).parent = parent := by
  cases sketch with
  | stub id hidden => exact congrArg Node.parent stored
  | inner id left right => exact congrArg Node.parent stored.1

variable {changed : NodeId → Node}

/-- A change outside of a sketch keeps it stored. -/
theorem Stored.frame {parent : Option NodeId} (stored : sketch.Stored value node parent)
    (same : ∀ id ∈ sketch.ids, changed id = node id) : sketch.Stored value changed parent := by
  induction sketch generalizing parent with
  | stub id hidden => exact (same id List.mem_cons_self).trans stored
  | inner id left right leftIh rightIh =>
    obtain ⟨own, leftStored, rightStored⟩ := stored
    exact ⟨(same id List.mem_cons_self).trans own,
      leftIh leftStored fun other inLeft => same other (by simp [ids, inLeft]),
      rightIh rightStored fun other inRight => same other (by simp [ids, inRight])⟩

/-- A new parent of the node at the top. -/
theorem Stored.reparent {parent : Option NodeId} (stored : sketch.Stored value node parent)
    {other : Option NodeId} (top : changed sketch.id = { node sketch.id with parent := other })
    (nodup : sketch.ids.Nodup) (same : ∀ id ∈ sketch.ids, id ≠ sketch.id → changed id = node id) :
    sketch.Stored value changed other := by
  cases sketch with
  | stub id hidden =>
    have own : node id = _ := stored
    rw [id_stub, own] at top
    exact top
  | inner id left right =>
    obtain ⟨own, leftStored, rightStored⟩ := stored
    obtain ⟨fresh, -⟩ := List.nodup_cons.mp nodup
    rw [List.mem_append, not_or] at fresh
    rw [id_inner, own] at top
    refine ⟨top, leftStored.frame fun child inLeft => ?_, rightStored.frame fun child inRight => ?_⟩
    · refine same child (by simp [ids, inLeft]) ?_
      rintro rfl
      exact fresh.1 inLeft
    · refine same child (by simp [ids, inRight]) ?_
      rintro rfl
      exact fresh.2 inRight

variable {other : MerkleHash → MerkleHash}

/-- New values of other leaves keep a sketch stored. -/
theorem Stored.congr {parent : Option NodeId} (stored : sketch.Stored value node parent)
    (same : ∀ leaf ∈ sketch.whole.leaves, other leaf = value leaf) :
    sketch.Stored other node parent := by
  induction sketch generalizing parent with
  | stub id hidden =>
    rw [Stored, HashTree.map_congr (show ∀ leaf ∈ hidden.leaves, _ from same)]
    exact stored
  | inner id left right leftIh rightIh =>
    obtain ⟨own, leftStored, rightStored⟩ := stored
    refine ⟨?_, leftIh leftStored fun leaf inLeft => same leaf ?_,
      rightIh rightStored fun leaf inRight => same leaf ?_⟩
    · rw [HashTree.map_congr same]
      exact own
    · simp [whole, HashTree.leaves, inLeft]
    · simp [whole, HashTree.leaves, inRight]

/-- The values that leaves have now may be written into the sketch. -/
theorem Stored.map {parent : Option NodeId} (stored : sketch.Stored value node parent) :
    (sketch.map value).Stored (fun leaf => leaf) node parent := by
  induction sketch generalizing parent with
  | stub id hidden =>
    refine Eq.trans stored ?_
    rw [@HashTree.map_eq_self _ (hidden.map value) _ fun _ _ => rfl]
  | inner id left right leftIh rightIh =>
    obtain ⟨own, leftStored, rightStored⟩ := stored
    refine ⟨?_, leftIh leftStored, rightIh rightStored⟩
    rw [show inner id (left.map value) (right.map value) = (inner id left right).map value from rfl,
      whole_map, @HashTree.map_eq_self _ ((inner id left right).whole.map value) _ fun _ _ =>
        rfl, id_map, id_map]
    exact own

variable {child : NodeId} {frames : List Frame}

theorem Around.frame (around : Around value node child frames)
    (same : ∀ id ∈ frameIds frames, changed id = node id) : Around value changed child frames := by
  induction frames generalizing child with
  | nil => trivial
  | cons frame frames ih =>
    obtain ⟨parent, left, right, sibling, rest⟩ := around
    have own := same frame.id (by simp [frameIds])
    rw [Around, own]
    exact ⟨parent, left, right, sibling.frame fun id inSibling => same id (by
      simp [frameIds, inSibling]), ih rest fun id inRest => same id (by
        rw [frameIds, List.flatMap_cons]
        exact List.mem_append_right _ inRest)⟩

theorem Around.congr (around : Around value node child frames)
    (same : ∀ frame ∈ frames, ∀ leaf ∈ frame.sibling.whole.leaves, other leaf = value leaf) :
    Around other node child frames := by
  induction frames generalizing child with
  | nil => trivial
  | cons frame frames ih =>
    obtain ⟨parent, left, right, sibling, rest⟩ := around
    exact ⟨parent, left, right, sibling.congr (same frame List.mem_cons_self),
      ih rest fun later inLater => same later (List.mem_cons_of_mem _ inLater)⟩

/-- A stored sketch is a stored part with the frames around it. -/
theorem Stored.split (stored : (sketch.plug frames).Stored value node none) :
    sketch.Stored value node (above frames) ∧ Around value node sketch.id frames := by
  induction frames generalizing sketch with
  | nil => exact ⟨stored, trivial⟩
  | cons frame frames ih =>
    obtain ⟨upper, rest⟩ := ih stored
    rw [id_up] at rest
    cases onLeft : frame.onLeft with
    | true =>
      rw [up_of_left onLeft] at upper
      obtain ⟨own, sibling, child⟩ := upper
      refine ⟨child, ?_, ?_, ?_, sibling, rest⟩ <;> simp [own, onLeft]
    | false =>
      rw [up_of_right onLeft] at upper
      obtain ⟨own, child, sibling⟩ := upper
      refine ⟨child, ?_, ?_, ?_, sibling, rest⟩ <;> simp [own, onLeft]

/-- A part may be replaced by another one at the same node with the same hash. -/
theorem Stored.replace {part other : Sketch} (stored : (part.plug frames).Stored value node none)
    (same : ∀ id ∈ frameIds frames, changed id = node id)
    (otherStored : other.Stored value changed (above frames)) (sameId : other.id = part.id)
    (sameRoot : treeRoot (other.whole.map value) = treeRoot (part.whole.map value)) :
    (other.plug frames).Stored value changed none := by
  induction frames generalizing part other with
  | nil => exact otherStored
  | cons frame frames ih =>
    have upper := (@Stored.split value node (part.up frame) frames stored).1
    have own := same frame.id (by simp [frameIds])
    have sameSibling : ∀ id ∈ frame.sibling.ids, changed id = node id := fun id inSibling =>
      same id (by simp [frameIds, inSibling])
    have sameUp : treeRoot ((other.up frame).whole.map value) =
        treeRoot ((part.up frame).whole.map value) := by
      rw [treeRoot_up, treeRoot_up, sameRoot]
    refine ih stored (fun id inRest => same id ?_) ?_ (by simp) sameUp
    · rw [frameIds, List.flatMap_cons]
      exact List.mem_append_right _ inRest
    · cases onLeft : frame.onLeft with
      | true =>
        rw [up_of_left onLeft] at upper sameUp ⊢
        obtain ⟨ownNode, sibling, -⟩ := upper
        refine ⟨?_, sibling.frame sameSibling, otherStored⟩
        rw [own, ownNode, sameId, sameUp, up_of_left onLeft]
      | false =>
        rw [up_of_right onLeft] at upper sameUp ⊢
        obtain ⟨ownNode, -, sibling⟩ := upper
        refine ⟨?_, otherStored, sibling.frame sameSibling⟩
        rw [own, ownNode, sameId, sameUp, up_of_right onLeft]

end Heap

end Sketch

end MultiVac.Merkle
