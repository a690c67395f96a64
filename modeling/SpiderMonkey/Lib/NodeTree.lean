import Mathlib.Data.List.Perm.Basic
import Mathlib.Data.List.Nodup

/-!
# Binary trees with a place in them

Trees whose nodes have a name and an item. A place in a tree is the subtree there and the nodes above it,
the lowest one first, each with its other subtree. What holds for one side of a tree holds for the other
one read backwards.
-/

namespace SpiderMonkey.Lib

/-- A side of a node. -/
inductive Side where
  | left | right
  deriving DecidableEq

/-- The other side. -/
def Side.other : Side → Side
  | left => right
  | right => left

/-- The other side of the other side. -/
@[simp] theorem Side.other_other (side : Side) : side.other.other = side := by cases side <;> rfl

/-- A binary tree. -/
inductive NodeTree (V T : Type*) where
  | nil
  | node (v : V) (item : T) (left right : NodeTree V T)

/-- A node above a place: the side the place is on, and the subtree on the other side. -/
structure Branch (V T : Type*) where
  side : Side
  v : V
  item : T
  sibling : NodeTree V T

namespace NodeTree

variable {V T : Type*} {side : Side} {v : V} {item : T} {t t' near far : NodeTree V T}
  {ctx ctx' : List (Branch V T)} {f : Branch V T}

/-- The name of the root. -/
def ptr : NodeTree V T → Option V
  | nil => none
  | node v _ _ _ => some v

/-- The item of the root. -/
def rootItem : NodeTree V T → Option T
  | nil => none
  | node _ item _ _ => some item

/-- The names of the nodes. -/
def vertices : NodeTree V T → List V
  | nil => []
  | node v _ left right => left.vertices ++ v :: right.vertices

/-- The items from left to right. -/
def items : NodeTree V T → List T
  | nil => []
  | node _ item left right => left.items ++ item :: right.items

/-- A node with a subtree on a side and one on the other side. -/
def join (side : Side) (v : V) (item : T) (near far : NodeTree V T) : NodeTree V T :=
  match side with
  | .left => node v item near far
  | .right => node v item far near

/-- The items from a side on. -/
def along (t : NodeTree V T) : Side → List T
  | .left => t.items
  | .right => t.items.reverse

/-- The tree around a place. -/
def plug (t : NodeTree V T) : List (Branch V T) → NodeTree V T
  | [] => t
  | f :: ctx => (join f.side f.v f.item t f.sibling).plug ctx

/-- The names of the nodes around a place. -/
def around (ctx : List (Branch V T)) : List V := ctx.flatMap fun f => f.v :: f.sibling.vertices

/-- The names of the nodes around a place, with the node above it. -/
theorem around_cons : around (f :: ctx) = f.v :: (f.sibling.vertices ++ around ctx) := rfl

/-- The items to the left of a place. -/
def before : List (Branch V T) → List T
  | [] => []
  | f :: ctx =>
    match f.side with
    | .left => before ctx
    | .right => before ctx ++ (f.sibling.items ++ [f.item])

/-- The items to the right of a place. -/
def after : List (Branch V T) → List T
  | [] => []
  | f :: ctx =>
    match f.side with
    | .left => f.item :: f.sibling.items ++ after ctx
    | .right => after ctx

/-- A tree that has a root has its name. -/
theorem ptr_mem (h : t.ptr = some v) : v ∈ t.vertices := by
  cases t with
  | nil => cases h
  | node w item left right =>
    cases h
    exact List.mem_append_right _ List.mem_cons_self

/-- A tree without a root. -/
theorem eq_nil_of_ptr (h : t.ptr = none) : t = nil := by
  cases t with
  | nil => rfl
  | node => cases h

@[simp] theorem ptr_join : (join side v item near far).ptr = some v := by cases side <;> rfl

@[simp] theorem rootItem_join : (join side v item near far).rootItem = some item := by cases side <;> rfl

/-- The names in a node with two subtrees. -/
theorem vertices_join : (join side v item near far).vertices.Perm (v :: (near.vertices ++ far.vertices)) := by
  cases side with
  | left => exact List.perm_middle
  | right => exact List.perm_middle.trans (List.perm_append_comm.cons v)

/-- The items of a node with two subtrees, from the side on. -/
theorem along_join : (join side v item near far).along side = near.along side ++ item :: far.along side := by
  cases side with
  | left => rfl
  | right =>
    change (far.items ++ item :: near.items).reverse = near.items.reverse ++ item :: far.items.reverse
    rw [List.reverse_append, List.reverse_cons, List.append_assoc, List.singleton_append]

/-- A tree without nodes has no items. -/
@[simp] theorem along_nil : (nil : NodeTree V T).along side = [] := by cases side <;> rfl

/-- Trees with the same items from a side on. -/
theorem along_inj : t.along side = t'.along side ↔ t.items = t'.items := by
  cases side with
  | left => rfl
  | right => exact List.reverse_inj

/-- A node is one with two subtrees, for each side. -/
theorem exists_join (side : Side) (h : t.ptr = some v) :
    ∃ item near far, t = join side v item near far := by
  cases t with
  | nil => cases h
  | node w item left right =>
    cases h
    cases side with
    | left => exact ⟨item, left, right, rfl⟩
    | right => exact ⟨item, right, left, rfl⟩

/-- A place below a place. -/
theorem plug_append : t.plug (ctx ++ ctx') = (t.plug ctx).plug ctx' := by
  induction ctx generalizing t with
  | nil => rfl
  | cons f ctx ih => exact ih

/-- The root of a tree is not at a place below it. -/
theorem ptr_plug_cons : (t.plug (f :: ctx)).ptr = (t'.plug (f :: ctx)).ptr := by
  induction ctx generalizing f t t' with
  | nil => exact ptr_join.trans ptr_join.symm
  | cons g ctx ih => exact ih

/-- The names in a tree around a place. -/
theorem vertices_plug : (t.plug ctx).vertices.Perm (t.vertices ++ around ctx) := by
  induction ctx generalizing t with
  | nil =>
    rw [around, List.flatMap_nil, List.append_nil]
    exact List.Perm.refl _
  | cons f ctx ih =>
    rw [around_cons]
    have hnode := (@vertices_join V T f.side f.v f.item t f.sibling).append_right (around ctx)
    rw [List.cons_append, List.append_assoc] at hnode
    exact (ih.trans hnode).trans List.perm_middle.symm

/-- The items in a tree around a place. -/
theorem items_plug : (t.plug ctx).items = before ctx ++ t.items ++ after ctx := by
  induction ctx generalizing t with
  | nil => exact (List.append_nil _).symm
  | cons f ctx ih =>
    rw [plug, ih, before, after]
    cases f.side with
    | left => simp [join, items]
    | right => simp [join, items]

/-- A subtree with the same items. -/
theorem items_plug_congr (h : t.items = t'.items) : (t.plug ctx).items = (t'.plug ctx).items := by
  rw [items_plug, items_plug, h]

/-- The items to the left of a place below a place. -/
theorem before_append : before (ctx ++ ctx') = before ctx' ++ before ctx := by
  induction ctx with
  | nil => exact (List.append_nil _).symm
  | cons f ctx ih =>
    rw [List.cons_append, before, before, ih]
    cases f.side with
    | left => rfl
    | right => exact List.append_assoc _ _ _

/-- The items to the right of a place below a place. -/
theorem after_append : after (ctx ++ ctx') = after ctx ++ after ctx' := by
  induction ctx with
  | nil => rfl
  | cons f ctx ih =>
    rw [List.cons_append, after, after, ih]
    cases f.side with
    | left => exact (List.append_assoc _ _ _).symm
    | right => rfl

/-- The root of a tree is a node around each place below it. -/
theorem ptr_plug_cons_mem : ∃ w ∈ around (f :: ctx), (t.plug (f :: ctx)).ptr = some w := by
  induction ctx generalizing f t with
  | nil => exact ⟨f.v, List.mem_cons_self, ptr_join⟩
  | cons g ctx ih =>
    obtain ⟨w, hw, hptr⟩ := @ih (join f.side f.v f.item t f.sibling) g
    exact ⟨w, List.mem_cons_of_mem _ (List.mem_append_right _ hw), hptr⟩

/-- The subtrees of a node in the other order. -/
theorem join_other : join side.other v item near far = join side v item far near := by cases side <;> rfl

/-- A rotation keeps the items in their order. -/
theorem items_rotate {x y : V} {ix iy : T} {a b c : NodeTree V T} :
    ((join side y iy a (join side x ix b c)).plug ctx).items =
      ((join side y iy a b).plug (⟨side, x, ix, c⟩ :: ctx)).items := by
  apply items_plug_congr
  rw [← @along_inj _ _ side, along_join, along_join, along_join, along_join, List.append_assoc,
    List.cons_append]

end NodeTree

end SpiderMonkey.Lib
