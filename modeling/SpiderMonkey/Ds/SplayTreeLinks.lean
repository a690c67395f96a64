import SpiderMonkey.Ds.SplayTree
import SpiderMonkey.Lib.Linked

/-!
# The links of splay trees

A tree is represented when the node at each name in it has the item, points to the roots of both subtrees
and points back to its parent. A rotation changes four nodes at most.
-/

namespace SpiderMonkey.Ds.Splay

open Lib NodeTree

variable {T : Type} {nodes nodes' : ℕ → Option (Node T)} {side : Side} {item : T}
  {near far parent : Option ℕ} {t : NodeTree ℕ T} {ctx : List (Branch ℕ T)}

/-! ## Nodes -/

/-- A node with a child on a side and one on the other side. -/
def nodeOf (side : Side) (item : T) (near far parent : Option ℕ) : Node T :=
  match side with
  | .left => ⟨item, near, far, parent⟩
  | .right => ⟨item, far, near, parent⟩

@[simp] theorem item_nodeOf : (nodeOf side item near far parent).item = item := by cases side <;> rfl

@[simp] theorem parent_nodeOf : (nodeOf side item near far parent).parent = parent := by cases side <;> rfl

@[simp] theorem child_nodeOf : (nodeOf side item near far parent).child side = near := by
  cases side <;> rfl

@[simp] theorem child_other_nodeOf : (nodeOf side item near far parent).child side.other = far := by
  cases side <;> rfl

@[simp] theorem setChild_nodeOf (c : Option ℕ) :
    (nodeOf side item near far parent).setChild side c = nodeOf side item c far parent := by
  cases side <;> rfl

@[simp] theorem setChild_other_nodeOf (c : Option ℕ) :
    (nodeOf side item near far parent).setChild side.other c = nodeOf side item near c parent := by
  cases side <;> rfl

/-- Set the parent of a node. -/
def Node.withParent (n : Node T) (parent : Option ℕ) : Node T := { n with parent := parent }

@[simp] theorem withParent_nodeOf (p : Option ℕ) :
    (nodeOf side item near far parent).withParent p = nodeOf side item near far p := by cases side <;> rfl

/-- Put a node in the place of a child. -/
def Node.replaceChild (n : Node T) (old : ℕ) (new : Option ℕ) : Node T :=
  if n.left = some old then { n with left := new } else { n with right := new }

/-- The child that is replaced is the one on the side of the old one. -/
theorem replaceChild_nodeOf {old : ℕ} (new : Option ℕ) (hfar : far ≠ some old) :
    (nodeOf side item (some old) far parent).replaceChild old new = nodeOf side item new far parent := by
  cases side with
  | left => exact if_pos rfl
  | right => exact if_neg hfar

/-! ## Writes -/

namespace SplayTree

variable {s : SplayTree T} {id : ℕ} {n : Node T}

/-- Change a node that is there. -/
theorem modify_eq (h : s.nodes id = some n) (f : Node T → Node T) : s.modify id f = some (s.put id (f n)) := by
  rw [modify, h]
  rfl

@[simp] theorem root_put : (s.put id n).root = s.root := rfl

@[simp] theorem allocated_put : (s.put id n).allocated = s.allocated := rfl

@[simp] theorem freeList_put : (s.put id n).freeList = s.freeList := rfl

/-- What is at an address after a write. -/
theorem nodes_put (j : ℕ) : (s.put id n).nodes j = if j = id then some n else s.nodes j :=
  Function.update_apply _ _ _ _

theorem nodes_put_self : (s.put id n).nodes id = some n := Function.update_self _ _ _

theorem nodes_put_of_ne {j : ℕ} (h : j ≠ id) : (s.put id n).nodes j = s.nodes j :=
  Function.update_of_ne h _ _

/-- Setting the parent of a node changes that node only. -/
theorem setParent_eq (s : SplayTree T) {child : Option ℕ} (parent : Option ℕ)
    (h : ∀ z, child = some z → ∃ n, s.nodes z = some n) :
    ∃ s', s.setParent child parent = some s' ∧ s'.root = s.root ∧ s'.allocated = s.allocated ∧
      s'.freeList = s.freeList ∧
      ∀ id, s'.nodes id =
        if some id = child then (s.nodes id).map (·.withParent parent) else s.nodes id := by
  cases child with
  | none => exact ⟨s, rfl, rfl, rfl, rfl, fun id => (if_neg (Option.some_ne_none id)).symm⟩
  | some z =>
    obtain ⟨n, hn⟩ := h z rfl
    refine ⟨s.put z (n.withParent parent), modify_eq hn _, rfl, rfl, rfl, fun id => ?_⟩
    rw [nodes_put]
    by_cases hid : id = z
    · rw [if_pos hid, if_pos (congrArg some hid), hid, hn]
      rfl
    · rw [if_neg hid, if_neg (fun heq => hid (Option.some_inj.mp heq))]

end SplayTree

open SplayTree

/-- What a rotation leaves at an address: the node, its old parent, the subtree between them and its new
parent are changed. -/
def rotated (nodes : ℕ → Option (Node T)) (side : Side) (x y : ℕ) (ix iy : T) (a b c g : Option ℕ) (id : ℕ) :
    Option (Node T) :=
  if id = y then some (nodeOf side iy a (some x) g)
  else if id = x then some (nodeOf side ix b c (some y))
  else if some id = b then (nodes id).map (·.withParent (some x))
  else if some id = g then (nodes id).map (·.replaceChild x (some y))
  else nodes id

/-- What a rotation leaves at other addresses. -/
theorem rotated_of_ne {x y id : ℕ} {ix iy : T} {a b c g : Option ℕ} (hy : id ≠ y) (hx : id ≠ x) :
    rotated nodes side x y ix iy a b c g id =
      if some id = b then (nodes id).map (·.withParent (some x))
      else if some id = g then (nodes id).map (·.replaceChild x (some y))
      else nodes id := by
  rw [rotated, if_neg hy, if_neg hx]

/-- A rotation. -/
theorem rotate_eq {s : SplayTree T} {x y : ℕ} {ix iy : T} {a b c g : Option ℕ}
    (hy : s.nodes y = some (nodeOf side iy a b (some x)))
    (hx : s.nodes x = some (nodeOf side ix (some y) c g)) (hxy : x ≠ y) (hc : c ≠ some y)
    (hb : ∀ z, b = some z → z ≠ x ∧ z ≠ y ∧ ∃ n, s.nodes z = some n)
    (hg : ∀ z, g = some z → z ≠ x ∧ z ≠ y ∧ b ≠ some z ∧ ∃ n, s.nodes z = some n) :
    ∃ s', s.rotate y = some s' ∧ s'.allocated = s.allocated ∧ s'.freeList = s.freeList ∧
      s'.root = (if g = none then some y else s.root) ∧
      s'.nodes = rotated s.nodes side x y ix iy a b c g := by
  have hside : (if (nodeOf side ix (some y) c g).left = some y then Side.left else Side.right) = side := by
    cases side with
    | left => exact if_pos rfl
    | right => exact if_neg hc
  rw [rotate, hy, Option.bind_eq_bind, Option.bind_some, parent_nodeOf, Option.bind_eq_bind, Option.bind_some,
    hx]
  dsimp only [Option.bind_eq_bind, Option.bind_some]
  rw [hside, child_nodeOf, if_neg (not_not_intro rfl), child_other_nodeOf, modify_eq hx, setChild_nodeOf,
    Option.bind_some]
  obtain ⟨s₂, hs₂, hroot, hallocated, hfreeList, hnodes⟩ :=
    (s.put x (nodeOf side ix b c g)).setParent_eq (some x) fun z hz => by
      obtain ⟨hzx, -, n, hn⟩ := hb z hz
      exact ⟨n, by rw [nodes_put_of_ne hzx, hn]⟩
  have hy₂ : s₂.nodes y = some (nodeOf side iy a b (some x)) := by
    rw [hnodes, if_neg (fun heq => (hb y heq.symm).2.1 rfl), nodes_put_of_ne (Ne.symm hxy), hy]
  have hx₂ : s₂.nodes x = some (nodeOf side ix b c g) := by
    rw [hnodes, if_neg (fun heq => (hb x heq.symm).1 rfl), nodes_put_self]
  have hother (id : ℕ) (hidy : id ≠ y) (hidx : id ≠ x) : s₂.nodes id =
      if some id = b then (s.nodes id).map (·.withParent (some x)) else s.nodes id := by
    rw [hnodes, nodes_put_of_ne hidx]
  rw [hs₂, Option.bind_some, modify_eq hy₂, Option.bind_some, nodes_put_of_ne hxy, hx₂, Option.bind_some,
    parent_nodeOf, modify_eq (nodes_put_self), Option.bind_some, setChild_other_nodeOf]
  change ∃ s', ((((s₂.put y _).put y ((nodeOf side iy a (some x) (some x)).withParent g)).modify x
    (·.withParent (some y))).bind _) = some s' ∧ _
  rw [withParent_nodeOf, modify_eq (by rw [nodes_put_of_ne hxy, nodes_put_of_ne hxy, hx₂]), Option.bind_some,
    withParent_nodeOf]
  generalize hs₅ : ((s₂.put y (nodeOf side iy a (some x) (some x))).put y
    (nodeOf side iy a (some x) g)).put x (nodeOf side ix b c (some y)) = s₅
  have hnodes₅ (id : ℕ) : s₅.nodes id = if id = y then some (nodeOf side iy a (some x) g)
      else if id = x then some (nodeOf side ix b c (some y))
      else if some id = b then (s.nodes id).map (·.withParent (some x)) else s.nodes id := by
    subst hs₅
    by_cases hidx : id = x
    · rw [hidx, nodes_put_self, if_neg hxy, if_pos rfl]
    · rw [nodes_put_of_ne hidx, if_neg hidx]
      by_cases hidy : id = y
      · rw [hidy, nodes_put_self, if_pos rfl]
      · rw [nodes_put_of_ne hidy, nodes_put_of_ne hidy, if_neg hidy, hother id hidy hidx]
  have hroot₅ : s₅.root = s.root := by
    subst hs₅
    exact hroot
  have hallocated₅ : s₅.allocated = s.allocated := by
    subst hs₅
    exact hallocated
  have hfreeList₅ : s₅.freeList = s.freeList := by
    subst hs₅
    exact hfreeList
  clear hs₅
  cases g with
  | none =>
    refine ⟨{ s₅ with root := some y }, rfl, hallocated₅, hfreeList₅, (if_pos rfl).symm, funext fun id => ?_⟩
    change s₅.nodes id = _
    rw [hnodes₅, rotated, if_neg (Option.some_ne_none id)]
  | some z =>
    obtain ⟨hzx, hzy, hzb, n, hn⟩ := hg z rfl
    have hz : s₅.nodes z = some n := by
      rw [hnodes₅, if_neg hzy, if_neg hzx, if_neg (Ne.symm hzb), hn]
    refine ⟨s₅.put z (n.replaceChild x (some y)), modify_eq hz _, hallocated₅, hfreeList₅, ?_,
      funext fun id => ?_⟩
    · rw [if_neg (Option.some_ne_none z)]
      exact hroot₅
    · rw [rotated, nodes_put]
      by_cases hid : id = z
      · rw [if_pos hid, hid, if_neg hzy, if_neg hzx, if_neg (Ne.symm hzb), if_pos rfl, hn]
        rfl
      · rw [if_neg hid, hnodes₅, if_neg (fun heq => hid (Option.some_inj.mp heq))]

/-! ## Trees -/

/-- The tree below a pointer is linked, and its root has a parent. -/
def Rep (nodes : ℕ → Option (Node T)) : Option ℕ → NodeTree ℕ T → Prop
  | _, .nil => True
  | parent, .node v item left right =>
    nodes v = some ⟨item, left.ptr, right.ptr, parent⟩ ∧ Rep nodes (some v) left ∧ Rep nodes (some v) right

/-- The parent of what is at a place. -/
def parentOf (ctx : List (Branch ℕ T)) : Option ℕ := ctx.head?.map Branch.v

/-- What is around a place is linked, and points there. -/
def RepAround (nodes : ℕ → Option (Node T)) : Option ℕ → List (Branch ℕ T) → Prop
  | _, [] => True
  | ptr, f :: ctx =>
    nodes f.v = some (nodeOf f.side f.item ptr f.sibling.ptr (parentOf ctx)) ∧
      Rep nodes (some f.v) f.sibling ∧ RepAround nodes (some f.v) ctx

/-- A node with two subtrees. -/
theorem rep_join {v : ℕ} {a b : NodeTree ℕ T} : Rep nodes parent (join side v item a b) ↔
    nodes v = some (nodeOf side item a.ptr b.ptr parent) ∧ Rep nodes (some v) a ∧ Rep nodes (some v) b := by
  cases side with
  | left => exact Iff.rfl
  | right => exact and_congr_right fun _ => and_comm

/-- A tree with a place in it. -/
theorem rep_plug : Rep nodes none (t.plug ctx) ↔ Rep nodes (parentOf ctx) t ∧ RepAround nodes t.ptr ctx := by
  induction ctx generalizing t with
  | nil => exact (and_iff_left trivial).symm
  | cons f ctx ih =>
    rw [plug, ih, rep_join, ptr_join, RepAround]
    apply Iff.intro
    · rintro ⟨⟨hv, ht, hsibling⟩, hctx⟩
      exact ⟨ht, hv, hsibling, hctx⟩
    · rintro ⟨ht, hv, hsibling, hctx⟩
      exact ⟨⟨hv, ht, hsibling⟩, hctx⟩

/-- Only the nodes of a tree matter. -/
theorem Rep.congr (h : Rep nodes parent t) (hsame : ∀ id ∈ t.vertices, nodes' id = nodes id) :
    Rep nodes' parent t := by
  induction t generalizing parent with
  | nil => trivial
  | node v item left right ihl ihr =>
    refine ⟨?_, ihl h.2.1 fun id hid => ?_, ihr h.2.2 fun id hid => ?_⟩
    · rw [hsame v (List.mem_append_right _ List.mem_cons_self)]
      exact h.1
    · exact hsame id (List.mem_append_left _ hid)
    · exact hsame id (List.mem_append_right _ (List.mem_cons_of_mem _ hid))

/-- The root gets another parent. -/
theorem Rep.setParent {q : Option ℕ} (h : Rep nodes parent t) (hnodup : t.vertices.Nodup)
    (hsame : ∀ id ∈ t.vertices, nodes' id =
      if some id = t.ptr then (nodes id).map (·.withParent q) else nodes id) : Rep nodes' q t := by
  cases t with
  | nil => trivial
  | node v item left right =>
    have hv := List.nodup_middle.mp hnodup
    have hnot : ∀ id ∈ left.vertices ++ right.vertices, some id ≠ (NodeTree.node v item left right).ptr := by
      intro id hid heq
      exact (List.nodup_cons.mp hv).1 (Option.some_inj.mp heq ▸ hid)
    refine ⟨?_, h.2.1.congr fun id hid => ?_, h.2.2.congr fun id hid => ?_⟩
    · have hroot : some v = (NodeTree.node v item left right).ptr := rfl
      rw [hsame v (List.mem_append_right _ List.mem_cons_self), if_pos hroot, h.1]
      rfl
    · rw [hsame id (List.mem_append_left _ hid), if_neg (hnot id (List.mem_append_left _ hid))]
    · rw [hsame id (List.mem_append_right _ (List.mem_cons_of_mem _ hid)),
        if_neg (hnot id (List.mem_append_right _ hid))]

/-- The root of a tree is there. -/
theorem Rep.exists_node {v : ℕ} (h : Rep nodes parent t) (hv : t.ptr = some v) : ∃ n, nodes v = some n := by
  cases t with
  | nil => cases hv
  | node w item left right =>
    cases hv
    exact ⟨_, h.1⟩

/-- The node above a place is around it. -/
theorem parentOf_mem {p : ℕ} (h : parentOf ctx = some p) : p ∈ around ctx := by
  cases ctx with
  | nil => cases h
  | cons f ctx =>
    cases h
    exact List.mem_cons_self

/-- Only the nodes around a place matter. -/
theorem RepAround.congr {ptr : Option ℕ} (h : RepAround nodes ptr ctx)
    (hsame : ∀ id ∈ around ctx, nodes' id = nodes id) : RepAround nodes' ptr ctx := by
  induction ctx generalizing ptr with
  | nil => trivial
  | cons f ctx ih =>
    rw [around_cons] at hsame
    refine ⟨?_, h.2.1.congr fun id hid => ?_, ih h.2.2 fun id hid => ?_⟩
    · rw [hsame f.v List.mem_cons_self]
      exact h.1
    · exact hsame id (List.mem_cons_of_mem _ (List.mem_append_left _ hid))
    · exact hsame id (List.mem_cons_of_mem _ (List.mem_append_right _ hid))

/-- Something else is put at a place. -/
theorem RepAround.replace {x : ℕ} {new : Option ℕ} (h : RepAround nodes (some x) ctx)
    (hnodup : (around ctx).Nodup) (hx : x ∉ around ctx)
    (hsame : ∀ id ∈ around ctx, nodes' id =
      if some id = parentOf ctx then (nodes id).map (·.replaceChild x new) else nodes id) :
    RepAround nodes' new ctx := by
  cases ctx with
  | nil => trivial
  | cons f ctx =>
    rw [around_cons] at hnodup hx hsame
    have hf := (List.nodup_cons.mp hnodup).1
    have hnot : ∀ id ∈ f.sibling.vertices ++ around ctx, some id ≠ parentOf (f :: ctx) := by
      intro id hid heq
      exact hf (Option.some_inj.mp heq ▸ hid)
    have hsibling : f.sibling.ptr ≠ some x := fun heq =>
      hx (List.mem_cons_of_mem _ (List.mem_append_left _ (ptr_mem heq)))
    refine ⟨?_, h.2.1.congr fun id hid => ?_, h.2.2.congr fun id hid => ?_⟩
    · have hparent : some f.v = parentOf (f :: ctx) := rfl
      rw [hsame f.v List.mem_cons_self, if_pos hparent, h.1, Option.map_some,
        replaceChild_nodeOf new hsibling]
    · rw [hsame id (List.mem_cons_of_mem _ (List.mem_append_left _ hid)),
        if_neg (hnot id (List.mem_append_left _ hid))]
    · rw [hsame id (List.mem_cons_of_mem _ (List.mem_append_right _ hid)),
        if_neg (hnot id (List.mem_append_right _ hid))]

/-- The node above a place is there. -/
theorem RepAround.exists_parent {ptr : Option ℕ} {p : ℕ} (h : RepAround nodes ptr ctx)
    (hp : parentOf ctx = some p) : ∃ n, nodes p = some n := by
  cases ctx with
  | nil => cases hp
  | cons f ctx =>
    cases hp
    exact ⟨_, h.1⟩

/-! ## The invariant -/

/-- A tree is linked as it should be: the nodes of it, and those that were removed. -/
structure Holds (s : SplayTree T) (t : NodeTree ℕ T) (free : List ℕ) : Prop where
  root : s.root = t.ptr
  rep : Rep s.nodes none t
  nodup : (t.vertices ++ free).Nodup
  freed : Linked (fun id => (s.nodes id).bind Node.left) s.freeList free
  isSome : ∀ id ∈ free, (s.nodes id).isSome
  bound : ∀ id ∈ t.vertices ++ free, id < s.allocated

/-- A change of nodes of the tree leaves the removed ones as they were. -/
theorem Holds.change {s s' : SplayTree T} {t' : NodeTree ℕ T} {free : List ℕ} (h : Holds s t free)
    (hroot : s'.root = t'.ptr) (hrep : Rep s'.nodes none t') (hperm : t'.vertices.Perm t.vertices)
    (hallocated : s'.allocated = s.allocated) (hfreeList : s'.freeList = s.freeList)
    (hsame : ∀ id, id ∉ t.vertices → s'.nodes id = s.nodes id) : Holds s' t' free := by
  have hfree : ∀ id ∈ free, s'.nodes id = s.nodes id := fun id hid =>
    hsame id fun hmem => (List.nodup_append.mp h.nodup).2.2 id hmem id hid rfl
  refine ⟨hroot, hrep, (hperm.append_right free).nodup_iff.mpr h.nodup, ?_, fun id hid => ?_, fun id hid => ?_⟩
  · rw [hfreeList]
    exact h.freed.congr fun id hid => by rw [hfree id hid]
  · rw [hfree id hid]
    exact h.isSome id hid
  · rw [hallocated]
    exact h.bound id ((hperm.append_right free).mem_iff.mp hid)

/-- The names in a tree before a rotation. -/
theorem vertices_rotate {x y : ℕ} {ix iy : T} {a b c : NodeTree ℕ T} :
    ((join side y iy a b).plug (⟨side, x, ix, c⟩ :: ctx)).vertices.Perm
      (y :: x :: (a.vertices ++ (b.vertices ++ (c.vertices ++ around ctx)))) := by
  have hplug := @vertices_plug _ _ (join side y iy a b) (⟨side, x, ix, c⟩ :: ctx)
  have hjoin := (@vertices_join _ _ side y iy a b).append_right (around (⟨side, x, ix, c⟩ :: ctx))
  rw [List.cons_append, List.append_assoc] at hjoin
  apply (hplug.trans hjoin).trans
  apply List.Perm.cons
  rw [around_cons, ← List.append_assoc]
  exact List.perm_middle.trans (List.Perm.cons x (by rw [List.append_assoc]))

/-- The names in a tree after a rotation. -/
theorem vertices_rotated {x y : ℕ} {ix iy : T} {a b c : NodeTree ℕ T} :
    ((join side y iy a (join side x ix b c)).plug ctx).vertices.Perm
      (y :: x :: (a.vertices ++ (b.vertices ++ (c.vertices ++ around ctx)))) := by
  have hplug := @vertices_plug _ _ (join side y iy a (join side x ix b c)) ctx
  have hjoin := (@vertices_join _ _ side y iy a (join side x ix b c)).append_right (around ctx)
  rw [List.cons_append, List.append_assoc] at hjoin
  apply (hplug.trans hjoin).trans
  apply List.Perm.cons
  have hinner := ((@vertices_join _ _ side x ix b c).append_right (around ctx)).append_left a.vertices
  apply hinner.trans
  rw [List.cons_append, List.append_assoc]
  exact List.perm_middle

/-- A rotation moves a node above its parent. -/
theorem Holds.rotate {s : SplayTree T} {free : List ℕ} {x y : ℕ} {ix iy : T} {a b c : NodeTree ℕ T}
    (h : Holds s ((join side y iy a b).plug (⟨side, x, ix, c⟩ :: ctx)) free) :
    ∃ s', s.rotate y = some s' ∧ s'.allocated = s.allocated ∧
      Holds s' ((join side y iy a (join side x ix b c)).plug ctx) free := by
  obtain ⟨hfocus, hx, hc, hctx⟩ := rep_plug.mp h.rep
  obtain ⟨hy, ha, hb⟩ := rep_join.mp hfocus
  rw [ptr_join] at hx
  dsimp only at hx hc hctx
  change s.nodes y = some (nodeOf side iy a.ptr b.ptr (some x)) at hy
  have hnodup := vertices_rotate.nodup_iff.mp (List.nodup_append.mp h.nodup).1
  obtain ⟨hy', hnodup⟩ := List.nodup_cons.mp hnodup
  obtain ⟨hx', hnodup⟩ := List.nodup_cons.mp hnodup
  obtain ⟨-, hnodup, ha'⟩ := List.nodup_append.mp hnodup
  obtain ⟨hbnodup, hnodup, hb'⟩ := List.nodup_append.mp hnodup
  obtain ⟨-, hctxnodup, hc'⟩ := List.nodup_append.mp hnodup
  simp only [List.mem_cons, List.mem_append, not_or] at hy' hx' ha' hb' hc'
  obtain ⟨s', hs', hallocated, hfreeList, hroot, hnodes⟩ := rotate_eq hy hx (Ne.symm hy'.1)
    (fun heq => hy'.2.2.2.1 (ptr_mem heq))
    (fun z hz => ⟨fun heq => hx'.2.1 (heq ▸ ptr_mem hz), fun heq => hy'.2.2.1 (heq ▸ ptr_mem hz),
      hb.exists_node hz⟩)
    (fun z hz => ⟨fun heq => hx'.2.2.2 (heq ▸ parentOf_mem hz), fun heq => hy'.2.2.2.2 (heq ▸ parentOf_mem hz),
      fun heq => hb' z (ptr_mem heq) z (Or.inr (parentOf_mem hz)) rfl, hctx.exists_parent hz⟩)
  refine ⟨s', hs', hallocated, ?_⟩
  have hctx' : RepAround s'.nodes (some y) ctx := by
    apply hctx.replace hctxnodup hx'.2.2.2
    intro id hid
    rw [hnodes, rotated_of_ne (ne_of_mem_of_not_mem hid hy'.2.2.2.2) (ne_of_mem_of_not_mem hid hx'.2.2.2),
      if_neg (fun heq : some id = _ => hb' id (ptr_mem heq.symm) id (Or.inr hid) rfl)]
  have ha'' : Rep s'.nodes (some y) a := by
    apply ha.congr
    intro id hid
    rw [hnodes, rotated_of_ne (ne_of_mem_of_not_mem hid hy'.2.1) (ne_of_mem_of_not_mem hid hx'.1),
      if_neg (fun heq : some id = _ => ha' id hid id (Or.inl (ptr_mem heq.symm)) rfl),
      if_neg (fun heq : some id = _ => ha' id hid id (Or.inr (Or.inr (parentOf_mem heq.symm))) rfl)]
  have hb'' : Rep s'.nodes (some x) b := by
    apply hb.setParent hbnodup
    intro id hid
    rw [hnodes, rotated_of_ne (ne_of_mem_of_not_mem hid hy'.2.2.1) (ne_of_mem_of_not_mem hid hx'.2.1),
      if_neg (fun heq : some id = _ => hb' id hid id (Or.inr (parentOf_mem heq.symm)) rfl)]
  have hc'' : Rep s'.nodes (some x) c := by
    apply hc.congr
    intro id hid
    rw [hnodes, rotated_of_ne (ne_of_mem_of_not_mem hid hy'.2.2.2.1) (ne_of_mem_of_not_mem hid hx'.2.2.1),
      if_neg (fun heq : some id = _ => hb' id (ptr_mem heq.symm) id (Or.inl hid) rfl),
      if_neg (fun heq : some id = _ => hc' id hid id (parentOf_mem heq.symm) rfl)]
  apply h.change _ _ (vertices_rotated.trans vertices_rotate.symm) hallocated hfreeList
  · intro id hid
    rw [vertices_rotate.mem_iff] at hid
    simp only [List.mem_cons, List.mem_append, not_or] at hid
    rw [hnodes, rotated_of_ne hid.1 hid.2.1, if_neg (fun heq : some id = _ => hid.2.2.2.1 (ptr_mem heq.symm)),
      if_neg (fun heq : some id = _ => hid.2.2.2.2.2 (parentOf_mem heq.symm))]
  · rw [hroot, h.root]
    cases ctx with
    | nil => exact (if_pos rfl).trans ptr_join.symm
    | cons f ctx =>
      rw [if_neg (show parentOf (f :: ctx) ≠ none from Option.some_ne_none f.v)]
      change ((join side x ix (join side y iy a b) c).plug (f :: ctx)).ptr = _
      exact ptr_plug_cons
  · rw [rep_plug, ptr_join, rep_join, rep_join, ptr_join]
    refine ⟨⟨?_, ha'', ?_, hb'', hc''⟩, hctx'⟩
    · rw [hnodes, rotated, if_pos rfl]
    · rw [hnodes, rotated, if_neg (Ne.symm hy'.1), if_pos rfl]

end SpiderMonkey.Ds.Splay
