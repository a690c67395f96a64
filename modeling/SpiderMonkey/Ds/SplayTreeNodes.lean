import SpiderMonkey.Ds.SplayTreeLinks

/-!
# Nodes of splay trees

Nodes are taken from the list of removed ones or from the allocator, put where a node misses a child, and
given back. A root with a child is not given back itself: it gets the item of the node before or after it,
which has one child at most and is taken out instead.
-/

namespace SpiderMonkey.Ds.Splay

open Lib NodeTree SplayTree

variable {T : Type} {s : SplayTree T} {t : NodeTree ℕ T} {ctx : List (Branch ℕ T)} {free : List ℕ}
  {side : Side} {v : T}

/-- The root of a linked tree is where it should be. -/
theorem Holds.exists_root (h : Holds s t free) {y : ℕ} (hy : t.ptr = some y) :
    ∃ n, s.nodes y = some n ∧ t.rootItem = some n.item := by
  cases t with
  | nil => cases hy
  | node w item left right =>
    cases hy
    exact ⟨_, h.rep.1, rfl⟩

/-- A node is allocated: one that was removed, or a new one. -/
theorem Holds.allocateNode (h : Holds s t free) (v : T) (outOfMemory : Bool) :
    (s.allocateNode v outOfMemory = some none ∧ outOfMemory = true) ∨
    ∃ e s' free', s.allocateNode v outOfMemory = some (some (e, s')) ∧ Holds s' t free' ∧
      e ∉ t.vertices ++ free' ∧ e < s'.allocated ∧ s'.nodes e = some ⟨v, none, none, none⟩ := by
  cases free with
  | nil =>
    have hfreeList : s.freeList = none := h.freed
    rw [SplayTree.allocateNode, hfreeList]
    cases outOfMemory with
    | true => exact Or.inl ⟨rfl, rfl⟩
    | false =>
      have hnew : s.allocated ∉ t.vertices := fun hmem =>
        Nat.lt_irrefl _ (h.bound _ (List.mem_append_left _ hmem))
      have hsame : ∀ id ∈ t.vertices, (Function.update s.nodes s.allocated
          (some (⟨v, none, none, none⟩ : Node T))) id = s.nodes id := fun id hid =>
        Function.update_of_ne (ne_of_mem_of_not_mem hid hnew) _ _
      refine Or.inr ⟨s.allocated, _, [], rfl, ⟨h.root, h.rep.congr hsame, h.nodup, rfl,
        fun _ hid => absurd hid List.not_mem_nil, fun id hid => Nat.lt_succ_of_lt (h.bound id hid)⟩, ?_,
        Nat.lt_succ_self _, nodes_put_self⟩
      rwa [List.append_nil]
  | cons e free =>
    obtain ⟨hfreeList, hfreed⟩ := h.freed
    obtain ⟨n, hn⟩ := Option.isSome_iff_exists.mp (h.isSome e List.mem_cons_self)
    have hnodup := List.nodup_cons.mp (List.nodup_middle.mp h.nodup)
    have hsame : ∀ id ∈ t.vertices ++ free, (Function.update s.nodes e
        (some (⟨v, none, none, none⟩ : Node T))) id = s.nodes id := fun id hid =>
      Function.update_of_ne (ne_of_mem_of_not_mem hid hnodup.1) _ _
    have hbound : ∀ id ∈ t.vertices ++ e :: free, id < s.allocated := h.bound
    have hcall : s.allocateNode v outOfMemory =
        some (some (e, ({ s with freeList := n.left } : SplayTree T).put e ⟨v, none, none, none⟩)) := by
      rw [SplayTree.allocateNode, hfreeList]
      simp only [hn, Option.bind_eq_bind, Option.bind_some]
    refine Or.inr ⟨e, _, free, hcall, ⟨h.root, ?_, hnodup.2, ?_, fun id hid => ?_, fun id hid => ?_⟩,
      hnodup.1, hbound e (List.mem_append_right _ List.mem_cons_self), nodes_put_self⟩
    · exact h.rep.congr fun id hid => hsame id (List.mem_append_left _ hid)
    · dsimp only at hfreed
      rw [hn] at hfreed
      exact hfreed.congr fun id hid =>
        congrArg (·.bind Node.left) (hsame id (List.mem_append_right _ hid))
    · exact (congrArg Option.isSome (hsame id (List.mem_append_right _ hid))).trans
        (h.isSome id (List.mem_cons_of_mem _ hid))
    · exact hbound id (List.perm_middle.mem_iff.mpr (List.mem_cons_of_mem _ hid))

/-- A node is put where a node misses a child. -/
theorem Holds.insertAt {y e : ℕ} {iy : T} {far : NodeTree ℕ T}
    (h : Holds s ((join side y iy .nil far).plug ctx) free)
    (hfresh : e ∉ ((join side y iy .nil far).plug ctx).vertices ++ free) (hlt : e < s.allocated)
    (hnode : s.nodes e = some ⟨v, none, none, none⟩) :
    ∃ s', ((s.modify y (·.setChild side (some e))).bind fun s =>
        s.modify e fun n => { n with parent := some y }) = some s' ∧
      Holds s' ((NodeTree.node e v .nil .nil).plug (⟨side, y, iy, far⟩ :: ctx)) free := by
  obtain ⟨hfocus, hctx⟩ := rep_plug.mp h.rep
  obtain ⟨hy, -, hfar⟩ := rep_join.mp hfocus
  rw [ptr_join] at hctx
  have hold : ((join side y iy .nil far).plug ctx).vertices.Perm (y :: (far.vertices ++ around ctx)) :=
    vertices_plug.trans (vertices_join.append_right _)
  have hnew : ((NodeTree.node e v .nil .nil).plug (⟨side, y, iy, far⟩ :: ctx)).vertices.Perm
      (e :: y :: (far.vertices ++ around ctx)) := vertices_plug
  have hfresh' := fun hmem => hfresh ((hold.append_right free).mem_iff.mpr hmem)
  have hnodup := (hold.append_right free).nodup_iff.mp h.nodup
  have hy' := (List.nodup_cons.mp hnodup).1
  have hne : e ≠ y := fun heq => hfresh' (heq ▸ List.mem_cons_self)
  refine ⟨(s.put y (nodeOf side iy (some e) far.ptr (parentOf ctx))).put e ⟨v, none, none, some y⟩, ?_, ?_⟩
  · rw [modify_eq hy, Option.bind_some, setChild_nodeOf, modify_eq (by rw [nodes_put_of_ne hne, hnode])]
  have hsame : ∀ id ∈ far.vertices ++ around ctx ++ free,
      ((s.put y (nodeOf side iy (some e) far.ptr (parentOf ctx))).put e ⟨v, none, none, some y⟩).nodes id =
        s.nodes id := fun id hid => by
    rw [nodes_put_of_ne (ne_of_mem_of_not_mem (List.mem_cons_of_mem y hid) hfresh'),
      nodes_put_of_ne (ne_of_mem_of_not_mem hid hy')]
  refine ⟨?_, ?_, ?_, ?_, fun id hid => ?_, fun id hid => ?_⟩
  · rw [root_put, root_put, h.root]
    cases ctx with
    | nil => exact ptr_join.trans ptr_join.symm
    | cons f ctx => exact ptr_plug_cons
  · refine rep_plug.mpr ⟨⟨nodes_put_self, trivial, trivial⟩, ?_, hfar.congr fun id hid => ?_,
      hctx.congr fun id hid => ?_⟩
    · rw [nodes_put_of_ne (Ne.symm hne), nodes_put_self]
      rfl
    · exact hsame id (List.mem_append_left _ (List.mem_append_left _ hid))
    · exact hsame id (List.mem_append_left _ (List.mem_append_right _ hid))
  · exact (hnew.append_right free).nodup_iff.mpr (List.nodup_cons.mpr ⟨hfresh', hnodup⟩)
  · exact h.freed.congr fun id hid =>
      congrArg (·.bind Node.left) (hsame id (List.mem_append_right _ hid))
  · rw [hsame id (List.mem_append_right _ hid)]
    exact h.isSome id hid
  · rcases List.mem_cons.mp ((hnew.append_right free).mem_iff.mp hid) with rfl | hid
    · exact hlt
    · exact h.bound id ((hold.append_right free).mem_iff.mpr hid)

/-- A node that is in no tree is given back. -/
theorem Holds.freeNode {w : ℕ} {n : Node T} (h : Holds s t free) (hw : w ∉ t.vertices ++ free)
    (hlt : w < s.allocated) (hn : s.nodes w = some n) :
    ∃ s', s.freeNode w = some s' ∧ Holds s' t (w :: free) := by
  have hsame : ∀ id ∈ t.vertices ++ free,
      (s.put w { n with left := s.freeList }).nodes id = s.nodes id := fun id hid =>
    nodes_put_of_ne (ne_of_mem_of_not_mem hid hw)
  refine ⟨{ s.put w { n with left := s.freeList } with freeList := some w }, ?_, h.root, ?_, ?_, ⟨rfl, ?_⟩,
    fun id hid => ?_, fun id hid => ?_⟩
  · rw [SplayTree.freeNode, modify_eq hn]
    rfl
  · exact h.rep.congr fun id hid => hsame id (List.mem_append_left _ hid)
  · exact List.nodup_middle.mpr (List.nodup_cons.mpr ⟨hw, h.nodup⟩)
  · have hnext : ((s.put w { n with left := s.freeList }).nodes w).bind Node.left = s.freeList := by
      rw [nodes_put_self]
      rfl
    change Linked (fun id => ((s.put w { n with left := s.freeList }).nodes id).bind Node.left)
      (((s.put w { n with left := s.freeList }).nodes w).bind Node.left) free
    rw [hnext]
    exact h.freed.congr fun id hid => congrArg (·.bind Node.left) (hsame id (List.mem_append_right _ hid))
  · change ((s.put w { n with left := s.freeList }).nodes id).isSome
    rcases List.mem_cons.mp hid with rfl | hid
    · rw [nodes_put_self]
      rfl
    · rw [hsame id (List.mem_append_right _ hid)]
      exact h.isSome id hid
  · rcases List.mem_cons.mp (List.perm_middle.mem_iff.mp hid) with rfl | hid
    · exact hlt
    · exact h.bound id hid

/-- The root gets another item. -/
theorem Holds.setItem {root : ℕ} {item : T} {near far : NodeTree ℕ T}
    (h : Holds s (join side root item near far) free) (v : T) :
    ∃ s', (s.modify root fun r => { r with item := v }) = some s' ∧ s'.allocated = s.allocated ∧
      (∀ id, id ≠ root → s'.nodes id = s.nodes id) ∧ Holds s' (join side root v near far) free := by
  obtain ⟨hroot, hnear, hfar⟩ := rep_join.mp h.rep
  have hnodup := List.nodup_cons.mp (vertices_join.nodup_iff.mp (List.nodup_append.mp h.nodup).1)
  have hsame : ∀ id, id ≠ root →
      (s.put root (nodeOf side v near.ptr far.ptr none)).nodes id = s.nodes id := fun id hid =>
    nodes_put_of_ne hid
  refine ⟨s.put root (nodeOf side v near.ptr far.ptr none), ?_, rfl, hsame, ?_⟩
  · rw [modify_eq hroot]
    cases side <;> rfl
  · refine h.change (h.root.trans (ptr_join.trans ptr_join.symm)) ?_
      (vertices_join.trans vertices_join.symm) rfl rfl fun id hid => ?_
    · refine rep_join.mpr ⟨nodes_put_self, hnear.congr fun id hid => ?_, hfar.congr fun id hid => ?_⟩
      · exact hsame id (ne_of_mem_of_not_mem (List.mem_append_left _ hid) hnodup.1)
      · exact hsame id (ne_of_mem_of_not_mem (List.mem_append_right _ hid) hnodup.1)
    · exact hsame id fun heq => hid (heq ▸ vertices_join.mem_iff.mpr List.mem_cons_self)

/-- A node with one child at most is taken out: its parent points to that child. -/
theorem Holds.detach {w : ℕ} {item : T} {child : NodeTree ℕ T} {f : Branch ℕ T}
    (h : Holds s ((join side w item .nil child).plug (f :: ctx)) free) :
    ∃ s', ((s.modify f.v (·.replaceChild w child.ptr)).bind (·.setParent child.ptr (some f.v))) = some s' ∧
      s'.allocated = s.allocated ∧ s'.nodes w = some (nodeOf side item none child.ptr (some f.v)) ∧
      w ∉ (child.plug (f :: ctx)).vertices ++ free ∧ Holds s' (child.plug (f :: ctx)) free := by
  obtain ⟨hfocus, haround⟩ := rep_plug.mp h.rep
  obtain ⟨hw, -, hchild⟩ := rep_join.mp hfocus
  rw [ptr_join] at haround
  have hold : ((join side w item .nil child).plug (f :: ctx)).vertices.Perm
      (w :: (child.vertices ++ around (f :: ctx))) := vertices_plug.trans (vertices_join.append_right _)
  have hnew : (child.plug (f :: ctx)).vertices.Perm (child.vertices ++ around (f :: ctx)) := vertices_plug
  have hnodup := (hold.append_right free).nodup_iff.mp h.nodup
  obtain ⟨hw', hrest⟩ := List.nodup_cons.mp hnodup
  obtain ⟨hinner, -, hfree⟩ := List.nodup_append.mp hrest
  obtain ⟨hchildnodup, haroundnodup, hdisjoint⟩ := List.nodup_append.mp hinner
  have hwchild : w ∉ child.vertices := fun hmem =>
    hw' (List.mem_append_left _ (List.mem_append_left _ hmem))
  have hwaround : w ∉ around (f :: ctx) := fun hmem =>
    hw' (List.mem_append_left _ (List.mem_append_right _ hmem))
  have hfv : f.v ∈ around (f :: ctx) := List.mem_cons_self
  have hsibling : f.sibling.ptr ≠ some w := fun heq =>
    hwaround (List.mem_cons_of_mem _ (List.mem_append_left _ (ptr_mem heq)))
  obtain ⟨s', hs', hroot, hallocated, hfreeList, hnodes⟩ :=
    (s.put f.v (nodeOf f.side f.item child.ptr f.sibling.ptr (parentOf ctx))).setParent_eq (some f.v)
      fun z hz => by
        obtain ⟨n, hn⟩ := hchild.exists_node hz
        exact ⟨n, by rw [nodes_put_of_ne (hdisjoint z (ptr_mem hz) f.v hfv), hn]⟩
  have hother : ∀ id, id ≠ f.v → s'.nodes id =
      if some id = child.ptr then (s.nodes id).map (·.withParent (some f.v)) else s.nodes id := by
    intro id hid
    rw [hnodes, nodes_put_of_ne hid]
  have hsame : ∀ id ∈ free, s'.nodes id = s.nodes id := by
    intro id hid
    rw [hother id (Ne.symm (hfree f.v (List.mem_append_right _ hfv) id hid)),
      if_neg (fun heq => hfree id (List.mem_append_left _ (ptr_mem heq.symm)) id hid rfl)]
  refine ⟨s', ?_, hallocated, ?_, ?_, ?_, ?_, ?_, ?_, fun id hid => ?_, fun id hid => ?_⟩
  · rw [modify_eq haround.1, replaceChild_nodeOf _ hsibling, Option.bind_some, hs']
  · rw [hother w (fun heq => hwaround (heq ▸ hfv)), if_neg (fun heq => hwchild (ptr_mem heq.symm)), hw]
    rfl
  · exact fun hmem => hw' ((hnew.append_right free).mem_iff.mp hmem)
  · rw [hroot, root_put, h.root]
    exact ptr_plug_cons
  · refine rep_plug.mpr ⟨hchild.setParent hchildnodup fun id hid => ?_,
      haround.replace haroundnodup hwaround fun id hid => ?_⟩
    · exact hother id (hdisjoint id hid f.v hfv)
    · have hparent : parentOf (f :: ctx) = some f.v := rfl
      rw [hnodes, if_neg (fun heq => hdisjoint id (ptr_mem heq.symm) id hid rfl), nodes_put, hparent]
      by_cases hid' : id = f.v
      · rw [if_pos hid', if_pos (congrArg some hid'), hid', haround.1, Option.map_some,
          replaceChild_nodeOf _ hsibling]
      · rw [if_neg hid', if_neg (fun heq => hid' (Option.some_inj.mp heq))]
  · exact (hnew.append_right free).nodup_iff.mpr hrest
  · rw [hfreeList]
    exact h.freed.congr fun id hid => congrArg (·.bind Node.left) (hsame id hid)
  · rw [hsame id hid]
    exact h.isSome id hid
  · rw [hallocated]
    exact h.bound id ((hold.append_right free).mem_iff.mpr
      (List.mem_cons_of_mem _ ((hnew.append_right free).mem_iff.mp hid)))

/-! ## The last node on a side -/

/-- A place that is reached by going to one side. -/
def OnSide (side : Side) (ctx : List (Branch ℕ T)) : Prop := ∀ f ∈ ctx, f.side = side

/-- The last node on a side is found. -/
theorem lastLoop_spec (s : SplayTree T) (side : Side) (t : NodeTree ℕ T) :
    ∀ (fuel id : ℕ) (parent : Option ℕ), t.ptr = some id → Rep s.nodes parent t →
      t.vertices.length ≤ fuel →
        ∃ w item child ctx, s.lastLoop side fuel id = some w ∧ OnSide side ctx ∧
          t = (join side w item .nil child).plug ctx := by
  intro fuel
  induction fuel generalizing t with
  | zero =>
    intro id parent hid _ hfuel
    have hpos := List.length_pos_of_mem (ptr_mem hid)
    omega
  | succ fuel ih =>
    intro id parent hid hrep hfuel
    obtain ⟨item, near, far, rfl⟩ := exists_join side hid
    obtain ⟨hnode, hnear, -⟩ := rep_join.mp hrep
    have hlength := (@vertices_join _ _ side id item near far).length_eq
    rw [List.length_cons, List.length_append] at hlength
    rw [lastLoop, hnode, Option.bind_eq_bind, Option.bind_some, child_nodeOf]
    cases hptr : near.ptr with
    | none =>
      rw [eq_nil_of_ptr hptr]
      exact ⟨id, item, far, [], rfl, fun _ h => absurd h List.not_mem_nil, rfl⟩
    | some next =>
      obtain ⟨w, iw, child, ctx, hw, hside, rfl⟩ := ih near next (some id) hptr hnear (by omega)
      refine ⟨w, iw, child, ctx ++ [⟨side, id, item, far⟩], hw, ?_, ?_⟩
      · intro f hf
        rcases List.mem_append.mp hf with hf | hf
        · exact hside f hf
        · rw [List.mem_singleton.mp hf]
      · rw [plug_append]
        rfl

/-- What is last in a place on the other side is last in the tree. -/
theorem along_plug_of_onSide {t' : NodeTree ℕ T} {z : T} (hside : OnSide side.other ctx)
    (h : t.along side = t'.along side ++ [z]) : (t.plug ctx).along side = (t'.plug ctx).along side ++ [z] := by
  induction ctx generalizing t t' with
  | nil => exact h
  | cons f ctx ih =>
    have hf : f.side = side.other := hside f List.mem_cons_self
    apply ih fun g hg => hside g (List.mem_cons_of_mem _ hg)
    rw [hf, join_other, join_other, along_join, along_join, h, List.append_assoc, List.cons_append]

/-- The root gets the item next to it on a side, whose node is given back. -/
theorem Holds.replaceRoot {root child : ℕ} {item : T} {near far : NodeTree ℕ T}
    (h : Holds s (join side root item near far) free) (hchild : near.ptr = some child)
    (hfuel : near.vertices.length ≤ s.allocated) :
    ∃ s' swap v near', s.replaceRoot root child side = some s' ∧ near.along side = near'.along side ++ [v] ∧
      Holds s' (join side root v near' far) (swap :: free) := by
  obtain ⟨-, hnear, -⟩ := rep_join.mp h.rep
  obtain ⟨w, iw, inner, ctx, hw, hside, rfl⟩ :=
    lastLoop_spec s side.other near s.allocated child (some root) hchild hnear hfuel
  have halong : ((join side.other w iw .nil inner).plug ctx).along side = (inner.plug ctx).along side ++ [iw] :=
    along_plug_of_onSide hside (by rw [join_other, along_join, along_nil])
  have hplug (u : NodeTree ℕ T) (i : T) : join side root i (u.plug ctx) far =
      u.plug (ctx ++ [⟨side, root, i, far⟩]) := by
    rw [plug_append]
    rfl
  rw [hplug] at h
  obtain ⟨f, rest, hctx⟩ := List.exists_cons_of_ne_nil
    (List.append_ne_nil_of_right_ne_nil ctx (List.cons_ne_nil (⟨side, root, item, far⟩ : Branch ℕ T) []))
  rw [hctx] at h
  have hnode := (rep_join.mp (rep_plug.mp h.rep).1).1
  change s.nodes w = some (nodeOf side.other iw none inner.ptr (some f.v)) at hnode
  have hswapChild : (nodeOf side.other iw none inner.ptr (some f.v)).child side = inner.ptr := by
    cases side <;> rfl
  obtain ⟨s₁, hs₁, hallocated₁, hnode₁, hw₁, h₁⟩ := h.detach
  rw [← hctx, ← hplug] at hw₁ h₁
  obtain ⟨s₂, hs₂, hallocated₂, hsame₂, h₂⟩ := h₁.setItem iw
  have hvertices : (join side root iw (inner.plug ctx) far).vertices.Perm
      (join side root item (inner.plug ctx) far).vertices := vertices_join.trans vertices_join.symm
  have hw₂ : w ∉ (join side root iw (inner.plug ctx) far).vertices ++ free := fun hmem =>
    hw₁ ((hvertices.append_right free).mem_iff.mp hmem)
  have hwroot : w ≠ root := by
    rintro rfl
    exact hw₁ (List.mem_append_left _ (vertices_join.mem_iff.mpr List.mem_cons_self))
  have hlt : w < s.allocated := by
    apply h.bound
    exact List.mem_append_left _ (vertices_plug.mem_iff.mpr (List.mem_append_left _ (ptr_mem ptr_join)))
  obtain ⟨s₃, hs₃, h₃⟩ := h₂.freeNode hw₂ (by rw [hallocated₂, hallocated₁]; exact hlt)
    ((hsame₂ w hwroot).trans hnode₁)
  refine ⟨s₃, w, iw, inner.plug ctx, ?_, halong, h₃⟩
  obtain ⟨s₀, hs₀, hs₁⟩ := Option.bind_eq_some_iff.mp hs₁
  have hmodify : (s.modify f.v fun p =>
      if p.left = some w then { p with left := inner.ptr } else { p with right := inner.ptr }) = some s₀ := hs₀
  rw [SplayTree.replaceRoot]
  simp only [hw, hnode, hswapChild, parent_nodeOf, hmodify, hs₁, hnode₁, item_nodeOf, hs₂, hs₃,
    Option.bind_eq_bind, Option.bind_some]

end SpiderMonkey.Ds.Splay
