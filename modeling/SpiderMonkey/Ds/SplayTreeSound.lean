import Mathlib.Order.Defs.LinearOrder
import Mathlib.Data.Set.Insert
import Mathlib.Order.Compare
import SpiderMonkey.Ds.SplayTreeNodes

/-!
# Splay trees are ordered sets

A search ends at the node with the item or at the one it would be a child of. Splaying rotates a node up to
the root, with the items in the order they had.
-/

namespace SpiderMonkey.Ds.Splay

open Lib NodeTree SplayTree

variable {T : Type} {s : SplayTree T} {t : NodeTree ℕ T} {ctx : List (Branch ℕ T)} {free : List ℕ}
  {side : Side}

/-! ## Splaying -/

/-- A tree has at most as many nodes as were allocated. -/
theorem Holds.length_le (h : Holds s t free) : t.vertices.length ≤ s.allocated := by
  have hsub : t.vertices ⊆ List.range s.allocated := fun id hid =>
    List.mem_range.mpr (h.bound id (List.mem_append_left _ hid))
  have hle := (List.subperm_of_subset (List.nodup_append.mp h.nodup).1 hsub).length_le
  rwa [List.length_range] at hle

/-- A place in a tree is at most as deep as the tree has other nodes. -/
theorem Holds.depth_lt (h : Holds s (t.plug ctx) free) {y : ℕ} (hy : t.ptr = some y) :
    ctx.length < s.allocated := by
  have hlength := vertices_plug.length_eq.symm.trans_le h.length_le
  have hpos := List.length_pos_of_mem (ptr_mem hy)
  have hctx : ctx.length ≤ (around ctx).length := by
    clear hlength h
    induction ctx with
    | nil => exact Nat.le_refl _
    | cons f ctx ih =>
      rw [around_cons, List.length_cons, List.length_cons, List.length_append]
      omega
  rw [List.length_append] at hlength
  omega

/-- The child on the left is the one that is looked for. -/
theorem left_nodeOf {item : T} {z : ℕ} {far parent : Option ℕ} (hfar : far ≠ some z) :
    ((nodeOf side item (some z) far parent).left == some z) = (side == .left) := by
  cases side with
  | left => exact beq_self_eq_true _
  | right => exact beq_eq_false_iff_ne.mpr hfar

/-- The root is where splaying is to end exactly if nothing is above. -/
theorem Holds.root_eq_iff (h : Holds s (t.plug ctx) free) {y : ℕ} (hy : t.ptr = some y) :
    s.root = some y ↔ ctx = [] := by
  rw [h.root]
  cases ctx with
  | nil => exact iff_of_true hy rfl
  | cons f ctx =>
    apply iff_of_false _ (List.cons_ne_nil _ _)
    intro heq
    obtain ⟨w, hw, hptr⟩ := @ptr_plug_cons_mem _ _ t ctx f
    have hnodup := vertices_plug.nodup_iff.mp (List.nodup_append.mp h.nodup).1
    exact (List.nodup_append.mp hnodup).2.2 y (ptr_mem hy) w hw (Option.some_inj.mp (heq.symm.trans hptr))

/-- The sibling of a place is another node. -/
theorem Holds.sibling_ne {f : Branch ℕ T} (h : Holds s (t.plug (f :: ctx)) free) {y : ℕ}
    (hy : t.ptr = some y) : f.sibling.ptr ≠ some y := by
  intro heq
  have hnodup := vertices_plug.nodup_iff.mp (List.nodup_append.mp h.nodup).1
  exact (List.nodup_append.mp hnodup).2.2 y (ptr_mem hy) y
    (List.mem_cons_of_mem _ (List.mem_append_left _ (ptr_mem heq))) rfl

/-- The node at a place. -/
theorem Holds.exists_node (h : Holds s (t.plug ctx) free) {y : ℕ} (hy : t.ptr = some y) :
    ∃ n, s.nodes y = some n ∧ n.parent = parentOf ctx := by
  obtain ⟨item, near, far, rfl⟩ := exists_join .left hy
  have hnode := (rep_join.mp (rep_plug.mp h.rep).1).1
  exact ⟨_, hnode, parent_nodeOf⟩

/-- The node above a place. -/
theorem Holds.exists_parent {f : Branch ℕ T} (h : Holds s (t.plug (f :: ctx)) free) {y : ℕ}
    (hy : t.ptr = some y) :
    ∃ n, s.nodes f.v = some n ∧ n.parent = parentOf ctx ∧ (n.left == some y) = (f.side == .left) := by
  have hnode := (rep_plug.mp h.rep).2.1
  rw [hy] at hnode
  exact ⟨_, hnode, parent_nodeOf, left_nodeOf (h.sibling_ne hy)⟩

/-- A node is splayed to the root, and the items stay in order. -/
theorem splayLoop_spec {y : ℕ} (fuel : ℕ) :
    ∀ (s : SplayTree T) (t : NodeTree ℕ T) (ctx : List (Branch ℕ T)), ctx.length < fuel → t.ptr = some y →
      Holds s (t.plug ctx) free →
        ∃ s' t', splayLoop y fuel s = some s' ∧ s'.allocated = s.allocated ∧ Holds s' t' free ∧
          t'.ptr = some y ∧ t'.rootItem = t.rootItem ∧ t'.items = (t.plug ctx).items := by
  induction fuel with
  | zero => exact fun _ _ _ hlt => absurd hlt (Nat.not_lt_zero _)
  | succ fuel ih =>
    intro s t ctx hfuel hy h
    rw [splayLoop]
    match ctx with
    | [] =>
      rw [if_pos ((h.root_eq_iff hy).mpr rfl)]
      exact ⟨s, t, rfl, rfl, h, hy, rfl, rfl⟩
    | [f] =>
      obtain ⟨n, hn, hparent⟩ := h.exists_node hy
      obtain ⟨iy, a, b, rfl⟩ := exists_join f.side hy
      obtain ⟨s', hs', hallocated, h'⟩ := h.rotate
      have hroot : s'.root = some y := h'.root.trans ptr_join
      rw [if_neg (fun heq => List.cons_ne_nil _ _ ((h.root_eq_iff hy).mp heq)), hn, Option.bind_eq_bind,
        Option.bind_some, hparent]
      change ∃ s' t', (if s.root = some f.v then _ else _) = _ ∧ _
      rw [if_pos (h.root.trans ptr_join), hs']
      exact ⟨s', _, if_pos hroot, hallocated, h', ptr_join, rootItem_join.trans rootItem_join.symm, items_rotate⟩
    | ⟨sd, x, ix, c⟩ :: ⟨sd', w, iw, d⟩ :: ctx =>
      obtain ⟨n, hn, hparent⟩ := h.exists_node hy
      obtain ⟨p, hp, hgrandparent, hleft⟩ := h.exists_parent hy
      have hx : Holds s ((join sd x ix t c).plug (⟨sd', w, iw, d⟩ :: ctx)) free := h
      obtain ⟨g, hg, -, hleft'⟩ := hx.exists_parent ptr_join
      have hroot : s.root ≠ some x := fun heq => List.cons_ne_nil _ _ ((hx.root_eq_iff ptr_join).mp heq)
      rw [if_neg (fun heq => List.cons_ne_nil _ _ ((h.root_eq_iff hy).mp heq)), hn, Option.bind_eq_bind,
        Option.bind_some, hparent]
      change ∃ s' t', (if s.root = some x then _ else (s.nodes x).bind _) = _ ∧ _
      rw [if_neg hroot, hp, Option.bind_some, hgrandparent]
      change ∃ s' t', ((s.nodes w).bind _) = _ ∧ _
      rw [hg, Option.bind_some, hleft, hleft']
      dsimp only
      rw [List.length_cons, List.length_cons] at hfuel
      by_cases hside : sd = sd'
      · -- the parent goes up first
        subst hside
        obtain ⟨iy, a, b, rfl⟩ := exists_join sd hy
        obtain ⟨s₁, hs₁, hallocated₁, h₁⟩ := hx.rotate
        obtain ⟨s₂, hs₂, hallocated₂, h₂⟩ :=
          @Holds.rotate T sd ctx s₁ free x y ix iy a b (join sd w iw c d) h₁
        rw [if_pos (beq_self_eq_true _), hs₁, Option.bind_eq_bind, Option.bind_some, hs₂,
          Option.bind_some]
        obtain ⟨s', t', hs', hallocated, h', hy', hitem, hitems⟩ := ih s₂ _ ctx (by omega) ptr_join h₂
        refine ⟨s', t', hs', by rw [hallocated, hallocated₂, hallocated₁], h', hy', ?_, ?_⟩
        · rw [hitem, rootItem_join, rootItem_join]
        · rw [hitems, items_rotate]
          exact items_rotate
      · have hother : sd' = sd.other := by
          cases sd <;> cases sd' <;> first | rfl | exact absurd rfl hside
        obtain ⟨iy, a, b, rfl⟩ := exists_join sd hy
        obtain ⟨s₁, hs₁, hallocated₁, h₁⟩ := h.rotate
        rw [← join_other, hother] at h₁
        obtain ⟨s₂, hs₂, hallocated₂, h₂⟩ := h₁.rotate
        have htest : ¬((sd == .left) == (sd' == .left)) = true := by
          cases sd <;> cases sd' <;> first | exact absurd rfl hside | decide
        rw [if_neg htest, hs₁, Option.bind_eq_bind, Option.bind_some, hs₂,
          Option.bind_some]
        obtain ⟨s', t', hs', hallocated, h', hy', hitem, hitems⟩ := ih s₂ _ ctx (by omega) ptr_join h₂
        refine ⟨s', t', hs', by rw [hallocated, hallocated₂, hallocated₁], h', hy', ?_, ?_⟩
        · rw [hitem, rootItem_join, rootItem_join]
        · rw [hitems, items_rotate, join_other, hother]
          exact items_rotate

/-! ## Searching -/

variable [LinearOrder T] {v : T}

/-- Where a search in a tree ends: at the item, or at a node that misses the child it would be. -/
structure SearchEnds (v : T) (t : NodeTree ℕ T) (y : ℕ) (item : T) (left right : NodeTree ℕ T)
    (ctx : List (Branch ℕ T)) : Prop where
  eq : t = (NodeTree.node y item left right).plug ctx
  before : ∀ x ∈ before ctx, x < v
  after : ∀ x ∈ after ctx, v < x
  stop : compare v item = .eq ∨ compare v item = .lt ∧ left = .nil ∨ compare v item = .gt ∧ right = .nil

/-- A search ends. -/
theorem lookupLoop_spec (v : T) (t : NodeTree ℕ T) :
    ∀ (fuel id : ℕ) (parent : Option ℕ), t.ptr = some id → Rep s.nodes parent t →
      t.items.Pairwise (· < ·) → t.vertices.length ≤ fuel →
        ∃ y item left right ctx, s.lookupLoop v fuel id = some y ∧ SearchEnds v t y item left right ctx := by
  induction t with
  | nil => exact fun _ _ _ hid => by cases hid
  | node w item left right ihl ihr =>
    intro fuel id parent hid hrep hsorted hfuel
    obtain rfl : w = id := Option.some_inj.mp hid
    have hsplit := List.pairwise_append.mp hsorted
    have hright := List.pairwise_cons.mp hsplit.2.1
    rw [vertices, List.length_append, List.length_cons] at hfuel
    cases fuel with
    | zero => omega
    | succ fuel =>
      rw [lookupLoop, hrep.1, Option.bind_eq_bind, Option.bind_some]
      dsimp only
      cases hcmp : compare v item with
      | eq =>
        exact ⟨w, item, left, right, [], rfl, rfl, fun _ h => absurd h List.not_mem_nil,
          fun _ h => absurd h List.not_mem_nil, Or.inl hcmp⟩
      | lt =>
        have hlt := compare_lt_iff_lt.mp hcmp
        cases hptr : left.ptr with
        | none =>
          exact ⟨w, item, left, right, [], rfl, rfl, fun _ h => absurd h List.not_mem_nil,
            fun _ h => absurd h List.not_mem_nil, Or.inr (Or.inl ⟨hcmp, eq_nil_of_ptr hptr⟩)⟩
        | some next =>
          obtain ⟨y, iy, l, r, ctx, hy, hends⟩ :=
            ihl fuel next (some w) hptr hrep.2.1 hsplit.1 (by omega)
          refine ⟨y, iy, l, r, ctx ++ [⟨.left, w, item, right⟩], hy, ?_, ?_, ?_, hends.stop⟩
          · rw [plug_append, ← hends.eq]
            rfl
          · rw [before_append]
            exact hends.before
          · rw [after_append]
            intro x hx
            rcases List.mem_append.mp hx with hx | hx
            · exact hends.after x hx
            · change x ∈ item :: right.items ++ [] at hx
              rw [List.append_nil] at hx
              rcases List.mem_cons.mp hx with rfl | hx
              · exact hlt
              · exact hlt.trans (hright.1 x hx)
      | gt =>
        have hgt := compare_gt_iff_gt.mp hcmp
        cases hptr : right.ptr with
        | none =>
          exact ⟨w, item, left, right, [], rfl, rfl, fun _ h => absurd h List.not_mem_nil,
            fun _ h => absurd h List.not_mem_nil, Or.inr (Or.inr ⟨hcmp, eq_nil_of_ptr hptr⟩)⟩
        | some next =>
          obtain ⟨y, iy, l, r, ctx, hy, hends⟩ :=
            ihr fuel next (some w) hptr hrep.2.2 hright.2 (by omega)
          refine ⟨y, iy, l, r, ctx ++ [⟨.right, w, item, left⟩], hy, ?_, ?_, ?_, hends.stop⟩
          · rw [plug_append, ← hends.eq]
            rfl
          · rw [before_append]
            intro x hx
            rcases List.mem_append.mp hx with hx | hx
            · change x ∈ left.items ++ [item] at hx
              rcases List.mem_append.mp hx with hx | hx
              · exact (hsplit.2.2 x hx item List.mem_cons_self).trans hgt
              · rw [List.mem_singleton.mp hx]
                exact hgt
            · exact hends.before x hx
          · rw [after_append]
            intro x hx
            rcases List.mem_append.mp hx with hx | hx
            · exact hends.after x hx
            · exact absurd hx List.not_mem_nil

/-- A search in a tree that has a root. -/
theorem Holds.lookup (h : Holds s t free) (hsorted : t.items.Pairwise (· < ·)) (hne : t.ptr ≠ none) (v : T) :
    ∃ y item left right ctx, s.lookup v = some y ∧ SearchEnds v t y item left right ctx := by
  obtain ⟨root, hroot⟩ := Option.ne_none_iff_exists'.mp hne
  rw [SplayTree.lookup, h.root, hroot]
  exact lookupLoop_spec v t s.allocated root none hroot h.rep hsorted h.length_le

namespace SearchEnds

variable {y : ℕ} {item : T} {left right : NodeTree ℕ T}

/-- The items of the tree. -/
theorem items_eq (h : SearchEnds v t y item left right ctx) :
    t.items = NodeTree.before ctx ++ (left.items ++ item :: right.items) ++ NodeTree.after ctx := by
  rw [h.eq, items_plug]
  rfl

/-- The search finds the item if it is there. -/
theorem mem_iff (h : SearchEnds v t y item left right ctx) (hsorted : t.items.Pairwise (· < ·)) :
    v ∈ t.items ↔ compare v item = .eq := by
  have hitems := h.items_eq
  rw [hitems] at hsorted
  have hnode := (List.pairwise_append.mp (List.pairwise_append.mp hsorted).1).2.1
  have hsplit := List.pairwise_append.mp hnode
  have hright := List.pairwise_cons.mp hsplit.2.1
  rw [hitems]
  apply Iff.intro
  · intro hv
    rcases List.mem_append.mp hv with hv | hv
    · rcases List.mem_append.mp hv with hv | hv
      · exact absurd (h.before v hv) (lt_irrefl v)
      · rcases h.stop with hstop | ⟨hlt, hnil⟩ | ⟨hgt, hnil⟩
        · exact hstop
        · rw [hnil] at hv
          have hlt := compare_lt_iff_lt.mp hlt
          rcases List.mem_cons.mp hv with rfl | hv
          · exact absurd hlt (lt_irrefl v)
          · exact absurd (hright.1 v hv) (not_lt_of_gt hlt)
        · rw [hnil] at hv
          have hgt := compare_gt_iff_gt.mp hgt
          rcases List.mem_append.mp hv with hv | hv
          · exact absurd (hsplit.2.2 v hv item List.mem_cons_self) (not_lt_of_gt hgt)
          · rw [List.mem_singleton.mp hv] at hgt
            exact absurd hgt (lt_irrefl item)
    · exact absurd (h.after v hv) (lt_irrefl v)
  · intro heq
    rw [compare_eq_iff_eq.mp heq]
    exact List.mem_append_left _ (List.mem_append_right _ (List.mem_append_right _ List.mem_cons_self))

end SearchEnds

/-! ## The operations -/

/-- A tree holds a set: its items are those of the set, in order. -/
def IsSet (s : SplayTree T) (S : Set T) : Prop :=
  ∃ t free, Holds s t free ∧ t.items.Pairwise (· < ·) ∧ ∀ x, x ∈ t.items ↔ x ∈ S

/-- Splaying where a search ended. -/
theorem SearchEnds.splay {y : ℕ} {item : T} {left right : NodeTree ℕ T} (h : Holds s t free)
    (hends : SearchEnds v t y item left right ctx) :
    ∃ s' t', s.splay y = some s' ∧ Holds s' t' free ∧ t'.ptr = some y ∧ t'.rootItem = some item ∧
      t'.items = t.items := by
  rw [hends.eq] at h
  obtain ⟨s', t', hs', -, h', hy, hitem, hitems⟩ := splayLoop_spec (s.allocated + 1) s
    (NodeTree.node y item left right) ctx (Nat.lt_succ_of_lt (h.depth_lt rfl)) rfl h
  exact ⟨s', t', hs', h', hy, hitem, by rw [hitems, hends.eq]⟩

/-- `contains` finds the items of the set. -/
theorem contains_spec {S : Set T} (h : IsSet s S) (v : T) :
    ∃ found s', s.contains v = some (found, s') ∧ IsSet s' S ∧ (v ∈ S → found = some v) ∧
      (v ∉ S → found = none) := by
  obtain ⟨t, free, hholds, hsorted, hS⟩ := h
  rw [SplayTree.contains, hholds.root]
  by_cases hempty : t.ptr = none
  · refine ⟨none, s, if_pos hempty, ⟨t, free, hholds, hsorted, hS⟩, fun hv => ?_, fun _ => rfl⟩
    rw [← hS, eq_nil_of_ptr hempty] at hv
    exact absurd hv List.not_mem_nil
  · obtain ⟨y, item, left, right, ctx, hy, hends⟩ := hholds.lookup hsorted hempty v
    obtain ⟨s', t', hs', hholds', hptr, hitem, hitems⟩ := hends.splay hholds
    obtain ⟨n, hn, hroot⟩ := hholds'.exists_root hptr
    obtain rfl : item = n.item := Option.some_inj.mp (hitem.symm.trans hroot)
    have hmem := hends.mem_iff hsorted
    rw [if_neg hempty]
    simp only [hy, hs', hn, Option.bind_eq_bind, Option.bind_some]
    refine ⟨_, s', rfl, ⟨t', free, hholds', hitems ▸ hsorted, fun x => hitems ▸ hS x⟩, fun hv => ?_,
      fun hv => ?_⟩
    · have heq := hmem.mp ((hS v).mpr hv)
      rw [if_pos heq, compare_eq_iff_eq.mp heq]
    · exact if_neg fun heq => hv ((hS v).mp (hmem.mpr heq))

/-- Where an item that is missing would be. -/
theorem SearchEnds.missing {y : ℕ} {item : T} {left right : NodeTree ℕ T}
    (h : SearchEnds v t y item left right ctx) (hsorted : t.items.Pairwise (· < ·))
    (hne : compare v item ≠ .eq) :
    ∃ side far, t = (join side y item .nil far).plug ctx ∧
      (if compare v item = .lt then Side.left else Side.right) = side ∧
      (∀ x ∈ NodeTree.before (⟨side, y, item, far⟩ :: ctx), x < v) ∧
      ∀ x ∈ NodeTree.after (⟨side, y, item, far⟩ :: ctx), v < x := by
  have hitems := h.items_eq
  rw [hitems] at hsorted
  have hnode := (List.pairwise_append.mp (List.pairwise_append.mp hsorted).1).2.1
  have hsplit := List.pairwise_append.mp hnode
  rcases h.stop with heq | ⟨hcmp, rfl⟩ | ⟨hcmp, rfl⟩
  · exact absurd heq hne
  · have hlt := compare_lt_iff_lt.mp hcmp
    refine ⟨.left, right, h.eq, if_pos hcmp, h.before, fun x hx => ?_⟩
    rcases List.mem_append.mp hx with hx | hx
    · rcases List.mem_cons.mp hx with rfl | hx
      · exact hlt
      · exact hlt.trans ((List.pairwise_cons.mp hsplit.2.1).1 x hx)
    · exact h.after x hx
  · have hgt := compare_gt_iff_gt.mp hcmp
    refine ⟨.right, left, h.eq, if_neg (by rw [hcmp]; decide), fun x hx => ?_, h.after⟩
    rcases List.mem_append.mp hx with hx | hx
    · exact h.before x hx
    · rcases List.mem_append.mp hx with hx | hx
      · exact (hsplit.2.2 x hx item List.mem_cons_self).trans hgt
      · rw [List.mem_singleton.mp hx]
        exact hgt

omit [LinearOrder T] in
/-- A tree of one node. -/
theorem Holds.single {e : ℕ} (h : Holds s .nil free) (hfresh : e ∉ free) (hlt : e < s.allocated)
    (hnode : s.nodes e = some ⟨v, none, none, none⟩) :
    Holds { s with root := some e } (.node e v .nil .nil) free := by
  refine ⟨rfl, ⟨hnode, trivial, trivial⟩, List.nodup_cons.mpr ⟨hfresh, h.nodup⟩, h.freed, h.isSome,
    fun id hid => ?_⟩
  rcases List.mem_cons.mp hid with rfl | hid
  · exact hlt
  · exact h.bound id hid

/-- `insert` adds an item that is not in the set, if there is memory. -/
theorem insert_spec {S : Set T} (h : IsSet s S) (hv : v ∉ S) (outOfMemory : Bool) :
    ∃ ok s', s.insert v outOfMemory = some (ok, s') ∧ (ok = true → IsSet s' (insert v S)) ∧
      (ok = false → outOfMemory = true ∧ IsSet s' S) := by
  obtain ⟨t, free, h, hsorted, hS⟩ := h
  rw [SplayTree.insert]
  rcases h.allocateNode v outOfMemory with ⟨hcall, hmemory⟩ | ⟨e, s₁, free₁, hcall, h₁, hfresh, hlt, hnode⟩
  · rw [hcall]
    exact ⟨false, s, rfl, fun h => (Bool.false_ne_true h).elim,
      fun _ => ⟨hmemory, t, free, h, hsorted, hS⟩⟩
  · rw [hcall, Option.bind_eq_bind, Option.bind_some]
    dsimp only
    rw [h₁.root]
    by_cases hempty : t.ptr = none
    · obtain rfl := eq_nil_of_ptr hempty
      rw [if_pos hempty]
      refine ⟨true, _, rfl, fun _ => ⟨_, free₁, h₁.single hfresh hlt hnode, List.pairwise_singleton _ v,
        fun x => ?_⟩, fun h => (Bool.false_ne_true h.symm).elim⟩
      rw [Set.mem_insert_iff, ← hS]
      simp [items]
    · obtain ⟨y, item, left, right, ctx, hy, hends⟩ := h₁.lookup hsorted hempty v
      have hne : compare v item ≠ .eq := fun heq => hv ((hS v).mp ((hends.mem_iff hsorted).mpr heq))
      obtain ⟨side, far, rfl, hside, hbefore, hafter⟩ := hends.missing hsorted hne
      have hold : ((join side y item .nil far).plug ctx).items =
          before (⟨side, y, item, far⟩ :: ctx) ++ after (⟨side, y, item, far⟩ :: ctx) := by
        have hitems := @items_plug _ _ .nil (⟨side, y, item, far⟩ :: ctx)
        rwa [items, List.append_nil] at hitems
      have hyNode := (rep_join.mp (rep_plug.mp h₁.rep).1).1
      obtain ⟨s₂, hs₂, h₂⟩ := h₁.insertAt hfresh hlt hnode
      obtain ⟨s₃, t₃, hs₃, -, h₃, -, -, hitems⟩ := splayLoop_spec (s₂.allocated + 1) s₂
        (NodeTree.node e v .nil .nil) (⟨side, y, item, far⟩ :: ctx) (Nat.lt_succ_of_lt (h₂.depth_lt rfl))
        rfl h₂
      have hnew : t₃.items = before (⟨side, y, item, far⟩ :: ctx) ++
          v :: after (⟨side, y, item, far⟩ :: ctx) := by
        rw [hitems, items_plug, List.append_assoc]
        rfl
      rw [if_neg hempty]
      simp only [hy, hyNode, item_nodeOf, hside, child_nodeOf, Option.bind_eq_bind, Option.bind_some]
      have hnil : (NodeTree.nil : NodeTree ℕ T).ptr = none := rfl
      rw [if_neg hne, hnil, if_neg (not_not_intro rfl), ← Option.bind_assoc, hs₂, Option.bind_some,
        SplayTree.splay, hs₃]
      refine ⟨true, s₃, rfl, fun _ => ⟨t₃, free₁, h₃, ?_, fun x => ?_⟩, fun h => by cases h⟩
      · rw [hold] at hsorted
        have hsplit := List.pairwise_append.mp hsorted
        rw [hnew]
        refine List.pairwise_append.mpr ⟨hsplit.1, List.pairwise_cons.mpr ⟨hafter, hsplit.2.1⟩,
          fun a ha b hb => ?_⟩
        rcases List.mem_cons.mp hb with rfl | hb
        · exact hbefore a ha
        · exact hsplit.2.2 a ha b hb
      · rw [hnew, Set.mem_insert_iff, ← hS, hold, List.perm_middle.mem_iff, List.mem_cons]

/-- What is left of an ordered list without an item. -/
theorem pairwise_without {front back : List T} (h : (front ++ v :: back).Pairwise (· < ·)) :
    (front ++ back).Pairwise (· < ·) ∧ ∀ x, x ∈ front ++ back ↔ x ∈ front ++ v :: back ∧ x ≠ v := by
  refine ⟨h.sublist ((List.sublist_cons_self v back).append_left front), fun x => ?_⟩
  have hnodup : (v :: (front ++ back)).Nodup := List.perm_middle.nodup_iff.mp (h.imp ne_of_lt)
  rw [List.perm_middle.mem_iff, List.mem_cons]
  apply Iff.intro
  · intro hx
    exact ⟨Or.inr hx, ne_of_mem_of_not_mem hx (List.nodup_cons.mp hnodup).1⟩
  · rintro ⟨rfl | hx, hne⟩
    · exact absurd rfl hne
    · exact hx

/-- `remove` takes an item of the set out. -/
theorem remove_spec {S : Set T} (h : IsSet s S) (hv : v ∈ S) :
    ∃ s', s.remove v = some s' ∧ IsSet s' (S \ {v}) := by
  obtain ⟨t, free, h, hsorted, hS⟩ := h
  have hmem := (hS v).mpr hv
  have hne : t.ptr ≠ none := by
    intro hempty
    rw [eq_nil_of_ptr hempty] at hmem
    exact List.not_mem_nil hmem
  obtain ⟨y, item, left, right, ctx, hy, hends⟩ := h.lookup hsorted hne v
  have hcmp := (hends.mem_iff hsorted).mp hmem
  obtain rfl : v = item := compare_eq_iff_eq.mp hcmp
  have hyNode : s.nodes y = some (nodeOf .left v left.ptr right.ptr (parentOf ctx)) := by
    rw [hends.eq] at h
    exact (rep_plug.mp h.rep).1.1
  obtain ⟨s₁, t₁, hs₁, h₁, hptr, hitem, hitems⟩ := hends.splay h
  obtain ⟨i, l, r, rfl⟩ := exists_join .left hptr
  obtain rfl : i = v := Option.some_inj.mp hitem
  have hroot : s₁.nodes y = some ⟨i, l.ptr, r.ptr, none⟩ := h₁.rep.1
  have hold : t.items = l.items ++ i :: r.items := hitems.symm
  rw [hold] at hsorted hS
  obtain ⟨hsorted', hwithout⟩ := pairwise_without hsorted
  have hset (s' : SplayTree T) (t' : NodeTree ℕ T) (free' : List ℕ) (h' : Holds s' t' free')
      (hitems' : t'.items = l.items ++ r.items) : IsSet s' (S \ {i}) := by
    refine ⟨t', free', h', hitems' ▸ hsorted', fun x => ?_⟩
    rw [hitems', hwithout, hS]
    rfl
  have hlength := h₁.length_le
  rw [SplayTree.remove]
  simp only [hy, hyNode, hs₁, hroot, h₁.root, hcmp, item_nodeOf, ptr_join, Option.bind_eq_bind,
    Option.bind_some, ne_eq, not_true_eq_false, if_false]
  have hnodes : (join .left y i l r).vertices.length = l.vertices.length + (r.vertices.length + 1) := by
    rw [join, vertices, List.length_append, List.length_cons]
  cases hl : l.ptr with
  | some child =>
    obtain ⟨s₂, swap, v', l', hs₂, halong, h₂⟩ := h₁.replaceRoot hl (by omega)
    refine ⟨s₂, hs₂, hset s₂ _ _ h₂ ?_⟩
    have hl' : l.items = l'.items ++ [v'] := halong
    rw [hl', List.append_assoc]
    rfl
  | none =>
    obtain rfl := eq_nil_of_ptr hl
    cases hr : r.ptr with
    | some child =>
      have h₁' : Holds s₁ (join .right y i r .nil) free := h₁
      obtain ⟨s₂, swap, v', r', hs₂, halong, h₂⟩ := h₁'.replaceRoot hr (by omega)
      refine ⟨s₂, hs₂, hset s₂ _ _ h₂ ?_⟩
      have hr' : r.items.reverse = r'.items.reverse ++ [v'] := halong
      rw [← List.reverse_cons, List.reverse_inj] at hr'
      rw [hr']
      rfl
    | none =>
      obtain rfl := eq_nil_of_ptr hr
      have hempty : Holds { s₁ with root := none } .nil free :=
        ⟨rfl, trivial, (List.nodup_append.mp h₁.nodup).2.1, h₁.freed, h₁.isSome,
          fun id hid => h₁.bound id (List.mem_append_right _ hid)⟩
      obtain ⟨s₂, hs₂, h₂⟩ := hempty.freeNode (w := y) (List.nodup_cons.mp h₁.nodup).1
        (h₁.bound y List.mem_cons_self) hroot
      refine ⟨s₂, ?_, hset s₂ _ _ h₂ rfl⟩
      rw [← hs₂, SplayTree.freeNode, SplayTree.freeNode, modify_eq hroot,
        modify_eq (s := { s₁ with root := none }) hroot]
      rfl

/-! ## Runs -/

/-- The items are visited in order. -/
theorem forEachInner_eq (fuel : ℕ) : ∀ (t : NodeTree ℕ T) (parent : Option ℕ), Rep s.nodes parent t →
    t.vertices.length ≤ fuel → s.forEachInner fuel t.ptr = some t.items := by
  induction fuel with
  | zero =>
    intro t parent _ hfuel
    cases t with
    | nil => rfl
    | node v item left right =>
      rw [vertices, List.length_append, List.length_cons] at hfuel
      omega
  | succ fuel ih =>
    intro t parent hrep hfuel
    cases t with
    | nil => rfl
    | node v item left right =>
      rw [vertices, List.length_append, List.length_cons] at hfuel
      rw [ptr, forEachInner, hrep.1, Option.bind_eq_bind, Option.bind_some,
        ih left (some v) hrep.2.1 (by omega)]
      dsimp only [Option.bind_eq_bind, Option.bind_some]
      rw [ih right (some v) hrep.2.2 (by omega)]
      rfl

/-- The nodes that are reached from the root. -/
inductive InTree (s : SplayTree T) : ℕ → Prop
  | root {id : ℕ} (h : s.root = some id) : InTree s id
  | child {id c : ℕ} {n : Node T} (h : InTree s id) (hn : s.nodes id = some n) (side : Side)
    (hc : n.child side = some c) : InTree s c

/-- A tree is well linked: the root has no parent, and each child's parent is the node it is a child of. -/
structure WellLinked (s : SplayTree T) : Prop where
  root : ∀ id, s.root = some id → ∃ n, s.nodes id = some n ∧ n.parent = none
  parent : ∀ id, InTree s id → ∀ n, s.nodes id = some n → ∀ side c, n.child side = some c →
    ∃ m, s.nodes c = some m ∧ m.parent = some id

omit [LinearOrder T] in
/-- Where a node that is reached is in the tree. -/
theorem Holds.exists_place (h : Holds s t free) {id : ℕ} (hid : InTree s id) :
    ∃ (u : NodeTree ℕ T) (ctx : List (Branch ℕ T)), t = u.plug ctx ∧ u.ptr = some id := by
  induction hid with
  | root hroot => exact ⟨t, [], rfl, h.root.symm.trans hroot⟩
  | @child id c n _ hn side hc ih =>
    obtain ⟨u, ctx, rfl, hptr⟩ := ih
    obtain ⟨item, near, far, rfl⟩ := exists_join side hptr
    have hnode := (rep_join.mp (rep_plug.mp h.rep).1).1
    obtain rfl := Option.some_inj.mp (hn.symm.trans hnode)
    rw [child_nodeOf] at hc
    exact ⟨near, ⟨side, id, item, far⟩ :: ctx, rfl, hc⟩

/-- A linked tree is well linked. -/
theorem Holds.wellLinked (h : Holds s t free) : WellLinked s := by
  refine ⟨fun id hid => ?_, fun id hid n hn side c hc => ?_⟩
  · exact @Holds.exists_node T s t [] free h id (h.root.symm.trans hid)
  · obtain ⟨u, ctx, rfl, hptr⟩ := h.exists_place hid
    obtain ⟨item, near, far, rfl⟩ := exists_join side hptr
    have hnode := (rep_join.mp (rep_plug.mp h.rep).1).1
    obtain rfl := Option.some_inj.mp (hn.symm.trans hnode)
    rw [child_nodeOf] at hc
    exact @Holds.exists_node T s near (⟨side, id, item, far⟩ :: ctx) free h c hc

/-- The trees and their sets after some operations, of which insertions are of items that are missing and
removals of items that are there. -/
inductive Reached : SplayTree T → Set T → Prop
  | empty : Reached SplayTree.empty ∅
  | contains {s s' : SplayTree T} {S : Set T} {v : T} {found : Option T} (h : Reached s S)
    (hcall : s.contains v = some (found, s')) : Reached s' S
  | insert {s s' : SplayTree T} {S : Set T} {v : T} {outOfMemory : Bool} (h : Reached s S) (hv : v ∉ S)
    (hcall : s.insert v outOfMemory = some (true, s')) : Reached s' (insert v S)
  | insertFails {s s' : SplayTree T} {S : Set T} {v : T} {outOfMemory : Bool} (h : Reached s S) (hv : v ∉ S)
    (hcall : s.insert v outOfMemory = some (false, s')) : Reached s' S
  | remove {s s' : SplayTree T} {S : Set T} {v : T} (h : Reached s S) (hv : v ∈ S)
    (hcall : s.remove v = some s') : Reached s' (S \ {v})

/-- The tree holds the set after any operations. -/
theorem Reached.isSet {S : Set T} (h : Reached s S) : IsSet s S := by
  induction h with
  | empty =>
    refine ⟨.nil, [], ⟨rfl, trivial, List.nodup_nil, rfl, fun _ hid => absurd hid List.not_mem_nil,
      fun _ hid => absurd hid List.not_mem_nil⟩, List.Pairwise.nil, fun x => ?_⟩
    exact iff_of_false List.not_mem_nil id
  | contains _ hcall ih =>
    obtain ⟨found, s', hcall', h', -⟩ := contains_spec ih _
    rw [hcall'] at hcall
    cases hcall
    exact h'
  | insert _ hv hcall ih =>
    obtain ⟨ok, s', hcall', h', -⟩ := insert_spec ih hv _
    rw [hcall'] at hcall
    cases hcall
    exact h' rfl
  | insertFails _ hv hcall ih =>
    obtain ⟨ok, s', hcall', -, h'⟩ := insert_spec ih hv _
    rw [hcall'] at hcall
    cases hcall
    exact (h' rfl).2
  | remove _ hv hcall ih =>
    obtain ⟨s', hcall', h'⟩ := remove_spec ih hv
    rw [hcall'] at hcall
    cases hcall
    exact h'

/-- After any operations the tree is well linked and its items, visited in order, are those of the set.
The next operation ends: `contains` finds the items of the set, `insert` of a missing item fails only
without memory, and `remove` takes an item out. -/
theorem splayTree_refines {S : Set T} (h : Reached s S) :
    WellLinked s ∧
    (∃ xs, s.forEach = some xs ∧ xs.Pairwise (· < ·) ∧ ∀ x, x ∈ xs ↔ x ∈ S) ∧
    (∀ v, ∃ found s', s.contains v = some (found, s') ∧ (v ∈ S → found = some v) ∧ (v ∉ S → found = none)) ∧
    (∀ v outOfMemory, v ∉ S → ∃ ok s', s.insert v outOfMemory = some (ok, s') ∧
      (ok = false → outOfMemory = true)) ∧
    ∀ v ∈ S, ∃ s', s.remove v = some s' := by
  have hset := h.isSet
  obtain ⟨t, free, hholds, hsorted, hS⟩ := hset
  refine ⟨hholds.wellLinked, ⟨t.items, ?_, hsorted, hS⟩, fun v => ?_, fun v outOfMemory hv => ?_, fun v hv => ?_⟩
  · rw [SplayTree.forEach, hholds.root]
    exact forEachInner_eq s.allocated t none hholds.rep hholds.length_le
  · obtain ⟨found, s', hcall, -, hfound⟩ := contains_spec h.isSet v
    exact ⟨found, s', hcall, hfound⟩
  · obtain ⟨ok, s', hcall, -, hfails⟩ := insert_spec h.isSet hv outOfMemory
    exact ⟨ok, s', hcall, fun hok => (hfails hok).1⟩
  · obtain ⟨s', hcall, -⟩ := remove_spec h.isSet hv
    exact ⟨s', hcall⟩

/-- A number is inserted. -/
theorem splayTree_refines_one : ∃ (s : SplayTree ℕ) (S : Set ℕ), 1 ∈ S ∧ WellLinked s ∧
    ∃ xs, s.forEach = some xs ∧ xs.Pairwise (· < ·) ∧ ∀ x, x ∈ xs ↔ x ∈ S := by
  obtain ⟨ok, s₁, hcall, hok⟩ :=
    (splayTree_refines (T := ℕ) Reached.empty).2.2.2.1 1 false (Set.notMem_empty 1)
  cases ok with
  | false => exact absurd (hok rfl) Bool.false_ne_true
  | true =>
    have hone := Reached.insert Reached.empty (Set.notMem_empty 1) hcall
    exact ⟨s₁, _, Set.mem_insert 1 ∅, (splayTree_refines hone).1, (splayTree_refines hone).2.1⟩

end SpiderMonkey.Ds.Splay
