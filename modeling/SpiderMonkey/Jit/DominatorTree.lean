import Mathlib
import SpiderMonkey.Jit.DominatorsSound
import SpiderMonkey.Lib.IntervalNumbering

/-!
# The dominator tree and its preorder numbers

Blocks are linked in postorder, so the count below a block is final before the block is added
below another. The worklist then visits the tree of each self-dominating block contiguously, and
the interval test on preorder numbers decides dominance.
-/

namespace SpiderMonkey.Jit

open Relation

section Linking

variable {g : MIRGraph} {idom : ImmediateDominators} {j : ℕ} {t : DominatedBlocks}

/-- The state of linking after the blocks from `j` on are added: children are the blocks with this
immediate dominator, each count adds up those of the children, and together the counts of the
blocks that are no children cover the graph. -/
structure Linked (g : MIRGraph) (idom : ImmediateDominators) (j : ℕ) (t : DominatedBlocks) :
    Prop where
  mem_children : ∀ q c, c ∈ t.immediatelyDominatedBlocks q ↔
    j ≤ c ∧ c < g.numBlocks ∧ idom c = some q ∧ c ≠ q
  nodup : ∀ q, (t.immediatelyDominatedBlocks q).Nodup
  count : ∀ q, t.numDominated q =
    ((t.immediatelyDominatedBlocks q).map fun c => t.numDominated c + 1).sum
  total : ∑ v ∈ Finset.range g.numBlocks,
    (if v < j ∨ idom v = some v then t.numDominated v + 1 else 0) = g.numBlocks

/-- Adding the next block keeps the links and counts. -/
theorem Linked.addChild (hg : g.Numbered) (h : idom.Exact g) (ht : Linked g idom (j + 1) t)
    (hj : j < g.numBlocks) : ∃ t', addChild idom t j = some t' ∧ Linked g idom j t' := by
  obtain ⟨parent, hparent⟩ := Option.ne_none_iff_exists'.mp (h.processed j hj)
  simp only [Jit.addChild, hparent]
  by_cases hself : j = parent
  · subst hself
    refine ⟨t, if_pos rfl, fun q c => ?_, ht.nodup, ht.count, ?_⟩
    · rw [ht.mem_children]
      grind
    · refine Eq.trans (Finset.sum_congr rfl fun v _ => if_congr ?_ rfl rfl) ht.total
      grind
  · have hlt : parent < j := by
      have hle := (h.invariant.path hparent).le hg
      omega
    refine ⟨_, if_neg hself, fun q c => ?_, fun q => ?_, fun q => ?_, ?_⟩ <;> dsimp only
    · rcases eq_or_ne q parent with rfl | hq
      · rw [Function.update_self, List.mem_append, List.mem_singleton, ht.mem_children]
        grind
      · rw [Function.update_of_ne hq, ht.mem_children]
        grind
    · rcases eq_or_ne q parent with rfl | hq
      · rw [Function.update_self, List.nodup_append]
        have hnot : j ∉ t.immediatelyDominatedBlocks q := fun hmem => by
          have hle := ((ht.mem_children q j).mp hmem).1
          omega
        refine ⟨ht.nodup q, List.nodup_singleton j, ?_⟩
        grind
      · rw [Function.update_of_ne hq]
        exact ht.nodup q
    · -- the parent of a later block is never added before that block
      have hkept (q : ℕ) : ((t.immediatelyDominatedBlocks q).map fun c =>
          Function.update t.numDominated parent (t.numDominated parent + (t.numDominated j + 1)) c
            + 1) = (t.immediatelyDominatedBlocks q).map fun c => t.numDominated c + 1 := by
        refine List.map_congr_left fun c hc => ?_
        have hle := ((ht.mem_children q c).mp hc).1
        rw [Function.update_of_ne (by omega)]
      rcases eq_or_ne q parent with rfl | hq
      · have hsum := ht.count q
        have hne : j ≠ q := hself
        simp only [Function.update_self, List.map_append, List.map_singleton, List.sum_append,
          List.sum_singleton, hkept, Function.update_of_ne hne]
        omega
      · simp only [Function.update_of_ne hq, hkept]
        exact ht.count q
    · -- the block's own share moves to its parent
      have hshare (v : ℕ) :
          (if v < j ∨ idom v = some v then
              Function.update t.numDominated parent
                (t.numDominated parent + (t.numDominated j + 1)) v + 1 else 0) +
              (if v = j then t.numDominated j + 1 else 0) =
            (if v < j + 1 ∨ idom v = some v then t.numDominated v + 1 else 0) +
              (if v = parent then t.numDominated j + 1 else 0) := by
        rcases eq_or_ne v parent with rfl | hvp
        · simp [hlt, hlt.ne, show v < j + 1 by omega]
          omega
        · rw [Function.update_of_ne hvp, if_neg hvp]
          grind
      have hsum := Finset.sum_congr rfl fun v (_ : v ∈ Finset.range g.numBlocks) => hshare v
      rw [Finset.sum_add_distrib, Finset.sum_add_distrib, ht.total, Finset.sum_ite_eq',
        Finset.sum_ite_eq', if_pos (Finset.mem_range.mpr hj),
        if_pos (Finset.mem_range.mpr (hlt.trans hj))] at hsum
      omega

/-- Adding all blocks in postorder links the whole tree. -/
theorem addChildren_linked (hg : g.Numbered) (h : idom.Exact g) : ∀ (j : ℕ) (t : DominatedBlocks),
    j ≤ g.numBlocks → Linked g idom j t →
      ∃ t', addChildren idom (List.range j).reverse t = some t' ∧ Linked g idom 0 t' := by
  intro j
  induction j with
  | zero => exact fun t _ ht => ⟨t, rfl, ht⟩
  | succ j ih =>
    intro t hj ht
    obtain ⟨t₁, hadd, ht₁⟩ := ht.addChild hg h (by omega)
    obtain ⟨t₂, hrest, ht₂⟩ := ih t₁ (by omega) ht₁
    refine ⟨t₂, ?_, ht₂⟩
    rw [List.range_succ, List.reverse_append, List.reverse_singleton, List.singleton_append,
      addChildren, hadd]
    exact hrest

/-- Nothing is linked at first. -/
theorem linked_empty : Linked g idom g.numBlocks ⟨fun _ => [], fun _ => 0⟩ :=
  ⟨fun q c => by simpa using fun hle hlt => absurd hlt (by omega), by simp, by simp,
    by rw [Finset.sum_congr rfl fun v hv => if_pos (Or.inl (Finset.mem_range.mp hv))]; simp⟩

end Linking

section Numbering

variable {children : ℕ → List ℕ} {count : ℕ → ℕ} {n : ℕ}

/-- Vertices below the children of a vertex come later. -/
theorem lt_of_inForest (hlt : ∀ p, ∀ c ∈ children p, p < c ∧ c < n) {v a : ℕ}
    (h : InForest children (children v) a) : v < a := by
  obtain ⟨c, hc, hca⟩ := h
  have hle : c ≤ a := by
    induction hca with
    | refl => exact le_rfl
    | tail _ hstep ih =>
      have hstep' := (hlt _ _ hstep).1
      omega
  have hvc := (hlt v c hc).1
  omega

/-- The worklist numbers the trees on its top before it goes on with the rest. -/
theorem numberBlocks_forest (hlt : ∀ p, ∀ c ∈ children p, p < c ∧ c < n)
    (hcount : ∀ q, count q = ((children q).map fun c => count c + 1).sum)
    (hapart : ∀ q, (children q).Pairwise (Apart children)) :
    ∀ (m : ℕ) (roots : List ℕ), (∀ v ∈ roots, v < n ∧ n ≤ v + m) →
      roots.Pairwise (Apart children) → ∀ (fuel : ℕ) (rest : List ℕ) (i : ℕ) (index : ℕ → ℕ),
        ∃ index', numberBlocks children (fuel + (roots.map fun v => count v + 1).sum)
            (roots ++ rest) i index =
          numberBlocks children fuel rest (i + (roots.map fun v => count v + 1).sum) index' ∧
          IntervalNumbering children count roots i (i + (roots.map fun v => count v + 1).sum)
            index' ∧
          ∀ a, ¬ InForest children roots a → index' a = index a := by
  intro m
  induction m with
  | zero =>
    intro roots hroots
    cases roots with
    | nil => exact fun _ _ _ _ index => ⟨index, rfl, .nil, fun _ _ => rfl⟩
    | cons v roots =>
      have hv := hroots v (by simp)
      omega
  | succ m ihm =>
    intro roots
    induction roots with
    | nil => exact fun _ _ _ _ _ index => ⟨index, rfl, .nil, fun _ _ => rfl⟩
    | cons v roots ih =>
      intro hroots hpairwise fuel rest i index
      have hv := hroots v (by simp)
      have hacyclic : ¬ InForest children (children v) v := fun h =>
        absurd (lt_of_inForest hlt h) (by omega)
      have hsum : ((children v).reverse.map fun c => count c + 1).sum = count v := by
        rw [List.map_reverse, List.sum_reverse, ← hcount]
      -- the children of the first root are taken from the worklist before the other roots
      obtain ⟨index₁, hrun₁, hnumbered₁, hframe₁⟩ := ihm (children v).reverse
        (fun c hc => by have hvc := hlt v c (List.mem_reverse.mp hc); omega)
        (List.pairwise_reverse.mpr ((hapart v).imp fun h => h.symm))
        (fuel + (roots.map fun v => count v + 1).sum) (roots ++ rest) (i + 1)
        (Function.update index v i)
      obtain ⟨index₂, hrun₂, hnumbered₂, hframe₂⟩ := ih
        (fun w hw => hroots w (List.mem_cons_of_mem _ hw)) hpairwise.of_cons fuel rest
        (i + 1 + count v) index₁
      have hv₁ : index₁ v = i := by
        rw [hframe₁ v (by rwa [inForest_reverse]), Function.update_self]
      have hdisjoint := (List.pairwise_cons.mp hpairwise).1
      have hkept (a : ℕ) (ha : InForest children [v] a) : index₂ a = index₁ a := by
        refine hframe₂ a fun ⟨w, hw, hwa⟩ => hdisjoint w hw a ?_ hwa
        simpa [InForest] using ha
      rw [hsum] at hrun₁ hnumbered₁
      have hnode : IntervalNumbering children count [v] i (i + 1 + count v) index₂ :=
        (hnumbered₁.node hv₁ rfl hacyclic).congr hkept
      refine ⟨index₂, ?_, ?_, fun a ha => ?_⟩
      · rw [List.map_cons, List.sum_cons, List.cons_append,
          show fuel + (count v + 1 + (roots.map fun v => count v + 1).sum) =
            (fuel + (roots.map fun v => count v + 1).sum + count v) + 1 by omega, numberBlocks,
          hrun₁, hrun₂]
        congr 1
        omega
      · rw [List.map_cons, List.sum_cons,
          show i + (count v + 1 + (roots.map fun v => count v + 1).sum) =
            i + 1 + count v + (roots.map fun v => count v + 1).sum by omega]
        exact hnode.cons hnumbered₂ (by omega) hdisjoint
      · rw [inForest_cons, not_or, below_iff, not_or] at ha
        rw [hframe₂ a ha.2, hframe₁ a (by rw [inForest_reverse]; exact ha.1.2),
          Function.update_of_ne ha.1.1]

/-- More fuel does not change the numbers. -/
theorem numberBlocks_mono {fuel fuel' : ℕ} (hle : fuel ≤ fuel') {worklist : List ℕ} {i : ℕ}
    {index index' : ℕ → ℕ} (h : numberBlocks children fuel worklist i index = some index') :
    numberBlocks children fuel' worklist i index = some index' := by
  induction fuel generalizing fuel' worklist i index with
  | zero =>
    cases worklist with
    | nil => cases fuel' <;> exact h
    | cons v worklist => simp [numberBlocks] at h
  | succ fuel ih =>
    obtain ⟨fuel', rfl⟩ := Nat.exists_eq_add_of_lt (show 0 < fuel' by omega)
    cases worklist with
    | nil => exact h
    | cons v worklist =>
      rw [zero_add, numberBlocks]
      exact ih (by omega) h

end Numbering

section Tree

variable {g : MIRGraph} {idom : ImmediateDominators} {t : DominatedBlocks}

/-- A linked child comes after its parent. -/
theorem Linked.lt (hg : g.Numbered) (h : idom.Exact g) (ht : Linked g idom 0 t) (p : ℕ) :
    ∀ c ∈ t.immediatelyDominatedBlocks p, p < c ∧ c < g.numBlocks := by
  intro c hc
  obtain ⟨-, hlt, hidom, hne⟩ := (ht.mem_children p c).mp hc
  have hle := (h.invariant.path hidom).le hg
  exact ⟨by omega, hlt⟩

/-- The vertices below a block are those whose chain goes through it. -/
theorem Linked.below_iff (hg : g.Numbered) (h : idom.Exact g) (ht : Linked g idom 0 t) {a b : ℕ}
    (hb : b < g.numBlocks) :
    Below t.immediatelyDominatedBlocks a b ↔ IdomChain idom b a := by
  constructor
  · intro hbelow
    induction hbelow with
    | refl => exact .refl
    | tail _ hstep ih =>
      obtain ⟨-, -, hidom, -⟩ := (ht.mem_children _ _).mp hstep
      have hlt := ht.lt hg h _ _ hstep
      exact .head hidom (ih (by omega))
  · intro hchain
    induction hchain using ReflTransGen.head_induction_on with
    | refl => exact .refl
    | @head c d hstep _ ih =>
      rcases eq_or_ne c d with rfl | hne
      · exact ih hb
      · have hle := (h.invariant.path hstep).le hg
        have hmem := (ht.mem_children d c).mpr ⟨by omega, hb, hstep, hne⟩
        exact ReflTransGen.tail (ih (by omega)) hmem

/-- Blocks that share a vertex below them are on one chain. -/
theorem Linked.apart (hg : g.Numbered) (h : idom.Exact g) (ht : Linked g idom 0 t) {v w : ℕ}
    (hv : v < g.numBlocks) (hvw : ¬ IdomChain idom v w) (hwv : ¬ IdomChain idom w v) : Apart t.immediatelyDominatedBlocks v w := by
  intro a hva hwa
  have ha : a < g.numBlocks := by
    rcases ReflTransGen.cases_tail hva with rfl | ⟨p, -, hstep⟩
    · exact hv
    · exact (ht.lt hg h _ _ hstep).2
  have hunique : Relator.RightUnique fun b d => idom b = some d := fun b d d' hd hd' => by
    simpa [hd] using hd'
  exact (ReflTransGen.total_of_right_unique hunique ((ht.below_iff hg h ha).mp hva)
    ((ht.below_iff hg h ha).mp hwa)).elim hvw hwv

/-- Children of one block are on no common chain. -/
theorem Linked.children_apart (hg : g.Numbered) (h : idom.Exact g) (ht : Linked g idom 0 t)
    (q : ℕ) : (t.immediatelyDominatedBlocks q).Pairwise (Apart t.immediatelyDominatedBlocks) := by
  have hnot {v w : ℕ} (hne : w ≠ v) (hv : v ∈ t.immediatelyDominatedBlocks q)
      (hw : w ∈ t.immediatelyDominatedBlocks q) : ¬ IdomChain idom v w := fun hchain => by
    have hidom := ((ht.mem_children q v).mp hv).2.2.1
    have hle := (hchain.of_ne hidom hne).le hg h.invariant
    have hlt := ht.lt hg h q w hw
    omega
  refine (ht.nodup q).imp_of_mem fun hv hw hne => ?_
  exact ht.apart hg h (ht.lt hg h q _ hv).2 (hnot hne.symm hv hw)
    (hnot hne hw hv)

/-- The self-dominating blocks, from the last to the first. -/
theorem mem_selfDominating {b : ℕ} :
    b ∈ ((List.range g.numBlocks).filter fun b => idom b = some b).reverse ↔
      b < g.numBlocks ∧ idom b = some b := by
  simp

/-- Self-dominating blocks are on no common chain. -/
theorem Linked.selfDominating_apart (hg : g.Numbered) (h : idom.Exact g)
    (ht : Linked g idom 0 t) :
    ((List.range g.numBlocks).filter fun b => idom b = some b).reverse.Pairwise
      (Apart t.immediatelyDominatedBlocks) := by
  have hnodup : ((List.range g.numBlocks).filter fun b => idom b = some b).reverse.Nodup :=
    List.nodup_reverse.mpr (List.nodup_range.filter _)
  refine hnodup.imp_of_mem fun hv hw hne => ?_
  obtain ⟨hv, hvself⟩ := mem_selfDominating.mp hv
  obtain ⟨-, hwself⟩ := mem_selfDominating.mp hw
  exact ht.apart hg h hv (fun hchain => hne (hchain.eq_of_self hvself).symm)
    fun hchain => hne (hchain.eq_of_self hwself)

/-- The chain of every block ends in a self-dominating block. -/
theorem ImmediateDominators.Exact.exists_selfDominating (hg : g.Numbered) (h : idom.Exact g) :
    ∀ b < g.numBlocks, ∃ r, r < g.numBlocks ∧ idom r = some r ∧ IdomChain idom b r := by
  intro b
  induction b using Nat.strongRecOn with
  | ind b ih =>
    intro hb
    obtain ⟨d, hd⟩ := Option.ne_none_iff_exists'.mp (h.processed b hb)
    have hle := (h.invariant.path hd).le hg
    rcases eq_or_ne d b with rfl | hne
    · exact ⟨d, hb, hd, .refl⟩
    · obtain ⟨r, hr, hself, hchain⟩ := ih d (by omega) (by omega)
      exact ⟨r, hr, hself, .head hd hchain⟩

/-- The immediate dominator of a block is itself, if no other block dominates it, and else the
closest of those that do. -/
theorem ImmediateDominators.Exact.closest (h : idom.Exact g) {b d : ℕ} (hd : idom b = some d) :
    (d = b ↔ ∀ a, g.Dominates a b → a = b) ∧
      (d ≠ b → IsImmediateDominator g.Edge g.IsRoot d b) := by
  refine ⟨⟨?_, fun hall => hall d (h.dominates b d hd)⟩, fun hne => ⟨hne, h.dominates b d hd, ?_⟩⟩
  · rintro rfl a hdom
    by_contra hne
    exact (h.invariant.closest hd a hne hdom).1 rfl
  · intro a hab hdom
    exact (h.invariant.closest hd a hab hdom).2

/-- The trees of the self-dominating blocks cover the graph. -/
theorem Linked.sum_selfDominating (ht : Linked g idom 0 t) :
    (((List.range g.numBlocks).filter fun b => idom b = some b).reverse.map
      fun v => t.numDominated v + 1).sum = g.numBlocks := by
  have hfilter (l : List ℕ) : ((l.filter fun b => idom b = some b).map
      fun v => t.numDominated v + 1).sum =
        (l.map fun v => if v < 0 ∨ idom v = some v then t.numDominated v + 1 else 0).sum := by
    induction l with
    | nil => rfl
    | cons v l ih => by_cases hv : idom v = some v <;> simp [hv, ih]
  have hrange : (List.range g.numBlocks).toFinset = Finset.range g.numBlocks := by
    ext v
    simp
  rw [List.map_reverse, List.sum_reverse, hfilter, ← List.sum_toFinset _ List.nodup_range, hrange]
  exact ht.total

end Tree

/-- The dominator information of every control-flow graph is right: the immediate dominator is the
closest strict dominator, if there is one, and the intervals of preorder numbers decide
dominance. -/
theorem buildDominatorTree_correct (g : MIRGraph) (hg : g.Numbered) :
    ∃ tree, (∀ fuel, g.numBlocks < fuel → buildDominatorTree g fuel = some tree) ∧
      (∀ b < g.numBlocks, ∃ d, tree.immediateDominator b = some d ∧
        (d = b ↔ ∀ a, g.Dominates a b → a = b) ∧
        (d ≠ b → IsImmediateDominator g.Edge g.IsRoot d b)) ∧
      ∀ a < g.numBlocks, ∀ b < g.numBlocks, g.Dominates a b ↔
        tree.domIndex a ≤ tree.domIndex b ∧
          tree.domIndex b ≤ tree.domIndex a + tree.numDominated a := by
  obtain ⟨idom, hloop, hidom⟩ := computeImmediateDominators_exact hg
  obtain ⟨t, hadd, ht⟩ := addChildren_linked hg hidom g.numBlocks _ le_rfl linked_empty
  obtain ⟨index, hrun, hindex, -⟩ := numberBlocks_forest (ht.lt hg hidom) ht.count
    (ht.children_apart hg hidom) g.numBlocks _
    (fun v hv => ⟨(mem_selfDominating.mp hv).1, by omega⟩) (ht.selfDominating_apart hg hidom)
    0 [] 0 fun _ => 0
  simp only [ht.sum_selfDominating, List.append_nil, zero_add, numberBlocks] at hrun
  refine ⟨⟨idom, t.numDominated, index⟩, fun fuel hlt => ?_, fun b hb => ?_, fun a ha b hb => ?_⟩
  · have hindexed := numberBlocks_mono (show g.numBlocks ≤ fuel by omega) hrun
    simp [buildDominatorTree, hloop fuel hlt, hadd, hindexed]
  · obtain ⟨d, hd⟩ := Option.ne_none_iff_exists'.mp (hidom.processed b hb)
    exact ⟨d, hd, hidom.closest hd⟩
  · have hforest (v : ℕ) (hv : v < g.numBlocks) : InForest t.immediatelyDominatedBlocks
        ((List.range g.numBlocks).filter fun b => idom b = some b).reverse v := by
      obtain ⟨r, hr, hself, hchain⟩ := hidom.exists_selfDominating hg v hv
      exact ⟨r, mem_selfDominating.mpr ⟨hr, hself⟩, (ht.below_iff hg hidom hv).mpr hchain⟩
    have hchain : g.Dominates a b ↔ IdomChain idom b a :=
      ⟨hidom.invariant.chain_of_dominates hg b (hidom.processed b hb),
        hidom.dominates_of_chain⟩
    rw [hchain, ← ht.below_iff hg hidom hb]
    exact hindex.interval a b (hforest a ha) (hforest b hb)

/-- A loop of two blocks behind a preheader that is entered from both roots. -/
def osrLoop : MIRGraph where
  numBlocks := 5
  predecessors b := match b with
    | 2 => [0, 1]
    | 3 => [2, 4]
    | 4 => [3]
    | _ => []
  osrBlock := some 1

/-- The example graph is numbered as required. -/
theorem osrLoop_numbered : osrLoop.Numbered where
  start_lt := by decide
  osr_lt b hb := by cases hb; decide
  predecessors_lt := by decide
  reachable b hb := by
    have h0 : RootPath osrLoop.Edge osrLoop.IsRoot 0 [0] := .root (by decide)
    have h1 : RootPath osrLoop.Edge osrLoop.IsRoot 1 [1] := .root (by decide)
    have h2 : RootPath osrLoop.Edge osrLoop.IsRoot 2 [2, 0] := .step h0 ⟨by decide, by decide⟩
    have h3 : RootPath osrLoop.Edge osrLoop.IsRoot 3 [3, 2, 0] := .step h2 ⟨by decide, by decide⟩
    have h4 : RootPath osrLoop.Edge osrLoop.IsRoot 4 [4, 3, 2, 0] :=
      .step h3 ⟨by decide, by decide⟩
    match b, hb with
    | 0, _ => exact ⟨_, h0⟩
    | 1, _ => exact ⟨_, h1⟩
    | 2, _ => exact ⟨_, h2⟩
    | 3, _ => exact ⟨_, h3⟩
    | 4, _ => exact ⟨_, h4⟩
  first_lt := by decide

/-- The preheader dominates itself alone, and its interval is the whole loop. -/
theorem buildDominatorTree_correct_osrLoop :
    ∃ tree, buildDominatorTree osrLoop 6 = some tree ∧
      tree.immediateDominator 2 = some 2 ∧ tree.immediateDominator 4 = some 3 ∧
      (∀ a, osrLoop.Dominates a 2 → a = 2) ∧
      IsImmediateDominator osrLoop.Edge osrLoop.IsRoot 3 4 ∧
      ∀ a < 5, ∀ b < 5, osrLoop.Dominates a b ↔
        tree.domIndex a ≤ tree.domIndex b ∧
          tree.domIndex b ≤ tree.domIndex a + tree.numDominated a := by
  obtain ⟨tree, hbuild, hidom, hinterval⟩ := buildDominatorTree_correct osrLoop osrLoop_numbered
  have htree := hbuild 6 (by decide)
  have hvalues : (buildDominatorTree osrLoop 6).map
      (fun t => (t.immediateDominator 2, t.immediateDominator 4)) = some (some 2, some 3) := by
    decide
  simp only [htree, Option.map_some, Option.some.injEq, Prod.mk.injEq] at hvalues
  obtain ⟨d2, hd2, hself, -⟩ := hidom 2 (by decide)
  obtain ⟨d4, hd4, -, hclosest⟩ := hidom 4 (by decide)
  obtain rfl : d2 = 2 := by simpa [hvalues.1] using hd2.symm
  obtain rfl : d4 = 3 := by simpa [hvalues.2] using hd4.symm
  exact ⟨tree, htree, hd2, hd4, hself.mp rfl, hclosest (by decide), hinterval⟩

end SpiderMonkey.Jit
