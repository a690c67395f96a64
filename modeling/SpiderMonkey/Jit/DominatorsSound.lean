import SpiderMonkey.Jit.Dominators
import Mathlib.Logic.Relation
import Mathlib.Data.Nat.Basic
import Mathlib.Data.Finset.Card
import Mathlib.Data.Finset.Range

/-!
# The dominator loop computes the closest dominators

What is known of each block brackets its set of dominators. From below, every dominator of a
block lies on its chain of immediate dominators: this holds from the start and each update keeps
it. From above, after `k` passes the chain of a block lies on every path to it with fewer than `k`
edges against the numbering. A path that repeats no block has fewer such edges than there are
blocks, so after that many passes the chain is exact, and a further pass changes nothing.
-/

namespace SpiderMonkey.Jit

open Relation

namespace MIRGraph

/-- A block to the predecessor its update starts from. -/
def FirstPredecessor (g : MIRGraph) (b p : ℕ) : Prop :=
  b < g.numBlocks ∧ ¬ g.IsRoot b ∧ (g.predecessors b).head? = some p

/-- First predecessors lead from one block to another. -/
def FirstPath (g : MIRGraph) : ℕ → ℕ → Prop := ReflTransGen g.FirstPredecessor

/-- Dominance between the blocks of a graph. -/
abbrev Dominates (g : MIRGraph) (a b : ℕ) : Prop := SpiderMonkey.Dominates g.Edge g.IsRoot a b

variable {g : MIRGraph}

/-- Following first predecessors never goes up. -/
theorem FirstPath.le (hg : g.Numbered) {b p : ℕ} (h : g.FirstPath b p) : p ≤ b := by
  induction h with
  | refl => exact le_rfl
  | tail _ hstep ih =>
    have hlt := hg.first_lt _ hstep.1 hstep.2.1 _ hstep.2.2
    omega

/-- A first predecessor is the source of an edge. -/
theorem FirstPredecessor.edge {b p : ℕ} (h : g.FirstPredecessor b p) : g.Edge p b :=
  ⟨h.1, List.mem_of_mem_head? (by simp [h.2.2])⟩

/-- A dominator of a block that comes before another on its way back dominates that one too. -/
theorem FirstPath.dominates (hg : g.Numbered) {b c a : ℕ} (h : g.FirstPath c b) (hab : a ≤ b)
    (hdom : g.Dominates a c) : g.Dominates a b := by
  induction h using ReflTransGen.head_induction_on with
  | refl => exact hdom
  | @head c p hstep hpath ih =>
    rcases eq_or_ne a c with rfl | hne
    · obtain rfl : a = b := le_antisymm hab (FirstPath.le hg (.head hstep hpath))
      exact Dominates.refl a
    · exact ih (hdom.of_edge hne hstep.edge)

/-- The vertices of a path are blocks of the graph. -/
theorem Numbered.path_lt (hg : g.Numbered) {v : ℕ} {p : List ℕ}
    (hp : RootPath g.Edge g.IsRoot v p) : ∀ u ∈ p, u < g.numBlocks := by
  induction hp with
  | root hr =>
    intro u hu
    obtain rfl := List.mem_singleton.mp hu
    exact hr.elim (fun h => h ▸ hg.start_lt) (hg.osr_lt _)
  | step _ hedge ih =>
    intro u hu
    exact (List.mem_cons.mp hu).elim (fun h => h ▸ hedge.1) (ih u)

end MIRGraph

/-- A block lies on the chain of immediate dominators that starts at another. -/
def IdomChain (idom : ImmediateDominators) : ℕ → ℕ → Prop :=
  ReflTransGen fun b d => idom b = some d

/-- What holds of the immediate dominators found so far: they lie on the way back along first
predecessors, they are known themselves, and each strict dominator of a block dominates them. -/
structure ImmediateDominators.Invariant (g : MIRGraph) (idom : ImmediateDominators) : Prop where
  root : ∀ b, g.IsRoot b → idom b = some b
  path : ∀ {b d}, idom b = some d → g.FirstPath b d
  known : ∀ {b d}, idom b = some d → idom d ≠ none
  closest : ∀ {b d}, idom b = some d → ∀ a, a ≠ b → g.Dominates a b → d ≠ b ∧ g.Dominates a d

section LowerBound

variable {g : MIRGraph} {idom : ImmediateDominators}

/-- The chain of a block follows first predecessors. -/
theorem IdomChain.path (h : idom.Invariant g) {b a : ℕ} (hchain : IdomChain idom b a) :
    g.FirstPath b a := by
  induction hchain with
  | refl => exact .refl
  | tail _ hstep ih => exact ih.trans (h.path hstep)

/-- The chain of a block goes down. -/
theorem IdomChain.le (hg : g.Numbered) (h : idom.Invariant g) {b a : ℕ}
    (hchain : IdomChain idom b a) : a ≤ b :=
  (hchain.path h).le hg

/-- The chain of a processed block visits processed blocks. -/
theorem IdomChain.known (h : idom.Invariant g) {b a : ℕ} (hchain : IdomChain idom b a)
    (hb : idom b ≠ none) : idom a ≠ none := by
  induction hchain with
  | refl => exact hb
  | tail _ hstep _ => exact h.known hstep

/-- The chain of a block goes on from its immediate dominator. -/
theorem IdomChain.of_ne {b d a : ℕ} (hchain : IdomChain idom b a) (hb : idom b = some d)
    (hne : a ≠ b) : IdomChain idom d a := by
  rcases ReflTransGen.cases_head hchain with rfl | ⟨d', hd', hrest⟩
  · exact absurd rfl hne
  · obtain rfl : d = d' := by simpa [hb] using hd'
    exact hrest

/-- The chain of a self-dominating block is that block. -/
theorem IdomChain.eq_of_self {b a : ℕ} (hchain : IdomChain idom b a) (hb : idom b = some b) :
    a = b := by
  induction hchain with
  | refl => rfl
  | tail _ hstep ih =>
    subst ih
    simpa [hb, eq_comm] using hstep

/-- Every dominator of a processed block is on its chain. -/
theorem ImmediateDominators.Invariant.chain_of_dominates (hg : g.Numbered) (h : idom.Invariant g)
    {a : ℕ} : ∀ b, idom b ≠ none → g.Dominates a b → IdomChain idom b a := by
  intro b
  induction b using Nat.strongRecOn with
  | ind b ih =>
    intro hb hdom
    obtain ⟨d, hd⟩ := Option.ne_none_iff_exists'.mp hb
    rcases eq_or_ne a b with rfl | hne
    · exact .refl
    · obtain ⟨hdne, hda⟩ := h.closest hd a hne hdom
      have hle := (h.path hd).le hg
      exact .head hd (ih d (by omega) (h.known hd) hda)

/-- What the walk of two fingers finds. -/
structure IsIntersection (idom : ImmediateDominators) (finger1 finger2 : ℕ) (r : Option ℕ) :
    Prop where
  found : ∀ d, r = some d → IdomChain idom finger1 d ∧ IdomChain idom finger2 d ∧
    ∀ a, IdomChain idom finger1 a → IdomChain idom finger2 a → IdomChain idom d a
  empty : r = none → ∀ a, IdomChain idom finger1 a → ¬ IdomChain idom finger2 a

/-- The intersection does not depend on the order of the fingers. -/
theorem IsIntersection.symm {f1 f2 : ℕ} {r : Option ℕ} (h : IsIntersection idom f1 f2 r) :
    IsIntersection idom f2 f1 r where
  found d hr := ⟨(h.found d hr).2.1, (h.found d hr).1, fun a h2 h1 => (h.found d hr).2.2 a h1 h2⟩
  empty hr a h2 h1 := h.empty hr a h1 h2

/-- Chains from two fingers do not meet above the earlier one. -/
theorem not_chain_later (hg : g.Numbered) (h : idom.Invariant g) {f1 f2 a : ℕ} (hlt : f2 < f1)
    (h2 : IdomChain idom f2 a) : a ≠ f1 := by
  have hle := h2.le hg h
  omega

/-- Moving the later finger keeps the intersection. -/
theorem IsIntersection.of_step (hg : g.Numbered) (h : idom.Invariant g) {f1 f2 d : ℕ}
    {r : Option ℕ} (hlt : f2 < f1) (hd : idom f1 = some d) (hr : IsIntersection idom d f2 r) :
    IsIntersection idom f1 f2 r where
  found e he := by
    obtain ⟨h1, h2, hclosest⟩ := hr.found e he
    exact ⟨.head hd h1, h2, fun a ha1 ha2 =>
      hclosest a (ha1.of_ne hd (not_chain_later hg h hlt ha2)) ha2⟩
  empty he a ha1 ha2 := hr.empty he a (ha1.of_ne hd (not_chain_later hg h hlt ha2)) ha2

/-- A later finger that dominates itself meets nothing. -/
theorem IsIntersection.of_self (hg : g.Numbered) (h : idom.Invariant g) {f1 f2 : ℕ} (hlt : f2 < f1)
    (hd : idom f1 = some f1) : IsIntersection idom f1 f2 none where
  found _ he := nomatch he
  empty _ _ ha1 ha2 := not_chain_later hg h hlt ha2 (ha1.eq_of_self hd)

/-- The walk ends and finds the intersection of the two chains. -/
theorem intersectDominators_spec (hg : g.Numbered) (h : idom.Invariant g) :
    ∀ fuel finger1 finger2, finger1 + finger2 < fuel → idom finger1 ≠ none → idom finger2 ≠ none →
      ∃ r, intersectDominators idom fuel finger1 finger2 = some r ∧
        IsIntersection idom finger1 finger2 r := by
  intro fuel
  induction fuel with
  | zero => intro _ _ hlt; omega
  | succ fuel ih =>
    intro f1 f2 hfuel h1 h2
    obtain ⟨d1, hd1⟩ := Option.ne_none_iff_exists'.mp h1
    obtain ⟨d2, hd2⟩ := Option.ne_none_iff_exists'.mp h2
    have hle1 := (h.path hd1).le hg
    have hle2 := (h.path hd2).le hg
    simp only [intersectDominators, hd1, hd2]
    by_cases heq : f1 = f2
    · subst heq
      refine ⟨some f1, by simp, ?_, nofun⟩
      rintro d ⟨⟩
      exact ⟨.refl, .refl, fun a ha _ => ha⟩
    · rw [if_neg heq]
      by_cases hlt : f2 < f1
      · rw [if_pos hlt]
        by_cases hself : d1 = f1
        · subst hself
          exact ⟨none, by simp, .of_self hg h hlt hd1⟩
        · rw [if_neg hself]
          obtain ⟨r, hr, hspec⟩ := ih d1 f2 (by omega) (h.known hd1) h2
          exact ⟨r, hr, hspec.of_step hg h hlt hd1⟩
      · rw [if_neg hlt]
        have hlt' : f1 < f2 := by omega
        by_cases hself : d2 = f2
        · subst hself
          exact ⟨none, by simp, (IsIntersection.of_self hg h hlt' hd2).symm⟩
        · rw [if_neg hself]
          obtain ⟨r, hr, hspec⟩ := ih f1 d2 (by omega) h1 (h.known hd2)
          exact ⟨r, hr, (hspec.symm.of_step hg h hlt' hd2).symm⟩

/-- What intersecting over all predecessors finds: a block on the chain of each processed one, to
which every block on all these chains is chained. -/
structure IsCommon (idom : ImmediateDominators) (preds : List ℕ) (r : Option ℕ) : Prop where
  found : ∀ d, r = some d → (∀ p ∈ preds, idom p ≠ none → IdomChain idom p d) ∧
    ∀ a, (∀ p ∈ preds, idom p ≠ none → IdomChain idom p a) → IdomChain idom d a
  empty : r = none → ∀ a, ¬ ∀ p ∈ preds, idom p ≠ none → IdomChain idom p a

/-- The predecessors of a block, all intersected, give what their chains have in common. -/
theorem intersectPredecessors_spec (hg : g.Numbered) (h : idom.Invariant g) :
    ∀ preds newIdom, idom newIdom ≠ none →
      ∃ r, intersectPredecessors idom preds newIdom = some r ∧
        IsCommon idom (newIdom :: preds) r := by
  intro preds
  induction preds with
  | nil =>
    intro newIdom hnew
    refine ⟨some newIdom, rfl, ?_, nofun⟩
    rintro d ⟨⟩
    refine ⟨fun p hp _ => ?_, fun a ha => ha newIdom (by simp) hnew⟩
    obtain rfl := List.mem_singleton.mp hp
    exact .refl
  | cons pred rest ih =>
    intro newIdom hnew
    rw [intersectPredecessors]
    by_cases hpred : idom pred = none
    · rw [if_pos hpred]
      obtain ⟨r, hr, hspec⟩ := ih newIdom hnew
      have hiff (a : ℕ) : (∀ p ∈ newIdom :: rest, idom p ≠ none → IdomChain idom p a) ↔
          ∀ p ∈ newIdom :: pred :: rest, idom p ≠ none → IdomChain idom p a := by
        simp [hpred]
      refine ⟨r, hr, fun d hd => ?_, fun hd a ha => hspec.empty hd a ((hiff a).mpr ha)⟩
      obtain ⟨hall, hclosest⟩ := hspec.found d hd
      exact ⟨(hiff d).mp hall, fun a ha => hclosest a ((hiff a).mpr ha)⟩
    · rw [if_neg hpred]
      obtain ⟨r, hr, hspec⟩ := intersectDominators_spec hg h (pred + newIdom + 1) pred newIdom
        (by omega) hpred hnew
      rw [hr]
      cases r with
      | none =>
        refine ⟨none, rfl, nofun, fun _ a ha => ?_⟩
        exact hspec.empty rfl a (ha pred (by simp) hpred) (ha newIdom (by simp) hnew)
      | some e =>
        obtain ⟨hpe, hne, hclosest⟩ := hspec.found e rfl
        obtain ⟨r, hr, hspec'⟩ := ih e (hpe.known h hpred)
        have hiff (a : ℕ) : (∀ p ∈ e :: rest, idom p ≠ none → IdomChain idom p a) ↔
            ∀ p ∈ newIdom :: pred :: rest, idom p ≠ none → IdomChain idom p a := by
          simp only [List.forall_mem_cons]
          constructor
          · rintro ⟨he, hrest⟩
            have hea := he (hpe.known h hpred)
            exact ⟨fun _ => hne.trans hea, fun _ => hpe.trans hea, hrest⟩
          · rintro ⟨hn, hp, hrest⟩
            exact ⟨fun _ => hclosest a (hp hpred) (hn hnew), hrest⟩
        refine ⟨r, hr, fun d hd => ?_, fun hd a ha => hspec'.empty hd a ((hiff a).mpr ha)⟩
        obtain ⟨hall, hclosest⟩ := hspec'.found d hd
        exact ⟨(hiff d).mp hall, fun a ha => hclosest a ((hiff a).mpr ha)⟩

end LowerBound

/-- What an update finds as the immediate dominator of a block. -/
structure IsUpdate (g : MIRGraph) (idom : ImmediateDominators) (b d : ℕ) : Prop where
  root : g.IsRoot b → d = b
  path : g.FirstPath b d
  known : d ≠ b → idom d ≠ none
  closest : ∀ a, a ≠ b → g.Dominates a b → d ≠ b ∧ g.Dominates a d
  common : d ≠ b → ∀ p ∈ g.predecessors b, idom p ≠ none → IdomChain idom p d

section Update

variable {g : MIRGraph} {idom : ImmediateDominators} {b d : ℕ}

/-- A block that dominates itself is kept. -/
theorem IsUpdate.of_self (h : idom.Invariant g) (hb : idom b = some b) : IsUpdate g idom b b where
  root _ := rfl
  path := .refl
  known hne := absurd rfl hne
  closest := h.closest hb
  common hne := absurd rfl hne

/-- Intersecting the predecessors of a block that is no root is an update. -/
theorem IsUpdate.of_common (hg : g.Numbered) (h : idom.Invariant g) (hb : b < g.numBlocks)
    (hroot : ¬ g.IsRoot b) (hbefore : ∀ v < b, idom v ≠ none) {first : ℕ} {rest : List ℕ}
    (hpreds : g.predecessors b = first :: rest) {r : Option ℕ}
    (hr : IsCommon idom (first :: rest) r) : IsUpdate g idom b (r.getD b) := by
  have hlt : first < b := hg.first_lt b hb hroot first (by simp [hpreds])
  have hchain (a : ℕ) (hne : a ≠ b) (hdom : g.Dominates a b) :
      ∀ p ∈ first :: rest, idom p ≠ none → IdomChain idom p a := fun p hp hknown =>
    h.chain_of_dominates hg p hknown (hdom.of_edge hne ⟨hb, hpreds ▸ hp⟩)
  cases r with
  | none =>
    exact ⟨fun _ => rfl, .refl, fun hne => absurd rfl hne,
      fun a hne hdom => absurd (hchain a hne hdom) (hr.empty rfl a), fun hne => absurd rfl hne⟩
  | some d =>
    obtain ⟨hall, hclosest⟩ := hr.found d rfl
    have hfirst := hall first (by simp) (hbefore first hlt)
    have hpath : g.FirstPath b d := .head ⟨hb, hroot, by simp [hpreds]⟩ (hfirst.path h)
    refine ⟨fun hr => absurd hr hroot, hpath, fun _ => hfirst.known h (hbefore first hlt), ?_, ?_⟩
    · intro a hne hdom
      have ha := hclosest a (hchain a hne hdom)
      have hle := hfirst.le hg h
      exact ⟨show d ≠ b by omega, hpath.dominates hg (ha.le hg h) hdom⟩
    · intro _ p hp
      exact hall p (hpreds ▸ hp)

/-- Updating a block whose predecessors in the numbering are processed ends, and reports a change
exactly when there is one. -/
theorem updateBlock_spec (hg : g.Numbered) (h : idom.Invariant g) (hb : b < g.numBlocks)
    (hbefore : ∀ v < b, idom v ≠ none) :
    ∃ d, IsUpdate g idom b d ∧
      updateBlock g idom b = some (Function.update idom b (some d), decide (idom b ≠ some d)) := by
  by_cases hself : idom b = some b
  · refine ⟨b, .of_self h hself, ?_⟩
    rw [updateBlock, if_pos hself, ← hself, Function.update_eq_self]
    simp
  · have hroot : ¬ g.IsRoot b := fun hr => hself (h.root b hr)
    obtain ⟨pred, hpred, -⟩ := exists_predecessor_not_dominated (hg.reachable b hb) hroot
    rw [updateBlock, if_neg hself]
    cases hpreds : g.predecessors b with
    | nil => exact absurd hpred.2 (by simp [hpreds])
    | cons first rest =>
      have hlt : first < b := hg.first_lt b hb hroot first (by simp [hpreds])
      obtain ⟨r, hr, hspec⟩ := intersectPredecessors_spec hg h rest first (hbefore first hlt)
      refine ⟨r.getD b, .of_common hg h hb hroot hbefore hpreds hspec, ?_⟩
      simp only [hr]
      cases r with
      | none => simp [hself]
      | some d =>
        by_cases hd : idom b = some d
        · simp only [Option.getD_some, if_pos hd]
          have hsame : Function.update idom b (some d) = idom := by
            rw [← hd, Function.update_eq_self]
          simp [hsame, hd]
        · simp [hd]

/-- An update keeps the invariant. -/
theorem IsUpdate.invariant (hu : IsUpdate g idom b d) (h : idom.Invariant g) :
    ImmediateDominators.Invariant g (Function.update idom b (some d)) where
  root v hv := by
    rcases eq_or_ne v b with rfl | hne
    · simp [hu.root hv]
    · rw [Function.update_of_ne hne, h.root v hv]
  path {v e} hv := by
    rcases eq_or_ne v b with rfl | hne
    · obtain rfl : d = e := by simpa using hv
      exact hu.path
    · exact h.path (by rwa [Function.update_of_ne hne] at hv)
  known {v e} hv := by
    rcases eq_or_ne e b with rfl | heb
    · simp
    · rw [Function.update_of_ne heb]
      rcases eq_or_ne v b with rfl | hne
      · obtain rfl : d = e := by simpa using hv
        exact hu.known heb
      · exact h.known (by rwa [Function.update_of_ne hne] at hv)
  closest {v e} hv := by
    rcases eq_or_ne v b with rfl | hne
    · obtain rfl : d = e := by simpa using hv
      exact hu.closest
    · exact h.closest (by rwa [Function.update_of_ne hne] at hv)

/-- The roots alone satisfy the invariant. -/
theorem initialDominators_invariant : (initialDominators g).Invariant g := by
  have hself {b d : ℕ} (hb : initialDominators g b = some d) : g.IsRoot b ∧ d = b := by
    simpa [initialDominators, eq_comm] using hb
  refine ⟨fun b hb => by simp [initialDominators, hb], ?_, ?_, ?_⟩
  · intro b d hb
    obtain ⟨-, rfl⟩ := hself hb
    exact .refl
  · intro b d hb
    obtain ⟨-, rfl⟩ := hself hb
    simp [hb]
  · intro b d hb a hne hdom
    exact absurd (hdom.eq_of_root (hself hb).1) hne

end Update

/-- The edges of a path that go against the numbering. -/
def retreats : List ℕ → ℕ
  | v :: u :: p => (if v ≤ u then 1 else 0) + retreats (u :: p)
  | _ => 0

/-- A path has fewer retreating edges than vertices. -/
theorem retreats_lt : ∀ p : List ℕ, p ≠ [] → retreats p < p.length
  | [], h => absurd rfl h
  | [_], _ => by simp [retreats]
  | v :: u :: p, _ => by
    have ih := retreats_lt (u :: p) (by simp)
    rw [retreats, List.length_cons]
    split <;> omega

/-- An initial part of a path has no more retreating edges. -/
theorem retreats_le_of_suffix {p q : List ℕ} (h : q <:+ p) : retreats q ≤ retreats p := by
  induction p with
  | nil => simp_all
  | cons v p ih =>
    rcases List.suffix_cons_iff.mp h with rfl | h
    · exact le_rfl
    · refine (ih h).trans ?_
      cases p with
      | nil => simp [retreats]
      | cons u p => simp [retreats]

/-- A block lies on every path to another with fewer than `k` retreating edges. -/
def DominatesWithin (g : MIRGraph) (k a b : ℕ) : Prop :=
  ∀ p, RootPath g.Edge g.IsRoot b p → retreats p < k → a ∈ p

section UpperBound

variable {g : MIRGraph} {idom : ImmediateDominators} {k a b c d : ℕ}

/-- A block lies on every path to itself. -/
theorem DominatesWithin.refl : DominatesWithin g k a a := fun _ hp _ => hp.mem_last

/-- The bounded form of dominance is transitive. -/
theorem DominatesWithin.trans (hab : DominatesWithin g k a b) (hbc : DominatesWithin g k b c) :
    DominatesWithin g k a c := by
  intro p hp hlt
  obtain ⟨q, hq, hroot⟩ := hp.exists_suffix (hbc p hp hlt)
  exact hq.subset (hab q hroot ((retreats_le_of_suffix hq).trans_lt hlt))

/-- Fewer paths are considered under a smaller bound. -/
theorem DominatesWithin.mono {k' : ℕ} (h : DominatesWithin g k a b) (hle : k' ≤ k) :
    DominatesWithin g k' a b := fun p hp hlt => h p hp (hlt.trans_le hle)

/-- Paths with fewer retreating edges than there are blocks decide dominance. -/
theorem DominatesWithin.dominates (hg : g.Numbered) (h : DominatesWithin g g.numBlocks a b) :
    g.Dominates a b := by
  intro p hp
  obtain ⟨q, hqp, hnodup, hq⟩ := hp.exists_nodup
  have hlength : q.length ≤ g.numBlocks := by
    have hsubset : q.toFinset ⊆ Finset.range g.numBlocks := fun u hu =>
      Finset.mem_range.mpr (hg.path_lt hq u (List.mem_toFinset.mp hu))
    have hcard := Finset.card_le_card hsubset
    rwa [List.toFinset_card_of_nodup hnodup, Finset.card_range] at hcard
  have hlt := retreats_lt q (List.ne_nil_of_mem hq.mem_last)
  exact hqp (h q hq (by omega))

/-- A chain whose links dominate within a bound dominates within it. -/
theorem IdomChain.dominatesWithin (hg : g.Numbered) (h : idom.Invariant g)
    (hsound : ∀ v ≤ b, ∀ d, idom v = some d → DominatesWithin g k d v)
    (hchain : IdomChain idom b a) : DominatesWithin g k a b := by
  induction hchain with
  | refl => exact .refl
  | tail hchain hstep ih => exact (hsound _ (IdomChain.le hg h hchain) _ hstep).trans ih

/-- What holds in the `k`-th pass before block `j` is recomputed. -/
structure Progress (g : MIRGraph) (k j : ℕ) (idom : ImmediateDominators) : Prop where
  invariant : idom.Invariant g
  processed : ∀ v < g.numBlocks, v < j ∨ 0 < k → idom v ≠ none
  sound : ∀ v d, idom v = some d → DominatesWithin g k d v
  sound_before : ∀ v < j, ∀ d, idom v = some d → DominatesWithin g (k + 1) d v

/-- An update of the next block dominates it within the next bound. -/
theorem Progress.update_sound (hg : g.Numbered) {j : ℕ} (h : Progress g k j idom)
    (hu : IsUpdate g idom j d) : DominatesWithin g (k + 1) d j := by
  intro p hp hlt
  rcases eq_or_ne d j with rfl | hne
  · exact hp.mem_last
  cases hp with
  | root hr => exact absurd (hu.root hr) hne
  | @step u v p hp hedge =>
    refine List.mem_cons_of_mem _ ?_
    have hmem : u < g.numBlocks := hg.predecessors_lt j hedge.1 u hedge.2
    have hretreats : retreats (j :: p) = (if j ≤ u then 1 else 0) + retreats p := by
      cases hp <;> rfl
    rcases Nat.lt_or_ge u j with huj | huj
    · -- the chain of an earlier predecessor is already accurate for the next bound
      have hchain := hu.common hne u hedge.2 (h.processed u hmem (Or.inl huj))
      refine hchain.dominatesWithin hg h.invariant (fun v hv => h.sound_before v (by omega)) p hp ?_
      omega
    · rw [hretreats, if_pos huj] at hlt
      have hchain := hu.common hne u hedge.2 (h.processed u hmem (Or.inr (by omega)))
      exact hchain.dominatesWithin hg h.invariant (fun v _ => h.sound v) p hp (by omega)

/-- Recomputing one block makes progress. -/
theorem Progress.step (hg : g.Numbered) {j : ℕ} (h : Progress g k j idom)
    (hu : IsUpdate g idom j d) : Progress g k (j + 1) (Function.update idom j (some d)) := by
  have hsound := h.update_sound hg hu
  refine ⟨hu.invariant h.invariant, ?_, ?_, ?_⟩
  · intro v hv hbefore
    rcases eq_or_ne v j with rfl | hne
    · simp
    · rw [Function.update_of_ne hne]
      exact h.processed v hv (hbefore.imp (fun hlt => by omega) id)
  · intro v e hv
    rcases eq_or_ne v j with rfl | hne
    · obtain rfl : d = e := by simpa using hv
      exact hsound.mono (by omega)
    · exact h.sound v e (by rwa [Function.update_of_ne hne] at hv)
  · intro v hlt e hv
    rcases eq_or_ne v j with rfl | hne
    · obtain rfl : d = e := by simpa using hv
      exact hsound
    · exact h.sound_before v (by omega) e (by rwa [Function.update_of_ne hne] at hv)

/-- A pass ends, makes progress on every block, and reports whether it changed anything. -/
theorem Progress.blocks_spec (hg : g.Numbered) : ∀ (m j : ℕ) (idom : ImmediateDominators),
    j + m = g.numBlocks → Progress g k j idom →
      ∃ idom' changed, updateBlocks g idom (List.range' j m) = some (idom', changed) ∧
        Progress g k g.numBlocks idom' ∧ (changed = false → idom' = idom) := by
  intro m
  induction m with
  | zero =>
    rintro j idom rfl h
    exact ⟨idom, false, rfl, h, fun _ => rfl⟩
  | succ m ih =>
    intro j idom hjm h
    obtain ⟨d, hu, hupdate⟩ := updateBlock_spec hg h.invariant (b := j) (by omega)
      fun v hv => h.processed v (by omega) (Or.inl hv)
    obtain ⟨idom', changed, hrest, hprogress, hsame⟩ := ih (j + 1) _ (by omega) (h.step hg hu)
    refine ⟨idom', decide (idom j ≠ some d) || changed, ?_, hprogress, ?_⟩
    · simp [List.range'_succ, updateBlocks, hupdate, hrest]
    · intro hchanged
      rw [Bool.or_eq_false_iff] at hchanged
      have hd : idom j = some d := by simpa using hchanged.1
      rw [hsame hchanged.2, ← hd, Function.update_eq_self]

/-- A block without a place in the numbering is its own immediate dominator if it has one. -/
theorem ImmediateDominators.Invariant.eq_of_ge (h : idom.Invariant g) (hb : g.numBlocks ≤ b)
    (hd : idom b = some d) : d = b := by
  rcases ReflTransGen.cases_head (h.path hd) with rfl | ⟨c, hstep, -⟩
  · rfl
  · exact absurd hstep.1 (by omega)

/-- The end of a pass is the start of the next one. -/
theorem Progress.next (h : Progress g k g.numBlocks idom) : Progress g (k + 1) 0 idom := by
  refine ⟨h.invariant, fun v hv _ => h.processed v hv (Or.inl hv), ?_, fun v hv => by omega⟩
  intro v d hv
  rcases Nat.lt_or_ge v g.numBlocks with hlt | hge
  · exact h.sound_before v hlt d hv
  · obtain rfl := h.invariant.eq_of_ge hge hv
    exact .refl

/-- The pass of a state in progress. -/
theorem Progress.pass_spec (hg : g.Numbered) (h : Progress g k 0 idom) :
    ∃ idom' changed, dominatorPass g idom = some (idom', changed) ∧
      Progress g (k + 1) 0 idom' ∧ (changed = false → idom' = idom) := by
  obtain ⟨idom', changed, hpass, hprogress, hsame⟩ :=
    Progress.blocks_spec hg g.numBlocks 0 idom (by omega) h
  refine ⟨idom', changed, ?_, hprogress.next, hsame⟩
  rw [dominatorPass, List.range_eq_range', hpass]

/-- The initial state before the first pass. -/
theorem progress_initial : Progress g 0 0 (initialDominators g) :=
  ⟨initialDominators_invariant, fun _ _ h => by omega, fun _ _ _ _ _ h => by omega,
    fun _ h => by omega⟩

end UpperBound

/-- The immediate dominators of all blocks are known and right. -/
structure ImmediateDominators.Exact (g : MIRGraph) (idom : ImmediateDominators) : Prop where
  invariant : idom.Invariant g
  processed : ∀ v < g.numBlocks, idom v ≠ none
  dominates : ∀ v d, idom v = some d → g.Dominates d v

section Fixpoint

variable {g : MIRGraph} {idom : ImmediateDominators} {k b d e : ℕ}

/-- After as many passes as there are blocks the result is right. -/
theorem Progress.exact (hg : g.Numbered) (h : Progress g k 0 idom) (hk : g.numBlocks ≤ k) :
    idom.Exact g := by
  have hpos := hg.start_lt
  exact ⟨h.invariant, fun v hv => h.processed v hv (Or.inr (by omega)), fun v d hv =>
    ((h.sound v d hv).mono hk).dominates hg⟩

/-- The chain of a block consists of its dominators once all are right. -/
theorem ImmediateDominators.Exact.dominates_of_chain (h : idom.Exact g) {a : ℕ}
    (hchain : IdomChain idom b a) : g.Dominates a b := by
  induction hchain with
  | refl => exact Dominates.refl b
  | tail _ hstep ih => exact (h.dominates _ _ hstep).trans ih

/-- Once all are right, an update finds the block it replaces. -/
theorem ImmediateDominators.Exact.update_eq (hg : g.Numbered) (h : idom.Exact g)
    (hb : b < g.numBlocks) (hu : IsUpdate g idom b d) (he : idom b = some e) : d = e := by
  have hdom : g.Dominates d b := by
    by_cases hroot : g.IsRoot b
    · rw [hu.root hroot]
      exact Dominates.refl b
    · rcases eq_or_ne d b with rfl | hne
      · exact Dominates.refl d
      · refine Dominates.of_predecessors hroot fun p hp => ?_
        have hknown := h.processed p (hg.predecessors_lt b hb p hp.2)
        exact h.dominates_of_chain (hu.common hne p hp.2 hknown)
  by_cases hne : d = b
  · by_contra hde
    exact (hu.closest e (fun heb => hde (hne.trans heb.symm)) (h.dominates b e he)).1 hne
  · obtain ⟨heb, hde⟩ := h.invariant.closest he d hne hdom
    obtain ⟨-, hed⟩ := hu.closest e heb (h.dominates b e he)
    have hle := (h.invariant.chain_of_dominates hg d (hu.known hne) hed).le hg h.invariant
    have hge := (h.invariant.chain_of_dominates hg e (h.invariant.known he) hde).le hg h.invariant
    omega

/-- Once all are right, recomputing blocks changes nothing. -/
theorem ImmediateDominators.Exact.blocks_unchanged (hg : g.Numbered) (h : idom.Exact g) :
    ∀ blocks : List ℕ, (∀ b ∈ blocks, b < g.numBlocks) →
      updateBlocks g idom blocks = some (idom, false) := by
  intro blocks
  induction blocks with
  | nil => intro _; rfl
  | cons b rest ih =>
    intro hlt
    have hb := hlt b (by simp)
    obtain ⟨d, hu, hupdate⟩ := updateBlock_spec hg h.invariant hb
      fun v hv => h.processed v (hv.trans hb)
    obtain ⟨e, he⟩ := Option.ne_none_iff_exists'.mp (h.processed b hb)
    obtain rfl := h.update_eq hg hb hu he
    rw [updateBlocks, hupdate, ← he, Function.update_eq_self]
    simp [ih fun v hv => hlt v (List.mem_cons_of_mem _ hv)]

/-- A state that a pass leaves unchanged is right. -/
theorem Progress.exact_of_unchanged (hg : g.Numbered) (h : Progress g k 0 idom)
    (hpass : dominatorPass g idom = some (idom, false)) : idom.Exact g := by
  have hall (m : ℕ) : Progress g (k + m) 0 idom := by
    induction m with
    | zero => exact h
    | succ m ih =>
      obtain ⟨idom', changed, hpass', hprogress, -⟩ := ih.pass_spec hg
      obtain ⟨rfl, rfl⟩ : idom = idom' ∧ false = changed := by simpa [hpass] using hpass'
      exact hprogress
  exact (hall g.numBlocks).exact hg (by omega)

/-- The loop ends after at most one pass more than there are blocks, with the right result. -/
theorem dominatorLoop_exact (hg : g.Numbered) : ∀ (fuel k : ℕ) (idom : ImmediateDominators),
    g.numBlocks < fuel + k → Progress g k 0 idom →
      k ≤ g.numBlocks → ∃ idom', dominatorLoop g fuel idom = some idom' ∧ idom'.Exact g := by
  intro fuel
  induction fuel with
  | zero => intro k idom hlt _ hle; omega
  | succ fuel ih =>
    intro k idom hlt h hle
    obtain ⟨idom', changed, hpass, hprogress, hsame⟩ := h.pass_spec hg
    rw [dominatorLoop, hpass]
    cases changed with
    | false =>
      obtain rfl := hsame rfl
      exact ⟨idom', by simp, h.exact_of_unchanged hg hpass⟩
    | true =>
      rcases Nat.lt_or_ge k g.numBlocks with hk | hk
      · simpa using ih (k + 1) idom' (by omega) hprogress hk
      · have hexact := (h.exact hg hk).blocks_unchanged hg (List.range g.numBlocks) (by simp)
        simp [dominatorPass, hexact] at hpass

/-- More fuel does not change the result of the loop. -/
theorem dominatorLoop_mono {fuel fuel' : ℕ} (hle : fuel ≤ fuel') {idom idom' : ImmediateDominators}
    (h : dominatorLoop g fuel idom = some idom') : dominatorLoop g fuel' idom = some idom' := by
  induction fuel generalizing fuel' idom with
  | zero => simp [dominatorLoop] at h
  | succ fuel ih =>
    obtain ⟨fuel', rfl⟩ := Nat.exists_eq_add_of_lt (show 0 < fuel' by omega)
    rw [Nat.zero_add, dominatorLoop]
    rw [dominatorLoop] at h
    cases hpass : dominatorPass g idom with
    | none => simp [hpass] at h
    | some result =>
      obtain ⟨next, changed⟩ := result
      cases changed with
      | false => simpa [hpass] using h
      | true =>
        simp only [hpass, if_true] at h ⊢
        exact ih (by omega) h

/-- The computation ends within one pass more than there are blocks, with the right result. -/
theorem computeImmediateDominators_exact (hg : g.Numbered) :
    ∃ idom, (∀ fuel, g.numBlocks < fuel → computeImmediateDominators g fuel = some idom) ∧
      idom.Exact g := by
  obtain ⟨idom, hloop, hexact⟩ :=
    dominatorLoop_exact hg (g.numBlocks + 1) 0 _ (by omega) progress_initial (by omega)
  exact ⟨idom, fun fuel hlt => dominatorLoop_mono (by omega) hloop, hexact⟩

end Fixpoint

end SpiderMonkey.Jit
