import SpiderMonkey.Gc.SCCLinks
import SpiderMonkey.Lib.Components
import Mathlib.Data.Fintype.Card

/-!
# The groups found are the strongly connected components

The state of a search stands for a stack and an output list of groups. While the native stack
lasts, every node on the stack reaches each later one and the node being searched; the low link of
that node is the time of a node it reaches, and no later than any node below it on the stack that
an edge leads to. When the low link is the node's own time, no edge leads below it, so it and the
nodes above form a component.

Once the native stack is full only the output is known to be in order, which is enough for the
merged group in front of it.
-/

namespace SpiderMonkey.Gc

open Relation

variable {V : Type*}

namespace ComponentFinder

/-- The edges of a graph given by lists of targets. -/
def Edge (edges : V → List V) (v w : V) : Prop := w ∈ edges v

/-- Reachability along edges. -/
abbrev Reach (edges : V → List V) : V → V → Prop := ReflTransGen (Edge edges)

/-- A state whose output is in order, each group being strongly connected. -/
structure Ordered (edges : V → List V) (s : ComponentFinder V) (stk : List V)
    (groups : List (List V)) : Prop where
  represents : Represents s stk groups
  forward : ForwardGroups (Edge edges) groups
  connected : ∀ g ∈ groups, ∀ v ∈ g, ∀ w ∈ g, Reach edges v w

/-- What a search from a node does to the state in any case: the stack grows, found nodes are
kept, and new ones are reachable. -/
structure Extends (edges : V → List V) (v : V) (s s' : ComponentFinder V) (stk stk' : List V)
    (groups' : List (List V)) : Prop where
  ordered : Ordered edges s' stk' groups'
  suffix : stk <:+ stk'
  full : s.stackFull = true → s'.stackFull = true
  found : s'.Discovered v
  kept : ∀ x, s.Discovered x → (s'.nodes x).gcDiscoveryTime = (s.nodes x).gcDiscoveryTime ∧
    (s'.nodes x).gcLowLink = (s.nodes x).gcLowLink
  reached : ∀ x, ¬ s.Discovered x → s'.Discovered x → Reach edges v x

/-- A searched node whose component reaches further down the stack: its low link is the time of a
node below it, and bounds what the nodes above it lead to. -/
structure OpenAt (edges : V → List V) (v : V) (s : ComponentFinder V) (new stk : List V) :
    Prop where
  mem : v ∈ new
  reach : ∀ x ∈ new, Reach edges x v
  low : ∃ y ∈ stk, s.timeOf y = (s.nodes v).gcLowLink ∧ Reach edges v y
  low_le : ∀ x ∈ new, ∀ w ∈ edges x,
    s.Discovered w ∧ (w ∈ stk → (s.nodes v).gcLowLink ≤ s.timeOf w)

/-- What a search that ran to its end leaves: its component is emitted, or it is open. -/
structure Completed (edges : V → List V) (v : V) (s s' : ComponentFinder V)
    (stk stk' : List V) : Prop where
  older : stk'.Pairwise fun x y => Reach edges y x
  outcome : (stk' = stk ∧ s.clock ≤ (s'.nodes v).gcLowLink) ∨
    ∃ new, stk' = new ++ stk ∧ OpenAt edges v s' new stk

/-- The state of a search after some edges of its node, as long as the native stack lasts. -/
structure Descending (edges : V → List V) (v : V) (s : ComponentFinder V) (handled : List V)
    (new stk : List V) : Prop where
  older : (new ++ v :: stk).Pairwise fun x y => Reach edges y x
  reach : ∀ x ∈ new ++ v :: stk, Reach edges x v
  low : ∃ y ∈ new ++ v :: stk, s.timeOf y = (s.nodes v).gcLowLink ∧ Reach edges v y
  low_le_time : (s.nodes v).gcLowLink ≤ s.timeOf v
  handled_le : ∀ w ∈ handled, s.Discovered w ∧ (w ∈ stk → (s.nodes v).gcLowLink ≤ s.timeOf w)
  low_le : ∀ x ∈ new, ∀ w ∈ edges x,
    s.Discovered w ∧ (w ∈ stk → (s.nodes v).gcLowLink ≤ s.timeOf w)

/-- The state of a search after some edges of its node. -/
structure Searching (edges : V → List V) (v : V) (s s' : ComponentFinder V) (stk new : List V)
    (groups' : List (List V)) (handled : List V) : Prop where
  extend : Extends edges v s s' stk (new ++ v :: stk) groups'
  time : (s'.nodes v).gcDiscoveryTime = .time s.clock
  descending : s'.stackFull = false → Descending edges v s' handled new stk

/-- The state with the low link of a node lowered. -/
def lowered [DecidableEq V] (s : ComponentFinder V) (v : V) (t : ℕ) : ComponentFinder V :=
  { s with
    nodes := Function.update s.nodes v
      { s.nodes v with gcLowLink := min (s.nodes v).gcLowLink t } }

section Steps

variable {edges : V → List V} {full : ℕ → Bool} {v w x : V} {s s' s₁ : ComponentFinder V}
  {stk stk' new handled : List V} {groups groups' : List (List V)} {t : ℕ}

/-- A time stamp of a found node is kept. -/
theorem Extends.timeOf_eq (h : Extends edges v s s' stk stk' groups') (hx : s.Discovered x) :
    s'.timeOf x = s.timeOf x := by
  rw [timeOf, timeOf, (h.kept x hx).1]

/-- Found nodes stay found. -/
theorem Extends.discovered (h : Extends edges v s s' stk stk' groups') (hx : s.Discovered x) :
    s'.Discovered x := by
  rw [Discovered, (h.kept x hx).1]
  exact hx

/-- A search from a target extends a search that goes on. -/
theorem Extends.trans {stk₁ : List V} {groups₁ : List (List V)}
    (h : Extends edges v s s₁ stk stk₁ groups₁) (h' : Extends edges w s₁ s' stk₁ stk' groups')
    (hvw : Reach edges v w) : Extends edges v s s' stk stk' groups' where
  ordered := h'.ordered
  suffix := h.suffix.trans h'.suffix
  full hfull := h'.full (h.full hfull)
  found := h'.discovered h.found
  kept x hx := by
    have hx₁ := h.discovered hx
    exact ⟨(h'.kept x hx₁).1.trans (h.kept x hx).1, (h'.kept x hx₁).2.trans (h.kept x hx).2⟩
  reached x hx hx' := by
    by_cases hx₁ : s₁.Discovered x
    · exact h.reached x hx hx₁
    · exact hvw.trans (h'.reached x hx₁ hx')

/-- A search that changes no found node leaves what is known of the current one. -/
theorem Descending.frame (h : Descending edges v s handled new stk)
    (hstack : ∀ x ∈ new ++ v :: stk, s.Discovered x)
    (hkept : ∀ x, s.Discovered x → (s'.nodes x).gcDiscoveryTime = (s.nodes x).gcDiscoveryTime ∧
      (s'.nodes x).gcLowLink = (s.nodes x).gcLowLink) :
    Descending edges v s' handled new stk := by
  have htime (x : V) (hx : s.Discovered x) : s'.timeOf x = s.timeOf x := by
    rw [timeOf, timeOf, (hkept x hx).1]
  have hdiscovered (x : V) (hx : s.Discovered x) : s'.Discovered x := by
    rw [Discovered, (hkept x hx).1]
    exact hx
  have hv := hstack v (by simp)
  have hbound (w : V) (hw : s.Discovered w ∧ (w ∈ stk → (s.nodes v).gcLowLink ≤ s.timeOf w)) :
      s'.Discovered w ∧ (w ∈ stk → (s'.nodes v).gcLowLink ≤ s'.timeOf w) := by
    rw [(hkept v hv).2, htime w hw.1]
    exact ⟨hdiscovered w hw.1, hw.2⟩
  obtain ⟨y, hy, hlow, hreach⟩ := h.low
  refine ⟨h.older, h.reach, ⟨y, hy, ?_, hreach⟩, ?_, fun w hw => hbound w (h.handled_le w hw),
    fun x hx w hw => hbound w (h.low_le x hx w hw)⟩
  · rw [htime y (hstack y hy), (hkept v hv).2, hlow]
  · rw [htime v hv, (hkept v hv).2]
    exact h.low_le_time

/-- One more edge is handled. -/
theorem Descending.handle (h : Descending edges v s handled new stk) (hw : s.Discovered w)
    (hle : w ∈ stk → (s.nodes v).gcLowLink ≤ s.timeOf w) :
    Descending edges v s (handled ++ [w]) new stk := by
  refine ⟨h.older, h.reach, h.low, h.low_le_time, fun x hx => ?_, h.low_le⟩
  rcases List.mem_append.mp hx with hx | hx
  · exact h.handled_le x hx
  · obtain rfl := List.mem_singleton.mp hx
    exact ⟨hw, hle⟩

/-- The nodes of an open component join the stack above the current node. -/
theorem Descending.push {above : List V} (h : Descending edges v s handled new stk)
    (holder : (above ++ (new ++ v :: stk)).Pairwise fun x y => Reach edges y x)
    (hopen : OpenAt edges w s above (new ++ v :: stk))
    (hle : (s.nodes v).gcLowLink ≤ (s.nodes w).gcLowLink) :
    Descending edges v s handled (above ++ new) stk := by
  obtain ⟨y, hy, -, hwy⟩ := hopen.low
  refine ⟨by rwa [List.append_assoc], fun x hx => ?_, ?_, h.low_le_time, h.handled_le,
    fun x hx z hz => ?_⟩
  · rw [List.append_assoc, List.mem_append] at hx
    exact hx.elim (fun hx => (hopen.reach x hx).trans (hwy.trans (h.reach y hy))) (h.reach x)
  · obtain ⟨z, hz, hlow⟩ := h.low
    exact ⟨z, by rw [List.append_assoc]; exact List.mem_append_right _ hz, hlow⟩
  · rcases List.mem_append.mp hx with hx | hx
    · obtain ⟨hdiscovered, hbound⟩ := hopen.low_le x hx z hz
      exact ⟨hdiscovered, fun hzstk => hle.trans (hbound (by simp [hzstk]))⟩
    · exact h.low_le x hx z hz

/-- The nodes not found yet. -/
def undiscovered [Fintype V] (s : ComponentFinder V) : Finset V :=
  Finset.univ.filter fun v => (s.nodes v).gcDiscoveryTime = .undefined

/-- What is required of a search procedure, for a bound on the nodes not found yet. -/
def SearchesFrom [Fintype V] (edges : V → List V) (bound : ℕ)
    (process : V → ComponentFinder V → Option (ComponentFinder V)) : Prop :=
  ∀ v s stk groups, Ordered edges s stk groups → ¬ s.Discovered v →
    s.undiscovered.card ≤ bound →
    (s.stackFull = false → stk.Pairwise (fun x y => Reach edges y x) ∧ ∀ x ∈ stk, Reach edges x v) →
    ∃ s' stk' groups', process v s = some s' ∧ Extends edges v s s' stk stk' groups' ∧
      s'.cur = s.cur ∧ (s'.stackFull = false → Completed edges v s s' stk stk')

/-- Fewer nodes are undiscovered after a search. -/
theorem Extends.undiscovered_subset [Fintype V] (h : Extends edges v s s' stk stk' groups') :
    s'.undiscovered ⊆ s.undiscovered := by
  intro x hx
  simp only [undiscovered, Finset.mem_filter, Finset.mem_univ, true_and] at hx ⊢
  by_contra hne
  exact h.discovered hne hx

/-- A search does not depend on the node that is current. -/
theorem Searching.withCur (h : Searching edges v s s' stk new groups handled) (c : Option V) :
    Searching edges v s { s' with cur := c } stk new groups handled := by
  have hrep : Represents { s' with cur := c } (new ++ v :: stk) groups :=
    h.extend.ordered.represents.congr rfl rfl rfl fun x => ⟨_, rfl⟩
  refine ⟨⟨⟨hrep, h.extend.ordered.forward, h.extend.ordered.connected⟩, h.extend.suffix,
    h.extend.full, h.extend.found, h.extend.kept, h.extend.reached⟩, h.time, fun hfull => ?_⟩
  have hdescending := h.descending hfull
  exact hdescending.frame (fun x hx => h.extend.ordered.represents.discovered_iff.mpr
    (List.mem_append_left _ hx)) fun x _ => ⟨rfl, rfl⟩

variable [DecidableEq V]

/-- The current node's low link is lowered. -/
theorem lowerLowLink_eq (h : s.cur = some v) : s.lowerLowLink t = some (s.lowered v t) := by
  simp [lowerLowLink, h, lowered]

/-- Lowering a low link only changes that. -/
theorem lowered_nodes (x : V) : ∃ low, (s.lowered v t).nodes x = { s.nodes x with gcLowLink := low } := by
  rcases eq_or_ne x v with rfl | hne
  · exact ⟨_, Function.update_self _ _ _⟩
  · exact ⟨_, Function.update_of_ne hne _ _⟩

/-- Lowering a low link keeps discovery times. -/
@[simp] theorem lowered_discoveryTime (x : V) :
    ((s.lowered v t).nodes x).gcDiscoveryTime = (s.nodes x).gcDiscoveryTime := by
  obtain ⟨low, hlow⟩ := lowered_nodes (s := s) (v := v) (t := t) x
  rw [hlow]

/-- Lowering a low link keeps time stamps. -/
@[simp] theorem lowered_timeOf (x : V) : (s.lowered v t).timeOf x = s.timeOf x := by
  simp [timeOf]

/-- Lowering a low link finds no node. -/
@[simp] theorem lowered_discovered (x : V) : (s.lowered v t).Discovered x ↔ s.Discovered x := by
  simp [Discovered]

/-- The low link of a node after lowering it. -/
@[simp] theorem lowered_low : ((s.lowered v t).nodes v).gcLowLink = min (s.nodes v).gcLowLink t := by
  simp [lowered]

/-- Lowering the low link of a new node keeps what a search did. -/
theorem Extends.lowered (h : Extends edges v s s' stk stk' groups') (hv : ¬ s.Discovered w) :
    Extends edges v s (s'.lowered w t) stk stk' groups' := by
  refine ⟨⟨?_, h.ordered.forward, h.ordered.connected⟩, h.suffix, h.full, ?_, fun x hx => ?_, ?_⟩
  · exact h.ordered.represents.congr rfl rfl rfl lowered_nodes
  · exact (lowered_discovered v).mpr h.found
  · have hne : x ≠ w := fun heq => hv (heq ▸ hx)
    rw [lowered_discoveryTime]
    refine ⟨(h.kept x hx).1, ?_⟩
    rw [← (h.kept x hx).2, ComponentFinder.lowered]
    simp only [Function.update_of_ne hne]
  · simpa using h.reached

/-- Lowering the low link to the time of a node on the stack, or not at all. -/
theorem Descending.lower (h : Descending edges v s handled new stk)
    (ht : (s.nodes v).gcLowLink ≤ t ∨ ∃ y ∈ new ++ v :: stk, s.timeOf y = t ∧ Reach edges v y) :
    Descending edges v (s.lowered v t) handled new stk := by
  have hbound (w : V) (hw : s.Discovered w ∧ (w ∈ stk → (s.nodes v).gcLowLink ≤ s.timeOf w)) :
      (s.lowered v t).Discovered w ∧
        (w ∈ stk → ((s.lowered v t).nodes v).gcLowLink ≤ (s.lowered v t).timeOf w) := by
    rw [lowered_discovered, lowered_low, lowered_timeOf]
    exact ⟨hw.1, fun hstk => (min_le_left _ _).trans (hw.2 hstk)⟩
  refine ⟨h.older, h.reach, ?_, ?_, fun w hw => hbound w (h.handled_le w hw),
    fun x hx w hw => hbound w (h.low_le x hx w hw)⟩
  · simp only [lowered_timeOf, lowered_low]
    rcases le_or_gt (s.nodes v).gcLowLink t with hle | hlt
    · rw [min_eq_left hle]
      exact h.low
    · rw [min_eq_right hlt.le]
      exact ht.resolve_left (by omega)
  · rw [lowered_low, lowered_timeOf]
    exact (min_le_left _ _).trans h.low_le_time

/-- Handling an edge keeps what is known of the search. -/
theorem Searching.edge_spec [Fintype V] {bound : ℕ}
    {process : V → ComponentFinder V → Option (ComponentFinder V)}
    (hprocess : SearchesFrom edges bound process) (hv : ¬ s.Discovered v)
    (h : Searching edges v s s' stk new groups handled) (hcur : s'.cur = some v)
    (hbound : s'.undiscovered.card ≤ bound) (hw : w ∈ edges v) :
    ∃ s'' new' groups', addEdgeTo process s' w = some s'' ∧
      Searching edges v s s'' stk new' groups' (handled ++ [w]) ∧ s''.cur = some v ∧
        s''.undiscovered.card ≤ bound := by
  have hrepresents := h.extend.ordered.represents
  have hstack (x : V) (hx : x ∈ new ++ v :: stk) : s'.Discovered x :=
    hrepresents.discovered_iff.mpr (List.mem_append_left _ hx)
  have hvw : Reach edges v w := ReflTransGen.single hw
  rw [ComponentFinder.addEdgeTo]
  cases hdisc : (s'.nodes w).gcDiscoveryTime with
  | finished =>
    have hfound : s'.Discovered w := by simp [Discovered, hdisc]
    refine ⟨s', new, groups, rfl, ⟨h.extend, h.time, fun hfull => ?_⟩, hcur, hbound⟩
    refine (h.descending hfull).handle hfound fun hwstk => ?_
    obtain ⟨t, ht⟩ := (hrepresents.mem_stack w).mp (by simp [hwstk])
    simp [hdisc] at ht
  | time t =>
    have hmem : w ∈ new ++ v :: stk := (hrepresents.mem_stack w).mpr ⟨t, hdisc⟩
    have htime : s'.timeOf w = t := by simp [timeOf, hdisc]
    refine ⟨_, new, groups, lowerLowLink_eq hcur, ⟨h.extend.lowered hv, ?_, fun hfull => ?_⟩,
      hcur, by simpa [undiscovered] using hbound⟩
    · simpa using h.time
    · refine ((h.descending hfull).lower (Or.inr ⟨w, hmem, htime, hvw⟩)).handle ?_ fun _ => ?_
      · simpa using hstack w hmem
      · rw [lowered_low, lowered_timeOf, htime]
        exact min_le_right _ _
  | undefined =>
    have hnew : ¬ s'.Discovered w := by simp [Discovered, hdisc]
    obtain ⟨s₂, stk₂, groups₂, hrun, hext, hcur', hcompleted⟩ := hprocess w s' _ _ h.extend.ordered
      hnew hbound fun hfull =>
        ⟨(h.descending hfull).older, fun x hx => ((h.descending hfull).reach x hx).tail hw⟩
    have hcur₂ : s₂.cur = some v := hcur'.trans hcur
    obtain ⟨above, rfl⟩ := hext.suffix
    refine ⟨s₂.lowered v (s₂.nodes w).gcLowLink, above ++ new, groups₂, ?_, ⟨?_, ?_, ?_⟩, hcur₂, ?_⟩
    · simp [hrun, lowerLowLink_eq hcur₂]
    · have hextend := h.extend.trans hext hvw
      rw [List.append_assoc]
      exact hextend.lowered hv
    · rw [lowered_discoveryTime, (hext.kept v (hstack v (by simp))).1]
      exact h.time
    · intro hfull
      have hfull₂ : s₂.stackFull = false := hfull
      have hfull' : s'.stackFull = false := by
        by_contra hne
        have hkept := hext.full (by simpa using hne)
        simp [hfull₂] at hkept
      have hdescending := (h.descending hfull').frame hstack hext.kept
      have hstk : w ∉ stk := fun hwstk => hnew (hstack w (by simp [hwstk]))
      have hfound : (s₂.lowered v (s₂.nodes w).gcLowLink).Discovered w := by simpa using hext.found
      obtain ⟨holder, houtcome⟩ := hcompleted hfull₂
      refine Descending.handle ?_ hfound fun hwstk => absurd hwstk hstk
      rcases houtcome with ⟨hsame, hclock⟩ | ⟨above', habove, hopen⟩
      · -- the target's component is emitted, and its low link is later than anything on the stack
        obtain rfl : above = [] := by simpa using hsame
        refine hdescending.lower (Or.inl ?_)
        have hlt := hrepresents.time_lt v (by simp)
        have hle := hdescending.low_le_time
        rw [hext.timeOf_eq (hstack v (by simp))] at hle
        omega
      · obtain rfl : above = above' := List.append_cancel_right habove
        obtain ⟨y, hy, hlow, hwy⟩ := hopen.low
        have hlowered := hdescending.lower (Or.inr ⟨y, hy, hlow, hvw.trans hwy⟩)
        have hne : w ≠ v := fun heq => hnew (hstack w (by simp [heq]))
        have hlow₂ : ((s₂.lowered v (s₂.nodes w).gcLowLink).nodes w).gcLowLink =
            (s₂.nodes w).gcLowLink := by
          rw [lowered]
          simp only [Function.update_of_ne hne]
        refine hlowered.push (w := w) holder ?_ ?_
        · refine ⟨hopen.mem, hopen.reach, ?_, ?_⟩
          · rw [hlow₂]
            exact ⟨y, hy, by simpa using hlow, hwy⟩
          · rw [hlow₂]
            simpa using hopen.low_le
        · rw [hlow₂, lowered_low]
          exact min_le_right _ _
    · have hsubset := Finset.card_le_card hext.undiscovered_subset
      simp only [undiscovered, lowered_discoveryTime] at hsubset hbound ⊢
      omega

/-- All edges of a node are handled one after the other. -/
theorem Searching.edges_spec [Fintype V] {bound : ℕ}
    {process : V → ComponentFinder V → Option (ComponentFinder V)}
    (hprocess : SearchesFrom edges bound process) (hv : ¬ s.Discovered v) :
    ∀ (todo handled new : List V) (s' : ComponentFinder V) (groups : List (List V)),
      handled ++ todo = edges v → Searching edges v s s' stk new groups handled →
        s'.cur = some v → s'.undiscovered.card ≤ bound →
          ∃ s'' new' groups', todo.foldlM (addEdgeTo process) s' = some s'' ∧
            Searching edges v s s'' stk new' groups' (edges v) := by
  intro todo
  induction todo with
  | nil =>
    intro handled new s' groups hedges h _ _
    rw [List.append_nil] at hedges
    exact ⟨s', new, groups, rfl, hedges ▸ h⟩
  | cons w todo ih =>
    intro handled new s' groups hedges h hcur hbound
    obtain ⟨s₁, new₁, groups₁, hrun, h₁, hcur₁, hbound₁⟩ :=
      h.edge_spec hprocess hv hcur hbound (w := w) (by simp [← hedges])
    obtain ⟨s'', new', groups', hrest, h'⟩ :=
      ih (handled ++ [w]) new₁ s₁ groups₁ (by simpa using hedges) h₁ hcur₁ hbound₁
    exact ⟨s'', new', groups', by simp [List.foldlM_cons, hrun, hrest], h'⟩

variable (groups) in
/-- Popping a component emits the nodes down to the given one as the first group. -/
theorem Represents.pop_spec {rest : List V} :
    ∀ (top g : List V) (s : ComponentFinder V) (fuel : ℕ), top.length < fuel → v ∉ top →
      Represents s (top ++ v :: rest) (consGroup g groups) →
        ∃ s', popComponent v groups.flatten.head? fuel s = some s' ∧
          Represents s' rest ((v :: (top.reverse ++ g)) :: groups) ∧ s'.cur = s.cur ∧
          s'.stackFull = s.stackFull ∧
          ∀ x, (s'.nodes x).gcLowLink = (s.nodes x).gcLowLink ∧
            (x ∉ top ++ [v] → (s'.nodes x).gcDiscoveryTime = (s.nodes x).gcDiscoveryTime) := by
  intro top
  have hemit (s : ComponentFinder V) (w x : V) (c : Option V) :
      ((s.emit w c).nodes x).gcLowLink = (s.nodes x).gcLowLink ∧
        (x ≠ w → ((s.emit w c).nodes x).gcDiscoveryTime = (s.nodes x).gcDiscoveryTime) := by
    rcases eq_or_ne x w with rfl | hne
    · simp [ComponentFinder.emit]
    · simp [ComponentFinder.emit, Function.update_of_ne hne]
  induction top with
  | nil =>
    intro g s fuel hfuel _ h
    obtain ⟨fuel, rfl⟩ := Nat.exists_eq_add_of_lt hfuel
    refine ⟨s.emit v groups.flatten.head?, ?_, by simpa using h.emit, rfl, rfl, fun x => ?_⟩
    · simp [ComponentFinder.popComponent, h.lists.stack.1]
    · simpa using hemit s v x _
  | cons w top ih =>
    intro g s fuel hfuel hv h
    obtain ⟨fuel, rfl⟩ := Nat.exists_eq_add_of_lt hfuel
    rw [List.mem_cons, not_or] at hv
    have hgroup : consGroup (w :: g) groups = (w :: g) :: groups := by simp [consGroup]
    obtain ⟨s', hrun, hrep, hcur, hfull, hkept⟩ := ih (w :: g) (s.emit w groups.flatten.head?)
      ((w :: top).length + fuel) (by simp only [List.length_cons]; omega) hv.2 (hgroup ▸ h.emit)
    refine ⟨s', ?_, by simpa using hrep, hcur, hfull, fun x => ?_⟩
    · rw [ComponentFinder.popComponent, h.lists.stack.1]
      simp only [Ne.symm hv.1, if_false]
      exact hrun
    · refine ⟨(hkept x).1.trans (hemit s w x _).1, fun hx => ?_⟩
      rw [List.cons_append, List.mem_cons, not_or] at hx
      exact ((hkept x).2 hx.2).trans ((hemit s w x _).2 hx.1)

/-- Emitting the component of a searched node whose low link is its own time. -/
theorem Searching.emit (h : Searching edges v s s' stk new groups (edges v))
    (hs : Ordered edges s stk groups') (hv : ¬ s.Discovered v) (hfull : s'.stackFull = false)
    (hlow : (s'.nodes v).gcLowLink = s.clock) :
    ∃ s'' groups'', popComponent v s'.firstComponent s'.clock s' = some s'' ∧
      Extends edges v s s'' stk stk groups'' ∧ s''.cur = s'.cur ∧ s''.stackFull = false ∧
      (s''.nodes v).gcLowLink = s.clock := by
  obtain ⟨hrep, hforward, hconnected⟩ := h.extend.ordered
  have hdescending := h.descending hfull
  have hnodup := hrep.lists.nodup
  have hvnew : v ∉ new := by
    intro hmem
    rw [List.append_assoc, List.nodup_append] at hnodup
    exact hnodup.2.2 v hmem v (by simp) rfl
  have hlength := hrep.lists.length_lt
  simp only [List.length_append, List.length_cons] at hlength
  obtain ⟨s'', hrun, hrep'', hcur, hfull'', hkept⟩ :=
    hrep.pop_spec groups new [] s' s'.clock (by omega) hvnew
  rw [← hrep.lists.output.linked.head?_eq] at hrun
  have htime : s'.timeOf v = s.clock := by simp [timeOf, h.time]
  -- an edge to a node below would have lowered the low link
  have hbelow (w : V) (hw : w ∈ stk) : ¬ (s'.nodes v).gcLowLink ≤ s'.timeOf w := by
    have hlt := hs.represents.time_lt w hw
    have hfound := hs.represents.discovered_iff.mpr (List.mem_append_left _ hw)
    rw [h.extend.timeOf_eq hfound]
    omega
  have hmem (x : V) : x ∈ v :: (new.reverse ++ []) ↔ x ∈ new ++ [v] := by simp [or_comm]
  refine ⟨s'', _, hrun, ⟨⟨hrep'', ⟨?_, hforward⟩, ?_⟩, List.suffix_refl _, ?_, ?_, ?_, ?_⟩, hcur,
    hfull''.trans hfull, (hkept v).1.trans hlow⟩
  · intro x hx w hw
    have hedge : s'.Discovered w ∧ (w ∈ stk → (s'.nodes v).gcLowLink ≤ s'.timeOf w) := by
      rw [hmem, List.mem_append, List.mem_singleton] at hx
      rcases hx with hx | rfl
      · exact hdescending.low_le x hx w hw
      · exact hdescending.handled_le w hw
    have hw' := hrep.discovered_iff.mp hedge.1
    rw [hmem]
    simp only [List.mem_append, List.mem_cons, List.not_mem_nil, or_false] at hw' ⊢
    have hstk : w ∉ stk := fun hwstk => hbelow w hwstk (hedge.2 hwstk)
    tauto
  · intro g hg x hx y hy
    rcases List.mem_cons.mp hg with rfl | hg
    · have hfrom : Reach edges v y := by
        rw [hmem, List.mem_append, List.mem_singleton] at hy
        rcases hy with hy | rfl
        · exact (List.pairwise_append.mp hdescending.older).2.2 y hy v (by simp)
        · exact .refl
      refine (hdescending.reach x ?_).trans hfrom
      rw [hmem] at hx
      simp only [List.mem_append, List.mem_cons, List.not_mem_nil, or_false] at hx ⊢
      tauto
    · exact hconnected g hg x hx y hy
  · intro hs
    exact absurd (h.extend.full hs) (by simp [hfull])
  · rw [hrep''.discovered_iff]
    simp
  · intro x hx
    refine ⟨?_, (hkept x).1.trans (h.extend.kept x hx).2⟩
    refine ((hkept x).2 fun hmem => ?_).trans (h.extend.kept x hx).1
    -- what is popped was not found before the search
    have hstack : x ∈ new ++ v :: stk := by
      simp only [List.mem_append, List.mem_cons, List.not_mem_nil, or_false] at hmem ⊢
      tauto
    obtain ⟨t, ht⟩ := (hrep.mem_stack x).mp hstack
    have hold : x ∈ stk :=
      (hs.represents.mem_stack x).mpr ⟨t, (h.extend.kept x hx).1.symm.trans ht⟩
    rw [List.mem_append, List.mem_singleton] at hmem
    rcases hmem with hmem | rfl
    · rw [List.append_assoc, List.nodup_append] at hnodup
      exact hnodup.2.2 x hmem x (by simp [hold]) rfl
    · exact hv hx
  · intro x hx hx'
    refine h.extend.reached x hx (hrep.discovered_iff.mpr ?_)
    have hx'' := hrep''.discovered_iff.mp hx'
    simp only [List.flatten_cons, List.mem_append, List.mem_cons, List.mem_reverse,
      List.not_mem_nil, or_false] at hx'' ⊢
    tauto

/-- The end of a search: the component is emitted, or stays open on the stack. -/
theorem Searching.finish_spec (h : Searching edges v s s' stk new groups (edges v))
    (hs : Ordered edges s stk groups') (hv : ¬ s.Discovered v) :
    ∃ s'' stk'' groups'', finishNode v s' = some s'' ∧
      Extends edges v s s'' stk stk'' groups'' ∧ s''.cur = s'.cur ∧
      (s''.stackFull = false → Completed edges v s s'' stk stk'') := by
  have htime : s'.timeOf v = s.clock := by simp [timeOf, h.time]
  rw [finishNode]
  cases hfull : s'.stackFull with
  | true => exact ⟨s', _, groups, rfl, h.extend, rfl, fun hnot => by simp [hfull] at hnot⟩
  | false =>
    have hdescending := h.descending hfull
    simp only [Bool.false_eq_true, if_false, h.time, DiscoveryTime.time.injEq]
    by_cases hlow : s.clock = (s'.nodes v).gcLowLink
    · obtain ⟨s'', groups'', hrun, hextend, hcur, -, hlow''⟩ := h.emit hs hv hfull hlow.symm
      rw [if_pos hlow]
      refine ⟨s'', stk, groups'', hrun, hextend, hcur, fun _ => ⟨?_, Or.inl ⟨rfl, hlow''.ge⟩⟩⟩
      exact (List.pairwise_append.mp hdescending.older).2.1.of_cons
    · rw [if_neg hlow]
      refine ⟨s', _, groups, rfl, h.extend, rfl, fun _ => ⟨hdescending.older, Or.inr ?_⟩⟩
      refine ⟨new ++ [v], by simp, ⟨by simp, fun x hx => hdescending.reach x ?_, ?_, ?_⟩⟩
      · simp only [List.mem_append, List.mem_cons, List.not_mem_nil, or_false] at hx ⊢
        tauto
      · -- the node with the low link's time is below the searched one, as its time is earlier
        obtain ⟨y, hy, hylow, hreach⟩ := hdescending.low
        have hle := hdescending.low_le_time
        refine ⟨y, ?_, hylow, hreach⟩
        rcases List.mem_append.mp hy with hy | hy
        · have hlt := (List.pairwise_append.mp h.extend.ordered.represents.sorted).2.2 y hy v
            (by simp)
          omega
        · refine (List.mem_cons.mp hy).resolve_left fun heq => hlow ?_
          rw [← htime, ← hylow, heq]
      · intro x hx w hw
        rcases List.mem_append.mp hx with hx | hx
        · exact hdescending.low_le x hx w hw
        · obtain rfl := List.mem_singleton.mp hx
          exact hdescending.handled_le w hw

/-- The search just after its node is discovered. -/
theorem Searching.start (hs : Ordered edges s stk groups) (hv : ¬ s.Discovered v)
    (hfull : s.stackFull = false → stk.Pairwise (fun x y => Reach edges y x) ∧
      ∀ x ∈ stk, Reach edges x v) : Searching edges v s (s.discover v) stk [] groups [] := by
  have hrep := hs.represents.discover hv
  have hkept (x : V) (hx : x ≠ v) : (s.discover v).nodes x = s.nodes x :=
    Function.update_of_ne hx _ _
  have hself : (s.discover v).nodes v =
      { s.nodes v with
        gcDiscoveryTime := .time s.clock
        gcLowLink := s.clock
        gcNextGraphNode := s.stack } := Function.update_self _ _ _
  have htime : (s.discover v).timeOf v = s.clock := by simp [timeOf, hself]
  refine ⟨⟨⟨hrep, hs.forward, hs.connected⟩, List.suffix_cons _ _, id, ?_, fun x hx => ?_,
    fun x hx hx' => ?_⟩, by rw [hself], fun hnot => ?_⟩
  · simp [Discovered, hself]
  · rw [hkept x fun heq => hv (heq ▸ hx)]
    exact ⟨rfl, rfl⟩
  · rcases eq_or_ne x v with rfl | hne
    · exact .refl
    · rw [Discovered, hkept x hne] at hx'
      exact absurd hx' hx
  · obtain ⟨holder, hreach⟩ := hfull hnot
    have hlow : ((s.discover v).nodes v).gcLowLink = s.clock := by rw [hself]
    refine ⟨List.pairwise_cons.mpr ⟨fun x hx => hreach x hx, holder⟩, ?_, ⟨v, by simp, ?_, .refl⟩,
      ?_, by simp, by simp⟩
    · intro x hx
      rcases List.mem_cons.mp hx with rfl | hx
      · exact .refl
      · exact hreach x hx
    · rw [htime, hlow]
    · rw [htime, hlow]

variable (full) in
/-- The search procedure does what is required of it if it has fuel for all nodes not found. -/
theorem processNode_spec [Fintype V] : ∀ fuel,
    SearchesFrom edges fuel (processNode edges full fuel) := by
  intro fuel
  induction fuel with
  | zero =>
    intro v s stk groups _ hv hbound
    have hmem : v ∈ s.undiscovered := by simpa [undiscovered, Discovered] using hv
    have hpos := Finset.card_pos.mpr ⟨v, hmem⟩
    omega
  | succ fuel ih =>
    intro v s stk groups hs hv hbound hfull
    have hstart := Searching.start hs hv hfull
    rw [processNode]
    cases hcheck : s.stackFull || full s.clock with
    | true =>
      have hextend := hstart.extend
      refine ⟨_, v :: stk, groups, rfl, ⟨⟨?_, hs.forward, hs.connected⟩, hextend.suffix, fun _ => rfl,
        hextend.found, hextend.kept, hextend.reached⟩, rfl, by simp⟩
      exact hextend.ordered.represents.congr rfl rfl rfl fun x => ⟨_, rfl⟩
    | false =>
      have hlt : (s.discover v).undiscovered ⊂ s.undiscovered := by
        refine (Finset.ssubset_iff_of_subset hstart.extend.undiscovered_subset).mpr ⟨v, ?_, ?_⟩
        · simpa [undiscovered, Discovered] using hv
        · have hfound : ((s.discover v).nodes v).gcDiscoveryTime ≠ .undefined := hstart.extend.found
          simpa [undiscovered] using hfound
      have hcard := Finset.card_lt_card hlt
      obtain ⟨s', new, groups', hrun, hsearched⟩ := Searching.edges_spec ih hv (edges v) [] []
        { s.discover v with cur := some v } groups (by simp) (hstart.withCur (some v)) rfl
        (by simp only [undiscovered] at hcard hbound ⊢; omega)
      obtain ⟨s'', stk'', groups'', hfinish, hextend, hcur, hcompleted⟩ :=
        (hsearched.withCur s.cur).finish_spec hs hv
      exact ⟨s'', stk'', groups'', by simp [hrun, hfinish], hextend, hcur, hcompleted⟩

end Steps

section Flag

variable [DecidableEq V] {edges : V → List V} {full : ℕ → Bool}

/-- A step that keeps a property of states keeps it over a list. -/
theorem foldlM_preserves {S A : Type*} {f : S → A → Option S} {P : S → Prop} {l : List A}
    (hstep : ∀ s, ∀ a ∈ l, ∀ s', P s → f s a = some s' → P s') {s s' : S} (hs : P s)
    (h : l.foldlM f s = some s') : P s' := by
  induction l generalizing s with
  | nil => exact Option.some.inj h ▸ hs
  | cons a l ih =>
    rw [List.foldlM_cons] at h
    obtain ⟨s₁, h₁, h⟩ := Option.bind_eq_some_iff.mp h
    exact ih (fun s b hb => hstep s b (List.mem_cons_of_mem _ hb)) (hstep s a (by simp) s₁ hs h₁) h

/-- Lowering a low link keeps the flag. -/
theorem lowerLowLink_stackFull {s s' : ComponentFinder V} {t : ℕ}
    (h : s.lowerLowLink t = some s') : s'.stackFull = s.stackFull := by
  rw [lowerLowLink] at h
  cases hcur : s.cur with
  | none => simp [hcur] at h
  | some v =>
    simp only [hcur, Option.some.injEq] at h
    rw [← h]

/-- Popping a component keeps the flag. -/
theorem popComponent_stackFull {v : V} {c : Option V} : ∀ (fuel : ℕ) (s s' : ComponentFinder V),
    popComponent v c fuel s = some s' → s'.stackFull = s.stackFull := by
  intro fuel
  induction fuel with
  | zero => intro s s' h; simp [popComponent] at h
  | succ fuel ih =>
    intro s s' h
    rw [popComponent] at h
    cases hstack : s.stack with
    | none => simp [hstack] at h
    | some w =>
      by_cases hw : w = v
      · simp only [hstack, hw, if_true, Option.some.injEq] at h
        rw [← h]
        rfl
      · simp only [hstack, hw, if_false] at h
        exact ih (s.emit w c) s' h

/-- A search never sets the flag while the native stack has room. -/
theorem processNode_stackFull (hfull : ∀ t, full t = false) :
    ∀ (fuel : ℕ) (v : V) (s s' : ComponentFinder V), s.stackFull = false →
      processNode edges full fuel v s = some s' → s'.stackFull = false := by
  intro fuel
  induction fuel with
  | zero => intro v s s' _ h; simp [processNode] at h
  | succ fuel ih =>
    intro v s s' hs h
    simp only [processNode, hs, hfull, Bool.or_self, Bool.false_eq_true, if_false] at h
    obtain ⟨s₁, h₁, h⟩ := Option.bind_eq_some_iff.mp h
    have hedges : s₁.stackFull = false := by
      refine foldlM_preserves (P := fun s => s.stackFull = false) (fun s w _ s' hs h => ?_) ?_ h₁
      · rw [addEdgeTo] at h
        split at h
        · obtain ⟨s₂, h₂, h⟩ := Option.bind_eq_some_iff.mp h
          exact (lowerLowLink_stackFull h).trans (ih _ _ _ hs h₂)
        · exact (lowerLowLink_stackFull h).trans hs
        · exact Option.some.inj h ▸ hs
      · exact hs
    rw [finishNode] at h
    split at h
    · exact Option.some.inj h ▸ hedges
    · split at h
      · exact (popComponent_stackFull _ _ _ h).trans hedges
      · exact Option.some.inj h ▸ hedges

end Flag

section Results

variable {edges : V → List V} {full : ℕ → Bool} {s s' : ComponentFinder V} {stk : List V}
  {groups : List (List V)} {calls : List (Call V)}

/-- The state between calls: the stack is empty unless the flag is set, and what was found is what
the added nodes reach. -/
structure Ready (edges : V → List V) (calls : List (Call V)) (s : ComponentFinder V)
    (stk : List V) (groups : List (List V)) : Prop where
  ordered : Ordered edges s stk groups
  empty : s.stackFull = false → stk = []
  added : ∀ v, .addNode v ∈ calls → s.Discovered v
  reached : ∀ x, s.Discovered x → ∃ r, .addNode r ∈ calls ∧ Reach edges r x

variable (edges) in
/-- A new finder is ready. -/
theorem ready_init {nodes : V → GraphNode V} (h : ∀ v, (nodes v).gcDiscoveryTime = .undefined) :
    Ready edges [] (init nodes) [] [] := by
  refine ⟨⟨⟨⟨rfl, ⟨by simp, rfl, by simp⟩, by simp, by simp [init]⟩, ?_, ?_, by simp, by simp⟩,
    trivial, by simp⟩, fun _ => rfl, by simp, ?_⟩ <;> simp [init, h, Discovered]

variable [DecidableEq V]

variable (full) in
/-- A call keeps the finder ready. -/
theorem Ready.call [Fintype V] {fuel : ℕ} (hfuel : Fintype.card V ≤ fuel)
    (h : Ready edges calls s stk groups) (c : Call V) :
    ∃ s' stk' groups', call edges full fuel s c = some s' ∧
      Ready edges (calls ++ [c]) s' stk' groups' := by
  cases c with
  | useOneComponent =>
    refine ⟨s.useOneComponent, stk, groups, rfl,
      ⟨⟨?_, h.ordered.forward, h.ordered.connected⟩, by simp [useOneComponent], ?_, ?_⟩⟩
    · exact h.ordered.represents.congr rfl rfl rfl fun x => ⟨_, rfl⟩
    · intro v hv
      exact h.added v (by simpa using hv)
    · intro x hx
      obtain ⟨r, hr, hreach⟩ := h.reached x hx
      exact ⟨r, by simp [hr], hreach⟩
  | addNode v =>
    by_cases hv : s.Discovered v
    · refine ⟨s, stk, groups, if_neg hv, ⟨h.ordered, h.empty, ?_, ?_⟩⟩
      · intro w hw
        rcases List.mem_append.mp hw with hw | hw
        · exact h.added w hw
        · obtain rfl : w = v := by simpa using hw
          exact hv
      · intro x hx
        obtain ⟨r, hr, hreach⟩ := h.reached x hx
        exact ⟨r, by simp [hr], hreach⟩
    · have hbound : s.undiscovered.card ≤ fuel := (Finset.card_le_univ _).trans hfuel
      obtain ⟨s', stk', groups', hrun, hextend, -, hcompleted⟩ :=
        processNode_spec full fuel v s stk groups h.ordered hv hbound fun hfull => by
          simp [h.empty hfull]
      have hundefined : (s.nodes v).gcDiscoveryTime = .undefined := not_not.mp hv
      refine ⟨s', stk', groups', ?_, ⟨hextend.ordered, fun hfull => ?_, ?_, ?_⟩⟩
      · rw [ComponentFinder.call, addNode, if_pos hundefined, hrun]
      · have hfull₀ : s.stackFull = false := by
          by_contra hne
          have hkept := hextend.full (by simpa using hne)
          simp [hfull] at hkept
        obtain rfl := h.empty hfull₀
        rcases (hcompleted hfull).outcome with ⟨hstk, -⟩ | ⟨new, -, hopen⟩
        · exact hstk
        · obtain ⟨y, hy, -⟩ := hopen.low
          simp at hy
      · intro w hw
        rcases List.mem_append.mp hw with hw | hw
        · exact hextend.discovered (h.added w hw)
        · obtain rfl : w = v := by simpa using hw
          exact hextend.found
      · intro x hx
        by_cases hx₀ : s.Discovered x
        · obtain ⟨r, hr, hreach⟩ := h.reached x hx₀
          exact ⟨r, by simp [hr], hreach⟩
        · exact ⟨v, by simp, hextend.reached x hx₀ hx⟩

variable (full) in
/-- Calls keep the finder ready. -/
theorem Ready.foldlM [Fintype V] {fuel : ℕ} (hfuel : Fintype.card V ≤ fuel) :
    ∀ (todo calls : List (Call V)) (s : ComponentFinder V) (stk : List V)
      (groups : List (List V)), Ready edges calls s stk groups →
        ∃ s' stk' groups', todo.foldlM (ComponentFinder.call edges full fuel) s = some s' ∧
          Ready edges (calls ++ todo) s' stk' groups' := by
  intro todo
  induction todo with
  | nil =>
    intro calls s stk groups h
    exact ⟨s, stk, groups, rfl, by simpa using h⟩
  | cons c todo ih =>
    intro calls s stk groups h
    obtain ⟨s₁, stk₁, groups₁, hrun, h₁⟩ := h.call full hfuel c
    obtain ⟨s', stk', groups', hrest, h'⟩ := ih (calls ++ [c]) s₁ stk₁ groups₁ h₁
    exact ⟨s', stk', groups', by simp [List.foldlM_cons, hrun, hrest], by simpa using h'⟩

variable (groups) in
/-- Merging moves the whole stack in front of the output as one group. -/
theorem Lists.mergeStack : ∀ (stk g : List V) (s : ComponentFinder V) (fuel : ℕ),
    stk.length ≤ fuel → s.Lists stk (consGroup g groups) →
      ∃ s', mergeStack groups.flatten.head? fuel s = some s' ∧
        s'.Lists [] (consGroup (stk.reverse ++ g) groups) ∧ s'.clock = s.clock := by
  intro stk
  induction stk with
  | nil =>
    intro g s fuel _ h
    have hstack : s.stack = none := h.stack
    refine ⟨s, ?_, by simpa using h, rfl⟩
    cases fuel <;> simp [ComponentFinder.mergeStack, hstack]
  | cons v stk ih =>
    intro g s fuel hfuel h
    obtain ⟨fuel, rfl⟩ := Nat.exists_eq_add_of_lt (show 0 < fuel by simp at hfuel; omega)
    have hmove : ComponentFinder.Lists
        { s with
          nodes := Function.update s.nodes v
            { s.nodes v with
              gcNextGraphComponent := groups.flatten.head?
              gcNextGraphNode := s.firstComponent }
          stack := (s.nodes v).gcNextGraphNode
          firstComponent := some v } stk ((v :: g) :: groups) :=
      h.move rfl rfl rfl (by simp) (by simp) fun w hw => Function.update_of_ne hw _ _
    have hgroup : consGroup (v :: g) groups = (v :: g) :: groups := by simp [consGroup]
    obtain ⟨s', hrun, hlists, hclock⟩ := ih (v :: g) _ fuel (by simp at hfuel; omega) (hgroup ▸ hmove)
    refine ⟨s', ?_, by simpa using hlists, hclock⟩
    rw [Nat.zero_add, ComponentFinder.mergeStack, h.stack.1]
    exact hrun

/-- Resetting clears the search fields along a list and nothing else. -/
theorem resetNodes_spec : ∀ (l : List V) (start : Option V) (nodes : V → GraphNode V) (fuel : ℕ),
    l.length ≤ fuel → l.Nodup → Linked (fun v => (nodes v).gcNextGraphNode) start l →
      ∃ nodes', resetNodes fuel start nodes = some nodes' ∧
        ∀ v, nodes' v = if v ∈ l then (nodes v).reset else nodes v := by
  intro l
  induction l with
  | nil =>
    rintro start nodes fuel _ _ rfl
    exact ⟨nodes, by cases fuel <;> rfl, by simp⟩
  | cons v l ih =>
    rintro start nodes fuel hfuel hnodup ⟨rfl, hlinked⟩
    obtain ⟨fuel, rfl⟩ := Nat.exists_eq_add_of_lt (show 0 < fuel by simp at hfuel; omega)
    rw [List.nodup_cons] at hnodup
    obtain ⟨nodes', hrun, hnodes⟩ := ih (nodes v).gcNextGraphNode
      (Function.update nodes v (nodes v).reset) fuel (by simp at hfuel; omega) hnodup.2 <| hlinked.congr fun w hw => by
        have hne : w ≠ v := fun heq => hnodup.1 (heq ▸ hw)
        rw [Function.update_of_ne hne]
    refine ⟨nodes', by simpa [resetNodes] using hrun, fun w => ?_⟩
    rw [hnodes w]
    rcases eq_or_ne w v with rfl | hne
    · simp [hnodup.1]
    · simp [hne]

/-- Taking the results of a ready finder returns its output, with what is left on the stack as a
first group, and resets the nodes returned. -/
theorem Ready.getResultsList (h : Ready edges calls s stk groups) :
    ∃ result s', s.getResultsList = some (result, s') ∧
      Grouped s'.nodes result (consGroup stk.reverse groups) ∧
      ∀ v ∈ stk ++ groups.flatten, (s'.nodes v).gcDiscoveryTime = .undefined ∧
        (s'.nodes v).gcLowLink = undefinedLowLink := by
  have hlists := h.ordered.represents.lists
  obtain ⟨s₁, hmerge, hlists₁⟩ : ∃ s₁, s.mergeRemaining = some s₁ ∧
      s₁.Lists [] (consGroup stk.reverse groups) := by
    rw [mergeRemaining]
    cases hfull : s.stackFull with
    | false =>
      obtain rfl := h.empty hfull
      exact ⟨s, rfl, hlists⟩
    | true =>
      have hlength := hlists.length_lt
      rw [List.length_append] at hlength
      obtain ⟨s₁, hrun, hlists₁, -⟩ := Lists.mergeStack groups stk [] s s.clock (by omega)
        (by simpa [consGroup] using hlists)
      rw [← hlists.output.linked.head?_eq] at hrun
      refine ⟨{ s₁ with stackFull := false }, by simp [hrun], ?_⟩
      rw [List.append_nil] at hlists₁
      exact ⟨hlists₁.stack, hlists₁.output, hlists₁.nodup, hlists₁.length_lt⟩
  have hlength := hlists₁.length_lt
  have hnodup := hlists₁.nodup
  rw [List.nil_append] at hlength hnodup
  obtain ⟨nodes, hreset, hnodes⟩ := resetNodes_spec _ s₁.firstComponent s₁.nodes s₁.clock hlength.le
    hnodup hlists₁.output.linked
  have hreturned (v : V) (hv : v ∈ (consGroup stk.reverse groups).flatten) :
      nodes v = (s₁.nodes v).reset := by
    rw [hnodes v, if_pos hv]
  refine ⟨s₁.firstComponent, { s₁ with nodes := nodes, firstComponent := none }, ?_, ?_, ?_⟩
  · simp [ComponentFinder.getResultsList, hmerge, hreset]
  · refine hlists₁.output.congr (fun v hv => ?_) fun v hv => ?_
    · exact (congrArg GraphNode.gcNextGraphNode (hreturned v hv) :)
    · exact (congrArg GraphNode.gcNextGraphComponent (hreturned v hv) :)
  · intro v hv
    have hmem : v ∈ (consGroup stk.reverse groups).flatten := by simpa using hv
    exact ⟨congrArg GraphNode.gcDiscoveryTime (hreturned v hmem),
      congrArg GraphNode.gcLowLink (hreturned v hmem)⟩

end Results

/-- The list a finder returns: it holds each found node once, in groups that keep together what
reaches each other among the found nodes, with edges only to the same or later groups, and all
search fields cleared. -/
structure IsResultsList [DecidableEq V] (edges : V → List V) (found : Set V)
    (nodes : V → GraphNode V) (result : Option V) (groups : List (List V)) : Prop where
  linked : Linked (fun v => (nodes v).gcNextGraphNode) result groups.flatten
  nodup : groups.flatten.Nodup
  mem : ∀ v, v ∈ groups.flatten ↔ v ∈ found
  nonempty : ∀ g ∈ groups, g ≠ []
  group : ∀ pre g post, groups = pre ++ g :: post → Linked (nextNodeInGroup nodes) g.head? g ∧
    ∀ v ∈ g, nextGroup nodes v = post.flatten.head?
  forward : ForwardGroups (InducedEdge (Edge edges) found) groups
  union : ∀ g ∈ groups, ∀ v ∈ g, ∀ w, ReflTransGen (InducedEdge (Edge edges) found) v w →
    ReflTransGen (InducedEdge (Edge edges) found) w v → w ∈ g
  reset : ∀ v ∈ groups.flatten, (nodes v).gcDiscoveryTime = .undefined ∧
    (nodes v).gcLowLink = undefinedLowLink

/-- For every graph, sequence of calls and behaviour of the native stack, the results are in
order. If the stack never overflowed they are the strongly connected components of what the added
nodes reach. -/
theorem getResultsList_correct [Fintype V] [DecidableEq V] (edges : V → List V) (full : ℕ → Bool)
    (nodes : V → GraphNode V) (hnodes : ∀ v, (nodes v).gcDiscoveryTime = .undefined)
    (calls : List (Call V)) (fuel : ℕ) (hfuel : Fintype.card V ≤ fuel) :
    ∃ s result s' groups, calls.foldlM (call edges full fuel) (init nodes) = some s ∧
      s.getResultsList = some (result, s') ∧
      IsResultsList edges {v | s.Discovered v} s'.nodes result groups ∧
      (∀ v, .addNode v ∈ calls → s.Discovered v) ∧
      (∀ v, s.Discovered v → ∃ r, .addNode r ∈ calls ∧ Reach edges r v) ∧
      (s.stackFull = false →
        (∀ v, s.Discovered v ↔ ∃ r, .addNode r ∈ calls ∧ Reach edges r v) ∧
        ∀ g ∈ groups, ∀ v ∈ g, ∀ w, w ∈ g ↔ Reach edges v w ∧ Reach edges w v) ∧
      ((∀ t, full t = false) → .useOneComponent ∉ calls → s.stackFull = false) := by
  obtain ⟨s, stk, groups, hrun, hready⟩ :=
    Ready.foldlM full hfuel calls [] _ [] [] (ready_init edges hnodes)
  rw [List.nil_append] at hready
  obtain ⟨result, s', hresults, hgrouped, hreset⟩ := hready.getResultsList
  have hfound (v : V) : s.Discovered v ↔ v ∈ stk ++ groups.flatten :=
    hready.ordered.represents.discovered_iff
  have hmem (v : V) : v ∈ (consGroup stk.reverse groups).flatten ↔ s.Discovered v := by
    simp [hfound v]
  have hnodup : (consGroup stk.reverse groups).flatten.Nodup := by
    have hlists := hready.ordered.represents.lists.nodup
    rw [flatten_consGroup]
    exact ((List.reverse_perm stk).append_right _).nodup_iff.mpr hlists
  have hforward : ForwardGroups (InducedEdge (Edge edges) {v | s.Discovered v})
      (consGroup stk.reverse groups) := by
    have hrest : ForwardGroups (InducedEdge (Edge edges) {v | s.Discovered v}) groups :=
      hready.ordered.forward.mono fun v w hedge => hedge.1
    rw [consGroup]
    split
    · exact hrest
    · refine ⟨fun v _ w hedge => ?_, hrest⟩
      have hw := (hfound w).mp hedge.2.2
      simpa using hw
  refine ⟨s, result, s', consGroup stk.reverse groups, hrun, hresults, ⟨hgrouped.linked, hnodup, hmem,
    hgrouped.nonempty, fun pre g post hgroups => ⟨hgrouped.nextNodeInGroup_linked hnodup hgroups,
      hgrouped.component pre g post hgroups⟩, hforward,
      fun g hg v hv w => hforward.mem_of_mutual hnodup hg hv, ?_⟩, hready.added, hready.reached,
    fun hfull => ?_, fun hfull hcalls => ?_⟩
  · intro v hv
    refine hreset v ?_
    simpa using hv
  · obtain rfl := hready.empty hfull
    have hsame : consGroup [].reverse groups = groups := by simp [consGroup]
    rw [hsame] at hmem hnodup ⊢
    refine ⟨fun v => ⟨hready.reached v, ?_⟩, fun g hg v hv w => ?_⟩
    · rintro ⟨r, hr, hreach⟩
      rw [← hmem]
      exact hready.ordered.forward.reach ((hmem r).mpr (hready.added r hr)) hreach
    · exact hready.ordered.forward.mem_iff_mutual hnodup hready.ordered.connected hg hv
  · refine foldlM_preserves (P := fun s => s.stackFull = false) (fun s c hc s' hs h => ?_) rfl hrun
    cases c with
    | useOneComponent => exact absurd hc hcalls
    | addNode v =>
      rw [ComponentFinder.call, addNode] at h
      split at h
      · exact processNode_stackFull hfull fuel v s s' hs h
      · exact Option.some.inj h ▸ hs

/-- A node that leads into a cycle of two others, from which a last one is reached. -/
def cycle : Fin 4 → List (Fin 4)
  | 0 => [1]
  | 1 => [2]
  | 2 => [1, 3]
  | 3 => []

/-- Nodes that no search has touched. -/
def freshNodes : Fin 4 → GraphNode (Fin 4) := fun _ => ⟨none, none, .undefined, undefinedLowLink⟩

/-- Adding the first node of the example finds exactly the components it reaches. -/
theorem getResultsList_correct_cycle :
    ∃ s result s' groups, [Call.addNode 0].foldlM (call cycle (fun _ => false) 4) (init freshNodes) =
        some s ∧ s.getResultsList = some (result, s') ∧
      IsResultsList cycle {v | s.Discovered v} s'.nodes result groups ∧
      (∀ v, s.Discovered v ↔ Reach cycle 0 v) ∧
      ∀ g ∈ groups, ∀ v ∈ g, ∀ w, w ∈ g ↔ Reach cycle v w ∧ Reach cycle w v := by
  obtain ⟨s, result, s', groups, hrun, hresults, hlist, -, -, hcomponents, hflag⟩ :=
    getResultsList_correct cycle (fun _ => false) freshNodes (fun _ => rfl) [.addNode 0] 4 (by simp)
  obtain ⟨hfound, hgroups⟩ := hcomponents (hflag (fun _ => rfl) (by simp))
  exact ⟨s, result, s', groups, hrun, hresults, hlist, by simpa using hfound, hgroups⟩

/-- With the native stack full at the third node, all nodes form one group. -/
example : ((([.addNode 0].foldlM (call cycle (fun t => t == 3) 4) (init freshNodes)).bind
    getResultsList).map fun r => (r.1, (nextGroup r.2.nodes 0), nextNodeInGroup r.2.nodes 1)) =
      some (some 0, none, some 2) := by
  decide

end ComponentFinder

end SpiderMonkey.Gc
