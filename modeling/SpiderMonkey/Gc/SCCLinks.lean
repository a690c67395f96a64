import SpiderMonkey.Gc.FindSCCs
import Mathlib.Data.List.Nodup

/-!
# The lists a component search keeps in its links

The links of a search state stand for a stack and an output list of groups. Each operation on the
links is described by what it does to these.
-/

namespace SpiderMonkey.Gc

variable {V : Type*}

/-- The output list of a search: its nodes are linked in order, and each points to the first node
of the group after its own. -/
structure Grouped (nodes : V → GraphNode V) (first : Option V) (groups : List (List V)) :
    Prop where
  nonempty : ∀ g ∈ groups, g ≠ []
  linked : Linked (fun v => (nodes v).gcNextGraphNode) first groups.flatten
  component : ∀ pre g post, groups = pre ++ g :: post →
    ∀ v ∈ g, nextGroup nodes v = post.flatten.head?

/-- Add a group unless it is empty. -/
def consGroup (g : List V) (groups : List (List V)) : List (List V) :=
  if g = [] then groups else g :: groups

/-- The nodes of the groups with one group added. -/
@[simp] theorem flatten_consGroup (g : List V) (groups : List (List V)) :
    (consGroup g groups).flatten = g ++ groups.flatten := by
  by_cases hg : g = [] <;> simp [consGroup, hg]

namespace Grouped

variable {nodes nodes' : V → GraphNode V} {first : Option V} {groups : List (List V)} {v : V}
  {g : List V}

/-- Only the links of the output's nodes matter. -/
theorem congr (h : Grouped nodes first groups)
    (hnext : ∀ v ∈ groups.flatten, (nodes' v).gcNextGraphNode = (nodes v).gcNextGraphNode)
    (hgroup : ∀ v ∈ groups.flatten, nextGroup nodes' v = nextGroup nodes v) :
    Grouped nodes' first groups := by
  refine ⟨h.nonempty, h.linked.congr hnext, fun pre g post hgroups v hv => ?_⟩
  have hmem : v ∈ groups.flatten := by simp [hgroups, hv]
  rw [hgroup v hmem]
  exact h.component pre g post hgroups v hv

/-- A new node in front of the first group, which may be a new group. -/
theorem cons (h : Grouped nodes first (consGroup g groups)) (hv : v ∉ g ++ groups.flatten)
    (hnext : (nodes' v).gcNextGraphNode = first)
    (hgroup : nextGroup nodes' v = groups.flatten.head?)
    (hkept : ∀ w, w ≠ v → nodes' w = nodes w) :
    Grouped nodes' (some v) ((v :: g) :: groups) := by
  have hne (w : V) (hw : w ∈ g ++ groups.flatten) : w ≠ v := fun heq => hv (heq ▸ hw)
  have hcomponent (w : V) (hw : w ∈ g ++ groups.flatten) : nextGroup nodes' w = nextGroup nodes w := by
    rw [nextGroup, nextGroup, hkept w (hne w hw)]
  refine ⟨?_, ⟨rfl, ?_⟩, ?_⟩
  · intro g' hg'
    rcases List.mem_cons.mp hg' with rfl | hg'
    · simp
    · refine h.nonempty g' ?_
      by_cases hg : g = [] <;> simp [consGroup, hg, hg']
  · have hlinked := h.linked
    rw [flatten_consGroup] at hlinked
    simp only [hnext]
    exact hlinked.congr fun w hw => by rw [hkept w (hne w hw)]
  · intro pre g' post hgroups w hw
    cases pre with
    | nil =>
      obtain ⟨rfl, rfl⟩ := List.cons.inj hgroups
      rcases List.mem_cons.mp hw with rfl | hw
      · exact hgroup
      · rw [hcomponent w (List.mem_append_left _ hw)]
        refine h.component [] g groups ?_ w hw
        simp [consGroup, List.ne_nil_of_mem hw]
    | cons g₀ pre =>
      obtain ⟨-, rfl⟩ := List.cons.inj hgroups
      have hmem : w ∈ g ++ (pre ++ g' :: post).flatten := by simp [hw]
      rw [hcomponent w hmem]
      by_cases hg : g = []
      · exact h.component pre g' post (by simp [consGroup, hg]) w hw
      · exact h.component (g :: pre) g' post (by simp [consGroup, hg]) w hw

/-- The first node of a group after another is not the first node of the group after that. -/
theorem nextNodeInGroup_linked [DecidableEq V] (h : Grouped nodes first groups)
    (hnodup : groups.flatten.Nodup) {pre post : List (List V)}
    (hgroups : groups = pre ++ g :: post) : Linked (nextNodeInGroup nodes) g.head? g := by
  have hlinked : ∀ (before l after : List V), Linked (fun v => (nodes v).gcNextGraphNode)
      (before ++ (l ++ after)).head? (before ++ (l ++ after)) →
        Linked (fun v => (nodes v).gcNextGraphNode) (l ++ after).head? (l ++ after) := by
    intro before
    induction before with
    | nil => exact fun _ _ h => h
    | cons v before ih => exact fun l after h => ih l after (h.2.head?_eq ▸ h.2)
  have hgroup := h.component pre g post hgroups
  have hall : Linked (fun v => (nodes v).gcNextGraphNode) (g ++ post.flatten).head?
      (g ++ post.flatten) := by
    refine hlinked pre.flatten g post.flatten ?_
    have hl := h.linked
    rw [hl.head?_eq, hgroups] at hl
    simpa using hl
  -- the node after the last one of the group starts the next group
  have hlast (w : V) (hw : post.flatten.head? = some w) :
      nextGroup nodes w ≠ post.flatten.head? := by
    cases post with
    | nil => simp at hw
    | cons g' post =>
      have hg' : g' ≠ [] := h.nonempty g' (by simp [hgroups])
      obtain ⟨v, g'', rfl⟩ := List.exists_cons_of_ne_nil hg'
      obtain rfl : v = w := by simpa using hw
      rw [h.component (pre ++ [g]) (v :: g'') post (by simp [hgroups]) v (by simp)]
      intro heq
      have hmem : v ∈ post.flatten := List.mem_of_mem_head? (heq.trans (by simp))
      rw [hgroups] at hnodup
      simp [List.nodup_append, hmem] at hnodup
  clear hgroups
  induction g with
  | nil => rfl
  | cons v g ih =>
    refine ⟨rfl, ?_⟩
    have hnext := hall.2
    have hrest := ih (fun w hw => hgroup w (List.mem_cons_of_mem _ hw))
      (hnext.head?_eq ▸ hnext)
    have heq : (nodes v).gcNextGraphNode = (g ++ post.flatten).head? := hnext.head?_eq
    have hv := hgroup v (by simp)
    simp only [nextGroup] at hv
    cases g with
    | nil =>
      simp only [List.nil_append] at heq
      rw [nextNodeInGroup, heq]
      cases hw : post.flatten.head? with
      | none => rfl
      | some w =>
        have hne := hlast w hw
        simp only [nextGroup] at hne
        simp [hv, hne, LinkedTo]
    | cons w g =>
      have hw := hgroup w (by simp)
      simp only [nextGroup] at hw
      simp only [List.cons_append, List.head?_cons] at heq
      simpa [nextNodeInGroup, heq, hv, hw] using hrest

end Grouped

namespace ComponentFinder

/-- The time stamp of a node. -/
def timeOf (s : ComponentFinder V) (v : V) : ℕ :=
  match (s.nodes v).gcDiscoveryTime with
  | .time t => t
  | _ => 0

/-- Whether a node was found. -/
def Discovered (s : ComponentFinder V) (v : V) : Prop := (s.nodes v).gcDiscoveryTime ≠ .undefined

/-- The stack and the output that the links of a state stand for. -/
structure Lists (s : ComponentFinder V) (stk : List V) (groups : List (List V)) : Prop where
  stack : Linked (fun v => (s.nodes v).gcNextGraphNode) s.stack stk
  output : Grouped s.nodes s.firstComponent groups
  nodup : (stk ++ groups.flatten).Nodup
  length_lt : (stk ++ groups.flatten).length < s.clock

/-- The lists of a state together with its time stamps. -/
structure Represents (s : ComponentFinder V) (stk : List V) (groups : List (List V)) : Prop where
  lists : s.Lists stk groups
  mem_stack : ∀ v, v ∈ stk ↔ ∃ t, (s.nodes v).gcDiscoveryTime = .time t
  mem_output : ∀ v, v ∈ groups.flatten ↔ (s.nodes v).gcDiscoveryTime = .finished
  sorted : stk.Pairwise fun v w => s.timeOf w < s.timeOf v
  time_lt : ∀ v ∈ stk, s.timeOf v < s.clock

variable {s s' : ComponentFinder V} {stk : List V} {groups : List (List V)} {v w : V} {g : List V}

/-- Moving the top of the stack in front of the output, as part of its first group. -/
theorem Lists.move (h : s.Lists (w :: stk) (consGroup g groups))
    (hstack : s'.stack = (s.nodes w).gcNextGraphNode) (hfirst : s'.firstComponent = some w)
    (hclock : s'.clock = s.clock) (hnext : (s'.nodes w).gcNextGraphNode = s.firstComponent)
    (hgroup : (s'.nodes w).gcNextGraphComponent = groups.flatten.head?)
    (hkept : ∀ v, v ≠ w → s'.nodes v = s.nodes v) : s'.Lists stk ((w :: g) :: groups) := by
  have hnodup := h.nodup
  have hlength := h.length_lt
  simp only [flatten_consGroup, List.cons_append, List.nodup_cons, List.mem_append,
    List.length_cons, List.length_append] at hnodup hlength
  refine ⟨?_, ?_, ?_, ?_⟩
  · rw [hstack]
    refine h.stack.2.congr fun v hv => ?_
    have hne : v ≠ w := fun heq => hnodup.1 (Or.inl (heq ▸ hv))
    rw [hkept v hne]
  · rw [hfirst]
    refine h.output.cons ?_ hnext hgroup hkept
    rw [List.mem_append]
    exact fun hw => hnodup.1 (Or.inr hw)
  · rw [List.flatten_cons, List.cons_append, List.nodup_middle]
    simpa only [List.nodup_cons, List.mem_append] using hnodup
  · simp only [List.flatten_cons, List.length_append, List.length_cons, hclock]
    omega

/-- A found node is on the stack or in the output. -/
theorem Represents.discovered_iff (h : Represents s stk groups) :
    s.Discovered v ↔ v ∈ stk ++ groups.flatten := by
  rw [List.mem_append, h.mem_stack, h.mem_output, Discovered]
  cases (s.nodes v).gcDiscoveryTime <;> simp

/-- What a state stands for does not depend on low links, the current node and the flag. -/
theorem Represents.congr (h : Represents s stk groups) (hstack : s'.stack = s.stack)
    (hfirst : s'.firstComponent = s.firstComponent) (hclock : s'.clock = s.clock)
    (hnodes : ∀ v, ∃ low, s'.nodes v = { s.nodes v with gcLowLink := low }) :
    Represents s' stk groups := by
  have hnext (v : V) : (s'.nodes v).gcNextGraphNode = (s.nodes v).gcNextGraphNode := by
    obtain ⟨low, hlow⟩ := hnodes v
    rw [hlow]
  have hcomponent (v : V) :
      (s'.nodes v).gcNextGraphComponent = (s.nodes v).gcNextGraphComponent := by
    obtain ⟨low, hlow⟩ := hnodes v
    rw [hlow]
  have hdisc (v : V) : (s'.nodes v).gcDiscoveryTime = (s.nodes v).gcDiscoveryTime := by
    obtain ⟨low, hlow⟩ := hnodes v
    rw [hlow]
  have htime (v : V) : s'.timeOf v = s.timeOf v := by
    rw [timeOf, timeOf, hdisc]
  refine ⟨⟨?_, ?_, h.lists.nodup, ?_⟩, ?_, ?_, ?_, ?_⟩
  · rw [hstack]
    exact h.lists.stack.congr fun v _ => hnext v
  · rw [hfirst]
    exact h.lists.output.congr (fun v _ => hnext v) fun v _ => hcomponent v
  · rw [hclock]
    exact h.lists.length_lt
  · simpa only [hdisc] using h.mem_stack
  · simpa only [hdisc] using h.mem_output
  · simpa only [htime] using h.sorted
  · simpa only [htime, hclock] using h.time_lt

variable [DecidableEq V]

/-- Discovering a node pushes it on the stack. -/
theorem Represents.discover (h : Represents s stk groups) (hv : ¬ s.Discovered v) :
    Represents (s.discover v) (v :: stk) groups := by
  have hnot : v ∉ stk ++ groups.flatten := fun hmem => hv (h.discovered_iff.mpr hmem)
  have hkept (w : V) (hw : w ≠ v) : (s.discover v).nodes w = s.nodes w :=
    Function.update_of_ne hw _ _
  have hne (w : V) (hw : w ∈ stk ++ groups.flatten) : w ≠ v := fun heq => hnot (heq ▸ hw)
  have hnext : ((s.discover v).nodes v).gcNextGraphNode = s.stack := by
    simp [ComponentFinder.discover]
  have hclock : (s.discover v).clock = s.clock + 1 := rfl
  have hself : (s.discover v).timeOf v = s.clock := by simp [timeOf, ComponentFinder.discover]
  have htime (w : V) (hw : w ∈ stk) : (s.discover v).timeOf w = s.timeOf w := by
    rw [timeOf, timeOf, hkept w (hne w (List.mem_append_left _ hw))]
  have hlength := h.lists.length_lt
  rw [List.mem_append, not_or] at hnot
  refine ⟨⟨⟨rfl, ?_⟩, ?_, ?_, ?_⟩, ?_, ?_, ?_, ?_⟩
  · simp only [hnext]
    exact h.lists.stack.congr fun w hw => by rw [hkept w (hne w (List.mem_append_left _ hw))]
  · refine h.lists.output.congr (fun w hw => ?_) fun w hw => ?_
    · rw [hkept w (hne w (List.mem_append_right _ hw))]
    · rw [nextGroup, nextGroup, hkept w (hne w (List.mem_append_right _ hw))]
  · rw [List.cons_append, List.nodup_cons, List.mem_append, not_or]
    exact ⟨hnot, h.lists.nodup⟩
  · simp only [List.cons_append, List.length_cons]
    omega
  · intro w
    rcases eq_or_ne w v with rfl | hw
    · simp [ComponentFinder.discover]
    · rw [hkept w hw, List.mem_cons, or_iff_right hw]
      exact h.mem_stack w
  · intro w
    rcases eq_or_ne w v with rfl | hw
    · simpa [ComponentFinder.discover] using hnot.2
    · rw [hkept w hw]
      exact h.mem_output w
  · refine List.pairwise_cons.mpr ⟨fun w hw => ?_, h.sorted.imp_of_mem fun hx hy hlt => ?_⟩
    · rw [hself, htime w hw]
      exact h.time_lt w hw
    · rw [htime _ hx, htime _ hy]
      exact hlt
  · intro w hw
    rcases List.mem_cons.mp hw with rfl | hw
    · omega
    · have hlt := h.time_lt w hw
      rw [htime w hw]
      omega

/-- Emitting the top of the stack into the first group of the output. -/
theorem Represents.emit (h : Represents s (w :: stk) (consGroup g groups)) :
    Represents (s.emit w groups.flatten.head?) stk ((w :: g) :: groups) := by
  have hself : (s.emit w groups.flatten.head?).nodes w =
      { s.nodes w with
        gcDiscoveryTime := .finished
        gcNextGraphComponent := groups.flatten.head?
        gcNextGraphNode := s.firstComponent } := Function.update_self _ _ _
  have hkept (v : V) (hv : v ≠ w) : (s.emit w groups.flatten.head?).nodes v = s.nodes v :=
    Function.update_of_ne hv _ _
  have hnodup := h.lists.nodup
  rw [List.cons_append, List.nodup_cons, List.mem_append, not_or] at hnodup
  have hne (v : V) (hv : v ∈ stk) : v ≠ w := fun heq => hnodup.1.1 (heq ▸ hv)
  have htime (v : V) (hv : v ∈ stk) : (s.emit w groups.flatten.head?).timeOf v = s.timeOf v := by
    rw [timeOf, timeOf, hkept v (hne v hv)]
  refine ⟨h.lists.move rfl rfl rfl (by rw [hself]) (by rw [hself]) hkept, ?_, ?_, ?_, ?_⟩
  · intro v
    rcases eq_or_ne v w with rfl | hv
    · simp [hself, hnodup.1.1]
    · rw [hkept v hv, ← h.mem_stack v, List.mem_cons, or_iff_right hv]
  · intro v
    rcases eq_or_ne v w with rfl | hv
    · simp [hself]
    · rw [hkept v hv, ← h.mem_output v, flatten_consGroup, List.flatten_cons, List.cons_append,
        List.mem_cons, or_iff_right hv]
  · refine h.sorted.of_cons.imp_of_mem fun hx hy hlt => ?_
    rw [htime _ hx, htime _ hy]
    exact hlt
  · intro v hv
    rw [htime v hv]
    exact h.time_lt v (List.mem_cons_of_mem _ hv)

end ComponentFinder

end SpiderMonkey.Gc
