import SpiderMonkey.Builtin.OrderedHashTable
import Mathlib.Data.List.InsertIdx
import Mathlib.Data.List.Nodup
import Mathlib.Data.Nat.Basic
import Mathlib.Order.Basic

/-!
# The ordered map that a table stands for

Entries in insertion order, each with the time it was inserted, and cursors that count the entries
they have passed. This is what the table is for, stated without its vector. A cursor never skips an
entry that stays and never returns one twice, which is seen from the insertion times: they increase
along the map, and what a cursor has passed lies before what is ahead of it.
-/

namespace SpiderMonkey.Builtin

/-- An insertion-ordered map with cursors. -/
structure OrderedMap (K V : Type) where
  initialized : Bool
  entries : List (ℕ × K × V)
  clock : ℕ
  cursors : List (ℕ × ℕ)

namespace OrderedMap

variable {K V : Type}

/-- The map before initialization. -/
def start : OrderedMap K V := ⟨false, [], 0, []⟩

/-- The keys of the map. -/
def keys (m : OrderedMap K V) : List K := m.entries.map fun e => e.2.1

/-- The insertion times of the entries. -/
def stamps (m : OrderedMap K V) : List ℕ := m.entries.map Prod.fst

/-- The position of a cursor. -/
def cursorOf (m : OrderedMap K V) (id : ℕ) : Option ℕ :=
  (m.cursors.find? fun c => c.1 = id).map Prod.snd

/-- Replace the entry at a position, which keeps its insertion time. -/
def replace (m : OrderedMap K V) (j : ℕ) (e : K × V) : OrderedMap K V :=
  { m with entries := m.entries.modify j fun old => (old.1, e) }

/-- Remove the entry at a position. Cursors that have passed it have passed one entry less. -/
def erase (m : OrderedMap K V) (j : ℕ) : OrderedMap K V :=
  { m with
    entries := m.entries.eraseIdx j
    cursors := m.cursors.map fun c => (c.1, if j < c.2 then c.2 - 1 else c.2) }

/-- What callers may ask for. -/
def Allowed (m : OrderedMap K V) : Op K V → Prop
  | .init => m.initialized = false
  | .all id => m.initialized = true ∧ m.cursorOf id = none
  | .copy source id => m.initialized = true ∧ m.cursorOf source ≠ none ∧ m.cursorOf id = none
  | .destroy id => m.initialized = true ∧ m.cursorOf id ≠ none
  | .empty id => m.initialized = true ∧ m.cursorOf id ≠ none
  | .popFront id => m.initialized = true ∧ ∃ p, m.cursorOf id = some p ∧ p < m.entries.length
  | .rekeyFront id k => m.initialized = true ∧ ∃ p e, m.cursorOf id = some p ∧
      m.entries[p]? = some e ∧ (k = e.2.1 ∨ k ∉ m.keys)
  | .rekeyOneEntry current newKey element => m.initialized = true ∧ element.1 = newKey ∧
      (current = newKey ∨ newKey ∉ m.keys)
  | _ => m.initialized = true

/-- Insertion times increase along the map, keys are distinct, and cursors are within it. -/
structure Valid (m : OrderedMap K V) : Prop where
  sorted : m.stamps.Pairwise (· < ·)
  stamp_lt : ∀ s ∈ m.stamps, s < m.clock
  keys_nodup : m.keys.Nodup
  cursor_le : ∀ c ∈ m.cursors, c.2 ≤ m.entries.length

/-- A projection of a list after changing one entry. -/
theorem map_modify {A B : Type} {g : A → B} {f : A → A} {h : B → B} (hf : ∀ a, g (f a) = h (g a))
    (l : List A) (j : ℕ) : (l.modify j f).map g = (l.map g).modify j h := by
  apply List.ext_getElem?
  intro i
  rw [List.getElem?_map, List.getElem?_modify, List.getElem?_modify, List.getElem?_map]
  by_cases hij : j = i <;> cases l[i]? <;> simp [hij, hf]

/-- Changing an entry to a fixed one. -/
theorem modify_const {A : Type} (l : List A) (j : ℕ) (a : A) :
    (l.modify j fun _ => a) = l.set j a := by
  apply List.ext_getElem?
  intro i
  rw [List.getElem?_modify, List.getElem?_set]
  by_cases hij : j = i
  · subst hij
    by_cases hlt : j < l.length <;> simp [hlt]
  · simp [hij]

/-- The start of a map is valid. -/
theorem valid_start : (start : OrderedMap K V).Valid := by
  constructor <;> simp [start, stamps, keys]

/-- A cursor's position is one of the cursors. -/
theorem mem_of_cursorOf {m : OrderedMap K V} {id p : ℕ} (h : m.cursorOf id = some p) : (id, p) ∈ m.cursors := by
  rw [cursorOf, Option.map_eq_some_iff] at h
  obtain ⟨c, hc, rfl⟩ := h
  have hid : c.1 = id := by simpa using List.find?_some hc
  exact hid ▸ List.mem_of_find?_eq_some hc

/-- The stamps of a map with one entry changed but for its insertion time. -/
@[simp] theorem stamps_modify (entries : List (ℕ × K × V)) (j : ℕ) (f : ℕ × K × V → ℕ × K × V)
    (hf : ∀ e, (f e).1 = e.1) : (entries.modify j f).map Prod.fst = entries.map Prod.fst := by
  rw [map_modify (h := fun s => s) hf]
  exact List.modify_id _ _

/-- A cursor after all cursors are changed alike. -/
theorem cursorOf_map {m : OrderedMap K V} {id p : ℕ} (h : m.cursorOf id = some p) (f : ℕ → ℕ)
    (entries : List (ℕ × K × V)) :
    OrderedMap.cursorOf { m with
      entries := entries
      cursors := m.cursors.map fun c : ℕ × ℕ => (c.1, f c.2) } id = some (f p) := by
  rw [cursorOf, Option.map_eq_some_iff] at h ⊢
  obtain ⟨c, hc, rfl⟩ := h
  refine ⟨(c.1, f c.2), ?_, rfl⟩
  rw [List.find?_map]
  simp only [Function.comp_def, hc, Option.map_some]

/-- A cursor after one cursor is moved. -/
theorem cursorOf_set (m : OrderedMap K V) (id id' q : ℕ) :
    OrderedMap.cursorOf { m with
      cursors := m.cursors.map fun c : ℕ × ℕ => if c.1 = id' then (id', q) else c } id =
        if id' = id then (m.cursorOf id).map fun _ => q else m.cursorOf id := by
  have hname (c : ℕ × ℕ) : (if c.1 = id' then (id', q) else c).1 = c.1 := by
    split <;> simp_all
  simp only [cursorOf, List.find?_map, Function.comp_def, hname]
  cases hc : m.cursors.find? fun c => decide (c.1 = id) with
  | none => simp
  | some c =>
    have hid : c.1 = id := by simpa using List.find?_some hc
    by_cases hne : id' = id
    · simp [hid, hne]
    · simp [hid, hne, Ne.symm hne]

/-- Changing the key of one entry to the same or a new one keeps a map valid. -/
theorem Valid.modify {m : OrderedMap K V} (h : m.Valid) {j : ℕ} {old : ℕ × K × V} (hold : m.entries[j]? = some old)
    {k : K} (hk : k = old.2.1 ∨ k ∉ m.keys) {f : ℕ × K × V → ℕ × K × V} (hstamp : ∀ e, (f e).1 = e.1)
    (hkey : ∀ e, (f e).2.1 = k) : ({ m with entries := m.entries.modify j f }).Valid := by
  have hstamps : OrderedMap.stamps { m with entries := m.entries.modify j f } = m.stamps :=
    stamps_modify _ _ _ hstamp
  have hkeys : OrderedMap.keys { m with entries := m.entries.modify j f } = m.keys.set j k := by
    rw [← modify_const]
    exact map_modify (g := fun e : ℕ × K × V => e.2.1) (h := fun _ => k) hkey m.entries j
  refine ⟨hstamps ▸ h.sorted, hstamps ▸ h.stamp_lt, ?_, by simpa using h.cursor_le⟩
  rw [hkeys]
  rcases hk with rfl | hk
  · have hsame : m.keys[j]? = some old.2.1 := by simp [keys, hold]
    rw [List.getElem?_eq_some_iff] at hsame
    obtain ⟨hlt, hsame⟩ := hsame
    rw [← hsame, List.set_getElem_self]
    exact h.keys_nodup
  · exact h.keys_nodup.set hk

/-- What a cursor returned between two states, in terms of insertion times: it returned what was
ahead of it or added later, in increasing order; what it has passed and is still there it returned
or had passed before; and all it returned lies before what is ahead. -/
structure Yielded (m : OrderedMap K V) (p : ℕ) (m' : OrderedMap K V) (p' : ℕ)
    (ys : List (ℕ × K × V)) : Prop where
  increasing : (ys.map Prod.fst).Pairwise (· < ·)
  ahead_before : ∀ y ∈ ys, y.1 ∈ m.stamps.drop p ∨ m.clock ≤ y.1
  passed : ∀ s ∈ m'.stamps.take p', s ∈ ys.map Prod.fst ∨ s ∈ m.stamps.take p
  ahead : ∀ s ∈ m'.stamps.drop p', (∀ y ∈ ys, y.1 < s) ∧ (s ∈ m.stamps.drop p ∨ m.clock ≤ s)
  yield_lt : ∀ y ∈ ys, y.1 < m'.clock
  clock_le : m.clock ≤ m'.clock

/-- Removing an entry keeps what a cursor has passed and what is ahead of it apart. -/
theorem mem_eraseIdx_split {l : List ℕ} {j p s : ℕ} :
    (s ∈ (l.eraseIdx j).take (if j < p then p - 1 else p) → s ∈ l.take p) ∧
      (s ∈ (l.eraseIdx j).drop (if j < p then p - 1 else p) → s ∈ l.drop p) := by
  simp only [List.mem_iff_getElem?, List.getElem?_take, List.getElem?_drop, List.getElem?_eraseIdx]
  constructor
  · rintro ⟨i, hi⟩
    by_cases hij : i < j
    · exact ⟨i, by grind⟩
    · exact ⟨i + 1, by grind⟩
  · rintro ⟨i, hi⟩
    by_cases hjp : j < p
    · exact ⟨i, by grind⟩
    · by_cases hij : p + i < j
      · exact ⟨i, by grind⟩
      · exact ⟨i + 1, by grind⟩

/-- What a call does to a cursor: nothing, or an entry is added at the end, an entry is removed, the
map is cleared, or the cursor returns the entry it stands at. -/
inductive CursorStep (m m' : OrderedMap K V) (p p' : ℕ) (ys : List (ℕ × K × V)) : Prop
  | same : m'.stamps = m.stamps → m'.clock = m.clock → p' = p → ys = [] → CursorStep m m' p p' ys
  | added : m'.stamps = m.stamps ++ [m.clock] → m'.clock = m.clock + 1 → p' = p → ys = [] →
      CursorStep m m' p p' ys
  | erased (j : ℕ) : m'.stamps = m.stamps.eraseIdx j → m'.clock = m.clock →
      p' = (if j < p then p - 1 else p) → ys = [] → CursorStep m m' p p' ys
  | cleared : m'.stamps = [] → m'.clock = m.clock → p' = 0 → ys = [] → CursorStep m m' p p' ys
  | popped (e : ℕ × K × V) : m'.stamps = m.stamps → m'.clock = m.clock → m.entries[p]? = some e →
      p' = p + 1 → ys = [e] → CursorStep m m' p p' ys

/-- Nothing is returned without a call. -/
theorem Yielded.refl (m : OrderedMap K V) (p : ℕ) : Yielded m p m p [] :=
  ⟨List.Pairwise.nil, by simp, fun _ hs => Or.inr hs, fun _ hs => ⟨by simp, Or.inl hs⟩, by simp, le_rfl⟩

/-- A call extends what a cursor returned. -/
theorem Yielded.step {m m' m'' : OrderedMap K V} {id p p' p'' : ℕ} {ys ys' : List (ℕ × K × V)}
    (h : Yielded m p m' p' ys) (hvalid : m'.Valid) (hcursor : m'.cursorOf id = some p')
    (hstep : CursorStep m' m'' p' p'' ys') : Yielded m p m'' p'' (ys ++ ys') := by
  have hle : p' ≤ m'.stamps.length := by
    have hle := hvalid.cursor_le _ (mem_of_cursorOf hcursor)
    simpa [stamps] using hle
  cases hstep with
  | same hstamps hclock hp hys =>
    subst hp hys
    rw [List.append_nil]
    exact ⟨h.increasing, h.ahead_before, hstamps ▸ h.passed, hstamps ▸ h.ahead, hclock ▸ h.yield_lt,
      hclock ▸ h.clock_le⟩
  | added hstamps hclock hp hys =>
    subst hp hys
    rw [List.append_nil]
    refine ⟨h.increasing, h.ahead_before, fun s hs => h.passed s ?_, fun s hs => ?_, fun y hy => ?_, ?_⟩
    · rwa [hstamps, List.take_append_of_le_length hle] at hs
    · rw [hstamps, List.drop_append_of_le_length hle, List.mem_append, List.mem_singleton] at hs
      rcases hs with hs | rfl
      · exact h.ahead s hs
      · exact ⟨h.yield_lt, Or.inr h.clock_le⟩
    · rw [hclock]
      exact Nat.lt_succ_of_lt (h.yield_lt y hy)
    · rw [hclock]
      exact h.clock_le.trans (Nat.le_succ _)
  | erased j hstamps hclock hp hys =>
    subst hp hys
    rw [List.append_nil]
    refine ⟨h.increasing, h.ahead_before, fun s hs => h.passed s ?_, fun s hs => h.ahead s ?_,
      hclock ▸ h.yield_lt, hclock ▸ h.clock_le⟩
    · rw [hstamps] at hs
      exact mem_eraseIdx_split.1 hs
    · rw [hstamps] at hs
      exact mem_eraseIdx_split.2 hs
  | cleared hstamps hclock hp hys =>
    subst hp hys
    rw [List.append_nil]
    exact ⟨h.increasing, h.ahead_before, by simp, by simp [hstamps], hclock ▸ h.yield_lt,
      hclock ▸ h.clock_le⟩
  | popped e hstamps hclock he hp hys =>
    subst hp hys
    have hget : m'.stamps[p']? = some e.1 := by simp [stamps, he]
    obtain ⟨hlt, hget⟩ := List.getElem?_eq_some_iff.mp hget
    have hdrop : m'.stamps.drop p' = e.1 :: m'.stamps.drop (p' + 1) := by
      rw [List.drop_eq_getElem_cons hlt, hget]
    obtain ⟨hbefore, hfrom⟩ := h.ahead e.1 (by simp [hdrop])
    have hafter : ∀ s ∈ m'.stamps.drop (p' + 1), e.1 < s := by
      have hsorted := hvalid.sorted.sublist (List.drop_sublist p' _)
      rw [hdrop, List.pairwise_cons] at hsorted
      exact hsorted.1
    refine ⟨?_, fun y hy => ?_, fun s hs => ?_, fun s hs => ?_, fun y hy => ?_, hclock ▸ h.clock_le⟩
    · rw [List.map_append, List.pairwise_append]
      refine ⟨h.increasing, List.pairwise_singleton _ _, fun s hs t ht => ?_⟩
      obtain ⟨y, hy, rfl⟩ := List.mem_map.mp hs
      obtain rfl : t = e.1 := by simpa using ht
      exact hbefore y hy
    · rcases List.mem_append.mp hy with hy | hy
      · exact h.ahead_before y hy
      · obtain rfl := List.mem_singleton.mp hy
        exact hfrom
    · rw [hstamps, List.take_add_one, List.getElem?_eq_getElem hlt, hget, List.mem_append] at hs
      rcases hs with hs | hs
      · exact (h.passed s hs).imp_left fun hs => by simp [hs]
      · left
        obtain rfl : s = e.1 := by simpa using hs
        simp
    · rw [hstamps] at hs
      obtain ⟨hlt', hfrom'⟩ := h.ahead s (by simp [hdrop, hs])
      refine ⟨fun y hy => ?_, hfrom'⟩
      rcases List.mem_append.mp hy with hy | hy
      · exact hlt' y hy
      · obtain rfl := List.mem_singleton.mp hy
        exact hafter s hs
    · rw [hclock]
      rcases List.mem_append.mp hy with hy | hy
      · exact h.yield_lt y hy
      · obtain rfl := List.mem_singleton.mp hy
        exact hvalid.stamp_lt _ (hget ▸ List.getElem_mem hlt)

/-- What a call returns of a cursor's entries. -/
def yieldOf {E : Type} (id : ℕ) : Op K V → Output E → List E
  | .popFront id', .entry e => if id' = id then e.toList else []
  | _, _ => []

/-- Changing what entries look like changes what a cursor returns alike. -/
theorem yieldOf_map {E E' : Type} (id : ℕ) (op : Op K V) (f : E → E') (out : Output E) :
    yieldOf id op (out.map f) = (yieldOf id op out).map f := by
  cases op <;> cases out <;> try rfl
  rename_i id' e
  by_cases hid : id' = id <;> cases e <;> simp [yieldOf, Output.map, hid]

variable [DecidableEq K]

/-- The position of a key. -/
def find (m : OrderedMap K V) (l : K) : Option ℕ := m.entries.findIdx? fun e => e.2.1 = l

/-- One call, where `ok` tells whether allocation succeeded. -/
def step (ok : Bool) (m : OrderedMap K V) : Op K V → OrderedMap K V × Output (ℕ × K × V)
  | .init => (if ok then { m with initialized := true } else m, .ok ok)
  | .has l => (m, .answer (decide (l ∈ m.keys)))
  | .get l => (m, .entry ((m.find l).bind fun j => m.entries[j]?))
  | .count => (m, .number m.entries.length)
  | .put e =>
    match m.find e.1 with
    | some j => (m.replace j e, .ok true)
    | none =>
      if ok then ({ m with entries := m.entries ++ [(m.clock, e)], clock := m.clock + 1 }, .ok true)
      else (m, .ok false)
  | .remove l =>
    match m.find l with
    | some j => (m.erase j, .removed ok true)
    | none => (m, .removed true false)
  | .clear =>
    if ok then
      ({ m with entries := [], cursors := m.cursors.map fun c => (c.1, 0) }, .ok true)
    else (m, .ok false)
  | .all id => ({ m with cursors := (id, 0) :: m.cursors }, .done)
  | .copy source id => ({ m with cursors := (id, (m.cursorOf source).getD 0) :: m.cursors }, .done)
  | .destroy id => ({ m with cursors := m.cursors.filter fun c => c.1 ≠ id }, .done)
  | .empty id => (m, .answer (decide (m.entries.length ≤ (m.cursorOf id).getD 0)))
  | .popFront id =>
    let p := (m.cursorOf id).getD 0
    ({ m with cursors := m.cursors.map fun c => if c.1 = id then (id, p + 1) else c },
      .entry m.entries[p]?)
  | .rekeyFront id k =>
    let p := (m.cursorOf id).getD 0
    ({ m with entries := m.entries.modify p fun e => (e.1, k, e.2.2) }, .done)
  | .rekeyOneEntry current newKey element =>
    if current = newKey then (m, .done)
    else
      match m.find current with
      | none => (m, .done)
      | some j => (m.replace j element, .done)

/-- Calls one after the other. -/
def run (m : OrderedMap K V) (calls : List (Op K V × Bool)) : OrderedMap K V :=
  calls.foldl (fun m c => (m.step c.2 c.1).1) m

/-- The entries a cursor returns over calls. -/
def yields (id : ℕ) : OrderedMap K V → List (Op K V × Bool) → List (ℕ × K × V)
  | _, [] => []
  | m, c :: calls =>
    yieldOf id c.1 (m.step c.2 c.1).2 ++ yields id (m.step c.2 c.1).1 calls

/-- What a cursor returns over calls in two parts. -/
theorem yields_append (id : ℕ) (m : OrderedMap K V) (calls calls' : List (Op K V × Bool)) :
    m.yields id (calls ++ calls') = m.yields id calls ++ (m.run calls).yields id calls' := by
  induction calls generalizing m with
  | nil => rfl
  | cons c calls ih => simp [yields, ih, run]

section Steps

variable {m : OrderedMap K V} {id p : ℕ}

/-- A key is found at an entry that has it. -/
theorem exists_of_find {l : K} {j : ℕ} (h : m.find l = some j) :
    ∃ e, m.entries[j]? = some e ∧ e.2.1 = l := by
  rw [find, List.findIdx?_eq_some_iff_getElem] at h
  obtain ⟨hlt, hkey, -⟩ := h
  exact ⟨m.entries[j], List.getElem?_eq_getElem hlt, by simpa using hkey⟩

/-- With distinct keys, the position of an entry is where its key is found. -/
theorem find_eq (h : m.keys.Nodup) {j : ℕ} {e : ℕ × K × V} (he : m.entries[j]? = some e) :
    m.find e.2.1 = some j := by
  obtain ⟨hlt, hget⟩ := List.getElem?_eq_some_iff.mp he
  rw [find, List.findIdx?_eq_some_iff_getElem]
  refine ⟨hlt, by simp [hget], fun i hi => ?_⟩
  have hj : j < m.keys.length := by simpa [keys] using hlt
  have hi' : i < m.keys.length := by omega
  have hne : m.keys[i] ≠ m.keys[j] :=
    fun heq => by
      have hij := (List.Nodup.getElem_inj_iff h).mp heq
      omega
  simpa [keys, hget] using hne

/-- A key that is not found is not in the map. -/
theorem not_mem_of_find {l : K} (h : m.find l = none) : l ∉ m.keys := by
  rw [find, List.findIdx?_eq_none_iff] at h
  intro hmem
  obtain ⟨e, he, rfl⟩ := List.mem_map.mp hmem
  simpa using h e he

/-- What an allowed call does to a cursor that it does not destroy. -/
theorem step_cases (ok : Bool) {op : Op K V} (hallowed : m.Allowed op)
    (hop : op ≠ .destroy id) (hp : m.cursorOf id = some p) :
    ∃ p', (m.step ok op).1.cursorOf id = some p' ∧
      CursorStep m (m.step ok op).1 p p' (yieldOf id op (m.step ok op).2) := by
  cases op with
  | init =>
    refine ⟨p, ?_, .same ?_ ?_ rfl rfl⟩ <;> cases ok <;> first | exact hp | rfl
  | has l => exact ⟨p, hp, .same rfl rfl rfl rfl⟩
  | get l => exact ⟨p, hp, .same rfl rfl rfl rfl⟩
  | count => exact ⟨p, hp, .same rfl rfl rfl rfl⟩
  | put e =>
    simp only [step]
    split
    · exact ⟨p, hp, .same (by simp [stamps, replace]) rfl rfl rfl⟩
    · split
      · exact ⟨p, hp, .added (by simp [stamps]) rfl rfl rfl⟩
      · exact ⟨p, hp, .same rfl rfl rfl rfl⟩
  | remove l =>
    simp only [step]
    split
    · rename_i j _
      refine ⟨_, cursorOf_map hp (fun q => if j < q then q - 1 else q) _, .erased j ?_ rfl rfl rfl⟩
      simp [stamps, erase, List.eraseIdx_map]
    · exact ⟨p, hp, .same rfl rfl rfl rfl⟩
  | clear =>
    simp only [step]
    split
    · exact ⟨_, cursorOf_map hp (fun _ => 0) _, .cleared rfl rfl rfl rfl⟩
    · exact ⟨p, hp, .same rfl rfl rfl rfl⟩
  | all id' =>
    have hne : id' ≠ id := fun heq => by simp [Allowed, heq, hp] at hallowed
    exact ⟨p, by simpa [step, cursorOf, hne] using hp, .same rfl rfl rfl rfl⟩
  | copy source id' =>
    have hne : id' ≠ id := fun heq => by simp [Allowed, heq, hp] at hallowed
    exact ⟨p, by simpa [step, cursorOf, hne] using hp, .same rfl rfl rfl rfl⟩
  | destroy id' =>
    have hne : id' ≠ id := fun heq => hop (heq ▸ rfl)
    refine ⟨p, ?_, .same rfl rfl rfl rfl⟩
    rw [← hp]
    simp only [step, cursorOf, List.find?_filter]
    congr 2
    funext c
    by_cases hc : c.1 = id
    · simp [hc, Ne.symm hne]
    · simp [hc]
  | empty id' => exact ⟨p, hp, .same rfl rfl rfl rfl⟩
  | popFront id' =>
    obtain ⟨-, q, hq, hlt⟩ := hallowed
    simp only [step, hq, Option.getD_some]
    by_cases hid : id' = id
    · obtain rfl : p = q := by simpa [← hid, hq, eq_comm] using hp
      refine ⟨p + 1, ?_, .popped m.entries[p] rfl rfl (List.getElem?_eq_getElem hlt) rfl ?_⟩
      · rw [cursorOf_set, if_pos hid, hp]
        rfl
      · simp [yieldOf, hid, List.getElem?_eq_getElem hlt]
    · refine ⟨p, ?_, .same rfl rfl rfl ?_⟩
      · rw [cursorOf_set, if_neg hid, hp]
      · simp [yieldOf, hid]
  | rekeyFront id' k => exact ⟨p, hp, .same (by simp [stamps, step]) rfl rfl rfl⟩
  | rekeyOneEntry current newKey element =>
    simp only [step]
    split
    · exact ⟨p, hp, .same rfl rfl rfl rfl⟩
    · split
      · exact ⟨p, hp, .same rfl rfl rfl rfl⟩
      · exact ⟨p, hp, .same (by simp [stamps, replace]) rfl rfl rfl⟩

/-- An allowed call keeps a map valid. -/
theorem Valid.step (h : m.Valid) (ok : Bool) {op : Op K V} (hallowed : m.Allowed op) :
    (m.step ok op).1.Valid := by
  cases op with
  | init => cases ok <;> exact ⟨h.sorted, h.stamp_lt, h.keys_nodup, h.cursor_le⟩
  | has l => exact h
  | get l => exact h
  | count => exact h
  | put e =>
    simp only [OrderedMap.step]
    split
    · rename_i j hfind
      obtain ⟨old, hold, hkey⟩ := exists_of_find hfind
      exact h.modify hold (Or.inl hkey.symm) (fun _ => rfl) fun _ => rfl
    · rename_i hfind
      split
      · refine ⟨?_, fun s hs => ?_, ?_, fun c hc => ?_⟩
        · simp only [stamps, List.map_append, List.map_singleton]
          refine List.pairwise_append.mpr ⟨h.sorted, List.pairwise_singleton _ _, ?_⟩
          intro s hs t ht
          obtain rfl := List.mem_singleton.mp ht
          exact h.stamp_lt s hs
        · simp only [stamps, List.map_append, List.map_singleton, List.mem_append,
            List.mem_singleton] at hs ⊢
          rcases hs with hs | rfl
          · exact Nat.lt_succ_of_lt (h.stamp_lt s hs)
          · exact Nat.lt_succ_self _
        · have hnot := not_mem_of_find hfind
          have hnodup := h.keys_nodup
          simp only [keys, List.map_append, List.map_singleton] at hnot hnodup ⊢
          rw [List.nodup_append]
          refine ⟨hnodup, List.nodup_singleton _, fun a ha b hb => ?_⟩
          obtain rfl := List.mem_singleton.mp hb
          exact fun heq => hnot (heq ▸ ha)
        · have hle := h.cursor_le c hc
          simp only [List.length_append]
          omega
      · exact h
  | remove l =>
    simp only [OrderedMap.step]
    split
    · rename_i j hfind
      obtain ⟨old, hold, -⟩ := exists_of_find hfind
      obtain ⟨hlt, -⟩ := List.getElem?_eq_some_iff.mp hold
      refine ⟨?_, fun s hs => h.stamp_lt s ?_, ?_, fun c hc => ?_⟩
      · simp only [stamps, erase, ← List.eraseIdx_map]
        exact h.sorted.eraseIdx j
      · simp only [stamps, erase, ← List.eraseIdx_map] at hs
        exact List.mem_of_mem_eraseIdx hs
      · simp only [keys, erase, ← List.eraseIdx_map]
        exact h.keys_nodup.eraseIdx j
      · obtain ⟨c', hc', rfl⟩ := List.mem_map.mp hc
        have hle := h.cursor_le c' hc'
        simp only [erase, List.length_eraseIdx_of_lt hlt]
        split <;> omega
    · exact h
  | clear =>
    simp only [OrderedMap.step]
    split
    · refine ⟨List.Pairwise.nil, by simp [stamps], by simp [keys], fun c hc => ?_⟩
      obtain ⟨c', -, rfl⟩ := List.mem_map.mp hc
      exact Nat.zero_le _
    · exact h
  | all id =>
    exact ⟨h.sorted, h.stamp_lt, h.keys_nodup, List.forall_mem_cons.mpr ⟨Nat.zero_le _, h.cursor_le⟩⟩
  | copy source id =>
    obtain ⟨-, hsource, -⟩ := hallowed
    obtain ⟨q, hq⟩ := Option.ne_none_iff_exists'.mp hsource
    refine ⟨h.sorted, h.stamp_lt, h.keys_nodup, List.forall_mem_cons.mpr ⟨?_, h.cursor_le⟩⟩
    rw [hq]
    exact h.cursor_le (source, q) (mem_of_cursorOf hq)
  | destroy id =>
    exact ⟨h.sorted, h.stamp_lt, h.keys_nodup, fun c hc => h.cursor_le c (List.mem_filter.mp hc).1⟩
  | empty id => exact h
  | popFront id =>
    obtain ⟨-, q, hq, hlt⟩ := hallowed
    refine ⟨h.sorted, h.stamp_lt, h.keys_nodup, fun c hc => ?_⟩
    obtain ⟨c', hc', rfl⟩ := List.mem_map.mp hc
    rw [hq]
    split
    · exact hlt
    · exact h.cursor_le c' hc'
  | rekeyFront id k =>
    obtain ⟨-, q, e, hq, he, hk⟩ := hallowed
    simp only [OrderedMap.step, hq, Option.getD_some]
    exact h.modify he hk (fun _ => rfl) fun _ => rfl
  | rekeyOneEntry current newKey element =>
    obtain ⟨-, helement, hnew⟩ := hallowed
    simp only [OrderedMap.step]
    split
    · exact h
    · rename_i hne
      split
      · exact h
      · rename_i j hfind
        obtain ⟨old, hold, -⟩ := exists_of_find hfind
        exact h.modify hold (Or.inr (helement ▸ hnew.resolve_left hne)) (fun _ => rfl) fun _ => rfl

/-- Every call of a sequence is allowed when it is made. -/
def AllowedRun : OrderedMap K V → List (Op K V × Bool) → Prop
  | _, [] => True
  | m, c :: calls => m.Allowed c.1 ∧ AllowedRun (m.step c.2 c.1).1 calls

/-- A sequence of allowed calls in two parts. -/
theorem allowedRun_append {calls calls' : List (Op K V × Bool)} :
    m.AllowedRun (calls ++ calls') ↔ m.AllowedRun calls ∧ (m.run calls).AllowedRun calls' := by
  induction calls generalizing m with
  | nil => simp [AllowedRun, run]
  | cons c calls ih => simp [AllowedRun, ih, run, and_assoc]

/-- Allowed calls keep a map valid. -/
theorem Valid.run {calls : List (Op K V × Bool)} (h : m.Valid) (hallowed : m.AllowedRun calls) :
    (m.run calls).Valid := by
  induction calls generalizing m with
  | nil => exact h
  | cons c calls ih => exact ih (h.step c.2 hallowed.1) hallowed.2

/-- What a cursor returns over allowed calls, as long as it is not destroyed. -/
theorem Yielded.run {m' : OrderedMap K V} {p' : ℕ} {ys : List (ℕ × K × V)}
    {calls : List (Op K V × Bool)} (h : Yielded m p m' p' ys) (hvalid : m'.Valid)
    (hcursor : m'.cursorOf id = some p') (hallowed : m'.AllowedRun calls)
    (hlive : ∀ c ∈ calls, c.1 ≠ .destroy id) :
    ∃ p'', (m'.run calls).cursorOf id = some p'' ∧
      Yielded m p (m'.run calls) p'' (ys ++ yields id m' calls) := by
  induction calls generalizing m' p' ys with
  | nil => exact ⟨p', hcursor, by simpa [yields, OrderedMap.run] using h⟩
  | cons c calls ih =>
    obtain ⟨q, hq, hstep⟩ := step_cases c.2 hallowed.1 (hlive c (by simp)) hcursor
    rw [yields, ← List.append_assoc]
    exact ih (h.step hvalid hcursor hstep) (hvalid.step c.2 hallowed.1) hq hallowed.2
      fun c' hc' => hlive c' (List.mem_cons_of_mem _ hc')

end Steps

end OrderedMap

end SpiderMonkey.Builtin
