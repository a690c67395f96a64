import SpiderMonkey.Ds.InlineMap

/-!
# The inline map is a finite map

While the entries are inline, those of the slots that are not tombstones are the entries of the map. After
the switch the hash map has them. A failed switch leaves the slots alone, and what it leaves in the hash map
is cleared before the hash map is filled again.
-/

namespace SpiderMonkey.Ds.InlineMap

open Lib

variable {K V : Type} [DecidableEq K] [Zero K] {W : WordMap K V} {InlineElems : ℕ}
  {m : InlineMap W InlineElems} {f : K → Option V} {key : K}

/-- The entries of slots that are not tombstones. -/
def listed (slots : List (InlineElem K V)) : List (K × V) :=
  slots.filterMap fun e => if e.key = 0 then none else some (e.key, e.value)

@[simp]
theorem listed_nil : listed ([] : List (InlineElem K V)) = [] := rfl

@[simp]
theorem listed_append (a b : List (InlineElem K V)) : listed (a ++ b) = listed a ++ listed b :=
  List.filterMap_append

theorem listed_cons_zero {e : InlineElem K V} (he : e.key = 0) (rest : List (InlineElem K V)) :
    listed (e :: rest) = listed rest := by
  simp [listed, he]

theorem listed_cons {e : InlineElem K V} (he : e.key ≠ 0) (rest : List (InlineElem K V)) :
    listed (e :: rest) = (e.key, e.value) :: listed rest := by
  simp [listed, he]

/-- A map stands for a finite map. -/
structure Rep (m : InlineMap W InlineElems) (f : K → Option V) : Prop where
  zero : f 0 = none
  next_le : m.inlNext ≤ InlineElems + 1
  inline : m.inlNext ≤ InlineElems → Lists (listed m.used) f ∧ m.inlCount = (listed m.used).length
  map : InlineElems < m.inlNext → ∃ t, m.map = some t ∧ W.lookup t = f

/-- A map before anything is added. -/
theorem rep_start (inl : Vector (InlineElem K V) InlineElems) :
    Rep (start inl : InlineMap W InlineElems) fun _ => none where
  zero := rfl
  next_le := Nat.zero_le _
  inline _ := ⟨Lists.nil, rfl⟩
  map h := absurd h (Nat.not_lt_zero _)

omit [Zero K] in
theorem usingMap_iff : m.usingMap = true ↔ InlineElems < m.inlNext := decide_eq_true_iff

/-- `clear`, in either representation. -/
theorem rep_clear : Rep m.clear fun _ => none where
  zero := rfl
  next_le := Nat.zero_le _
  inline _ := ⟨Lists.nil, rfl⟩
  map h := absurd h (Nat.not_lt_zero _)

/-- What the hash map has after the switch. -/
theorem rep_of_map {t : W.Table} (hzero : f 0 = none) (hnext : m.inlNext = InlineElems + 1)
    (hm : m.map = some t) (ht : W.lookup t = f) : Rep m f where
  zero := hzero
  next_le := hnext.le
  inline h := by omega
  map _ := ⟨t, hm, ht⟩

/-- What the slots have before it. -/
theorem rep_of_inline (hzero : f 0 = none) (hnext : m.inlNext ≤ InlineElems)
    (hlists : Lists (listed m.used) f) (hcount : m.inlCount = (listed m.used).length) : Rep m f where
  zero := hzero
  next_le := by omega
  inline _ := ⟨hlists, hcount⟩
  map h := by omega

/-- What the slots hold does not depend on the hash map. -/
theorem Rep.with_map (h : Rep m f) (hin : m.inlNext ≤ InlineElems) (t : Option W.Table) :
    Rep { m with map := t } f :=
  rep_of_inline h.zero hin (h.inline hin).1 (h.inline hin).2

/-! ## Searching the slots -/

omit [Zero K] in
theorem used_getElem? {i : ℕ} (hi : i < m.used.length) : m.inl[i]? = m.used[i]? := by
  have hnext : i < m.inlNext := lt_of_lt_of_le hi (List.length_take_le _ _)
  rw [used, List.getElem?_take_of_lt hnext, Vector.getElem?_toList]

omit [Zero K] in
theorem length_used (hin : m.inlNext ≤ InlineElems) : m.used.length = m.inlNext := by
  simp [used, hin]

/-- The search for a key finds its entry, or the map does not have it. -/
theorem Rep.search (h : Rep m f) (hin : m.inlNext ≤ InlineElems) (hkey : key ≠ 0) :
    ((m.used.findIdx? fun e => e.key = key) = none ∧ f key = none) ∨
      ∃ a b value, m.used = a ++ ⟨key, value⟩ :: b ∧
        (m.used.findIdx? fun e => e.key = key) = some a.length ∧ f key = some value ∧
        m.inl[a.length]? = some ⟨key, value⟩ := by
  cases hfind : m.used.findIdx? fun e => e.key = key with
  | none =>
    apply Or.inl
    refine ⟨rfl, (h.inline hin).1.eq_none_of_not_mem fun hmem => ?_⟩
    obtain ⟨⟨k, v⟩, he, rfl⟩ := List.mem_map.mp hmem
    obtain ⟨e, heused, hev⟩ := List.mem_filterMap.mp he
    have hne := (List.findIdx?_eq_none_iff.mp hfind) e heused
    split at hev
    · cases hev
    · simp only [Option.some.injEq, Prod.mk.injEq] at hev
      exact absurd hev.1 (of_decide_eq_false hne)
  | some i =>
    apply Or.inr
    obtain ⟨hi, hk, -⟩ := List.findIdx?_eq_some_iff_getElem.mp hfind
    have hsplit : m.used = m.used.take i ++ m.used[i] :: m.used.drop (i + 1) := by
      rw [List.cons_getElem_drop_succ, List.take_append_drop]
    have hlength : (m.used.take i).length = i := by rw [List.length_take, Nat.min_eq_left hi.le]
    have hk : m.used[i].key = key := of_decide_eq_true hk
    have he : m.used[i] = ⟨key, m.used[i].value⟩ := by rw [← hk]
    refine ⟨m.used.take i, m.used.drop (i + 1), m.used[i].value, he ▸ hsplit, by rw [hlength], ?_, ?_⟩
    · have hl := (h.inline hin).1
      rw [hsplit, listed_append, listed_cons (by rw [hk]; exact hkey), hk] at hl
      exact hl.middle
    · rw [hlength, used_getElem? hi, List.getElem?_eq_getElem hi, ← he]

omit [Zero K] in
/-- Writing a used slot. -/
theorem used_set {a b : List (InlineElem K V)} {e : InlineElem K V} (hused : m.used = a ++ e :: b)
    (e' : InlineElem K V) (n : ℕ) :
    used { m with inl := m.inl.setIfInBounds a.length e', inlCount := n } = a ++ e' :: b := by
  have htake : (m.inl.toList.set a.length e').take m.inlNext = m.used.set a.length e' := List.take_set
  rw [used, Vector.toList_setIfInBounds, htake, hused]
  simp

omit [Zero K] in
/-- Writing the next slot. -/
theorem used_push (hlt : m.inlNext < InlineElems) (e : InlineElem K V) (n : ℕ) :
    used { m with inl := m.inl.setIfInBounds m.inlNext e, inlCount := n, inlNext := m.inlNext + 1 } =
      m.used ++ [e] := by
  have hlen : m.inlNext < (m.inl.toList.set m.inlNext e).length := by simpa using hlt
  rw [used, Vector.toList_setIfInBounds, List.take_succ_eq_append_getElem hlen, List.getElem_set_self,
    List.take_set_of_le (Nat.le_refl _), used]

/-! ## The switch -/

/-- Moving entries to a table that has the entries of some slots: it has those of the slots behind them as
well, unless memory runs out. -/
theorem moveEntries_spec (oom : AllocSite → Bool) (slots : List (InlineElem K V)) {done : List (K × V)}
    {t : W.Table} {i : ℕ} (hdone : Lists done (W.lookup t)) (hall : Lists (done ++ listed slots) f) :
    (∃ t', moveEntries W oom i slots t = some (true, t') ∧ W.lookup t' = f) ∨
      ∃ t' s, moveEntries W oom i slots t = some (false, t') ∧ oom s = true := by
  induction slots generalizing done t i with
  | nil =>
    rw [listed_nil, List.append_nil] at hall
    exact Or.inl ⟨t, rfl, hdone.ext hall⟩
  | cons e rest ih =>
    unfold moveEntries
    by_cases he : e.key = 0
    · rw [if_pos he]
      rw [listed_cons_zero he] at hall
      exact ih hdone hall
    · rw [listed_cons he] at hall
      have hfresh : W.lookup t e.key = none := by
        apply hdone.eq_none_of_not_mem
        intro hmem
        obtain ⟨d, hd, hdk⟩ := List.mem_map.mp hmem
        exact hall.ne_of_mem (List.mem_append_left _ hd) hdk
      rw [if_neg he, hfresh, Option.isSome_none, if_neg Bool.false_ne_true]
      by_cases hoom : oom (.slot i) = true
      · rw [if_pos hoom]
        exact Or.inr ⟨t, _, rfl, hoom⟩
      · rw [if_neg hoom]
        have hnext := hdone.append_new (v := e.value) hfresh
        rw [← W.lookup_putNew t e.key e.value hfresh] at hnext
        exact ih hnext (by rwa [List.append_assoc])

omit [Zero K] in
/-- The table that is filled is empty. -/
theorem lookup_tableToFill {oom : AllocSite → Bool} {t : W.Table}
    (h : m.tableToFill oom = some t) :
    W.lookup t = fun _ => none := by
  unfold tableToFill at h
  cases hm : m.map with
  | none =>
    simp only [hm] at h
    split at h
    · cases h
    · exact (Option.some.inj h) ▸ W.lookup_init
  | some t' =>
    simp only [hm, Option.some.injEq] at h
    exact h ▸ W.lookup_clear t'

omit [Zero K] in
theorem tableToFill_eq_none {oom : AllocSite → Bool} (h : m.tableToFill oom = none) : oom .init = true := by
  unfold tableToFill at h
  cases hm : m.map with
  | none =>
    simp only [hm, ite_eq_left_iff, reduceCtorEq, imp_false, Bool.not_eq_true, Bool.not_eq_false] at h
    exact h
  | some t' => simp [hm] at h

/-- A switch keeps the map, whether it succeeds or not. -/
theorem Rep.switchToMap (h : Rep m f) (oom : AllocSite → Bool) (hfull : m.inlNext = InlineElems) :
    (∃ m' t, m.switchToMap oom = some (true, m') ∧ m'.inlNext = InlineElems + 1 ∧ m'.map = some t ∧
        W.lookup t = f) ∨
      ∃ m' s, m.switchToMap oom = some (false, m') ∧ Rep m' f ∧ oom s = true := by
  obtain ⟨hlists, hcount⟩ := h.inline hfull.le
  unfold InlineMap.switchToMap
  rw [if_neg (not_not.mpr hfull)]
  cases htable : m.tableToFill oom with
  | none => exact Or.inr ⟨m, .init, rfl, h, tableToFill_eq_none htable⟩
  | some t =>
    have hempty : Lists [] (W.lookup t) := by
      rw [lookup_tableToFill htable]
      exact Lists.nil
    rcases moveEntries_spec oom (i := 0) m.used hempty hlists with
      ⟨t', hmove, ht'⟩ | ⟨t', s, hmove, hs⟩
    · have hc : W.count t' = m.inlCount := by
        rw [W.count_eq, ← (W.lists t').ncard, ht', hlists.ncard, hcount]
      refine Or.inl ⟨{ m with map := some t', inlNext := InlineElems + 1 }, t', ?_, rfl, rfl, ht'⟩
      simp [hmove, hc]
    · refine Or.inr ⟨{ m with map := some t' }, s, ?_, h.with_map hfull.le _, hs⟩
      simp [hmove]

/-! ## The operations -/

/-- What an operation may do to a finite map. -/
inductive Meets (oom : AllocSite → Bool) (f : K → Option V) :
    Op K V → Result K V → (K → Option V) → Prop where
  | lookup (key : K) : Meets oom f (.lookup key) (.value (f key)) f
  | found (key : K) (value : V) (old : V) (h : f key = some old) :
    Meets oom f (.add key value) (.value (some old)) f
  | add (key : K) (value : V) (h : f key = none) :
    Meets oom f (.add key value) (.added true) (Function.update f key (some value))
  | addFails (key : K) (value : V) (h : f key = none) (s : AllocSite) (hs : oom s = true) :
    Meets oom f (.add key value) (.added false) f
  | put (key : K) (value : V) :
    Meets oom f (.put key value) (.added true) (Function.update f key (some value))
  | putFails (key : K) (value : V) (h : f key = none) (s : AllocSite) (hs : oom s = true) :
    Meets oom f (.put key value) (.added false) f
  | remove (key : K) : Meets oom f (.remove key) .done (Function.update f key none)
  | clear : Meets oom f .clear .done fun _ => none
  | enumerate (l : List (K × V)) (h : Lists l f) : Meets oom f .enumerate (.entries l) f
  | count : Meets oom f .count (.count {k | f k ≠ none}.ncard) f
  | empty (b : Bool) (h : b = true ↔ ∀ k, f k = none) : Meets oom f .empty (.flag b) f

/-- Adding a key that the map does not have, by way of what `lookupForAdd` found. -/
theorem Rep.add (h : Rep m f) (oom : AllocSite → Bool) (value : V) (hkey : key ≠ 0) {p : AddPtr K} (hp : m.lookupForAdd key = some p)
    (hnone : f key = none) (hfound : p.found = false) :
    (∃ m', m.add oom p key value = some (true, m') ∧ Rep m' (Function.update f key (some value))) ∨
      ∃ m' s, m.add oom p key value = some (false, m') ∧ Rep m' f ∧ oom s = true := by
  have hzero : Function.update f key (some value) 0 = none := by
    rw [Function.update_of_ne hkey.symm, h.zero]
  unfold InlineMap.add
  rw [hfound, if_neg Bool.false_ne_true]
  by_cases husing : InlineElems < m.inlNext
  · obtain ⟨t, hm, ht⟩ := h.map husing
    have hnext : m.inlNext = InlineElems + 1 := by
      have := h.next_le
      omega
    simp only [lookupForAdd, usingMap_iff.mpr husing, if_true, hm, Option.bind_eq_bind,
      Option.bind_some, Option.some.injEq] at hp
    subst hp
    simp only [hm, Option.bind_eq_bind, Option.bind_some]
    by_cases hoom : oom .add = true
    · rw [if_pos hoom]
      exact Or.inr ⟨m, _, rfl, h, hoom⟩
    · rw [if_neg hoom]
      refine Or.inl ⟨_, rfl, rep_of_map hzero hnext rfl ?_⟩
      rw [W.lookup_putNew t key value (by rw [ht, hnone]), ht]
  · have hin : m.inlNext ≤ InlineElems := not_lt.mp husing
    have husing' : m.usingMap = false := by
      rw [← Bool.not_eq_true, usingMap_iff]
      exact husing
    obtain ⟨hlists, hcount⟩ := h.inline hin
    rcases h.search hin hkey with ⟨hfind, -⟩ | ⟨a, b, v, -, -, hsome, -⟩
    · simp only [lookupForAdd, husing', Bool.false_eq_true, if_false, hfind, Option.some.injEq] at hp
      subst hp
      simp only [ne_eq, not_true_eq_false, if_false]
      by_cases hfull : m.inlNext = InlineElems
      · -- the limit slot: the switch, and then the new entry
        rw [if_pos hfull]
        unfold switchAndAdd
        rcases h.switchToMap oom hfull with
          ⟨m', t, hswitch, hnext, hm, ht⟩ | ⟨m', s, hswitch, hrep, hs⟩
        · have hfresh : W.lookup t key = none := by rw [ht, hnone]
          simp only [hswitch, hm, hfresh, Option.bind_eq_bind, Option.bind_some, Bool.not_true,
            Bool.false_eq_true, if_false, Option.isSome_none]
          by_cases hoom : oom .add = true
          · rw [if_pos hoom]
            exact Or.inr ⟨m', _, rfl, rep_of_map h.zero hnext hm ht, hoom⟩
          · rw [if_neg hoom]
            refine Or.inl ⟨_, rfl, rep_of_map hzero hnext rfl ?_⟩
            rw [W.lookup_putNew t key value hfresh, ht]
        · simp only [hswitch, Option.bind_eq_bind, Option.bind_some, Bool.not_false, if_true]
          exact Or.inr ⟨m', s, rfl, hrep, hs⟩
      · rw [if_neg hfull]
        have hlt : m.inlNext < InlineElems := by omega
        refine Or.inl ⟨_, rfl, rep_of_inline hzero hlt ?_ ?_⟩
        · rw [used_push hlt, listed_append, listed_cons hkey]
          exact hlists.append_new hnone
        · rw [used_push hlt, listed_append, listed_cons hkey, List.length_append, ← hcount]
          rfl
    · rw [hnone] at hsome
      cases hsome

/-- What `lookupForAdd` finds is the value of the key, and assigning to it changes this value. -/
theorem Rep.lookupForAdd (h : Rep m f) (hkey : key ≠ 0) :
    ∃ p, m.lookupForAdd key = some p ∧ m.addPtrValue p = f key ∧ p.found = (f key).isSome ∧
      (p.found = true → ∀ value, ∃ m', m.assign p value = some m' ∧
        Rep m' (Function.update f key (some value))) := by
  have hzero (value : V) : Function.update f key (some value) 0 = none := by
    rw [Function.update_of_ne hkey.symm, h.zero]
  unfold InlineMap.lookupForAdd
  by_cases husing : InlineElems < m.inlNext
  · obtain ⟨t, hm, ht⟩ := h.map husing
    have hnext : m.inlNext = InlineElems + 1 := by
      have := h.next_le
      omega
    simp only [usingMap_iff.mpr husing, if_true, hm, Option.bind_eq_bind, Option.bind_some]
    refine ⟨_, rfl, ?_, by rw [AddPtr.found, ht], fun hfound value => ?_⟩
    · simp only [addPtrValue, hm, Option.bind_some, ht]
      cases f key <;> rfl
    · refine ⟨{ m with map := some (W.assign t key value) }, ?_, rep_of_map (hzero value) hnext rfl ?_⟩
      · simp [assign, hm]
      · rw [W.lookup_assign t key value (Option.isSome_iff_ne_none.mp hfound), ht]
  · have hin : m.inlNext ≤ InlineElems := not_lt.mp husing
    have husing' : m.usingMap = false := by
      rw [← Bool.not_eq_true, usingMap_iff]
      exact husing
    obtain ⟨hlists, hcount⟩ := h.inline hin
    simp only [husing', Bool.false_eq_true, if_false]
    rcases h.search hin hkey with ⟨hfind, hnone⟩ | ⟨a, b, v, hused, hfind, hsome, hget⟩
    · simp only [hfind]
      exact ⟨_, rfl, by rw [hnone]; rfl, by rw [hnone]; rfl, fun hfound => by cases hfound⟩
    · simp only [hfind]
      refine ⟨_, rfl, ?_, by rw [hsome]; rfl, fun _ value => ?_⟩
      · rw [addPtrValue, if_pos rfl, hget, hsome]
        rfl
      · refine ⟨{ m with inl := m.inl.setIfInBounds a.length ⟨key, value⟩ }, ?_,
          rep_of_inline (hzero value) hin ?_ ?_⟩
        · simp [assign, hget]
        · rw [used_set hused, listed_append, listed_cons hkey]
          rw [hused, listed_append, listed_cons hkey] at hlists
          exact hlists.set_value
        · rw [used_set hused, hcount, hused, listed_append, listed_cons hkey, listed_append,
            listed_cons hkey]
          simp

/-- Removing a key, whether the map has it or not. -/
theorem Rep.remove (h : Rep m f) (hkey : key ≠ 0) :
    ∃ m', m.remove key = some m' ∧ Rep m' (Function.update f key none) := by
  have hzero : Function.update f key none 0 = none := by
    rw [Function.update_of_ne hkey.symm, h.zero]
  have hsame (hnone : f key = none) : Function.update f key none = f := by
    rw [← hnone, Function.update_eq_self]
  unfold InlineMap.remove InlineMap.lookup
  by_cases husing : InlineElems < m.inlNext
  · obtain ⟨t, hm, ht⟩ := h.map husing
    have hnext : m.inlNext = InlineElems + 1 := by
      have := h.next_le
      omega
    simp only [usingMap_iff.mpr husing, if_true, hm, Option.bind_eq_bind, Option.bind_some]
    cases hl : W.lookup t key with
    | none =>
      rw [ht] at hl
      exact ⟨m, rfl, by rwa [hsame hl]⟩
    | some v =>
      refine ⟨{ m with map := some (W.remove t key) }, ?_, rep_of_map hzero hnext rfl ?_⟩
      · simp [removePtr, hm, usingMap_iff.mpr husing]
      · rw [W.lookup_remove t key (by simp [hl]), ht]
  · have hin : m.inlNext ≤ InlineElems := not_lt.mp husing
    have husing' : m.usingMap = false := by
      rw [← Bool.not_eq_true, usingMap_iff]
      exact husing
    obtain ⟨hlists, hcount⟩ := h.inline hin
    simp only [husing', Bool.false_eq_true, if_false, Option.bind_eq_bind, Option.bind_some]
    rcases h.search hin hkey with ⟨hfind, hnone⟩ | ⟨a, b, v, hused, hfind, -, hget⟩
    · simp only [hfind]
      exact ⟨m, rfl, by rwa [hsame hnone]⟩
    · rw [hused, listed_append, listed_cons hkey] at hlists hcount
      have hpos : m.inlCount ≠ 0 := by
        rw [hcount, List.length_append, List.length_cons]
        omega
      have hlisted : listed (a ++ ⟨0, v⟩ :: b) = listed a ++ listed b := by
        rw [listed_append, listed_cons_zero rfl]
      simp only [hfind, removePtr, hget, Option.bind_eq_bind, Option.bind_some, if_neg hpos, if_neg hkey]
      refine ⟨_, rfl, rep_of_inline hzero hin ?_ ?_⟩
      · rw [used_set hused, hlisted]
        exact hlists.erase
      · rw [used_set hused, hlisted]
        simp only [List.length_append, List.length_cons] at hcount ⊢
        omega

/-- Looking a key up. -/
theorem Rep.lookup (h : Rep m f) (hkey : key ≠ 0) :
    ∃ p, m.lookup key = some p ∧ m.valueAt p = f key := by
  unfold InlineMap.lookup
  by_cases husing : InlineElems < m.inlNext
  · obtain ⟨t, hm, ht⟩ := h.map husing
    simp only [usingMap_iff.mpr husing, if_true, hm, Option.bind_eq_bind, Option.bind_some, ht]
    refine ⟨_, rfl, ?_⟩
    cases hf : f key with
    | none => rfl
    | some v => simp [valueAt, hm, ht, hf]
  · have hin : m.inlNext ≤ InlineElems := not_lt.mp husing
    have husing' : m.usingMap = false := by
      rw [← Bool.not_eq_true, usingMap_iff]
      exact husing
    simp only [husing', Bool.false_eq_true, if_false]
    rcases h.search hin hkey with ⟨hfind, hnone⟩ | ⟨a, b, v, -, hfind, hsome, hget⟩
    · exact ⟨_, rfl, by rw [hfind, hnone]; rfl⟩
    · refine ⟨_, rfl, ?_⟩
      rw [hfind, valueAt, hget, hsome]
      rfl

/-- The number of entries. -/
theorem Rep.count (h : Rep m f) : m.count = some {k | f k ≠ none}.ncard := by
  unfold InlineMap.count
  by_cases husing : InlineElems < m.inlNext
  · obtain ⟨t, hm, ht⟩ := h.map husing
    rw [if_pos (usingMap_iff.mpr husing), hm, Option.map_some, W.count_eq, ← (W.lists t).ncard, ht]
  · obtain ⟨hlists, hcount⟩ := h.inline (not_lt.mp husing)
    rw [if_neg (by rw [usingMap_iff]; exact husing), hcount, ← hlists.ncard]

/-- Whether there are entries. -/
theorem Rep.empty (h : Rep m f) : ∃ b, m.empty = some b ∧ (b = true ↔ ∀ k, f k = none) := by
  unfold InlineMap.empty
  by_cases husing : InlineElems < m.inlNext
  · obtain ⟨t, hm, ht⟩ := h.map husing
    rw [if_pos (usingMap_iff.mpr husing), hm, Option.map_some]
    refine ⟨_, rfl, ?_⟩
    rw [decide_eq_true_iff, W.count_eq, (W.lists t).length_eq_zero_iff, ht]
  · obtain ⟨hlists, hcount⟩ := h.inline (not_lt.mp husing)
    rw [if_neg (by rw [usingMap_iff]; exact husing)]
    refine ⟨_, rfl, ?_⟩
    rw [decide_eq_true_iff, hcount, hlists.length_eq_zero_iff]

/-! ## Enumeration -/

/-- Tombstones are passed over, up to the next entry or to the end. -/
theorem advancePastNulls_spec (hin : m.inlNext ≤ InlineElems) (rest : List (InlineElem K V)) {cur : ℕ}
    (hcur : cur ≤ m.inlNext) (hrest : m.used.drop cur = rest) :
    (m.advancePastNulls m.inlNext rest.length cur = m.inlNext ∧ listed rest = []) ∨
      ∃ next e tail, m.advancePastNulls m.inlNext rest.length cur = next ∧ next < m.inlNext ∧
        m.inl[next]? = some e ∧ m.used.drop (next + 1) = tail ∧
        listed rest = (e.key, e.value) :: listed tail := by
  induction rest generalizing cur with
  | nil =>
    have hlen := List.drop_eq_nil_iff.mp hrest
    rw [length_used hin] at hlen
    exact Or.inl ⟨le_antisymm hcur hlen, rfl⟩
  | cons e tail ih =>
    have hlt : cur < m.used.length := by
      apply List.lt_length_of_take_ne_self
      intro htake
      rw [List.drop_eq_nil_of_le (by rw [← htake]; simp)] at hrest
      cases hrest
    have hget : m.inl[cur]? = some e := by
      rw [used_getElem? hlt, List.getElem?_eq_getElem hlt, Option.some.injEq]
      rw [← List.cons_getElem_drop_succ (h := hlt), List.cons.injEq] at hrest
      exact hrest.1
    have htail : m.used.drop (cur + 1) = tail := by
      rw [← List.tail_drop, hrest, List.tail_cons]
    rw [length_used hin] at hlt
    by_cases he : e.key = 0
    · rw [List.length_cons, advancePastNulls, if_pos ⟨hlt, by simp [hget, he]⟩, listed_cons_zero he]
      exact ih hlt htail
    · refine Or.inr ⟨cur, e, tail, ?_, hlt, hget, htail, listed_cons he tail⟩
      rw [List.length_cons, advancePastNulls, if_neg (by simp [hget, he])]

/-- Reading a range of inline entries. -/
theorem readRange_inline (hin : m.inlNext ≤ InlineElems) (fuel : ℕ) {rest : List (InlineElem K V)}
    {cur : ℕ} (hcur : cur ≤ m.inlNext) (hrest : m.used.drop cur = rest)
    (hfuel : (listed rest).length < fuel) :
    m.readRange fuel (.inline (m.advancePastNulls m.inlNext rest.length cur) m.inlNext) =
      some (listed rest) := by
  induction fuel generalizing rest cur with
  | zero => exact absurd hfuel (Nat.not_lt_zero _)
  | succ fuel ih =>
    rcases advancePastNulls_spec hin rest hcur hrest with
      ⟨hend, hnil⟩ | ⟨next, e, tail, hnext, hlt, hget, htail, hlisted⟩
    · simp [readRange, rangeEmpty, hend, hnil]
    · have hlen : m.inlNext - (next + 1) = tail.length := by
        rw [← htail, List.length_drop, length_used hin]
      have hread := ih hlt htail (by
        rw [hlisted, List.length_cons] at hfuel
        omega)
      simp [readRange, rangeEmpty, hnext, hlt.ne, front, hget, popFront, hlen, hread, hlisted]

/-- Reading the range of the hash map. -/
theorem readRange_map (fuel : ℕ) (rest : List (K × V)) (hfuel : rest.length < fuel) :
    m.readRange fuel (.map rest) = some rest := by
  induction fuel generalizing rest with
  | zero => exact absurd hfuel (Nat.not_lt_zero _)
  | succ fuel ih =>
    cases rest with
    | nil => simp [readRange, rangeEmpty]
    | cons e tail =>
      have hread := ih tail (by
        rw [List.length_cons] at hfuel
        omega)
      simp [readRange, rangeEmpty, front, popFront, hread]

/-- Enumeration lists the entries. -/
theorem Rep.enumerate (h : Rep m f) :
    ∃ r l, m.all = some r ∧ m.readRange ({k | f k ≠ none}.ncard + 1) r = some l ∧ Lists l f := by
  unfold InlineMap.all
  by_cases husing : InlineElems < m.inlNext
  · obtain ⟨t, hm, ht⟩ := h.map husing
    have hlists := W.lists t
    rw [ht] at hlists
    rw [if_pos (usingMap_iff.mpr husing), hm, Option.map_some, hlists.ncard]
    exact ⟨_, _, rfl, readRange_map _ _ (Nat.lt_succ_self _), hlists⟩
  · have hin : m.inlNext ≤ InlineElems := not_lt.mp husing
    obtain ⟨hlists, -⟩ := h.inline hin
    have hread := readRange_inline hin ((listed m.used).length + 1) (Nat.zero_le _) List.drop_zero
      (Nat.lt_succ_self _)
    rw [length_used hin] at hread
    rw [if_neg (by rw [usingMap_iff]; exact husing), hlists.ncard]
    exact ⟨_, _, rfl, hread, hlists⟩

/-! ## Runs -/

/-- One operation does to the map what it may do to the finite map that the map stands for. -/
theorem Rep.step (h : Rep m f) (oom : AllocSite → Bool) (op : Op K V) (hop : op.key? ≠ some 0) :
    ∃ r m' f', m.step oom op = some (r, m') ∧ Meets oom f op r f' ∧ Rep m' f' := by
  cases op with
  | lookup key =>
    have hkey : key ≠ 0 := by simpa [Op.key?] using hop
    obtain ⟨p, hp, hv⟩ := h.lookup hkey
    refine ⟨.value (f key), m, f, ?_, .lookup key, h⟩
    simp [InlineMap.step, hp, hv]
  | add key value =>
    have hkey : key ≠ 0 := by simpa [Op.key?] using hop
    obtain ⟨p, hp, hv, hfound, -⟩ := h.lookupForAdd hkey
    cases hf : f key with
    | some old =>
      refine ⟨.value (some old), m, f, ?_, .found key value old hf, h⟩
      simp [InlineMap.step, hp, hfound, hf, hv]
    | none =>
      rw [hf, Option.isSome_none] at hfound
      rcases h.add oom value hkey hp hf hfound with
        ⟨m', hadd, hrep⟩ | ⟨m', s, hadd, hrep, hs⟩
      · exact ⟨_, m', _, by simp [InlineMap.step, hp, hfound, hadd], .add key value hf, hrep⟩
      · exact ⟨_, m', f, by simp [InlineMap.step, hp, hfound, hadd], .addFails key value hf s hs, hrep⟩
  | put key value =>
    have hkey : key ≠ 0 := by simpa [Op.key?] using hop
    obtain ⟨p, hp, hv, hfound, hassign⟩ := h.lookupForAdd hkey
    cases hf : f key with
    | some old =>
      rw [hf, Option.isSome_some] at hfound
      obtain ⟨m', ha, hrep⟩ := hassign hfound value
      exact ⟨_, m', _, by simp [InlineMap.step, InlineMap.put, hp, hfound, ha], .put key value, hrep⟩
    | none =>
      rw [hf, Option.isSome_none] at hfound
      rcases h.add oom value hkey hp hf hfound with
        ⟨m', hadd, hrep⟩ | ⟨m', s, hadd, hrep, hs⟩
      · exact ⟨_, m', _, by simp [InlineMap.step, InlineMap.put, hp, hfound, hadd], .put key value, hrep⟩
      · exact ⟨_, m', f, by simp [InlineMap.step, InlineMap.put, hp, hfound, hadd],
          .putFails key value hf s hs, hrep⟩
  | remove key =>
    have hkey : key ≠ 0 := by simpa [Op.key?] using hop
    obtain ⟨m', hm', hrep⟩ := h.remove hkey
    exact ⟨_, m', _, by simp [InlineMap.step, hm'], .remove key, hrep⟩
  | clear => exact ⟨_, _, _, rfl, .clear, rep_clear⟩
  | enumerate =>
    obtain ⟨r, l, hall, hread, hlists⟩ := h.enumerate
    exact ⟨_, m, f, by simp [InlineMap.step, hall, h.count, hread], .enumerate l hlists, h⟩
  | count => exact ⟨_, m, f, by simp [InlineMap.step, h.count], .count, h⟩
  | empty =>
    obtain ⟨b, hb, hiff⟩ := h.empty
    exact ⟨_, m, f, by simp [InlineMap.step, hb], .empty b hiff, h⟩

/-- What a finite map answers to a run of operations. -/
def Answers (f : K → Option V) : List (Op K V × (AllocSite → Bool)) → List (Result K V) → Prop
  | [], rs => rs = []
  | (op, oom) :: ops, rs => ∃ r rest f', rs = r :: rest ∧ Meets oom f op r f' ∧ Answers f' ops rest

/-- A run does, and sees, what the finite map does. -/
theorem Rep.run (h : Rep m f) (ops : List (Op K V × (AllocSite → Bool)))
    (hops : ∀ op ∈ ops, op.1.key? ≠ some 0) :
    ∃ rs m', m.run ops = some (rs, m') ∧ Answers f ops rs := by
  induction ops generalizing m f with
  | nil => exact ⟨[], m, rfl, rfl⟩
  | cons op ops ih =>
    obtain ⟨op, oom⟩ := op
    obtain ⟨r, m', f', hstep, hmeets, hrep⟩ :=
      h.step oom op (hops (op, oom) List.mem_cons_self)
    obtain ⟨rs, m'', hrun, hanswers⟩ := ih hrep fun op hmem => hops op (List.mem_cons_of_mem _ hmem)
    exact ⟨r :: rs, m'', by simp [InlineMap.run, hstep, hrun], r, rs, f', rfl, hmeets, hanswers⟩

/-- The simplest hash map: a list of entries with distinct keys. -/
def listMap (K V : Type) [DecidableEq K] : WordMap K V where
  Table := { l : List (K × V) // (l.map Prod.fst).Nodup }
  init := ⟨[], List.nodup_nil⟩
  clear _ := ⟨[], List.nodup_nil⟩
  lookup t key := (t.1.find? fun e => e.1 = key).map Prod.snd
  putNew t key value :=
    ⟨(t.1.filter fun e => e.1 ≠ key) ++ [(key, value)],
      ((Lists.find t.2).renew key value).nodup⟩
  assign t key value :=
    ⟨(t.1.filter fun e => e.1 ≠ key) ++ [(key, value)],
      ((Lists.find t.2).renew key value).nodup⟩
  remove t key := ⟨t.1.filter fun e => e.1 ≠ key, ((Lists.find t.2).filter_ne key).nodup⟩
  count t := t.1.length
  entries t := t.1
  lookup_init := rfl
  lookup_clear _ := rfl
  lookup_putNew t key value _ := ((Lists.find t.2).renew key value).find_eq
  lookup_assign t key value _ := ((Lists.find t.2).renew key value).find_eq
  lookup_remove t key _ := ((Lists.find t.2).filter_ne key).find_eq
  lists t := Lists.find t.2
  count_eq _ := rfl

/-- Whatever is done with a map, its answers are those of a finite map, no matter when memory runs out and
when the entries move to the hash map. -/
theorem inlineMap_refines (W : WordMap K V) (inl : Vector (InlineElem K V) InlineElems)
    (ops : List (Op K V × (AllocSite → Bool))) (hops : ∀ op ∈ ops, op.1.key? ≠ some 0) :
    ∃ rs m, (start inl : InlineMap W InlineElems).run ops = some (rs, m) ∧
      Answers (fun _ => none) ops rs :=
  (rep_start inl).run ops hops

/-- Two entries are added to a map with one slot: the first move to the hash map runs out of memory, the
second one does not. -/
theorem inlineMap_refines_switch :
    ∃ rs m, (start (Vector.replicate 1 ⟨0, 0⟩) : InlineMap (listMap ℕ ℕ) 1).run
        [(.put 7 1, fun _ => false), (.put 8 2, fun s => s = .slot 0), (.put 8 3, fun _ => false),
          (.remove 7, fun _ => false), (.enumerate, fun _ => false), (.clear, fun _ => false),
          (.lookup 8, fun _ => false)] = some (rs, m) ∧
      Answers (fun _ => none)
        [(.put 7 1, fun _ => false), (.put 8 2, fun s => s = .slot 0), (.put 8 3, fun _ => false),
          (.remove 7, fun _ => false), (.enumerate, fun _ => false), (.clear, fun _ => false),
          (.lookup 8, fun _ => false)] rs :=
  inlineMap_refines (listMap ℕ ℕ) (Vector.replicate 1 ⟨0, 0⟩) _ (by decide)

end SpiderMonkey.Ds.InlineMap
