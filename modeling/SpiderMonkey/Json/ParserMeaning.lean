import SpiderMonkey.Json.Parser
import Mathlib.Data.List.Induction

/-!
# What a state of the parser can still parse

`Means m v` says by the grammar that a parse in state `m` still has a text for the value `v` in
front of it. Every step keeps the meaning in both directions, so a parse returns exactly the
value its text denotes.
-/

namespace SpiderMonkey.Json

/-- The units left behind a complete value close the arrays and objects in progress and end the
text, which then denotes `whole`. -/
def Closes : List StackEntry → Value → Chars → Value → Prop
  | [], v, rest, whole => IsWhitespace rest ∧ whole = v
  | .elements es :: stack, v, current, whole =>
    (∃ w rest, current = w ++ rightSquareBracket :: rest ∧ IsWhitespace w ∧
      Closes stack (.array (es ++ [v])) rest whole) ∨
    ∃ w rest, current = w ++ comma :: rest ∧ IsWhitespace w ∧
      ∃ cs vs rest', rest = cs ++ rightSquareBracket :: rest' ∧ IsElements cs vs ∧
        Closes stack (.array (es ++ [v] ++ vs)) rest' whole
  | .properties ps :: stack, v, current, whole =>
    (∃ w rest, current = w ++ rightCurlyBracket :: rest ∧ IsWhitespace w ∧
      Closes stack (.object (lastValues (setBack ps v))) rest whole) ∨
    ∃ w rest, current = w ++ comma :: rest ∧ IsWhitespace w ∧
      ∃ cs ms rest', rest = cs ++ rightCurlyBracket :: rest' ∧ IsMembers cs ms ∧
        Closes stack (.object (lastValues (setBack ps v ++ ms))) rest' whole

/-- A value can be read at `current`, and what follows closes the stack. -/
def MeansValue (current : Chars) (stack : List StackEntry) (whole : Value) : Prop :=
  ∃ w cs rest v, current = w ++ (cs ++ rest) ∧ IsWhitespace w ∧ IsValue cs v ∧
    Closes stack v rest whole

/-- The elements of an array can be read at `current`, behind those in `es`. -/
def MeansElements (es : List Value) (current : Chars) (stack : List StackEntry)
    (whole : Value) : Prop :=
  ∃ cs vs rest, current = cs ++ rightSquareBracket :: rest ∧ IsElements cs vs ∧
    Closes stack (.array (es ++ vs)) rest whole

/-- The members of an object can be read at `current`, behind those in `ps`. -/
def MeansMembers (ps : List IdValuePair) (current : Chars) (stack : List StackEntry)
    (whole : Value) : Prop :=
  ∃ cs ms rest, current = cs ++ rightCurlyBracket :: rest ∧ IsMembers cs ms ∧
    Closes stack (.object (lastValues (ps ++ ms))) rest whole

/-- What follows the token at `JSONValueSwitch` completes a value. -/
def MeansSwitch (t : Token) (current : Chars) (stack : List StackEntry) (whole : Value) : Prop :=
  match t with
  | .string s => Closes stack (.string s) current whole
  | .number d => Closes stack (.number d) current whole
  | .true => Closes stack (.boolean true) current whole
  | .false => Closes stack (.boolean false) current whole
  | .null => Closes stack .null current whole
  | .arrayOpen =>
    (∃ w rest, current = w ++ rightSquareBracket :: rest ∧ IsWhitespace w ∧
      Closes stack (.array []) rest whole) ∨ MeansElements [] current stack whole
  | .objectOpen =>
    (∃ w rest, current = w ++ rightCurlyBracket :: rest ∧ IsWhitespace w ∧
      Closes stack (.object (lastValues [])) rest whole) ∨ MeansMembers [] current stack whole
  | _ => False

/-- What follows the token at `JSONMember` completes a member. -/
def MeansMember (t : Token) (current : Chars) (stack : List StackEntry) (whole : Value) : Prop :=
  match t, stack with
  | .string name, .properties ps :: stack =>
    ∃ w rest, current = w ++ colon :: rest ∧ IsWhitespace w ∧
      MeansValue rest (.properties (ps ++ [(name, .undefined)]) :: stack) whole
  | _, _ => False

/-- What a state can still parse. -/
def Means (m : Machine) (whole : Value) : Prop :=
  match m.label with
  | .finish => Closes m.stack m.value m.current whole
  | .value => MeansValue m.current m.stack whole
  | .valueSwitch t => MeansSwitch t m.current m.stack whole
  | .member t => MeansMember t m.current m.stack whole

/-! ## Objects -/

/-- Setting the value of the member that was appended last. -/
@[simp] theorem setBack_concat (ps : List IdValuePair) (name : Chars) (v v' : Value) :
    setBack (ps ++ [(name, v)]) v' = ps ++ [(name, v')] := by
  simp [setBack]

/-- Defining the properties one after the other leaves the last value of each name. -/
theorem createFinishedObject_eq (ps : List IdValuePair) :
    createFinishedObject ps = lastValues ps := by
  induction ps using List.reverseRecOn with
  | nil => rfl
  | append_singleton ps p ih =>
    funext name
    have hstep : createFinishedObject (ps ++ [p]) =
        Function.update (createFinishedObject ps) p.1 (some p.2) := by
      simp only [createFinishedObject, List.foldl_append, List.foldl_cons, List.foldl_nil]
    rw [hstep, ih]
    by_cases hname : name = p.1
    · subst hname
      simp [lastValues, List.lookup]
    · have hne : (name == p.1) = false := by simpa using hname
      simp [lastValues, List.lookup, Function.update_of_ne hname, hne]

/-! ## Arrays and objects against the stack -/

/-- What follows a value cannot continue a number. -/
theorem Closes.endsNumber {stack : List StackEntry} {v whole : Value} {rest : Chars}
    (h : Closes stack v rest whole) : EndsNumber rest := by
  -- The units left begin with whitespace or a punctuator.
  have hbegin {w : Chars} {c : UInt16} {tail : Chars} (hw : IsWhitespace w)
      (hc : isDec c = false ∧ c ≠ fullStop ∧ c ≠ 0x65 ∧ c ≠ 0x45) :
      EndsNumber (w ++ c :: tail) := by
    rcases w with _ | ⟨d, w⟩
    · intro e he
      obtain rfl := Option.some.inj he
      exact hc
    · intro e he
      obtain rfl := Option.some.inj he
      rcases hw d (by simp) with rfl | rfl | rfl | rfl <;> decide
  match stack with
  | [] =>
    obtain ⟨hw, -⟩ := h
    rcases rest with _ | ⟨c, rest⟩
    · intro e he
      exact absurd he (by simp)
    · exact hbegin (w := []) (by simp [IsWhitespace]) (by
        rcases hw c (by simp) with rfl | rfl | rfl | rfl <;> decide)
  | .elements es :: stack =>
    rcases h with ⟨w, tail, rfl, hw, -⟩ | ⟨w, tail, rfl, hw, -⟩
    · exact hbegin hw (by decide)
    · exact hbegin hw (by decide)
  | .properties ps :: stack =>
    rcases h with ⟨w, tail, rfl, hw, -⟩ | ⟨w, tail, rfl, hw, -⟩
    · exact hbegin hw (by decide)
    · exact hbegin hw (by decide)

/-- Reading elements is reading a value with the array on the stack. -/
theorem meansElements_iff (es : List Value) (current : Chars) (stack : List StackEntry)
    (whole : Value) :
    MeansElements es current stack whole ↔ MeansValue current (.elements es :: stack) whole := by
  constructor
  · rintro ⟨text, vs, rest, rfl, helements, hcloses⟩
    cases helements with
    | @last w cs w' v hw hv hw' =>
      exact ⟨w, cs, w' ++ rightSquareBracket :: rest, v, by simp, hw, hv,
        .inl ⟨w', rest, rfl, hw', hcloses⟩⟩
    | @more w cs w' cs' v vs hw hv hw' hvs =>
      exact ⟨w, cs, w' ++ comma :: (cs' ++ rightSquareBracket :: rest), v, by simp, hw, hv,
        .inr ⟨w', _, rfl, hw', cs', vs, rest, rfl, hvs, by simpa using hcloses⟩⟩
  · rintro ⟨w, cs, rest, v, rfl, hw, hv, ⟨w', tail, rfl, hw', hcloses⟩ |
      ⟨w', -, rfl, hw', cs', vs, tail, rfl, hvs, hcloses⟩⟩
    · exact ⟨_, _, tail, by simp, .last hw hv hw', hcloses⟩
    · exact ⟨_, _, tail, by simp, .more hw hv hw' hvs, by simpa using hcloses⟩

/-- Reading members is reading a name, a colon and a value with the object on the stack. -/
theorem meansMembers_iff (ps : List IdValuePair) (current : Chars) (stack : List StackEntry)
    (whole : Value) :
    MeansMembers ps current stack whole ↔
      ∃ w name s rest, current = w ++ (name ++ rest) ∧ IsWhitespace w ∧ IsString name s ∧
        MeansMember (.string s) rest (.properties ps :: stack) whole := by
  constructor
  · rintro ⟨text, ms, rest, rfl, hmembers, hcloses⟩
    cases hmembers with
    | @last w name w₁ w₂ cs w' s v hw hname hw₁ hw₂ hv hw' =>
      refine ⟨w, name, s, w₁ ++ colon :: (w₂ ++ (cs ++ (w' ++ rightCurlyBracket :: rest))),
        by simp, hw, hname, w₁, _, rfl, hw₁, w₂, cs, _, v, rfl, hw₂, hv, ?_⟩
      exact .inl ⟨w', rest, rfl, hw', by simpa using hcloses⟩
    | @more w name w₁ w₂ cs w' cs' s v ms hw hname hw₁ hw₂ hv hw' hms =>
      refine ⟨w, name, s,
        w₁ ++ colon :: (w₂ ++ (cs ++ (w' ++ comma :: (cs' ++ rightCurlyBracket :: rest)))),
        by simp, hw, hname, w₁, _, rfl, hw₁, w₂, cs, _, v, rfl, hw₂, hv, ?_⟩
      exact .inr ⟨w', _, rfl, hw', cs', ms, rest, rfl, hms, by simpa using hcloses⟩
  · rintro ⟨w, name, s, rest, rfl, hw, hname, w₁, rest, rfl, hw₁, w₂, cs, rest, v, rfl, hw₂, hv,
      ⟨w', tail, rfl, hw', hcloses⟩ | ⟨w', -, rfl, hw', cs', ms, tail, rfl, hms, hcloses⟩⟩
    · exact ⟨_, _, tail, by simp, .last hw hname hw₁ hw₂ hv hw', by simpa using hcloses⟩
    · exact ⟨_, _, tail, by simp, .more hw hname hw₁ hw₂ hv hw' hms, by simpa using hcloses⟩

/-! ## One token where a value may stand -/

/-- Reading a token keeps what can be parsed. -/
theorem meansValue_iff_meansSwitch {conversions : Conversions} (hconv : conversions.Correct)
    {current rest : Chars} {t : Token} (h : advance conversions current = some (t, rest))
    (stack : List StackEntry) (whole : Value) :
    MeansValue current stack whole ↔ MeansSwitch t rest stack whole := by
  constructor
  · rintro ⟨w, cs, tail, v, rfl, hw, hv, hcloses⟩
    -- The token in front decides what `advance` has read.
    have hread {t' : Token} {text after : Chars} (hsplit : cs ++ tail = text ++ after)
        (hspells : Spells t' text) (hend : ∀ d, t' = .number d → EndsNumber after) :
        t' = t ∧ after = rest := by
      have hadvance := advance_of_spells hconv hw hspells hend
      rw [← hsplit, h] at hadvance
      simpa [eq_comm] using hadvance
    cases hv with
    | null =>
      obtain ⟨rfl, rfl⟩ := hread rfl .null (by simp)
      exact hcloses
    | true =>
      obtain ⟨rfl, rfl⟩ := hread rfl .true (by simp)
      exact hcloses
    | false =>
      obtain ⟨rfl, rfl⟩ := hread rfl .false (by simp)
      exact hcloses
    | number hnumber =>
      obtain ⟨rfl, rfl⟩ := hread rfl (.number hnumber) fun _ _ => hcloses.endsNumber
      exact hcloses
    | string hstring =>
      obtain ⟨rfl, rfl⟩ := hread rfl (.string hstring) (by simp)
      exact hcloses
    | @emptyArray w' hw' =>
      obtain ⟨rfl, rfl⟩ := @hread _ [leftSquareBracket] _ rfl
        (.punctuator (t := .arrayOpen) (by simp [punctuators])) (by simp)
      exact .inl ⟨w', tail, by simp, hw', hcloses⟩
    | @array cs vs hvs =>
      obtain ⟨rfl, rfl⟩ := @hread _ [leftSquareBracket] _ rfl
        (.punctuator (t := .arrayOpen) (by simp [punctuators])) (by simp)
      exact .inr ⟨cs, vs, tail, by simp, hvs, hcloses⟩
    | @emptyObject w' hw' =>
      obtain ⟨rfl, rfl⟩ := @hread _ [leftCurlyBracket] _ rfl
        (.punctuator (t := .objectOpen) (by simp [punctuators])) (by simp)
      exact .inl ⟨w', tail, by simp, hw', hcloses⟩
    | @object cs ms hms =>
      obtain ⟨rfl, rfl⟩ := @hread _ [leftCurlyBracket] _ rfl
        (.punctuator (t := .objectOpen) (by simp [punctuators])) (by simp)
      exact .inr ⟨cs, ms, tail, by simp, hms, hcloses⟩
  · intro hmeans
    rcases advance_cases hconv current with
      ⟨w, cs, t', rest', rfl, hw, hcs, hread⟩ | ⟨message, rest', hread⟩
    · rw [h] at hread
      obtain ⟨rfl, rfl⟩ : t = t' ∧ rest = rest' := by simpa using hread
      cases hcs with
      | string hstring => exact ⟨w, cs, rest, _, rfl, hw, .string hstring, hmeans⟩
      | number hnumber => exact ⟨w, cs, rest, _, rfl, hw, .number hnumber, hmeans⟩
      | true => exact ⟨w, _, rest, _, rfl, hw, .true, hmeans⟩
      | false => exact ⟨w, _, rest, _, rfl, hw, .false, hmeans⟩
      | null => exact ⟨w, _, rest, _, rfl, hw, .null, hmeans⟩
      | punctuator hmem =>
        simp only [punctuators, List.mem_cons, Prod.mk.injEq, List.not_mem_nil, or_false] at hmem
        rcases hmem with ⟨rfl, rfl⟩ | ⟨rfl, rfl⟩ | ⟨rfl, rfl⟩ | ⟨rfl, rfl⟩ | ⟨rfl, rfl⟩ | ⟨rfl, rfl⟩
        · rcases hmeans with ⟨w', tail, rfl, hw', hcloses⟩ | ⟨cs, vs, tail, rfl, hvs, hcloses⟩
          · exact ⟨w, _, tail, _, by simp, hw, .emptyArray hw', hcloses⟩
          · exact ⟨w, _, tail, _, by simp, hw, .array hvs, hcloses⟩
        · exact hmeans.elim
        · rcases hmeans with ⟨w', tail, rfl, hw', hcloses⟩ | ⟨cs, ms, tail, rfl, hms, hcloses⟩
          · exact ⟨w, _, tail, _, by simp, hw, .emptyObject hw', hcloses⟩
          · exact ⟨w, _, tail, _, by simp, hw, .object hms, hcloses⟩
        · exact hmeans.elim
        · exact hmeans.elim
        · exact hmeans.elim
    · rw [h] at hread
      obtain ⟨rfl, rfl⟩ : t = .error message ∧ rest = rest' := by simpa using hread
      exact hmeans.elim

/-- Behind `[` either the array ends at once or its first element is read. -/
theorem meansSwitch_arrayOpen_iff {conversions : Conversions} (hconv : conversions.Correct)
    {current rest : Chars} {t : Token} (h : advance conversions current = some (t, rest))
    (stack : List StackEntry) (whole : Value) :
    MeansSwitch .arrayOpen current stack whole ↔
      t = .arrayClose ∧ Closes stack (.array []) rest whole ∨
        MeansSwitch t rest (.elements [] :: stack) whole := by
  have hfirst : (∃ w rest, current = w ++ rightSquareBracket :: rest ∧ IsWhitespace w ∧
      Closes stack (.array []) rest whole) ↔
      t = .arrayClose ∧ Closes stack (.array []) rest whole := by
    constructor
    · rintro ⟨w, tail, rfl, hw, hcloses⟩
      have hadvance : advance conversions (w ++ ([rightSquareBracket] ++ tail)) =
          some (.arrayClose, tail) :=
        advance_of_spells hconv hw (.punctuator (by simp [punctuators])) (by simp)
      rw [List.singleton_append, h] at hadvance
      obtain ⟨rfl, rfl⟩ : t = .arrayClose ∧ rest = tail := by simpa using hadvance
      exact ⟨rfl, hcloses⟩
    · rintro ⟨rfl, hcloses⟩
      rcases advance_cases hconv current with
        ⟨w, cs, t', rest', rfl, hw, hcs, hread⟩ | ⟨message, rest', hread⟩
      · rw [h] at hread
        obtain ⟨rfl, rfl⟩ : .arrayClose = t' ∧ rest = rest' := by simpa using hread
        cases hcs with
        | @punctuator c _ hmem =>
          obtain rfl : c = rightSquareBracket := by simpa [punctuators] using hmem
          exact ⟨w, rest, rfl, hw, hcloses⟩
      · rw [h] at hread
        simp at hread
  have hsecond := (meansElements_iff [] current stack whole).trans
    (meansValue_iff_meansSwitch hconv h (.elements [] :: stack) whole)
  exact or_congr hfirst hsecond

/-! ## One token where only some may stand -/

section Expecting

variable {names : Bool} {expected : List (UInt16 × Token)} {endMessage otherMessage : String}
  {current rest : Chars} {t : Token}

/-- The token read is an expected punctuator exactly when it stands there. -/
theorem expecting_punctuator_iff (hexpected : expected ⊆ punctuators)
    (h : advanceExpecting names expected endMessage otherMessage current = some (t, rest))
    {c : UInt16} {t' : Token} (hlookup : expected.lookup c = some t')
    (hunique : ∀ c', (c', t') ∈ expected → c' = c) (P : Chars → Prop) :
    (∃ w rest, current = w ++ c :: rest ∧ IsWhitespace w ∧ P rest) ↔ t = t' ∧ P rest := by
  constructor
  · rintro ⟨w, tail, rfl, hw, hP⟩
    rw [advanceExpecting_of_lookup names endMessage otherMessage hexpected hw hlookup] at h
    obtain ⟨rfl, rfl⟩ : t' = t ∧ tail = rest := by simpa using h
    exact ⟨rfl, hP⟩
  · rintro ⟨rfl, hP⟩
    have hpunctuator := hexpected (mem_of_lookup hlookup)
    rcases advanceExpecting_cases names expected endMessage otherMessage current with
      ⟨-, w, cs, s, rest', -, -, -, hread⟩ | ⟨w, c', t', rest', rfl, hw, hmem, hread⟩ |
        ⟨message, rest', hread⟩
    · rw [h] at hread
      obtain ⟨rfl, -⟩ : t = .string s ∧ rest = rest' := by simpa using hread
      simp [punctuators] at hpunctuator
    · rw [h] at hread
      obtain ⟨rfl, rfl⟩ : t = t' ∧ rest = rest' := by simpa using hread
      exact ⟨w, rest, by rw [hunique c' hmem], hw, hP⟩
    · rw [h] at hread
      obtain ⟨rfl, -⟩ : t = .error message ∧ rest = rest' := by simpa using hread
      simp [punctuators] at hpunctuator

/-- Where a property name may stand, the members are read from their first name on. -/
theorem meansMembers_iff_meansMember (hexpected : expected ⊆ punctuators)
    (h : advanceExpecting true expected endMessage otherMessage current = some (t, rest))
    (ps : List IdValuePair) (stack : List StackEntry) (whole : Value) :
    MeansMembers ps current stack whole ↔
      MeansMember t rest (.properties ps :: stack) whole := by
  rw [meansMembers_iff]
  constructor
  · rintro ⟨w, name, s, tail, rfl, hw, hname, hmember⟩
    rw [advanceExpecting_of_isString expected endMessage otherMessage tail hw hname] at h
    obtain ⟨rfl, rfl⟩ : .string s = t ∧ tail = rest := by simpa using h
    exact hmember
  · intro hmember
    rcases advanceExpecting_cases true expected endMessage otherMessage current with
      ⟨-, w, cs, s, rest', rfl, hw, hcs, hread⟩ | ⟨w, c, t', rest', -, -, hmem, hread⟩ |
        ⟨message, rest', hread⟩
    · rw [h] at hread
      obtain ⟨rfl, rfl⟩ : t = .string s ∧ rest = rest' := by simpa using hread
      exact ⟨w, cs, s, rest, rfl, hw, hcs, hmember⟩
    · rw [h] at hread
      obtain ⟨rfl, -⟩ : t = t' ∧ rest = rest' := by simpa using hread
      have hpunctuator := hexpected hmem
      simp only [punctuators, List.mem_cons, Prod.mk.injEq, List.not_mem_nil, or_false]
        at hpunctuator
      rcases hpunctuator with
        ⟨-, rfl⟩ | ⟨-, rfl⟩ | ⟨-, rfl⟩ | ⟨-, rfl⟩ | ⟨-, rfl⟩ | ⟨-, rfl⟩ <;> exact hmember.elim
    · rw [h] at hread
      obtain ⟨rfl, -⟩ : t = .error message ∧ rest = rest' := by simpa using hread
      exact hmember.elim

end Expecting

/-- Behind `{` either the object ends at once or its first name is read. -/
theorem meansSwitch_objectOpen_iff {current rest : Chars} {t : Token}
    (h : advanceAfterObjectOpen current = some (t, rest)) (stack : List StackEntry)
    (whole : Value) :
    MeansSwitch .objectOpen current stack whole ↔
      t = .objectClose ∧ Closes stack (.object (lastValues [])) rest whole ∨
        MeansMember t rest (.properties [] :: stack) whole := by
  have hexpected : [(rightCurlyBracket, Token.objectClose)] ⊆ punctuators := by
    simp [punctuators]
  exact or_congr
    (expecting_punctuator_iff hexpected h rfl (by simp)
      fun rest => Closes stack (.object (lastValues [])) rest whole)
    (meansMembers_iff_meansMember hexpected h [] stack whole)

/-- Behind a property name a colon and a value are read. -/
theorem meansMember_iff {current rest : Chars} {t : Token}
    (h : advancePropertyColon current = some (t, rest)) (name : Chars) (ps : List IdValuePair)
    (stack : List StackEntry) (whole : Value) :
    MeansMember (.string name) current (.properties ps :: stack) whole ↔
      t = .colon ∧ MeansValue rest (.properties (ps ++ [(name, .undefined)]) :: stack) whole := by
  have hexpected : [(colon, Token.colon)] ⊆ punctuators := by
    simp [punctuators]
  have hlookup : [(colon, Token.colon)].lookup colon = some .colon := rfl
  exact expecting_punctuator_iff hexpected h hlookup (by simp)
    fun rest => MeansValue rest (.properties (ps ++ [(name, .undefined)]) :: stack) whole

/-- Behind an element the array ends or the next element is read. -/
theorem closes_elements_iff {current rest : Chars} {t : Token}
    (h : advanceAfterArrayElement current = some (t, rest)) (es : List Value)
    (stack : List StackEntry) (v whole : Value) :
    Closes (.elements es :: stack) v current whole ↔
      t = .arrayClose ∧ Closes stack (.array (es ++ [v])) rest whole ∨
        t = .comma ∧ MeansValue rest (.elements (es ++ [v]) :: stack) whole := by
  have hexpected :
      [(comma, Token.comma), (rightSquareBracket, Token.arrayClose)] ⊆ punctuators := by
    simp [punctuators]
  rw [← meansElements_iff]
  exact or_congr
    (expecting_punctuator_iff hexpected h rfl (by simp)
      fun rest => Closes stack (.array (es ++ [v])) rest whole)
    (expecting_punctuator_iff hexpected h rfl (by simp)
      fun rest => MeansElements (es ++ [v]) rest stack whole)

/-- Behind a member the object ends or the next member is read. -/
theorem closes_properties_iff {current rest : Chars} {t : Token}
    (h : advanceAfterProperty current = some (t, rest)) (ps : List IdValuePair)
    (stack : List StackEntry) (v whole : Value) :
    Closes (.properties ps :: stack) v current whole ↔
      t = .objectClose ∧ Closes stack (.object (lastValues (setBack ps v))) rest whole ∨
        t = .comma ∧ MeansMembers (setBack ps v) rest stack whole := by
  have hexpected :
      [(comma, Token.comma), (rightCurlyBracket, Token.objectClose)] ⊆ punctuators := by
    simp [punctuators]
  exact or_congr
    (expecting_punctuator_iff hexpected h rfl (by simp)
      fun rest => Closes stack (.object (lastValues (setBack ps v))) rest whole)
    (expecting_punctuator_iff hexpected h rfl (by simp)
      fun rest => MeansMembers (setBack ps v) rest stack whole)

end SpiderMonkey.Json
