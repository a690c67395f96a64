import SpiderMonkey.Json.ParserMeaning

/-!
# The parser accepts exactly the texts of the grammar

One step keeps what a state can still parse and comes closer to the end, so every parse ends, and
it returns a value exactly when the text denotes it.
-/

namespace SpiderMonkey.Json

/-- Every object in progress has a member whose value is being read. -/
def Stacked (stack : List StackEntry) : Prop := ∀ entry ∈ stack, entry ≠ .properties []

/-- At `JSONMember` the top of the stack is an object, and every other object in progress has a
member. -/
def WellFormed (m : Machine) : Prop :=
  match m.label with
  | .member _ => ∃ ps stack, m.stack = .properties ps :: stack ∧ Stacked stack
  | _ => Stacked m.stack

/-- A bound on the number of steps that are left. -/
def potential (m : Machine) : ℕ :=
  match m.label with
  | .valueSwitch (.error _) => 0
  | .member (.error _) => 0
  | .finish => 4 * m.current.length + 1
  | .member _ => 4 * m.current.length + 2
  | .valueSwitch _ => 4 * m.current.length + 3
  | .value => 4 * m.current.length + 4

/-- What a step has to establish: the meaning is kept, and a parse that ends returns exactly what
the state meant. -/
def StepSound (m : Machine) : Except Outcome Machine → Prop
  | .ok m' => WellFormed m' ∧ potential m' < potential m ∧ ∀ whole, Means m whole ↔ Means m' whole
  | .error outcome => outcome ≠ .fault ∧ ∀ whole, Means m whole ↔ outcome = .returned whole

/-! ## Every token consumes units -/

/-- The text of a token is not empty. -/
theorem Spells.ne_nil {t : Token} {cs : Chars} (h : Spells t cs) : cs ≠ [] := by
  cases h with
  | string h =>
    obtain ⟨h⟩ := h
    simp
  | number h =>
    obtain ⟨c, next, rfl, -⟩ := h.exists_head
    simp
  | true | false | null => simp [trueLiteral, falseLiteral, nullLiteral]
  | punctuator h => simp

/-- `advance` returns an error or consumes a token. -/
theorem exists_advance {conversions : Conversions} (hconv : conversions.Correct)
    (current : Chars) : ∃ t rest, advance conversions current = some (t, rest) ∧
      ((∃ message, t = .error message) ∨ rest.length < current.length) := by
  rcases advance_cases hconv current with
    ⟨w, cs, t, rest, rfl, -, hcs, hread⟩ | ⟨message, rest, hread⟩
  · have hpos := List.length_pos_of_ne_nil hcs.ne_nil
    refine ⟨t, rest, hread, .inr ?_⟩
    simp only [List.length_append]
    omega
  · exact ⟨_, rest, hread, .inl ⟨message, rfl⟩⟩

/-- `advanceExpecting` returns an error or consumes a token. -/
theorem exists_advanceExpecting (names : Bool) (expected : List (UInt16 × Token))
    (endMessage otherMessage : String) (current : Chars) :
    ∃ t rest, advanceExpecting names expected endMessage otherMessage current = some (t, rest) ∧
      ((∃ message, t = .error message) ∨ rest.length < current.length) := by
  rcases advanceExpecting_cases names expected endMessage otherMessage current with
    ⟨-, w, cs, s, rest, rfl, -, hcs, hread⟩ | ⟨w, c, t, rest, rfl, -, -, hread⟩ |
      ⟨message, rest, hread⟩
  · have hpos := List.length_pos_of_ne_nil (Spells.string hcs).ne_nil
    refine ⟨_, rest, hread, .inr ?_⟩
    simp only [List.length_append]
    omega
  · refine ⟨t, rest, hread, .inr ?_⟩
    simp only [List.length_append, List.length_cons]
    omega
  · exact ⟨_, rest, hread, .inl ⟨message, rfl⟩⟩

/-! ## The steps -/

/-- A failure is right where nothing can be parsed. -/
theorem StepSound.failed {m : Machine} (h : ∀ whole, ¬ Means m whole)
    (report : Option (String × ℕ)) : StepSound m (.error (.failed report)) :=
  ⟨by simp, fun whole => by simp [h whole]⟩

/-- `errorReturn` fails. -/
theorem StepSound.errorReturn {m : Machine} (h : ∀ whole, ¬ Means m whole) (t : Token)
    (current : Chars) : StepSound m (.error (errorReturn t current)) := by
  cases t <;> exact .failed h _

/-- `errorReturn` behind a report fails. -/
theorem StepSound.errorReturnWith {m : Machine} (h : ∀ whole, ¬ Means m whole)
    (message : String) (t : Token) (current : Chars) :
    StepSound m (.error (errorReturnWith message t current)) := by
  cases t <;> exact .failed h _

/-- The potential at `JSONValueSwitch` once a token is consumed. -/
theorem potential_valueSwitch_le {t : Token} {rest current : Chars} (value : Value)
    (stack : List StackEntry)
    (h : (∃ message, t = .error message) ∨ rest.length < current.length) :
    potential ⟨.valueSwitch t, value, rest, stack⟩ < 4 * current.length + 3 := by
  rcases h with ⟨message, rfl⟩ | h
  · simp [potential]
  · cases t <;> simp only [potential] <;> omega

/-- The potential at `JSONMember` once a token is consumed. -/
theorem potential_member_le {t : Token} {rest current : Chars} (value : Value)
    (stack : List StackEntry)
    (h : (∃ message, t = .error message) ∨ rest.length < current.length) :
    potential ⟨.member t, value, rest, stack⟩ < 4 * current.length + 2 := by
  rcases h with ⟨message, rfl⟩ | h
  · simp [potential]
  · cases t <;> simp only [potential] <;> omega

/-- The step from `JSONValue`. -/
theorem stepSound_value {conversions : Conversions} (hconv : conversions.Correct)
    (value : Value) (current : Chars) {stack : List StackEntry} (hstack : Stacked stack) :
    StepSound ⟨.value, value, current, stack⟩
      (step conversions ⟨.value, value, current, stack⟩) := by
  obtain ⟨t, rest, hread, hlength⟩ := exists_advance hconv current
  simp only [step, hread]
  refine ⟨hstack, ?_, meansValue_iff_meansSwitch hconv hread stack⟩
  have := potential_valueSwitch_le value stack hlength
  simp only [potential] at this ⊢
  omega

/-- The step from `JSONValueSwitch` at `[`. -/
theorem stepSound_arrayOpen {conversions : Conversions} (hconv : conversions.Correct)
    (value : Value) (current : Chars) {stack : List StackEntry} (hstack : Stacked stack) :
    StepSound ⟨.valueSwitch .arrayOpen, value, current, stack⟩
      (stepValueSwitch conversions .arrayOpen ⟨.valueSwitch .arrayOpen, value, current, stack⟩) := by
  obtain ⟨t, rest, hread, hlength⟩ := exists_advance hconv current
  have hmeans := meansSwitch_arrayOpen_iff hconv hread stack
  simp only [stepValueSwitch, hread]
  split
  · next heq => simp at heq
  · next rest' heq =>
    obtain ⟨rfl, rfl⟩ : t = .arrayClose ∧ rest = rest' := by simpa using heq
    refine ⟨hstack, ?_, fun whole => (hmeans whole).trans (by simp [Means, MeansSwitch, finishArray])⟩
    have hlt : rest.length < current.length := by simpa using hlength
    simp only [potential]
    omega
  · next t' rest' hne heq =>
    obtain ⟨rfl, rfl⟩ : t = t' ∧ rest = rest' := by simpa using heq
    have hclose : t ≠ .arrayClose := by
      rintro rfl
      exact hne rfl
    refine ⟨?_, potential_valueSwitch_le value _ hlength,
      fun whole => (hmeans whole).trans (by simp [Means, hclose])⟩
    intro entry hentry
    rcases List.mem_cons.mp hentry with rfl | hentry
    · simp
    · exact hstack entry hentry

/-- The step from `JSONValueSwitch` at `{`. -/
theorem stepSound_objectOpen (conversions : Conversions) (value : Value) (current : Chars)
    {stack : List StackEntry} (hstack : Stacked stack) :
    StepSound ⟨.valueSwitch .objectOpen, value, current, stack⟩
      (stepValueSwitch conversions .objectOpen
        ⟨.valueSwitch .objectOpen, value, current, stack⟩) := by
  obtain ⟨t, rest, hread, hlength⟩ := exists_advanceExpecting true
    [(rightCurlyBracket, .objectClose)] "end of data while reading object contents"
    "expected property name or '\x7d'" current
  have hmeans := meansSwitch_objectOpen_iff hread stack
  simp only [stepValueSwitch, show advanceAfterObjectOpen current = _ from hread]
  split
  · next heq => simp at heq
  · next rest' heq =>
    obtain ⟨rfl, rfl⟩ : t = .objectClose ∧ rest = rest' := by simpa using heq
    refine ⟨hstack, ?_, fun whole => (hmeans whole).trans ?_⟩
    · have hlt : rest.length < current.length := by simpa using hlength
      simp only [potential]
      omega
    · simp [Means, MeansMember, finishObject, createFinishedObject_eq]
  · next t' rest' hne heq =>
    obtain ⟨rfl, rfl⟩ : t = t' ∧ rest = rest' := by simpa using heq
    have hclose : t ≠ .objectClose := by
      rintro rfl
      exact hne rfl
    have hlt := potential_member_le value (.properties [] :: stack) hlength
    refine ⟨⟨[], stack, rfl, hstack⟩, ?_,
      fun whole => (hmeans whole).trans (by simp [Means, hclose])⟩
    simp only [potential] at hlt ⊢
    omega

/-- The step from `JSONValueSwitch`. -/
theorem stepSound_valueSwitch {conversions : Conversions} (hconv : conversions.Correct)
    (t : Token) (value : Value) (current : Chars) {stack : List StackEntry}
    (hstack : Stacked stack) :
    StepSound ⟨.valueSwitch t, value, current, stack⟩
      (step conversions ⟨.valueSwitch t, value, current, stack⟩) := by
  have hscalar (h : potential ⟨.valueSwitch t, value, current, stack⟩ =
      4 * current.length + 3) : 4 * current.length + 1 <
      potential ⟨.valueSwitch t, value, current, stack⟩ := by omega
  cases t with
  | string s => exact ⟨hstack, hscalar rfl, fun whole => Iff.rfl⟩
  | number d => exact ⟨hstack, hscalar rfl, fun whole => Iff.rfl⟩
  | true => exact ⟨hstack, hscalar rfl, fun whole => Iff.rfl⟩
  | false => exact ⟨hstack, hscalar rfl, fun whole => Iff.rfl⟩
  | null => exact ⟨hstack, hscalar rfl, fun whole => Iff.rfl⟩
  | arrayOpen => exact stepSound_arrayOpen hconv value current hstack
  | objectOpen => exact stepSound_objectOpen conversions value current hstack
  | arrayClose | objectClose | colon | comma =>
    apply StepSound.failed
    exact fun whole h => h
  | error message =>
    apply StepSound.errorReturn
    exact fun whole h => h

/-- The step from `JSONMember`. -/
theorem stepSound_member (conversions : Conversions) (t : Token) (value : Value)
    (current : Chars) (ps : List IdValuePair) {stack : List StackEntry}
    (hstack : Stacked stack) :
    StepSound ⟨.member t, value, current, .properties ps :: stack⟩
      (step conversions ⟨.member t, value, current, .properties ps :: stack⟩) := by
  cases t with
  | string name =>
    obtain ⟨t, rest, hread, hlength⟩ := exists_advanceExpecting false [(colon, .colon)]
      "end of data after property name when ':' was expected"
      "expected ':' after property name in object" current
    have hmeans := meansMember_iff hread name ps stack
    simp only [step, stepMember, show advancePropertyColon current = _ from hread]
    split
    · next heq => simp at heq
    · next rest' heq =>
      obtain ⟨rfl, rfl⟩ : t = .colon ∧ rest = rest' := by simpa using heq
      refine ⟨?_, ?_, fun whole => (hmeans whole).trans (by simp [Means])⟩
      · intro entry hentry
        rcases List.mem_cons.mp hentry with rfl | hentry
        · simp
        · exact hstack entry hentry
      · have hlt : rest.length < current.length := by simpa using hlength
        simp only [potential]
        omega
    · next t' rest' hne heq =>
      obtain ⟨rfl, rfl⟩ : t = t' ∧ rest = rest' := by simpa using heq
      have hcolon : t ≠ .colon := by
        rintro rfl
        exact hne rfl
      apply StepSound.errorReturn
      exact fun whole h => hcolon ((hmeans whole).mp h).1
  | _ =>
    apply StepSound.errorReturnWith
    exact fun whole h => h

/-- The step from `FinishArrayElement`. -/
theorem stepSound_elements (conversions : Conversions) (value : Value) (current : Chars)
    (es : List Value) {stack : List StackEntry} (hstack : Stacked stack) :
    StepSound ⟨.finish, value, current, .elements es :: stack⟩
      (step conversions ⟨.finish, value, current, .elements es :: stack⟩) := by
  obtain ⟨t, rest, hread, hlength⟩ := exists_advanceExpecting false
    [(comma, .comma), (rightSquareBracket, .arrayClose)]
    "end of data when ',' or ']' was expected" "expected ',' or ']' after array element" current
  have hmeans := closes_elements_iff hread es stack value
  simp only [step, stepFinishArrayElement,
    show advanceAfterArrayElement current = _ from hread]
  split
  · next heq => simp at heq
  · next rest' heq =>
    obtain ⟨rfl, rfl⟩ : t = .comma ∧ rest = rest' := by simpa using heq
    have hlt : rest.length < current.length := by simpa using hlength
    refine ⟨?_, ?_, fun whole => (hmeans whole).trans (by simp [Means])⟩
    · intro entry hentry
      rcases List.mem_cons.mp hentry with rfl | hentry
      · simp
      · exact hstack entry hentry
    · simp only [potential]
      omega
  · next rest' heq =>
    obtain ⟨rfl, rfl⟩ : t = .arrayClose ∧ rest = rest' := by simpa using heq
    have hlt : rest.length < current.length := by simpa using hlength
    refine ⟨hstack, ?_, fun whole => (hmeans whole).trans (by simp [Means, finishArray])⟩
    simp only [potential]
    omega
  · next t' rest' hcomma hclose heq =>
    obtain ⟨rfl, rfl⟩ : t = t' ∧ rest = rest' := by simpa using heq
    apply StepSound.errorReturn
    intro whole h
    rcases (hmeans whole).mp h with ⟨rfl, -⟩ | ⟨rfl, -⟩
    · exact hclose rfl
    · exact hcomma rfl

/-- The step from `FinishObjectMember`. -/
theorem stepSound_properties (conversions : Conversions) (value : Value) (current : Chars)
    {ps : List IdValuePair} (hps : ps ≠ []) {stack : List StackEntry} (hstack : Stacked stack) :
    StepSound ⟨.finish, value, current, .properties ps :: stack⟩
      (step conversions ⟨.finish, value, current, .properties ps :: stack⟩) := by
  obtain ⟨t, rest, hread, hlength⟩ := exists_advanceExpecting false
    [(comma, .comma), (rightCurlyBracket, .objectClose)]
    "end of data after property value in object"
    "expected ',' or '\x7d' after property value in object" current
  have hmeans := closes_properties_iff hread ps stack value
  simp only [step, stepFinishObjectMember, hps, ↓reduceIte,
    show advanceAfterProperty current = _ from hread]
  split
  · next heq => simp at heq
  · next rest' heq =>
    obtain ⟨rfl, rfl⟩ : t = .objectClose ∧ rest = rest' := by simpa using heq
    have hlt : rest.length < current.length := by simpa using hlength
    refine ⟨hstack, ?_, fun whole => (hmeans whole).trans ?_⟩
    · simp only [potential]
      omega
    · simp [Means, finishObject, createFinishedObject_eq]
  · next rest' heq =>
    obtain ⟨rfl, rfl⟩ : t = .comma ∧ rest = rest' := by simpa using heq
    have hlt : rest.length < current.length := by simpa using hlength
    obtain ⟨t, rest', hname, hlength'⟩ := exists_advanceExpecting true []
      "end of data when property name was expected" "expected double-quoted property name" rest
    have hmember := meansMembers_iff_meansMember (by simp) hname (setBack ps value) stack
    simp only [show advancePropertyName rest = _ from hname]
    have hpotential := potential_member_le value
      (.properties (setBack ps value) :: stack) hlength'
    refine ⟨⟨setBack ps value, stack, rfl, hstack⟩, ?_, fun whole => (hmeans whole).trans ?_⟩
    · simp only [potential] at hpotential ⊢
      omega
    · simp [Means, ← hmember whole]
  · next t' rest' hclose hcomma heq =>
    obtain ⟨rfl, rfl⟩ : t = t' ∧ rest = rest' := by simpa using heq
    apply StepSound.errorReturnWith
    intro whole h
    rcases (hmeans whole).mp h with ⟨rfl, -⟩ | ⟨rfl, -⟩
    · exact hclose rfl
    · exact hcomma rfl

/-- The end of the text. -/
theorem stepSound_text (conversions : Conversions) (value : Value) (current : Chars) :
    StepSound ⟨.finish, value, current, []⟩
      (step conversions ⟨.finish, value, current, []⟩) := by
  obtain ⟨w, hw, hcurrent⟩ := exists_skipWhitespace current
  have hmeans (whole : Value) :
      Means ⟨.finish, value, current, []⟩ whole ↔ IsWhitespace current ∧ whole = value := Iff.rfl
  simp only [step, finishText]
  split
  · next hnil =>
    refine ⟨by simp, fun whole => (hmeans whole).trans ?_⟩
    rw [hnil, List.append_nil] at hcurrent
    subst hcurrent
    simp [hw, eq_comm]
  · next rest hne =>
    apply StepSound.failed
    intro whole h
    obtain ⟨hall, -⟩ := (hmeans whole).mp h
    have hskip : skipWhitespace (current ++ []) = [] := skipWhitespace_append hall (by simp)
    rw [List.append_nil] at hskip
    exact hne hskip

/-- Every step of a well-formed state is sound. -/
theorem stepSound {conversions : Conversions} (hconv : conversions.Correct) {m : Machine}
    (hm : WellFormed m) : StepSound m (step conversions m) := by
  obtain ⟨label, value, current, stack⟩ := m
  cases label with
  | value => exact stepSound_value hconv value current hm
  | valueSwitch t => exact stepSound_valueSwitch hconv t value current hm
  | member t =>
    obtain ⟨ps, stack, rfl, hstack⟩ := hm
    exact stepSound_member conversions t value current ps hstack
  | finish =>
    match stack, hm with
    | [], _ => exact stepSound_text conversions value current
    | .elements es :: stack, hm =>
      exact stepSound_elements conversions value current es
        fun entry hentry => hm entry (by simp [hentry])
    | .properties ps :: stack, hm =>
      have hps : ps ≠ [] := by
        rintro rfl
        exact hm (.properties []) (by simp) rfl
      exact stepSound_properties conversions value current hps
        fun entry hentry => hm entry (by simp [hentry])

/-! ## Whole parses -/

/-- A parse from a well-formed state ends, without a fault, and returns exactly what the state
means. -/
theorem run_sound {conversions : Conversions} (hconv : conversions.Correct) (fuel : ℕ)
    {m : Machine} (hm : WellFormed m) (hfuel : potential m < fuel) :
    ∃ outcome, run conversions fuel m = some outcome ∧ outcome ≠ .fault ∧
      ∀ whole, Means m whole ↔ outcome = .returned whole := by
  induction fuel generalizing m with
  | zero => exact absurd hfuel (Nat.not_lt_zero _)
  | succ fuel ih =>
    have hstep := stepSound hconv hm
    rw [run]
    cases hresult : step conversions m with
    | ok m' =>
      rw [hresult] at hstep
      obtain ⟨hm', hlt, hmeans⟩ := hstep
      obtain ⟨outcome, hrun, hfault, houtcome⟩ := ih hm' (by omega)
      exact ⟨outcome, hrun, hfault, fun whole => (hmeans whole).trans (houtcome whole)⟩
    | error outcome =>
      rw [hresult] at hstep
      exact ⟨outcome, rfl, hstep.1, hstep.2⟩

/-- The initial state means the value of the text. -/
theorem means_initial_iff (text : Chars) (whole : Value) :
    Means (initial text) whole ↔ IsText text whole := by
  constructor
  · rintro ⟨w, cs, w', v, rfl, hw, hv, hw', rfl⟩
    rw [← List.append_assoc]
    exact .mk hw hv hw'
  · rintro ⟨hw, hv, hw'⟩
    exact ⟨_, _, _, _, by rw [List.append_assoc]; rfl, hw, hv, hw', rfl⟩

/-- No text denotes `undefined`. -/
theorem IsText.ne_undefined {text : Chars} {v : Value} (h : IsText text v) : v ≠ .undefined := by
  obtain ⟨-, hv, -⟩ := h
  rintro rfl
  cases hv

/-- `parse` ends on every text within a number of steps that is linear in its length, reads no
unit past the end, and succeeds exactly when the text is a JSON text, with the value that the
text denotes. -/
theorem parse_accepts_exactly {conversions : Conversions} (hconv : conversions.Correct)
    (errorHandling : ErrorHandling) (text : Chars) (fuel : ℕ)
    (hfuel : 4 * text.length + 4 < fuel) :
    ∃ result, parse conversions errorHandling text fuel = some result ∧
      ∀ v, (result.returned = true ∧ result.value = v ∧ v ≠ .undefined) ↔ IsText text v := by
  have hinitial : WellFormed (initial text) := fun entry hentry => absurd hentry (by simp [initial])
  obtain ⟨outcome, hrun, hfault, hmeans⟩ := run_sound hconv fuel hinitial hfuel
  have htext (v : Value) : IsText text v ↔ outcome = .returned v :=
    (means_initial_iff text v).symm.trans (hmeans v)
  simp only [parse, hrun, Option.bind_some]
  cases outcome with
  | returned value =>
    refine ⟨_, rfl, fun v => ?_⟩
    constructor
    · rintro ⟨-, rfl, -⟩
      exact (htext _).mpr rfl
    · intro hv
      have heq : value = v := by simpa using (htext v).mp hv
      exact ⟨rfl, heq, hv.ne_undefined⟩
  | failed report =>
    have hnone (v : Value) : ¬ IsText text v := fun hv => by simpa using (htext v).mp hv
    cases errorHandling with
    | noError =>
      refine ⟨_, rfl, fun v => ⟨?_, fun hv => absurd hv (hnone v)⟩⟩
      rintro ⟨-, rfl, hne⟩
      exact absurd rfl hne
    | raiseError =>
      refine ⟨_, rfl, fun v => ⟨?_, fun hv => absurd hv (hnone v)⟩⟩
      rintro ⟨hreturned, -⟩
      exact absurd hreturned (by simp)
  | fault => exact absurd rfl hfault

/-! ## Exact conversions -/

/-- The fraction in front of an exponent, and the exponent. -/
def splitFraction : Chars → ℚ × Chars
  | [] => (0, [])
  | c :: cs =>
    if c = fullStop then
      (digitsValue (cs.takeWhile isDec) / 10 ^ (cs.takeWhile isDec).length, cs.dropWhile isDec)
    else (0, c :: cs)

/-- The value of an exponent part. -/
def exponentValue : Chars → ℤ
  | _ :: c :: ds =>
    if c = plusSign then digitsValue ds
    else if c = hyphenMinus then -digitsValue ds
    else digitsValue (c :: ds)
  | _ => 0

/-- The decimal a number without its sign writes. -/
def decimalValue (cs : Chars) : ℚ :=
  let (fraction, exponent) := splitFraction (cs.dropWhile isDec)
  (digitsValue (cs.takeWhile isDec) + fraction) * 10 ^ exponentValue exponent

/-- Conversions that round the exact decimal. -/
def exactConversions : Conversions where
  jsStrtod cs := Binary64.ofRat (decimalValue cs)
  jsStrtodHarder cs := Binary64.ofRat (digitsValue cs)

/-- Digits in front of anything else are taken as a whole. -/
theorem takeWhile_isDec_append {ds rest : Chars} (hds : ∀ c ∈ ds, IsDigit c)
    (hrest : ∀ c ∈ rest.head?, isDec c = false) : (ds ++ rest).takeWhile isDec = ds := by
  have hsplit := List.takeWhile_append_dropWhile (p := isDec) (l := ds ++ rest)
  rw [dropWhile_isDec_append hds hrest] at hsplit
  exact List.append_cancel_right hsplit

/-- A number may end the text. -/
theorem endsNumber_nil : EndsNumber [] := by
  simp [EndsNumber]

/-- An exponent begins with no digit. -/
theorem isDec_head_exponent {e : Chars} {k : ℤ} (he : IsExponent e k) :
    ∀ c ∈ e.head?, isDec c = false := by
  have := isDec_head_parts .none he endsNumber_nil
  simpa using this

/-- The exponent part is valued as the grammar says. -/
theorem exponentValue_eq {e : Chars} {k : ℤ} (h : IsExponent e k) : exponentValue e = k := by
  cases h with
  | none => rfl
  | @unsigned e ds he hds =>
    obtain ⟨d, ds, rfl⟩ := List.exists_cons_of_ne_nil hds.1
    have hd : isDec d = true := (isDec_iff d).mpr (hds.2 d (by simp))
    have hplus : d ≠ plusSign := by
      rintro rfl
      exact absurd hd (by decide)
    have hminus : d ≠ hyphenMinus := by
      rintro rfl
      exact absurd hd (by decide)
    simp only [exponentValue, hplus, hminus, ↓reduceIte]
  | plus he hds => rfl
  | minus he hds => rfl

/-- The fraction is valued as the grammar says. -/
theorem splitFraction_append {f e : Chars} {q : ℚ} {k : ℤ} (hf : IsFraction f q)
    (he : IsExponent e k) : splitFraction (f ++ e) = (q, e) := by
  have hhead := isDec_head_exponent he
  cases hf with
  | @digits ds hds =>
    simp only [List.cons_append, splitFraction, ↓reduceIte, dropWhile_isDec_append hds.2 hhead,
      takeWhile_isDec_append hds.2 hhead]
  | none =>
    have hne := ne_fullStop_head_exponent he endsNumber_nil
    rcases e with _ | ⟨c, e⟩
    · rfl
    · have hc : c ≠ fullStop := hne c (by simp)
      simp only [List.nil_append, splitFraction, hc, ↓reduceIte]

/-- The exact conversions return the nearest double. -/
theorem exactConversions_correct : exactConversions.Correct where
  jsStrtod cs q h := by
    obtain ⟨hi, hf, he⟩ := h
    have hhead := isDec_head_parts hf he endsNumber_nil
    rw [List.append_nil] at hhead
    simp only [exactConversions, decimalValue, List.append_assoc,
      takeWhile_isDec_append hi.isDigits.2 hhead, dropWhile_isDec_append hi.isDigits.2 hhead,
      splitFraction_append hf he, exponentValue_eq he]
  jsStrtodHarder ds _ := rfl

/-- The text `{"a":[1]}`. -/
theorem parse_accepts_exactly_object :
    Conversions.Correct exactConversions ∧
      ∃ result, parse exactConversions .raiseError
          [leftCurlyBracket, quotationMark, 0x61, quotationMark, colon, leftSquareBracket, 0x31,
            rightSquareBracket, rightCurlyBracket] 41 = some result ∧
        ∀ v, (result.returned = true ∧ result.value = v ∧ v ≠ .undefined) ↔
          IsText [leftCurlyBracket, quotationMark, 0x61, quotationMark, colon, leftSquareBracket,
            0x31, rightSquareBracket, rightCurlyBracket] v :=
  ⟨exactConversions_correct,
    parse_accepts_exactly exactConversions_correct .raiseError _ 41 (by decide)⟩

end SpiderMonkey.Json
