import Mathlib.Tactic.Common

/-!
# Readers of token streams

A reader takes tokens off the front of a stream or fails. It reads a list of tokens as a value when
it takes exactly these tokens, whatever follows them. This composes: a reader that runs two readers
one after the other reads the two lists one after the other.
-/

namespace SpiderMonkey

/-- A reader of a stream of tokens. -/
abbrev Reader (S A : Type) := StateT (List S) Option A

namespace Reader

variable {S A B : Type}

/-- Take one token. -/
def next : Reader S S
  | [] => none
  | t :: rest => some (t, rest)

/-- Fail unless a condition holds. -/
def check (c : Prop) [Decidable c] : Reader S Unit := fun l => if c then some ((), l) else none

/-- Return a value if there is one, or fail. -/
def ofOption (o : Option A) : Reader S A := fun l => o.map fun a => (a, l)

/-- A reader takes exactly these tokens, and returns this value, whatever follows them. -/
def Reads (p : Reader S A) (l : List S) (a : A) : Prop := ∀ rest, p (l ++ rest) = some (a, rest)

/-- Returning a value takes no tokens. -/
theorem reads_pure (a : A) : Reads (pure a : Reader S A) [] a := fun _ => rfl

/-- Taking a token takes it. -/
theorem reads_next (t : S) : Reads next [t] t := fun _ => rfl

/-- A condition that holds takes no tokens. -/
theorem reads_check {c : Prop} [Decidable c] (h : c) : Reads (check c : Reader S Unit) [] () :=
  fun _ => if_pos h

/-- A value that exists takes no tokens. -/
theorem reads_ofOption {o : Option A} {a : A} (h : o = some a) : Reads (ofOption o : Reader S A) [] a :=
  fun _ => by rw [h]; rfl

/-- One reader after another. -/
theorem Reads.bind {p : Reader S A} {f : A → Reader S B} {l l' : List S} {a : A} {b : B}
    (hp : Reads p l a) (hf : Reads (f a) l' b) : Reads (p >>= f) (l ++ l') b := by
  intro rest
  rw [List.append_assoc]
  change (p (l ++ (l' ++ rest))).bind _ = _
  rw [hp, Option.bind_some]
  exact hf rest

/-- A reader after one that takes no tokens. -/
theorem Reads.bind_nil {p : Reader S A} {f : A → Reader S B} {l : List S} {a : A} {b : B}
    (hp : Reads p [] a) (hf : Reads (f a) l b) : Reads (p >>= f) l b := hp.bind hf

/-- A reader whose last step takes no tokens. -/
theorem Reads.bind_pure {p : Reader S A} {f : A → Reader S B} {l : List S} {a : A} {b : B}
    (hp : Reads p l a) (hf : Reads (f a) [] b) : Reads (p >>= f) l b := by
  have hboth := hp.bind hf
  rwa [List.append_nil] at hboth

/-- A reader is run on the tokens it reads. -/
theorem Reads.run {p : Reader S A} {l : List S} {a : A} (h : Reads p l a) : p l = some (a, []) := by
  have hrun := h []
  rwa [List.append_nil] at hrun

/-- Run a reader a number of times. -/
def times (p : Reader S A) : ℕ → Reader S (List A)
  | 0 => pure []
  | n + 1 => do
    let a ← p
    let rest ← times p n
    pure (a :: rest)

/-- Reading a number of items one after the other. -/
theorem reads_times {p : Reader S A} {write : A → List S} (items : List A)
    (h : ∀ a ∈ items, Reads p (write a) a) : Reads (times p items.length) (items.flatMap write) items := by
  induction items with
  | nil => exact reads_pure []
  | cons a items ih =>
    have hrest := ih fun b hb => h b (List.mem_cons_of_mem a hb)
    exact (h a List.mem_cons_self).bind (hrest.bind_pure (reads_pure _))

end Reader

end SpiderMonkey
