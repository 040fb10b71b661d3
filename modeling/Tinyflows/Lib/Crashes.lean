import Tinyflows.Lib.Triples

/-!
# Programs that are cut short

A program that has the resource to itself may still stop at any of its calls, before or after the call
is served. What the invariant says holds wherever it stops.
-/

namespace Tinyflows.Lib
open Relation

variable {S C : Type} {R : C → Type} {α : Type}

/-- Cut short anywhere, the program leads from one state to the other. -/
inductive Program.Leads (serves : S → (c : C) → R c → S → Prop) : Program C R α → S → S → Prop
  | stop {p : Program C R α} {s : S} : Leads serves p s s
  | call {c : C} {next : R c → Program C R α} {r : R c} {s t u : S} (h : serves s c r t)
      (hnext : Leads serves (next r) t u) : Leads serves (.call c next) s u

/-- The program returns a result and leads from one state to the other. -/
inductive Program.Returns (serves : S → (c : C) → R c → S → Prop) : Program C R α → S → α → S → Prop
  | done {a : α} {s : S} : Returns serves (.done a) s a s
  | call {c : C} {next : R c → Program C R α} {r : R c} {a : α} {s t u : S} (h : serves s c r t)
      (hnext : Returns serves (next r) t a u) : Returns serves (.call c next) s a u

def Terms.alone (serves : S → (c : C) → R c → S → Prop) (inv : S → Prop) : Terms S C R where
  serves := serves
  inv := inv
  rely s t := s = t
  guarantee _ _ := True

section Alone

variable {se : S → (c : C) → R c → S → Prop} {inv : S → Prop} {post : S → α → Prop}
  {p : Program C R α} {s t : S}

theorem Program.Meets.leads (hs : inv s) (hp : p.Meets (.alone se inv) post s)
    (h : p.Leads se s t) : inv t := by
  induction h with
  | stop => exact hs
  | call he _ ih =>
    obtain ⟨-, ht, hn⟩ := hp _ hs rfl _ _ he
    exact ih ht hn

theorem Program.Meets.returns {a} (hs : inv s) (hp : p.Meets (.alone se inv) post s)
    (h : p.Returns se s a t) : inv t ∧ post t a := by
  induction h with
  | done => exact ⟨hs, hp⟩
  | call he _ ih =>
    obtain ⟨-, ht, hn⟩ := hp _ hs rfl _ _ he
    exact ih ht hn

end Alone

/-! ## Running a program -/

/-- What is left of the program after so many calls, and the state they lead to. -/
def Program.after (serve : S → (c : C) → R c × S) : Nat → Program C R α → S → Program C R α × S
  | 0, p, s => (p, s)
  | _ + 1, .done a, s => (.done a, s)
  | n + 1, .call c next, s => (next (serve s c).1).after serve n (serve s c).2

def Program.result? : Program C R α → Option α
  | .done a => some a
  | .call _ _ => none

variable {se : S → (c : C) → R c → S → Prop} {sr : S → (c : C) → R c × S}

theorem Program.leads_after (h : ∀ s c, se s c (sr s c).1 (sr s c).2) (n)
    (p : Program C R α) (s) : p.Leads se s (p.after sr n s).2 := by
  induction n generalizing p s with
  | zero => exact .stop
  | succ n ih =>
    cases p with
    | done a => exact .stop
    | call c next => exact .call (h s c) (ih _ _)

theorem Program.returns_after (h : ∀ s c, se s c (sr s c).1 (sr s c).2) {n}
    {p : Program C R α} {s a} (hd : (p.after sr n s).1.result? = some a) :
    p.Returns se s a (p.after sr n s).2 := by
  induction n generalizing p s with
  | zero =>
    cases p with
    | done b => cases hd; exact .done
    | call c next => cases hd
  | succ n ih =>
    cases p with
    | done b => cases hd; exact .done
    | call c next => exact .call (h s c) (ih hd)

/-!
## A program and its surroundings

A program makes its calls one after the other, and between two of them its surroundings move. Whether
they may is theirs to say: a state can forbid it.
-/

structure Surroundings (S C : Type) (R : C → Type) where
  serves : S → (c : C) → R c → S → Prop
  moves : S → S → Prop

namespace Surroundings

inductive Step (E : Surroundings S C R) : Program C R α × S → Program C R α × S → Prop
  | call {c : C} {next : R c → Program C R α} {r : R c} {s t : S} (h : E.serves s c r t) :
      Step E (.call c next, s) (next r, t)
  | move {p : Program C R α} {s t : S} (h : E.moves s t) : Step E (p, s) (p, t)

/-- What the program and its surroundings may come to. -/
abbrev Reaches (E : Surroundings S C R) : Program C R α × S → Program C R α × S → Prop :=
  ReflTransGen E.Step

def terms (E : Surroundings S C R) (inv : S → Prop) : Terms S C R where
  serves := E.serves
  inv := inv
  rely := ReflTransGen E.moves
  guarantee _ _ := True

variable {E : Surroundings S C R} {inv : S → Prop} {post : S → α → Prop} {p q : Program C R α} {s t : S}

theorem meets_reaches (hv : ∀ {s t}, inv s → E.moves s t → inv t) (hs : inv s)
    (hp : p.Meets (E.terms inv) post s) (h : E.Reaches (p, s) (q, t)) :
    inv t ∧ ∃ u, ReflTransGen E.moves u t ∧ q.Meets (E.terms inv) post u := by
  generalize hw : (q, t) = w at h
  induction h generalizing q t with
  | refl =>
    cases hw
    exact ⟨hs, s, .refl, hp⟩
  | tail _ ht ih =>
    cases ht with
    | call he =>
      cases hw
      obtain ⟨hi, u, hu, hm⟩ := ih rfl
      obtain ⟨-, hi', hn⟩ := hm _ hi hu _ _ he
      exact ⟨hi', _, .refl, hn⟩
    | move ho =>
      cases hw
      obtain ⟨hi, u, hu, hm⟩ := ih rfl
      exact ⟨hv hi ho, u, hu.tail ho, hm⟩

theorem reaches_after {se}
    (h : ∀ s c, E.serves s c (se s c).1 (se s c).2) (n) (p : Program C R α) (s) :
    E.Reaches (p, s) (p.after se n s) := by
  induction n generalizing p s with
  | zero => exact .refl
  | succ n ih =>
    cases p with
    | done a => exact .refl
    | call c next => exact .head (.call (h s c)) (ih _ _)

end Surroundings

end Tinyflows.Lib
