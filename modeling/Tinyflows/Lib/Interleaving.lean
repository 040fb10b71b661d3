import Mathlib.Algebra.Group.Int.Defs
import Mathlib.Algebra.Group.Nat.Defs
import Mathlib.Data.List.Basic
import Mathlib.Logic.Function.Iterate
import Mathlib.Logic.Relation

/-!
# Programs that share a resource

A program makes calls to a resource it shares with other programs, one at a time. Every call is
atomic; between two calls of a program the others may make any number of theirs.

To reason about one program at a time, each program states what it does to the resource whenever one
of its calls is served (its guarantee) and what it counts on the others doing (its rely).
-/

namespace Tinyflows.Lib
open List

inductive Program (C : Type) (R : C → Type) (α : Type) where
  | done (a : α)
  | call (c : C) (next : R c → Program C R α)

namespace Program

variable {C : Type} {R : C → Type} {α β : Type}

def bind : Program C R α → (α → Program C R β) → Program C R β
  | .done a, f => f a
  | .call c next, f => .call c fun r => (next r).bind f

instance : Monad (Program C R) where
  pure := .done
  bind := bind

instance : LawfulMonad (Program C R) := LawfulMonad.mk' _
  (fun p => by
    induction p with
    | done a => rfl
    | call c next ih => exact congrArg (Program.call c) (funext ih))
  (fun _ _ => rfl)
  (fun p f g => by
    induction p with
    | done a => rfl
    | call c next ih => exact congrArg (Program.call c) (funext ih))

@[simp] theorem pure_eq (a) : (pure a : Program C R α) = .done a := rfl

@[simp] theorem done_bind (a) (f : α → Program C R β) : (Program.done a >>= f) = f a := rfl

@[simp] theorem call_bind (c) (nx) (f : α → Program C R β) :
    (Program.call c nx >>= f) = .call c fun r => nx r >>= f := rfl

end Program

/-! ## One program among others -/

/-- What a program runs under: how its calls are served, what always holds of the resource, what the
other programs may do to it between two calls, and what the program itself may do. -/
structure Terms (S C : Type) (R : C → Type) where
  serves : S → (c : C) → R c → S → Prop
  inv : S → Prop
  rely : S → S → Prop
  guarantee : S → S → Prop

namespace Program

variable {S C : Type} {R : C → Type} {α β : Type} {T : Terms S C R}

/-- From the resource as the program last saw it, every call keeps the guarantee, and the program ends
with a result the postcondition allows. -/
def Meets (T : Terms S C R) (post : S → α → Prop) : Program C R α → S → Prop
  | .done a, s => post s a
  | .call c next, s => ∀ t, T.inv t → T.rely s t → ∀ r u, T.serves t c r u →
      T.guarantee t u ∧ T.inv u ∧ (next r).Meets T post u

theorem Meets.bind {po po' p} {f : α → Program C R β} {s} (hs : T.inv s) (hp : p.Meets T po s)
    (hf : ∀ a t, T.inv t → po t a → (f a).Meets T po' t) : (p >>= f).Meets T po' s := by
  induction p generalizing s with
  | done a => exact hf a s hs hp
  | call c nx ih =>
    intro t ht hr r u hu
    obtain ⟨hg, hi, hn⟩ := hp t ht hr r u hu
    exact ⟨hg, hi, ih r hi hn⟩

theorem Meets.mono {po po'} {p : Program C R α} {s} (hs : T.inv s)
    (hp : p.Meets T po s) (h : ∀ a t, T.inv t → po t a → po' t a) : p.Meets T po' s := by
  induction p generalizing s with
  | done a => exact h a s hs hp
  | call c nx ih =>
    intro t ht hr r u hu
    obtain ⟨hg, hi, hn⟩ := hp t ht hr r u hu
    exact ⟨hg, hi, ih r hi hn⟩

end Program

/-! ## Many programs -/

/-- A resource, and the program each operation on it runs. The resource knows which program calls. -/
structure System (S C : Type) (R : C → Type) (Op α : Type) where
  serves : Nat → S → (c : C) → R c → S → Prop
  program : Op → Program C R α

/-- The system, as long as calls are served in the ways allowed. -/
def System.limited {S C : Type} {R : C → Type} {Op α : Type} (sys : System S C R Op α)
    (allowed : Nat → S → (c : C) → R c → S → Prop) : System S C R Op α where
  serves i s c r t := sys.serves i s c r t ∧ allowed i s c r t
  program := sys.program

/-- The resource, and what is left of every operation begun so far. -/
structure World (S C : Type) (R : C → Type) (Op α : Type) where
  store : S
  running : List (Op × Program C R α) := []

variable {S C : Type} {R : C → Type} {Op α : Type}

/-- The operation that began as the `i`-th makes its next call. -/
inductive Calls (sys : System S C R Op α) (i : Nat) (op : Op) :
    World S C R Op α → World S C R Op α → Prop
  | intro {w : World S C R Op α} {c : C} {next : R c → Program C R α} {r : R c} {s : S}
      (hat : w.running[i]? = some (op, .call c next)) (hserves : sys.serves i w.store c r s) :
      Calls sys i op w { store := s, running := w.running.set i (op, next r) }

inductive Step (sys : System S C R Op α) : World S C R Op α → World S C R Op α → Prop
  | start {w : World S C R Op α} (op : Op) :
      Step sys w { w with running := w.running ++ [(op, sys.program op)] }
  | call {i : Nat} {op : Op} {w w' : World S C R Op α} (h : Calls sys i op w w') : Step sys w w'

/-- Operations begin and make their calls, in any order. -/
abbrev Runs (sys : System S C R Op α) : World S C R Op α → World S C R Op α → Prop :=
  Relation.ReflTransGen (Step sys)

/-! ## Running a system -/

/-- What a schedule lets happen next: an operation begins, or one that is running makes some calls. -/
inductive Move (Op : Type) where
  | start (op : Op)
  | calls (i n : Nat)

section Exec

variable (sys : System S C R Op α) (serve : Nat → S → (c : C) → R c × S)

/-- The call operation `i` is at is served as `serve` says. -/
def World.call (w : World S C R Op α) (i : Nat) : World S C R Op α :=
  match w.running[i]? with
  | some (op, .call c next) =>
    { store := (serve i w.store c).2, running := w.running.set i (op, next (serve i w.store c).1) }
  | _ => w

def World.move (w : World S C R Op α) : Move Op → World S C R Op α
  | .start op => { w with running := w.running ++ [(op, sys.program op)] }
  | .calls i n => (fun w => w.call serve i)^[n] w

def World.exec (w : World S C R Op α) (moves : List (Move Op)) : World S C R Op α :=
  moves.foldl (World.move sys serve) w

variable {sys serve}

theorem runs_call (h : ∀ i s c, sys.serves i s c (serve i s c).1 (serve i s c).2)
    (w) (i) : Runs sys w (w.call serve i) := by
  unfold World.call
  split
  · next op c next ha => exact .single (.call (.intro ha (h i w.store c)))
  · exact .refl

theorem runs_exec (h : ∀ i s c, sys.serves i s c (serve i s c).1 (serve i s c).2)
    (w) (mo) : Runs sys w (w.exec sys serve mo) := by
  induction mo generalizing w with
  | nil => exact .refl
  | cons m re ih =>
    refine Relation.ReflTransGen.trans ?_ (ih (w.move sys serve m))
    cases m with
    | start op => exact .single (.start op)
    | calls i n =>
      change Runs sys w ((fun w => w.call serve i)^[n] w)
      induction n generalizing w with
      | zero => exact .refl
      | succ n ihn =>
        rw [Function.iterate_succ_apply]
        exact (runs_call h w i).trans (ihn (w.call serve i))

def Program.Allowed (serve : S → (c : C) → R c × S) (allowed : S → (c : C) → R c → S → Prop) (s : S) :
    Program C R α → Prop
  | .call c _ => allowed s c (serve s c).1 (serve s c).2
  | .done _ => True

def World.Allows (serve : Nat → S → (c : C) → R c × S) (allowed : Nat → S → (c : C) → R c → S → Prop)
    (w : World S C R Op α) (i : Nat) : Prop :=
  ∀ e ∈ w.running[i]?, e.2.Allowed (serve i) (allowed i) w.store

def World.ExecAllows (sys : System S C R Op α) (serve : Nat → S → (c : C) → R c × S)
    (allowed : Nat → S → (c : C) → R c → S → Prop) : World S C R Op α → List (Move Op) → Prop
  | _, [] => True
  | w, .start op :: rest => (w.move sys serve (.start op)).ExecAllows sys serve allowed rest
  | w, .calls i n :: rest =>
    (∀ k < n, ((fun w => w.call serve i)^[k] w).Allows serve allowed i) ∧
      (w.move sys serve (.calls i n)).ExecAllows sys serve allowed rest

variable {allowed : Nat → S → (c : C) → R c → S → Prop}

instance [∀ i s c r t, Decidable (allowed i s c r t)] (i : Nat) (s : S) (p : Program C R α) :
    Decidable (p.Allowed (serve i) (allowed i) s) :=
  match p with
  | .call c _ => inferInstanceAs (Decidable (allowed i s c (serve i s c).1 (serve i s c).2))
  | .done _ => inferInstanceAs (Decidable True)

instance [∀ i s c r t, Decidable (allowed i s c r t)] (w : World S C R Op α) (i : Nat) :
    Decidable (w.Allows serve allowed i) :=
  inferInstanceAs (Decidable (∀ e ∈ w.running[i]?, _))

instance World.decidableExecAllows [∀ i s c r t, Decidable (allowed i s c r t)] :
    (w : World S C R Op α) → (moves : List (Move Op)) → Decidable (w.ExecAllows sys serve allowed moves)
  | _, [] => inferInstanceAs (Decidable True)
  | w, .start op :: rest => decidableExecAllows (w.move sys serve (.start op)) rest
  | w, .calls i n :: rest =>
    have := decidableExecAllows (w.move sys serve (.calls i n)) rest
    inferInstanceAs (Decidable ((∀ k < n, _) ∧ _))

theorem runs_exec_served (h : ∀ {i s c}, allowed i s c (serve i s c).1 (serve i s c).2 →
      sys.serves i s c (serve i s c).1 (serve i s c).2)
    {w mo} (ha : w.ExecAllows sys serve allowed mo) : Runs sys w (w.exec sys serve mo) := by
  have hc : ∀ (w : World S C R Op α) i, w.Allows serve allowed i → Runs sys w (w.call serve i) := by
    intro w i hi
    unfold World.call
    split
    · next op c next ht => exact .single (.call (.intro ht (h (hi _ ht))))
    · exact .refl
  induction mo generalizing w with
  | nil => exact .refl
  | cons m re ih =>
    cases m with
    | start op => exact .trans (.single (.start op)) (ih ha)
    | calls i n =>
      refine .trans ?_ (ih ha.2)
      have hl : ∀ k ≤ n, Runs sys w ((fun w => w.call serve i)^[k] w) := by
        intro k hk
        induction k with
        | zero => exact .refl
        | succ k ihk =>
          rw [Function.iterate_succ_apply']
          exact (ihk (by omega)).trans (hc _ i (ha.1 k (by omega)))
      exact hl n (Nat.le_refl n)

theorem runs_exec_limited (h : ∀ i s c, sys.serves i s c (serve i s c).1 (serve i s c).2)
    {w moves} (ha : w.ExecAllows sys serve allowed moves) :
    Runs (sys.limited allowed) w (w.exec sys serve moves) := by
  have ha' : w.ExecAllows (sys.limited allowed) serve allowed moves := by
    induction moves generalizing w with
    | nil => trivial
    | cons m re ih =>
      cases m with
      | start op => exact ih ha
      | calls i n => exact ⟨ha.1, ih ha.2⟩
  exact @runs_exec_served _ _ _ _ _ (sys.limited allowed) serve allowed
    (fun hd => ⟨h _ _ _, hd⟩) w moves ha'

end Exec

/-- Every operation has returned. -/
def World.Quiet (w : World S C R Op α) : Prop :=
  ∀ e ∈ w.running, ∃ a, e.2 = .done a

instance (p : Program C R α) : Decidable (∃ a, p = .done a) :=
  match p with
  | .done a => .isTrue ⟨a, rfl⟩
  | .call _ _ => .isFalse nofun

instance (w : World S C R Op α) : Decidable w.Quiet :=
  inferInstanceAs (Decidable (∀ e ∈ w.running, ∃ a, e.2 = .done a))

/-- Rely and guarantee for every operation of a system. What concerns only one operation is `fresh`
until that operation begins. -/
structure Discipline (sys : System S C R Op α) where
  inv : S → Prop
  rely : Nat → S → S → Prop
  guarantee : Op → Nat → S → S → Prop
  fresh : Nat → S → Prop := fun _ _ => True
  post : Op → Nat → S → α → Prop := fun _ _ _ _ => True

namespace Discipline

variable {sys : System S C R Op α} {D : Discipline sys} {w w' : World S C R Op α} {i : Nat} {op : Op}

def terms (D : Discipline sys) (op : Op) (i : Nat) : Terms S C R where
  serves := sys.serves i
  inv := D.inv
  rely := D.rely i
  guarantee := D.guarantee op i

structure Kept (D : Discipline sys) : Prop where
  refl : ∀ i s, D.rely i s s
  trans : ∀ i {s t u}, D.rely i s t → D.rely i t u → D.rely i s u
  relies : ∀ {i j op s t}, i ≠ j → D.inv s → D.guarantee op i s t → D.rely j s t
  unused : ∀ {i j op s t}, i ≠ j → D.inv s → D.guarantee op i s t → D.fresh j s → D.fresh j t
  begins : ∀ op i s, D.inv s → D.fresh i s →
    (sys.program op).Meets (D.terms op i) (D.post op i) s

/-- Where every operation stands: it keeps its promises from a state the others lead on from. -/
structure Settled (D : Discipline sys) (w : World S C R Op α) : Prop where
  inv : D.inv w.store
  unused : ∀ i, w.running.length ≤ i → D.fresh i w.store
  running : ∀ {i op p}, w.running[i]? = some (op, p) →
    ∃ s, D.rely i s w.store ∧ p.Meets (D.terms op i) (D.post op i) s

theorem Settled.calls (h : D.Settled w) (hc : Calls sys i op w w') :
    D.guarantee op i w.store w'.store := by
  obtain ⟨ha, hs⟩ := hc
  obtain ⟨s, hr, hm⟩ := h.running ha
  exact (hm _ h.inv hr _ _ hs).1

theorem Kept.settled_calls (hD : D.Kept) (h : D.Settled w) (hc : Calls sys i op w w') :
    D.Settled w' := by
  have hg := h.calls hc
  obtain ⟨ha, hs⟩ := hc
  obtain ⟨s, hr, hm⟩ := h.running ha
  obtain ⟨-, hn, he⟩ := hm _ h.inv hr _ _ hs
  have hi : i < w.running.length := (List.getElem?_eq_some_iff.mp ha).1
  refine ⟨hn, fun j hj => ?_, fun {j op' p} hj => ?_⟩
  · rw [length_set] at hj
    exact hD.unused (by omega) h.inv hg (h.unused j hj)
  · by_cases hij : i = j
    · subst hij
      rw [getElem?_set_self hi, Option.some.injEq, Prod.mk.injEq] at hj
      obtain ⟨rfl, rfl⟩ := hj
      exact ⟨_, hD.refl i _, he⟩
    · rw [getElem?_set_ne hij] at hj
      obtain ⟨t, ht, hp⟩ := h.running hj
      exact ⟨t, hD.trans j ht (hD.relies hij h.inv hg), hp⟩

theorem Kept.settled_start (hD : D.Kept) (h : D.Settled w) (op) :
    D.Settled { w with running := w.running ++ [(op, sys.program op)] } := by
  refine ⟨h.inv, fun i hi => ?_, fun {i op' p} hi => ?_⟩
  · rw [length_append] at hi
    exact h.unused i (by omega)
  · rcases Nat.lt_or_ge i w.running.length with ht | hg
    · rw [getElem?_append_left ht] at hi
      exact h.running hi
    · rw [getElem?_append_right hg] at hi
      obtain ⟨hl, he⟩ := List.getElem?_eq_some_iff.mp hi
      rw [length_singleton, Nat.lt_one_iff] at hl
      simp only [hl, getElem_cons_zero, Prod.mk.injEq] at he
      obtain ⟨rfl, rfl⟩ := he
      exact ⟨_, hD.refl i _, hD.begins op i _ h.inv (h.unused i hg)⟩

theorem settled_initial {s} (hn : D.inv s) (hf : ∀ i, D.fresh i s) : D.Settled { store := s } :=
  ⟨hn, fun i _ => hf i, fun hi => by simp at hi⟩

theorem Kept.settled_runs (hD : D.Kept) (h : D.Settled w) (hr : Runs sys w w') : D.Settled w' := by
  induction hr with
  | refl => exact h
  | tail _ hs ih =>
    cases hs with
    | start op => exact hD.settled_start ih op
    | call hc => exact hD.settled_calls ih hc

/-- What every guarantee implies of two successive states, and what is reflexive and transitive, holds
between any two states of a run. -/
theorem Kept.runs (hD : D.Kept) (h : D.Settled w) (hr : Runs sys w w') {P : S → S → Prop}
    (he : ∀ s, P s s) (ht : ∀ {s t u}, P s t → P t u → P s u)
    (hP : ∀ {op i s t}, D.inv s → D.guarantee op i s t → P s t) : P w.store w'.store := by
  induction hr with
  | refl => exact he _
  | tail hu hs ih =>
    cases hs with
    | start op => exact ih
    | call hc =>
      have hm := hD.settled_runs h hu
      exact ht ih (hP hm.inv (hm.calls hc))

theorem Settled.returned (h : D.Settled w) {a} (hi : w.running[i]? = some (op, .done a))
    (hs : ∀ {s t}, D.rely i s t → D.post op i s a → D.post op i t a) : D.post op i w.store a := by
  obtain ⟨s, hr, hp⟩ := h.running hi
  exact hs hr hp

end Discipline

/-!
## The calls a program makes

Whatever it is replied, a program makes only the calls that stand in it.
-/

namespace Program

variable {β : Type} {P Q : C → Prop}

def Makes (d : C) : Program C R α → Prop
  | .done _ => False
  | .call c next => d = c ∨ ∃ r, (next r).Makes d

def Only (P : C → Prop) (p : Program C R α) : Prop :=
  ∀ c, p.Makes c → P c

def ask (c : C) : Program C R (R c) :=
  .call c .done

@[simp] theorem makes_ask {c d} : (ask c : Program C R (R c)).Makes d ↔ d = c := by
  simp [ask, Makes]

variable {f : α → Program C R β} {p : Program C R α}

theorem makes_bind {d} (h : (p >>= f).Makes d) : p.Makes d ∨ ∃ a, (f a).Makes d := by
  induction p with
  | done a => exact .inr ⟨a, h⟩
  | call c next ih =>
    rcases h with rfl | ⟨r, h⟩
    · exact .inl (.inl rfl)
    · exact (ih r h).imp_left fun h => .inr ⟨r, h⟩

theorem only_done (a) : (done a : Program C R α).Only P := fun _ h => h.elim

theorem only_ask {c} (h : P c) : (ask c : Program C R (R c)).Only P := by
  rintro d hd
  rw [makes_ask.mp hd]
  exact h

theorem Only.bind (hp : p.Only P) (hf : ∀ a, (f a).Only P) : (p >>= f).Only P := by
  intro c hc
  rcases makes_bind hc with hc | ⟨a, hc⟩
  · exact hp c hc
  · exact hf a c hc

theorem Only.mono (hp : p.Only P) (h : ∀ c, P c → Q c) : p.Only Q :=
  fun c hc => h c (hp c hc)

theorem Only.mapM {γ : Type} {f : γ → Program C R α} {l : List γ} (hf : ∀ x ∈ l, (f x).Only P) :
    (l.mapM f).Only P := by
  induction l with
  | nil => exact only_done _
  | cons x rest ih =>
    rw [List.mapM_cons]
    refine (hf x List.mem_cons_self).bind fun a => Only.bind (ih fun y hy => ?_) fun as => only_done _
    exact hf y (List.mem_cons_of_mem _ hy)

end Program

end Tinyflows.Lib
