import Mathlib.Algebra.BigOperators.Group.Finset.Basic
import Mathlib.Algebra.Order.BigOperators.Group.Finset
import Mathlib.Data.List.Perm.Basic
import Mathlib.Data.List.Perm.Subperm
import Tinyflows.Lib.HashMap

/-!
# Bounded admission

Tasks `0, …, n - 1` run concurrently under a global ceiling and one ceiling per key. The driver keeps
the futures it polls in one vector and the tasks they belong to in a second one beside it, and reads
off the second vector where a finished future's result goes.
-/

namespace Tinyflows.Lib.Admission
open List

structure Ceilings (κ : Type) where
  limit : Nat
  cap : κ → Option Nat

/-- Waiting for the first of several futures: the position that is ready in a given round, and the
futures handed back for the next round. The contract promises no order for those. -/
structure SelectAll where
  ready : Nat → List Nat → Nat
  rest : Nat → List Nat → Nat → List Nat
  ready_lt : ∀ round running, running ≠ [] → ready round running < running.length
  rest_perm : ∀ round running position,
    (rest round running position).Perm (running.eraseIdx position)

def swapRemove (l : List Nat) (i : Nat) : List Nat :=
  match l.getLast? with
  | none => []
  | some z => if i < l.length then (l.set i z).dropLast else l

theorem swapRemove_concat (xs) (z) {i} (hi : i < xs.length) :
    swapRemove (xs ++ [z]) i = xs.set i z := by
  have hl : i < (xs ++ [z]).length := by rw [length_append]; omega
  simp only [swapRemove, getLast?_append, getLast?_singleton, Option.some_or, hl,
    if_true, set_append_left _ _ hi, dropLast_concat]

theorem swapRemove_perm (l) (i) : (swapRemove l i).Perm (l.eraseIdx i) := by
  rcases eq_nil_or_concat l with rfl | ⟨xs, z, h⟩
  · simp [swapRemove]
  · rw [concat_eq_append] at h
    subst h
    rcases Nat.lt_trichotomy i xs.length with hl | rfl | hg
    · rw [swapRemove_concat _ _ hl, eraseIdx_append_of_lt_length hl]
      exact (set_perm_cons_eraseIdx hl z).trans (perm_append_singleton _ _).symm
    · simp [swapRemove, eraseIdx_append_of_length_le]
    · have he : (xs ++ [z]).length ≤ i := by rw [length_append]; exact hg
      rw [eraseIdx_of_length_le he]
      simp only [swapRemove, getLast?_append, getLast?_singleton, Option.some_or,
        Nat.not_lt.mpr he, if_false]
      exact List.Perm.refl _

def firstReady : SelectAll where
  ready _ _ := 0
  rest _ running position := swapRemove running position
  ready_lt _ _ h := length_pos_iff.mpr h
  rest_perm _ running position := swapRemove_perm running position

def lastReady : SelectAll where
  ready _ running := running.length - 1
  rest _ running position := swapRemove running position
  ready_lt _ _ h := Nat.sub_one_lt (length_pos_iff.mpr h).ne'
  rest_perm _ running position := swapRemove_perm running position

/-- `started` records the order of admission and is never read. -/
structure Drive (κ R : Type) where
  queue : List Nat
  inFlight : HashMap κ Nat := ∅
  running : List Nat := []
  runningIndex : List Nat := []
  slots : List (Option R)
  started : List Nat := []

variable {κ R : Type} [DecidableEq κ]

variable (c : Ceilings κ)

def admissible (key : Nat → κ) (inFlight : HashMap κ Nat) (i : Nat) : Bool :=
  match c.cap (key i) with
  | none => true
  | some cap => (inFlight.lookup (key i)).getD 0 < cap

/-- Admits queued tasks, first ones first, as long as both ceilings allow it. -/
def admitReady (c : Ceilings κ) (key : Nat → κ) : Nat → Drive κ R → Drive κ R
  | 0, d => d
  | fuel + 1, d =>
    if d.running.length < c.limit then
      match d.queue.find? (admissible c key d.inFlight) with
      | none => d
      | some i => admitReady c key fuel { d with
          queue := d.queue.erase i
          inFlight := d.inFlight.insert (key i) ((d.inFlight.lookup (key i)).getD 0 + 1)
          running := d.running ++ [i]
          runningIndex := d.runningIndex ++ [i]
          started := d.started ++ [i] }
    else d

def admitAll (key : Nat → κ) (d : Drive κ R) : Drive κ R :=
  admitReady c key d.queue.length d

def release (inFlight : HashMap κ Nat) (k : κ) : HashMap κ Nat :=
  match inFlight.lookup k with
  | some count => inFlight.insert k (count - 1)
  | none => inFlight

/-- One round: a future finishes, its result is filed under the index found at its position, and
freed capacity is handed on. -/
def finishOne (key : Nat → κ) (sel : SelectAll) (results : Nat → R) (round : Nat) (d : Drive κ R) :
    Drive κ R :=
  let position := sel.ready round d.running
  match d.running[position]?, d.runningIndex[position]? with
  | some branch, some index =>
    admitAll c key { d with
      inFlight := release d.inFlight (key index)
      slots := d.slots.set index (some (results branch))
      running := sel.rest round d.running position
      runningIndex := d.runningIndex.eraseIdx position }
  | _, _ => d

def start (c : Ceilings κ) (key : Nat → κ) (n : Nat) : Drive κ R :=
  admitAll c key { queue := List.range n, slots := List.replicate n none }

/-- The driver after `k` rounds over `n` tasks. Rounds after the last future finished do nothing. -/
def after (c : Ceilings κ) (key : Nat → κ) (sel : SelectAll) (results : Nat → R) (n : Nat) :
    Nat → Drive κ R
  | 0 => start c key n
  | k + 1 => finishOne c key sel results k (after c key sel results n k)

def drive (key : Nat → κ) (sel : SelectAll) (results : Nat → R) (n : Nat) : Option (List R) :=
  (after c key sel results n n).slots.mapM id

def tally (key : Nat → κ) (k : κ) (l : List Nat) : Nat :=
  (l.map key).count k

def share (key : Nat → κ) (n : Nat) (k : κ) : Nat :=
  match c.cap k with
  | none => tally key k (List.range n)
  | some m => min m (tally key k (List.range n))

def peak (key : Nat → κ) (n : Nat) : Nat :=
  min c.limit (∑ k ∈ ((List.range n).map key).toFinset, share c key n k)

end Tinyflows.Lib.Admission
