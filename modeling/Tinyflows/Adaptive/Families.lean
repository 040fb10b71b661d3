import Mathlib.Data.List.MinMax
import Tinyflows.Lib.Keyed

/-!
# The catalogue's choice among repaired workflows

A repair saves a variant beside its parent. The catalogue offers one workflow of such a family: its
champion, or else the first member that can be offered.
-/

namespace Tinyflows.Adaptive
open Lib

variable {ι : Type} [DecidableEq ι]

def MAX_LINEAGE_DEPTH : Nat := 8

def MAX_FAMILY : Nat := 64

/-- The recorded variants, each with the workflow it was derived from. A variant is recorded once. -/
structure Variants (ι : Type) where
  links : List (ι × ι)
  nodup : (links.map Prod.fst).Nodup

namespace Variants

def parentOf (v : Variants ι) (id : ι) : Option ι := v.links.lookup id

def childrenOf (v : Variants ι) (id : ι) : List ι := (v.links.filter (·.2 = id)).map Prod.fst

/-- The walk up to the root, cut off after so many links. -/
def climb (v : Variants ι) : Nat → ι → ι
  | 0, root => root
  | n + 1, root =>
    match v.parentOf root with
    | some parent => if parent ≠ root then v.climb n parent else root
    | none => root

/-- The walk down: the loop ends within `MAX_FAMILY` rounds, as `next` stays below the family's size. -/
def widen (v : Variants ι) : Nat → Nat → List ι → List ι
  | 0, _, family => family
  | rounds + 1, next, family =>
    if h : next < family.length ∧ family.length < MAX_FAMILY then
      v.widen rounds (next + 1) ((v.childrenOf family[next]).foldl pushKey family)
    else family

def lineage (v : Variants ι) (id : ι) : List ι :=
  v.widen MAX_FAMILY 0 [v.climb MAX_LINEAGE_DEPTH id]

end Variants

variable {α σ R : Type} [LinearOrder R]

/-- The best member of a family, by the rank of its score and then by its place. -/
def champion (score : ι → σ) (rank : σ → R) (family : List ι) : Option ι :=
  family.argmin fun id => rank (score id)

variable (v : Variants ι) (score : ι → σ) (rank : σ → R) (key : α → ι)

def offerFor (candidates : List α) (lineage : List ι) (candidate : α) : α :=
  let best := (champion score rank lineage).getD (key candidate)
  let fallback := lineage.findSome? fun id => candidates.find? (key · = id)
  ((candidates.find? (key · = best)).or fallback).getD candidate

def collapseOne (candidates : List α) (s : List α × List ι) (candidate : α) : List α × List ι :=
  let (kept, settled) := s
  if key candidate ∈ settled then s
  else
    let lineage := v.lineage (key candidate)
    if lineage.length ≤ 1 then (kept ++ [candidate], settled ++ [key candidate])
    else
      let offer := offerFor score rank key candidates lineage candidate
      (if key offer ∈ settled then kept else kept ++ [offer], settled ++ lineage)

def collapseFamilies (candidates : List α) : List α :=
  (candidates.foldl (collapseOne v score rank key candidates) ([], [])).1

end Tinyflows.Adaptive
