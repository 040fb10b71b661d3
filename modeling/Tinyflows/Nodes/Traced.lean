import Tinyflows.Nodes.Binding

/-!
# Tracing the expressions that come up empty

The traced resolution of a configuration also reports each expression whose value is `null`. It writes down
where it stands in one string, to which every level adds a segment and from which it takes it back.
-/

namespace Tinyflows.Nodes
open Lib List

structure NullResolution where
  location : List Char
  expression : String
  deriving DecidableEq

structure Tracing where
  location : List Char := []
  misses : List NullResolution := []

/-- A dot is put only after something. -/
def pushSegment (location : List Char) (segment : String) : List Char :=
  if location = [] then segment.toList else location ++ '.' :: segment.toList

/-- Runs `f` with the segment appended, and cuts the location back to its length. -/
def withSegment {α : Type} (segment : String) (f : Tracing → α × Tracing) (s : Tracing) : α × Tracing :=
  let base := s.location.length
  let (out, s) := f { s with location := pushSegment s.location segment }
  (out, { s with location := s.location.take base })

namespace Expressions

variable (ex : Expressions) (scope : Json)

mutual

def resolveTracedInner : Json → Tracing → Json × Tracing
  | .obj fs, s =>
    let (fs, s) := resolveTracedFields fs s
    (.obj fs, s)
  | .arr items, s =>
    let (items, s) := resolveTracedItems 0 items s
    (.arr items, s)
  | .str e, s =>
    if ex.isExpression e then
      let resolved := ex.evaluate (.str e) scope
      (resolved, if resolved = .null then { s with misses := s.misses ++ [⟨s.location, e⟩] } else s)
    else (.str e, s)
  | v, s => (v, s)

def resolveTracedItems : Nat → List Json → Tracing → List Json × Tracing
  | _, [], s => ([], s)
  | i, v :: rest, s =>
    let (v, s) := withSegment (toString i) (resolveTracedInner v) s
    let (rest, s) := resolveTracedItems (i + 1) rest s
    (v :: rest, s)

def resolveTracedFields : List (String × Json) → Tracing → List (String × Json) × Tracing
  | [], s => ([], s)
  | (key, v) :: rest, s =>
    let (v, s) := withSegment key (resolveTracedInner v) s
    let (rest, s) := resolveTracedFields rest s
    ((key, v) :: rest, s)

end

def resolveTraced (value : Json) : Json × List NullResolution :=
  let (resolved, s) := resolveTracedInner ex scope value {}
  (resolved, s.misses)

/-! ## The expressions of a value -/

mutual

/-- Every expression of a value with the keys and indices that lead to it, in the order of the value. -/
def leaves : Json → List (List String × String)
  | .obj fs => leavesOfFields fs
  | .arr items => leavesOfItems 0 items
  | .str e => if ex.isExpression e then [([], e)] else []
  | _ => []

def leavesOfItems : Nat → List Json → List (List String × String)
  | _, [] => []
  | i, v :: rest => (leaves v).map (Prod.map (toString i :: ·) id) ++ leavesOfItems (i + 1) rest

def leavesOfFields : List (String × Json) → List (List String × String)
  | [] => []
  | (key, v) :: rest => (leaves v).map (Prod.map (key :: ·) id) ++ leavesOfFields rest

end

def isNull (leaf : List String × String) : Bool :=
  ex.evaluate (.str leaf.2) scope = .null

def nullLeaves (value : Json) : List (List String × String) :=
  (ex.leaves value).filter (ex.isNull scope)

end Expressions

def dotted : List String → List Char
  | [] => []
  | [segment] => segment.toList
  | segment :: rest => segment.toList ++ '.' :: dotted rest

def missAt (location : List String → List Char) (leaf : List String × String) : NullResolution :=
  ⟨location leaf.1, leaf.2⟩

/-! ## One string for all levels -/

section Segments

variable {α : Type}

theorem take_pushSegment (location) (se) :
    (pushSegment location se).take location.length = location := by
  unfold pushSegment
  split_ifs with h
  · rw [h, length_nil, take_zero]
  · rw [take_left]

/-- What a part adds to the misses if it starts at a location, and the value it makes. -/
def Reports (f : Tracing → α × Tracing) (out : α) (found : List (List String × String)) : Prop :=
  ∀ s, f s = (out, { s with misses := s.misses ++ found.map (missAt (·.foldl pushSegment s.location)) })

theorem Reports.withSegment {f} {out : α} {fo} (h : Reports f out fo) (se) :
    Reports (withSegment se f) out (fo.map (Prod.map (se :: ·) id)) := by
  intro s
  rw [Nodes.withSegment, h]
  simp only [take_pushSegment, map_map]
  rfl

theorem Reports.both {β γ f g a b fo mo} (mk : α → β → γ) (hf : Reports f a fo)
    (hg : Reports g b mo) :
    Reports (fun s => let (x, s) := f s; let (y, s) := g s; (mk x y, s)) (mk a b) (fo ++ mo) := by
  intro s
  have hm := hg { s with misses := s.misses ++ fo.map (missAt (·.foldl pushSegment s.location)) }
  simp only [hf s, hm, append_assoc, map_append]

end Segments

namespace Expressions

variable (ex : Expressions) (scope : Json)

theorem filter_nulls_map (se) (fo : List (List String × String)) :
    (fo.map (Prod.map (se :: ·) id)).filter (ex.isNull scope) =
      (fo.filter (ex.isNull scope)).map (Prod.map (se :: ·) id) := by
  rw [filter_map]
  rfl

mutual

theorem reports_inner : (v : Json) →
    Reports (ex.resolveTracedInner scope v) (ex.resolveAll scope v) ((ex.leaves v).filter (ex.isNull scope))
  | .obj fs => by
    intro s
    rw [resolveTracedInner, reports_fields fs, resolveAll, leaves]
  | .arr items => by
    intro s
    rw [resolveTracedInner, reports_items 0 items, resolveAll, leaves]
  | .str e => by
    intro s
    rw [resolveTracedInner, resolveAll, leaves]
    by_cases he : ex.isExpression e
    · by_cases hn : ex.evaluate (.str e) scope = .null <;> simp [he, hn, isNull, missAt]
    · simp [he]
  | .null | .bool _ | .num _ => by
    intro s
    simp [resolveTracedInner, resolveAll, leaves]

theorem reports_items : (i : Nat) → (items : List Json) →
    Reports (ex.resolveTracedItems scope i items) (ex.resolveItems scope items)
      ((ex.leavesOfItems i items).filter (ex.isNull scope))
  | _, [] => by
    intro s
    simp [resolveTracedItems, resolveItems, leavesOfItems]
  | i, v :: rest => by
    rw [leavesOfItems, filter_append, filter_nulls_map]
    exact ((reports_inner v).withSegment (toString i)).both List.cons (reports_items (i + 1) rest)

theorem reports_fields : (fs : List (String × Json)) →
    Reports (ex.resolveTracedFields scope fs) (ex.resolveFields scope fs)
      ((ex.leavesOfFields fs).filter (ex.isNull scope))
  | [] => by
    intro s
    simp [resolveTracedFields, resolveFields, leavesOfFields]
  | (key, v) :: re => by
    rw [leavesOfFields, filter_append, filter_nulls_map]
    exact ((reports_inner v).withSegment key).both (fun v re => (key, v) :: re) (reports_fields re)

end

end Expressions

/-! ## Where a leaf is -/

theorem foldl_pushSegment {lo} (h : lo ≠ []) (se) (re) :
    (se :: re).foldl pushSegment lo = lo ++ '.' :: dotted (se :: re) := by
  induction re generalizing lo se with
  | nil => exact if_neg h
  | cons nx re ih =>
    have hp : pushSegment lo se = lo ++ '.' :: se.toList := if_neg h
    have hd : dotted (se :: nx :: re) = se.toList ++ '.' :: dotted (nx :: re) := rfl
    rw [foldl_cons, hp, ih (by simp), hd]
    simp

/-- An empty first key leaves no trace. -/
theorem located_cons (se nx) (re) :
    (se :: nx :: re).foldl pushSegment [] =
      if se = "" then (nx :: re).foldl pushSegment [] else dotted (se :: nx :: re) := by
  split_ifs with h
  · rw [h]
    rfl
  · exact foldl_pushSegment (by simpa [pushSegment] using h) nx re

theorem length_located_le (pa) :
    (pa.foldl pushSegment []).length ≤ (dotted pa).length := by
  induction pa with
  | nil => exact Nat.le_refl _
  | cons se re ih =>
    cases re with
    | nil => exact Nat.le_refl _
    | cons nx re =>
      rw [located_cons]
      split_ifs with h
      · rw [h]
        exact Nat.le_succ_of_le ih
      · exact Nat.le_refl _

/-- A leaf is reported where it is unless its first key is empty and others follow. -/
theorem located_iff (pa) :
    pa.foldl pushSegment [] = dotted pa ↔ ∀ se rest, pa ≠ "" :: se :: rest := by
  match pa with
  | [] => exact ⟨fun _ => nofun, fun _ => rfl⟩
  | [se] => exact ⟨fun _ => nofun, fun _ => rfl⟩
  | se :: nx :: rest =>
    rw [located_cons]
    split_ifs with h
    · subst h
      refine ⟨fun he => ?_, fun hn => absurd rfl (hn nx rest)⟩
      have hl : (dotted ("" :: nx :: rest)).length = (dotted (nx :: rest)).length + 1 := rfl
      have hL := length_located_le (nx :: rest)
      rw [he, hl] at hL
      omega
    · exact ⟨fun _ _ _ he => h (List.cons.inj he).1, fun _ => rfl⟩

namespace Expressions

/-- The traced resolution makes the same value. It reports exactly the expressions that evaluate to `null`,
in order, and each where it stands exactly if none of them is below an empty key at the top. -/
theorem resolveTraced_spec (ex : Expressions) (scope value : Json) :
    (ex.resolveTraced scope value).1 = ex.resolveAll scope value ∧
      (ex.resolveTraced scope value).2.map (·.expression) = (ex.nullLeaves scope value).map (·.2) ∧
      ((ex.resolveTraced scope value).2 = (ex.nullLeaves scope value).map (missAt dotted) ↔
        ∀ leaf ∈ ex.nullLeaves scope value, ∀ segment rest, leaf.1 ≠ "" :: segment :: rest) := by
  have hreports := ex.reports_inner scope value {}
  rw [resolveTraced, hreports]
  refine ⟨rfl, by simp [nullLeaves, missAt], ?_⟩
  simp only [nil_append, ← located_iff]
  exact map_inj_left.trans (by simp [missAt, nullLeaves])

def allNull : Expressions where
  isExpression s := s.toList.head? = some '='
  evaluate _ _ := .null
  scope _ := .null
  isZero _ := false

theorem empty_key_not_located :
    (allNull.resolveTraced .null (.obj [("", .obj [("a", .str "=x")])])).2 = [⟨['a'], "=x"⟩] ∧
      allNull.nullLeaves .null (.obj [("", .obj [("a", .str "=x")])]) = [(["", "a"], "=x")] ∧
      dotted ["", "a"] = ['.', 'a'] := by
  decide

end Expressions

end Tinyflows.Nodes
