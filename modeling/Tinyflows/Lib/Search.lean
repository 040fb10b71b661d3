import Mathlib.Algebra.BigOperators.Group.Finset.Basic
import Mathlib.Algebra.Order.BigOperators.Group.Finset
import Mathlib.Logic.Relation
import Tinyflows.Lib.HashMap

/-!
# Depth-first reachability

Two work-list searches over a successor function and the paths they decide. `search` tests an edge
when it is followed and never expands a given `stop` vertex (other than the start). `seek` tests a
vertex when it is popped and never expands a blocked one.
-/

namespace Tinyflows.Lib
open List

variable {α : Type} {succ : α → List α} {go stop : α} [DecidableEq α]

/-- The search loop: a stack of vertices to visit and the set of those already visited. -/
def search (succ : α → List α) (goal stop : α) : Nat → HashSet α → List α → Bool
  | 0, _, _ => false
  | _ + 1, _, [] => false
  | fuel + 1, seen, current :: frontier =>
    if current ∈ seen then search succ goal stop fuel seen frontier
    else if goal ∈ succ current then true
    else search succ goal stop fuel (insert current seen)
      (((succ current).filter (· ≠ stop)).reverse ++ frontier)

/-- Every vertex is pushed once for the start and once per edge, so this many rounds are enough when
`dom` holds every vertex with a successor. -/
def searchFuel (succ : α → List α) (dom : HashSet α) : Nat :=
  1 + ∑ v ∈ dom, (succ v).length

def reaches (succ : α → List α) (dom : HashSet α) (start goal stop : α) : Bool :=
  start = goal || search succ goal stop (searchFuel succ dom) ∅ [start]

/-- The rounds still needed: what is on the stack, and the edges of what is not visited yet. -/
def searchRest (succ : α → List α) (dom seen : HashSet α) (frontier : List α) : Nat :=
  frontier.length + ∑ v ∈ dom \ seen, (succ v).length

theorem sum_unseen {dom se : HashSet α} {v} (ho : succ v ≠ [] → v ∈ dom) (hv : v ∉ se) :
    ∑ u ∈ dom \ insert v se, (succ u).length + (succ v).length ≤
      ∑ u ∈ dom \ se, (succ u).length := by
  by_cases hd : v ∈ dom
  · have hm : v ∈ dom \ se := Finset.mem_sdiff.mpr ⟨hd, hv⟩
    rw [Finset.sdiff_insert, Finset.sum_erase_add _ _ hm]
  · have he : succ v = [] := by
      by_contra hn; exact hd (ho hn)
    rw [he, length_nil, Nat.add_zero]
    exact Finset.sum_le_sum_of_subset (Finset.sdiff_subset_sdiff le_rfl (Finset.subset_insert _ _))

/-! ## Seeking -/

section Seek
open Relation

/-- The search loop that looks for `goal` among the vertices it pops. -/
def seek (succ : α → List α) (goal : α) (blocked : α → Bool) : Nat → HashSet α → List α → Bool
  | 0, _, _ => false
  | _ + 1, _, [] => false
  | fuel + 1, seen, current :: stack =>
    if current = goal then true
    else if blocked current || current ∈ seen then seek succ goal blocked fuel seen stack
    else seek succ goal blocked fuel (insert current seen) ((succ current).reverse ++ stack)

/-- Every start is popped once and every edge followed at most once. -/
def seekFuel (succ : α → List α) (dom : HashSet α) (starts : List α) : Nat :=
  starts.length + ∑ v ∈ dom, (succ v).length

def sought (succ : α → List α) (dom : HashSet α) (goal : α) (blocked : α → Bool) (starts : List α) :
    Bool :=
  seek succ goal blocked (seekFuel succ dom starts) ∅ starts.reverse

def Passes (succ : α → List α) (blocked : α → Bool) (a b : α) : Prop :=
  blocked a = false ∧ b ∈ succ a

variable {bl : α → Bool}

variable {se dom : HashSet α} {sc : List α}

theorem seek_sound {fu} (h : seek succ go bl fu se sc = true) :
    ∃ a ∈ sc, ReflTransGen (Passes succ bl) a go := by
  induction fu generalizing se sc with
  | zero => cases h
  | succ fu ih =>
    cases sc with
    | nil => cases h
    | cons cu sc =>
      simp only [seek] at h
      split_ifs at h with hg hs
      · exact ⟨cu, mem_cons_self, hg ▸ .refl⟩
      · obtain ⟨a, ha, hp⟩ := ih h
        exact ⟨a, mem_cons_of_mem _ ha, hp⟩
      · obtain ⟨a, ha, hp⟩ := ih h
        rcases mem_append.mp ha with ha | ha
        · simp only [Bool.or_eq_true, decide_eq_true_eq, not_or, Bool.not_eq_true] at hs
          exact ⟨cu, mem_cons_self, .head ⟨hs.1, mem_reverse.mp ha⟩ hp⟩
        · exact ⟨a, mem_cons_of_mem _ ha, hp⟩

omit [DecidableEq α] in
theorem not_passes_of_blocked {a} (hb : bl a = true) (ha : a ≠ go) :
    ¬ ReflTransGen (Passes succ bl) a go := by
  intro hp
  rcases hp.cases_head with he | ⟨b, hab, -⟩
  · exact ha he
  · exact absurd hb (by rw [hab.1]; exact Bool.false_ne_true)

/-- The visited vertices are not the goal, and what they lead to is visited, still to visit, or a
blocked vertex that is not the goal. -/
def SeekInv (succ : α → List α) (goal : α) (blocked : α → Bool) (seen : HashSet α)
    (stack : List α) : Prop :=
  ∀ v ∈ seen, v ≠ goal ∧ ∀ w ∈ succ v, w ∈ seen ∨ w ∈ stack ∨ (blocked w = true ∧ w ≠ goal)

omit [DecidableEq α] in
theorem SeekInv.not_path (h : SeekInv succ go bl se []) {a} (ha : a ∈ se) :
    ¬ ReflTransGen (Passes succ bl) a go := by
  intro hp
  induction hp using ReflTransGen.head_induction_on with
  | refl => exact (h _ ha).1 rfl
  | head hb hc ih =>
    rcases (h _ ha).2 _ hb.2 with hs | hs | hs
    · exact ih hs
    · cases hs
    · exact not_passes_of_blocked hs.1 hs.2 hc

omit [DecidableEq α] in
theorem SeekInv.drop {v} (hg : v ≠ go) (hv : bl v = true ∨ v ∈ se)
    (h : SeekInv succ go bl se (v :: sc)) : SeekInv succ go bl se sc := by
  refine fun u hu => ⟨(h u hu).1, fun w hw => ?_⟩
  rcases (h u hu).2 w hw with hs | hs | hs
  · exact .inl hs
  · rcases mem_cons.mp hs with rfl | hs
    · exact hv.elim (fun hb => .inr (.inr ⟨hb, hg⟩)) .inl
    · exact .inr (.inl hs)
  · exact .inr (.inr hs)

theorem SeekInv.visit {v} (hg : v ≠ go) (h : SeekInv succ go bl se (v :: sc)) :
    SeekInv succ go bl (insert v se) ((succ v).reverse ++ sc) := by
  intro u hu
  rcases Finset.mem_insert.mp hu with rfl | hu
  · exact ⟨hg, fun w hw => .inr (.inl (mem_append_left _ (mem_reverse.mpr hw)))⟩
  · refine ⟨(h u hu).1, fun w hw => ?_⟩
    rcases (h u hu).2 w hw with hs | hs | hs
    · exact .inl (Finset.mem_insert_of_mem hs)
    · rcases mem_cons.mp hs with rfl | hs
      · exact .inl (Finset.mem_insert_self _ _)
      · exact .inr (.inl (mem_append_right _ hs))
    · exact .inr (.inr hs)

theorem seek_complete (hd : ∀ v, succ v ≠ [] → v ∈ dom) {fuel}
    (hf : searchRest succ dom se sc ≤ fuel) (hi : SeekInv succ go bl se sc)
    (h : seek succ go bl fuel se sc = false) :
    ∀ a, a ∈ se ∨ a ∈ sc → ¬ ReflTransGen (Passes succ bl) a go := by
  induction fuel generalizing se sc with
  | zero =>
    have hl : sc = [] := eq_nil_of_length_eq_zero (by
      simp only [searchRest] at hf; omega)
    subst hl
    intro a ha
    exact hi.not_path (ha.resolve_right not_mem_nil)
  | succ fuel ih =>
    cases sc with
    | nil => exact fun a ha => hi.not_path (ha.resolve_right not_mem_nil)
    | cons cu sc =>
      simp only [seek] at h
      split_ifs at h with hg hk
      · have hr : searchRest succ dom se sc ≤ fuel := by
          simp only [searchRest, length_cons] at hf ⊢
          omega
        simp only [Bool.or_eq_true, decide_eq_true_eq] at hk
        have hn := ih hr (hi.drop hg hk) h
        intro a ha
        rcases ha with ha | ha
        · exact hn a (.inl ha)
        · rcases mem_cons.mp ha with rfl | ha
          · rcases hk with hb | hs
            · exact not_passes_of_blocked hb hg
            · exact hn a (.inl hs)
          · exact hn a (.inr ha)
      · simp only [Bool.or_eq_true, decide_eq_true_eq, not_or] at hk
        have hu := sum_unseen (hd cu) hk.2
        intro a ha
        refine ih ?_ (hi.visit hg) h a ?_
        · simp only [searchRest, length_append, length_reverse, length_cons] at hf ⊢
          omega
        rcases ha with ha | ha
        · exact .inl (Finset.mem_insert_of_mem ha)
        · rcases mem_cons.mp ha with rfl | ha
          · exact .inl (Finset.mem_insert_self _ _)
          · exact .inr (mem_append_right _ ha)

theorem sought_iff (hd : ∀ v, succ v ≠ [] → v ∈ dom) {st} :
    sought succ dom go bl st = true ↔ ∃ a ∈ st, ReflTransGen (Passes succ bl) a go := by
  constructor
  · intro h
    obtain ⟨a, ha, hp⟩ := seek_sound h
    exact ⟨a, mem_reverse.mp ha, hp⟩
  · rintro ⟨a, ha, hp⟩
    by_contra hf
    rw [Bool.not_eq_true] at hf
    refine seek_complete hd ?_ (fun v hv => absurd hv (Finset.notMem_empty _)) hf a
      (.inr (mem_reverse.mpr ha)) hp
    simp [searchRest, seekFuel]

end Seek

/-! ## Flooding -/

def spread (succs : List α) (reached : HashSet α × List α) : HashSet α × List α :=
  succs.foldl (fun r t => if t ∈ r.1 then r else (insert t r.1, t :: r.2)) reached

/-- Everything reached from the stack. A vertex is pushed at most once, so as many rounds as there
are vertices are enough. -/
def flood (succ : α → List α) : Nat → HashSet α × List α → HashSet α
  | 0, reached => reached.1
  | _ + 1, (seen, []) => seen
  | fuel + 1, (seen, current :: stack) => flood succ fuel (spread (succ current) (seen, stack))

section Flood
open Relation

variable {r : HashSet α × List α} {su : List α}

theorem spread_fst (su) (r : HashSet α × List α) : (spread su r).1 = r.1 ∪ su.toFinset := by
  induction su generalizing r with
  | nil => simp [spread]
  | cons t re ih =>
    rw [spread, foldl_cons, ← spread, ih]
    split_ifs with ht
    · ext x
      simp only [toFinset_cons, Finset.mem_union, Finset.mem_insert]
      grind
    · ext x
      simp only [toFinset_cons, Finset.mem_union, Finset.mem_insert]
      tauto

variable {x : α} {dom se : HashSet α} {sc : List α}

theorem mem_spread_snd : x ∈ (spread su r).2 ↔ x ∈ r.2 ∨ x ∈ su ∧ x ∉ r.1 := by
  induction su generalizing r with
  | nil => simp [spread]
  | cons t re ih =>
    rw [spread, foldl_cons, ← spread, ih]
    split_ifs with ht
    · grind
    · simp only [mem_cons, Finset.mem_insert]
      grind

theorem length_spread (h : ∀ t ∈ su, t ∈ dom) :
    (spread su r).2.length + (dom \ (spread su r).1).card ≤ r.2.length + (dom \ r.1).card := by
  induction su generalizing r with
  | nil => exact le_rfl
  | cons t re ih =>
    obtain ⟨ht, hr⟩ := forall_mem_cons.mp h
    rw [spread, foldl_cons, ← spread]
    refine (ih hr).trans ?_
    split_ifs with hs
    · exact le_rfl
    · have hm : t ∈ dom \ r.1 := Finset.mem_sdiff.mpr ⟨ht, hs⟩
      rw [Finset.sdiff_insert, Finset.card_erase_of_mem hm, length_cons]
      have hp : 0 < (dom \ r.1).card := Finset.card_pos.mpr ⟨t, hm⟩
      omega

/-- What has been reached is on the stack, or everything it leads to has been reached. -/
def FloodInv (succ : α → List α) (seen : HashSet α) (stack : List α) : Prop :=
  ∀ v ∈ seen, v ∈ stack ∨ ∀ t ∈ succ v, t ∈ seen

omit [DecidableEq α] in
theorem FloodInv.path (h : FloodInv succ se sc) {v} (hv : v ∈ se)
    (hp : TransGen (fun a b => b ∈ succ a) v x) :
    x ∈ se ∨ ∃ a ∈ sc, TransGen (fun a b => b ∈ succ a) a x := by
  induction hp using TransGen.head_induction_on with
  | single hs => exact (h _ hv).symm.imp (· _ hs) fun hm => ⟨_, hm, .single hs⟩
  | head hs hr ih =>
    rcases h _ hv with hm | hu
    · exact .inr ⟨_, hm, .head hs hr⟩
    · exact ih (hu _ hs)

theorem FloodInv.spread {cu} (h : FloodInv succ se (cu :: sc)) :
    FloodInv succ (se ∪ (succ cu).toFinset) (spread (succ cu) (se, sc)).2 := by
  intro v hv
  simp only [Finset.mem_union, mem_toFinset, mem_spread_snd] at hv ⊢
  by_cases hs : v ∈ se
  · rcases h v hs with hm | hu
    · rcases mem_cons.mp hm with rfl | hm
      · exact .inr fun t ht => .inr ht
      · exact .inl (.inl hm)
    · exact .inr fun t ht => .inl (hu t ht)
  · exact .inl (.inr ⟨hv.resolve_left hs, hs⟩)

theorem mem_flood (hd : ∀ v, ∀ t ∈ succ v, t ∈ dom) {fu}
    (hf : sc.length + (dom \ se).card ≤ fu) (hi : FloodInv succ se sc) :
    x ∈ flood succ fu (se, sc) ↔ x ∈ se ∨ ∃ a ∈ sc, TransGen (fun a b => b ∈ succ a) a x := by
  induction fu generalizing se sc with
  | zero =>
    have hN : sc = [] := eq_nil_of_length_eq_zero (by omega)
    simp [flood, hN]
  | succ fu ih =>
    cases sc with
    | nil => simp [flood]
    | cons cu sc =>
      have hl := length_spread (r := (se, sc)) (hd cu)
      have hn := hi.spread
      rw [flood, ← Prod.mk.eta (p := Lib.spread (succ cu) (se, sc)), spread_fst]
      rw [spread_fst] at hl
      rw [ih (by simp only [length_cons] at hf hl ⊢; omega) hn]
      constructor
      · simp only [Finset.mem_union, mem_toFinset, mem_spread_snd]
        rintro ((hx | hx) | ⟨a, ha | ⟨ha, -⟩, hp⟩)
        · exact .inl hx
        · exact .inr ⟨cu, mem_cons_self, .single hx⟩
        · exact .inr ⟨a, mem_cons_of_mem _ ha, hp⟩
        · exact .inr ⟨cu, mem_cons_self, .head ha hp⟩
      · rintro (hx | ⟨a, ha, hp⟩)
        · exact .inl (Finset.mem_union_left _ hx)
        rcases mem_cons.mp ha with rfl | ha
        · have hc : ∀ t ∈ succ a, t ∈ se ∪ (succ a).toFinset := fun t ht =>
            Finset.mem_union_right _ (mem_toFinset.mpr ht)
          rcases TransGen.head'_iff.mp hp with ⟨b, hb, hr⟩
          rcases reflTransGen_iff_eq_or_transGen.mp hr with rfl | hr
          · exact .inl (hc _ hb)
          · exact hn.path (hc b hb) hr
        · exact .inr ⟨a, mem_spread_snd.mpr (.inl ha), hp⟩

end Flood

end Tinyflows.Lib
