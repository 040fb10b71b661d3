import Mathlib.Algebra.BigOperators.Group.Finset.Basic
import Mathlib.Algebra.GroupWithZero.Nat
import Mathlib.Algebra.Order.BigOperators.Group.Finset
import Mathlib.Logic.Relation
import Tinyflows.Lib.HashMap

/-!
# Depth-first colouring

An iterative depth-first search with an explicit stack. A vertex is grey while it is on the stack and
black afterwards, so an edge to a grey vertex closes a cycle.
-/

namespace Tinyflows.Lib
open Relation List

inductive Colour where
  | grey
  | black
  deriving DecidableEq

/-- The colours, the closing edges found, and the vertices on the current path, each with the
successors it still has to expand. -/
structure Dfs (α : Type) [DecidableEq α] where
  colours : HashMap α Colour := ∅
  found : HashSet (α × α) := ∅
  stack : List (α × List α) := []

namespace Dfs

variable {α : Type} [DecidableEq α]

def expand (succ : α → List α) (s : Dfs α) : Dfs α :=
  match s.stack with
  | [] => s
  | (node, []) :: rest => { s with colours := s.colours.insert node .black, stack := rest }
  | (node, t :: ts) :: rest =>
    match s.colours.lookup t with
    | some .grey => { s with found := insert (node, t) s.found, stack := (node, ts) :: rest }
    | some .black => { s with stack := (node, ts) :: rest }
    | none => { s with
        colours := s.colours.insert t .grey
        stack := (t, succ t) :: (node, ts) :: rest }

def loop (succ : α → List α) : Nat → Dfs α → Dfs α
  | 0, s => s
  | fuel + 1, s => if s.stack = [] then s else loop succ fuel (s.expand succ)

/-- Every vertex is pushed and popped once and every edge followed once, so this many rounds are
enough when `dom` holds all vertices. -/
def fuel (succ : α → List α) (dom : HashSet α) : Nat :=
  ∑ v ∈ dom, (1 + (succ v).length)

/-- Searches from `root`, unless it has been reached before. -/
def visit (succ : α → List α) (dom : HashSet α) (s : Dfs α) (root : α) : Dfs α :=
  match s.colours.lookup root with
  | some _ => s
  | none => loop succ (fuel succ dom) { s with
      colours := s.colours.insert root .grey
      stack := [(root, succ root)] }

def closingEdges (succ : α → List α) (dom : HashSet α) (roots : List α) : HashSet (α × α) :=
  (roots.foldl (visit succ dom) {}).found

variable {succ : α → List α} {dom : HashSet α}

def rest (succ : α → List α) (dom : HashSet α) (s : Dfs α) : Nat :=
  (s.stack.map fun f => 1 + f.2.length).sum + ∑ v ∈ dom \ s.colours.keys, (1 + (succ v).length)

theorem sum_uncoloured {co : HashMap α Colour} {v} (hv : v ∈ dom)
    (hn : co.lookup v = none) (c) :
    ∑ u ∈ dom \ (co.insert v c).keys, (1 + (succ u).length) + (1 + (succ v).length) =
      ∑ u ∈ dom \ co.keys, (1 + (succ u).length) := by
  have hm : v ∈ dom \ co.keys := by
    rw [Finset.mem_sdiff, Finmap.mem_keys]
    exact ⟨hv, Finmap.lookup_eq_none.mp hn⟩
  have hk : dom \ (co.insert v c).keys = (dom \ co.keys).erase v := by
    ext u
    simp only [Finset.mem_sdiff, Finset.mem_erase, Finmap.mem_keys, Finmap.mem_insert]
    tauto
  rw [hk, Finset.sum_erase_add _ _ hm]

theorem sum_recoloured {co : HashMap α Colour} {v} (c) :
    ∑ u ∈ dom \ (co.insert v c).keys, (1 + (succ u).length) ≤
      ∑ u ∈ dom \ co.keys, (1 + (succ u).length) := by
  refine Finset.sum_le_sum_of_subset (Finset.sdiff_subset_sdiff le_rfl fun u hu => ?_)
  rw [Finmap.mem_keys] at hu ⊢
  exact Finmap.mem_insert.mpr (.inr hu)

/-! ## Soundness -/

/-- Grey vertices are on the stack, the stack is a path read from the top down, and every edge found
closes a cycle. -/
structure Sound (succ : α → List α) (dom : HashSet α) (s : Dfs α) : Prop where
  grey : ∀ v, s.colours.lookup v = some .grey → v ∈ s.stack.map Prod.fst
  path : s.stack.Pairwise fun upper lower => TransGen (fun a b => b ∈ succ a) lower.1 upper.1
  pending : ∀ f ∈ s.stack, ∀ t ∈ f.2, t ∈ succ f.1 ∧ t ∈ dom
  found : ∀ e ∈ s.found, e.2 ∈ succ e.1 ∧ ReflTransGen (fun a b => b ∈ succ a) e.2 e.1

variable {s : Dfs α} (hd : ∀ v, ∀ t ∈ succ v, t ∈ dom)

theorem Sound.pop (h : Sound succ dom s) {nd be} (hs : s.stack = (nd, []) :: be) :
    Sound succ dom { s with colours := s.colours.insert nd .black, stack := be } where
  grey v hv := by
    by_cases hn : v = nd
    · subst hn
      rw [Finmap.lookup_insert] at hv
      cases hv
    · rw [Finmap.lookup_insert_of_ne _ hn] at hv
      have hm := h.grey v hv
      rw [hs, map_cons, mem_cons] at hm
      exact hm.resolve_left hn
  path := (pairwise_cons.mp (hs ▸ h.path)).2
  pending f hf := h.pending f (hs ▸ mem_cons_of_mem _ hf)
  found := h.found

theorem Sound.next (h : Sound succ dom s) {nd t ts be}
    (hs : s.stack = (nd, t :: ts) :: be) : Sound succ dom { s with stack := (nd, ts) :: be } where
  grey v hv := by
    have hm := h.grey v hv
    rwa [hs] at hm
  path := by
    have hp := h.path
    rw [hs, pairwise_cons] at hp
    exact pairwise_cons.mpr hp
  pending f hf := by
    rcases mem_cons.mp hf with rfl | hf
    · exact fun u hu => h.pending (nd, t :: ts) (hs ▸ mem_cons_self) u (mem_cons_of_mem _ hu)
    · exact h.pending f (hs ▸ mem_cons_of_mem _ hf)
  found := h.found

theorem Sound.close (h : Sound succ dom s) {node t ts be}
    (hs : s.stack = (node, t :: ts) :: be) (ht : s.colours.lookup t = some .grey) :
    t ∈ succ node ∧ ReflTransGen (fun a b => b ∈ succ a) t node := by
  refine ⟨(h.pending (node, t :: ts) (hs ▸ mem_cons_self) t mem_cons_self).1, ?_⟩
  have hm := h.grey t ht
  rw [hs, map_cons, mem_cons] at hm
  rcases hm with rfl | hm
  · exact .refl
  · obtain ⟨f, hf, rfl⟩ := mem_map.mp hm
    exact ((pairwise_cons.mp (hs ▸ h.path)).1 f hf).to_reflTransGen

include hd in
theorem Sound.push (h : Sound succ dom s) {nd t ts be}
    (hs : s.stack = (nd, ts) :: be)
    (ht : t ∈ succ nd) : Sound succ dom { s with
      colours := s.colours.insert t .grey
      stack := (t, succ t) :: (nd, ts) :: be } where
  grey v hv := by
    by_cases hn : v = t
    · exact hn ▸ mem_cons_self
    · rw [Finmap.lookup_insert_of_ne _ hn] at hv
      have hm := h.grey v hv
      rw [hs] at hm
      exact mem_cons_of_mem _ hm
  path := by
    have hp := h.path
    rw [hs] at hp
    refine pairwise_cons.mpr ⟨fun f hf => ?_, hp⟩
    rcases mem_cons.mp hf with rfl | hf
    · exact .single ht
    · exact ((pairwise_cons.mp hp).1 f hf).tail ht
  pending f hf := by
    rcases mem_cons.mp hf with rfl | hf
    · exact fun u hu => ⟨hu, hd t u hu⟩
    · exact h.pending f (hs ▸ hf)
  found := h.found

include hd in
theorem Sound.expand (h : Sound succ dom s) :
    Sound succ dom (s.expand succ) := by
  unfold Dfs.expand
  split
  · exact h
  · exact h.pop ‹_›
  · rename_i node t ts bl hs
    have hn := h.next hs
    split
    · refine ⟨hn.grey, hn.path, hn.pending, fun e he => ?_⟩
      rcases Finset.mem_insert.mp he with rfl | he
      · exact h.close hs ‹_›
      · exact h.found e he
    · exact hn
    · exact hn.push hd rfl (h.pending (node, t :: ts) (hs ▸ mem_cons_self) t mem_cons_self).1

theorem rest_expand (h : Sound succ dom s) (he : s.stack ≠ []) :
    rest succ dom (s.expand succ) + 1 ≤ rest succ dom s := by
  unfold Dfs.expand
  split
  · contradiction
  · rename_i node bl hs
    have hu : ∑ u ∈ dom \ (s.colours.insert node .black).keys, (1 + (succ u).length) ≤
        ∑ u ∈ dom \ s.colours.keys, (1 + (succ u).length) := sum_recoloured _
    simp only [rest, hs, map_cons, sum_cons, length_nil]
    omega
  · rename_i node t ts bl hs
    split
    · simp only [rest, hs, map_cons, sum_cons, length_cons]
      omega
    · simp only [rest, hs, map_cons, sum_cons, length_cons]
      omega
    · rename_i hn
      have ht := (h.pending (node, t :: ts) (hs ▸ mem_cons_self) t mem_cons_self).2
      have hu : ∑ u ∈ dom \ (s.colours.insert t .grey).keys, (1 + (succ u).length) +
          (1 + (succ t).length) = ∑ u ∈ dom \ s.colours.keys, (1 + (succ u).length) :=
        sum_uncoloured ht hn _
      simp only [rest, hs, map_cons, sum_cons, length_cons]
      omega

include hd in
theorem Sound.loop {ro} (h : Sound succ dom s)
    (hf : rest succ dom s ≤ ro) :
    Sound succ dom (s.loop succ ro) ∧ (s.loop succ ro).stack = [] := by
  induction ro generalizing s with
  | zero =>
    refine ⟨h, ?_⟩
    cases hs : s.stack with
    | nil => exact hs
    | cons f be =>
      simp only [rest, hs, map_cons, sum_cons] at hf
      omega
  | succ ro ih =>
    simp only [Dfs.loop]
    split
    · exact ⟨h, ‹_›⟩
    · rename_i hn
      have hr := rest_expand h hn
      exact ih (h.expand hd) (by omega)

include hd in
theorem Sound.visit (h : Sound succ dom s) (hs : s.stack = [])
    {ro : α} (hr : ro ∈ dom) :
    Sound succ dom (s.visit succ dom ro) ∧ (s.visit succ dom ro).stack = [] := by
  unfold Dfs.visit
  split
  · exact ⟨h, hs⟩
  · rename_i he
    refine Sound.loop hd ⟨fun v hv => ?_, pairwise_singleton _ _, fun f hf t ht => ?_, h.found⟩ ?_
    · by_cases hn : v = ro
      · exact hn ▸ mem_cons_self
      · rw [Finmap.lookup_insert_of_ne _ hn] at hv
        have hm := h.grey v hv
        rw [hs] at hm
        cases hm
    · rw [mem_singleton] at hf
      subst hf
      exact ⟨ht, hd ro t ht⟩
    · have hu : ∑ u ∈ dom \ (s.colours.insert ro .grey).keys, (1 + (succ u).length) +
          (1 + (succ ro).length) = ∑ u ∈ dom \ s.colours.keys, (1 + (succ u).length) :=
        sum_uncoloured hr he _
      have hl : ∑ u ∈ dom \ s.colours.keys, (1 + (succ u).length) ≤ fuel succ dom :=
        Finset.sum_le_sum_of_subset Finset.sdiff_subset
      simp only [rest, map_cons, map_nil, sum_cons, sum_nil]
      omega

/-! ## What is left is acyclic -/

def Kept (succ : α → List α) (found : HashSet (α × α)) (a b : α) : Prop :=
  b ∈ succ a ∧ (a, b) ∉ found

/-- Each vertex on the stack still has a successor to expand, has found it closing or finished, or is
expanding it in the frame above. -/
def Underway (succ : α → List α) (s : Dfs α) : Option α → List (α × List α) → Prop
  | _, [] => True
  | above, (v, ts) :: below =>
    (∀ t ∈ succ v, t ∈ ts ∨ (v, t) ∈ s.found ∨ s.colours.lookup t = some .black ∨ some t = above) ∧
      Underway succ s (some v) below

/-- The kept edges of a black vertex lead to black ones, and no kept path returns to a black vertex. -/
structure Settled (succ : α → List α) (s : Dfs α) : Prop where
  onStack : ∀ f ∈ s.stack, s.colours.lookup f.1 = some .grey
  nodup : (s.stack.map Prod.fst).Nodup
  underway : Underway succ s none s.stack
  closed : ∀ v, s.colours.lookup v = some .black → ∀ t, Kept succ s.found v t →
    s.colours.lookup t = some .black
  acyclic : ∀ v, s.colours.lookup v = some .black → ¬ TransGen (Kept succ s.found) v v

theorem Underway.mono {s' ab ab' frames} (hf : s.found ⊆ s'.found)
    (hb : ∀ t, s.colours.lookup t = some .black → s'.colours.lookup t = some .black)
    (ha : ∀ t, some t = ab → s'.colours.lookup t = some .black ∨ some t = ab')
    (h : Underway succ s ab frames) : Underway succ s' ab' frames := by
  induction frames generalizing ab ab' with
  | nil => trivial
  | cons f be ih =>
    obtain ⟨v, ts⟩ := f
    refine ⟨fun t ht => ?_, ih (fun t ht => .inr ht) h.2⟩
    rcases h.1 t ht with ht | ht | ht | ht
    · exact .inl ht
    · exact .inr (.inl (hf ht))
    · exact .inr (.inr (.inl (hb t ht)))
    · exact .inr (.inr (ha t ht))

theorem Settled.pop (h : Settled succ s) {node be} (hs : s.stack = (node, []) :: be) :
    Settled succ { s with colours := s.colours.insert node .black, stack := be } := by
  have hg : s.colours.lookup node = some .grey :=
    h.onStack (node, []) (hs ▸ mem_cons_self)
  have hnt : node ∉ be.map Prod.fst := by
    have ho := h.nodup
    rw [hs, map_cons, nodup_cons] at ho
    exact ho.1
  have hu := h.underway
  rw [hs] at hu
  have hl : ∀ t, s.colours.lookup t = some .black →
      (s.colours.insert node .black).lookup t = some .black := by
    intro t ht
    have hN : t ≠ node := fun he => by rw [he, hg] at ht; cases ht
    rw [Finmap.lookup_insert_of_ne _ hN, ht]
  have hk : ∀ t, Kept succ s.found node t → s.colours.lookup t = some .black := by
    intro t ht
    rcases hu.1 t ht.1 with h' | h' | h' | h'
    · cases h'
    · exact absurd h' ht.2
    · exact h'
    · cases h'
  have hc : ∀ v, (s.colours.insert node .black).lookup v = some .black →
      v = node ∨ s.colours.lookup v = some .black := by
    intro v hv
    by_cases hn : v = node
    · exact .inl hn
    · rw [Finmap.lookup_insert_of_ne _ hn] at hv
      exact .inr hv
  -- nothing finished before leads to `node`, which was grey until now
  have hr : ∀ a b, s.colours.lookup a = some .black → TransGen (Kept succ s.found) a b →
      s.colours.lookup b = some .black := by
    intro a b ha hab
    induction hab with
    | single hb => exact h.closed a ha _ hb
    | tail _ hb ih => exact h.closed _ ih _ hb
  refine ⟨fun f hf => ?_, ?_, ?_, fun v hv t ht => ?_, fun v hv hy => ?_⟩
  · have hN : f.1 ≠ node := fun he => hnt (he ▸ mem_map_of_mem hf)
    rw [Finmap.lookup_insert_of_ne _ hN]
    exact h.onStack f (hs ▸ mem_cons_of_mem _ hf)
  · have ho := h.nodup
    rw [hs, map_cons, nodup_cons] at ho
    exact ho.2
  · refine Underway.mono (s := s) (Finset.Subset.refl _) hl (fun t ht => .inl ?_) hu.2
    rw [Option.some.inj ht]
    exact Finmap.lookup_insert _
  · rcases hc v hv with rfl | hv
    · exact hl t (hk t ht)
    · exact hl t (h.closed v hv t ht)
  · rcases hc v hv with rfl | hv
    · obtain ⟨t, ht, hB⟩ := TransGen.head'_iff.mp hy
      have hd : s.colours.lookup v = some .black := by
        rcases reflTransGen_iff_eq_or_transGen.mp hB with he | hB
        · rw [he]
          exact hk t ht
        · exact hr t v (hk t ht) hB
      rw [hg] at hd
      cases hd
    · exact h.acyclic v hv hy

theorem Settled.next (h : Settled succ s) {node t ts bl}
    (hs : s.stack = (node, t :: ts) :: bl) {found} (ho : s.found ⊆ found)
    (ht : (node, t) ∈ found ∨ s.colours.lookup t = some .black) :
    Settled succ { s with found, stack := (node, ts) :: bl } := by
  have hn := h.underway
  rw [hs] at hn
  have hk : ∀ a b, Kept succ found a b → Kept succ s.found a b :=
    fun a b ha => ⟨ha.1, fun hf => ha.2 (ho hf)⟩
  refine ⟨fun f hf => ?_, ?_, ⟨fun u hu => ?_, ?_⟩, fun v hv u hu => ?_, fun v hv hc => ?_⟩
  · rcases mem_cons.mp hf with rfl | hf
    · exact h.onStack (node, t :: ts) (hs ▸ mem_cons_self)
    · exact h.onStack f (hs ▸ mem_cons_of_mem _ hf)
  · have hN := h.nodup
    rwa [hs] at hN
  · rcases hn.1 u hu with h' | h' | h' | h'
    · rcases mem_cons.mp h' with rfl | h'
      · exact .inr (ht.imp id .inl)
      · exact .inl h'
    · exact .inr (.inl (ho h'))
    · exact .inr (.inr (.inl h'))
    · cases h'
  · exact Underway.mono ho (fun _ h => h) (fun _ h => .inr h) hn.2
  · exact h.closed v hv u (hk _ _ hu)
  · exact h.acyclic v hv (TransGen.mono hk v v hc)

theorem Settled.push (h : Settled succ s) {nd t ts be}
    (hs : s.stack = (nd, t :: ts) :: be) (hw : s.colours.lookup t = none) :
    Settled succ { s with
      colours := s.colours.insert t .grey
      stack := (t, succ t) :: (nd, ts) :: be } := by
  have hU := h.underway
  rw [hs] at hU
  have hN : ∀ v c, s.colours.lookup v = some c → v ≠ t := by
    rintro v c hv rfl
    rw [hw] at hv
    cases hv
  have hk : ∀ v c, s.colours.lookup v = some c → (s.colours.insert t .grey).lookup v = some c :=
    fun v c hv => by rw [Finmap.lookup_insert_of_ne _ (hN v c hv), hv]
  have hb : ∀ v, (s.colours.insert t .grey).lookup v = some .black →
      s.colours.lookup v = some .black := by
    intro v hv
    by_cases hn : v = t
    · rw [hn, Finmap.lookup_insert] at hv
      cases hv
    · rwa [Finmap.lookup_insert_of_ne _ hn] at hv
  have hm : ∀ f ∈ (nd, ts) :: be, s.colours.lookup f.1 = some .grey := by
    intro f hf
    rcases mem_cons.mp hf with rfl | hf
    · exact h.onStack (nd, t :: ts) (hs ▸ mem_cons_self)
    · exact h.onStack f (hs ▸ mem_cons_of_mem _ hf)
  refine ⟨fun f hf => ?_, ?_, ⟨fun u hu => .inl hu, fun u hu => ?_, ?_⟩, fun v hv u hu => ?_,
    fun v hv => h.acyclic v (hb v hv)⟩
  · rcases mem_cons.mp hf with rfl | hf
    · exact Finmap.lookup_insert _
    · exact hk _ _ (hm f hf)
  · have ho := h.nodup
    rw [hs, map_cons] at ho
    refine nodup_cons.mpr ⟨fun ht => ?_, ho⟩
    obtain ⟨f, hf, he⟩ := mem_map.mp ht
    exact hN _ _ (hm f hf) he
  · rcases hU.1 u hu with h' | h' | h' | h'
    · rcases mem_cons.mp h' with rfl | h'
      · exact .inr (.inr (.inr rfl))
      · exact .inl h'
    · exact .inr (.inl h')
    · exact .inr (.inr (.inl (hk _ _ h')))
    · cases h'
  · exact Underway.mono (s := s) (Finset.Subset.refl _) (fun v hv => hk v _ hv) (fun _ h => .inr h) hU.2
  · exact hk _ _ (h.closed v (hb v hv) u hu)

theorem Settled.expand (h : Settled succ s) : Settled succ (s.expand succ) := by
  unfold Dfs.expand
  split
  · exact h
  · exact h.pop ‹_›
  · rename_i node t ts bl hs
    split
    · exact h.next hs (Finset.subset_insert _ _) (.inl (Finset.mem_insert_self _ _))
    · exact h.next hs (Finset.Subset.refl _) (.inr ‹_›)
    · exact h.push hs ‹_›

theorem Settled.loop {ro} (h : Settled succ s) : Settled succ (s.loop succ ro) := by
  induction ro generalizing s with
  | zero => exact h
  | succ ro ih =>
    simp only [Dfs.loop]
    split
    · exact h
    · exact ih h.expand

theorem Settled.visit (h : Settled succ s) (root) : Settled succ (s.visit succ dom root) := by
  unfold Dfs.visit
  split
  · exact h
  · rename_i hw
    have hb : ∀ v, (s.colours.insert root .grey).lookup v = some .black →
        s.colours.lookup v = some .black := by
      intro v hv
      by_cases hn : v = root
      · rw [hn, Finmap.lookup_insert] at hv
        cases hv
      · rwa [Finmap.lookup_insert_of_ne _ hn] at hv
    refine Settled.loop ⟨fun f hf => ?_, ?_, ⟨fun t ht => .inl ht, trivial⟩, fun v hv t ht => ?_,
      fun v hv => h.acyclic v (hb v hv)⟩
    · rw [mem_singleton.mp hf]
      exact Finmap.lookup_insert _
    · exact nodup_singleton _
    · have ht' := h.closed v (hb v hv) t ht
      have hN : t ≠ root := fun he => by rw [he, hw] at ht'; cases ht'
      rw [Finmap.lookup_insert_of_ne _ hN, ht']

theorem coloured_expand {v} (h : (s.colours.lookup v).isSome) :
    ((s.expand succ).colours.lookup v).isSome := by
  have hi : ∀ u c, ((s.colours.insert u c).lookup v).isSome := by
    intro u c
    by_cases hn : v = u
    · rw [hn, Finmap.lookup_insert]
      rfl
    · rwa [Finmap.lookup_insert_of_ne _ hn]
  unfold Dfs.expand
  split
  · exact h
  · exact hi _ _
  · split
    · exact h
    · exact h
    · exact hi _ _

theorem coloured_loop {ro v} (h : (s.colours.lookup v).isSome) :
    ((s.loop succ ro).colours.lookup v).isSome := by
  induction ro generalizing s with
  | zero => exact h
  | succ ro ih =>
    simp only [Dfs.loop]
    split
    · exact h
    · exact ih (coloured_expand h)

theorem coloured_visit {ro v} (h : (s.colours.lookup v).isSome ∨ v = ro) :
    ((s.visit succ dom ro).colours.lookup v).isSome := by
  unfold Dfs.visit
  split
  · rename_i hc
    rcases h with h | rfl
    · exact h
    · rw [hc]
      rfl
  · refine coloured_loop ?_
    by_cases hn : v = ro
    · rw [hn, Finmap.lookup_insert]
      rfl
    · rw [Finmap.lookup_insert_of_ne _ hn]
      exact h.resolve_right hn

/-! ## The whole search -/

structure Searched (succ : α → List α) (dom : HashSet α) (roots : List α) (s : Dfs α) : Prop where
  sound : Sound succ dom s
  settled : Settled succ s
  ended : s.stack = []
  coloured : ∀ r ∈ roots, (s.colours.lookup r).isSome

include hd in
theorem searched {ro} (ho : ∀ r ∈ ro, r ∈ dom) :
    Searched succ dom ro (ro.foldl (visit succ dom) {}) := by
  induction ro using List.reverseRecOn with
  | nil =>
    refine ⟨⟨fun v hv => ?_, .nil, fun f hf => ?_, fun e he => ?_⟩,
      ⟨fun f hf => ?_, .nil, trivial, fun v hv => ?_, fun v hv => ?_⟩, rfl, fun r hr => ?_⟩
    · rw [foldl_nil, Finmap.lookup_empty] at hv
      cases hv
    · cases hf
    · exact absurd he (Finset.notMem_empty _)
    · cases hf
    · rw [foldl_nil, Finmap.lookup_empty] at hv
      cases hv
    · rw [foldl_nil, Finmap.lookup_empty] at hv
      cases hv
    · cases hr
  | append_singleton ro rt ih =>
    have h := ih fun r hr => ho r (mem_append_left _ hr)
    have ht : rt ∈ dom := ho rt (mem_append_right _ mem_cons_self)
    obtain ⟨hs, hn⟩ := h.sound.visit hd h.ended ht
    rw [foldl_append, foldl_cons, foldl_nil]
    refine ⟨hs, h.settled.visit rt, hn, fun r hr => coloured_visit ?_⟩
    rcases mem_append.mp hr with hr | hr
    · exact .inl (h.coloured r hr)
    · exact .inr (mem_singleton.mp hr)

include hd in
theorem closingEdges_cycle {ro}
    (hr : ∀ r ∈ ro, r ∈ dom) {e} (he : e ∈ closingEdges succ dom ro) :
    e.2 ∈ succ e.1 ∧ ReflTransGen (fun a b => b ∈ succ a) e.2 e.1 :=
  (searched hd hr).sound.found e he

include hd in
theorem closingEdges_acyclic {ro}
    (ho : ∀ r, r ∈ ro ↔ r ∈ dom) (v) :
    ¬ TransGen (Kept succ (closingEdges succ dom ro)) v v := by
  intro hy
  have h := searched hd fun r hr => (ho r).mp hr
  obtain ⟨u, -, hu⟩ := TransGen.tail'_iff.mp hy
  have hC := h.coloured v ((ho v).mpr (hd u v hu.1))
  obtain ⟨c, hc⟩ := Option.isSome_iff_exists.mp hC
  cases c with
  | grey =>
    have hm := h.sound.grey v hc
    rw [h.ended] at hm
    cases hm
  | black => exact h.settled.acyclic v hc hy

end Dfs

end Tinyflows.Lib
