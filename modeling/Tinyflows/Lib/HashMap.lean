import Mathlib.Data.Finmap
import Mathlib.Data.Prod.Lex
import Mathlib.Data.List.Sort
import Mathlib.Data.String.Basic

/-!
# Hash maps and their iteration order

A hash map is a finite map, known up to the order of its entries. Iterating over one lists the
entries in an order the program does not control, so everything that lists a map takes that order
as a parameter.
-/

namespace Tinyflows.Lib
open List Finmap Option

abbrev HashMap (κ β : Type) := Finmap (fun _ : κ => β)

abbrev HashSet (κ : Type) := Finset κ

structure IterOrder (κ : Type) where
  keys : HashSet κ → List κ
  nodup : ∀ s, (keys s).Nodup
  mem_keys : ∀ s k, k ∈ keys s ↔ k ∈ s

def sortedKeys {κ : Type} [LinearOrder κ] (s : HashSet κ) : List κ :=
  Quot.liftOn s.val (List.insertionSort (· ≤ ·)) fun a b (h : a.Perm b) =>
    List.Perm.eq_of_pairwise (fun _ _ _ _ => le_antisymm) (pairwise_insertionSort _ a)
      (pairwise_insertionSort _ b)
      ((perm_insertionSort _ a).trans (h.trans (perm_insertionSort _ b).symm))

theorem coe_sortedKeys {κ} [LinearOrder κ] (s) :
    (sortedKeys s : Multiset κ) = s.val := by
  obtain ⟨⟨l⟩, -⟩ := s
  exact Quot.sound (perm_insertionSort _ l)

def IterOrder.sorted (κ : Type) [LinearOrder κ] : IterOrder κ where
  keys := sortedKeys
  nodup s := by rw [← Multiset.coe_nodup, coe_sortedKeys]; exact s.nodup
  mem_keys s k := by rw [← Multiset.mem_coe, coe_sortedKeys, Finset.mem_val]

def IterOrder.sortedPairs (κ : Type) [LinearOrder κ] : IterOrder (κ × κ) where
  keys s := sortedKeys (κ := κ ×ₗ κ) s
  nodup := (IterOrder.sorted (κ ×ₗ κ)).nodup
  mem_keys := (IterOrder.sorted (κ ×ₗ κ)).mem_keys

namespace HashMap

variable {κ β : Type} [DecidableEq κ]

def iter (ord : IterOrder κ) (m : HashMap κ β) : List (κ × β) :=
  (ord.keys m.keys).filterMap fun k => (m.lookup k).map fun v => (k, v)

/-- Collects entries into a map. A later entry replaces an earlier one of the same key. -/
def collect (l : List (κ × β)) : HashMap κ β :=
  l.foldl (fun m e => m.insert e.1 e.2) ∅

variable {k : κ} {l : List (κ × β)} {m : HashMap κ β} {ord : IterOrder κ}

theorem lookup_collect_eq_find (l : List (κ × β)) (k) :
    (collect l).lookup k = (l.reverse.find? (·.1 = k)).map (·.2) := by
  induction l using List.reverseRecOn with
  | nil => exact lookup_empty k
  | append_singleton l e ih =>
    have hc : collect (l ++ [e]) = (collect l).insert e.1 e.2 := by simp [collect]
    rw [hc, reverse_concat, find?_cons]
    by_cases hk : e.1 = k
    · subst hk
      simp
    · rw [lookup_insert_of_ne _ (Ne.symm hk), ih]
      simp [hk]

theorem lookup_collect_isSome : ((collect l).lookup k).isSome ↔ k ∈ l.map Prod.fst := by
  simp [lookup_collect_eq_find]

theorem mem_of_lookup_collect {v} (h : (collect l).lookup k = some v) : (k, v) ∈ l := by
  rw [lookup_collect_eq_find] at h
  obtain ⟨e, he, rfl⟩ := map_eq_some_iff.mp h
  obtain rfl : e.1 = k := by simpa using find?_some he
  exact mem_reverse.mp (mem_of_find?_eq_some he)

theorem lookup_collect {found} (h : ∀ v, (k, v) ∈ l ↔ found = some v) :
    (collect l).lookup k = found := by
  cases hl : (collect l).lookup k with
  | some v => exact ((h v).mp (mem_of_lookup_collect hl)).symm
  | none =>
    refine (eq_none_iff_forall_ne_some.mpr fun v hv => ?_).symm
    have hs := lookup_collect_isSome.mpr (mem_map_of_mem ((h v).mpr hv))
    rw [hl] at hs
    cases hs

theorem lookup_collect_of_mem (hn : (l.map Prod.fst).Nodup) {v} (h : (k, v) ∈ l) :
    (collect l).lookup k = some v :=
  lookup_collect fun _ => ⟨fun hw => congrArg (some ·.2) (inj_on_of_nodup_map hn h hw rfl),
    fun hw => some.inj hw ▸ h⟩

theorem mem_iter {ord m} {k : κ} {v : β} : (k, v) ∈ iter ord m ↔ m.lookup k = some v := by
  simp only [iter, mem_filterMap, map_eq_some_iff, Prod.mk.injEq, ord.mem_keys]
  constructor
  · rintro ⟨_, _, w, hw, rfl, rfl⟩; exact hw
  · intro h
    exact ⟨k, mem_keys.mpr (mem_of_lookup_eq_some h), v, h, rfl, rfl⟩

theorem collect_iter : collect (iter ord m) = m :=
  ext_lookup fun _ => lookup_collect fun _ => mem_iter

def retain (p : κ → Bool) (m : HashMap κ β) : HashMap κ β where
  entries := m.entries.filter fun e => p e.1
  nodupKeys := by
    obtain ⟨⟨l⟩, hl⟩ := m
    exact (filter_sublist.map Sigma.fst).nodup hl

theorem lookup_retain (p) (m : HashMap κ β) (k) :
    (retain p m).lookup k = if p k then m.lookup k else none := by
  apply Option.ext
  intro v
  have he : ∀ n : HashMap κ β, n.lookup k = some v ↔ ⟨k, v⟩ ∈ n.entries := fun n =>
    mem_lookup_iff
  rw [he, retain, Multiset.mem_filter, ← he]
  cases p k <;> simp

end HashMap

end Tinyflows.Lib
