import Mathlib.Data.List.Induction
import Mathlib.Data.List.Nodup

/-!
# Lists with one entry for each key

An entry takes the place of the one with its key, or is left out because of it; an entry with a new
key comes last.
-/

namespace Tinyflows.Lib
open List

variable {α κ : Type*} [DecidableEq κ] {key : α → κ} {l m : List α} {a : α} {i : Nat}

def held (key : α → κ) (l : List α) (k : κ) : Option α := l.find? (key · = k)

def place (key : α → κ) (replaces : Bool) (l : List α) (a : α) : List α :=
  match l.findIdx? (key · = key a) with
  | some i => if replaces then l.set i a else l
  | none => l ++ [a]

def pushKey (ks : List κ) (k : κ) : List κ := if k ∈ ks then ks else ks ++ [k]

/-! ## Keys -/

theorem mem_pushKey {ks} {k k' : κ} : k' ∈ pushKey ks k ↔ k' ∈ ks ∨ k' = k := by
  unfold pushKey
  split_ifs with h
  · exact ⟨.inl, fun h' => h'.elim id fun he => he ▸ h⟩
  · simp

theorem mem_foldl_pushKey {ks ks' : List κ} {k} : k ∈ ks'.foldl pushKey ks ↔ k ∈ ks ∨ k ∈ ks' := by
  induction ks' generalizing ks with
  | nil => simp
  | cons k' ks' ih => rw [foldl_cons, ih, mem_pushKey, mem_cons, or_assoc]

theorem nodup_pushKey {ks} (h : ks.Nodup) (k : κ) : (pushKey ks k).Nodup := by
  unfold pushKey
  split_ifs with hk
  · exact h
  · exact nodup_append.mpr ⟨h, by simp, by rintro x hx y hy rfl; simp_all⟩

theorem nodup_foldl_pushKey {ks} (h : ks.Nodup) (ks' : List κ) : (ks'.foldl pushKey ks).Nodup := by
  induction ks' generalizing ks with
  | nil => exact h
  | cons k ks' ih => exact ih (nodup_pushKey h k)

theorem prefix_foldl_pushKey (ks ks' : List κ) : ks <+: ks'.foldl pushKey ks := by
  induction ks' generalizing ks with
  | nil => exact prefix_rfl
  | cons k ks' ih =>
    refine List.IsPrefix.trans ?_ (ih (pushKey ks k))
    unfold pushKey
    split_ifs
    · exact prefix_rfl
    · exact prefix_append _ _

theorem foldl_pushKey_of_subset {ks ks' : List κ} (h : ks' ⊆ ks) : ks'.foldl pushKey ks = ks := by
  induction ks' with
  | nil => rfl
  | cons k ks' ih =>
    rw [foldl_cons, pushKey, if_pos (h mem_cons_self)]
    exact ih fun x hx => h (mem_cons_of_mem _ hx)

/-- Keys can be gathered before they are added. -/
theorem foldl_pushKey_foldl (ks ks' : List κ) :
    (ks'.foldl pushKey []).foldl pushKey ks = ks'.foldl pushKey ks := by
  induction ks' using List.reverseRecOn with
  | nil => rfl
  | append_singleton ks' k ih =>
    rw [foldl_concat, foldl_concat]
    by_cases hk : k ∈ ks'.foldl pushKey []
    · have hm : k ∈ ks' := by simpa using mem_foldl_pushKey.mp hk
      rw [pushKey, if_pos hk, ih, pushKey, if_pos (mem_foldl_pushKey.mpr (.inr hm))]
    · rw [pushKey, if_neg hk, foldl_concat, ih]

theorem keys_set (h : l.findIdx? (key · = key a) = some i) : (l.set i a).map key = l.map key := by
  obtain ⟨hi, hd, -⟩ := findIdx?_eq_some_iff_getElem.mp h
  have hl : i < (l.map key).length := by simpa using hi
  have hs : (l.map key)[i] = key a := by simpa using hd
  rw [map_set, ← hs, set_getElem_self]

theorem keys_place (key : α → κ) (re) (l) (a) :
    (place key re l a).map key = pushKey (l.map key) (key a) := by
  unfold place pushKey
  cases hf : l.findIdx? (key · = key a) with
  | none =>
    have hn : key a ∉ l.map key := by simpa [findIdx?_eq_none_iff] using hf
    rw [if_neg hn]
    simp
  | some i =>
    obtain ⟨hi, hd, -⟩ := findIdx?_eq_some_iff_getElem.mp hf
    have hm : key a ∈ l.map key :=
      mem_map.mpr ⟨l[i], getElem_mem hi, by simpa using hd⟩
    rw [if_pos hm]
    dsimp only
    split_ifs
    · exact keys_set hf
    · rfl

/-! ## Entries -/

theorem held_eq_none {k} : held key l k = none ↔ k ∉ l.map key := by
  simp [held]

theorem key_of_held {k} (h : held key l k = some a) : key a = k := by
  simpa using find?_some h

theorem held_set (h : l.findIdx? (key · = key a) = some i) (k) :
    held key (l.set i a) k = if key a = k then some a else held key l k := by
  induction l generalizing i with
  | nil => simp at h
  | cons x l ih =>
    rw [findIdx?_cons] at h
    by_cases hx : key x = key a
    · obtain rfl : 0 = i := by simpa [hx] using h
      by_cases hk : key a = k <;> simp [held, hx, hk]
    · obtain ⟨j, hj, rfl⟩ : ∃ j, l.findIdx? (key · = key a) = some j ∧ j + 1 = i := by
        simpa [hx] using h
      have hi := ih hj
      rw [set_cons_succ]
      unfold held at hi ⊢
      by_cases hk : key x = k
      · rw [find?_cons_of_pos (by simpa), find?_cons_of_pos (by simpa), if_neg]
        rintro rfl
        exact hx hk
      · rw [find?_cons_of_neg (by simpa), find?_cons_of_neg (by simpa), hi]

theorem held_place (key) (re) (l) (a : α) (k : κ) :
    held key (place key re l a) k =
      if key a = k then some (if re then a else (held key l k).getD a)
      else held key l k := by
  unfold place
  cases hf : l.findIdx? (key · = key a) with
  | none =>
    have hn : held key l (key a) = none := by
      simpa [held_eq_none, findIdx?_eq_none_iff] using hf
    by_cases hk : key a = k
    · subst hk
      rw [held] at hn
      simp [held, find?_append, hn]
    · simp [held, find?_append, hk]
  | some i =>
    obtain ⟨hi, hd, -⟩ := findIdx?_eq_some_iff_getElem.mp hf
    have hs : ∃ x, held key l (key a) = some x := by
      refine Option.ne_none_iff_exists'.mp fun hn => held_eq_none.mp hn ?_
      exact mem_map.mpr ⟨l[i], getElem_mem hi, by simpa using hd⟩
    dsimp only
    split_ifs with hr hk hk
    · rw [held_set hf, if_pos hk]
    · rw [held_set hf, if_neg hk]
    · obtain ⟨x, hx⟩ := hs
      rw [← hk, hx, Option.getD_some]
    · rfl

/-- Lists with the same keys in the same order, and the same entries for them. -/
theorem eq_of_held (hk : l.map key = m.map key) (hn : (l.map key).Nodup)
    (h : ∀ k, held key l k = held key m k) : l = m := by
  induction l generalizing m with
  | nil => exact (map_eq_nil_iff.mp hk.symm).symm
  | cons x l ih =>
    obtain ⟨y, m, rfl⟩ := exists_cons_of_ne_nil (l := m) (by rintro rfl; simp at hk)
    rw [map_cons, map_cons, List.cons.injEq] at hk
    obtain ⟨hx, hl⟩ := nodup_cons.mp hn
    obtain rfl : x = y := by simpa [held, hk.1] using h (key y)
    congr
    refine ih hk.2 hl fun k => ?_
    by_cases he : key x = k
    · subst he
      rw [held_eq_none.mpr hx, held_eq_none.mpr (hk.2 ▸ hx)]
    · simpa [held, he] using h k

end Tinyflows.Lib
