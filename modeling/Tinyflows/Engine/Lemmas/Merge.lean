import Tinyflows.Engine.State

/-!
# Merging updates

An update nested below a path changes nothing beside the path, as long as no key of the path is the
sentinel. Updates below paths that part ways commute.
-/

namespace Tinyflows.Engine
open Lib List Option Json

/-! ## One field -/

variable {key : String} {fs : List (String × Json)} {pa p : List String}

theorem merge_single (h : key ≠ REPLACE) (ba v) : merge ba (.obj [(key, v)]) =
      .obj (insertField key (merge ((ba.get key).getD .null) v) ba.fields) := by
  simp only [merge, if_neg h, mergeFields]
  rfl

@[simp] theorem merge_replace (ba v) : merge ba (replace v) = v := by
  simp only [replace, merge, if_true]

theorem get_merge_single (h : key ≠ REPLACE) (ba v) :
    (merge ba (.obj [(key, v)])).get key = some (merge ((ba.get key).getD .null) v) := by
  rw [merge_single h, get_obj, lookup_insertField_self]

theorem get_merge_single_ne {other} (h : key ≠ REPLACE) (hn : other ≠ key) (ba v) :
    (merge ba (.obj [(key, v)])).get other = ba.get other := by
  rw [merge_single h, get_obj, lookup_insertField_ne hn]
  rfl

theorem merge_obj (h : ∀ v, fs ≠ [(REPLACE, v)]) (ba) :
    merge ba (.obj fs) = .obj (mergeFields ba.fields fs) := by
  cases fs with
  | nil => rfl
  | cons f re =>
    obtain ⟨key, v⟩ := f
    cases re with
    | nil =>
      have hk : key ≠ REPLACE := fun he => h v (by rw [he])
      simp only [merge, if_neg hk]
    | cons g re => simp only [merge]

theorem lookup_mergeFields {ba} (h : (fs.map Prod.fst).Nodup) (key) :
    (mergeFields ba fs).lookup key =
      match fs.lookup key with
      | none => ba.lookup key
      | some v => some (merge ((ba.lookup key).getD .null) v) := by
  induction fs generalizing ba with
  | nil => rfl
  | cons f re ih =>
    obtain ⟨k, v⟩ := f
    rw [map_cons, nodup_cons] at h
    rw [mergeFields, ih h.2, lookup_insertField, lookup_cons_eq]
    by_cases hk : key = k
    · subst hk
      have hn : re.lookup key = none := by
        rw [lookup_eq_none_iff]
        intro f hf
        rw [bne_iff_ne]
        intro he
        exact h.1 (mem_map.mpr ⟨f, hf, he.symm⟩)
      simp only [hn, if_true]
    · simp only [if_neg hk]

theorem get_merge_obj (h : ∀ v, fs ≠ [(REPLACE, v)]) (hn : (fs.map Prod.fst).Nodup) (ba)
    {v} (hv : fs.lookup key = some v) :
    (merge ba (.obj fs)).get key = some (merge ((ba.get key).getD .null) v) := by
  rw [merge_obj h, get_obj, lookup_mergeFields hn, hv]
  rfl

/-! ## Nested updates -/

def Plain (path : List String) : Prop :=
  ∀ key ∈ path, key ≠ REPLACE

theorem Plain.head (h : Plain (key :: pa)) : key ≠ REPLACE :=
  h key mem_cons_self

theorem Plain.tail {key pa} (h : Plain (key :: pa)) : Plain pa :=
  fun k hk => h k (mem_cons_of_mem _ hk)

theorem merge_nest_atPath (h : Plain pa) (s v) :
    (merge s (nest pa v)).atPath pa = some (merge ((s.atPath pa).getD .null) v) := by
  induction pa generalizing s with
  | nil => rfl
  | cons key pa ih =>
    rw [nest, atPath_cons, get_merge_single h.head, bind_some, ih h.tail,
      atPath_cons]
    cases hk : s.get key with
    | none =>
      cases pa with
      | nil => rfl
      | cons _ _ => rfl
    | some w => rfl

theorem merge_atPath {u} (hu : u.Sorted) (h : Plain pa) {v} (hv : u.atPath pa = some v)
    (s) : (merge s u).atPath pa = some (merge ((s.atPath pa).getD .null) v) := by
  induction pa generalizing s u with
  | nil =>
    cases hv
    rfl
  | cons key pa ih =>
    cases u with
    | obj fs =>
      obtain ⟨x, hx, hX⟩ := bind_eq_some_iff.mp hv
      have hs : ∀ y, fs ≠ [(REPLACE, y)] := by
        rintro y rfl
        rw [get_obj, lookup_cons_eq, if_neg h.head] at hx
        cases hx
      have ho : x.Sorted := by
        have := hu.getD key
        rwa [hx] at this
      rw [atPath_cons, get_merge_obj hs hu.fields.nodup_keys _ hx, bind_some,
        ih ho h.tail hX, atPath_cons]
      cases hk : s.get key with
      | some w => rfl
      | none =>
        cases pa with
        | nil => rfl
        | cons _ _ => rfl
    | _ => cases hv

theorem merge_nest_frame (h : Plain pa) (s v) (hp : ¬ p <+: pa) (hp' : ¬ pa <+: p) :
    (merge s (nest pa v)).atPath p = s.atPath p := by
  induction pa generalizing s p with
  | nil => exact absurd nil_prefix hp'
  | cons key pa ih =>
    cases p with
    | nil => exact absurd nil_prefix hp
    | cons k p =>
      rw [nest, atPath_cons, atPath_cons]
      by_cases hk : k = key
      · subst hk
        rw [cons_prefix_cons, not_and] at hp hp'
        rw [get_merge_single h.head, bind_some, ih h.tail _ (hp rfl) (hp' rfl)]
        cases hs : s.get k with
        | some w => rfl
        | none =>
          exact null_atPath fun he => hp rfl (he ▸ nil_prefix)
      · rw [get_merge_single_ne h.head hk]

theorem merge_nest_comm {q} (hp : Plain p) (hq : Plain q) (hP : ¬ p <+: q)
    (hQ : ¬ q <+: p) {s} (hs : s.Sorted) (v w) :
    merge (merge s (nest p v)) (nest q w) =
      merge (merge s (nest q w)) (nest p v) := by
  induction p generalizing s q with
  | nil => exact absurd nil_prefix hP
  | cons k p ih =>
    cases q with
    | nil => exact absurd nil_prefix hQ
    | cons k' q =>
      simp only [nest]
      by_cases hk : k = k'
      · subst hk
        rw [cons_prefix_cons, not_and] at hP hQ
        have hi := ih hp.tail hq.tail (hP rfl) (hQ rfl) (hs.getD k)
        rw [merge_single hq.head (merge s _), merge_single hp.head (merge s _),
          get_merge_single hp.head, get_merge_single hq.head, getD_some, getD_some,
          hi, merge_single hp.head s, merge_single hq.head s, fields, fields,
          insertField_insertField_self, insertField_insertField_self]
      · rw [merge_single hq.head (merge s _), merge_single hp.head (merge s _),
          get_merge_single_ne hp.head (Ne.symm hk), get_merge_single_ne hq.head hk,
          merge_single hp.head s, merge_single hq.head s, fields, fields,
          insertField_comm hs.fields (Ne.symm hk)]

end Tinyflows.Engine
